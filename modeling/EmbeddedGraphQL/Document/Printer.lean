import EmbeddedGraphQL.Document.Ast
import EmbeddedGraphQL.Text.Blank

/-!
The text of values. A quoted string escapes control characters, quotes and backslashes; a block
string is laid out over several lines where that reads better.
-/
namespace EmbeddedGraphQL.Print

def hexDigits : List Char := "0123456789ABCDEF".toList

def controlEscape (n : Nat) : List Char :=
  ['\\', 'u', '0', '0', hexDigits.getD (n / 16) '0', hexDigits.getD (n % 16) '0']

def escapeChar (c : Char) : List Char :=
  if c = '"' then ['\\', '"']
  else if c = '\\' then ['\\', '\\']
  else if c = '\x08' then ['\\', 'b']
  else if c = '\t' then ['\\', 't']
  else if c = '\n' then ['\\', 'n']
  else if c = '\x0c' then ['\\', 'f']
  else if c = '\r' then ['\\', 'r']
  else if c.val.toNat < 0x20 ∨ (0x7F ≤ c.val.toNat ∧ c.val.toNat < 0xA0) then
    controlEscape c.val.toNat
  else [c]

/-- A string between quotes. -/
def quoted (s : String) : String :=
  String.ofList ('"' :: (s.toList.flatMap escapeChar ++ ['"']))

/-- Characters that end a line of a block string when it is laid out. -/
def isLineEnd (c : Char) : Bool :=
  let n := c.val.toNat
  (10 ≤ n && n ≤ 13) || (0x1C ≤ n && n ≤ 0x1E) || n == 0x85 || n == 0x2028 || n == 0x2029

/-- The lines of a text without their ends; an end at the end of the text starts no line. -/
def linesFrom (line : List Char) : List Char → List (List Char)
  | [] => if line.isEmpty then [] else [line.reverse]
  | '\r' :: '\n' :: rest => line.reverse :: linesFrom [] rest
  | c :: rest =>
    if isLineEnd c then line.reverse :: linesFrom [] rest else linesFrom (c :: line) rest

/-- Three quotes inside a block string are escaped. -/
def escapeBlock : List Char → List Char
  | '"' :: '"' :: '"' :: rest => '\\' :: '"' :: '"' :: '"' :: escapeBlock rest
  | c :: rest => c :: escapeBlock rest
  | [] => []

def isIndent (c : Char) : Bool := c == ' ' || c == '\t'

def startsIndented (line : List Char) : Bool := line.head?.any isIndent

/-- A string between three quotes on each side. -/
def block (s : String) : String :=
  let value := s.toList
  let escaped := escapeBlock value
  let lines := linesFrom [] escaped
  let isSingleLine := lines.length ≤ 1
  let forceBefore :=
    !isSingleLine && (lines.drop 1).all fun line => line.isEmpty || startsIndented line
  let endsInQuotes := ['"', '"', '"', '\\'].isPrefixOf escaped.reverse
  let forceAfter :=
    (value.getLast? == some '"' && !endsInQuotes) || value.getLast? == some '\\'
  let isMultiLine :=
    !isSingleLine || 70 < value.length || forceAfter || forceBefore || endsInQuotes
  let skipsBefore := isSingleLine && startsIndented value
  let before := if (isMultiLine && !skipsBefore) || forceBefore then "\n" else ""
  let after := if isMultiLine || forceAfter then "\n" else ""
  "\"\"\"" ++ before ++ String.ofList escaped ++ after ++ "\"\"\""

mutual

/-- A value as GraphQL text. -/
def value : Value → String
  | .variable n _ => "$" ++ n.value
  | .int text _ | .float text _ => text
  | .string text isBlock _ => if isBlock then block text else quoted text
  | .boolean b _ => if b then "true" else "false"
  | .null _ => "null"
  | .enum text _ => text
  | .list items _ => "[" ++ ", ".intercalate (values items) ++ "]"
  | .object fields _ => "\x7b" ++ ", ".intercalate (objectFields fields) ++ "\x7d"

def values : List Value → List String
  | [] => []
  | v :: rest => value v :: values rest

def objectFields : List (Name × Value) → List String
  | [] => []
  | (n, v) :: rest => (n.value ++ ": " ++ value v) :: objectFields rest

end

/-- Whether a text comes back the same when it is written as a block string. -/
def isBlockText (s : String) : Bool := go true false true false s.toList
where
  /-- `emptyLine` and `indented` speak of the line so far, `commonIndent` of all lines, and
  `seenLine` tells whether a line has ended. -/
  go (emptyLine indented commonIndent seenLine : Bool) : List Char → Bool
    | [] => s == "" || (!emptyLine && !(commonIndent && seenLine))
    | c :: rest =>
      if c = '\n' then
        if emptyLine && !seenLine then false else go true false commonIndent true rest
      else if isIndent c then go emptyLine (indented || emptyLine) commonIndent seenLine rest
      else if c.val.toNat ≤ 0x0F then false
      else go false indented (commonIndent && indented) seenLine rest

/-- A description, as a block string where that keeps its text. -/
def description (s : String) : String := if isBlockText s then block s else quoted s

end EmbeddedGraphQL.Print
