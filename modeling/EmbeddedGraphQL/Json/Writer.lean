import EmbeddedGraphQL.Json.Basic
import EmbeddedGraphQL.Decimal.Shortest

/-!
JSON text: a compact form on one line, and an indented form in which every character outside ASCII
is escaped as UTF-16 units.
-/
namespace EmbeddedGraphQL.Json

def hexDigit (n : Nat) : Char :=
  if n < 10 then Char.ofNat (48 + n) else Char.ofNat (87 + n)

/-- A 16-bit unit as an escape with four lower-case digits. -/
def escapeUnit (n : Nat) : List Char :=
  ['\\', 'u', hexDigit (n / 4096 % 16), hexDigit (n / 256 % 16), hexDigit (n / 16 % 16),
    hexDigit (n % 16)]

/-- A code point above the first 65536 is escaped as two surrogate units. -/
def escapeCodePoint (n : Nat) : List Char :=
  if n < 0x10000 then escapeUnit n
  else
    escapeUnit (0xD800 + (n - 0x10000) / 1024) ++ escapeUnit (0xDC00 + (n - 0x10000) % 1024)

/-- One character inside a quoted string. -/
def escapeChar (ascii : Bool) (c : Char) : List Char :=
  if c = '"' then ['\\', '"']
  else if c = '\\' then ['\\', '\\']
  else if c = '\n' then ['\\', 'n']
  else if c = '\r' then ['\\', 'r']
  else if c = '\t' then ['\\', 't']
  else if c = '\x08' then ['\\', 'b']
  else if c = '\x0c' then ['\\', 'f']
  else if c.val.toNat < 32 || (ascii && 126 < c.val.toNat) then escapeCodePoint c.val.toNat
  else [c]

def quote (ascii : Bool) (s : String) : String :=
  String.ofList ('"' :: (s.toList.flatMap (escapeChar ascii) ++ ['"']))

/-- A text that is not well formed, with surrogates as escapes. -/
def quotePoints (ascii : Bool) (points : List CodePoint) : String :=
  let escape : CodePoint → List Char
    | .char c => escapeChar ascii c
    | .surrogate place => escapeUnit (0xD800 + place)
  String.ofList ('"' :: (points.flatMap escape ++ ['"']))

def floatText (x : Float) : String :=
  { Decimal.plain with infinity := "Infinity", undefined := "NaN" }.write x

mutual

/-- The text of a value without any blanks. -/
def compact : Json → String
  | .null => "null"
  | .bool b => if b then "true" else "false"
  | .int n => toString n
  | .float x => floatText x
  | .str s => quote false s
  | .unpaired points => quotePoints false points
  | .arr items => "[" ++ ",".intercalate (compactItems items) ++ "]"
  | .obj members => "\x7b" ++ ",".intercalate (compactMembers members) ++ "\x7d"

def compactItems : List Json → List String
  | [] => []
  | item :: rest => item.compact :: compactItems rest

def compactMembers : List (String × Json) → List String
  | [] => []
  | (key, value) :: rest => (quote false key ++ ":" ++ value.compact) :: compactMembers rest

end

private def enclose (left right : String) (depth : Nat) (parts : List String) : String :=
  let margin := "\n" ++ "".pushn ' ' (2 * depth)
  if parts.isEmpty then left ++ right
  else
    left ++ margin ++ "  " ++ ("," ++ margin ++ "  ").intercalate parts ++ margin ++ right

mutual

/-- The text of a value with one item a line and two blanks for each level of nesting. -/
def indented (depth : Nat) : Json → String
  | .null => "null"
  | .bool b => if b then "true" else "false"
  | .int n => toString n
  | .float x => floatText x
  | .str s => quote true s
  | .unpaired points => quotePoints true points
  | .arr items => enclose "[" "]" depth (indentedItems (depth + 1) items)
  | .obj members => enclose "\x7b" "\x7d" depth (indentedMembers (depth + 1) members)

def indentedItems (depth : Nat) : List Json → List String
  | [] => []
  | item :: rest => item.indented depth :: indentedItems depth rest

def indentedMembers (depth : Nat) : List (String × Json) → List String
  | [] => []
  | (key, value) :: rest =>
    (quote true key ++ ": " ++ value.indented depth) :: indentedMembers depth rest

end

end EmbeddedGraphQL.Json
