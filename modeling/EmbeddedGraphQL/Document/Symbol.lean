import EmbeddedGraphQL.Json.Reader
import EmbeddedGraphQL.Highlight.Lexeme

/-!
Symbols of the GraphQL language. Unlike the lexemes of a half-typed document they come from a
strict reading, which stops at the first character that fits no symbol. Blanks, commas and comments
lie between symbols and are skipped.
-/
namespace EmbeddedGraphQL

inductive SymbolKind where
  | punctuator
  | name
  | int
  | float
  | string
  | blockString
  deriving DecidableEq, Repr

/-- A symbol with its place. The value of a string is its text without quotes and escapes; that of
any other symbol is the symbol as written. -/
structure Symbol where
  kind : SymbolKind
  value : String
  start : Nat
  stop : Nat
  deriving DecidableEq, Repr

/-- Why a text is no document. Where a symbol is named, its description is kept. -/
inductive SyntaxProblem where
  | strayCharacter (shown : String)
  | singleQuote
  | digitAfterZero (shown : String)
  | digitExpected (shown : String)
  | unterminatedString
  | invalidEscape (written : String)
  | invalidUnicodeEscape (written : String)
  | unexpected (found : String)
  | expected (wanted found : String)
  | variableInConstant (name : String)
  | reservedEnumValue (found : String)
  | descriptionOnShorthand
  | descriptionOnOther
  deriving DecidableEq, Repr

structure SyntaxError where
  problem : SyntaxProblem
  offset : Nat
  deriving DecidableEq, Repr

def SyntaxProblem.message : SyntaxProblem → String
  | strayCharacter shown => s!"Unexpected character: {shown}."
  | singleQuote =>
    "Unexpected single quote character ('), did you mean to use a double quote (\")?"
  | digitAfterZero shown => s!"Invalid number, unexpected digit after 0: {shown}."
  | digitExpected shown => s!"Invalid number, expected digit but got: {shown}."
  | unterminatedString => "Unterminated string."
  | invalidEscape written => s!"Invalid character escape sequence: '{written}'."
  | invalidUnicodeEscape written => s!"Invalid Unicode escape sequence: '{written}'."
  | unexpected found => s!"Unexpected {found}."
  | expected wanted found => s!"Expected {wanted}, found {found}."
  | variableInConstant name => s!"Unexpected variable '${name}' in constant value."
  | reservedEnumValue found => s!"{found} is reserved and cannot be used for an enum value."
  | descriptionOnShorthand =>
    "Unexpected description, descriptions are not supported on shorthand queries."
  | descriptionOnOther =>
    "Unexpected description, only GraphQL definitions support descriptions."

def SyntaxError.message (e : SyntaxError) : String := "Syntax Error: " ++ e.problem.message

/-- What one round of reading gives: skipped characters, a symbol, or a problem some characters
further on. Counts leave out the first character. -/
inductive Munched where
  | skipped (taken : Nat)
  | symbol (kind : SymbolKind) (value : List Char) (taken : Nat)
  | problem (problem : SyntaxProblem) (distance : Nat)
  deriving DecidableEq, Repr

namespace Symbol

def isSkipped (c : Char) : Bool :=
  c == ' ' || c == '\t' || c == ',' || c == '\uFEFF' || c == '\n' || c == '\r'

def isPunctuator (c : Char) : Bool := Lexeme.isPunctuator c || c == '$' || c == '@'

/-- A code point with at least four hexadecimal digits. -/
def codePointText (n : Nat) : String :=
  let digits := (Nat.toDigits 16 n).map Char.toUpper
  "U+" ++ String.ofList (List.replicate (4 - digits.length) '0' ++ digits)

/-- How the first character of a text is shown in a message. -/
def shown : List Char → String
  | [] => "<EOF>"
  | c :: _ =>
    if ' ' ≤ c ∧ c ≤ '~' then String.ofList ['\'', c, '\''] else codePointText c.val.toNat

/-- What a single-character escape stands for. -/
def escapedChar? (c : Char) : Option Char := Json.simpleEscape? c

/-- Hexadecimal digits up to a closing brace. `read` counts the characters of the escape so far and
`point` is the value of the digits; at most `limit` characters are read. The number of characters
read is given in either case. -/
def bracedPoint (limit read point : Nat) : List Char → Except Nat (Char × Nat)
  | [] => .error read
  | c :: rest =>
    if limit ≤ read then .error read
    else if c = '}' then
      if read + 1 < 5 ∨ ¬ point.isValidChar then .error (read + 1)
      else .ok (Char.ofNat point, read + 1)
    else match Json.hexValue? c with
      | some digit => bracedPoint limit (read + 1) (16 * point + digit) rest
      | none => .error (read + 1)

/-- The character that a backslash and the text after it stand for, with the number of characters
taken after the backslash. An escape that the end of the text cuts off stands for nothing. -/
def escape (rest : List Char) : Except SyntaxProblem (Char × Nat) :=
  match rest with
  | 'u' :: '{' :: digits =>
    match bracedPoint (min 12 (rest.length + 1)) 3 0 digits with
    | .ok (c, size) => .ok (c, size - 1)
    | .error size =>
      .error (.invalidUnicodeEscape (String.ofList ('\\' :: rest.take (size - 1))))
  | 'u' :: digits =>
    let invalid : Except SyntaxProblem (Char × Nat) :=
      .error (.invalidUnicodeEscape (String.ofList ('\\' :: rest.take 5)))
    match Json.unit? digits with
    | none => invalid
    | some (code, after) =>
      if code.isValidChar then .ok (Char.ofNat code, 5)
      else if code < 0xDC00 then
        match after with
        | '\\' :: 'u' :: low =>
          match Json.unit? low with
          | some (trailing, _) =>
            if 0xDC00 ≤ trailing ∧ trailing ≤ 0xDFFF then
              .ok (Char.ofNat (0x10000 + (code - 0xD800) * 1024 + (trailing - 0xDC00)), 11)
            else invalid
          | none => invalid
        | _ => invalid
      else invalid
  | c :: _ =>
    match escapedChar? c with
    | some value => .ok (value, 1)
    | none => .error (.invalidEscape (String.ofList ['\\', c]))
  | [] => .error (.invalidEscape "\\")

/-- Reads a string after its opening quote. `taken` counts the characters read and `value` holds
what they stand for, last one first. -/
def stringBody (taken : Nat) (value : List Char) (text : List Char) : Munched :=
  match text with
  | [] => .problem .unterminatedString (taken + 1)
  | c :: rest =>
    if c = '"' then .symbol .string value.reverse (taken + 1)
    else if c = '\\' then
      match escape rest with
      | .ok (c, size) => stringBody (taken + 1 + size) (c :: value) (rest.drop size)
      | .error problem => .problem problem (taken + 1)
    else if c = '\n' ∨ c = '\r' then .problem .unterminatedString (taken + 1)
    else stringBody (taken + 1) (c :: value) rest
termination_by text.length
decreasing_by
  · simp only [List.length_drop, List.length_cons]; omega
  · simp

/-- Reads a block string after its opening quotes. `lines` are the finished lines and `line` the
characters of the current one, all last one first. -/
def blockBody (taken : Nat) (lines : List (List Char)) (line : List Char) :
    List Char → Except Nat (List (List Char) × Nat)
  | '"' :: '"' :: '"' :: _ => .ok ((line.reverse :: lines).reverse, taken + 3)
  | '\\' :: '"' :: '"' :: '"' :: rest =>
    blockBody (taken + 4) lines ('"' :: '"' :: '"' :: line) rest
  | '\r' :: '\n' :: rest => blockBody (taken + 2) (line.reverse :: lines) [] rest
  | c :: rest =>
    if c = '\n' ∨ c = '\r' then blockBody (taken + 1) (line.reverse :: lines) [] rest
    else blockBody (taken + 1) lines (c :: line) rest
  | [] => .error taken

def isIndent (c : Char) : Bool := c == ' ' || c == '\t'

def isBlankLine (line : List Char) : Bool := line.all isIndent

def indentOf (line : List Char) : Nat := (line.takeWhile isIndent).length

/-- The least indent of the lines that are not blank. -/
def commonIndent (lines : List (List Char)) : Option Nat :=
  ((lines.filter (!isBlankLine ·)).map indentOf).min?

/-- Removes the common indent of all lines but the first, and blank lines at both ends. -/
def dedent : List (List Char) → List (List Char)
  | [] => []
  | first :: rest =>
    let cut : List Char → List Char := match commonIndent rest with
      | some n => fun line => line.drop n
      | none => fun _ => []
    ((((first :: rest.map cut).dropWhile isBlankLine).reverse).dropWhile isBlankLine).reverse

/-- Digits that a number must have at this place, with what follows them. -/
def digits (offset : Nat) (text : List Char) :
    Except (SyntaxProblem × Nat) (List Char × List Char) :=
  let read := text.takeWhile Char.isDigit
  if read.isEmpty then .error (.digitExpected (shown text), offset)
  else .ok (read, text.drop read.length)

/-- The digits of a number in front of its point. A zero stands alone. -/
def whole (offset : Nat) (text : List Char) :
    Except (SyntaxProblem × Nat) (List Char × List Char) :=
  match text with
  | '0' :: rest =>
    if rest.head?.any Char.isDigit then .error (.digitAfterZero (shown rest), offset + 1)
    else .ok (['0'], rest)
  | _ => digits offset text

/-- The point of a number and the digits behind it, if there is a point. -/
def fraction (offset : Nat) (text : List Char) :
    Except (SyntaxProblem × Nat) (List Char × List Char) :=
  match text with
  | '.' :: rest => (digits (offset + 1) rest).map fun (found, rest) => ('.' :: found, rest)
  | _ => .ok ([], text)

/-- The mark, the sign and the digits of an exponent, if there is a mark. -/
def exponent (offset : Nat) (text : List Char) :
    Except (SyntaxProblem × Nat) (List Char × List Char) :=
  match text with
  | mark :: rest =>
    if mark = 'e' ∨ mark = 'E' then
      let sign := match rest with
        | '+' :: _ => ['+']
        | '-' :: _ => ['-']
        | _ => []
      (digits (offset + 1 + sign.length) (rest.drop sign.length)).map fun (found, rest) =>
        (mark :: (sign ++ found), rest)
    else .ok ([], text)
  | [] => .ok ([], text)

/-- Reads a number from its first character on; `text` is all of it. -/
def number (text : List Char) : Except (SyntaxProblem × Nat) (SymbolKind × List Char) := do
  let sign := if text.head? = some '-' then ['-'] else []
  let (whole, text) ← whole sign.length (text.drop sign.length)
  let read := sign ++ whole
  let (fraction, text) ← fraction read.length text
  let read := read ++ fraction
  let (exponent, text) ← exponent read.length text
  let read := read ++ exponent
  if text.head?.any fun c => c == '.' || Lexeme.isNameStart c then
    throw (.digitExpected (shown text), read.length)
  return (if fraction.isEmpty && exponent.isEmpty then .int else .float, read)

/-- Reads what starts with the character `c`. -/
def munch (c : Char) (rest : List Char) : Munched :=
  if isSkipped c then .skipped 0
  else if c = '#' then .skipped (rest.takeWhile fun c => c ≠ '\n' ∧ c ≠ '\r').length
  else if c = '"' then
    match rest with
    | '"' :: '"' :: body =>
      match blockBody 0 [] [] body with
      | .ok (lines, taken) =>
        .symbol .blockString (['\n'].intercalate (dedent lines)) (taken + 2)
      | .error taken => .problem .unterminatedString (taken + 3)
    | _ => stringBody 0 [] rest
  else if isPunctuator c then .symbol .punctuator [c] 0
  else if c = '.' ∧ ['.', '.'].isPrefixOf rest then .symbol .punctuator ['.', '.', '.'] 2
  else if c.isDigit || c == '-' then
    match number (c :: rest) with
    | .ok (kind, written) => .symbol kind written (written.length - 1)
    | .error (problem, distance) => .problem problem distance
  else if Lexeme.isNameStart c then
    let more := rest.takeWhile Text.isNameChar
    .symbol .name (c :: more) more.length
  else if c = '\'' then .problem .singleQuote 0
  else .problem (.strayCharacter (shown (c :: rest))) 0

/-- How a description of a symbol starts: the symbol itself, or the word for its kind. -/
def kindText (kind : SymbolKind) (value : String) : String :=
  match kind with
  | .punctuator => s!"'{value}'"
  | .name => "Name"
  | .int => "Int"
  | .float => "Float"
  | .string => "String"
  | .blockString => "BlockString"

/-- How a symbol is described in messages. -/
def describe (s : Symbol) : String :=
  if s.kind = .punctuator then kindText s.kind s.value
  else s!"{kindText s.kind s.value} '{s.value}'"

end Symbol

/-- The symbols of a text up to its end, at `stop`, or up to the first problem. -/
structure SymbolList where
  symbols : List Symbol
  problem : Option SyntaxError
  stop : Nat
  deriving DecidableEq, Repr

namespace SymbolList

def readFrom (offset : Nat) (text : List Char) : SymbolList :=
  match text with
  | [] => ⟨[], none, offset⟩
  | c :: rest =>
    match Symbol.munch c rest with
    | .skipped taken => SymbolList.readFrom (offset + 1 + taken) (rest.drop taken)
    | .symbol kind value taken =>
      let after := SymbolList.readFrom (offset + 1 + taken) (rest.drop taken)
      { after with
        symbols := ⟨kind, String.ofList value, offset, offset + 1 + taken⟩ :: after.symbols }
    | .problem problem distance => ⟨[], some ⟨problem, offset + distance⟩, offset⟩
termination_by text.length
decreasing_by
  · simp only [List.length_drop, List.length_cons]; omega
  · simp only [List.length_drop, List.length_cons]; omega

/-- Reads a text strictly. -/
def ofText (text : List Char) : SymbolList := SymbolList.readFrom 0 text

end SymbolList

/-- Line and column of an offset, both counted from one. Here a line ends at a line feed, at a
carriage return, or at both together. -/
def sourceLocation (text : List Char) (offset : Nat) : Nat × Nat :=
  go 1 0 0 text
where
  /-- `line` and `start` are those of the line reached, `at` is the offset reached. -/
  go (line start reached : Nat) : List Char → Nat × Nat
    | '\r' :: '\n' :: rest =>
      if offset ≤ reached then (line, offset + 1 - start)
      else go (line + 1) (reached + 2) (reached + 2) rest
    | c :: rest =>
      if offset ≤ reached then (line, offset + 1 - start)
      else if c = '\n' ∨ c = '\r' then go (line + 1) (reached + 1) (reached + 1) rest
      else go line start (reached + 1) rest
    | [] => (line, offset + 1 - start)

end EmbeddedGraphQL
