import EmbeddedGraphQL.Json.Basic
import EmbeddedGraphQL.Decimal.Binary64

/-!
Reading JSON text. Besides the standard grammar the words NaN, Infinity and -Infinity stand for
numbers, and the last of several members with one key wins. Surrogates may stand alone in strings,
written as escapes or as they are.
-/
namespace EmbeddedGraphQL.Json

def isSpace : CodePoint → Bool
  | .char c => c == ' ' || c == '\t' || c == '\n' || c == '\r'
  | .surrogate _ => false

def skipSpace (text : List CodePoint) : List CodePoint := text.dropWhile isSpace

def hexValue? (c : Char) : Option Nat :=
  if '0' ≤ c ∧ c ≤ '9' then some (c.toNat - 48)
  else if 'a' ≤ c ∧ c ≤ 'f' then some (c.toNat - 87)
  else if 'A' ≤ c ∧ c ≤ 'F' then some (c.toNat - 55)
  else none

/-- Four hexadecimal digits. -/
def unit? : List Char → Option (Nat × List Char)
  | a :: b :: c :: d :: rest => do
    let a ← hexValue? a
    let b ← hexValue? b
    let c ← hexValue? c
    let d ← hexValue? d
    return (a * 4096 + b * 256 + c * 16 + d, rest)
  | _ => none

def simpleEscape? (c : Char) : Option Char :=
  if c = '"' then some '"'
  else if c = '\\' then some '\\'
  else if c = '/' then some '/'
  else if c = 'b' then some '\x08'
  else if c = 'f' then some '\x0c'
  else if c = 'n' then some '\n'
  else if c = 'r' then some '\r'
  else if c = 't' then some '\t'
  else none

/-- The 16-bit unit of a Unicode escape, whose `u` has been read. -/
def escapedUnit? : List CodePoint → Option (Nat × List CodePoint)
  | .char a :: .char b :: .char c :: .char d :: rest =>
    (unit? [a, b, c, d]).map fun (unit, _) => (unit, rest)
  | _ => none

/-- The code point of a Unicode escape, whose `u` has been read. Two escapes that form a surrogate
pair are one character. -/
def unicodeEscape? (text : List CodePoint) : Option (CodePoint × List CodePoint) := do
  let (unit, rest) ← escapedUnit? text
  let paired? := match rest with
    | .char '\\' :: .char 'u' :: after => do
      let (low, rest) ← escapedUnit? after
      return (← CodePoint.ofPair? unit low, rest)
    | _ => none
  return paired?.getD (.ofUnit unit, rest)

/-- The rest of a string after its opening quote. Each round reads at least one code point, so the
length of the text is fuel enough. -/
def stringBody (read : List CodePoint) :
    Nat → List CodePoint → Option (List CodePoint × List CodePoint)
  | 0, _ => none
  | fuel + 1, text =>
    match text with
    | [] => none
    | .char '"' :: rest => some (read.reverse, rest)
    | .char '\\' :: .char 'u' :: rest => do
      let (point, rest) ← unicodeEscape? rest
      stringBody (point :: read) fuel rest
    | .char '\\' :: .char c :: rest => do
      let c ← simpleEscape? c
      stringBody (.char c :: read) fuel rest
    | .char '\\' :: _ => none
    | .char c :: rest => if c.val.toNat < 32 then none else stringBody (.char c :: read) fuel rest
    | point :: rest => stringBody (point :: read) fuel rest

def digitsValue (digits : List Char) : Nat :=
  digits.foldl (fun value c => 10 * value + (c.toNat - 48)) 0

private def exponentPart? (text : List Char) : Option (Int × List Char) :=
  let signed : Option (Bool × List Char) := match text with
    | 'e' :: '-' :: rest | 'E' :: '-' :: rest => some (true, rest)
    | 'e' :: '+' :: rest | 'E' :: '+' :: rest => some (false, rest)
    | 'e' :: rest | 'E' :: rest => some (false, rest)
    | _ => none
  signed.bind fun (negative, rest) =>
    let digits := rest.takeWhile Char.isDigit
    if digits.isEmpty then none
    else
      let n : Int := digitsValue digits
      some (if negative then -n else n, rest.dropWhile Char.isDigit)

/-- Whole numbers of more digits are not read. -/
def longestWhole : Nat := 4300

/-- The longest number at the start of the text. -/
def number? (text : List Char) : Option (Json × List Char) :=
  let (negative, body) := match text with
    | '-' :: rest => (true, rest)
    | _ => (false, text)
  let whole := match body with
    | '0' :: _ => ['0']
    | _ => body.takeWhile Char.isDigit
  if whole.isEmpty then none
  else
    let rest := body.drop whole.length
    let (fraction, rest) := match rest with
      | '.' :: after =>
        let digits := after.takeWhile Char.isDigit
        if digits.isEmpty then ([], rest) else (digits, after.dropWhile Char.isDigit)
      | _ => ([], rest)
    match exponentPart? rest with
    | some (exponent, rest) =>
      some (.float (Decimal.nearest negative (digitsValue (whole ++ fraction))
        (exponent - fraction.length)), rest)
    | none =>
      if fraction.isEmpty then
        let n : Int := digitsValue whole
        if longestWhole < whole.length then none
        else some (.int (if negative then -n else n), rest)
      else
        some (.float (Decimal.nearest negative (digitsValue (whole ++ fraction))
          (-(fraction.length : Int))), rest)

/-- Whether a number may have the code point. -/
def isNumeric : CodePoint → Bool
  | .char c => c.isDigit || c == '-' || c == '+' || c == '.' || c == 'e' || c == 'E'
  | .surrogate _ => false

/-- The longest number at the start of a text that need not be well formed. -/
def numberAt? (text : List CodePoint) : Option (Json × List CodePoint) :=
  let chars := (text.takeWhile isNumeric).filterMap CodePoint.char?
  (number? chars).map fun (value, rest) => (value, text.drop (chars.length - rest.length))

/-- The rest of a text after a word, if it starts with that word. -/
def after? (word : String) (text : List CodePoint) : Option (List CodePoint) :=
  if (word.toList.map CodePoint.char).isPrefixOf text then some (text.drop word.length) else none

private def words : List (String × Json) :=
  [("null", .null), ("true", .bool true), ("false", .bool false), ("NaN", .float (0.0 / 0.0)),
    ("Infinity", .float (1.0 / 0.0)), ("-Infinity", .float (-1.0 / 0.0))]

mutual

/-- The value at the start of the text, which starts with no blank. -/
def value? : Nat → List CodePoint → Option (Json × List CodePoint)
  | 0, _ => none
  | fuel + 1, text =>
    match text with
    | .char '"' :: rest =>
      (stringBody [] (rest.length + 1) rest).map fun (points, rest) => (ofPoints points, rest)
    | .char '[' :: rest =>
      match skipSpace rest with
      | .char ']' :: rest => some (.arr [], rest)
      | rest => (items? fuel [] rest).map fun (items, rest) => (.arr items, rest)
    | .char '{' :: rest =>
      match skipSpace rest with
      | .char '}' :: rest => some (.obj [], rest)
      | rest => (members? fuel [] rest).map fun (members, rest) => (.obj (ofMembers members), rest)
    | _ =>
      let spelled := words.findSome? fun (word, value) => (after? word text).map (value, ·)
      match spelled with
      | some found => some found
      | none => numberAt? text

/-- The items of an array from the next one on, up to its closing bracket. -/
def items? : Nat → List Json → List CodePoint → Option (List Json × List CodePoint)
  | 0, _, _ => none
  | fuel + 1, done, text => do
    let (item, rest) ← value? fuel text
    match skipSpace rest with
    | .char ',' :: rest => items? fuel (item :: done) (skipSpace rest)
    | .char ']' :: rest => return ((item :: done).reverse, rest)
    | _ => none

/-- The members of an object from the next one on, up to its closing brace. A key that is not well
formed is spelled, since no such key is ever asked for. -/
def members? : Nat → List (String × Json) → List CodePoint →
    Option (List (String × Json) × List CodePoint)
  | 0, _, _ => none
  | fuel + 1, done, text =>
    match text with
    | .char '"' :: rest => do
      let (points, rest) ← stringBody [] (rest.length + 1) rest
      let key := CodePoint.spelled points
      match skipSpace rest with
      | .char ':' :: rest =>
        let (value, rest) ← value? fuel (skipSpace rest)
        match skipSpace rest with
        | .char ',' :: rest => members? fuel ((key, value) :: done) (skipSpace rest)
        | .char '}' :: rest => return (((key, value) :: done).reverse, rest)
        | _ => none
      | _ => none
    | _ => none

end

/-- The value that code points write, with blanks around it allowed. Every step into a part of a
value reads a code point first, so the length of the text bounds the depth of the recursion. -/
def ofText? (text : List CodePoint) : Option Json :=
  match value? (2 * text.length + 2) (skipSpace text) with
  | some (value, rest) => if (skipSpace rest).isEmpty then some value else none
  | none => none

/-- The value that a text writes. -/
def parse? (text : String) : Option Json := ofText? (text.toList.map .char)

end EmbeddedGraphQL.Json
