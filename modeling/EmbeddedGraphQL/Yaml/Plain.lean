import EmbeddedGraphQL.Json.Basic
import EmbeddedGraphQL.Decimal.Numeral

/-!
What a plain scalar stands for. Its spelling alone tells null, flags, whole numbers, floating point
numbers and dates from text. Numbers may hold underscores and may be written in base sixty, with
colons between the places.
-/
namespace EmbeddedGraphQL.Yaml

/-- The kinds of plain scalars. -/
inductive PlainKind where
  | null
  | flag (b : Bool)
  | whole (n : Int)
  | float (x : Float)
  | date
  | merge
  | defaultValue
  | text

namespace Plain

def nullWords : List String := ["", "~", "null", "Null", "NULL"]

def trueWords : List String :=
  ["yes", "Yes", "YES", "true", "True", "TRUE", "on", "On", "ON"]

def falseWords : List String :=
  ["no", "No", "NO", "false", "False", "FALSE", "off", "Off", "OFF"]

def isDigitOrUnderscore (c : Char) : Bool := c.isDigit || c == '_'

/-- The sign of a numeral and what follows it. -/
def signed : List Char → Bool × List Char
  | '-' :: rest => (true, rest)
  | '+' :: rest => (false, rest)
  | text => (false, text)

/-- The value of digits in a base; characters that are no digits do not count. -/
def inBase (base : Nat) (digits : List Char) : Nat :=
  digits.foldl (fun value c =>
    let n := c.toNat
    if c.isDigit then base * value + (n - 48)
    else if 'a' ≤ c ∧ c ≤ 'f' then base * value + (n - 87)
    else if 'A' ≤ c ∧ c ≤ 'F' then base * value + (n - 55)
    else value) 0

/-- Splits a text into what precedes each colon. -/
def places (text : List Char) : List (List Char) :=
  (text.splitBy fun a b => a != ':' && b != ':').filter (· != [':'])

/-- One or two digits that write a number below sixty. -/
def isPlace : List Char → Bool
  | [a] => a.isDigit
  | [a, b] => '0' ≤ a && a ≤ '5' && b.isDigit
  | _ => false

/-- Whether colons and places alternate in a text, with a colon at its start. -/
def arePlaces : List Char → Bool
  | ':' :: rest =>
    let place := rest.takeWhile (· != ':')
    isPlace place && (place.length == rest.length || arePlaces (rest.drop place.length))
  | _ => false
termination_by text => text.length
decreasing_by simp only [List.length_cons, List.length_drop]; omega

def startsNumeral (text : List Char) : Bool := text.head?.any Char.isDigit

/-- The size of a whole number: in base two, eight, ten, sixteen or sixty. -/
def wholeSize? (text : List Char) : Option Nat :=
  match text with
  | '0' :: 'b' :: rest =>
    if !rest.isEmpty && rest.all (fun c => c == '0' || c == '1' || c == '_') then
      some (inBase 2 rest)
    else none
  | '0' :: 'x' :: rest =>
    let isHex (c : Char) : Bool :=
      isDigitOrUnderscore c || ('a' ≤ c && c ≤ 'f') || ('A' ≤ c && c ≤ 'F')
    if !rest.isEmpty && rest.all isHex then some (inBase 16 rest) else none
  | '0' :: rest =>
    if rest.all fun c => ('0' ≤ c && c ≤ '7') || c == '_' then some (inBase 8 rest) else none
  | c :: _ =>
    if !c.isDigit then none
    else
      let leading := text.takeWhile isDigitOrUnderscore
      let rest := text.drop leading.length
      if rest.isEmpty then some (inBase 10 leading)
      else if arePlaces rest then
        some ((places rest).foldl (fun value place => 60 * value + inBase 10 place)
          (inBase 10 leading))
      else none
  | [] => none

def whole? (text : List Char) : Option Int :=
  let (negative, rest) := signed text
  (wholeSize? rest).map fun n => if negative then -(n : Int) else n

/-- An exponent with a sign, or nothing. -/
def isExponent : List Char → Bool
  | [] => true
  | c :: s :: rest =>
    (c == 'e' || c == 'E') && (s == '-' || s == '+') && !rest.isEmpty && rest.all Char.isDigit
  | [_] => false

def decimal (text : List Char) : Option Float :=
  Decimal.numeral? (String.ofList (text.filter (· != '_')))

/-- The value of places in base sixty, the last of which may have a fraction. -/
def sixties (parts : List (List Char)) : Float :=
  (parts.reverse.foldl (fun (sum, base) part =>
    (sum + ((decimal part).getD 0.0) * base, base * 60.0)) (0.0, 1.0)).1

def infinityWords : List String := [".inf", ".Inf", ".INF"]

def undefinedWords : List String := [".nan", ".NaN", ".NAN"]

/-- The size of a number with a point. -/
def floatSize? (isSigned : Bool) (text : List Char) : Option Float :=
  if infinityWords.contains (String.ofList text) then some (1.0 / 0.0)
  else if !isSigned && undefinedWords.contains (String.ofList text) then some (0.0 / 0.0)
  else if startsNumeral text then
    let leading := text.takeWhile isDigitOrUnderscore
    match text.drop leading.length with
    | '.' :: rest =>
      if isExponent (rest.dropWhile isDigitOrUnderscore) then decimal text else none
    | rest =>
      let placed := rest.takeWhile (· != '.')
      let after := rest.drop placed.length
      if arePlaces placed && after.head? == some '.' && (after.drop 1).all isDigitOrUnderscore then
        let parts := leading :: places placed
        some (sixties (parts.dropLast ++ [(parts.getLast?.getD []) ++ after]))
      else none
  else match text with
    | '.' :: rest =>
      if !isSigned && startsNumeral rest && isExponent (rest.dropWhile isDigitOrUnderscore) then
        decimal text
      else none
    | _ => none

def float? (text : List Char) : Option Float :=
  let (negative, rest) := signed text
  (floatSize? (rest.length != text.length) rest).map fun x => if negative then -x else x

/-- Between `least` and `most` digits at the start of a text. -/
def digitsThen (least most : Nat) (text : List Char) : Option (List Char) :=
  let digits := (text.take most).takeWhile Char.isDigit
  if least ≤ digits.length then some (text.drop digits.length) else none

def markThen (mark : Char) : List Char → Option (List Char)
  | c :: rest => if c = mark then some rest else none
  | [] => none

/-- A time zone at the end of a date, or nothing. -/
def isZone (text : List Char) : Bool :=
  match text.dropWhile fun c => c == ' ' || c == '\t' with
  | [] => text.isEmpty
  | 'Z' :: rest => rest.isEmpty
  | c :: rest =>
    (c == '+' || c == '-') &&
      ((digitsThen 1 2 rest).any fun rest => rest.isEmpty ||
        (((markThen ':' rest).bind (digitsThen 2 2)).any (·.isEmpty)))

/-- The time of day of a date, which a letter or blanks introduce. -/
def isTime (text : List Char) : Bool :=
  let blanks := text.takeWhile fun c => c == ' ' || c == '\t'
  let start := match text with
    | 'T' :: rest | 't' :: rest => some rest
    | _ => if blanks.isEmpty then none else some (text.drop blanks.length)
  let rest := do
    let rest ← digitsThen 1 2 (← start)
    let rest ← digitsThen 2 2 (← markThen ':' rest)
    digitsThen 2 2 (← markThen ':' rest)
  rest.any fun rest =>
    match rest with
    | '.' :: rest => isZone (rest.dropWhile Char.isDigit)
    | rest => isZone rest

def isDate (text : List Char) : Bool :=
  let day (least : Nat) : Option (List Char) := do
    let rest ← digitsThen 4 4 text
    let rest ← digitsThen least 2 (← markThen '-' rest)
    digitsThen least 2 (← markThen '-' rest)
  (day 2).any (·.isEmpty) || (day 1).any isTime

/-- What a plain scalar stands for. -/
def kind (text : String) : PlainKind :=
  let chars := text.toList
  if nullWords.contains text then .null
  else if trueWords.contains text then .flag true
  else if falseWords.contains text then .flag false
  else match float? chars with
    | some x => .float x
    | none =>
      match whole? chars with
      | some n => .whole n
      | none =>
        if isDate chars then .date
        else if text == "<<" then .merge
        else if text == "=" then .defaultValue
        else .text

/-- Whether a text written plainly is read as that text. -/
def isText (text : String) : Bool :=
  match kind text with
  | .text => true
  | _ => false

end Plain
end EmbeddedGraphQL.Yaml
