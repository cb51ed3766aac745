import EmbeddedGraphQL.Json.Basic
import EmbeddedGraphQL.Text.Blank
import EmbeddedGraphQL.Decimal.Binary64

/-!
Lenient reading of single values. Texts are taken as they are, while numbers and flags may also be
written as texts, and whole numbers as floating point numbers without a fraction. A text that is not
well formed is not read as anything.
-/
namespace EmbeddedGraphQL

/-- Why a value cannot be read. -/
inductive ValueFault where
  | notObject
  | notText
  | unpairedText
  | notWhole
  | unreadableWhole
  | wholeTooLarge
  | fractional
  | notFinite
  | notFlag
  | unreadableFlag
  deriving DecidableEq, Repr

/-- The name of a fault in answers. -/
def ValueFault.name : ValueFault → String
  | notObject => "model_type"
  | notText => "string_type"
  | unpairedText => "string_unicode"
  | notWhole => "int_type"
  | unreadableWhole => "int_parsing"
  | wholeTooLarge => "int_parsing_size"
  | fractional => "int_from_float"
  | notFinite => "finite_number"
  | notFlag => "bool_type"
  | unreadableFlag => "bool_parsing"

namespace Coercion

abbrev Outcome := Except ValueFault

def text : Json → Outcome String
  | .str s => .ok s
  | .unpaired _ => .error .unpairedText
  | _ => .error .notText

/-- A text, where null says that there is none. -/
def optionalText : Json → Outcome (Option String)
  | .null => .ok none
  | j => (text j).map some

/-- ASCII digits with single underscores between them. -/
def digits? (value : Nat) (afterDigit : Bool) : List Char → Option Nat
  | [] => if afterDigit then some value else none
  | c :: rest =>
    if c = '_' then if afterDigit then digits? value false rest else none
    else if c.isDigit then digits? (10 * value + (c.toNat - 48)) true rest
    else none

/-- Digits that may be followed by a point and zeros. -/
def wholeDigits? (text : List Char) : Option Nat :=
  let fraction := text.dropWhile (· != '.')
  if (fraction.drop 1).all (· == '0') then digits? 0 false (text.takeWhile (· != '.')) else none

/-- Longer numerals are not read. -/
def longestNumeral : Nat := 4300

def wholeOfText (s : String) : Outcome Int :=
  let chars := Text.strip Text.isWhiteSpace s.toList
  if longestNumeral < chars.length then .error .wholeTooLarge
  else
    let value := match chars with
      | '+' :: rest => (wholeDigits? rest).map Int.ofNat
      | '-' :: rest => (wholeDigits? rest).map fun n => -(n : Int)
      | rest => (wholeDigits? rest).map Int.ofNat
    value.elim (.error .unreadableWhole) .ok

/-- Floating point numbers are taken up to the range of 64-bit integers. -/
def wholeOfFloat (x : Float) : Outcome Int :=
  match Decimal.binary? x with
  | none => .error .notFinite
  | some b =>
    if !b.isWhole then .error .fractional
    else
      let n := b.truncate
      if -(Int.pow 2 63) < n ∧ n < Int.pow 2 63 then .ok n else .error .wholeTooLarge

def whole : Json → Outcome Int
  | .int n => .ok n
  | .bool b => .ok (if b then 1 else 0)
  | .float x => wholeOfFloat x
  | .str s => wholeOfText s
  | .unpaired _ => .error .unpairedText
  | _ => .error .notWhole

def falseWords : List String := ["0", "off", "f", "false", "n", "no"]

def trueWords : List String := ["1", "on", "t", "true", "y", "yes"]

def flagOfNumber (n : Int) : Outcome Bool :=
  if n = 0 then .ok false else if n = 1 then .ok true else .error .unreadableFlag

def flag : Json → Outcome Bool
  | .bool b => .ok b
  | .int n => if -(Int.pow 2 63) ≤ n ∧ n < Int.pow 2 63 then flagOfNumber n else .error .notFlag
  | .float x =>
    match wholeOfFloat x with
    | .ok n => flagOfNumber n
    | .error _ => .error .notFlag
  | .str s =>
    let word := s.toLower
    if falseWords.contains word then .ok false
    else if trueWords.contains word then .ok true
    else .error .unreadableFlag
  | .unpaired _ => .error .unpairedText
  | _ => .error .notFlag

end Coercion
end EmbeddedGraphQL
