import EmbeddedGraphQL.Decimal.Binary64
import EmbeddedGraphQL.Text.Digit

/-!
Reading floating point numbers from text: digits of any script with single underscores between them,
a fraction, an exponent, or one of the words for infinity and an undefined number.
-/
namespace EmbeddedGraphQL.Decimal

/-- A run of digits: its value and its length. -/
structure DigitRun where
  value : Nat
  count : Nat
  deriving DecidableEq, Repr

/-- The longest run of digits at the start of a text; an underscore belongs to it only between two
digits. -/
def digitRun (run : DigitRun) : List Char → DigitRun × List Char
  | [] => (run, [])
  | c :: rest =>
    match Text.digitValue? c with
    | some digit => digitRun ⟨10 * run.value + digit, run.count + 1⟩ rest
    | none =>
      if c = '_' ∧ run.count ≠ 0 ∧ (rest.head?.bind Text.digitValue?).isSome then digitRun run rest
      else (run, c :: rest)

private def exponent? (text : List Char) : Option Int :=
  match text with
  | [] => some 0
  | c :: rest =>
    if c = 'e' ∨ c = 'E' then
      let (negative, rest) := match rest with
        | '-' :: rest => (true, rest)
        | '+' :: rest => (false, rest)
        | _ => (false, rest)
      let (run, rest) := digitRun ⟨0, 0⟩ rest
      if run.count = 0 ∨ !rest.isEmpty then none
      else some (if negative then -(run.value : Int) else run.value)
    else none

/-- The size of a number, without its sign. -/
private def magnitude? (negative : Bool) (text : List Char) : Option Float :=
  let (whole, rest) := digitRun ⟨0, 0⟩ text
  let (all, rest) := match rest with
    | '.' :: after =>
      if (after.head?.bind Text.digitValue?).isSome then
        digitRun ⟨whole.value, 0⟩ after
      else (⟨whole.value, 0⟩, after)
    | _ => (⟨whole.value, 0⟩, rest)
  if whole.count = 0 ∧ all.count = 0 then none
  else (exponent? rest).map fun exponent => nearest negative all.value (exponent - all.count)

/-- The number that a text writes, if it writes one. -/
def numeral? (text : String) : Option Float :=
  let chars := Text.strip Text.isBlank text.toList
  let (negative, rest) := match chars with
    | '-' :: rest => (true, rest)
    | '+' :: rest => (false, rest)
    | _ => (false, chars)
  let word := String.ofList (rest.map Char.toLower)
  let sign (x : Float) : Float := if negative then -x else x
  if word == "inf" || word == "infinity" then some (sign (1.0 / 0.0))
  else if word == "nan" then some (0.0 / 0.0)
  else magnitude? negative rest

/-- The floating point number nearest to a whole number, if that is finite. -/
def ofWhole? (n : Int) : Option Float :=
  let x := nearest (n < 0) n.natAbs 0
  if (binary? x).isSome then some x else none

end EmbeddedGraphQL.Decimal
