import EmbeddedGraphQL.Text.Blank

/-!
Decimal digits of any script, and the whole numbers that are written with them: blanks around, a
sign in front, and single underscores between digits are allowed.
-/
namespace EmbeddedGraphQL.Text

/-- The code points of the zeros; the nine that follow each are the other digits of its script. -/
def zeros : List Nat := [
  48, 1632, 1776, 1984, 2406, 2534, 2662, 2790, 2918, 3046, 3174, 3302, 3430, 3558, 3664, 3792,
  3872, 4160, 4240, 6112, 6160, 6470, 6608, 6784, 6800, 6992, 7088, 7232, 7248, 42528, 43216,
  43264, 43472, 43504, 43600, 44016, 65296, 66720, 68912, 69734, 69872, 69942, 70096, 70384,
  70736, 70864, 71248, 71360, 71472, 71904, 72016, 72784, 73040, 73120, 92768, 92864, 93008,
  120782, 120792, 120802, 120812, 120822, 123200, 123632, 125264, 130032]

def digitValue? (c : Char) : Option Nat :=
  (zeros.find? fun first => first ≤ c.val.toNat && c.val.toNat < first + 10).map (c.val.toNat - ·)

/-- Digits, where an underscore may stand only between two of them. -/
def digitRun? (value : Nat) (afterDigit : Bool) : List Char → Option Nat
  | [] => if afterDigit then some value else none
  | c :: rest =>
    if c = '_' then if afterDigit then digitRun? value false rest else none
    else (digitValue? c).bind fun digit => digitRun? (10 * value + digit) true rest

/-- The whole number that a text writes, if it writes one. -/
def wholeNumber? (text : String) : Option Int :=
  match strip isBlank text.toList with
  | '+' :: rest => (digitRun? 0 false rest).map Int.ofNat
  | '-' :: rest => (digitRun? 0 false rest).map fun n => -(n : Int)
  | rest => (digitRun? 0 false rest).map Int.ofNat

end EmbeddedGraphQL.Text
