/-!
Texts that need not be well formed. Besides characters they may hold surrogates, of which an escape
or a byte sequence gives only one where two would make a character.
-/
namespace EmbeddedGraphQL

/-- A character, or a surrogate that stands alone, told by its place among the surrogates. -/
inductive CodePoint where
  | char (c : Char)
  | surrogate (place : Fin 0x800)
  deriving DecidableEq, Repr

namespace CodePoint

/-- The code point of a 16-bit unit. -/
def ofUnit (unit : Nat) : CodePoint :=
  if h : 0xD800 ≤ unit ∧ unit < 0xE000 then .surrogate ⟨unit - 0xD800, by omega⟩
  else .char (Char.ofNat unit)

/-- The character that two units make, the first one and the second one of a pair. -/
def ofPair? (high low : Nat) : Option CodePoint :=
  if 0xD800 ≤ high ∧ high < 0xDC00 ∧ 0xDC00 ≤ low ∧ low < 0xE000 then
    some (.char (Char.ofNat (0x10000 + (high - 0xD800) * 1024 + (low - 0xDC00))))
  else none

def toNat : CodePoint → Nat
  | char c => c.toNat
  | surrogate place => 0xD800 + place

def char? : CodePoint → Option Char
  | char c => some c
  | surrogate _ => none

/-- The text of code points that are all characters. -/
def text? (points : List CodePoint) : Option String := (points.mapM char?).map String.ofList

/-- The code points of a text are its characters. -/
theorem map_char_of_text? {points : List CodePoint} {text : String}
    (h : text? points = some text) : text.toList.map char = points := by
  obtain ⟨chars, hchars, rfl⟩ := Option.map_eq_some_iff.mp h
  rw [String.toList_ofList]
  clear h
  induction points generalizing chars with
  | nil =>
    cases hchars
    rfl
  | cons point points ih =>
    simp only [List.mapM_cons, Option.bind_eq_bind, Option.bind_eq_some_iff] at hchars
    obtain ⟨c, hc, rest, hrest, heq⟩ := hchars
    cases heq
    cases point with
    | char c' =>
      cases hc
      rw [List.map_cons, ih rest hrest]
    | surrogate place => cases hc

/-- A text in which every surrogate is spelled as U+FFFD with its number, so that different texts
are told apart. -/
def spelled (points : List CodePoint) : String :=
  String.ofList (points.flatMap fun point =>
    match point.char? with
    | some c => [c]
    | none => '\ufffd' :: Nat.toDigits 16 point.toNat)

/-- Whether a file name may have the code point: of the surrogates, those that stand for bytes. -/
def isNameable : CodePoint → Bool
  | char _ => true
  | surrogate place => 0x480 ≤ place && place < 0x500

end CodePoint
end EmbeddedGraphQL
