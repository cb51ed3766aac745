/-!
Lines and columns of a text. Only a line feed ends a line, lines and columns count from zero, and
both may be any integer: an editor can name a place that the text does not have.
-/
namespace EmbeddedGraphQL

structure Position where
  line : Int
  ch : Int
  deriving DecidableEq, Repr

namespace Text

/-- Offsets right after the line feeds of `text`, which itself starts at `offset`. -/
def startsAfter (offset : Nat) : List Char → List Nat
  | [] => []
  | c :: rest =>
    if c = '\n' then (offset + 1) :: startsAfter (offset + 1) rest
    else startsAfter (offset + 1) rest

/-- Offsets at which the lines of `text` start. -/
def lineStarts (text : List Char) : List Nat := 0 :: startsAfter 0 text

theorem lineStarts_ne_nil (text : List Char) : lineStarts text ≠ [] := by
  simp [lineStarts]

/-- The last line that starts at or before `offset`, and the distance from its start. -/
def positionAt (text : List Char) (offset : Int) : Position :=
  let starts := lineStarts text
  let line := (starts.filter fun (start : Nat) => decide ((start : Int) ≤ offset)).length - 1
  ⟨line, offset - starts.getD line 0⟩

/-- Lines outside the text are moved to its first or last line, columns below zero to zero. -/
def offsetAt (text : List Char) (position : Position) : Int :=
  let starts := lineStarts text
  let line := min position.line.toNat (starts.length - 1)
  starts.getD line 0 + max position.ch 0

/-- Where a line of `text` starts; a line that the text does not have starts at its end. -/
def lineStart (text : List Char) (line : Int) : Int :=
  if 0 ≤ line then ((lineStarts text).getD line.toNat text.length : Nat) else text.length

/-- The line of `text` closest to `line`. -/
def nearestLine (text : List Char) (line : Int) : Nat :=
  min line.toNat ((lineStarts text).length - 1)

/-- The text of an existing line, without its line feed. -/
def lineText (text : List Char) (line : Nat) : List Char :=
  (text.drop ((lineStarts text).getD line text.length)).takeWhile (· ≠ '\n')

/-- ASCII letters, digits and the underscore: the characters of a GraphQL name. -/
def isNameChar (c : Char) : Bool := c.isAlphanum || c == '_'

/-- The run of name characters that touches column `ch`, with `ch` first moved into the line. -/
def wordBounds (line : List Char) (ch : Int) : Nat × Nat :=
  let ch := min ch.toNat line.length
  let before := (line.take ch).reverse.takeWhile isNameChar
  let after := (line.drop ch).takeWhile isNameChar
  (ch - before.length, ch + after.length)

end Text
end EmbeddedGraphQL
