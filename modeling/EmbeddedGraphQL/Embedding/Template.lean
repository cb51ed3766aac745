import EmbeddedGraphQL.Embedding.Environment

/-!
Template expressions `${...}` of the host language. Each one found in a buffer is overwritten by
text that GraphQL can read, in place, so no offset changes. An expression ends at the brace that
closes its own, or right before the first line break.
-/
namespace EmbeddedGraphQL

/-- The field written over a template expression. -/
def templateField : List Char := "__typename".toList

/-- The shorter field written over a spread template expression. -/
def spreadField : List Char := "__".toList

/-- The dots in front of a spread, which are blanked and drawn again later. -/
def spreadDots : List Char := "...".toList

/-- What stands in for a template expression. A blanked one leaves only blanks, since at the top
level it is a document of its own; a comment is used where the field does not fit. -/
inductive StandIn where
  | blank
  | comment
  | field
  | spread
  deriving DecidableEq, Repr

structure Template where
  start : Nat
  text : List Char
  standIn : StandIn
  deriving DecidableEq, Repr

namespace Template

def stop (t : Template) : Nat := t.start + t.text.length

/-- The number of characters up to the end of an expression, counted from its opening brace on,
while `opened` braces are open; nothing if the text ends first. -/
def bodyLength? (opened : Nat) : List Char → Option Nat
  | [] => none
  | c :: rest =>
    if c = '\n' then some 0
    else if c = '{' then (bodyLength? (opened + 1) rest).map (· + 1)
    else if c = '}' then
      if opened ≤ 1 then some 1 else (bodyLength? (opened - 1) rest).map (· + 1)
    else (bodyLength? opened rest).map (· + 1)

/-- The length of the terminated template expression at the start of a text, if there is one. -/
def length? : List Char → Option Nat
  | '$' :: '{' :: rest => (bodyLength? 1 rest).map (· + 2)
  | _ => none

theorem two_le_of_length? {text : List Char} {n : Nat} (h : length? text = some n) : 2 ≤ n := by
  unfold length? at h
  split at h
  · obtain ⟨k, -, rfl⟩ := Option.map_eq_some_iff.mp h
    omega
  · simp at h

end Template

namespace StandIn

/-- A field followed by blanks, as wide as the text it covers. -/
def padded (field text : List Char) : List Char :=
  field ++ List.replicate (text.length - field.length) ' '

/-- What is written over the text of an expression. -/
def write (text : List Char) : StandIn → List Char
  | blank => List.replicate text.length ' '
  | comment => '#' :: text.tail
  | field => padded templateField text
  | spread => padded spreadField text

/-- The stand-in for an expression. `before` is the written text in front of it, last character
first, and `depth` counts the braces open there. A spread always fits, an expression having at
least two characters. -/
def choose (environment : Environment) (depth : Int) (before text : List Char) : StandIn :=
  if environment = .apollo ∧ depth = 0 then blank
  else if environment = .lokka ∧ spreadDots.isPrefixOf before then spread
  else if text.length < templateField.length then comment
  else field

end StandIn

/-- A buffer with its template expressions overwritten, and the expressions in their order. -/
structure Scan where
  text : List Char
  found : List Template
  deriving DecidableEq, Repr

namespace Scan

/-- Reads on from `offset`. `before` is what has been written so far, last character first. -/
def go (environment : Environment) (offset : Nat) (depth : Int) (before : List Char)
    (found : List Template) (text : List Char) : Scan :=
  match text with
  | [] => ⟨before.reverse, found.reverse⟩
  | c :: rest =>
    match h : Template.length? (c :: rest) with
    | some n =>
      let body := (c :: rest).take n
      let standIn := StandIn.choose environment depth before body
      let before := if standIn = .spread
        then List.replicate spreadDots.length ' ' ++ before.drop spreadDots.length else before
      go environment (offset + n) depth ((standIn.write body).reverse ++ before)
        (⟨offset, body, standIn⟩ :: found) ((c :: rest).drop n)
    | none =>
      let depth := if c = '{' then depth + 1 else if c = '}' then depth - 1 else depth
      go environment (offset + 1) depth (c :: before) found rest
termination_by text.length
decreasing_by
  · have := Template.two_le_of_length? h
    simp only [List.length_drop, List.length_cons]
    omega
  · simp

/-- Overwrites every terminated template expression of a buffer, from left to right. -/
def ofBuffer (environment : Environment) (buffer : List Char) : Scan :=
  go environment 0 0 [] [] buffer

/-- The scan that leaves a buffer alone. -/
def untouched (buffer : List Char) : Scan := ⟨buffer, []⟩

/-- Expressions whose own text comes back when tokens are moved to the buffer. -/
def templates (scan : Scan) : List Template := scan.found.filter (·.standIn != .blank)

/-- Offsets at which the dots of a spread end. -/
def spreadEnds (scan : Scan) : List Nat :=
  (scan.found.filter (·.standIn == .spread)).map (·.start)

/-- Expressions that leave nothing but blanks. -/
def blanked (scan : Scan) : List Template := scan.found.filter (·.standIn == .blank)

/-- Whether the characters from `start` up to `stop` overlap a blanked expression. -/
def isBlanked (scan : Scan) (start stop : Int) : Bool :=
  scan.blanked.any fun t => decide (start < t.stop) && decide ((t.start : Int) < stop)

end Scan
end EmbeddedGraphQL
