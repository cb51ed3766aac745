import EmbeddedGraphQL.Embedding.Extraction
import EmbeddedGraphQL.Embedding.Artifact
import EmbeddedGraphQL.Completion.Hint

/-!
Moving diagnostics, completions and parse errors of an extracted document back to the buffer it came
from. Insertions hold no line breaks, so only columns move.
-/
namespace EmbeddedGraphQL

/-- A place in a parse error. Lines and columns count from one, and either may be missing. -/
structure ErrorPlace where
  line : Option Int
  column : Option Int
  deriving DecidableEq, Repr

namespace Extraction

/-- The place in the buffer of a place in the extracted document, read off the insertions of each
line and the offsets at which the lines start. A line without insertions stays as it is. -/
def bufferPosition (byLine : List (Int × List Insertion)) (starts : List Nat) (p : Position) :
    Position :=
  match byLine.lookup p.line with
  | some insertions =>
    if p.line < starts.length then
      let lineStart := starts.getD p.line.toNat 0
      { p with ch := Ledger.moveLeft 0 p.ch (Ledger.columns lineStart insertions) }
    else p
  | none => p

/-- Moves diagnostics to the buffer and drops artifacts of the extraction. -/
def diagnostics (r : Extraction) (found : List Diagnostic) : List Diagnostic :=
  let byLine := r.ledger.byLine r.transformed
  let starts := Text.lineStarts r.transformed
  Artifact.visible r.environment (found.map fun d =>
    { d with
      start := bufferPosition byLine starts d.start
      stop := bufferPosition byLine starts d.stop })

/-- Places of completions are left alone, since they refer to the moved cursor. Embedded text has
its outer braces already, so an opening brace is not offered there. -/
def hints (r : Extraction) (found : HintList) : HintList :=
  if r.environment = .plain then found
  else { found with hints := found.hints.filter (·.text != "\x7b") }

/-- Moves the place of a parse error to the buffer; missing numbers count as one. -/
def errorPlace (r : Extraction) (place : ErrorPlace) : ErrorPlace :=
  if r.ledger.insertions.isEmpty then place
  else
    let line := place.line.getD 1 - 1
    let column := place.column.getD 1 - 1
    { place with column := some (r.ledger.bufferColumn r.transformed line column + 1) }

end Extraction
end EmbeddedGraphQL
