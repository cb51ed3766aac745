import EmbeddedGraphQL.Embedding.Template
import EmbeddedGraphQL.Embedding.FragmentName

/-!
The GraphQL document that a buffer holds: template expressions are overwritten first, then shorthand
fragments get names. Everything that is needed to move answers back is kept beside the document.
-/
namespace EmbeddedGraphQL

structure Extraction where
  environment : Environment
  buffer : List Char
  scan : Scan
  transformed : List Char
  ledger : Ledger
  deriving Repr

namespace Extraction

/-- Names the shorthand fragments of a scanned buffer. -/
def ofScan (environment : Environment) (buffer : List Char) (scan : Scan) : Extraction :=
  let sites := FragmentName.sites scan.text
  { environment, buffer, scan
    transformed := FragmentName.insertAt 0 sites scan.text
    ledger := FragmentName.recordAll Ledger.empty (FragmentName.insertions sites) }

/-- Overwrites the template expressions of a buffer and names its shorthand fragments. -/
def ofBuffer (environment : Environment) (buffer : List Char) : Extraction :=
  ofScan environment buffer (Scan.ofBuffer environment buffer)

/-- Only overwrites the template expressions. -/
def templatesOnly (environment : Environment) (buffer : List Char) : Extraction :=
  let scan := Scan.ofBuffer environment buffer
  { environment, buffer, scan, transformed := scan.text, ledger := Ledger.empty }

/-- Only names the shorthand fragments. -/
def namesOnly (environment : Environment) (buffer : List Char) : Extraction :=
  ofScan environment buffer (Scan.untouched buffer)

/-- Whether the buffer came through unchanged. -/
def isIdentity (r : Extraction) : Bool :=
  r.transformed == r.buffer && r.ledger.insertions.isEmpty

/-- A cursor of the buffer, moved right past every insertion at or before it. -/
def cursor (r : Extraction) (position : Position) : Position :=
  if r.ledger.insertions.isEmpty then position
  else { position with ch := r.ledger.changedColumn r.transformed position.line position.ch }

end Extraction
end EmbeddedGraphQL
