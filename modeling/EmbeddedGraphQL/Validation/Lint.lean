import EmbeddedGraphQL.Validation.Findings
import EmbeddedGraphQL.Document.Parser
import EmbeddedGraphQL.Embedding.Artifact

/-!
Diagnostics of a buffer: a syntax error, or else what is wrong with the document under a schema.
Each covers the name at its place. Of diagnostics with the same range the first is kept.
-/
namespace EmbeddedGraphQL.Lint

/-- Why a buffer cannot be checked at all. -/
inductive Failure where
  | unsoundSchema
  | undecided (problem : ArgumentProblem)
  deriving DecidableEq, Repr

/-- The length of the name, the variable, the directive or the spread that a text starts with, at
least one. -/
def highlightLength (text : List Char) : Nat :=
  let name (rest : List Char) : Nat := (Lexeme.nameAt rest).length
  match text with
  | '.' :: '.' :: '.' :: _ => 3
  | '$' :: rest | '@' :: rest => name rest + 1
  | rest => max 1 (name rest)

def severity : String := "error"

/-- A diagnostic at an offset of the text. Its place counts lines by all line ends, while the name
there is looked for by line feeds. -/
def atOffset (text : List Char) (message : String) (offset : Nat) : Diagnostic :=
  let (line, column) := sourceLocation text offset
  let start : Position := ⟨line - 1, column - 1⟩
  let found := text.drop (Text.offsetAt text start).toNat
  ⟨start, { start with ch := start.ch + highlightLength found }, message, severity⟩

/-- The diagnostics of one message; without a place it is shown at the start. -/
def ofMessage (text : List Char) (message : String) (offsets : List Nat) : List Diagnostic :=
  if offsets.isEmpty then [⟨⟨0, 0⟩, ⟨0, 1⟩, message, severity⟩]
  else offsets.map (atOffset text message)

/-- Keeps the first of several diagnostics with one range. -/
def distinct (found : List Diagnostic) : List Diagnostic :=
  found.foldl (fun kept d =>
    if kept.any fun k => k.start == d.start && k.stop == d.stop then kept else kept ++ [d]) []

/-- The diagnostics of a buffer. -/
def diagnostics (s : Schema) (buffer : List Char) : Except Failure (List Diagnostic) :=
  if (Text.strip Text.isBlank buffer).isEmpty then .ok []
  else match Document.parse buffer with
    | .error e => .ok (ofMessage buffer e.message [e.offset])
    | .ok d =>
      if !s.isSound then .error .unsoundSchema
      else match Validation.findings s d with
        | .error problem => .error (.undecided problem)
        | .ok findings =>
          .ok (distinct (findings.flatMap fun f => ofMessage buffer f.violation.message f.offsets))

end EmbeddedGraphQL.Lint
