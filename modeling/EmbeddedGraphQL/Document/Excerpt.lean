import EmbeddedGraphQL.Document.Symbol

/-!
The place of an error shown with the lines around it. A long line is cut into pieces of 80
characters, of which those up to the error and the next one are shown.
-/
namespace EmbeddedGraphQL.Excerpt

/-- The lines of a text; a line feed, a carriage return or both together end a line. -/
def linesFrom (line : List Char) : List Char → List (List Char)
  | [] => [line.reverse]
  | '\r' :: '\n' :: rest => line.reverse :: linesFrom [] rest
  | c :: rest =>
    if c = '\n' ∨ c = '\r' then line.reverse :: linesFrom [] rest else linesFrom (c :: line) rest

/-- Pieces of at most `size` characters. -/
def pieces (size : Nat) : Nat → List Char → List (List Char)
  | 0, _ => []
  | fuel + 1, text =>
    if text.isEmpty then [] else text.take size :: pieces size fuel (text.drop size)

def padded (width : Nat) (text : List Char) : List Char :=
  List.replicate (width - text.length) ' ' ++ text

/-- Lines with labels in front, which are aligned to the right. -/
def labelled (lines : List (String × List Char)) : String :=
  let width := (lines.map (·.1.length)).foldl max 0
  let shown := lines.map fun (label, line) =>
    String.ofList (padded width label.toList) ++
      if line.isEmpty then "" else " " ++ String.ofList line
  "\n".intercalate shown

def numberLabel (n : Nat) : String := toString n ++ " |"

/-- The place of an offset with the lines around it. -/
def atOffset (text : List Char) (offset : Nat) : String :=
  let (number, column) := sourceLocation text offset
  let lines := linesFrom [] text
  let line := lines.getD (number - 1) []
  let heading := s!"GraphQL request:{number}:{column}\n"
  if 120 < line.length then
    let parts := pieces 80 line.length line
    let index := column / 80
    let before := ((parts.take (index + 1)).drop 1).map fun part => ("|", part)
    let after := (parts[index + 1]?).toList.map fun part => ("|", part)
    heading ++ labelled ((numberLabel number, parts.headD []) :: before ++
      [("|", padded (column % 80) ['^'])] ++ after)
  else
    let before :=
      if 1 < number then [(numberLabel (number - 1), lines.getD (number - 2) [])] else []
    let after := (lines[number]?).toList.map fun line => (numberLabel (number + 1), line)
    let pointer := ("|", padded column ['^'])
    heading ++ labelled (before ++ [(numberLabel number, line), pointer] ++ after)

end EmbeddedGraphQL.Excerpt
