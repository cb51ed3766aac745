import EmbeddedGraphQL.CommandLine.Grammar

/-!
Help texts: how a program is used, and what its arguments mean. Explanations stand in a column of
their own, on the next line if an argument is too long for it.
-/
namespace EmbeddedGraphQL.CommandLine.Help

def lineWidth : Nat := 78

/-- The furthest column at which explanations start. -/
def furthestColumn : Nat := 24

def blanks (n : Nat) : String := "".pushn ' ' n

/-- A choice between words. -/
def choice (words : List String) : String := "\x7b" ++ ",".intercalate words ++ "\x7d"

def placeholder (o : OptionSpec) : String :=
  if o.choices.isEmpty then o.placeholder else choice o.choices

/-- An option in the line that tells the usage. -/
def usagePart (o : OptionSpec) : String :=
  if o.kind = .value then "[" ++ o.name ++ " " ++ placeholder o ++ "]" else "[" ++ o.name ++ "]"

def positionalParts : Positional → List String
  | .nothing => []
  | .one name _ => [name]
  | .command names _ => [choice (names.map (·.1)), "..."]

private def wrapFrom (indent : String) (line : String) : List String → List String
  | [] => [line]
  | part :: rest =>
    if lineWidth < line.length + 1 + part.length && line.length != indent.length then
      line :: wrapFrom indent (indent ++ part) rest
    else
      wrapFrom indent (if line.length = indent.length then line ++ part else line ++ " " ++ part)
        rest

/-- Parts in as few lines as they fit into, the first of which has started already. -/
def wrap (indent start : String) (parts : List String) : List String :=
  wrapFrom indent start parts

def usage (g : Grammar) : String :=
  let start := "usage: " ++ g.program
  let options := g.options.map usagePart
  let positional := positionalParts g.positional
  let line := " ".intercalate (start :: (options ++ positional))
  if line.length ≤ lineWidth then line
  else
    let indent := blanks (start.length + 1)
    let lines := wrap indent start options ++
      (if positional.isEmpty then [] else wrap indent indent positional)
    "\n".intercalate lines

/-- How an argument is written, how far it is indented, and what it means. -/
structure Item where
  indent : Nat
  term : String
  help : String

def optionItem (o : OptionSpec) : Item :=
  let form (name : String) : String :=
    if o.kind = .value then name ++ " " ++ placeholder o else name
  ⟨2, ", ".intercalate (o.names.map form), o.help⟩

def positionalItems : Positional → List Item
  | .nothing => []
  | .one name help => [⟨2, name, help⟩]
  | .command names help =>
    ⟨2, choice (names.map (·.1)), help⟩ :: names.map fun (name, help) => ⟨4, name, help⟩

def itemText (column : Nat) (item : Item) : String :=
  let start := blanks item.indent ++ item.term
  if start.length + 2 ≤ column then start ++ blanks (column - start.length) ++ item.help
  else start ++ "\n" ++ blanks column ++ item.help

def sectionText (column : Nat) (title : String) (items : List Item) : List String :=
  if items.isEmpty then [] else ["\n".intercalate (title :: items.map (itemText column))]

/-- The whole help text. -/
def text (g : Grammar) : String :=
  let positional := positionalItems g.positional
  let options := g.options.map optionItem
  let widths := (positional ++ options).map fun item => item.indent + item.term.length
  let longest := widths.foldl max 0
  let column := min furthestColumn (longest + 2)
  "\n\n".intercalate (usage g :: ((if g.description == "" then [] else [g.description]) ++
    sectionText column "positional arguments:" positional ++
    sectionText column "options:" options)) ++ "\n"

end EmbeddedGraphQL.CommandLine.Help
