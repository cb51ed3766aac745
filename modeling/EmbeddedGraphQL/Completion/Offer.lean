import EmbeddedGraphQL.Completion.Path
import EmbeddedGraphQL.Completion.Hint

/-!
Completions at a cursor. The grammar tells what may come at the start of the word under the cursor,
the schema tells which names there are, and the part of the word left of the cursor selects among
them. The documentation of a name is that of the completion with this name.
-/
namespace EmbeddedGraphQL.Completion

/-! Types that only serve paging and identity -/

def contains (part : List Char) : List Char → Bool
  | [] => part.isEmpty
  | c :: rest => part.isPrefixOf (c :: rest) || contains part rest

/-- Nodes, page information, connections and edges. -/
def isRelay (s : Schema) (t : TypeExpr) : Bool :=
  let text := t.text
  text == "Node" || text == "PageInfo!" || contains "Edge]".toList text.toList ||
    contains "Connection".toList text.toList || match t with
    | .named name => (s.type? name).any (·.interfaces.contains "Node")
    | _ => false

/-! Candidates -/

def word (text : String) : Hint := ⟨text, none, none, false⟩

def fieldHint (s : Schema) (f : FieldDoc) : Hint :=
  ⟨f.name, some f.type.text, f.description, isRelay s f.type⟩

/-- Puts a field in the place of one with its name, or at the end. -/
def putField (fields : List FieldDoc) (f : FieldDoc) : List FieldDoc :=
  if fields.any (·.name == f.name) then
    fields.map fun other => if other.name == f.name then f else other
  else fields ++ [f]

/-- The fields that can be selected from a type, those that need no declaration included. -/
def selectable (s : Schema) (parent : NamedType) : List FieldDoc :=
  let declared := parent.fields.map FieldDoc.ofField
  let ofRoot := if isQueryRoot s parent then [Standard.schemaField, Standard.typeField] else []
  ((ofRoot ++ [Standard.typenameField]).map FieldDoc.ofField).foldl putField declared

def fieldHints (s : Schema) (parent : Option NamedType) : List Hint :=
  match parent with
  | some t => if t.isComposite then (selectable s t).map (fieldHint s) else []
  | none => []

/-- Types that a fragment can be on: where the type around it is known, that type and those it
stands for, and all composite types elsewhere. -/
def conditionTypes (s : Schema) (parent : Option NamedType) : List NamedType :=
  match parent with
  | some t =>
    if t.isAbstract then t :: s.possibleTypes t
    else if t.isComposite then [t]
    else s.types.filter (·.isComposite)
  | none => s.types.filter (·.isComposite)

def conditionHints (s : Schema) (parent : Option NamedType) : List Hint :=
  (conditionTypes s parent).map fun t =>
    ⟨t.name, some t.name, t.description, isRelay s (.named t.name)⟩

/-- Types of variables, without those of introspection. -/
def inputTypeHints (s : Schema) : List Hint :=
  (s.types.filter fun t => t.isInput && !t.name.startsWith "__").map fun t =>
    ⟨t.name, some t.name, t.description, false⟩

def directiveHints (s : Schema) : List Hint :=
  s.directives.map fun d => ⟨d.name, none, d.description, false⟩

def booleanHints : List Hint :=
  [⟨"true", some "Boolean", none, false⟩, ⟨"false", some "Boolean", none, false⟩]

/-- Values of a type. Where nothing is known of the type the boolean values are offered. -/
def valueHints (s : Schema) (type : Option TypeExpr) : List Hint :=
  match type with
  | none => booleanHints
  | some t =>
    match s.kind? t.baseName with
    | some (.enum values) =>
      values.map fun v => ⟨v.name, some t.baseName, v.description, false⟩
    | _ => if t.baseName == "Boolean" then booleanHints else []

/-- Arguments of the field or directive that the innermost bracket belongs to. -/
def knownArguments (s : Schema) (stack : List Frame) : List InputValue :=
  match stack with
  | [] => []
  | frame :: around =>
    match frame.owner with
    | .directive name => ((name.bind s.directive?).map DirectiveType.arguments).getD []
    | .field name =>
      let field := (selectionType? s around).bind fun parent => name.bind (fieldOf? s parent)
      (field.map FieldDoc.arguments).getD []
    | _ => []

def argumentHint (s : Schema) (i : InputValue) : Hint :=
  ⟨i.name, some i.type.text, i.description, isRelay s i.type⟩

/-- Keywords at the start of a document; a brace starts a query without a name. -/
def documentHints : List Hint :=
  DefinitionKeyword.executable.map (word ·.word) ++ [word "\x7b"]

/-- What can come next in an open bracket. -/
def bracketHints (s : Schema) (state : GrammarState) (frame : Frame) : List Hint :=
  match frame.kind with
  | .selectionSet => fieldHints s (selectionType? s state.stack)
  | .arguments =>
    let arguments := knownArguments s state.stack
    if state.expect = some .value then
      valueHints s ((arguments.find? fun i => some i.name == state.lastName).map InputValue.type)
    else arguments.map (argumentHint s)
  | .variableDefinitions => if state.expect = some .value then valueHints s none else []
  | _ => []

/-- What can come next in a state of the grammar. -/
def candidates (s : Schema) (state : GrammarState) : List Hint :=
  match state.expect with
  | some .definitionName => []
  | some .on | some .spread => [word "on"]
  | some .typeCondition => conditionHints s (selectionType? s state.stack)
  | some .type => inputTypeHints s
  | _ =>
    match state.frame with
    | none => if state.definition.isNone then documentHints else []
    | some frame => bracketHints s state frame

/-! The word under the cursor -/

/-- The line and the word under a cursor, which is moved into the text if it lies outside. -/
structure Place where
  line : Nat
  text : List Char
  ch : Nat
  start : Nat
  stop : Nat
  deriving DecidableEq, Repr

def Place.of (buffer : List Char) (cursor : Position) : Place :=
  let line := Text.nearestLine buffer cursor.line
  let text := Text.lineText buffer line
  let (start, stop) := Text.wordBounds text cursor.ch
  ⟨line, text, min cursor.ch.toNat text.length, start, stop⟩

/-- What can come at the start of the word at a place. -/
def offered (s : Schema) (buffer : List Char) (p : Place) : List Hint :=
  let offset : Int := (Text.lineStarts buffer).getD p.line 0 + p.start
  let before := if p.start = 0 then none else p.text[p.start - 1]?
  if before = some '@' then directiveHints s
  else candidates s (GrammarState.before buffer offset)

def lower (text : List Char) : List Char := text.map Char.toLower

/-- Whether a completion starts with what is typed, in upper or lower case. -/
def matchesTyped (typed : List Char) (h : Hint) : Bool :=
  (lower typed).isPrefixOf (lower h.text.toList)

/-- The completions at a cursor. -/
def hints (s : Schema) (buffer : List Char) (cursor : Position) : HintList :=
  let p := Place.of buffer cursor
  let typed := (p.text.take p.ch).drop p.start
  { hints := (offered s buffer p).filter (matchesTyped typed)
    start := some ⟨p.line, p.start⟩
    stop := some ⟨p.line, p.stop⟩ }

/-- Type and description of a name. -/
structure NameDoc where
  type : String
  description : Option String
  deriving DecidableEq, Repr

/-- The documentation of the name under a cursor: that of the first completion with this name and
a type among those offered at its start. -/
def nameDoc? (s : Schema) (buffer : List Char) (cursor : Position) : Option NameDoc :=
  let p := Place.of buffer cursor
  let name := String.ofList ((p.text.take p.stop).drop p.start)
  if name == "" then none
  else (hints s buffer ⟨p.line, p.start⟩).hints.findSome? fun h =>
    if h.text == name then
      (h.type.filter (· != "")).map fun type => ⟨type, h.description⟩
    else none

end EmbeddedGraphQL.Completion
