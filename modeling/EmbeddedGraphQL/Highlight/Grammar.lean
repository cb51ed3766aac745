import EmbeddedGraphQL.Text.Slice
import EmbeddedGraphQL.Highlight.Token
import EmbeddedGraphQL.Highlight.Lexeme

/-!
A tolerant grammar of GraphQL documents. It reads one lexeme at a time and never fails: the state
holds the open brackets, the definition they belong to and what the next lexeme is expected to be.
From it names get their styles and completion learns what may be typed at a place.
-/
namespace EmbeddedGraphQL

/-- The keyword that opens a definition. -/
inductive DefinitionKeyword where
  | query
  | mutation
  | subscription
  | fragment
  | schema
  | scalar
  | type
  | interface
  | union
  | enum
  | input
  | directive
  deriving DecidableEq, Repr

namespace DefinitionKeyword

def word : DefinitionKeyword → String
  | query => "query"
  | mutation => "mutation"
  | subscription => "subscription"
  | fragment => "fragment"
  | schema => "schema"
  | scalar => "scalar"
  | type => "type"
  | interface => "interface"
  | union => "union"
  | enum => "enum"
  | input => "input"
  | directive => "directive"

/-- Keywords of definitions that are executed. -/
def executable : List DefinitionKeyword := [query, mutation, subscription, fragment]

def all : List DefinitionKeyword :=
  executable ++ [schema, scalar, type, interface, union, enum, input, directive]

def ofWord? (word : String) : Option DefinitionKeyword := all.find? (·.word == word)

def isOperation (k : DefinitionKeyword) : Bool :=
  k == query || k == mutation || k == subscription

/-- Whether the definition has a body of fields or values in braces. -/
def hasBody (k : DefinitionKeyword) : Bool :=
  k == schema || k == type || k == interface || k == input || k == enum

/-- The name of the kind of definition. -/
def kindName : DefinitionKeyword → String
  | query | mutation | subscription => "OperationDefinition"
  | fragment => "FragmentDefinition"
  | schema => "SchemaDefinition"
  | directive => "DirectiveDefinition"
  | _ => "TypeDefinition"

end DefinitionKeyword

/-- What an open bracket encloses. -/
inductive BracketKind where
  | selectionSet
  | arguments
  | variableDefinitions
  | objectValue
  | listValue
  | fieldsDefinition
  | argumentsDefinition
  deriving DecidableEq, Repr

def BracketKind.name : BracketKind → String
  | selectionSet => "SelectionSet"
  | arguments => "Arguments"
  | variableDefinitions => "VariableDefinitions"
  | objectValue => "ObjectValue"
  | listValue => "ListValue"
  | fieldsDefinition => "FieldsDefinition"
  | argumentsDefinition => "ArgumentsDefinition"

/-- What an open bracket belongs to. -/
inductive Owner where
  | nothing
  | root (operation : DefinitionKeyword)
  | type (name : Option String)
  | field (name : Option String)
  | directive (name : Option String)
  | inline
  | body (definition : DefinitionKeyword) (name : Option String)
  deriving DecidableEq, Repr

/-- An open bracket, with the last field name of the selection set around it. -/
structure Frame where
  kind : BracketKind
  owner : Owner
  savedName : Option String
  deriving DecidableEq, Repr

/-- What the next lexeme is expected to be. -/
inductive Expectation where
  | definitionName
  | on
  | typeCondition
  | type
  | value
  | spread
  deriving DecidableEq, Repr

def Expectation.name : Expectation → String
  | definitionName => "def"
  | on => "on"
  | typeCondition => "typeCondition"
  | type => "type"
  | value => "value"
  | spread => "spread"

/-- The inline fragment that the next brace may open. -/
inductive Pending where
  | nothing
  | untyped
  | typed (name : String)
  deriving DecidableEq, Repr

/-- The state of the grammar. The innermost open bracket comes first. -/
structure GrammarState where
  stack : List Frame
  definition : Option DefinitionKeyword
  definitionName : Option String
  fragmentType : Option String
  expect : Option Expectation
  lastName : Option String
  pendingType : Pending
  pendingDirective : Option String
  deriving DecidableEq, Repr

namespace GrammarState

def initial : GrammarState := ⟨[], none, none, none, none, none, .nothing, none⟩

def frame (s : GrammarState) : Option Frame := s.stack.head?

def frameKind (s : GrammarState) : Option BracketKind := s.frame.map (·.kind)

/-- The number of open brackets. -/
def scope (s : GrammarState) : Nat := s.stack.length

/-- The name of the innermost bracket, or of the definition when none is open. -/
def kindName (s : GrammarState) : String :=
  match s.frame with
  | some frame => frame.kind.name
  | none => (s.definition.map (·.kindName)).getD "Document"

/-- Whether a bracket encloses values. -/
def isValueBracket (kind : Option BracketKind) : Bool :=
  kind == some .arguments || kind == some .objectValue || kind == some .listValue

def valueStyle (name : String) : Style :=
  if name == "true" || name == "false" || name == "null" then .builtin else .enumValue

/-- A complete value has been read; inside a list another one is expected. -/
def afterValue (s : GrammarState) : GrammarState :=
  { s with
    expect := if s.frameKind = some .listValue then some .value else none
    pendingDirective := none }

/-- A name outside all brackets where nothing special is expected. -/
def topLevelName (s : GrammarState) (name : String) : GrammarState × Style :=
  match DefinitionKeyword.ofWord? name with
  | some keyword =>
    ({ s with
        definition := some keyword
        definitionName := none
        fragmentType := none
        expect := if keyword = .schema then none else some .definitionName }, .keyword)
  | none =>
    if name == "extend" then (s, .keyword)
    else if s.definition.isSome then
      if name == "implements" || name == "on" then ({ s with expect := some .type }, .keyword)
      else if name == "repeatable" then (s, .keyword)
      else (s, .atom)
    else (s, .invalid)

/-- A name inside a bracket where nothing special is expected. -/
def bracketedName (s : GrammarState) (kind : BracketKind) (name : String)
    (ahead : Option Char) : GrammarState × Style :=
  match kind with
  | .selectionSet =>
    let s := { s with pendingType := .nothing }
    (if ahead = some ':' then s else { s with lastName := some name }, .property)
  | .arguments | .objectValue | .argumentsDefinition =>
    if ahead = some ':' then ({ s with lastName := some name }, .attribute)
    else (s, valueStyle name)
  | .listValue => (s.afterValue, valueStyle name)
  | .fieldsDefinition =>
    if ahead = some ':' ∨ ahead = some '(' then ({ s with lastName := some name }, .property)
    else (s, .enumValue)
  | .variableDefinitions => (s, .atom)

/-- Reads a name. `ahead` is the next character that is no blank. -/
def readName (s : GrammarState) (name : String) (ahead : Option Char) : GrammarState × Style :=
  let expect := s.expect
  let s := { s with expect := none, pendingDirective := none }
  match expect with
  | some .definitionName =>
    ({ s with
        definitionName := some name
        expect := if s.definition = some .fragment then some .on else none }, .definition)
  | some .on =>
    if name == "on" then ({ s with expect := some .typeCondition }, .keyword) else (s, .invalid)
  | some .typeCondition =>
    if s.stack.isEmpty then ({ s with fragmentType := some name }, .atom)
    else ({ s with pendingType := .typed name }, .atom)
  | some .spread =>
    if name == "on" then ({ s with expect := some .typeCondition }, .keyword)
    else ({ s with pendingType := .nothing }, .definition)
  | some .type => (s, .atom)
  | some .value => (s.afterValue, valueStyle name)
  | none =>
    match s.frameKind with
    | none => s.topLevelName name
    | some kind => s.bracketedName kind name ahead

def readVariable (s : GrammarState) : GrammarState :=
  let expected := s.expect
  let s := { s with expect := none, pendingDirective := none }
  if expected = some .value then s.afterValue else s

/-- Reads a directive, whose name may still be missing. -/
def readDirective (s : GrammarState) (name : String) : GrammarState :=
  let expected := s.expect
  let s := { s with expect := none }
  if expected = some .definitionName then { s with definitionName := some name }
  else { s with pendingDirective := if name == "" then none else some name }

def readSpread (s : GrammarState) : GrammarState :=
  { s with expect := some .spread, pendingType := .untyped, pendingDirective := none }

def push (s : GrammarState) (kind : BracketKind) (owner : Owner)
    (savedName : Option String) : GrammarState :=
  { s with stack := ⟨kind, owner, savedName⟩ :: s.stack }

def openBrace (s : GrammarState) (expected : Option Expectation) : GrammarState :=
  let opened :=
    if expected = some .value then s.push .objectValue .nothing none
    else match s.frameKind with
      | none =>
        match s.definition with
        | some .fragment => s.push .selectionSet (.type s.fragmentType) none
        | some definition =>
          if definition.hasBody then
            s.push .fieldsDefinition (.body definition s.definitionName) none
          else s.push .selectionSet (.root definition) none
        | none => s.push .selectionSet (.root .query) none
      | some .selectionSet =>
        match s.pendingType with
        | .typed name => s.push .selectionSet (.type (some name)) none
        | .untyped => s.push .selectionSet .inline none
        | .nothing => s.push .selectionSet (.field s.lastName) none
      | some _ => s.push .objectValue .nothing none
  { opened with pendingType := .nothing, lastName := none }

def openParen (s : GrammarState) (directive : Option String) : GrammarState :=
  match directive, s.frameKind with
  | some name, _ => s.push .arguments (.directive (some name)) s.lastName
  | none, none =>
    if s.definition.any (·.isOperation) then s.push .variableDefinitions .nothing none
    else s.push .argumentsDefinition (.directive s.definitionName) none
  | none, some .selectionSet => s.push .arguments (.field s.lastName) s.lastName
  | none, some .fieldsDefinition => s.push .argumentsDefinition (.field s.lastName) none
  | none, some _ => s.push .arguments .nothing none

def openBracket (s : GrammarState) (expected : Option Expectation) : GrammarState :=
  if expected = some .type then { s with expect := some .type }
  else if expected = some .value ∨ isValueBracket s.frameKind then
    { s.push .listValue .nothing none with expect := some .value }
  else s

def closeBracket (s : GrammarState) : GrammarState :=
  match s.stack with
  | ⟨.listValue, _, _⟩ :: rest => { s with stack := rest }.afterValue
  | _ => s

/-- Closes the innermost bracket if it is of one of the kinds that the closing one can close. -/
def close (s : GrammarState) (kinds : List BracketKind) : GrammarState :=
  match s.stack with
  | [] => s
  | closed :: rest =>
    if closed.kind ∉ kinds then s
    else
      let s := { s with stack := rest }
      match s.frameKind with
      | none =>
        if closed.kind = .selectionSet ∨ closed.kind = .fieldsDefinition then
          { s with definition := none, definitionName := none, fragmentType := none }
        else s
      | some around =>
        if closed.kind = .objectValue ∧
            (isValueBracket (some around) ∨ around = .variableDefinitions) then s.afterValue
        else if closed.kind = .arguments ∧ around = .selectionSet then
          { s with lastName := closed.savedName }
        else s

/-- What a colon announces. -/
def readColon (s : GrammarState) : GrammarState :=
  match s.frameKind with
  | some .arguments | some .objectValue => { s with expect := some .value }
  | some .variableDefinitions | some .fieldsDefinition | some .argumentsDefinition =>
    { s with expect := some .type }
  | _ => s

/-- What an equals sign announces. -/
def readEquals (s : GrammarState) : GrammarState :=
  match s.frameKind with
  | some .variableDefinitions | some .argumentsDefinition => { s with expect := some .value }
  | none => if s.definition = some .union then { s with expect := some .type } else s
  | _ => s

def readPunctuator (s : GrammarState) (c : Char) : GrammarState :=
  let expected := s.expect
  let directive := s.pendingDirective
  let s := { s with expect := none, pendingDirective := none }
  if c = '{' then s.openBrace expected
  else if c = '}' then s.close [.selectionSet, .objectValue, .fieldsDefinition]
  else if c = '(' then s.openParen directive
  else if c = ')' then s.close [.arguments, .variableDefinitions, .argumentsDefinition]
  else if c = '[' then s.openBracket expected
  else if c = ']' then s.closeBracket
  else if c = ':' then s.readColon
  else if c = '=' then s.readEquals
  else if c = '|' ∨ c = '&' then
    if s.stack.isEmpty then { s with expect := some .type } else s
  else s

/-- Reads one lexeme and gives its style. `ahead` is the next character that is no blank. -/
def read (s : GrammarState) (l : Lexeme) (ahead : Option Char) : GrammarState × Style :=
  match l.kind with
  | .lineBreak | .space => (s, .blank)
  | .comma => (s, .punctuation)
  | .comment => (s, .comment)
  | .blockString | .quotedString => (s.afterValue, .string)
  | .number => (s.afterValue, .number)
  | .spread => (s.readSpread, .punctuation)
  | .variable => (s.readVariable, .variable)
  | .directive => (s.readDirective (String.ofList l.text.tail), .directive)
  | .punctuator => (l.text.foldl readPunctuator s, .punctuation)
  | .name => s.readName (String.ofList l.text) ahead
  | .stray => (s, .invalid)

/-- The state after a sequence of lexemes, each given with the text that follows it. -/
def readAll (s : GrammarState) (lexemes : List (Lexeme × List Char)) : GrammarState :=
  lexemes.foldl (fun s l => (s.read l.1 (Lexeme.ahead l.2)).1) s

/-- The state after the part of a buffer that lies before an offset; a negative offset counts from
the end of the buffer. -/
def before (buffer : List Char) (offset : Int) : GrammarState :=
  initial.readAll (Lexeme.split (Text.slice buffer 0 offset))

end GrammarState
end EmbeddedGraphQL
