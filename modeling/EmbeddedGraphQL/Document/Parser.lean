import EmbeddedGraphQL.Document.Ast
import EmbeddedGraphQL.Document.Symbol

/-!
Reading documents from symbols. A problem in the text is met when the symbol before it is taken, so
of several faults the first in the text is reported. Functions that nest or repeat count down the
number of symbols, each round taking at least one.
-/
namespace EmbeddedGraphQL.Document

/-- The symbols still to be read, and where the last one taken ended. -/
structure Reader where
  rest : SymbolList
  lastStop : Nat

abbrev Parser (α : Type) := StateT Reader (Except SyntaxError) α

namespace Parser

def failAt {α : Type} (offset : Nat) (problem : SyntaxProblem) : Parser α :=
  throw ⟨problem, offset⟩

/-- The current symbol, none at the end. -/
def current : Parser (Option Symbol) := return (← get).rest.symbols.head?

/-- Where the current symbol, or the end of the text, starts. -/
def offset : Parser Nat := do
  match (← get).rest.symbols.head? with
  | some s => return s.start
  | none => return (← get).rest.stop

/-- How the current symbol is described in messages. -/
def description (s : Option Symbol) : String :=
  match s with
  | some s => s.describe
  | none => "<EOF>"

def unexpected {α : Type} : Parser α := do
  failAt (← offset) (.unexpected (description (← current)))

def expected {α : Type} (wanted : String) : Parser α := do
  failAt (← offset) (.expected wanted (description (← current)))

/-- Takes the current symbol; the text after it must start with another or be at its end. -/
def advance : Parser Unit := do
  let reader ← get
  match reader.rest.symbols with
  | [] => return
  | s :: rest =>
    match rest, reader.rest.problem with
    | [], some problem => throw problem
    | _, _ => set { reader with
        rest := { reader.rest with symbols := rest }, lastStop := s.stop }

/-- The range from an offset to the end of the last symbol taken. -/
def spanFrom (start : Nat) : Parser Span := return ⟨start, (← get).lastStop⟩

def isPunctuator (text : String) (s : Option Symbol) : Bool :=
  s.any fun s => s.kind == .punctuator && s.value == text

def isName (s : Option Symbol) : Bool := s.any (·.kind == .name)

def isKeyword (word : String) (s : Option Symbol) : Bool :=
  s.any fun s => s.kind == .name && s.value == word

def isString (s : Option Symbol) : Bool :=
  s.any fun s => s.kind == .string || s.kind == .blockString

def peek (text : String) : Parser Bool := return isPunctuator text (← current)

def expect (text : String) : Parser Unit := do
  if ← peek text then advance else expected s!"'{text}'"

/-- Takes a punctuator if it is the current symbol. -/
def skip (text : String) : Parser Bool := do
  if ← peek text then
    advance
    return true
  else return false

def expectKeyword (word : String) : Parser Unit := do
  if isKeyword word (← current) then advance else expected s!"'{word}'"

def skipKeyword (word : String) : Parser Bool := do
  if isKeyword word (← current) then
    advance
    return true
  else return false

def name : Parser Name := do
  match ← current with
  | some s =>
    if s.kind = .name then
      advance
      return ⟨s.value, s.start, s.stop⟩
    else expected "Name"
  | none => expected "Name"

/-- The number of symbols left, a bound on rounds and nesting. -/
def fuel : Parser Nat := return (← get).rest.symbols.length + 1

/-- Items up to a closing punctuator, which is taken. -/
def itemsUntil {α : Type} (item : Parser α) (close : String) : Nat → Parser (List α)
  | 0 => unexpected
  | fuel + 1 => do
    if ← skip close then return []
    let first ← item
    return first :: (← itemsUntil item close fuel)

/-- Items between two punctuators. -/
def many0 {α : Type} (opening : String) (item : Parser α) (close : String) :
    Parser (List α) := do
  expect opening
  itemsUntil item close (← fuel)

/-- One or more items between two punctuators. -/
def many1 {α : Type} (opening : String) (item : Parser α) (close : String) :
    Parser (List α) := do
  expect opening
  let first ← item
  return first :: (← itemsUntil item close (← fuel))

/-- One or more items between two punctuators, or nothing at all. -/
def optionalMany {α : Type} (opening : String) (item : Parser α) (close : String) :
    Parser (List α) := do
  if ← peek opening then many1 opening item close else return []

def separatedRest {α : Type} (separator : String) (item : Parser α) : Nat → Parser (List α)
  | 0 => return []
  | fuel + 1 => do
    if ← skip separator then
      let next ← item
      return next :: (← separatedRest separator item fuel)
    else return []

/-- One or more items with separators between them; one may also come first. -/
def separated {α : Type} (separator : String) (item : Parser α) : Parser (List α) := do
  let _ ← skip separator
  let first ← item
  return first :: (← separatedRest separator item (← fuel))

/-! Values and types -/

/-- A value; a constant one may not hold variables. -/
def value (isConstant : Bool) : Nat → Parser Value
  | 0 => unexpected
  | fuel + 1 => do
    let start ← offset
    match ← current with
    | none => unexpected
    | some s =>
      match s.kind with
      | .int =>
        advance
        return .int s.value (← spanFrom start)
      | .float =>
        advance
        return .float s.value (← spanFrom start)
      | .string =>
        advance
        return .string s.value false (← spanFrom start)
      | .blockString =>
        advance
        return .string s.value true (← spanFrom start)
      | .name =>
        advance
        let span ← spanFrom start
        if s.value == "true" then return .boolean true span
        else if s.value == "false" then return .boolean false span
        else if s.value == "null" then return .null span
        else return .enum s.value span
      | .punctuator =>
        if s.value == "$" then
          advance
          if isConstant then
            match ← current with
            | some n =>
              if n.kind = .name then failAt start (.variableInConstant n.value)
              else failAt start (.unexpected s.describe)
            | none => failAt start (.unexpected s.describe)
          else
            let name ← name
            return .variable name (← spanFrom start)
        else if s.value == "[" then
          let items ← many0 "[" (value isConstant fuel) "]"
          return .list items (← spanFrom start)
        else if s.value == "\x7b" then
          let field : Parser (Name × Value) := do
            let name ← name
            expect ":"
            return (name, ← value isConstant fuel)
          let fields ← many0 "\x7b" field "\x7d"
          return .object fields (← spanFrom start)
        else unexpected

def anyValue : Parser Value := do value false (← fuel)

def constant : Parser Value := do value true (← fuel)

def typeRefWithin : Nat → Parser TypeRef
  | 0 => unexpected
  | fuel + 1 => do
    let start ← offset
    let inner ←
      if ← skip "[" then
        let item ← typeRefWithin fuel
        expect "]"
        pure (TypeRef.list item (← spanFrom start))
      else pure (TypeRef.named (← name))
    if ← skip "!" then return .nonNull inner (← spanFrom start) else return inner

def typeRef : Parser TypeRef := do typeRefWithin (← fuel)

/-! Arguments and directives -/

def argument (isConstant : Bool) : Parser Argument := do
  let name ← name
  expect ":"
  return ⟨name, ← if isConstant then constant else anyValue⟩

def arguments (isConstant : Bool) : Parser (List Argument) :=
  optionalMany "(" (argument isConstant) ")"

def directive (isConstant : Bool) : Parser Directive := do
  let start ← offset
  expect "@"
  let name ← name
  let arguments ← arguments isConstant
  return ⟨name, arguments, ← spanFrom start⟩

def directivesWithin (isConstant : Bool) : Nat → Parser (List Directive)
  | 0 => return []
  | fuel + 1 => do
    if ← peek "@" then
      let first ← directive isConstant
      return first :: (← directivesWithin isConstant fuel)
    else return []

def directives (isConstant : Bool) : Parser (List Directive) := do
  directivesWithin isConstant (← fuel)

/-! Selections -/

/-- The name of a fragment, which cannot be `on`. -/
def fragmentName : Parser Name := do
  if (← current).any (·.value == "on") then unexpected else name

def selection : Nat → Parser Selection
  | 0 => unexpected
  | fuel + 1 => do
    let start ← offset
    if ← skip "..." then
      let typed ← skipKeyword "on"
      if !typed && isName (← current) then
        let name ← fragmentName
        let directives ← directives false
        return .spread name directives (← spanFrom start)
      else
        let type ← if typed then some <$> name else pure none
        let directives ← directives false
        let inner ← offset
        let selections ← many1 "\x7b" (selection fuel) "\x7d"
        return .inline type directives (← spanFrom inner) selections (← spanFrom start)
    else
      let first ← name
      let (aliasName, name) ← if ← skip ":" then pure (some first, ← name) else pure (none, first)
      let arguments ← arguments false
      let directives ← directives false
      let inner ← offset
      if ← peek "\x7b" then
        let selections ← many1 "\x7b" (selection fuel) "\x7d"
        return .field aliasName name arguments directives (some (← spanFrom inner)) selections
          (← spanFrom start)
      else
        return .field aliasName name arguments directives none [] (← spanFrom start)

def selectionSet : Parser SelectionSet := do
  let start ← offset
  let items ← many1 "\x7b" (selection (← fuel)) "\x7d"
  return ⟨items, ← spanFrom start⟩

/-! Operations and fragments -/

def optionalDescription : Parser (Option Description) := do
  match ← current with
  | some s =>
    if isString (some s) then
      advance
      return some ⟨s.value, s.kind == .blockString, s.start, s.stop⟩
    else return none
  | none => return none

def operationKind : Parser OperationKind := do
  let start ← offset
  let found ← current
  let name ← name
  match OperationKind.ofWord? name.value with
  | some kind => return kind
  | none => failAt start (.unexpected (description found))

def variableDefinition : Parser VariableDefinition := do
  let start ← offset
  let description ← optionalDescription
  let variableStart ← offset
  expect "$"
  let name ← name
  let variableSpan ← spanFrom variableStart
  expect ":"
  let type ← typeRef
  let default ← if ← skip "=" then some <$> constant else pure none
  let directives ← directives true
  return { description, variableSpan, name, type, default, directives, span := ← spanFrom start }

def operation : Parser Operation := do
  let start ← offset
  if ← peek "\x7b" then
    let selections ← selectionSet
    return {
      description := none, kind := .query, name := none, variableDefinitions := [], directives := []
      selections, span := ← spanFrom start }
  else
    let description ← optionalDescription
    let kind ← operationKind
    let name ← if isName (← current) then some <$> name else pure none
    let variableDefinitions ← optionalMany "(" variableDefinition ")"
    let directives ← directives false
    let selections ← selectionSet
    let span ← spanFrom start
    return { description, kind, name, variableDefinitions, directives, selections, span }

def fragment : Parser Fragment := do
  let start ← offset
  let description ← optionalDescription
  expectKeyword "fragment"
  let fragmentName ← fragmentName
  expectKeyword "on"
  let type ← name
  let directives ← directives false
  let selections ← selectionSet
  return { description, name := fragmentName, type, directives, selections,
           span := ← spanFrom start }

/-! Definitions of types -/

def inputValueDefinition : Parser InputValueDefinition := do
  let start ← offset
  let description ← optionalDescription
  let name ← name
  expect ":"
  let type ← typeRef
  let default ← if ← skip "=" then some <$> constant else pure none
  let directives ← directives true
  return { description, name, type, default, directives, span := ← spanFrom start }

def fieldDefinition : Parser FieldDefinition := do
  let start ← offset
  let description ← optionalDescription
  let name ← name
  let arguments ← optionalMany "(" inputValueDefinition ")"
  expect ":"
  let type ← typeRef
  let directives ← directives true
  return { description, name, arguments, type, directives, span := ← spanFrom start }

def fieldDefinitions : Parser (List FieldDefinition) :=
  optionalMany "\x7b" fieldDefinition "\x7d"

def inputFieldDefinitions : Parser (List InputValueDefinition) :=
  optionalMany "\x7b" inputValueDefinition "\x7d"

def interfaces : Parser (List Name) := do
  if ← skipKeyword "implements" then separated "&" name else return []

def memberTypes : Parser (List Name) := do
  if ← skip "=" then separated "|" name else return []

def enumValueDefinition : Parser EnumValueDefinition := do
  let start ← offset
  let description ← optionalDescription
  let found ← current
  if found.any fun s => s.value == "true" || s.value == "false" || s.value == "null" then
    failAt (← offset) (.reservedEnumValue (Parser.description found))
  let name ← name
  let directives ← directives true
  return { description, name, directives, span := ← spanFrom start }

def enumValueDefinitions : Parser (List EnumValueDefinition) :=
  optionalMany "\x7b" enumValueDefinition "\x7d"

def rootDefinition : Parser RootDefinition := do
  let start ← offset
  let operation ← operationKind
  expect ":"
  let type ← name
  return { operation, type, span := ← spanFrom start }

/-- The words that start the definition of a type. -/
def typeKeywords : List String := ["scalar", "type", "interface", "union", "enum", "input"]

/-- The directives and the body of a type whose keyword and name have been read. -/
def typeBody (keyword : String) : Parser (List Directive × TypeBody) := do
  match keyword with
  | "type" =>
    let interfaces ← interfaces
    let directives ← directives true
    return (directives, .object interfaces (← fieldDefinitions))
  | "interface" =>
    let interfaces ← interfaces
    let directives ← directives true
    return (directives, .interface interfaces (← fieldDefinitions))
  | "union" =>
    let directives ← directives true
    return (directives, .union (← memberTypes))
  | "enum" =>
    let directives ← directives true
    return (directives, .enum (← enumValueDefinitions))
  | "input" =>
    let directives ← directives true
    return (directives, .input (← inputFieldDefinitions))
  | _ => return (← directives true, .scalar)

def isEmptyBody : TypeBody → Bool
  | .scalar => true
  | .object interfaces fields | .interface interfaces fields =>
    interfaces.isEmpty && fields.isEmpty
  | .union types => types.isEmpty
  | .enum values => values.isEmpty
  | .input fields => fields.isEmpty

def typeDefinition (keyword : String) : Parser TypeDefinition := do
  let start ← offset
  let description ← optionalDescription
  expectKeyword keyword
  let name ← name
  let (directives, body) ← typeBody keyword
  return { isExtension := false, description, name, directives, body, span := ← spanFrom start }

/-- An extension of a type, which must add something. -/
def typeExtension (keyword : String) : Parser TypeDefinition := do
  let start ← offset
  expectKeyword "extend"
  expectKeyword keyword
  let name ← name
  let (directives, body) ← typeBody keyword
  if directives.isEmpty && isEmptyBody body then unexpected
  return { isExtension := true, description := none, name, directives, body,
           span := ← spanFrom start }

def schemaDefinition : Parser SchemaDefinition := do
  let start ← offset
  let description ← optionalDescription
  expectKeyword "schema"
  let directives ← directives true
  let roots ← many1 "\x7b" rootDefinition "\x7d"
  return { isExtension := false, description, directives, roots, span := ← spanFrom start }

def schemaExtension : Parser SchemaDefinition := do
  let start ← offset
  expectKeyword "extend"
  expectKeyword "schema"
  let directives ← directives true
  let roots ← optionalMany "\x7b" rootDefinition "\x7d"
  if directives.isEmpty && roots.isEmpty then unexpected
  return { isExtension := true, description := none, directives, roots, span := ← spanFrom start }

/-- Places at which a directive may be allowed. -/
def directiveLocations : List String :=
  ["QUERY", "MUTATION", "SUBSCRIPTION", "FIELD", "FRAGMENT_DEFINITION", "FRAGMENT_SPREAD",
    "INLINE_FRAGMENT", "VARIABLE_DEFINITION", "SCHEMA", "SCALAR", "OBJECT", "FIELD_DEFINITION",
    "ARGUMENT_DEFINITION", "INTERFACE", "UNION", "ENUM", "ENUM_VALUE", "INPUT_OBJECT",
    "INPUT_FIELD_DEFINITION", "DIRECTIVE_DEFINITION"]

def directiveLocation : Parser Name := do
  let start ← offset
  let found ← current
  let name ← name
  if directiveLocations.contains name.value then return name
  else failAt start (.unexpected (description found))

def directiveDefinition : Parser DirectiveDefinition := do
  let start ← offset
  let description ← optionalDescription
  expectKeyword "directive"
  expect "@"
  let name ← name
  let arguments ← optionalMany "(" inputValueDefinition ")"
  let repeatable ← skipKeyword "repeatable"
  expectKeyword "on"
  let locations ← separated "|" directiveLocation
  return { description, name, arguments, repeatable, locations, span := ← spanFrom start }

/-! Documents -/

/-- The symbol after the current one; the text between them must be free of problems. -/
def next : Parser (Option Symbol) := do
  let reader ← get
  match reader.rest.symbols, reader.rest.problem with
  | [_], some problem => throw problem
  | symbols, _ => return symbols[1]?

def unexpectedSymbol {α : Type} (s : Option Symbol) : Parser α := do
  match s with
  | some s => failAt s.start (.unexpected s.describe)
  | none => failAt (← get).rest.stop (.unexpected "<EOF>")

/-- An extension, whose second word tells what it extends. -/
def extension : Parser Definition := do
  let keyword ← next
  if isKeyword "schema" keyword then return .schema (← schemaExtension)
  else match typeKeywords.find? (isKeyword · keyword) with
    | some word => return .type (← typeExtension word)
    | none => unexpectedSymbol keyword

def definition : Parser Definition := do
  if ← peek "\x7b" then return .operation (← operation)
  let first ← current
  let described := isString first
  let keyword ← if described then next else pure first
  if described && isPunctuator "\x7b" keyword then
    failAt (← offset) .descriptionOnShorthand
  if isKeyword "schema" keyword then return .schema (← schemaDefinition)
  if isKeyword "directive" keyword then return .directive (← directiveDefinition)
  if let some word := typeKeywords.find? (isKeyword · keyword) then
    return .type (← typeDefinition word)
  if isKeyword "query" keyword || isKeyword "mutation" keyword ||
      isKeyword "subscription" keyword then
    return .operation (← operation)
  if isKeyword "fragment" keyword then return .fragment (← fragment)
  if isName keyword then
    if described then failAt (← offset) .descriptionOnOther
    if isKeyword "extend" keyword then return ← extension
  unexpectedSymbol keyword

def definitionsWithin : Nat → Parser (List Definition)
  | 0 => return []
  | fuel + 1 => do
    if (← current).isNone then return []
    let first ← definition
    return first :: (← definitionsWithin fuel)

/-- One or more definitions up to the end. -/
def definitions : Parser (List Definition) := do
  let first ← definition
  return first :: (← definitionsWithin (← fuel))

/-- A value up to the end. -/
def onlyValue : Parser Value := do
  let v ← anyValue
  if (← current).isNone then return v else expected "<EOF>"

end Parser

/-- Reads a whole text. -/
def readWhole {α : Type} (parser : Parser α) (text : List Char) : Except SyntaxError α :=
  let symbols := SymbolList.ofText text
  match symbols.symbols, symbols.problem with
  | [], some problem => .error problem
  | _, _ => (parser.run ⟨symbols, 0⟩).map (·.1)

/-- The document that a text writes. -/
def parse (text : List Char) : Except SyntaxError Document :=
  (readWhole Parser.definitions text).map (⟨·, text.length⟩)

/-- The value that a text writes. -/
def parseValue (text : List Char) : Except SyntaxError Value := readWhole Parser.onlyValue text

end EmbeddedGraphQL.Document
