import EmbeddedGraphQL.Schema.DirectiveValue

/-!
What can be wrong with a document that reads well, and how it is said. A violation is reported at
one or more offsets of the text.
-/
namespace EmbeddedGraphQL

/-- Why two fields with one name in an answer cannot be merged. -/
inductive Conflict where
  | names (a b : String)
  | arguments
  | types (a b : String)
  | inside (parts : List (String × Conflict))
  deriving Inhabited

inductive Violation where
  | notExecutable (name : Option String)
  | repeatedName (noun name : String)
  | anonymousAmongOthers
  | severalSubscriptionFields (operation : Option String)
  | subscriptionIntrospection (operation : Option String)
  | unknownType (name : String) (similar : List String)
  | conditionNotComposite (fragment : Option String) (type : String)
  | variableNotInput (name type : String)
  | selectionsOnLeaf (field type : String)
  | selectionsMissing (field type : String)
  | unknownField (field type : String) (types similar : List String)
  | unknownFragment (name : String)
  | unusedFragment (name : String)
  | impossibleSpread (fragment : Option String) (parent type : String)
  | fragmentCycle (name : String) (via : List String)
  | undefinedVariable (name : String) (operation : Option String)
  | unusedVariable (name : String) (operation : Option String)
  | unknownDirective (name : String)
  | misplacedDirective (name location : String)
  | repeatedDirective (name : String)
  | unknownFieldArgument (name type field : String) (similar : List String)
  | unknownDirectiveArgument (name directive : String) (similar : List String)
  | unexpectedValue (type found : String)
  | unfitForScalar (scalar found : String)
  | tooLargeForInt (found : String)
  | unknownEnumValue (enum found : String) (similar : List String)
  | notEnumValue (enum found : String) (similar : List String)
  | missingInputField (type field fieldType : String)
  | unknownInputField (type field : String) (similar : List String)
  | notExactlyOneKey (type : String)
  | nullInOneOf (type field : String)
  | missingFieldArgument (field argument type : String)
  | missingDirectiveArgument (directive argument type : String)
  | unfitVariable (name type position : String)
  | nullableVariableInOneOf (name type input : String)
  | conflict (name : String) (reason : Conflict)
  | introspectionTooDeep
  | undecided (problem : ArgumentProblem)
  | tooMany
  deriving Inhabited

structure Finding where
  violation : Violation
  offsets : List Nat
  deriving Inhabited

namespace Violation

/-- Names in quotes, the last two joined by "or". -/
def alternatives (names : List String) : String :=
  let quoted := names.map fun name => "'" ++ name ++ "'"
  match quoted with
  | [] => ""
  | [one] => one
  | [one, two] => one ++ " or " ++ two
  | _ => ", ".intercalate quoted.dropLast ++ ", or " ++ quoted.getLast?.getD ""

/-- A question that names at most five suggestions, empty without any. -/
def didYouMean (suggestions : List String) (introduction : String) : String :=
  if suggestions.isEmpty then ""
  else " Did you mean " ++ introduction ++ alternatives (suggestions.take 5) ++ "?"

mutual

def conflictText : Conflict → String
  | .names a b => s!"'{a}' and '{b}' are different fields"
  | .arguments => "they have differing arguments"
  | .types a b => s!"they return conflicting types '{a}' and '{b}'"
  | .inside parts => " and ".intercalate (insideTexts parts)

def insideTexts : List (String × Conflict) → List String
  | [] => []
  | (name, reason) :: rest =>
    s!"subfields '{name}' conflict because {conflictText reason}" :: insideTexts rest

end

def subscriptionName : Option String → String
  | some name => s!"Subscription '{name}'"
  | none => "Anonymous Subscription"

def fragmentName : Option String → String
  | some name => s!"Fragment '{name}'"
  | none => "Fragment"

def operationSuffix : Option String → String → String
  | some name, word => s!" {word} operation '{name}'."
  | none, _ => "."

/-- What a scalar cannot be made of. -/
def scalarDemand : String → String
  | "Int" => "Int cannot represent non-integer value"
  | "Float" => "Float cannot represent non numeric value"
  | "String" => "String cannot represent a non string value"
  | "Boolean" => "Boolean cannot represent a non boolean value"
  | _ => "ID cannot represent a non-string and non-integer value"

/-- The name of a place for directives in words. -/
def locationWords (location : String) : String :=
  String.ofList (location.toList.map fun c => if c = '_' then ' ' else c.toLower)

def message : Violation → String
  | notExecutable (some name) => s!"The '{name}' definition is not executable."
  | notExecutable none => "The schema definition is not executable."
  | repeatedName noun name => s!"There can be only one {noun} named '{name}'."
  | anonymousAmongOthers => "This anonymous operation must be the only defined operation."
  | severalSubscriptionFields operation =>
    subscriptionName operation ++ " must select only one top level field."
  | subscriptionIntrospection operation =>
    subscriptionName operation ++ " must not select an introspection top level field."
  | unknownType name similar => s!"Unknown type '{name}'." ++ didYouMean similar ""
  | conditionNotComposite fragment type =>
    fragmentName fragment ++ s!" cannot condition on non composite type '{type}'."
  | variableNotInput name type => s!"Variable '${name}' cannot be non-input type '{type}'."
  | selectionsOnLeaf field type =>
    s!"Field '{field}' must not have a selection since type '{type}' has no subfields."
  | selectionsMissing field type =>
    s!"Field '{field}' of type '{type}' must have a selection of subfields." ++
      s!" Did you mean '{field} \x7b ... \x7d'?"
  | unknownField field type types similar =>
    let suggestion := didYouMean types "to use an inline fragment on "
    s!"Cannot query field '{field}' on type '{type}'." ++
      if suggestion == "" then didYouMean similar "" else suggestion
  | unknownFragment name => s!"Unknown fragment '{name}'."
  | unusedFragment name => s!"Fragment '{name}' is never used."
  | impossibleSpread fragment parent type =>
    fragmentName fragment ++
      s!" cannot be spread here as objects of type '{parent}' can never be of type '{type}'."
  | fragmentCycle name via =>
    s!"Cannot spread fragment '{name}' within itself" ++
      if via.isEmpty then "."
      else " via " ++ ", ".intercalate (via.map fun name => "'" ++ name ++ "'") ++ "."
  | undefinedVariable name operation =>
    s!"Variable '${name}' is not defined" ++ operationSuffix operation "by"
  | unusedVariable name operation =>
    s!"Variable '${name}' is never used" ++ operationSuffix operation "in"
  | unknownDirective name => s!"Unknown directive '@{name}'."
  | misplacedDirective name location =>
    s!"Directive '@{name}' may not be used on {locationWords location}."
  | repeatedDirective name => s!"The directive '@{name}' can only be used once at this location."
  | unknownFieldArgument name type field similar =>
    s!"Unknown argument '{name}' on field '{type}.{field}'." ++ didYouMean similar ""
  | unknownDirectiveArgument name directive similar =>
    s!"Unknown argument '{name}' on directive '@{directive}'." ++ didYouMean similar ""
  | unexpectedValue type found => s!"Expected value of type '{type}', found {found}."
  | unfitForScalar scalar found => scalarDemand scalar ++ ": " ++ found
  | tooLargeForInt found => "Int cannot represent non 32-bit signed integer value: " ++ found
  | unknownEnumValue enum found similar =>
    s!"Value '{found}' does not exist in '{enum}' enum." ++ didYouMean similar "the enum value "
  | notEnumValue enum found similar =>
    s!"Enum '{enum}' cannot represent non-enum value: {found}." ++
      didYouMean similar "the enum value "
  | missingInputField type field fieldType =>
    s!"Field '{type}.{field}' of required type '{fieldType}' was not provided."
  | unknownInputField type field similar =>
    s!"Field '{field}' is not defined by type '{type}'." ++ didYouMean similar ""
  | notExactlyOneKey type => s!"OneOf Input Object '{type}' must specify exactly one key."
  | nullInOneOf type field => s!"Field '{type}.{field}' must be non-null."
  | missingFieldArgument field argument type =>
    s!"Field '{field}' argument '{argument}' of type '{type}' is required, but it was not provided."
  | missingDirectiveArgument directive argument type =>
    s!"Directive '@{directive}' argument '{argument}' of type '{type}' is required," ++
      " but it was not provided."
  | unfitVariable name type position =>
    s!"Variable '${name}' of type '{type}' used in position expecting type '{position}'."
  | nullableVariableInOneOf name type input =>
    s!"Variable '${name}' is of type '{type}' but must be non-nullable" ++
      s!" to be used for OneOf Input Object '{input}'."
  | conflict name reason =>
    s!"Fields '{name}' conflict because {conflictText reason}." ++
      " Use different aliases on the fields to fetch both if this was intentional."
  | introspectionTooDeep => "Maximum introspection depth exceeded"
  | undecided problem => problem.message
  | tooMany => "Too many validation errors, error limit reached. Validation aborted."

end Violation

end EmbeddedGraphQL
