import EmbeddedGraphQL.Json.Basic
import EmbeddedGraphQL.Text.Quoted
import EmbeddedGraphQL.Document.Excerpt

/-!
What can be wrong with an introspection result, and how it is said. Values of a wrong shape are
named by the kind of value that they are.
-/
namespace EmbeddedGraphQL

/-- The kind of a JSON value as messages name it. -/
def Json.kindName : Json → String
  | .null => "NoneType"
  | .bool _ => "bool"
  | .int _ => "int"
  | .float _ => "float"
  | .str _ | .unpaired _ => "str"
  | .arr _ => "list"
  | .obj _ => "dict"

inductive IntrospectionError where
  | noData
  | noSchema
  | incompleteType
  | missing (part : String)
  | noMember (key : String)
  | notIndexed (kind : String)
  | noMembers (kind : String)
  | notListed (kind : String)
  | noKey (kind : String)
  | unknownReference
  | unknownType (name : String)
  | wrappedTooDeep
  | notOutput (type : String)
  | notInput (place type : String)
  | wrongKind (type wanted : String)
  | reserved (name : String)
  | noName
  | nameNotText
  | emptyName
  | nameCharacter (name : String)
  | nameStart (name : String)
  | enumValueName (name : String)
  | notText (subject : String)
  | addressNotText (name shown : String)
  | fieldNames (type : String)
  | argumentNames (directive : Option String)
  | locations (directive : String)
  | repeatable (directive : String)
  | default (text : List Char) (e : SyntaxError)
  | within (type part : String) (inner : IntrospectionError)
  deriving Inhabited

namespace IntrospectionError

def fullQuery : String :=
  " Ensure that a full introspection query is used in order to build a client schema"

def message : IntrospectionError → String
  | noData => "introspection result has no 'data'"
  | noSchema =>
    "Invalid or incomplete introspection result. Ensure that you are passing the 'data' " ++
      "attribute of an introspection response and no 'errors' were returned alongside"
  | incompleteType => "Invalid or incomplete introspection result." ++ fullQuery
  | missing part => "Introspection result missing " ++ part
  | noMember key => Text.quoted key
  | notIndexed "str" => "string indices must be integers, not 'str'"
  | notIndexed "list" => "list indices must be integers or slices, not str"
  | notIndexed kind => s!"'{kind}' object is not subscriptable"
  | noMembers kind => s!"'{kind}' object has no attribute 'get'"
  | notListed kind => s!"'{kind}' object is not iterable"
  | noKey kind => s!"unhashable type: '{kind}'"
  | unknownReference => "Unknown type reference"
  | unknownType name =>
    s!"Invalid or incomplete schema, unknown type: {name}." ++ fullQuery ++ "."
  | wrappedTooDeep => "Decorated type deeper than introspection query."
  | notOutput type =>
    s!"Introspection must provide output type for fields, but received: {type}."
  | notInput place type =>
    s!"Introspection must provide input type for {place}, but received: {type}."
  | wrongKind type wanted => s!"Expected {type} to be a GraphQL {wanted} type."
  | reserved name => "Redefinition of reserved type " ++ Text.quoted name
  | noName => "Must provide name."
  | nameNotText => "Expected name to be a string."
  | emptyName => "Expected name to be a non-empty string."
  | nameCharacter name =>
    s!"Names must only contain [_a-zA-Z0-9] but {Text.quoted name} does not."
  | nameStart name => s!"Names must start with [_a-zA-Z] but {Text.quoted name} does not."
  | enumValueName name => s!"Enum values cannot be named: {name}."
  | notText subject => subject ++ " must be a string."
  | addressNotText name shown =>
    s!"{name} must provide 'specified_by_url' as a string, but got: {shown}."
  | fieldNames type =>
    s!"{type} fields must be specified as a mapping with field names as keys."
  | argumentNames none => "Field args must be a dict with argument names as keys."
  | argumentNames (some directive) =>
    directive ++ " args must be a dict with argument names as keys."
  | locations directive =>
    directive ++ " locations must be specified as a collection of DirectiveLocation enum values."
  | repeatable directive => directive ++ " is_repeatable flag must be True or False."
  | default text e => e.message ++ "\n\n" ++ Excerpt.atOffset text e.offset
  | within type part inner => s!"{type} {part} cannot be resolved. " ++ inner.message

/-- What is said when no schema can be made of the result from a source. -/
def loadMessage (source : String) (e : IntrospectionError) : String :=
  let reason := match e with
    | noData => e.message
    | _ => "invalid introspection result: " ++ e.message
  s!"Unable to load schema from '{source}': " ++ reason

/-- Whether the fault is one that loading a schema does not expect. -/
def isUnexpected : IntrospectionError → Bool
  | noMembers _ => true
  | _ => false

end IntrospectionError
end EmbeddedGraphQL
