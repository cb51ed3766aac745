import EmbeddedGraphQL.Embedding.Template
import EmbeddedGraphQL.Embedding.FragmentName

/-!
Messages that only speak of stand-ins. The text written over template expressions and inserted as
fragment names is not the author's, so complaints about it are artifacts. Quotes in messages may be
single or double.
-/
namespace EmbeddedGraphQL

/-- A message about a range of a buffer. -/
structure Diagnostic where
  start : Position
  stop : Position
  message : String
  severity : String
  deriving DecidableEq, Repr

namespace Artifact

/-- A part of a message: fixed text or a quotation mark. -/
inductive Part where
  | word (text : List Char)
  | quote
  deriving DecidableEq, Repr

def isQuote (c : Char) : Bool := c == '"' || c == '\''

def Part.after? (text : List Char) : Part → Option (List Char)
  | .word w => if w.isPrefixOf text then some (text.drop w.length) else none
  | .quote => match text with
    | c :: rest => if isQuote c then some rest else none
    | [] => none

/-- What follows a sequence of parts that a text starts with. -/
def afterParts? (text : List Char) : List Part → Option (List Char)
  | [] => some text
  | part :: parts => (part.after? text).bind fun rest => afterParts? rest parts

def startsWith (parts : List Part) (text : List Char) : Bool := (afterParts? text parts).isSome

/-- The parts make up the whole text, up to one line feed at its end. -/
def isWhole (parts : List Part) (text : List Char) : Bool :=
  match afterParts? text parts with
  | some rest => rest == [] || rest == ['\n']
  | none => false

def occursIn (parts : List Part) : List Char → Bool
  | [] => startsWith parts []
  | c :: rest => startsWith parts (c :: rest) || occursIn parts rest

/-- The first non-empty text between two quotation marks with none inside. -/
def firstQuoted? : List Char → Option (List Char)
  | [] => none
  | c :: rest =>
    let name := rest.takeWhile (!isQuote ·)
    if isQuote c ∧ name ≠ [] ∧ name.length < rest.length then some name else firstQuoted? rest

/-- Fields and names that stand in for text of the host language. -/
def standInNames : List (List Char) := [templateField, spreadField, fragmentName]

/-- Reasons for which a message is an artifact. -/
inductive Rule where
  | loneAnonymousOperation
  | duplicateFragmentName
  | unusedFragmentName
  | standInSelection
  | standInVariable
  | relayDirective
  | fragmentName
  | unknownFragment
  | spreadField
  deriving DecidableEq, Repr

namespace Rule

def name : Rule → String
  | loneAnonymousOperation => "lone-anonymous-operation"
  | duplicateFragmentName => "duplicate-placeholder-fragment"
  | unusedFragmentName => "unused-placeholder-fragment"
  | standInSelection => "placeholder-subselection"
  | standInVariable => "placeholder-variable"
  | relayDirective => "relay-directive"
  | fragmentName => "fragment-placeholder"
  | unknownFragment => "apollo-unknown-fragment"
  | spreadField => "lokka-placeholder-field"

private def fixed (text : String) : Part := .word text.toList

/-- A stand-in fragment name in quotes. -/
private def quotedName : List Part :=
  [.quote, .word EmbeddedGraphQL.fragmentName, .quote]

/-- Whether a rule applies to a message. -/
def applies (message : List Char) : Rule → Bool
  | loneAnonymousOperation =>
    message == "This anonymous operation must be the only defined operation.".toList
  | duplicateFragmentName =>
    isWhole (fixed "There can be only one fragment named " :: (quotedName ++ [fixed "."])) message
  | unusedFragmentName =>
    isWhole (fixed "Fragment " :: (quotedName ++ [fixed " is never used."])) message
  | standInSelection =>
    (occursIn [fixed "must have a selection of subfields"] message ||
      occursIn [fixed "must have a sub selection"] message) &&
      (firstQuoted? message).any (standInNames.contains ·)
  | standInVariable =>
    startsWith [fixed "Variable "] message && occursIn [fixed "is not defined"] message &&
      (firstQuoted? message).any fun name =>
        standInNames.contains (name.dropWhile (· == '$'))
  | relayDirective =>
    isWhole [fixed "Unknown directive ", .quote, fixed "relay", .quote, fixed "."] message ||
      isWhole [fixed "Unknown directive ", .quote, fixed "@relay", .quote, fixed "."] message
  | fragmentName => occursIn quotedName message
  | unknownFragment => occursIn [fixed "Unknown fragment"] message
  | spreadField =>
    startsWith [fixed "Cannot query field ", .quote, .word EmbeddedGraphQL.spreadField, .quote]
      message

/-- The rules of an environment, in the order in which they are tried. -/
def ofEnvironment (environment : Environment) : List Rule :=
  [loneAnonymousOperation, duplicateFragmentName, unusedFragmentName, standInSelection,
    standInVariable, relayDirective, fragmentName] ++
    match environment with
    | .apollo => [unknownFragment]
    | .lokka => [spreadField]
    | _ => []

end Rule

/-- The first rule of an environment that applies to a message. -/
def rule? (environment : Environment) (message : String) : Option Rule :=
  (Rule.ofEnvironment environment).find? (·.applies message.toList)

/-- The diagnostics that are no artifacts, in their order. -/
def visible (environment : Environment) (diagnostics : List Diagnostic) : List Diagnostic :=
  diagnostics.filter fun d => (rule? environment d.message).isNone

end Artifact
end EmbeddedGraphQL
