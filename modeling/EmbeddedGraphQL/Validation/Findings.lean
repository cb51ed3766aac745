import EmbeddedGraphQL.Validation.Operations
import EmbeddedGraphQL.Validation.Selections
import EmbeddedGraphQL.Validation.Fragments
import EmbeddedGraphQL.Validation.Variables
import EmbeddedGraphQL.Validation.Directives
import EmbeddedGraphQL.Validation.Values
import EmbeddedGraphQL.Validation.Merging

/-!
What is wrong with a document under a schema. Findings come in the order of the walk through the
document, and at one place in the order of the rules.
-/
namespace EmbeddedGraphQL.Validation

/-- The rules for documents that are run. -/
def rules : List Rule := [
  onlyExecutable, operationNames, anonymousAlone, singleFieldSubscriptions, knownTypes,
  compositeConditions, inputVariables, leafSelections, knownFields, fragmentNames, knownFragments,
  usedFragments, possibleSpreads, noCycles, variableNames, definedVariables, usedDefinitions,
  knownDirectives, directivesOnce, knownArguments, argumentNames, fittingValues,
  requiredArguments, variablePositions, mergeableFields, inputFieldNames, introspectionDepth]

/-- The findings of some rules in order. -/
def found (rules : List Rule) (x : Setting) : List Finding :=
  ((rules.flatMap fun rule => rule x).mergeSort fun a b => decide (a.1 ≤ b.1)).map (·.2)

/-- More findings than this are not reported. -/
def limit : Nat := 100

/-- Findings up to the limit, unless a condition among them cannot be told. -/
def reported (findings : List Finding) : Except ArgumentProblem (List Finding) :=
  match (findings.take (limit + 1)).findSome? fun finding =>
      match finding.violation with
      | .undecided problem => some problem
      | _ => none with
  | some problem => .error problem
  | none =>
    .ok (if limit < findings.length then findings.take limit ++ [⟨.tooMany, []⟩] else findings)

/-- The findings about a document. -/
def findings (s : Schema) (d : Document) : Except ArgumentProblem (List Finding) :=
  reported (found rules (.of s d))

end EmbeddedGraphQL.Validation
