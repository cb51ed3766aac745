import EmbeddedGraphQL.Schema.Standard
import EmbeddedGraphQL.Document.Printer

/-!
Values that the standard directives are given.
-/
namespace EmbeddedGraphQL

/-- Why an argument of a directive has no value. -/
inductive ArgumentProblem where
  | missing (argument type : String)
  | null (argument type : String)
  | unset (argument type name : String)
  | invalid (argument value : String)
  deriving DecidableEq, Repr

namespace ArgumentProblem

def message : ArgumentProblem → String
  | missing argument type =>
    s!"Argument '{argument}' of required type '{type}' was not provided."
  | null argument type => s!"Argument '{argument}' of non-null type '{type}' must not be null."
  | unset argument type name =>
    s!"Argument '{argument}' of required type '{type}' was provided the variable '${name}'" ++
      " which was not provided a runtime value."
  | invalid argument value => s!"Argument '{argument}' has invalid value {value}."

end ArgumentProblem

namespace Directive

/-- The last argument with a name. -/
def argument? (d : Directive) (name : String) : Option Argument :=
  d.arguments.reverse.find? (·.name.value == name)

/-- The value of an argument that must be given. -/
def required {α : Type} (d : Directive) (argument type : String) (read : Value → Option α) :
    Except (ArgumentProblem × Nat) α :=
  match d.argument? argument with
  | none => .error (.missing argument type, d.span.start)
  | some a =>
    match a.value with
    | .variable name span => .error (.unset argument type name.value, span.start)
    | .null span => .error (.null argument type, span.start)
    | v => match read v with
      | some value => .ok value
      | none => .error (.invalid argument (Print.value v), v.span.start)

def boolean? : Value → Option Bool
  | .boolean b _ => some b
  | _ => none

def string? : Value → Option String
  | .string text _ _ => some text
  | _ => none

/-- The condition of the first directive with a name. -/
def condition? (name : String) (ds : List Directive) :
    Except (ArgumentProblem × Nat) (Option Bool) :=
  match ds.find? (·.name.value == name) with
  | none => .ok none
  | some d => some <$> d.required "if" "Boolean!" boolean?

/-- The address that specifies a scalar. -/
def specifiedBy? (ds : List Directive) : Except (ArgumentProblem × Nat) (Option String) :=
  match ds.find? (·.name.value == "specifiedBy") with
  | none => .ok none
  | some d => some <$> d.required "url" "String!" string?

/-- The reason for a deprecation. A directive without a reason has the usual one, and a reason of
null is no deprecation. -/
def deprecation? (ds : List Directive) : Except (ArgumentProblem × Nat) (Option String) :=
  match ds.find? (·.name.value == "deprecated") with
  | none => .ok none
  | some d =>
    match d.argument? "reason" with
    | none => .ok (some Standard.defaultDeprecationReason)
    | some a =>
      match a.value with
      | .null _ => .ok none
      | v => match string? v with
        | some reason => .ok (some reason)
        | none => .error (.invalid "reason" (Print.value v), v.span.start)

def isOneOf (ds : List Directive) : Bool := ds.any (·.name.value == "oneOf")

end Directive
end EmbeddedGraphQL
