import EmbeddedGraphQL.Schema.Standard
import EmbeddedGraphQL.Document.Printer
import EmbeddedGraphQL.Decimal.General
import EmbeddedGraphQL.Json.Reader

/-!
Constants of a schema: what a written default means for a type, and how it is written again. A
default that does not fit its type means nothing.
-/
namespace EmbeddedGraphQL

inductive Constant where
  | null
  | bool (b : Bool)
  | int (n : Int)
  | float (x : Float)
  | str (s : String)
  | list (items : List Constant)
  | object (fields : List (String × Constant))
  deriving Inhabited

namespace Constant

def floatOf (text : String) : Float :=
  match Json.number? text.toList with
  | some (.int n, _) => Decimal.nearest (n < 0) n.natAbs 0
  | some (.float x, _) => x
  | _ => 0.0

def intOf (text : String) : Int := text.toInt?.getD 0

mutual

/-- What a value means where its type says nothing about it; variables mean null. -/
def untyped : Value → Constant
  | .variable _ _ => .null
  | .int text _ => .int (intOf text)
  | .float text _ => .float (floatOf text)
  | .string text _ _ => .str text
  | .boolean b _ => .bool b
  | .null _ => .null
  | .enum name _ => .str name
  | .list items _ => .list (untypedItems items)
  | .object fields _ => .object (untypedFields fields)

def untypedItems : List Value → List Constant
  | [] => []
  | v :: rest => untyped v :: untypedItems rest

def untypedFields : List (Name × Value) → List (String × Constant)
  | [] => []
  | (n, v) :: rest => (n.value, untyped v) :: untypedFields rest

end

/-- Whole numbers of the scalar `Int` have 32 bits. -/
def isInt32 (n : Int) : Bool := decide (-2147483648 ≤ n) && decide (n ≤ 2147483647)

/-- What a value that is not null means for a scalar. -/
def ofScalar? (name : String) (v : Value) : Option Constant :=
  match name, v with
  | "Int", .int text _ => if isInt32 (intOf text) then some (.int (intOf text)) else none
  | "Int", _ => none
  | "Float", .int text _ | "Float", .float text _ => some (.float (floatOf text))
  | "Float", _ => none
  | "String", .string text _ _ => some (.str text)
  | "String", _ => none
  | "Boolean", .boolean b _ => some (.bool b)
  | "Boolean", _ => none
  | "ID", .string text _ _ | "ID", .int text _ => some (.str text)
  | "ID", _ => none
  | _, v => some (untyped v)

def isVariable : Value → Bool
  | .variable .. => true
  | _ => false

/-- What a value without variables means for a type. Defaults of input fields fill in for missing
ones. The depth of the value and the number of types bound the recursion, which `fuel` counts. -/
def ofValue? (s : Schema) : Nat → TypeExpr → Value → Option Constant
  | 0, _, _ => none
  | fuel + 1, type, v =>
    match type, v with
    | _, .variable .. => none
    | .nonNull _, .null _ => none
    | .nonNull inner, v => ofValue? s fuel inner v
    | _, .null _ => some .null
    | .list item, .list items _ =>
      (items.mapM fun v =>
        if isVariable v then if item.isNonNull then none else some .null
        else ofValue? s fuel item v).map .list
    | .list item, v => (ofValue? s fuel item v).map fun c => .list [c]
    | .named name, v =>
      match s.kind? name with
      | some (.scalar _) => ofScalar? name v
      | some (.enum values) =>
        match v with
        | .enum value _ => if values.any (·.name == value) then some (.str value) else none
        | _ => none
      | some (.input inputs isOneOf) =>
        match v with
        | .object fields _ =>
          let read : List (Option (List (String × Constant))) := inputs.map fun input =>
            let given := (fields.reverse.find? fun f => f.1.value == input.name).map (·.2)
            match given.filter (!isVariable ·) with
            | some v => (ofValue? s fuel input.type v).map fun c => [(input.name, c)]
            | none =>
              match input.default.bind (ofValue? s fuel input.type) with
              | some c => some [(input.name, c)]
              | none => if input.type.isNonNull then none else some []
          (read.mapM id).bind fun parts =>
            let members := parts.flatten
            if isOneOf then
              match members with
              | [(_, .null)] => none
              | [_] => some (.object members)
              | _ => none
            else some (.object members)
        | _ => none
      | _ => none

/-- Why a constant cannot be written for the type of its place. -/
inductive Unwritable where
  | notFinite (x : Float)
  | notSimple

def Unwritable.message : Unwritable → String
  | notFinite x => "Float cannot represent non numeric value: " ++ Decimal.plain.write x
  | notSimple => "Cannot convert value to AST"

def isWholeText (s : String) : Bool :=
  match s.toList with
  | '-' :: '0' :: rest => rest.isEmpty
  | '0' :: rest => rest.isEmpty
  | '-' :: rest => !rest.isEmpty && rest.all Char.isDigit
  | rest => !rest.isEmpty && rest.all Char.isDigit

/-- A constant of a scalar or enum type, written again. -/
def leafText (name : String) (isEnum : Bool) (c : Constant) : Except Unwritable String :=
  match c with
  | .bool b => .ok (if b then "true" else "false")
  | .int n => .ok (toString n)
  | .float x =>
    if (Decimal.binary? x).isSome then .ok (Decimal.general x)
    else if name == "Float" then .error (.notFinite x)
    else .error .notSimple
  | .str text =>
    if isEnum || (name == "ID" && isWholeText text) then .ok text else .ok (Print.quoted text)
  | _ => .error .notSimple

/-- A constant written again for a type; nothing is written for null where it is not allowed. -/
def text? (s : Schema) : Nat → TypeExpr → Constant → Except Unwritable (Option String)
  | 0, _, _ => .ok none
  | fuel + 1, type, c =>
    match type, c with
    | .nonNull _, .null => .ok none
    | .nonNull inner, c => text? s fuel inner c
    | _, .null => .ok (some "null")
    | .list item, .list items => do
      let texts ← items.mapM (text? s fuel item)
      return some ("[" ++ ", ".intercalate (texts.filterMap id) ++ "]")
    | .list item, c => text? s fuel item c
    | .named name, c =>
      match s.kind? name with
      | some (.input inputs _) =>
        match c with
        | .object fields => do
          let texts ← inputs.mapM fun input =>
            match fields.lookup input.name with
            | some c => do
              return (← text? s fuel input.type c).map fun t => input.name ++ ": " ++ t
            | none => return none
          return some ("\x7b" ++ ", ".intercalate (texts.filterMap id) ++ "\x7d")
        | _ => .ok none
      | some (.enum _) => some <$> leafText name true c
      | _ => some <$> leafText name false c

end Constant

mutual

def Value.depth : Value → Nat
  | .list items _ => Value.depths items + 1
  | .object fields _ => Value.fieldDepths fields + 1
  | _ => 1

def Value.depths : List Value → Nat
  | [] => 0
  | v :: rest => max v.depth (Value.depths rest)

def Value.fieldDepths : List (Name × Value) → Nat
  | [] => 0
  | (_, v) :: rest => max v.depth (Value.fieldDepths rest)

end

/-- The number of list and null marks around a named type. -/
def TypeExpr.wrappers : TypeExpr → Nat
  | .named _ => 0
  | .list item | .nonNull item => item.wrappers + 1

namespace Schema

/-- A bound for the nesting of a value of a type, with the defaults that may fill it in. -/
def nestingBound (s : Schema) (type : TypeExpr) (v : Value) : Nat :=
  let inputs := s.types.flatMap (·.inputFields)
  let wrappers := (inputs.map (·.type.wrappers)).foldl max type.wrappers
  let depth := inputs.foldr (fun i n => (i.default.map Value.depth).getD 0 + n) 0
  (v.depth + depth + s.types.length + 1) * (wrappers + 2)

/-- What the default of an input value means. -/
def default? (s : Schema) (input : InputValue) : Option Constant :=
  input.default.bind fun v => Constant.ofValue? s (s.nestingBound input.type v) input.type v

/-- An input value that must be given: it cannot be null and has no default. -/
def isRequired (s : Schema) (input : InputValue) : Bool :=
  input.type.isNonNull && (s.default? input).isNone

end Schema
end EmbeddedGraphQL
