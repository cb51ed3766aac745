import EmbeddedGraphQL.Yaml.Token
import EmbeddedGraphQL.Yaml.Plain

/-!
The value that YAML text writes: blocks that are marked by indentation, lists and mappings in
brackets, and scalars. Text without any content writes null.
-/
namespace EmbeddedGraphQL.Yaml

/-- Why a text writes no value. -/
inductive ReadFault where
  | unprintable
  | token (fault : TokenFault)
  | noContent
  | unclosedBlock
  | unclosedBracket
  | contentAfterDocument
  | secondDocument
  | keyNotScalar
  | noValue
  deriving DecidableEq, Repr

/-- A part of a document. -/
inductive Node where
  | scalar (text : String) (isPlain : Bool)
  | sequence (items : List Node)
  | mapping (pairs : List (Node × Node))
  deriving Inhabited

namespace Node

def empty : Node := .scalar "" true

abbrev Reading := StateT Scanner (Except ReadFault)

def peek : Reading Token := do
  match (← get).peek with
  | .ok (t, s) =>
    set s
    return t
  | .error fault => throw (.token fault)

def take : Reading Unit := modify Scanner.take

/-- Takes the next token if it is a certain one. -/
def takeIf (t : Token) : Reading Bool := do
  if (← peek) == t then
    take
    return true
  else return false

/-- Which collections may start a node at a place. -/
inductive Place where
  | flow
  | block
  | blockValue
  deriving DecidableEq, Repr

mutual

/-- The node that starts with the next token. -/
def read (place : Place) : Nat → Reading Node
  | 0 => throw .noContent
  | fuel + 1 => do
    match ← peek with
    | .blockEntry =>
      if place ≠ .blockValue then throw .noContent
      return .sequence (← plainItems fuel)
    | .scalar text isPlain =>
      take
      return .scalar text isPlain
    | .flowSequenceStart =>
      take
      return .sequence (← flowItems true fuel)
    | .flowMappingStart =>
      take
      return .mapping (← flowPairs true fuel)
    | .sequenceStart =>
      if place = .flow then throw .noContent
      take
      return .sequence (← blockItems fuel)
    | .mappingStart =>
      if place = .flow then throw .noContent
      take
      return .mapping (← blockPairs fuel)
    | _ => throw .noContent

/-- A node, or the empty one before a token that ends it. -/
def readUnless (ends : List Token) (place : Place) : Nat → Reading Node
  | 0 => throw .noContent
  | fuel + 1 => do
    if ends.contains (← peek) then return .empty else read place fuel

/-- The entries of an indented sequence. -/
def blockItems : Nat → Reading (List Node)
  | 0 => throw .unclosedBlock
  | fuel + 1 => do
    if ← takeIf .blockEntry then
      let item ← readUnless [.blockEntry, .blockEnd] .block fuel
      return item :: (← blockItems fuel)
    else if ← takeIf .blockEnd then return []
    else throw .unclosedBlock

/-- The entries of a sequence that is not indented further than the key before it. -/
def plainItems : Nat → Reading (List Node)
  | 0 => throw .unclosedBlock
  | fuel + 1 => do
    if ← takeIf .blockEntry then
      let item ← readUnless [.blockEntry, .key, .value, .blockEnd] .block fuel
      return item :: (← plainItems fuel)
    else return []

def blockPairs : Nat → Reading (List (Node × Node))
  | 0 => throw .unclosedBlock
  | fuel + 1 => do
    if ← takeIf .key then
      let key ← readUnless [.key, .value, .blockEnd] .blockValue fuel
      let value ← blockValue fuel
      return (key, value) :: (← blockPairs fuel)
    else if ← takeIf .blockEnd then return []
    else throw .unclosedBlock

def blockValue : Nat → Reading Node
  | 0 => throw .unclosedBlock
  | fuel + 1 => do
    if ← takeIf .value then readUnless [.key, .value, .blockEnd] .blockValue fuel
    else return .empty

/-- The items of a list in brackets. A pair among them is a mapping of its own. -/
def flowItems (isFirst : Bool) : Nat → Reading (List Node)
  | 0 => throw .unclosedBracket
  | fuel + 1 => do
    if ← takeIf .flowSequenceEnd then return []
    if !isFirst then
      if !(← takeIf .flowEntry) then throw .unclosedBracket
    if ← takeIf .key then
      let key ← readUnless [.value, .flowEntry, .flowSequenceEnd] .flow fuel
      let value ← flowValue .flowSequenceEnd fuel
      return .mapping [(key, value)] :: (← flowItems false fuel)
    else if ← takeIf .flowSequenceEnd then return []
    else
      let item ← read .flow fuel
      return item :: (← flowItems false fuel)

def flowPairs (isFirst : Bool) : Nat → Reading (List (Node × Node))
  | 0 => throw .unclosedBracket
  | fuel + 1 => do
    if ← takeIf .flowMappingEnd then return []
    if !isFirst then
      if !(← takeIf .flowEntry) then throw .unclosedBracket
    if ← takeIf .key then
      let key ← readUnless [.value, .flowEntry, .flowMappingEnd] .flow fuel
      let value ← flowValue .flowMappingEnd fuel
      return (key, value) :: (← flowPairs false fuel)
    else if ← takeIf .flowMappingEnd then return []
    else
      let key ← read .flow fuel
      return (key, .empty) :: (← flowPairs false fuel)

def flowValue (close : Token) : Nat → Reading Node
  | 0 => throw .unclosedBracket
  | fuel + 1 => do
    if ← takeIf .value then readUnless [.flowEntry, close] .flow fuel
    else return .empty

end

/-- Skips markers of the end of a document. -/
def skipEnds : Nat → Reading Unit
  | 0 => return
  | fuel + 1 => do
    if ← takeIf .documentEnd then skipEnds fuel

/-- The only document of the text, none if there is no document at all. -/
def document (fuel : Nat) : Reading (Option Node) := do
  if (← peek) == .streamEnd then return none
  let root ← if ← takeIf .documentStart then
      readUnless [.documentStart, .documentEnd, .streamEnd] .block fuel
    else read .block fuel
  skipEnds fuel
  match ← peek with
  | .streamEnd => return some root
  | .documentStart => throw .secondDocument
  | _ => throw .contentAfterDocument

/-- The value of a scalar. Dates and the merge mark are kept as texts. -/
def scalarValue (text : String) (isPlain : Bool) : Except ReadFault Json :=
  if !isPlain then .ok (.str text)
  else match Plain.kind text with
    | .null => .ok .null
    | .flag b => .ok (.bool b)
    | .whole n => .ok (.int n)
    | .float x => .ok (.float x)
    | .defaultValue => .error .noValue
    | .date | .merge | .text => .ok (.str text)

def keyText : Json → Except ReadFault String
  | .arr _ | .obj _ => .error .keyNotScalar
  | .str s => .ok s
  | .unpaired points => .ok (CodePoint.spelled points)
  | .bool b => .ok (if b then "true" else "false")
  | .int n => .ok (toString n)
  | .float _ => .ok "number"
  | .null => .ok "null"

mutual

def value : Node → Except ReadFault Json
  | .scalar text isPlain => scalarValue text isPlain
  | .sequence nodes => (values nodes).map .arr
  | .mapping pairs => (members pairs).map fun found => .obj (Json.ofMembers found)

def values : List Node → Except ReadFault (List Json)
  | [] => .ok []
  | node :: rest => do return (← value node) :: (← values rest)

def members : List (Node × Node) → Except ReadFault (List (String × Json))
  | [] => .ok []
  | (key, node) :: rest => do
    let key ← keyText (← value key)
    return (key, ← value node) :: (← members rest)

end

end Node

def isPrintable (c : Char) : Bool :=
  let n := c.val.toNat
  n == 9 || n == 10 || n == 13 || (0x20 ≤ n && n ≤ 0x7E) || n == 0x85 ||
    (0xA0 ≤ n && n ≤ 0xFFFD) || 0x10000 ≤ n

/-- The value of a text. Nodes nest no deeper, and collections are no longer, than the text has
tokens, of which every character brings at most three. -/
def read (text : String) : Except ReadFault Json := do
  let chars := text.toList
  if !chars.all isPrintable then throw .unprintable
  match (Node.document (8 * chars.length + 32)).run (Scanner.start chars) with
  | .error fault => throw fault
  | .ok (none, _) => return .null
  | .ok (some root, _) => root.value

end EmbeddedGraphQL.Yaml
