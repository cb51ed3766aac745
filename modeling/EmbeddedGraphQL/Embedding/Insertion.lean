import EmbeddedGraphQL.Text.Position

/-!
Insertions made into a buffer, and the ledger that keeps them in the order of their places. Places
are those of the changed text. The ledger answers where a place of the changed text lies in the
buffer it came from, by offset or by column, and hands its insertions out once to a reader that
walks the text from left to right.
-/
namespace EmbeddedGraphQL

structure Insertion where
  position : Int
  length : Int
  deriving DecidableEq, Repr

/-- The place right after the inserted text. -/
def Insertion.stop (i : Insertion) : Int := i.position + i.length

/-- Total length of insertions. -/
def Insertion.total (insertions : List Insertion) : Int :=
  insertions.foldr (fun i n => i.length + n) 0

/-- Why an insertion is not recorded. -/
inductive Refusal where
  | emptyInsertion (length : Int)
  | outOfOrder (position stop : Int)
  deriving DecidableEq, Repr

def Refusal.message : Refusal → String
  | emptyInsertion length => s!"Shift length must be positive, got {length}"
  | outOfOrder position stop =>
    s!"Shift at {position} overlaps or precedes shift ending at {stop}"

/-- The insertions recorded so far, and how many of them have been handed out. -/
structure Ledger where
  insertions : List Insertion
  consumed : Nat
  deriving DecidableEq, Repr, Inhabited

namespace Ledger

def empty : Ledger := ⟨[], 0⟩

/-- Appends an insertion, which must have a length and start at or after the end of the last. -/
def record (ledger : Ledger) (position length : Int) : Except Refusal Ledger :=
  if length ≤ 0 then .error (.emptyInsertion length)
  else match ledger.insertions.getLast? with
    | some last =>
      if position < last.stop then .error (.outOfOrder position last.stop)
      else .ok { ledger with insertions := ledger.insertions ++ [⟨position, length⟩] }
    | none => .ok { ledger with insertions := [⟨position, length⟩] }

/-- The insertion with an index; negative indices count from the last one. -/
def get? (ledger : Ledger) (index : Int) : Option Insertion :=
  let i := if index < 0 then index + ledger.insertions.length else index
  if 0 ≤ i then ledger.insertions[i.toNat]? else none

/-- Total length of the insertions strictly before an offset. -/
def deltaBefore (ledger : Ledger) (offset : Int) : Int :=
  Insertion.total (ledger.insertions.filter (·.position < offset))

/-- Moves a place left by the insertions before it, once `delta` characters of earlier ones are
accounted for; a place inside inserted text goes to the start of that text. -/
def moveLeft (delta place : Int) : List Insertion → Int
  | [] => place - delta
  | i :: rest =>
    if place ≤ i.position then place - delta
    else if place < i.stop then i.position - delta
    else moveLeft (delta + i.length) place rest

/-- The offset in the buffer of an offset in the changed text. -/
def bufferOffset (ledger : Ledger) (offset : Int) : Int :=
  moveLeft 0 offset ledger.insertions

/-- The line of the changed text that an insertion sits on. -/
def lineOf (text : List Char) (i : Insertion) : Int := (Text.positionAt text i.position).line

/-- The insertions on a line of the changed text. Without line breaks all are on the first one. -/
def onLine (ledger : Ledger) (text : List Char) (line : Int) : List Insertion :=
  if text.contains '\n' then ledger.insertions.filter (lineOf text · == line)
  else if line = 0 then ledger.insertions else []

/-- The lines that have insertions, in the order of the insertions, each with its own. -/
def byLine (ledger : Ledger) (text : List Char) : List (Int × List Insertion) :=
  let lines :=
    if text.contains '\n' then (ledger.insertions.map (lineOf text)).eraseDups
    else if ledger.insertions.isEmpty then [] else [0]
  lines.map fun line => (line, ledger.onLine text line)

/-- Insertions placed by their column on a line that starts at `lineStart`. -/
def columns (lineStart : Int) (insertions : List Insertion) : List Insertion :=
  insertions.map fun i => { i with position := i.position - lineStart }

/-- The column in the buffer of a column of the changed text. -/
def bufferColumn (ledger : Ledger) (text : List Char) (line ch : Int) : Int :=
  moveLeft 0 ch (columns (Text.lineStart text line) (ledger.onLine text line))

/-- The column in the changed text of a column in the buffer: a cursor is pushed right by every
insertion at or before it. -/
def changedColumn (ledger : Ledger) (text : List Char) (line ch : Int) : Int :=
  (columns (Text.lineStart text line) (ledger.onLine text line)).foldl
    (fun ch i => if i.position ≤ ch then ch + i.length else ch) ch

def reset (ledger : Ledger) : Ledger := { ledger with consumed := 0 }

/-- The insertions not handed out yet. -/
def pending (ledger : Ledger) : List Insertion := ledger.insertions.drop ledger.consumed

def peek (ledger : Ledger) : Option Insertion := ledger.pending.head?

/-- Hands out the pending insertions up to the first that is not strictly before an offset. -/
def consumeBefore (ledger : Ledger) (offset : Int) : List Insertion × Ledger :=
  let taken := ledger.pending.takeWhile (·.position < offset)
  (taken, { ledger with consumed := ledger.consumed + taken.length })

end Ledger
end EmbeddedGraphQL
