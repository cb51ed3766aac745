import EmbeddedGraphQL.Proofs.Placement
import Mathlib

/-!
Cursors of the changed text. A cursor is pushed right by every insertion at or before it, so it
never rests on inserted text, and moving it back undoes the push. In an extracted document the
pushed cursor stands at the same character as the cursor of the buffer.
-/
namespace EmbeddedGraphQL
open Text FragmentName

/-- Whatever is recorded, a ledger holds insertions in their order. -/
theorem Ledger.record_ordered {ledger next : Ledger} {position length : Int}
    (h : Ordered ledger.insertions) (hrecord : ledger.record position length = .ok next) :
    Ordered next.insertions := by
  unfold Ledger.record at hrecord
  split_ifs at hrecord with hlength
  split at hrecord
  next last hlast =>
    split_ifs at hrecord with hposition
    cases hrecord
    obtain ⟨hpositive, hordered⟩ := h
    obtain ⟨first, hfirst⟩ := List.getLast?_eq_some_iff.mp hlast
    refine ⟨?_, List.pairwise_append.mpr ⟨hordered, List.pairwise_singleton _ _, ?_⟩⟩
    · intro i hi
      rcases List.mem_append.mp hi with hi | hi
      · exact hpositive i hi
      · rw [List.mem_singleton.mp hi]
        exact not_le.mp hlength
    · intro i hi j hj
      rw [List.mem_singleton.mp hj]
      have hstop : i.stop ≤ last.stop := by
        rw [hfirst] at hi hordered
        rcases List.mem_append.mp hi with hi | hi
        · have hbefore := (List.pairwise_append.mp hordered).2.2 i hi last List.mem_cons_self
          have := hpositive last (hfirst ▸ List.mem_append_cons_self)
          unfold Insertion.stop at hbefore ⊢
          omega
        · rw [List.mem_singleton.mp hi]
      dsimp only
      omega
  next =>
    cases hrecord
    exact ⟨by simpa using hlength, List.pairwise_singleton _ _⟩

theorem FragmentName.recordAll_ordered {ledger : Ledger} (h : Ordered ledger.insertions)
    (insertions : List Insertion) : Ordered (recordAll ledger insertions).insertions := by
  induction insertions generalizing ledger with
  | nil => exact h
  | cons i rest ih =>
    refine ih ?_
    change Ordered ((ledger.record i.position i.length).toOption.getD ledger).insertions
    cases hrecord : ledger.record i.position i.length with
    | error _ => exact h
    | ok next => exact Ledger.record_ordered h hrecord

namespace Ledger

/-- One insertion pushes a cursor that stands at or behind its place. -/
def push (ch : Int) (i : Insertion) : Int := if i.position ≤ ch then ch + i.length else ch

theorem push_strictMono {i : Insertion} (h : 0 < i.length) : StrictMono (push · i) := by
  intro first second hlt
  unfold push
  dsimp only
  split_ifs <;> omega

theorem foldl_push_strictMono {insertions : List Insertion} (h : ∀ i ∈ insertions, 0 < i.length) :
    StrictMono (insertions.foldl push) := by
  induction insertions with
  | nil => exact strictMono_id
  | cons i rest ih =>
    obtain ⟨hi, hrest⟩ := List.forall_mem_cons.mp h
    exact (ih hrest).comp (push_strictMono hi)

theorem le_foldl_push {insertions : List Insertion} (h : ∀ i ∈ insertions, 0 < i.length)
    (ch : Int) : ch ≤ insertions.foldl push ch := by
  induction insertions generalizing ch with
  | nil => exact le_rfl
  | cons i rest ih =>
    obtain ⟨hi, hrest⟩ := List.forall_mem_cons.mp h
    have := ih hrest (push ch i)
    rw [List.foldl_cons]
    unfold push at this ⊢
    split_ifs at this ⊢ <;> omega

theorem foldl_push_of_lt {insertions : List Insertion} {ch : Int}
    (h : ∀ i ∈ insertions, ch < i.position) : insertions.foldl push ch = ch := by
  induction insertions with
  | nil => rfl
  | cons i rest ih =>
    obtain ⟨hi, hrest⟩ := List.forall_mem_cons.mp h
    rw [List.foldl_cons, push, if_neg (not_le.mpr hi), ih hrest]

/-- Moving a pushed cursor left undoes the push. -/
theorem moveLeft_foldl_push {insertions : List Insertion} (h : Ordered insertions)
    (delta ch : Int) : moveLeft delta (insertions.foldl push ch) insertions = ch - delta := by
  induction insertions generalizing delta ch with
  | nil => rfl
  | cons i rest ih =>
    have hlength := h.1 i List.mem_cons_self
    have hafter := (List.pairwise_cons.mp h.2).1
    rw [List.foldl_cons, moveLeft]
    by_cases hpush : i.position ≤ ch
    · have hpushed := le_foldl_push h.tail.1 (ch + i.length)
      rw [push, if_pos hpush, if_neg (by omega), if_neg (by unfold Insertion.stop; omega),
        ih h.tail]
      omega
    · have hstay : rest.foldl push ch = ch := foldl_push_of_lt fun j hj => by
        have := hafter j hj
        unfold Insertion.stop at this
        omega
      rw [push, if_neg hpush, hstay, if_pos (by omega)]

/-- Pushing a place that was moved left brings it back, unless it lay in inserted text. -/
theorem foldl_push_moveLeft {insertions : List Insertion} (h : Ordered insertions)
    (delta : Int) {place : Int} (hout : ∀ i ∈ insertions, ¬ i.Covers place) :
    insertions.foldl push (moveLeft delta place insertions + delta) = place := by
  induction insertions generalizing delta with
  | nil => simp [moveLeft]
  | cons i rest ih =>
    obtain ⟨hi, hrest⟩ := List.forall_mem_cons.mp hout
    have hlength := h.1 i List.mem_cons_self
    have hafter := (List.pairwise_cons.mp h.2).1
    have hlt : place < i.position ∨ i.stop ≤ place := by
      by_contra hin
      exact hi ⟨by omega, by omega⟩
    rw [List.foldl_cons, moveLeft]
    rcases hlt with hlt | hstop
    · have hstay : rest.foldl push place = place := foldl_push_of_lt fun j hj => by
        have := hafter j hj
        unfold Insertion.stop at this
        omega
      rw [if_pos hlt.le, Int.sub_add_cancel, push, if_neg (not_le.mpr hlt), hstay]
    · have hplace : i.position < place := by
        unfold Insertion.stop at hstop
        omega
      have hback : i.position ≤ moveLeft (delta + i.length) place rest + delta := by
        have hmono := moveLeft_mono h.tail (delta + i.length) hstop
        rw [moveLeft_of_le hafter] at hmono
        unfold Insertion.stop at hmono
        omega
      rw [if_neg (not_le.mpr hplace), if_neg (not_lt.mpr hstop), push, if_pos hback, Int.add_assoc,
        ih h.tail _ hrest]

theorem columns_ordered {insertions : List Insertion} (h : Ordered insertions) (lineStart : Int) :
    Ordered (columns lineStart insertions) := by
  refine ⟨fun i hi => ?_, List.pairwise_map.mpr (h.2.imp fun {i j} hij => ?_)⟩
  · obtain ⟨j, hj, rfl⟩ := List.mem_map.mp hi
    exact h.1 j hj
  · unfold Insertion.stop at hij ⊢
    dsimp only
    omega

theorem onLine_ordered {ledger : Ledger} (h : Ordered ledger.insertions) (text : List Char)
    (line : Int) : Ordered (ledger.onLine text line) := by
  rw [onLine_eq_filter]
  exact h.filter _

theorem changedColumn_eq (ledger : Ledger) (text : List Char) (line ch : Int) :
    ledger.changedColumn text line ch =
      (columns (lineStart text line) (ledger.onLine text line)).foldl push ch := rfl

theorem bufferColumn_changedColumn {ledger : Ledger} (h : Ordered ledger.insertions)
    (text : List Char) (line ch : Int) :
    ledger.bufferColumn text line (ledger.changedColumn text line ch) = ch := by
  have hordered := columns_ordered (onLine_ordered h text line) (lineStart text line)
  rw [changedColumn_eq, bufferColumn, moveLeft_foldl_push hordered, Int.sub_zero]

theorem changedColumn_strictMono {ledger : Ledger} (h : Ordered ledger.insertions)
    (text : List Char) (line : Int) : StrictMono (ledger.changedColumn text line) :=
  foldl_push_strictMono (columns_ordered (onLine_ordered h text line) (lineStart text line)).1

/-- A column outside inserted text comes back from the buffer. -/
theorem changedColumn_bufferColumn {ledger : Ledger} (h : Ordered ledger.insertions)
    {text : List Char} {line ch : Int}
    (hout : ∀ i ∈ ledger.insertions, ¬ i.Covers (lineStart text line + ch)) :
    ledger.changedColumn text line (ledger.bufferColumn text line ch) = ch := by
  have hordered := columns_ordered (onLine_ordered h text line) (lineStart text line)
  have hcolumns : ∀ i ∈ columns (lineStart text line) (ledger.onLine text line),
      ¬ i.Covers ch := by
    intro i hi hcovers
    obtain ⟨j, hj, rfl⟩ := List.mem_map.mp hi
    rw [onLine_eq_filter] at hj
    refine hout j (List.mem_filter.mp hj).1 ?_
    unfold Insertion.Covers Insertion.stop at hcovers ⊢
    dsimp only at hcovers
    omega
  have hback := foldl_push_moveLeft hordered 0 hcolumns
  rwa [Int.add_zero] at hback

end Ledger

namespace Extraction

theorem cursor_eq (r : Extraction) (p : Position) :
    r.cursor p = ⟨p.line, r.ledger.changedColumn r.transformed p.line p.ch⟩ := by
  unfold cursor
  split_ifs with hempty
  · have hnone : r.ledger.onLine r.transformed p.line = [] := by
      simp [Ledger.onLine_eq_filter, List.isEmpty_iff.mp hempty]
    simp [Ledger.changedColumn, hnone, Ledger.columns]
  · rfl

/-- The cursor at the place of an offset is pushed to the place where its character stands. -/
theorem Named.cursor_positionAt {r : Extraction} (h : r.Named) (k : Nat) :
    r.cursor (positionAt r.buffer k) = positionAt r.transformed (landing r.sites k) := by
  have hcolumn := h.bufferColumn_positionAt (landing r.sites k)
  rw [bufferOffset_landing h.sorted h.insertions] at hcolumn
  have hout := not_covers_landing h.sorted h.insertions k
  have hplace : lineStart r.transformed (positionAt r.transformed (landing r.sites k)).line +
      (positionAt r.transformed (landing r.sites k)).ch = (landing r.sites k : Nat) := by
    rw [lineStart_positionAt, positionAt_eq]
    dsimp only
    omega
  rw [← hplace] at hout
  have hback := Ledger.changedColumn_bufferColumn h.ordered hout
  rw [← hcolumn, cursor_eq]
  dsimp only
  rw [hback]

/-- Whatever was recorded, a cursor pushed right and moved back is where it was, and pushed cursors
keep their order. In the document of a buffer a pushed cursor stands outside the inserted names, at
the character at which the cursor stood, or both stand at the end. -/
theorem cursor_round_trip :
    (∀ (recorded : List Insertion) (text : List Char) (line : Int),
      let ledger := recordAll Ledger.empty recorded
      (∀ ch, ledger.bufferColumn text line (ledger.changedColumn text line ch) = ch) ∧
      StrictMono (ledger.changedColumn text line)) ∧
    ∀ (environment : Environment) (buffer : List Char) (line ch : Nat),
      line < (lineStarts buffer).length → ch ≤ (lineText buffer line).length →
      let r := ofBuffer environment buffer
      ∃ offset place : Nat, offsetAt buffer ⟨line, ch⟩ = offset ∧
        offsetAt r.transformed (r.cursor ⟨line, ch⟩) = place ∧
        (∀ i ∈ r.ledger.insertions, ¬ i.Covers place) ∧
        ((∃ c, r.transformed[place]? = some c ∧ r.scan.text[offset]? = some c) ∨
          place = r.transformed.length ∧ offset = buffer.length) := by
  constructor
  · intro recorded text line ledger
    have hordered : Ordered ledger.insertions :=
      recordAll_ordered ⟨by simp [Ledger.empty], List.Pairwise.nil⟩ recorded
    exact ⟨Ledger.bufferColumn_changedColumn hordered text line,
      Ledger.changedColumn_strictMono hordered text line⟩
  · intro environment buffer line ch hline hch r
    have h : r.Named := ofBuffer_named environment buffer
    have hoffset := offsetAt_of_lt hline ch
    set offset := (lineStarts buffer).getD line 0 + ch
    have hposition : positionAt buffer offset = ⟨line, ch⟩ := by
      rw [← hoffset, positionAt_offsetAt hline hch]
    have hcursor : r.cursor ⟨line, ch⟩ = positionAt r.transformed (landing r.sites offset) := by
      rw [← hposition]
      exact h.cursor_positionAt offset
    refine ⟨offset, landing r.sites offset, hoffset, ?_, ?_, ?_⟩
    · rw [hcursor, offsetAt_positionAt _ (Int.natCast_nonneg _)]
    · exact not_covers_landing h.sorted h.insertions offset
    · have hle : offset ≤ buffer.length := by
        have := lineText_length_le hline
        omega
      rcases Nat.eq_or_lt_of_le hle with heq | hlt
      · exact Or.inr ⟨heq ▸ h.landing_length, heq⟩
      · have hlt' : offset < r.scan.text.length := h.text_length ▸ hlt
        exact Or.inl ⟨_, (h.getElem?_landing offset).trans (List.getElem?_eq_getElem hlt'),
          List.getElem?_eq_getElem hlt'⟩

/-- A cursor right before the `on` of a shorthand definition whose name goes to the start of a
line. -/
theorem cursor_round_trip_shorthand :
    let buffer := "fragment\non T".toList
    let r := ofBuffer .relay buffer
    1 < (lineStarts buffer).length ∧ 0 ≤ (lineText buffer 1).length ∧
    ∃ offset place : Nat, offsetAt buffer ⟨1, 0⟩ = offset ∧
      offsetAt r.transformed (r.cursor ⟨1, 0⟩) = place ∧
      (∀ i ∈ r.ledger.insertions, ¬ i.Covers place) ∧
      ((∃ c, r.transformed[place]? = some c ∧ r.scan.text[offset]? = some c) ∨
        place = r.transformed.length ∧ offset = buffer.length) := by
  have hline : 1 < (lineStarts "fragment\non T".toList).length := by decide
  have hch : 0 ≤ (lineText "fragment\non T".toList 1).length := by decide
  exact ⟨hline, hch, cursor_round_trip.2 .relay _ 1 0 hline hch⟩

end Extraction
end EmbeddedGraphQL
