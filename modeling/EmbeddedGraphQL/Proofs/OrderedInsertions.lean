import EmbeddedGraphQL.Embedding.Insertion
import EmbeddedGraphQL.Proofs.Lines
import Mathlib

/-!
Insertions in the order of their places. Where they are ordered, a place of the changed text moves
left by as much inserted text as lies before it, so the walk over the insertions of one line and the
walk over all of them agree.
-/
namespace EmbeddedGraphQL

/-- How much of the inserted text lies before a place of the changed text. -/
def Insertion.before (i : Insertion) (place : Int) : Int :=
  max 0 (min (place - i.position) i.length)

/-- Whether a place of the changed text lies in the inserted text. -/
def Insertion.Covers (i : Insertion) (place : Int) : Prop := i.position ≤ place ∧ place < i.stop

/-- Insertions have a length, and each starts at or after the end of those before it. -/
def Ordered (insertions : List Insertion) : Prop :=
  (∀ i ∈ insertions, 0 < i.length) ∧ insertions.Pairwise fun i j => i.stop ≤ j.position

theorem Ordered.tail {i : Insertion} {rest : List Insertion} (h : Ordered (i :: rest)) :
    Ordered rest :=
  ⟨fun j hj => h.1 j (List.mem_cons_of_mem i hj), (List.pairwise_cons.mp h.2).2⟩

theorem Ordered.sublist {insertions fewer : List Insertion} (h : Ordered insertions)
    (hsublist : fewer.Sublist insertions) : Ordered fewer :=
  ⟨fun i hi => h.1 i (hsublist.subset hi), h.2.sublist hsublist⟩

theorem Ordered.filter {insertions : List Insertion} (h : Ordered insertions)
    (p : Insertion → Bool) : Ordered (insertions.filter p) :=
  h.sublist List.filter_sublist

theorem Ordered.nodup {insertions : List Insertion} (h : Ordered insertions) :
    insertions.Nodup := by
  refine h.2.imp_of_mem fun {i j} hi _ hij heq => ?_
  have hlength := h.1 i hi
  rw [← heq, Insertion.stop] at hij
  omega

/-- The insertions before an offset come first. -/
theorem Ordered.takeWhile_eq_filter {insertions : List Insertion} (h : Ordered insertions)
    (offset : Int) : insertions.takeWhile (·.position < offset) =
      insertions.filter (·.position < offset) := by
  induction insertions with
  | nil => rfl
  | cons i rest ih =>
    by_cases hi : i.position < offset
    · rw [List.takeWhile_cons_of_pos (by simpa using hi),
        List.filter_cons_of_pos (by simpa using hi), ih h.tail]
    · rw [List.takeWhile_cons_of_neg (by simpa using hi),
        List.filter_cons_of_neg (by simpa using hi)]
      refine (List.filter_eq_nil_iff.mpr fun j hj => ?_).symm
      have hlength := h.1 i List.mem_cons_self
      have hafter := (List.pairwise_cons.mp h.2).1 j hj
      rw [Insertion.stop] at hafter
      simp only [decide_eq_true_eq]
      omega

namespace Insertion

theorem before_eq_zero {i : Insertion} {place : Int} (h : place ≤ i.position) :
    i.before place = 0 := by
  unfold before
  omega

theorem before_eq_length {i : Insertion} {place : Int} (hlength : 0 ≤ i.length)
    (h : i.stop ≤ place) : i.before place = i.length := by
  unfold stop at h
  unfold before
  omega

theorem total_eq_sum (insertions : List Insertion) :
    total insertions = (insertions.map (·.length)).sum := by
  induction insertions with
  | nil => rfl
  | cons i rest ih => rw [List.map_cons, List.sum_cons, ← ih, total, total, List.foldr_cons]

theorem total_append (first second : List Insertion) :
    total (first ++ second) = total first + total second := by
  rw [total_eq_sum, total_eq_sum, total_eq_sum, List.map_append, List.sum_append]

/-- Outside inserted text, only whole insertions lie before a place. -/
theorem sum_before_eq_total {insertions : List Insertion} (h : ∀ i ∈ insertions, 0 < i.length)
    {place : Int} (hout : ∀ i ∈ insertions, ¬ (i.position < place ∧ place < i.stop)) :
    (insertions.map (·.before place)).sum = total (insertions.filter (·.position < place)) := by
  induction insertions with
  | nil => rfl
  | cons i rest ih =>
    obtain ⟨hi, hrest⟩ := List.forall_mem_cons.mp h
    obtain ⟨hiout, hrestout⟩ := List.forall_mem_cons.mp hout
    rw [List.map_cons, List.sum_cons, ih hrest hrestout]
    by_cases hlt : i.position < place
    · have hstop : i.stop ≤ place := not_lt.mp fun hin => hiout ⟨hlt, hin⟩
      rw [before_eq_length hi.le hstop, List.filter_cons_of_pos (by simpa using hlt)]
      rfl
    · rw [before_eq_zero (not_lt.mp hlt), List.filter_cons_of_neg (by simpa using hlt), zero_add]

end Insertion

namespace Ledger

/-- A place moves left by the inserted text before it. -/
theorem moveLeft_eq {insertions : List Insertion} (h : Ordered insertions) (delta place : Int) :
    moveLeft delta place insertions =
      place - delta - (insertions.map (·.before place)).sum := by
  induction insertions generalizing delta with
  | nil => simp [moveLeft]
  | cons i rest ih =>
    have hlength := h.1 i List.mem_cons_self
    have hafter := (List.pairwise_cons.mp h.2).1
    have hlater (hplace : place ≤ i.stop) : (rest.map (·.before place)).sum = 0 := by
      refine List.sum_eq_zero fun n hn => ?_
      obtain ⟨j, hj, rfl⟩ := List.mem_map.mp hn
      exact Insertion.before_eq_zero (hplace.trans (hafter j hj))
    rw [moveLeft, List.map_cons, List.sum_cons]
    split_ifs with hbefore hinside
    · rw [Insertion.before_eq_zero hbefore, hlater (by unfold Insertion.stop; omega)]
      omega
    · rw [hlater hinside.le, Insertion.before, Insertion.stop] at *
      omega
    · rw [ih h.tail, Insertion.before_eq_length hlength.le (Int.not_lt.mp hinside)]
      omega

theorem bufferOffset_eq_sub_deltaBefore {ledger : Ledger} (h : Ordered ledger.insertions)
    {offset : Int}
    (hout : ∀ i ∈ ledger.insertions, ¬ (i.position < offset ∧ offset < i.stop)) :
    ledger.bufferOffset offset = offset - ledger.deltaBefore offset := by
  rw [bufferOffset, moveLeft_eq h, Insertion.sum_before_eq_total h.1 hout, deltaBefore, Int.sub_zero]

theorem moveLeft_of_le {insertions : List Insertion} {place : Int}
    (h : ∀ i ∈ insertions, place ≤ i.position) (delta : Int) :
    moveLeft delta place insertions = place - delta := by
  cases insertions with
  | nil => rfl
  | cons i rest => rw [moveLeft, if_pos (h i List.mem_cons_self)]

/-- Places keep their order. -/
theorem moveLeft_mono {insertions : List Insertion} (h : Ordered insertions) (delta : Int)
    {first second : Int} (hle : first ≤ second) :
    moveLeft delta first insertions ≤ moveLeft delta second insertions := by
  induction insertions generalizing delta first with
  | nil =>
    simp only [moveLeft]
    omega
  | cons i rest ih =>
    have hlength := h.1 i List.mem_cons_self
    have hstop := moveLeft_of_le (List.pairwise_cons.mp h.2).1 (delta + i.length)
    rw [moveLeft, moveLeft]
    by_cases hsecond : second < i.stop
    · split_ifs <;> omega
    · have hafter := ih h.tail (delta + i.length) (Int.not_lt.mp hsecond)
      have hboth := ih h.tail (delta + i.length) hle
      rw [hstop, Insertion.stop] at hafter
      rw [Insertion.stop] at hsecond ⊢
      rw [if_neg (by omega : ¬ second ≤ i.position), if_neg hsecond]
      split_ifs <;> omega

theorem bufferOffset_mono {ledger : Ledger} (h : Ordered ledger.insertions) {first second : Int}
    (hle : first ≤ second) : ledger.bufferOffset first ≤ ledger.bufferOffset second :=
  moveLeft_mono h 0 hle

theorem moveLeft_columns (lineStart delta place : Int) (insertions : List Insertion) :
    moveLeft delta (place - lineStart) (columns lineStart insertions) =
      moveLeft delta place insertions - lineStart := by
  induction insertions generalizing delta with
  | nil =>
    simp only [columns, List.map_nil, moveLeft]
    omega
  | cons i rest ih =>
    have hrest := ih (delta + i.length)
    simp only [columns, List.map_cons, moveLeft, Insertion.stop] at hrest ⊢
    rw [hrest]
    split_ifs <;> omega

theorem lineOf_eq_zero {text : List Char} (h : '\n' ∉ text) (i : Insertion) :
    lineOf text i = 0 := congrArg Nat.cast (Text.lineAt_eq_zero h i.position)

/-- The insertions on a line are found the same way whether or not the text has line breaks. -/
theorem onLine_eq_filter (ledger : Ledger) (text : List Char) (line : Int) :
    ledger.onLine text line = ledger.insertions.filter (lineOf text · == line) := by
  unfold onLine
  split_ifs with hbreak hline
  · rfl
  · simp [hline, lineOf_eq_zero (by simpa using hbreak)]
  · simp [Ne.symm hline, lineOf_eq_zero (by simpa using hbreak)]

private theorem sum_filter {insertions : List Insertion} {p : Insertion → Bool}
    {f g : Insertion → Int}
    (h : ∀ i ∈ insertions, f i = (if p i then f i else 0) + g i) :
    (insertions.map f).sum = ((insertions.filter p).map f).sum + (insertions.map g).sum := by
  induction insertions with
  | nil => rfl
  | cons i rest ih =>
    obtain ⟨hi, hrest⟩ := List.forall_mem_cons.mp h
    have hsum := ih hrest
    cases hp : p i <;> simp only [hp, Bool.false_eq_true, ↓reduceIte] at hi <;>
      simp only [List.map_cons, List.sum_cons, List.filter_cons, hp, Bool.false_eq_true,
        ↓reduceIte] <;> omega

/-- The walk over the insertions of a line moves a column by as much as the walk over all insertions
moves its place, counted from the start of the line. No line starts inside inserted text. -/
theorem bufferColumn_eq {ledger : Ledger} {text : List Char} (h : Ordered ledger.insertions)
    (hfirst : ∀ i ∈ ledger.insertions, 0 ≤ i.position)
    (hbreak : ∀ i ∈ ledger.insertions, ∀ start ∈ Text.lineStarts text,
      i.position < start → i.stop ≤ start)
    {place : Int} (hplace : 0 ≤ place) :
    let start : Int := (Text.lineStarts text).getD (Text.lineAt text place) 0
    ledger.bufferColumn text (Text.lineAt text place) (place - start) =
      ledger.bufferOffset place - ledger.bufferOffset start := by
  intro start
  have hline := Text.lineAt_lt text place
  have hstart : start ≤ place := Text.start_lineAt_le text hplace
  have hmem : (Text.lineStarts text).getD (Text.lineAt text place) 0 ∈ Text.lineStarts text := by
    rw [List.getD_eq_getElem _ _ hline]
    exact List.getElem_mem hline
  have hcolumn := Text.lineStart_positionAt text place
  rw [Text.positionAt_eq] at hcolumn
  have hsum : (ledger.insertions.map (·.before place)).sum =
      ((ledger.onLine text (Text.lineAt text place)).map (·.before place)).sum +
        (ledger.insertions.map (·.before start)).sum := by
    rw [onLine_eq_filter]
    refine sum_filter fun i hi => ?_
    have hlength := (h.1 i hi).le
    have hposition := hfirst i hi
    have hlineOf : lineOf text i = Text.lineAt text i.position := rfl
    have hon := Text.start_le_iff hposition hline
    rcases lt_trichotomy (Text.lineAt text i.position) (Text.lineAt text place) with hlt | heq | hgt
    · have hbefore : i.position < start := by
        rw [← not_le, hon]
        omega
      have hstop : i.stop ≤ start := hbreak i hi _ hmem hbefore
      rw [if_neg (by simp [hlineOf]; omega), Insertion.before_eq_length hlength hstop,
        Insertion.before_eq_length hlength (hstop.trans hstart), zero_add]
    · rw [if_pos (by simp [hlineOf, heq]), Insertion.before_eq_zero (hon.mpr heq.ge), add_zero]
    · have hafter : place < i.position := by
        by_contra hle
        exact absurd (Text.lineAt_mono text (not_lt.mp hle)) (by omega)
      rw [if_neg (by simp [hlineOf]; omega), Insertion.before_eq_zero hafter.le,
        Insertion.before_eq_zero (hstart.trans hafter.le), zero_add]
  have honLine : Ordered (ledger.onLine text (Text.lineAt text place)) := by
    rw [onLine_eq_filter]
    exact h.filter _
  unfold bufferColumn bufferOffset
  rw [hcolumn, moveLeft_columns, moveLeft_eq honLine, moveLeft_eq h, moveLeft_eq h, hsum]
  omega

end Ledger
end EmbeddedGraphQL
