import EmbeddedGraphQL.Proofs.LineBuckets
import EmbeddedGraphQL.Proofs.LedgerRuns
import Mathlib

/-!
The map from places of a changed text to places of the text before the insertions. A place moves
left by the number of inserted places before it, so places keep their order and come no farther
apart, and inserted text shrinks to one place. The columns of a line move in the same way by the
insertions on that line.
-/
namespace EmbeddedGraphQL

namespace Insertion

theorem before_eq_card (i : Insertion) (place : Int) :
    i.before place = ((Finset.Ico i.position i.stop).filter (· < place)).card := by
  have hset : (Finset.Ico i.position i.stop).filter (· < place) =
      Finset.Ico i.position (min i.stop place) := by
    ext k
    simp only [Finset.mem_filter, Finset.mem_Ico]
    omega
  rw [hset, Int.card_Ico, before, stop]
  omega

theorem before_mono (i : Insertion) : Monotone i.before := by
  intro first second h
  unfold before
  omega

/-- Inside inserted text, a place has as much more inserted text before it as it is behind the
start. -/
theorem sum_before_inside {insertions : List Insertion} (h : Ordered insertions) {i : Insertion}
    (hi : i ∈ insertions) {place : Int} (hstart : i.position ≤ place) (hstop : place ≤ i.stop) :
    (insertions.map (·.before place)).sum =
      (insertions.map (·.before i.position)).sum + (place - i.position) := by
  have hlength := h.1
  obtain ⟨earlier, later, rfl⟩ := List.append_of_mem hi
  obtain ⟨-, hlater, hearlier⟩ := List.pairwise_append.mp h.2
  -- both places are behind the earlier insertions and before the later ones
  have hfull : earlier.map (·.before place) = earlier.map (·.before i.position) := by
    refine List.map_congr_left fun j hj => ?_
    have hjlength := (hlength j (List.mem_append_left _ hj)).le
    have hbefore := hearlier j hj i List.mem_cons_self
    rw [before_eq_length hjlength hbefore, before_eq_length hjlength (hbefore.trans hstart)]
  have hnone : later.map (·.before place) = later.map (·.before i.position) := by
    refine List.map_congr_left fun j hj => ?_
    have hafter := (List.pairwise_cons.mp hlater).1 j hj
    rw [before_eq_zero (hstop.trans hafter), before_eq_zero ((hstart.trans hstop).trans hafter)]
  have hown : i.before place = place - i.position := by
    unfold stop at hstop
    unfold before
    omega
  simp only [List.map_append, List.map_cons, List.sum_append, List.sum_cons, hfull, hnone, hown,
    before_eq_zero le_rfl]
  omega

end Insertion

/-- A map that moves places left by the inserted text before them. -/
structure MovesLeft (insertions : List Insertion) (move : Int → Int) : Prop where
  /-- A place moves by the number of places that lie in inserted text before it. -/
  eq_sub : ∀ place, move place = place - (insertions.map fun i =>
    (((Finset.Ico i.position i.stop).filter (· < place)).card : Int)).sum
  monotone : Monotone move
  nonexpansive : ∀ first second, |move first - move second| ≤ |first - second|
  constant : ∀ i ∈ insertions, ∀ place, i.position ≤ place → place ≤ i.stop →
    move place = move i.position

namespace Ledger

/-- Two places move to places that are no farther apart. -/
theorem moveLeft_sub_le {insertions : List Insertion} (h : Ordered insertions) (delta : Int)
    {first second : Int} (hle : first ≤ second) :
    moveLeft delta second insertions - moveLeft delta first insertions ≤ second - first := by
  have hsum : (insertions.map (·.before first)).sum ≤ (insertions.map (·.before second)).sum :=
    List.sum_le_sum fun i _ => i.before_mono hle
  rw [moveLeft_eq h, moveLeft_eq h]
  omega

theorem movesLeft_moveLeft {insertions : List Insertion} (h : Ordered insertions) :
    MovesLeft insertions (moveLeft 0 · insertions) where
  eq_sub place := by
    simp only [← Insertion.before_eq_card]
    rw [moveLeft_eq h, Int.sub_zero]
  monotone := fun _ _ => moveLeft_mono h 0
  nonexpansive first second := by
    rcases le_total first second with hle | hle
    · have hmono := moveLeft_mono h 0 hle
      have hsub := moveLeft_sub_le h 0 hle
      rw [abs_of_nonpos (by omega), abs_of_nonpos (by omega)]
      omega
    · have hmono := moveLeft_mono h 0 hle
      have hsub := moveLeft_sub_le h 0 hle
      rw [abs_of_nonneg (by omega), abs_of_nonneg (by omega)]
      omega
  constant i hi place hstart hstop := by
    rw [moveLeft_eq h, moveLeft_eq h, Insertion.sum_before_inside h hi hstart hstop]
    omega

theorem movesLeft_bufferColumn {ledger : Ledger} (h : Ordered ledger.insertions)
    (text : List Char) (line : Int) :
    MovesLeft (columns (Text.lineStart text line) (ledger.onLine text line))
      (ledger.bufferColumn text line) :=
  movesLeft_moveLeft (columns_ordered (onLine_ordered h text line) _)

/-- Moved diagnostics on one line keep their start before their end. -/
theorem diagnostics_range_le {r : Extraction} (h : Ordered r.ledger.insertions)
    {found : List Diagnostic}
    (hfound : ∀ d ∈ found, d.start.line = d.stop.line → d.start.ch ≤ d.stop.ch) :
    ∀ shown ∈ r.diagnostics found, shown.start.line = shown.stop.line →
      shown.start.ch ≤ shown.stop.ch := by
  intro shown hshown hline
  obtain ⟨d, hd, rfl⟩ := List.mem_map.mp (List.mem_filter.mp hshown).1
  simp only [bufferPosition_byLine] at hline ⊢
  rw [← hline]
  exact (movesLeft_bufferColumn h r.transformed d.start.line).monotone (hfound d hd hline)

/-- Whatever calls are made on a ledger, an offset moves left by the inserted text before it, which
outside inserted text is all text inserted before it. Columns of any line of any text move in the
same way by the insertions of that line, so diagnostics on one line are not turned around. The
insertions of the lines are those that one after another go into the buckets of their lines, and
taken in the order of the lines they are all insertions. -/
theorem places_move_left (calls : List Call) :
    let ledger := empty.run calls
    MovesLeft ledger.insertions ledger.bufferOffset ∧
    (∀ offset, (∀ i ∈ ledger.insertions, ¬ (i.position < offset ∧ offset < i.stop)) →
      ledger.bufferOffset offset = offset - ledger.deltaBefore offset) ∧
    (∀ text line, MovesLeft (columns (Text.lineStart text line) (ledger.onLine text line))
      (ledger.bufferColumn text line)) ∧
    (∀ r : Extraction, r.ledger = ledger → ∀ found : List Diagnostic,
      (∀ d ∈ found, d.start.line = d.stop.line → d.start.ch ≤ d.stop.ch) →
        ∀ shown ∈ r.diagnostics found, shown.start.line = shown.stop.line →
          shown.start.ch ≤ shown.stop.ch) ∧
    ∀ text, ledger.byLine text = Buckets.ofItems (lineOf text) ledger.insertions ∧
      (∀ line, ledger.onLine text line = ((ledger.byLine text).lookup line).getD []) ∧
      ((ledger.byLine text).map Prod.fst).Pairwise (· < ·) ∧
      (ledger.byLine text).flatMap Prod.snd = ledger.insertions := by
  intro ledger
  have hordered : Ordered ledger.insertions := (empty_kept.run calls).ordered
  refine ⟨movesLeft_moveLeft hordered, fun offset => bufferOffset_eq_sub_deltaBefore hordered,
    movesLeft_bufferColumn hordered, ?_, fun text => ⟨byLine_eq_buckets ledger text,
      onLine_eq_lookup ledger text, byLine_sorted hordered text, flatMap_byLine hordered text⟩⟩
  rintro r hr found hfound
  rw [← hr] at hordered
  exact diagnostics_range_le hordered hfound

/-- Two insertions next to each other and one on the second line; a fourth is refused. The end of
an insertion is outside it, its inside moves to its start, and a diagnostic whose start lies in
inserted text stays in order. -/
theorem places_move_left_adjacent :
    let ledger := empty.run [.record 2 3, .record 5 2, .record 6 1, .record 12 4]
    let text := "{a b c d}\n{e f g h}".toList
    let r : Extraction := ⟨.plain, text, Scan.untouched text, text, ledger⟩
    let found : Diagnostic := ⟨⟨1, 3⟩, ⟨1, 8⟩, "Variable '$x' is not defined.", "error"⟩
    let shown : Diagnostic := ⟨⟨1, 2⟩, ⟨1, 4⟩, "Variable '$x' is not defined.", "error"⟩
    ((∀ i ∈ ledger.insertions, ¬ (i.position < 7 ∧ 7 < i.stop)) ∧
      ledger.bufferOffset 7 = 7 - ledger.deltaBefore 7) ∧
    (⟨5, 2⟩ ∈ ledger.insertions ∧ (5 : Int) ≤ 6 ∧ 6 ≤ (⟨5, 2⟩ : Insertion).stop ∧
      ledger.bufferOffset 6 = ledger.bufferOffset 5) ∧
    ((∀ d ∈ [found], d.start.line = d.stop.line → d.start.ch ≤ d.stop.ch) ∧
      shown ∈ r.diagnostics [found] ∧ shown.start.line = shown.stop.line ∧
      shown.start.ch ≤ shown.stop.ch) := by
  intro ledger text r found shown
  obtain ⟨hmoves, hdelta, -, hrange, -⟩ :=
    places_move_left [.record 2 3, .record 5 2, .record 6 1, .record 12 4]
  have hout : ∀ i ∈ ledger.insertions, ¬ (i.position < 7 ∧ 7 < i.stop) := by decide
  have hmem : ⟨5, 2⟩ ∈ ledger.insertions := by decide
  have hfound : ∀ d ∈ [found], d.start.line = d.stop.line → d.start.ch ≤ d.stop.ch := by decide
  have hshown : shown ∈ r.diagnostics [found] := by
    refine List.mem_filter.mpr ⟨?_, by cbv⟩
    decide
  exact ⟨⟨hout, hdelta 7 hout⟩, ⟨hmem, by decide, by decide,
    hmoves.constant ⟨5, 2⟩ hmem 6 (by decide) (by decide)⟩, hfound, hshown, rfl,
    hrange r rfl [found] hfound shown hshown rfl⟩

end Ledger
end EmbeddedGraphQL
