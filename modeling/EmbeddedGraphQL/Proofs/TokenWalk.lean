import EmbeddedGraphQL.Embedding.Restoration
import EmbeddedGraphQL.Proofs.OrderedInsertions
import Mathlib

/-!
The walk that moves tokens left. What the walk knows when it comes to a token depends only on where
the token starts, so tokens whose starts do not decrease are moved one by one.
-/
namespace EmbeddedGraphQL

/-- The insertions at or before a place, as far as they come first. -/
def Ledger.passed (ledger : Ledger) (place : Int) : List Insertion :=
  ledger.insertions.takeWhile (·.position < place + 1)

namespace Restoration

/-- The walk after the first `n` insertions. -/
def Walk.after (ledger : Ledger) (n : Nat) : Walk where
  ledger := { ledger with consumed := n }
  delta := Insertion.total (ledger.insertions.take n)
  active := (ledger.insertions.take n).getLast?

/-- A token moved to the buffer on its own; nothing is left of one inside inserted text. -/
def moved? (ledger : Ledger) (token : Token) : Option Token :=
  let walk := Walk.after ledger (ledger.passed token.start).length
  (walk.trimFront? token).map fun token =>
    let token := walk.trimBack token
    { token with start := token.start - walk.delta, stop := token.stop - walk.delta }

theorem take_passed (ledger : Ledger) (place : Int) :
    ledger.insertions.take (ledger.passed place).length = ledger.passed place :=
  (List.prefix_iff_eq_take.mp (List.takeWhile_prefix _)).symm

theorem passed_length_le (ledger : Ledger) (place : Int) :
    (ledger.passed place).length ≤ ledger.insertions.length :=
  (List.takeWhile_prefix _).length_le

theorem position_le_of_mem_passed {ledger : Ledger} {place : Int} {i : Insertion}
    (h : i ∈ ledger.passed place) : i.position ≤ place := by
  have := List.mem_takeWhile_imp h
  simp only [decide_eq_true_eq] at this
  omega

/-- A walk that has passed nothing behind a token passes all insertions at or before its start. -/
theorem pass_after {ledger : Ledger} {n : Nat} (hn : n ≤ ledger.insertions.length) {token : Token}
    (h : ∀ i ∈ ledger.insertions.take n, i.position ≤ token.start) :
    (Walk.after ledger n).pass token =
      Walk.after ledger (ledger.passed token.start).length := by
  have hsplit : ledger.passed token.start = ledger.insertions.take n ++
      (ledger.insertions.drop n).takeWhile (·.position < token.start + 1) := by
    conv_lhs => rw [Ledger.passed, ← List.take_append_drop n ledger.insertions]
    refine List.takeWhile_append_of_pos fun i hi => ?_
    have := h i hi
    simp only [decide_eq_true_eq]
    omega
  have hlength : (ledger.passed token.start).length = n +
      ((ledger.insertions.drop n).takeWhile (·.position < token.start + 1)).length := by
    rw [hsplit, List.length_append, List.length_take_of_le hn]
  unfold Walk.pass Walk.after Ledger.consumeBefore Ledger.pending
  rw [take_passed, hsplit, Insertion.total_append, List.getLast?_append,
    ← hsplit, hlength]

/-- Tokens whose starts do not decrease are moved one by one. -/
theorem unshiftFrom_after {ledger : Ledger} {tokens : List Token}
    (hsorted : tokens.Pairwise fun t u => t.start ≤ u.start) {n : Nat}
    (hn : n ≤ ledger.insertions.length)
    (h : ∀ token ∈ tokens, ∀ i ∈ ledger.insertions.take n, i.position ≤ token.start) :
    unshiftFrom (Walk.after ledger n) tokens = tokens.filterMap (moved? ledger) := by
  induction tokens generalizing n with
  | nil => rfl
  | cons token rest ih =>
    obtain ⟨hstart, hrest⟩ := List.pairwise_cons.mp hsorted
    have hpass := pass_after hn (h token List.mem_cons_self)
    have hnext := ih hrest (passed_length_le ledger token.start) fun other hother i hi => by
      rw [take_passed] at hi
      exact (position_le_of_mem_passed hi).trans (hstart other hother)
    rw [unshiftFrom, hpass, hnext, List.filterMap_cons, moved?]
    cases (Walk.after ledger (ledger.passed token.start).length).trimFront? token <;> rfl

theorem moved?_of_isEmpty {ledger : Ledger} (h : ledger.insertions = []) (token : Token) :
    moved? ledger token = some token := by
  simp [moved?, Ledger.passed, Walk.after, Walk.trimFront?, Walk.trimBack, Ledger.peek,
    Ledger.pending, Insertion.total, h]

theorem unshift_eq {tokens : List Token} (hsorted : tokens.Pairwise fun t u => t.start ≤ u.start)
    (ledger : Ledger) : unshift ledger tokens = tokens.filterMap (moved? ledger) := by
  unfold unshift
  split_ifs with hempty
  · have hall : moved? ledger = some :=
      funext (moved?_of_isEmpty (List.isEmpty_iff.mp hempty))
    rw [hall, List.filterMap_some]
  · exact unshiftFrom_after hsorted (Nat.zero_le _) (by simp)

/-- Behind the insertions passed, the walk goes on with those after the place. -/
theorem insertions_split (ledger : Ledger) (place : Int) :
    ledger.insertions = ledger.passed place ++
      ledger.insertions.drop (ledger.passed place).length := by
  conv_lhs => rw [← List.take_append_drop (ledger.passed place).length ledger.insertions,
    take_passed]

section Ordered

variable {ledger : Ledger} (h : Ordered ledger.insertions)
include h

/-- The insertions passed are those at or before the place. -/
theorem passed_eq_filter (place : Int) :
    ledger.passed place = ledger.insertions.filter (·.position ≤ place) := by
  rw [Ledger.passed, h.takeWhile_eq_filter]
  exact List.filter_congr fun i _ => decide_eq_decide.mpr Int.lt_add_one_iff

theorem mem_passed_iff {i : Insertion} {place : Int} :
    i ∈ ledger.passed place ↔ i ∈ ledger.insertions ∧ i.position ≤ place := by
  rw [passed_eq_filter h, List.mem_filter, decide_eq_true_eq]

theorem lt_of_mem_drop {place : Int} {i : Insertion}
    (hi : i ∈ ledger.insertions.drop (ledger.passed place).length) : place < i.position := by
  by_contra hle
  have hpassed : i ∈ ledger.passed place :=
    (mem_passed_iff h).mpr ⟨List.mem_of_mem_drop hi, not_lt.mp hle⟩
  have hnodup := h.nodup
  rw [insertions_split ledger place] at hnodup
  exact List.disjoint_of_nodup_append hnodup hpassed hi

/-- The insertions that end at or before the place are those it moves left by. -/
theorem bufferOffset_eq_sub_passed {place : Int}
    (hout : ∀ i ∈ ledger.insertions, ¬ i.Covers place) :
    ledger.bufferOffset place = place - Insertion.total (ledger.passed place) := by
  have hpassed : ledger.passed place = ledger.insertions.filter (·.position < place) := by
    rw [passed_eq_filter h]
    refine List.filter_congr fun i hi => decide_eq_decide.mpr ⟨fun hle => ?_, le_of_lt⟩
    -- an insertion right at the place would cover it
    refine lt_of_le_of_ne hle fun heq => hout i hi ⟨hle, ?_⟩
    have hlength := h.1 i hi
    unfold Insertion.stop
    omega
  rw [hpassed]
  exact Ledger.bufferOffset_eq_sub_deltaBefore h fun i hi hin => hout i hi ⟨hin.1.le, hin.2⟩

/-- The insertion around a place is the one passed last. -/
theorem getLast?_passed {place : Int} {i : Insertion} (hi : i ∈ ledger.insertions)
    (hcovers : i.Covers place) : (ledger.passed place).getLast? = some i := by
  have hmem := (mem_passed_iff h).mpr ⟨hi, hcovers.1⟩
  obtain ⟨front, last, hpassed⟩ :=
    (List.eq_nil_or_concat' (ledger.passed place)).resolve_left (List.ne_nil_of_mem hmem)
  have hordered : (ledger.passed place).Pairwise fun i j => i.stop ≤ j.position :=
    h.2.sublist (List.takeWhile_sublist _)
  have hlast := ((mem_passed_iff h).mp (hpassed ▸ List.mem_concat_self)).2
  rw [hpassed] at hmem hordered ⊢
  rcases List.mem_append.mp hmem with hfront | hmem
  · have hle := (List.pairwise_append.mp hordered).2.2 i hfront last List.mem_cons_self
    exact absurd hcovers.2 (by omega)
  · rw [List.mem_singleton.mp hmem, List.getLast?_concat]

theorem trimFront?_of_not_covers {token : Token}
    (hout : ∀ i ∈ ledger.insertions, ¬ i.Covers token.start) :
    (Walk.after ledger (ledger.passed token.start).length).trimFront? token = some token := by
  unfold Walk.trimFront? Walk.after
  dsimp only
  rw [take_passed]
  split
  next i hlast =>
    obtain ⟨hmem, hle⟩ := (mem_passed_iff h).mp (List.mem_of_getLast? hlast)
    rw [if_neg fun hlt => hout i hmem ⟨hle, hlt⟩]
  next => rfl

/-- A token that starts outside inserted text starts in the buffer where its offset is moved. -/
theorem moved?_start {token : Token} (hout : ∀ i ∈ ledger.insertions, ¬ i.Covers token.start) :
    ∃ moved, moved? ledger token = some moved ∧
      moved.start = ledger.bufferOffset token.start := by
  have hback (walk : Walk) : (walk.trimBack token).start = token.start := by
    unfold Walk.trimBack
    split
    · split <;> rfl
    · rfl
  refine ⟨_, by rw [moved?, trimFront?_of_not_covers h hout, Option.map_some], ?_⟩
  dsimp only
  rw [hback, bufferOffset_eq_sub_passed h hout]
  simp only [Walk.after, take_passed]

end Ordered

end Restoration
end EmbeddedGraphQL
