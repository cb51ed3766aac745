import EmbeddedGraphQL.Proofs.OrderedInsertions
import Mathlib

/-!
The table of lines with insertions. Putting each insertion into the bucket of its line gives the
table whether or not the text has line breaks. Insertions in their order sit on lines in their
order, so the buckets make up the whole list again.
-/
namespace EmbeddedGraphQL

/-! Items put into buckets one after another -/

namespace Buckets

variable {α κ : Type} [DecidableEq κ] {key : α → κ} {items : List α}

/-- Puts an item into the bucket of its key, or into a new one behind the others. -/
def add (key : α → κ) : List (κ × List α) → α → List (κ × List α)
  | [], item => [(key item, [item])]
  | (k, items) :: rest, item =>
    if k = key item then (k, items ++ [item]) :: rest else (k, items) :: add key rest item

def ofItems (key : α → κ) (items : List α) : List (κ × List α) := items.foldl (add key) []

theorem add_map {keys : List κ} (h : keys.Nodup) {f : κ → List α} {item : α}
    (hnew : key item ∉ keys → f (key item) = []) :
    add key (keys.map fun k => (k, f k)) item =
      (if key item ∈ keys then keys else keys ++ [key item]).map fun k =>
        (k, if key item = k then f k ++ [item] else f k) := by
  induction keys with
  | nil => simp [add, hnew]
  | cons k rest ih =>
    obtain ⟨hk, hrest⟩ := List.nodup_cons.mp h
    rw [List.map_cons, add]
    by_cases hitem : k = key item
    · have hother : rest.map (fun k => (k, f k)) =
          rest.map fun k => (k, if key item = k then f k ++ [item] else f k) := by
        refine List.map_congr_left fun other hmem => ?_
        have hne : key item ≠ other := fun heq => hk (hitem.trans heq ▸ hmem)
        rw [if_neg hne]
      rw [if_pos hitem, if_pos (hitem ▸ List.mem_cons_self), hother, List.map_cons,
        if_pos hitem.symm]
    · have hlater := ih hrest fun hmem =>
        hnew (List.not_mem_cons_of_ne_of_not_mem (Ne.symm hitem) hmem)
      rw [if_neg hitem, hlater]
      by_cases hmem : key item ∈ rest <;> simp [hmem, Ne.symm hitem]

theorem eraseDups_concat (keys : List κ) (k : κ) :
    (keys ++ [k]).eraseDups = if k ∈ keys then keys.eraseDups else keys.eraseDups ++ [k] := by
  rw [List.eraseDups_append]
  by_cases hk : k ∈ keys <;> simp [List.removeAll, hk, List.eraseDups_cons]

theorem nodup_eraseDups (keys : List κ) : keys.eraseDups.Nodup := by
  induction keys using List.reverseRecOn with
  | nil => exact List.nodup_nil
  | append_singleton keys k ih =>
    rw [eraseDups_concat]
    split_ifs with hk
    · exact ih
    · have hnew : k ∉ keys.eraseDups := mt List.mem_eraseDups.mp hk
      exact List.nodup_append_comm.mp (List.nodup_cons.mpr ⟨hnew, ih⟩)

/-- There is a bucket for each key, in the order of their first items, and it has the items of its
key in their order. -/
theorem ofItems_eq (key : α → κ) (items : List α) : ofItems key items =
    (items.map key).eraseDups.map fun k => (k, items.filter (key · == k)) := by
  induction items using List.reverseRecOn with
  | nil => rfl
  | append_singleton items item ih =>
    have hnew (hitem : key item ∉ (items.map key).eraseDups) :
        items.filter (key · == key item) = [] := by
      refine List.filter_eq_nil_iff.mpr fun other hmem heq => hitem ?_
      rw [List.mem_eraseDups]
      exact beq_iff_eq.mp heq ▸ List.mem_map_of_mem hmem
    have hadd := add_map (f := fun k => items.filter (key · == k))
      (nodup_eraseDups (items.map key)) hnew
    rw [← ih] at hadd
    rw [ofItems, List.foldl_append, List.foldl_cons, List.foldl_nil, ← ofItems, hadd,
      List.map_append, List.map_singleton, eraseDups_concat]
    simp only [List.mem_eraseDups]
    refine List.map_congr_left fun k _ => ?_
    by_cases hk : key item = k <;> simp [hk]

end Buckets

/-! Keys in their order -/

section Sorted

variable {α κ : Type} [LinearOrder κ] {key : α → κ} {items : List α}

theorem eraseDups_sorted {keys : List κ} (h : keys.Pairwise (· ≤ ·)) :
    keys.eraseDups.Pairwise (· < ·) := by
  induction keys using List.reverseRecOn with
  | nil => exact List.Pairwise.nil
  | append_singleton keys k ih =>
    obtain ⟨hkeys, -, hlast⟩ := List.pairwise_append.mp h
    rw [Buckets.eraseDups_concat]
    split_ifs with hk
    · exact ih hkeys
    · refine List.pairwise_append.mpr ⟨ih hkeys, List.pairwise_singleton _ _, ?_⟩
      intro first hfirst last hmem
      rw [List.mem_eraseDups] at hfirst
      rw [List.mem_singleton.mp hmem]
      refine lt_of_le_of_ne (hlast first hfirst k List.mem_cons_self) ?_
      rintro rfl
      exact hk hfirst

/-- Items in the order of their keys are the items of one key after those of another. -/
theorem flatMap_filter_eq {keys : List κ} (hkeys : keys.Pairwise (· < ·))
    (hitems : (items.map key).Pairwise (· ≤ ·)) (hall : ∀ item ∈ items, key item ∈ keys) :
    (keys.flatMap fun k => items.filter (key · == k)) = items := by
  induction items with
  | nil => simp
  | cons item rest ih =>
    rw [List.map_cons, List.pairwise_cons] at hitems
    obtain ⟨hitem, hrest⟩ := List.forall_mem_cons.mp hall
    have hback := ih hitems.2 hrest
    obtain ⟨before, after, rfl⟩ := List.append_of_mem hitem
    obtain ⟨-, hafter, hbefore⟩ := List.pairwise_append.mp hkeys
    -- nothing has a key before that of the first item
    have hnone : before.flatMap (fun k => rest.filter (key · == k)) = [] := by
      refine List.flatMap_eq_nil_iff.mpr fun k hk => List.filter_eq_nil_iff.mpr ?_
      intro other hother heq
      have hle := hitems.1 (key other) (List.mem_map_of_mem hother)
      rw [beq_iff_eq.mp heq] at hle
      exact absurd (hbefore k hk _ List.mem_cons_self) (not_lt.mpr hle)
    have hskip {keys : List κ} (h : ∀ k ∈ keys, key item ≠ k) :
        (keys.flatMap fun k => (item :: rest).filter (key · == k)) =
          keys.flatMap fun k => rest.filter (key · == k) :=
      List.flatMap_congr fun k hk => List.filter_cons_of_neg (by simpa using h k hk)
    rw [List.flatMap_append, List.flatMap_cons, hnone, List.nil_append] at hback
    rw [List.flatMap_append, List.flatMap_cons, hskip fun k hk =>
      (hbefore k hk _ List.mem_cons_self).ne', hskip fun k hk =>
      ((List.pairwise_cons.mp hafter).1 k hk).ne, hnone, List.nil_append,
      List.filter_cons_of_pos (by simp), List.cons_append, hback]

end Sorted

/-! Insertions in the buckets of their lines -/

namespace Ledger

variable {ledger : Ledger} {text : List Char}

/-- The table has what putting each insertion into the bucket of its line gives, whether or not the
text has line breaks. -/
theorem byLine_eq_buckets (ledger : Ledger) (text : List Char) :
    ledger.byLine text = Buckets.ofItems (lineOf text) ledger.insertions := by
  have hlines : (if text.contains '\n' then (ledger.insertions.map (lineOf text)).eraseDups
      else if ledger.insertions.isEmpty then [] else [0]) =
        (ledger.insertions.map (lineOf text)).eraseDups := by
    split_ifs with hbreak hnone
    · rfl
    · rw [List.isEmpty_iff.mp hnone]
      rfl
    · have hzero := lineOf_eq_zero (show '\n' ∉ text by simpa using hbreak)
      obtain ⟨i, rest, hinsertions⟩ :=
        List.exists_cons_of_ne_nil (mt List.isEmpty_iff.mpr hnone)
      have hrest : (rest.map (lineOf text)).filter (!· == 0) = [] :=
        List.filter_eq_nil_iff.mpr (by simp [hzero])
      rw [hinsertions, List.map_cons, List.eraseDups_cons, hzero i, hrest, List.eraseDups_nil]
  rw [Buckets.ofItems_eq, byLine]
  simp only [hlines, onLine_eq_filter]

theorem byLine_eq_map (ledger : Ledger) (text : List Char) : ledger.byLine text =
    (ledger.insertions.map (lineOf text)).eraseDups.map fun line =>
      (line, ledger.onLine text line) := by
  simp only [byLine_eq_buckets, Buckets.ofItems_eq, onLine_eq_filter]

/-- The lines that some insertion sits on have a bucket, with the insertions on the line. -/
theorem lookup_byLine (ledger : Ledger) (text : List Char) (line : Int) :
    (ledger.byLine text).lookup line =
      if line ∈ ledger.insertions.map (lineOf text) then some (ledger.onLine text line)
      else none := by
  rw [byLine_eq_map]
  split_ifs with hline
  · exact List.lookup_graph _ (List.mem_eraseDups.mpr hline)
  · refine List.lookup_eq_none_iff.mpr fun bucket hbucket => ?_
    obtain ⟨other, hother, rfl⟩ := List.mem_map.mp hbucket
    have hne : line ≠ other := by
      rintro rfl
      exact hline (List.mem_eraseDups.mp hother)
    simpa using hne

theorem onLine_eq_nil {line : Int} (h : line ∉ ledger.insertions.map (lineOf text)) :
    ledger.onLine text line = [] := by
  rw [onLine_eq_filter]
  refine List.filter_eq_nil_iff.mpr fun i hi heq => h ?_
  exact List.mem_map.mpr ⟨i, hi, beq_iff_eq.mp heq⟩

/-- The insertions on a line are those in its bucket. -/
theorem onLine_eq_lookup (ledger : Ledger) (text : List Char) (line : Int) :
    ledger.onLine text line = ((ledger.byLine text).lookup line).getD [] := by
  rw [lookup_byLine]
  split_ifs with hline
  · rfl
  · exact onLine_eq_nil hline

section

variable (h : Ordered ledger.insertions)
include h

/-- Insertions in their order sit on lines in their order. -/
theorem lines_sorted (text : List Char) :
    (ledger.insertions.map (lineOf text)).Pairwise (· ≤ ·) := by
  refine List.pairwise_map.mpr (h.2.imp_of_mem fun {i j} hi _ hij => ?_)
  have hlength := h.1 i hi
  have hle : i.position ≤ j.position := by
    unfold Insertion.stop at hij
    omega
  exact Int.ofNat_le.mpr (Text.lineAt_mono text hle)

theorem byLine_sorted (text : List Char) :
    ((ledger.byLine text).map Prod.fst).Pairwise (· < ·) := by
  rw [byLine_eq_map, List.map_map]
  change (List.map id _).Pairwise _
  rw [List.map_id]
  exact eraseDups_sorted (lines_sorted h text)

/-- The buckets make up the list of insertions again. -/
theorem flatMap_byLine (text : List Char) :
    (ledger.byLine text).flatMap Prod.snd = ledger.insertions := by
  rw [byLine_eq_map, List.flatMap_map]
  simp only [onLine_eq_filter]
  exact flatMap_filter_eq (eraseDups_sorted (lines_sorted h text)) (lines_sorted h text)
    fun i hi => List.mem_eraseDups.mpr (List.mem_map_of_mem hi)

end

end Ledger
end EmbeddedGraphQL
