import EmbeddedGraphQL.Text.Position
import Mathlib

/-!
Lines of a text. The starts of lines increase, an offset lies on the last line that starts at or
before it, and the place of an offset leads back to the offset, as the offset of a place on a line
leads back to the place.
-/
namespace EmbeddedGraphQL.Text

theorem lt_of_mem_startsAfter {offset start : Nat} {text : List Char}
    (h : start ∈ startsAfter offset text) : offset < start := by
  induction text generalizing offset with
  | nil => simp [startsAfter] at h
  | cons c rest ih =>
    rw [startsAfter] at h
    split_ifs at h
    · rcases List.mem_cons.mp h with rfl | h
      · exact Nat.lt_succ_self offset
      · exact (Nat.lt_succ_self offset).trans (ih h)
    · exact (Nat.lt_succ_self offset).trans (ih h)

theorem startsAfter_sorted (offset : Nat) (text : List Char) :
    (startsAfter offset text).Pairwise (· < ·) := by
  induction text generalizing offset with
  | nil => exact List.Pairwise.nil
  | cons c rest ih =>
    rw [startsAfter]
    split_ifs
    · exact List.pairwise_cons.mpr ⟨fun start h => lt_of_mem_startsAfter h, ih (offset + 1)⟩
    · exact ih (offset + 1)

theorem lineStarts_sorted (text : List Char) : (lineStarts text).Pairwise (· < ·) :=
  List.pairwise_cons.mpr
    ⟨fun _ h => Nat.zero_lt_of_lt (lt_of_mem_startsAfter h), startsAfter_sorted 0 text⟩

/-- Lines start right after the line breaks. -/
theorem mem_startsAfter_iff {offset start : Nat} {text : List Char} :
    start ∈ startsAfter offset text ↔ ∃ k, text[k]? = some '\n' ∧ start = offset + k + 1 := by
  induction text generalizing offset with
  | nil => simp [startsAfter]
  | cons c rest ih =>
    have hrest : (∃ k, rest[k]? = some '\n' ∧ start = offset + 1 + k + 1) ↔
        ∃ k, (c :: rest)[k + 1]? = some '\n' ∧ start = offset + (k + 1) + 1 := by
      simp only [List.getElem?_cons_succ, Nat.add_assoc, Nat.add_comm 1]
    rw [startsAfter]
    split_ifs with hc
    · rw [List.mem_cons, ih, hrest]
      constructor
      · rintro (rfl | ⟨k, hk⟩)
        · exact ⟨0, by simp [hc]⟩
        · exact ⟨k + 1, hk⟩
      · rintro ⟨_ | k, hk⟩
        · exact Or.inl hk.2
        · exact Or.inr ⟨k, hk⟩
    · rw [ih, hrest]
      constructor
      · rintro ⟨k, hk⟩
        exact ⟨k + 1, hk⟩
      · rintro ⟨_ | k, hk⟩
        · exact absurd (by simpa using hk.1) hc
        · exact ⟨k, hk⟩

/-- Texts with line breaks at the same places have lines that start at the same places. -/
theorem startsAfter_congr {first second : List Char} (hlength : first.length = second.length)
    (h : ∀ k : Nat, first[k]? = some '\n' ↔ second[k]? = some '\n') (offset : Nat) :
    startsAfter offset first = startsAfter offset second := by
  induction first generalizing second offset with
  | nil => rw [List.length_eq_zero_iff.mp hlength.symm]
  | cons c rest ih =>
    cases second with
    | nil => simp at hlength
    | cons d rest' =>
      have hhead : c = '\n' ↔ d = '\n' := by simpa using h 0
      have hrest := ih (by simpa using hlength) (fun k => by simpa using h (k + 1)) (offset + 1)
      simp only [startsAfter, hhead, hrest]

/-- The index of the last line that starts at or before an offset. -/
def lineAt (text : List Char) (offset : Int) : Nat :=
  ((lineStarts text).filter fun (start : Nat) => decide ((start : Int) ≤ offset)).length - 1

theorem positionAt_eq (text : List Char) (offset : Int) : positionAt text offset =
    ⟨lineAt text offset, offset - (lineStarts text).getD (lineAt text offset) 0⟩ := rfl

/-- In sorted starts, those at or before an offset come first. -/
theorem lt_length_filter_iff {starts : List Nat} (h : starts.Pairwise (· < ·)) {j : Nat}
    (hj : j < starts.length) (offset : Int) :
    j < (starts.filter fun (start : Nat) => decide ((start : Int) ≤ offset)).length ↔
      (starts[j] : Int) ≤ offset := by
  induction starts generalizing j with
  | nil => simp at hj
  | cons start rest ih =>
    obtain ⟨hstart, hrest⟩ := List.pairwise_cons.mp h
    by_cases hle : (start : Int) ≤ offset
    · rw [List.filter_cons_of_pos (by simpa using hle), List.length_cons]
      cases j with
      | zero => simpa using hle
      | succ j =>
        rw [Nat.succ_lt_succ_iff, ih hrest (by simpa using hj)]
        rfl
    · rw [List.filter_cons_of_neg (by simpa using hle)]
      have hnone : rest.filter (fun (s : Nat) => decide ((s : Int) ≤ offset)) = [] := by
        refine List.filter_eq_nil_iff.mpr fun s hs => ?_
        have := hstart s hs
        simp only [decide_eq_true_eq]
        omega
      have hlate : ¬ ((start :: rest)[j] : Int) ≤ offset := by
        cases j with
        | zero => exact hle
        | succ j =>
          have := hstart _ (List.getElem_mem (Nat.lt_of_succ_lt_succ hj))
          simp only [List.getElem_cons_succ]
          omega
      simp [hnone, hlate]

theorem lineAt_lt (text : List Char) (offset : Int) :
    lineAt text offset < (lineStarts text).length := by
  have h := List.length_filter_le (fun (start : Nat) => decide ((start : Int) ≤ offset))
    (lineStarts text)
  have hpos := List.length_pos_iff.mpr (lineStarts_ne_nil text)
  unfold lineAt
  omega

/-- An offset lies on a line or behind it exactly if the line starts at or before the offset. -/
theorem start_le_iff {text : List Char} {offset : Int} (hoffset : 0 ≤ offset) {j : Nat}
    (hj : j < (lineStarts text).length) :
    ((lineStarts text).getD j 0 : Int) ≤ offset ↔ j ≤ lineAt text offset := by
  have hiff := lt_length_filter_iff (lineStarts_sorted text) hj offset
  have hzero := (lt_length_filter_iff (lineStarts_sorted text)
    (List.length_pos_iff.mpr (lineStarts_ne_nil text)) offset).mpr hoffset
  rw [List.getD_eq_getElem _ _ hj, ← hiff]
  unfold lineAt
  omega

theorem start_lineAt_le (text : List Char) {offset : Int} (hoffset : 0 ≤ offset) :
    ((lineStarts text).getD (lineAt text offset) 0 : Int) ≤ offset :=
  (start_le_iff hoffset (lineAt_lt text offset)).mpr le_rfl

theorem lineAt_mono (text : List Char) : Monotone (lineAt text) := by
  intro first second h
  have hsublist := List.monotone_filter_right (lineStarts text)
    (p := fun (start : Nat) => decide ((start : Int) ≤ first))
    (q := fun (start : Nat) => decide ((start : Int) ≤ second))
    (fun start hstart => by simp only [decide_eq_true_eq] at hstart ⊢; exact hstart.trans h)
  exact Nat.sub_le_sub_right hsublist.length_le 1

theorem startsAfter_append {word : List Char} (h : '\n' ∉ word) (offset : Nat)
    (text : List Char) :
    startsAfter offset (word ++ text) = startsAfter (offset + word.length) text := by
  induction word generalizing offset with
  | nil => rfl
  | cons c rest ih =>
    rw [List.mem_cons, not_or] at h
    rw [List.cons_append, startsAfter, if_neg (Ne.symm h.1), ih h.2, List.length_cons]
    congr 1
    omega

theorem startsAfter_eq_nil {text : List Char} (h : '\n' ∉ text) (offset : Nat) :
    startsAfter offset text = [] := by
  have happend := startsAfter_append h offset []
  rwa [List.append_nil] at happend

theorem lineAt_eq_zero {text : List Char} (h : '\n' ∉ text) (offset : Int) :
    lineAt text offset = 0 := by
  have := lineAt_lt text offset
  rw [lineStarts, startsAfter_eq_nil h] at this
  exact Nat.lt_one_iff.mp this

/-- The offset of the place of an offset. -/
theorem offsetAt_positionAt (text : List Char) {offset : Int} (hoffset : 0 ≤ offset) :
    offsetAt text (positionAt text offset) = offset := by
  have hline := lineAt_lt text offset
  have hstart := start_lineAt_le text hoffset
  rw [positionAt_eq]
  unfold offsetAt
  dsimp only
  rw [Int.toNat_natCast, min_eq_left (by omega)]
  omega

theorem lineStart_positionAt (text : List Char) (offset : Int) :
    lineStart text (positionAt text offset).line =
      ((lineStarts text).getD (lineAt text offset) 0 : Nat) := by
  have hline := lineAt_lt text offset
  rw [positionAt_eq]
  unfold lineStart
  dsimp only
  rw [if_pos (Int.natCast_nonneg _), Int.toNat_natCast, List.getD_eq_getElem _ _ hline,
    List.getD_eq_getElem _ _ hline]

private theorem length_takeWhile_le_of_getElem? {p : Char → Bool} {text : List Char} {k : Nat}
    {c : Char} (hc : text[k]? = some c) (hp : p c = false) : (text.takeWhile p).length ≤ k := by
  by_contra hlt
  have htaken : (text.takeWhile p)[k]? = some c := by
    obtain ⟨rest, hrest⟩ := List.takeWhile_prefix (l := text) p
    rw [← hrest, List.getElem?_append_left (by omega)] at hc
    exact hc
  have := List.mem_takeWhile_imp (List.mem_of_getElem? htaken)
  simp [hp] at this

theorem lineStart_le_length {text : List Char} {line : Nat} (hline : line < (lineStarts text).length) :
    (lineStarts text).getD line 0 ≤ text.length := by
  rw [List.getD_eq_getElem _ _ hline]
  rcases List.mem_cons.mp (List.getElem_mem hline) with h | h
  · rw [h]
    exact Nat.zero_le _
  · obtain ⟨k, hk, hstart⟩ := mem_startsAfter_iff.mp h
    have := (List.getElem?_eq_some_iff.mp hk).1
    omega

/-- A line ends before the next one starts. -/
theorem lineText_length_lt {text : List Char} {line : Nat}
    (hline : line + 1 < (lineStarts text).length) :
    (lineStarts text).getD line 0 + (lineText text line).length <
      (lineStarts text).getD (line + 1) 0 := by
  have hthis : line < (lineStarts text).length := Nat.lt_of_succ_lt hline
  have hlt := List.pairwise_iff_getElem.mp (lineStarts_sorted text) line (line + 1) hthis hline
    (Nat.lt_succ_self line)
  obtain ⟨k, hk, hnext⟩ := mem_startsAfter_iff.mp
    (List.getElem_mem (l := startsAfter 0 text) (Nat.lt_of_succ_lt_succ hline))
  rw [← List.getElem_cons_succ 0 (startsAfter 0 text) line hline] at hnext
  change (lineStarts text)[line + 1] = _ at hnext
  have hbreak : (text.drop (lineStarts text)[line])[k - (lineStarts text)[line]]? = some '\n' := by
    rw [List.getElem?_drop, Nat.add_sub_of_le (by omega), hk]
  have hlength := length_takeWhile_le_of_getElem? hbreak (p := (· ≠ '\n')) (by simp)
  unfold lineText
  rw [List.getD_eq_getElem _ _ hthis, List.getD_eq_getElem _ _ hthis,
    List.getD_eq_getElem _ _ hline]
  omega

/-- A line lies inside the text. -/
theorem lineText_length_le {text : List Char} {line : Nat} (hline : line < (lineStarts text).length) :
    (lineStarts text).getD line 0 + (lineText text line).length ≤ text.length := by
  have hstart := lineStart_le_length hline
  have hlength := (List.takeWhile_prefix (l := text.drop ((lineStarts text).getD line 0))
    (· ≠ '\n')).length_le
  rw [List.length_drop] at hlength
  unfold lineText
  rw [List.getD_eq_getElem _ _ hline] at *
  rw [List.getD_eq_getElem _ _ hline]
  omega

theorem offsetAt_of_lt {text : List Char} {line : Nat} (hline : line < (lineStarts text).length)
    (ch : Nat) : offsetAt text ⟨line, ch⟩ = ((lineStarts text).getD line 0 + ch : Nat) := by
  unfold offsetAt
  dsimp only
  rw [Int.toNat_natCast, min_eq_left (by omega)]
  omega

/-- The place of the offset of a place on a line, its end included. -/
theorem positionAt_offsetAt {text : List Char} {line ch : Nat}
    (hline : line < (lineStarts text).length) (hch : ch ≤ (lineText text line).length) :
    positionAt text (offsetAt text ⟨line, ch⟩) = ⟨line, ch⟩ := by
  rw [offsetAt_of_lt hline]
  set start := (lineStarts text).getD line 0 with hstart
  have hnonneg : (0 : Int) ≤ (start + ch : Nat) := Int.natCast_nonneg _
  have hle : line ≤ lineAt text (start + ch : Nat) :=
    (start_le_iff hnonneg hline).mp (by omega)
  have hge : lineAt text (start + ch : Nat) ≤ line := by
    by_contra hlt
    have hnext : line + 1 < (lineStarts text).length :=
      (Nat.succ_le_of_lt (Nat.lt_of_not_le hlt)).trans_lt (lineAt_lt text _)
    have hlater := (start_le_iff hnonneg hnext).mpr (Nat.lt_of_not_le hlt)
    have := lineText_length_lt hnext
    omega
  rw [positionAt_eq, le_antisymm hge hle, ← hstart]
  simp only [Position.mk.injEq, true_and]
  omega

end EmbeddedGraphQL.Text
