import EmbeddedGraphQL.Proofs.Lines
import Mathlib

/-!
Positions and offsets lead back to each other. The line of an offset has as many line breaks before
it as its number says, its column counts the characters behind the last of them, and lines are the
parts of the text between line breaks. The line can be found by halving the line starts.
-/
namespace EmbeddedGraphQL.Text

/-! Lines by bisection -/

/-- How many starts up to `high` are at or before an offset, if all those before `low` are. -/
def bisect (starts : List Nat) (offset : Int) (low high : Nat) : Nat :=
  if low < high then
    let middle := (low + high) / 2
    -- an offset at which a line starts is on that line, so the search goes on behind the start
    if offset < (starts.getD middle 0 : Nat) then bisect starts offset low middle
    else bisect starts offset (middle + 1) high
  else low
termination_by high - low

/-- A range that encloses the number of starts at or before an offset keeps enclosing it. -/
theorem bisect_eq {starts : List Nat} {offset : Int} {count low high : Nat}
    (h : ∀ (j : Nat) (hj : j < starts.length), j < count ↔ (starts[j] : Int) ≤ offset)
    (hlow : low ≤ count) (hhigh : count ≤ high) (hle : high ≤ starts.length) :
    bisect starts offset low high = count := by
  fun_induction bisect starts offset low high with
  | case1 low high hlt middle hbehind ih =>
    have hmiddle : middle < starts.length := by omega
    rw [List.getD_eq_getElem _ _ hmiddle] at hbehind
    have hcount : ¬ middle < count := mt (h middle hmiddle).mp (not_le.mpr hbehind)
    exact ih hlow (not_lt.mp hcount) (by omega)
  | case2 low high hlt middle hbefore ih =>
    have hmiddle : middle < starts.length := by omega
    rw [List.getD_eq_getElem _ _ hmiddle] at hbefore
    have hcount : middle < count := (h middle hmiddle).mpr (not_lt.mp hbefore)
    exact ih hcount hhigh hle
  | case3 low high hdone => omega

theorem positionAt_eq_bisect (text : List Char) (offset : Int) :
    let line := bisect (lineStarts text) offset 0 (lineStarts text).length - 1
    positionAt text offset = ⟨line, offset - (lineStarts text).getD line 0⟩ := by
  have hline := bisect_eq
    (fun j hj => lt_length_filter_iff (lineStarts_sorted text) hj offset)
    (Nat.zero_le _) (List.length_filter_le _ _) le_rfl
  rw [hline]
  rfl

/-! Lines by counting line breaks -/

theorem startsAfter_succ (offset : Nat) (text : List Char) :
    startsAfter (offset + 1) text = (startsAfter offset text).map (· + 1) := by
  induction text generalizing offset with
  | nil => rfl
  | cons c rest ih =>
    simp only [startsAfter, ih]
    split_ifs <;> simp

theorem length_filter_startsAfter (base count : Nat) (text : List Char) :
    ((startsAfter base text).filter fun (start : Nat) =>
      decide ((start : Int) ≤ (base + count : Nat))).length = (text.take count).count '\n' := by
  induction text generalizing base count with
  | nil => simp [startsAfter]
  | cons c rest ih =>
    cases count with
    | zero =>
      rw [List.take_zero, List.count_nil, List.length_eq_zero_iff, List.filter_eq_nil_iff]
      intro start hstart
      have := lt_of_mem_startsAfter hstart
      simp only [decide_eq_true_eq]
      omega
    | succ count =>
      have hrest := ih (base + 1) count
      rw [show base + 1 + count = base + (count + 1) by omega] at hrest
      by_cases hc : c = '\n'
      · subst hc
        rw [startsAfter, if_pos rfl, List.filter_cons_of_pos (by simp), List.length_cons, hrest,
          List.take_succ_cons, List.count_cons_self]
      · rw [startsAfter, if_neg hc, hrest, List.take_succ_cons, List.count_cons_of_ne hc]

/-- An offset has as many line breaks before it as lines. -/
theorem lineAt_eq_count (text : List Char) (offset : Nat) :
    lineAt text offset = (text.take offset).count '\n' := by
  have hcount := length_filter_startsAfter 0 offset text
  rw [Nat.zero_add] at hcount
  rw [lineAt, lineStarts, List.filter_cons_of_pos (by simp), List.length_cons, hcount,
    Nat.add_sub_cancel]

theorem lineAt_succ {text : List Char} {offset : Nat} (h : offset < text.length) :
    lineAt text (offset + 1 : Nat) =
      lineAt text offset + if text[offset] = '\n' then 1 else 0 := by
  rw [lineAt_eq_count, lineAt_eq_count, List.take_succ_eq_append_getElem h, List.count_append,
    List.count_singleton]
  simp only [beq_iff_eq]

/-- One character on: behind a line break a new line starts, and else the column grows. -/
theorem positionAt_succ {text : List Char} {offset : Nat} (h : offset < text.length) :
    positionAt text (offset + 1 : Nat) =
      if text[offset] = '\n' then ⟨(positionAt text offset).line + 1, 0⟩
      else ⟨(positionAt text offset).line, (positionAt text offset).ch + 1⟩ := by
  have hline := lineAt_succ h
  rw [positionAt_eq, positionAt_eq]
  split_ifs at hline ⊢ with hbreak
  · have hstart := start_lineAt_le text (Int.natCast_nonneg (offset + 1))
    have hlater := start_le_iff (Int.natCast_nonneg offset) (lineAt_lt text (offset + 1 : Nat))
    rw [hline] at hstart hlater ⊢
    simp only [Position.mk.injEq]
    omega
  · rw [hline, Nat.add_zero]
    simp only [Position.mk.injEq, true_and]
    omega

/-- The place of an offset in a text is told by the line breaks before it and by what stands behind
the last of them. -/
theorem positionAt_eq_count {text : List Char} {offset : Nat} (h : offset ≤ text.length) :
    positionAt text offset =
      ⟨(text.take offset).count '\n', ((text.take offset).rtakeWhile (· ≠ '\n')).length⟩ := by
  induction offset with
  | zero =>
    have hline := lineAt_eq_count text 0
    rw [List.take_zero, List.count_nil] at hline
    rw [positionAt_eq, hline]
    rfl
  | succ offset ih =>
    rw [positionAt_succ h, ih (Nat.le_of_lt h), List.take_succ_eq_append_getElem h,
      List.rtakeWhile_concat, List.count_append, List.count_singleton]
    by_cases hbreak : text[offset] = '\n' <;> simp [hbreak]

/-! Lines as the parts between line breaks -/

theorem lineStarts_cons (c : Char) (rest : List Char) : lineStarts (c :: rest) =
    0 :: (if c = '\n' then lineStarts rest else (lineStarts rest).tail).map (· + 1) := by
  unfold lineStarts
  rw [startsAfter, startsAfter_succ]
  split_ifs <;> rfl

theorem lineText_zero (text : List Char) : lineText text 0 = text.takeWhile (· ≠ '\n') := rfl

/-- The lines behind the first one are not changed by a character in front of the text, but a line
break makes the first line one of them. -/
theorem lineText_cons_succ (c : Char) (rest : List Char) (line : Nat) :
    lineText (c :: rest) (line + 1) =
      if c = '\n' then lineText rest line else lineText rest (line + 1) := by
  have hmap (starts : List Nat) : (starts.map (· + 1)).getD line (rest.length + 1) =
      starts.getD line rest.length + 1 := List.getD_map ..
  unfold lineText
  rw [lineStarts_cons, List.getD_cons_succ, List.length_cons, hmap, List.drop_succ_cons]
  split_ifs
  · rfl
  · rw [lineStarts, List.tail_cons, List.getD_cons_succ]

/-- The lines of a text are its parts between line breaks. -/
theorem splitOn_eq_map_lineText (text : List Char) :
    text.splitOn '\n' = (List.range (lineStarts text).length).map (lineText text) := by
  induction text with
  | nil => rfl
  | cons c rest ih =>
    have hcons : (c :: rest).splitOn '\n' =
        if c = '\n' then [] :: rest.splitOn '\n' else (rest.splitOn '\n').modifyHead (c :: ·) := by
      rw [List.splitOn, List.splitOnP_cons_eq_if_modifyHead]
      exact if_congr beq_iff_eq rfl rfl
    have hlater : (fun line => lineText (c :: rest) (line + 1)) =
        fun line => if c = '\n' then lineText rest line else lineText rest (line + 1) :=
      funext (lineText_cons_succ c rest)
    rw [hcons, ih, lineStarts_cons, List.length_cons, List.length_map, List.range_succ_eq_map,
      List.map_cons, List.map_map, lineText_zero]
    change _ = _ :: List.map (fun line => lineText (c :: rest) (line + 1)) _
    rw [hlater]
    by_cases hc : c = '\n'
    · simp [hc]
    · rw [lineStarts, List.length_cons, List.range_succ_eq_map]
      simp [hc, lineText_zero, Function.comp_def]

theorem getElem?_splitOn_eq_some_iff {text line : List Char} {n : Nat} :
    (text.splitOn '\n')[n]? = some line ↔ n < (lineStarts text).length ∧ lineText text n = line := by
  rw [splitOn_eq_map_lineText, List.getElem?_map, Option.map_eq_some_iff]
  simp [List.getElem?_eq_some_iff]

/-- Positions and offsets of a text lead back to each other: an offset is the offset of its
position, and a place on a line, its end included, is the position of its offset. In between, the
position of an offset is told by the line breaks before it, and it can be found by bisection. -/
theorem positions_invert_offsets (text : List Char) :
    (∀ offset : Int, 0 ≤ offset → offsetAt text (positionAt text offset) = offset) ∧
    (∀ offset : Nat, offset ≤ text.length → positionAt text offset =
      ⟨(text.take offset).count '\n', ((text.take offset).rtakeWhile (· ≠ '\n')).length⟩) ∧
    (∀ (n : Nat) (line : List Char), (text.splitOn '\n')[n]? = some line → ∀ ch ≤ line.length,
      positionAt text (offsetAt text ⟨n, ch⟩) = ⟨n, ch⟩) ∧
    ∀ offset : Int, let n := bisect (lineStarts text) offset 0 (lineStarts text).length - 1
      positionAt text offset = ⟨n, offset - (lineStarts text).getD n 0⟩ := by
  refine ⟨fun offset => offsetAt_positionAt text, fun offset => positionAt_eq_count, ?_,
    positionAt_eq_bisect text⟩
  intro n line hline ch hch
  obtain ⟨hn, rfl⟩ := getElem?_splitOn_eq_some_iff.mp hline
  exact positionAt_offsetAt hn hch

/-- An empty line, the end of a line and the empty line behind a trailing line break. -/
theorem positions_invert_offsets_trailing_break :
    let text := "a\n\nbc\n".toList
    (0 ≤ (6 : Int) ∧ offsetAt text (positionAt text 6) = 6) ∧
    (5 ≤ text.length ∧ positionAt text (5 : Nat) = ⟨2, 2⟩) ∧
    ((text.splitOn '\n')[3]? = some [] ∧ 0 ≤ ([] : List Char).length ∧
      positionAt text (offsetAt text ⟨(3 : Nat), (0 : Nat)⟩) = ⟨(3 : Nat), (0 : Nat)⟩) := by
  intro text
  obtain ⟨hback, hcount, hplace, -⟩ := positions_invert_offsets text
  have hline : (text.splitOn '\n')[3]? = some [] := by decide
  have hlength : 5 ≤ text.length := by decide
  have hposition : positionAt text (5 : Nat) = ⟨2, 2⟩ := (hcount 5 hlength).trans (by decide)
  exact ⟨⟨by decide, hback 6 (by decide)⟩, ⟨hlength, hposition⟩, hline, le_rfl,
    hplace 3 [] hline 0 le_rfl⟩

end EmbeddedGraphQL.Text
