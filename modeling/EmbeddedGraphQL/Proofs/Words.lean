import EmbeddedGraphQL.Proofs.Lines
import EmbeddedGraphQL.Proofs.StrictSymbols
import Mathlib

/-!
Words under a cursor. The word at a column is the longest run of name characters that touches the
column, and it is the same at all columns from its start to its end. A column of a line is found at
the same offset in every text that begins in the same way up to there.
-/
namespace EmbeddedGraphQL.Text

section Runs

variable {p : Char → Bool} {first last : List Char}

/-- A class of characters that ends a text, and what it is cut off from. -/
theorem rtakeWhile_append (hlast : ∀ c ∈ last, p c = true)
    (hfirst : ∀ c ∈ first.getLast?, p c = false) : (first ++ last).rtakeWhile p = last := by
  have htake : (last.reverse ++ first.reverse).takeWhile p = last.reverse :=
    takes_takeWhile (by simpa using hlast) (by simpa using hfirst) _ List.prefix_rfl
  rw [List.rtakeWhile, List.reverse_append, htake, List.reverse_reverse]

theorem rdropWhile_append (hlast : ∀ c ∈ last, p c = true)
    (hfirst : ∀ c ∈ first.getLast?, p c = false) : (first ++ last).rdropWhile p = first := by
  have hsplit := (first ++ last).reverse.takeWhile_append_dropWhile (p := p)
  have hboth := congrArg List.reverse hsplit
  rw [List.reverse_append, List.reverse_reverse] at hboth
  change (first ++ last).rdropWhile p ++ (first ++ last).rtakeWhile p = _ at hboth
  rw [rtakeWhile_append hlast hfirst] at hboth
  exact List.append_cancel_right hboth

/-- A text as what a class of characters does not end, and what it ends. -/
theorem exists_rtakeWhile (p : Char → Bool) (text : List Char) : ∃ first,
    text = first ++ text.rtakeWhile p ∧ (∀ c ∈ first.getLast?, p c = false) := by
  obtain ⟨rest, hsplit, -, hrest⟩ := takeWhile_split p text.reverse
  refine ⟨rest.reverse, ?_, by simpa using hrest⟩
  rw [List.rtakeWhile, ← List.reverse_append, ← hsplit, List.reverse_reverse]

end Runs

/-- A run of name characters in a line that cannot be made longer on either side. It may be
empty. -/
structure IsWord (line : List Char) (start stop : Nat) : Prop where
  start_le : start ≤ stop
  stop_le : stop ≤ line.length
  inside : ∀ c ∈ (line.take stop).drop start, isNameChar c = true
  before : ∀ c ∈ (line.take start).getLast?, isNameChar c = false
  behind : ∀ c ∈ (line.drop stop).head?, isNameChar c = false

namespace IsWord

variable {line : List Char} {start stop ch : Nat}

/-- What stands between two columns of a word. -/
theorem inside_of_le (h : IsWord line start stop) {k : Nat} (hk : k ≤ stop) :
    ∀ c ∈ (line.take k).drop start, isNameChar c = true := by
  have hpart : (line.take k).drop start <+: (line.take stop).drop start := by
    rw [List.drop_take, List.drop_take]
    exact List.take_prefix_take_left (by omega)
  exact fun c hc => h.inside c (hpart.subset hc)

/-- The word at any of the columns of a word, its end included, is that word. -/
theorem wordBounds_eq (h : IsWord line start stop) (hstart : start ≤ ch) (hstop : ch ≤ stop) :
    wordBounds line ch = (start, stop) := by
  have hlength := h.stop_le
  have hbefore : (line.take ch).reverse.takeWhile isNameChar =
      ((line.take ch).drop start).reverse := by
    have hsplit : (line.take ch).reverse =
        ((line.take ch).drop start).reverse ++ (line.take start).reverse := by
      rw [← List.reverse_append]
      congr 1
      conv_lhs => rw [← List.take_append_drop start (line.take ch), List.take_take,
        min_eq_left hstart]
    rw [hsplit]
    refine takes_takeWhile ?_ ?_ _ List.prefix_rfl
    · simpa using h.inside_of_le hstop
    · simpa using h.before
  have hbehind : (line.drop ch).takeWhile isNameChar = (line.take stop).drop ch := by
    have hsplit : line.drop ch = (line.take stop).drop ch ++ line.drop stop := by
      rw [List.drop_take, ← List.take_append_drop (stop - ch) (line.drop ch), List.drop_drop,
        Nat.add_sub_of_le hstop, List.take_append_of_le_length (by simp; omega), List.take_take,
        min_self]
    rw [hsplit]
    refine takes_takeWhile ?_ h.behind _ List.prefix_rfl
    intro c hc
    refine h.inside c ?_
    have hsuffix : (line.take stop).drop ch <:+ (line.take stop).drop start :=
      List.drop_suffix_drop_left _ hstart
    exact hsuffix.subset hc
  unfold wordBounds
  dsimp only
  rw [Int.toNat_natCast, min_eq_left (hstop.trans hlength), hbefore, hbehind]
  simp only [List.length_reverse, List.length_drop, List.length_take]
  exact Prod.ext (by omega) (by omega)

end IsWord

/-- The columns that are found for a cursor enclose a word, and the cursor if it is first moved into
the line. -/
theorem wordBounds_spec (line : List Char) (ch : Int) :
    IsWord line (wordBounds line ch).1 (wordBounds line ch).2 ∧
      (wordBounds line ch).1 ≤ min ch.toNat line.length ∧
      min ch.toNat line.length ≤ (wordBounds line ch).2 := by
  unfold wordBounds
  dsimp only
  generalize hcolumn : min ch.toNat line.length = column
  have hle : column ≤ line.length := hcolumn ▸ min_le_right _ _
  obtain ⟨first, hleft, hfirst⟩ := exists_rtakeWhile isNameChar (line.take column)
  obtain ⟨rest, hright, -, hrest⟩ := takeWhile_split isNameChar (line.drop column)
  have hlength : ((line.take column).reverse.takeWhile isNameChar).length =
      ((line.take column).rtakeWhile isNameChar).length := (List.length_reverse ..).symm
  rw [hlength]
  generalize hword : (line.take column).rtakeWhile isNameChar = left at hleft ⊢
  generalize hmore : (line.drop column).takeWhile isNameChar = right at hright ⊢
  have hline : line = first ++ (left ++ (right ++ rest)) := by
    rw [← hright, ← List.append_assoc, ← hleft, List.take_append_drop]
  have hbetween : column = first.length + left.length := by
    have htake := congrArg List.length hleft
    rwa [List.length_take, min_eq_left hle, List.length_append] at htake
  have hstart : column - left.length = first.length := by omega
  have hstop : column + right.length = (first ++ (left ++ right)).length := by
    simp only [List.length_append]
    omega
  have hline' : line = (first ++ (left ++ right)) ++ rest := by simpa using hline
  refine ⟨⟨by omega, ?_, ?_, ?_, ?_⟩, Nat.sub_le .., Nat.le_add_right ..⟩
  · rw [hstop, hline']
    exact (List.prefix_append _ rest).length_le
  · rw [hstop, hstart, hline', List.take_left, List.drop_left]
    intro c hc
    rcases List.mem_append.mp hc with hc | hc
    · exact List.mem_rtakeWhile_imp (hword ▸ hc)
    · exact List.mem_takeWhile_imp (hmore ▸ hc)
  · rw [hstart, hline, List.take_left]
    exact hfirst
  · rw [hstop, hline', List.drop_left]
    exact hrest

theorem wordBounds_clamped (line : List Char) (ch : Int) :
    wordBounds line (min ch.toNat line.length : Nat) = wordBounds line ch := by
  unfold wordBounds
  rw [Int.toNat_natCast, min_assoc, min_self]

/-! Columns of lines -/

theorem startsAfter_append_text (offset : Nat) (first second : List Char) :
    startsAfter offset (first ++ second) =
      startsAfter offset first ++ startsAfter (offset + first.length) second := by
  induction first generalizing offset with
  | nil => rfl
  | cons c rest ih =>
    have hlength : offset + (c :: rest).length = offset + 1 + rest.length := by
      rw [List.length_cons]
      omega
    rw [List.cons_append, startsAfter, startsAfter, ih, hlength]
    split_ifs <;> rfl

theorem nearestLine_lt (text : List Char) (line : Int) :
    nearestLine text line < (lineStarts text).length := by
  have hpos := List.length_pos_iff.mpr (lineStarts_ne_nil text)
  unfold nearestLine
  omega

theorem nearestLine_natCast {text : List Char} {line : Nat}
    (hline : line < (lineStarts text).length) : nearestLine text line = line := by
  unfold nearestLine
  rw [Int.toNat_natCast]
  omega

variable {text other : List Char} {line ch : Nat}

/-- Only a line break stands right before a line. -/
theorem getLast?_take_lineStart (hline : line < (lineStarts text).length) :
    ∀ c ∈ (text.take ((lineStarts text).getD line 0)).getLast?, c = '\n' := by
  rw [List.getD_eq_getElem _ _ hline]
  rcases List.mem_cons.mp (List.getElem_mem hline) with hzero | hmem
  · simp [hzero]
  · obtain ⟨k, hk, hstart⟩ := mem_startsAfter_iff.mp hmem
    have hlt := (List.getElem?_eq_some_iff.mp hk).1
    intro c hc
    rw [hstart, Nat.zero_add, List.take_add_one, hk] at hc
    simpa using hc.symm

theorem lineText_eq (hline : line < (lineStarts text).length) : lineText text line =
    (text.drop ((lineStarts text).getD line 0)).takeWhile (· ≠ '\n') := by
  unfold lineText
  rw [List.getD_eq_getElem _ _ hline, List.getD_eq_getElem _ _ hline]

/-- The text up to a column of a line. -/
theorem take_lineStart_add (hline : line < (lineStarts text).length)
    (hch : ch ≤ (lineText text line).length) :
    text.take ((lineStarts text).getD line 0 + ch) =
      text.take ((lineStarts text).getD line 0) ++ (lineText text line).take ch := by
  rw [List.take_add]
  congr 1
  rw [lineText_eq hline] at hch ⊢
  obtain ⟨rest, hsplit, -, -⟩ :=
    takeWhile_split (· ≠ '\n') (text.drop ((lineStarts text).getD line 0))
  conv_lhs => rw [hsplit]
  exact List.take_append_of_le_length hch

theorem lineStarts_append (first second : List Char) :
    lineStarts (first ++ second) = lineStarts first ++ startsAfter first.length second := by
  rw [lineStarts, startsAfter_append_text, Nat.zero_add]
  rfl

/-- A line that starts in the first part of a text is one of its lines. -/
theorem lt_length_lineStarts {first second : List Char}
    (hline : line < (lineStarts (first ++ second)).length)
    (hle : (lineStarts (first ++ second)).getD line 0 ≤ first.length) :
    line < (lineStarts first).length := by
  by_contra hge
  rw [List.getD_eq_getElem _ _ hline] at hle
  simp only [lineStarts_append] at hline hle
  rw [List.getElem_append_right (not_lt.mp hge)] at hle
  have hmem := List.getElem_mem (l := startsAfter first.length second)
    (n := line - (lineStarts first).length) (by rw [List.length_append] at hline; omega)
  exact (lt_of_mem_startsAfter hmem).not_ge hle

/-- A column of a line is found again in every text that begins in the same way up to there. -/
theorem column_of_begins (hline : line < (lineStarts text).length)
    (hch : ch ≤ (lineText text line).length)
    (h : text.take ((lineStarts text).getD line 0 + ch) <+: other) :
    line < (lineStarts other).length ∧
      (lineStarts other).getD line 0 = (lineStarts text).getD line 0 ∧
      ch ≤ (lineText other line).length := by
  have hend := lineText_length_le hline
  generalize hleft : text.take ((lineStarts text).getD line 0 + ch) = left at h
  have hoffset : left.length = (lineStarts text).getD line 0 + ch := by
    rw [← hleft, List.length_take]
    omega
  have htext : left ++ text.drop ((lineStarts text).getD line 0 + ch) = text := by
    rw [← hleft, List.take_append_drop]
  have hleftline : line < (lineStarts left).length := by
    rw [← htext] at hline
    refine lt_length_lineStarts hline ?_
    rw [htext]
    omega
  have hstart (rest : List Char) :
      (lineStarts (left ++ rest)).getD line 0 = (lineStarts left).getD line 0 := by
    rw [lineStarts_append, List.getD_append _ _ _ _ hleftline]
  have hsame : (lineStarts left).getD line 0 = (lineStarts text).getD line 0 := by
    rw [← hstart (text.drop ((lineStarts text).getD line 0 + ch)), htext]
  obtain ⟨rest, rfl⟩ := h
  have hline' : line < (lineStarts (left ++ rest)).length := by
    rw [lineStarts_append, List.length_append]
    omega
  refine ⟨hline', (hstart rest).trans hsame, ?_⟩
  have hdrop : left.drop ((lineStarts text).getD line 0) = (lineText text line).take ch := by
    rw [← hleft, take_lineStart_add hline hch]
    exact List.drop_left' (by rw [List.length_take]; omega)
  have hordinary : ∀ c ∈ left.drop ((lineStarts text).getD line 0),
      decide (c ≠ '\n') = true := by
    rw [hdrop, lineText_eq hline]
    intro c hc
    exact List.mem_takeWhile_imp (p := fun c => decide (c ≠ '\n')) (List.mem_of_mem_take hc)
  rw [lineText_eq hline', hstart, hsame, List.drop_append_of_le_length (by omega),
    List.takeWhile_append_of_pos hordinary, List.length_append, List.length_drop]
  omega

end EmbeddedGraphQL.Text
