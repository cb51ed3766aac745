import EmbeddedGraphQL.Proofs.Terminated
import Mathlib

/-!
Which expressions the scan of a buffer finds. It selects the terminated ones greedily from the left,
and what stands in for each of them is decided by the buffer, though the scan looks at the text it
has written and at a count of braces.
-/
namespace EmbeddedGraphQL

/-! The decisions of the scan -/

/-- The characters in front of a place and outside all of the expressions given. -/
def outside (buffer : List Char) (earlier : List Template) (place : Nat) : List Char :=
  (List.range place).filterMap fun k => if ∃ t ∈ earlier, t.Covers k then none else buffer[k]?

section

variable {buffer : List Char} {earlier : List Template}

theorem outside_reverse (place : Nat) :
    outside buffer earlier.reverse place = outside buffer earlier place := by
  simp only [outside, List.mem_reverse]

theorem outside_succ {place : Nat} {c : Char} (hfree : ∀ t ∈ earlier, ¬ t.Covers place)
    (hc : buffer[place]? = some c) :
    outside buffer earlier (place + 1) = outside buffer earlier place ++ [c] := by
  have hnone : ¬ ∃ t ∈ earlier, t.Covers place := by simpa using hfree
  simp [outside, List.range_succ, hnone, hc]

theorem outside_cons_stop (t : Template) :
    outside buffer (t :: earlier) t.stop = outside buffer earlier t.start := by
  rw [outside, Template.stop, List.range_add, List.filterMap_append]
  have hcovered : ((List.range t.text.length).map (t.start + ·)).filterMap
      (fun k => if ∃ u ∈ t :: earlier, u.Covers k then none else buffer[k]?) = [] := by
    refine List.filterMap_eq_nil_iff.mpr fun k hk => if_pos ⟨t, List.mem_cons_self, ?_⟩
    obtain ⟨j, hj, rfl⟩ := List.mem_map.mp hk
    exact ⟨Nat.le_add_right _ _, Nat.add_lt_add_left (List.mem_range.mp hj) _⟩
  rw [hcovered, List.append_nil]
  refine List.filterMap_congr fun k hk => ?_
  have hfree : ¬ t.Covers k := fun h => absurd (List.mem_range.mp hk) (Nat.not_lt.mpr h.1)
  simp only [List.mem_cons, exists_eq_or_imp, hfree, false_or]

end

theorem spreadDots_suffix_iff {text : List Char} :
    spreadDots <:+ text ↔ spreadDots.length ≤ text.length ∧
      ∀ k, text.length ≤ k + spreadDots.length → k < text.length → text[k]? = some '.' := by
  have hdots : spreadDots = List.replicate 3 '.' := rfl
  constructor
  · rintro ⟨before, rfl⟩
    refine ⟨by simp, fun k hle hlt => ?_⟩
    rw [List.length_append] at hle hlt
    rw [List.getElem?_append_right (by omega), hdots, List.getElem?_replicate_of_lt]
    change before.length + 3 ≤ _ at hle
    change _ < before.length + 3 at hlt
    omega
  · rintro ⟨hle, hall⟩
    rw [List.suffix_iff_eq_drop, hdots]
    change 3 ≤ _ at hle
    refine List.ext_getElem? fun k => ?_
    rw [List.getElem?_drop, List.length_replicate, List.getElem?_replicate]
    split_ifs with hk
    · exact (hall _ (by change _ ≤ _ + 3; omega) (by omega)).symm
    · exact (List.getElem?_eq_none (by omega)).symm

namespace Overwrites

open Template

variable {environment : Environment} {buffer written : List Char} {found : List Template}

theorem opensAt (h : Overwrites environment buffer written found) {t : Template} (ht : t ∈ found) :
    OpensAt buffer t.start := by
  have hopen := h.opening t ht
  rw [h.text_eq t ht] at hopen
  exact opensAt_of_drop (hopen.trans (List.take_prefix _ _))

/-- The character in front of the end of an expression, and the one there. -/
theorem closing (h : Overwrites environment buffer written found) {t : Template} (ht : t ∈ found) :
    buffer[t.stop - 1]? = some '}' ∨ buffer[t.stop]? = some '\n' := by
  refine (h.closed t ht).imp_left fun hlast => ?_
  have hlt := h.add_two_le_stop ht
  rw [h.buffer_of_covers ht ⟨by omega, by omega⟩, ← hlast, List.getLast?_eq_getElem?]
  congr 1
  unfold stop
  omega

/-- Dots of the buffer right in front of an opening have not been overwritten. -/
theorem dot_written (h : Overwrites environment buffer written found)
    (hopen : buffer[written.length]? = some '$')
    (hdots : ∀ k, written.length ≤ k + spreadDots.length → k < written.length →
      buffer[k]? = some '.') {k : Nat} (hle : written.length ≤ k + spreadDots.length)
    (hlt : k < written.length) : written[k]? = some '.' := by
  have hdot {j : Nat} (hk : k ≤ j) (hj : j < written.length) : buffer[j]? = some '.' :=
    hdots j (hle.trans (Nat.add_le_add_right hk _)) hj
  rw [h.outside k hlt, hdot le_rfl hlt]
  -- an expression over a dot would end there, but only dots and the mark come up to the opening
  · intro t ht ⟨hstart, hstop⟩
    have hend := h.stop_le t ht
    rcases h.closing ht with hbrace | hbreak
    · rw [hdot (by omega) (by omega)] at hbrace
      cases hbrace
    · rcases hend.eq_or_lt with heq | hbefore
      · rw [heq, hopen] at hbreak
        cases hbreak
      · rw [hdot hstop.le hbefore] at hbreak
        cases hbreak
  · rintro t ht ⟨-, -, hstart⟩
    have hmark := (h.opensAt ht).1
    have hend := h.stop_le t ht
    have hstop := h.add_two_le_stop ht
    rw [hdot hstart.le (by omega)] at hmark
    cases hmark

/-- In front of an opening the written text ends with dots where the buffer does. -/
theorem dots_suffix_iff (h : Overwrites environment buffer written found)
    (hopen : buffer[written.length]? = some '$') :
    spreadDots <:+ written ↔ spreadDots <:+ buffer.take written.length := by
  have htake : (buffer.take written.length).length = written.length :=
    List.length_take_of_le h.length_le
  constructor
  · intro hdots
    obtain ⟨hle, hall⟩ := h.dots_before hopen hdots
    rw [spreadDots_suffix_iff, htake]
    refine ⟨hle, fun k hk hlt => ?_⟩
    rw [List.getElem?_take_of_lt hlt]
    exact (hall k hk hlt).1
  · rw [spreadDots_suffix_iff, spreadDots_suffix_iff, htake]
    refine fun ⟨hle, hall⟩ => ⟨hle, fun k hk hlt => h.dot_written hopen (fun j hj hlt => ?_) hk hlt⟩
    rw [← hall j hj hlt, List.getElem?_take_of_lt hlt]

end Overwrites

namespace Scan.Reaches

open Template

variable {environment : Environment} {buffer written : List Char} {found : List Template}
  {depth : Int}

theorem nextOf_stop {n : Nat} (hlength : length? (buffer.drop written.length) = some n)
    (environment : Environment) (depth : Int) :
    (nextOf environment buffer written depth n).stop = written.length + n :=
  congrArg (written.length + ·) (List.length_take_of_le (length?_spec hlength).1)

/-- The written text goes up to the end of an expression that has just been found. -/
theorem template_length (h : Reaches environment buffer written found depth) {n : Nat}
    (hlength : length? (buffer.drop written.length) = some n) :
    let t := nextOf environment buffer written depth n
    (Overwrites.withoutDots t.standIn written ++ t.standIn.write t.text).length = t.stop := by
  intro t
  rw [nextOf_stop hlength]
  exact h.overwrites.append_template_length hlength depth

/-- What is selected from the end of the written text on is selected behind what has been found. -/
theorem selected (h : Reaches environment buffer written found depth) {spans : List (Nat × Nat)}
    (hspans : Selected buffer written.length spans) :
    Selected buffer 0 ((found.reverse.map fun t => (t.start, t.stop)) ++ spans) := by
  induction h generalizing spans with
  | start => exact hspans
  | char _ unterminated _ ih =>
    rw [List.length_append, List.length_singleton] at hspans
    exact ih (hspans.skip (length?_eq_none_iff.mp unterminated))
  | template before terminated next ih =>
    subst next
    rw [before.template_length terminated] at hspans
    have hstop := length?_eq_some_iff.mp terminated
    rw [← nextOf_stop terminated] at hstop
    rw [List.reverse_cons, List.map_append, List.append_assoc]
    exact ih (hspans.take hstop)

/-- The count of open braces is that of the characters outside the expressions found. -/
theorem depth_eq (h : Reaches environment buffer written found depth) :
    depth = (outside buffer found written.length).count '{' -
      (outside buffer found written.length).count '}' := by
  induction h with
  | start => rfl
  | @char written found depth c before _ read ih =>
    have hfree {t : Template} (ht : t ∈ found) : ¬ t.Covers written.length := fun hcover =>
      (before.overwrites.lt_of_covers ht hcover).false
    rw [List.length_append, List.length_singleton, outside_succ (fun _ => hfree) read, ih,
      List.count_append, List.count_append, List.count_singleton, List.count_singleton]
    rcases eq_or_ne c '{' with rfl | hopen
    · simp only [↓reduceIte, BEq.rfl, Char.reduceBEq, Bool.false_eq_true, Nat.cast_add,
        Nat.cast_one]
      omega
    rcases eq_or_ne c '}' with rfl | hclose
    · simp only [↓reduceIte, BEq.rfl, Char.reduceBEq, Char.reduceEq, Bool.false_eq_true,
        Nat.cast_add, Nat.cast_one]
      omega
    · simp [hopen, hclose]
  | template before terminated next ih =>
    subst next
    rw [before.template_length terminated, outside_cons_stop]
    exact ih

/-- Each stand-in is decided by the buffer in front of its expression. -/
theorem decided (h : Reaches environment buffer written found depth) {t : Template}
    {earlier : List Template} (hsuffix : t :: earlier <:+ found) :
    (t.standIn = .blank ↔ environment = .apollo ∧
      (outside buffer earlier t.start).count '{' = (outside buffer earlier t.start).count '}') ∧
    (t.standIn = .spread ↔ environment = .lokka ∧ spreadDots <:+ buffer.take t.start) := by
  induction h with
  | start => simp at hsuffix
  | char _ _ _ ih => exact ih hsuffix
  | @template written found depth n t' before terminated next ih =>
    rcases List.suffix_cons_iff.mp hsuffix with heq | hsuffix
    · obtain ⟨rfl, rfl⟩ := List.cons.inj heq
      subst next
      have hopen := (length?_eq_some_iff.mp terminated).1.1
      have hdepth := before.depth_eq
      change (StandIn.choose environment depth _ _ = .blank ↔ _) ∧
        (StandIn.choose environment depth _ _ = .spread ↔ _)
      rw [StandIn.choose_eq_blank_iff, StandIn.choose_eq_spread_iff,
        before.overwrites.dots_suffix_iff hopen]
      refine ⟨and_congr_right fun _ => ?_, Iff.rfl⟩
      change depth = 0 ↔ (outside buffer earlier written.length).count '{' =
        (outside buffer earlier written.length).count '}'
      omega
    · exact ih hsuffix

end Scan.Reaches

namespace StandIn

/-- Marks and opening braces are left in a comment only. -/
theorem eq_comment_of_mem {text : List Char} {standIn : StandIn} {c : Char}
    (hc : c = '$' ∨ c = '{') (h : c ∈ standIn.write text) : standIn = .comment := by
  cases standIn with
  | comment => rfl
  | blank => rcases hc with rfl | rfl <;> exact absurd (List.eq_of_mem_replicate h) (by decide)
  | field | spread =>
    rcases hc with rfl | rfl <;> rcases mem_padded h with h | h <;> exact absurd h (by decide)

end StandIn

namespace Overwrites

open Template

variable {environment : Environment} {buffer written : List Char} {found : List Template}

/-- A comment leaves its expression as it is behind the mark. -/
theorem written_of_comment (h : Overwrites environment buffer written found) {t : Template}
    (ht : t ∈ found) (hcomment : t.standIn = .comment) {k : Nat} (hstart : t.start < k)
    (hstop : k < t.stop) : written[k]? = buffer[k]? := by
  obtain ⟨j, hj⟩ := Nat.exists_eq_add_of_lt hstart
  rw [h.written_of_covers ht ⟨hstart.le, hstop⟩, h.buffer_of_covers ht ⟨hstart.le, hstop⟩, hcomment,
    show k - t.start = j + 1 by omega]
  exact List.getElem?_tail

/-- An opening in the written text is one of the buffer outside the expressions found, or it lies in
one that a comment stands in for. -/
theorem opensAt_written (h : Overwrites environment buffer written found) {k : Nat}
    (hopen : OpensAt written k) :
    (OpensAt buffer k ∧ ∀ t ∈ found, ¬ t.Covers k) ∨
      ∃ t ∈ found, t.standIn = .comment ∧ t.start ≤ k ∧ k + 2 ≤ t.stop := by
  obtain ⟨hmark, hbrace⟩ := hopen
  have hlt := (List.getElem?_eq_some_iff.mp hbrace).1
  by_cases hcover : ∃ t ∈ found, t.Covers k
  · obtain ⟨t, ht, hcover⟩ := hcover
    have hwritten := h.written_of_covers ht hcover
    rw [hmark] at hwritten
    have hcomment := StandIn.eq_comment_of_mem (Or.inl rfl) (List.mem_of_getElem? hwritten.symm)
    refine Or.inr ⟨t, ht, hcomment, hcover.1, ?_⟩
    -- an expression does not end between the mark and the brace
    by_contra hend
    have hstop := hcover.2
    have htwo := h.add_two_le_stop ht
    have hlast : t.stop = k + 1 := by omega
    rcases h.closing ht with hclose | hbreak
    · rw [hlast, Nat.add_sub_cancel, ← h.written_of_comment ht hcomment (by omega) hstop,
        hmark] at hclose
      cases hclose
    · rw [hlast, ← h.break_iff hlt, hbrace] at hbreak
      cases hbreak
  simp only [not_exists, not_and] at hcover
  -- nor does one start with the brace
  have hcover' : ∀ t ∈ found, ¬ t.Covers (k + 1) := by
    intro t ht hnext
    have hstart : t.start = k + 1 := by
      by_contra hne
      obtain ⟨hle, hstop⟩ := hnext
      exact hcover t ht ⟨by omega, by omega⟩
    rw [h.written_of_covers ht hnext, hstart, Nat.sub_self] at hbrace
    rw [StandIn.eq_comment_of_mem (Or.inr rfl) (List.mem_of_getElem? hbrace)] at hbrace
    cases hbrace
  have hdot {j : Nat} {c : Char} (hc : written[j]? = some c) (hne : c ≠ ' ') :
      ∀ t ∈ found, ¬ t.CoversDot j := by
    intro t ht hdot
    rw [(h.dots t ht j hdot).2.1] at hc
    exact hne (Option.some.inj hc).symm
  refine Or.inl ⟨⟨?_, ?_⟩, hcover⟩
  · rw [← h.outside k (by omega) hcover (hdot hmark (by decide)), hmark]
  · rw [← h.outside (k + 1) hlt hcover' (hdot hbrace (by decide)), hbrace]

end Overwrites

namespace Scan

open Template

/-- Whether the written text shows an expression as a comment. -/
def ShowsComment (scan : Scan) (t : Template) : Prop :=
  Text.slice scan.text t.start t.stop = '#' :: t.text.tail

theorem selected_found (environment : Environment) (buffer : List Char) :
    Selected buffer 0 ((ofBuffer environment buffer).found.map fun t => (t.start, t.stop)) := by
  obtain ⟨⟨depth, hreaches⟩, hlength⟩ := ofBuffer_reaches environment buffer
  have hend : Selected buffer (ofBuffer environment buffer).text.length [] :=
    .none fun i stop hle hstop => by
      have := hstop.lt_length
      omega
  simpa using hreaches.selected hend

theorem mem_spreadEnds_iff {environment : Environment} {buffer : List Char} {t : Template}
    (ht : t ∈ (ofBuffer environment buffer).found) :
    t.start ∈ (ofBuffer environment buffer).spreadEnds ↔ t.standIn = .spread := by
  rw [mem_spreadEnds]
  refine ⟨fun ⟨u, hu, hspread, hstart⟩ => ?_, fun hspread => ⟨t, ht, hspread, rfl⟩⟩
  have hsame : u = t := by
    by_contra hne
    have hapart := apart_of_ordered (found_ordered environment buffer) hu ht hne
    have hover := (ofBuffer_overwrites environment buffer).1
    have := hover.add_two_le_stop (List.mem_reverse.mpr hu)
    have := hover.add_two_le_stop (List.mem_reverse.mpr ht)
    omega
  rwa [← hsame]

theorem mem_blanked_iff {scan : Scan} {t : Template} (ht : t ∈ scan.found) :
    t ∈ scan.blanked ↔ t.standIn = .blank := by
  simp [blanked, ht]

theorem mem_templates_iff {scan : Scan} {t : Template} (ht : t ∈ scan.found) :
    t ∈ scan.templates ↔ t.standIn ≠ .blank := by
  simp [templates, ht]

/-- What the written text shows of a template: a comment if its field does not fit. -/
theorem shown_of_mem_templates {environment : Environment} {buffer : List Char} {t : Template}
    (ht : t ∈ (ofBuffer environment buffer).templates) :
    let scan := ofBuffer environment buffer
    let field := if t.start ∈ scan.spreadEnds then spreadField else templateField
    (t.standIn = .comment ↔ t.text.length < field.length) ∧
      (scan.ShowsComment t ↔ t.standIn = .comment) ∧
      (field.length ≤ t.text.length →
        Text.slice scan.text t.start t.stop = StandIn.padded field t.text) := by
  intro scan field
  obtain ⟨hover, -⟩ := ofBuffer_overwrites environment buffer
  have hfound : t ∈ scan.found := (List.mem_filter.mp ht).1
  have hmem := List.mem_reverse.mpr hfound
  have hfits := hover.fits t hmem
  have htwo := (hover.opening t hmem).length_le
  have hends := mem_spreadEnds_iff hfound
  have hblank := (mem_templates_iff hfound).mp ht
  have hno {field : List Char} (hfield : '#' ∉ field) :
      StandIn.padded field t.text ≠ '#' :: t.text.tail := by
    intro heq
    rcases StandIn.mem_padded (heq ▸ List.mem_cons_self) with h | h
    · exact hfield h
    · exact absurd h (by decide)
  rw [ShowsComment, hover.slice_written hmem]
  unfold Fits at hfits
  cases hkind : t.standIn <;> simp only [hkind] at hfits hends hblank
  case blank => exact absurd rfl hblank
  case comment =>
    have hfield : field = templateField := if_neg (by simp [scan, hends])
    rw [hfield]
    exact ⟨iff_of_true rfl hfits, iff_of_true rfl rfl, fun h => absurd hfits (Nat.not_lt.mpr h)⟩
  case field =>
    have hfield : field = templateField := if_neg (by simp [scan, hends])
    rw [hfield]
    exact ⟨iff_of_false (by decide) (Nat.not_lt.mpr hfits),
      iff_of_false (hno (by decide)) (by decide), fun _ => rfl⟩
  case spread =>
    have hfield : field = spreadField := if_pos (by simp [scan, hends])
    rw [hfield]
    exact ⟨iff_of_false (by decide) (Nat.not_lt.mpr htwo),
      iff_of_false (hno (by decide)) (by decide), fun _ => rfl⟩

/-- The scan finds the expressions that are selected greedily. One is blanked where the environment
does so at the top level, which is where the braces in front of it, outside of earlier expressions,
are balanced. It is a spread if there are dots in front of it, and it becomes a comment if it is too
short for its field. An opening that is left in the text is one of the buffer that nothing
terminates, or it lies in such a comment. -/
theorem greedy_selection (environment : Environment) (buffer : List Char) :
    let scan := ofBuffer environment buffer
    (∀ spans, Selected buffer 0 spans ↔ spans = scan.found.map fun t => (t.start, t.stop)) ∧
    (∀ earlier t later, scan.found = earlier ++ t :: later →
      (t ∈ scan.blanked ↔ environment = .apollo ∧
        (outside buffer earlier t.start).count '{' = (outside buffer earlier t.start).count '}') ∧
      (t ∈ scan.templates ↔ t ∉ scan.blanked) ∧
      (t.start ∈ scan.spreadEnds ↔ environment = .lokka ∧ spreadDots <:+ buffer.take t.start)) ∧
    (∀ t ∈ scan.templates,
      let field := if t.start ∈ scan.spreadEnds then spreadField else templateField
      (scan.ShowsComment t ↔ t.text.length < field.length) ∧
      (field.length ≤ t.text.length →
        Text.slice scan.text t.start t.stop = StandIn.padded field t.text)) ∧
    (∀ k, OpensAt scan.text k →
      (OpensAt buffer k ∧ ∀ stop, ¬ Terminated buffer k stop) ∨
        ∃ t ∈ scan.templates, scan.ShowsComment t ∧ t.start ≤ k ∧ k + 2 ≤ t.stop) := by
  intro scan
  obtain ⟨⟨depth, hreaches⟩, -⟩ := ofBuffer_reaches environment buffer
  have hselected := selected_found environment buffer
  refine ⟨fun spans => ⟨fun h => h.unique hselected, fun h => h ▸ hselected⟩,
    fun earlier t later hfound => ?_, fun t ht => ?_, fun k hopen => ?_⟩
  · have ht : t ∈ scan.found := hfound ▸ List.mem_append_right _ List.mem_cons_self
    have hsuffix : t :: earlier.reverse <:+ scan.found.reverse := by
      rw [hfound, List.reverse_append, List.reverse_cons, List.append_assoc]
      exact List.suffix_append _ _
    obtain ⟨hblank, hspread⟩ := hreaches.decided hsuffix
    rw [outside_reverse] at hblank
    rw [mem_blanked_iff ht, mem_templates_iff ht, mem_spreadEnds_iff ht]
    exact ⟨hblank, Iff.rfl, hspread⟩
  · obtain ⟨hshort, hcomment, hpadded⟩ := shown_of_mem_templates ht
    exact ⟨hcomment.trans hshort, hpadded⟩
  · rcases hreaches.overwrites.opensAt_written hopen with ⟨hbuffer, hfree⟩ | ⟨t, ht, hcomment, hin⟩
    · refine Or.inl ⟨hbuffer, fun stop hstop => ?_⟩
      obtain ⟨span, hspan, hcovers⟩ := hselected.exists_covering (Nat.zero_le k) hstop
      obtain ⟨t, ht, rfl⟩ := List.mem_map.mp hspan
      exact hfree t (List.mem_reverse.mpr ht) hcovers
    · have ht := List.mem_reverse.mp ht
      have hmem : t ∈ scan.templates := (mem_templates_iff ht).mpr (by simp [hcomment])
      exact Or.inr ⟨t, hmem, (shown_of_mem_templates hmem).2.1.mpr hcomment, hin⟩

/-- A spread, a comment with an opening in it, and an opening that nothing terminates. -/
theorem greedy_selection_lokka :
    let buffer := "...$\x7bx\x7d $\x7b$\x7by\x7d\n $\x7bz".toList
    let scan := ofBuffer .lokka buffer
    let spread : Template := ⟨3, "$\x7bx\x7d".toList, .spread⟩
    let comment : Template := ⟨8, "$\x7b$\x7by\x7d".toList, .comment⟩
    (scan.found = [] ++ spread :: [comment] ∧ spread.start ∈ scan.spreadEnds) ∧
    (comment ∈ scan.templates ∧ scan.ShowsComment comment) ∧
    (OpensAt scan.text 16 ∧ ∀ stop, ¬ Terminated buffer 16 stop) := by
  intro buffer scan spread comment
  have hfound : scan.found = [spread, comment] := by decide +kernel
  have htemplates : scan.templates = [spread, comment] := by decide +kernel
  have hopen : OpensAt scan.text 16 := by constructor <;> decide +kernel
  obtain ⟨-, hdecided, hshown, hleft⟩ := greedy_selection .lokka buffer
  have hcomment : comment ∈ scan.templates := by simp [htemplates]
  refine ⟨⟨hfound, ?_⟩, ⟨hcomment, ?_⟩, hopen, ?_⟩
  · exact (hdecided [] spread [comment] hfound).2.2.mpr ⟨rfl, by decide⟩
  · exact (hshown comment hcomment).1.mpr (by decide +kernel)
  · rcases hleft 16 hopen with ⟨-, hnone⟩ | ⟨t, ht, -, -, hstop⟩
    · exact hnone
    · rw [htemplates] at ht
      have hall : ∀ t ∈ [spread, comment], t.stop < 18 := by decide
      exact absurd (hall t ht) (Nat.not_lt.mpr hstop)

end Scan
end EmbeddedGraphQL
