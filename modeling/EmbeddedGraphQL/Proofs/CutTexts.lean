import EmbeddedGraphQL.Proofs.Settled
import EmbeddedGraphQL.Highlight.Tokenizer
import Mathlib

/-!
Texts that are cut off at the end of a lexeme. They have the lexemes of the whole text up to
there, and the grammar comes by in the same state, as the reading of a lexeme looks ahead behind
names only.
-/
namespace EmbeddedGraphQL.Lexeme

/-- The first lexeme of a text, however much of the text behind it is there. -/
theorem split_cons {text after : List Char} {l : Lexeme} {more : List (Lexeme × List Char)}
    (h : split text = (l, after) :: more) :
    text = l.text ++ after ∧ more = split after ∧
      ∀ cut, cut <+: after → split (l.text ++ cut) = (l, cut) :: split cut := by
  cases text with
  | nil => simp at h
  | cons c rest =>
    rw [split] at h
    dsimp only at h
    injection h with hfirst hmore
    injection hfirst with hl hafter
    subst hl hafter hmore
    have hrest := List.prefix_iff_eq_append.mp (munch_shape c rest).1
    refine ⟨by rw [List.cons_append, hrest], rfl, ?_⟩
    intro cut hcut
    apply split_of_munch
    apply munch_cut
    obtain ⟨behind, hbehind⟩ := hcut
    exact ⟨behind, by rw [List.append_assoc, hbehind, hrest]⟩

/-- A text that is cut off at the end of a lexeme has the lexemes up to there. -/
theorem split_append {text : List Char} {done rest : List (Lexeme × List Char)}
    (h : split text = done ++ rest) :
    ∃ behind, text = done.flatMap (·.1.text) ++ behind ∧ rest = split behind ∧
      (∀ l ∈ done, behind.length ≤ l.2.length) ∧
        split (done.flatMap (·.1.text)) =
          done.map fun l => (l.1, l.2.take (l.2.length - behind.length)) := by
  induction done generalizing text with
  | nil => exact ⟨text, rfl, h.symm, by simp, by simp⟩
  | cons l done ih =>
    obtain ⟨l, after⟩ := l
    obtain ⟨htext, hmore, hcut⟩ := split_cons h
    obtain ⟨behind, hafter, hrest, hle, hdone⟩ := ih hmore.symm
    have htake : after.take (after.length - behind.length) = done.flatMap (·.1.text) := by
      conv_lhs => rw [hafter]
      simp
    refine ⟨behind, ?_, hrest, ?_, ?_⟩
    · rw [List.flatMap_cons, List.append_assoc, ← hafter, htext]
    · refine List.forall_mem_cons.mpr ⟨?_, hle⟩
      simp [hafter]
    · rw [List.flatMap_cons, hcut _ (hafter ▸ List.prefix_append _ _), hdone, List.map_cons, htake]

/-- Where a lexeme of a text ends, told by what follows it. -/
def stopIn (text : List Char) (l : Lexeme × List Char) : Nat := text.length - l.2.length

/-- A lexeme with the offsets at which it starts and ends. -/
structure Placed where
  lexeme : Lexeme
  start : Nat
  stop : Nat
  deriving DecidableEq, Repr

/-- A lexeme of a text at its place. -/
def placeIn (text : List Char) (l : Lexeme × List Char) : Placed :=
  ⟨l.1, stopIn text l - l.1.text.length, stopIn text l⟩

/-- The lexemes of a text at their places. -/
def placed (text : List Char) : List Placed := (split text).map (placeIn text)

/-- The lexemes of a text that end at an offset or before it. -/
def upTo (text : List Char) (offset : Nat) : List (Lexeme × List Char) :=
  (split text).filter fun l => stopIn text l ≤ offset

/-- A lexeme takes something of the text, and it is followed by a part of the rest. -/
theorem length_of_mem_split (text : List Char) :
    ∀ l ∈ split text, 0 < l.1.text.length ∧ l.1.text.length + l.2.length ≤ text.length := by
  apply split_induction (motive := fun text lexemes => ∀ l ∈ lexemes,
    0 < l.1.text.length ∧ l.1.text.length + l.2.length ≤ text.length)
  · exact List.forall_mem_nil _
  · intro l after hne _ ih
    have hlength : (l.text ++ after).length = l.text.length + after.length := List.length_append
    refine List.forall_mem_cons.mpr ⟨⟨List.length_pos_iff.mpr hne, hlength.ge⟩, ?_⟩
    intro m hm
    obtain ⟨hpos, hle⟩ := ih m hm
    exact ⟨hpos, by omega⟩

/-- What follows a lexeme is the end of the text. -/
theorem split_suffix (text : List Char) : ∀ l ∈ split text, l.2 <:+ text := by
  apply split_induction (motive := fun text lexemes => ∀ l ∈ lexemes, l.2 <:+ text)
  · exact List.forall_mem_nil _
  · intro l after _ _ ih
    refine List.forall_mem_cons.mpr ⟨List.suffix_append _ _, ?_⟩
    intro m hm
    exact (ih m hm).trans (List.suffix_append _ _)

/-- What is known of the lexemes up to the end of one of them. -/
structure CutAt (text : List Char) (offset : Nat) (done : List (Lexeme × List Char)) : Prop where
  split_eq : split text = done ++ split (text.drop offset)
  upTo_eq : upTo text offset = done
  le_length : offset ≤ text.length
  length_done : (done.flatMap (·.1.text)).length = offset
  le_after : ∀ l ∈ done, text.length - offset ≤ l.2.length
  split_take : split (text.take offset) =
    done.map fun l => (l.1, l.2.take (offset - stopIn text l))

theorem CutAt.mem_split {text : List Char} {offset : Nat} {done : List (Lexeme × List Char)}
    (h : CutAt text offset done) {l : Lexeme × List Char} (hl : l ∈ done) : l ∈ split text := by
  rw [h.split_eq]
  exact List.mem_append_left _ hl

theorem cutAt_of_split {text : List Char} {done more : List (Lexeme × List Char)}
    (h : split text = done ++ more) : CutAt text (done.flatMap (·.1.text)).length done := by
  obtain ⟨behind, htext, hmore, hle, hdone⟩ := split_append h
  have hlength : text.length = (done.flatMap (·.1.text)).length + behind.length := by
    conv_lhs => rw [htext]
    exact List.length_append
  have hdrop : text.drop (done.flatMap (·.1.text)).length = behind := by
    conv_lhs => rw [htext]
    exact List.drop_left
  have htake : text.take (done.flatMap (·.1.text)).length = done.flatMap (·.1.text) := by
    conv_lhs => rw [htext]
    exact List.take_left
  refine ⟨by rw [hdrop, h, hmore], ?_, by omega, rfl, ?_, ?_⟩
  · unfold upTo
    rw [h, List.filter_append, List.filter_eq_self.mpr, List.filter_eq_nil_iff.mpr,
      List.append_nil]
    · intro m hm
      have hlt := length_of_mem_split behind m (hmore ▸ hm)
      have hstop : (done.flatMap (·.1.text)).length < stopIn text m := by
        unfold stopIn
        omega
      simpa using hstop
    · intro m hm
      have hle := hle m hm
      have hstop : stopIn text m ≤ (done.flatMap (·.1.text)).length := by
        unfold stopIn
        omega
      simpa using hstop
  · intro m hm
    have hle := hle m hm
    omega
  · rw [htake, hdone]
    apply List.map_congr_left
    intro m hm
    have hle := hle m hm
    have hmem : m ∈ split text := h ▸ List.mem_append_left more hm
    have hsuffix := (split_suffix text m hmem).length_le
    have heq : m.2.length - behind.length =
        (done.flatMap (·.1.text)).length - stopIn text m := by
      unfold stopIn
      omega
    rw [heq]

theorem exists_cutAt {text : List Char} {offset : Nat}
    (h : ∃ l ∈ placed text, l.stop = offset) : ∃ done, CutAt text offset done := by
  obtain ⟨m, hm, rfl⟩ := h
  obtain ⟨l, hl, rfl⟩ := List.mem_map.mp hm
  obtain ⟨first, more, hsplit⟩ := List.append_of_mem hl
  obtain ⟨around, htext, hrest, -, -⟩ := split_append hsplit
  obtain ⟨haround, -, -⟩ := split_cons hrest.symm
  have hcut : CutAt text ((first ++ [l]).flatMap (·.1.text)).length (first ++ [l]) :=
    cutAt_of_split (by simpa using hsplit)
  have hoffset : ((first ++ [l]).flatMap (·.1.text)).length = (placeIn text l).stop := by
    have hlength := congrArg List.length htext
    rw [haround] at hlength
    simp only [List.length_append] at hlength
    unfold placeIn stopIn
    simp only [List.flatMap_append, List.flatMap_singleton, List.length_append]
    omega
  exact ⟨first ++ [l], hoffset ▸ hcut⟩

/-- Cutting a text off at the end of a lexeme leaves the lexemes up to there at their places. -/
theorem CutAt.placed_take {text : List Char} {offset : Nat} {done : List (Lexeme × List Char)}
    (h : CutAt text offset done) :
    placed (text.take offset) = (placed text).filter (·.stop ≤ offset) := by
  have hfilter : (placed text).filter (·.stop ≤ offset) = done.map (placeIn text) := by
    rw [← h.upTo_eq, upTo, placed, List.filter_map]
    rfl
  rw [hfilter, placed, h.split_take, List.map_map]
  apply List.map_congr_left
  intro l hl
  have hle := h.le_after l hl
  have hlength := h.le_length
  have hstop : stopIn (text.take offset) (l.1, l.2.take (offset - stopIn text l)) =
      stopIn text l := by
    have hl' := (split_suffix text l (h.mem_split hl)).length_le
    simp only [stopIn, List.length_take]
    omega
  simp only [Function.comp, placeIn, hstop]

end EmbeddedGraphQL.Lexeme

namespace EmbeddedGraphQL

/-- A lexeme that is no name is read without looking ahead. -/
theorem GrammarState.read_of_ne_name (s : GrammarState) {l : Lexeme} (hl : l.kind ≠ .name)
    (ahead ahead' : Option Char) : s.read l ahead = s.read l ahead' := by
  unfold GrammarState.read
  split <;> first | rfl | exact absurd ‹_› hl

theorem Lexeme.ahead_of_cut {cut text : List Char} (hcut : cut <+: text)
    (h : ¬ cut ⊆ [' ', '\t', '\r', '\n']) : ahead cut = ahead text := by
  obtain ⟨more, rfl⟩ := hcut
  unfold ahead
  rw [List.take_append, List.find?_append]
  rcases Nat.le_total 256 cut.length with hlong | hshort
  · rw [Nat.sub_eq_zero_of_le hlong]
    simp
  · rw [List.take_of_length_le hshort]
    cases hfind : cut.find? fun c => !(c == ' ' || c == '\t' || c == '\r' || c == '\n') with
    | some d => rfl
    | none =>
      rw [List.find?_eq_none] at hfind
      apply absurd _ h
      intro c hc
      have hblank := hfind c hc
      simp only [Bool.not_eq_true', Bool.not_eq_false, Bool.or_eq_true, beq_iff_eq] at hblank
      simp only [List.mem_cons, List.not_mem_nil, or_false]
      tauto

namespace GrammarState
open Lexeme (CutAt split upTo stopIn placed)

variable {text : List Char} {offset : Nat} {done : List (Lexeme × List Char)}

/-- A lexeme is read the same in a text that is cut off behind it, unless it is a name and nothing
but blanks is left behind it. -/
theorem read_cut (h : CutAt text offset done) {l : Lexeme × List Char} (hl : l ∈ done)
    (hseen : l.1.kind = .name → ¬ (text.take offset).drop (stopIn text l) ⊆ [' ', '\t', '\r', '\n'])
    (s : GrammarState) :
    s.read l.1 (Lexeme.ahead (l.2.take (offset - stopIn text l))) =
      s.read l.1 (Lexeme.ahead l.2) := by
  by_cases hname : l.1.kind = .name
  · have hdrop := List.suffix_iff_eq_drop.mp (Lexeme.split_suffix text l (h.mem_split hl))
    have hbetween :
        (text.take offset).drop (stopIn text l) = l.2.take (offset - stopIn text l) := by
      rw [List.drop_take]
      unfold stopIn
      rw [← hdrop]
    rw [Lexeme.ahead_of_cut (List.take_prefix _ _) (hbetween ▸ hseen hname)]
  · exact s.read_of_ne_name hname _ _

theorem readAll_cut (h : CutAt text offset done)
    (hseen : ∀ l ∈ done, l.1.kind = .name →
      ¬ (text.take offset).drop (stopIn text l) ⊆ [' ', '\t', '\r', '\n']) (s : GrammarState) :
    s.readAll (split (text.take offset)) = s.readAll done := by
  rw [h.split_take]
  unfold readAll
  rw [List.foldl_map]
  apply List.foldl_ext
  intro s l hl
  rw [read_cut h hl (hseen l hl)]

end GrammarState

namespace Highlight

/-- The tokens of lexemes come one after another; the state goes along. -/
theorem tokensFrom_append (s : GrammarState) (start : Nat) (done rest : List (Lexeme × List Char)) :
    tokensFrom s start (done ++ rest) = tokensFrom s start done ++
      tokensFrom (s.readAll done) (start + (done.flatMap (·.1.text)).length) rest := by
  induction done generalizing s start with
  | nil => rfl
  | cons l done ih =>
    rw [List.cons_append, tokensFrom, tokensFrom]
    simp only [ih, List.append_assoc, List.flatMap_cons, List.length_append, Nat.add_assoc]
    rfl

end Highlight

namespace GrammarState
open Lexeme (placed upTo split)
open Highlight (tokenize tokensFrom)

/-- A text that is cut off at the end of one of its lexemes has the lexemes up to there, and unless
a name is followed by nothing but blanks in it, the grammar is in the state in which the reading of
the whole text comes by. -/
theorem before_agrees (buffer : List Char) (offset : Nat)
    (h : ∃ l ∈ placed buffer, l.stop = offset) :
    placed (buffer.take offset) = (placed buffer).filter (·.stop ≤ offset) ∧
      ((∀ l ∈ placed buffer, l.lexeme.kind = .name → l.stop ≤ offset →
          ¬ (buffer.take offset).drop l.stop ⊆ [' ', '\t', '\r', '\n']) →
        before buffer offset = initial.readAll (upTo buffer offset) ∧
          tokenize buffer = tokensFrom initial 0 (upTo buffer offset) ++
            tokensFrom (before buffer offset) offset (split (buffer.drop offset))) := by
  obtain ⟨done, hcut⟩ := Lexeme.exists_cutAt h
  refine ⟨hcut.placed_take, ?_⟩
  intro hseen
  have hstate : before buffer offset = initial.readAll done := by
    change initial.readAll (split (Text.slice buffer (0 : Nat) offset)) = _
    rw [Text.slice_eq_take_drop]
    apply readAll_cut hcut
    intro l hl hname
    have hmem : l ∈ upTo buffer offset := by rwa [hcut.upTo_eq]
    have hstop : Lexeme.stopIn buffer l ≤ offset := by simpa using (List.mem_filter.mp hmem).2
    exact hseen _ (List.mem_map_of_mem (hcut.mem_split hl)) hname hstop
  have htokens : tokenize buffer = tokensFrom initial 0 done ++
      tokensFrom (initial.readAll done) offset (split (buffer.drop offset)) := by
    unfold tokenize
    rw [hcut.split_eq, Highlight.tokensFrom_append, hcut.length_done, Nat.zero_add]
  rw [hcut.upTo_eq, hstate]
  exact ⟨rfl, htokens⟩

/-- Right behind a blank that follows a colon, an alias has been told from a field. -/
theorem before_agrees_alias :
    let buffer := "\x7b a: b(x: 1) \x7d".toList
    (∃ l ∈ placed buffer, l.stop = 5) ∧
      before buffer 5 = initial.readAll (upTo buffer 5) := by
  intro buffer
  have hstop : ∃ l ∈ placed buffer, l.stop = 5 := by decide +kernel
  have hseen : ∀ l ∈ placed buffer, l.lexeme.kind = .name → l.stop ≤ 5 →
      ¬ (buffer.take 5).drop l.stop ⊆ [' ', '\t', '\r', '\n'] := by decide +kernel
  exact ⟨hstop, ((before_agrees buffer 5 hstop).2 hseen).1⟩

end GrammarState
end EmbeddedGraphQL
