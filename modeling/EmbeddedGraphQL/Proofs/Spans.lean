import EmbeddedGraphQL.Proofs.CutTexts
import EmbeddedGraphQL.Proofs.Rounds
import EmbeddedGraphQL.Proofs.Untouched
import Mathlib

/-!
The places of symbols in both readings. A text that is read strictly to its end has the same symbols
at the same places in the tolerant reading, unless a symbol stands behind a comment that a carriage
return alone ends: to the tolerant reading the comment goes on up to the next line feed.
-/
namespace EmbeddedGraphQL

namespace Lexeme

/-- The places of the symbols that a lexeme is made of. A sigil is apart from the name behind it. -/
def Placed.spans (p : Placed) : List (Nat × Nat) :=
  if (p.lexeme.kind = .variable ∨ p.lexeme.kind = .directive) ∧ p.start + 1 < p.stop then
    [(p.start, p.start + 1), (p.start + 1, p.stop)]
  else [(p.start, p.stop)]

/-- The places of the symbols in the lexemes of a text, blanks, commas and comments left out. -/
def spans (text : List Char) : List (Nat × Nat) :=
  ((placed text).filter fun p => !p.lexeme.isIgnored).flatMap Placed.spans

/-- The places of the symbols from an offset on. -/
def spansFrom (text : List Char) (k : Nat) : List (Nat × Nat) :=
  (telling (text.drop k)).flatMap fun l => (placeIn text l).spans

theorem spansFrom_zero (text : List Char) : spansFrom text 0 = spans text := by
  unfold spansFrom spans placed telling
  rw [List.filter_map, List.flatMap_map]
  rfl

end Lexeme

/-- The places of the symbols of a list. -/
def SymbolList.spans (l : SymbolList) : List (Nat × Nat) := l.symbols.map fun s => (s.start, s.stop)

/-- A comment that starts at an offset, outside symbols, hides a symbol: no line feed stands
between them. -/
def Hides (text : List Char) (mark : Nat) (s : Symbol) : Prop :=
  mark < s.start ∧ text[mark]? = some '#' ∧ '\n' ∉ Text.slice text mark s.start ∧
    ∀ t ∈ (SymbolList.ofText text).symbols, t.start ≤ mark → t.stop ≤ mark

namespace Lexeme

variable {text piece behind rest : List Char} {c : Char} {k n : Nat}

theorem spansFrom_of_length_le (h : text.length ≤ k) : spansFrom text k = [] := by
  unfold spansFrom telling
  rw [List.drop_of_length_le h, split_nil]
  rfl

/-- The places that the first lexeme from an offset on gives. -/
theorem spansFrom_of_munch {kind : LexemeKind} (hdrop : text.drop k = c :: (piece ++ behind))
    (hmunch : munch c (piece ++ behind) = (kind, piece))
    (hkind : isIgnored ⟨kind, c :: piece⟩ = false) :
    spansFrom text k = Placed.spans ⟨⟨kind, c :: piece⟩, k, k + 1 + piece.length⟩ ++
      spansFrom text (k + 1 + piece.length) := by
  have hlength : (text.drop k).length = 1 + piece.length + behind.length := by
    rw [hdrop, List.length_cons, List.length_append]
    omega
  rw [List.length_drop] at hlength
  have hbehind : text.drop (k + 1 + piece.length) = behind := by
    rw [← List.drop_drop, ← List.drop_drop, hdrop]
    simp
  have hplace : placeIn text (⟨kind, c :: piece⟩, behind) =
      ⟨⟨kind, c :: piece⟩, k, k + 1 + piece.length⟩ := by
    have hstop : stopIn text (⟨kind, c :: piece⟩, behind) = k + 1 + piece.length := by
      unfold stopIn
      dsimp only
      omega
    simp only [placeIn, hstop, List.length_cons]
    congr 1
    omega
  unfold spansFrom
  rw [hdrop, telling_of_munch hmunch, hkind, hbehind, if_neg (by simp), List.flatMap_cons, hplace]

/-- Blanks have no place of their own. -/
theorem spansFrom_blank (hdrop : text.drop k = c :: rest) (hc : Symbol.isSkipped c = true) :
    spansFrom text k = spansFrom text (k + 1) := by
  have hrest : text.drop (k + 1) = rest := by
    rw [← List.drop_drop, hdrop]
    rfl
  unfold spansFrom
  rw [hdrop, hrest, telling_blank (Symbol.blank_of_isSkipped hc)]

/-- A comment has no place up to the next line feed. -/
theorem spansFrom_comment (hdrop : text.drop k = '#' :: rest) :
    spansFrom text k =
      spansFrom text (k + 1 + (rest.takeWhile fun c => decide (c ≠ '\n')).length) := by
  obtain ⟨behind, hrest, htaken, hbehind⟩ := takeWhile_split (fun c => decide (c ≠ '\n')) rest
  have hnext : text.drop (k + 1 + (rest.takeWhile fun c => decide (c ≠ '\n')).length) = behind := by
    rw [← List.drop_drop, ← List.drop_drop, hdrop]
    exact htaken
  have hbody : ∀ c ∈ rest.takeWhile fun c => decide (c ≠ '\n'), c ≠ '\n' := by
    intro c hc
    simpa using List.mem_takeWhile_imp hc
  have htelling := telling_comment hbody fun c hc => by simpa using hbehind c hc
  rw [← hrest] at htelling
  unfold spansFrom
  rw [hdrop, hnext, htelling]

/-- Places from an offset on start there or later. -/
theorem le_of_mem_spansFrom {x : Nat × Nat} (hk : k ≤ text.length) (hx : x ∈ spansFrom text k) :
    k ≤ x.1 := by
  obtain ⟨l, hl, hx⟩ := List.mem_flatMap.mp hx
  have hlength := (length_of_mem_split _ l (List.mem_of_mem_filter hl)).2
  rw [List.length_drop] at hlength
  have hstart : k ≤ (placeIn text l).start := by
    unfold placeIn stopIn
    dsimp only
    omega
  apply hstart.trans
  unfold Placed.spans at hx
  split_ifs at hx
  · simp only [List.mem_cons, List.not_mem_nil, or_false] at hx
    rcases hx with rfl | rfl
    · exact le_refl _
    · exact Nat.le_succ _
  · rw [List.mem_singleton.mp hx]

/-- A sigil has a place of its own, whether a name follows it or not. -/
theorem spansFrom_sigil {kind : LexemeKind} (hdrop : text.drop k = c :: rest)
    (hmunch : ∀ text, munch c text = (kind, nameAt text))
    (hkind : kind = .variable ∨ kind = .directive) :
    spansFrom text k = (k, k + 1) :: spansFrom text (k + 1) := by
  have htold (piece : List Char) : isIgnored ⟨kind, c :: piece⟩ = false := by
    rcases hkind with rfl | rfl <;> rfl
  by_cases hname : ∃ d behind, rest = d :: behind ∧ isNameStart d = true
  · obtain ⟨d, behind, rfl, hd⟩ := hname
    obtain ⟨after, hbehind, -, hafter⟩ := takeWhile_split Text.isNameChar behind
    have hrest : d :: behind = (d :: behind.takeWhile Text.isNameChar) ++ after := by
      rw [List.cons_append, ← hbehind]
    have hdropName : text.drop (k + 1) = d :: (behind.takeWhile Text.isNameChar ++ after) := by
      rw [← List.drop_drop, hdrop, ← hbehind]
      rfl
    have hmarked : munch c ((d :: behind.takeWhile Text.isNameChar) ++ after) =
        (kind, d :: behind.takeWhile Text.isNameChar) := by
      rw [hmunch, ← hrest, nameAt, if_pos hd]
    have hsecond :=
      spansFrom_of_munch hdropName (by rw [Symbol.lexeme_munch_name hd, ← hbehind]) rfl
    rw [hrest] at hdrop
    have hfirst := spansFrom_of_munch hdrop hmarked (htold _)
    rw [hfirst, hsecond]
    have hlength : k + 1 + (d :: behind.takeWhile Text.isNameChar).length =
        k + 1 + 1 + (behind.takeWhile Text.isNameChar).length := by
      rw [List.length_cons]
      omega
    rw [hlength]
    have hlt : k + 1 < k + 1 + 1 + (behind.takeWhile Text.isNameChar).length := by omega
    simp [Placed.spans, hkind, hlt]
  · have halone : munch c ([] ++ rest) = (kind, []) := by
      rw [List.nil_append, hmunch]
      cases rest with
      | nil => rfl
      | cons d behind =>
        rw [nameAt, if_neg]
        exact fun hd => hname ⟨d, behind, rfl, hd⟩
    rw [← List.nil_append rest] at hdrop
    rw [spansFrom_of_munch hdrop halone (htold _)]
    simp [Placed.spans]

/-- A symbol is at the same place in both readings. -/
theorem spansFrom_symbol {kind : SymbolKind} {value : List Char} (hdrop : text.drop k = c :: rest)
    (hmunch : Symbol.munch c rest = .symbol kind value n)
    (hfree : kind = .blockString → ¬ Symbol.escapedQuotes <:+: rest.take n) :
    spansFrom text k = (k, k + 1 + n) :: spansFrom text (k + 1 + n) := by
  by_cases hdollar : c = '$'
  · subst hdollar
    cases hmunch
    exact spansFrom_sigil hdrop (fun text => rfl) (Or.inl rfl)
  by_cases hat : c = '@'
  · subst hat
    cases hmunch
    exact spansFrom_sigil hdrop (fun text => rfl) (Or.inr rfl)
  obtain ⟨piece, behind, rfl, rfl, -, htakes⟩ := Symbol.munch_takes hmunch ⟨hdollar, hat⟩ hfree
  have hkind : Symbol.lexemeKind kind value ≠ .variable ∧
      Symbol.lexemeKind kind value ≠ .directive ∧
        isIgnored ⟨Symbol.lexemeKind kind value, c :: piece⟩ = false := by
    unfold Symbol.lexemeKind
    split
    · split_ifs <;> simp [isIgnored]
    all_goals simp [isIgnored]
  rw [spansFrom_of_munch hdrop (htakes behind List.prefix_rfl) hkind.2.2]
  simp [Placed.spans, hkind]

end Lexeme

namespace SymbolList
open Lexeme (spansFrom)

variable {text rest : List Char} {k m n : Nat} {c : Char}

theorem readAt_of_length_le (h : text.length ≤ k) : (readAt text k).symbols = [] := by
  unfold readAt
  rw [List.drop_of_length_le h, readFrom]

/-- Nothing is read at a blank. -/
theorem readAt_blank (hdrop : text.drop k = c :: rest) (hc : Symbol.isSkipped c = true) :
    (readAt text k).symbols = (readAt text (k + 1)).symbols := by
  have hmunch : Symbol.munch c rest = .skipped 0 := by
    unfold Symbol.munch
    rw [if_pos hc]
  obtain ⟨hsymbols, -⟩ := readAt_round hdrop (n := 0) (by rw [hmunch]; rfl)
  rwa [hmunch, found_skipped, List.nil_append] at hsymbols

/-- A line without symbols is read up to its line feed. -/
theorem Reached.lineEnd (h : Reached text k) (hk : k ≤ m) (hm : m ≤ text.length)
    (hbreak : ∀ c ∈ text[m]?, c = '\n') (hnone : ∀ s ∈ (readAt text k).symbols, m ≤ s.start) :
    Reached text m ∧ (readAt text k).symbols = (readAt text m).symbols := by
  induction hd : m - k using Nat.strong_induction_on generalizing k with
  | _ d ih =>
    by_cases heq : k = m
    · subst heq
      exact ⟨h, rfl⟩
    have hdrop := List.drop_eq_getElem_cons (show k < text.length by omega)
    obtain ⟨n, hn⟩ := exists_taken hdrop h.sound
    have hsymbols := (readAt_round hdrop hn).1
    have hskip : k + 1 + n ≤ m → Symbol.munch text[k] (text.drop (k + 1)) = .skipped n →
        Reached text m ∧ (readAt text k).symbols = (readAt text m).symbols := by
      intro hle hmunch
      rw [hmunch, found_skipped, List.nil_append] at hsymbols
      rw [hsymbols] at hnone ⊢
      exact ih (m - (k + 1 + n)) (by omega) (h.next hdrop hn) hle hnone rfl
    have hshape := Symbol.munch_shape text[k] (text.drop (k + 1))
    cases hmunch : Symbol.munch text[k] (text.drop (k + 1)) with
    | skipped taken =>
      rw [hmunch] at hn hshape
      cases hn
      cases hshape with
      | blank hc => exact hskip (by omega) hmunch
      | comment hc =>
        apply hskip _ hmunch
        by_contra hlate
        have hhigh : m ≤ k + ((text.drop (k + 1)).takeWhile
            fun c => decide (c ≠ '\n' ∧ c ≠ '\r')).length := by omega
        obtain ⟨e, he, hat⟩ := exists_of_takeWhile hdrop hk hhigh
        rcases List.mem_cons.mp he with rfl | he
        · have hline := hbreak _ hat
          rw [hc] at hline
          cases hline
        · have hclass := List.mem_takeWhile_imp he
          rw [hbreak e hat] at hclass
          cases hclass
    | symbol kind value taken =>
      rw [hmunch, found_symbol] at hsymbols
      have hstart := hnone ⟨kind, String.ofList value, k, k + 1 + taken⟩ (by simp [hsymbols])
      dsimp only at hstart
      omega
    | problem problem distance =>
      rw [hmunch] at hn
      cases hn

/-- A comment is told from the symbols around it. -/
theorem Reached.outside (h : Reached text k) (hdrop : text.drop k = c :: rest)
    (hmunch : Symbol.munch c rest = .skipped n) :
    ∀ t ∈ (ofText text).symbols, t.start ≤ k → t.stop ≤ k := by
  intro t ht hstart
  obtain ⟨before, hbefore, hstop⟩ := h.earlier
  rw [hbefore, (readAt_round hdrop (by rw [hmunch]; rfl)).1, hmunch, found_skipped,
    List.nil_append] at ht
  rcases List.mem_append.mp ht with ht | ht
  · exact hstop t ht
  · have hle := (start_of_mem_readAt ht).1
    omega

/-- Nothing is hidden from an offset on. -/
def Clear (text : List Char) (k : Nat) : Prop :=
  ∀ s ∈ (readAt text k).symbols, ∀ mark, k ≤ mark → ¬ Hides text mark s

/-- Where no comment starts on the way and no symbol is left behind, nothing gets hidden. -/
theorem clear_iff_of_symbols (hk : k ≤ m)
    (hsymbols : (readAt text k).symbols = (readAt text m).symbols)
    (hbetween : ∀ s ∈ (readAt text m).symbols, ∀ mark, k ≤ mark → mark < m → ¬ Hides text mark s) :
    Clear text k ↔ Clear text m := by
  unfold Clear
  rw [hsymbols]
  constructor
  · intro h s hs mark hmark
    exact h s hs mark (hk.trans hmark)
  · intro h s hs mark hmark
    rcases Nat.lt_or_ge mark m with hlt | hge
    · exact hbetween s hs mark hmark hlt
    · exact h s hs mark hge

/-- A symbol is hidden neither by what stands in it nor by what comes behind it. -/
theorem Reached.clear_symbol {kind : SymbolKind} {value : List Char} (h : Reached text k)
    (hdrop : text.drop k = c :: rest) (hmunch : Symbol.munch c rest = .symbol kind value n) :
    Clear text k ↔ Clear text (k + 1 + n) := by
  have hn : (Symbol.munch c rest).taken? = some n := by rw [hmunch]; rfl
  have hsymbols := (readAt_round hdrop hn).1
  rw [hmunch, found_symbol, List.singleton_append] at hsymbols
  have hmem := h.mem_symbols hdrop hn (by rw [hmunch]; exact List.mem_cons_self)
  constructor
  · intro hclear s hs mark hmark
    exact hclear s (hsymbols ▸ List.mem_cons_of_mem _ hs) mark (by omega)
  · intro hclear s hs mark hmark hhides
    rw [hsymbols] at hs
    rcases List.mem_cons.mp hs with rfl | hs
    · exact absurd hhides.1 (by dsimp only; omega)
    · rcases Nat.lt_or_ge mark (k + 1 + n) with hlt | hge
      · have hstop := hhides.2.2.2 _ hmem hmark
        dsimp only at hstop
        omega
      · exact hclear s hs mark hge hhides

/-- The line of a comment ends at its line feed, or at the end of the text. -/
theorem comment_line (hdrop : text.drop k = '#' :: rest) :
    k + 1 + (rest.takeWhile fun c => decide (c ≠ '\n')).length ≤ text.length ∧
      (∀ i, k ≤ i → i < k + 1 + (rest.takeWhile fun c => decide (c ≠ '\n')).length →
        text[i]? ≠ some '\n') ∧
        ∀ c ∈ text[k + 1 + (rest.takeWhile fun c => decide (c ≠ '\n')).length]?, c = '\n' := by
  refine ⟨?_, ?_, ?_⟩
  · have htake := List.takeWhile_prefix (l := rest) (fun c => decide (c ≠ '\n'))
    have hle := htake.length_le
    have hdropped := congrArg List.length hdrop
    rw [List.length_drop, List.length_cons] at hdropped
    omega
  · intro i hlow hhigh
    have hlast : i ≤ k + (rest.takeWhile fun c => decide (c ≠ '\n')).length := by omega
    obtain ⟨e, he, hat⟩ := exists_of_takeWhile hdrop hlow hlast
    rw [hat]
    intro heq
    cases heq
    rcases List.mem_cons.mp he with he | he
    · cases he
    · have hclass := List.mem_takeWhile_imp he
      cases hclass
  · intro c hc
    obtain ⟨behind, hrest, htaken, hbehind⟩ := takeWhile_split (fun c => decide (c ≠ '\n')) rest
    rw [← List.head?_drop, ← List.drop_drop, ← List.drop_drop, hdrop] at hc
    rw [show List.drop _ (List.drop 1 ('#' :: rest)) = behind from htaken] at hc
    simpa using hbehind c hc

/-- Both readings agree behind a comment just when nothing stands behind it on its line. -/
theorem Reached.spansFrom_iff_comment (h : Reached text k) (hdrop : text.drop k = '#' :: rest)
    (hmunch : Symbol.munch '#' rest = .skipped n)
    (ih : ∀ m, k < m → Reached text m → (spansFrom text m = (readAt text m).spans ↔ Clear text m)) :
    spansFrom text k = (readAt text k).spans ↔ Clear text k := by
  set m := k + 1 + (rest.takeWhile fun c => decide (c ≠ '\n')).length with hm
  obtain ⟨hlength, hline, hbreak⟩ := comment_line hdrop
  rw [← hm] at hlength hline hbreak
  rw [Lexeme.spansFrom_comment hdrop]
  by_cases hnone : ∀ s ∈ (readAt text k).symbols, m ≤ s.start
  · obtain ⟨hreached, hsymbols⟩ := h.lineEnd (by omega) hlength hbreak hnone
    have hclear : Clear text k ↔ Clear text m := by
      apply clear_iff_of_symbols (by omega) hsymbols
      intro s hs mark hlow hhigh hhides
      -- the line feed that ends the comment stands in front of every symbol behind it
      have hnext : m < s.start ∧ text[m]? = some '\n' := by
        rcases Nat.lt_or_ge m text.length with hlt | hge
        · have hat := List.getElem?_eq_getElem hlt
          have hfeed := hbreak _ hat
          rw [readAt_blank (drop_of_getElem? hat) (by rw [hfeed]; rfl)] at hs
          exact ⟨(start_of_mem_readAt hs).1, by rw [hat, hfeed]⟩
        · rw [readAt_of_length_le hge] at hs
          cases hs
      apply hhides.2.2.1
      apply List.mem_of_getElem? (i := m - mark)
      rw [Text.getElem?_slice, if_pos (by omega), Nat.add_sub_of_le hhigh.le, hnext.2]
    rw [hclear, ← ih m (by omega) hreached]
    unfold spans
    rw [hsymbols]
  · push Not at hnone
    obtain ⟨s, hs, hlt⟩ := hnone
    have hsymbols := (readAt_round hdrop (by rw [hmunch]; rfl)).1
    rw [hmunch, found_skipped, List.nil_append] at hsymbols
    have hstart := (start_of_mem_readAt (hsymbols ▸ hs)).1
    constructor
    · intro heq
      have hmem : (s.start, s.stop) ∈ (readAt text k).spans := List.mem_map_of_mem hs
      rw [← heq] at hmem
      have hle := Lexeme.le_of_mem_spansFrom hlength hmem
      dsimp only at hle
      omega
    · intro hclear
      apply absurd _ (hclear s hs k (le_refl k))
      refine ⟨by omega, ?_, ?_, h.outside hdrop hmunch⟩
      · rw [getElem?_round hdrop (le_refl k), Nat.sub_self]
        rfl
      · intro hmem
        obtain ⟨i, hi⟩ := List.getElem?_of_mem hmem
        rw [Text.getElem?_slice] at hi
        split_ifs at hi with hlow
        exact hline (k + i) (by omega) (by omega) hi

/-- Both readings agree from a reached offset on just when nothing is hidden there. -/
theorem Reached.spansFrom_iff (hfree : ∀ s ∈ (ofText text).symbols, s.kind = .blockString →
      ¬ Symbol.escapedQuotes <:+: Text.slice text s.start s.stop) (h : Reached text k) :
    spansFrom text k = (readAt text k).spans ↔ Clear text k := by
  induction hd : text.length - k using Nat.strong_induction_on generalizing k with
  | _ d ih =>
    rcases Nat.lt_or_ge k text.length with hlt | hge
    · have hnext : ∀ m, k < m → Reached text m →
          (spansFrom text m = (readAt text m).spans ↔ Clear text m) := by
        intro m hm hreached
        exact ih (text.length - m) (by omega) hreached rfl
      obtain ⟨c, rest, hdrop⟩ : ∃ c rest, text.drop k = c :: rest :=
        ⟨_, _, List.drop_eq_getElem_cons hlt⟩
      obtain ⟨n, hn⟩ := exists_taken hdrop h.sound
      have hreached := h.next hdrop hn
      have hshape := Symbol.munch_shape c rest
      cases hmunch : Symbol.munch c rest with
      | skipped taken =>
        rw [hmunch] at hn hshape
        cases hn
        cases hshape with
        | blank hc =>
          have hsymbols := readAt_blank hdrop hc
          have hclear : Clear text k ↔ Clear text (k + 1) := by
            apply clear_iff_of_symbols (Nat.le_succ k) hsymbols
            intro s hs mark hlow hhigh hhides
            have hat := getElem?_round hdrop hlow
            rw [show mark - k = 0 by omega, hhides.2.1] at hat
            cases hat
            cases hc
          rw [hclear, ← hnext (k + 1) (by omega) hreached, Lexeme.spansFrom_blank hdrop hc]
          unfold spans
          rw [hsymbols]
        | comment hc =>
          subst hc
          exact h.spansFrom_iff_comment hdrop hmunch hnext
      | symbol kind value taken =>
        have hsymbols := (readAt_round hdrop hn).1
        have hmem := h.mem_symbols hdrop hn (by rw [hmunch]; exact List.mem_cons_self)
        rw [hmunch] at hn
        cases hn
        rw [hmunch, found_symbol, List.singleton_append] at hsymbols
        have hquotes : kind = .blockString → ¬ Symbol.escapedQuotes <:+: rest.take n := by
          intro hkind hquotes
          apply hfree _ hmem hkind
          dsimp only
          rw [Text.slice_eq_take_drop, hdrop, show k + 1 + n - k = n + 1 by omega,
            List.take_succ_cons]
          exact hquotes.trans (List.suffix_cons c _).isInfix
        rw [h.clear_symbol hdrop hmunch, ← hnext (k + 1 + n) (by omega) hreached,
          Lexeme.spansFrom_symbol hdrop hmunch hquotes]
        unfold spans
        rw [hsymbols, List.map_cons]
        simp
      | problem problem distance =>
        rw [hmunch] at hn
        cases hn
    · unfold spans Clear
      rw [Lexeme.spansFrom_of_length_le hge, readAt_of_length_le hge]
      simp

/-- A text that is read strictly to its end, in which no block string has quotes of a block string
escaped, has the same symbols at the same places in both readings just when no symbol stands behind
a comment without a line feed between them. -/
theorem spans_agree_iff (text : List Char) (hsound : (ofText text).problem = none)
    (hfree : ∀ s ∈ (ofText text).symbols, s.kind = .blockString →
      ¬ Symbol.escapedQuotes <:+: Text.slice text s.start s.stop) :
    Lexeme.spans text = (ofText text).spans ↔
      ∀ s ∈ (ofText text).symbols, ∀ mark, ¬ Hides text mark s := by
  rw [← Lexeme.spansFrom_zero]
  refine ((reached_zero hsound).spansFrom_iff hfree).trans ?_
  constructor
  · intro h s hs mark
    exact h s hs mark (Nat.zero_le mark)
  · intro h s hs mark hmark
    exact h s hs mark

/-- A sigil with its name, a block string and a comment that a line feed ends. -/
theorem spans_agree_iff_block :
    let text := "\x7b a(b: \"\"\"c\"\"\", d: $e) # f\n @g \x7d".toList
    (ofText text).problem = none ∧
      (∀ s ∈ (ofText text).symbols, s.kind = .blockString →
        ¬ Symbol.escapedQuotes <:+: Text.slice text s.start s.stop) ∧
        (Lexeme.spans text = (ofText text).spans ↔
          ∀ s ∈ (ofText text).symbols, ∀ mark, ¬ Hides text mark s) := by
  intro text
  have hsound : (ofText text).problem = none := by decide +kernel
  have hfree : ∀ s ∈ (ofText text).symbols, s.kind = .blockString →
      ¬ Symbol.escapedQuotes <:+: Text.slice text s.start s.stop := by decide +kernel
  exact ⟨hsound, hfree, spans_agree_iff text hsound hfree⟩

/-- A carriage return ends a comment in the strict reading only. -/
theorem spans_behind_return :
    let text := "\x7ba#\rb\x7d".toList
    (ofText text).problem = none ∧ Lexeme.spans text = [(0, 1), (1, 2)] ∧
      (ofText text).spans = [(0, 1), (1, 2), (4, 5), (5, 6)] := by
  decide +kernel

end SymbolList
end EmbeddedGraphQL
