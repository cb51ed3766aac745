import EmbeddedGraphQL.Proofs.Accepted
import EmbeddedGraphQL.Proofs.Rounds
import EmbeddedGraphQL.Proofs.Shorthands
import Mathlib

/-!
Documents that come through unchanged. The scan and the names work on characters wherever they
stand. In a text that is a document as it is, a template expression can only stand in a string or
in a comment, and a shorthand definition only in a string, in a comment or as two names that
follow each other; so a document comes through unchanged just when it has none of these.
-/
namespace EmbeddedGraphQL

/-- An offset lies in a string of the strict reading. -/
def InString (text : List Char) (k : Nat) : Prop :=
  ∃ s ∈ (SymbolList.ofText text).symbols, (s.kind = .string ∨ s.kind = .blockString) ∧
    s.start ≤ k ∧ k < s.stop

/-- An offset lies in a comment: a mark outside strings stands at it or before it on its line. -/
def InComment (text : List Char) (k : Nat) : Prop :=
  ∃ mark ≤ k, text[mark]? = some '#' ∧ ¬ InString text mark ∧
    ∀ i, mark < i → i ≤ k → text[i]? ≠ some '\n' ∧ text[i]? ≠ some '\r'

/-- The names `fragment` and `on` follow each other at two offsets. -/
def NamePair (text : List Char) (start site : Nat) : Prop :=
  [⟨.name, "fragment", start, start + FragmentName.keyword.length⟩,
    ⟨.name, "on", site, site + 2⟩] <:+: (SymbolList.ofText text).symbols

namespace SymbolList

variable {text rest : List Char} {start n p : Nat} {c d : Char}

/-- The character that a round takes at an offset. -/
theorem getElem?_round (hdrop : text.drop start = c :: rest) (hp : start ≤ p) :
    text[p]? = (c :: rest)[p - start]? := by
  rw [← hdrop, List.getElem?_drop, Nat.add_sub_of_le hp]

/-- What a round takes of a class of characters stands in the text. -/
theorem exists_of_takeWhile {class? : Char → Bool} {k : Nat}
    (hdrop : text.drop start = c :: rest) (hlow : start ≤ k)
    (hhigh : k ≤ start + (rest.takeWhile class?).length) :
    ∃ e ∈ c :: rest.takeWhile class?, text[k]? = some e := by
  obtain ⟨behind, hrest, -, -⟩ := takeWhile_split class? rest
  have hk : k - start < (c :: rest.takeWhile class?).length := by
    rw [List.length_cons]
    omega
  have htaken : text.drop start = (c :: rest.takeWhile class?) ++ behind := by
    rw [List.cons_append, ← hrest, hdrop]
  refine ⟨_, List.getElem_mem hk, ?_⟩
  rw [← List.getElem?_eq_getElem hk, ← List.getElem?_append_left hk, ← htaken, List.getElem?_drop,
    Nat.add_sub_of_le hlow]

theorem Reached.mem_symbols (h : Reached text start) (hdrop : text.drop start = c :: rest)
    (hn : (Symbol.munch c rest).taken? = some n) {s : Symbol}
    (hs : s ∈ found start (Symbol.munch c rest)) : s ∈ (ofText text).symbols := by
  obtain ⟨before, hbefore, -⟩ := h.earlier
  rw [hbefore, (readAt_round hdrop hn).1]
  exact List.mem_append_right _ (List.mem_append_left _ hs)

/-- Nothing that is skipped lies in a string. -/
theorem Reached.not_inString (h : Reached text start) (hdrop : text.drop start = c :: rest)
    (hn : Symbol.munch c rest = .skipped n) : ¬ InString text start := by
  rintro ⟨s, hs, -, hlow, hhigh⟩
  obtain ⟨before, hbefore, hstop⟩ := h.earlier
  rw [hbefore] at hs
  rcases List.mem_append.mp hs with hs | hs
  · exact absurd (hstop s hs) (by omega)
  · have htaken : (Symbol.munch c rest).taken? = some n := by
      rw [hn]
      rfl
    rw [(readAt_round hdrop htaken).1, hn] at hs
    have := (start_of_mem_readAt hs).1
    omega

/-- What a round takes for a string lies in one. -/
theorem Reached.inString (h : Reached text start) (hdrop : text.drop start = c :: rest)
    {kind : SymbolKind} {value : List Char} (hmunch : Symbol.munch c rest = .symbol kind value n)
    (hkind : kind = .string ∨ kind = .blockString) (hp : start ≤ p) (hlast : p ≤ start + n) :
    InString text p := by
  have hmem := h.mem_symbols hdrop (n := n) (by
    rw [hmunch]
    rfl) (by
    rw [hmunch]
    exact List.mem_singleton_self _)
  refine ⟨_, hmem, hkind, hp, ?_⟩
  dsimp only
  omega

/-- What a round takes for a comment lies in one. -/
theorem Reached.inComment (h : Reached text start) (hdrop : text.drop start = '#' :: rest)
    (hmunch : Symbol.munch '#' rest = .skipped n) (hp : start ≤ p)
    (hlast : p ≤ start + (rest.takeWhile fun c => decide (c ≠ '\n' ∧ c ≠ '\r')).length) :
    InComment text p := by
  have hmark := getElem?_round hdrop (le_refl start)
  rw [Nat.sub_self] at hmark
  refine ⟨start, hp, hmark, h.not_inString hdrop hmunch, fun i hlow hhigh => ?_⟩
  obtain ⟨e, he, hat⟩ := exists_of_takeWhile hdrop hlow.le (hhigh.trans hlast)
  have hclass : e ≠ '\n' ∧ e ≠ '\r' := by
    rcases List.mem_cons.mp he with rfl | he
    · decide
    · simpa using List.mem_takeWhile_imp he
  rw [hat]
  exact ⟨fun h => hclass.1 (Option.some.inj h), fun h => hclass.2 (Option.some.inj h)⟩

/-- A character that is no blank and belongs to no number lies in a string, in a comment or in a
name, or is a punctuator by itself. -/
theorem Reached.char_cases (h : Reached text start) (hp : start ≤ p) (hd : text[p]? = some d)
    (hskip : Symbol.isSkipped d = false) (hdigit : d.isDigit = false)
    (hnumber : d ∉ ['.', '-', '+', 'e', 'E']) :
    InString text p ∨ InComment text p ∨ (Reached text p ∧ Symbol.isPunctuator d = true) ∨
      ∃ first ≤ p, Reached text first ∧ ∀ k, first ≤ k → k ≤ p →
        ∃ c, text[k]? = some c ∧ Text.isNameChar c = true := by
  obtain ⟨first, c, rest, n, hfirst, hdrop, hn, hle, hlast⟩ :=
    h.exists_round hp (List.getElem?_eq_some_iff.mp hd).1
  have hhere := getElem?_round hdrop hle
  have hshape := Symbol.munch_shape c rest
  generalize hmunch : Symbol.munch c rest = munched at hshape
  rw [hd] at hhere
  rw [hmunch] at hn
  cases hshape with
  | blank hc =>
    cases hn
    obtain rfl : p = first := by omega
    rw [Nat.sub_self] at hhere
    cases hhere
    rw [hskip] at hc
    cases hc
  | comment hc =>
    cases hn
    subst hc
    exact Or.inr (Or.inl (hfirst.inComment hdrop hmunch hle hlast))
  | string hc _ hbody =>
    cases hn
    exact Or.inl (hfirst.inString hdrop hmunch (Or.inl rfl) hle hlast)
  | blockString hc hrest hbody =>
    cases hn
    exact Or.inl (hfirst.inString hdrop hmunch (Or.inr rfl) hle hlast)
  | punctuator hc =>
    cases hn
    obtain rfl : p = first := by omega
    rw [Nat.sub_self] at hhere
    cases hhere
    exact Or.inr (Or.inr (Or.inl ⟨hfirst, hc⟩))
  | spread hc hrest =>
    cases hn
    obtain ⟨more, rfl⟩ := hrest
    have hdot : d ∈ ['.', '.', '.'] := by
      rw [hc] at hhere
      have hlt : p - first < 3 := by omega
      rw [List.cons_append, List.cons_append, List.nil_append] at hhere
      interval_cases p - first <;> cases hhere <;> simp
    exact absurd (by simpa using hdot) (fun h : d = '.' => hnumber (by simp [h]))
  | number _ hread =>
    cases hn
    obtain ⟨⟨more, htext⟩, hne, hall⟩ := Symbol.number_chars hread
    have hpos := List.length_pos_iff.mpr hne
    rw [← htext, List.getElem?_append_left (by omega)] at hhere
    rcases hall d (List.mem_of_getElem? hhere.symm) with hc | hc
    · rw [hdigit] at hc
      cases hc
    · exact absurd hc hnumber
  | name hc =>
    cases hn
    refine Or.inr (Or.inr (Or.inr ⟨first, hle, hfirst, fun k hlow hhigh => ?_⟩))
    obtain ⟨e, he, hat⟩ := exists_of_takeWhile hdrop hlow (hhigh.trans hlast)
    refine ⟨e, hat, ?_⟩
    rcases List.mem_cons.mp he with rfl | he
    · exact Lexeme.isNameChar_of_isNameStart hc
    · exact List.mem_takeWhile_imp he
  | problem problem distance => cases hn

/-- A round that takes a punctuator. -/
theorem Reached.punctuator (h : Reached text start) (hc : text[start]? = some c)
    (hpunctuator : Symbol.munch c (text.drop (start + 1)) = .symbol .punctuator [c] 0) :
    Reached text (start + 1) ∧ (readAt text start).symbols =
      ⟨.punctuator, String.ofList [c], start, start + 1⟩ :: (readAt text (start + 1)).symbols := by
  have hdrop := drop_of_getElem? hc
  have hn : (Symbol.munch c (text.drop (start + 1))).taken? = some 0 := by
    rw [hpunctuator]
    rfl
  obtain ⟨hsymbols, -⟩ := readAt_round hdrop hn
  rw [hpunctuator] at hsymbols
  exact ⟨h.next hdrop hn, hsymbols⟩

/-- In a text read without problems whose symbols are a phrase, a dollar sign and a brace stand side
by side only in strings and comments. -/
theorem inString_or_inComment_of_mark (h : (ofText text).problem = none)
    (hphrase : Phrase true (ofText text).symbols) (hdollar : text[p]? = some '$')
    (hbrace : text[p + 1]? = some '\x7b') : InString text p ∨ InComment text p := by
  rcases (reached_zero h).char_cases (Nat.zero_le p) hdollar rfl rfl (by decide) with
    hin | hin | ⟨hp, -⟩ | ⟨first, hle, -, hall⟩
  · exact Or.inl hin
  · exact Or.inr hin
  · obtain ⟨hp', hfirst⟩ := hp.punctuator hdollar (by simp [Symbol.munch, Symbol.isSkipped,
      Symbol.isPunctuator, Lexeme.isPunctuator])
    obtain ⟨-, hsecond⟩ := hp'.punctuator hbrace (by simp [Symbol.munch, Symbol.isSkipped,
      Symbol.isPunctuator, Lexeme.isPunctuator])
    obtain ⟨before, hbefore, -⟩ := hp.earlier
    have hname := hphrase.name_of_dollar (i := before.length) (by
      rw [hbefore, hfirst, List.getElem?_append_right le_rfl, Nat.sub_self]
      rfl) ⟨rfl, rfl⟩
    rw [hbefore, hfirst, hsecond, List.getElem?_append_right (Nat.le_add_right _ 1),
      Nat.add_sub_cancel_left] at hname
    obtain ⟨t, ht, hkind⟩ := hname
    cases ht
    cases hkind
  · obtain ⟨c, hc, hname⟩ := hall p hle le_rfl
    rw [hdollar] at hc
    cases hc
    cases hname

/-- A blank is skipped unless it ends the reading. -/
theorem munch_of_isBlank (hblank : Text.isBlank c = true)
    (hn : (Symbol.munch c rest).taken? = some n) : Symbol.munch c rest = .skipped 0 := by
  have hnot {d : Char} (hd : Text.isBlank d = false) : c ≠ d := by
    rintro rfl
    rw [hblank] at hd
    cases hd
  have hshape := Symbol.munch_shape c rest
  generalize Symbol.munch c rest = munched at hshape hn
  cases hshape with
  | blank _ => rfl
  | comment hc => exact absurd hc (hnot (by decide))
  | string hc _ _ => exact absurd hc (hnot (by decide))
  | blockString hc _ _ => exact absurd hc (hnot (by decide))
  | punctuator hc =>
    have hmem : c ∈ ['!', '(', ')', ':', '=', '[', ']', '\x7b', '\x7d', '|', '&', '$', '@'] := by
      simpa [Symbol.isPunctuator, Lexeme.isPunctuator, or_assoc] using hc
    fin_cases hmem <;> exact absurd hblank (by decide)
  | spread hc _ => exact absurd hc (hnot (by decide))
  | number _ hread =>
    obtain ⟨⟨more, htext⟩, hne, hall⟩ := Symbol.number_chars hread
    obtain ⟨d, written, rfl⟩ := List.exists_cons_of_ne_nil hne
    cases htext
    rcases hall _ List.mem_cons_self with hd | hd
    · have hname : Text.isNameChar c = true := by
        simp [Text.isNameChar, Char.isAlphanum, hd]
      rw [Lexeme.isBlank_of_isNameChar hname] at hblank
      cases hblank
    · fin_cases hd <;> exact absurd hblank (by decide)
  | name hc =>
    rw [Lexeme.isBlank_of_isNameChar (Lexeme.isNameChar_of_isNameStart hc)] at hblank
    cases hblank
  | problem problem distance => cases hn

/-- Blanks between symbols are skipped. -/
theorem Reached.skip_blanks (h : Reached text start) (hp : start ≤ p)
    (hblank : ∀ k, start ≤ k → k < p → ∃ c, text[k]? = some c ∧ Text.isBlank c = true) :
    Reached text p ∧ (readAt text start).symbols = (readAt text p).symbols := by
  induction p, hp using Nat.le_induction with
  | base => exact ⟨h, rfl⟩
  | succ p hp ih =>
    obtain ⟨hp', hsame⟩ := ih fun k hlow hhigh => hblank k hlow (Nat.lt_succ_of_lt hhigh)
    obtain ⟨c, hc, hcblank⟩ := hblank p hp (Nat.lt_succ_self p)
    have hdrop := drop_of_getElem? hc
    obtain ⟨n, hn⟩ := exists_taken hdrop hp'.sound
    have hmunch := munch_of_isBlank hcblank hn
    rw [hmunch] at hn
    cases hn
    have hn : (Symbol.munch c (text.drop (p + 1))).taken? = some 0 := by
      rw [hmunch]
      rfl
    obtain ⟨hsymbols, -⟩ := readAt_round hdrop hn
    rw [hmunch] at hsymbols
    exact ⟨hp'.next hdrop hn, hsame.trans hsymbols⟩

/-- A whole word is read as a name. -/
theorem Reached.name {word : List Char} (h : Reached text start)
    (hdrop : text.drop start = (c :: word) ++ rest)
    (hc : c = 'f' ∨ c = 'o') (hall : ∀ e ∈ word, Text.isNameChar e = true)
    (hrest : ∀ e ∈ rest.head?, Text.isNameChar e = false) :
    Reached text (start + (c :: word).length) ∧ (readAt text start).symbols =
      ⟨.name, String.ofList (c :: word), start, start + (c :: word).length⟩ ::
        (readAt text (start + (c :: word).length)).symbols := by
  rw [List.cons_append] at hdrop
  have htaken : Symbol.munch c (word ++ rest) = .symbol .name
      (c :: (word ++ rest).takeWhile Text.isNameChar)
      ((word ++ rest).takeWhile Text.isNameChar).length := by
    rcases hc with rfl | rfl <;> simp [Symbol.munch, Symbol.isSkipped, Symbol.isPunctuator,
      Lexeme.isPunctuator, Lexeme.isNameStart]
  rw [takes_takeWhile hall hrest rest List.prefix_rfl] at htaken
  have hn : (Symbol.munch c (word ++ rest)).taken? = some word.length := by
    rw [htaken]
    rfl
  have hnext := h.next hdrop hn
  obtain ⟨hsymbols, -⟩ := readAt_round hdrop hn
  rw [htaken, Nat.add_assoc, Nat.add_comm 1] at hsymbols
  rw [Nat.add_assoc, Nat.add_comm 1] at hnext
  refine ⟨hnext, ?_⟩
  rw [hsymbols, found, Nat.add_assoc start, Nat.add_comm 1]
  rfl

end SymbolList

open FragmentName SymbolList

theorem isWordChar_of_isNameChar {c : Char} (h : Text.isNameChar c = true) :
    Text.isWordChar c = true := by
  rw [Text.isNameChar, Bool.or_eq_true] at h
  simp only [Text.isWordChar, Bool.or_eq_true]
  exact Or.inl h

theorem drop_eq_append {text piece rest : List Char} {k : Nat} (h : text.drop k = piece ++ rest) :
    text.drop k = piece ++ text.drop (k + piece.length) := by
  rw [← List.drop_drop, h, List.drop_left]

/-- A shorthand definition that a name begins is a pair of names. -/
theorem FragmentName.Shorthand.namePair {text : List Char} {start site : Nat}
    (hs : Shorthand text start site) (h : Reached text start) : NamePair text start site := by
  have hnot {c : Char} (hblank : Text.isBlank c = true) : Text.isNameChar c = false := by
    by_contra hname
    rw [Lexeme.isBlank_of_isNameChar (by simpa using hname)] at hblank
    cases hblank
  have hkeyword : text.drop start =
      ['f', 'r', 'a', 'g', 'm', 'e', 'n', 't'] ++ text.drop (start + keyword.length) :=
    drop_eq_append (hs.drop_eq.trans (List.append_assoc _ _ _))
  obtain ⟨h₁, hfirst⟩ := h.name hkeyword (Or.inl rfl) (by simp [Text.isNameChar]) fun c hc => by
    obtain ⟨d, hd, hblank⟩ := hs.blank_at (start + keyword.length) le_rfl hs.blanks_lt
    rw [List.head?_drop, hd] at hc
    cases hc
    exact hnot hblank
  obtain ⟨h₂, hskip⟩ := h₁.skip_blanks hs.blanks_lt.le hs.blank_at
  have hword : text.drop site = ['o', 'n'] ++ text.drop (site + 2) := by
    obtain ⟨ho, hn⟩ := hs.on_at
    rw [drop_of_getElem? ho, drop_of_getElem? hn]
    rfl
  obtain ⟨-, hsecond⟩ := h₂.name hword (Or.inr rfl) (by simp [Text.isNameChar]) fun c hc => by
    rw [List.head?_drop] at hc
    have hend := hs.after c hc
    by_contra hname
    rw [isWordChar_of_isNameChar (by simpa using hname)] at hend
    cases hend
  obtain ⟨before, hbefore, -⟩ := h.earlier
  refine ⟨before, (readAt text (site + 2)).symbols, ?_⟩
  rw [hbefore, hfirst, hskip, hsecond, List.append_assoc]
  rfl

/-- In a text read without problems a shorthand definition starts in a string, in a comment, or as
two names. -/
theorem FragmentName.Shorthand.cases {text : List Char} {start site : Nat}
    (hs : Shorthand text start site) (h : (ofText text).problem = none) :
    InString text start ∨ InComment text start ∨ NamePair text start site := by
  have hf : text[start]? = some 'f' := hs.keyword_at 0 (by decide)
  rcases (reached_zero h).char_cases (Nat.zero_le start) hf rfl rfl (by decide) with
    hin | hin | ⟨-, hc⟩ | ⟨first, hle, hfirst, hall⟩
  · exact Or.inl hin
  · exact Or.inr (Or.inl hin)
  · cases hc
  · refine Or.inr (Or.inr (hs.namePair ?_))
    rcases Nat.eq_or_lt_of_le hle with rfl | hlt
    · exact hfirst
    · obtain ⟨k, rfl⟩ : ∃ k, start = k + 1 := ⟨start - 1, by omega⟩
      obtain ⟨c, hc, hname⟩ := hall k (by omega) (Nat.le_succ k)
      have hword := hs.before k c rfl hc
      rw [isWordChar_of_isNameChar hname] at hword
      cases hword

namespace Scan

/-- Nothing is found just where no terminated expression starts. -/
theorem go_found_eq_nil_iff (environment : Environment) (offset : Nat) (depth : Int)
    (before : List Char) (found : List Template) (text : List Char) :
    (go environment offset depth before found text).found = [] ↔
      found = [] ∧ ∀ k, Template.length? (text.drop k) = none := by
  fun_induction go environment offset depth before found text with
  | case1 offset depth before found =>
    simp [Template.length?]
  | case2 offset depth before found c rest n hn body standIn before' ih =>
    rw [ih]
    constructor
    · rintro ⟨h, -⟩
      cases h
    · rintro ⟨-, h⟩
      have hzero := h 0
      rw [List.drop_zero, hn] at hzero
      cases hzero
  | case3 offset depth before found c rest hn depth' ih =>
    rw [ih]
    refine and_congr_right fun _ => ⟨fun h k => ?_, fun h k => h (k + 1)⟩
    cases k with
    | zero => exact hn
    | succ k => exact h k

theorem found_eq_nil_iff (environment : Environment) (buffer : List Char) :
    (ofBuffer environment buffer).found = [] ↔ ∀ k, Template.length? (buffer.drop k) = none := by
  unfold ofBuffer
  rw [go_found_eq_nil_iff]
  exact and_iff_right rfl

/-- A buffer without expressions is left as it is. -/
theorem text_of_found_eq_nil {environment : Environment} {buffer : List Char}
    (h : (ofBuffer environment buffer).found = []) :
    (ofBuffer environment buffer).text = buffer := by
  obtain ⟨hover, hlength⟩ := ofBuffer_overwrites environment buffer
  rw [h] at hover
  refine List.ext_getElem? fun k => ?_
  rcases Nat.lt_or_ge k (ofBuffer environment buffer).text.length with hk | hk
  · exact hover.outside k hk (List.forall_mem_nil _) (List.forall_mem_nil _)
  · rw [List.getElem?_eq_none hk, List.getElem?_eq_none (hlength ▸ hk)]

theorem recorded_eq_nil_iff (scan : Scan) :
    scan.templates = [] ∧ scan.blanked = [] ↔ scan.found = [] := by
  constructor
  · rintro ⟨htemplates, hblanked⟩
    refine List.eq_nil_iff_forall_not_mem.mpr fun t ht => ?_
    have hmem := mem_recorded_of_mem_found ht
    rw [htemplates, hblanked] at hmem
    simp at hmem
  · intro h
    unfold templates blanked
    rw [h]
    exact ⟨rfl, rfl⟩

end Scan

theorem Template.opening_of_length? {text : List Char} {k : Nat}
    (h : length? (text.drop k) ≠ none) : text[k]? = some '$' ∧ text[k + 1]? = some '\x7b' := by
  obtain ⟨n, hn⟩ := Option.ne_none_iff_exists'.mp h
  obtain ⟨-, ⟨more, hopening⟩, -, -⟩ := length?_spec hn
  have hdrop : text.drop k = '$' :: '\x7b' :: (more ++ (text.drop k).drop n) := by
    conv_lhs => rw [← List.take_append_drop n (text.drop k), ← hopening]
    rfl
  have hat (j : Nat) : text[k + j]? = ('$' :: '\x7b' :: (more ++ (text.drop k).drop n))[j]? := by
    rw [← hdrop, List.getElem?_drop]
  exact ⟨hat 0, hat 1⟩

theorem FragmentName.insertAt_nil (text : List Char) : insertAt 0 [] text = text := by
  rw [insertAt_eq_flatMap]
  simp only [List.not_mem_nil, if_false]
  rw [← List.map_eq_flatMap, List.zipIdx_map_fst]

namespace Extraction

/-- No name is inserted just where no shorthand definition stands outside comments. -/
theorem insertions_eq_nil_iff (environment : Environment) (buffer : List Char) :
    (ofBuffer environment buffer).ledger.insertions = [] ↔
      (ofBuffer environment buffer).sites = [] := by
  rw [(ofBuffer_named environment buffer).insertions]
  simp [FragmentName.insertions]

/-- A buffer comes through untouched: its text is unchanged, no name is inserted, and no template
expression is recorded or blanked. -/
structure Untouched (r : Extraction) : Prop where
  transformed : r.transformed = r.buffer
  insertions : r.ledger.insertions = []
  templates : r.scan.templates = []
  blanked : r.scan.blanked = []

theorem untouched_iff (environment : Environment) (buffer : List Char) :
    (ofBuffer environment buffer).Untouched ↔
      (∀ k, Template.length? (buffer.drop k) = none) ∧
        ∀ start site, Shorthand buffer start site → ¬ Uncommented buffer start := by
  have hsites (hfound : (Scan.ofBuffer environment buffer).found = []) (site : Nat) :
      site ∈ (ofBuffer environment buffer).sites ↔
        ∃ start, Shorthand buffer start site ∧ Uncommented buffer start := by
    have hmem : site ∈ (ofBuffer environment buffer).sites ↔
        ∃ start, Shorthand (Scan.ofBuffer environment buffer).text start site ∧
          Uncommented (Scan.ofBuffer environment buffer).text start := mem_sites_iff
    rwa [Scan.text_of_found_eq_nil hfound] at hmem
  rw [← Scan.found_eq_nil_iff environment]
  constructor
  · rintro ⟨-, hledger, htemplates, hblanked⟩
    have hfound := (Scan.recorded_eq_nil_iff _).mp ⟨htemplates, hblanked⟩
    refine ⟨hfound, fun start site hs huncommented => ?_⟩
    have hmem := (hsites hfound site).mpr ⟨start, hs, huncommented⟩
    rw [(insertions_eq_nil_iff environment buffer).mp hledger] at hmem
    simp at hmem
  · rintro ⟨hfound, hnone⟩
    have hnil : (ofBuffer environment buffer).sites = [] := by
      refine List.eq_nil_iff_forall_not_mem.mpr fun site hsite => ?_
      obtain ⟨start, hs, huncommented⟩ := (hsites hfound site).mp hsite
      exact hnone start site hs huncommented
    obtain ⟨htemplates, hblanked⟩ := (Scan.recorded_eq_nil_iff _).mpr hfound
    refine ⟨?_, (insertions_eq_nil_iff environment buffer).mpr hnil, htemplates, hblanked⟩
    have hnamed := ofBuffer_named environment buffer
    rw [hnamed.transformed, hnil, insertAt_nil]
    exact Scan.text_of_found_eq_nil hfound

/-- A document comes through unchanged, in every environment, unless one of its strings or comments
holds a template expression, or unless outside of lines that a `#` cuts short a string holds a
shorthand definition or the names `fragment` and `on` follow each other. -/
theorem accepted_untouched_iff (environment : Environment) (buffer : List Char)
    (document : Document) (h : Document.parse buffer = .ok document) :
    (ofBuffer environment buffer).Untouched ↔
      (∀ k, Template.length? (buffer.drop k) ≠ none → ¬ InString buffer k ∧ ¬ InComment buffer k) ∧
        ∀ start site, Shorthand buffer start site → Uncommented buffer start →
          ¬ InString buffer start ∧ ¬ NamePair buffer start site := by
  obtain ⟨hproblem, hphrase⟩ := Document.phrase_of_parse h
  rw [untouched_iff]
  constructor
  · rintro ⟨htemplates, hshorthands⟩
    refine ⟨fun k hk => absurd (htemplates k) hk, fun start site hs huncommented => ?_⟩
    exact absurd huncommented (hshorthands start site hs)
  · rintro ⟨htemplates, hshorthands⟩
    refine ⟨fun k => ?_, fun start site hs huncommented => ?_⟩
    · by_contra hk
      obtain ⟨hdollar, hbrace⟩ := Template.opening_of_length? hk
      obtain ⟨hstring, hcomment⟩ := htemplates k hk
      exact (inString_or_inComment_of_mark hproblem hphrase hdollar hbrace).elim hstring hcomment
    · obtain ⟨hstring, hpair⟩ := hshorthands start site hs huncommented
      rcases hs.cases hproblem with hin | ⟨mark, hle, hmark, -, hline⟩ | hin
      · exact hstring hin
      · have hlt : mark < start := by
          refine lt_of_le_of_ne hle ?_
          rintro rfl
          have hf := hs.keyword_at 0 (by decide)
          rw [Nat.add_zero, hmark] at hf
          exact absurd hf (by decide)
        obtain ⟨i, hlow, hhigh, hbreak⟩ := huncommented mark hlt hmark
        exact (hline i hlow hhigh.le).1 hbreak
      · exact hpair hin

/-- A field named as a keyword and a string in its arguments. -/
theorem accepted_untouched_iff_string :
    let buffer := "\x7bfragment(on: \"on\") #on\n\x7d".toList
    ∃ document, Document.parse buffer = .ok document ∧ (ofBuffer .relay buffer).Untouched ∧
      ∀ start site, Shorthand buffer start site → Uncommented buffer start →
        ¬ InString buffer start ∧ ¬ NamePair buffer start site := by
  intro buffer
  have hread : (Document.parse buffer).isOk = true := by decide +kernel
  cases hparse : Document.parse buffer with
  | error e =>
    rw [hparse] at hread
    cases hread
  | ok document =>
    have huntouched : (ofBuffer .relay buffer).Untouched := by
      constructor <;> decide +kernel
    exact ⟨document, rfl, huntouched,
      ((accepted_untouched_iff .relay buffer document hparse).mp huntouched).2⟩

/-- Not every document comes through unchanged: two fields may be named `fragment` and `on`. -/
theorem not_accepted_untouched :
    ¬ ∀ (environment : Environment) (buffer : List Char) (document : Document),
      Document.parse buffer = .ok document → (ofBuffer environment buffer).Untouched := by
  intro h
  have hread : (Document.parse "\x7bfragment on\x7d".toList).isOk = true := by decide +kernel
  cases hparse : Document.parse "\x7bfragment on\x7d".toList with
  | error e =>
    rw [hparse] at hread
    cases hread
  | ok document =>
    have hnone := (h .plain _ document hparse).insertions
    have hone : (ofBuffer .plain "\x7bfragment on\x7d".toList).ledger.insertions = [⟨10, 5⟩] := by
      decide +kernel
    rw [hone] at hnone
    cases hnone

end Extraction
end EmbeddedGraphQL
