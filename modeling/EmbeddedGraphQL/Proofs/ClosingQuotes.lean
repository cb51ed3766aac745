import EmbeddedGraphQL.Proofs.CutTexts
import EmbeddedGraphQL.Proofs.Tiling
import Mathlib

/-!
Closing quotes of strings. A backslash takes the next character along, so the quote at the end of a
string closes it just when an even number of backslashes stands right before it; a string that is
not closed is cut off by the end of its line or of the text. The tokens of a string have a closing
quote only where there is no backslash at all before it.
-/
namespace EmbeddedGraphQL

namespace Lexeme

/-- The number of backslashes at the end of a text. -/
def trailingBackslashes (text : List Char) : Nat := (text.reverse.takeWhile (· == '\\')).length

/-- Whether a string ends with a quote that closes it: one that is not the first character, with an
even number of backslashes right before it. -/
def IsTerminated (text : List Char) : Prop :=
  1 < text.length ∧ text.getLast? = some '"' ∧ Even (trailingBackslashes text.dropLast)

instance (text : List Char) : Decidable (IsTerminated text) :=
  inferInstanceAs (Decidable (_ ∧ _ ∧ _))

theorem trailingBackslashes_le (text : List Char) : trailingBackslashes text ≤ text.length := by
  have hle := (List.takeWhile_prefix (l := text.reverse) (· == '\\')).length_le
  rwa [List.length_reverse] at hle

/-- Another backslash in front counts just where nothing else stands behind it. -/
theorem trailingBackslashes_cons (c : Char) (text : List Char) :
    trailingBackslashes (c :: text) =
      if trailingBackslashes text = text.length ∧ c = '\\' then text.length + 1
      else trailingBackslashes text := by
  unfold trailingBackslashes
  rw [List.reverse_cons, List.takeWhile_append, List.length_reverse]
  split_ifs with hall hboth hboth
  · simp [hboth.2]
  · have hc : c ≠ '\\' := fun hc => hboth ⟨hall, hc⟩
    simp [hc, hall]
  · exact absurd hboth.1 hall
  · rfl

theorem trailingBackslashes_cons_of_ne {c : Char} (hc : c ≠ '\\') (text : List Char) :
    trailingBackslashes (c :: text) = trailingBackslashes text := by
  rw [trailingBackslashes_cons, if_neg fun h => hc h.2]

/-- A character that a backslash takes along does not change whether the number of backslashes at
the end is even. -/
theorem even_trailingBackslashes_escape {text : List Char} (c : Char)
    (h : Even (trailingBackslashes text)) : Even (trailingBackslashes ('\\' :: c :: text)) := by
  have hle := trailingBackslashes_le text
  rw [trailingBackslashes_cons]
  by_cases hall : trailingBackslashes text = text.length ∧ c = '\\'
  · rw [trailingBackslashes_cons c, if_pos hall, if_pos ⟨List.length_cons.symm, rfl⟩,
      List.length_cons, Nat.even_add_one, Nat.even_add_one, not_not]
    exact hall.1 ▸ h
  · rw [trailingBackslashes_cons c, if_neg hall, List.length_cons, if_neg (by omega)]
    exact h

/-- The rest of a string ends with its closing quote, unless the text or the line ends first. -/
theorem quotedBody_cases (text : List Char) :
    text.drop (quotedBody text).length = [] ∨
      (text.drop (quotedBody text).length).head? = some '\n' ∨
      ∃ content, quotedBody text = content ++ ['"'] ∧ Even (trailingBackslashes content) := by
  fun_induction quotedBody text with
  | case1 => exact Or.inl rfl
  | case2 => exact Or.inl rfl
  | case3 c rest ih =>
    obtain hend | hbreak | ⟨content, hcontent, heven⟩ := ih
    · exact Or.inl (by simpa using hend)
    · exact Or.inr (Or.inl (by simpa using hbreak))
    · refine Or.inr (Or.inr ⟨'\\' :: c :: content, by rw [hcontent]; rfl, ?_⟩)
      exact even_trailingBackslashes_escape c heven
  | case4 rest => exact Or.inr (Or.inr ⟨[], rfl, Even.zero⟩)
  | case5 rest => exact Or.inr (Or.inl rfl)
  | case6 c rest hlast hback _ _ ih =>
    have hc : c ≠ '\\' := by
      rintro rfl
      cases rest with
      | nil => exact hlast rfl rfl
      | cons d rest => exact hback d rest rfl rfl
    obtain hend | hbreak | ⟨content, hcontent, heven⟩ := ih
    · exact Or.inl (by simpa using hend)
    · exact Or.inr (Or.inl (by simpa using hbreak))
    · refine Or.inr (Or.inr ⟨c :: content, by rw [hcontent]; rfl, ?_⟩)
      rwa [trailingBackslashes_cons_of_ne hc]

/-- A string is its opening quote and what is taken of the text behind it. -/
theorem munch_quotedString {c : Char} {rest : List Char} (h : (munch c rest).1 = .quotedString) :
    c = '"' ∧ (munch c rest).2 = quotedBody rest := by
  have hshape := (munch_shape c rest).2
  rw [h] at hshape
  cases hshape with
  | quotedString =>
    refine ⟨rfl, ?_⟩
    simp only [munch, isSpace, Char.reduceEq, Char.reduceBEq, Bool.or_self, Bool.false_eq_true,
      if_false, if_true] at h ⊢
    split at h
    · cases h
    · rfl

/-- The strings of a text, with what follows them. -/
theorem exists_quotedBody (text : List Char) :
    ∀ l ∈ split text, l.1.kind = .quotedString →
      ∃ rest, l.1.text = '"' :: quotedBody rest ∧ l.2 = rest.drop (quotedBody rest).length := by
  fun_induction split text with
  | case1 => exact fun _ hl => absurd hl List.not_mem_nil
  | case2 c rest kind taken hmunch after ih =>
    refine List.forall_mem_cons.mpr ⟨fun hkind => ?_, ih⟩
    have hfirst : (munch c rest).1 = .quotedString := by rwa [hmunch]
    obtain ⟨rfl, htaken⟩ := munch_quotedString hfirst
    rw [hmunch] at htaken
    obtain rfl : taken = quotedBody rest := htaken
    exact ⟨rest, rfl, rfl⟩

/-- A string that is not closed is cut off by the end of the text or of the line. -/
theorem isTerminated_or_cut {text : List Char} {l : Lexeme × List Char} (hl : l ∈ split text)
    (hkind : l.1.kind = .quotedString) :
    IsTerminated l.1.text ∨ l.2 = [] ∨ l.2.head? = some '\n' := by
  obtain ⟨rest, htext, hafter⟩ := exists_quotedBody text l hl hkind
  rw [htext, hafter]
  obtain hend | hbreak | ⟨content, hcontent, heven⟩ := quotedBody_cases rest
  · exact Or.inr (Or.inl hend)
  · exact Or.inr (Or.inr hbreak)
  · left
    rw [hcontent]
    refine ⟨by simp, by simp [List.getLast?_cons], ?_⟩
    rwa [← List.cons_append, List.dropLast_concat, trailingBackslashes_cons_of_ne (by decide)]

end Lexeme

namespace Highlight
open Lexeme (split placed placeIn stopIn trailingBackslashes IsTerminated)

/-- A string is given a closing quote when it ends with a quote that has no backslash before it. -/
theorem isClosed_iff (text : List Char) : isClosed text = true ↔
    1 < text.length ∧ text.getLast? = some '"' ∧ trailingBackslashes text.dropLast = 0 := by
  obtain ⟨reversed, rfl⟩ : ∃ reversed : List Char, text = reversed.reverse :=
    ⟨text.reverse, text.reverse_reverse.symm⟩
  rw [isClosed, trailingBackslashes, ← List.tail_reverse, List.reverse_reverse,
    List.length_reverse, List.getLast?_reverse]
  match reversed with
  | [] => simp
  | [c] => simp
  | c :: d :: rest =>
    by_cases hc : c = '"'
    · subst hc
      by_cases hd : d = '\\' <;> simp [hd]
    · simp [hc]

/-- The tokens of a lexeme stand together among the tokens of the text, and tile its place. -/
theorem exists_lexemeTokens {buffer : List Char} {l : Lexeme × List Char}
    (hl : l ∈ split buffer) :
    ∃ s : GrammarState, let read := s.read l.1 (Lexeme.ahead l.2)
      let tokens := lexemeTokens read.1 read.2 (placeIn buffer l).start l.1
      tokens <:+: tokenize buffer ∧
        Tiles buffer (placeIn buffer l).start (placeIn buffer l).stop tokens := by
  obtain ⟨done, more, hsplit⟩ := List.append_of_mem hl
  obtain ⟨behind, htext, hrest, -, -⟩ := Lexeme.split_append hsplit
  obtain ⟨hbehind, -, -⟩ := Lexeme.split_cons hrest.symm
  have hbuffer : buffer = done.flatMap (·.1.text) ++ (l.1.text ++ l.2) :=
    htext.trans (by rw [hbehind])
  have hlength := congrArg List.length hbuffer
  simp only [List.length_append] at hlength
  have hstop : (placeIn buffer l).stop =
      (done.flatMap (·.1.text)).length + l.1.text.length := by
    change buffer.length - l.2.length = _
    omega
  have hstart : (placeIn buffer l).start = (done.flatMap (·.1.text)).length := by
    change buffer.length - l.2.length - l.1.text.length = _
    omega
  refine ⟨GrammarState.initial.readAll done, ?_, ?_⟩
  · rw [hstart, tokenize, hsplit, tokensFrom_append, Nat.zero_add, tokensFrom]
    exact ⟨_, _, (List.append_assoc ..)⟩
  · have hpos := (Lexeme.length_of_mem_split buffer l hl).1
    have hstyle (hkind : l.1.kind = .space) :
        ((GrammarState.initial.readAll done).read l.1 (Lexeme.ahead l.2)).2 = .blank := by
      simp [GrammarState.read, hkind]
    have htiles := (lexemeTokens_tiles (List.length_pos_iff.mp hpos)
      (Lexeme.split_shape buffer l hl) (done.flatMap (·.1.text))
      ((GrammarState.initial.readAll done).read l.1 (Lexeme.ahead l.2)).1 hstyle).1
    rwa [← hbuffer, ← hstop, ← hstart] at htiles

/-- The tokens of a string at its place: the opening quote, what the string holds if that is
anything, and the closing quote if it is given one. -/
structure QuotedParts (buffer : List Char) (p : Lexeme.Placed) (opening : Token)
    (content closing : Option Token) : Prop where
  consecutive : opening :: (content.toList ++ closing.toList) <:+: tokenize buffer
  tiles : Tiles buffer p.start p.stop (opening :: (content.toList ++ closing.toList))
  opening_eq : opening.style = .openQuote ∧ opening.text = ['"']
  content_style : ∀ token ∈ content, token.style = .string
  closing_eq : ∀ token ∈ closing, token.style = .closeQuote ∧ token.text = ['"']

/-- A string is split into its quotes and its content. -/
theorem exists_splitQuoted (token : Token) : ∃ (opening : Token) (content closing : Option Token),
    splitQuoted token = opening :: (content.toList ++ closing.toList) ∧
      (opening.style = .openQuote ∧ opening.text = ['"']) ∧
      (∀ part ∈ content, part.style = token.style) ∧
      (∀ part ∈ closing, part.style = .closeQuote ∧ part.text = ['"']) ∧
      (closing.isSome = isClosed token.text) := by
  unfold splitQuoted
  dsimp only
  generalize (if isClosed token.text = true then token.text.tail.dropLast else token.text.tail) =
    text
  generalize (if isClosed token.text = true then token.stop - 1 else token.stop) = stop
  refine ⟨{ token with style := .openQuote, text := ['"'], stop := token.start + 1 },
    if token.start + 1 < stop then
      some { token with text := text, start := token.start + 1, stop := stop } else none,
    if isClosed token.text then
      some { token with style := .closeQuote, text := ['"'], start := token.stop - 1 } else none,
    ?_, ⟨rfl, rfl⟩, ?_, ?_, ?_⟩
  · split_ifs <;> rfl
  · intro part hpart
    split_ifs at hpart
    · cases hpart
      rfl
    · cases hpart
  · intro part hpart
    split_ifs at hpart
    · cases hpart
      exact ⟨rfl, rfl⟩
    · cases hpart
  · split_ifs with hclosed <;> simp [hclosed]

/-- A string is tiled by its quotes and its content, and it has a closing quote just when it is
closed and what stands before its last quote does not end with a backslash. If it is not closed, the
text or the line ends behind it. -/
theorem quoted_parts (buffer : List Char) {p : Lexeme.Placed} (hp : p ∈ placed buffer)
    (hkind : p.lexeme.kind = .quotedString) :
    (∃ opening content closing, QuotedParts buffer p opening content closing ∧
      (closing.isSome = true ↔
        IsTerminated p.lexeme.text ∧ trailingBackslashes p.lexeme.text.dropLast = 0)) ∧
    (IsTerminated p.lexeme.text ∨ p.stop = buffer.length ∨ buffer[p.stop]? = some '\n') := by
  obtain ⟨l, hl, rfl⟩ := List.mem_map.mp hp
  replace hkind : l.1.kind = .quotedString := hkind
  constructor
  · obtain ⟨s, hstand, htiles⟩ := exists_lexemeTokens hl
    have hread : s.read l.1 (Lexeme.ahead l.2) = (s.afterValue, .string) := by
      simp [GrammarState.read, hkind]
    have htokens (start : Nat) : lexemeTokens s.afterValue .string start l.1 =
        splitQuoted ⟨l.1.text, .string, start, (start + l.1.text.length : Nat),
          some s.afterValue.scope, some s.afterValue.kindName⟩ := by
      rw [lexemeTokens, if_neg (by rw [hkind]; decide), if_pos hkind]
    simp only [hread, htokens] at hstand htiles
    obtain ⟨opening, content, closing, hparts, hopening, hcontent, hclosing, hsome⟩ :=
      exists_splitQuoted _
    rw [hparts] at hstand htiles
    refine ⟨opening, content, closing, ⟨hstand, htiles, hopening, hcontent, hclosing⟩, ?_⟩
    rw [hsome, isClosed_iff]
    constructor
    · rintro ⟨hlength, hlast, hzero⟩
      exact ⟨⟨hlength, hlast, hzero ▸ Even.zero⟩, hzero⟩
    · rintro ⟨⟨hlength, hlast, -⟩, hzero⟩
      exact ⟨hlength, hlast, hzero⟩
  · have hsuffix := List.suffix_iff_eq_drop.mp (Lexeme.split_suffix buffer l hl)
    refine (Lexeme.isTerminated_or_cut hl hkind).imp_right (Or.imp ?_ ?_)
    · intro hend
      change buffer.length - l.2.length = _
      rw [hend, List.length_nil, Nat.sub_zero]
    · intro hbreak
      rw [hsuffix, List.head?_drop] at hbreak
      exact hbreak

/-- A string that holds a quote behind a backslash. -/
theorem quoted_parts_escaped :
    let buffer := "\"a\\\"\"\n".toList
    let p : Lexeme.Placed := ⟨⟨.quotedString, "\"a\\\"\"".toList⟩, 0, 5⟩
    p ∈ placed buffer ∧ ∃ opening content closing,
      QuotedParts buffer p opening content closing ∧ closing.isSome = true := by
  intro buffer p
  have hp : p ∈ placed buffer := by decide +kernel
  obtain ⟨⟨opening, content, closing, hparts, hclosing⟩, -⟩ := quoted_parts buffer hp rfl
  exact ⟨hp, opening, content, closing, hparts, hclosing.mpr (by decide +kernel)⟩

/-- A string that holds one escaped backslash is closed, but none of its tokens is a closing
quote. -/
theorem escaped_backslash_unclosed :
    let buffer := "\"\\\\\"".toList
    (∃ p ∈ placed buffer, p.lexeme.kind = .quotedString ∧ IsTerminated p.lexeme.text) ∧
      ∀ token ∈ tokenize buffer, token.style ≠ .closeQuote := by
  decide +kernel

end Highlight
end EmbeddedGraphQL
