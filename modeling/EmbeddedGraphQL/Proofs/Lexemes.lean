import EmbeddedGraphQL.Highlight.Lexeme
import Mathlib

/-!
The shape of lexemes. Each kind of lexeme has its own text, and the text that follows a lexeme
cannot continue it. Lexemes split a text without a rest.
-/
namespace EmbeddedGraphQL.Lexeme
open Text

/-- What a lexeme of each kind looks like, and what can follow it. -/
inductive Shape : LexemeKind → List Char → List Char → Prop
  | lineBreak (after : List Char) : Shape .lineBreak ['\n'] after
  | space {text after : List Char} : (∀ c ∈ text, isSpace c = true) →
      (∀ c ∈ after.head?, isSpace c = false) → Shape .space text after
  | comma (after : List Char) : Shape .comma [','] after
  | comment {body after : List Char} : (∀ c ∈ body, c ≠ '\n') →
      (∀ c ∈ after.head?, c = '\n') → Shape .comment ('#' :: body) after
  | blockString {body after : List Char} : after = [] ∨ body.getLast? = some '"' →
      Shape .blockString ('"' :: '"' :: '"' :: body) after
  | quotedString {body after : List Char} :
      after = [] ∨ after.head? = some '\n' ∨ body.getLast? = some '"' →
      Shape .quotedString ('"' :: body) after
  | spread (after : List Char) : Shape .spread ['.', '.', '.'] after
  | variable {name after : List Char} : (∀ c ∈ name, isNameChar c = true) →
      (∀ c ∈ after.head?, isNameStart c = false) → Shape .variable ('$' :: name) after
  | directive {name after : List Char} : (∀ c ∈ name, isNameChar c = true) →
      (∀ c ∈ after.head?, isNameStart c = false) → Shape .directive ('@' :: name) after
  | punctuator {c : Char} (after : List Char) : isPunctuator c = true →
      Shape .punctuator [c] after
  | number {text after : List Char} :
      (∀ c ∈ text, c.isDigit = true ∨ c ∈ ['.', '-', '+', 'e', 'E']) →
      Shape .number text after
  | name {text after : List Char} : (∀ c ∈ text, isNameChar c = true) →
      (∀ c ∈ after.head?, isNameChar c = false) → Shape .name text after
  | stray {c : Char} (after : List Char) : c ≠ '\n' → isSpace c = false → c ≠ '"' →
      isPunctuator c = false → isNameStart c = false → Shape .stray [c] after

theorem isNameChar_of_isNameStart {c : Char} (h : isNameStart c = true) :
    isNameChar c = true := by
  simp only [isNameStart, isNameChar, Char.isAlphanum, Bool.or_eq_true] at *
  tauto

/-! What a lexeme takes is the start of the text after its first character. -/

theorem nameAt_prefix_text (text : List Char) : nameAt text <+: text := by
  cases text with
  | nil => exact List.prefix_rfl
  | cons c rest =>
    rw [nameAt]
    split_ifs
    · exact List.cons_prefix_cons.mpr ⟨rfl, List.takeWhile_prefix _⟩
    · exact List.nil_prefix

theorem blockBody_prefix_text (text : List Char) : blockBody text <+: text := by
  fun_induction blockBody text with
  | case1 rest => simp
  | case2 c rest _ ih => exact List.cons_prefix_cons.mpr ⟨rfl, ih⟩
  | case3 => exact List.prefix_rfl

theorem quotedBody_prefix_text (text : List Char) : quotedBody text <+: text := by
  fun_induction quotedBody text with
  | case1 => exact List.prefix_rfl
  | case2 => exact List.prefix_rfl
  | case3 c rest ih => simpa using ih
  | case4 rest => simp
  | case5 rest => exact List.nil_prefix
  | case6 c rest _ _ _ _ ih => exact List.cons_prefix_cons.mpr ⟨rfl, ih⟩

theorem fraction_prefix_text (text : List Char) : fraction text <+: text := by
  unfold fraction
  split
  · dsimp only
    split_ifs
    · exact List.nil_prefix
    · exact List.cons_prefix_cons.mpr ⟨rfl, List.takeWhile_prefix _⟩
  · exact List.nil_prefix

theorem exponent_prefix_text (text : List Char) : exponent text <+: text := by
  unfold exponent
  split
  next mark rest =>
    split_ifs
    · dsimp only
      split_ifs
      · exact List.nil_prefix
      · refine List.cons_prefix_cons.mpr ⟨rfl, ?_⟩
        split
        · exact List.cons_prefix_cons.mpr ⟨rfl, List.takeWhile_prefix _⟩
        · exact List.cons_prefix_cons.mpr ⟨rfl, List.takeWhile_prefix _⟩
        · exact List.takeWhile_prefix _
    · exact List.nil_prefix
  next => exact List.nil_prefix

private theorem prefix_append_drop {first second text : List Char} (h : first <+: text)
    (h' : second <+: text.drop first.length) : first ++ second <+: text := by
  obtain ⟨rest, rfl⟩ := h
  rw [List.drop_left] at h'
  exact (List.prefix_append_right_inj first).mpr h'

theorem unsigned_prefix_text (text : List Char) : unsigned text <+: text := by
  unfold unsigned
  dsimp only
  split_ifs
  · exact List.nil_prefix
  · rw [List.append_assoc]
    refine prefix_append_drop ?_
      (prefix_append_drop (fraction_prefix_text _) (exponent_prefix_text _))
    split
    · simp
    · exact List.takeWhile_prefix _

private theorem tail_prefix_text {text rest : List Char} {c : Char} (h : text <+: c :: rest) :
    text.tail <+: rest := by
  cases text with
  | nil => exact List.nil_prefix
  | cons d text => exact (List.cons_prefix_cons.mp h).2

/-! Which characters a lexeme holds, and which can follow it. -/

theorem fraction_all (text : List Char) : ∀ c ∈ fraction text, c.isDigit = true ∨ c = '.' := by
  unfold fraction
  split
  · dsimp only
    split_ifs
    · simp
    · exact List.forall_mem_cons.mpr
        ⟨Or.inr rfl, fun c hc => Or.inl (List.mem_takeWhile_imp hc)⟩
  · simp

theorem exponent_all (text : List Char) :
    ∀ c ∈ exponent text, c.isDigit = true ∨ c ∈ ['-', '+', 'e', 'E'] := by
  unfold exponent
  split
  next mark rest =>
    split_ifs with hmark
    · dsimp only
      split_ifs
      · simp
      · intro c hc
        rcases List.mem_cons.mp hc with rfl | hc
        · exact Or.inr (by simpa using Or.inr (Or.inr hmark))
        · rcases List.mem_append.mp hc with hc | hc
          · refine Or.inr ?_
            split at hc <;> simp_all
          · exact Or.inl (List.mem_takeWhile_imp hc)
    · simp
  next => simp

theorem unsigned_all (text : List Char) :
    ∀ c ∈ unsigned text, c.isDigit = true ∨ c ∈ ['.', '-', '+', 'e', 'E'] := by
  intro c hc
  unfold unsigned at hc
  dsimp only at hc
  split_ifs at hc
  · simp at hc
  · rcases List.mem_append.mp hc with hc | hc
    · rcases List.mem_append.mp hc with hc | hc
      · refine Or.inl ?_
        split at hc
        · simp_all
        · exact List.mem_takeWhile_imp hc
      · rcases fraction_all _ c hc with hc | rfl
        · exact Or.inl hc
        · exact Or.inr (by simp)
    · exact (exponent_all _ c hc).imp_right (List.mem_cons_of_mem _)

private theorem takeWhile_stop (p : Char → Bool) (text : List Char) :
    ∀ c ∈ (text.drop (text.takeWhile p).length).head?, p c = false := by
  induction text with
  | nil => simp
  | cons d rest ih => cases h : p d <;> simp_all

theorem nameAt_all (text : List Char) : ∀ c ∈ nameAt text, isNameChar c = true := by
  cases text with
  | nil => simp [nameAt]
  | cons d rest =>
    intro c hc
    rw [nameAt] at hc
    split_ifs at hc with hd
    · rcases List.mem_cons.mp hc with rfl | hc
      · exact isNameChar_of_isNameStart hd
      · exact List.mem_takeWhile_imp hc
    · simp at hc

theorem nameAt_stop (text : List Char) :
    ∀ c ∈ (text.drop (nameAt text).length).head?, isNameStart c = false := by
  cases text with
  | nil => simp [nameAt]
  | cons d rest =>
    intro c hc
    rw [nameAt] at hc
    split_ifs at hc with hd
    · have hstop := takeWhile_stop isNameChar rest c hc
      by_contra hname
      simp [isNameChar_of_isNameStart (by simpa using hname)] at hstop
    · cases hc
      simpa using hd

theorem blockBody_stop (text : List Char) :
    text.drop (blockBody text).length = [] ∨ (blockBody text).getLast? = some '"' := by
  fun_induction blockBody text with
  | case1 rest => simp
  | case2 c rest _ ih =>
    rcases ih with ih | ih
    · exact Or.inl (by simpa using ih)
    · exact Or.inr (by rw [List.getLast?_cons, ih]; rfl)
  | case3 => simp

theorem quotedBody_stop (text : List Char) :
    text.drop (quotedBody text).length = [] ∨
      (text.drop (quotedBody text).length).head? = some '\n' ∨
      (quotedBody text).getLast? = some '"' := by
  fun_induction quotedBody text with
  | case1 => simp
  | case2 => simp
  | case3 c rest ih =>
    rcases ih with ih | ih | ih
    · exact Or.inl (by simpa using ih)
    · exact Or.inr (Or.inl (by simpa using ih))
    · exact Or.inr (Or.inr (by rw [List.getLast?_cons, List.getLast?_cons, ih]; rfl))
  | case4 rest => simp
  | case5 rest => simp
  | case6 c rest _ _ _ _ ih =>
    rcases ih with ih | ih | ih
    · exact Or.inl (by simpa using ih)
    · exact Or.inr (Or.inl (by simpa using ih))
    · exact Or.inr (Or.inr (by rw [List.getLast?_cons, ih]; rfl))

/-- A lexeme takes the start of the text that follows its first character, and has the shape of its
kind. -/
theorem munch_shape (c : Char) (rest : List Char) :
    (munch c rest).2 <+: rest ∧
      Shape (munch c rest).1 (c :: (munch c rest).2) (rest.drop (munch c rest).2.length) := by
  unfold munch
  by_cases hbreak : c = '\n'
  · rw [if_pos hbreak]
    exact ⟨List.nil_prefix, hbreak ▸ Shape.lineBreak _⟩
  rw [if_neg hbreak]
  by_cases hspace : isSpace c = true
  · rw [if_pos hspace]
    refine ⟨List.takeWhile_prefix _, Shape.space ?_ (takeWhile_stop _ _)⟩
    exact List.forall_mem_cons.mpr ⟨hspace, fun d hd => List.mem_takeWhile_imp hd⟩
  rw [if_neg hspace]
  by_cases hcomma : c = ','
  · rw [if_pos hcomma]
    exact ⟨List.nil_prefix, hcomma ▸ Shape.comma _⟩
  rw [if_neg hcomma]
  by_cases hcomment : c = '#'
  · rw [if_pos hcomment]
    subst hcomment
    refine ⟨List.takeWhile_prefix _, Shape.comment (fun d hd => ?_) fun d hd => ?_⟩
    · simpa using List.mem_takeWhile_imp hd
    · simpa using takeWhile_stop _ _ d hd
  rw [if_neg hcomment]
  by_cases hquote : c = '"'
  · rw [if_pos hquote]
    subst hquote
    split
    next body =>
      refine ⟨by simpa using blockBody_prefix_text body, Shape.blockString ?_⟩
      simpa using blockBody_stop body
    next => exact ⟨quotedBody_prefix_text _, Shape.quotedString (quotedBody_stop _)⟩
  rw [if_neg hquote]
  by_cases hspread : c = '.' ∧ ['.', '.'].isPrefixOf rest = true
  · rw [if_pos hspread]
    exact ⟨List.isPrefixOf_iff_prefix.mp hspread.2, hspread.1 ▸ Shape.spread _⟩
  rw [if_neg hspread]
  by_cases hvariable : c = '$'
  · rw [if_pos hvariable]
    exact ⟨nameAt_prefix_text _, hvariable ▸ Shape.variable (nameAt_all _) (nameAt_stop _)⟩
  rw [if_neg hvariable]
  by_cases hdirective : c = '@'
  · rw [if_pos hdirective]
    exact ⟨nameAt_prefix_text _, hdirective ▸ Shape.directive (nameAt_all _) (nameAt_stop _)⟩
  rw [if_neg hdirective]
  by_cases hpunctuator : isPunctuator c = true
  · rw [if_pos hpunctuator]
    exact ⟨List.nil_prefix, Shape.punctuator _ hpunctuator⟩
  rw [if_neg hpunctuator]
  have hstray (hname : isNameStart c = false) (after : List Char) : Shape .stray [c] after :=
    Shape.stray _ hbreak (by simpa using hspace) hquote (by simpa using hpunctuator) hname
  by_cases hminus : c = '-'
  · rw [if_pos hminus]
    dsimp only
    split
    · exact ⟨List.nil_prefix, hstray (by rw [hminus]; decide) _⟩
    · refine ⟨unsigned_prefix_text _, Shape.number ?_⟩
      exact List.forall_mem_cons.mpr ⟨Or.inr (by simp [hminus]), unsigned_all _⟩
  rw [if_neg hminus]
  by_cases hdigit : c.isDigit = true
  · rw [if_pos hdigit]
    refine ⟨tail_prefix_text (unsigned_prefix_text _), Shape.number ?_⟩
    exact List.forall_mem_cons.mpr
      ⟨Or.inl hdigit, fun d hd => unsigned_all _ d (List.mem_of_mem_tail hd)⟩
  rw [if_neg hdigit]
  by_cases hname : isNameStart c = true
  · rw [if_pos hname]
    refine ⟨List.takeWhile_prefix _, Shape.name ?_ (takeWhile_stop _ _)⟩
    exact List.forall_mem_cons.mpr
      ⟨isNameChar_of_isNameStart hname, fun d hd => List.mem_takeWhile_imp hd⟩
  · rw [if_neg hname]
    exact ⟨List.nil_prefix, hstray (by simpa using hname) _⟩

@[simp] theorem split_nil : split [] = [] := by rw [split]

/-- The first lexeme of a text is followed by the lexemes of what it leaves. -/
theorem split_of_ne_nil {text : List Char} (h : text ≠ []) :
    ∃ l after, split text = (l, after) :: split after ∧ text = l.text ++ after ∧
      l.text ≠ [] ∧ Shape l.kind l.text after := by
  cases text with
  | nil => exact absurd rfl h
  | cons c rest =>
    obtain ⟨⟨after, hafter⟩, hshape⟩ := munch_shape c rest
    have hdrop : ((munch c rest).2 ++ after).drop (munch c rest).2.length = after :=
      List.drop_left
    rw [hafter] at hdrop
    refine ⟨⟨(munch c rest).1, c :: (munch c rest).2⟩, after, ?_, ?_, List.cons_ne_nil _ _, ?_⟩
    · rw [split]
      dsimp only
      rw [hdrop]
    · rw [List.cons_append, hafter]
    · rwa [hdrop] at hshape

/-- Induction along the lexemes of a text. -/
theorem split_induction {motive : List Char → List (Lexeme × List Char) → Prop}
    (nil : motive [] [])
    (cons : ∀ l after, l.text ≠ [] → Shape l.kind l.text after → motive after (split after) →
      motive (l.text ++ after) ((l, after) :: split after))
    (text : List Char) : motive text (split text) := by
  induction hn : text.length using Nat.strong_induction_on generalizing text with
  | _ n ih =>
    by_cases h : text = []
    · rw [h, split_nil]
      exact nil
    · obtain ⟨l, after, hsplit, rfl, hne, hshape⟩ := split_of_ne_nil h
      rw [hsplit]
      have hpos := List.length_pos_iff.mpr hne
      rw [List.length_append] at hn
      exact cons l after hne hshape (ih after.length (by omega) after rfl)

theorem split_shape (text : List Char) :
    ∀ l ∈ split text, Shape l.1.kind l.1.text l.2 := by
  apply split_induction (motive := fun _ lexemes => ∀ l ∈ lexemes, Shape l.1.kind l.1.text l.2)
  · exact List.forall_mem_nil _
  · exact fun l after _ hshape ih => List.forall_mem_cons.mpr ⟨hshape, ih⟩

theorem split_of_munch {c : Char} {kind : LexemeKind} {piece after : List Char}
    (h : munch c (piece ++ after) = (kind, piece)) :
    split (c :: (piece ++ after)) = (⟨kind, c :: piece⟩, after) :: split after := by
  rw [split, h]
  dsimp only
  rw [List.drop_left]

/-- A lexeme of one character. -/
theorem split_alone {c : Char} {kind : LexemeKind} {after : List Char}
    (h : munch c after = (kind, [])) :
    split (c :: after) = (⟨kind, [c]⟩, after) :: split after := by
  rw [← List.nil_append after] at h
  exact split_of_munch h

theorem munch_space {c : Char} (hc : isSpace c = true) (rest : List Char) :
    munch c rest = (.space, rest.takeWhile isSpace) := by
  have hne : c ≠ '\n' := by
    rintro rfl
    exact absurd hc (by decide)
  unfold munch
  rw [if_neg hne, if_pos hc]

theorem split_space {c : Char} (hc : isSpace c = true) (text : List Char) :
    split (c :: text) = (⟨.space, c :: text.takeWhile isSpace⟩, text.dropWhile isSpace) ::
      split (text.dropWhile isSpace) := by
  have hsplit : text.takeWhile isSpace ++ text.dropWhile isSpace = text :=
    List.takeWhile_append_dropWhile
  have hmunch : munch c (text.takeWhile isSpace ++ text.dropWhile isSpace) =
      (.space, text.takeWhile isSpace) := by
    rw [hsplit, munch_space hc]
  have h := split_of_munch hmunch
  rwa [hsplit] at h

/-- The lexemes of a text that mean something to the grammar. -/
def telling (text : List Char) : List (Lexeme × List Char) :=
  (split text).filter fun l => !l.1.isIgnored

theorem telling_of_munch {c : Char} {kind : LexemeKind} {piece after : List Char}
    (h : munch c (piece ++ after) = (kind, piece)) :
    telling (c :: (piece ++ after)) =
      if isIgnored ⟨kind, c :: piece⟩ then telling after
      else (⟨kind, c :: piece⟩, after) :: telling after := by
  unfold telling
  rw [split_of_munch h, List.filter_cons]
  cases isIgnored ⟨kind, c :: piece⟩ <;> rfl

/-- A blank tells nothing. -/
theorem telling_blank {c : Char} (hc : isSpace c = true ∨ c = ',' ∨ c = '\n') (text : List Char) :
    telling (c :: text) = telling text := by
  rcases hc with hspace | rfl | rfl
  · have hrun {d : Char} (hd : isSpace d = true) (text : List Char) :
        telling (d :: text) = telling (text.dropWhile isSpace) := by
      unfold telling
      rw [split_space hd]
      rfl
    rw [hrun hspace]
    cases text with
    | nil => rfl
    | cons d text =>
      by_cases hd : isSpace d = true
      · rw [List.dropWhile_cons_of_pos hd, hrun hd]
      · rw [List.dropWhile_cons_of_neg hd]
  · have hmunch : munch ',' ([] ++ text) = (.comma, []) := rfl
    exact telling_of_munch hmunch
  · have hmunch : munch '\n' ([] ++ text) = (.lineBreak, []) := rfl
    exact telling_of_munch hmunch

/-- A comment tells nothing. It goes on up to a line feed. -/
theorem telling_comment {body after : List Char} (hbody : ∀ c ∈ body, c ≠ '\n')
    (hafter : ∀ c ∈ after.head?, c = '\n') : telling ('#' :: (body ++ after)) = telling after := by
  have htaken : (body ++ after).takeWhile (fun c => decide (c ≠ '\n')) = body := by
    rw [List.takeWhile_append_of_pos (by simpa using hbody)]
    cases after with
    | nil => simp
    | cons c after => simp [hafter c rfl]
  have hmunch : munch '#' (body ++ after) = (.comment, body) := by
    change (LexemeKind.comment, _) = _
    rw [htaken]
  exact telling_of_munch hmunch

end EmbeddedGraphQL.Lexeme
