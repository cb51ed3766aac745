import EmbeddedGraphQL.Proofs.Agreement
import Mathlib

/-!
How far a lexeme looks. What a lexeme takes of a text is settled by the characters it takes: however
much of the text behind them is there, it takes the same.
-/
namespace EmbeddedGraphQL.Lexeme

/-- A reading that takes the same piece of a text however little of what comes behind is there. -/
def Settles (reading : List Char → List Char) : Prop :=
  ∀ text, ∃ rest, text = reading text ++ rest ∧ Takes reading (reading text) rest

theorem Settles.cut {reading : List Char → List Char} (h : Settles reading) {text cut : List Char}
    (hcut : reading text ++ cut <+: text) : reading (reading text ++ cut) = reading text := by
  obtain ⟨rest, htext, htakes⟩ := h text
  apply htakes
  apply (List.prefix_append_right_inj (reading text)).mp
  rwa [← htext]

theorem nil_settles : Settles fun _ => [] := by
  intro text
  exact ⟨text, rfl, fun cut hcut => rfl⟩

theorem takeWhile_settles (p : Char → Bool) : Settles (List.takeWhile p) := by
  intro text
  obtain ⟨rest, htext, -, hrest⟩ := takeWhile_split p text
  exact ⟨rest, htext, takes_takeWhile (fun c hc => List.mem_takeWhile_imp hc) hrest⟩

/-- Where nothing is taken of a text, nothing is taken of a part of it. -/
theorem takeWhile_eq_nil_of_cut {p : Char → Bool} {cut text : List Char} (h : cut <+: text)
    (htext : text.takeWhile p = []) : cut.takeWhile p = [] := by
  cases cut with
  | nil => rfl
  | cons c cut =>
    obtain ⟨more, rfl⟩ := h
    simpa using htext

theorem nameAt_settles : Settles nameAt := by
  intro text
  cases text with
  | nil => exact ⟨[], rfl, fun cut hcut => by rw [List.prefix_nil.mp hcut]; rfl⟩
  | cons c text =>
    by_cases hc : isNameStart c = true
    · obtain ⟨rest, htext, htakes⟩ := takeWhile_settles Text.isNameChar text
      have hname (tail : List Char) : nameAt (c :: tail) = c :: tail.takeWhile Text.isNameChar :=
        if_pos hc
      refine ⟨rest, ?_, ?_⟩
      · rw [hname, List.cons_append, ← htext]
      · intro cut hcut
        rw [hname, List.cons_append, hname, htakes cut hcut]
    · have hname (tail : List Char) : nameAt (c :: tail) = [] := if_neg hc
      refine ⟨c :: text, by rw [hname, List.nil_append], ?_⟩
      intro cut hcut
      rw [hname, List.nil_append]
      cases cut with
      | nil => rfl
      | cons d cut => rw [(List.cons_prefix_cons.mp hcut).1, hname]

theorem blockBody_settles : Settles blockBody := by
  intro text
  fun_induction blockBody text with
  | case1 rest => exact ⟨rest, rfl, fun cut hcut => rfl⟩
  | case2 c text hquotes ih =>
    obtain ⟨rest, htext, htakes⟩ := ih
    refine ⟨rest, by rw [List.cons_append, ← htext], Symbol.takes_blockBody_cons ?_ htakes⟩
    intro tail heq
    rw [← htext] at heq
    injection heq with hc htail
    exact hquotes tail hc htail
  | case3 => exact ⟨[], rfl, fun cut hcut => by rw [List.prefix_nil.mp hcut]; rfl⟩

theorem quotedBody_settles : Settles quotedBody := by
  intro text
  fun_induction quotedBody text with
  | case1 => exact ⟨[], rfl, fun cut hcut => by rw [List.prefix_nil.mp hcut]; rfl⟩
  | case2 => exact ⟨[], rfl, fun cut hcut => by rw [List.prefix_nil.mp hcut]; rfl⟩
  | case3 c text ih =>
    obtain ⟨rest, htext, htakes⟩ := ih
    refine ⟨rest, by rw [List.cons_append, List.cons_append, ← htext], ?_⟩
    intro cut hcut
    have hstep := htakes cut hcut
    simp only [List.cons_append]
    rw [quotedBody, hstep]
  | case4 text => exact ⟨text, rfl, fun cut hcut => rfl⟩
  | case5 text =>
    refine ⟨'\n' :: text, rfl, ?_⟩
    intro cut hcut
    cases cut with
    | nil => rfl
    | cons d cut =>
      rw [(List.cons_prefix_cons.mp hcut).1]
      rfl
  | case6 c text hlast hback hquote hbreak ih =>
    obtain ⟨rest, htext, htakes⟩ := ih
    refine ⟨rest, by rw [List.cons_append, ← htext], ?_⟩
    intro cut hcut
    have hc : c ≠ '\\' := by
      rintro rfl
      cases text with
      | nil => exact hlast rfl rfl
      | cons d text => exact hback d text rfl rfl
    rw [List.cons_append, Symbol.quotedBody_of_ordinary ⟨hquote, hc, hbreak⟩, htakes cut hcut]

theorem wholeDigits_settles : Settles wholeDigits := by
  intro text
  by_cases hzero : ∃ tail, text = '0' :: tail
  · obtain ⟨tail, rfl⟩ := hzero
    exact ⟨tail, rfl, fun cut hcut => rfl⟩
  · have hdigits {cut : List Char} (hcut : cut <+: text) :
        wholeDigits cut = cut.takeWhile Char.isDigit := by
      unfold wholeDigits
      split
      next tail =>
        obtain ⟨more, rfl⟩ := hcut
        exact absurd ⟨tail ++ more, rfl⟩ hzero
      next => rfl
    obtain ⟨rest, htext, htakes⟩ := takeWhile_settles Char.isDigit text
    rw [hdigits List.prefix_rfl]
    refine ⟨rest, htext, ?_⟩
    intro cut hcut
    have hpart : text.takeWhile Char.isDigit ++ cut <+: text := by
      obtain ⟨more, rfl⟩ := hcut
      exact ⟨more, by rw [List.append_assoc, ← htext]⟩
    rw [hdigits hpart, htakes cut hcut]

theorem fraction_point (text : List Char) :
    fraction ('.' :: text) =
      if text.takeWhile Char.isDigit = [] then [] else '.' :: text.takeWhile Char.isDigit := by
  simp [fraction]

theorem fraction_of_cut {cut text : List Char} (h : cut <+: text) (htext : fraction text = []) :
    fraction cut = [] := by
  unfold fraction
  split
  next digits =>
    obtain ⟨more, rfl⟩ := h
    rw [List.cons_append, fraction_point] at htext
    have hnone : (digits ++ more).takeWhile Char.isDigit = [] := by
      by_contra hsome
      rw [if_neg hsome] at htext
      cases htext
    simp [takeWhile_eq_nil_of_cut (List.prefix_append digits more) hnone]
  next => rfl

theorem fraction_settles : Settles fraction := by
  intro text
  by_cases hnone : fraction text = []
  · rw [hnone]
    exact ⟨text, rfl, fun cut hcut => fraction_of_cut hcut hnone⟩
  · obtain ⟨digits, rfl⟩ : ∃ digits, text = '.' :: digits := by
      unfold fraction at hnone
      split at hnone
      next digits => exact ⟨digits, rfl⟩
      next => exact absurd rfl hnone
    obtain ⟨rest, htext, htakes⟩ := takeWhile_settles Char.isDigit digits
    have hsome : digits.takeWhile Char.isDigit ≠ [] := by
      intro heq
      exact hnone (by rw [fraction_point, if_pos heq])
    rw [fraction_point, if_neg hsome]
    refine ⟨rest, by rw [List.cons_append, ← htext], ?_⟩
    intro cut hcut
    rw [List.cons_append, fraction_point, htakes cut hcut, if_neg hsome]

/-- The digits of an exponent behind its mark. -/
def powerDigits (text : List Char) : List Char :=
  (text.drop (Symbol.signAt text).length).takeWhile Char.isDigit

theorem exponent_marked {mark : Char} (hmark : mark = 'e' ∨ mark = 'E') (text : List Char) :
    exponent (mark :: text) =
      if powerDigits text = [] then [] else mark :: (Symbol.signAt text ++ powerDigits text) := by
  rw [Symbol.exponent_of_mark hmark]
  simp [powerDigits]

theorem signAt_of_cut {c : Char} {cut text : List Char} (h : c :: cut <+: text) :
    Symbol.signAt text = Symbol.signAt (c :: cut) := by
  obtain ⟨more, rfl⟩ := h
  rw [List.cons_append]
  by_cases hplus : c = '+'
  · subst hplus
    rfl
  by_cases hminus : c = '-'
  · subst hminus
    rfl
  simp [Symbol.signAt, hplus, hminus]

theorem powerDigits_of_cut {cut text : List Char} (h : cut <+: text)
    (htext : powerDigits text = []) : powerDigits cut = [] := by
  cases cut with
  | nil => rfl
  | cons c cut =>
    unfold powerDigits at htext ⊢
    rw [signAt_of_cut h] at htext
    exact takeWhile_eq_nil_of_cut (h.drop _) htext

theorem exponent_of_cut {cut text : List Char} (h : cut <+: text) (htext : exponent text = []) :
    exponent cut = [] := by
  cases cut with
  | nil => rfl
  | cons mark cut =>
    obtain ⟨more, rfl⟩ := h
    by_cases hmark : mark = 'e' ∨ mark = 'E'
    · rw [List.cons_append, exponent_marked hmark] at htext
      have hnone : powerDigits (cut ++ more) = [] := by
        by_contra hsome
        rw [if_neg hsome] at htext
        cases htext
      rw [exponent_marked hmark, if_pos (powerDigits_of_cut (List.prefix_append cut more) hnone)]
    · simp [exponent, hmark]

theorem exponent_settles : Settles exponent := by
  intro text
  by_cases hnone : exponent text = []
  · rw [hnone]
    exact ⟨text, rfl, fun cut hcut => exponent_of_cut hcut hnone⟩
  · cases text with
    | nil => exact absurd rfl hnone
    | cons mark text =>
      have hmark : mark = 'e' ∨ mark = 'E' := by
        by_contra hmark
        exact hnone (by simp [exponent, hmark])
      have hsome : powerDigits text ≠ [] := by
        intro heq
        exact hnone (by rw [exponent_marked hmark, if_pos heq])
      obtain ⟨rest, htext, htakes⟩ :=
        takeWhile_settles Char.isDigit (text.drop (Symbol.signAt text).length)
      have hall : ∀ c ∈ powerDigits text, c.isDigit = true := fun c hc => List.mem_takeWhile_imp hc
      rw [exponent_marked hmark, if_neg hsome]
      refine ⟨rest, ?_, ?_⟩
      · rw [List.cons_append, List.append_assoc]
        congr 1
        conv_lhs => rw [Symbol.signAt_split text, htext]
        rfl
      · intro cut hcut
        have hpower : powerDigits (Symbol.signAt text ++ (powerDigits text ++ cut)) =
            powerDigits text := by
          change ((Symbol.signAt text ++ (powerDigits text ++ cut)).drop
            (Symbol.signAt (Symbol.signAt text ++ (powerDigits text ++ cut))).length).takeWhile
              Char.isDigit = _
          rw [Symbol.signAt_append hsome hall, List.drop_left]
          exact htakes cut hcut
        rw [List.cons_append, List.append_assoc, exponent_marked hmark, hpower, if_neg hsome,
          Symbol.signAt_append hsome hall]

theorem unsigned_settles : Settles unsigned := by
  intro text
  obtain ⟨afterWhole, hwhole, htakesWhole⟩ := wholeDigits_settles text
  by_cases hnone : wholeDigits text = []
  · have hunsigned {cut : List Char} (hcut : cut <+: text) : unsigned cut = [] := by
      rw [hnone, List.nil_append] at hwhole
      rw [hnone, ← hwhole] at htakesWhole
      rw [unsigned_eq, if_pos]
      simpa using htakesWhole cut hcut
    rw [hunsigned List.prefix_rfl]
    exact ⟨text, rfl, fun cut hcut => hunsigned hcut⟩
  · obtain ⟨afterPart, hpart, htakesPart⟩ := fraction_settles afterWhole
    obtain ⟨rest, hpower, htakesPower⟩ := exponent_settles afterPart
    rw [hpower] at hpart htakesPart
    rw [hpart] at hwhole htakesWhole
    have htakes := takes_unsigned hnone htakesWhole htakesPart htakesPower
    have hunsigned := htakes rest List.prefix_rfl
    rw [List.append_assoc, List.append_assoc, ← hwhole] at hunsigned
    rw [hunsigned]
    exact ⟨rest, by rw [List.append_assoc, List.append_assoc, ← hwhole], htakes⟩

theorem unsigned_of_digit {c : Char} (hc : c.isDigit = true) (text : List Char) :
    ∃ digits, unsigned (c :: text) = c :: digits := by
  obtain ⟨digits, hdigits⟩ : ∃ digits, wholeDigits (c :: text) = c :: digits := by
    unfold wholeDigits
    split
    next heq =>
      cases heq
      exact ⟨[], rfl⟩
    next => exact ⟨_, List.takeWhile_cons_of_pos hc⟩
  rw [unsigned_eq, hdigits]
  exact ⟨_, rfl⟩

theorem tail_unsigned_settles {c : Char} (hc : c.isDigit = true) :
    Settles fun text => (unsigned (c :: text)).tail := by
  intro text
  obtain ⟨rest, htext, htakes⟩ := unsigned_settles (c :: text)
  obtain ⟨digits, hdigits⟩ := unsigned_of_digit hc text
  rw [hdigits] at htext htakes
  injection htext with _ htext
  dsimp only
  rw [hdigits, List.tail_cons]
  refine ⟨rest, htext, ?_⟩
  intro cut hcut
  have hstep := htakes cut hcut
  rw [List.cons_append] at hstep
  dsimp only
  rw [hstep, List.tail_cons]

/-- The first character of a lexeme tells its kind and how it goes on, unless it is a quote, a
point or a minus sign. -/
theorem munch_of_first {c : Char} (hc : c ≠ '"' ∧ c ≠ '.' ∧ c ≠ '-') :
    ∃ kind reading, Settles reading ∧ ∀ text, munch c text = (kind, reading text) := by
  obtain ⟨hquote, hpoint, hminus⟩ := hc
  have hspread (text : List Char) : ¬ (c = '.' ∧ ['.', '.'].isPrefixOf text = true) :=
    fun h => hpoint h.1
  unfold munch
  simp only [if_neg hquote, if_neg (hspread _), if_neg hminus]
  by_cases hbreak : c = '\n'
  · simp only [if_pos hbreak]
    exact ⟨_, _, nil_settles, fun text => rfl⟩
  simp only [if_neg hbreak]
  by_cases hspace : isSpace c = true
  · simp only [if_pos hspace]
    exact ⟨_, _, takeWhile_settles isSpace, fun text => rfl⟩
  simp only [if_neg hspace]
  by_cases hcomma : c = ','
  · simp only [if_pos hcomma]
    exact ⟨_, _, nil_settles, fun text => rfl⟩
  simp only [if_neg hcomma]
  by_cases hcomment : c = '#'
  · simp only [if_pos hcomment]
    exact ⟨_, _, takeWhile_settles _, fun text => rfl⟩
  simp only [if_neg hcomment]
  by_cases hvariable : c = '$'
  · simp only [if_pos hvariable]
    exact ⟨_, _, nameAt_settles, fun text => rfl⟩
  simp only [if_neg hvariable]
  by_cases hdirective : c = '@'
  · simp only [if_pos hdirective]
    exact ⟨_, _, nameAt_settles, fun text => rfl⟩
  simp only [if_neg hdirective]
  by_cases hpunctuator : isPunctuator c = true
  · simp only [if_pos hpunctuator]
    exact ⟨_, _, nil_settles, fun text => rfl⟩
  simp only [if_neg hpunctuator]
  by_cases hdigit : c.isDigit = true
  · simp only [if_pos hdigit]
    exact ⟨_, _, tail_unsigned_settles hdigit, fun text => rfl⟩
  simp only [if_neg hdigit]
  by_cases hname : isNameStart c = true
  · simp only [if_pos hname]
    exact ⟨_, _, takeWhile_settles Text.isNameChar, fun text => rfl⟩
  · simp only [if_neg hname]
    exact ⟨_, _, nil_settles, fun text => rfl⟩

theorem munch_quote_cut {rest cut : List Char} (hcut : (munch '"' rest).2 ++ cut <+: rest) :
    munch '"' ((munch '"' rest).2 ++ cut) = munch '"' rest := by
  by_cases hblock : ∃ body, rest = '"' :: '"' :: body
  · obtain ⟨body, rfl⟩ := hblock
    have hmunch (body : List Char) : munch '"' ('"' :: '"' :: body) =
      (.blockString, '"' :: '"' :: blockBody body) := rfl
    rw [hmunch] at hcut ⊢
    simp only [List.cons_append, List.cons_prefix_cons, true_and] at hcut ⊢
    rw [hmunch, blockBody_settles.cut hcut]
  · have hmunch {text : List Char} (htext : text <+: rest) :
        munch '"' text = (.quotedString, quotedBody text) := by
      rw [Symbol.lexeme_munch_quote]
      split
      next body =>
        obtain ⟨more, rfl⟩ := htext
        exact absurd ⟨body ++ more, rfl⟩ hblock
      next => rfl
    rw [hmunch List.prefix_rfl] at hcut ⊢
    rw [hmunch hcut, quotedBody_settles.cut hcut]

theorem munch_point (rest : List Char) :
    munch '.' rest = if ['.', '.'] <+: rest then (.spread, ['.', '.']) else (.stray, []) := by
  have hmunch : munch '.' rest =
      if '.' = '.' ∧ ['.', '.'].isPrefixOf rest = true then (.spread, ['.', '.'])
      else (.stray, []) := rfl
  simp [hmunch]

theorem munch_point_cut {rest cut : List Char} (hcut : (munch '.' rest).2 ++ cut <+: rest) :
    munch '.' ((munch '.' rest).2 ++ cut) = munch '.' rest := by
  by_cases hspread : ['.', '.'] <+: rest
  · have hrest : munch '.' rest = (.spread, ['.', '.']) := by rw [munch_point, if_pos hspread]
    rw [hrest, munch_point, if_pos (List.prefix_append _ _)]
  · have hrest : munch '.' rest = (.stray, []) := by rw [munch_point, if_neg hspread]
    rw [hrest] at hcut ⊢
    rw [munch_point, if_neg]
    intro h
    exact hspread (h.trans hcut)

theorem munch_minus_cut {rest cut : List Char} (hcut : (munch '-' rest).2 ++ cut <+: rest) :
    munch '-' ((munch '-' rest).2 ++ cut) = munch '-' rest := by
  have hmunch (text : List Char) : munch '-' text =
    if (unsigned text).isEmpty then (.stray, []) else (.number, unsigned text) := rfl
  have hpiece : (munch '-' rest).2 = unsigned rest := by
    rw [hmunch]
    split_ifs with hnone
    · exact (List.isEmpty_iff.mp hnone).symm
    · rfl
  rw [hpiece] at hcut ⊢
  rw [hmunch, unsigned_settles.cut hcut, hmunch]

/-- What a lexeme takes does not depend on how much is there of the text behind it. -/
theorem munch_cut {c : Char} {rest cut : List Char} (hcut : (munch c rest).2 ++ cut <+: rest) :
    munch c ((munch c rest).2 ++ cut) = munch c rest := by
  by_cases hquote : c = '"'
  · subst hquote
    exact munch_quote_cut hcut
  by_cases hpoint : c = '.'
  · subst hpoint
    exact munch_point_cut hcut
  by_cases hminus : c = '-'
  · subst hminus
    exact munch_minus_cut hcut
  obtain ⟨kind, reading, hsettles, hmunch⟩ := munch_of_first ⟨hquote, hpoint, hminus⟩
  simp only [hmunch] at hcut ⊢
  rw [hsettles.cut hcut]

end EmbeddedGraphQL.Lexeme
