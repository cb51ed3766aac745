import EmbeddedGraphQL.Proofs.StrictSymbols
import Mathlib

/-!
Where the strict and the tolerant reading agree. A symbol of the strict reading is one lexeme of the
tolerant reading, also when the text is cut off somewhere behind it. Dollar signs and at signs are
apart, since a lexeme takes a name along with them, and so are block strings with quotes of a block
string in them, which end the lexeme early.
-/
namespace EmbeddedGraphQL
namespace Symbol
open Lexeme (quotedBody)

/-- Characters that are skipped are blanks of the tolerant reading. -/
theorem blank_of_isSkipped {c : Char} (hc : isSkipped c = true) :
    Lexeme.isSpace c = true ∨ c = ',' ∨ c = '\n' := by
  simp only [isSkipped, Bool.or_eq_true, beq_iff_eq] at hc
  simp only [Lexeme.isSpace, Bool.or_eq_true, beq_iff_eq]
  tauto

/-- Characters that a string takes by themselves. -/
def IsOrdinary (c : Char) : Prop := c ≠ '"' ∧ c ≠ '\\' ∧ c ≠ '\n'

instance : DecidablePred IsOrdinary := fun _ => inferInstanceAs (Decidable (_ ∧ _ ∧ _))

theorem quotedBody_of_ordinary {c : Char} (hc : IsOrdinary c) (text : List Char) :
    quotedBody (c :: text) = c :: quotedBody text := by
  obtain ⟨hquote, hback, hbreak⟩ := hc
  conv_lhs => unfold Lexeme.quotedBody
  split
  next heq => cases heq
  next heq =>
    cases heq
    exact absurd rfl hback
  next heq =>
    cases heq
    exact absurd rfl hback
  next heq =>
    cases heq
    rw [if_neg hquote, if_neg hbreak]

theorem quotedBody_append {piece : List Char} (hpiece : ∀ c ∈ piece, IsOrdinary c)
    (text : List Char) : quotedBody (piece ++ text) = piece ++ quotedBody text := by
  induction piece with
  | nil => rfl
  | cons c piece ih =>
    rw [List.cons_append, quotedBody_of_ordinary (hpiece c List.mem_cons_self),
      ih fun d hd => hpiece d (List.mem_cons_of_mem c hd)]
    rfl

theorem isOrdinary_of_hexValue? {c : Char} {n : Nat} (h : Json.hexValue? c = some n) :
    IsOrdinary c := by
  refine ⟨?_, ?_, ?_⟩ <;> rintro rfl <;> cases h

theorem unit?_spec {text rest : List Char} {n : Nat} (h : Json.unit? text = some (n, rest)) :
    ∃ piece, text = piece ++ rest ∧ piece.length = 4 ∧ ∀ c ∈ piece, IsOrdinary c := by
  unfold Json.unit? at h
  split at h
  next a b c d rest =>
    simp only [Option.bind_eq_bind, Option.bind_eq_some_iff, Option.pure_def, Option.some.injEq,
      Prod.mk.injEq] at h
    obtain ⟨_, ha, _, hb, _, hc, _, hd, -, rfl⟩ := h
    refine ⟨[a, b, c, d], rfl, rfl, ?_⟩
    simp only [List.forall_mem_cons]
    exact ⟨isOrdinary_of_hexValue? ha, isOrdinary_of_hexValue? hb, isOrdinary_of_hexValue? hc,
      isOrdinary_of_hexValue? hd, List.forall_mem_nil _⟩
  next => cases h

theorem bracedPoint_spec {limit read point m : Nat} {text : List Char} {c : Char}
    (h : bracedPoint limit read point text = .ok (c, m)) :
    ∃ piece rest, text = piece ++ rest ∧ m = read + piece.length ∧ ∀ c ∈ piece, IsOrdinary c := by
  induction text generalizing read point with
  | nil => cases h
  | cons d text ih =>
    rw [bracedPoint] at h
    split_ifs at h with hlimit hclose hpoint
    · cases h
      refine ⟨[d], text, rfl, rfl, ?_⟩
      rw [hclose, List.forall_mem_singleton]
      decide
    · cases hhex : Json.hexValue? d with
      | none =>
        rw [hhex] at h
        cases h
      | some digit =>
        rw [hhex] at h
        obtain ⟨piece, rest, rfl, rfl, hall⟩ := ih h
        refine ⟨d :: piece, rest, rfl, ?_, ?_⟩
        · rw [List.length_cons]
          omega
        · exact List.forall_mem_cons.mpr ⟨isOrdinary_of_hexValue? hhex, hall⟩

/-- Characters that are taken together with a backslash in front of them. -/
def IsEscape (piece : List Char) : Prop :=
  ∀ text, quotedBody ('\\' :: (piece ++ text)) = '\\' :: (piece ++ quotedBody text)

theorem isEscape_of_ordinary {piece : List Char} (hpiece : ∀ c ∈ piece, IsOrdinary c) :
    IsEscape ('u' :: piece) := fun text =>
  congrArg ('\\' :: 'u' :: ·) (quotedBody_append hpiece text)

theorem IsEscape.append {first second : List Char} (h : IsEscape first) (h' : IsEscape second) :
    IsEscape (first ++ '\\' :: second) := by
  intro text
  rw [List.append_assoc, List.cons_append, h, h', List.append_assoc, List.cons_append]

/-- An escape is taken as a whole by the tolerant reading. -/
theorem escape_spec {rest : List Char} {c : Char} {size : Nat} (h : escape rest = .ok (c, size)) :
    ∃ piece after, rest = piece ++ after ∧ piece.length = size ∧ IsEscape piece := by
  unfold escape at h
  split at h
  next digits =>
    cases hpoint : bracedPoint (min 12 (('u' :: '\x7b' :: digits).length + 1)) 3 0 digits with
    | error n =>
      rw [hpoint] at h
      cases h
    | ok x =>
      obtain ⟨d, m⟩ := x
      rw [hpoint] at h
      cases h
      obtain ⟨piece, after, rfl, rfl, hall⟩ := bracedPoint_spec hpoint
      have hbrace : IsOrdinary '\x7b' := by decide
      refine ⟨'u' :: '\x7b' :: piece, after, rfl, ?_,
        isEscape_of_ordinary (List.forall_mem_cons.mpr ⟨hbrace, hall⟩)⟩
      simp only [List.length_cons]
      omega
  next digits hbrace =>
    cases hunit : Json.unit? digits with
    | none =>
      rw [hunit] at h
      cases h
    | some x =>
      obtain ⟨code, after⟩ := x
      rw [hunit] at h
      obtain ⟨piece, rfl, hlength, hall⟩ := unit?_spec hunit
      have hfirst := isEscape_of_ordinary hall
      dsimp only at h
      split_ifs at h with hvalid hlow
      · cases h
        exact ⟨'u' :: piece, after, rfl, by rw [List.length_cons, hlength], hfirst⟩
      · split at h
        next low =>
          cases hunit' : Json.unit? low with
          | none =>
            rw [hunit'] at h
            cases h
          | some y =>
            obtain ⟨trailing, after⟩ := y
            rw [hunit'] at h
            obtain ⟨piece', rfl, hlength', hall'⟩ := unit?_spec hunit'
            dsimp only at h
            split_ifs at h with hpair
            simp only [Except.ok.injEq, Prod.mk.injEq] at h
            obtain ⟨-, rfl⟩ := h
            refine ⟨'u' :: piece ++ '\\' :: 'u' :: piece', after, by simp, ?_,
              hfirst.append (isEscape_of_ordinary hall')⟩
            simp [hlength, hlength']
        next => cases h
  next d tail hu hbrace =>
    cases hescape : escapedChar? d with
    | none =>
      rw [hescape] at h
      cases h
    | some value =>
      rw [hescape] at h
      cases h
      exact ⟨[d], tail, rfl, rfl, fun text => rfl⟩
  next => cases h

/-- A string takes the same characters in both readings. -/
theorem stringBody_takes {taken n : Nat} {value value' text : List Char}
    (h : stringBody taken value text = .symbol .string value' n) :
    ∃ piece rest, text = piece ++ rest ∧ n = taken + piece.length ∧
      (piece = ['"'] ∨ ∃ d tail, piece = d :: tail ∧ d ≠ '"') ∧
        ∀ cut, quotedBody (piece ++ cut) = piece := by
  fun_induction stringBody taken value text with
  | case1 => cases h
  | case2 taken value rest =>
    cases h
    exact ⟨['"'], rest, rfl, rfl, Or.inl rfl, fun cut => rfl⟩
  | case3 taken value rest escaped size hescape hquote ih =>
    obtain ⟨piece, behind, hbehind, hn, -, htakes⟩ := ih h
    obtain ⟨first, after, rfl, rfl, hfirst⟩ := escape_spec hescape
    rw [List.drop_left] at hbehind
    refine ⟨'\\' :: (first ++ piece), behind, by simp [hbehind], ?_,
      Or.inr ⟨_, _, rfl, by decide⟩, fun cut => ?_⟩
    · simp only [List.length_cons, List.length_append]
      omega
    · have hstep := hfirst (piece ++ cut)
      rw [htakes] at hstep
      simpa using hstep
  | case4 => cases h
  | case5 => cases h
  | case6 taken value c rest hquote hback hbreak ih =>
    obtain ⟨piece, behind, rfl, hn, -, htakes⟩ := ih h
    refine ⟨c :: piece, behind, rfl, ?_, Or.inr ⟨_, _, rfl, hquote⟩, fun cut => ?_⟩
    · rw [List.length_cons]
      omega
    · rw [List.cons_append, quotedBody_of_ordinary ⟨hquote, hback, fun h => hbreak (Or.inl h)⟩,
        htakes]

/-- Quotes of a block string, escaped so that they do not end it. -/
def escapedQuotes : List Char := ['\\', '"', '"', '"']

theorem takes_blockBody_cons {c : Char} {piece rest : List Char}
    (h : ∀ tail, c :: (piece ++ rest) ≠ '"' :: '"' :: '"' :: tail)
    (htakes : Takes Lexeme.blockBody piece rest) : Takes Lexeme.blockBody (c :: piece) rest := by
  intro cut hcut
  rw [List.cons_append]
  unfold Lexeme.blockBody
  split
  next tail heq =>
    obtain ⟨more, rfl⟩ := hcut
    refine absurd ?_ (h (tail ++ more))
    rw [← List.append_assoc, ← List.cons_append, heq]
    rfl
  next heq =>
    cases heq
    rw [htakes cut hcut]
  next heq => cases heq

/-- A character in front of what a block string takes is taken along, unless quotes end there. -/
theorem exists_takes_cons {c : Char} {taken n : Nat} {text : List Char}
    (h : ∀ tail, c :: text ≠ '"' :: '"' :: '"' :: tail)
    (htakes : ∃ piece rest, text = piece ++ rest ∧ n = taken + 1 + piece.length ∧
      Takes Lexeme.blockBody piece rest) :
    ∃ piece rest, c :: text = piece ++ rest ∧ n = taken + piece.length ∧
      Takes Lexeme.blockBody piece rest := by
  obtain ⟨piece, rest, rfl, rfl, htakes⟩ := htakes
  refine ⟨c :: piece, rest, rfl, ?_, takes_blockBody_cons h htakes⟩
  rw [List.length_cons]
  omega

/-- A block string takes the three quotes that end it at least. -/
theorem blockBody_le {taken n : Nat} {lines lines' : List (List Char)} {line text : List Char}
    (h : blockBody taken lines line text = .ok (lines', n)) : taken + 3 ≤ n := by
  fun_induction blockBody taken lines line text with
  | case1 taken lines line rest =>
    cases h
    exact le_refl _
  | case2 taken lines line rest ih => exact (ih h).trans' (by omega)
  | case3 taken lines line rest ih => exact (ih h).trans' (by omega)
  | case4 taken lines line c rest _ _ _ _ ih => exact (ih h).trans' (by omega)
  | case5 taken lines line c rest _ _ _ _ ih => exact (ih h).trans' (by omega)
  | case6 => cases h

/-- A block string without escaped quotes takes the same characters in both readings. -/
theorem blockBody_takes {taken n : Nat} {lines lines' : List (List Char)} {line text : List Char}
    (h : blockBody taken lines line text = .ok (lines', n))
    (hfree : ¬ escapedQuotes <:+: text.take (n - taken)) :
    ∃ piece rest, text = piece ++ rest ∧ n = taken + piece.length ∧
      Takes Lexeme.blockBody piece rest := by
  have hrest {c : Char} {rest : List Char} {taken : Nat} (hle : taken + 1 ≤ n)
      (hfree : ¬ escapedQuotes <:+: (c :: rest).take (n - taken)) :
      ¬ escapedQuotes <:+: rest.take (n - (taken + 1)) := by
    rw [show n - taken = n - (taken + 1) + 1 by omega, List.take_succ_cons] at hfree
    exact fun h => hfree (h.trans (List.suffix_cons c _).isInfix)
  fun_induction blockBody taken lines line text with
  | case1 taken lines line rest =>
    cases h
    refine ⟨['"', '"', '"'], rest, rfl, rfl, ?_⟩
    intro cut hcut
    rfl
  | case2 taken lines line rest ih =>
    have hle := blockBody_le h
    refine absurd (List.IsPrefix.isInfix ⟨rest.take (n - (taken + 4)), ?_⟩) hfree
    rw [show n - taken = n - (taken + 4) + 4 by omega]
    rfl
  | case3 taken lines line rest ih =>
    have hle := blockBody_le h
    have htakes := ih h (hrest (by omega) (hrest (by omega) hfree))
    exact exists_takes_cons (by simp) (exists_takes_cons (by simp) htakes)
  | case4 taken lines line c rest hquotes hescaped hpair hbreak ih =>
    have hle := blockBody_le h
    refine exists_takes_cons (fun tail heq => ?_) (ih h (hrest (by omega) hfree))
    exact hquotes tail (List.cons.inj heq).1 (List.cons.inj heq).2
  | case5 taken lines line c rest hquotes hescaped hpair hbreak ih =>
    have hle := blockBody_le h
    refine exists_takes_cons (fun tail heq => ?_) (ih h (hrest (by omega) hfree))
    exact hquotes tail (List.cons.inj heq).1 (List.cons.inj heq).2
  | case6 => cases h

/-- The kind of lexeme that a symbol is. -/
def lexemeKind (kind : SymbolKind) (value : List Char) : LexemeKind :=
  match kind with
  | .punctuator => if value = ['.', '.', '.'] then .spread else .punctuator
  | .name => .name
  | .int | .float => .number
  | .string => .quotedString
  | .blockString => .blockString

theorem ne_of_class {class? : Char → Bool} {c d : Char} (hc : class? c = true)
    (hd : class? d = false) : c ≠ d := by
  rintro rfl
  rw [hc] at hd
  cases hd

theorem lexeme_munch_quote (rest : List Char) :
    Lexeme.munch '"' rest = match rest with
      | '"' :: '"' :: body => (.blockString, '"' :: '"' :: Lexeme.blockBody body)
      | _ => (.quotedString, quotedBody rest) := rfl

theorem lexeme_munch_digit {c : Char} (hc : c.isDigit = true) (rest : List Char) :
    Lexeme.munch c rest = (.number, (Lexeme.unsigned (c :: rest)).tail) := by
  have hne {d : Char} (hd : d.isDigit = false) : c ≠ d := ne_of_class hc hd
  simp [Lexeme.munch, Lexeme.isSpace, Lexeme.isPunctuator, hne, hc]

theorem isDigit_of_isNameStart {c : Char} (hc : Lexeme.isNameStart c = true) :
    c.isDigit = false := by
  by_contra h
  simp only [Lexeme.isNameStart, Char.isAlpha, Char.isUpper, Char.isLower, Char.isDigit,
    Bool.or_eq_true, Bool.and_eq_true, decide_eq_true_eq, beq_iff_eq, UInt32.le_iff_toNat_le,
    ge_iff_le, Bool.not_eq_false] at h hc
  rcases hc with (hc | hc) | rfl
  · have hlow := h.2.trans (by decide : '9'.val.toNat ≤ 60)
    have hhigh := (by decide : 65 ≤ 'A'.val.toNat).trans hc.1
    omega
  · have hlow := h.2.trans (by decide : '9'.val.toNat ≤ 60)
    have hhigh := (by decide : 65 ≤ 'a'.val.toNat).trans hc.1
    omega
  · exact absurd h (by decide)

/-- No name starts with a character that has a meaning of its own. -/
theorem ne_of_isNameStart {c : Char} (hc : Lexeme.isNameStart c = true) :
    ∀ d ∈ ['\n', ' ', '\t', '\r', '\uFEFF', ',', '#', '"', '.', '$', '@', '!', '(', ')', ':', '=',
      '[', ']', '\x7b', '\x7d', '|', '&', '-'], c ≠ d := by
  intro d hd
  refine ne_of_class hc ?_
  fin_cases hd <;> rfl

theorem munch_name {c : Char} (hc : Lexeme.isNameStart c = true) (rest : List Char) :
    munch c rest = .symbol .name (c :: rest.takeWhile Text.isNameChar)
      (rest.takeWhile Text.isNameChar).length := by
  have hne := ne_of_isNameStart hc
  simp only [List.forall_mem_cons] at hne
  simp [munch, isSkipped, isPunctuator, Lexeme.isPunctuator, hne, hc, isDigit_of_isNameStart hc]

theorem lexeme_munch_name {c : Char} (hc : Lexeme.isNameStart c = true) (rest : List Char) :
    Lexeme.munch c rest = (.name, rest.takeWhile Text.isNameChar) := by
  have hne := ne_of_isNameStart hc
  simp only [List.forall_mem_cons] at hne
  simp [Lexeme.munch, Lexeme.isSpace, Lexeme.isPunctuator, hne, hc, isDigit_of_isNameStart hc]

theorem lexeme_munch_string {piece behind cut : List Char}
    (hblock : ∀ tail, piece ++ behind ≠ '"' :: '"' :: tail)
    (hpiece : piece = ['"'] ∨ ∃ d tail, piece = d :: tail ∧ d ≠ '"') (hcut : cut <+: behind)
    (htakes : quotedBody (piece ++ cut) = piece) :
    Lexeme.munch '"' (piece ++ cut) = (.quotedString, piece) := by
  rw [lexeme_munch_quote]
  split
  next body heq =>
    rcases hpiece with rfl | ⟨d, tail, rfl, hd⟩
    · obtain ⟨more, rfl⟩ := hcut
      cases heq
      exact absurd rfl (hblock (body ++ more))
    · injection heq with hfirst
      exact absurd hfirst hd
  next => rw [htakes]

theorem lexeme_munch_negative {piece cut : List Char} (hne : piece ≠ [])
    (htakes : Lexeme.unsigned (piece ++ cut) = piece) :
    Lexeme.munch '-' (piece ++ cut) = (.number, piece) := by
  have hmunch : Lexeme.munch '-' (piece ++ cut) =
      if (Lexeme.unsigned (piece ++ cut)).isEmpty then (.stray, [])
      else (.number, Lexeme.unsigned (piece ++ cut)) := rfl
  rw [hmunch, htakes, if_neg (by simpa using hne)]

/-- A symbol is one lexeme of the tolerant reading, however much of the text behind it is there. -/
theorem munch_takes {c : Char} {rest value : List Char} {kind : SymbolKind} {n : Nat}
    (h : munch c rest = .symbol kind value n) (hmark : c ≠ '$' ∧ c ≠ '@')
    (hfree : kind = .blockString → ¬ escapedQuotes <:+: rest.take n) :
    ∃ piece behind, rest = piece ++ behind ∧ piece.length = n ∧
      (kind = .punctuator ∨ kind = .name → value = c :: piece) ∧
      ∀ cut, cut <+: behind → Lexeme.munch c (piece ++ cut) = (lexemeKind kind value, piece) := by
  have hshape := munch_shape c rest
  rw [h] at hshape
  cases hshape with
  | string hc hblock hbody =>
    subst hc
    obtain ⟨piece, behind, rfl, hn, hpiece, htakes⟩ := stringBody_takes hbody
    exact ⟨piece, behind, rfl, by omega, by simp, fun cut hcut =>
      lexeme_munch_string hblock hpiece hcut (htakes cut)⟩
  | blockString hc hrest hbody =>
    subst hc hrest
    have hfree' : ¬ escapedQuotes <:+: _ := fun h =>
      hfree rfl (h.trans (List.suffix_append ['"', '"'] _).isInfix)
    obtain ⟨piece, behind, rfl, hn, htakes⟩ := blockBody_takes hbody hfree'
    refine ⟨'"' :: '"' :: piece, behind, rfl, ?_, by simp, fun cut hcut => ?_⟩
    · simp only [List.length_cons]
      omega
    · change (LexemeKind.blockString, '"' :: '"' :: Lexeme.blockBody (piece ++ cut)) = _
      rw [htakes cut hcut, lexemeKind]
  | punctuator hc =>
    refine ⟨[], rest, rfl, rfl, fun _ => rfl, fun cut _ => ?_⟩
    have hmem : c ∈ ['!', '(', ')', ':', '=', '[', ']', '\x7b', '\x7d', '|', '&', '$', '@'] := by
      simpa [Symbol.isPunctuator, Lexeme.isPunctuator, or_assoc] using hc
    fin_cases hmem <;> first | rfl | exact absurd rfl hmark.1 | exact absurd rfl hmark.2
  | spread hc hrest =>
    obtain ⟨behind, rfl⟩ := hrest
    subst hc
    exact ⟨['.', '.'], behind, rfl, rfl, fun _ => rfl, fun cut _ => rfl⟩
  | number hc hread =>
    obtain ⟨hkind, sign, digits, behind, htext, hsign, rfl, hne, htakes⟩ := number_spec hread
    have hlexeme : lexemeKind kind (sign ++ digits) = .number := by
      rcases hkind with rfl | rfl <;> rfl
    have hnone : kind = .punctuator ∨ kind = .name →
        sign ++ digits = c :: digits.drop (1 - sign.length) := by
      rcases hkind with rfl | rfl <;> rintro (h | h) <;> cases h
    by_cases hminus : c = '-'
    · subst hminus
      rw [if_pos (show ('-' :: rest).head? = some '-' from rfl)] at hsign
      subst hsign
      cases htext
      refine ⟨digits, behind, rfl, rfl, hnone, fun cut hcut => ?_⟩
      rw [lexeme_munch_negative hne (htakes cut hcut), hlexeme]
    · rw [if_neg (by simpa using hminus)] at hsign
      subst hsign
      obtain ⟨d, digits, rfl⟩ := List.exists_cons_of_ne_nil hne
      cases htext
      refine ⟨digits, behind, rfl, rfl, hnone, fun cut hcut => ?_⟩
      rw [lexeme_munch_digit (hc.resolve_right hminus), ← List.cons_append, htakes cut hcut,
        hlexeme]
      rfl
  | name hc =>
    obtain ⟨behind, hrest, -, hbehind⟩ := takeWhile_split Text.isNameChar rest
    refine ⟨_, behind, hrest, rfl, fun _ => rfl, fun cut hcut => ?_⟩
    rw [lexeme_munch_name hc, lexemeKind,
      takes_takeWhile (fun d hd => List.mem_takeWhile_imp hd) hbehind cut hcut]

end Symbol
end EmbeddedGraphQL
