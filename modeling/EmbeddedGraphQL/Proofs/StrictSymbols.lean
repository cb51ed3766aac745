import EmbeddedGraphQL.Document.Symbol
import EmbeddedGraphQL.Proofs.Lexemes
import Mathlib

/-!
What one round of the strict reading takes: blanks, a comment, or the characters of a symbol. The
numbers it takes are the ones a tolerant reading takes at the same place.
-/
namespace EmbeddedGraphQL

/-- A reading takes a piece of a text, however much of what comes behind the piece is there. -/
def Takes (reading : List Char → List Char) (piece rest : List Char) : Prop :=
  ∀ cut, cut <+: rest → reading (piece ++ cut) = piece

theorem mem_head?_of_cut {α : Type} {cut rest : List α} {c : α} (h : cut <+: rest)
    (hc : c ∈ cut.head?) : c ∈ rest.head? := by
  obtain ⟨more, rfl⟩ := h
  cases cut with
  | nil => simp at hc
  | cons d cut => simpa using hc

theorem takes_takeWhile {p : Char → Bool} {piece rest : List Char}
    (hpiece : ∀ c ∈ piece, p c = true) (hrest : ∀ c ∈ rest.head?, p c = false) :
    Takes (List.takeWhile p) piece rest := by
  intro cut hcut
  rw [List.takeWhile_append_of_pos hpiece]
  cases cut with
  | nil => simp
  | cons c cut => simp [hrest c (mem_head?_of_cut hcut rfl)]

/-- A piece that a class of characters ends. -/
theorem takeWhile_split (p : Char → Bool) (text : List Char) :
    ∃ rest, text = text.takeWhile p ++ rest ∧
      text.drop (text.takeWhile p).length = rest ∧ ∀ c ∈ rest.head?, p c = false := by
  have hsplit : text.takeWhile p ++ text.dropWhile p = text := List.takeWhile_append_dropWhile
  refine ⟨text.dropWhile p, hsplit.symm,
    (congrArg (List.drop _) hsplit.symm).trans List.drop_left, ?_⟩
  intro c hc
  have hstop := List.head?_dropWhile_not p text
  rw [Option.mem_def.mp hc] at hstop
  simpa using hstop

namespace Lexeme

/-- The digits of a number in front of its point. -/
def wholeDigits (text : List Char) : List Char :=
  match text with
  | '0' :: _ => ['0']
  | _ => text.takeWhile Char.isDigit

theorem unsigned_eq (text : List Char) :
    unsigned text =
      if (wholeDigits text).isEmpty then []
      else wholeDigits text ++ fraction (text.drop (wholeDigits text).length) ++
        exponent ((text.drop (wholeDigits text).length).drop
          (fraction (text.drop (wholeDigits text).length)).length) := rfl

theorem takes_unsigned {whole part power rest : List Char} (hne : whole ≠ [])
    (hwhole : Takes wholeDigits whole (part ++ (power ++ rest)))
    (hpart : Takes fraction part (power ++ rest)) (hpower : Takes exponent power rest) :
    Takes unsigned (whole ++ part ++ power) rest := by
  intro cut hcut
  have hwhole' := hwhole (part ++ (power ++ cut)) (by simpa using hcut)
  have hpart' := hpart (power ++ cut) (by simpa using hcut)
  rw [List.append_assoc, List.append_assoc, List.append_assoc, unsigned_eq, hwhole',
    if_neg (by simpa using hne), List.drop_left, hpart', List.drop_left, hpower cut hcut,
    List.append_assoc]

end Lexeme

namespace Symbol

variable {offset : Nat} {text found rest : List Char}

theorem digits_spec (h : digits offset text = .ok (found, rest)) :
    found ≠ [] ∧ text = found ++ rest ∧ (∀ c ∈ found, c.isDigit = true) ∧
      ∀ c ∈ rest.head?, c.isDigit = false := by
  obtain ⟨after, htext, hdrop, hafter⟩ := takeWhile_split Char.isDigit text
  unfold digits at h
  dsimp only at h
  split_ifs at h with hempty
  cases h
  rw [hdrop]
  exact ⟨by simpa using hempty, htext, fun c hc => List.mem_takeWhile_imp hc, hafter⟩

theorem whole_spec (h : whole offset text = .ok (found, rest)) :
    found ≠ [] ∧ text = found ++ rest ∧ Takes Lexeme.wholeDigits found rest := by
  unfold whole at h
  split at h
  next after =>
    split_ifs at h
    cases h
    refine ⟨by simp, rfl, ?_⟩
    intro cut hcut
    rfl
  next hzero =>
    obtain ⟨hne, rfl, hall, hafter⟩ := digits_spec h
    refine ⟨hne, rfl, ?_⟩
    intro cut hcut
    unfold Lexeme.wholeDigits
    split
    next tail heq =>
      obtain ⟨d, found, rfl⟩ := List.exists_cons_of_ne_nil hne
      cases heq
      exact absurd rfl (hzero _)
    next => exact takes_takeWhile hall hafter cut hcut

theorem fraction_spec (h : fraction offset text = .ok (found, rest)) :
    text = found ++ rest ∧ Takes Lexeme.fraction found rest := by
  unfold fraction at h
  split at h
  next tail =>
    cases hdigits : digits (offset + 1) tail with
    | error e =>
      rw [hdigits] at h
      cases h
    | ok x =>
      rw [hdigits] at h
      cases h
      obtain ⟨hne, rfl, hall, hafter⟩ := digits_spec hdigits
      refine ⟨rfl, ?_⟩
      intro cut hcut
      have htake := takes_takeWhile hall hafter cut hcut
      simp [Lexeme.fraction, htake, hne]
  next hpoint =>
    cases h
    refine ⟨rfl, ?_⟩
    intro cut hcut
    unfold Lexeme.fraction
    split
    next digits heq =>
      obtain ⟨more, rfl⟩ := hcut
      exact absurd (congrArg (· ++ more) heq) (hpoint _)
    next => rfl

/-- The sign of an exponent. -/
def signAt (text : List Char) : List Char :=
  match text with
  | '+' :: _ => ['+']
  | '-' :: _ => ['-']
  | _ => []

theorem signAt_cases (text : List Char) :
    signAt text = ['+'] ∨ signAt text = ['-'] ∨ signAt text = [] := by
  unfold signAt
  split <;> simp

theorem signAt_append {found : List Char} (hne : found ≠ [])
    (hall : ∀ c ∈ found, c.isDigit = true) (text cut : List Char) :
    signAt (signAt text ++ (found ++ cut)) = signAt text := by
  rcases signAt_cases text with hsign | hsign | hsign
  · rw [hsign]
    rfl
  · rw [hsign]
    rfl
  · rw [hsign, List.nil_append]
    obtain ⟨d, found, rfl⟩ := List.exists_cons_of_ne_nil hne
    have hd := hall d List.mem_cons_self
    unfold signAt
    split
    next heq =>
      cases heq
      exact absurd hd (by decide)
    next heq =>
      cases heq
      exact absurd hd (by decide)
    next => rfl

theorem signAt_split (text : List Char) :
    text = signAt text ++ text.drop (signAt text).length := by
  unfold signAt
  split <;> simp

theorem exponent_of_mark {mark : Char} (hmark : mark = 'e' ∨ mark = 'E') (text : List Char) :
    Lexeme.exponent (mark :: text) =
      if ((text.drop (signAt text).length).takeWhile Char.isDigit).isEmpty then []
      else mark :: (signAt text ++ (text.drop (signAt text).length).takeWhile Char.isDigit) := by
  unfold Lexeme.exponent
  simp only [if_pos hmark]
  rfl

theorem exponent_spec (h : exponent offset text = .ok (found, rest)) :
    text = found ++ rest ∧ Takes Lexeme.exponent found rest := by
  unfold exponent at h
  split at h
  next mark tail =>
    split_ifs at h with hmark
    · change (digits (offset + 1 + (signAt tail).length)
        (tail.drop (signAt tail).length)).map _ = _ at h
      cases hdigits : digits (offset + 1 + (signAt tail).length)
          (tail.drop (signAt tail).length) with
      | error e =>
        rw [hdigits] at h
        cases h
      | ok x =>
        rw [hdigits] at h
        cases h
        obtain ⟨hne, htail, hall, hafter⟩ := digits_spec hdigits
        constructor
        · have hsplit := signAt_split tail
          rw [htail] at hsplit
          conv_lhs => rw [hsplit]
          exact congrArg (mark :: ·) (List.append_assoc _ _ _).symm
        · intro cut hcut
          change Lexeme.exponent (mark :: (signAt tail ++ x.1 ++ cut)) =
            mark :: (signAt tail ++ x.1)
          rw [List.append_assoc, exponent_of_mark hmark, signAt_append hne hall, List.drop_left,
            takes_takeWhile hall hafter cut hcut, if_neg (by simpa using hne)]
    · cases h
      refine ⟨rfl, ?_⟩
      intro cut hcut
      cases cut with
      | nil => rfl
      | cons c cut =>
        obtain ⟨more, heq⟩ := hcut
        cases heq
        simp [Lexeme.exponent, hmark]
  next =>
    cases h
    refine ⟨rfl, ?_⟩
    intro cut hcut
    rw [List.prefix_nil.mp hcut]
    rfl

theorem exceptBind_eq_ok {ε α β : Type} {x : Except ε α} {f : α → Except ε β} {b : β} :
    (x >>= f) = .ok b ↔ ∃ a, x = .ok a ∧ f a = .ok b := by
  cases x with
  | error e => simp [bind, Except.bind]
  | ok a => simp [bind, Except.bind]

/-- A number is an integer or not. A tolerant reading finds the same digits behind its sign. -/
theorem number_spec {kind : SymbolKind} {written : List Char}
    (h : number text = .ok (kind, written)) :
    (kind = .int ∨ kind = .float) ∧ ∃ sign digits rest, text = sign ++ digits ++ rest ∧
      sign = (if text.head? = some '-' then ['-'] else []) ∧ written = sign ++ digits ∧
        digits ≠ [] ∧ Takes Lexeme.unsigned digits rest := by
  unfold number at h
  extract_lets sign at h
  have hsign : text = sign ++ text.drop sign.length := by
    unfold sign
    cases text with
    | nil => simp
    | cons c text =>
      split_ifs with hc
      · cases hc
        rfl
      · rfl
  obtain ⟨⟨first, afterFirst⟩, hfirst, h⟩ := exceptBind_eq_ok.mp h
  obtain ⟨⟨part, afterPart⟩, hpart, h⟩ := exceptBind_eq_ok.mp h
  obtain ⟨⟨power, after⟩, hpower, h⟩ := exceptBind_eq_ok.mp h
  obtain ⟨hne, htext, hwhole⟩ := whole_spec hfirst
  have hwritten : (kind = .int ∨ kind = .float) ∧ written = sign ++ first ++ part ++ power := by
    by_cases hnext : after.head?.any (fun c => c == '.' || Lexeme.isNameStart c) = true
    · simp only [if_pos hnext] at h
      cases h
    · simp only [if_neg hnext] at h
      cases h
      exact ⟨by split_ifs <;> simp, rfl⟩
  obtain ⟨rfl, hpart'⟩ := fraction_spec hpart
  obtain ⟨rfl, hpower'⟩ := exponent_spec hpower
  refine ⟨hwritten.1, sign, first ++ part ++ power, after, ?_, rfl, ?_, by simp [hne],
    Lexeme.takes_unsigned hne hwhole hpart' hpower'⟩
  · rw [htext] at hsign
    simpa using hsign
  · simpa using hwritten.2

/-- A number is the start of the text and made of characters of numbers. -/
theorem number_chars {kind : SymbolKind} {written : List Char}
    (h : number text = .ok (kind, written)) :
    written <+: text ∧ written ≠ [] ∧
      ∀ c ∈ written, c.isDigit = true ∨ c ∈ ['.', '-', '+', 'e', 'E'] := by
  obtain ⟨-, sign, digits, rest, htext, hsign, rfl, hne, htake⟩ := number_spec h
  refine ⟨⟨rest, htext.symm⟩, by simp [hne], fun c hc => ?_⟩
  rcases List.mem_append.mp hc with hc | hc
  · rw [hsign] at hc
    split_ifs at hc
    · exact Or.inr (by simp [List.mem_singleton.mp hc])
    · simp at hc
  · have hdigits := htake [] List.nil_prefix
    rw [List.append_nil] at hdigits
    rw [← hdigits] at hc
    exact Lexeme.unsigned_all _ c hc

/-- What a round of reading finds behind its first character. -/
inductive Shape (c : Char) (rest : List Char) : Munched → Prop
  | blank : isSkipped c = true → Shape c rest (.skipped 0)
  | comment : c = '#' →
      Shape c rest (.skipped (rest.takeWhile fun c => c ≠ '\n' ∧ c ≠ '\r').length)
  | string {value : List Char} {n : Nat} : c = '"' → (∀ body, rest ≠ '"' :: '"' :: body) →
      stringBody 0 [] rest = .symbol .string value n → Shape c rest (.symbol .string value n)
  | blockString {body : List Char} {lines : List (List Char)} {n : Nat} : c = '"' →
      rest = '"' :: '"' :: body → blockBody 0 [] [] body = .ok (lines, n) →
        Shape c rest (.symbol .blockString (['\n'].intercalate (dedent lines)) (n + 2))
  | punctuator : isPunctuator c = true → Shape c rest (.symbol .punctuator [c] 0)
  | spread : c = '.' → ['.', '.'] <+: rest →
      Shape c rest (.symbol .punctuator ['.', '.', '.'] 2)
  | number {kind : SymbolKind} {written : List Char} : c.isDigit = true ∨ c = '-' →
      number (c :: rest) = .ok (kind, written) →
        Shape c rest (.symbol kind written (written.length - 1))
  | name : Lexeme.isNameStart c = true → Shape c rest
      (.symbol .name (c :: rest.takeWhile Text.isNameChar) (rest.takeWhile Text.isNameChar).length)
  | problem (problem : SyntaxProblem) (distance : Nat) : Shape c rest (.problem problem distance)

/-- Reading a string ends with a string or with a problem. -/
theorem stringBody_shape (taken : Nat) (value text : List Char) :
    (∃ value' n, stringBody taken value text = .symbol .string value' n) ∨
      ∃ problem distance, stringBody taken value text = .problem problem distance := by
  fun_induction stringBody taken value text with
  | case1 => exact Or.inr ⟨_, _, rfl⟩
  | case2 => exact Or.inl ⟨_, _, rfl⟩
  | case3 taken value rest escaped size _ _ ih => exact ih
  | case4 => exact Or.inr ⟨_, _, rfl⟩
  | case5 => exact Or.inr ⟨_, _, rfl⟩
  | case6 taken value c rest _ _ _ ih => exact ih

theorem munch_shape (c : Char) (rest : List Char) : Shape c rest (munch c rest) := by
  unfold munch
  by_cases hskipped : isSkipped c = true
  · rw [if_pos hskipped]
    exact .blank hskipped
  rw [if_neg hskipped]
  by_cases hcomment : c = '#'
  · rw [if_pos hcomment]
    exact .comment hcomment
  rw [if_neg hcomment]
  by_cases hquote : c = '"'
  · rw [if_pos hquote]
    split
    next body =>
      cases hbody : blockBody 0 [] [] body with
      | error n => exact .problem _ _
      | ok x => exact .blockString hquote rfl hbody
    next hblock =>
      rcases stringBody_shape 0 [] rest with ⟨value, n, hbody⟩ | ⟨problem, distance, hbody⟩
      · rw [hbody]
        exact .string hquote hblock hbody
      · rw [hbody]
        exact .problem _ _
  rw [if_neg hquote]
  by_cases hpunctuator : isPunctuator c = true
  · rw [if_pos hpunctuator]
    exact .punctuator hpunctuator
  rw [if_neg hpunctuator]
  by_cases hspread : c = '.' ∧ ['.', '.'].isPrefixOf rest = true
  · rw [if_pos hspread]
    exact .spread hspread.1 (List.isPrefixOf_iff_prefix.mp hspread.2)
  rw [if_neg hspread]
  by_cases hnumber : (c.isDigit || c == '-') = true
  · rw [if_pos hnumber]
    cases hread : Symbol.number (c :: rest) with
    | error e => exact .problem _ _
    | ok x => exact .number (by simpa using hnumber) hread
  rw [if_neg hnumber]
  by_cases hname : Lexeme.isNameStart c = true
  · rw [if_pos hname]
    exact .name hname
  rw [if_neg hname]
  split_ifs
  · exact .problem _ _
  · exact .problem _ _

end Symbol
end EmbeddedGraphQL
