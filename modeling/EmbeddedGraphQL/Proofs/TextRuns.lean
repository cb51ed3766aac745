import EmbeddedGraphQL.Proofs.Agreement
import EmbeddedGraphQL.Proofs.Rounds
import EmbeddedGraphQL.Proofs.SymbolRuns
import Mathlib

/-!
The tolerant grammar on a text and on its symbols. In a tidy text the lexemes up to an opening brace
are the symbols up to there, with blanks and comments between them, so the grammar reads the part of
the text in front of an offset the way it reads symbols.
-/
namespace EmbeddedGraphQL
open SymbolList (readAt readFrom)
open Text (slice slice_eq_take_drop)

namespace GrammarState
open Lexeme (split)

/-- An ignored lexeme leaves the state as it is. -/
theorem read_ignored (s : GrammarState) {l : Lexeme} (hl : l.isIgnored = true)
    (found : Option Char) : (s.read l found).1 = s := by
  simp only [Lexeme.isIgnored, Bool.or_eq_true, beq_iff_eq] at hl
  unfold read
  rcases hl with ((hl | hl) | hl) | hl <;> rw [hl]

/-- The grammar goes by the lexemes that mean something to it. -/
theorem readAll_telling (s : GrammarState) (text : List Char) :
    s.readAll (Lexeme.telling text) = s.readAll (split text) := by
  unfold Lexeme.telling
  generalize split text = lexemes
  induction lexemes generalizing s with
  | nil => rfl
  | cons l lexemes ih =>
    by_cases hl : l.1.isIgnored = true
    · rw [List.filter_cons_of_neg (by simp [hl]), ih, readAll, readAll, List.foldl_cons,
        s.read_ignored hl]
    · rw [List.filter_cons_of_pos (by simp [hl])]
      exact ih _

/-- Blanks mean nothing to the grammar. -/
theorem readAll_split_blank (s : GrammarState) {c : Char} (hc : Symbol.isSkipped c = true)
    (text : List Char) : s.readAll (split (c :: text)) = s.readAll (split text) := by
  rw [← readAll_telling, Lexeme.telling_blank (Symbol.blank_of_isSkipped hc), readAll_telling]

/-- A comment means nothing to the grammar. -/
theorem readAll_split_comment (s : GrammarState) {body after : List Char}
    (hbody : ∀ c ∈ body, c ≠ '\n') (hafter : ∀ c ∈ after.head?, c = '\n') :
    s.readAll (split ('#' :: (body ++ after))) = s.readAll (split after) := by
  rw [← readAll_telling, Lexeme.telling_comment hbody hafter, readAll_telling]

end GrammarState

namespace SymbolList

variable {text : List Char} {k : Nat}

/-- A colon that is the first character after some blanks is the next symbol. -/
theorem colon_of_ahead {cut : List Char} (hcut : cut <+: text)
    (hahead : Lexeme.ahead cut = some ':') :
    ∃ t more, (readFrom k text).symbols = t :: more ∧ t.Is ":" := by
  unfold Lexeme.ahead at hahead
  obtain ⟨-, blanks, more, hsplit, hblanks⟩ := List.find?_eq_some_iff_append.mp hahead
  obtain ⟨rest, htext⟩ : ∃ rest, text = blanks ++ ':' :: rest := by
    obtain ⟨rest, hrest⟩ := (hsplit ▸ List.take_prefix 256 cut).trans hcut
    exact ⟨more ++ rest, by rw [← hrest]; simp⟩
  subst htext
  clear hsplit hcut hahead
  induction blanks generalizing k with
  | nil =>
    rw [List.nil_append, readFrom]
    exact ⟨_, _, rfl, rfl, rfl⟩
  | cons c blanks ih =>
    rw [List.forall_mem_cons] at hblanks
    have hskipped : Symbol.munch c (blanks ++ ':' :: rest) = .skipped 0 := by
      have hc := hblanks.1
      simp only [Bool.not_not, Bool.or_eq_true, beq_iff_eq] at hc
      rcases hc with ((rfl | rfl) | rfl) | rfl <;> rfl
    rw [List.cons_append, readFrom, hskipped]
    exact ih hblanks.2

/-- The part of a text from one round of reading on. -/
theorem slice_round {c : Char} {piece behind : List Char} {m : Nat}
    (hdrop : text.drop k = c :: (piece ++ behind)) (hm : k + 1 + piece.length ≤ m) :
    slice text k m = c :: (piece ++ slice text (k + 1 + piece.length : Nat) m) ∧
      slice text (k + 1 + piece.length : Nat) m <+: behind := by
  have hbehind : text.drop (k + 1 + piece.length) = behind := by
    rw [← List.drop_drop, ← List.drop_drop, hdrop]
    simp
  rw [slice_eq_take_drop, slice_eq_take_drop, hbehind, hdrop]
  refine ⟨?_, List.take_prefix _ _⟩
  obtain ⟨j, rfl⟩ := Nat.exists_eq_add_of_le hm
  rw [Nat.add_sub_cancel_left, show k + 1 + piece.length + j - k = (piece.length + j) + 1 by omega,
    List.take_succ_cons, List.take_length_add_append]

/-- The part of a text from a round of one character on. -/
theorem slice_alone {c : Char} {behind : List Char} {m : Nat} (hdrop : text.drop k = c :: behind)
    (hm : k + 1 ≤ m) :
    slice text k m = c :: slice text (k + 1 : Nat) m ∧ slice text (k + 1 : Nat) m <+: behind := by
  rw [← List.nil_append behind] at hdrop
  exact slice_round hdrop hm

end SymbolList

namespace GrammarState
open Lexeme (split)

variable {c : Char} {rest value : List Char} {kind : SymbolKind} {n : Nat}

/-- What the symbols of a round are, dollar signs and at signs apart. -/
theorem symbol_cases (h : Symbol.munch c rest = .symbol kind value n) :
    kind = .punctuator ∧ value = [c] ∧ n = 0 ∨ kind = .punctuator ∧ value = ['.', '.', '.'] ∨
      kind = .name ∨ kind ≠ .punctuator ∧ kind ≠ .name := by
  have hshape := Symbol.munch_shape c rest
  rw [h] at hshape
  cases hshape with
  | string => exact Or.inr (Or.inr (Or.inr ⟨nofun, nofun⟩))
  | blockString => exact Or.inr (Or.inr (Or.inr ⟨nofun, nofun⟩))
  | punctuator => exact Or.inl ⟨rfl, rfl, rfl⟩
  | spread => exact Or.inr (Or.inl ⟨rfl, rfl⟩)
  | number _ hnumber =>
    rcases (Symbol.number_spec hnumber).1 with rfl | rfl
    · exact Or.inr (Or.inr (Or.inr ⟨nofun, nofun⟩))
    · exact Or.inr (Or.inr (Or.inr ⟨nofun, nofun⟩))
  | name => exact Or.inr (Or.inr (Or.inl rfl))

/-- One symbol is read as one lexeme. -/
theorem runs_of_munch (h : Symbol.munch c rest = .symbol kind value n) (hmark : c ≠ '$' ∧ c ≠ '@')
    (hfree : ¬ Symbol.escapedQuotes <:+: rest) :
    ∃ piece behind, rest = piece ++ behind ∧ piece.length = n ∧ ∀ cut, cut <+: behind →
      ∀ s : GrammarState, ∃ s₁, s.readAll (split (c :: (piece ++ cut))) = s₁.readAll (split cut) ∧
        ∀ (x : Symbol) (more : List Symbol) (s' : GrammarState), x.kind = kind →
          x.value = String.ofList value →
            (Lexeme.ahead cut = some ':' → ∃ t ∈ more.head?, t.Is ":") → Runs s₁ more s' →
              Runs s (x :: more) s' := by
  obtain ⟨piece, behind, hrest, hn, hvalue, hmunch⟩ := Symbol.munch_takes h hmark fun _ hquotes =>
    hfree (hquotes.trans (List.take_prefix n rest).isInfix)
  refine ⟨piece, behind, hrest, hn, fun cut hcut s => ?_⟩
  refine ⟨(s.read ⟨Symbol.lexemeKind kind value, c :: piece⟩ (Lexeme.ahead cut)).1, ?_, ?_⟩
  · rw [Lexeme.split_of_munch (hmunch cut hcut)]
    rfl
  · intro x more s' hkind hx hahead hrun
    rcases symbol_cases h with ⟨rfl, rfl, rfl⟩ | ⟨rfl, rfl⟩ | rfl | ⟨hne, hne'⟩
    · obtain rfl := List.eq_nil_of_length_eq_zero hn
      have hlexeme : Symbol.lexemeKind .punctuator [c] = .punctuator := if_neg (by simp)
      rw [hlexeme] at hrun
      exact .punctuator ⟨hkind, hx⟩ hmark hrun
    · exact .spread ⟨hkind, hx⟩ hrun
    · rw [← hvalue (Or.inr rfl)] at hrun
      refine .name hkind hahead ?_
      rw [hx]
      exact hrun
    · refine .literal (hkind ▸ hne) (hkind ▸ hne') ?_
      cases kind <;> first | exact absurd rfl hne | exact absurd rfl hne' | exact hrun

/-- A comment that ends in front of a line feed or of a carriage return with one behind it. -/
theorem readAll_split_line (s : GrammarState) {body after : List Char}
    (hbody : ∀ c ∈ body, c ≠ '\n' ∧ c ≠ '\r') (hafter : ∀ c ∈ after.head?, c = '\n' ∨ c = '\r')
    (hbreaks : after.IsChain fun c d => c = '\r' → d = '\n') :
    s.readAll (split ('#' :: (body ++ after))) = s.readAll (split after) := by
  have hlines : ∀ c ∈ body, c ≠ '\n' := fun c hc => (hbody c hc).1
  cases after with
  | nil => exact readAll_split_comment s hlines (by simp)
  | cons c after =>
    rcases hafter c rfl with rfl | rfl
    · exact readAll_split_comment s hlines (by simp)
    · have hbody' : ∀ c ∈ body ++ ['\r'], c ≠ '\n' :=
        List.forall_mem_append.mpr ⟨hlines, by simp⟩
      have hnext : ∀ d ∈ after.head?, d = '\n' := fun d hd =>
        (List.isChain_cons.mp hbreaks).1 d hd rfl
      have hread := readAll_split_comment s hbody' hnext
      rw [List.append_assoc, List.singleton_append] at hread
      rw [hread, readAll_split_blank s (by decide)]

/-- A dollar sign or an at sign takes the name behind it along. -/
theorem split_marked {c d : Char} {kind : LexemeKind} {rest cut : List Char}
    (hmunch : ∀ text, Lexeme.munch c text = (kind, Lexeme.nameAt text))
    (hd : Lexeme.isNameStart d = true)
    (hcut : cut <+: rest.dropWhile Text.isNameChar) :
    split (c :: (d :: rest.takeWhile Text.isNameChar ++ cut)) =
      (⟨kind, c :: d :: rest.takeWhile Text.isNameChar⟩, cut) :: split cut := by
  apply Lexeme.split_of_munch
  have htakes : Takes (List.takeWhile Text.isNameChar) (rest.takeWhile Text.isNameChar)
      (rest.dropWhile Text.isNameChar) := by
    refine takes_takeWhile (fun e he => List.mem_takeWhile_imp he) fun e he => ?_
    have hstop := List.head?_dropWhile_not Text.isNameChar rest
    rw [Option.mem_def.mp he] at hstop
    simpa using hstop
  rw [hmunch, List.cons_append, Lexeme.nameAt, if_pos hd, htakes cut hcut]

end GrammarState

namespace SymbolList

variable {text behind : List Char} {k : Nat} {d : Char}

/-- A round that starts with a letter or an underscore gives a name. -/
theorem readAt_name (hdrop : text.drop k = d :: behind) (hd : Lexeme.isNameStart d = true) :
    ∃ y : Symbol, y.kind = .name ∧ y.value = String.ofList (d :: behind.takeWhile Text.isNameChar) ∧
      (readAt text k).symbols =
        y :: (readAt text (k + (d :: behind.takeWhile Text.isNameChar).length)).symbols := by
  obtain ⟨hsymbols, -⟩ := readAt_round hdrop
    (n := (behind.takeWhile Text.isNameChar).length) (by rw [Symbol.munch_name hd]; rfl)
  rw [Symbol.munch_name hd, found_symbol, List.singleton_append, Nat.add_right_comm] at hsymbols
  exact ⟨_, rfl, rfl, hsymbols⟩

/-- A mark takes one character. -/
theorem readAt_mark {c : Char}
    (hdrop : text.drop k = c :: behind) (hc : Symbol.munch c behind = .symbol .punctuator [c] 0) :
    (readAt text k).symbols = ⟨.punctuator, String.ofList [c], k, k + 1⟩ ::
      (readAt text (k + 1)).symbols := by
  obtain ⟨hsymbols, -⟩ := readAt_round hdrop (n := 0) (by rw [hc]; rfl)
  rwa [hc, found_symbol, List.singleton_append] at hsymbols

/-- A name that is read where a round starts starts with a letter or an underscore. -/
theorem exists_nameStart {y : Symbol} {more : List Symbol}
    (h : (readAt text k).symbols = y :: more) (hstart : y.start = k) (hkind : y.kind = .name) :
    ∃ d behind, text.drop k = d :: behind ∧ Lexeme.isNameStart d = true := by
  cases hdrop : text.drop k with
  | nil =>
    unfold readAt at h
    rw [hdrop, readFrom] at h
    cases h
  | cons d behind =>
    refine ⟨d, behind, rfl, ?_⟩
    have hshape := Symbol.munch_shape d behind
    cases hmunch : Symbol.munch d behind with
    | problem problem distance =>
      unfold readAt at h
      rw [hdrop, readFrom, hmunch] at h
      cases h
    | skipped n =>
      obtain ⟨hsymbols, -⟩ := readAt_round hdrop (n := n) (by rw [hmunch]; rfl)
      rw [hmunch, h, found_skipped, List.nil_append] at hsymbols
      have hmem : y ∈ (readAt text (k + 1 + n)).symbols := by
        rw [← hsymbols]
        exact List.mem_cons_self
      have hle := (start_of_mem_readAt hmem).1
      omega
    | symbol kind value n =>
      obtain ⟨hsymbols, -⟩ := readAt_round hdrop (n := n) (by rw [hmunch]; rfl)
      rw [hmunch, h, found_symbol] at hsymbols
      injection hsymbols with hy
      rw [hmunch] at hshape
      rw [hy] at hkind
      dsimp only at hkind
      subst hkind
      cases hshape with
      | name hd => exact hd
      | number _ hnumber => rcases (Symbol.number_spec hnumber).1 with h | h <;> cases h

end SymbolList

/-- Whether a name that comes behind an at sign follows it at once. -/
def Symbol.Attached (mark name : Symbol) : Prop :=
  mark.Is "@" → name.kind = .name ∧ name.start = mark.stop

instance (mark name : Symbol) : Decidable (mark.Attached name) :=
  inferInstanceAs (Decidable (_ → _))

/-- A text of which both readings find the same symbols: carriage returns stand only in front of
line feeds, there are no escaped quotes of block strings, and at signs are attached to names. -/
structure Tidy (text : List Char) : Prop where
  breaks : text.IsChain fun c d => c = '\r' → d = '\n'
  quotes : ¬ Symbol.escapedQuotes <:+: text
  attached : (SymbolList.ofText text).symbols.IsChain Symbol.Attached

namespace GrammarState
open Lexeme (split)

section

variable {text behind : List Char} {c d : Char} {k : Nat} {done rest : List Symbol}
  {x brace : Symbol} {s : GrammarState}

/-- The grammar reads the part of a text between an offset and the end of an opening brace the way
it reads the symbols there. -/
def ReadsAlike (text : List Char) (k : Nat) : Prop :=
  ∀ ⦃done brace rest⦄, (readAt text k).symbols = done ++ brace :: rest → brace.Is "\x7b" →
    ∀ s : GrammarState,
      Runs s (done ++ [brace]) (s.readAll (split (slice text k (brace.start + 1 : Nat))))

theorem le_start_of_readAt (h : (readAt text k).symbols = done ++ brace :: rest) :
    k ≤ brace.start := by
  have hmem : brace ∈ (readAt text k).symbols := by
    rw [h]
    simp
  exact (SymbolList.start_of_mem_readAt hmem).1

/-- A symbol that is no brace comes before the brace. -/
theorem exists_done {first : List Symbol} (h : x :: first = done ++ brace :: rest)
    (hne : x ≠ brace) : ∃ more, done = x :: more ∧ first = more ++ brace :: rest := by
  cases done with
  | nil =>
    injection h with hx _
    exact absurd hx hne
  | cons y more =>
    injection h with hx h
    exact ⟨more, by rw [hx], h⟩

/-- A mark and the name right behind it are one lexeme. -/
theorem runs_marked {kind : LexemeKind} (hdrop : text.drop k = c :: d :: behind)
    (hd : Lexeme.isNameStart d = true)
    (hmunch : ∀ text, Lexeme.munch c text = (kind, Lexeme.nameAt text))
    (halike : ReadsAlike text (k + 1 + (d :: behind.takeWhile Text.isNameChar).length))
    (h : (readAt text (k + 1)).symbols = done ++ brace :: rest) (hbrace : brace.Is "\x7b")
    (s : GrammarState) :
    ∃ y more ahead, done = y :: more ∧ y.kind = .name ∧
      y.value = String.ofList (d :: behind.takeWhile Text.isNameChar) ∧
        Runs (s.read ⟨kind, c :: d :: behind.takeWhile Text.isNameChar⟩ ahead).1 (more ++ [brace])
          (s.readAll (split (slice text k (brace.start + 1 : Nat)))) := by
  obtain ⟨y, hy, hvalue, hsymbols⟩ := SymbolList.readAt_name (k := k + 1)
    (by rw [← List.drop_drop, hdrop]; rfl) hd
  obtain ⟨more, rfl, hmore⟩ := exists_done (hsymbols.symm.trans h) (by
    rintro rfl
    cases hy.symm.trans hbrace.1)
  have hle := le_start_of_readAt hmore
  have hsplit : behind.takeWhile Text.isNameChar ++ behind.dropWhile Text.isNameChar = behind :=
    List.takeWhile_append_dropWhile
  have hdrop' : text.drop k =
      c :: (d :: behind.takeWhile Text.isNameChar ++ behind.dropWhile Text.isNameChar) := by
    rw [hdrop, List.cons_append, hsplit]
  obtain ⟨hslice, hcut⟩ := SymbolList.slice_round (m := brace.start + 1) hdrop' (by omega)
  have hrun := halike hmore hbrace
  generalize slice text (k + 1 + (d :: behind.takeWhile Text.isNameChar).length : Nat)
    (brace.start + 1 : Nat) = cut at hslice hcut hrun
  refine ⟨y, more, Lexeme.ahead cut, rfl, hy, hvalue, ?_⟩
  rw [hslice, split_marked hmunch hd hcut]
  exact hrun _

/-- A dollar sign, with a name right behind it or without. -/
theorem readsAlike_dollar (hdrop : text.drop k = '$' :: behind) (hrest : ReadsAlike text (k + 1))
    (hnamed : ∀ d behind', behind = d :: behind' → Lexeme.isNameStart d = true →
      ReadsAlike text (k + 1 + (d :: behind'.takeWhile Text.isNameChar).length)) :
    ReadsAlike text k := by
  intro done brace rest h hbrace s
  have hle := le_start_of_readAt h
  rw [SymbolList.readAt_mark hdrop rfl] at h
  obtain ⟨more, rfl, hmore⟩ := exists_done h (by
    rintro rfl
    exact absurd hbrace.2 (show String.ofList ['$'] ≠ "\x7b" by decide))
  by_cases hname : ∃ d behind', behind = d :: behind' ∧ Lexeme.isNameStart d = true
  · obtain ⟨d, behind', rfl, hd⟩ := hname
    obtain ⟨y, more, ahead, rfl, hy, -, hrun⟩ :=
      runs_marked hdrop hd (fun _ => rfl) (hnamed d behind' rfl hd) hmore hbrace s
    exact .variable ⟨rfl, rfl⟩ hy hrun
  · obtain ⟨hslice, hcut⟩ := SymbolList.slice_alone hdrop (m := brace.start + 1) (by omega)
    have hrun := hrest hmore hbrace s.readVariable
    generalize slice text (k + 1 : Nat) (brace.start + 1 : Nat) = cut at hslice hcut hrun
    have hmunch : Lexeme.munch '$' cut = (.variable, []) := by
      change (LexemeKind.variable, Lexeme.nameAt cut) = _
      cases cut with
      | nil => rfl
      | cons d cut =>
        have hd : ¬ Lexeme.isNameStart d = true := by
          intro hd
          obtain ⟨more, rfl⟩ := hcut
          exact hname ⟨d, cut ++ more, rfl, hd⟩
        rw [Lexeme.nameAt, if_neg hd]
    rw [hslice, Lexeme.split_alone hmunch]
    exact .dollar ⟨rfl, rfl⟩ hrun

/-- An at sign that is attached to a name. -/
theorem readsAlike_at (hdrop : text.drop k = '@' :: behind)
    (hattached : (readAt text k).symbols.IsChain Symbol.Attached)
    (hnamed : ∀ d behind', behind = d :: behind' → Lexeme.isNameStart d = true →
      ReadsAlike text (k + 1 + (d :: behind'.takeWhile Text.isNameChar).length)) :
    ReadsAlike text k := by
  intro done brace rest h hbrace s
  rw [SymbolList.readAt_mark hdrop rfl] at h hattached
  obtain ⟨more, rfl, hmore⟩ := exists_done h (by
    rintro rfl
    exact absurd hbrace.2 (show String.ofList ['@'] ≠ "\x7b" by decide))
  obtain ⟨y, first, hfirst⟩ : ∃ y first, (readAt text (k + 1)).symbols = y :: first := by
    rw [hmore]
    cases more with
    | nil => exact ⟨_, _, rfl⟩
    | cons y more => exact ⟨_, _, rfl⟩
  rw [hfirst, List.isChain_cons_cons] at hattached
  obtain ⟨hkind, hstart⟩ := hattached.1 ⟨rfl, rfl⟩
  obtain ⟨d, behind', hbehind, hd⟩ := SymbolList.exists_nameStart hfirst hstart hkind
  obtain rfl : behind = d :: behind' := by
    rw [← hbehind, ← List.drop_drop, hdrop]
    rfl
  obtain ⟨y, more, ahead, rfl, hy, hvalue, hrun⟩ :=
    runs_marked hdrop hd (fun _ => rfl) (hnamed d behind' rfl hd) hmore hbrace s
  refine .directive ⟨rfl, rfl⟩ hy ?_
  rw [hvalue]
  exact hrun

/-- A symbol that is a lexeme by itself. -/
theorem readsAlike_single {value : List Char} {kind : SymbolKind} {n : Nat}
    (hdrop : text.drop k = c :: behind) (hmunch : Symbol.munch c behind = .symbol kind value n)
    (hmark : c ≠ '$' ∧ c ≠ '@') (hfree : ¬ Symbol.escapedQuotes <:+: behind)
    (halike : ReadsAlike text (k + 1 + n)) : ReadsAlike text k := by
  intro done brace rest h hbrace s
  obtain ⟨hsymbols, -⟩ := SymbolList.readAt_round hdrop (n := n) (by rw [hmunch]; rfl)
  rw [hmunch, SymbolList.found_symbol, List.singleton_append, h] at hsymbols
  obtain ⟨piece, after, rfl, rfl, hreads⟩ := runs_of_munch hmunch hmark hfree
  cases done with
  | nil =>
    injection hsymbols with hx _
    rw [hx] at hbrace
    have hn : piece.length = 0 := by
      rcases symbol_cases hmunch with ⟨-, -, hn⟩ | ⟨-, rfl⟩ | hname | ⟨hne, -⟩
      · exact hn
      · exact absurd hbrace.2 (show String.ofList ['.', '.', '.'] ≠ "\x7b" by decide)
      · exact absurd (hbrace.1.symm.trans hname) nofun
      · exact absurd hbrace.1 hne
    obtain ⟨hslice, -⟩ := SymbolList.slice_round (m := brace.start + 1) hdrop (by
      rw [hx, hn])
    have hempty : slice text (k + 1 + piece.length : Nat) (brace.start + 1 : Nat) = [] := by
      rw [slice_eq_take_drop, hx, hn]
      simp
    obtain ⟨s₁, heq, hruns⟩ := hreads [] List.nil_prefix s
    rw [hslice, hempty, heq, Lexeme.split_nil]
    exact hruns brace [] _ (by rw [hx]) (by rw [hx]) (by simp [Lexeme.ahead]) (.nil _)
  | cons x done =>
    injection hsymbols with hx h'
    have hle := le_start_of_readAt h'.symm
    obtain ⟨hslice, hcut⟩ := SymbolList.slice_round (m := brace.start + 1) hdrop (by omega)
    obtain ⟨s₁, heq, hruns⟩ := hreads _ hcut s
    rw [hslice, heq]
    refine hruns x _ _ (by rw [hx]) (by rw [hx]) (fun hahead => ?_)
      (halike h'.symm hbrace s₁)
    obtain ⟨t, more, hmore, ht⟩ :=
      SymbolList.colon_of_ahead (k := k + 1 + piece.length) hcut hahead
    have hafter : text.drop (k + 1 + piece.length) = after := by
      rw [← List.drop_drop, ← List.drop_drop, hdrop]
      simp
    unfold readAt at h'
    rw [hafter, hmore] at h'
    refine ⟨t, ?_, ht⟩
    cases done with
    | nil =>
      injection h' with ht _
      exact congrArg some ht
    | cons y done =>
      injection h' with ht _
      exact congrArg some ht

/-- Blanks and comments. -/
theorem readsAlike_skipped {n : Nat} (hbreaks : text.IsChain fun c d => c = '\r' → d = '\n')
    (hdrop : text.drop k = c :: behind) (hmunch : Symbol.munch c behind = .skipped n)
    (halike : ReadsAlike text (k + 1 + n)) : ReadsAlike text k := by
  intro done brace rest h hbrace s
  obtain ⟨hsymbols, -⟩ := SymbolList.readAt_round hdrop (n := n) (by rw [hmunch]; rfl)
  rw [hmunch, SymbolList.found_skipped, List.nil_append] at hsymbols
  rw [hsymbols] at h
  have hle := le_start_of_readAt h
  have hrun := halike h hbrace s
  have hshape := Symbol.munch_shape c behind
  rw [hmunch] at hshape
  cases hshape with
  | blank hc =>
    obtain ⟨hslice, -⟩ := SymbolList.slice_alone hdrop (m := brace.start + 1) (by omega)
    rw [hslice, readAll_split_blank s hc]
    exact hrun
  | comment hc =>
    have hsplit : behind.takeWhile (fun c => decide (c ≠ '\n' ∧ c ≠ '\r')) ++
        behind.dropWhile (fun c => decide (c ≠ '\n' ∧ c ≠ '\r')) = behind :=
      List.takeWhile_append_dropWhile
    obtain ⟨hslice, hcut⟩ := SymbolList.slice_round (m := brace.start + 1)
      (hdrop.trans (congrArg (c :: ·) hsplit.symm)) (by omega)
    have hsuffix : behind <:+ text :=
      (List.suffix_cons c behind).trans (hdrop ▸ List.drop_suffix k text)
    rw [hslice, hc, readAll_split_line s]
    · exact hrun
    · intro d hd
      simpa using List.mem_takeWhile_imp hd
    · intro d hd
      have hstop := List.head?_dropWhile_not (fun c => decide (c ≠ '\n' ∧ c ≠ '\r')) behind
      rw [Option.mem_def.mp (mem_head?_of_cut hcut hd)] at hstop
      simpa [or_iff_not_imp_left] using hstop
    · obtain ⟨more, hmore⟩ := hcut
      have hrest := (hbreaks.suffix hsuffix).suffix
        (List.dropWhile_suffix fun c => decide (c ≠ '\n' ∧ c ≠ '\r'))
      rw [← hmore] at hrest
      exact hrest.left_of_append

/-- From every offset where a round starts a tidy text is read alike. The induction is on the text
left; a mark and its name take two rounds. -/
theorem readsAlike (hbreaks : text.IsChain fun c d => c = '\r' → d = '\n')
    (hquotes : ¬ Symbol.escapedQuotes <:+: text)
    (hattached : (readAt text k).symbols.IsChain Symbol.Attached) : ReadsAlike text k := by
  induction hm : text.length - k using Nat.strong_induction_on generalizing k with
  | _ m ih =>
    cases hdrop : text.drop k with
    | nil =>
      intro done brace rest h
      unfold readAt at h
      rw [hdrop, readFrom] at h
      simp at h
    | cons c behind =>
      have hk : k < text.length := by
        have hlength := congrArg List.length hdrop
        rw [List.length_drop, List.length_cons] at hlength
        omega
      have hsuffix : behind <:+ text :=
        (List.suffix_cons c behind).trans (hdrop ▸ List.drop_suffix k text)
      have hmarked (hc : Symbol.munch c behind = .symbol .punctuator [c] 0) :
          ReadsAlike text (k + 1) ∧
            ∀ d behind', behind = d :: behind' → Lexeme.isNameStart d = true →
              ReadsAlike text (k + 1 + (d :: behind'.takeWhile Text.isNameChar).length) := by
        have hchain : (readAt text (k + 1)).symbols.IsChain Symbol.Attached := by
          rw [SymbolList.readAt_mark hdrop hc] at hattached
          exact hattached.tail
        refine ⟨ih _ (by omega) hchain rfl, ?_⟩
        rintro d behind' rfl hd
        obtain ⟨y, -, -, hsymbols⟩ := SymbolList.readAt_name (k := k + 1)
          (by rw [← List.drop_drop, hdrop]; rfl) hd
        rw [hsymbols] at hchain
        exact ih _ (by rw [List.length_cons]; omega) hchain.tail rfl
      cases hmunch : Symbol.munch c behind with
      | problem problem distance =>
        intro done brace rest h
        unfold readAt at h
        rw [hdrop, readFrom, hmunch] at h
        simp at h
      | skipped n =>
        obtain ⟨hsymbols, -⟩ := SymbolList.readAt_round hdrop (n := n) (by rw [hmunch]; rfl)
        rw [hmunch, SymbolList.found_skipped, List.nil_append] at hsymbols
        exact readsAlike_skipped hbreaks hdrop hmunch (ih _ (by omega) (hsymbols ▸ hattached) rfl)
      | symbol kind value n =>
        by_cases hdollar : c = '$'
        · subst hdollar
          obtain ⟨hrest, hnamed⟩ := hmarked rfl
          exact readsAlike_dollar hdrop hrest hnamed
        by_cases hat : c = '@'
        · subst hat
          exact readsAlike_at hdrop hattached (hmarked rfl).2
        obtain ⟨hsymbols, -⟩ := SymbolList.readAt_round hdrop (n := n) (by rw [hmunch]; rfl)
        rw [hmunch, SymbolList.found_symbol, List.singleton_append] at hsymbols
        rw [hsymbols] at hattached
        exact readsAlike_single hdrop hmunch ⟨hdollar, hat⟩
          (fun h => hquotes (h.trans hsuffix.isInfix)) (ih _ (by omega) hattached.tail rfl)

end

/-- The state after the part of a tidy text through an opening brace comes from reading the symbols
up to there. -/
theorem runs_before {text : List Char} (htidy : Tidy text) {done rest : List Symbol}
    {brace : Symbol} (h : (SymbolList.ofText text).symbols = done ++ brace :: rest)
    (hbrace : brace.Is "\x7b") :
    Runs .initial (done ++ [brace]) (before text (brace.start + 1 : Nat)) :=
  readsAlike (k := 0) htidy.breaks htidy.quotes htidy.attached h hbrace .initial

end GrammarState
end EmbeddedGraphQL
