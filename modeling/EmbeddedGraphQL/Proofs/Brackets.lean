import EmbeddedGraphQL.Highlight.Grammar
import EmbeddedGraphQL.Proofs.Lexemes
import Mathlib

/-!
Brackets in the grammar of documents. Every opening brace and parenthesis opens a frame, but an
opening square bracket does so only where a list value may stand, and a closing one closes a frame
only if the innermost frame is such a list. The two decisions match: while properly nested brackets
are read, with any other lexemes in between, the open frames come back to what they were.
-/
namespace EmbeddedGraphQL

/-- The closing bracket for an opening one. -/
def closing? (c : Char) : Option Char :=
  if c = '(' then some ')' else if c = '{' then some '}' else if c = '[' then some ']' else none

def isClosing (c : Char) : Bool := c == ')' || c == '}' || c == ']'

def isBracket (c : Char) : Bool := (closing? c).isSome || isClosing c

/-- Sequences of brackets in which every bracket has its partner. -/
inductive Nested : List Char → Prop
  | nil : Nested []
  | pair {opening closing : Char} {inside after : List Char} :
      closing? opening = some closing → Nested inside → Nested after →
        Nested (opening :: inside ++ closing :: after)

/-- The closing brackets still owed after one more bracket, innermost first; nothing if the bracket
closes what is not open. -/
def owedAfter (owed : List Char) (c : Char) : Option (List Char) :=
  match closing? c with
  | some closing => some (closing :: owed)
  | none => if owed.head? = some c then some owed.tail else none

/-- The closing brackets still owed after a sequence of brackets. -/
def owedAfterAll (owed : List Char) : List Char → Option (List Char)
  | [] => some owed
  | c :: rest => (owedAfter owed c).bind (owedAfterAll · rest)

theorem owedAfterAll_append (owed first second : List Char) :
    owedAfterAll owed (first ++ second) =
      (owedAfterAll owed first).bind (owedAfterAll · second) := by
  induction first generalizing owed with
  | nil => rfl
  | cons c rest ih => cases h : owedAfter owed c <;> simp [owedAfterAll, h, ih]

private theorem closing?_closing {opening closing : Char} (h : closing? opening = some closing) :
    closing? closing = none := by
  unfold closing? at h
  split_ifs at h <;> cases h <;> rfl

theorem Nested.owedAfterAll {brackets : List Char} (h : Nested brackets) (owed : List Char) :
    owedAfterAll owed brackets = some owed := by
  induction h generalizing owed with
  | nil => rfl
  | pair hc _ _ hinside hafter =>
    rw [List.cons_append, EmbeddedGraphQL.owedAfterAll]
    simp only [owedAfter, hc, Option.bind_some, owedAfterAll_append, hinside]
    simp [EmbeddedGraphQL.owedAfterAll, owedAfter, closing?_closing hc, hafter]

private theorem eq_cons_of_owedAfter {owed owed' : List Char} {c : Char}
    (hc : closing? c = none) (h : owedAfter owed c = some owed') : owed = c :: owed' := by
  simp only [owedAfter, hc] at h
  split_ifs at h with hhead
  cases owed with
  | nil => simp at hhead
  | cons d rest => simp_all

theorem bracket_cases {c : Char} (h : isBracket c = true) :
    c = '{' ∨ c = '(' ∨ c = '[' ∨ c = '}' ∨ c = ')' ∨ c = ']' := by
  unfold isBracket closing? isClosing at h
  split_ifs at h with h1 h2 h3
  · exact Or.inr (Or.inl h1)
  · exact Or.inl h2
  · exact Or.inr (Or.inr (Or.inl h3))
  · simp only [Option.isSome_none, Bool.false_or, Bool.or_eq_true, beq_iff_eq] at h
    tauto

namespace Lexeme

/-- The brackets that a lexeme means to the grammar. -/
def brackets (l : Lexeme) : List Char :=
  if l.kind = .punctuator then l.text.filter isBracket else []

/-- The brackets of a buffer that stand outside strings and comments. -/
def outerBrackets (buffer : List Char) : List Char :=
  ((split buffer).map (·.1)).flatMap fun l =>
    if l.kind = .comment ∨ l.kind = .quotedString ∨ l.kind = .blockString then []
    else l.text.filter isBracket

private theorem isBracket_of_ne {c : Char} (h : isPunctuator c = false) :
    isBracket c = false := by
  by_contra hc
  rcases bracket_cases (by simpa using hc) with rfl | rfl | rfl | rfl | rfl | rfl <;>
    exact absurd h (by decide)

private theorem filter_isBracket_eq_nil {text : List Char}
    (h : ∀ c ∈ text, isPunctuator c = false) : text.filter isBracket = [] :=
  List.filter_eq_nil_iff.mpr fun c hc => by simp [isBracket_of_ne (h c hc)]

private theorem isPunctuator_cases {c : Char} (h : isPunctuator c = true) :
    c ∈ ['!', '(', ')', ':', '=', '[', ']', '{', '}', '|', '&'] := by
  simpa [isPunctuator, or_assoc] using h

private theorem isPunctuator_of_isNumberChar {c : Char}
    (h : c.isDigit = true ∨ c ∈ ['.', '-', '+', 'e', 'E']) : isPunctuator c = false := by
  by_contra hc
  have hmem := isPunctuator_cases (by simpa using hc)
  fin_cases hmem <;> exact absurd h (by decide)

private theorem isPunctuator_of_isNameChar {c : Char} (h : Text.isNameChar c = true) :
    isPunctuator c = false := by
  by_contra hc
  have hmem := isPunctuator_cases (by simpa using hc)
  fin_cases hmem <;> exact absurd h (by decide)

private theorem isPunctuator_of_isSpace {c : Char} (h : isSpace c = true) :
    isPunctuator c = false := by
  simp only [isSpace, Bool.or_eq_true, beq_iff_eq] at h
  rcases h with ((rfl | rfl) | rfl) | rfl <;> decide

/-- Brackets outside strings and comments are punctuators. -/
theorem Shape.brackets {l : Lexeme} {after : List Char} (h : Shape l.kind l.text after) :
    (if l.kind = .comment ∨ l.kind = .quotedString ∨ l.kind = .blockString then []
      else l.text.filter isBracket) = l.brackets := by
  obtain ⟨kind, text⟩ := l
  unfold Lexeme.brackets
  dsimp only at h ⊢
  cases h with
  | comment | quotedString | blockString | punctuator => simp
  | space hall _ =>
    simpa using filter_isBracket_eq_nil fun c hc => isPunctuator_of_isSpace (hall c hc)
  | «variable» hall _ | directive hall _ =>
    rw [if_neg (by decide), if_neg (by decide)]
    exact filter_isBracket_eq_nil (List.forall_mem_cons.mpr
      ⟨by decide, fun c hc => isPunctuator_of_isNameChar (hall c hc)⟩)
  | name hall _ =>
    simpa using filter_isBracket_eq_nil fun c hc => isPunctuator_of_isNameChar (hall c hc)
  | number hall =>
    simpa using filter_isBracket_eq_nil fun c hc => isPunctuator_of_isNumberChar (hall c hc)
  | stray _ _ _ _ hp _ => simpa using isBracket_of_ne hp
  | lineBreak | comma | spread => rfl

/-- The brackets of a buffer outside strings and comments are those that its lexemes mean to the
grammar. -/
theorem outerBrackets_eq (buffer : List Char) :
    outerBrackets buffer = (split buffer).flatMap (·.1.brackets) := by
  unfold outerBrackets
  rw [List.flatMap_map]
  exact List.flatMap_congr fun l hl => (split_shape buffer l hl).brackets

end Lexeme

namespace GrammarState

/-- A type is expected only where no list value is open. -/
def TypeInPlace (s : GrammarState) : Prop :=
  s.expect = some .type → s.frameKind ≠ some .listValue

/-- How the open frames stand to the closing brackets owed since the frames were `base`. A square
bracket that opened no frame was read where the innermost frame was no list. -/
inductive Tracks (base : List Frame) : List Char → List Frame → Prop
  | start : Tracks base [] base
  | brace {owed : List Char} {frames : List Frame} {f : Frame} :
      f.kind ∈ [.selectionSet, .objectValue, .fieldsDefinition] → Tracks base owed frames →
        Tracks base ('}' :: owed) (f :: frames)
  | paren {owed : List Char} {frames : List Frame} {f : Frame} :
      f.kind ∈ [.arguments, .variableDefinitions, .argumentsDefinition] →
        Tracks base owed frames → Tracks base (')' :: owed) (f :: frames)
  | list {owed : List Char} {frames : List Frame} {f : Frame} :
      f.kind = .listValue → Tracks base owed frames → Tracks base (']' :: owed) (f :: frames)
  | unopened {owed : List Char} {frames : List Frame} :
      frames.head?.map (·.kind) ≠ some .listValue → Tracks base owed frames →
        Tracks base (']' :: owed) frames

section

variable {base frames : List Frame} {owed : List Char}

theorem Tracks.brace_inv (h : Tracks base ('}' :: owed) frames) :
    ∃ f rest, frames = f :: rest ∧ f.kind ∈ [.selectionSet, .objectValue, .fieldsDefinition] ∧
      Tracks base owed rest := by
  cases h with
  | brace hf h => exact ⟨_, _, rfl, hf, h⟩

theorem Tracks.paren_inv (h : Tracks base (')' :: owed) frames) :
    ∃ f rest, frames = f :: rest ∧
      f.kind ∈ [.arguments, .variableDefinitions, .argumentsDefinition] ∧
      Tracks base owed rest := by
  cases h with
  | paren hf h => exact ⟨_, _, rfl, hf, h⟩

theorem Tracks.list_inv (h : Tracks base (']' :: owed) frames) :
    (∃ f rest, frames = f :: rest ∧ f.kind = .listValue ∧ Tracks base owed rest) ∨
      frames.head?.map (·.kind) ≠ some .listValue ∧ Tracks base owed frames := by
  cases h with
  | list hf h => exact Or.inl ⟨_, _, rfl, hf, h⟩
  | unopened hlist h => exact Or.inr ⟨hlist, h⟩

end

theorem Tracks.eq_base {base frames : List Frame} (h : Tracks base [] frames) :
    frames = base := by
  cases h
  rfl

/-- A brace pushes a frame that a brace closes. -/
theorem openBrace_eq (s : GrammarState) (expected : Option Expectation) :
    ∃ kind ∈ [BracketKind.selectionSet, .objectValue, .fieldsDefinition], ∃ owner,
      s.openBrace expected =
        { s.push kind owner none with pendingType := .nothing, lastName := none } := by
  unfold openBrace
  dsimp only
  split_ifs <;> (try split) <;> (try split) <;> (try split_ifs) <;>
    exact ⟨_, by simp, _, rfl⟩

/-- A parenthesis pushes a frame that a parenthesis closes. -/
theorem openParen_eq (s : GrammarState) (directive : Option String) :
    ∃ kind ∈ [BracketKind.arguments, .variableDefinitions, .argumentsDefinition],
      ∃ owner savedName, s.openParen directive = s.push kind owner savedName := by
  unfold openParen
  split <;> (try split_ifs) <;> exact ⟨_, by simp, _, _, rfl⟩

theorem openBracket_stack (s : GrammarState) (expected : Option Expectation)
    (hs : expected = some .type → s.frameKind ≠ some .listValue) :
    (∃ f : Frame, f.kind = .listValue ∧ (s.openBracket expected).stack = f :: s.stack) ∨
      (s.openBracket expected).stack = s.stack ∧ s.frameKind ≠ some .listValue := by
  unfold openBracket
  split_ifs with htype hvalue
  · exact Or.inr ⟨rfl, hs htype⟩
  · exact Or.inl ⟨_, rfl, rfl⟩
  · refine Or.inr ⟨rfl, fun hlist => hvalue (Or.inr ?_)⟩
    simp [isValueBracket, hlist]

theorem close_stack {s : GrammarState} {kinds : List BracketKind} {f : Frame}
    {frames : List Frame} (hs : s.stack = f :: frames) (hf : f.kind ∈ kinds) :
    (s.close kinds).stack = frames := by
  unfold close
  simp only [hs, hf, not_true_eq_false, ↓reduceIte]
  split <;> split_ifs <;> rfl

theorem closeBracket_stack {s : GrammarState} {f : Frame} {frames : List Frame}
    (hs : s.stack = f :: frames) (hf : f.kind = .listValue) :
    s.closeBracket.stack = frames := by
  obtain ⟨kind, owner, savedName⟩ := f
  cases hf
  simp [closeBracket, hs, afterValue]

theorem closeBracket_stack_of_ne {s : GrammarState} (hs : s.frameKind ≠ some .listValue) :
    s.closeBracket.stack = s.stack := by
  unfold closeBracket
  split
  next owner savedName frames hstack => simp [frameKind, frame, hstack] at hs
  next => rfl

theorem readColon_stack (s : GrammarState) : s.readColon.stack = s.stack := by
  unfold readColon
  split <;> rfl

theorem readEquals_stack (s : GrammarState) : s.readEquals.stack = s.stack := by
  unfold readEquals
  split <;> (try split_ifs) <;> rfl

/-- A punctuator that is no bracket leaves the open frames alone. -/
theorem readPunctuator_stack (s : GrammarState) {c : Char} (hc : isBracket c = false) :
    (s.readPunctuator c).stack = s.stack := by
  have hne : c ≠ '{' ∧ c ≠ '}' ∧ c ≠ '(' ∧ c ≠ ')' ∧ c ≠ '[' ∧ c ≠ ']' := by
    refine ⟨?_, ?_, ?_, ?_, ?_, ?_⟩ <;> rintro rfl <;> exact absurd hc (by decide)
  obtain ⟨h1, h2, h3, h4, h5, h6⟩ := hne
  simp only [readPunctuator, if_neg h1, if_neg h2, if_neg h3, if_neg h4, if_neg h5, if_neg h6]
  split_ifs
  · exact readColon_stack _
  · exact readEquals_stack _
  all_goals rfl

/-- One bracket moves the open frames the way it moves the closing brackets owed. -/
theorem Tracks.readPunctuator {base : List Frame} {s : GrammarState} {c : Char}
    {owed owed' : List Char} (h : Tracks base owed s.stack) (hs : s.TypeInPlace)
    (hc : isBracket c = true) (howed : owedAfter owed c = some owed') :
    Tracks base owed' (s.readPunctuator c).stack := by
  let idle : GrammarState := { s with expect := none, pendingDirective := none }
  rcases bracket_cases hc with rfl | rfl | rfl | rfl | rfl | rfl
  · cases howed
    obtain ⟨kind, hkind, owner, heq⟩ := openBrace_eq idle s.expect
    have hopen : (s.readPunctuator '{').stack = ⟨kind, owner, none⟩ :: s.stack :=
      congrArg stack heq
    rw [hopen]
    exact Tracks.brace hkind h
  · cases howed
    obtain ⟨kind, hkind, owner, savedName, heq⟩ := openParen_eq idle s.pendingDirective
    have hopen : (s.readPunctuator '(').stack = ⟨kind, owner, savedName⟩ :: s.stack :=
      congrArg stack heq
    rw [hopen]
    exact Tracks.paren hkind h
  · cases howed
    obtain ⟨f, hf, hstack⟩ | ⟨hstack, hlist⟩ := openBracket_stack idle s.expect hs
    · have hopen : (s.readPunctuator '[').stack = f :: s.stack := hstack
      rw [hopen]
      exact Tracks.list hf h
    · have hsame : (s.readPunctuator '[').stack = s.stack := hstack
      rw [hsame]
      exact Tracks.unopened hlist h
  · obtain rfl := eq_cons_of_owedAfter rfl howed
    obtain ⟨f, frames, hstack, hf, h⟩ := h.brace_inv
    have hclose : (s.readPunctuator '}').stack = frames := close_stack (s := idle) hstack hf
    rwa [hclose]
  · obtain rfl := eq_cons_of_owedAfter rfl howed
    obtain ⟨f, frames, hstack, hf, h⟩ := h.paren_inv
    have hclose : (s.readPunctuator ')').stack = frames := close_stack (s := idle) hstack hf
    rwa [hclose]
  · obtain rfl := eq_cons_of_owedAfter rfl howed
    obtain ⟨f, frames, hstack, hf, h⟩ | ⟨hlist, h⟩ := h.list_inv
    · have hclose : (s.readPunctuator ']').stack = frames :=
        closeBracket_stack (s := idle) hstack hf
      rwa [hclose]
    · have hsame : (s.readPunctuator ']').stack = s.stack :=
        closeBracket_stack_of_ne (s := idle) hlist
      rwa [hsame]

theorem typeInPlace_of_ne {s : GrammarState} (h : s.expect ≠ some .type) : s.TypeInPlace :=
  fun htype => absurd htype h

theorem typeInPlace_of_nil {s : GrammarState} (h : s.stack = []) : s.TypeInPlace := by
  intro _
  simp [frameKind, frame, h]

theorem typeInPlace_of_frameKind {s : GrammarState} {kind : Option BracketKind}
    {expect : Option Expectation} (h : s.frameKind = kind) (hkind : kind ≠ some .listValue) :
    TypeInPlace { s with expect } :=
  fun _ hlist => hkind (h.symm.trans hlist)

theorem afterValue_typeInPlace (s : GrammarState) : s.afterValue.TypeInPlace := by
  apply typeInPlace_of_ne
  unfold afterValue
  dsimp only
  split_ifs <;> simp

theorem openBrace_typeInPlace {s : GrammarState} (expected : Option Expectation)
    (hnone : s.expect = none) : (s.openBrace expected).TypeInPlace := by
  obtain ⟨kind, -, owner, heq⟩ := openBrace_eq s expected
  exact typeInPlace_of_ne (by simp [heq, push, hnone])

theorem openParen_typeInPlace {s : GrammarState} (directive : Option String)
    (hnone : s.expect = none) : (s.openParen directive).TypeInPlace := by
  obtain ⟨kind, -, owner, savedName, heq⟩ := openParen_eq s directive
  exact typeInPlace_of_ne (by simp [heq, push, hnone])

theorem openBracket_typeInPlace {s : GrammarState} {expected : Option Expectation}
    (hs : expected = some .type → s.frameKind ≠ some .listValue) (hnone : s.expect = none) :
    (s.openBracket expected).TypeInPlace := by
  unfold openBracket
  split_ifs with htype hvalue
  · exact fun _ => hs htype
  · exact typeInPlace_of_ne (by simp)
  · exact typeInPlace_of_ne (by simp [hnone])

theorem close_typeInPlace {s : GrammarState} (hnone : s.expect = none)
    (kinds : List BracketKind) : (s.close kinds).TypeInPlace := by
  unfold close
  split
  · exact typeInPlace_of_ne (by simp [hnone])
  next closed rest hstack =>
    by_cases hmem : closed.kind ∉ kinds
    · rw [if_pos hmem]
      exact typeInPlace_of_ne (by simp [hnone])
    · rw [if_neg hmem]
      dsimp only
      split
      · split_ifs <;> exact typeInPlace_of_ne (by simp [hnone])
      · split_ifs
        · exact afterValue_typeInPlace _
        all_goals exact typeInPlace_of_ne (by simp [hnone])

theorem closeBracket_typeInPlace {s : GrammarState} (hnone : s.expect = none) :
    s.closeBracket.TypeInPlace := by
  unfold closeBracket
  split
  · exact afterValue_typeInPlace _
  · exact typeInPlace_of_ne (by simp [hnone])

theorem readColon_typeInPlace {s : GrammarState} (hnone : s.expect = none) :
    s.readColon.TypeInPlace := by
  unfold readColon
  split
  · exact typeInPlace_of_ne (by simp)
  · exact typeInPlace_of_ne (by simp)
  · exact typeInPlace_of_frameKind (s := s) ‹_› (by simp)
  · exact typeInPlace_of_frameKind (s := s) ‹_› (by simp)
  · exact typeInPlace_of_frameKind (s := s) ‹_› (by simp)
  · exact typeInPlace_of_ne (by simp [hnone])

theorem readEquals_typeInPlace {s : GrammarState} (hnone : s.expect = none) :
    s.readEquals.TypeInPlace := by
  unfold readEquals
  split
  · exact typeInPlace_of_ne (by simp)
  · exact typeInPlace_of_ne (by simp)
  next hkind =>
    split_ifs
    · exact typeInPlace_of_frameKind (s := s) hkind (by simp)
    · exact typeInPlace_of_ne (by simp [hnone])
  · exact typeInPlace_of_ne (by simp [hnone])

theorem readPunctuator_typeInPlace {s : GrammarState} (hs : s.TypeInPlace) (c : Char) :
    (s.readPunctuator c).TypeInPlace := by
  have hcase {p : Prop} [Decidable p] {first second : GrammarState}
      (hfirst : p → first.TypeInPlace) (hsecond : second.TypeInPlace) :
      (if p then first else second).TypeInPlace :=
    iteInduction (motive := TypeInPlace) hfirst fun _ => hsecond
  unfold readPunctuator
  dsimp only
  refine hcase (fun _ => openBrace_typeInPlace _ rfl) ?_
  refine hcase (fun _ => close_typeInPlace rfl _) ?_
  refine hcase (fun _ => openParen_typeInPlace _ rfl) ?_
  refine hcase (fun _ => close_typeInPlace rfl _) ?_
  refine hcase (fun _ => openBracket_typeInPlace hs rfl) ?_
  refine hcase (fun _ => closeBracket_typeInPlace rfl) ?_
  refine hcase (fun _ => readColon_typeInPlace rfl) ?_
  refine hcase (fun _ => readEquals_typeInPlace rfl) ?_
  refine hcase (fun _ => hcase (fun hempty => ?_) ?_) ?_
  · exact typeInPlace_of_nil (List.isEmpty_iff.mp hempty)
  all_goals exact typeInPlace_of_ne (by simp)

theorem topLevelName_typeInPlace {s : GrammarState} (hempty : s.stack = [])
    (name : String) : (s.topLevelName name).1.TypeInPlace := by
  apply typeInPlace_of_nil
  unfold topLevelName
  split <;> (try split_ifs) <;> exact hempty

theorem bracketedName_typeInPlace {s : GrammarState} (hnone : s.expect = none)
    (kind : BracketKind) (name : String) (ahead : Option Char) :
    (s.bracketedName kind name ahead).1.TypeInPlace := by
  cases kind with
  | listValue => exact afterValue_typeInPlace _
  | _ =>
    apply typeInPlace_of_ne
    simp only [bracketedName]
    (try split_ifs) <;> simp [hnone]

theorem readName_typeInPlace (s : GrammarState) (name : String) (ahead : Option Char) :
    (s.readName name ahead).1.TypeInPlace := by
  unfold readName
  dsimp only
  split
  · apply typeInPlace_of_ne
    dsimp only
    split_ifs <;> simp
  · split_ifs <;> exact typeInPlace_of_ne (by simp)
  · split_ifs <;> exact typeInPlace_of_ne (by simp)
  · split_ifs <;> exact typeInPlace_of_ne (by simp)
  · exact typeInPlace_of_ne (by simp)
  · exact afterValue_typeInPlace _
  · split
    next hkind => exact topLevelName_typeInPlace (by simpa [frameKind, frame] using hkind) name
    next => exact bracketedName_typeInPlace rfl _ name ahead

theorem readName_stack (s : GrammarState) (name : String) (ahead : Option Char) :
    (s.readName name ahead).1.stack = s.stack := by
  unfold readName
  dsimp only
  split
  · rfl
  · split_ifs <;> rfl
  · split_ifs <;> rfl
  · split_ifs <;> rfl
  · rfl
  · rfl
  · split
    · unfold topLevelName
      split <;> (try split_ifs) <;> rfl
    · unfold bracketedName
      split <;> (try split_ifs) <;> rfl

theorem readVariable_stack (s : GrammarState) : s.readVariable.stack = s.stack := by
  unfold readVariable
  dsimp only
  split_ifs <;> rfl

theorem readDirective_stack (s : GrammarState) (name : String) :
    (s.readDirective name).stack = s.stack := by
  unfold readDirective
  dsimp only
  split_ifs <;> rfl

/-- A lexeme that is no punctuator leaves the open frames alone. -/
theorem read_stack_of_ne {s : GrammarState} {l : Lexeme} (hl : l.kind ≠ .punctuator)
    (ahead : Option Char) : (s.read l ahead).1.stack = s.stack := by
  cases hkind : l.kind <;> simp only [read, hkind]
  case punctuator => exact absurd hkind hl
  case «variable» => exact readVariable_stack s
  case directive => exact readDirective_stack s _
  case name => exact readName_stack s _ ahead
  all_goals rfl

theorem readVariable_typeInPlace (s : GrammarState) : s.readVariable.TypeInPlace := by
  unfold readVariable
  dsimp only
  split_ifs
  · exact afterValue_typeInPlace _
  · exact typeInPlace_of_ne (by simp)

theorem readDirective_typeInPlace (s : GrammarState) (name : String) :
    (s.readDirective name).TypeInPlace := by
  unfold readDirective
  dsimp only
  split_ifs <;> exact typeInPlace_of_ne (by simp)

theorem foldl_readPunctuator_typeInPlace (text : List Char) {s : GrammarState}
    (hs : s.TypeInPlace) : (text.foldl readPunctuator s).TypeInPlace := by
  induction text generalizing s with
  | nil => exact hs
  | cons c rest ih => exact ih (readPunctuator_typeInPlace hs c)

theorem read_typeInPlace {s : GrammarState} (hs : s.TypeInPlace) (l : Lexeme)
    (ahead : Option Char) : (s.read l ahead).1.TypeInPlace := by
  cases hkind : l.kind <;> simp only [read, hkind]
  case punctuator => exact foldl_readPunctuator_typeInPlace l.text hs
  case «variable» => exact readVariable_typeInPlace s
  case directive => exact readDirective_typeInPlace s _
  case name => exact readName_typeInPlace s _ ahead
  case spread => exact typeInPlace_of_ne (by simp [readSpread])
  case blockString | quotedString | number => exact afterValue_typeInPlace s
  all_goals exact hs

/-- In every state that lexemes lead to, a type is expected only where no list value is open. -/
theorem readAll_typeInPlace {s : GrammarState} (hs : s.TypeInPlace)
    (lexemes : List (Lexeme × List Char)) : (s.readAll lexemes).TypeInPlace := by
  induction lexemes generalizing s with
  | nil => exact hs
  | cons l rest ih => exact ih (read_typeInPlace hs l.1 _)

theorem initial_typeInPlace : initial.TypeInPlace := typeInPlace_of_nil rfl

theorem Tracks.foldl_readPunctuator {base : List Frame} {text : List Char} {s : GrammarState}
    {owed owed' : List Char} (h : Tracks base owed s.stack) (hs : s.TypeInPlace)
    (howed : owedAfterAll owed (text.filter isBracket) = some owed') :
    Tracks base owed' (text.foldl GrammarState.readPunctuator s).stack := by
  induction text generalizing s owed with
  | nil => cases howed; exact h
  | cons c rest ih =>
    have hplace := readPunctuator_typeInPlace hs c
    cases hc : isBracket c with
    | false =>
      rw [List.filter_cons_of_neg (by simp [hc])] at howed
      exact ih (by rwa [readPunctuator_stack s hc]) hplace howed
    | true =>
      rw [List.filter_cons_of_pos hc, owedAfterAll] at howed
      obtain ⟨next, hnext, hrest⟩ := Option.bind_eq_some_iff.mp howed
      exact ih (h.readPunctuator hs hc hnext) hplace hrest

/-- One lexeme moves the open frames the way its brackets move the closing brackets owed. -/
theorem Tracks.read {base : List Frame} {s : GrammarState} {l : Lexeme} {owed owed' : List Char}
    (h : Tracks base owed s.stack) (hs : s.TypeInPlace) (ahead : Option Char)
    (howed : owedAfterAll owed l.brackets = some owed') :
    Tracks base owed' (s.read l ahead).1.stack := by
  unfold Lexeme.brackets at howed
  split_ifs at howed with hl
  · simp only [GrammarState.read, hl]
    exact h.foldl_readPunctuator hs howed
  · cases howed
    rwa [read_stack_of_ne hl]

theorem Tracks.readAll {base : List Frame} {s : GrammarState} {owed owed' : List Char}
    {lexemes : List (Lexeme × List Char)} (h : Tracks base owed s.stack) (hs : s.TypeInPlace)
    (howed : owedAfterAll owed (lexemes.flatMap (·.1.brackets)) = some owed') :
    Tracks base owed' (s.readAll lexemes).stack := by
  induction lexemes generalizing s owed with
  | nil => cases howed; exact h
  | cons l rest ih =>
    rw [List.flatMap_cons, owedAfterAll_append] at howed
    obtain ⟨next, hnext, hrest⟩ := Option.bind_eq_some_iff.mp howed
    exact ih (h.read hs _ hnext) (read_typeInPlace hs l.1 _) hrest

/-- Properly nested brackets, with any other lexemes in between, leave the open frames as they were,
in whatever state they are read. Where all brackets of a buffer outside strings and comments are
properly nested, no frame is open at its end. -/
theorem nested_restores_frames :
    (∀ earlier lexemes : List (Lexeme × List Char), Nested (lexemes.flatMap (·.1.brackets)) →
      ((initial.readAll earlier).readAll lexemes).stack = (initial.readAll earlier).stack) ∧
    ∀ buffer : List Char, Nested (Lexeme.outerBrackets buffer) →
      (initial.readAll (Lexeme.split buffer)).stack = [] := by
  have hkeep (s : GrammarState) (hs : s.TypeInPlace) (lexemes : List (Lexeme × List Char))
      (h : Nested (lexemes.flatMap (·.1.brackets))) : (s.readAll lexemes).stack = s.stack :=
    (Tracks.start.readAll hs (h.owedAfterAll [])).eq_base
  constructor
  · intro earlier lexemes h
    exact hkeep _ (readAll_typeInPlace initial_typeInPlace earlier) lexemes h
  · intro buffer h
    rw [Lexeme.outerBrackets_eq] at h
    exact hkeep initial initial_typeInPlace _ h

/-- A list in a list, read where an argument is expected and in a buffer of its own. -/
theorem nested_restores_frames_list :
    let lexemes := Lexeme.split "\x7ba: [1, [2]]\x7d".toList
    (Nested (lexemes.flatMap (·.1.brackets)) ∧
      ((initial.readAll (Lexeme.split "\x7bf(".toList)).readAll lexemes).stack =
        (initial.readAll (Lexeme.split "\x7bf(".toList)).stack) ∧
    Nested (Lexeme.outerBrackets "\x7bf(a: [1, [2]])\x7d#(".toList) ∧
      (initial.readAll (Lexeme.split "\x7bf(a: [1, [2]])\x7d#(".toList)).stack = [] := by
  have square : Nested ['[', ']'] := Nested.pair rfl .nil .nil
  have squares : Nested ['[', '[', ']', ']'] := Nested.pair rfl square .nil
  have first : Nested ((Lexeme.split "\x7ba: [1, [2]]\x7d".toList).flatMap (·.1.brackets)) := by
    have hread : (Lexeme.split "\x7ba: [1, [2]]\x7d".toList).flatMap (·.1.brackets) =
      ['{', '[', '[', ']', ']', '}'] := by cbv
    rw [hread]
    exact Nested.pair rfl squares .nil
  have second : Nested (Lexeme.outerBrackets "\x7bf(a: [1, [2]])\x7d#(".toList) := by
    have hread : Lexeme.outerBrackets "\x7bf(a: [1, [2]])\x7d#(".toList =
      ['{', '(', '[', '[', ']', ']', ')', '}'] := by cbv
    rw [hread]
    exact Nested.pair rfl (Nested.pair rfl squares .nil) .nil
  exact ⟨⟨first, nested_restores_frames.1 _ _ first⟩, second, nested_restores_frames.2 _ second⟩

end GrammarState
end EmbeddedGraphQL
