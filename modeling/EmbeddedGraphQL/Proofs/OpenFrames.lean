import EmbeddedGraphQL.Proofs.Brackets
import Mathlib

/-!
Open frames in the grammar of documents. Whatever lexemes are read, each frame fits on the frame
beneath it: selection sets stand on selection sets only, values never stand on one, and definitions
of fields and of variables stand at the bottom. What is expected next fits the innermost frame.
-/
namespace EmbeddedGraphQL

/-- Whether a frame may stand on the frame beneath it, of which there is none at the bottom. -/
def Frame.Fits (f : Frame) (below : Option Frame) : Prop :=
  match f.kind, below with
  | .selectionSet, none => (∃ operation, f.owner = .root operation) ∨ ∃ name, f.owner = .type name
  | .selectionSet, some g => g.kind = .selectionSet ∧
      (f.owner = .inline ∨ ∃ name, f.owner = .field name ∨ f.owner = .type name)
  | .fieldsDefinition, below | .variableDefinitions, below => below = none
  | .listValue, below | .objectValue, below => ∃ g, below = some g ∧ g.kind ≠ .selectionSet
  | .arguments, _ | .argumentsDefinition, _ => True

/-- Frames, innermost first, each of which fits on the one beneath it. -/
inductive Stacked : List Frame → Prop
  | nil : Stacked []
  | cons {f : Frame} {below : List Frame} :
    f.Fits below.head? → Stacked below → Stacked (f :: below)

namespace Stacked

variable {frames inner outer : List Frame} {f : Frame}

theorem of_append (h : Stacked (inner ++ outer)) : Stacked outer := by
  induction inner with
  | nil => exact h
  | cons g rest ih =>
    cases h with
    | cons _ h => exact ih h

theorem fits (h : Stacked (inner ++ f :: outer)) : f.Fits outer.head? := by
  cases h.of_append with
  | cons hf _ => exact hf

theorem fits_bottom (h : Stacked frames) (hf : frames.getLast? = some f) : f.Fits none := by
  obtain ⟨inner, rfl⟩ := List.getLast?_eq_some_iff.mp hf
  exact h.fits

theorem fits_above (h : Stacked frames) (hf : f ∈ frames.dropLast) : ∃ g, f.Fits (some g) := by
  obtain ⟨inner, outer, hsplit⟩ := List.append_of_mem hf
  have hne : frames ≠ [] := by
    rintro rfl
    simp at hf
  have hframes := (List.dropLast_append_getLast hne).symm
  rw [hsplit, List.append_assoc, List.cons_append] at hframes
  cases outer with
  | nil => exact ⟨_, (hframes ▸ h).fits⟩
  | cons g outer => exact ⟨g, (hframes ▸ h).fits⟩

/-- On a selection set stand selection sets alone. -/
theorem all_selections (h : Stacked (f :: frames)) (hf : f.kind = .selectionSet) :
    ∀ g ∈ f :: frames, g.kind = .selectionSet := by
  induction frames generalizing f with
  | nil => simpa using hf
  | cons g rest ih =>
    cases h with
    | cons hfits h =>
      simp only [Frame.Fits, hf, List.head?_cons] at hfits
      exact List.forall_mem_cons.mpr ⟨hf, ih h hfits.1⟩

theorem exists_split (h : Stacked frames) : ∃ inner outer, frames = inner ++ outer ∧
    (∀ g ∈ inner, g.kind ≠ .selectionSet) ∧ ∀ g ∈ outer, g.kind = .selectionSet := by
  induction h with
  | nil => exact ⟨[], [], rfl, by simp, by simp⟩
  | @cons f below hf h ih =>
    by_cases hkind : f.kind = .selectionSet
    · exact ⟨[], f :: below, rfl, by simp, (Stacked.cons hf h).all_selections hkind⟩
    · obtain ⟨inner, outer, rfl, hinner, houter⟩ := ih
      exact ⟨f :: inner, outer, rfl, List.forall_mem_cons.mpr ⟨hkind, hinner⟩, houter⟩

end Stacked

namespace GrammarState

/-- What values may be read in, apart from selection sets. -/
def valueFrames : List BracketKind :=
  [.arguments, .objectValue, .listValue, .variableDefinitions, .argumentsDefinition]

def typeFrames : List BracketKind :=
  [.variableDefinitions, .fieldsDefinition, .argumentsDefinition]

/-- Whether what is expected fits the innermost frame. -/
def ExpectationFits (s : GrammarState) : Prop :=
  match s.expect with
  | some .value => ∃ kind ∈ valueFrames, s.frameKind = some kind
  | some .definitionName | some .on => s.stack = [] ∧ s.definition.isSome = true
  | some .type => s.stack = [] ∨ ∃ kind ∈ typeFrames, s.frameKind = some kind
  | some .typeCondition | some .spread | none => True

structure Orderly (s : GrammarState) : Prop where
  stacked : Stacked s.stack
  expectation : s.ExpectationFits

theorem frameKind_eq_none_iff {s : GrammarState} : s.frameKind = none ↔ s.stack = [] := by
  simp [frameKind, frame]

theorem exists_frame {s : GrammarState} {kind : BracketKind} (h : s.frameKind = some kind) :
    ∃ f, s.stack.head? = some f ∧ f.kind = kind := by
  simpa [frameKind, frame] using h

section

variable {s : GrammarState}

theorem orderly_of_none (h : Stacked s.stack) (hnone : s.expect = none) : s.Orderly :=
  ⟨h, by simp [ExpectationFits, hnone]⟩

theorem afterValue_orderly (h : Stacked s.stack) : s.afterValue.Orderly := by
  refine ⟨h, ?_⟩
  unfold ExpectationFits afterValue
  dsimp only
  split_ifs with hlist
  · exact ⟨.listValue, by simp [valueFrames], hlist⟩
  · trivial

theorem topLevelName_orderly (h : Stacked s.stack) (hempty : s.stack = [])
    (hnone : s.expect = none) (name : String) : (s.topLevelName name).1.Orderly := by
  have hidle := orderly_of_none h hnone
  unfold topLevelName
  split
  · refine ⟨h, ?_⟩
    unfold ExpectationFits
    dsimp only
    split_ifs
    · trivial
    · exact ⟨hempty, rfl⟩
  · split_ifs
    · exact hidle
    · exact ⟨h, Or.inl hempty⟩
    · exact hidle
    · exact hidle
    · exact hidle

theorem bracketedName_orderly (h : Stacked s.stack) (hnone : s.expect = none)
    (kind : BracketKind) (name : String) (ahead : Option Char) :
    (s.bracketedName kind name ahead).1.Orderly := by
  cases kind with
  | listValue => exact afterValue_orderly h
  | variableDefinitions => exact orderly_of_none h hnone
  | selectionSet | arguments | objectValue | argumentsDefinition | fieldsDefinition =>
    simp only [bracketedName]
    split_ifs <;> exact orderly_of_none h hnone

theorem readName_orderly (h : s.Orderly) (name : String) (ahead : Option Char) :
    (s.readName name ahead).1.Orderly := by
  obtain ⟨hstacked, hexpect⟩ := h
  unfold readName
  dsimp only
  split
  next hdefinition =>
    simp only [ExpectationFits, hdefinition] at hexpect
    refine ⟨hstacked, ?_⟩
    unfold ExpectationFits
    dsimp only
    split_ifs
    · exact hexpect
    · trivial
  · split_ifs <;> exact ⟨hstacked, trivial⟩
  · split_ifs <;> exact ⟨hstacked, trivial⟩
  · split_ifs <;> exact ⟨hstacked, trivial⟩
  · exact ⟨hstacked, trivial⟩
  · exact afterValue_orderly hstacked
  · let idle : GrammarState := { s with expect := none, pendingDirective := none }
    split
    next hkind =>
      have hempty := frameKind_eq_none_iff.mp hkind
      exact topLevelName_orderly (s := idle) hstacked hempty rfl name
    next => exact bracketedName_orderly (s := idle) hstacked rfl _ name ahead

theorem readVariable_orderly (h : Stacked s.stack) : s.readVariable.Orderly := by
  unfold readVariable
  dsimp only
  split_ifs
  · exact afterValue_orderly h
  · exact orderly_of_none h rfl

theorem readDirective_orderly (h : Stacked s.stack) (name : String) :
    (s.readDirective name).Orderly := by
  unfold readDirective
  dsimp only
  split_ifs <;> exact orderly_of_none h rfl

/-- A value frame fits where a value is expected, and inside other value frames. -/
theorem fits_of_frameKind {kind : BracketKind} (h : s.frameKind = some kind)
    (hkind : kind ≠ .selectionSet) {f : Frame} (hf : f.kind = .listValue ∨ f.kind = .objectValue) :
    f.Fits s.stack.head? := by
  obtain ⟨g, hg, rfl⟩ := exists_frame h
  rcases hf with hf | hf <;> simp only [Frame.Fits, hf] <;> exact ⟨g, hg, hkind⟩

theorem ne_selectionSet_of_mem {kind : BracketKind} (h : kind ∈ valueFrames) :
    kind ≠ .selectionSet := by
  rintro rfl
  exact absurd h (by decide)

theorem openBrace_stacked {expected : Option Expectation} (h : Stacked s.stack)
    (hexpect : expected = some .value → ∃ kind ∈ valueFrames, s.frameKind = some kind) :
    Stacked (s.openBrace expected).stack := by
  unfold openBrace
  dsimp only
  split_ifs with hvalue
  · obtain ⟨kind, hmem, hkind⟩ := hexpect hvalue
    exact .cons (fits_of_frameKind hkind (ne_selectionSet_of_mem hmem) (Or.inr rfl)) h
  split
  next hnone =>
    have hempty := frameKind_eq_none_iff.mp hnone
    split
    · refine .cons ?_ h
      rw [hempty]
      exact Or.inr ⟨_, rfl⟩
    · split_ifs
      · refine .cons ?_ h
        rw [hempty]
        rfl
      · refine .cons ?_ h
        rw [hempty]
        exact Or.inl ⟨_, rfl⟩
    · refine .cons ?_ h
      rw [hempty]
      exact Or.inl ⟨_, rfl⟩
  next hselection =>
    obtain ⟨g, hg, hkind⟩ := exists_frame hselection
    split <;> refine .cons ?_ h <;> rw [hg]
    · exact ⟨hkind, Or.inr ⟨_, Or.inr rfl⟩⟩
    · exact ⟨hkind, Or.inl rfl⟩
    · exact ⟨hkind, Or.inr ⟨_, Or.inl rfl⟩⟩
  next kind hother hkind =>
    exact .cons (fits_of_frameKind hkind (fun heq => hother heq) (Or.inr rfl)) h

theorem openParen_stacked (h : Stacked s.stack) (directive : Option String) :
    Stacked (s.openParen directive).stack := by
  unfold openParen
  split
  · exact .cons trivial h
  next hnone =>
    have hempty := frameKind_eq_none_iff.mp hnone
    split_ifs <;> refine .cons ?_ h
    · rw [hempty]
      rfl
    · trivial
  all_goals exact .cons trivial h

theorem openBracket_orderly {expected : Option Expectation} (h : Stacked s.stack)
    (hnone : s.expect = none) (hexpect : { s with expect := expected }.ExpectationFits) :
    (s.openBracket expected).Orderly := by
  unfold openBracket
  split_ifs with htype hvalue
  · subst htype
    exact ⟨h, hexpect⟩
  · have hframe : ∃ kind ≠ BracketKind.selectionSet, s.frameKind = some kind := by
      rcases hvalue with rfl | hvalue
      · obtain ⟨kind, hmem, hkind⟩ := hexpect
        exact ⟨kind, ne_selectionSet_of_mem hmem, hkind⟩
      · simp only [isValueBracket, Bool.or_eq_true, beq_iff_eq] at hvalue
        rcases hvalue with (hkind | hkind) | hkind <;> exact ⟨_, by simp, hkind⟩
    obtain ⟨kind, hne, hkind⟩ := hframe
    exact ⟨.cons (fits_of_frameKind hkind hne (Or.inl rfl)) h,
      .listValue, by simp [valueFrames], rfl⟩
  · exact orderly_of_none h hnone

theorem closeBracket_orderly (h : Stacked s.stack) (hnone : s.expect = none) :
    s.closeBracket.Orderly := by
  unfold closeBracket
  split
  next hstack =>
    rw [hstack] at h
    cases h with
    | cons _ h => exact afterValue_orderly h
  next => exact orderly_of_none h hnone

theorem close_orderly (h : Stacked s.stack) (hnone : s.expect = none) (kinds : List BracketKind) :
    (s.close kinds).Orderly := by
  unfold close
  split
  · exact orderly_of_none h hnone
  next closed rest hstack =>
    have hrest : Stacked rest := by
      rw [hstack] at h
      cases h with
      | cons _ h => exact h
    by_cases hmem : closed.kind ∉ kinds
    · rw [if_pos hmem]
      exact orderly_of_none h hnone
    · rw [if_neg hmem]
      dsimp only
      split
      · split_ifs <;> exact orderly_of_none hrest hnone
      · split_ifs
        · exact afterValue_orderly hrest
        · exact orderly_of_none hrest hnone
        · exact orderly_of_none hrest hnone

theorem readColon_orderly (h : Stacked s.stack) (hnone : s.expect = none) :
    s.readColon.Orderly := by
  unfold readColon
  split
  next hkind => exact ⟨h, .arguments, by simp [valueFrames], hkind⟩
  next hkind => exact ⟨h, .objectValue, by simp [valueFrames], hkind⟩
  next hkind => exact ⟨h, Or.inr ⟨.variableDefinitions, by simp [typeFrames], hkind⟩⟩
  next hkind => exact ⟨h, Or.inr ⟨.fieldsDefinition, by simp [typeFrames], hkind⟩⟩
  next hkind => exact ⟨h, Or.inr ⟨.argumentsDefinition, by simp [typeFrames], hkind⟩⟩
  next => exact orderly_of_none h hnone

theorem readEquals_orderly (h : Stacked s.stack) (hnone : s.expect = none) :
    s.readEquals.Orderly := by
  unfold readEquals
  split
  next hkind => exact ⟨h, .variableDefinitions, by simp [valueFrames], hkind⟩
  next hkind => exact ⟨h, .argumentsDefinition, by simp [valueFrames], hkind⟩
  next hkind =>
    split_ifs
    · exact ⟨h, Or.inl (frameKind_eq_none_iff.mp hkind)⟩
    · exact orderly_of_none h hnone
  next => exact orderly_of_none h hnone

theorem readPunctuator_orderly (h : s.Orderly) (c : Char) : (s.readPunctuator c).Orderly := by
  obtain ⟨hstacked, hexpect⟩ := h
  let idle : GrammarState := { s with expect := none, pendingDirective := none }
  have hcase {p : Prop} [Decidable p] {first second : GrammarState}
      (hfirst : p → first.Orderly) (hsecond : second.Orderly) :
      (if p then first else second).Orderly :=
    iteInduction (motive := Orderly) hfirst fun _ => hsecond
  have hvalue : s.expect = some .value → ∃ kind ∈ valueFrames, idle.frameKind = some kind := by
    intro heq
    simp only [ExpectationFits, heq] at hexpect
    exact hexpect
  have hidle : idle.Orderly := orderly_of_none hstacked rfl
  unfold readPunctuator
  dsimp only
  refine hcase (fun _ => ?_) ?_
  · obtain ⟨kind, -, owner, heq⟩ := openBrace_eq idle s.expect
    exact orderly_of_none (openBrace_stacked (s := idle) hstacked hvalue) (congrArg expect heq)
  refine hcase (fun _ => close_orderly (s := idle) hstacked rfl _) ?_
  refine hcase (fun _ => ?_) ?_
  · obtain ⟨kind, -, owner, savedName, heq⟩ := openParen_eq idle s.pendingDirective
    exact orderly_of_none (openParen_stacked (s := idle) hstacked _) (congrArg expect heq)
  refine hcase (fun _ => close_orderly (s := idle) hstacked rfl _) ?_
  refine hcase (fun _ => openBracket_orderly (s := idle) hstacked rfl hexpect) ?_
  refine hcase (fun _ => closeBracket_orderly (s := idle) hstacked rfl) ?_
  refine hcase (fun _ => readColon_orderly (s := idle) hstacked rfl) ?_
  refine hcase (fun _ => readEquals_orderly (s := idle) hstacked rfl) ?_
  refine hcase (fun _ => hcase (fun hempty => ?_) hidle) hidle
  exact ⟨hstacked, Or.inl (List.isEmpty_iff.mp hempty)⟩

theorem read_orderly (h : s.Orderly) (l : Lexeme) (ahead : Option Char) :
    (s.read l ahead).1.Orderly := by
  cases hkind : l.kind <;> simp only [read, hkind]
  case punctuator =>
    generalize l.text = text
    induction text generalizing s with
    | nil => exact h
    | cons c rest ih => exact ih (readPunctuator_orderly h c)
  case «variable» => exact readVariable_orderly h.stacked
  case directive => exact readDirective_orderly h.stacked _
  case name => exact readName_orderly h _ ahead
  case spread => exact ⟨h.stacked, trivial⟩
  case blockString | quotedString | number => exact afterValue_orderly h.stacked
  all_goals exact h

end

/-- The states that lexemes lead to, each read with any character ahead. -/
inductive Reachable : GrammarState → Prop
  | initial : Reachable initial
  | read {s : GrammarState} (l : Lexeme) (ahead : Option Char) :
      Reachable s → Reachable (s.read l ahead).1

theorem Reachable.readAll {s : GrammarState} (h : Reachable s)
    (lexemes : List (Lexeme × List Char)) : Reachable (s.readAll lexemes) := by
  induction lexemes generalizing s with
  | nil => exact h
  | cons l rest ih => exact ih (h.read l.1 _)

theorem Reachable.orderly {s : GrammarState} (h : Reachable s) : s.Orderly := by
  induction h with
  | initial => exact orderly_of_none .nil rfl
  | read l ahead _ ih => exact read_orderly ih l ahead

/-- How the open frames of a state, innermost first, stand to one another and to what is expected
next. -/
structure Arranged (s : GrammarState) : Prop where
  selections_outermost : ∃ inner outer, s.stack = inner ++ outer ∧
    (∀ f ∈ inner, f.kind ≠ .selectionSet) ∧ ∀ f ∈ outer, f.kind = .selectionSet
  bottom_selection : ∀ f, s.stack.getLast? = some f → f.kind = .selectionSet →
    (∃ operation, f.owner = .root operation) ∨ ∃ name, f.owner = .type name
  inner_selection : ∀ f ∈ s.stack.dropLast, f.kind = .selectionSet →
    f.owner = .inline ∨ ∃ name, f.owner = .field name ∨ f.owner = .type name
  field_above : ∀ inner f outer, s.stack = inner ++ f :: outer → f.kind = .selectionSet →
    (f.owner = .inline ∨ ∃ name, f.owner = .field name) → outer ≠ []
  definitions_bottom : ∀ f ∈ s.stack.dropLast,
    f.kind ≠ .fieldsDefinition ∧ f.kind ≠ .variableDefinitions
  values_above : ∀ inner f outer, s.stack = inner ++ f :: outer →
    f.kind = .listValue ∨ f.kind = .objectValue →
      ∃ below, outer.head? = some below ∧ below.kind ≠ .selectionSet
  value_expected : s.expect = some .value → ∃ kind ∈ valueFrames, s.frameKind = some kind
  definition_expected : s.expect = some .definitionName ∨ s.expect = some .on →
    s.stack = [] ∧ s.definition.isSome = true
  type_expected : s.expect = some .type →
    s.stack = [] ∨ ∃ kind ∈ typeFrames, s.frameKind = some kind

/-- In every state that lexemes lead to, selection sets are the outermost frames, the bottom one
belongs to an operation or a type and those above it to a field, a type or nothing; definitions of
fields and of variables are bottom frames, values stand on anything but selection sets, and what is
expected next fits the innermost frame. -/
theorem reachable_arranged {s : GrammarState} (h : Reachable s) : s.Arranged := by
  obtain ⟨hstacked, hexpect⟩ := h.orderly
  unfold ExpectationFits at hexpect
  constructor
  case selections_outermost => exact hstacked.exists_split
  case bottom_selection =>
    intro f hf hkind
    simpa only [Frame.Fits, hkind] using hstacked.fits_bottom hf
  case inner_selection =>
    intro f hf hkind
    obtain ⟨g, hfits⟩ := hstacked.fits_above hf
    simp only [Frame.Fits, hkind] at hfits
    exact hfits.2
  case field_above =>
    rintro inner f outer hsplit hkind howner rfl
    have hfits := (hsplit ▸ hstacked).fits
    simp only [Frame.Fits, hkind, List.head?_nil] at hfits
    rcases howner with heq | ⟨name, heq⟩ <;> simp [heq] at hfits
  case definitions_bottom =>
    intro f hf
    obtain ⟨g, hfits⟩ := hstacked.fits_above hf
    constructor <;> intro hkind <;> simp [Frame.Fits, hkind] at hfits
  case values_above =>
    intro inner f outer hsplit hkind
    have hfits := (hsplit ▸ hstacked).fits
    rcases hkind with hkind | hkind <;> simpa only [Frame.Fits, hkind] using hfits
  case value_expected =>
    intro heq
    simpa only [heq] using hexpect
  case definition_expected =>
    intro heq
    rcases heq with heq | heq <;> simpa only [heq] using hexpect
  case type_expected =>
    intro heq
    simpa only [heq] using hexpect

/-- A list among the arguments of a field. -/
theorem reachable_arranged_list :
    let s := initial.readAll (Lexeme.split "\x7bf(a: [".toList)
    s.stack.map (·.kind) = [.listValue, .arguments, .selectionSet] ∧ s.expect = some .value ∧
      Reachable s ∧ s.Arranged := by
  have hstack : (initial.readAll (Lexeme.split "\x7bf(a: [".toList)).stack.map (·.kind) =
    [.listValue, .arguments, .selectionSet] := by cbv
  have hexpect : (initial.readAll (Lexeme.split "\x7bf(a: [".toList)).expect = some .value := by cbv
  have hreachable := Reachable.initial.readAll (Lexeme.split "\x7bf(a: [".toList)
  exact ⟨hstack, hexpect, hreachable, reachable_arranged hreachable⟩

end GrammarState
end EmbeddedGraphQL
