import EmbeddedGraphQL.Proofs.Openings
import EmbeddedGraphQL.Proofs.SymbolRuns
import Mathlib

/-!
States of the grammar around the braces of selection sets. What the next selection set belongs to is
known from the words in front of it, and arguments and directives in between do not change it.
-/
namespace EmbeddedGraphQL
namespace GrammarState

/-- What the selection set of a definition belongs to. -/
def definitionOwner (definition : Option DefinitionKeyword) (fragmentType : Option String) :
    Owner :=
  match definition with
  | some .fragment => .type fragmentType
  | some definition => .root definition
  | none => .root .query

/-- What a selection set in another one belongs to. -/
def selectionOwner (pendingType : Pending) (lastName : Option String) : Owner :=
  match pendingType with
  | .typed name => .type (some name)
  | .untyped => .inline
  | .nothing => .field lastName

/-- What a selection set that opens next belongs to. -/
def nextOwner (s : GrammarState) : Owner :=
  match s.stack with
  | [] => definitionOwner s.definition s.fragmentType
  | _ :: _ => selectionOwner s.pendingType s.lastName

/-- Whether a brace would open a selection set. -/
def OpensSet (s : GrammarState) : Prop :=
  s.expect ≠ some .value ∧
    (s.stack = [] ∧ (s.definition.all fun definition => !definition.hasBody) = true ∨
      s.frameKind = some .selectionSet)

theorem readPunctuator_openBrace {s : GrammarState} (h : s.OpensSet) :
    (s.readPunctuator '\x7b').stack = ⟨.selectionSet, s.nextOwner, none⟩ :: s.stack ∧
      (s.readPunctuator '\x7b').expect = none := by
  obtain ⟨hvalue, hplace⟩ := h
  obtain ⟨stack, definition, definitionName, fragmentType, expect, lastName, pendingType, _⟩ := s
  change (openBrace _ expect).stack = _ ∧ (openBrace _ expect).expect = none
  unfold openBrace
  rw [if_neg hvalue]
  rcases hplace with ⟨hstack, hbody⟩ | hframe
  · cases hstack
    cases definition with
    | none => exact ⟨rfl, rfl⟩
    | some definition => cases definition <;> first | exact ⟨rfl, rfl⟩ | cases hbody
  · obtain ⟨⟨kind, owner, savedName⟩, hhead, hkind⟩ := exists_frame hframe
    obtain ⟨outer, hstack⟩ := List.head?_eq_some_iff.mp hhead
    cases hstack
    cases hkind
    cases pendingType <;> exact ⟨rfl, rfl⟩

theorem readPunctuator_closeBrace {s : GrammarState} {f : Frame} {outer : List Frame}
    (h : s.stack = f :: outer) (hf : f.kind = .selectionSet) :
    (s.readPunctuator '\x7d').stack = outer ∧ (s.readPunctuator '\x7d').expect = none ∧
      (outer = [] → (s.readPunctuator '\x7d').definition = none) := by
  obtain ⟨stack, definition, definitionName, fragmentType, expect, lastName, pendingType, _⟩ := s
  obtain ⟨kind, owner, savedName⟩ := f
  cases h
  cases hf
  cases outer with
  | nil => exact ⟨rfl, rfl, fun _ => rfl⟩
  | cons g outer => exact ⟨rfl, rfl, nofun⟩

/-- Arguments and directives leave a state in which the brace opens the same selection set. -/
theorem Steady.opensSet {taken : List Symbol} {s s₁ : GrammarState} (h : Steady taken s s₁)
    (hs : s.OpensSet) :
    s₁.OpensSet ∧ (s.stack = [] ∨ s.Harmless taken → s₁.nextOwner = s.nextOwner) := by
  have hframe : s₁.frameKind = s.frameKind := congrArg (·.head?.map (·.kind)) h.stack
  refine ⟨⟨?_, ?_⟩, fun hkept => ?_⟩
  · rcases h.expect with heq | hnone
    · rw [heq]
      exact hs.1
    · simp [hnone]
  · rw [h.stack, h.definition, hframe]
    exact hs.2
  · unfold nextOwner
    rw [h.stack]
    cases hstack : s.stack with
    | nil =>
      dsimp only
      rw [h.definition, h.fragmentType]
    | cons f outer =>
      have hharmless := hkept.resolve_left (by simp [hstack])
      have hselection := hs.2.resolve_left (by simp [hstack])
      dsimp only
      rw [h.pendingType hharmless, h.lastName hselection]

/-! Between selections and in front of braces -/

/-- The frames of a selection set on top of frames of some kind. -/
def Above (F : List Frame → Prop) (W : Owner → Prop) (stack : List Frame) : Prop :=
  ∃ owner outer, W owner ∧ F outer ∧ stack = ⟨.selectionSet, owner, none⟩ :: outer

/-- Frames of some kind have a selection set on top. -/
def InSet (F : List Frame → Prop) : Prop :=
  ∀ ⦃stack⦄, F stack → ∃ f outer, stack = f :: outer ∧ f.kind = .selectionSet

theorem above_inSet (F : List Frame → Prop) (W : Owner → Prop) : InSet (Above F W) := by
  rintro stack ⟨owner, outer, -, -, rfl⟩
  exact ⟨_, outer, rfl, rfl⟩

/-- The state between two selections, or between two definitions. -/
structure Between (F : List Frame → Prop) (s : GrammarState) : Prop where
  stack : F s.stack
  expect : s.expect = none
  definition : s.stack = [] → s.definition = none

/-- The state in front of the brace of a selection set. -/
structure Ready (F : List Frame → Prop) (W : Owner → Prop) (s : GrammarState) : Prop where
  stack : F s.stack
  opens : s.OpensSet
  owner : W s.nextOwner

section

variable {F : List Frame → Prop} {W : Owner → Prop} {s : GrammarState}

theorem Ready.openBrace (h : Ready F W s) : Between (Above F W) (s.readPunctuator '\x7b') := by
  obtain ⟨hstack, hnone⟩ := readPunctuator_openBrace h.opens
  exact ⟨⟨_, _, h.owner, h.stack, hstack⟩, hnone, fun h => by simp [hstack] at h⟩

theorem Between.closeBrace (h : Between (Above F W) s) : Between F (s.readPunctuator '\x7d') := by
  obtain ⟨owner, outer, -, houter, hstack⟩ := h.stack
  obtain ⟨hclosed, hnone, hdefinition⟩ := readPunctuator_closeBrace hstack rfl
  exact ⟨hclosed.symm ▸ houter, hnone, fun h => hdefinition (hclosed.symm.trans h)⟩

theorem frameKind_of_inSet (hF : InSet F) (h : F s.stack) : s.frameKind = some .selectionSet := by
  obtain ⟨f, outer, hstack, hkind⟩ := hF h
  rw [frameKind_of_stack hstack, hkind]

theorem Between.steady (hF : InSet F) (h : Between F s) {taken : List Symbol} {s₁ : GrammarState}
    (hsteady : Steady taken s s₁) : Between F s₁ := by
  refine ⟨hsteady.stack.symm ▸ h.stack, ?_, fun hempty => ?_⟩
  · rcases hsteady.expect with heq | hnone
    · exact heq.trans h.expect
    · exact hnone
  · obtain ⟨f, outer, hstack, -⟩ := hF h.stack
    rw [hsteady.stack, hstack] at hempty
    cases hempty

/-- The first name of a field, or the second one behind its alias. -/
theorem Between.readName (hF : InSet F) (h : Between F s) (name : String) (ahead : Option Char) :
    Between F (s.readName name ahead).1 ∧ (s.readName name ahead).1.pendingType = .nothing ∧
      (ahead ≠ some ':' → (s.readName name ahead).1.nextOwner = .field (some name)) := by
  obtain ⟨f, outer, hstack, hkind⟩ := hF h.stack
  have hframe : frameKind { s with expect := none, pendingDirective := none } =
      some .selectionSet := frameKind_of_inSet hF h.stack
  unfold GrammarState.readName
  simp only [h.expect, hframe, bracketedName]
  split_ifs with hcolon
  · exact ⟨⟨h.stack, rfl, h.definition⟩, rfl, fun hne => absurd hcolon hne⟩
  · refine ⟨⟨h.stack, rfl, h.definition⟩, rfl, fun _ => ?_⟩
    simp only [nextOwner, hstack]
    rfl

theorem Between.readColon (hF : InSet F) (h : Between F s) : Between F (s.readPunctuator ':') := by
  have hframe : frameKind { s with expect := none, pendingDirective := none } =
      some .selectionSet := frameKind_of_inSet hF h.stack
  change Between F (GrammarState.readColon { s with expect := none, pendingDirective := none })
  unfold GrammarState.readColon
  rw [hframe]
  exact ⟨h.stack, rfl, h.definition⟩

/-- The dots of a spread or an inline fragment. -/
theorem readSpread_ready (hF : InSet F) (h : F s.stack) :
    Ready F (· = .inline) s.readSpread := by
  obtain ⟨f, outer, hstack, -⟩ := hF h
  refine ⟨h, ⟨by simp [readSpread], Or.inr (frameKind_of_inSet hF h)⟩, ?_⟩
  simp only [nextOwner, readSpread, hstack]
  rfl

/-- The word `on` and a type behind dots. -/
theorem readType_ready (hF : InSet F) (h : F s.stack) (type : String) (ahead ahead' : Option Char) :
    Ready F (· = .type (some type))
      ((s.readSpread.readName "on" ahead).1.readName type ahead').1 := by
  obtain ⟨f, outer, hstack, -⟩ := hF h
  obtain ⟨stack, _⟩ := s
  cases hstack
  exact ⟨h, ⟨nofun, Or.inr (frameKind_of_inSet hF h)⟩, rfl⟩

/-- The name of a fragment behind dots. -/
theorem readSpread_readName (hF : InSet F) (h : F s.stack) {name : String} (hname : name ≠ "on")
    (ahead : Option Char) : Between F (s.readSpread.readName name ahead).1 := by
  obtain ⟨f, outer, hstack, -⟩ := hF h
  have heq : (s.readSpread.readName name ahead).1 =
      { s with expect := none, pendingType := .nothing, pendingDirective := none } := by
    simp [GrammarState.readName, readSpread, hname]
  rw [heq]
  exact ⟨h, rfl, fun hempty => by simp [hstack] at hempty⟩

/-- Arguments and directives in front of a brace. Where no brace is among them, or no inline
fragment waits for one, the owner stays. -/
theorem Ready.steady {owner : Owner} {kept : Prop} (h : Ready F (· = owner) s)
    {taken : List Symbol} {s₁ : GrammarState} (hsteady : Steady taken s s₁)
    (hkept : kept → s.stack = [] ∨ s.Harmless taken) : Ready F (kept → · = owner) s₁ := by
  obtain ⟨hopens, howner⟩ := hsteady.opensSet h.opens
  exact ⟨hsteady.stack.symm ▸ h.stack, hopens, fun hk => (howner (hkept hk)).trans h.owner⟩

theorem Ready.kept {owner : Owner} (h : Ready F (· = owner) s) {taken : List Symbol}
    {s₁ : GrammarState} (hsteady : Steady taken s s₁) (hkept : s.stack = [] ∨ s.Harmless taken) :
    Ready F (· = owner) s₁ := by
  obtain ⟨hstack, hopens, howner⟩ := h.steady hsteady fun _ : True => hkept
  exact ⟨hstack, hopens, howner trivial⟩

/-- The name of a field, with what may come between it and its brace. -/
theorem Between.readField (hF : InSet F) (h : Between F s) (name : String) {ahead : Option Char}
    (hahead : ahead ≠ some ':') {taken : List Symbol} {s₁ : GrammarState}
    (hsteady : Steady taken (s.readName name ahead).1 s₁) :
    Ready F (· = .field (some name)) s₁ := by
  obtain ⟨hbetween, hnothing, howner⟩ := h.readName hF name ahead
  have hready : Ready F (· = .field (some name)) (s.readName name ahead).1 :=
    ⟨hbetween.stack, ⟨by simp [hbetween.expect], Or.inr (frameKind_of_inSet hF hbetween.stack)⟩,
      howner hahead⟩
  exact hready.kept hsteady (Or.inr (Or.inl hnothing))

/-! In front of the selection sets of definitions -/

/-- The state behind the keyword of an operation. -/
structure Announced (definition : DefinitionKeyword) (s : GrammarState) : Prop where
  stack : s.stack = []
  expect : s.expect = some .definitionName
  definition : s.definition = some definition

theorem Between.readKeyword (h : Between (· = []) s) {kind : OperationKind} {word : String}
    (hword : OperationKind.ofWord? word = some kind) (ahead : Option Char) :
    Announced kind.keyword (s.readName word ahead).1 := by
  obtain ⟨stack, definition, definitionName, fragmentType, expect, lastName, pendingType, _⟩ := s
  obtain ⟨hstack, hexpect, -⟩ := h
  cases hstack
  cases hexpect
  have hmem := List.mem_of_find?_eq_some hword
  have hsame := List.find?_some hword
  rw [beq_iff_eq] at hsame
  subst hsame
  cases kind <;> exact ⟨rfl, rfl, rfl⟩

theorem ready_root {kind : OperationKind} (hstack : s.stack = [])
    (hdefinition : s.definition = some kind.keyword) (hexpect : s.expect ≠ some .value) :
    Ready (· = []) (· = .root kind.keyword) s := by
  refine ⟨hstack, ⟨hexpect, Or.inl ⟨hstack, ?_⟩⟩, ?_⟩
  · rw [hdefinition]
    cases kind <;> rfl
  · simp only [nextOwner, hstack, hdefinition]
    cases kind <;> rfl

/-- Without a word in front a brace opens a query. -/
theorem Between.ready (h : Between (· = []) s) : Ready (· = []) (· = .root .query) s := by
  have hdefinition := h.definition h.stack
  refine ⟨h.stack, ⟨by simp [h.expect], Or.inl ⟨h.stack, by simp [hdefinition]⟩⟩, ?_⟩
  simp only [nextOwner, h.stack, hdefinition]
  rfl

theorem Announced.ready {kind : OperationKind} (h : Announced kind.keyword s) :
    Ready (· = []) (· = .root kind.keyword) s :=
  ready_root h.stack h.definition (by simp [h.expect])

/-- The name of an operation. -/
theorem Announced.readName {kind : OperationKind} (h : Announced kind.keyword s) (name : String)
    (ahead : Option Char) :
    Ready (· = []) (· = .root kind.keyword) (s.readName name ahead).1 := by
  have hne : s.definition ≠ some .fragment := by
    rw [h.definition]
    cases kind <;> decide
  have heq : (s.readName name ahead).1 =
      { s with expect := none, definitionName := some name, pendingDirective := none } := by
    simp only [GrammarState.readName, h.expect, if_neg hne]
  rw [heq]
  exact ready_root h.stack h.definition (by simp)

/-- The words in front of the directives of a fragment. -/
theorem Between.readFragment (h : Between (· = []) s) (fragmentName type : String)
    (a₁ a₂ a₃ a₄ : Option Char) :
    Ready (· = []) (· = .type (some type)) ((((s.readName "fragment" a₁).1.readName fragmentName
      a₂).1.readName "on" a₃).1.readName type a₄).1 := by
  obtain ⟨stack, definition, definitionName, fragmentType, expect, lastName, pendingType, _⟩ := s
  obtain ⟨hstack, hexpect, -⟩ := h
  cases hstack
  cases hexpect
  exact ⟨rfl, ⟨nofun, Or.inl ⟨rfl, rfl⟩⟩, rfl⟩

end

end GrammarState
end EmbeddedGraphQL
