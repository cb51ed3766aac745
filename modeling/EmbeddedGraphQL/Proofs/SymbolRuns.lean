import EmbeddedGraphQL.Proofs.OpenFrames
import EmbeddedGraphQL.Proofs.Phrases
import Mathlib

/-!
The tolerant grammar on symbols. A symbol stands for the lexeme it was written as; only the names
behind dollar signs and at signs may be taken along with these. What is read between parentheses
leaves what was known in front of them, unless a brace comes among it.
-/
namespace EmbeddedGraphQL
namespace GrammarState

/-- How the grammar gets from one state to another while symbols are read. A colon may be seen ahead
of a name only if it is the next symbol. -/
inductive Runs : GrammarState → List Symbol → GrammarState → Prop
  | nil (s : GrammarState) : Runs s [] s
  | literal {s s' : GrammarState} {x : Symbol} {rest : List Symbol} : x.kind ≠ .punctuator →
      x.kind ≠ .name → Runs s.afterValue rest s' → Runs s (x :: rest) s'
  | punctuator {s s' : GrammarState} {x : Symbol} {rest : List Symbol} {c : Char} :
      x.Is (String.ofList [c]) → c ≠ '$' ∧ c ≠ '@' → Runs (s.readPunctuator c) rest s' →
        Runs s (x :: rest) s'
  | spread {s s' : GrammarState} {x : Symbol} {rest : List Symbol} : x.Is "..." →
      Runs s.readSpread rest s' → Runs s (x :: rest) s'
  | name {s s' : GrammarState} {x : Symbol} {rest : List Symbol} {ahead : Option Char} :
      x.kind = .name → (ahead = some ':' → ∃ t ∈ rest.head?, t.Is ":") →
        Runs (s.readName x.value ahead).1 rest s' → Runs s (x :: rest) s'
  | dollar {s s' : GrammarState} {mark : Symbol} {rest : List Symbol} : mark.Is "$" →
      Runs s.readVariable rest s' → Runs s (mark :: rest) s'
  | variable {s s' : GrammarState} {mark name : Symbol} {rest : List Symbol} : mark.Is "$" →
      name.kind = .name → Runs s.readVariable rest s' → Runs s (mark :: name :: rest) s'
  | directive {s s' : GrammarState} {mark name : Symbol} {rest : List Symbol} : mark.Is "@" →
      name.kind = .name → Runs (s.readDirective name.value) rest s' →
        Runs s (mark :: name :: rest) s'

section

variable {s s' : GrammarState} {x mark name : Symbol} {rest : List Symbol}

theorem toList_of_is {text : String} {c : Char} (h : x.Is text) (h' : x.Is (String.ofList [c])) :
    text.toList = [c] := by
  rw [← h.2, h'.2, String.toList_ofList]

theorem ne_of_is {text text' : String} (h : x.Is text) (hne : text ≠ text') : ¬ x.Is text' :=
  fun h' => hne (h.2.symm.trans h'.2)

theorem Runs.of_punctuator {c : Char} (h : Runs s (x :: rest) s') (hx : x.Is (String.ofList [c]))
    (hc : c ≠ '$' ∧ c ≠ '@') : Runs (s.readPunctuator c) rest s' := by
  cases h with
  | literal hkind _ _ => exact absurd hx.1 hkind
  | punctuator hx' _ hrest =>
    have heq := toList_of_is hx' hx
    rw [String.toList_ofList] at heq
    cases heq
    exact hrest
  | spread hx' _ => cases toList_of_is hx' hx
  | name hkind _ _ => cases hx.1.symm.trans hkind
  | dollar hx' _ =>
    have heq := toList_of_is hx' hx
    cases heq
    exact absurd rfl hc.1
  | «variable» hx' _ _ =>
    have heq := toList_of_is hx' hx
    cases heq
    exact absurd rfl hc.1
  | directive hx' _ _ =>
    have heq := toList_of_is hx' hx
    cases heq
    exact absurd rfl hc.2

theorem Runs.of_name (h : Runs s (x :: rest) s') (hx : x.kind = .name) :
    ∃ ahead, (ahead = some ':' → ∃ t ∈ rest.head?, t.Is ":") ∧
      Runs (s.readName x.value ahead).1 rest s' := by
  have hne : x.kind ≠ .punctuator := by simp [hx]
  cases h with
  | literal _ hkind _ => exact absurd hx hkind
  | punctuator hx' _ _ => exact absurd hx'.1 hne
  | spread hx' _ => exact absurd hx'.1 hne
  | name _ hahead hrest => exact ⟨_, hahead, hrest⟩
  | dollar hx' _ => exact absurd hx'.1 hne
  | «variable» hx' _ _ => exact absurd hx'.1 hne
  | directive hx' _ _ => exact absurd hx'.1 hne

theorem Runs.of_literal (h : Runs s (x :: rest) s') (hkind : x.kind ≠ .punctuator)
    (hname : x.kind ≠ .name) : Runs s.afterValue rest s' := by
  cases h with
  | literal _ _ hrest => exact hrest
  | punctuator hx' _ _ => exact absurd hx'.1 hkind
  | spread hx' _ => exact absurd hx'.1 hkind
  | name hx' _ _ => exact absurd hx' hname
  | dollar hx' _ => exact absurd hx'.1 hkind
  | «variable» hx' _ _ => exact absurd hx'.1 hkind
  | directive hx' _ _ => exact absurd hx'.1 hkind

theorem Runs.of_spread (h : Runs s (x :: rest) s') (hx : x.Is "...") :
    Runs s.readSpread rest s' := by
  cases h with
  | literal hkind _ _ => exact absurd hx.1 hkind
  | punctuator hx' _ _ => cases toList_of_is hx hx'
  | spread _ hrest => exact hrest
  | name hkind _ _ => cases hx.1.symm.trans hkind
  | dollar hx' _ => exact absurd hx' (ne_of_is hx (by decide))
  | «variable» hx' _ _ => exact absurd hx' (ne_of_is hx (by decide))
  | directive hx' _ _ => exact absurd hx' (ne_of_is hx (by decide))

theorem Runs.of_directive (h : Runs s (mark :: name :: rest) s') (hmark : mark.Is "@") :
    Runs (s.readDirective name.value) rest s' := by
  cases h with
  | literal hkind _ _ => exact absurd hmark.1 hkind
  | punctuator hx hc _ =>
    cases toList_of_is hmark hx
    exact absurd rfl hc.2
  | spread hx _ => exact absurd hx (ne_of_is hmark (by decide))
  | name hkind _ _ => cases hmark.1.symm.trans hkind
  | dollar hx _ => exact absurd hx (ne_of_is hmark (by decide))
  | «variable» hx _ _ => exact absurd hx (ne_of_is hmark (by decide))
  | directive _ _ hrest => exact hrest

/-- A variable is read with its name or before it. -/
theorem Runs.of_variable (h : Runs s (mark :: name :: rest) s') (hmark : mark.Is "$") :
    Runs s.readVariable rest s' ∨ Runs s.readVariable (name :: rest) s' := by
  cases h with
  | literal hkind _ _ => exact absurd hmark.1 hkind
  | punctuator hx hc _ =>
    cases toList_of_is hmark hx
    exact absurd rfl hc.1
  | spread hx _ => exact absurd hx (ne_of_is hmark (by decide))
  | name hkind _ _ => cases hmark.1.symm.trans hkind
  | dollar _ hrest => exact Or.inr hrest
  | «variable» _ _ hrest => exact Or.inl hrest
  | directive hx _ _ => exact absurd hx (ne_of_is hmark (by decide))

end

/-! Inside of parentheses -/

/-- What is known about the definition and, where anything is, about the brace to come. -/
structure Context where
  definition : Option DefinitionKeyword
  fragmentType : Option String
  pendingType : Option Pending

def Fits (s : GrammarState) (known : Context) : Prop :=
  s.definition = known.definition ∧ s.fragmentType = known.fragmentType ∧
    ∀ p ∈ known.pendingType, s.pendingType = p

/-- A state where values are read: the frame on top is one for values, and expected are a value, a
type or nothing special. -/
structure Inner (f : Frame) (outer : List Frame) (known : Context) (s : GrammarState) : Prop where
  stack : s.stack = f :: outer
  kind : f.kind ∈ valueFrames
  place : s.TypeInPlace
  expect : s.expect ∈ [none, some .value, some .type]
  fits : s.Fits known

variable {s : GrammarState} {f g : Frame} {outer : List Frame} {known : Context}

theorem frameKind_of_stack (h : s.stack = f :: outer) : s.frameKind = some f.kind := by
  simp [frameKind, frame, h]

namespace Inner

theorem afterValue (h : Inner f outer known s) : Inner f outer known s.afterValue where
  stack := h.stack
  kind := h.kind
  place := afterValue_typeInPlace s
  expect := by
    unfold GrammarState.afterValue
    dsimp only
    split_ifs <;> simp
  fits := h.fits

/-- Nothing is expected any more. -/
theorem idle (h : Inner f outer known s) (directive : Option String) :
    Inner f outer known { s with expect := none, pendingDirective := directive } where
  stack := h.stack
  kind := h.kind
  place := typeInPlace_of_ne (by simp)
  expect := by simp
  fits := h.fits

theorem readVariable (h : Inner f outer known s) : Inner f outer known s.readVariable := by
  unfold GrammarState.readVariable
  extract_lets expected idle
  split_ifs
  · exact (h.idle none).afterValue
  · exact h.idle none

theorem readDirective (h : Inner f outer known s) (name : String) :
    Inner f outer known (s.readDirective name) := by
  have hne : s.expect ≠ some .definitionName := by
    intro heq
    have hmem := h.expect
    rw [heq] at hmem
    exact absurd hmem (by decide)
  unfold GrammarState.readDirective
  rw [if_neg hne]
  exact h.idle _

theorem bracketedName (h : Inner f outer known s) (name : String) (ahead : Option Char) :
    Inner f outer known (s.bracketedName f.kind name ahead).1 := by
  have hnamed : Inner f outer known { s with lastName := some name } :=
    ⟨h.stack, h.kind, h.place, h.expect, h.fits⟩
  have hkind := h.kind
  unfold GrammarState.bracketedName
  split
  next heq => exact absurd (heq ▸ hkind) (by decide)
  next => split_ifs <;> assumption
  next => split_ifs <;> assumption
  next => split_ifs <;> assumption
  next => exact h.afterValue
  next => split_ifs <;> assumption
  next => exact h

theorem readName (h : Inner f outer known s) (name : String) (ahead : Option Char) :
    Inner f outer known (s.readName name ahead).1 := by
  have hidle := h.idle none
  unfold GrammarState.readName
  have hmem := h.expect
  simp only [List.mem_cons, List.not_mem_nil, or_false] at hmem
  rcases hmem with hnone | hvalue | htype
  · have hframe := frameKind_of_stack hidle.stack
    simp only [hnone, hframe]
    exact hidle.bracketedName name ahead
  · simp only [hvalue]
    exact hidle.afterValue
  · simp only [htype]
    exact hidle

/-- Punctuators other than brackets say what is expected. -/
theorem readPunctuator (h : Inner f outer known s) {c : Char} (hc : isBracket c = false) :
    Inner f outer known (s.readPunctuator c) := by
  refine ⟨(readPunctuator_stack s hc).trans h.stack, h.kind, readPunctuator_typeInPlace h.place c,
    ?_, ?_⟩
  all_goals
    have hne : c ≠ '{' ∧ c ≠ '}' ∧ c ≠ '(' ∧ c ≠ ')' ∧ c ≠ '[' ∧ c ≠ ']' := by
      refine ⟨?_, ?_, ?_, ?_, ?_, ?_⟩ <;> rintro rfl <;> exact absurd hc (by decide)
    obtain ⟨h1, h2, h3, h4, h5, h6⟩ := hne
    simp only [GrammarState.readPunctuator, if_neg h1, if_neg h2, if_neg h3, if_neg h4, if_neg h5,
      if_neg h6, readColon, readEquals]
    split_ifs <;> (try split) <;> first | simp | exact h.fits

/-- An opening brace among values opens an object. -/
theorem openBrace (h : Inner f outer known s) (hnothing : ∀ p ∈ known.pendingType, p = .nothing) :
    Inner ⟨.objectValue, .nothing, none⟩ (f :: outer) known (s.readPunctuator '{') := by
  let pushed : GrammarState :=
    { s with
      stack := ⟨.objectValue, .nothing, none⟩ :: s.stack, expect := none, lastName := none
      pendingType := .nothing, pendingDirective := none }
  have heq : s.readPunctuator '{' = pushed := by
    change GrammarState.openBrace { s with expect := none, pendingDirective := none } s.expect = _
    have hframe := frameKind_of_stack (h.idle none).stack
    have hkind := h.kind
    unfold GrammarState.openBrace
    simp only [hframe]
    split_ifs
    · rfl
    · split
      next heq => cases heq
      next heq =>
        rw [Option.some.inj heq] at hkind
        exact absurd hkind (by decide)
      next => rfl
  rw [heq]
  exact ⟨congrArg _ h.stack, by decide, typeInPlace_of_ne (by simp [pushed]), by simp [pushed],
    h.fits.1, h.fits.2.1, fun p hp => (hnothing p hp).symm⟩

/-- The brace that closes an object is the end of a value. -/
theorem closeBrace (h : Inner g (f :: outer) known s) (hg : g.kind = .objectValue)
    (hf : f.kind ∈ valueFrames) : Inner f outer known (s.readPunctuator '}') := by
  have hclosed : Inner f outer known
      { s with stack := f :: outer, expect := none, pendingDirective := none } :=
    ⟨rfl, hf, typeInPlace_of_ne (by simp), by simp, h.fits⟩
  change Inner f outer known (close { s with expect := none, pendingDirective := none } _)
  unfold close
  simp only [h.stack, hg]
  rw [if_neg (by simp)]
  simp only [frameKind_of_stack hclosed.stack]
  split_ifs with hvalue hname
  · exact hclosed.afterValue
  · exact hname.1.elim
  · exact hclosed

/-- An opening square bracket opens a list, or nothing where no list is open. -/
theorem openBracket (h : Inner f outer known s) :
    (∃ g : Frame, g.kind = .listValue ∧ Inner g (f :: outer) known (s.readPunctuator '[')) ∨
      f.kind ≠ .listValue ∧ Inner f outer known (s.readPunctuator '[') := by
  have hframe := frameKind_of_stack (h.idle none).stack
  change (∃ g : Frame, g.kind = .listValue ∧ Inner g (f :: outer) known
    (GrammarState.openBracket { s with expect := none, pendingDirective := none } s.expect)) ∨
      f.kind ≠ .listValue ∧ Inner f outer known
        (GrammarState.openBracket { s with expect := none, pendingDirective := none } s.expect)
  unfold GrammarState.openBracket
  split_ifs with htype hlist
  · have hne : f.kind ≠ .listValue := by
      intro heq
      exact h.place htype ((frameKind_of_stack h.stack).trans (congrArg some heq))
    refine Or.inr ⟨hne, h.stack, h.kind, typeInPlace_of_frameKind hframe ?_, by simp, h.fits⟩
    simpa using hne
  · exact Or.inl ⟨_, rfl, congrArg _ h.stack, by decide, typeInPlace_of_ne (by simp), by simp,
      h.fits⟩
  · refine Or.inr ⟨fun heq => hlist (Or.inr ?_), h.idle none⟩
    rw [hframe, heq]
    rfl

theorem closeBracket (h : Inner g (f :: outer) known s) (hg : g.kind = .listValue)
    (hf : f.kind ∈ valueFrames) : Inner f outer known (s.readPunctuator ']') := by
  have hclosed : Inner f outer known
      { s with stack := f :: outer, expect := none, pendingDirective := none } :=
    ⟨rfl, hf, typeInPlace_of_ne (by simp), by simp, h.fits⟩
  obtain ⟨kind, owner, savedName⟩ := g
  cases hg
  change Inner f outer known
    (GrammarState.closeBracket { s with expect := none, pendingDirective := none })
  unfold GrammarState.closeBracket
  simp only [h.stack]
  exact hclosed.afterValue

/-- A closing square bracket that closes no list is passed over. -/
theorem passBracket (h : Inner f outer known s) (hf : f.kind ≠ .listValue) :
    Inner f outer known (s.readPunctuator ']') := by
  change Inner f outer known
    (GrammarState.closeBracket { s with expect := none, pendingDirective := none })
  unfold GrammarState.closeBracket
  split
  next heq =>
    cases h.stack.symm.trans heq
    exact absurd rfl hf
  next => exact h.idle none

end Inner

/-- An opening parenthesis opens a frame for values, which in a selection set keeps the name that
was read last. -/
theorem openParen_inner (s : GrammarState) :
    ∃ g : Frame, g.kind ∈ [.arguments, .variableDefinitions, .argumentsDefinition] ∧
      (s.frameKind = some .selectionSet → g.kind = .arguments ∧ g.savedName = s.lastName) ∧
        ∀ known, s.Fits known → Inner g s.stack known (s.readPunctuator '(') := by
  have hinner (kind : BracketKind) (owner : Owner) (savedName : Option String)
      (hkind : kind ∈ [BracketKind.arguments, .variableDefinitions, .argumentsDefinition])
      (known : Context) (hknown : s.Fits known) :
      Inner ⟨kind, owner, savedName⟩ s.stack known
        (push { s with expect := none, pendingDirective := none } kind owner savedName) := by
    refine ⟨rfl, ?_, typeInPlace_of_ne (by simp [push]), by simp [push], hknown⟩
    change kind ∈ valueFrames
    fin_cases hkind <;> decide
  change ∃ g : Frame, _ ∧ _ ∧ ∀ known, s.Fits known → Inner g s.stack known
    (openParen { s with expect := none, pendingDirective := none } s.pendingDirective)
  unfold openParen
  split
  next => exact ⟨_, by simp, fun _ => ⟨rfl, rfl⟩, hinner _ _ _ (by simp)⟩
  next heq =>
    have hnone : s.frameKind ≠ some .selectionSet := by
      intro h
      cases heq.symm.trans h
    split_ifs
    · exact ⟨_, by simp, fun h => absurd h hnone, hinner _ _ _ (by simp)⟩
    · exact ⟨_, by simp, fun h => absurd h hnone, hinner _ _ _ (by simp)⟩
  next => exact ⟨_, by simp, fun _ => ⟨rfl, rfl⟩, hinner _ _ _ (by simp)⟩
  next heq =>
    refine ⟨_, by simp, fun h => ?_, hinner _ _ _ (by simp)⟩
    cases heq.symm.trans h
  next hne _ _ heq =>
    refine ⟨_, by simp, fun h => ?_, hinner _ _ _ (by simp)⟩
    cases heq.symm.trans h
    exact (hne rfl).elim

/-- What a closing parenthesis leaves. In a selection set the name that was read last comes back. -/
theorem closeParen_eq (h : Inner g outer known s)
    (hg : g.kind ∈ [.arguments, .variableDefinitions, .argumentsDefinition]) :
    (s.readPunctuator ')').stack = outer ∧ (s.readPunctuator ')').expect = none ∧
      (s.readPunctuator ')').Fits known ∧
        (outer.head?.map (·.kind) = some .selectionSet → g.kind = .arguments →
          (s.readPunctuator ')').lastName = g.savedName) := by
  have hne : ¬ (g.kind = .selectionSet ∨ g.kind = .fieldsDefinition) ∧ g.kind ≠ .objectValue := by
    generalize g.kind = kind at hg
    fin_cases hg <;> decide
  have heq : s.readPunctuator ')' =
      close { s with expect := none, pendingDirective := none }
        [.arguments, .variableDefinitions, .argumentsDefinition] := rfl
  rw [heq]
  unfold close
  simp only [h.stack, hg, not_true_eq_false, ↓reduceIte]
  split
  next hframe =>
    rw [if_neg hne.1]
    refine ⟨rfl, rfl, h.fits, fun hselection => ?_⟩
    cases hframe.symm.trans hselection
  next around hframe =>
    rw [if_neg fun h => hne.2 h.1]
    split_ifs with hrestore
    · exact ⟨rfl, rfl, h.fits, fun _ _ => rfl⟩
    · refine ⟨rfl, rfl, h.fits, fun hselection hkind => absurd ⟨hkind, ?_⟩ hrestore⟩
      exact Option.some.inj (hframe.symm.trans hselection)

theorem Inner.closeParen (h : Inner g (f :: outer) known s)
    (hg : g.kind ∈ [.arguments, .variableDefinitions, .argumentsDefinition])
    (hf : f.kind ∈ valueFrames) : Inner f outer known (s.readPunctuator ')') := by
  obtain ⟨hstack, hnone, hfits, -⟩ := closeParen_eq h hg
  exact ⟨hstack, hf, typeInPlace_of_ne (by simp [hnone]), by simp [hnone], hfits⟩

variable {s' : GrammarState} {taken more : List Symbol}

/-- A symbol that stands alone keeps the grammar among values. -/
theorem Inner.plain (h : Inner f outer known s) {x : Symbol} (hx : x.IsPlain)
    (hrun : Runs s (x :: more) s') : ∃ s₁, Inner f outer known s₁ ∧ Runs s₁ more s' := by
  cases hrun with
  | literal _ _ hrest => exact ⟨_, h.afterValue, hrest⟩
  | @punctuator _ _ _ _ c hx' _ hrest =>
    refine ⟨_, h.readPunctuator ?_, hrest⟩
    have hmem := hx hx'.1
    rw [hx'.2] at hmem
    by_contra hc
    rcases bracket_cases (by simpa using hc) with rfl | rfl | rfl | rfl | rfl | rfl <;>
      exact hmem (by decide)
  | spread hx' _ => exact absurd (hx'.2 ▸ hx hx'.1) (by decide)
  | name _ _ hrest => exact ⟨_, h.readName _ _, hrest⟩
  | dollar hx' _ => exact absurd (hx'.2 ▸ hx hx'.1) (by decide)
  | «variable» hx' _ _ => exact absurd (hx'.2 ▸ hx hx'.1) (by decide)
  | directive hx' _ _ => exact absurd (hx'.2 ▸ hx hx'.1) (by decide)

/-- A phrase without dots keeps the grammar among the values where it started, and keeps what was
known in front of it, unless that is about a brace to come and the phrase has braces of its own. -/
theorem Inner.phrase (h : Inner f outer known s) (htaken : Phrase false taken)
    (hbraces : (∀ p ∈ known.pendingType, p = .nothing) ∨ ∀ x ∈ taken, ¬ x.Is "\x7b")
    (hrun : Runs s (taken ++ more) s') : ∃ s₁, Inner f outer known s₁ ∧ Runs s₁ more s' := by
  induction htaken generalizing s f outer more with
  | nil => exact ⟨s, h, hrun⟩
  | @plain x rest hx _ ih =>
    obtain ⟨s₁, h₁, hrest⟩ := h.plain hx hrun
    exact ih h₁ (hbraces.imp_right fun h y hy => h y (List.mem_cons_of_mem x hy)) hrest
  | spread hdots => cases hdots
  | @named mark name rest hmark hname _ ih =>
    have hbraces' := hbraces.imp_right fun h y hy =>
      h y (List.mem_cons_of_mem mark (List.mem_cons_of_mem name hy))
    rcases hmark with hdollar | hat
    · rcases hrun.of_variable hdollar with hrest | hrest
      · exact ih h.readVariable hbraces' hrest
      · obtain ⟨ahead, -, hrest⟩ := hrest.of_name hname
        exact ih (h.readVariable.readName _ _) hbraces' hrest
    · exact ih (h.readDirective _) hbraces' (hrun.of_directive hat)
  | @nest opening closing left right inside rest hpair hopening hclosing _ _ ihinside ihrest =>
    have hbracesInside := hbraces.imp_right fun h y hy =>
      h y (List.mem_cons_of_mem opening (List.mem_append_left _ hy))
    have hbracesRest := hbraces.imp_right fun h y hy =>
      h y (List.mem_cons_of_mem opening (List.mem_append_right _ (List.mem_cons_of_mem closing hy)))
    rw [List.cons_append, List.append_assoc, List.cons_append] at hrun
    fin_cases hpair
    · obtain ⟨g, hg, -, hinner⟩ := openParen_inner s
      rw [h.stack] at hinner
      obtain ⟨s₁, h₁, hrun⟩ := ihinside (hinner known h.fits) hbracesInside
        (hrun.of_punctuator (c := '(') hopening (by decide))
      have hrun := hrun.of_punctuator (c := ')') hclosing (by decide)
      exact ihrest (h₁.closeParen hg h.kind) hbracesRest hrun
    · have hrun := hrun.of_punctuator (c := '[') hopening (by decide)
      rcases h.openBracket with ⟨g, hg, hinner⟩ | ⟨hf, hinner⟩
      · obtain ⟨s₁, h₁, hrun⟩ := ihinside hinner hbracesInside hrun
        have hrun := hrun.of_punctuator (c := ']') hclosing (by decide)
        exact ihrest (h₁.closeBracket hg h.kind) hbracesRest hrun
      · obtain ⟨s₁, h₁, hrun⟩ := ihinside hinner hbracesInside hrun
        have hrun := hrun.of_punctuator (c := ']') hclosing (by decide)
        exact ihrest (h₁.passBracket hf) hbracesRest hrun
    · have hnothing := hbraces.resolve_right fun h => h opening List.mem_cons_self hopening
      obtain ⟨s₁, h₁, hrun⟩ := ihinside (h.openBrace hnothing) hbracesInside
        (hrun.of_punctuator (c := '\x7b') hopening (by decide))
      have hrun := hrun.of_punctuator (c := '\x7d') hclosing (by decide)
      exact ihrest (h₁.closeBrace rfl h.kind) hbracesRest hrun

/-! Arguments and directives -/

/-- Braces among some symbols do no harm if no inline fragment waits for one. -/
def Harmless (s : GrammarState) (taken : List Symbol) : Prop :=
  s.pendingType = .nothing ∨ ∀ x ∈ taken, ¬ x.Is "\x7b"

/-- What arguments and directives leave as it was. -/
structure Steady (taken : List Symbol) (s s₁ : GrammarState) : Prop where
  stack : s₁.stack = s.stack
  expect : s₁.expect = s.expect ∨ s₁.expect = none
  definition : s₁.definition = s.definition
  fragmentType : s₁.fragmentType = s.fragmentType
  pendingType : s.Harmless taken → s₁.pendingType = s.pendingType
  lastName : s.frameKind = some .selectionSet → s₁.lastName = s.lastName

/-- Some symbols are read like arguments and directives, and no colon comes first. -/
structure Passes (taken : List Symbol) : Prop where
  head : ∀ x ∈ taken.head?, ¬ x.Is ":"
  steady : ∀ ⦃s s' more⦄, Runs s (taken ++ more) s' → ∃ s₁, Steady taken s s₁ ∧ Runs s₁ more s'

theorem passes_nil : Passes [] :=
  ⟨by simp, fun s _ _ hrun =>
    ⟨s, ⟨rfl, Or.inl rfl, rfl, rfl, fun _ => rfl, fun _ => rfl⟩, hrun⟩⟩

theorem Steady.append {first second : List Symbol} {s₁ s₂ : GrammarState} (h : Steady first s s₁)
    (h' : Steady second s₁ s₂) : Steady (first ++ second) s s₂ where
  stack := h'.stack.trans h.stack
  expect := by
    rcases h'.expect with heq | hnone
    · rw [heq]
      exact h.expect
    · exact Or.inr hnone
  definition := h'.definition.trans h.definition
  fragmentType := h'.fragmentType.trans h.fragmentType
  pendingType hharmless := by
    have heq := h.pendingType (hharmless.imp_right fun hall x hx =>
      hall x (List.mem_append_left second hx))
    refine (h'.pendingType ?_).trans heq
    rw [Harmless, heq]
    exact hharmless.imp_right fun hall x hx => hall x (List.mem_append_right first hx)
  lastName hselection := by
    have hframe : s₁.frameKind = s.frameKind := congrArg (·.head?.map (·.kind)) h.stack
    exact (h'.lastName (hframe.trans hselection)).trans (h.lastName hselection)

theorem Passes.append {first second : List Symbol} (h : Passes first) (h' : Passes second) :
    Passes (first ++ second) := by
  refine ⟨?_, fun s s' more hrun => ?_⟩
  · cases first with
    | nil => exact h'.head
    | cons x first => exact h.head
  · rw [List.append_assoc] at hrun
    obtain ⟨s₁, h₁, hrun⟩ := h.steady hrun
    obtain ⟨s₂, h₂, hrun⟩ := h'.steady hrun
    exact ⟨s₂, h₁.append h₂, hrun⟩

theorem passes_directive {mark name : Symbol} (hmark : mark.Is "@") : Passes [mark, name] := by
  refine ⟨by simpa using ne_of_is hmark (by decide), fun s s' more hrun => ?_⟩
  refine ⟨_, ?_, hrun.of_directive hmark⟩
  unfold readDirective
  extract_lets expected idle
  split_ifs <;> exact ⟨rfl, Or.inr rfl, rfl, rfl, fun _ => rfl, fun _ => rfl⟩

theorem passes_parenthesized {opening closing : Symbol} {inside : List Symbol}
    (hopening : opening.Is "(") (hclosing : closing.Is ")") (hinside : Phrase false inside) :
    Passes (opening :: (inside ++ [closing])) := by
  refine ⟨by simpa using ne_of_is hopening (by decide), fun s s' more hrun => ?_⟩
  rw [List.cons_append, List.append_assoc, List.singleton_append] at hrun
  obtain ⟨g, hg, hselection, hinner⟩ := openParen_inner s
  have hrun := hrun.of_punctuator (c := '(') hopening (by decide)
  -- What was pending is followed only where braces cannot clear it.
  have hread (pending : Option Pending) (hpending : ∀ p ∈ pending, s.pendingType = p)
      (hbraces : (∀ p ∈ pending, p = .nothing) ∨ ∀ x ∈ inside, ¬ x.Is "\x7b") :
      ∃ s₁, Inner g s.stack ⟨s.definition, s.fragmentType, pending⟩ s₁ ∧
        Runs s₁ (closing :: more) s' :=
    (hinner ⟨_, _, pending⟩ ⟨rfl, rfl, hpending⟩).phrase hinside hbraces hrun
  have hclose {pending : Option Pending} {s₁ : GrammarState}
      (h₁ : Inner g s.stack ⟨s.definition, s.fragmentType, pending⟩ s₁)
      (hkept : s.Harmless (opening :: (inside ++ [closing])) → pending = some s.pendingType) :
      Steady (opening :: (inside ++ [closing])) s (s₁.readPunctuator ')') := by
    obtain ⟨hstack, hnone, ⟨hdefinition, hfragment, hpending⟩, hlast⟩ := closeParen_eq h₁ hg
    refine ⟨hstack, Or.inr hnone, hdefinition, hfragment, fun hharmless => ?_, fun hframe => ?_⟩
    · exact hpending _ (hkept hharmless)
    · obtain ⟨hkind, hsaved⟩ := hselection hframe
      exact (hlast hframe hkind).trans hsaved
  by_cases hharmless : s.Harmless (opening :: (inside ++ [closing]))
  · obtain ⟨s₁, h₁, hrun⟩ := hread (some s.pendingType) (by simp)
      (hharmless.imp (by simp) fun hall x hx =>
        hall x (List.mem_cons_of_mem _ (List.mem_append_left _ hx)))
    exact ⟨_, hclose h₁ fun _ => rfl, hrun.of_punctuator (c := ')') hclosing (by decide)⟩
  · obtain ⟨s₁, h₁, hrun⟩ := hread none (by simp) (Or.inl (by simp))
    exact ⟨_, hclose h₁ fun h => absurd h hharmless,
      hrun.of_punctuator (c := ')') hclosing (by decide)⟩

end GrammarState
end EmbeddedGraphQL
