import EmbeddedGraphQL.Proofs.SelectionRuns
import EmbeddedGraphQL.Proofs.TextRuns
import Mathlib

/-!
What the open frames tell about a place in a document. Right behind the opening brace of a selection
set they are the selection sets around that place, each with the operation, the type or the field
that it belongs to.
-/
namespace EmbeddedGraphQL
namespace Document.Parser
open GrammarState

variable {α : Type} {r r' : Reader}

/-! Operations and fragments -/

section

variable {symbols : List Symbol} {s : GrammarState} {owner : Owner}

theorem selectionSet_shown (hr : Holds symbols (Ready (· = []) (· = owner)) r) {set : SelectionSet}
    (h : selectionSet r = .ok (set, r')) :
    Holds symbols (Between (· = [])) r' ∧ AllShown symbols (set.openings owner) := by
  obtain ⟨start, r₁, hstart, h⟩ := bind_eq_ok.mp h
  obtain rfl := offset_eq_ok hstart
  obtain ⟨n, r₁, hfuel, h⟩ := bind_eq_ok.mp h
  obtain ⟨items, r₂, hitems, h⟩ := bind_eq_ok.mp h
  obtain ⟨span, r₃, hspan, h⟩ := bind_eq_ok.mp h
  cases hfuel
  cases hspan
  cases h
  have hclear : true = true → ∀ stack, Above (· = []) (· = owner) stack →
      stack = framesOf [owner] := by
    rintro - stack ⟨_, _, rfl, rfl, rfl⟩
    rfl
  obtain ⟨hr', brace, rest, hsymbols, hshown⟩ :=
    braces_shown (selection_follows symbols _) hclear hr hitems
  rw [SelectionSet.openings, offset_eq_start hsymbols hstart]
  exact ⟨hr', hshown⟩

/-- A description in front of a definition. -/
theorem optionalDescription_holds (hr : Holds symbols (Between (· = [])) r)
    {description : Option Description} (h : optionalDescription r = .ok (description, r')) :
    Holds symbols (Between (· = [])) r' := by
  obtain ⟨found, r₁, hcurrent, h⟩ := bind_eq_ok.mp h
  obtain ⟨hfound, rfl⟩ := current_eq_ok hcurrent
  cases found with
  | none =>
    cases h
    exact hr
  | some x =>
    dsimp only at h
    by_cases hstring : isString (some x) = true
    · rw [if_pos hstring] at h
      obtain ⟨u, r₁, hadvance, h⟩ := bind_eq_ok.mp h
      cases h
      refine hr.step (advance_reads hfound hadvance) fun s s' more hs _ hrun => ?_
      have hkind := isString_iff.mp hstring
      refine ⟨s.afterValue, ⟨hs.stack, ?_, hs.definition⟩, hrun.of_literal ?_ ?_⟩
      · simp [afterValue, frameKind, frame, hs.stack]
      · rcases hkind with hkind | hkind <;> simp [hkind]
      · rcases hkind with hkind | hkind <;> simp [hkind]
    · rw [if_neg hstring] at h
      cases h
      exact hr

theorem operationKind_reads {kind : OperationKind} (h : operationKind r = .ok (kind, r')) :
    ∃ x, x.kind = .name ∧ OperationKind.ofWord? x.value = some kind ∧ Reads r [x] r' := by
  obtain ⟨start, r₁, hstart, h⟩ := bind_eq_ok.mp h
  obtain rfl := offset_eq_ok hstart
  obtain ⟨found, r₁, hcurrent, h⟩ := bind_eq_ok.mp h
  obtain ⟨-, rfl⟩ := current_eq_ok hcurrent
  obtain ⟨n, r₁, hname, h⟩ := bind_eq_ok.mp h
  obtain ⟨x, hx, rfl, hreads⟩ := name_reads hname
  dsimp only at h
  cases hword : OperationKind.ofWord? x.value with
  | none =>
    rw [hword] at h
    cases h
  | some kind' =>
    rw [hword] at h
    cases h
    exact ⟨x, hx, hword, hreads⟩

/-- Variable definitions and directives do not change what a selection set behind them belongs to,
since no set is open around them. -/
theorem Holds.passes {taken : List Symbol}
    (hr : Holds symbols (Ready (· = []) (· = owner)) r) (hreads : Reads r taken r')
    (hpasses : Passes taken) : Holds symbols (Ready (· = []) (· = owner)) r' := by
  refine hr.step hreads fun s s' more hs _ hrun => ?_
  obtain ⟨s₁, h₁, hrun⟩ := hpasses.steady hrun
  exact ⟨s₁, hs.kept h₁ (Or.inl hs.stack), hrun⟩

/-- The end of an operation: its variables, its directives and its selection set. -/
def operationRest (start : Nat) (description : Option Description) (kind : OperationKind)
    (operationName : Option Name) : Parser Operation := do
  let variableDefinitions ← optionalMany "(" variableDefinition ")"
  let directives ← directives false
  let selections ← selectionSet
  let span ← spanFrom start
  return ⟨description, kind, operationName, variableDefinitions, directives, selections, span⟩

theorem operationRest_shown {start : Nat} {description : Option Description} {kind : OperationKind}
    {operationName : Option Name} {o : Operation}
    (hr : Holds symbols (Ready (· = []) (· = .root kind.keyword)) r)
    (h : operationRest start description kind operationName r = .ok (o, r')) :
    Holds symbols (Between (· = [])) r' ∧ AllShown symbols (Definition.operation o).openings := by
  obtain ⟨variableDefinitions, r₁, hvariables, h⟩ := bind_eq_ok.mp h
  obtain ⟨ds, r₂, hdirectives, h⟩ := bind_eq_ok.mp h
  obtain ⟨set, r₃, hset, h⟩ := bind_eq_ok.mp h
  obtain ⟨span, r₄, hspan, h⟩ := bind_eq_ok.mp h
  cases hspan
  cases h
  obtain ⟨first, hfirst, hpasses⟩ := optionalMany_passes consumes_variableDefinition hvariables
  obtain ⟨second, hsecond, hpasses', -⟩ := directives_passes hdirectives
  exact selectionSet_shown ((hr.passes hfirst hpasses).passes hsecond hpasses') hset

theorem operation_shown (hr : Holds symbols (Between (· = [])) r) {o : Operation}
    (h : operation r = .ok (o, r')) : Holds symbols (Between (· = [])) r' ∧
      AllShown symbols (Definition.operation o).openings := by
  obtain ⟨start, r₁, hstart, h⟩ := bind_eq_ok.mp h
  obtain rfl := offset_eq_ok hstart
  obtain ⟨b, r₁, hpeek, h⟩ := bind_eq_ok.mp h
  obtain ⟨-, rfl⟩ := peek_eq_ok hpeek
  cases b with
  | true =>
    rw [if_pos rfl] at h
    obtain ⟨set, r₁, hset, h⟩ := bind_eq_ok.mp h
    obtain ⟨span, r₂, hspan, h⟩ := bind_eq_ok.mp h
    cases hspan
    cases h
    have hready : Holds symbols (Ready (· = []) (· = .root .query)) r :=
      hr.step (Reads.refl _) fun s s' more hs _ hrun => ⟨s, hs.ready, hrun⟩
    exact selectionSet_shown hready hset
  | false =>
    rw [if_neg Bool.false_ne_true] at h
    obtain ⟨description, r₁, hdescription, h⟩ := bind_eq_ok.mp h
    obtain ⟨kind, r₂, hkind, h⟩ := bind_eq_ok.mp h
    obtain ⟨found, r₃, hcurrent, h⟩ := bind_eq_ok.mp h
    obtain ⟨-, rfl⟩ := current_eq_ok hcurrent
    have hannounced : Holds symbols (Announced kind.keyword) r₂ := by
      obtain ⟨x, hx, hword, hreads⟩ := operationKind_reads hkind
      refine (optionalDescription_holds hr hdescription).step hreads fun s s' more hs _ hrun => ?_
      obtain ⟨ahead, -, hrun⟩ := hrun.of_name hx
      exact ⟨_, hs.readKeyword hword ahead, hrun⟩
    by_cases hname : isName found = true
    · rw [if_pos hname] at h
      obtain ⟨operationName, r₃, hmap, h⟩ := bind_eq_ok.mp h
      obtain ⟨name', hname', rfl⟩ := ok_of_map hmap
      obtain ⟨x, hx, -, hreads⟩ := name_reads hname'
      refine operationRest_shown ?_ h
      refine hannounced.step hreads fun s s' more hs _ hrun => ?_
      obtain ⟨ahead, -, hrun⟩ := hrun.of_name hx
      exact ⟨_, hs.readName x.value ahead, hrun⟩
    · rw [if_neg hname] at h
      obtain ⟨operationName, r₃, hpure, h⟩ := bind_eq_ok.mp h
      cases hpure
      refine operationRest_shown ?_ h
      exact hannounced.step (Reads.refl _) fun s s' more hs _ hrun => ⟨s, hs.ready, hrun⟩

theorem fragment_shown (hr : Holds symbols (Between (· = [])) r) {f : Fragment}
    (h : fragment r = .ok (f, r')) : Holds symbols (Between (· = [])) r' ∧
      AllShown symbols (Definition.fragment f).openings := by
  obtain ⟨start, r₁, hstart, h⟩ := bind_eq_ok.mp h
  obtain rfl := offset_eq_ok hstart
  obtain ⟨description, r₁, hdescription, h⟩ := bind_eq_ok.mp h
  obtain ⟨u, r₂, hkeyword, h⟩ := bind_eq_ok.mp h
  obtain ⟨n, r₃, hname, h⟩ := bind_eq_ok.mp h
  obtain ⟨u', r₄, hon, h⟩ := bind_eq_ok.mp h
  obtain ⟨type, r₅, htype, h⟩ := bind_eq_ok.mp h
  obtain ⟨ds, r₆, hdirectives, h⟩ := bind_eq_ok.mp h
  obtain ⟨set, r₇, hset, h⟩ := bind_eq_ok.mp h
  obtain ⟨span, r₈, hspan, h⟩ := bind_eq_ok.mp h
  cases hspan
  cases h
  obtain ⟨x, hx, hvalue, hfirst⟩ := expectKeyword_reads hkeyword
  obtain ⟨y, hy, -, hsecond⟩ := fragmentName_reads hname
  obtain ⟨z, hz, hvalue', hthird⟩ := expectKeyword_reads hon
  obtain ⟨w, hw, rfl, hfourth⟩ := name_reads htype
  obtain ⟨taken, hreads, hpasses, -⟩ := directives_passes hdirectives
  have hready : Holds symbols (Ready (· = []) (· = .type (some w.value))) r₅ := by
    refine (optionalDescription_holds hr hdescription).step
      (hfirst.append (hsecond.append (hthird.append hfourth))) fun s s' more hs _ hrun => ?_
    obtain ⟨a₁, -, hrun⟩ := hrun.of_name hx
    obtain ⟨a₂, -, hrun⟩ := hrun.of_name hy
    obtain ⟨a₃, -, hrun⟩ := hrun.of_name hz
    obtain ⟨a₄, -, hrun⟩ := hrun.of_name hw
    rw [hvalue, hvalue'] at hrun
    exact ⟨_, hs.readFragment y.value w.value a₁ a₂ a₃ a₄, hrun⟩
  exact selectionSet_shown (hready.passes hreads hpasses) hset

/-- Where the parser gives an operation or a fragment, it read one. -/
def Executes (p : Parser Definition) : Prop :=
  ∀ ⦃r d r'⦄, p r = .ok (d, r') → d.isExecutable = true →
    (∃ o, d = .operation o ∧ operation r = .ok (o, r')) ∨
      ∃ f, d = .fragment f ∧ fragment r = .ok (f, r')

section

variable {p q : Parser Definition}

theorem Executes.ite {c : Prop} [Decidable c] (hp : Executes p) (hq : Executes q) :
    Executes (if c then p else q) := by
  split_ifs <;> assumption

/-- Looking ahead takes nothing. -/
theorem Executes.look {look : Parser α} (hlook : ∀ ⦃r a r'⦄, look r = .ok (a, r') → r = r')
    {f : α → Parser Definition} (hf : ∀ a, Executes (f a)) : Executes (look >>= f) := by
  intro r d r' h hd
  obtain ⟨a, r₁, ha, h⟩ := bind_eq_ok.mp h
  obtain rfl := hlook ha
  exact hf a h hd

theorem executes_other {p : Parser α} {f : α → Definition} (hf : ∀ a, (f a).isExecutable = false) :
    Executes (p >>= fun a => pure (f a)) := by
  intro r d r' h hd
  obtain ⟨a, r₁, ha, h⟩ := bind_eq_ok.mp h
  cases h
  rw [hf] at hd
  cases hd

theorem executes_failAt_bind {offset : Nat} {problem : SyntaxProblem} {f : α → Parser Definition} :
    Executes (failAt offset problem >>= f) := by
  intro r d r' h
  obtain ⟨_, _, h, -⟩ := bind_eq_ok.mp h
  cases h

theorem executes_unexpectedSymbol (s : Option Symbol) : Executes (unexpectedSymbol s) := by
  intro r d r' h
  cases s with
  | some s => cases h
  | none =>
    obtain ⟨_, _, _, h⟩ := bind_eq_ok.mp h
    cases h

theorem executes_operation : Executes (operation >>= fun o => pure (.operation o)) := by
  intro r d r' h hd
  obtain ⟨o, r₁, ho, h⟩ := bind_eq_ok.mp h
  cases h
  exact Or.inl ⟨o, rfl, ho⟩

theorem executes_fragment : Executes (fragment >>= fun f => pure (.fragment f)) := by
  intro r d r' h hd
  obtain ⟨f, r₁, hf, h⟩ := bind_eq_ok.mp h
  cases h
  exact Or.inr ⟨f, rfl, hf⟩

end

theorem executes_extension : Executes extension := by
  refine .look (fun _ _ _ h => next_eq_ok h) fun keyword => .ite (executes_other fun _ => rfl) ?_
  cases typeKeywords.find? (isKeyword · keyword) with
  | some word => exact executes_other fun _ => rfl
  | none => exact executes_unexpectedSymbol _

theorem executes_definition : Executes definition := by
  have hnext ⦃r s r'⦄ (h : next r = .ok (s, r')) : r = r' := next_eq_ok h
  have hoffset ⦃r k r'⦄ (h : offset r = .ok (k, r')) : r = r' := offset_eq_ok h
  have hpure {s : Option Symbol} ⦃r t r'⦄ (h : (pure s : Parser _) r = .ok (t, r')) : r = r' := by
    cases h
    rfl
  refine .look (fun _ _ _ h => (peek_eq_ok h).2) fun _ => .ite executes_operation ?_
  refine .look (fun _ _ _ h => (current_eq_ok h).2) fun first => ?_
  refine .ite (.look hnext fun keyword => ?_) (.look hpure fun keyword => ?_)
  -- The keyword stands behind the description or comes first; either way the same follows.
  all_goals
    refine .ite (.look hoffset fun _ => executes_failAt_bind) (.ite (executes_other fun _ => rfl)
      (.ite (executes_other fun _ => rfl) ?_))
    cases typeKeywords.find? (isKeyword · keyword) with
    | some word => exact executes_other fun _ => rfl
    | none =>
      exact .ite executes_operation (.ite executes_fragment (.ite
        (.ite (.look hoffset fun _ => executes_failAt_bind)
          (.ite executes_extension (executes_unexpectedSymbol _))) (executes_unexpectedSymbol _)))

theorem definition_shown (hr : Holds symbols (Between (· = [])) r) {d : Definition}
    (hd : d.isExecutable = true) (h : definition r = .ok (d, r')) :
    Holds symbols (Between (· = [])) r' ∧ AllShown symbols d.openings := by
  obtain ⟨o, rfl, ho⟩ | ⟨f, rfl, hf⟩ := executes_definition h hd
  · exact operation_shown hr ho
  · exact fragment_shown hr hf

theorem definitionsWithin_shown {n : Nat} (hr : Holds symbols (Between (· = [])) r)
    {ds : List Definition} (hds : ∀ d ∈ ds, d.isExecutable = true)
    (h : definitionsWithin n r = .ok (ds, r')) :
    AllShown symbols (ds.flatMap Definition.openings) := by
  induction n generalizing r ds with
  | zero =>
    cases h
    exact List.forall_mem_nil _
  | succ n ih =>
    rw [definitionsWithin] at h
    obtain ⟨s, r₁, hcurrent, h⟩ := bind_eq_ok.mp h
    obtain ⟨-, rfl⟩ := current_eq_ok hcurrent
    cases s with
    | none =>
      cases h
      exact List.forall_mem_nil _
    | some s =>
      obtain ⟨first, r₁, hfirst, h⟩ := bind_eq_ok.mp h
      obtain ⟨rest, r₂, hrest, h⟩ := bind_eq_ok.mp h
      cases h
      rw [List.forall_mem_cons] at hds
      obtain ⟨hr₁, hshown⟩ := definition_shown hr hds.1 hfirst
      rw [List.flatMap_cons]
      exact List.forall_mem_append.mpr ⟨hshown, ih hr₁ hds.2 hrest⟩

theorem definitions_shown (hr : Holds symbols (Between (· = [])) r) {ds : List Definition}
    (hds : ∀ d ∈ ds, d.isExecutable = true) (h : definitions r = .ok (ds, r')) :
    AllShown symbols (ds.flatMap Definition.openings) := by
  obtain ⟨first, r₁, hfirst, h⟩ := bind_eq_ok.mp h
  obtain ⟨n, r₂, hfuel, h⟩ := bind_eq_ok.mp h
  obtain ⟨rest, r₃, hrest, h⟩ := bind_eq_ok.mp h
  cases h
  cases hfuel
  rw [List.forall_mem_cons] at hds
  obtain ⟨hr₁, hshown⟩ := definition_shown hr hds.1 hfirst
  rw [List.flatMap_cons]
  exact List.forall_mem_append.mpr ⟨hshown, definitionsWithin_shown hr₁ hds.2 hrest⟩

end

end Document.Parser

namespace Document
open GrammarState

theorem exists_ok {ε α β : Type} {result : Except ε α} {f : α → β} {b : β}
    (h : result.toOption.map f = some b) : ∃ a, result = .ok a ∧ f a = b := by
  cases result with
  | error e => cases h
  | ok a => exact ⟨a, rfl, Option.some.inj h⟩

/-- The grammar shows the right frames at every clear opening of an executable document, as far as
its symbols are concerned. -/
theorem openings_shown {text : List Char} {d : Document} (h : parse text = .ok d)
    (hd : d.isExecutable = true) : Parser.AllShown (SymbolList.ofText text).symbols d.openings := by
  obtain ⟨r, hread⟩ := definitions_of_parse h
  have hstart : Parser.Holds (SymbolList.ofText text).symbols (Between (· = []))
      ⟨SymbolList.ofText text, 0⟩ :=
    ⟨[], rfl, fun more s' _ hrun => ⟨_, ⟨rfl, rfl, fun _ => rfl⟩, hrun⟩⟩
  exact Parser.definitions_shown hstart (List.all_eq_true.mp hd) hread

/-- Behind the opening brace of a selection set the open frames are the selection sets around that
place, outermost first, each with what it belongs to: an operation, the type of a fragment, a plain
inline fragment, or a field by its name. The set must not lie in an inline fragment with an object
among its directives. -/
theorem frames_behind_braces {text : List Char} {d : Document} (hparse : parse text = .ok d)
    (hexecutable : d.isExecutable = true) (htidy : Tidy text) {o : Opening} (ho : o ∈ d.openings)
    (hclear : o.clear = true) :
    (before text (o.start + 1 : Nat)).stack.reverse =
      o.owners.map fun owner => ⟨.selectionSet, owner, none⟩ := by
  obtain ⟨done, brace, rest, hsymbols, hbrace, hstart, hshown⟩ :=
    openings_shown hparse hexecutable o ho hclear
  rw [← hstart, hshown (runs_before htidy hsymbols hbrace), framesOf, List.reverse_reverse]

theorem frames_behind_braces_nested :
    ∃ (d : Document) (o : Opening),
      parse "{ a: f(x: {y: [1]}) @d { ... on T @e { g } } }".toList = .ok d ∧
        d.isExecutable = true ∧ Tidy "{ a: f(x: {y: [1]}) @d { ... on T @e { g } } }".toList ∧
          o ∈ d.openings ∧ o.clear = true ∧
            o.owners = [.root .query, .field (some "f"), .type (some "T")] ∧
              (before "{ a: f(x: {y: [1]}) @d { ... on T @e { g } } }".toList
                (o.start + 1 : Nat)).stack.reverse =
                  o.owners.map fun owner => ⟨.selectionSet, owner, none⟩ := by
  have hread : (parse "{ a: f(x: {y: [1]}) @d { ... on T @e { g } } }".toList).toOption.map
      (fun d => (d.isExecutable, d.openings)) = some (true, [⟨0, [.root .query], true⟩,
        ⟨23, [.root .query, .field (some "f")], true⟩,
        ⟨37, [.root .query, .field (some "f"), .type (some "T")], true⟩]) := by decide +kernel
  obtain ⟨d, hparse, heq⟩ := exists_ok hread
  obtain ⟨hexecutable, hopenings⟩ := Prod.mk.inj heq
  have htidy : Tidy "{ a: f(x: {y: [1]}) @d { ... on T @e { g } } }".toList :=
    ⟨by decide +kernel, by decide +kernel, by decide +kernel⟩
  have hmem : ⟨37, [.root .query, .field (some "f"), .type (some "T")], true⟩ ∈ d.openings := by
    rw [hopenings]
    simp
  exact ⟨d, _, hparse, hexecutable, htidy, hmem, rfl, rfl,
    frames_behind_braces hparse hexecutable htidy hmem rfl⟩

/-- An object in a directive makes the grammar forget the type of an inline fragment: the frame
belongs to a field without a name. -/
theorem frames_lost_behind_object :
    ¬ ∀ (text : List Char) (d : Document), parse text = .ok d → d.isExecutable = true →
      ∀ o ∈ d.openings, (before text (o.start + 1 : Nat)).stack.reverse =
        o.owners.map fun owner => ⟨.selectionSet, owner, none⟩ := by
  intro h
  have hread : (parse "{ ... on T @d(x: {a: 1}) { id } }".toList).toOption.map
      (fun d => (d.isExecutable, d.openings)) = some (true, [⟨0, [.root .query], true⟩,
        ⟨25, [.root .query, .type (some "T")], false⟩]) := by decide +kernel
  obtain ⟨d, hparse, heq⟩ := exists_ok hread
  obtain ⟨hexecutable, hopenings⟩ := Prod.mk.inj heq
  have hframes := h _ d hparse hexecutable ⟨25, [.root .query, .type (some "T")], false⟩ (by
    rw [hopenings]
    simp)
  exact absurd hframes (by decide +kernel)

end Document
end EmbeddedGraphQL
