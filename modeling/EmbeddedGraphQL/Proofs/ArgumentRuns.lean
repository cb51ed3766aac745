import EmbeddedGraphQL.Proofs.Accepted
import EmbeddedGraphQL.Proofs.Openings
import EmbeddedGraphQL.Proofs.SymbolRuns
import Mathlib

/-!
Arguments and directives as they are parsed. The grammar passes over what is taken for them, and no
brace is among it where no argument holds an object.
-/
namespace EmbeddedGraphQL
namespace Document.Parser
open GrammarState

variable {α : Type} {r r' : Reader}

/-! Symbols without braces -/

/-- Whatever the parser takes for a good result is free of opening braces. -/
def Spares (p : Parser α) (good : α → Prop) : Prop :=
  ∀ ⦃r a r'⦄, p r = .ok (a, r') → good a →
    ∃ taken, Reads r taken r' ∧ ∀ x ∈ taken, ¬ x.Is "\x7b"

theorem not_is_of_name {s : Symbol} {text : String} (h : s.kind = .name) : ¬ s.Is text :=
  fun h' => by cases h.symm.trans h'.1

theorem Reads.taken_unique {taken taken' : List Symbol} (h : Reads r taken r')
    (h' : Reads r taken' r') : taken = taken' :=
  List.append_cancel_right (h.symbols.symm.trans h'.symbols)

section

variable {item : Parser α} {good : α → Prop} {left right : String} {items : List α}

theorem Items.spares (hitem : Spares item good) (hright : right ≠ "\x7b")
    (h : Items item right r items r') (hgood : ∀ a ∈ items, good a) :
    ∃ taken, Reads r taken r' ∧ ∀ x ∈ taken, ¬ x.Is "\x7b" := by
  induction h with
  | nil hs hreads => exact ⟨_, hreads, List.forall_mem_singleton.mpr (ne_of_is hs hright)⟩
  | cons hfirst _ ih =>
    rw [List.forall_mem_cons] at hgood
    obtain ⟨taken, hreads, hspares⟩ := hitem hfirst hgood.1
    obtain ⟨taken', hreads', hspares'⟩ := ih hgood.2
    exact ⟨taken ++ taken', hreads.append hreads', List.forall_mem_append.mpr ⟨hspares, hspares'⟩⟩

theorem Enclosed.spares (hitem : Spares item good) (hleft : left ≠ "\x7b")
    (hright : right ≠ "\x7b") (h : Enclosed left item right r items r')
    (hgood : ∀ a ∈ items, good a) : ∃ taken, Reads r taken r' ∧ ∀ x ∈ taken, ¬ x.Is "\x7b" := by
  obtain ⟨opening, r₁, hopening, hreads, hitems⟩ := h
  obtain ⟨taken, hreads', hspares⟩ := hitems.spares hitem hright hgood
  exact ⟨opening :: taken, hreads.append hreads',
    List.forall_mem_cons.mpr ⟨ne_of_is hopening hleft, hspares⟩⟩

end

theorem anyObject_eq_false {items : List Value} :
    anyObject items = false ↔ ∀ v ∈ items, v.hasObject = false := by
  induction items with
  | nil => simp [anyObject]
  | cons v items ih => simp [anyObject, ih]

/-- A value without objects has no braces. -/
theorem value_spares (isConstant : Bool) (n : Nat) :
    Spares (value isConstant n) fun v => v.hasObject = false := by
  induction n with
  | zero => exact fun _ _ _ h => absurd h unexpected_ne_ok
  | succ n ih =>
    intro r v r' h hv
    cases value_cases h with
    | atom hs hreads =>
      exact ⟨_, hreads, List.forall_mem_singleton.mpr fun h => hs h.1⟩
    | dollar hs ht hreads =>
      refine ⟨_, hreads, ?_⟩
      rw [List.forall_mem_cons, List.forall_mem_singleton]
      exact ⟨ne_of_is hs (by decide), not_is_of_name ht⟩
    | list hitems =>
      rw [Value.hasObject, anyObject_eq_false] at hv
      exact hitems.spares ih (by decide) (by decide) hv
    | object hfields => cases hv

theorem argument_spares (isConstant : Bool) :
    Spares (argument isConstant) fun a => a.value.hasObject = false := by
  intro r a r' h ha
  obtain ⟨n, r₁, hname, h⟩ := bind_eq_ok.mp h
  obtain ⟨u, r₂, hexpect, h⟩ := bind_eq_ok.mp h
  obtain ⟨s, hs, -, hreads⟩ := name_reads hname
  obtain ⟨t, ht, hreads'⟩ := expect_reads hexpect
  have hvalue : ∃ v, (∃ n, value isConstant n r₂ = .ok (v, r')) ∧ a = ⟨n, v⟩ := by
    cases isConstant with
    | true =>
      obtain ⟨v, r₃, hv, h⟩ := bind_eq_ok.mp h
      cases h
      exact ⟨v, ⟨_, hv⟩, rfl⟩
    | false =>
      obtain ⟨v, r₃, hv, h⟩ := bind_eq_ok.mp h
      cases h
      exact ⟨v, ⟨_, hv⟩, rfl⟩
  obtain ⟨v, ⟨m, hv⟩, rfl⟩ := hvalue
  obtain ⟨taken, hreads'', hspares⟩ := value_spares isConstant m hv ha
  refine ⟨s :: t :: taken, (hreads.append hreads').append hreads'', ?_⟩
  simp only [List.forall_mem_cons]
  exact ⟨not_is_of_name hs, ne_of_is ht (by decide), hspares⟩

theorem arguments_spares (isConstant : Bool) :
    Spares (arguments isConstant) fun as => ∀ a ∈ as, a.value.hasObject = false := by
  intro r as r' h hgood
  obtain ⟨-, rfl⟩ | hitems := optionalMany_cases h
  · exact ⟨[], Reads.refl _, List.forall_mem_nil _⟩
  · exact hitems.spares (argument_spares isConstant) (by decide) (by decide) hgood

/-! What the grammar reads of arguments and directives -/

theorem optionalMany_passes {item : Parser α} (hitem : Consumes false item) {items : List α}
    (h : optionalMany "(" item ")" r = .ok (items, r')) :
    ∃ taken, Reads r taken r' ∧ Passes taken := by
  obtain ⟨-, rfl⟩ | hitems := optionalMany_cases h
  · exact ⟨[], Reads.refl _, passes_nil⟩
  · obtain ⟨s, inside, t, hs, hinside, ht, hreads⟩ := hitems.reads hitem
    exact ⟨_, hreads, passes_parenthesized hs ht hinside⟩

theorem arguments_passes {isConstant : Bool} {as : List Argument}
    (h : arguments isConstant r = .ok (as, r')) : ∃ taken, Reads r taken r' ∧ Passes taken :=
  optionalMany_passes (consumes_argument isConstant) h

theorem directive_passes {isConstant : Bool} {d : Directive}
    (h : directive isConstant r = .ok (d, r')) : ∃ taken, Reads r taken r' ∧ Passes taken ∧
      (d.hasObject = false → ∀ x ∈ taken, ¬ x.Is "\x7b") := by
  obtain ⟨start, r₁, hstart, h⟩ := bind_eq_ok.mp h
  obtain rfl := offset_eq_ok hstart
  obtain ⟨u, r₁, hexpect, h⟩ := bind_eq_ok.mp h
  obtain ⟨n, r₂, hname, h⟩ := bind_eq_ok.mp h
  obtain ⟨as, r₃, harguments, h⟩ := bind_eq_ok.mp h
  obtain ⟨span, r₄, hspan, h⟩ := bind_eq_ok.mp h
  cases hspan
  cases h
  obtain ⟨s, hs, hreads⟩ := expect_reads hexpect
  obtain ⟨t, ht, -, hreads'⟩ := name_reads hname
  obtain ⟨taken, hreads'', hpasses⟩ := arguments_passes harguments
  refine ⟨[s, t] ++ taken, (hreads.append hreads').append hreads'',
    (passes_directive hs).append hpasses, fun hfree => ?_⟩
  obtain ⟨taken', hsame, hspares⟩ := arguments_spares isConstant harguments
    (by simpa [Directive.hasObject] using hfree)
  obtain rfl := hreads''.taken_unique hsame
  simp only [List.cons_append, List.nil_append, List.forall_mem_cons]
  exact ⟨ne_of_is hs (by decide), not_is_of_name ht, hspares⟩

theorem directivesWithin_passes {isConstant : Bool} {n : Nat} {ds : List Directive}
    (h : directivesWithin isConstant n r = .ok (ds, r')) :
    ∃ taken, Reads r taken r' ∧ Passes taken ∧
      (ds.any Directive.hasObject = false → ∀ x ∈ taken, ¬ x.Is "\x7b") := by
  induction n generalizing r ds with
  | zero =>
    cases h
    exact ⟨[], Reads.refl _, passes_nil, fun _ => List.forall_mem_nil _⟩
  | succ n ih =>
    rw [directivesWithin] at h
    obtain ⟨b, r₁, hpeek, h⟩ := bind_eq_ok.mp h
    obtain ⟨-, rfl⟩ := peek_eq_ok hpeek
    cases b with
    | false =>
      cases h
      exact ⟨[], Reads.refl _, passes_nil, fun _ => List.forall_mem_nil _⟩
    | true =>
      rw [if_pos rfl] at h
      obtain ⟨d, r₁, hfirst, h⟩ := bind_eq_ok.mp h
      obtain ⟨ds, r₂, hrest, h⟩ := bind_eq_ok.mp h
      cases h
      obtain ⟨first, hreads, hpasses, hfree⟩ := directive_passes hfirst
      obtain ⟨rest, hreads', hpasses', hfree'⟩ := ih hrest
      refine ⟨first ++ rest, hreads.append hreads', hpasses.append hpasses', fun hall => ?_⟩
      rw [List.any_cons, Bool.or_eq_false_iff] at hall
      exact List.forall_mem_append.mpr ⟨hfree hall.1, hfree' hall.2⟩

theorem directives_passes {isConstant : Bool} {ds : List Directive}
    (h : directives isConstant r = .ok (ds, r')) : ∃ taken, Reads r taken r' ∧ Passes taken ∧
      (ds.any Directive.hasObject = false → ∀ x ∈ taken, ¬ x.Is "\x7b") := by
  obtain ⟨n, r₁, hfuel, h⟩ := bind_eq_ok.mp h
  cases hfuel
  exact directivesWithin_passes h

end Document.Parser
end EmbeddedGraphQL
