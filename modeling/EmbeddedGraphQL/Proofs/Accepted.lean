import EmbeddedGraphQL.Proofs.Phrases
import Mathlib

/-!
What is taken for each part of a document. Every part is a phrase, and a definition takes at least
one symbol, so the rounds for all symbols left suffice to read a document to its end.
-/
namespace EmbeddedGraphQL
namespace Document.Parser

variable {dots : Bool} {α β : Type} {r r' : Reader}

/-! Values and types -/

theorem offset_eq_ok {n : Nat} (h : offset r = .ok (n, r')) : r = r' := by
  unfold offset at h
  obtain ⟨q, q', hget, h⟩ := bind_eq_ok.mp h
  cases hget
  cases hr : r.rest.symbols.head? with
  | some s =>
    rw [hr] at h
    cases h
    rfl
  | none =>
    rw [hr] at h
    obtain ⟨q, q', hget, h⟩ := bind_eq_ok.mp h
    cases hget
    cases h
    rfl

/-- A symbol that is known to stand alone is taken before anything else. -/
theorem advance_consumes {s : Symbol} {f : Unit → Parser α} {a : α}
    (hs : r.rest.symbols.head? = some s) (hplain : s.IsPlain) (hf : ∀ u, Consumes dots (f u))
    (h : (advance >>= f) r = .ok (a, r')) : ∃ taken, Phrase dots taken ∧ Reads r taken r' := by
  obtain ⟨u, r₁, hadvance, h⟩ := bind_eq_ok.mp h
  obtain ⟨taken, hphrase, hreads⟩ := hf u h
  exact ⟨s :: taken, .plain hplain hphrase, (advance_reads hs hadvance).append hreads⟩

/-- A field of an object. -/
def objectField (item : Parser Value) : Parser (Name × Value) := do
  let name ← name
  expect ":"
  return (name, ← item)

/-- What a value is and what is taken for it. -/
inductive ReadsValue (item : Parser Value) (r : Reader) : Value → Reader → Prop
  | atom {s : Symbol} {v : Value} {r' : Reader} : s.kind ≠ .punctuator → Reads r [s] r' →
    ReadsValue item r v r'
  | dollar {s t : Symbol} {name : Name} {span : Span} {r' : Reader} : s.Is "$" →
    t.kind = .name → Reads r [s, t] r' → ReadsValue item r (.variable name span) r'
  | list {items : List Value} {span : Span} {r' : Reader} : Enclosed "[" item "]" r items r' →
    ReadsValue item r (.list items span) r'
  | object {fields : List (Name × Value)} {span : Span} {r' : Reader} :
    Enclosed "\x7b" (objectField item) "\x7d" r fields r' →
      ReadsValue item r (.object fields span) r'

theorem value_cases {isConstant : Bool} {n : Nat} {v : Value}
    (h : value isConstant (n + 1) r = .ok (v, r')) : ReadsValue (value isConstant n) r v r' := by
  rw [value] at h
  obtain ⟨start, r₁, hstart, h⟩ := bind_eq_ok.mp h
  obtain rfl := offset_eq_ok hstart
  obtain ⟨s, r₂, hcurrent, h⟩ := bind_eq_ok.mp h
  obtain ⟨hs, rfl⟩ := current_eq_ok hcurrent
  cases s with
  | none => exact absurd h unexpected_ne_ok
  | some s =>
    cases hkind : s.kind with
    | punctuator =>
      simp only [hkind] at h
      by_cases hdollar : s.value = "$"
      · rw [if_pos (beq_iff_eq.mpr hdollar)] at h
        obtain ⟨u, r₁, hadvance, h⟩ := bind_eq_ok.mp h
        cases isConstant with
        | true =>
          rw [if_pos rfl] at h
          obtain ⟨t, r₂, -, h⟩ := bind_eq_ok.mp h
          cases t with
          | none => cases h
          | some t =>
            dsimp only at h
            split_ifs at h <;> cases h
        | false =>
          rw [if_neg Bool.false_ne_true] at h
          obtain ⟨name, r₂, hname, h⟩ := bind_eq_ok.mp h
          obtain ⟨t, ht, -, hreads⟩ := name_reads hname
          cases h
          exact .dollar ⟨hkind, hdollar⟩ ht ((advance_reads hs hadvance).append hreads)
      · rw [if_neg (fun h => hdollar (beq_iff_eq.mp h))] at h
        by_cases hlist : s.value = "["
        · rw [if_pos (beq_iff_eq.mpr hlist)] at h
          obtain ⟨items, r₁, hitems, h⟩ := bind_eq_ok.mp h
          cases h
          exact .list (enclosed_of_many0 hitems)
        · rw [if_neg (fun h => hlist (beq_iff_eq.mp h))] at h
          by_cases hobject : s.value = "\x7b"
          · rw [if_pos (beq_iff_eq.mpr hobject)] at h
            obtain ⟨fields, r₁, hfields, h⟩ := bind_eq_ok.mp h
            cases h
            exact .object (enclosed_of_many0 hfields)
          · rw [if_neg (fun h => hobject (beq_iff_eq.mp h))] at h
            exact absurd h unexpected_ne_ok
    | _ =>
      simp only [hkind] at h
      obtain ⟨u, r₁, hadvance, h⟩ := bind_eq_ok.mp h
      obtain ⟨span, r₂, hspan, h⟩ := bind_eq_ok.mp h
      have hsame : r₁ = r' := by
        cases hspan
        first
          | cases h; rfl
          | split_ifs at h <;> cases h <;> rfl
      exact .atom (by simp [hkind]) (hsame ▸ advance_reads hs hadvance)

theorem consumes_value (isConstant : Bool) (n : Nat) : Consumes dots (value isConstant n) := by
  induction n with
  | zero => exact consumes_unexpected
  | succ n ih =>
    intro r v r' h
    have hfield : Consumes dots (objectField (value isConstant n)) :=
      consumes_name.bind fun _ => (consumes_expect (by decide)).bind fun _ => ih.ret
    cases value_cases h with
    | atom hs hreads => exact ⟨_, .single (Symbol.isPlain_of_kind hs), hreads⟩
    | dollar hs ht hreads => exact ⟨_, .named (Or.inl hs) ht .nil, hreads⟩
    | list hitems =>
      obtain ⟨taken, -, hphrase, hreads⟩ := hitems.phrase (by decide) ih
      exact ⟨taken, hphrase, hreads⟩
    | object hfields =>
      obtain ⟨taken, -, hphrase, hreads⟩ := hfields.phrase (by decide) hfield
      exact ⟨taken, hphrase, hreads⟩

theorem consumes_anyValue : Consumes dots anyValue := consumes_fuel.bind (consumes_value false)

theorem consumes_constant : Consumes dots constant := consumes_fuel.bind (consumes_value true)

/-- What stands between brackets, if the left one is there, and what follows. -/
theorem consumes_skipNested {p : Parser α} {f : α → Parser β} {q : Parser β} {left right : String}
    (hpair : (left, right) ∈ [("(", ")"), ("[", "]"), ("\x7b", "\x7d")]) (hp : Consumes dots p)
    (hf : ∀ a, Consumes dots (f a)) (hq : Consumes dots q) :
    Consumes dots (do if ← skip left then (do let a ← p; expect right; f a) else q) := by
  intro r b r' h
  obtain ⟨found, r₁, hskip, h⟩ := bind_eq_ok.mp h
  obtain ⟨rfl, s, hs, hopen⟩ | ⟨rfl, rfl⟩ := skip_reads hskip
  · rw [if_pos rfl] at h
    obtain ⟨a, r₂, ha, h⟩ := bind_eq_ok.mp h
    obtain ⟨u, r₃, hexpect, h⟩ := bind_eq_ok.mp h
    obtain ⟨inside, hinside, hbefore⟩ := hp ha
    obtain ⟨t, ht, hclose⟩ := expect_reads hexpect
    obtain ⟨rest, hrest, hafter⟩ := hf a h
    exact ⟨_, .nest hpair hs ht hinside hrest,
      hopen.append (hbefore.append (hclose.append hafter))⟩
  · rw [if_neg Bool.false_ne_true] at h
    exact hq h

theorem consumes_typeRefWithin (n : Nat) : Consumes dots (typeRefWithin n) := by
  induction n with
  | zero => exact consumes_unexpected
  | succ n ih =>
    have hmarked (start : Nat) (inner : TypeRef) : Consumes dots (do
        if ← skip "!" then return TypeRef.nonNull inner (← spanFrom start) else return inner) :=
      (consumes_skip (by decide)).bind fun _ => ((consumes_spanFrom _).ret).ite (consumes_pure _)
    exact consumes_offset.bind fun start => consumes_skipNested (by decide) ih
      (fun _ => (consumes_spanFrom _).bind fun _ => (consumes_pure _).bind (hmarked start))
      (consumes_name.bind fun _ => (consumes_pure _).bind (hmarked start))

theorem consumes_typeRef : Consumes dots typeRef := consumes_fuel.bind consumes_typeRefWithin

/-! Arguments and directives -/

theorem consumes_argument (isConstant : Bool) : Consumes dots (argument isConstant) :=
  consumes_name.bind fun _ => (consumes_expect (by decide)).bind fun _ =>
    consumes_constant.join consumes_anyValue fun _ => consumes_pure _

theorem consumes_arguments (isConstant : Bool) : Consumes dots (arguments isConstant) :=
  consumes_optionalMany (by decide) (consumes_argument isConstant)

theorem consumes_directive (isConstant : Bool) : Consumes dots (directive isConstant) :=
  consumes_offset.bind fun _ => consumes_marked (Or.inr rfl) fun _ =>
    (consumes_arguments isConstant).bind fun _ => (consumes_spanFrom _).ret

theorem consumes_directives (isConstant : Bool) : Consumes dots (directives isConstant) := by
  refine consumes_fuel.bind fun n => ?_
  induction n with
  | zero => exact consumes_pure _
  | succ n ih =>
    exact (consumes_peek _).bind fun _ =>
      ((consumes_directive isConstant).bind fun _ => ih.ret).ite (consumes_pure _)

/-! Selections -/

theorem consumes_fragmentName : Consumes dots fragmentName :=
  consumes_current.bind fun _ => consumes_unexpected.ite consumes_name

theorem consumes_selection (n : Nat) : Consumes true (selection n) := by
  induction n with
  | zero => exact consumes_unexpected
  | succ n ih =>
    have hmany : Consumes true (many1 "\x7b" (selection n) "\x7d") :=
      consumes_many1 (by decide) ih
    have hfield (start : Nat) (names : Option Name × Name) : Consumes true (do
        let arguments ← arguments false
        let directives ← directives false
        let inner ← offset
        if ← peek "\x7b" then
          let selections ← many1 "\x7b" (selection n) "\x7d"
          return Selection.field names.1 names.2 arguments directives (some (← spanFrom inner))
            selections (← spanFrom start)
        else
          return .field names.1 names.2 arguments directives none [] (← spanFrom start)) := by
      refine (consumes_arguments _).bind fun _ => (consumes_directives _).bind fun _ =>
          consumes_offset.bind fun _ => (consumes_peek _).bind fun _ => .ite ?_ ?_
      · exact hmany.bind fun _ => (consumes_spanFrom _).bind fun _ => (consumes_spanFrom _).ret
      · exact (consumes_spanFrom _).ret
    rw [selection]
    refine consumes_offset.bind fun start => consumes_skip_dots.bind fun _ => .ite ?_ ?_
    · refine (consumes_skipKeyword _).bind fun _ => consumes_current.bind fun _ => .ite ?_ ?_
      · exact consumes_fragmentName.bind fun _ => (consumes_directives _).bind fun _ =>
          (consumes_spanFrom _).ret
      · exact (consumes_name.map _).join (consumes_pure _) fun _ =>
          (consumes_directives _).bind fun _ => consumes_offset.bind fun _ => hmany.bind fun _ =>
            (consumes_spanFrom _).bind fun _ => (consumes_spanFrom _).ret
    · exact consumes_name.bind fun _ => (consumes_skip (by decide)).bind fun _ => .ite
        (consumes_name.bind fun _ => (consumes_pure _).bind (hfield start))
        ((consumes_pure _).bind (hfield start))

theorem moves_selectionSet : Moves true selectionSet :=
  consumes_offset.moves fun _ => consumes_fuel.moves fun n =>
    (moves_many1 (by decide) (consumes_selection n)).bind fun _ => (consumes_spanFrom _).ret

/-! Operations and fragments -/

theorem isString_iff {s : Symbol} :
    isString (some s) = true ↔ s.kind = .string ∨ s.kind = .blockString := by
  simp [isString]

theorem consumes_optionalDescription : Consumes dots optionalDescription := by
  intro r d r' h
  obtain ⟨s, r₁, hcurrent, h⟩ := bind_eq_ok.mp h
  obtain ⟨hs, rfl⟩ := current_eq_ok hcurrent
  cases s with
  | none => exact consumes_pure _ h
  | some s =>
    dsimp only at h
    by_cases hstring : isString (some s) = true
    · rw [if_pos hstring] at h
      refine advance_consumes hs (Symbol.isPlain_of_kind ?_) (fun _ => consumes_pure _) h
      rcases isString_iff.mp hstring with hkind | hkind <;> simp [hkind]
    · rw [if_neg hstring] at h
      exact consumes_pure _ h

theorem moves_operationKind : Moves dots operationKind := by
  refine consumes_offset.moves fun _ => consumes_current.moves fun _ => moves_name.bind fun n => ?_
  cases OperationKind.ofWord? n.value with
  | some kind => exact consumes_pure _
  | none => exact consumes_failAt _ _

/-- A default value, if there is one, and what follows. -/
theorem consumes_default {f : Option Value → Parser α} (hf : ∀ v, Consumes dots (f v)) :
    Consumes dots (do if ← skip "=" then some <$> constant >>= f else pure none >>= f) :=
  (consumes_skip (by decide)).bind fun _ => (consumes_constant.map _).join (consumes_pure _) hf

theorem consumes_variableDefinition : Consumes dots variableDefinition :=
  consumes_offset.bind fun _ => consumes_optionalDescription.bind fun _ =>
    consumes_offset.bind fun _ => consumes_marked (Or.inl rfl) fun _ =>
      (consumes_spanFrom _).bind fun _ => (consumes_expect (by decide)).bind fun _ =>
        consumes_typeRef.bind fun _ => consumes_default fun _ =>
          (consumes_directives _).bind fun _ => (consumes_spanFrom _).ret

theorem moves_operation : Moves true operation := by
  refine consumes_offset.moves fun _ => (consumes_peek _).moves fun _ => .ite ?_ ?_
  · exact moves_selectionSet.bind fun _ => (consumes_spanFrom _).ret
  · exact consumes_optionalDescription.moves fun _ => moves_operationKind.bind fun _ =>
      consumes_current.bind fun _ => (consumes_name.map _).join (consumes_pure _) fun _ =>
        (consumes_optionalMany (by decide) consumes_variableDefinition).bind fun _ =>
          (consumes_directives _).bind fun _ => moves_selectionSet.consumes.bind fun _ =>
            (consumes_spanFrom _).ret

theorem moves_fragment : Moves true fragment :=
  consumes_offset.moves fun _ => consumes_optionalDescription.moves fun _ =>
    (moves_expectKeyword _).bind fun _ => consumes_fragmentName.bind fun _ =>
      (moves_expectKeyword _).consumes.bind fun _ => consumes_name.bind fun _ =>
        (consumes_directives _).bind fun _ => moves_selectionSet.consumes.bind fun _ =>
          (consumes_spanFrom _).ret

/-! Definitions of types -/

theorem consumes_inputValueDefinition : Consumes dots inputValueDefinition :=
  consumes_offset.bind fun _ => consumes_optionalDescription.bind fun _ =>
    consumes_name.bind fun _ => (consumes_expect (by decide)).bind fun _ =>
      consumes_typeRef.bind fun _ => consumes_default fun _ =>
        (consumes_directives _).bind fun _ => (consumes_spanFrom _).ret

theorem consumes_fieldDefinition : Consumes dots fieldDefinition :=
  consumes_offset.bind fun _ => consumes_optionalDescription.bind fun _ =>
    consumes_name.bind fun _ =>
      (consumes_optionalMany (by decide) consumes_inputValueDefinition).bind fun _ =>
        (consumes_expect (by decide)).bind fun _ => consumes_typeRef.bind fun _ =>
          (consumes_directives _).bind fun _ => (consumes_spanFrom _).ret

theorem consumes_fieldDefinitions : Consumes dots fieldDefinitions :=
  consumes_optionalMany (by decide) consumes_fieldDefinition

theorem consumes_interfaces : Consumes dots interfaces :=
  (consumes_skipKeyword _).bind fun _ =>
    (consumes_separated consumes_name (by decide)).ite (consumes_pure _)

theorem consumes_memberTypes : Consumes dots memberTypes :=
  (consumes_skip (by decide)).bind fun _ =>
    (consumes_separated consumes_name (by decide)).ite (consumes_pure _)

theorem consumes_enumValueDefinition : Consumes dots enumValueDefinition := by
  refine consumes_offset.bind fun _ => consumes_optionalDescription.bind fun _ =>
    consumes_current.bind fun _ => Consumes.ite ?_ ?_
  · exact consumes_offset.bind fun _ => (consumes_failAt _ _).bind fun _ =>
      consumes_name.bind fun _ => (consumes_directives _).bind fun _ => (consumes_spanFrom _).ret
  · exact consumes_name.bind fun _ => (consumes_directives _).bind fun _ =>
      (consumes_spanFrom _).ret

theorem consumes_rootDefinition : Consumes dots rootDefinition :=
  consumes_offset.bind fun _ => moves_operationKind.consumes.bind fun _ =>
    (consumes_expect (by decide)).bind fun _ => consumes_name.bind fun _ =>
      (consumes_spanFrom _).ret

theorem consumes_typeBody (keyword : String) : Consumes dots (typeBody keyword) := by
  unfold typeBody
  split
  · exact consumes_interfaces.bind fun _ => (consumes_directives _).bind fun _ =>
      consumes_fieldDefinitions.ret
  · exact consumes_interfaces.bind fun _ => (consumes_directives _).bind fun _ =>
      consumes_fieldDefinitions.ret
  · exact (consumes_directives _).bind fun _ => consumes_memberTypes.ret
  · exact (consumes_directives _).bind fun _ =>
      (consumes_optionalMany (by decide) consumes_enumValueDefinition).ret
  · exact (consumes_directives _).bind fun _ =>
      (consumes_optionalMany (by decide) consumes_inputValueDefinition).ret
  · exact (consumes_directives _).ret

theorem moves_typeDefinition (keyword : String) : Moves dots (typeDefinition keyword) :=
  consumes_offset.moves fun _ => consumes_optionalDescription.moves fun _ =>
    (moves_expectKeyword _).bind fun _ => consumes_name.bind fun _ =>
      (consumes_typeBody keyword).bind fun _ => (consumes_spanFrom _).ret

theorem moves_typeExtension (keyword : String) : Moves dots (typeExtension keyword) :=
  consumes_offset.moves fun _ => (moves_expectKeyword _).bind fun _ =>
    (moves_expectKeyword _).consumes.bind fun _ => consumes_name.bind fun _ =>
      (consumes_typeBody keyword).bind fun _ =>
        (consumes_unexpected.bind fun _ => (consumes_spanFrom _).ret).ite (consumes_spanFrom _).ret

theorem moves_schemaDefinition : Moves dots schemaDefinition :=
  consumes_offset.moves fun _ => consumes_optionalDescription.moves fun _ =>
    (moves_expectKeyword _).bind fun _ => (consumes_directives _).bind fun _ =>
      (consumes_many1 (by decide) consumes_rootDefinition).bind fun _ => (consumes_spanFrom _).ret

theorem moves_schemaExtension : Moves dots schemaExtension :=
  consumes_offset.moves fun _ => (moves_expectKeyword _).bind fun _ =>
    (moves_expectKeyword _).consumes.bind fun _ => (consumes_directives _).bind fun _ =>
      (consumes_optionalMany (by decide) consumes_rootDefinition).bind fun _ =>
        (consumes_unexpected.bind fun _ => (consumes_spanFrom _).ret).ite (consumes_spanFrom _).ret

theorem consumes_directiveLocation : Consumes dots directiveLocation :=
  consumes_offset.bind fun _ => consumes_current.bind fun _ => consumes_name.bind fun _ =>
    (consumes_pure _).ite (consumes_failAt _ _)

theorem moves_directiveDefinition : Moves dots directiveDefinition :=
  consumes_offset.moves fun _ => consumes_optionalDescription.moves fun _ =>
    (moves_expectKeyword _).bind fun _ => consumes_marked (Or.inr rfl) fun _ =>
      (consumes_optionalMany (by decide) consumes_inputValueDefinition).bind fun _ =>
        (consumes_skipKeyword _).bind fun _ => (moves_expectKeyword _).consumes.bind fun _ =>
          (consumes_separated consumes_directiveLocation (by decide)).bind fun _ =>
            (consumes_spanFrom _).ret

/-! Documents -/

/-- Looking at the symbol after the current one takes nothing. -/
theorem next_eq_ok {s : Option Symbol} (h : next r = .ok (s, r')) : r = r' := by
  obtain ⟨q, r₁, hget, h⟩ := bind_eq_ok.mp h
  cases hget
  rcases hsymbols : r.rest.symbols with _ | ⟨t, _ | ⟨u, rest⟩⟩ <;>
    cases hproblem : r.rest.problem <;> simp only [hsymbols, hproblem] at h <;> cases h <;> rfl

theorem consumes_next : Consumes dots next := by
  intro r s r' h
  exact ⟨[], .nil, next_eq_ok h ▸ Reads.refl r⟩

theorem moves_unexpectedSymbol (s : Option Symbol) :
    Moves dots (unexpectedSymbol s : Parser α) := by
  cases s with
  | some s => exact moves_failAt _ _
  | none => exact consumes_get.moves fun _ => moves_failAt _ _

theorem moves_extension : Moves dots extension := by
  refine consumes_next.moves fun keyword => .ite moves_schemaExtension.ret ?_
  cases typeKeywords.find? (isKeyword · keyword) with
  | some word => exact (moves_typeExtension word).ret
  | none => exact moves_unexpectedSymbol _

theorem moves_definition : Moves true definition := by
  refine (consumes_peek _).moves fun _ => .ite moves_operation.ret ?_
  refine consumes_current.moves fun first => .join consumes_next (consumes_pure _) fun keyword => ?_
  refine .ite (consumes_offset.moves fun _ => moves_failAt_bind) (.ite moves_schemaDefinition.ret
    (.ite moves_directiveDefinition.ret ?_))
  cases typeKeywords.find? (isKeyword · keyword) with
  | some word => exact (moves_typeDefinition word).ret
  | none =>
    exact .ite moves_operation.ret (.ite moves_fragment.ret (.ite
      (.ite (consumes_offset.moves fun _ => moves_failAt_bind)
        (.ite moves_extension (moves_unexpectedSymbol _))) (moves_unexpectedSymbol _)))

/-- With a round for each symbol left, definitions are read up to the end. -/
theorem definitionsWithin_reads {n : Nat} (hn : r.rest.symbols.length < n)
    {definitions : List Definition} (h : definitionsWithin n r = .ok (definitions, r')) :
    Phrase true r.rest.symbols ∧ Reads r r.rest.symbols r' := by
  induction n generalizing r definitions with
  | zero => exact absurd hn (Nat.not_lt_zero _)
  | succ n ih =>
    rw [definitionsWithin] at h
    obtain ⟨s, r₁, hcurrent, h⟩ := bind_eq_ok.mp h
    obtain ⟨hs, rfl⟩ := current_eq_ok hcurrent
    cases s with
    | none =>
      cases h
      rw [List.head?_eq_none_iff.mp hs]
      exact ⟨.nil, Reads.refl _⟩
    | some s =>
      obtain ⟨first, r₁, hfirst, h⟩ := bind_eq_ok.mp h
      obtain ⟨rest, r₂, hrest, h⟩ := bind_eq_ok.mp h
      cases h
      obtain ⟨taken, hne, hphrase, hreads⟩ := moves_definition hfirst
      have hlength := congrArg List.length hreads.symbols
      rw [List.length_append] at hlength
      have hpos := List.length_pos_iff.mpr hne
      obtain ⟨hphrase', hreads'⟩ := ih (by omega) hrest
      rw [hreads.symbols]
      exact ⟨hphrase.append hphrase', hreads.append hreads'⟩

theorem definitions_reads {definitions : List Definition}
    (h : Parser.definitions r = .ok (definitions, r')) :
    r.rest.symbols ≠ [] ∧ Phrase true r.rest.symbols ∧ Reads r r.rest.symbols r' := by
  obtain ⟨first, r₁, hfirst, h⟩ := bind_eq_ok.mp h
  obtain ⟨n, r₂, hfuel, h⟩ := bind_eq_ok.mp h
  obtain ⟨rest, r₃, hrest, h⟩ := bind_eq_ok.mp h
  cases h
  cases hfuel
  obtain ⟨taken, hne, hphrase, hreads⟩ := moves_definition hfirst
  obtain ⟨hphrase', hreads'⟩ := definitionsWithin_reads (Nat.lt_succ_self _) hrest
  rw [hreads.symbols]
  exact ⟨by simp [hne], hphrase.append hphrase', hreads.append hreads'⟩

end Document.Parser

namespace Document

variable {text : List Char} {document : Document}

/-- The definitions of a document are read from all symbols of its text. -/
theorem definitions_of_parse (h : parse text = .ok document) :
    ∃ r, Parser.definitions ⟨SymbolList.ofText text, 0⟩ = .ok (document.definitions, r) := by
  unfold parse readWhole at h
  cases hread : Parser.definitions ⟨SymbolList.ofText text, 0⟩ with
  | error e =>
    simp only [StateT.run, hread] at h
    split at h <;> cases h
  | ok result =>
    simp only [StateT.run, hread] at h
    split at h <;> cases h
    exact ⟨result.2, rfl⟩

/-- A text that is a document is read to its end, and its symbols form a phrase. -/
theorem phrase_of_parse (h : parse text = .ok document) :
    (SymbolList.ofText text).problem = none ∧ Phrase true (SymbolList.ofText text).symbols := by
  obtain ⟨r, hread⟩ := definitions_of_parse h
  obtain ⟨hne, hphrase, hreads⟩ := Parser.definitions_reads hread
  refine ⟨?_, hphrase⟩
  have hrest : r.rest.symbols = [] := List.self_eq_append_right.mp hreads.symbols
  rcases hreads.sound with hempty | hmore | hnone
  · exact absurd hempty hne
  · exact absurd hrest hmore
  · exact hreads.problem.symm.trans hnone

end Document
end EmbeddedGraphQL
