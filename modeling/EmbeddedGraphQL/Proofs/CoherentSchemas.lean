import EmbeddedGraphQL.Proofs.KeyedLists
import EmbeddedGraphQL.Schema.Builtin
import Mathlib

/-!
The order of types is complete. Every listed type comes up in it, and with each type all types that
it refers to. So in a schema that is put together from types with known references every field leads
to a type.
-/
namespace EmbeddedGraphQL

namespace TypeOrder

variable {lookup : String → Option NamedType} {all seen result names : List String} {name : String}

/-- Whether the types that a type refers to are among some. -/
def Settled (lookup : String → Option NamedType) (seen : List String) (name : String) : Prop :=
  ∀ t, lookup name = some t → ∀ other ∈ t.references, (lookup other).isSome → other ∈ seen

/-- The number of types that are not among some. -/
def missing (all seen : List String) : Nat := (all.filter (· ∉ seen)).length

/-- What visiting some types adds to those that were seen: these types, and with each new type those
that it refers to. -/
structure Extends (lookup : String → Option NamedType) (names seen result : List String) :
    Prop where
  kept : ∀ name ∈ seen, name ∈ result
  added : ∀ name ∈ names, (lookup name).isSome → name ∈ result
  settled : ∀ name ∈ result, name ∈ seen ∨ Settled lookup result name
  nodup : seen.Nodup → result.Nodup

theorem Settled.mono (h : Settled lookup seen name) (hkept : ∀ name ∈ seen, name ∈ result) :
    Settled lookup result name :=
  fun t ht other hother hsome => hkept other (h t ht other hother hsome)

theorem missing_mono (h : ∀ name ∈ seen, name ∈ result) :
    missing all result ≤ missing all seen := by
  unfold missing
  refine (List.monotone_filter_right all fun name hname => ?_).length_le
  simp only [decide_not, Bool.not_eq_true', decide_eq_false_iff_not] at hname ⊢
  exact fun hseen => hname (h name hseen)

theorem missing_append_lt (hall : name ∈ all) (hname : name ∉ seen) :
    missing all (seen ++ [name]) < missing all seen := by
  have hsplit : all.filter (· ∉ seen ++ [name]) = (all.filter (· ∉ seen)).filter (· ≠ name) := by
    rw [List.filter_filter]
    refine List.filter_congr fun other _ => ?_
    simp [and_comm, not_or]
  unfold missing
  rw [hsplit]
  refine List.length_filter_lt_length_iff_exists.mpr ⟨name, ?_, by simp⟩
  exact List.mem_filter.mpr ⟨hall, by simpa using hname⟩

theorem Extends.refl (seen : List String) : Extends lookup [] seen seen :=
  ⟨fun _ h => h, nofun, fun _ => Or.inl, fun h => h⟩

theorem Extends.trans {between : List String} (h : Extends lookup [name] seen between)
    (hrest : Extends lookup names between result) : Extends lookup (name :: names) seen result where
  kept other hother := hrest.kept other (h.kept other hother)
  added other hother hsome := by
    rcases List.mem_cons.mp hother with rfl | hnames
    · exact hrest.kept other (h.added other List.mem_cons_self hsome)
    · exact hrest.added other hnames hsome
  settled other hother := by
    rcases hrest.settled other hother with hbetween | hsettled
    · exact (h.settled other hbetween).imp_right (·.mono hrest.kept)
    · exact Or.inr hsettled
  nodup hnodup := hrest.nodup (h.nodup hnodup)

/-- A type that was seen, or that is not there, adds nothing. -/
theorem Extends.nothing (h : (lookup name).isSome → name ∈ seen) :
    Extends lookup [name] seen seen where
  kept _ hother := hother
  added other hother hsome := by
    obtain rfl := List.mem_singleton.mp hother
    exact h hsome
  settled _ hother := Or.inl hother
  nodup hnodup := hnodup

/-- A new type adds itself and what its references add. -/
theorem Extends.of_references {t : NamedType} (ht : lookup name = some t) (hname : name ∉ seen)
    (h : Extends lookup t.references (seen ++ [name]) result) :
    Extends lookup [name] seen result where
  kept other hother := h.kept other (List.mem_append_left _ hother)
  added other hother _ := by
    obtain rfl := List.mem_singleton.mp hother
    exact h.kept other (List.mem_append_right _ List.mem_cons_self)
  settled other hother := by
    rcases h.settled other hother with hbefore | hsettled
    · rcases List.mem_append.mp hbefore with hseen | hown
      · exact Or.inl hseen
      · obtain rfl := List.mem_singleton.mp hown
        refine Or.inr fun found hfound part hpart hsome => ?_
        obtain rfl := Option.some.inj (ht.symm.trans hfound)
        exact h.added part hpart hsome
    · exact Or.inr hsettled
  nodup hnodup := h.nodup (List.nodup_append_comm.mp (List.nodup_cons.mpr ⟨hname, hnodup⟩))

/-- Visiting types one by one adds what visiting each of them adds. -/
theorem extends_foldl {visit : List String → String → List String} {bound : Nat}
    (hvisit : ∀ seen name, missing all seen < bound →
      Extends lookup [name] seen (visit seen name)) (names : List String)
    (h : missing all seen < bound) : Extends lookup names seen (names.foldl visit seen) := by
  induction names generalizing seen with
  | nil => exact .refl seen
  | cons name rest ih =>
    have hfirst := hvisit seen name h
    exact hfirst.trans (ih (lt_of_le_of_lt (missing_mono hfirst.kept) h))

/-- Each round of a visit adds a type, so a visit that may go deeper than there are types left adds
everything that the type leads to. -/
theorem extends_visit (hall : ∀ name, (lookup name).isSome → name ∈ all) {fuel : Nat}
    (seen : List String) (name : String) (h : missing all seen < fuel) :
    Extends lookup [name] seen (visit lookup fuel seen name) := by
  induction fuel generalizing seen name with
  | zero => omega
  | succ fuel ih =>
    unfold visit
    split
    case isTrue hcontains => exact .nothing fun _ => by simpa using hcontains
    case isFalse hcontains =>
      have hname : name ∉ seen := by simpa using hcontains
      split
      case h_1 hnone => exact .nothing fun hsome => by simp [hnone] at hsome
      case h_2 t ht =>
        have hless := missing_append_lt (hall name (by rw [ht]; rfl)) hname
        exact .of_references ht hname
          (extends_foldl (fun seen name => ih seen name) t.references (by omega))

/-! Listed types -/

/-- What holds while listed types are visited. They are seen from the start, so a type that was seen
is either still to be visited or settled. -/
structure Visiting (lookup : String → Option NamedType) (todo seen : List String) : Prop where
  nodup : seen.Nodup
  left : ∀ name ∈ todo, name ∈ seen
  settled : ∀ name ∈ seen, name ∈ todo ∨ Settled lookup seen name

/-- A listed type is taken out in its turn and visited. It comes back with all that it leads to. -/
theorem Visiting.visit {todo : List String} (h : Visiting lookup (name :: todo) seen)
    (hknown : (lookup name).isSome) (hnext : Extends lookup [name] (seen.erase name) result) :
    (∀ other ∈ seen, other ∈ result) ∧ Visiting lookup todo result := by
  have hkept : ∀ other ∈ seen, other ∈ result := by
    intro other hother
    by_cases heq : other = name
    · subst heq
      exact hnext.added other List.mem_cons_self hknown
    · exact hnext.kept other ((List.mem_erase_of_ne heq).mpr hother)
  refine ⟨hkept, hnext.nodup (h.nodup.erase name), fun other hother =>
    hkept other (h.left other (List.mem_cons_of_mem _ hother)), fun other hother => ?_⟩
  rcases hnext.settled other hother with herase | hdone
  · obtain ⟨hne, hmem⟩ := h.nodup.mem_erase_iff.mp herase
    rcases h.settled other hmem with htodo | hdone
    · exact Or.inl ((List.mem_cons.mp htodo).resolve_left hne)
    · exact Or.inr (hdone.mono hkept)
  · exact Or.inr hdone

/-- When all listed types are visited, all types that were seen are settled. -/
theorem Visiting.foldl (hall : ∀ name, (lookup name).isSome → name ∈ all) {fuel : Nat}
    (hfuel : all.length < fuel) {todo : List String} (h : Visiting lookup todo seen)
    (hknown : ∀ name ∈ todo, (lookup name).isSome) :
    let result := todo.foldl (fun seen name => TypeOrder.visit lookup fuel (seen.erase name) name)
      seen
    (∀ name ∈ seen, name ∈ result) ∧ ∀ name ∈ result, Settled lookup result name := by
  induction todo generalizing seen with
  | nil =>
    exact ⟨fun _ hname => hname, fun name hname =>
      (h.settled name hname).resolve_left List.not_mem_nil⟩
  | cons name rest ih =>
    have hmissing : missing all (seen.erase name) < fuel :=
      lt_of_le_of_lt (List.length_filter_le ..) hfuel
    obtain ⟨hkept, hrest⟩ := h.visit (hknown name List.mem_cons_self)
      (extends_visit hall (seen.erase name) name hmissing)
    obtain ⟨hmore, hsettled⟩ := ih hrest fun other hother =>
      hknown other (List.mem_cons_of_mem _ hother)
    exact ⟨fun other hother => hmore other (hkept other hother), hsettled⟩

/-- All types that are listed or needed besides come up in the order, and with each type those that
it refers to. -/
theorem names_complete (hall : ∀ name, (lookup name).isSome → name ∈ all) {fuel : Nat}
    (hfuel : all.length < fuel) {listed : List String} (further : List String)
    (hnodup : listed.Nodup) (hknown : ∀ name ∈ listed, (lookup name).isSome) :
    let result := TypeOrder.names lookup fuel listed further
    (∀ name ∈ listed, name ∈ result) ∧
      (∀ name ∈ further, (lookup name).isSome → name ∈ result) ∧
      ∀ name ∈ result, Settled lookup result name := by
  have hstart : Visiting lookup listed listed :=
    ⟨hnodup, fun _ hname => hname, fun _ hname => Or.inl hname⟩
  obtain ⟨hkept, hsettled⟩ := hstart.foldl hall hfuel hknown
  have hmore : Extends lookup further
      (listed.foldl (fun seen name => visit lookup fuel (seen.erase name) name) listed)
      (TypeOrder.names lookup fuel listed further) :=
    extends_foldl (fun seen name => extends_visit hall seen name) further
      (lt_of_le_of_lt (List.length_filter_le ..) hfuel)
  refine ⟨fun name hname => hmore.kept name (hkept name hname), hmore.added, fun name hname => ?_⟩
  rcases hmore.settled name hname with hown | hdone
  · exact (hsettled name hown).mono hmore.kept
  · exact hdone

end TypeOrder

/-! Schemas that are put together -/

namespace Standard

theorem type?_name {name : String} {t : NamedType} (h : type? name = some t) : t.name = name := by
  simpa using List.find?_some h

theorem fieldNames_nodup : ∀ t ∈ types, (t.fields.map (·.name)).Nodup := by decide +kernel

theorem fieldTypes_known : ∀ t ∈ types, ∀ f ∈ t.fields, (type? f.type.baseName).isSome := by
  decide +kernel

end Standard

/-- What holds of schemas that were put together: the fields of a type have different names, and the
types of fields are types of the schema, also those of the fields that need no declaration. -/
structure Schema.Coherent (s : Schema) : Prop where
  fieldNames : ∀ t ∈ s.types, (t.fields.map (·.name)).Nodup
  fieldTypes : ∀ t ∈ s.types, ∀ f ∈ t.fields, ∃ found, s.type? f.type.baseName = some found
  undeclared : ∀ f ∈ [Standard.schemaField, Standard.typeField, Standard.typenameField],
    ∃ found, s.type? f.type.baseName = some found

namespace Schema

/-- Whether a name is that of a standard type or of one of some types. -/
def Known (types : List NamedType) (name : String) : Prop :=
  (Standard.type? name).isSome ∨ name ∈ types.map (·.name)

/-- Types whose fields have different names and known types. -/
structure Listable (types : List NamedType) : Prop where
  names : (types.map (·.name)).Nodup
  fieldNames : ∀ t ∈ types, (t.fields.map (·.name)).Nodup
  fieldTypes : ∀ t ∈ types, ∀ f ∈ t.fields, Known types f.type.baseName

/-- The type under a name: a standard one, or else one of some types. -/
def lookup? (types : List NamedType) (name : String) : Option NamedType :=
  (Standard.type? name).or (types.find? (·.name == name))

variable {types : List NamedType} {name : String} {t : NamedType}

theorem lookup?_isSome_iff : (lookup? types name).isSome ↔ Known types name := by
  rw [lookup?, Option.isSome_or, Bool.or_eq_true, Known]
  refine or_congr_right ?_
  rw [Option.isSome_iff_exists]
  exact Keyed.exists_find?_iff

theorem name_of_lookup? (h : lookup? types name = some t) : t.name = name := by
  rcases Option.or_eq_some_iff.mp h with hstandard | ⟨-, hfound⟩
  · exact Standard.type?_name hstandard
  · simpa using List.find?_some hfound

theorem mem_of_lookup? (h : lookup? types name = some t) : t ∈ Standard.types ∨ t ∈ types := by
  rcases Option.or_eq_some_iff.mp h with hstandard | ⟨-, hfound⟩
  · exact Or.inl (List.mem_of_find?_eq_some hstandard)
  · exact Or.inr (List.mem_of_find?_eq_some hfound)

theorem mem_references {f : Field} (h : f ∈ t.fields) : f.type.baseName ∈ t.references := by
  have hpart : ∀ fields : List Field, f ∈ fields →
      f.type.baseName ∈ fields.flatMap NamedType.fieldReferences :=
    fun fields hf => List.mem_flatMap.mpr ⟨f, hf, List.mem_cons_self⟩
  unfold NamedType.fields at h
  unfold NamedType.references
  split at h
  case h_1 hkind =>
    rw [hkind]
    exact List.mem_append_right _ (hpart _ h)
  case h_2 hkind =>
    rw [hkind]
    exact List.mem_append_right _ (hpart _ h)
  case h_3 => cases h

/-- The names of some types and of all that they and further names lead to, in order. -/
def order (types : List NamedType) (further : List String) : List String :=
  TypeOrder.names (lookup? types) (types.length + Standard.types.length + 1) (types.map (·.name))
    further

theorem order_complete (h : (types.map (·.name)).Nodup) (further : List String) :
    (∀ name ∈ further, (lookup? types name).isSome → name ∈ order types further) ∧
      ∀ name ∈ order types further,
        TypeOrder.Settled (lookup? types) (order types further) name := by
  have hall : ∀ name, (lookup? types name).isSome →
      name ∈ Standard.types.map (·.name) ++ types.map (·.name) := by
    intro name hname
    rcases lookup?_isSome_iff.mp hname with hstandard | hlisted
    · exact List.mem_append_left _
        (Keyed.exists_find?_iff.mp (Option.isSome_iff_exists.mp hstandard))
    · exact List.mem_append_right _ hlisted
  have hfuel : (Standard.types.map (·.name) ++ types.map (·.name)).length <
      types.length + Standard.types.length + 1 := by
    rw [List.length_append, List.length_map, List.length_map]
    omega
  exact (TypeOrder.names_complete hall hfuel further h
    fun name hname => lookup?_isSome_iff.mpr (Or.inr hname)).2

/-- The types of a schema that is put together, in their order. -/
theorem types_assemble (types : List NamedType) (description : Option String)
    (directives : List DirectiveType) (query mutation subscription : Option String) :
    ∃ further, Standard.schemaType.name ∈ further ∧
      (assemble description types directives query mutation subscription).types =
        (order types further).filterMap (lookup? types) :=
  ⟨_, List.mem_append_right _ List.mem_cons_self, rfl⟩

section

variable {s : Schema} {further : List String}

/-- A known name of the order is the name of a type. -/
theorem exists_type? (hs : s.types = (order types further).filterMap (lookup? types))
    (hname : name ∈ order types further) (hsome : (lookup? types name).isSome) :
    ∃ t, s.type? name = some t := by
  obtain ⟨t, ht⟩ := Option.isSome_iff_exists.mp hsome
  refine Keyed.exists_find?_iff.mpr (List.mem_map.mpr ⟨t, ?_, name_of_lookup? ht⟩)
  rw [hs]
  exact List.mem_filterMap.mpr ⟨name, hname, ht⟩

theorem lookup?_of_mem_types (hs : s.types = (order types further).filterMap (lookup? types))
    (ht : t ∈ s.types) : t.name ∈ order types further ∧ lookup? types t.name = some t := by
  rw [hs] at ht
  obtain ⟨name, hname, hlookup⟩ := List.mem_filterMap.mp ht
  obtain rfl := name_of_lookup? hlookup
  exact ⟨hname, hlookup⟩

/-- All known types that a type refers to are there. -/
theorem exists_type?_of_reference (h : (types.map (·.name)).Nodup)
    (hs : s.types = (order types further).filterMap (lookup? types)) (ht : t ∈ s.types)
    (hname : name ∈ t.references) (hknown : Known types name) : ∃ t, s.type? name = some t := by
  obtain ⟨hown, hlookup⟩ := lookup?_of_mem_types hs ht
  have hsome := lookup?_isSome_iff.mpr hknown
  exact exists_type? hs ((order_complete h further).2 t.name hown t hlookup name hname hsome) hsome

/-- The type of schemas is there, and with it the types of the fields that need no declaration. -/
theorem exists_type?_of_undeclared (h : (types.map (·.name)).Nodup)
    (hs : s.types = (order types further).filterMap (lookup? types))
    (hschema : Standard.schemaType.name ∈ further) :
    ∀ f ∈ [Standard.schemaField, Standard.typeField, Standard.typenameField],
      ∃ found, s.type? f.type.baseName = some found := by
  have hlookup : lookup? types Standard.schemaType.name = some Standard.schemaType := rfl
  have hsome : (lookup? types Standard.schemaType.name).isSome := by
    rw [hlookup]
    rfl
  have hown := (order_complete h further).1 _ hschema hsome
  have hmem : Standard.schemaType ∈ s.types := by
    rw [hs]
    exact List.mem_filterMap.mpr ⟨_, hown, hlookup⟩
  have hparts : ∀ name ∈ ["__Type", "String"],
      name ∈ Standard.schemaType.references ∧ (Standard.type? name).isSome := by
    decide +kernel
  have hpart : ∀ name ∈ ["__Type", "String"], ∃ t, s.type? name = some t :=
    fun name hname => exists_type?_of_reference h hs hmem (hparts name hname).1
      (Or.inl (hparts name hname).2)
  intro f hf
  simp only [List.mem_cons, List.not_mem_nil, or_false] at hf
  rcases hf with rfl | rfl | rfl
  · exact exists_type? hs hown hsome
  · exact hpart "__Type" List.mem_cons_self
  · exact hpart "String" (List.mem_cons_of_mem _ List.mem_cons_self)

end

/-- A schema that is put together from such types is coherent. -/
theorem coherent_assemble (h : Listable types) (description : Option String)
    (directives : List DirectiveType) (query mutation subscription : Option String) :
    (assemble description types directives query mutation subscription).Coherent := by
  obtain ⟨further, hschema, hs⟩ :=
    types_assemble types description directives query mutation subscription
  refine ⟨fun t ht => ?_, fun t ht f hf => ?_, exists_type?_of_undeclared h.names hs hschema⟩
  · rcases mem_of_lookup? (lookup?_of_mem_types hs ht).2 with hstandard | hlisted
    · exact Standard.fieldNames_nodup t hstandard
    · exact h.fieldNames t hlisted
  · refine exists_type?_of_reference h.names hs ht (mem_references hf) ?_
    rcases mem_of_lookup? (lookup?_of_mem_types hs ht).2 with hstandard | hlisted
    · exact Or.inl (Standard.fieldTypes_known t hstandard f hf)
    · exact h.fieldTypes t hlisted f hf

theorem coherent_builtin : builtin.Coherent := by
  refine coherent_assemble ⟨by decide +kernel, by decide +kernel, ?_⟩ _ _ _ _ _
  have h : ∀ t ∈ Builtin.types, ∀ f ∈ t.fields, (lookup? Builtin.types f.type.baseName).isSome := by
    decide +kernel
  exact fun t ht f hf => lookup?_isSome_iff.mp (h t ht f hf)

end Schema
end EmbeddedGraphQL
