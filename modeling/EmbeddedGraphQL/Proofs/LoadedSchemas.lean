import EmbeddedGraphQL.Proofs.CoherentSchemas
import EmbeddedGraphQL.Schema.OfDocument
import EmbeddedGraphQL.Schema.OfIntrospection
import Mathlib

/-!
Schemas that are loaded are coherent: those that a text defines, and those that an introspection
result describes. Both readers refuse fields with types that are not there, and a name comes only
once where a name is needed.
-/
namespace EmbeddedGraphQL

/-- Whether what a computation gives has a property. -/
def Yields {ε α : Type} (P : α → Prop) (outcome : Except ε α) : Prop :=
  ∀ a, outcome = .ok a → P a

section

variable {ε α β : Type} {P : α → Prop} {Q : β → Prop}

theorem yields_pure {a : α} (h : P a) : Yields P (pure a : Except ε α) := by
  intro other hother
  cases hother
  exact h

theorem yields_error (e : ε) : Yields P (.error e) := nofun

theorem yields_bind {outcome : Except ε α} {f : α → Except ε β}
    (h : ∀ a, outcome = .ok a → Yields Q (f a)) : Yields Q (outcome >>= f) := by
  cases outcome with
  | error e => exact yields_error e
  | ok a => exact h a rfl

theorem yields_mapM {R : α → β → Prop} {f : α → Except ε β} {all : List α}
    (h : ∀ a ∈ all, Yields (R a) (f a)) : Yields (List.Forall₂ R all) (all.mapM f) := by
  induction all with
  | nil => exact yields_pure .nil
  | cons a rest ih =>
    rw [List.mapM_cons]
    apply yields_bind
    intro b hb
    apply yields_bind
    intro more hmore
    exact yields_pure (.cons (h a List.mem_cons_self b hb)
      (ih (fun a' ha' => h a' (List.mem_cons_of_mem a ha')) more hmore))

theorem map_eq_of_forall₂ {γ : Type} {R : α → β → Prop} {f : α → γ} {g : β → γ} {all : List α}
    {made : List β} (h : List.Forall₂ R all made) (heq : ∀ a b, R a b → g b = f a) :
    made.map g = all.map f := by
  induction h with
  | nil => rfl
  | cons hab _ ih => rw [List.map_cons, List.map_cons, heq _ _ hab, ih]

theorem exists_of_mem_forall₂ {R : α → β → Prop} {all : List α} {made : List β}
    (h : List.Forall₂ R all made) {b : β} (hb : b ∈ made) : ∃ a ∈ all, R a b := by
  induction h with
  | nil => cases hb
  | cons hab _ ih =>
    rcases List.mem_cons.mp hb with rfl | hrest
    · exact ⟨_, List.mem_cons_self, hab⟩
    · obtain ⟨a, ha, hR⟩ := ih hrest
      exact ⟨a, List.mem_cons_of_mem _ ha, hR⟩

end

/-! Definitions -/

namespace DefinitionRules

theorem length_eraseDups_le (names : List String) : names.eraseDups.length ≤ names.length := by
  match names with
  | [] => exact le_rfl
  | name :: rest =>
    have hfilter := List.length_filter_le (fun other => !other == name) rest
    have hrest := length_eraseDups_le (rest.filter fun other => !other == name)
    rw [List.eraseDups_cons, List.length_cons, List.length_cons]
    omega
termination_by names.length
decreasing_by
  rw [List.length_cons]
  omega

theorem nodup_of_allDistinct {names : List String} (h : allDistinct names = true) :
    names.Nodup := by
  unfold allDistinct at h
  rw [beq_iff_eq] at h
  induction names with
  | nil => exact List.nodup_nil
  | cons name rest ih =>
    rw [List.eraseDups_cons, List.length_cons, List.length_cons, Nat.add_right_cancel_iff] at h
    have hle := length_eraseDups_le (rest.filter fun other => !other == name)
    have hfilter : rest.filter (fun other => !other == name) = rest := by
      rw [List.filter_eq_self, ← List.length_filter_eq_length_iff]
      have := List.length_filter_le (fun other => !other == name) rest
      omega
    rw [hfilter] at h
    rw [List.filter_eq_self] at hfilter
    refine List.nodup_cons.mpr ⟨fun hmem => ?_, ih h⟩
    simpa using hfilter name hmem

end DefinitionRules

namespace SchemaBuild.Source
open DefinitionRules

variable (source : Source)

theorem baseName_ofRef (type : TypeRef) : (TypeExpr.ofRef type).baseName = type.baseName.value := by
  induction type with
  | named name => rfl
  | list item _ ih | nonNull item _ ih => exact ih

theorem yields_demand (condition : Bool) :
    Yields (fun _ => condition = true) (demand condition) := by
  unfold demand
  split
  · intro _ _
    assumption
  · exact yields_error _

/-- What becomes of the definition of a field. -/
def FieldOf (definition : FieldDefinition) (f : Field) : Prop :=
  f.name = definition.name.value ∧ f.type = .ofRef definition.type ∧
    source.isOutput definition.type.baseName.value = true

theorem yields_field (type : String) (definition : FieldDefinition) :
    Yields (source.FieldOf definition) (source.field type definition) := by
  unfold Source.field
  apply yields_bind
  intro arguments _
  apply yields_bind
  intro deprecation _
  apply yields_bind
  intro _ hdemand
  exact yields_pure ⟨rfl, rfl, yields_demand _ _ hdemand⟩

theorem yields_fields (name : String) :
    Yields (List.Forall₂ source.FieldOf ((source.bodies name).flatMap fieldDefinitions))
      (source.fields name) :=
  yields_mapM fun definition _ => source.yields_field name definition

theorem yields_kind (t : TypeDefinition) :
    Yields (fun kind => ∀ name description, (NamedType.mk name description kind).fields = [] ∨
      source.fields t.name.value = .ok (NamedType.mk name description kind).fields)
      (source.kind t) := by
  unfold Source.kind
  dsimp only
  split
  · apply yields_bind
    intro address _
    exact yields_pure fun _ _ => Or.inl rfl
  · apply yields_bind
    intro interfaces _
    apply yields_bind
    intro fields hfields
    exact yields_pure fun _ _ => Or.inr hfields
  · apply yields_bind
    intro interfaces _
    apply yields_bind
    intro fields hfields
    exact yields_pure fun _ _ => Or.inr hfields
  · apply yields_bind
    intro _ _
    exact yields_pure fun _ _ => Or.inl rfl
  · apply yields_bind
    intro values _
    exact yields_pure fun _ _ => Or.inl rfl
  · apply yields_bind
    intro fields _
    exact yields_pure fun _ _ => Or.inl rfl

/-- Where a type of a schema that a text defines has its fields from. -/
def TypeOf (t : TypeDefinition) (made : NamedType) : Prop :=
  made.name = t.name.value ∧
    (made ∈ Standard.types ∨ made.fields = [] ∨ source.fields t.name.value = .ok made.fields)

theorem yields_namedType (t : TypeDefinition) : Yields (source.TypeOf t) (source.namedType t) := by
  unfold Source.namedType
  split
  case h_1 standard hstandard =>
    exact yields_pure ⟨Standard.type?_name hstandard, Or.inl (List.mem_of_find?_eq_some hstandard)⟩
  case h_2 =>
    apply yields_bind
    intro kind hkind
    exact yields_pure ⟨rfl, Or.inr (source.yields_kind t kind hkind _ _)⟩

theorem names_sublist (body : TypeBody) :
    ((fieldDefinitions body).map (·.name.value)).Sublist (DefinitionRules.fieldNames body) := by
  cases body with
  | object interfaces fields | interface interfaces fields => exact .refl _
  | _ => exact List.nil_sublist _

/-- A type and its extensions have no two fields of one name. -/
theorem nodup_fieldNames {d : Document} (h : distinctInTypes d DefinitionRules.fieldNames = true)
    (text : List Char) (name : String) :
    ((((ofDocument text d).bodies name).flatMap fieldDefinitions).map (·.name.value)).Nodup := by
  let parts := (typeParts d).filter (·.name.value == name)
  have hparts : (parts.flatMap fun t => DefinitionRules.fieldNames t.body).Nodup := by
    by_cases hname : name ∈ (typeParts d).map (·.name.value)
    · exact nodup_of_allDistinct (List.all_eq_true.mp h name (List.mem_eraseDups.mpr hname))
    · have hnone : parts = [] := by
        refine List.filter_eq_nil_iff.mpr fun t ht heq => hname ?_
        exact List.mem_map.mpr ⟨t, ht, by simpa using heq⟩
      rw [hnone]
      exact List.nodup_nil
  have hsublist := hparts.sublist (List.Sublist.flatMap_right parts fun t _ => names_sublist t.body)
  have hperm := (List.filter_append_perm (fun t => !t.isExtension) parts).flatMap_right
    fun t => (fieldDefinitions t.body).map (·.name.value)
  have hbodies : (((ofDocument text d).bodies name).flatMap fieldDefinitions).map (·.name.value) =
      (parts.filter (!·.isExtension) ++ parts.filter (!!·.isExtension)).flatMap
        fun t => (fieldDefinitions t.body).map (·.name.value) := by
    rw [List.map_flatMap]
    simp only [bodies, List.flatMap_map, Bool.not_not]
    rfl
  rw [hbodies]
  exact hperm.nodup_iff.mpr hsublist

theorem known_of_isOutput {name : String} (h : source.isOutput name = true) :
    (Standard.type? name).isSome ∨
      name ∈ (source.types.filter (!·.isExtension)).map (·.name.value) := by
  unfold Source.isOutput at h
  cases hbody : source.body? name with
  | none =>
    cases hstandard : Standard.type? name with
    | none =>
      rw [hbody, hstandard] at h
      cases h
    | some t => exact Or.inl rfl
  | some body =>
    unfold Source.body? at hbody
    split at hbody
    · cases hbody
    · obtain ⟨t, ht, -⟩ := Option.map_eq_some_iff.mp hbody
      have hfound := List.find?_some ht
      simp only [Bool.and_eq_true, Bool.not_eq_true', beq_iff_eq] at hfound
      refine Or.inr (List.mem_map.mpr ⟨t, List.mem_filter.mpr ⟨List.mem_of_find?_eq_some ht, ?_⟩,
        hfound.2⟩)
      simpa using hfound.1

end SchemaBuild.Source

namespace SchemaBuild
open DefinitionRules

/-- The types that the definitions of a document make. -/
theorem listable_of_definitions {text : List Char} {d : Document} {types : List NamedType}
    (h : isUnique d = true)
    (htypes : ((typeParts d).filter (!·.isExtension)).mapM (Source.ofDocument text d).namedType =
      .ok types) : Schema.Listable types := by
  simp only [isUnique, Bool.and_eq_true] at h
  obtain ⟨⟨⟨⟨⟨⟨⟨-, -⟩, hdefined⟩, -⟩, -⟩, hfields⟩, -⟩, -⟩ := h
  have hmade := yields_mapM (fun t _ => (Source.ofDocument text d).yields_namedType t) types htypes
  have hnames := map_eq_of_forall₂ (f := fun t => t.name.value) (g := fun t => t.name) hmade
    fun _ _ hof => hof.1
  refine ⟨?_, fun t ht => ?_, fun t ht f hf => ?_⟩
  · rw [hnames]
    exact nodup_of_allDistinct hdefined
  · obtain ⟨definition, hdefinition, -, hstandard | hnone | hown⟩ := exists_of_mem_forall₂ hmade ht
    · exact Standard.fieldNames_nodup t hstandard
    · rw [hnone]
      exact List.nodup_nil
    · have hread := Source.yields_fields _ _ _ hown
      rw [map_eq_of_forall₂ (f := fun f => f.name.value) hread fun _ _ hof => hof.1]
      exact Source.nodup_fieldNames hfields text _
  · obtain ⟨definition, hdefinition, -, hstandard | hnone | hown⟩ := exists_of_mem_forall₂ hmade ht
    · exact Or.inl (Standard.fieldTypes_known t hstandard f hf)
    · rw [hnone] at hf
      cases hf
    · have hread := Source.yields_fields _ _ _ hown
      obtain ⟨field, -, -, htype, houtput⟩ := exists_of_mem_forall₂ hread hf
      rw [htype, Source.baseName_ofRef]
      rcases Source.known_of_isOutput _ houtput with hstandard | hdefined
      · exact Or.inl hstandard
      · exact Or.inr (hnames ▸ hdefined)

/-- A schema that a document defines is coherent. -/
theorem coherent_ofDocument (text : List Char) (d : Document) :
    Yields Schema.Coherent (ofDocument text d) := by
  unfold ofDocument
  apply yields_bind
  intro _ hdemand
  have hhold := Source.yields_demand _ _ hdemand
  simp only [hold, Bool.and_eq_true] at hhold
  dsimp only
  apply yields_bind
  intro _ _
  apply yields_bind
  intro own _
  apply yields_bind
  intro types htypes
  apply yields_bind
  intro _ _
  exact yields_pure (Schema.coherent_assemble (listable_of_definitions hhold.1.1 htypes) ..)

end SchemaBuild

theorem Schema.coherent_ofText (text : List Char) :
    Yields Schema.Coherent (Schema.ofText text) := by
  unfold Schema.ofText
  split
  · exact yields_error _
  · exact SchemaBuild.coherent_ofDocument text _

/-! Introspection results -/

namespace Introspection

variable {listed : Listed}

theorem yields_name (j : Json) : Yields (fun name => j = .str name) (name j) := by
  unfold name
  split
  · exact yields_error _
  · split
    · exact yields_error _
    · split_ifs
      · exact yields_error _
      · exact yields_error _
      · exact fun _ h => congrArg Json.str (Except.ok.inj h)
  · exact yields_error _
  · exact yields_error _

/-- Whether a listed type that is whole has the name that it is listed under, and fields only if it
is a standard type. -/
def Shell.Sound (key : Json) : Shell → Prop
  | .whole t => key = .str t.name ∧ (t ∈ Standard.types ∨ t.fields = [])
  | _ => True

theorem yields_standard? (key : Json) :
    Yields (fun known => ∀ t ∈ known, Shell.Sound key (.whole t)) (standard? key) := by
  unfold standard?
  apply yields_bind
  intro _ _
  split
  case h_1 text =>
    refine yields_pure fun t ht => ⟨?_, Or.inl (List.mem_of_find?_eq_some ht)⟩
    rw [Standard.type?_name ht]
  case h_2 => exact yields_pure nofun

theorem yields_scalarShell (source key : Json) :
    Yields (Shell.Sound key) (scalarShell source key) := by
  unfold scalarShell
  apply yields_bind
  intro known hknown
  split
  case h_1 t => exact yields_pure (yields_standard? key _ hknown t rfl)
  apply yields_bind
  intro name hname
  apply yields_bind
  intro description _
  apply yields_bind
  intro address _
  split
  · exact yields_pure ⟨yields_name key name hname, Or.inr rfl⟩
  · exact yields_pure ⟨yields_name key name hname, Or.inr rfl⟩
  · exact yields_pure ⟨yields_name key name hname, Or.inr rfl⟩
  · exact yields_error _

theorem yields_enumShell (source key : Json) :
    Yields (Shell.Sound key) (enumShell source key) := by
  unfold enumShell
  apply yields_bind
  intro values _
  apply yields_bind
  intro known hknown
  split
  case h_1 t => exact yields_pure (yields_standard? key _ hknown t rfl)
  apply yields_bind
  intro all _
  apply yields_bind
  intro read _
  apply yields_bind
  intro name hname
  apply yields_bind
  intro description _
  apply yields_bind
  intro values _
  exact yields_pure ⟨yields_name key name hname, Or.inr rfl⟩

/-- Composite types, unions and input types have parts that are read later. -/
theorem yields_described {source key : Json} {made : Option String → Shell}
    (h : ∀ description, (made description).Sound key) :
    Yields (Shell.Sound key) (do
      let _ ← name key
      return made (← typeDescription source)) := by
  apply yields_bind
  intro _ _
  apply yields_bind
  intro description _
  exact yields_pure (h description)

theorem yields_shell (source key : Json) : Yields (Shell.Sound key) (shell source key) := by
  unfold shell
  dsimp only
  split
  case h_2 => exact yields_error _
  split
  case h_2 => exact yields_error _
  rw [pure_bind]
  apply yields_bind
  intro _ _
  split
  · exact yields_scalarShell _ key
  · apply yields_bind
    intro known hknown
    split
    case h_1 t => exact yields_pure (yields_standard? key _ hknown t rfl)
    exact yields_described fun _ => trivial
  · apply yields_bind
    intro _ _
    exact yields_described fun _ => trivial
  · apply yields_bind
    intro _ _
    apply yields_bind
    intro _ _
    exact yields_described fun _ => trivial
  · exact yields_enumShell _ key
  · apply yields_bind
    intro _ _
    apply yields_bind
    intro _ _
    apply yields_bind
    intro _ _
    apply yields_bind
    intro _ _
    apply yields_bind
    intro _ _
    exact yields_pure trivial
  · exact yields_error _

theorem yields_listedType (source : Json) :
    Yields (fun entry => entry.2.Sound (.str entry.1)) (listedType source) := by
  unfold listedType
  apply yields_bind
  intro key _
  apply yields_bind
  intro shell hshell
  apply yields_bind
  intro name hname
  refine yields_pure ?_
  split
  case h_1 t ht =>
    exact ⟨by rw [Standard.type?_name ht], Or.inl (List.mem_of_find?_eq_some ht)⟩
  case h_2 => exact yields_name key name hname ▸ yields_shell source key shell hshell

/-- The types of an introspection result are listed under different names, and whole ones under
their own. -/
theorem yields_listedTypes (schema : Json) :
    Yields (fun listed => (listed.map (·.1)).Nodup ∧ ∀ entry ∈ listed, entry.2.Sound (.str entry.1))
      (listedTypes schema) := by
  unfold listedTypes
  apply yields_bind
  intro types _
  apply yields_bind
  intro all _
  apply yields_bind
  intro read hread
  have hsound := yields_mapM (fun source _ => yields_listedType source) read hread
  refine yields_pure ⟨?_, fun entry hentry => ?_⟩
  · rw [lastOfEach_eq]
    exact Keyed.nodup_foldl_put _ List.nodup_nil
  · rw [lastOfEach_eq] at hentry
    rcases Keyed.mem_foldl_put hentry with hmem | hnone
    · obtain ⟨source, -, h⟩ := exists_of_mem_forall₂ hsound hmem
      exact h
    · cases hnone

/-- The names of parts that are kept under their keys are different, and each part is one that was
read. -/
theorem yields_named {α : Type} (problem : IntrospectionError) (rename : α → String → α)
    (nameOf : α → String) (hname : ∀ item name, nameOf (rename item name) = name)
    (all : List (Json × α)) :
    Yields (fun made => (made.map nameOf).Nodup ∧
      ∀ item ∈ made, ∃ entry ∈ all, ∃ name, item = rename entry.2 name)
      (named problem rename all) := by
  unfold named
  dsimp only
  split
  case isTrue => exact yields_error _
  intro made hmade
  have hread : List.Forall₂ (fun (entry : Json × α) item => ∃ name, entry.1 = .str name ∧
      item = rename entry.2 name) (lastOfEach (fun item => shown item.1) all) made := by
    refine yields_mapM (fun entry _ => ?_) made hmade
    apply yields_bind
    intro name hkey
    exact yields_pure ⟨name, yields_name _ name hkey, rfl⟩
  rw [lastOfEach_eq] at hread
  constructor
  · have hshown : (made.map nameOf).map (fun name => shown (.str name)) =
        (all.foldl (Keyed.put fun item => shown item.1) []).map fun item => shown item.1 := by
      rw [List.map_map]
      refine map_eq_of_forall₂ hread fun entry item ⟨name, hkey, hitem⟩ => ?_
      rw [Function.comp_apply, hitem, hname, hkey]
    have hnodup : ((made.map nameOf).map fun name => shown (.str name)).Nodup := by
      rw [hshown]
      exact Keyed.nodup_foldl_put all List.nodup_nil
    exact hnodup.of_map _
  · intro item hitem
    obtain ⟨entry, hentry, name, -, heq⟩ := exists_of_mem_forall₂ hread hitem
    rcases Keyed.mem_foldl_put hentry with hmem | hnone
    · exact ⟨entry, hmem, name, heq⟩
    · cases hnone

theorem yields_inside {α : Type} {P : α → Prop} {outcome : Outcome α} (h : Yields P outcome)
    (type part : String) : Yields P (inside type part outcome) := by
  cases outcome with
  | error e => exact yields_error _
  | ok a => exact h

/-- The type of a field is listed. -/
theorem yields_field (j : Json) :
    Yields (fun entry => entry.2.type.baseName ∈ listed.map (·.1)) (field listed j) := by
  unfold field
  apply yields_bind
  intro key _
  apply yields_bind
  intro typeJson _
  apply yields_bind
  intro type _
  dsimp only
  split
  case isTrue => exact yields_error _
  case isFalse houtput =>
  have hknown : type.baseName ∈ listed.map (·.1) := by
    rw [Bool.not_eq_true', Bool.not_eq_false, isOutputType, Json.lookup_eq_find?] at houtput
    refine Keyed.exists_find?_iff.mp ?_
    cases hfound : Keyed.find? Prod.fst listed type.baseName with
    | none =>
      rw [hfound] at houtput
      cases houtput
    | some entry => exact ⟨entry, rfl⟩
  iterate 7
    apply yields_bind
    intro _ _
  exact yields_pure hknown

theorem yields_fields (name : String) (source : Json) :
    Yields (fun made => (made.map (·.name)).Nodup ∧
      ∀ f ∈ made, f.type.baseName ∈ listed.map (·.1)) (fields listed name source) := by
  unfold fields
  apply yields_bind
  intro read hread
  have hknown : Yields (fun read => ∀ entry ∈ read, entry.2.type.baseName ∈ listed.map (·.1))
      (inside name "fields" do
        (← items (← demanded source "fields" "fields")).mapM (field listed)) := by
    refine yields_inside ?_ _ _
    apply yields_bind
    intro part _
    apply yields_bind
    intro all _ read hread entry hentry
    obtain ⟨j, -, hj⟩ :=
      exists_of_mem_forall₂ (yields_mapM (fun j _ => yields_field j) read hread) hentry
    exact hj
  intro made hmade
  obtain ⟨hnodup, horigin⟩ := yields_named (.fieldNames name) (fun f name => { f with name })
    (·.name) (fun _ _ => rfl) read made hmade
  refine ⟨hnodup, fun f hf => ?_⟩
  obtain ⟨entry, hentry, -, rfl⟩ := horigin f hf
  exact hknown read hread entry hentry

/-- What becomes of a type that is listed. -/
theorem yields_complete {name : String} {shell : Shell} (h : shell.Sound (.str name)) :
    Yields (fun t => t.name = name ∧ (t ∈ Standard.types ∨ (t.fields.map (·.name)).Nodup ∧
      ∀ f ∈ t.fields, f.type.baseName ∈ listed.map (·.1))) (complete listed name shell) := by
  cases shell with
  | whole t =>
    obtain ⟨hname, horigin⟩ := h
    refine yields_pure ⟨(Json.str.inj hname).symm, horigin.imp_right fun hnone => ?_⟩
    rw [hnone]
    exact ⟨List.nodup_nil, nofun⟩
  | composite isObject description source =>
    apply yields_bind
    intro interfaces _
    apply yields_bind
    intro fields hfields
    refine yields_pure ⟨rfl, Or.inr ?_⟩
    cases isObject <;> exact yields_fields name source fields hfields
  | union description source =>
    apply yields_bind
    intro members _
    exact yields_pure ⟨rfl, Or.inr ⟨List.nodup_nil, nofun⟩⟩
  | input description source isOneOf =>
    apply yields_bind
    intro fields _
    exact yields_pure ⟨rfl, Or.inr ⟨List.nodup_nil, nofun⟩⟩

theorem listable_of_listed {schema : Json} {types : List NamedType}
    (hlisted : listedTypes schema = .ok listed)
    (htypes : (listed.mapM fun (name, shell) => complete listed name shell) = .ok types) :
    Schema.Listable types := by
  obtain ⟨hnodup, hsound⟩ := yields_listedTypes schema listed hlisted
  have hmade := yields_mapM (fun entry hentry => yields_complete (hsound entry hentry)) types htypes
  have hnames := map_eq_of_forall₂ (f := fun entry => entry.1) (g := fun t => t.name) hmade
    fun _ _ hof => hof.1
  refine ⟨?_, fun t ht => ?_, fun t ht f hf => ?_⟩
  · rw [hnames]
    exact hnodup
  · obtain ⟨entry, -, -, hstandard | ⟨hfields, -⟩⟩ := exists_of_mem_forall₂ hmade ht
    · exact Standard.fieldNames_nodup t hstandard
    · exact hfields
  · obtain ⟨entry, -, -, hstandard | ⟨-, hknown⟩⟩ := exists_of_mem_forall₂ hmade ht
    · exact Or.inl (Standard.fieldTypes_known t hstandard f hf)
    · exact Or.inr (hnames ▸ hknown f hf)

/-- A schema that an introspection result describes is coherent. -/
theorem coherent_ofSchema (schema : Json) : Yields Schema.Coherent (ofSchema schema) := by
  unfold ofSchema
  apply yields_bind
  intro listed hlisted
  iterate 6
    apply yields_bind
    intro _ _
  dsimp only
  apply yields_bind
  intro _ _
  apply yields_bind
  intro types htypes
  exact yields_pure (Schema.coherent_assemble (listable_of_listed hlisted htypes) ..)

end Introspection

theorem Schema.coherent_ofIntrospection (result : Json) :
    Yields Schema.Coherent (Schema.ofIntrospection result) := by
  unfold Schema.ofIntrospection
  split
  · split
    · exact Introspection.coherent_ofSchema _
    · exact yields_error _
  · exact yields_error _

/-- The schemas that there are: the builtin one, those that texts define, and those that
introspection results describe. -/
inductive Schema.Loaded : Schema → Prop
  | builtin : Loaded Schema.builtin
  | text {text : List Char} {s : Schema} (h : Schema.ofText text = .ok s) : Loaded s
  | introspection {result : Json} {s : Schema} (h : Schema.ofIntrospection result = .ok s) :
    Loaded s

theorem Schema.Loaded.coherent {s : Schema} (h : s.Loaded) : s.Coherent := by
  cases h with
  | builtin => exact Schema.coherent_builtin
  | text h => exact Schema.coherent_ofText _ s h
  | introspection h => exact Schema.coherent_ofIntrospection _ s h

end EmbeddedGraphQL
