import EmbeddedGraphQL.Completion.Offer
import EmbeddedGraphQL.Proofs.LoadedSchemas
import Mathlib

/-!
Fields that are offered and fields that can be followed. The fields offered for a type are those
that are found in it by name, each with the type and the description of that field. So a path of
fields that were offered on the way always leads to a type.
-/
namespace EmbeddedGraphQL

namespace Completion

variable {s : Schema} {parent t : NamedType} {name : String} {f : FieldDoc}

/-! The fields of a type -/

theorem fieldDocs_of_composite (h : parent.isComposite = true) :
    Schema.fieldDocs parent = parent.fields.map .ofField := by
  have hinput : parent.inputFields = [] := by
    unfold NamedType.inputFields
    cases hkind : parent.kind with
    | input fields isOneOf =>
      rw [NamedType.isComposite, NamedType.isObject, NamedType.isAbstract, hkind] at h
      cases h
    | _ => rfl
  rw [Schema.fieldDocs, hinput, List.map_nil, List.append_nil]

/-- The fields of a type that need no declaration. -/
def undeclared (s : Schema) (parent : NamedType) : List FieldDoc :=
  ((if isQueryRoot s parent then [Standard.schemaField, Standard.typeField] else []) ++
    [Standard.typenameField]).map .ofField

theorem selectable_eq (s : Schema) (parent : NamedType) :
    selectable s parent =
      (undeclared s parent).foldl (Keyed.put FieldDoc.name) (parent.fields.map .ofField) := rfl

theorem nodup_selectable (h : (parent.fields.map (·.name)).Nodup) :
    ((selectable s parent).map (·.name)).Nodup := by
  rw [selectable_eq]
  refine Keyed.nodup_foldl_put _ ?_
  rw [List.map_map]
  exact h

/-- The fields that need no declaration are found first. -/
theorem fieldOf?_eq (s : Schema) (parent : NamedType) (name : String) :
    fieldOf? s parent name =
      (Keyed.find? FieldDoc.name (undeclared s parent) name).or
        (Keyed.find? FieldDoc.name (Schema.fieldDocs parent) name) := by
  by_cases htypename : name = Standard.typenameField.name
  · subst htypename
    unfold fieldOf? undeclared
    cases isQueryRoot s parent <;> rfl
  by_cases hschema : name = Standard.schemaField.name
  · subst hschema
    unfold fieldOf? undeclared
    cases isQueryRoot s parent <;> rfl
  by_cases htype : name = Standard.typeField.name
  · subst htype
    unfold fieldOf? undeclared
    cases isQueryRoot s parent <;> rfl
  have hnone : Keyed.find? FieldDoc.name (undeclared s parent) name = none := by
    rw [Keyed.find?_eq_none_iff]
    unfold undeclared
    cases isQueryRoot s parent <;> simp [FieldDoc.ofField, htypename, hschema, htype]
  rw [hnone, Option.none_or]
  simp only [fieldOf?, beq_iff_eq, Bool.and_eq_true, htypename, hschema, htype, and_false, if_false]
  rfl

/-- The field that is found in a type is the one that is offered under the name. -/
theorem find?_selectable (h : parent.isComposite = true) (name : String) :
    Keyed.find? FieldDoc.name (selectable s parent) name = fieldOf? s parent name := by
  have hnodup : ((undeclared s parent).map FieldDoc.name).Nodup := by
    unfold undeclared
    split <;> decide
  rw [selectable_eq, Keyed.find?_foldl_put, Keyed.find?_reverse hnodup, fieldOf?_eq,
    fieldDocs_of_composite h]

theorem mem_selectable_iff (h : s.Coherent) (hmem : parent ∈ s.types)
    (hcomposite : parent.isComposite = true) :
    f ∈ selectable s parent ∧ f.name = name ↔ fieldOf? s parent name = some f := by
  rw [← find?_selectable hcomposite]
  constructor
  · rintro ⟨hf, rfl⟩
    exact Keyed.find?_of_mem (nodup_selectable (h.fieldNames parent hmem)) hf
  · intro hf
    exact ⟨List.mem_of_find?_eq_some hf, by simpa using List.find?_some hf⟩

theorem fieldHints_of_composite (h : parent.isComposite = true) :
    fieldHints s (some parent) = (selectable s parent).map (fieldHint s) := if_pos h

theorem texts_fieldHints (h : parent.isComposite = true) :
    (fieldHints s (some parent)).map (·.text) = (selectable s parent).map (·.name) := by
  rw [fieldHints_of_composite h, List.map_map]
  rfl

/-- The names that are offered for a type are those that are found in it. -/
theorem mem_texts_iff (h : parent.isComposite = true) :
    name ∈ (fieldHints s (some parent)).map (·.text) ↔ ∃ f, fieldOf? s parent name = some f := by
  rw [texts_fieldHints h, ← find?_selectable h, ← Keyed.exists_find?_iff]

theorem isComposite_of_offered (h : name ∈ (fieldHints s (some parent)).map (·.text)) :
    parent.isComposite = true := by
  by_contra hnot
  rw [fieldHints, if_neg hnot] at h
  cases h

/-- The type of every field that can be selected is a type of the schema. -/
theorem exists_type_of_selectable (h : s.Coherent) (hmem : parent ∈ s.types)
    (hf : f ∈ selectable s parent) : ∃ found, s.type? f.type.baseName = some found := by
  rcases Keyed.mem_foldl_put hf with hundeclared | hdeclared
  · obtain ⟨field, hfield, rfl⟩ := List.mem_map.mp hundeclared
    refine h.undeclared field ?_
    revert hfield
    cases isQueryRoot s parent <;> simp +contextual
  · obtain ⟨field, hfield, rfl⟩ := List.mem_map.mp hdeclared
    exact h.fieldTypes parent hmem field hfield

/-! Paths of selection sets -/

/-- The operation that a keyword starts. -/
def operation? : DefinitionKeyword → Option OperationKind
  | .query => some .query
  | .mutation => some .mutation
  | .subscription => some .subscription
  | _ => none

/-- The type that a path of selection sets leads to, the innermost one first: the root type of the
operation, the type of a condition, the named type of an offered field, or the type around for an
inline fragment without a condition. -/
inductive Reaches (s : Schema) : List Frame → NamedType → Prop
  | root {frame : Frame} {keyword : DefinitionKeyword} {operation : OperationKind} {t : NamedType}
    (owner : frame.owner = .root keyword) (starts : operation? keyword = some operation)
    (found : s.root? operation = some t) : Reaches s [frame] t
  | condition {frame : Frame} {around : List Frame} {name : String} {t : NamedType}
    (owner : frame.owner = .type (some name)) (found : s.type? name = some t) :
    Reaches s (frame :: around) t
  | field {frame : Frame} {around : List Frame} {parent t : NamedType} {f : FieldDoc}
    (owner : frame.owner = .field (some f.name)) (reached : Reaches s around parent)
    (composite : parent.isComposite = true) (selected : f ∈ selectable s parent)
    (found : s.type? f.type.baseName = some t) : Reaches s (frame :: around) t
  | inline {frame : Frame} {around : List Frame} {t : NamedType} (owner : frame.owner = .inline)
    (reached : Reaches s around t) : Reaches s (frame :: around) t

/-- A path of selection sets that starts at a root of the schema or at a type, and goes on at types
and at fields that are offered for the type that was reached. -/
inductive Followable (s : Schema) : List Frame → Prop
  | root {frame : Frame} {keyword : DefinitionKeyword} {operation : OperationKind}
    (kind : frame.kind = .selectionSet) (owner : frame.owner = .root keyword)
    (starts : operation? keyword = some operation) (found : (s.root? operation).isSome) :
    Followable s [frame]
  | start {frame : Frame} {name : String} (kind : frame.kind = .selectionSet)
    (owner : frame.owner = .type (some name)) (found : name ∈ s.types.map (·.name)) :
    Followable s [frame]
  | condition {frame : Frame} {around : List Frame} {name : String}
    (kind : frame.kind = .selectionSet) (owner : frame.owner = .type (some name))
    (found : name ∈ s.types.map (·.name)) (followed : Followable s around) :
    Followable s (frame :: around)
  | field {frame : Frame} {around : List Frame} {name : String} {parent : NamedType}
    (kind : frame.kind = .selectionSet) (owner : frame.owner = .field (some name))
    (followed : Followable s around) (reached : Reaches s around parent)
    (offered : name ∈ (fieldHints s (some parent)).map (·.text)) : Followable s (frame :: around)
  | inline {frame : Frame} {around : List Frame} (kind : frame.kind = .selectionSet)
    (owner : frame.owner = .inline) (followed : Followable s around) :
    Followable s (frame :: around)

variable {stack : List Frame}

theorem rootType?_of_operation {keyword : DefinitionKeyword} {operation : OperationKind}
    (h : operation? keyword = some operation) : rootType? s keyword = s.root? operation := by
  cases keyword <;> cases h <;> rfl

theorem exists_type?_of_mem (h : name ∈ s.types.map (·.name)) : ∃ t, s.type? name = some t :=
  Keyed.exists_find?_iff.mpr h

theorem mem_types_of_type? (h : s.type? name = some t) : t ∈ s.types := List.mem_of_find?_eq_some h

/-- A path leads to types of the schema. -/
theorem Reaches.mem_types (h : Reaches s stack t) : t ∈ s.types := by
  induction h with
  | root owner starts found =>
    obtain ⟨name, -, hname⟩ := Option.bind_eq_some_iff.mp found
    exact mem_types_of_type? hname
  | condition owner found => exact mem_types_of_type? found
  | field owner reached composite selected found => exact mem_types_of_type? found
  | inline owner reached ih => exact ih

theorem Followable.kind_eq (h : Followable s stack) :
    ∀ frame ∈ stack, frame.kind = .selectionSet := by
  induction h with
  | root kind | start kind => simpa using kind
  | condition kind owner found followed ih | field kind owner followed reached offered ih
  | inline kind owner followed ih => exact List.forall_mem_cons.mpr ⟨kind, ih⟩

/-- A field that is offered for the type that was reached leads to a type again. -/
theorem Followable.exists_reached (h : s.Coherent) (hstack : Followable s stack) :
    ∃ t, Reaches s stack t := by
  induction hstack with
  | root kind owner starts found =>
    obtain ⟨t, ht⟩ := Option.isSome_iff_exists.mp found
    exact ⟨t, .root owner starts ht⟩
  | start kind owner found | condition kind owner found followed ih =>
    obtain ⟨t, ht⟩ := exists_type?_of_mem found
    exact ⟨t, .condition owner ht⟩
  | field kind owner followed reached offered ih =>
    have hcomposite := isComposite_of_offered offered
    rw [texts_fieldHints hcomposite] at offered
    obtain ⟨f, hf, rfl⟩ := List.mem_map.mp offered
    obtain ⟨t, ht⟩ := exists_type_of_selectable h reached.mem_types hf
    exact ⟨t, .field owner reached hcomposite hf ht⟩
  | inline kind owner followed ih =>
    obtain ⟨t, ht⟩ := ih
    exact ⟨t, .inline owner ht⟩

theorem selectionType?_cons (s : Schema) (frame : Frame) (around : List Frame) :
    selectionType? s (frame :: around) = enter s (selectionType? s around) frame := by
  rw [selectionType?, List.reverse_cons, List.foldl_append]
  rfl

/-- The type that a path of selection sets leads to is the one that is told. -/
theorem Reaches.selectionType?_eq (h : s.Coherent) (hreached : Reaches s stack t)
    (hkind : ∀ frame ∈ stack, frame.kind = .selectionSet) : selectionType? s stack = some t := by
  induction hreached with
  | root owner starts found =>
    rw [selectionType?_cons, enter, if_pos (hkind _ List.mem_cons_self), owner]
    exact (rootType?_of_operation starts).trans found
  | condition owner found =>
    rw [selectionType?_cons, enter, if_pos (hkind _ List.mem_cons_self), owner]
    exact found
  | field owner reached composite selected found ih =>
    rw [selectionType?_cons, enter, if_pos (hkind _ List.mem_cons_self), owner,
      ih (List.forall_mem_cons.mp hkind).2]
    have hfield := (mem_selectable_iff h reached.mem_types composite).mp ⟨selected, rfl⟩
    exact (congrArg (Option.bind · _) hfield).trans found
  | inline owner reached ih =>
    rw [selectionType?_cons, enter, if_pos (hkind _ List.mem_cons_self), owner]
    exact ih (List.forall_mem_cons.mp hkind).2

/-- In every schema that is loaded, and in every other one whose parts fit together, the fields
offered for a composite type are those that are found in it, each once and with the type and the
description of the field that is found. So the type of a path of offered fields is never lost: it is
the one that the path leads to. -/
theorem offered_fields_resolve :
    (∀ s : Schema, s.Loaded → s.Coherent) ∧
    ∀ s : Schema, s.Coherent →
      (∀ parent ∈ s.types, parent.isComposite = true →
        ((fieldHints s (some parent)).map (·.text)).Nodup ∧
        (∀ name, name ∈ (fieldHints s (some parent)).map (·.text) ↔
          ∃ f, fieldOf? s parent name = some f) ∧
        ∀ hint ∈ fieldHints s (some parent), ∃ f, fieldOf? s parent hint.text = some f ∧
          hint.type = some f.type.text ∧ hint.description = f.description) ∧
      ∀ stack, Followable s stack →
        ∃ t, selectionType? s stack = some t ∧ ∀ other, Reaches s stack other ↔ other = t := by
  refine ⟨fun s hloaded => hloaded.coherent, fun s h => ⟨fun parent hmem hcomposite =>
    ⟨?_, fun name => mem_texts_iff hcomposite, fun hint hhint => ?_⟩, fun stack hstack => ?_⟩⟩
  · rw [texts_fieldHints hcomposite]
    exact nodup_selectable (h.fieldNames parent hmem)
  · rw [fieldHints_of_composite hcomposite] at hhint
    obtain ⟨f, hf, rfl⟩ := List.mem_map.mp hhint
    exact ⟨f, (mem_selectable_iff h hmem hcomposite).mp ⟨hf, rfl⟩, rfl, rfl⟩
  · obtain ⟨t, ht⟩ := hstack.exists_reached h
    have htype := ht.selectionType?_eq h hstack.kind_eq
    refine ⟨t, htype, fun other => ⟨fun hother => ?_, fun heq => heq ▸ ht⟩⟩
    exact Option.some.inj ((hother.selectionType?_eq h hstack.kind_eq).symm.trans htype)

/-- Inside the viewer of a query to the builtin schema, in an inline fragment, the path leads to the
type of users. -/
theorem offered_fields_resolve_viewer :
    let query : Frame := ⟨.selectionSet, .root .query, none⟩
    let viewer : Frame := ⟨.selectionSet, .field (some "viewer"), none⟩
    let inline : Frame := ⟨.selectionSet, .inline, none⟩
    Followable .builtin [inline, viewer, query] ∧
      (selectionType? .builtin [inline, viewer, query]).map (·.name) = some "User" ∧
      ∃ t, Reaches .builtin [inline, viewer, query] t ∧ t.name = "User" ∧
        ∃ f, fieldOf? .builtin t "todos" = some f := by
  intro query viewer inline
  obtain ⟨hfields, hpaths⟩ := offered_fields_resolve.2 .builtin Schema.coherent_builtin
  have hquery : Followable .builtin [query] := .root rfl rfl rfl (by decide +kernel)
  obtain ⟨root, hroot, hreached⟩ := hpaths [query] hquery
  have hoffered : "viewer" ∈ (fieldHints .builtin (some root)).map (·.text) := by
    have h : ∀ t ∈ selectionType? .builtin [query],
        "viewer" ∈ (fieldHints .builtin (some t)).map (·.text) := by decide +kernel
    exact h root hroot
  have hpath : Followable .builtin [inline, viewer, query] :=
    .inline rfl rfl (.field rfl rfl hquery ((hreached root).mpr rfl) hoffered)
  obtain ⟨t, ht, hreached⟩ := hpaths _ hpath
  have hname : (selectionType? .builtin [inline, viewer, query]).map (·.name) = some "User" := by
    decide +kernel
  refine ⟨hpath, hname, t, (hreached t).mpr rfl, ?_, ?_⟩
  · rw [ht] at hname
    exact Option.some.inj hname
  · have h : ∀ t ∈ selectionType? .builtin [inline, viewer, query], t.isComposite = true ∧
        "todos" ∈ (fieldHints .builtin (some t)).map (·.text) := by decide +kernel
    obtain ⟨hcomposite, htodos⟩ := h t ht
    have hmem := Reaches.mem_types ((hreached t).mpr rfl)
    exact ((hfields t hmem hcomposite).2.1 "todos").mp htodos

end Completion
end EmbeddedGraphQL
