import EmbeddedGraphQL.Schema.OfIntrospection
import Mathlib

/-!
The faults of introspection results. Where type references and directives are objects, every fault
of a result is one that loading a schema expects. What is wrong with the parts of a type is expected
in any case, since it is wrapped.
-/
namespace EmbeddedGraphQL

namespace Json

/-- What stands under a key of an object; null where nothing does. -/
def under (j : Json) (key : String) : Json := (j.get? key).getD .null

theorem under_of_not_given {j : Json} (h : j.isGiven = false) (key : String) :
    j.under key = .null := by
  cases j with
  | obj members =>
    have hempty : members = [] := by simpa [isGiven] using h
    rw [hempty]
    rfl
  | _ => rfl

/-- Texts have no members. -/
theorem get?_of_points {j : Json} {points : List CodePoint} (h : j.points? = some points)
    (key : String) : j.get? key = none := by
  cases j with
  | obj members => cases h
  | _ => rfl

end Json

namespace Introspection

/-- The shape of a type reference: an object, and so is whatever it wraps. -/
inductive IsReference : Json → Prop
  | intro (members : List (String × Json))
    (item : ((Json.obj members).under "ofType").isGiven = true →
      IsReference ((Json.obj members).under "ofType")) : IsReference (.obj members)

/-- The shape of a directive: an object, in which the types of arguments are references. -/
structure DirectiveShape (j : Json) : Prop where
  members : ∃ members, j = .obj members
  args : ∀ all, j.under "args" = .arr all → ∀ argument ∈ all, ∀ type,
    argument.get? "type" = some type → IsReference type

/-- The shape of the schema of an introspection result. -/
structure SchemaShape (schema : Json) : Prop where
  roots : ∀ key ∈ ["queryType", "mutationType", "subscriptionType"],
    schema.under key = .null ∨ IsReference (schema.under key)
  directives : (schema.under "directives").isGiven = true →
    ∃ all, schema.under "directives" = .arr all ∧ ∀ d ∈ all, DirectiveShape d

/-- Every fault of an outcome is one that loading a schema expects. -/
def Foreseen {α : Type} (outcome : Outcome α) : Prop :=
  ∀ e, outcome = .error e → e.isUnexpected = false

section

variable {α β : Type}

theorem foreseen_pure (a : α) : Foreseen (pure a) := nofun

theorem foreseen_ok (a : α) : Foreseen (.ok a) := nofun

theorem foreseen_error {e : IntrospectionError} (h : e.isUnexpected = false) :
    Foreseen (.error e : Outcome α) := by
  intro e' he
  cases he
  exact h

theorem foreseen_bind {outcome : Outcome α} {f : α → Outcome β} (h : Foreseen outcome)
    (hf : ∀ a, outcome = .ok a → Foreseen (f a)) : Foreseen (outcome >>= f) := by
  cases outcome with
  | error e => exact foreseen_error (h e rfl)
  | ok a => exact hf a rfl

theorem foreseen_mapM {f : α → Outcome β} {all : List α} (h : ∀ a ∈ all, Foreseen (f a)) :
    Foreseen (all.mapM f) := by
  induction all with
  | nil => exact foreseen_pure []
  | cons a all ih =>
    rw [List.mapM_cons]
    apply foreseen_bind (h a List.mem_cons_self)
    intro b _
    apply foreseen_bind (ih fun a' ha' => h a' (List.mem_cons_of_mem a ha'))
    intro rest _
    exact foreseen_pure (b :: rest)

theorem foreseen_foldlM {f : β → α → Outcome β} {all : List α} (h : ∀ b a, Foreseen (f b a))
    (start : β) : Foreseen (all.foldlM f start) := by
  induction all generalizing start with
  | nil => exact foreseen_pure start
  | cons a all ih =>
    rw [List.foldlM_cons]
    exact foreseen_bind (h start a) fun b _ => ih b

/-- What is wrong inside a type is wrapped. -/
theorem foreseen_inside (type part : String) (outcome : Outcome α) :
    Foreseen (inside type part outcome) := by
  cases outcome with
  | error e => exact foreseen_error rfl
  | ok a => exact foreseen_ok a

end

/-! Parts of JSON values -/

theorem foreseen_member (j : Json) (key : String) : Foreseen (member j key) := by
  unfold member
  split
  · split
    · exact foreseen_ok _
    · exact foreseen_error rfl
  · exact foreseen_error rfl

/-- Only objects have members. -/
theorem obj_of_member {j value : Json} {key : String} (h : member j key = .ok value) :
    (∃ members, j = .obj members) ∧ j.get? key = some value := by
  unfold member at h
  split at h
  next members =>
    split at h
    next found hfound =>
      cases h
      exact ⟨⟨members, rfl⟩, hfound⟩
    next => cases h
  next => cases h

theorem optional_obj (members : List (String × Json)) (key : String) :
    optional (.obj members) key = .ok ((Json.obj members).under key) := rfl

/-- What an object may leave out is read without a fault. -/
theorem foreseen_bind_optional {β : Type} {members : List (String × Json)} {key : String}
    {f : Json → Outcome β} (h : Foreseen (f ((Json.obj members).under key))) :
    Foreseen (optional (.obj members) key >>= f) := by
  rw [optional_obj]
  exact h

theorem foreseen_items (j : Json) : Foreseen (items j) := by
  unfold items
  split
  all_goals first | exact foreseen_ok _ | exact foreseen_error rfl

theorem foreseen_demanded (members : List (String × Json)) (key part : String) :
    Foreseen (demanded (.obj members) key part) := by
  unfold demanded
  apply foreseen_bind_optional
  split
  · exact foreseen_error rfl
  · exact foreseen_pure _

theorem demanded_obj {members : List (String × Json)} {key part : String} {value : Json}
    (h : demanded (.obj members) key part = .ok value) : (Json.obj members).under key = value := by
  unfold demanded at h
  rw [optional_obj] at h
  generalize (Json.obj members).under key = found at h
  cases found with
  | null => cases h
  | _ =>
    cases h
    rfl

theorem foreseen_lookupKey (j : Json) : Foreseen (lookupKey j) := by
  unfold lookupKey
  split
  all_goals first | exact foreseen_ok _ | exact foreseen_error rfl

theorem foreseen_name (j : Json) : Foreseen (name j) := by
  unfold name
  split
  · exact foreseen_error rfl
  · split
    · exact foreseen_error rfl
    · split_ifs
      all_goals first | exact foreseen_ok _ | exact foreseen_error rfl
  · split_ifs
    all_goals exact foreseen_error rfl
  · exact foreseen_error rfl

theorem foreseen_text? (subject : String) (j : Json) : Foreseen (text? subject j) := by
  unfold text?
  split
  all_goals first | exact foreseen_ok _ | exact foreseen_error rfl

/-! Listed types -/

theorem foreseen_notReserved (j : Json) : Foreseen (notReserved j) := by
  unfold notReserved
  apply foreseen_bind (foreseen_lookupKey j)
  intro _ _
  split
  · split_ifs
    · exact foreseen_error rfl
    · exact foreseen_pure ()
  · exact foreseen_pure ()

theorem foreseen_standard? (j : Json) : Foreseen (standard? j) := by
  unfold standard?
  apply foreseen_bind (foreseen_lookupKey j)
  intro _ _
  split
  · exact foreseen_pure _
  · exact foreseen_pure none

theorem foreseen_typeDescription (members : List (String × Json)) :
    Foreseen (typeDescription (.obj members)) := by
  unfold typeDescription
  apply foreseen_bind_optional
  exact foreseen_text? _ _

/-- Types of all kinds have a name and a description. -/
theorem foreseen_described {members : List (String × Json)} {key : Json}
    {made : String → Option String → Outcome Shell} (h : ∀ n d, Foreseen (made n d)) :
    Foreseen (do
      let name ← name key
      let description ← typeDescription (.obj members)
      made name description) := by
  apply foreseen_bind (foreseen_name key)
  intro n _
  apply foreseen_bind (foreseen_typeDescription members)
  intro d _
  exact h n d

theorem foreseen_scalarShell (members : List (String × Json)) (key : Json) :
    Foreseen (scalarShell (.obj members) key) := by
  unfold scalarShell
  apply foreseen_bind (foreseen_standard? key)
  intro known _
  split
  · exact foreseen_pure _
  apply foreseen_described
  intro _ _
  apply foreseen_bind_optional
  split
  · exact foreseen_pure _
  · exact foreseen_pure _
  · exact foreseen_pure _
  · exact foreseen_error rfl

theorem foreseen_enumValue (source : Json) : Foreseen (enumValue source) := by
  unfold enumValue
  apply foreseen_bind (foreseen_member source "name")
  intro key hkey
  obtain ⟨⟨members, rfl⟩, -⟩ := obj_of_member hkey
  apply foreseen_bind_optional
  apply foreseen_bind (foreseen_text? _ _)
  intro _ _
  apply foreseen_bind_optional
  apply foreseen_bind (foreseen_text? _ _)
  intro _ _
  apply foreseen_bind (foreseen_lookupKey key)
  intro _ _
  exact foreseen_pure _

theorem foreseen_enumShell (members : List (String × Json)) (key : Json) :
    Foreseen (enumShell (.obj members) key) := by
  unfold enumShell
  apply foreseen_bind (foreseen_demanded members _ _)
  intro values _
  apply foreseen_bind (foreseen_standard? key)
  intro known _
  split
  · exact foreseen_pure _
  apply foreseen_bind (foreseen_items values)
  intro all _
  apply foreseen_bind (foreseen_mapM fun source _ => foreseen_enumValue source)
  intro read _
  apply foreseen_described
  intro _ _
  apply foreseen_bind
  · apply foreseen_mapM
    intro v _
    apply foreseen_bind (foreseen_name v.1)
    intro _ _
    dsimp only
    split_ifs
    · exact foreseen_error rfl
    · exact foreseen_pure _
  · intro _ _
    exact foreseen_pure _

theorem foreseen_shell (members : List (String × Json)) (key : Json) :
    Foreseen (shell (.obj members) key) := by
  unfold shell
  dsimp only
  split
  next kind _ =>
    rw [pure_bind]
    apply foreseen_bind (foreseen_lookupKey kind)
    intro _ _
    split
    · exact foreseen_scalarShell members key
    · apply foreseen_bind (foreseen_standard? key)
      intro known _
      split
      · exact foreseen_pure _
      · exact foreseen_described fun _ _ => foreseen_pure _
    · apply foreseen_bind (foreseen_notReserved key)
      intro _ _
      exact foreseen_described fun _ _ => foreseen_pure _
    · apply foreseen_bind (foreseen_demanded members _ _)
      intro _ _
      apply foreseen_bind (foreseen_notReserved key)
      intro _ _
      exact foreseen_described fun _ _ => foreseen_pure _
    · exact foreseen_enumShell members key
    · apply foreseen_bind (foreseen_demanded members _ _)
      intro _ _
      apply foreseen_bind (foreseen_notReserved key)
      intro _ _
      apply foreseen_described
      intro _ _
      exact foreseen_bind (foreseen_ok _) fun _ _ => foreseen_pure _
    · exact foreseen_error rfl
  next => exact foreseen_error rfl

theorem foreseen_listedTypes (schema : Json) : Foreseen (listedTypes schema) := by
  unfold listedTypes
  apply foreseen_bind (foreseen_member schema "types")
  intro types _
  apply foreseen_bind (foreseen_items types)
  intro all _
  apply foreseen_bind
  · apply foreseen_mapM
    intro source _
    unfold listedType
    apply foreseen_bind (foreseen_member source "name")
    intro key hkey
    obtain ⟨⟨members, rfl⟩, -⟩ := obj_of_member hkey
    apply foreseen_bind (foreseen_shell members key)
    intro _ _
    apply foreseen_bind (foreseen_name key)
    intro _ _
    exact foreseen_pure _
  · intro _ _
    exact foreseen_pure _

variable {listed : Listed}

/-! References -/

theorem foreseen_typeRef {fuel : Nat} {j : Json} (h : IsReference j) :
    Foreseen (typeRef listed fuel j) := by
  induction fuel generalizing j with
  | zero => exact foreseen_error rfl
  | succ fuel ih =>
    obtain ⟨members, hitem⟩ := h
    unfold typeRef
    apply foreseen_bind_optional
    split
    · apply foreseen_bind_optional
      split_ifs with hgiven
      · exact foreseen_error rfl
      · apply foreseen_bind (ih (hitem (by simpa using hgiven)))
        intro _ _
        exact foreseen_pure _
    · apply foreseen_bind_optional
      split_ifs with hgiven
      · exact foreseen_error rfl
      · apply foreseen_bind (ih (hitem (by simpa using hgiven)))
        intro _ _
        split_ifs
        · exact foreseen_error rfl
        · exact foreseen_pure _
    · apply foreseen_bind_optional
      dsimp only
      split_ifs
      · exact foreseen_error rfl
      · apply foreseen_bind (foreseen_lookupKey _)
        intro _ _
        split
        · split_ifs
          · exact foreseen_pure _
          · exact foreseen_error rfl
        · exact foreseen_error rfl
        · exact foreseen_error rfl

theorem foreseen_namedRef {j : Json} (h : IsReference j) (wanted : String)
    (fits : Shell → Bool) : Foreseen (namedRef listed wanted fits j) := by
  unfold namedRef type
  apply foreseen_bind (foreseen_typeRef h)
  intro _ _
  split
  · split_ifs
    · exact foreseen_pure _
    · exact foreseen_error rfl
  · exact foreseen_error rfl

/-! The parts of types, whose faults are wrapped -/

theorem foreseen_named {α : Type} {problem : IntrospectionError}
    (hproblem : problem.isUnexpected = false) (rename : α → String → α)
    (all : List (Json × α)) : Foreseen (named problem rename all) := by
  unfold named
  dsimp only
  split_ifs
  · exact foreseen_error hproblem
  · apply foreseen_mapM
    intro item _
    apply foreseen_bind (foreseen_name item.1)
    intro _ _
    exact foreseen_pure _

theorem foreseen_interfaces (name : String) (isObject : Bool) (source : Json) :
    Foreseen (interfaces listed name isObject source) := foreseen_inside _ _ _

theorem foreseen_fields (name : String) (source : Json) :
    Foreseen (fields listed name source) := by
  unfold fields
  apply foreseen_bind (foreseen_inside _ _ _)
  intro read _
  exact foreseen_named rfl _ read

theorem foreseen_complete (name : String) (shell : Shell) :
    Foreseen (complete listed name shell) := by
  unfold complete
  split
  · exact foreseen_pure _
  · apply foreseen_bind (foreseen_interfaces name _ _)
    intro _ _
    apply foreseen_bind (foreseen_fields name _)
    intro _ _
    exact foreseen_pure _
  · apply foreseen_bind (foreseen_inside _ _ _)
    intro _ _
    exact foreseen_pure _
  · unfold inputFields
    apply foreseen_bind
    · apply foreseen_bind (foreseen_inside _ _ _)
      intro read _
      exact foreseen_named rfl _ read
    · intro _ _
      exact foreseen_pure _

theorem foreseen_meetFaults (fuel : Nat) (seen : List String) (name : String) :
    Foreseen (meetFaults listed fuel seen name) := by
  induction fuel generalizing seen name with
  | zero => exact foreseen_pure seen
  | succ fuel ih =>
    unfold meetFaults
    dsimp only
    split_ifs
    · exact foreseen_pure seen
    split
    · exact foreseen_pure _
    · apply foreseen_bind (foreseen_interfaces name _ _)
      intro _ _
      apply foreseen_bind (foreseen_foldlM ih _)
      intro _ _
      apply foreseen_bind (foreseen_fields name _)
      intro _ _
      exact foreseen_foldlM ih _
    · apply foreseen_bind (foreseen_complete name _)
      intro _ _
      exact foreseen_foldlM ih _

/-! Directives and the schema -/

theorem foreseen_defaultValue (j : Json) : Foreseen (defaultValue j) := by
  unfold defaultValue
  split
  · exact foreseen_ok none
  · split
    · exact foreseen_ok _
    · exact foreseen_error rfl
  · exact foreseen_error rfl
  · exact foreseen_error rfl

theorem foreseen_inputValue {j : Json}
    (h : ∀ type, j.get? "type" = some type → IsReference type) (place subject : String) :
    Foreseen (inputValue listed place subject j) := by
  unfold inputValue
  apply foreseen_bind (foreseen_member j "name")
  intro key hkey
  obtain ⟨⟨members, rfl⟩, -⟩ := obj_of_member hkey
  apply foreseen_bind (foreseen_member _ "type")
  intro type hfound
  apply foreseen_bind (foreseen_typeRef (h type (obj_of_member hfound).2))
  intro _ _
  split_ifs
  · exact foreseen_error rfl
  apply foreseen_bind_optional
  apply foreseen_bind (foreseen_defaultValue _)
  intro _ _
  apply foreseen_bind_optional
  apply foreseen_bind (foreseen_text? _ _)
  intro _ _
  apply foreseen_bind_optional
  apply foreseen_bind (foreseen_text? _ _)
  intro _ _
  apply foreseen_bind (foreseen_lookupKey key)
  intro _ _
  exact foreseen_pure _

/-- Items that have members come from a list, since those of other values are texts. -/
theorem arr_of_items {j item value : Json} {key : String} {all : List Json}
    (h : items j = .ok all) (hitem : item ∈ all) (hmember : item.get? key = some value) :
    j = .arr all := by
  unfold items at h
  split at h
  next =>
    cases h
    rfl
  next =>
    cases h
    obtain ⟨_, -, rfl⟩ := List.mem_map.mp hitem
    cases hmember
  next =>
    cases h
    obtain ⟨_, -, rfl⟩ := List.mem_map.mp hitem
    cases hmember
  next =>
    cases h
    obtain ⟨point, -, rfl⟩ := List.mem_map.mp hitem
    rw [Json.get?_of_points (Json.points?_ofPoints [point])] at hmember
    cases hmember
  next => cases h

theorem foreseen_directive {j : Json} (h : DirectiveShape j) : Foreseen (directive listed j) := by
  obtain ⟨⟨members, rfl⟩, hargs⟩ := h
  unfold directive
  apply foreseen_bind (foreseen_demanded members "args" "directive args")
  intro args hgiven
  apply foreseen_bind (foreseen_demanded members "locations" _)
  intro places _
  apply foreseen_bind (foreseen_member _ "name")
  intro key _
  apply foreseen_bind_optional
  apply foreseen_bind_optional
  apply foreseen_bind_optional
  apply foreseen_bind (foreseen_items places)
  intro allPlaces _
  apply foreseen_bind (foreseen_items args)
  intro arguments harguments
  apply foreseen_bind
  · apply foreseen_mapM
    intro argument hargument
    apply foreseen_inputValue
    intro type htype
    have hlisted := (demanded_obj hgiven).trans (arr_of_items harguments hargument htype)
    exact hargs arguments hlisted argument hargument type htype
  intro read _
  apply foreseen_bind (foreseen_name key)
  intro name _
  apply foreseen_bind
  · apply foreseen_mapM
    intro place _
    split
    · split_ifs
      · exact foreseen_pure _
      · exact foreseen_error rfl
    · exact foreseen_error rfl
  intro _ _
  apply foreseen_bind (foreseen_named rfl _ read)
  intro _ _
  have hrest (description deprecation : Json)
      (made : Option String → Option String → DirectiveType) :
      Foreseen (do
        let description ← text? (name ++ " description") description
        let deprecation ← text? (name ++ " deprecation reason") deprecation
        return made description deprecation) := by
    apply foreseen_bind (foreseen_text? _ description)
    intro _ _
    apply foreseen_bind (foreseen_text? _ deprecation)
    intro _ _
    exact foreseen_pure _
  dsimp only
  split
  · exact foreseen_bind (foreseen_pure _) fun _ _ => hrest _ _ _
  · split_ifs
    · exact foreseen_error rfl
    · exact foreseen_bind (foreseen_pure _) fun _ _ => hrest _ _ _

section

variable {members : List (String × Json)}

theorem foreseen_root {key : String} (h : (Json.obj members).under key = .null ∨
    IsReference ((Json.obj members).under key)) :
    Foreseen (root listed (.obj members) key) := by
  unfold root
  apply foreseen_bind_optional
  rcases h with hnull | hreference
  · rw [hnull]
    exact foreseen_pure none
  · split
    · exact foreseen_pure none
    · apply foreseen_bind (foreseen_namedRef hreference _ _)
      intro _ _
      exact foreseen_pure _

theorem foreseen_directives (h : SchemaShape (.obj members)) :
    Foreseen (directives listed (.obj members)) := by
  unfold directives
  apply foreseen_bind_optional
  split_ifs with hgiven
  · obtain ⟨all, hall, hshape⟩ := h.directives hgiven
    rw [hall]
    apply foreseen_bind (foreseen_ok all)
    intro all' heq
    cases heq
    exact foreseen_mapM fun d hd => foreseen_directive (hshape d hd)
  · exact foreseen_pure []

theorem foreseen_ofSchema (h : SchemaShape (.obj members)) :
    Foreseen (ofSchema (.obj members)) := by
  have hroot (listed : Listed) (key : String)
      (hkey : key ∈ ["queryType", "mutationType", "subscriptionType"]) :
      Foreseen (root listed (.obj members) key) := foreseen_root (h.roots key hkey)
  unfold ofSchema
  apply foreseen_bind (foreseen_listedTypes _)
  intro listed _
  apply foreseen_bind (hroot listed "queryType" (by decide))
  intro _ _
  apply foreseen_bind (hroot listed "mutationType" (by decide))
  intro _ _
  apply foreseen_bind (hroot listed "subscriptionType" (by decide))
  intro _ _
  apply foreseen_bind (foreseen_directives h)
  intro _ _
  apply foreseen_bind_optional
  apply foreseen_bind (foreseen_text? _ _)
  intro _ _
  apply foreseen_bind (foreseen_foldlM (fun seen name => foreseen_meetFaults _ _ name) _)
  intro _ _
  apply foreseen_bind (foreseen_mapM fun listed _ => foreseen_complete listed.1 listed.2)
  intro _ _
  exact foreseen_pure _

end

end Introspection

/-- Every fault of a result whose references and directives have their shape is an expected one,
whatever else is wrong with it. -/
theorem Schema.foreseen_ofIntrospection {result : Json}
    (h : Introspection.SchemaShape ((result.under "data").under "__schema")) :
    Introspection.Foreseen (Schema.ofIntrospection result) := by
  unfold Schema.ofIntrospection
  split
  next members hdata =>
    split
    next schema hschema =>
      apply Introspection.foreseen_ofSchema
      have hdata' : result.under "data" = .obj members := by
        unfold Json.under
        rw [hdata]
        rfl
      have hschema' : (Json.obj members).under "__schema" = .obj schema := by
        change (members.lookup "__schema").getD .null = _
        rw [hschema]
        rfl
      rwa [hdata', hschema'] at h
    next => exact Introspection.foreseen_error rfl
  next => exact Introspection.foreseen_error rfl

end EmbeddedGraphQL
