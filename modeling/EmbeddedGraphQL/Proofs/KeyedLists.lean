import EmbeddedGraphQL.Schema.OfIntrospection
import Mathlib

/-!
Lists in which an item takes the place of the one with its key, or else goes to the end: the members
of objects, the fields that are offered, and the named parts of an introspection result. In such a
list no key comes twice, and the last item that was put under a key is found there.
-/
namespace EmbeddedGraphQL

namespace Keyed

variable {α : Type} {key : α → String} {items : List α}

/-- Puts an item in the place of the one with its key, or at the end. -/
def put (key : α → String) (items : List α) (item : α) : List α :=
  if items.any (key · == key item) then
    items.map fun other => if key other == key item then item else other
  else items ++ [item]

/-- The item under a key. -/
def find? (key : α → String) (items : List α) (name : String) : Option α :=
  items.find? (key · == name)

theorem find?_cons (item : α) (items : List α) (name : String) :
    find? key (item :: items) name =
      if key item = name then some item else find? key items name := by
  unfold find?
  rw [List.find?_cons]
  by_cases h : key item = name
  · simp [h]
  · rw [beq_eq_false_iff_ne.mpr h, if_neg h]

theorem find?_append (items more : List α) (name : String) :
    find? key (items ++ more) name = (find? key items name).or (find? key more name) :=
  List.find?_append

theorem find?_eq_none_iff {name : String} :
    find? key items name = none ↔ name ∉ items.map key := by
  simp [find?]

theorem exists_find?_iff {name : String} :
    (∃ item, find? key items name = some item) ↔ name ∈ items.map key := by
  rw [← Option.ne_none_iff_exists', ne_eq, find?_eq_none_iff, not_not]

theorem any_iff (items : List α) (name : String) :
    items.any (key · == name) = true ↔ name ∈ items.map key := by
  simp

theorem find?_replaced (items : List α) (item : α) (name : String) :
    find? key (items.map fun other => if key other == key item then item else other) name =
      if key item = name then (find? key items name).map fun _ => item
      else find? key items name := by
  induction items with
  | nil => simp [find?]
  | cons other rest ih =>
    rw [List.map_cons, find?_cons, find?_cons, ih]
    by_cases hother : key other = key item
    · by_cases hname : key item = name <;> simp [hother, hname]
    · have hbeq : (key other == key item) = false := beq_eq_false_iff_ne.mpr hother
      by_cases hname : key item = name
      · subst hname
        simp [hother]
      · simp [hbeq, hname]

/-- An item is found under its key once it is put, and all others are found as before. -/
theorem find?_put (items : List α) (item : α) (name : String) :
    find? key (put key items item) name =
      if key item = name then some item else find? key items name := by
  unfold put
  split
  case isTrue hany =>
    rw [find?_replaced]
    by_cases hname : key item = name
    · subst hname
      obtain ⟨found, hfound⟩ := exists_find?_iff.mpr ((any_iff items _).mp hany)
      simp [hfound]
    · simp only [if_neg hname]
  case isFalse hany =>
    rw [find?_append, find?_cons]
    by_cases hname : key item = name
    · subst hname
      simp [find?_eq_none_iff.mpr (mt (any_iff items _).mpr hany)]
    · simp [hname, find?]

/-- Of the items put in turn, the last one of a key is found. -/
theorem find?_foldl_put (more items : List α) (name : String) :
    find? key (more.foldl (put key) items) name =
      (find? key more.reverse name).or (find? key items name) := by
  induction more generalizing items with
  | nil => rfl
  | cons item rest ih =>
    rw [List.foldl_cons, ih, find?_put, List.reverse_cons, find?_append, find?_cons,
      Option.or_assoc]
    congr 1
    by_cases hname : key item = name <;> simp [hname, find?]

/-- Where no key comes twice, the order of the items does not matter. -/
theorem find?_reverse (h : (items.map key).Nodup) (name : String) :
    find? key items.reverse name = find? key items name := by
  induction items with
  | nil => rfl
  | cons item rest ih =>
    obtain ⟨hitem, hrest⟩ := List.nodup_cons.mp h
    rw [List.reverse_cons, find?_append, ih hrest, find?_cons, find?_cons]
    by_cases hname : key item = name
    · subst hname
      simp [find?_eq_none_iff.mpr hitem]
    · simp [hname, find?]

theorem find?_of_mem (h : (items.map key).Nodup) {item : α} (hitem : item ∈ items) :
    find? key items (key item) = some item := by
  induction items with
  | nil => cases hitem
  | cons first rest ih =>
    obtain ⟨hfirst, hrest⟩ := List.nodup_cons.mp h
    rw [find?_cons]
    rcases List.mem_cons.mp hitem with rfl | hmem
    · rw [if_pos rfl]
    · have hne : key first ≠ key item := fun heq => hfirst (heq ▸ List.mem_map_of_mem hmem)
      rw [if_neg hne]
      exact ih hrest hmem

theorem keys_put (items : List α) (item : α) :
    (put key items item).map key =
      if key item ∈ items.map key then items.map key else items.map key ++ [key item] := by
  unfold put
  simp only [any_iff]
  split
  · rw [List.map_map]
    refine List.map_congr_left fun other _ => ?_
    by_cases hother : key other = key item <;> simp [hother]
  · simp

theorem nodup_put (h : (items.map key).Nodup) (item : α) :
    ((put key items item).map key).Nodup := by
  rw [keys_put]
  split
  case isTrue => exact h
  case isFalse hitem => exact List.nodup_append_comm.mp (List.nodup_cons.mpr ⟨hitem, h⟩)

theorem nodup_foldl_put (more : List α) (h : (items.map key).Nodup) :
    ((more.foldl (put key) items).map key).Nodup := by
  induction more generalizing items with
  | nil => exact h
  | cons item rest ih => exact ih (nodup_put h item)

theorem mem_put {item other : α} (h : other ∈ put key items item) :
    other = item ∨ other ∈ items := by
  unfold put at h
  split at h
  · obtain ⟨kept, hkept, rfl⟩ := List.mem_map.mp h
    split
    · exact Or.inl rfl
    · exact Or.inr hkept
  · rcases List.mem_append.mp h with hitems | hitem
    · exact Or.inr hitems
    · exact Or.inl (List.mem_singleton.mp hitem)

/-- All items of the list were put there or there before. -/
theorem mem_foldl_put {more : List α} {item : α} (h : item ∈ more.foldl (put key) items) :
    item ∈ more ∨ item ∈ items := by
  induction more generalizing items with
  | nil => exact Or.inr h
  | cons first rest ih =>
    rcases ih h with hrest | hput
    · exact Or.inl (List.mem_cons_of_mem _ hrest)
    · rcases mem_put hput with rfl | hitems
      · exact Or.inl List.mem_cons_self
      · exact Or.inr hitems

end Keyed

/-! The lists of this kind -/

namespace Json

variable {members : List (String × Json)}

theorem lookup_eq_find? {α : Type} (pairs : List (String × α)) (name : String) :
    pairs.lookup name = (Keyed.find? Prod.fst pairs name).map Prod.snd := by
  induction pairs with
  | nil => rfl
  | cons pair rest ih =>
    obtain ⟨key, value⟩ := pair
    rw [Keyed.find?_cons, List.lookup_cons, ih]
    by_cases hname : key = name
    · simp [hname]
    · have hbeq : (name == key) = false := by simpa using Ne.symm hname
      simp [hname, hbeq]

/-- Setting a member changes what is found under its key, and nothing else. -/
theorem lookup_insert (members : List (String × Json)) (key : String) (value : Json)
    (name : String) :
    (insert members key value).lookup name =
      if key = name then some value else members.lookup name := by
  rw [lookup_eq_find?, lookup_eq_find?, show insert members key value =
    Keyed.put Prod.fst members (key, value) from rfl, Keyed.find?_put]
  split <;> rfl

/-- Of the members set in turn, the last one of a key is found. -/
theorem lookup_foldl_insert (changes members : List (String × Json)) (name : String) :
    (changes.foldl (fun done member => insert done member.1 member.2) members).lookup name =
      (changes.reverse.lookup name).or (members.lookup name) := by
  rw [lookup_eq_find?, lookup_eq_find?, lookup_eq_find?, ← Option.map_or]
  exact congrArg _ (Keyed.find?_foldl_put changes members name)

/-- Where no key comes twice, the order of the members does not matter. -/
theorem lookup_reverse (h : (members.map Prod.fst).Nodup) (name : String) :
    members.reverse.lookup name = members.lookup name := by
  rw [lookup_eq_find?, lookup_eq_find?, Keyed.find?_reverse h]

theorem nodup_ofMembers (members : List (String × Json)) :
    ((ofMembers members).map Prod.fst).Nodup :=
  Keyed.nodup_foldl_put members List.nodup_nil

end Json

theorem Introspection.lastOfEach_eq {α : Type} (key : α → String) (all : List α) :
    Introspection.lastOfEach key all = all.foldl (Keyed.put key) [] := rfl

end EmbeddedGraphQL
