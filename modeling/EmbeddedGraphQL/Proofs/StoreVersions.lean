import EmbeddedGraphQL.Schema.Store
import Mathlib

/-!
Versions of the schema in use. A change of the store keeps the snapshot or installs one under the
next version, so versions only grow along a run and snapshots with one version are one snapshot. A
snapshot that was taken stands for the same schema however the store goes on.
-/
namespace EmbeddedGraphQL.Store

/-- A change of the schema in use. -/
inductive Change where
  | replace (active : ActiveSchema) (url : String)
  | reset

def after (store : Store) : Change → Store
  | .replace active url => store.replace active url
  | .reset => store.reset

def run (store : Store) (changes : List Change) : Store := changes.foldl after store

/-- The store when a number of changes have been made. -/
def atTime (store : Store) (changes : List Change) (time : Nat) : Store :=
  store.run (changes.take time)

/-- What a change puts in use. -/
def Change.offer : Change → ActiveSchema × String
  | .replace active url => (active, url)
  | .reset => (.builtin, "")

/-- Whether a change has nothing to do: a reset where the builtin schema is in use already, without
a place that it came from. -/
def Change.Idle (change : Change) (current : Snapshot) : Prop :=
  change = .reset ∧ current.active = .builtin ∧ current.url = ""

variable {store : Store} {change : Change} {changes : List Change}

theorem isBuiltin_iff (s : Snapshot) : s.isBuiltin = true ↔ s.active = .builtin := by
  unfold Snapshot.isBuiltin
  cases s.active <;> simp

/-- A change that has nothing to do leaves the store as it is. -/
theorem after_of_idle (h : change.Idle store.current) : store.after change = store := by
  obtain ⟨rfl, hactive, hurl⟩ := h
  refine if_pos ?_
  rw [Bool.and_eq_true, isBuiltin_iff, beq_iff_eq]
  exact ⟨hactive, hurl⟩

/-- Every other change installs what it offers under the next version. -/
theorem after_of_not_idle (h : ¬ change.Idle store.current) :
    store.after change =
      { store with current := ⟨change.offer.1, store.current.version + 1, change.offer.2⟩ } := by
  cases change with
  | replace active url => rfl
  | reset =>
    refine if_neg ?_
    rw [Bool.and_eq_true, isBuiltin_iff, beq_iff_eq]
    exact fun hbuiltin => h ⟨rfl, hbuiltin⟩

theorem after_builtin (store : Store) (change : Change) :
    (store.after change).builtin = store.builtin := by
  by_cases h : change.Idle store.current
  · rw [after_of_idle h]
  · rw [after_of_not_idle h]

theorem after_version (store : Store) (change : Change) :
    (store.after change).current.version = store.current.version + 1 ∨
      (store.after change).current = store.current := by
  by_cases h : change.Idle store.current
  · exact Or.inr (by rw [after_of_idle h])
  · exact Or.inl (by rw [after_of_not_idle h])

/-- Behind a reset, another one has nothing to do. -/
theorem idle_after_reset (store : Store) : Change.reset.Idle (store.after .reset).current := by
  by_cases h : Change.reset.Idle store.current
  · rwa [after_of_idle h]
  · rw [after_of_not_idle h]
    exact ⟨rfl, rfl, rfl⟩

/-! Runs -/

theorem run_cons (store : Store) (change : Change) (changes : List Change) :
    store.run (change :: changes) = (store.after change).run changes := rfl

theorem run_append (store : Store) (changes more : List Change) :
    store.run (changes ++ more) = (store.run changes).run more := List.foldl_append

theorem run_builtin (store : Store) (changes : List Change) :
    (store.run changes).builtin = store.builtin := by
  induction changes generalizing store with
  | nil => rfl
  | cons change rest ih => rw [run_cons, ih, after_builtin]

/-- Versions grow along a run. -/
theorem version_le_run (store : Store) (changes : List Change) :
    store.current.version ≤ (store.run changes).current.version := by
  induction changes generalizing store with
  | nil => exact le_rfl
  | cons change rest ih =>
    refine le_trans ?_ (ih (store.after change))
    rcases after_version store change with hnext | hkept
    · exact hnext.ge.trans' (Nat.le_succ _)
    · rw [hkept]

/-- A run that ends with the version it started with has the same snapshot throughout. -/
theorem run_current_of_version (h : (store.run changes).current.version = store.current.version) :
    (store.run changes).current = store.current := by
  induction changes generalizing store with
  | nil => rfl
  | cons change rest ih =>
    have hle := version_le_run (store.after change) rest
    rw [← run_cons, h] at hle
    rcases after_version store change with hnext | hkept
    · omega
    · rw [run_cons, ih (by rw [← run_cons, h, hkept]), hkept]

theorem atTime_succ {time : Nat} (h : time < changes.length) :
    store.atTime changes (time + 1) = (store.atTime changes time).after changes[time] := by
  rw [atTime, List.take_succ_eq_append_getElem h, run_append]
  rfl

/-- What happens between two times is a run of its own. -/
theorem exists_run_between (store : Store) (changes : List Change) {time later : Nat}
    (h : time ≤ later) :
    ∃ between, store.atTime changes later = (store.atTime changes time).run between := by
  obtain ⟨between, hbetween⟩ := List.take_prefix_take_left (l := changes) h
  exact ⟨between, by rw [atTime, atTime, ← run_append, hbetween]⟩

/-- Snapshots with the same version are the same, at whatever times of a run they were taken. -/
theorem current_of_version {time other : Nat}
    (h : (store.atTime changes time).current.version =
      (store.atTime changes other).current.version) :
    (store.atTime changes time).current = (store.atTime changes other).current := by
  rcases le_total time other with hle | hle
  · obtain ⟨between, hbetween⟩ := exists_run_between store changes hle
    rw [hbetween] at h ⊢
    exact (run_current_of_version h.symm).symm
  · obtain ⟨between, hbetween⟩ := exists_run_between store changes hle
    rw [hbetween] at h ⊢
    exact run_current_of_version h

/-- Along every run of changes a change keeps the snapshot, where it is a reset that has nothing to
do, or else installs what it offers under the next version. So versions never decrease, one version
is one snapshot, and a snapshot stands for the same schema at all later times. A reset puts the
builtin schema in use, and another one changes nothing. -/
theorem version_identifies (store : Store) (changes : List Change) :
    (∀ (time : Nat) (h : time < changes.length),
      let current := (store.atTime changes time).current
      let next := (store.atTime changes (time + 1)).current
      (changes[time].Idle current → next = current) ∧
      (¬ changes[time].Idle current →
        next = ⟨changes[time].offer.1, current.version + 1, changes[time].offer.2⟩)) ∧
    (∀ time other : Nat,
      (store.atTime changes time).current.version = (store.atTime changes other).current.version →
      (store.atTime changes time).current = (store.atTime changes other).current) ∧
    (∀ time later : Nat, time ≤ later →
      (store.atTime changes time).current.version ≤ (store.atTime changes later).current.version ∧
      (store.atTime changes later).schemaOf (store.atTime changes time).current =
        (store.atTime changes time).schema) ∧
    (store.run changes).reset.current.active = .builtin ∧
    (store.run changes).reset.schema = store.builtin ∧
    (store.run changes).reset.current.url = "" ∧
    (store.run changes).reset.reset = (store.run changes).reset := by
  refine ⟨fun time h => ⟨fun hidle => ?_, fun hidle => ?_⟩, fun time other => current_of_version,
    fun time later hle => ?_, ?_⟩
  · rw [atTime_succ h, after_of_idle hidle]
  · rw [atTime_succ h, after_of_not_idle hidle]
  · obtain ⟨between, hbetween⟩ := exists_run_between store changes hle
    rw [hbetween]
    refine ⟨version_le_run _ between, ?_⟩
    rw [schema, schemaOf, schemaOf, run_builtin]
  · have hidle := idle_after_reset (store.run changes)
    obtain ⟨-, hactive, hurl⟩ := id hidle
    refine ⟨hactive, ?_, hurl, after_of_idle hidle⟩
    rw [schema, schemaOf, show (store.run changes).reset.current.active = .builtin from hactive]
    exact (after_builtin _ .reset).trans (run_builtin store changes)

/-- A run that comes back to the builtin schema in three ways. Only the last reset has nothing to
do, so the snapshots before and behind it are the same. -/
theorem version_identifies_builtin :
    let changes := [Change.replace (.loaded Schema.builtin) "a", .reset, .replace .builtin "b",
      .replace .builtin "", .reset]
    let current := fun time => (initial.atTime changes time).current
    (List.range 6).map (fun time => (current time).version) = [0, 1, 2, 3, 4, 4] ∧
      current 2 = ⟨.builtin, 2, ""⟩ ∧ current 4 = current 5 ∧
      (current 1).version ≤ (current 5).version := by
  intro changes current
  obtain ⟨hstep, hsame, hgrows, -⟩ := version_identifies initial changes
  have hloaded : ¬ changes[1].Idle (current 1) := by
    rintro ⟨-, hactive, -⟩
    cases hactive
  exact ⟨rfl, (hstep 1 (by decide)).2 hloaded, hsame 4 5 rfl, (hgrows 1 5 (by decide)).1⟩

end EmbeddedGraphQL.Store
