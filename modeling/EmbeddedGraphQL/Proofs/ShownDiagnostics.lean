import EmbeddedGraphQL.Validation.Lint
import Mathlib

/-!
Diagnostics that are shown. Of several diagnostics with one range the first is kept, whatever its
message, and artifacts are dropped from what is kept. So a range is shown just if the first
diagnostic there is no artifact: one that is an artifact hides the others behind it.
-/
namespace EmbeddedGraphQL

/-- The places between which a diagnostic stands. -/
def Diagnostic.range (d : Diagnostic) : Position × Position := (d.start, d.stop)

/-- The first of some diagnostics with a range. -/
def Diagnostic.firstAt? (found : List Diagnostic) (range : Position × Position) :
    Option Diagnostic :=
  found.find? (·.range = range)

namespace Lint
open Diagnostic

variable {found : List Diagnostic} {d : Diagnostic} {range : Position × Position}

theorem exists_firstAt? (h : d ∈ found) : ∃ first, firstAt? found d.range = some first :=
  Option.isSome_iff_exists.mp (List.find?_isSome.mpr ⟨d, h, by simp⟩)

theorem range_of_firstAt? (h : firstAt? found range = some d) : d.range = range := by
  simpa using List.find?_some h

/-- One more diagnostic is kept if its range is new. -/
theorem distinct_concat (found : List Diagnostic) (d : Diagnostic) :
    distinct (found ++ [d]) =
      if ∃ k ∈ distinct found, k.range = d.range then distinct found
      else distinct found ++ [d] := by
  have hsame : ((distinct found).any fun k => k.start == d.start && k.stop == d.stop) = true ↔
      ∃ k ∈ distinct found, k.range = d.range := by
    simp [List.any_eq_true, range]
  unfold distinct at hsame ⊢
  rw [List.foldl_append, List.foldl_cons, List.foldl_nil]
  exact if_congr hsame rfl rfl

/-- The diagnostics that are kept are the first ones with their ranges. -/
theorem mem_distinct_iff : d ∈ distinct found ↔ firstAt? found d.range = some d := by
  induction found using List.reverseRecOn generalizing d with
  | nil => simp [distinct, firstAt?]
  | append_singleton found last ih =>
    have hkept : (∃ k ∈ distinct found, k.range = last.range) ↔
        ∃ first, firstAt? found last.range = some first := by
      constructor
      · rintro ⟨k, hk, hrange⟩
        exact ⟨k, hrange ▸ ih.mp hk⟩
      · rintro ⟨first, hfirst⟩
        have hrange := range_of_firstAt? hfirst
        exact ⟨first, ih.mpr (hrange.symm ▸ hfirst), hrange⟩
    rw [distinct_concat, firstAt?, List.find?_append]
    change _ ↔ (firstAt? found d.range).or _ = _
    by_cases hnew : ∃ first, firstAt? found last.range = some first
    · rw [if_pos (hkept.mpr hnew), ih]
      obtain ⟨first, hfirst⟩ := hnew
      by_cases hrange : last.range = d.range
      · rw [← hrange, hfirst, Option.some_or]
      · simp [hrange]
    · rw [if_neg (mt hkept.mp hnew), List.mem_append, List.mem_singleton, ih]
      have hnone : firstAt? found last.range = none :=
        Option.eq_none_iff_forall_ne_some.mpr fun first hfirst => hnew ⟨first, hfirst⟩
      by_cases hrange : last.range = d.range
      · rw [← hrange, hnone]
        simp [hrange, eq_comm]
      · have hne : d ≠ last := fun heq => hrange (heq ▸ rfl)
        simp [hrange, hne]

end Lint

namespace Artifact
open Diagnostic Lint

variable {environment : Environment} {raw : List Diagnostic} {d : Diagnostic}

theorem mem_visible_iff :
    d ∈ visible environment raw ↔ d ∈ raw ∧ rule? environment d.message = none := by
  rw [visible, List.mem_filter, Option.isNone_iff_eq_none]

/-- What is shown at a range is the first diagnostic there. -/
theorem mem_shown_iff : d ∈ visible environment (distinct raw) ↔
    firstAt? raw d.range = some d ∧ rule? environment d.message = none := by
  rw [mem_visible_iff, mem_distinct_iff]

/-- The range of a diagnostic that is no artifact is shown just if the first diagnostic there is no
artifact, and that one is then shown. If artifacts were dropped first, the range would be kept. -/
theorem range_shown_iff (hd : d ∈ raw) (hrule : rule? environment d.message = none) :
    ∃ first, firstAt? raw d.range = some first ∧
      ((∃ shown ∈ visible environment (distinct raw), shown.range = d.range) ↔
        rule? environment first.message = none) ∧
      (∀ shown ∈ visible environment (distinct raw), shown.range = d.range → shown = first) ∧
      ∃ kept ∈ distinct (visible environment raw), kept.range = d.range := by
  obtain ⟨first, hfirst⟩ := exists_firstAt? hd
  have hrange := range_of_firstAt? hfirst
  have hshown {shown : Diagnostic} (h : shown ∈ visible environment (distinct raw))
      (hsame : shown.range = d.range) : shown = first := by
    have hshown := (mem_shown_iff.mp h).1
    rw [hsame, hfirst] at hshown
    exact (Option.some.inj hshown).symm
  obtain ⟨kept, hkept⟩ := exists_firstAt? (mem_visible_iff.mpr ⟨hd, hrule⟩)
  have hkeptRange := range_of_firstAt? hkept
  refine ⟨first, hfirst, ⟨?_, fun h => ⟨first, ?_, hrange⟩⟩, fun shown => hshown, kept, ?_,
    hkeptRange⟩
  · rintro ⟨shown, hmem, hsame⟩
    rw [← hshown hmem hsame]
    exact (mem_shown_iff.mp hmem).2
  · exact mem_shown_iff.mpr ⟨hrange.symm ▸ hfirst, h⟩
  · exact mem_distinct_iff.mpr (hkeptRange.symm ▸ hkept)

def notAlone : String := "This anonymous operation must be the only defined operation."

def unknownVariable : String := "Variable '$x' is not defined."

/-- What is wrong with `{node(id: $x){id}} query Q{viewer{id}}`: the first operation is not alone,
and its variable is unknown, which is told at the variable and at the operation. -/
def twoOperations : List Diagnostic :=
  [⟨⟨0, 0⟩, ⟨0, 1⟩, notAlone, severity⟩,
    ⟨⟨0, 10⟩, ⟨0, 12⟩, unknownVariable, severity⟩,
    ⟨⟨0, 0⟩, ⟨0, 1⟩, unknownVariable, severity⟩]

/-- The variable is shown where it stands, being the first diagnostic there. -/
theorem range_shown_iff_variable :
    let d : Diagnostic := ⟨⟨0, 10⟩, ⟨0, 12⟩, unknownVariable, severity⟩
    d ∈ twoOperations ∧ rule? .plain d.message = none ∧
    ∃ shown ∈ visible .plain (distinct twoOperations), shown.range = d.range := by
  intro d
  have hd : d ∈ twoOperations := by decide
  have hrule : rule? .plain unknownVariable = none := by cbv
  obtain ⟨first, hfirst, hshown, -⟩ := range_shown_iff hd hrule
  have hd' : firstAt? twoOperations d.range = some d := by decide
  cases hd'.symm.trans hfirst
  exact ⟨hd, hrule, hshown.mpr hrule⟩

/-- At the operation the unknown variable is hidden by an artifact. -/
theorem range_hidden_by_artifact :
    ¬ ∀ (environment : Environment) (raw : List Diagnostic), ∀ d ∈ raw,
      rule? environment d.message = none →
        ∃ shown ∈ visible environment (distinct raw), shown.range = d.range := by
  intro h
  obtain ⟨shown, hshown, hrange⟩ := h .plain twoOperations
    ⟨⟨0, 0⟩, ⟨0, 1⟩, unknownVariable, severity⟩ (by decide) (by cbv)
  obtain ⟨hfirst, hrule⟩ := mem_shown_iff.mp hshown
  rw [hrange] at hfirst
  have hartifact : firstAt? twoOperations (⟨0, 0⟩, ⟨0, 1⟩) =
      some ⟨⟨0, 0⟩, ⟨0, 1⟩, notAlone, severity⟩ := by decide
  cases hartifact.symm.trans hfirst
  have : rule? .plain notAlone = some .loneAnonymousOperation := by cbv
  cases this.symm.trans hrule

end Artifact
end EmbeddedGraphQL
