import EmbeddedGraphQL.Proofs.Cursors
import Mathlib

/-!
Runs of calls on one ledger. Insertions are recorded and handed out in turns, and the offsets asked
for may go back and forth. What has been handed out since the last reset is always the start of what
is recorded, and an insertion is handed out by the first call that asks for more than its place.
-/
namespace EmbeddedGraphQL.Ledger

/-- A call on a ledger. A peek and the queries only look at it. -/
inductive Call where
  | record (position length : Int)
  | consume (offset : Int)
  | reset
  | look
  deriving DecidableEq

/-- The ledger after a call. A refused insertion leaves it as it was. -/
def after (ledger : Ledger) : Call → Ledger
  | .record position length => (ledger.record position length).toOption.getD ledger
  | .consume offset => (ledger.consumeBefore offset).2
  | .reset => ledger.reset
  | .look => ledger

/-- The insertions that a call hands out. -/
def handedBy (ledger : Ledger) : Call → List Insertion
  | .consume offset => (ledger.consumeBefore offset).1
  | _ => []

def run (ledger : Ledger) (calls : List Call) : Ledger := calls.foldl after ledger

/-- The insertions that calls hand out, in the order in which they do. -/
def handed (ledger : Ledger) : List Call → List Insertion
  | [] => []
  | call :: rest => ledger.handedBy call ++ (ledger.after call).handed rest

/-- Calls behind which a ledger starts over: none, or a reset as the last one. -/
def StartsOver (calls : List Call) : Prop := calls = [] ∨ ∃ earlier, calls = earlier ++ [.reset]

/-- Some call asks for more than the place of an insertion that is recorded by then. -/
def Due (ledger : Ledger) (calls : List Call) (i : Insertion) : Prop :=
  ∃ earlier offset later, calls = earlier ++ .consume offset :: later ∧
    i ∈ (ledger.run earlier).insertions ∧ i.position < offset

variable {ledger : Ledger} {call : Call} {calls : List Call} {i : Insertion}

theorem run_append (ledger : Ledger) (calls more : List Call) :
    ledger.run (calls ++ more) = (ledger.run calls).run more := List.foldl_append

theorem run_concat (ledger : Ledger) (calls : List Call) (call : Call) :
    ledger.run (calls ++ [call]) = (ledger.run calls).after call := run_append ledger calls [call]

theorem handed_concat (ledger : Ledger) (calls : List Call) (call : Call) :
    ledger.handed (calls ++ [call]) = ledger.handed calls ++ (ledger.run calls).handedBy call := by
  induction calls generalizing ledger with
  | nil => simp [handed, run]
  | cons first rest ih => rw [List.cons_append, handed, ih, handed, List.append_assoc]; rfl

/-- A recorded insertion comes behind the others, and nothing else changes. -/
theorem record_eq_ok {next : Ledger} {position length : Int}
    (h : ledger.record position length = .ok next) :
    next = { ledger with insertions := ledger.insertions ++ [⟨position, length⟩] } := by
  unfold record at h
  split_ifs at h
  split at h
  next last hlast =>
    split_ifs at h
    cases h
    rfl
  next hnone =>
    cases h
    rw [List.getLast?_eq_none_iff.mp hnone, List.nil_append]

/-- An insertion is recorded or refused. -/
theorem after_record (ledger : Ledger) (position length : Int) :
    (∃ refusal, ledger.record position length = .error refusal ∧
      ledger.after (.record position length) = ledger) ∨
    ∃ next, ledger.record position length = .ok next ∧
      ledger.after (.record position length) = next := by
  cases hrecord : ledger.record position length with
  | error refusal => exact Or.inl ⟨refusal, rfl, by rw [after, hrecord]; rfl⟩
  | ok next => exact Or.inr ⟨next, rfl, by rw [after, hrecord]; rfl⟩

/-! Ordered insertions, not more of them handed out than there are -/

/-- What holds of a ledger after any calls. -/
structure Kept (ledger : Ledger) : Prop where
  ordered : Ordered ledger.insertions
  consumed_le : ledger.consumed ≤ ledger.insertions.length

theorem empty_kept : Kept empty where
  ordered := ⟨by simp [empty], List.Pairwise.nil⟩
  consumed_le := le_rfl

theorem Kept.after (h : Kept ledger) (call : Call) : Kept (ledger.after call) := by
  cases call with
  | record position length =>
    rcases ledger.after_record position length with ⟨_, -, hafter⟩ | ⟨next, hrecord, hafter⟩ <;>
      rw [hafter]
    · exact h
    · refine ⟨record_ordered h.ordered hrecord, ?_⟩
      rw [record_eq_ok hrecord, List.length_append]
      exact h.consumed_le.trans (Nat.le_add_right _ _)
  | consume offset =>
    refine ⟨h.ordered, ?_⟩
    have htaken := (List.takeWhile_prefix (l := ledger.pending) (·.position < offset)).length_le
    have hle := h.consumed_le
    rw [pending, List.length_drop] at htaken
    change ledger.consumed + (ledger.pending.takeWhile _).length ≤ ledger.insertions.length
    rw [pending]
    omega
  | reset => exact ⟨h.ordered, Nat.zero_le _⟩
  | look => exact h

theorem Kept.run (h : Kept ledger) (calls : List Call) : Kept (ledger.run calls) := by
  induction calls generalizing ledger with
  | nil => exact h
  | cons call rest ih => exact ih (h.after call)

/-! Handing out -/

/-- A call hands out the pending insertions with places before its offset. -/
theorem Kept.mem_handedBy_consume (h : Kept ledger) {offset : Int} :
    i ∈ ledger.handedBy (.consume offset) ↔ i ∈ ledger.pending ∧ i.position < offset := by
  have hpending : Ordered ledger.pending := h.ordered.sublist (List.drop_sublist _ _)
  change i ∈ ledger.pending.takeWhile _ ↔ _
  rw [hpending.takeWhile_eq_filter, List.mem_filter, decide_eq_true_eq]

/-- The pending insertions are those that are not among the first ones. -/
theorem Kept.mem_pending_iff (h : Kept ledger) :
    i ∈ ledger.pending ↔ i ∈ ledger.insertions ∧ i ∉ ledger.insertions.take ledger.consumed := by
  have hnodup := h.ordered.nodup
  rw [← List.take_append_drop ledger.consumed ledger.insertions, List.nodup_append'] at hnodup
  have hapart := hnodup.2.2
  constructor
  · exact fun hi => ⟨List.mem_of_mem_drop hi, fun htake => hapart htake hi⟩
  · rintro ⟨hi, htake⟩
    rw [← List.take_append_drop ledger.consumed ledger.insertions] at hi
    exact (List.mem_append.mp hi).resolve_left htake

theorem not_due_nil : ¬ ledger.Due [] i := by
  rintro ⟨earlier, offset, later, hsplit, -⟩
  simp at hsplit

theorem due_concat : ledger.Due (calls ++ [call]) i ↔ ledger.Due calls i ∨
    ∃ offset, call = .consume offset ∧ i ∈ (ledger.run calls).insertions ∧ i.position < offset := by
  constructor
  · rintro ⟨earlier, offset, later, hsplit, hi⟩
    rcases List.eq_nil_or_concat' later with rfl | ⟨later, last, rfl⟩
    · obtain ⟨rfl, hcall⟩ := List.append_inj' hsplit rfl
      exact Or.inr ⟨offset, (List.cons.inj hcall).1, hi⟩
    · rw [← List.cons_append, ← List.append_assoc] at hsplit
      obtain ⟨rfl, -⟩ := List.append_inj' hsplit rfl
      exact Or.inl ⟨earlier, offset, later, rfl, hi⟩
  · rintro (⟨earlier, offset, later, rfl, hi⟩ | ⟨offset, rfl, hi⟩)
    · exact ⟨earlier, offset, later ++ [call], by simp, hi⟩
    · exact ⟨calls, offset, [], rfl, hi⟩

section

variable (h : Kept ledger) (hstart : ledger.consumed = 0)
include h hstart

/-- As long as there is no reset, what has been handed out is the start of what is recorded. -/
theorem Kept.handed_eq (hreset : .reset ∉ calls) : ledger.handed calls =
    (ledger.run calls).insertions.take (ledger.run calls).consumed := by
  induction calls using List.reverseRecOn with
  | nil => simp [handed, Ledger.run, hstart]
  | append_singleton calls call ih =>
    rw [List.mem_append, not_or, List.mem_singleton] at hreset
    have hkept := h.run calls
    rw [handed_concat, run_concat, ih hreset.1]
    cases call with
    | record position length =>
      rw [show handedBy _ (.record position length) = [] from rfl, List.append_nil]
      rcases (ledger.run calls).after_record position length with
        ⟨_, -, hafter⟩ | ⟨next, hrecord, hafter⟩ <;> rw [hafter]
      rw [record_eq_ok hrecord, List.take_append_of_le_length hkept.consumed_le]
    | consume offset =>
      have hprefix := List.takeWhile_prefix (l := (ledger.run calls).pending)
        (·.position < offset)
      change _ ++ (ledger.run calls).pending.takeWhile _ = List.take (_ + _) _
      rw [List.take_add]
      exact congrArg _ (List.prefix_iff_eq_take.mp hprefix)
    | reset => exact absurd rfl hreset.2
    | look => exact List.append_nil _

/-- An insertion has been handed out just if some call has asked for more than its place. -/
theorem Kept.mem_handed_iff (hreset : .reset ∉ calls) :
    i ∈ ledger.handed calls ↔ ledger.Due calls i := by
  induction calls using List.reverseRecOn with
  | nil => simp [handed, not_due_nil]
  | append_singleton calls call ih =>
    rw [List.mem_append, not_or] at hreset
    rw [handed_concat, List.mem_append, ih hreset.1, due_concat]
    cases call with
    | consume offset =>
      have hkept := h.run calls
      rw [hkept.mem_handedBy_consume, hkept.mem_pending_iff, ← h.handed_eq hstart hreset.1,
        ih hreset.1]
      simp only [Call.consume.injEq, exists_eq_left']
      tauto
    | record | reset | look => simp [handedBy]

end

theorem run_consumed (hstart : ledger.consumed = 0)
    (hquiet : ∀ offset, .consume offset ∉ calls) : (ledger.run calls).consumed = 0 := by
  induction calls generalizing ledger with
  | nil => exact hstart
  | cons call rest ih =>
    refine ih ?_ fun offset hmem => hquiet offset (List.mem_cons_of_mem call hmem)
    cases call with
    | record position length =>
      rcases ledger.after_record position length with ⟨_, -, hafter⟩ | ⟨next, hrecord, hafter⟩ <;>
        rw [hafter]
      · exact hstart
      · rw [record_eq_ok hrecord, hstart]
    | consume offset => exact absurd List.mem_cons_self (hquiet offset)
    | reset => rfl
    | look => exact hstart

/-- With nothing handed out yet, a call hands out whatever shifts its offset. -/
theorem total_handedBy_consume (h : Ordered ledger.insertions) (hstart : ledger.consumed = 0)
    (offset : Int) :
    Insertion.total (ledger.handedBy (.consume offset)) = ledger.deltaBefore offset := by
  change Insertion.total (ledger.pending.takeWhile _) = _
  rw [pending, hstart, List.drop_zero, h.takeWhile_eq_filter, deltaBefore]

theorem StartsOver.run_consumed (h : StartsOver calls) : (empty.run calls).consumed = 0 := by
  rcases h with rfl | ⟨earlier, rfl⟩
  · rfl
  · rw [run_concat]
    rfl

/-- Whatever calls are made on a ledger, it holds insertions in their order, and a refused one
changes nothing. From a reset on, or from the start, what the calls hand out is the start of what
is recorded, and a peek shows the first insertion behind it. A call hands out just the insertions
with places before its offset that no call since has asked for, and the first one hands out as much
as lies before its offset. -/
theorem handed_in_order (before since : List Call) (hstart : StartsOver before)
    (hreset : .reset ∉ since) :
    let ledger := empty.run (before ++ since)
    let handed := (empty.run before).handed since
    ((∀ i ∈ ledger.insertions, 0 < i.length) ∧
      ledger.insertions.Pairwise fun i j => i.stop ≤ j.position) ∧
    (∀ position length refusal, ledger.record position length = .error refusal →
      ledger.after (.record position length) = ledger) ∧
    handed <+: ledger.insertions ∧
    ledger.peek = ledger.insertions[handed.length]? ∧
    (∀ offset i, i ∈ ledger.handedBy (.consume offset) ↔
      i ∈ ledger.insertions ∧ i.position < offset ∧
        ∀ earlier asked later, since = earlier ++ .consume asked :: later →
          i ∈ (empty.run (before ++ earlier)).insertions → asked ≤ i.position) ∧
    ((∀ asked, .consume asked ∉ since) → ∀ offset,
      Insertion.total (ledger.handedBy (.consume offset)) = ledger.deltaBefore offset) := by
  intro ledger handed
  have hbefore : Kept (empty.run before) := empty_kept.run before
  have hkept : Kept ledger := empty_kept.run (before ++ since)
  have hrun : ledger = (empty.run before).run since := run_append empty before since
  have hhanded : handed = ledger.insertions.take ledger.consumed := by
    rw [hrun]
    exact hbefore.handed_eq hstart.run_consumed hreset
  refine ⟨hkept.ordered, fun position length refusal hrecord => ?_, ?_, ?_, fun offset i => ?_,
    fun hquiet offset => ?_⟩
  · rw [after, hrecord]
    rfl
  · rw [hhanded]
    exact List.take_prefix _ _
  · rw [hhanded, List.length_take_of_le hkept.consumed_le, peek, pending, List.head?_drop]
  · rw [hkept.mem_handedBy_consume, hkept.mem_pending_iff, ← hhanded,
      hbefore.mem_handed_iff hstart.run_consumed hreset, and_assoc, and_comm (a := ¬ _)]
    simp only [Due, run_append, not_exists, not_and, not_lt]
  · refine total_handedBy_consume hkept.ordered ?_ offset
    rw [hrun]
    exact run_consumed hstart.run_consumed hquiet

/-- A ledger that was read to its end and started over. A refused insertion, a call that asks for
too little and an insertion recorded in between come before the call that hands one out. -/
theorem handed_in_order_rewound :
    let before : List Call := [.record 9 5, .consume 100, .reset]
    let since : List Call := [.record 13 1, .consume 9, .look, .record 20 5, .consume 10]
    StartsOver before ∧ .reset ∉ since ∧
    (empty.run before).handed since = [⟨9, 5⟩] ∧
    [⟨9, 5⟩] <+: (empty.run (before ++ since)).insertions ∧
    (empty.run (before ++ since)).peek = some ⟨20, 5⟩ := by
  intro before since
  have hstart : StartsOver before := Or.inr ⟨[.record 9 5, .consume 100], rfl⟩
  have hreset : .reset ∉ since := by decide
  have hhanded : (empty.run before).handed since = [⟨9, 5⟩] := by decide
  obtain ⟨-, -, hprefix, hpeek, -, -⟩ := handed_in_order before since hstart hreset
  rw [hhanded] at hprefix hpeek
  exact ⟨hstart, hreset, hhanded, hprefix, hpeek⟩

end EmbeddedGraphQL.Ledger
