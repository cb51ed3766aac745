import EmbeddedGraphQL.Proofs.Overwriting
import Mathlib

/-!
Where an expression of a buffer is terminated, told by the characters and by how many braces of each
kind there are, and which spans are selected if one keeps taking the first terminated expression.
-/
namespace EmbeddedGraphQL

namespace Template

/-- A mark with a brace behind it. -/
def OpensAt (buffer : List Char) (i : Nat) : Prop :=
  buffer[i]? = some '$' ∧ buffer[i + 1]? = some '{'

/-- Whether the character at `t` ends an expression that opens at `i`, unless an earlier one does:
it is a line break, or a brace with which the braces behind the mark are balanced. -/
def EndsAt (buffer : List Char) (i t : Nat) : Prop :=
  i < t ∧ (buffer[t]? = some '\n' ∨ buffer[t]? = some '}' ∧
    (Text.slice buffer (i + 1 : Nat) (t + 1 : Nat)).count '}' =
      (Text.slice buffer (i + 1 : Nat) (t + 1 : Nat)).count '{')

/-- Whether an expression opens at `i` and goes up to `stop`, with the brace that ends it or without
the line break. -/
def Terminated (buffer : List Char) (i stop : Nat) : Prop :=
  OpensAt buffer i ∧ ∃ t, IsLeast {t | EndsAt buffer i t} t ∧
    stop = if buffer[t]? = some '\n' then t else t + 1

/-- The same for the text behind the opening brace while `opened` braces are open. -/
def BodyEndsAt (opened : Nat) (text : List Char) (t : Nat) : Prop :=
  text[t]? = some '\n' ∨ text[t]? = some '}' ∧
    (text.take (t + 1)).count '}' = (text.take (t + 1)).count '{' + opened

variable {opened n : Nat} {c : Char} {text : List Char}

theorem bodyEndsAt_zero : BodyEndsAt opened (c :: text) 0 ↔ c = '\n' ∨ c = '}' ∧ opened = 1 := by
  simp only [BodyEndsAt, List.getElem?_cons_zero, Option.some.injEq]
  refine or_congr_right (and_congr_right fun hclose => ?_)
  subst hclose
  simp [eq_comm]

/-- A character in front passes on to the text behind it how many braces are open there. -/
theorem bodyEndsAt_succ {opened' t : Nat}
    (h : opened' + (if c = '}' then 1 else 0) = opened + if c = '{' then 1 else 0) :
    BodyEndsAt opened (c :: text) (t + 1) ↔ BodyEndsAt opened' text t := by
  simp only [BodyEndsAt, List.getElem?_cons_succ, List.take_succ_cons, List.count_cons, beq_iff_eq]
  refine or_congr_right (and_congr_right fun _ => ?_)
  omega

/-- The least place moves along when all places are moved. -/
theorem isLeast_add_iff {P Q : Nat → Prop} {k : Nat} (hmoved : ∀ t, P (t + k) ↔ Q t)
    (hbehind : ∀ u, P u → k ≤ u) (t : Nat) :
    IsLeast {u | P u} (t + k) ↔ IsLeast {t | Q t} t := by
  refine and_congr (hmoved t) ⟨fun hleast u hu => ?_, fun hleast u hu => ?_⟩
  · exact Nat.le_of_add_le_add_right (hleast ((hmoved u).mpr hu))
  · obtain ⟨v, rfl⟩ := Nat.exists_eq_add_of_le' (hbehind u hu)
    exact Nat.add_le_add_right (hleast ((hmoved v).mp hu)) k

/-- The rest of an expression goes up to the first character that ends it. -/
theorem bodyLength?_eq_some_iff (hopened : 1 ≤ opened) :
    bodyLength? opened text = some n ↔ ∃ t, IsLeast {t | BodyEndsAt opened text t} t ∧
      n = if text[t]? = some '\n' then t else t + 1 := by
  induction text generalizing opened n with
  | nil => simp [bodyLength?, BodyEndsAt, IsLeast]
  | cons c rest ih =>
    have first (h : BodyEndsAt opened (c :: rest) 0) :
        some (if c = '\n' then 0 else 1) = some n ↔
          ∃ t, IsLeast {t | BodyEndsAt opened (c :: rest) t} t ∧
            n = if (c :: rest)[t]? = some '\n' then t else t + 1 := by
      have hleast : IsLeast {t | BodyEndsAt opened (c :: rest) t} 0 := ⟨h, fun _ _ => Nat.zero_le _⟩
      constructor
      · intro hn
        exact ⟨0, hleast, by simpa using (Option.some.inj hn).symm⟩
      · rintro ⟨t, ht, rfl⟩
        rw [ht.unique hleast]
        simp
    have later {opened' : Nat} (hfirst : ¬ BodyEndsAt opened (c :: rest) 0)
        (hopened' : 1 ≤ opened')
        (h : opened' + (if c = '}' then 1 else 0) = opened + if c = '{' then 1 else 0) :
        (bodyLength? opened' rest).map (· + 1) = some n ↔
          ∃ t, IsLeast {t | BodyEndsAt opened (c :: rest) t} t ∧
            n = if (c :: rest)[t]? = some '\n' then t else t + 1 := by
      have hleast := isLeast_add_iff (fun t => bodyEndsAt_succ (t := t) h) fun u hu =>
        Nat.one_le_iff_ne_zero.mpr fun hzero => hfirst (hzero ▸ hu)
      simp only [Option.map_eq_some_iff, ih hopened']
      constructor
      · rintro ⟨m, ⟨t, ht, rfl⟩, rfl⟩
        refine ⟨t + 1, (hleast t).mpr ht, ?_⟩
        rw [List.getElem?_cons_succ]
        split_ifs <;> rfl
      · rintro ⟨t, ht, rfl⟩
        cases t with
        | zero => exact absurd ht.1 hfirst
        | succ t =>
          refine ⟨_, ⟨t, (hleast t).mp ht, rfl⟩, ?_⟩
          rw [List.getElem?_cons_succ]
          split_ifs <;> rfl
    rw [bodyLength?]
    simp only [bodyEndsAt_zero] at first later
    split_ifs with hbreak hopen hclose hlast
    · rw [← first (Or.inl hbreak), if_pos hbreak]
    · exact later (by simp [hopen]) (by omega) (by simp [hopen])
    · rw [← first (Or.inr ⟨hclose, by omega⟩), if_neg hbreak]
    · exact later (by simp [hclose]; omega) (by omega) (by simp [hclose]; omega)
    · exact later (by simp [hbreak, hclose]) hopened (by simp [hopen, hclose])

theorem OpensAt.drop_eq {buffer : List Char} {i : Nat} (h : OpensAt buffer i) :
    buffer.drop i = '$' :: '{' :: buffer.drop (i + 2) := by
  rw [List.drop_eq_getElem?_toList_append, h.1, List.drop_eq_getElem?_toList_append, h.2]
  rfl

theorem opensAt_of_drop {buffer : List Char} {i : Nat} (h : ['$', '{'] <+: buffer.drop i) :
    OpensAt buffer i := by
  obtain ⟨rest, hrest⟩ := h
  have hat (k : Nat) : buffer[i + k]? = ('$' :: '{' :: rest)[k]? := by
    rw [← List.getElem?_drop, ← hrest]
    rfl
  exact ⟨hat 0, hat 1⟩

theorem endsAt_add_iff {buffer : List Char} {i : Nat} (h : OpensAt buffer i) (t : Nat) :
    EndsAt buffer i (t + (i + 2)) ↔ BodyEndsAt 1 (buffer.drop (i + 2)) t := by
  have hslice : Text.slice buffer (i + 1 : Nat) (t + (i + 2) + 1 : Nat) =
      '{' :: (buffer.drop (i + 2)).take (t + 1) := by
    rw [Text.slice_eq_take_drop, ← List.drop_drop, h.drop_eq, List.drop_one, List.tail_cons,
      show t + (i + 2) + 1 - (i + 1) = t + 1 + 1 by omega, List.take_succ_cons]
  unfold EndsAt BodyEndsAt
  rw [hslice, List.getElem?_drop, Nat.add_comm (i + 2) t, and_iff_right (by omega)]
  simp

theorem le_of_endsAt {buffer : List Char} {i t : Nat} (h : OpensAt buffer i)
    (hend : EndsAt buffer i t) : i + 2 ≤ t := by
  have hne : t ≠ i + 1 := by
    rintro rfl
    rcases hend.2 with hchar | ⟨hchar, -⟩ <;> rw [h.2] at hchar <;> cases hchar
  exact Nat.lt_of_le_of_ne hend.1 hne.symm

/-- The length that the scan reads off a text is that of the expression terminated there. -/
theorem length?_eq_some_iff {buffer : List Char} {i n : Nat} :
    length? (buffer.drop i) = some n ↔ Terminated buffer i (i + n) := by
  by_cases hopen : OpensAt buffer i
  · have hleast := isLeast_add_iff (endsAt_add_iff hopen) fun t => le_of_endsAt hopen
    rw [Terminated, and_iff_right hopen, hopen.drop_eq, length?]
    simp only [Option.map_eq_some_iff, bodyLength?_eq_some_iff le_rfl, List.getElem?_drop]
    constructor
    · rintro ⟨m, ⟨t, ht, rfl⟩, rfl⟩
      refine ⟨t + (i + 2), (hleast t).mpr ht, ?_⟩
      rw [Nat.add_comm t (i + 2)]
      split_ifs <;> omega
    · rintro ⟨u, hu, hn⟩
      obtain ⟨t, rfl⟩ := Nat.exists_eq_add_of_le' (le_of_endsAt hopen hu.1)
      refine ⟨_, ⟨t, (hleast t).mp hu, rfl⟩, ?_⟩
      rw [Nat.add_comm t (i + 2)] at hn
      split_ifs at hn ⊢ <;> omega
  · refine iff_of_false (fun hlength => ?_) fun h => hopen h.1
    exact hopen (opensAt_of_drop ((length?_spec hlength).2.1.trans (List.take_prefix _ _)))

theorem Terminated.lt {buffer : List Char} {i stop : Nat} (h : Terminated buffer i stop) :
    i < stop := by
  obtain ⟨-, t, ht, rfl⟩ := h
  have hlt := ht.1.1
  split_ifs <;> omega

theorem length?_eq_none_iff {buffer : List Char} {i : Nat} :
    length? (buffer.drop i) = none ↔ ∀ stop, ¬ Terminated buffer i stop := by
  rw [Option.eq_none_iff_forall_ne_some]
  refine ⟨fun h stop hstop => ?_, fun h n hn => h _ (length?_eq_some_iff.mp hn)⟩
  obtain ⟨n, rfl⟩ := Nat.exists_eq_add_of_le hstop.lt.le
  exact h n (length?_eq_some_iff.mpr hstop)

theorem Terminated.lt_length {buffer : List Char} {i stop : Nat} (h : Terminated buffer i stop) :
    i < buffer.length :=
  (List.getElem?_eq_some_iff.mp h.1.1).1

theorem Terminated.unique {buffer : List Char} {i stop stop' : Nat}
    (h : Terminated buffer i stop) (h' : Terminated buffer i stop') : stop = stop' := by
  obtain ⟨-, t, ht, rfl⟩ := h
  obtain ⟨-, t', ht', rfl⟩ := h'
  rw [ht.unique ht']

end Template

/-! The greedy selection -/

open Template in
/-- The spans that are selected from a place on: that of the first expression terminated there or
behind it, then those selected from the end of that one on. -/
inductive Selected (buffer : List Char) : Nat → List (Nat × Nat) → Prop
  | none {place : Nat} (ended : ∀ i stop, place ≤ i → ¬ Terminated buffer i stop) :
      Selected buffer place []
  | next {place i stop : Nat} {spans : List (Nat × Nat)}
      (first : IsLeast {i | place ≤ i ∧ ∃ stop, Terminated buffer i stop} i)
      (terminated : Terminated buffer i stop) (rest : Selected buffer stop spans) :
      Selected buffer place ((i, stop) :: spans)

namespace Selected

open Template

variable {buffer : List Char} {place : Nat} {spans spans' : List (Nat × Nat)}

theorem unique (h : Selected buffer place spans) (h' : Selected buffer place spans') :
    spans = spans' := by
  induction h generalizing spans' with
  | none ended =>
    cases h' with
    | none => rfl
    | next first terminated _ => exact absurd terminated (ended _ _ first.1.1)
  | next first terminated _ ih =>
    cases h' with
    | none ended => exact absurd terminated (ended _ _ first.1.1)
    | next first' terminated' rest' =>
      obtain rfl := first.unique first'
      obtain rfl := terminated.unique terminated'
      rw [ih rest']

/-- Nothing is selected at a place where no expression is terminated. -/
theorem skip (hnone : ∀ stop, ¬ Terminated buffer place stop)
    (h : Selected buffer (place + 1) spans) : Selected buffer place spans := by
  have hbehind {i : Nat} : (place ≤ i ∧ ∃ stop, Terminated buffer i stop) ↔
      place + 1 ≤ i ∧ ∃ stop, Terminated buffer i stop := by
    refine and_congr_left fun ⟨stop, hstop⟩ => ⟨fun hle => ?_, Nat.le_of_succ_le⟩
    exact hle.lt_of_ne fun heq => hnone stop (heq ▸ hstop)
  cases h with
  | none ended =>
    refine .none fun i stop hle hstop => ended i stop (hbehind.mp ⟨hle, stop, hstop⟩).1 hstop
  | next first terminated rest => exact .next (by simpa only [hbehind] using first) terminated rest

/-- An expression terminated at the place itself comes first. -/
theorem take {stop : Nat} (hstop : Terminated buffer place stop) (h : Selected buffer stop spans) :
    Selected buffer place ((place, stop) :: spans) :=
  .next ⟨⟨le_rfl, stop, hstop⟩, fun _ hi => hi.1⟩ hstop h

/-- Every terminated expression opens in a span that is selected. -/
theorem exists_covering {i stop : Nat} (h : Selected buffer place spans) (hle : place ≤ i)
    (hstop : Terminated buffer i stop) : ∃ span ∈ spans, span.1 ≤ i ∧ i < span.2 := by
  induction h with
  | none ended => exact absurd hstop (ended i stop hle)
  | @next _ first stop' _ hfirst _ _ ih =>
    rcases Nat.lt_or_ge i stop' with hlt | hge
    · exact ⟨(first, stop'), List.mem_cons_self, hfirst.2 ⟨hle, stop, hstop⟩, hlt⟩
    · obtain ⟨span, hmem, hspan⟩ := ih hge
      exact ⟨span, List.mem_cons_of_mem _ hmem, hspan⟩

end Selected

end EmbeddedGraphQL
