/-! Parts of a list named by two bounds, where a negative bound counts from the end. -/
namespace EmbeddedGraphQL.Text

variable {α : Type}

/-- The place in a list of length `n` that a bound names, kept between `0` and `n`. -/
def place (n : Nat) (bound : Int) : Nat :=
  if bound < 0 then (bound + n).toNat else min bound.toNat n

/-- The elements from `start` up to, but not including, `stop`. -/
def slice (xs : List α) (start stop : Int) : List α :=
  (xs.take (place xs.length stop)).drop (place xs.length start)

theorem place_of_nonneg {n : Nat} {bound : Int} (h : 0 ≤ bound) :
    place n bound = min bound.toNat n := by
  simp [place, Int.not_lt.mpr h]

theorem slice_natCast (xs : List α) (start stop : Nat) :
    slice xs start stop = (xs.take stop).drop (min start xs.length) := by
  simp [slice, place_of_nonneg, ← List.take_eq_take_min]

theorem slice_eq_take_drop (xs : List α) (start stop : Nat) :
    slice xs start stop = (xs.drop start).take (stop - start) := by
  rw [slice_natCast, ← List.drop_take]
  rcases Nat.le_total start xs.length with h | h
  · rw [Nat.min_eq_left h]
  · have hle : (xs.take stop).length ≤ xs.length := List.length_take_le' stop xs
    rw [Nat.min_eq_right h, List.drop_of_length_le (Nat.le_trans hle h),
      List.drop_of_length_le hle]

theorem getElem?_slice (xs : List α) (start stop k : Nat) :
    (slice xs start stop)[k]? = if start + k < stop then xs[start + k]? else none := by
  rw [slice_eq_take_drop, List.getElem?_take, List.getElem?_drop]
  by_cases h : start + k < stop
  · rw [if_pos h, if_pos (by omega)]
  · rw [if_neg h, if_neg (by omega)]

theorem length_slice {xs : List α} {start stop : Nat} (h : stop ≤ xs.length) :
    (slice xs start stop).length = stop - start := by
  rw [slice_eq_take_drop, List.length_take, List.length_drop]
  omega

theorem slice_append_slice (xs : List α) {start middle stop : Nat} (h : start ≤ middle)
    (h' : middle ≤ stop) : slice xs start middle ++ slice xs middle stop = slice xs start stop := by
  rw [slice_eq_take_drop, slice_eq_take_drop, slice_eq_take_drop,
    show stop - start = (middle - start) + (stop - middle) by omega, List.take_add,
    List.drop_drop, Nat.add_sub_of_le h]

theorem slice_append_append (before middle after : List α) :
    slice (before ++ (middle ++ after)) before.length (before.length + middle.length : Nat) =
      middle := by
  rw [slice_eq_take_drop, List.drop_left, Nat.add_sub_cancel_left, List.take_left]

theorem slice_zero_length (xs : List α) : slice xs 0 xs.length = xs := by
  simp [slice, place_of_nonneg]

end EmbeddedGraphQL.Text
