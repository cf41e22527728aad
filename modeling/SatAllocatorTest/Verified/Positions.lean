import Mathlib.Data.List.InsertIdx

/-!
# Lists seen from a position

An update of a list at index `i` is easiest to reason about when the list is
written as what stands before `i`, and what stands from `i` on.  `split_at`
gives that form, and the other lemmas compute `[·]?`, `set`, `insertIdx` and
`eraseIdx` on it.
-/

namespace SatAllocatorTest.Verified.Positions

variable {α : Type}

/-- A list split in front of a position. -/
theorem split_at {l : List α} {i : Nat} (h : i ≤ l.length) :
    ∃ xs ys, l = xs ++ ys ∧ xs.length = i :=
  ⟨l.take i, l.drop i, (List.take_append_drop i l).symm, List.length_take_of_le h⟩

/-- A list split around an element. -/
theorem split_around {l : List α} {i : Nat} (h : i < l.length) :
    ∃ xs x ys, l = xs ++ x :: ys ∧ xs.length = i :=
  ⟨l.take i, l[i], l.drop (i + 1), by simp, List.length_take_of_le (Nat.le_of_lt h)⟩

/-- A list split around two neighbours. -/
theorem split_around_two {l : List α} {i : Nat} (h : i + 1 < l.length) :
    ∃ xs x y ys, l = xs ++ x :: y :: ys ∧ xs.length = i := by
  obtain ⟨xs, x, ys, rfl, hxs⟩ := split_around (Nat.lt_of_succ_lt h)
  cases ys with
  | nil => simp at h; omega
  | cons y ys => exact ⟨xs, x, y, ys, rfl, hxs⟩

/-- The last element of a nonempty list. -/
theorem split_last {l : List α} (h : 0 < l.length) : ∃ xs x, l = xs ++ [x] :=
  ⟨l.dropLast, l.getLast (List.length_pos_iff.1 h),
    (List.dropLast_concat_getLast (List.length_pos_iff.1 h)).symm⟩

theorem getElem?_around (xs : List α) (x : α) (ys : List α) :
    (xs ++ x :: ys)[xs.length]? = some x := by
  simp

theorem getElem?_after (xs : List α) (x y : α) (ys : List α) :
    (xs ++ x :: y :: ys)[xs.length + 1]? = some y := by
  simp

theorem set_around (xs : List α) (x : α) (ys : List α) (v : α) :
    (xs ++ x :: ys).set xs.length v = xs ++ v :: ys := by
  simp

theorem set_after (xs : List α) (x y : α) (ys : List α) (v : α) :
    (xs ++ x :: y :: ys).set (xs.length + 1) v = xs ++ x :: v :: ys := by
  simp

theorem insertIdx_at (xs ys : List α) (v : α) :
    (xs ++ ys).insertIdx xs.length v = xs ++ v :: ys := by
  induction xs with
  | nil => rfl
  | cons x xs ih => simpa using ih

theorem insertIdx_after (xs : List α) (x : α) (ys : List α) (v : α) :
    (xs ++ x :: ys).insertIdx (xs.length + 1) v = xs ++ x :: v :: ys := by
  have := insertIdx_at (xs ++ [x]) ys v
  simpa using this

theorem insertIdx_append_left {xs : List α} {i : Nat} (h : i ≤ xs.length) (ys : List α)
    (v : α) : (xs ++ ys).insertIdx i v = xs.insertIdx i v ++ ys := by
  obtain ⟨as, bs, rfl, rfl⟩ := split_at h
  rw [List.append_assoc, insertIdx_at, insertIdx_at]
  simp

theorem eraseIdx_around (xs : List α) (x : α) (ys : List α) :
    (xs ++ x :: ys).eraseIdx xs.length = xs ++ ys := by
  rw [List.eraseIdx_append_of_length_le (Nat.le_refl _)]
  simp

theorem eraseIdx_after (xs : List α) (x y : α) (ys : List α) :
    (xs ++ x :: y :: ys).eraseIdx (xs.length + 1) = xs ++ x :: ys := by
  rw [List.eraseIdx_append_of_length_le (by omega)]
  simp

end SatAllocatorTest.Verified.Positions
