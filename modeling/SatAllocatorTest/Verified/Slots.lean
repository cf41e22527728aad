import Mathlib.Logic.Function.Basic

/-!
# Arrays whose first slots hold a list

A C array is a function from indices to optional values: `none` is a slot that
was never written, and only the first slots are in use.  `Holds f xs` says that
the first `xs.length` slots of `f` are written and hold `xs`; it says nothing
about the others, so stale values need no mention.

The lemmas below are the array operations a program performs in place, each as
the list operation it amounts to: a write is `List.set`, a tail moved right
with a value put in the gap is `List.insertIdx`, a tail moved left is
`List.eraseIdx`, a copy behind the live slots is `++`, and the last value moved into
slot `i` is a removal up to order (`swap_remove_perm`).
-/

namespace SatAllocatorTest.Verified.Slots

variable {α : Type} {f g : Nat → Option α} {xs ys : List α}

/-- The first slots of `f` hold `xs`. -/
def Holds (f : Nat → Option α) (xs : List α) : Prop :=
  ∀ i x, xs[i]? = some x → f i = some x

theorem Holds.get (h : Holds f xs) {i : Nat} (hi : i < xs.length) : f i = some xs[i] :=
  h i xs[i] (List.getElem?_eq_getElem hi)

/-- A live slot is written. -/
theorem Holds.written (h : Holds f xs) {i : Nat} (hi : i < xs.length) : ∃ x, f i = some x :=
  ⟨_, h.get hi⟩

theorem Holds.nil : Holds f [] := by
  intro i x hx
  simp at hx

/-- Only the live slots matter. -/
theorem Holds.congr (h : Holds f xs) (hfg : ∀ i, i < xs.length → g i = f i) : Holds g xs := by
  intro i x hx
  obtain ⟨hi, rfl⟩ := List.getElem?_eq_some_iff.1 hx
  rw [hfg i hi]
  exact h i _ hx

/-- Forgetting the last live slots. -/
theorem Holds.left (h : Holds f (xs ++ ys)) : Holds f xs := by
  intro i x hx
  obtain ⟨hi, -⟩ := List.getElem?_eq_some_iff.1 hx
  exact h i x (by rw [List.getElem?_append_left hi]; exact hx)

theorem Holds.take (h : Holds f xs) (n : Nat) : Holds f (xs.take n) := by
  rw [← List.take_append_drop n xs] at h
  exact h.left

theorem Holds.dropLast (h : Holds f xs) : Holds f xs.dropLast := by
  rw [List.dropLast_eq_take]
  exact h.take _

/-- Two runs of slots, one behind the other. -/
theorem Holds.append (hx : Holds f xs)
    (hy : ∀ i y, ys[i]? = some y → f (xs.length + i) = some y) : Holds f (xs ++ ys) := by
  intro i x h
  by_cases hi : i < xs.length
  · rw [List.getElem?_append_left hi] at h
    exact hx i x h
  · rw [List.getElem?_append_right (by omega)] at h
    have := hy _ _ h
    rwa [show xs.length + (i - xs.length) = i by omega] at this

/-- A write to slot `i`. -/
theorem Holds.update (h : Holds f xs) (i : Nat) (v : α) :
    Holds (Function.update f i (some v)) (xs.set i v) := by
  intro j x hx
  by_cases hij : j = i
  · subst hij
    by_cases hj : j < xs.length
    · rw [List.getElem?_set_self hj] at hx
      rw [Function.update_self, hx]
    · rw [List.getElem?_eq_none (by simpa using hj)] at hx
      cases hx
  · rw [List.getElem?_set_ne (Ne.symm hij)] at hx
    rw [Function.update_of_ne hij]
    exact h j x hx

/-- A write to the first slot behind the live ones. -/
theorem Holds.snoc (h : Holds f xs) (v : α) :
    Holds (Function.update f xs.length (some v)) (xs ++ [v]) := by
  refine Holds.append (h.congr ?_) ?_
  · intro i hi
    exact Function.update_of_ne (Nat.ne_of_lt hi) _ _
  · intro i y hy
    obtain ⟨hi, rfl⟩ := List.getElem?_eq_some_iff.1 hy
    obtain rfl : i = 0 := by simpa using hi
    simp

/-- The tail from `pos` on has moved one slot right and `v` has taken the
gap. -/
theorem Holds.insertIdx (h : Holds f xs) {pos : Nat} {v : α} (hv : g pos = some v)
    (hlt : ∀ i, i < pos → g i = f i)
    (hge : ∀ i, pos ≤ i → i < xs.length → g (i + 1) = f i) :
    Holds g (xs.insertIdx pos v) := by
  intro i x hx
  rcases Nat.lt_trichotomy i pos with hi | rfl | hi
  · rw [List.getElem?_insertIdx_of_lt hi] at hx
    rw [hlt i hi]
    exact h i x hx
  · rw [List.getElem?_insertIdx_self] at hx
    split at hx
    · rw [hv, hx]
    · cases hx
  · rw [List.getElem?_insertIdx_of_gt hi] at hx
    obtain ⟨hlen, -⟩ := List.getElem?_eq_some_iff.1 hx
    have := hge (i - 1) (by omega) hlen
    rw [show i - 1 + 1 = i by omega] at this
    rw [this]
    exact h _ _ hx

/-- The tail behind `pos` has moved one slot left. -/
theorem Holds.eraseIdx (h : Holds f xs) {pos : Nat}
    (hlt : ∀ i, i < pos → g i = f i)
    (hge : ∀ i, pos ≤ i → i + 1 < xs.length → g i = f (i + 1)) :
    Holds g (xs.eraseIdx pos) := by
  intro i x hx
  by_cases hi : i < pos
  · rw [List.getElem?_eraseIdx_of_lt hi] at hx
    rw [hlt i hi]
    exact h i x hx
  · rw [List.getElem?_eraseIdx_of_ge (by omega)] at hx
    obtain ⟨hlen, -⟩ := List.getElem?_eq_some_iff.1 hx
    rw [hge i (by omega) hlen]
    exact h _ _ hx

/-- The last live value has been written to slot `i`, and its own slot is live no more. -/
theorem Holds.swapRemove {z : α} (h : Holds f (xs ++ [z])) (i : Nat) :
    Holds (Function.update f i (f xs.length)) (xs.set i z) := by
  have hlast : f xs.length = some z := h xs.length z (by simp)
  rw [hlast]
  exact h.left.update i z

/-- A value and the list it was overwritten in. -/
theorem cons_set_perm (z : α) : ∀ (xs : List α) (i : Nat) (hi : i < xs.length),
    (xs[i] :: xs.set i z).Perm (z :: xs) := by
  intro xs
  induction xs with
  | nil => exact fun i hi => absurd hi (Nat.not_lt_zero i)
  | cons x xs ih =>
      intro i hi
      cases i with
      | zero => exact List.Perm.swap z x xs
      | succ i =>
          have hrest := ih i (Nat.lt_of_succ_lt_succ hi)
          exact (List.Perm.swap x _ _).trans ((hrest.cons x).trans (List.Perm.swap z x xs))

/-- Of the live values, `swapRemove` takes the one at `i`. -/
theorem swap_remove_perm (z : α) {i : Nat} (hi : i < (xs ++ [z]).length) :
    ((xs ++ [z])[i] :: xs.set i z).Perm (xs ++ [z]) := by
  have hsnoc : (z :: xs).Perm (xs ++ [z]) := (List.perm_append_singleton z xs).symm
  by_cases hlt : i < xs.length
  · rw [List.getElem_append_left hlt]
    exact (cons_set_perm z xs i hlt).trans hsnoc
  · have hi : i = xs.length := by
      rw [List.length_append, List.length_singleton] at hi
      omega
    subst hi
    rw [List.getElem_concat_length rfl, List.set_eq_of_length_le (Nat.le_refl _)]
    exact hsnoc

end SatAllocatorTest.Verified.Slots
