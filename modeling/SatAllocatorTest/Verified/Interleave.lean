import Mathlib.Data.List.Basic
import Mathlib.Order.Lattice

/-!
# Interleaving blocks with separators

A node of a search tree reads, in order, as a first block, a separator, a second
block, and so on: `weave cs ks`.  A tree algorithm works at one position, so
the lemmas here split an interleaving there: `weave_focus` around one block and
`weave_split` at one separator.  What is left and right of the position is
`before` and `after`.
-/

namespace SatAllocatorTest.Verified.Interleave

variable {α : Type}

/-- The blocks `cs` with the separators `ks` between them. -/
def weave : List (List α) → List α → List α
  | [], _ => []
  | c :: _, [] => c
  | c :: cs, k :: ks => c ++ k :: weave cs ks

/-- Blocks each followed by its separator. -/
def before : List (List α) → List α → List α
  | c :: cs, k :: ks => c ++ k :: before cs ks
  | _, _ => []

/-- Separators each followed by its block. -/
def after : List α → List (List α) → List α
  | k :: ks, c :: cs => k :: (c ++ after ks cs)
  | _, _ => []

@[simp] theorem before_nil (ks : List α) : before [] ks = [] := by
  cases ks <;> rfl

@[simp] theorem after_nil_left (cs : List (List α)) : after [] cs = [] := by
  cases cs <;> rfl

/-- An interleaving seen from one of its blocks. -/
theorem weave_focus (c : List α) (cb : List (List α)) (kb : List α)
    (hb : cb.length = kb.length) :
    ∀ (ca : List (List α)) (ka : List α), ca.length = ka.length →
      weave (ca ++ c :: cb) (ka ++ kb) = before ca ka ++ c ++ after kb cb := by
  intro ca
  induction ca with
  | nil =>
      intro ka hlen
      obtain rfl : ka = [] := List.length_eq_zero_iff.1 hlen.symm
      simp only [List.nil_append, before_nil]
      induction kb generalizing c cb with
      | nil =>
          obtain rfl : cb = [] := List.length_eq_zero_iff.1 hb
          simp [weave]
      | cons k kb ih =>
          obtain ⟨d, cb, rfl⟩ := List.exists_cons_of_length_eq_add_one hb
          simp only [weave, after]
          rw [ih d cb (by simpa using hb)]
  | cons d ca ih =>
      intro ka hlen
      obtain ⟨k, ka, rfl⟩ := List.exists_cons_of_length_eq_add_one hlen.symm
      simp only [List.cons_append, weave, before]
      rw [ih ka (by simpa using hlen)]
      simp

/-- An interleaving cut at one of its separators. -/
theorem weave_split (k : α) (kb : List α) (cb : List (List α)) :
    ∀ (ca : List (List α)) (ka : List α), ca.length = ka.length + 1 →
      weave (ca ++ cb) (ka ++ k :: kb) = weave ca ka ++ k :: weave cb kb := by
  intro ca
  induction ca with
  | nil => intro ka hlen; simp at hlen
  | cons c ca ih =>
      intro ka hlen
      cases ka with
      | nil =>
          obtain rfl : ca = [] := List.length_eq_zero_iff.1 (by simpa using hlen)
          simp [weave]
      | cons j ka =>
          simp only [List.cons_append, weave]
          rw [ih ka (by simpa using hlen)]
          simp

theorem mem_before_of_mem (k : α) :
    ∀ (ca : List (List α)) (ka : List α), ca.length = ka.length → k ∈ ka →
      k ∈ before ca ka := by
  intro ca
  induction ca with
  | nil =>
      intro ka hlen hk
      obtain rfl : ka = [] := List.length_eq_zero_iff.1 hlen.symm
      cases hk
  | cons c ca ih =>
      intro ka hlen hk
      obtain ⟨j, ka, rfl⟩ := List.exists_cons_of_length_eq_add_one hlen.symm
      rcases List.mem_cons.1 hk with rfl | hk
      · simp [before]
      · simp [before, ih ka (by simpa using hlen) hk]

theorem mem_after_of_mem (k : α) :
    ∀ (kb : List α) (cb : List (List α)), cb.length = kb.length → k ∈ kb →
      k ∈ after kb cb := by
  intro kb
  induction kb with
  | nil => intro cb _ hk; cases hk
  | cons j kb ih =>
      intro cb hlen hk
      obtain ⟨c, cb, rfl⟩ := List.exists_cons_of_length_eq_add_one hlen
      rcases List.mem_cons.1 hk with rfl | hk
      · simp [after]
      · simp [after, ih cb (by simpa using hlen) hk]

/-- Blocks without members leave the separators. -/
theorem weave_of_nil : ∀ (cs : List (List α)) (ks : List α), cs.length = ks.length + 1 →
    (∀ c ∈ cs, c = []) → weave cs ks = ks := by
  intro cs
  induction cs with
  | nil => intro ks hlen; simp at hlen
  | cons c cs ih =>
      intro ks hlen hnil
      obtain rfl := hnil c (List.mem_cons_self ..)
      cases ks with
      | nil => rfl
      | cons k ks =>
          rw [weave, ih ks (by simpa using hlen) fun c hc => hnil c (List.mem_cons_of_mem _ hc)]
          rfl

/-- In a sorted list of blocks and separators, what stands before a position
is at most the last separator there. -/
theorem before_le_of_sorted [LinearOrder α] {x : α} :
    ∀ (ca : List (List α)) (ka : List α), ca.length = ka.length →
      (before ca ka).Pairwise (· < ·) → (∀ k ∈ ka, k < x) → ∀ y ∈ before ca ka, y < x := by
  intro ca
  induction ca with
  | nil => intro ka _ _ _ y hy; simp at hy
  | cons c ca ih =>
      intro ka hlen hsorted hka y hy
      obtain ⟨k, ka, rfl⟩ := List.exists_cons_of_length_eq_add_one hlen.symm
      have hk : k < x := hka k (by simp)
      simp only [before, List.pairwise_append, List.pairwise_cons] at hsorted
      obtain ⟨-, ⟨-, hrest⟩, hcross⟩ := hsorted
      simp only [before, List.mem_append, List.mem_cons] at hy
      rcases hy with hy | rfl | hy
      · exact lt_trans (hcross y hy k (List.mem_cons_self ..)) hk
      · exact hk
      · exact ih ka (by simpa using hlen) hrest
          (fun j hj => hka j (by simp [hj])) y hy

end SatAllocatorTest.Verified.Interleave
