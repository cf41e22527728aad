import Mathlib.Data.Finset.Dedup
import Mathlib.Data.Finset.Insert
import Mathlib.Data.Finset.Erase
import Mathlib.Order.Lattice

/-!
# Sorted lists of keys

A search structure holds a strictly increasing list of keys.  `Inserts` and
`Deletes` are what one update does to it.  Both can be stated of the part of the
list an update works in and carried to the whole (`Inserts.within`,
`Deletes.within`), and both have the expected effect on the set of keys.
-/

namespace SatAllocatorTest.Verified.SortedKeys

variable {K : Type} [LinearOrder K] {key : K} {l l' : List K}

/-- A strictly increasing list. -/
def Sorted (l : List K) : Prop := l.Pairwise (· < ·)

/-- `l'` is `l` with `key` put in at its place. -/
def Inserts (key : K) (l l' : List K) : Prop :=
  ∃ xs ys, l = xs ++ ys ∧ (∀ x ∈ xs, x < key) ∧ (∀ y ∈ ys, key < y) ∧ l' = xs ++ key :: ys

/-- `l'` is `l` with `key` taken out. -/
def Deletes (key : K) (l l' : List K) : Prop :=
  ∃ xs ys, l = xs ++ key :: ys ∧ l' = xs ++ ys

theorem Sorted.append_iff {xs ys : List K} :
    Sorted (xs ++ ys) ↔ Sorted xs ∧ Sorted ys ∧ ∀ x ∈ xs, ∀ y ∈ ys, x < y :=
  List.pairwise_append

theorem Sorted.cons_iff {x : K} {xs : List K} :
    Sorted (x :: xs) ↔ (∀ y ∈ xs, x < y) ∧ Sorted xs :=
  List.pairwise_cons

theorem Sorted.nodup (h : Sorted l) : l.Nodup :=
  h.imp ne_of_lt

/-- Of two sorted lists with the same members one is the other. -/
theorem Sorted.eq_of_mem_iff (h : Sorted l) (h' : Sorted l') (hmem : ∀ x, x ∈ l ↔ x ∈ l') :
    l = l' :=
  List.Perm.eq_of_pairwise (fun _ _ _ _ hab hba => absurd hba (lt_asymm hab)) h h'
    ((List.perm_ext_iff_of_nodup h.nodup h'.nodup).2 hmem)

theorem Inserts.within (h : Inserts key l l') {as bs : List K} (has : ∀ a ∈ as, a < key)
    (hbs : ∀ b ∈ bs, key < b) : Inserts key (as ++ l ++ bs) (as ++ l' ++ bs) := by
  obtain ⟨xs, ys, rfl, hxs, hys, rfl⟩ := h
  refine ⟨as ++ xs, ys ++ bs, by simp, ?_, ?_, by simp⟩
  · exact List.forall_mem_append.2 ⟨has, hxs⟩
  · exact List.forall_mem_append.2 ⟨hys, hbs⟩

theorem Inserts.mem_iff (h : Inserts key l l') {x : K} : x ∈ l' ↔ x = key ∨ x ∈ l := by
  obtain ⟨xs, ys, rfl, -, -, rfl⟩ := h
  simp only [List.mem_append, List.mem_cons]
  tauto

theorem Inserts.not_mem (h : Inserts key l l') : key ∉ l := by
  obtain ⟨xs, ys, rfl, hxs, hys, -⟩ := h
  rw [List.mem_append]
  rintro (hk | hk)
  · exact lt_irrefl _ (hxs _ hk)
  · exact lt_irrefl _ (hys _ hk)

theorem Inserts.sorted (h : Inserts key l l') (hl : Sorted l) : Sorted l' := by
  obtain ⟨xs, ys, rfl, hxs, hys, rfl⟩ := h
  rw [Sorted.append_iff] at hl ⊢
  refine ⟨hl.1, Sorted.cons_iff.2 ⟨hys, hl.2.1⟩, fun x hx y hy => ?_⟩
  rcases List.mem_cons.1 hy with rfl | hy
  · exact hxs x hx
  · exact hl.2.2 x hx y hy

theorem Inserts.toFinset (h : Inserts key l l') : l'.toFinset = insert key l.toFinset := by
  ext x
  simp [h.mem_iff]

omit [LinearOrder K] in
theorem Deletes.within (h : Deletes key l l') (as bs : List K) :
    Deletes key (as ++ l ++ bs) (as ++ l' ++ bs) := by
  obtain ⟨xs, ys, rfl, rfl⟩ := h
  exact ⟨as ++ xs, ys ++ bs, by simp, by simp⟩

omit [LinearOrder K] in
theorem Deletes.mem (h : Deletes key l l') : key ∈ l := by
  obtain ⟨xs, ys, rfl, -⟩ := h
  simp

theorem Deletes.sorted (h : Deletes key l l') (hl : Sorted l) : Sorted l' := by
  obtain ⟨xs, ys, rfl, rfl⟩ := h
  rw [Sorted.append_iff] at hl ⊢
  exact ⟨hl.1, (Sorted.cons_iff.1 hl.2.1).2, fun x hx y hy => hl.2.2 x hx y (by simp [hy])⟩

theorem Deletes.mem_iff (h : Deletes key l l') (hl : Sorted l) {x : K} :
    x ∈ l' ↔ x ≠ key ∧ x ∈ l := by
  obtain ⟨xs, ys, rfl, rfl⟩ := h
  have hnd := hl.nodup
  rw [List.nodup_append] at hnd
  obtain ⟨-, hys, hcross⟩ := hnd
  have hys := (List.nodup_cons.1 hys).1
  simp only [List.mem_append, List.mem_cons]
  constructor
  · rintro (hx | hx)
    · exact ⟨hcross x hx key (List.mem_cons_self ..), .inl hx⟩
    · exact ⟨fun he => hys (he ▸ hx), .inr (.inr hx)⟩
  · tauto

theorem Deletes.toFinset (h : Deletes key l l') (hl : Sorted l) :
    l'.toFinset = l.toFinset.erase key := by
  ext x
  simp [h.mem_iff hl]

/-- What is deleted at the end of a sorted list leaves the rest. -/
theorem Deletes.of_last {init : List K} (h : Deletes key (init ++ [key]) l')
    (hl : Sorted (init ++ [key])) : l' = init := by
  refine Sorted.eq_of_mem_iff (h.sorted hl) (Sorted.append_iff.1 hl).1 fun x => ?_
  rw [h.mem_iff hl, List.mem_append, List.mem_singleton]
  have hlast := (Sorted.append_iff.1 hl).2.2
  constructor
  · tauto
  · exact fun hx => ⟨ne_of_lt (hlast x hx key (List.mem_singleton_self _)), .inl hx⟩

end SatAllocatorTest.Verified.SortedKeys
