import Mathlib.Logic.Function.Basic
import Mathlib.Data.Nat.Bitwise
import SatAllocatorTest.Verified.Runs

/-!
# The page map

The page heap finds the span of a page in a radix tree: two levels on 32-bit machines
(`PageMap2`), three on 64-bit ones (`PageMap3`), selected by `MapSelector`.  A value is a
pointer, `none` being null; a node that was not allocated is `none` as well, and a write
through it is a fault.  The allocator of the nodes may fail at any call; only for the root of
the three levels, which the constructor allocates, nothing provides.  Pointers and page
numbers have 64 bits.

`PageMap` is what the page heap relies on: `get` reads the last value `set`, `Ensure` makes
pages writable and changes no value, and `Next` finds the first value from a page on.  Both
trees keep it, for every number of bits with which they can be instantiated.

Main result: `pageMaps_keepMap`.
-/

namespace SatAllocatorTest.Ports.TCmalloc

/-- `r` is the first value at or behind key `k`. -/
def FirstFrom {V : Type} (get : Nat → Option V) (k : Nat) (r : Option V) : Prop :=
  (∀ v, r = some v → ∃ j, k ≤ j ∧ get j = some v ∧ ∀ i, k ≤ i → i < j → get i = none) ∧
    (r = none → ∀ j, k ≤ j → get j = none)

/-- The page map as the page heap uses it.  `Ensured` are the pages that can be written. -/
class PageMap (M : Type) (V : outParam Type) where
  get : M → Nat → Option V
  set : M → Nat → Option V → Option M
  ensure : M → Nat → Nat → M × Bool
  next : M → Nat → Option V
  preallocateMoreMemory : M → M
  Ensured : M → Nat → Prop
  set_spec : ∀ {m k} v, Ensured m k → ∃ m', set m k v = some m' ∧
    (∀ k', get m' k' = if k' = k then v else get m k') ∧ ∀ k', Ensured m' k' ↔ Ensured m k'
  get_ensure : ∀ m start n k, get (ensure m start n).1 k = get m k
  ensured_mono : ∀ {m k} start n, Ensured m k → Ensured (ensure m start n).1 k
  ensured_ensure : ∀ {m start n}, start + n ≤ 2 ^ 64 → (ensure m start n).2 = true →
    ∀ k, start ≤ k → k < start + n → Ensured (ensure m start n).1 k
  get_preallocate : ∀ m k, get (preallocateMoreMemory m) k = get m k
  ensured_preallocate : ∀ {m k}, Ensured m k → Ensured (preallocateMoreMemory m) k
  next_spec : ∀ m k, FirstFrom (get m) k (next m k)

/-- A leaf of either tree. -/
abbrev Leaf (V : Type) := Nat → Option V

/-- The scan of a leaf in `Next`: `count` entries from entry `i` on. -/
def scanLeaf {V : Type} (leaf : Leaf V) : (count i : Nat) → Option V
  | 0, _ => none
  | count + 1, i =>
    match leaf i with
    | some v => some v
    | none => scanLeaf leaf count (i + 1)

/-! ## Shifts and masks -/

theorem mask_eq (k bits : Nat) : k &&& (1 <<< bits - 1) = k % 2 ^ bits := by
  rw [Nat.one_shiftLeft, Nat.and_two_pow_sub_one_eq_mod]

theorem shiftRight_pos_iff (k bits : Nat) : 0 < k >>> bits ↔ 2 ^ bits ≤ k := by
  rw [Nat.shiftRight_eq_div_pow, Nat.div_pos_iff]
  exact and_iff_right (Nat.two_pow_pos bits)

theorem shiftRight_lt_iff (k bits n : Nat) : k >>> bits < n ↔ k < n * 2 ^ bits := by
  rw [Nat.shiftRight_eq_div_pow]
  exact Nat.div_lt_iff_lt_mul (Nat.two_pow_pos bits)

/-- The first key behind the leaf of `key`. -/
def nextLeaf (key bits : Nat) : Nat := ((key >>> bits) + 1) <<< bits

theorem nextLeaf_eq (key bits : Nat) : nextLeaf key bits = (key / 2 ^ bits + 1) * 2 ^ bits := by
  rw [nextLeaf, Nat.shiftLeft_eq, Nat.shiftRight_eq_div_pow]

theorem lt_nextLeaf (key bits : Nat) : key < nextLeaf key bits := by
  rw [nextLeaf_eq, Nat.add_mul, Nat.one_mul]
  have h := Nat.div_add_mod key (2 ^ bits)
  have hlt := Nat.mod_lt key (Nat.two_pow_pos bits)
  rw [Nat.mul_comm] at h
  omega

/-- The keys from `key` to the end of its leaf share it. -/
theorem shiftRight_eq_of_lt_nextLeaf {key k bits : Nat} (hlo : key ≤ k)
    (hhi : k < nextLeaf key bits) : k >>> bits = key >>> bits := by
  rw [Nat.shiftRight_eq_div_pow, Nat.shiftRight_eq_div_pow]
  rw [nextLeaf_eq] at hhi
  apply Nat.le_antisymm
  · exact Nat.lt_succ_iff.1 ((Nat.div_lt_iff_lt_mul (Nat.two_pow_pos bits)).2 hhi)
  · exact Nat.div_le_div_right hlo

/-- The places of the keys of one leaf. -/
theorem place_eq {key k bits : Nat} (hlo : key ≤ k) (hhi : k < nextLeaf key bits) :
    k % 2 ^ bits = key % 2 ^ bits + (k - key) ∧ k - key < 2 ^ bits - key % 2 ^ bits := by
  have hsame := shiftRight_eq_of_lt_nextLeaf hlo hhi
  rw [Nat.shiftRight_eq_div_pow, Nat.shiftRight_eq_div_pow] at hsame
  have hk := Nat.div_add_mod k (2 ^ bits)
  have hkey := Nat.div_add_mod key (2 ^ bits)
  have hlt := Nat.mod_lt k (Nat.two_pow_pos bits)
  rw [hsame] at hk
  omega

/-- The key at a later place of the leaf of `key`. -/
theorem key_of_place {key j bits : Nat} (hlo : key % 2 ^ bits ≤ j) (hhi : j < 2 ^ bits) :
    key + (j - key % 2 ^ bits) < nextLeaf key bits := by
  rw [nextLeaf_eq, Nat.add_mul, Nat.one_mul]
  have hkey := Nat.div_add_mod key (2 ^ bits)
  rw [Nat.mul_comm] at hkey
  omega

section Scan

variable {V : Type} {leaf : Leaf V}

theorem scanLeaf_some : ∀ {count i : Nat} {v : V}, scanLeaf leaf count i = some v →
    ∃ j, i ≤ j ∧ j < i + count ∧ leaf j = some v ∧ ∀ l, i ≤ l → l < j → leaf l = none := by
  intro count
  induction count with
  | zero =>
      intro i v h
      cases h
  | succ count ih =>
      intro i v h
      rw [scanLeaf] at h
      cases hi : leaf i with
      | some w =>
          rw [hi] at h
          cases h
          exact ⟨i, Nat.le_refl i, by omega, hi, fun l h1 h2 => by omega⟩
      | none =>
          rw [hi] at h
          obtain ⟨j, h1, h2, hj, hl⟩ := ih h
          refine ⟨j, by omega, by omega, hj, ?_⟩
          intro l h3 h4
          by_cases hli : l = i
          · exact hli ▸ hi
          · exact hl l (by omega) h4

theorem scanLeaf_none : ∀ {count i : Nat}, scanLeaf leaf count i = none →
    ∀ j, i ≤ j → j < i + count → leaf j = none := by
  intro count
  induction count with
  | zero =>
      intro i _ j h1 h2
      omega
  | succ count ih =>
      intro i h j h1 h2
      rw [scanLeaf] at h
      cases hi : leaf i with
      | some w =>
          rw [hi] at h
          cases h
      | none =>
          rw [hi] at h
          by_cases hji : j = i
          · exact hji ▸ hi
          · exact ih h j (by omega) (by omega)

/-- Keys without values are skipped. -/
theorem FirstFrom.skip {get : Nat → Option V} {k k' : Nat} {r : Option V} (hle : k ≤ k')
    (hempty : ∀ p, k ≤ p → p < k' → get p = none) (h : FirstFrom get k' r) :
    FirstFrom get k r := by
  constructor
  · intro v hv
    obtain ⟨j, hj, hget, hbefore⟩ := h.1 v hv
    refine ⟨j, by omega, hget, ?_⟩
    intro i h1 h2
    by_cases hi : i < k'
    · exact hempty i h1 hi
    · exact hbefore i (by omega) h2
  · intro hnone j hj
    by_cases hjk : j < k'
    · exact hempty j hj hjk
    · exact h.2 hnone j (by omega)

/-- The scan of the leaf of `k` from its place on, where the leaf has the values of `get`. -/
theorem FirstFrom.scan {get : Nat → Option V} {k bits : Nat}
    (hleaf : ∀ p, k ≤ p → p < nextLeaf k bits → get p = leaf (p % 2 ^ bits)) {r : Option V}
    (hscan : scanLeaf leaf (2 ^ bits - k % 2 ^ bits) (k % 2 ^ bits) = r) :
    (∀ v, r = some v → FirstFrom get k (some v)) ∧
      (r = none → ∀ p, k ≤ p → p < nextLeaf k bits → get p = none) := by
  have hmod := Nat.mod_lt k (Nat.two_pow_pos bits)
  constructor
  · rintro v rfl
    obtain ⟨j, h1, h2, hj, hbefore⟩ := scanLeaf_some hscan
    have hp := key_of_place h1 (by omega : j < 2 ^ bits)
    constructor
    · rintro w ⟨⟩
      refine ⟨k + (j - k % 2 ^ bits), by omega, ?_, ?_⟩
      · have hplace := place_eq (by omega) hp
        rw [hleaf _ (by omega) hp, hplace.1,
          show k % 2 ^ bits + (k + (j - k % 2 ^ bits) - k) = j by omega]
        exact hj
      · intro i h3 h4
        have hplace := place_eq h3 (by omega : i < nextLeaf k bits)
        rw [hleaf i h3 (by omega), hplace.1]
        exact hbefore _ (by omega) (by omega)
    · rintro ⟨⟩
  · rintro rfl p hlo hhi
    have hplace := place_eq hlo hhi
    rw [hleaf p hlo hhi, hplace.1]
    exact scanLeaf_none hscan _ (by omega) (by omega)

end Scan

/-- The bound `start + n - 1` of `Ensure` does not wrap. -/
theorem last_eq {start n : Nat} (hn : 0 < n) (hle : start + n ≤ 2 ^ 64) :
    (start + n + (2 ^ 64 - 1)) % 2 ^ 64 = start + n - 1 := by
  omega

/-! ## Leaves by number

Both trees are tables of leaves: the leaf of `k` is number `k >>> leafBits`.
-/

section Table

variable {V : Type} {bits leafBits k : Nat} {table table' : Nat → Option (Leaf V)} {leaf : Leaf V}

/-- The value of a key in a table of leaves. -/
def tableGet (table : Nat → Option (Leaf V)) (bits leafBits k : Nat) : Option V :=
  if k < 2 ^ bits then (table (k >>> leafBits)).bind fun leaf => leaf (k % 2 ^ leafBits) else none

/-- The leaf of a key is there. -/
def TableEnsured (table : Nat → Option (Leaf V)) (bits leafBits k : Nat) : Prop :=
  k < 2 ^ bits ∧ ∃ leaf, table (k >>> leafBits) = some leaf

/-- A key is its leaf and its place there. -/
theorem key_eq_iff (leafBits k k' : Nat) :
    k' = k ↔ k' >>> leafBits = k >>> leafBits ∧ k' % 2 ^ leafBits = k % 2 ^ leafBits := by
  rw [Nat.shiftRight_eq_div_pow, Nat.shiftRight_eq_div_pow]
  constructor
  · rintro rfl
    exact ⟨rfl, rfl⟩
  · rintro ⟨hdiv, hmod⟩
    rw [← Nat.div_add_mod k (2 ^ leafBits), ← Nat.div_add_mod k' (2 ^ leafBits), hdiv, hmod]

/-- One value written to the leaf of `k`. -/
theorem table_write (hk : k < 2 ^ bits) (hleaf : table (k >>> leafBits) = some leaf)
    (v : Option V)
    (hself : table' (k >>> leafBits) = some (Function.update leaf (k % 2 ^ leafBits) v))
    (hother : ∀ i, i ≠ k >>> leafBits → table' i = table i) (k' : Nat) :
    tableGet table' bits leafBits k' = (if k' = k then v else tableGet table bits leafBits k') ∧
      (TableEnsured table' bits leafBits k' ↔ TableEnsured table bits leafBits k') := by
  by_cases hdiv : k' >>> leafBits = k >>> leafBits
  · constructor
    · by_cases hk' : k' < 2 ^ bits
      · rw [tableGet, if_pos hk', tableGet, if_pos hk', hdiv, hself, hleaf, Option.bind_some,
          Option.bind_some]
        by_cases hmod : k' % 2 ^ leafBits = k % 2 ^ leafBits
        · rw [hmod, Function.update_self, if_pos ((key_eq_iff leafBits k k').2 ⟨hdiv, hmod⟩)]
        · rw [Function.update_of_ne hmod, if_neg fun h => hmod ((key_eq_iff leafBits k k').1 h).2]
      · rw [tableGet, if_neg hk', tableGet, if_neg hk', if_neg (by rintro rfl; exact hk' hk)]
    · simp only [TableEnsured, hdiv, hself, hleaf, Option.some.injEq, exists_eq']
  · have hne : k' ≠ k := fun h => hdiv ((key_eq_iff leafBits k k').1 h).1
    rw [if_neg hne]
    simp only [tableGet, TableEnsured, hother _ hdiv, and_self]

/-- A fresh leaf holds no values and makes its keys writable. -/
theorem table_newLeaf {i : Nat} (hi : table i = none) (hself : table' i = some fun _ => none)
    (hother : ∀ j, j ≠ i → table' j = table j) (k : Nat) :
    tableGet table' bits leafBits k = tableGet table bits leafBits k ∧
      (TableEnsured table bits leafBits k → TableEnsured table' bits leafBits k) := by
  by_cases hdiv : k >>> leafBits = i
  · constructor
    · simp only [tableGet, hdiv, hself, hi, Option.bind_some, Option.bind_none, ite_self]
    · rintro ⟨hk, -⟩
      exact ⟨hk, _, by rw [hdiv, hself]⟩
  · simp only [tableGet, TableEnsured, hother _ hdiv, true_and]
    exact id

/-- The values of the leaf of `k` from its place on. -/
theorem tableGet_leaf
    (hrange : ∀ p, p >>> leafBits = k >>> leafBits → p < 2 ^ bits) {p : Nat} (hlo : k ≤ p)
    (hhi : p < nextLeaf k leafBits) :
    tableGet table bits leafBits p =
      (table (k >>> leafBits)).bind fun leaf => leaf (p % 2 ^ leafBits) := by
  have hsame := shiftRight_eq_of_lt_nextLeaf hlo hhi
  rw [tableGet, if_pos (hrange p hsame), hsame]

end Table

/-! ## The two-level tree -/

/-- `TCMalloc_PageMap2`: a root of `2 ^ rootBits` pointers to leaves of `2 ^ leafBits`
values, the root being a part of the object.  `allocations` counts the calls of the
allocator. -/
structure TwoLevel (rootBits leafBits : Nat) (V : Type) where
  root : Nat → Option (Leaf V)
  allocator : Nat → Bool
  allocations : Nat

/-- `ROOT_BITS` is 5, the leaves have the rest.  `1 << BITS` is an `int`, which has it
below 31. -/
abbrev PageMap2 (BITS : Nat) (V : Type) := TwoLevel 5 (BITS - 5) V

namespace TwoLevel

variable {rootBits leafBits : Nat} {V : Type}

/-- The constructor. -/
def init (allocator : Nat → Bool) : TwoLevel rootBits leafBits V := ⟨fun _ => none, allocator, 0⟩

def get (m : TwoLevel rootBits leafBits V) (k : Nat) : Option V :=
  let i1 := k >>> leafBits
  let i2 := k &&& (1 <<< leafBits - 1)
  if 0 < k >>> (leafBits + rootBits) then none
  else
    match m.root i1 with
    | none => none
    | some leaf => leaf i2

/-- `root_[i] = leaf`. -/
def putLeaf (m : TwoLevel rootBits leafBits V) (i : Nat) (leaf : Leaf V) :
    TwoLevel rootBits leafBits V :=
  { m with root := Function.update m.root i (some leaf) }

/-- One call of the allocator. -/
def tick (m : TwoLevel rootBits leafBits V) : TwoLevel rootBits leafBits V :=
  { m with allocations := m.allocations + 1 }

def set (m : TwoLevel rootBits leafBits V) (k : Nat) (v : Option V) :
    Option (TwoLevel rootBits leafBits V) :=
  let i1 := k >>> leafBits
  let i2 := k &&& (1 <<< leafBits - 1)
  if i1 < 1 <<< rootBits then
    match m.root i1 with
    | none => none
    | some leaf => some (putLeaf m i1 (Function.update leaf i2 v))
  else none

/-- The loop of `Ensure` from `key` on, up to `last`. -/
def ensureFrom (m : TwoLevel rootBits leafBits V) (last key : Nat) :
    TwoLevel rootBits leafBits V × Bool :=
  if key ≤ last then
    let i1 := key >>> leafBits
    if 1 <<< rootBits ≤ i1 then (m, false)
    else
      match m.root i1 with
      | some _ => ensureFrom m last (nextLeaf key leafBits)
      | none =>
        if m.allocator m.allocations then
          ensureFrom (putLeaf (tick m) i1 fun _ => none) last (nextLeaf key leafBits)
        else (tick m, false)
  else (m, true)
termination_by 2 ^ rootBits * 2 ^ leafBits - key
decreasing_by
  all_goals
    have hlt := lt_nextLeaf key leafBits
    have hkey : key < 2 ^ rootBits * 2 ^ leafBits := by
      apply (shiftRight_lt_iff key leafBits (2 ^ rootBits)).1
      rw [Nat.one_shiftLeft] at *
      omega
    omega

/-- `start + n - 1` is computed in 64 bits. -/
def ensure (m : TwoLevel rootBits leafBits V) (start n : Nat) : TwoLevel rootBits leafBits V × Bool :=
  ensureFrom m ((start + n + (2 ^ 64 - 1)) % 2 ^ 64) start

def preallocateMoreMemory (m : TwoLevel rootBits leafBits V) : TwoLevel rootBits leafBits V :=
  (ensure m 0 (1 <<< (leafBits + rootBits))).1

def next (m : TwoLevel rootBits leafBits V) (k : Nat) : Option V :=
  if k < 1 <<< (leafBits + rootBits) then
    let i1 := k >>> leafBits
    match m.root i1 with
    | none => next m (nextLeaf k leafBits)
    | some leaf =>
      let i2 := k &&& (1 <<< leafBits - 1)
      match scanLeaf leaf (1 <<< leafBits - i2) i2 with
      | some v => some v
      | none => next m (nextLeaf k leafBits)
  else none
termination_by 1 <<< (leafBits + rootBits) - k
decreasing_by
  all_goals
    have hlt := lt_nextLeaf k leafBits
    omega

/-- The leaf of the page is there. -/
def Ensured (m : TwoLevel rootBits leafBits V) : Nat → Prop :=
  TableEnsured m.root (leafBits + rootBits) leafBits

variable {m m' : TwoLevel rootBits leafBits V} {k : Nat}

theorem get_eq (m : TwoLevel rootBits leafBits V) (k : Nat) :
    get m k = tableGet m.root (leafBits + rootBits) leafBits k := by
  rw [get, tableGet, mask_eq]
  by_cases hk : k < 2 ^ (leafBits + rootBits)
  · have hguard : ¬ 0 < k >>> (leafBits + rootBits) := by
      rw [shiftRight_pos_iff]
      omega
    rw [if_neg hguard, if_pos hk]
    cases m.root (k >>> leafBits) <;> rfl
  · rw [if_pos ((shiftRight_pos_iff _ _).2 (by omega)), if_neg hk]

/-- The pages of a leaf are in range together. -/
theorem leaf_in_range : k >>> leafBits < 1 <<< rootBits ↔ k < 2 ^ (leafBits + rootBits) := by
  rw [Nat.one_shiftLeft, shiftRight_lt_iff, Nat.pow_add, Nat.mul_comm]

theorem same_leaf_in_range (hk : k < 2 ^ (leafBits + rootBits)) (p : Nat)
    (hp : p >>> leafBits = k >>> leafBits) : p < 2 ^ (leafBits + rootBits) :=
  leaf_in_range.1 (hp ▸ leaf_in_range.2 hk)

@[simp] theorem putLeaf_self (i : Nat) (leaf : Leaf V) : (putLeaf m i leaf).root i = some leaf :=
  Function.update_self _ _ _

theorem putLeaf_of_ne {i j : Nat} (h : j ≠ i) (leaf : Leaf V) :
    (putLeaf m i leaf).root j = m.root j :=
  Function.update_of_ne h _ _

theorem set_spec (v : Option V) (h : Ensured m k) : ∃ m', set m k v = some m' ∧
    (∀ k', get m' k' = if k' = k then v else get m k') ∧ ∀ k', Ensured m' k' ↔ Ensured m k' := by
  obtain ⟨hk, leaf, hleaf⟩ := h
  have hwrite := table_write hk hleaf v (putLeaf_self _ _)
    (fun i hi => putLeaf_of_ne (m := m) hi _)
  refine ⟨_, by rw [set, if_pos (leaf_in_range.2 hk), hleaf, mask_eq], ?_, ?_⟩
  · intro k'
    rw [get_eq, get_eq]
    exact (hwrite k').1
  · intro k'
    exact (hwrite k').2

/-- A fresh leaf holds no values and makes its pages writable. -/
theorem newLeaf_spec {i : Nat} (hi : m.root i = none) (k : Nat) :
    get (putLeaf (tick m) i fun _ => none) k = get m k ∧
      (Ensured m k → Ensured (putLeaf (tick m) i fun _ => none) k) := by
  rw [get_eq, get_eq]
  exact table_newLeaf hi (putLeaf_self _ _) (fun j hj => putLeaf_of_ne hj _) k

/-- What the loop of `Ensure` does from `key` on. -/
theorem ensureFrom_spec (m : TwoLevel rootBits leafBits V) (last key : Nat) :
    (∀ k, get (ensureFrom m last key).1 k = get m k) ∧
      (∀ k, Ensured m k → Ensured (ensureFrom m last key).1 k) ∧
      ((ensureFrom m last key).2 = true →
        ∀ k, key ≤ k → k ≤ last → Ensured (ensureFrom m last key).1 k) := by
  induction m, key using ensureFrom.induct last with
  | case1 m key hle i1 hout =>
      rw [ensureFrom, if_pos hle, if_pos hout]
      exact ⟨fun _ => rfl, fun _ h => h, fun h => nomatch h⟩
  | case2 m key hle i1 hin leaf hleaf ih =>
      rw [ensureFrom, if_pos hle, if_neg hin]
      simp only [show m.root (key >>> leafBits) = some leaf from hleaf]
      obtain ⟨hget, hmono, hok⟩ := ih
      refine ⟨hget, hmono, ?_⟩
      intro hres k hlo hhi
      by_cases hk : k < nextLeaf key leafBits
      · apply hmono
        have hsame := shiftRight_eq_of_lt_nextLeaf hlo hk
        exact ⟨leaf_in_range.1 (by rw [hsame]; omega), leaf, by rw [hsame]; exact hleaf⟩
      · exact hok hres k (by omega) hhi
  | case3 m key hle i1 hin hnone halloc ih =>
      rw [ensureFrom, if_pos hle, if_neg hin]
      simp only [show m.root (key >>> leafBits) = none from hnone, halloc, if_true]
      obtain ⟨hget, hmono, hok⟩ := ih
      have hnew := newLeaf_spec hnone
      refine ⟨fun k => (hget k).trans (hnew k).1, fun k hk => hmono k ((hnew k).2 hk), ?_⟩
      intro hres k hlo hhi
      by_cases hk : k < nextLeaf key leafBits
      · apply hmono
        have hsame := shiftRight_eq_of_lt_nextLeaf hlo hk
        refine ⟨leaf_in_range.1 (by rw [hsame]; omega), fun _ => none, ?_⟩
        rw [hsame]
        exact putLeaf_self _ _
      · exact hok hres k (by omega) hhi
  | case4 m key hle i1 hin hnone halloc =>
      rw [ensureFrom, if_pos hle, if_neg hin]
      simp only [show m.root (key >>> leafBits) = none from hnone, halloc]
      exact ⟨fun _ => rfl, fun _ h => h, fun h => nomatch h⟩
  | case5 m key hle =>
      rw [ensureFrom, if_neg hle]
      exact ⟨fun _ => rfl, fun _ h => h, fun _ k hlo hhi => absurd (Nat.le_trans hlo hhi) hle⟩

/-- Where the allocator never fails, `Ensure` succeeds on every range of pages. -/
theorem ensureFrom_succeeds {last : Nat} (hlast : last < 2 ^ (leafBits + rootBits))
    (m : TwoLevel rootBits leafBits V) (key : Nat) (halloc : ∀ t, m.allocator t = true) :
    (ensureFrom m last key).2 = true := by
  induction m, key using ensureFrom.induct last with
  | case1 m key hle i1 hout =>
      have hi1 : i1 < 1 <<< rootBits := leaf_in_range.2 (Nat.lt_of_le_of_lt hle hlast)
      omega
  | case2 m key hle i1 hin leaf hleaf ih =>
      rw [ensureFrom, if_pos hle, if_neg hin]
      simp only [show m.root (key >>> leafBits) = some leaf from hleaf]
      exact ih halloc
  | case3 m key hle i1 hin hnone htrue ih =>
      rw [ensureFrom, if_pos hle, if_neg hin]
      simp only [show m.root (key >>> leafBits) = none from hnone, htrue, if_true]
      exact ih halloc
  | case4 m key hle i1 hin hnone hfalse => exact absurd (halloc m.allocations) hfalse
  | case5 m key hle => rw [ensureFrom, if_neg hle]

/-- `Next` finds the first value from a page on. -/
theorem next_spec (m : TwoLevel rootBits leafBits V) (k : Nat) :
    FirstFrom (get m) k (next m k) := by
  rw [show get m = tableGet m.root (leafBits + rootBits) leafBits from funext (get_eq m)]
  induction k using next.induct (m := m) with
  | case1 k hk i1 hnone ih =>
      have hroot : m.root (k >>> leafBits) = none := hnone
      rw [next, if_pos hk]
      simp only [hroot]
      rw [Nat.one_shiftLeft] at hk
      apply ih.skip (Nat.le_of_lt (lt_nextLeaf k leafBits))
      intro p hlo hhi
      rw [tableGet_leaf (same_leaf_in_range hk) hlo hhi, hroot, Option.bind_none]
  | case2 k hk i1 leaf hleaf i2 v hscan =>
      have hroot : m.root (k >>> leafBits) = some leaf := hleaf
      have hscan' := hscan
      simp only [i2] at hscan'
      rw [next, if_pos hk]
      simp only [hroot, hscan']
      rw [mask_eq, Nat.one_shiftLeft] at hscan'
      rw [Nat.one_shiftLeft] at hk
      refine (FirstFrom.scan ?_ hscan').1 v rfl
      intro p hlo hhi
      rw [tableGet_leaf (same_leaf_in_range hk) hlo hhi, hroot, Option.bind_some]
  | case3 k hk i1 leaf hleaf i2 hscan ih =>
      have hroot : m.root (k >>> leafBits) = some leaf := hleaf
      have hscan' := hscan
      simp only [i2] at hscan'
      rw [next, if_pos hk]
      simp only [hroot, hscan']
      rw [mask_eq, Nat.one_shiftLeft] at hscan'
      rw [Nat.one_shiftLeft] at hk
      apply ih.skip (Nat.le_of_lt (lt_nextLeaf k leafBits))
      refine (FirstFrom.scan ?_ hscan').2 rfl
      intro p hlo hhi
      rw [tableGet_leaf (same_leaf_in_range hk) hlo hhi, hroot, Option.bind_some]
  | case4 k hk =>
      rw [next, if_neg hk]
      rw [Nat.one_shiftLeft] at hk
      refine ⟨fun v h => (nomatch h), fun _ j hj => ?_⟩
      rw [tableGet, if_neg (by omega)]

instance : PageMap (TwoLevel rootBits leafBits V) V where
  get := get
  set := set
  ensure := ensure
  next := next
  preallocateMoreMemory := preallocateMoreMemory
  Ensured := Ensured
  set_spec := set_spec
  get_ensure m start n := (ensureFrom_spec m _ start).1
  ensured_mono start n h := (ensureFrom_spec _ _ start).2.1 _ h
  ensured_ensure hle hok k hlo hhi := by
    apply (ensureFrom_spec _ _ _).2.2 hok k hlo
    rw [last_eq (by omega) hle]
    omega
  get_preallocate m := (ensureFrom_spec m _ 0).1
  ensured_preallocate h := (ensureFrom_spec _ _ 0).2.1 _ h
  next_spec := next_spec

end TwoLevel

/-! ## The three-level tree -/

/-- An interior node below the root. -/
abbrev Node (V : Type) := Nat → Option (Leaf V)

/-- `TCMalloc_PageMap3`: a root and a level of nodes of `2 ^ interiorBits` pointers each,
then the leaves. -/
structure ThreeLevel (interiorBits leafBits : Nat) (V : Type) where
  root : Nat → Option (Node V)
  allocator : Nat → Bool
  allocations : Nat

/-- `INTERIOR_BITS` is a third of the bits, rounded up. -/
abbrev PageMap3 (BITS : Nat) (V : Type) := ThreeLevel ((BITS + 2) / 3) (BITS - 2 * ((BITS + 2) / 3)) V

namespace ThreeLevel

variable {interiorBits leafBits : Nat} {V : Type}

/-- The constructor: the root is the first node allocated.  It is null if there is no memory
for it, and the map is `none`. -/
def init (allocator : Nat → Bool) : Option (ThreeLevel interiorBits leafBits V) :=
  if allocator 0 then some ⟨fun _ => none, allocator, 1⟩ else none

def get (m : ThreeLevel interiorBits leafBits V) (k : Nat) : Option V :=
  let i1 := k >>> (leafBits + interiorBits)
  let i2 := (k >>> leafBits) &&& (1 <<< interiorBits - 1)
  let i3 := k &&& (1 <<< leafBits - 1)
  if 0 < k >>> (leafBits + 2 * interiorBits) then none
  else
    match m.root i1 with
    | none => none
    | some node =>
      match node i2 with
      | none => none
      | some leaf => leaf i3

/-- `root_->ptrs[i1] = node`. -/
def putNode (m : ThreeLevel interiorBits leafBits V) (i1 : Nat) (node : Node V) :
    ThreeLevel interiorBits leafBits V :=
  { m with root := Function.update m.root i1 (some node) }

/-- One call of the allocator. -/
def tick (m : ThreeLevel interiorBits leafBits V) : ThreeLevel interiorBits leafBits V :=
  { m with allocations := m.allocations + 1 }

def set (m : ThreeLevel interiorBits leafBits V) (k : Nat) (v : Option V) :
    Option (ThreeLevel interiorBits leafBits V) :=
  let i1 := k >>> (leafBits + interiorBits)
  let i2 := (k >>> leafBits) &&& (1 <<< interiorBits - 1)
  let i3 := k &&& (1 <<< leafBits - 1)
  if k >>> (leafBits + 2 * interiorBits) = 0 then
    match m.root i1 with
    | none => none
    | some node =>
      match node i2 with
      | none => none
      | some leaf =>
        some (putNode m i1 (Function.update node i2 (some (Function.update leaf i3 v))))
  else none

/-- "Make 2nd level node if necessary". -/
def makeNode (m : ThreeLevel interiorBits leafBits V) (i1 : Nat) :
    ThreeLevel interiorBits leafBits V × Bool :=
  match m.root i1 with
  | some _ => (m, true)
  | none =>
    if m.allocator m.allocations then (putNode (tick m) i1 fun _ => none, true)
    else (tick m, false)

/-- "Make leaf node if necessary". -/
def makeLeaf (m : ThreeLevel interiorBits leafBits V) (i1 i2 : Nat) :
    ThreeLevel interiorBits leafBits V × Bool :=
  match m.root i1 with
  | none => (m, false)
  | some node =>
    match node i2 with
    | some _ => (m, true)
    | none =>
      if m.allocator m.allocations then
        (putNode (tick m) i1 (Function.update node i2 (some fun _ => none)), true)
      else (tick m, false)

/-- The loop of `Ensure` from `key` on, up to `last`. -/
def ensureFrom (m : ThreeLevel interiorBits leafBits V) (last key : Nat) :
    ThreeLevel interiorBits leafBits V × Bool :=
  if key ≤ last then
    let i1 := key >>> (leafBits + interiorBits)
    let i2 := (key >>> leafBits) &&& (1 <<< interiorBits - 1)
    if 1 <<< interiorBits ≤ i1 ∨ 1 <<< interiorBits ≤ i2 then (m, false)
    else
      let made := makeNode m i1
      if made.2 then
        let made := makeLeaf made.1 i1 i2
        if made.2 then ensureFrom made.1 last (nextLeaf key leafBits)
        else (made.1, false)
      else (made.1, false)
  else (m, true)
termination_by 2 ^ interiorBits * 2 ^ (leafBits + interiorBits) - key
decreasing_by
  have hlt := lt_nextLeaf key leafBits
  have hkey : key < 2 ^ interiorBits * 2 ^ (leafBits + interiorBits) := by
    apply (shiftRight_lt_iff key (leafBits + interiorBits) (2 ^ interiorBits)).1
    rw [Nat.one_shiftLeft] at *
    omega
  omega

/-- `start + n - 1` is computed in 64 bits. -/
def ensure (m : ThreeLevel interiorBits leafBits V) (start n : Nat) :
    ThreeLevel interiorBits leafBits V × Bool :=
  ensureFrom m ((start + n + (2 ^ 64 - 1)) % 2 ^ 64) start

def preallocateMoreMemory (m : ThreeLevel interiorBits leafBits V) :
    ThreeLevel interiorBits leafBits V := m

def next (m : ThreeLevel interiorBits leafBits V) (k : Nat) : Option V :=
  if k < 1 <<< (leafBits + 2 * interiorBits) then
    let i1 := k >>> (leafBits + interiorBits)
    let i2 := (k >>> leafBits) &&& (1 <<< interiorBits - 1)
    match m.root i1 with
    | none => next m (nextLeaf k (leafBits + interiorBits))
    | some node =>
      match node i2 with
      | none => next m (nextLeaf k leafBits)
      | some leaf =>
        let i3 := k &&& (1 <<< leafBits - 1)
        match scanLeaf leaf (1 <<< leafBits - i3) i3 with
        | some v => some v
        | none => next m (nextLeaf k leafBits)
  else none
termination_by 1 <<< (leafBits + 2 * interiorBits) - k
decreasing_by
  · have hlt := lt_nextLeaf k (leafBits + interiorBits)
    omega
  · have hlt := lt_nextLeaf k leafBits
    omega
  · have hlt := lt_nextLeaf k leafBits
    omega

/-- The leaves by number: the high bits select the node, the low ones the leaf in it. -/
def table (m : ThreeLevel interiorBits leafBits V) (i : Nat) : Option (Leaf V) :=
  (m.root (i >>> interiorBits)).bind fun node => node (i % 2 ^ interiorBits)

/-- The node and the leaf of the page are there. -/
def Ensured (m : ThreeLevel interiorBits leafBits V) : Nat → Prop :=
  TableEnsured (table m) (leafBits + 2 * interiorBits) leafBits

variable {m : ThreeLevel interiorBits leafBits V} {k : Nat}

/-- The leaf of a page, by the three indices the code computes. -/
theorem table_page (m : ThreeLevel interiorBits leafBits V) (k : Nat) :
    table m (k >>> leafBits) = (m.root (k >>> (leafBits + interiorBits))).bind fun node =>
      node ((k >>> leafBits) &&& (1 <<< interiorBits - 1)) := by
  rw [table, mask_eq, Nat.shiftRight_add]

theorem get_eq (m : ThreeLevel interiorBits leafBits V) (k : Nat) :
    get m k = tableGet (table m) (leafBits + 2 * interiorBits) leafBits k := by
  rw [get, tableGet, table_page, mask_eq k leafBits]
  by_cases hk : k < 2 ^ (leafBits + 2 * interiorBits)
  · have hguard : ¬ 0 < k >>> (leafBits + 2 * interiorBits) := by
      rw [shiftRight_pos_iff]
      omega
    rw [if_neg hguard, if_pos hk]
    cases m.root (k >>> (leafBits + interiorBits)) with
    | none => rfl
    | some node =>
        rw [Option.bind_some]
        simp only
        cases node ((k >>> leafBits) &&& (1 <<< interiorBits - 1)) <;> rfl
  · rw [if_pos ((shiftRight_pos_iff _ _).2 (by omega)), if_neg hk]

/-- The pages of a leaf are in range together. -/
theorem leaf_in_range :
    k >>> (leafBits + interiorBits) < 1 <<< interiorBits ↔ k < 2 ^ (leafBits + 2 * interiorBits) := by
  rw [Nat.one_shiftLeft, shiftRight_lt_iff, ← Nat.pow_add,
    show interiorBits + (leafBits + interiorBits) = leafBits + 2 * interiorBits by omega]

theorem same_leaf_in_range (hk : k < 2 ^ (leafBits + 2 * interiorBits)) (p : Nat)
    (hp : p >>> leafBits = k >>> leafBits) : p < 2 ^ (leafBits + 2 * interiorBits) := by
  apply leaf_in_range.1
  rw [Nat.shiftRight_add, hp, ← Nat.shiftRight_add]
  exact leaf_in_range.2 hk

/-- A node with one entry changed is a table with one leaf changed. -/
theorem table_putNode {node : Node V} {i : Nat} (hnode : m.root (i >>> interiorBits) = some node)
    (leaf : Option (Leaf V)) (j : Nat) :
    table (putNode m (i >>> interiorBits) (Function.update node (i % 2 ^ interiorBits) leaf)) j =
      if j = i then leaf else table m j := by
  rw [table, putNode]
  by_cases hdiv : j >>> interiorBits = i >>> interiorBits
  · by_cases hmod : j % 2 ^ interiorBits = i % 2 ^ interiorBits
    · rw [if_pos ((key_eq_iff interiorBits i j).2 ⟨hdiv, hmod⟩)]
      simp only [hdiv, hmod, Function.update_self, Option.bind_some]
    · rw [if_neg fun h => hmod ((key_eq_iff interiorBits i j).1 h).2, table, hdiv, hnode]
      simp only [Function.update_self, Option.bind_some, Function.update_of_ne hmod]
  · rw [if_neg fun h => hdiv ((key_eq_iff interiorBits i j).1 h).1, table]
    simp only [Function.update_of_ne hdiv]

theorem set_spec (v : Option V) (h : Ensured m k) : ∃ m', set m k v = some m' ∧
    (∀ k', get m' k' = if k' = k then v else get m k') ∧ ∀ k', Ensured m' k' ↔ Ensured m k' := by
  obtain ⟨hk, leaf, hleaf⟩ := h
  have hguard : k >>> (leafBits + 2 * interiorBits) = 0 := by
    rw [Nat.shiftRight_eq_div_pow]
    exact Nat.div_eq_of_lt hk
  have htable := hleaf
  rw [table, Option.bind_eq_some_iff] at htable
  obtain ⟨node, hnode, hentry⟩ := htable
  have hput := table_putNode hnode (some (Function.update leaf (k % 2 ^ leafBits) v))
  have hself := (hput (k >>> leafBits)).trans (if_pos rfl)
  have hwrite := table_write hk hleaf v hself fun i hi => (hput i).trans (if_neg hi)
  have hset : set m k v = some (putNode m (k >>> leafBits >>> interiorBits)
      (Function.update node (k >>> leafBits % 2 ^ interiorBits)
        (some (Function.update leaf (k % 2 ^ leafBits) v)))) := by
    rw [set, if_pos hguard]
    simp only [Nat.shiftRight_add, hnode, mask_eq, hentry]
  refine ⟨_, hset, ?_, ?_⟩
  · intro k'
    rw [get_eq, get_eq]
    exact (hwrite k').1
  · intro k'
    exact (hwrite k').2

/-- A fresh node holds no leaves. -/
theorem makeNode_spec (m : ThreeLevel interiorBits leafBits V) (i1 : Nat) :
    (∀ i, table (makeNode m i1).1 i = table m i) ∧
      ((makeNode m i1).2 = true → ∃ node, (makeNode m i1).1.root i1 = some node) := by
  rw [makeNode]
  cases hroot : m.root i1 with
  | some node => exact ⟨fun _ => rfl, fun _ => ⟨node, hroot⟩⟩
  | none =>
      by_cases halloc : m.allocator m.allocations = true
      · simp only [halloc, if_true]
        constructor
        · intro i
          by_cases hi : i >>> interiorBits = i1
          · simp only [table, putNode, tick, hi, Function.update_self, hroot, Option.bind_some,
              Option.bind_none]
          · simp only [table, putNode, tick, Function.update_of_ne hi]
        · intro _
          exact ⟨_, Function.update_self _ _ _⟩
      · simp only [if_neg halloc]
        exact ⟨fun _ => rfl, fun h => (nomatch h)⟩

/-- A fresh leaf holds no values and makes its pages writable. -/
theorem makeLeaf_spec (m : ThreeLevel interiorBits leafBits V) (i : Nat) :
    (∀ k, get (makeLeaf m (i >>> interiorBits) (i % 2 ^ interiorBits)).1 k = get m k) ∧
      (∀ k, Ensured m k →
        Ensured (makeLeaf m (i >>> interiorBits) (i % 2 ^ interiorBits)).1 k) ∧
      ((makeLeaf m (i >>> interiorBits) (i % 2 ^ interiorBits)).2 = true →
        ∃ leaf, table (makeLeaf m (i >>> interiorBits) (i % 2 ^ interiorBits)).1 i = some leaf) := by
  rw [makeLeaf]
  cases hroot : m.root (i >>> interiorBits) with
  | none => exact ⟨fun _ => rfl, fun _ h => h, fun h => (nomatch h)⟩
  | some node =>
      have htable : table m i = node (i % 2 ^ interiorBits) := by
        rw [table, hroot, Option.bind_some]
      cases hentry : node (i % 2 ^ interiorBits) with
      | some leaf =>
          simp only [hentry, implies_true, true_and]
          exact ⟨fun _ h => h, fun _ => ⟨leaf, htable.trans hentry⟩⟩
      | none =>
          simp only [hentry]
          by_cases halloc : m.allocator m.allocations = true
          · simp only [halloc, if_true]
            have hput := table_putNode (m := tick m) hroot (some fun _ => none)
            have hself := (hput i).trans (if_pos rfl)
            have hother := fun j (hj : j ≠ i) => (hput j).trans (if_neg hj)
            refine ⟨fun k => ?_, fun k => ?_, fun _ => ⟨_, hself⟩⟩
            · rw [get_eq, get_eq]
              exact (table_newLeaf (htable.trans hentry) hself hother k).1
            · exact (table_newLeaf (htable.trans hentry) hself hother k).2
          · rw [if_neg halloc]
            exact ⟨fun _ => rfl, fun _ h => h, fun h => (nomatch h)⟩

/-- Both nodes on the way to the leaf of `key`. -/
theorem make_spec (m : ThreeLevel interiorBits leafBits V) (key : Nat) :
    let i1 := key >>> (leafBits + interiorBits)
    let i2 := (key >>> leafBits) &&& (1 <<< interiorBits - 1)
    let made := makeLeaf (makeNode m i1).1 i1 i2
    (∀ k, get made.1 k = get m k) ∧ (∀ k, Ensured m k → Ensured made.1 k) ∧
      (made.2 = true → ∃ leaf, table made.1 (key >>> leafBits) = some leaf) := by
  have hnode := makeNode_spec m (key >>> (leafBits + interiorBits))
  have hleaf := makeLeaf_spec (makeNode m (key >>> (leafBits + interiorBits))).1 (key >>> leafBits)
  rw [← Nat.shiftRight_add] at hleaf
  simp only [mask_eq]
  refine ⟨fun k => ?_, fun k hk => ?_, hleaf.2.2⟩
  · rw [hleaf.1, get_eq, get_eq, funext hnode.1]
  · apply hleaf.2.1
    rw [Ensured, funext hnode.1]
    exact hk

/-- What the loop of `Ensure` does from `key` on. -/
theorem ensureFrom_spec (m : ThreeLevel interiorBits leafBits V) (last key : Nat) :
    (∀ k, get (ensureFrom m last key).1 k = get m k) ∧
      (∀ k, Ensured m k → Ensured (ensureFrom m last key).1 k) ∧
      ((ensureFrom m last key).2 = true →
        ∀ k, key ≤ k → k ≤ last → Ensured (ensureFrom m last key).1 k) := by
  induction m, key using ensureFrom.induct last with
  | case1 m key hle i1 i2 hout =>
      rw [ensureFrom, if_pos hle, if_pos hout]
      exact ⟨fun _ => rfl, fun _ h => h, fun h => (nomatch h)⟩
  | case2 m key hle i1 i2 hin made hmade made' hmade' ih =>
      obtain ⟨hget, hmono, hok⟩ := ih
      have hstep := make_spec m key
      rw [ensureFrom, if_pos hle, if_neg hin]
      rw [if_pos hmade, if_pos hmade']
      refine ⟨fun k => (hget k).trans (hstep.1 k), fun k hk => hmono k (hstep.2.1 k hk), ?_⟩
      intro hres k hlo hhi
      by_cases hk : k < nextLeaf key leafBits
      · apply hmono
        have hsame := shiftRight_eq_of_lt_nextLeaf hlo hk
        have hkey : key < 2 ^ (leafBits + 2 * interiorBits) := leaf_in_range.1 (by omega)
        refine ⟨same_leaf_in_range hkey k hsame, ?_⟩
        rw [hsame]
        exact hstep.2.2 hmade'
      · exact hok hres k (by omega) hhi
  | case3 m key hle i1 i2 hin made hmade made' hmade' =>
      have hstep := make_spec m key
      rw [ensureFrom, if_pos hle, if_neg hin]
      rw [if_pos hmade, if_neg hmade']
      exact ⟨hstep.1, hstep.2.1, fun h => (nomatch h)⟩
  | case4 m key hle i1 i2 hin made hmade =>
      have hnode := makeNode_spec m i1
      rw [ensureFrom, if_pos hle, if_neg hin]
      rw [if_neg hmade]
      refine ⟨fun k => ?_, fun k hk => ?_, fun h => (nomatch h)⟩
      · rw [get_eq, get_eq, funext hnode.1]
      · rw [Ensured, funext hnode.1]
        exact hk
  | case5 m key hle =>
      rw [ensureFrom, if_neg hle]
      exact ⟨fun _ => rfl, fun _ h => h, fun _ k hlo hhi => absurd (Nat.le_trans hlo hhi) hle⟩

/-- Where the allocator never fails, neither does a node. -/
theorem make_succeeds (m : ThreeLevel interiorBits leafBits V)
    (halloc : ∀ t, m.allocator t = true) (i1 i2 : Nat) :
    (makeNode m i1).2 = true ∧ (makeLeaf (makeNode m i1).1 i1 i2).2 = true ∧
      ∀ t, (makeLeaf (makeNode m i1).1 i1 i2).1.allocator t = true := by
  have hnode : (makeNode m i1).2 = true ∧ ∀ t, (makeNode m i1).1.allocator t = true := by
    rw [makeNode]
    cases m.root i1 with
    | some node => exact ⟨rfl, halloc⟩
    | none =>
        simp only [halloc, if_true]
        exact ⟨trivial, halloc⟩
  obtain ⟨node, hroot⟩ := (makeNode_spec m i1).2 hnode.1
  refine ⟨hnode.1, ?_⟩
  simp only [makeLeaf, hroot]
  cases node i2 with
  | some leaf => exact ⟨rfl, hnode.2⟩
  | none =>
      simp only [hnode.2, if_true]
      exact ⟨trivial, hnode.2⟩

/-- Where the allocator never fails, `Ensure` succeeds on every range of pages. -/
theorem ensureFrom_succeeds {last : Nat} (hlast : last < 2 ^ (leafBits + 2 * interiorBits))
    (m : ThreeLevel interiorBits leafBits V) (key : Nat) (halloc : ∀ t, m.allocator t = true) :
    (ensureFrom m last key).2 = true := by
  induction m, key using ensureFrom.induct last with
  | case1 m key hle i1 i2 hout =>
      have hi1 : i1 < 1 <<< interiorBits := leaf_in_range.2 (Nat.lt_of_le_of_lt hle hlast)
      have hi2 : i2 < 1 <<< interiorBits := by
        simp only [i2, mask_eq, Nat.one_shiftLeft]
        exact Nat.mod_lt _ (Nat.two_pow_pos interiorBits)
      omega
  | case2 m key hle i1 i2 hin made hmade made' hmade' ih =>
      rw [ensureFrom, if_pos hle, if_neg hin]
      rw [if_pos hmade, if_pos hmade']
      exact ih (make_succeeds m halloc i1 i2).2.2
  | case3 m key hle i1 i2 hin made hmade made' hmade' =>
      exact absurd (make_succeeds m halloc i1 i2).2.1 hmade'
  | case4 m key hle i1 i2 hin made hmade =>
      exact absurd (make_succeeds m halloc i1 i2).1 hmade
  | case5 m key hle => rw [ensureFrom, if_neg hle]

/-- The keys below one entry of the root share it. -/
theorem next_skip_node (hroot : m.root (k >>> (leafBits + interiorBits)) = none) {p : Nat}
    (hlo : k ≤ p) (hhi : p < nextLeaf k (leafBits + interiorBits)) :
    tableGet (table m) (leafBits + 2 * interiorBits) leafBits p = none := by
  have hsame := shiftRight_eq_of_lt_nextLeaf hlo hhi
  rw [tableGet, table_page, hsame, hroot]
  simp only [Option.bind_none, ite_self]

/-- `Next` finds the first value from a page on. -/
theorem next_spec (m : ThreeLevel interiorBits leafBits V) (k : Nat) :
    FirstFrom (get m) k (next m k) := by
  rw [show get m = tableGet (table m) (leafBits + 2 * interiorBits) leafBits
    from funext (get_eq m)]
  induction k using next.induct (m := m) with
  | case1 k hk i1 hnone ih =>
      have hroot : m.root (k >>> (leafBits + interiorBits)) = none := hnone
      rw [next, if_pos hk]
      simp only [hroot]
      apply ih.skip (Nat.le_of_lt (lt_nextLeaf k (leafBits + interiorBits)))
      exact fun p => next_skip_node hroot
  | case2 k hk i1 i2 node hnode hnone ih =>
      have hroot : m.root (k >>> (leafBits + interiorBits)) = some node := hnode
      have hleaf : node ((k >>> leafBits) &&& (1 <<< interiorBits - 1)) = none := hnone
      have htable := table_page m k
      rw [hroot, Option.bind_some, hleaf] at htable
      rw [next, if_pos hk]
      simp only [hroot, hleaf]
      rw [Nat.one_shiftLeft] at hk
      apply ih.skip (Nat.le_of_lt (lt_nextLeaf k leafBits))
      intro p hlo hhi
      rw [tableGet_leaf (same_leaf_in_range hk) hlo hhi, htable, Option.bind_none]
  | case3 k hk i1 i2 node hnode leaf hentry i3 v hscan =>
      have hroot : m.root (k >>> (leafBits + interiorBits)) = some node := hnode
      have hleaf : node ((k >>> leafBits) &&& (1 <<< interiorBits - 1)) = some leaf := hentry
      have htable := table_page m k
      rw [hroot, Option.bind_some, hleaf] at htable
      have hscan' := hscan
      simp only [i3] at hscan'
      rw [next, if_pos hk]
      simp only [hroot, hleaf, hscan']
      rw [mask_eq, Nat.one_shiftLeft] at hscan'
      rw [Nat.one_shiftLeft] at hk
      refine (FirstFrom.scan ?_ hscan').1 v rfl
      intro p hlo hhi
      rw [tableGet_leaf (same_leaf_in_range hk) hlo hhi, htable, Option.bind_some]
  | case4 k hk i1 i2 node hnode leaf hentry i3 hscan ih =>
      have hroot : m.root (k >>> (leafBits + interiorBits)) = some node := hnode
      have hleaf : node ((k >>> leafBits) &&& (1 <<< interiorBits - 1)) = some leaf := hentry
      have htable := table_page m k
      rw [hroot, Option.bind_some, hleaf] at htable
      have hscan' := hscan
      simp only [i3] at hscan'
      rw [next, if_pos hk]
      simp only [hroot, hleaf, hscan']
      rw [mask_eq, Nat.one_shiftLeft] at hscan'
      rw [Nat.one_shiftLeft] at hk
      apply ih.skip (Nat.le_of_lt (lt_nextLeaf k leafBits))
      refine (FirstFrom.scan ?_ hscan').2 rfl
      intro p hlo hhi
      rw [tableGet_leaf (same_leaf_in_range hk) hlo hhi, htable, Option.bind_some]
  | case5 k hk =>
      rw [next, if_neg hk]
      rw [Nat.one_shiftLeft] at hk
      refine ⟨fun v h => (nomatch h), fun _ j hj => ?_⟩
      rw [tableGet, if_neg (by omega)]

/-! ### Without a root

What the functions do on the way to `root_->`; behind that, a null root is a fault.
-/

def getAt (m : Option (ThreeLevel interiorBits leafBits V)) (k : Nat) : Option (Option V) :=
  if 0 < k >>> (leafBits + 2 * interiorBits) then some none else m.map fun m => get m k

def setAt (m : Option (ThreeLevel interiorBits leafBits V)) (k : Nat) (v : Option V) :
    Option (ThreeLevel interiorBits leafBits V) :=
  if k >>> (leafBits + 2 * interiorBits) = 0 then m.bind fun m => set m k v else none

def ensureAt (m : Option (ThreeLevel interiorBits leafBits V)) (start n : Nat) :
    Option (Option (ThreeLevel interiorBits leafBits V) × Bool) :=
  if start ≤ (start + n + (2 ^ 64 - 1)) % 2 ^ 64 then
    let i1 := start >>> (leafBits + interiorBits)
    let i2 := (start >>> leafBits) &&& (1 <<< interiorBits - 1)
    if 1 <<< interiorBits ≤ i1 ∨ 1 <<< interiorBits ≤ i2 then some (m, false)
    else m.map fun m => (some (ensure m start n).1, (ensure m start n).2)
  else some (m, true)

def nextAt (m : Option (ThreeLevel interiorBits leafBits V)) (k : Nat) : Option (Option V) :=
  if k < 1 <<< (leafBits + 2 * interiorBits) then m.map fun m => next m k else some none

/-- With a root, they are the functions above. -/
theorem at_some (m : ThreeLevel interiorBits leafBits V) (k : Nat) :
    getAt (some m) k = some (get m k) ∧ (∀ v, setAt (some m) k v = set m k v) ∧
      (∀ n, ensureAt (some m) k n = some (some (ensure m k n).1, (ensure m k n).2)) ∧
      nextAt (some m) k = some (next m k) := by
  refine ⟨?_, fun v => ?_, fun n => ?_, ?_⟩
  · rw [getAt]
    split
    · rename_i hout
      rw [get]
      simp only [hout, if_true]
    · rfl
  · rw [setAt]
    split
    · rfl
    · rename_i hout
      rw [set]
      simp only [hout, if_false]
  · rw [ensureAt, ensure]
    split
    · dsimp only
      split
      · rename_i hle hout
        rw [ensureFrom, if_pos hle, if_pos hout]
      · rfl
    · rename_i hle
      rw [ensureFrom, if_neg hle]
  · rw [nextAt]
    split
    · rfl
    · rename_i hk
      rw [next, if_neg hk]

/-- Without one, no page can be looked up, set, ensured or searched from. -/
theorem at_none {k : Nat} (hk : k < 2 ^ (leafBits + 2 * interiorBits)) :
    getAt (none : Option (ThreeLevel interiorBits leafBits V)) k = none ∧
      (∀ v, setAt (none : Option (ThreeLevel interiorBits leafBits V)) k v = none) ∧
      (∀ n, 0 < n → k + n ≤ 2 ^ 64 →
        ensureAt (none : Option (ThreeLevel interiorBits leafBits V)) k n = none) ∧
      nextAt (none : Option (ThreeLevel interiorBits leafBits V)) k = none := by
  have hguard : ¬ 0 < k >>> (leafBits + 2 * interiorBits) := by
    rw [shiftRight_pos_iff]
    exact Nat.not_le_of_gt hk
  refine ⟨if_neg hguard, fun v => ?_, fun n hn hle => ?_, ?_⟩
  · rw [setAt, if_pos (Nat.eq_zero_of_not_pos hguard)]
    rfl
  · have hi1 : k >>> (leafBits + interiorBits) < 1 <<< interiorBits := leaf_in_range.2 hk
    have hi2 : (k >>> leafBits) &&& (1 <<< interiorBits - 1) < 1 <<< interiorBits := by
      rw [mask_eq, Nat.one_shiftLeft]
      exact Nat.mod_lt _ (Nat.two_pow_pos interiorBits)
    rw [ensureAt, last_eq hn hle, if_pos (by omega), if_neg (by omega)]
    rfl
  · rw [nextAt, Nat.one_shiftLeft, if_pos hk]
    rfl

instance : PageMap (ThreeLevel interiorBits leafBits V) V where
  get := get
  set := set
  ensure := ensure
  next := next
  preallocateMoreMemory := preallocateMoreMemory
  Ensured := Ensured
  set_spec := set_spec
  get_ensure m start n := (ensureFrom_spec m _ start).1
  ensured_mono start n h := (ensureFrom_spec _ _ start).2.1 _ h
  ensured_ensure hle hok k hlo hhi := by
    apply (ensureFrom_spec _ _ _).2.2 hok k hlo
    rw [last_eq (by omega) hle]
    omega
  get_preallocate _ _ := rfl
  ensured_preallocate h := h
  next_spec := next_spec

end ThreeLevel

/-! ## Runs -/

section Runs

open SatAllocatorTest.Verified

variable {V : Type}

/-- What is done to a page map. -/
inductive PageMapOp (V : Type) where
  | set (k : Nat) (v : Option V)
  | ensure (start n : Nat)
  | preallocate

variable {M : Type} [PageMap M V]

/-- The map after an operation; `none` when it writes through a null pointer. -/
def mapStep (m : M) : PageMapOp V → Option M
  | .set k v => PageMap.set m k v
  | .ensure start n => some (PageMap.ensure m start n).1
  | .preallocate => some (PageMap.preallocateMoreMemory m)

/-- The values after an operation: only `set` changes one. -/
def valueStep (values : Nat → Option V) : PageMapOp V → Nat → Option V
  | .set k v => Function.update values k v
  | _ => values

/-- Only pages that an earlier `Ensure` made ready are set. -/
def SetsEnsured : (m : M) → (ready : Nat → Prop) → List (PageMapOp V) → Prop
  | _, _, [] => True
  | m, ready, .set k v :: ops =>
    ready k ∧ ∀ m', PageMap.set m k v = some m' → SetsEnsured m' ready ops
  | m, ready, .ensure start n :: ops =>
    start + n ≤ 2 ^ 64 ∧
      SetsEnsured (PageMap.ensure m start n).1
        (fun k => ready k ∨
          ((PageMap.ensure m start n).2 = true ∧ start ≤ k ∧ k < start + n)) ops
  | m, ready, .preallocate :: ops => SetsEnsured (PageMap.preallocateMoreMemory m) ready ops

/-- A page map keeps a partial map: a run that sets only ensured pages writes through no
null pointer, `get` returns what was last set, and `Next` the first value from a page on. -/
def KeepsMap (m : M) (values : Nat → Option V) (ready : Nat → Prop) : Prop :=
  ∀ ops : List (PageMapOp V), SetsEnsured m ready ops →
    ∃ m', Runs.run mapStep m ops = some m' ∧
      (∀ k, PageMap.get m' k = ops.foldl valueStep values k) ∧
      ∀ k, FirstFrom (ops.foldl valueStep values) k (PageMap.next m' k)

theorem keepsMap {m : M} {values : Nat → Option V} {ready : Nat → Prop}
    (hget : ∀ k, PageMap.get m k = values k) (hready : ∀ k, ready k → PageMap.Ensured m k) :
    KeepsMap m values ready := by
  intro ops
  induction ops generalizing m values ready with
  | nil =>
      intro _
      refine ⟨m, rfl, hget, fun k => ?_⟩
      have hnext := PageMap.next_spec m k
      rwa [show PageMap.get m = values from funext hget] at hnext
  | cons op ops ih =>
      intro hops
      cases op with
      | set k v =>
          obtain ⟨m₁, hm₁, hget₁, hens₁⟩ := PageMap.set_spec v (hready k hops.1)
          have hvalues : ∀ k', PageMap.get m₁ k' = Function.update values k v k' := by
            intro k'
            rw [hget₁, Function.update_apply, hget]
          have hrest := ih hvalues (fun k' hk' => (hens₁ k').2 (hready k' hk')) (hops.2 m₁ hm₁)
          obtain ⟨m', hrun, hspec⟩ := hrest
          refine ⟨m', ?_, hspec⟩
          rw [Runs.run, show mapStep m (.set k v) = some m₁ from hm₁]
          exact hrun
      | ensure start n =>
          have hvalues : ∀ k, PageMap.get (PageMap.ensure m start n).1 k = values k :=
            fun k => (PageMap.get_ensure m start n k).trans (hget k)
          refine ih hvalues ?_ hops.2
          rintro k (hk | ⟨hok, hlo, hhi⟩)
          · exact PageMap.ensured_mono start n (hready k hk)
          · exact PageMap.ensured_ensure hops.1 hok k hlo hhi
      | preallocate =>
          exact ih (fun k => (PageMap.get_preallocate m k).trans (hget k))
            (fun k hk => PageMap.ensured_preallocate (hready k hk)) hops

/-- Both trees keep a partial map from the empty one on, for every number of bits they can
have and whatever calls of the allocator fail, save the first in the tree of three levels:
if there is no memory for its root, its first use on a page is a fault. -/
theorem pageMaps_keepMap (V : Type) (BITS : Nat) (allocator : Nat → Bool) :
    (5 ≤ BITS → BITS ≤ 30 →
      KeepsMap (TwoLevel.init allocator : PageMap2 BITS V) (fun _ => none) (fun _ => False)) ∧
    (2 ≤ BITS → BITS ≤ 63 →
      (allocator 0 = true → ∃ m : PageMap3 BITS V, ThreeLevel.init allocator = some m ∧
        KeepsMap m (fun _ => none) (fun _ => False)) ∧
      (allocator 0 = false →
        let m : Option (PageMap3 BITS V) := ThreeLevel.init allocator
        ∀ k < 2 ^ BITS, ThreeLevel.getAt m k = none ∧ (∀ v, ThreeLevel.setAt m k v = none) ∧
          (∀ n, 0 < n → k + n ≤ 2 ^ 64 → ThreeLevel.ensureAt m k n = none) ∧
          ThreeLevel.nextAt m k = none)) := by
  refine ⟨fun _ _ => ?_, fun hlow _ => ⟨fun hroot => ?_, fun hroot => ?_⟩⟩
  · apply keepsMap _ fun _ h => h.elim
    intro k
    exact (TwoLevel.get_eq _ k).trans (by simp [tableGet, TwoLevel.init])
  · refine ⟨_, if_pos hroot, keepsMap (fun k => ?_) fun _ h => h.elim⟩
    exact (ThreeLevel.get_eq _ k).trans (by simp [tableGet, ThreeLevel.table])
  · intro m k hk
    have hnone : m = none := if_neg (by rw [hroot]; exact Bool.false_ne_true)
    rw [hnone]
    apply ThreeLevel.at_none
    rwa [show BITS - 2 * ((BITS + 2) / 3) + 2 * ((BITS + 2) / 3) = BITS by omega]

/-- Pages 4 to 6 are ensured and page 5 is set, in both trees for 20 bits; and a map of three
levels without a root is asked for page 5. -/
theorem pageMaps_keepMap_set :
    (∃ m', Runs.run mapStep (TwoLevel.init (fun _ => true) : PageMap2 20 Nat)
        [.ensure 4 3, .set 5 (some 7)] = some m' ∧ PageMap.get m' 5 = some 7) ∧
    (∃ m m' : PageMap3 20 Nat, ThreeLevel.init (fun _ => true) = some m ∧
      Runs.run mapStep m [.ensure 4 3, .set 5 (some 7)] = some m' ∧
      PageMap.get m' 5 = some 7) ∧
    ThreeLevel.getAt (ThreeLevel.init (fun _ => false) : Option (PageMap3 20 Nat)) 5 = none := by
  refine ⟨?_, ?_, ?_⟩
  · have hensure : (PageMap.ensure (TwoLevel.init (fun _ => true) : PageMap2 20 Nat) 4 3).2 =
        true := TwoLevel.ensureFrom_succeeds (by decide) _ _ fun _ => rfl
    obtain ⟨m', hrun, hget, -⟩ := (pageMaps_keepMap Nat 20 fun _ => true).1 (by decide)
      (by decide) [.ensure 4 3, .set 5 (some 7)]
      ⟨by decide, Or.inr ⟨hensure, by decide, by decide⟩, fun _ _ => trivial⟩
    exact ⟨m', hrun, hget 5⟩
  · obtain ⟨m, hm, hkeeps⟩ := ((pageMaps_keepMap Nat 20 fun _ => true).2 (by decide)
      (by decide)).1 rfl
    have hensure : (PageMap.ensure m 4 3).2 = true := by
      cases hm
      exact ThreeLevel.ensureFrom_succeeds (by decide) _ _ fun _ => rfl
    obtain ⟨m', hrun, hget, -⟩ := hkeeps [.ensure 4 3, .set 5 (some 7)]
      ⟨by decide, Or.inr ⟨hensure, by decide, by decide⟩, fun _ _ => trivial⟩
    exact ⟨m, m', hm, hrun, hget 5⟩
  · exact (((pageMaps_keepMap Nat 20 fun _ => false).2 (by decide) (by decide)).2 rfl 5
      (by decide)).1

end Runs

end SatAllocatorTest.Ports.TCmalloc
