import Mathlib.Data.Finset.Max
import SatAllocatorTest.Ports.BtreeOps

/-!
# The B-tree as a set

What a `Btree` is for, in its own terms: a finite set of keys with four
operations.  Every run of the B-tree code from the empty tree ends, without an
invalid access that stops it, and returns what the set returns.

Main result: `run_refines_set`.
-/

namespace SatAllocatorTest.Ports.Btree

open SatAllocatorTest.Verified.Refinement
open SatAllocatorTest.Verified.SortedKeys
open SatAllocatorTest.Ports.Btree.Tree

variable {K : Type} [LinearOrder K] {c : Cfg K}

/-- The least element of `S` not below `key`. -/
def leastAbove (S : Finset K) (key : K) : Option K :=
  if hS : (S.filter (key ≤ ·)).Nonempty then some ((S.filter (key ≤ ·)).min' hS) else none

/-- The operations on a set: what becomes of it, the boolean returned, and the key
a successful `removeUpper` hands over. -/
def setStep (S : Finset K) : Op K → Finset K × Bool × Option K
  | .insert key => if key ∈ S then (S, false, none) else (Insert.insert key S, true, none)
  | .remove key => if key ∈ S then (S.erase key, true, none) else (S, false, none)
  | .removeUpper key _ =>
      match leastAbove S key with
      | some u => (S.erase u, true, some u)
      | none => (S, false, none)
  | .contains key => (S, decide (key ∈ S), none)

/-- What a caller may look at: `found` only when the call succeeded. -/
def Ret.observed (r : Ret K) : Bool × Option K :=
  (r.value, if r.value then r.found else none)

theorem leastAbove_eq_some {S : Finset K} {key u : K} (hu : u ∈ S) (hle : key ≤ u)
    (hleast : ∀ x ∈ S, key ≤ x → u ≤ x) : leastAbove S key = some u := by
  have hmem : u ∈ S.filter (key ≤ ·) := Finset.mem_filter.2 ⟨hu, hle⟩
  rw [leastAbove, dif_pos ⟨u, hmem⟩]
  congr 1
  refine le_antisymm (Finset.min'_le _ _ hmem) (Finset.le_min' _ _ _ fun x hx => ?_)
  obtain ⟨hx, hkx⟩ := Finset.mem_filter.1 hx
  exact hleast x hx hkx

theorem leastAbove_eq_none {S : Finset K} {key : K} (hbelow : ∀ x ∈ S, x < key) :
    leastAbove S key = none := by
  refine dif_neg ?_
  rintro ⟨x, hx⟩
  obtain ⟨hx, hkx⟩ := Finset.mem_filter.1 hx
  exact absurd (hbelow x hx) (not_lt_of_ge hkx)

/-- The state holds a tree with the keys of `S`. -/
def HoldsSet (c : Cfg K) (s : Mem K) (S : Finset K) : Prop :=
  ∃ h, ∃ t : Tree K h, Stores c s t ∧ t.toList.toFinset = S

theorem holdsSet_empty : HoldsSet c (Mem.empty : Mem K) ∅ :=
  ⟨0, _, Stores.empty, rfl⟩

/-- One call: the B-tree does what the set does, and the invalid reads are those
`SafeUpper` excludes. -/
theorem exec_ok {s : Mem K} {h : Nat} {t : Tree K h} (hs : Stores c s t) (op : Op K) :
    ∃ r s' h', ∃ t' : Tree K h', ∃ fs, exec c op s = .ok (r, s') ∧ Stores c s' t' ∧
      t'.toList.toFinset = (setStep t.toList.toFinset op).1 ∧
      r.observed = (setStep t.toList.toFinset op).2 ∧ s'.faults = fs ++ s.faults ∧
      (fs = [] ↔ ∀ key found, op = .removeUpper key found → t.SafeUpper c s.heap key) := by
  have trivial_safe : (∀ key found, op ≠ .removeUpper key found) →
      (([] : List Fault) = [] ↔ ∀ key found, op = .removeUpper key found →
        t.SafeUpper c s.heap key) := fun hne =>
    iff_of_true rfl fun key found he => absurd he (hne key found)
  cases op with
  | insert key =>
      obtain ⟨s', h', t', hrun, hs', hfaults, hlist⟩ := insert_ok hs key
      refine ⟨⟨decide (key ∉ t.toList), none⟩, s', h', t', [], ?_, hs', ?_, ?_, hfaults,
        trivial_safe (by simp)⟩
      · rw [exec, bind_ok hrun]
        rfl
      · rcases hlist with ⟨hmem, heq⟩ | hins
        · rw [setStep, if_pos (List.mem_toFinset.2 hmem), heq]
        · rw [setStep, if_neg fun hmem => hins.not_mem (List.mem_toFinset.1 hmem), hins.toFinset]
      · rcases hlist with ⟨hmem, -⟩ | hins
        · rw [setStep, if_pos (List.mem_toFinset.2 hmem)]
          simp [Ret.observed, hmem]
        · rw [setStep, if_neg fun hmem => hins.not_mem (List.mem_toFinset.1 hmem)]
          simp [Ret.observed, hins.not_mem]
  | remove key =>
      obtain ⟨s', h', t', hrun, hs', hfaults, hlist⟩ := remove_ok hs key
      refine ⟨⟨decide (key ∈ t.toList), none⟩, s', h', t', [], ?_, hs', ?_, ?_, hfaults,
        trivial_safe (by simp)⟩
      · rw [exec, bind_ok hrun]
        rfl
      · rcases hlist with ⟨hmem, heq⟩ | hdel
        · rw [setStep, if_neg fun h => hmem (List.mem_toFinset.1 h), heq]
        · rw [setStep, if_pos (List.mem_toFinset.2 hdel.mem), hdel.toFinset hs.sorted]
      · rcases hlist with ⟨hmem, -⟩ | hdel
        · rw [setStep, if_neg fun h => hmem (List.mem_toFinset.1 h)]
          simp [Ret.observed, hmem]
        · rw [setStep, if_pos (List.mem_toFinset.2 hdel.mem)]
          simp [Ret.observed, hdel.mem]
  | removeUpper key found =>
      obtain ⟨s', h', t', r, fs, hrun, hs', hfaults, hfs, hout⟩ := removeUpper_ok hs key found
      have hsafe : fs = [] ↔ ∀ key' found', Op.removeUpper key found = .removeUpper key' found' →
          t.SafeUpper c s.heap key' :=
        ⟨fun he key' found' hop => by cases hop; exact hfs.1 he, fun hall => hfs.2 (hall key found rfl)⟩
      refine ⟨⟨r.1, some r.2⟩, s', h', t', fs, ?_, hs', ?_, ?_, hfaults, hsafe⟩
      · rw [exec, bind_ok hrun]
        rfl
      · rcases hout with ⟨u, hu, -, hdel⟩ | ⟨hbelow, -, heq⟩
        · rw [setStep, leastAbove_eq_some (List.mem_toFinset.2 hu.mem) hu.le
            fun x hx => hu.least x (List.mem_toFinset.1 hx), hdel.toFinset hs.sorted]
        · rw [setStep, leastAbove_eq_none fun x hx => hbelow x (List.mem_toFinset.1 hx), heq]
      · rcases hout with ⟨u, hu, rfl, -⟩ | ⟨hbelow, hr, -⟩
        · rw [setStep, leastAbove_eq_some (List.mem_toFinset.2 hu.mem) hu.le
            fun x hx => hu.least x (List.mem_toFinset.1 hx)]
          rfl
        · rw [setStep, leastAbove_eq_none fun x hx => hbelow x (List.mem_toFinset.1 hx)]
          simp [Ret.observed, hr]
  | contains key =>
      obtain ⟨s', hrun, hs', hfaults⟩ := contains_ok hs key
      refine ⟨⟨decide (key ∈ t.toList), none⟩, s', h, t, [], ?_, hs', rfl, ?_, hfaults,
        trivial_safe (by simp)⟩
      · rw [exec, bind_ok hrun]
        rfl
      · simp [Ret.observed, setStep]

/-- Every run ends in a state that holds the set the specification holds, and
returns what it returns. -/
theorem run_ok (c : Cfg K) (ops : List (Op K)) : ∃ rs s, run c ops Mem.empty = .ok (rs, s) ∧
    HoldsSet c s (specRun setStep ∅ ops).1 ∧
    rs.map Ret.observed = (specRun setStep ∅ ops).2 := by
  refine runAll_refines (R := HoldsSet c) (fun s S op hR => ?_) ops Mem.empty ∅
    holdsSet_empty
  obtain ⟨h, t, hs, rfl⟩ := hR
  obtain ⟨r, s', h', t', fs, hrun, hs', hset, hobs, -⟩ := exec_ok hs op
  exact ⟨r, s', hrun, ⟨h', t', hs', hset⟩, hobs⟩

/-- Every reachable state stores a tree. -/
theorem Reachable.stores {s : Mem K} (hs : Reachable c s) : ∃ h, ∃ t : Tree K h, Stores c s t := by
  obtain ⟨ops, rs, hrun⟩ := hs
  obtain ⟨rs', s', hrun', ⟨h, t, hs', -⟩, -⟩ := run_ok c ops
  cases hrun.symm.trans hrun'
  exact ⟨h, t, hs'⟩

/-- A call on a set that returns `false` leaves it as it is. -/
theorem setStep_false (S : Finset K) (op : Op K) (hfalse : (setStep S op).2.1 = false) :
    (setStep S op).1 = S := by
  cases op with
  | insert key =>
      by_cases hmem : key ∈ S
      · simp [setStep, hmem]
      · simp [setStep, hmem] at hfalse
  | remove key =>
      by_cases hmem : key ∈ S
      · simp [setStep, hmem] at hfalse
      · simp [setStep, hmem]
  | removeUpper key found =>
      cases hu : leastAbove S key with
      | some u => simp [setStep, hu] at hfalse
      | none => simp [setStep, hu]
  | contains key => rfl

/-- The B-tree refines a finite set: for every order, every key type and whatever
the unused slots hold, a run returns what the same calls on a set return; and a
call that returns `false` leaves the set as it is. -/
theorem run_refines_set (c : Cfg K) (ops : List (Op K)) :
    (∃ rs s, run c ops Mem.empty = .ok (rs, s) ∧
      rs.map Ret.observed = (specRun setStep ∅ ops).2) ∧
    ∀ (S : Finset K) (op : Op K), (setStep S op).2.1 = false → (setStep S op).1 = S := by
  obtain ⟨rs, s, hrun, -, hobs⟩ := run_ok c ops
  exact ⟨⟨rs, s, hrun, hobs⟩, setStep_false⟩

end SatAllocatorTest.Ports.Btree
