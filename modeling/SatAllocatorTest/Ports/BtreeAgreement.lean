import SatAllocatorTest.Ports.BtreeWellFormed
import SatAllocatorTest.Ports.BtreeAccess

/-!
# The two deletions, and operations that fail

`removeUpper` against `remove`: from one state, with the least key not below the one
given for the latter, both leave the same tree, node for node.

An operation that fails leaves the tree as it was.  The caller's `found` is another
matter: a failing descent takes what it meets in the slots behind the keys for separators
to try again with, and says so in `found` (`retried`).

Main results:

* `run_removeUpper_agrees` — `removeUpper` does what `remove` does;
* `run_failed_no_trace` — a failed operation leaves no trace, up to `found`.
-/

namespace SatAllocatorTest.Ports.Btree

open SatAllocatorTest.Verified.SortedKeys
open SatAllocatorTest.Verified.Refinement
open SatAllocatorTest.Ports.Btree.Tree

variable {K : Type} {c : Cfg K} {h lo : Nat}

/-! ## States with the same tree -/

/-- The two states hold one tree: the same nodes in the same places, each with the same
count, keys and children; and the same nodes have been allocated and freed. -/
structure Mem.SameTree (s₁ s₂ : Mem K) : Prop where
  root : s₁.root = s₂.root
  allocated : s₁.allocated = s₂.allocated
  freed : s₁.freed = s₂.freed
  paths : ∀ is a, PathTo s₁.heap s₁.root is a ↔ PathTo s₂.heap s₂.root is a
  nodes : ∀ is a, PathTo s₁.heap s₁.root is a → ∃ nd₁ nd₂ n,
    s₁.heap a = some nd₁ ∧ s₂.heap a = some nd₂ ∧ nd₁.n = some n ∧ nd₂.n = some n ∧
      (∀ i, i < n → ∃ k, nd₁.keys i = some k ∧ nd₂.keys i = some k) ∧
      ∀ i, i ≤ n → ∃ q, nd₁.p i = some q ∧ nd₂.p i = some q

/-- A path of a tree in one heap is one in any other heap that holds the tree. -/
theorem PathTo.transfer {heap heap' : Heap K} {is : List Nat} {b : Addr} :
    ∀ (h lo : Nat) (t : Tree K h), t.WF c lo → Rep heap t → Rep heap' t →
      PathTo heap t.ptr is b → PathTo heap' t.ptr is b := by
  intro h
  induction h generalizing is with
  | zero => exact fun _ _ _ _ _ hpath => (PathTo.not_null hpath).elim
  | succ h ih =>
      intro lo (t : Node K (Tree K h)) hwf hrep hrep' hpath
      rcases hpath.into hwf hrep with ⟨rfl, rfl⟩ | ⟨i, rest, kid, rfl, hkid, hrest⟩
      · exact .here _
      · have hmem := List.mem_of_getElem? hkid
        exact PathTo.step hwf hrep' hkid
          (ih c.min kid (hwf.2.2.2 kid hmem) (hrep.2 kid hmem) (hrep'.2 kid hmem) hrest)

/-- What two heaps that hold a tree hold at one of its nodes. -/
theorem Rep.node_eq {heap heap' : Heap K} {is : List Nat} {a : Addr} :
    ∀ (h lo : Nat) (t : Tree K h), t.WF c lo → Rep heap t → Rep heap' t →
      PathTo heap t.ptr is a → ∃ nd₁ nd₂ n, heap a = some nd₁ ∧ heap' a = some nd₂ ∧
        nd₁.n = some n ∧ nd₂.n = some n ∧
        (∀ i, i < n → ∃ k, nd₁.keys i = some k ∧ nd₂.keys i = some k) ∧
        ∀ i, i ≤ n → ∃ q, nd₁.p i = some q ∧ nd₂.p i = some q := by
  intro h
  induction h generalizing is with
  | zero => exact fun _ _ _ _ _ hpath => (PathTo.not_null hpath).elim
  | succ h ih =>
      intro lo (t : Node K (Tree K h)) hwf hrep hrep' hpath
      rcases hpath.into hwf hrep with ⟨rfl, rfl⟩ | ⟨i, rest, kid, rfl, hkid, hrest⟩
      · obtain ⟨nd₁, ha₁, hn₁, hk₁, hp₁⟩ := hrep.1
        obtain ⟨nd₂, ha₂, hn₂, hk₂, hp₂⟩ := hrep'.1
        have hkids : t.kids.length = t.keys.length + 1 := hwf.2.2.1
        refine ⟨nd₁, nd₂, t.keys.length, ha₁, ha₂, hn₁, hn₂, fun i hi => ?_, fun i hi => ?_⟩
        · have hget : t.keys[i]? = some t.keys[i] := List.getElem?_eq_getElem hi
          exact ⟨t.keys[i], hk₁ i _ hget, hk₂ i _ hget⟩
        · have hlt : i < t.kids.length := by omega
          have hget : (t.kids.map Tree.ptr)[i]? = some t.kids[i].ptr := by
            rw [List.getElem?_map, List.getElem?_eq_getElem hlt]
            rfl
          exact ⟨t.kids[i].ptr, hp₁ i _ hget, hp₂ i _ hget⟩
      · have hmem := List.mem_of_getElem? hkid
        exact ih c.min kid (hwf.2.2.2 kid hmem) (hrep.2 kid hmem) (hrep'.2 kid hmem) hrest

section

variable [LinearOrder K] {s s₁ s₂ : Mem K} {t : Tree K h}

/-- States that store one tree, and have freed the same. -/
theorem Stores.sameTree (h₁ : Stores c s₁ t) (h₂ : Stores c s₂ t)
    (hallocated : s₁.allocated = s₂.allocated) (hfreed : s₁.freed = s₂.freed) :
    s₁.SameTree s₂ where
  root := h₁.root.trans h₂.root.symm
  allocated := hallocated
  freed := hfreed
  paths := by
    intro is a
    rw [h₁.root, h₂.root]
    exact ⟨PathTo.transfer h 1 t h₁.wf h₁.rep h₂.rep, PathTo.transfer h 1 t h₁.wf h₂.rep h₁.rep⟩
  nodes := by
    intro is a hpath
    exact Rep.node_eq h 1 t h₁.wf h₁.rep h₂.rep (h₁.root ▸ hpath)

/-! ## `removeUpper` and `remove` -/

/-- With the least key not below the one given, `remove` leaves the same tree. -/
theorem removeUpper_agrees (hs : Stores c s t) {key u : K} (hu : LeastAbove key u t.toList)
    (found : K) : ∃ s₁ s₂, removeUpper c key found s = .ok ((true, u), s₁) ∧
      remove c u s = .ok (true, s₂) ∧ s₁.SameTree s₂ := by
  obtain ⟨h', t', freed, -, hfinish⟩ := finishRemove_ok hs u
  obtain ⟨fs, s₁, hran₁, -, hrun₁⟩ := removeUpper_del hs hu found
  obtain ⟨s₂, hran₂, hrun₂⟩ := remove_del hs u
  obtain ⟨s₁', hfin₁, hleaves₁, -⟩ := hfinish _ _ s₁ hran₁
  obtain ⟨s₂', hfin₂, hleaves₂, -⟩ := hfinish _ _ s₂ hran₂
  rw [decide_eq_true hu.mem] at hfin₁ hfin₂
  exact ⟨s₁', s₂', hrun₁ hfin₁, hrun₂.trans hfin₂, hleaves₁.stores.sameTree hleaves₂.stores
    (hleaves₁.allocated.trans hleaves₂.allocated.symm) (hleaves₁.freed.trans hleaves₂.freed.symm)⟩

/-! ## Operations that fail -/

/-- `insert` of a key that is there. -/
theorem insert_present (hs : Stores c s t) {key : K} (hkey : key ∈ t.toList) :
    ∃ s', insert c key s = .ok (false, s') ∧ s'.SameTree s := by
  have hs₀ := hs.congr (s.time + 1) s.faults
  obtain ⟨s₁, new, hran, -, -⟩ := ins_ok (c := c) key h 1 (s.allocated.length + 1) t
    { s with time := s.time + 1 } hs.wf hs.rep hs.addrs_nodup hs.mem_allocated hs.nodup hs.fuel
  have hadds := insT_adds (c := c) key h 1 t s.allocated hs.wf hs.sorted
  generalize (insT c h t key s.allocated).1 = out at hran hadds
  cases hran with
  | dup hrun =>
      refine ⟨_, ?_, hs₀.sameTree hs rfl rfl⟩
      rw [← hs.root] at hrun
      rw [insert, start_ok, bind_ok hrun]
      rfl
  | @done t' s' hrun hrep =>
      have hins : Inserts key t.toList t'.toList := hadds
      exact absurd hkey hins.not_mem
  | @split l r up s' hrun hl hr =>
      have hins : Inserts key t.toList (l.toList ++ up :: r.toList) := hadds
      exact absurd hkey hins.not_mem

/-- `remove` of a key that is not there. -/
theorem remove_absent (hs : Stores c s t) {key : K} (hkey : key ∉ t.toList) :
    ∃ s', remove c key s = .ok (false, s') ∧ s'.SameTree s := by
  obtain ⟨s₁, hran, hrun⟩ := remove_del hs key
  rcases delT_takes (c := c) key h 1 t (Nat.le_refl _) hs.wf hs.sorted with
    ⟨hfail, -, htree, hfreed⟩ | ⟨-, hdel⟩
  · have hroot : s₁.root = t.ptr := hran.changed.root.trans hs.root
    have hrep : Rep s₁.heap t := htree ▸ hran.rep
    have hallocated : s₁.allocated = s.allocated := hran.changed.allocated
    have hfreed' : s₁.freed = s.freed := by
      rw [hran.changed.freed, hfreed]
      rfl
    have hs₁ : Stores c s₁ t := ⟨hroot, hrep, hs.wf, hs.sorted,
      hfreed'.symm ▸ hallocated.symm ▸ hs.accounted, hallocated.symm ▸ hs.nodup⟩
    refine ⟨s₁, ?_, hs₁.sameTree hs hallocated hfreed'⟩
    rw [hrun, hfail]
    rfl
  · exact absurd hdel.mem hkey

/-- What the second attempts leave in `fkey`: what was there, if they meet no larger key,
and otherwise the largest they meet. -/
theorem retried_cases : ∀ (vs : List K) (key fkey : K),
    (retried key fkey vs = fkey ∧ ∀ v ∈ vs, v ≤ key) ∨
      (key < retried key fkey vs ∧ retried key fkey vs ∈ vs ∧
        ∀ v ∈ vs, v ≤ retried key fkey vs) := by
  intro vs
  induction vs with
  | nil => exact fun key fkey => .inl ⟨rfl, fun v hv => absurd hv List.not_mem_nil⟩
  | cons v vs ih =>
      intro key fkey
      by_cases hlt : key < v
      · rw [retried, if_pos hlt]
        refine .inr ?_
        rcases ih v v with ⟨heq, hle⟩ | ⟨hlt', hmem, hle⟩
        · rw [heq]
          refine ⟨hlt, List.mem_cons_self .., fun w hw => ?_⟩
          rcases List.mem_cons.1 hw with rfl | hw
          · exact le_refl _
          · exact hle w hw
        · refine ⟨lt_trans hlt hlt', List.mem_cons_of_mem _ hmem, fun w hw => ?_⟩
          rcases List.mem_cons.1 hw with rfl | hw
          · exact hlt'.le
          · exact hle w hw
      · rw [retried, if_neg hlt]
        rcases ih key fkey with ⟨heq, hle⟩ | ⟨hlt', hmem, hle⟩
        · refine .inl ⟨heq, fun w hw => ?_⟩
          rcases List.mem_cons.1 hw with rfl | hw
          · exact not_lt.1 hlt
          · exact hle w hw
        · refine .inr ⟨hlt', List.mem_cons_of_mem _ hmem, fun w hw => ?_⟩
          rcases List.mem_cons.1 hw with rfl | hw
          · exact (not_lt.1 hlt).trans hlt'.le
          · exact hle w hw

/-- The slots met leave `found` alone: none holds a larger key than the one given, or
`found` is the largest of them already. -/
def KeepsFound (key found : K) (vs : List K) : Prop :=
  (∀ v ∈ vs, v ≤ key) ∨ key < found ∧ found ∈ vs ∧ ∀ v ∈ vs, v ≤ found

theorem retried_eq_iff (key found : K) (vs : List K) :
    retried key found vs = found ↔ KeepsFound key found vs := by
  rcases retried_cases vs key found with ⟨heq, hle⟩ | ⟨hlt, hmem, hle⟩
  · exact iff_of_true heq (.inl hle)
  · constructor
    · intro heq
      rw [heq] at hlt hmem hle
      exact .inr ⟨hlt, hmem, hle⟩
    · rintro (hle' | ⟨-, hmem', hle'⟩)
      · exact absurd (hle' _ hmem) (not_le.2 hlt)
      · exact le_antisymm (hle' _ hmem) (hle _ hmem')

/-! ## After every run -/

/-- The keys of the tree, in order. -/
def Mem.Keys (s : Mem K) (keys : List K) : Prop :=
  inorder s.heap (s.allocated.length + 1) s.root = some keys

omit [LinearOrder K] in
theorem Mem.Keys.unique {keys keys' : List K} (h : s.Keys keys) (h' : s.Keys keys') :
    keys = keys' := Option.some.inj (h.symm.trans h')

/-- Every run ends in a state that stores a tree. -/
theorem run_stores (c : Cfg K) (ops : List (Op K)) :
    ∃ rs s h, ∃ t : Tree K h, run c ops Mem.empty = .ok (rs, s) ∧ Stores c s t ∧
      s.Keys t.toList := by
  obtain ⟨rs, s, hrun, ⟨h, t, hs, -⟩, -⟩ := run_ok c ops
  refine ⟨rs, s, h, t, hrun, hs, ?_⟩
  rw [Mem.Keys, hs.root]
  exact inorder_ok h 1 _ t hs.wf hs.rep hs.fuel

/-- After every run, `removeUpper` finds the least key not below the one given, and
leaves the tree `remove` would leave; where there is none, it leaves the tree it found. -/
theorem run_removeUpper_agrees (c : Cfg K) (ops : List (Op K)) :
    ∃ rs s keys, run c ops Mem.empty = .ok (rs, s) ∧ s.Keys keys ∧ ∀ key found,
      (∀ u, LeastAbove key u keys → ∃ s₁ s₂, removeUpper c key found s = .ok ((true, u), s₁) ∧
        remove c u s = .ok (true, s₂) ∧ s₁.SameTree s₂) ∧
      ((∀ x ∈ keys, x < key) → ∃ found' s', removeUpper c key found s = .ok ((false, found'), s') ∧
        s'.SameTree s) := by
  obtain ⟨rs, s, h, t, hrun, hs, hkeys⟩ := run_stores c ops
  refine ⟨rs, s, t.toList, hrun, hkeys, fun key found => ⟨fun u hu => ?_, fun hbelow => ?_⟩⟩
  · exact removeUpper_agrees hs hu found
  · obtain ⟨fs, hfails, -⟩ := removeUpper_fails hs hbelow found
    exact ⟨_, _, hfails, (hs.congr (s.time + 1) (fs ++ s.faults)).sameTree hs rfl rfl⟩

/-- After every run, an operation that finds nothing to do returns `false` and leaves the
tree alone; and `removeUpper` leaves `found` alone exactly when the slots it meets do. -/
theorem run_failed_no_trace (c : Cfg K) (ops : List (Op K)) :
    ∃ rs s keys, run c ops Mem.empty = .ok (rs, s) ∧ s.Keys keys ∧ ∀ key,
      (key ∈ keys → ∃ s', insert c key s = .ok (false, s') ∧ s'.SameTree s) ∧
      (key ∉ keys → ∃ s', remove c key s = .ok (false, s') ∧ s'.SameTree s) ∧
      ((∀ x ∈ keys, x < key) → ∀ found, ∃ found' s',
        removeUpper c key found s = .ok ((false, found'), s') ∧ s'.SameTree s ∧
        (found' = found ↔ KeepsFound key found
          (Mem.spareKeys c { s with time := s.time + 1 } (s.allocated.length + 1) s.root))) := by
  obtain ⟨rs, s, h, t, hrun, hs, hkeys⟩ := run_stores c ops
  refine ⟨rs, s, t.toList, hrun, hkeys, fun key => ⟨insert_present hs, remove_absent hs, ?_⟩⟩
  intro hbelow found
  obtain ⟨fs, hfails, -⟩ := removeUpper_fails hs hbelow found
  exact ⟨_, _, hfails, (hs.congr (s.time + 1) (fs ++ s.faults)).sameTree hs rfl rfl,
    retried_eq_iff key found _⟩

end

/-- A tree of order `3` that held `40` in its root: the slot still does when `35` is
looked for, and `40` is what `found` becomes. -/
theorem removeUpper_writes_found :
    ¬∀ (c : Cfg Nat) (ops : List (Op Nat)) (key found : Nat),
      ∃ rs r s, run c (ops ++ [.removeUpper key found]) Mem.empty = .ok (rs ++ [r], s) ∧
        (r.value = false → r.found = some found) := by
  intro hall
  obtain ⟨rs, r, s, hrun, hfound⟩ := hall smallCfg [.insert 10, .insert 20, .insert 30, .insert 40,
    .insert 50, .remove 50, .remove 40] 35 0
  have hlast : (run smallCfg ([.insert 10, .insert 20, .insert 30, .insert 40, .insert 50,
      .remove 50, .remove 40] ++ [.removeUpper 35 0]) Mem.empty).toOption.bind
      (fun out => out.1.getLast?.map fun r => (r.value, r.found)) = some (false, some 40) := by
    decide +kernel
  rw [hrun] at hlast
  obtain ⟨hvalue, hkey⟩ : r.value = false ∧ r.found = some 40 := by
    simpa [Except.toOption] using hlast
  rw [hfound hvalue] at hkey
  cases hkey

end SatAllocatorTest.Ports.Btree
