import SatAllocatorTest.Ports.BtreeInsert
import SatAllocatorTest.Ports.BtreeUpper

/-!
# The public operations

`Stores` is the invariant of a `Btree` object between two calls: its root points
to a tree that is in the heap, satisfies the occupancy bounds, is sorted, and whose
nodes are exactly those allocated and not freed.  Each public operation keeps it,
without stopping at an invalid access, and does to the keys what it says.

Main results: `insert_ok`, `remove_ok`, `removeUpper_ok`, `contains_ok`.
-/

namespace SatAllocatorTest.Ports.Btree

open SatAllocatorTest.Verified.Slots
open SatAllocatorTest.Verified.Refinement
open SatAllocatorTest.Verified.Positions
open SatAllocatorTest.Verified.SortedKeys
open SatAllocatorTest.Verified.Interleave
open SatAllocatorTest.Ports.Btree.Tree

variable {K : Type} [LinearOrder K] {c : Cfg K} {h : Nat}

/-- The state holds the tree `t`. -/
structure Stores (c : Cfg K) (s : Mem K) (t : Tree K h) : Prop where
  root : s.root = t.ptr
  rep : Rep s.heap t
  wf : t.WF c 1
  sorted : Sorted t.toList
  accounted : (t.addrs ++ s.freed).Perm s.allocated
  nodup : s.allocated.Nodup

namespace Stores

variable {s : Mem K} {t : Tree K h}

theorem empty : Stores c (Mem.empty : Mem K) (show Tree K 0 from ()) :=
  ⟨rfl, trivial, trivial, List.Pairwise.nil, List.Perm.refl _, List.nodup_nil⟩

/-- The clock and the record of invalid reads do not matter. -/
theorem congr (hs : Stores c s t) (time : Nat) (faults : List Fault) :
    Stores c { s with time := time, faults := faults } t :=
  ⟨hs.root, hs.rep, hs.wf, hs.sorted, hs.accounted, hs.nodup⟩

theorem addrs_nodup (hs : Stores c s t) : t.addrs.Nodup :=
  (List.nodup_append.1 (hs.accounted.symm.nodup hs.nodup)).1

theorem mem_allocated (hs : Stores c s t) : ∀ a ∈ t.addrs, a ∈ s.allocated := fun _ ha =>
  hs.accounted.subset (List.mem_append_left _ ha)

theorem placed (hs : Stores c s t) : Placed c s 1 t :=
  ⟨Nat.le_refl _, hs.wf, hs.rep, hs.addrs_nodup,
    fun a ha => by rw [lowerBound, if_pos (ha ▸ hs.root.symm)],
    fun _ _ hne he => hne (hs.root ▸ he)⟩

end Stores

omit [LinearOrder K] in
/-- A tree has at least one node on every level. -/
theorem height_le : ∀ (h lo : Nat) (t : Tree K h), t.WF c lo → h ≤ t.addrs.length := by
  intro h
  induction h with
  | zero => exact fun _ _ _ => Nat.zero_le _
  | succ h ih =>
      intro lo (t : Node K (Tree K h)) ⟨_, _, hkids, hwf⟩
      obtain ⟨kid, rest, hk⟩ := List.exists_cons_of_length_pos (l := t.kids) (by omega)
      have := ih c.min kid (hwf kid (hk ▸ List.mem_cons_self ..))
      change h + 1 ≤ (t.addr :: t.kids.flatMap Tree.addrs).length
      rw [hk, List.flatMap_cons, List.length_cons, List.length_append]
      omega

/-- The fuel of a descent suffices. -/
theorem Stores.fuel {s : Mem K} {t : Tree K h} (hs : Stores c s t) : h < s.allocated.length + 1 := by
  have := height_le h 1 t hs.wf
  have := hs.accounted.length_eq
  rw [List.length_append] at this
  omega

/-! ## `contains` -/

theorem containsFrom_ok (key : K) : ∀ (h lo fuel : Nat) (t : Tree K h) (s : Mem K), t.WF c lo →
    Rep s.heap t → Sorted t.toList → h < fuel →
    containsFrom c fuel t.ptr key s = .ok (decide (key ∈ t.toList), s) := by
  have hM := c.three_le
  intro h
  induction h with
  | zero =>
      intro lo fuel t s _ _ _ hfuel
      obtain ⟨fuel, rfl⟩ : ∃ f, fuel = f + 1 := ⟨fuel - 1, by omega⟩
      change containsFrom c (fuel + 1) none key s = .ok (decide (key ∈ []), s)
      simp [containsFrom, pure_ok]
  | succ h ih =>
      intro lo fuel (t : Node K (Tree K h)) s ⟨_, hle, hkids, hwf⟩ hrep hsorted hfuel
      obtain ⟨fuel, rfl⟩ : ∃ f, fuel = f + 1 := ⟨fuel - 1, by omega⟩
      obtain ⟨ka, kb, ca, kid, cb, f⟩ := Focus.exists hkids (searchIdx_le key t.keys)
      obtain ⟨nd, ha, hn, hk, hpp⟩ := id hrep.1
      have hpos := searchIdx_le key t.keys
      have around := f.around hsorted
      change containsFrom c (fuel + 1) (some t.addr) key s = _
      rw [containsFrom, if_neg (Option.some_ne_none _), bind_ok (readN_ok ha hn),
        bind_ok (searchPos_ok ha hk hle key), bind_ok (foundAt_ok ha hk hle key _)]
      by_cases hfound : t.keys[searchIdx key t.keys]? = some key
      · rw [decide_eq_true hfound, if_pos rfl,
          decide_eq_true (mem_of_key hkids (List.mem_of_getElem? hfound))]
        rfl
      · have hmem : key ∈ Tree.toList (h := h + 1) t ↔ key ∈ kid.toList := by
          refine ⟨fun hmem => ?_, mem_of_kid f⟩
          rw [toList_focus f, List.mem_append, List.mem_append] at hmem
          rcases hmem with (hmem | hmem) | hmem
          · exact absurd (around.before_lt _ hmem) (lt_irrefl _)
          · exact hmem
          · exact absurd (around.lt_after hfound _ hmem) (lt_irrefl _)
        have hq : nd.p (searchIdx key t.keys) = some kid.ptr :=
          hpp _ _ (by rw [List.getElem?_map, f.kid_get]; rfl)
        rw [decide_eq_false hfound, if_neg Bool.false_ne_true, bind_ok (readP_ok ha (by omega) hq),
          ih c.min fuel kid s (hwf kid f.kid_mem) (hrep.2 kid f.kid_mem) around.sorted (by omega)]
        simp only [hmem]

omit [LinearOrder K] in
/-- A public operation begins: the clock ticks, and the fuel is read. -/
theorem start_ok {α : Type} (f : Nat → Ptr → BtM K α) (s : Mem K) :
    (do tick; let fuel ← descentFuel; let root ← readRoot; f fuel root : BtM K α) s =
      f (s.allocated.length + 1) s.root { s with time := s.time + 1 } := rfl

theorem contains_ok {s : Mem K} {t : Tree K h} (hs : Stores c s t) (key : K) :
    ∃ s', contains c key s = .ok (decide (key ∈ t.toList), s') ∧ Stores c s' t ∧
      s'.faults = s.faults := by
  have hs' := hs.congr (s.time + 1) s.faults
  refine ⟨_, ?_, hs', rfl⟩
  rw [contains, start_ok, hs.root]
  exact containsFrom_ok key h 1 _ t _ hs'.wf hs'.rep hs'.sorted hs.fuel

/-! ## `insert` -/

omit [LinearOrder K] in
/-- A new root over the two halves of the old one. -/
theorem growRoot_ok {s : Mem K} {l r : Tree K h} {up : K} (hl : Rep s.heap l) (hr : Rep s.heap r)
    (hroot : s.root = l.ptr) (hal : ∀ a ∈ l.addrs ++ r.addrs, a ∈ s.allocated) :
    ∃ s', finishInsert c (.insertIt up r.ptr) s = .ok (true, s') ∧
      s'.root = some (c.allocNode s.allocated) ∧
      Rep (h := h + 1) s'.heap
        (⟨c.allocNode s.allocated, [up], [l, r]⟩ : Node K (Tree K h)) ∧
      s'.allocated = c.allocNode s.allocated :: s.allocated ∧ s'.freed = s.freed ∧
      s'.faults = s.faults := by
  have hM := c.three_le
  set a := c.allocNode s.allocated with ha
  let s₁ : Mem K := { s with
    heap := Function.update s.heap a (some BtNode.unwritten)
    allocated := a :: s.allocated
    root := some a }
  let nd : BtNode K :=
    (((BtNode.unwritten.setN 1).setKey 0 up).setP 0 l.ptr).setP 1 r.ptr
  have h₁ : s₁.heap a = some BtNode.unwritten := Function.update_self _ _ _
  have hother : ∀ b ∈ l.addrs ++ r.addrs, (s₁.set a nd).heap b = s.heap b := fun b hb => by
    have hne : b ≠ a := fun he => c.fresh s.allocated (ha ▸ he ▸ hal b hb)
    rw [Mem.set_other hne]
    exact Function.update_of_ne hne _ _
  refine ⟨s₁.set a nd, ?_, rfl, ⟨⟨nd, Mem.set_same _ _ _, rfl, ?_, ?_⟩, ?_⟩, rfl, rfl, rfl⟩
  · rw [finishInsert, bind_ok (show readRoot s = .ok (s.root, s) from rfl),
      bind_ok (show allocNode c s = .ok (some a, { s₁ with root := s.root }) from rfl),
      bind_ok (show writeRoot (some a) { s₁ with root := s.root } = .ok ((), s₁) from rfl),
      bind_ok (writeN_ok h₁ 1), bind_ok (writeKey_ok (Mem.set_same _ _ _) (by omega) up),
      Mem.set_set, bind_ok (writeP_ok (Mem.set_same _ _ _) (by omega) _), Mem.set_set,
      bind_ok (writeP_ok (Mem.set_same _ _ _) (by omega) _), Mem.set_set, hroot]
    rfl
  · intro i x hx
    cases i with
    | zero => simpa [nd] using hx
    | succ i => simp at hx
  · intro i x hx
    match i with
    | 0 => simpa [nd] using hx
    | 1 => simpa [nd] using hx
    | i + 2 => simp at hx
  · intro x hx
    simp only [List.mem_cons, List.not_mem_nil, or_false] at hx
    rcases hx with rfl | rfl
    · exact hl.congr fun b hb => hother b (List.mem_append_left _ hb)
    · exact hr.congr fun b hb => hother b (List.mem_append_right _ hb)

theorem insert_ok {s : Mem K} {t : Tree K h} (hs : Stores c s t) (key : K) :
    ∃ s' h', ∃ t' : Tree K h', insert c key s = .ok (decide (key ∉ t.toList), s') ∧
      Stores c s' t' ∧ s'.faults = s.faults ∧
      (key ∈ t.toList ∧ t'.toList = t.toList ∨ Inserts key t.toList t'.toList) := by
  have hmin := c.min_pos
  have hM := c.three_le
  have hs₀ := hs.congr (s.time + 1) s.faults
  set s₀ : Mem K := { s with time := s.time + 1, faults := s.faults }
  obtain ⟨s₁, new, hran, hch, hout⟩ := ins_ok (c := c) key h 1 (s.allocated.length + 1) t s₀ hs.wf
    hs.rep hs.addrs_nodup hs.mem_allocated hs.nodup hs.fuel
  obtain ⟨new', hnew, hperm⟩ := insT_addrs (c := c) key h 1 t s₀.allocated hs.wf
  obtain rfl : new = new' := by
    rw [← hout, hch.allocated] at hnew
    exact List.append_cancel_right hnew
  have hadds := insT_adds (c := c) key h 1 t s₀.allocated hs.wf hs.sorted
  have hfits := insT_wf (c := c) key h 1 t s₀.allocated hmin hs.wf
  have hkeeps := insT_keeps (c := c) key h 1 t s₀.allocated hs.wf
  have hnodup : s₁.allocated.Nodup := hout ▸ insT_nodup key h 1 t s₀.allocated hs.wf hs.nodup
  have haccounted : ((insT c h t key s₀.allocated).1.addrs t ++ s₁.freed).Perm s₁.allocated := by
    rw [hch.allocated, hch.freed]
    refine (hperm.append_right _).trans ?_
    rw [List.append_assoc]
    exact hs₀.accounted.append_left new
  have hroot : s₁.root = t.ptr := hch.root.trans hs₀.root
  have hrun : insert c key s = (ins c (s.allocated.length + 1) t.ptr key >>= finishInsert c) s₀ := by
    rw [insert, start_ok, ← hs.root]
  generalize (insT c h t key s₀.allocated).1 = out at hran hperm hadds hfits hkeeps haccounted
  cases hran with
  | dup hrun₁ =>
      have hmem : key ∈ t.toList := hadds
      refine ⟨_, h, t, ?_, hs₀, rfl, .inl ⟨hmem, rfl⟩⟩
      rw [hrun, bind_ok hrun₁, decide_eq_false (not_not_intro hmem)]
      rfl
  | @done t' _ hrun₁ hrep =>
      refine ⟨s₁, h, t', ?_, ⟨hroot.trans hkeeps.symm, hrep, hfits, hadds.sorted hs.sorted,
        haccounted, hnodup⟩, hch.faults, .inr hadds⟩
      rw [hrun, bind_ok hrun₁, decide_eq_true hadds.not_mem]
      rfl
  | @split l r up _ hrun₁ hl hr =>
      obtain ⟨s₂, hrun₂, hroot₂, hrep₂, hal₂, hfreed₂, hfaults₂⟩ := growRoot_ok (c := c)
        hl hr (hroot.trans hkeeps.symm) fun a ha => haccounted.subset (List.mem_append_left _ ha)
      have hlist : Tree.toList (h := h + 1)
          (⟨c.allocNode s₁.allocated, [up], [l, r]⟩ : Node K (Tree K h)) =
            l.toList ++ up :: r.toList := rfl
      refine ⟨s₂, h + 1, (⟨c.allocNode s₁.allocated, [up], [l, r]⟩ : Node K (Tree K h)), ?_,
        ⟨hroot₂, hrep₂, ⟨Nat.le_refl _, ?_, rfl, ?_⟩, hlist ▸ hadds.sorted hs.sorted, ?_, ?_⟩,
        hfaults₂.trans hch.faults, .inr (hlist ▸ hadds)⟩
      · rw [hrun, bind_ok hrun₁, hrun₂, decide_eq_true hadds.not_mem]
      · change 1 ≤ c.M - 1
        omega
      · intro x hx
        simp only [List.mem_cons, List.not_mem_nil, or_false] at hx
        rcases hx with rfl | rfl
        · exact hfits.1
        · exact hfits.2
      · rw [hal₂, hfreed₂]
        refine List.Perm.trans (List.Perm.of_eq ?_) (haccounted.cons (c.allocNode s₁.allocated))
        change c.allocNode s₁.allocated :: [l, r].flatMap Tree.addrs ++ s₁.freed = _
        simp [Inserted.addrs]
      · rw [hal₂]
        exact List.nodup_cons.2 ⟨c.fresh _, hnodup⟩

/-! ## `remove` and `removeUpper` -/

omit [LinearOrder K] in
/-- The root is empty: its only child takes its place, and it is freed. -/
theorem collapseRoot_ok {s : Mem K} {t : Node K (Tree K h)} {x : Tree K h}
    (hroot : s.root = some t.addr) (hrep : Rep (h := h + 1) s.heap t) (hkids : t.kids = [x])
    (hnd : (Tree.addrs (h := h + 1) t).Nodup) :
    ∃ s', collapseRoot c s = .ok ((), s') ∧ s'.root = x.ptr ∧ Rep s'.heap x ∧
      s'.allocated = s.allocated ∧ s'.freed = t.addr :: s.freed ∧ s'.faults = s.faults := by
  have hM := c.three_le
  obtain ⟨⟨nd, ha, -, -, hp⟩, hrepk⟩ := hrep
  obtain ⟨hself, -, -⟩ := addrs_disjoint (show t.kids = [] ++ x :: [] from hkids) hnd
  have hq : nd.p 0 = some x.ptr := hp 0 _ (by rw [hkids]; rfl)
  let s₁ : Mem K := { s with root := x.ptr }
  refine ⟨{ s₁ with heap := Function.update s.heap t.addr none, freed := t.addr :: s.freed }, ?_,
    rfl, (hrepk x (hkids ▸ List.mem_singleton_self x)).congr fun b hb =>
      Function.update_of_ne (fun he : b = t.addr => hself (he ▸ hb)) _ _, rfl, rfl, rfl⟩
  rw [collapseRoot, bind_ok (show readRoot s = .ok (s.root, s) from rfl), hroot,
    bind_ok (readP_ok ha (by omega) hq),
    bind_ok (show writeRoot x.ptr s = .ok ((), s₁) from rfl), freeNode_ok (s := s₁) ha]

/-- The state holds `t'`, with these nodes freed since `s`. -/
structure Leaves (c : Cfg K) (s s' : Mem K) {h' : Nat} (t' : Tree K h') (freed : List Addr) :
    Prop where
  stores : Stores c s' t'
  freed : s'.freed = freed ++ s.freed
  allocated : s'.allocated = s.allocated

omit [LinearOrder K] in
/-- A node without keys has one child, and the keys are that child's. -/
theorem single_kid {tree : Node K (Tree K h)} (hkeys : tree.keys = [])
    (hkids : tree.kids.length = tree.keys.length + 1) :
    ∃ x, tree.kids = [x] ∧ Tree.toList (h := h + 1) tree = x.toList := by
  rw [hkeys] at hkids
  obtain ⟨x, hx⟩ := List.length_eq_one_iff.1 hkids
  refine ⟨x, hx, ?_⟩
  change weave (tree.kids.map Tree.toList) tree.keys = _
  rw [hx, hkeys]
  rfl

/-- What `remove` and `removeUpper` make of the status: which tree they leave, and what
they free, is decided by the tree and the key. -/
theorem finishRemove_ok {s : Mem K} {t : Tree K h} (hs : Stores c s t) (key : K) :
    ∃ h', ∃ t' : Tree K h', ∃ freed,
      (key ∉ t.toList ∧ t'.toList = t.toList ∨ Deletes key t.toList t'.toList) ∧
      ∀ time faults s₁,
        DelRan { s with time := time, faults := faults } s₁ t (delT c h 1 t key) →
        ∃ s', finishRemove c (delT c h 1 t key).status s₁ = .ok (decide (key ∈ t.toList), s') ∧
          Leaves c s s' t' freed ∧ s'.faults = faults := by
  obtain ⟨hperm, hptr⟩ := delT_addrs (c := c) key h 1 t (Nat.le_refl _) hs.wf
  have hfits := delT_fits (c := c) key h 1 t (Nat.le_refl _) hs.wf
  have htakes := delT_takes (c := c) key h 1 t (Nat.le_refl _) hs.wf hs.sorted
  generalize delT c h 1 t key = r at hperm hptr hfits htakes
  have hsorted : Sorted r.tree.toList := by
    rcases htakes with ⟨-, -, htree, -⟩ | ⟨-, hdel⟩
    · exact htree ▸ hs.sorted
    · exact hdel.sorted hs.sorted
  -- what every run with this result has in common
  have ran : ∀ {time faults s₁}, DelRan { s with time := time, faults := faults } s₁ t r →
      s₁.root = r.tree.ptr ∧ (r.tree.addrs ++ s₁.freed).Perm s₁.allocated ∧
        s₁.allocated.Nodup := by
    intro time faults s₁ hran
    refine ⟨(hran.changed.root.trans hs.root).trans hptr.symm, ?_, ?_⟩
    · rw [hran.changed.freed, hran.changed.allocated, List.nil_append, ← List.append_assoc]
      exact (hperm.append_right _).trans hs.accounted
    · rw [hran.changed.allocated]
      exact hs.nodup
  by_cases hless : r.status = .lessKeys
  · obtain ⟨hne, hdel⟩ : r.status ≠ .searchFailure ∧ Deletes key t.toList r.tree.toList := by
      rcases htakes with ⟨hfail, -⟩ | h
      · rw [hless] at hfail
        cases hfail
      · exact h
    have hshort := hfits.1 hless
    cases h with
    | zero => exact hshort.elim
    | succ h =>
        obtain ⟨hlen, hkids, hwf⟩ := hshort
        obtain ⟨status, (tree : Node K (Tree K h)), freed⟩ := r
        simp only at hless hne ran hsorted hdel hlen hkids hwf
        obtain ⟨x, hx, hlist⟩ := single_kid (List.length_eq_zero_iff.1 (Nat.succ.inj hlen)) hkids
        rw [hlist] at hdel hsorted
        refine ⟨h, x, tree.addr :: freed, .inr hdel, fun time faults s₁ hran => ?_⟩
        obtain ⟨hroot, haccounted, hnodup⟩ := ran hran
        obtain ⟨s', hrun, hroot', hrep', hal', hfreed', hfaults'⟩ := collapseRoot_ok (c := c) hroot
          hran.rep hx ((List.nodup_append.1 (haccounted.symm.nodup hnodup)).1)
        refine ⟨s', ?_, ⟨⟨hroot', hrep', (hwf x (hx ▸ List.mem_singleton_self x)).mono c.min_pos,
          hsorted, ?_, hal' ▸ hnodup⟩, ?_, hal'.trans hran.changed.allocated⟩,
          hfaults'.trans hran.changed.faults⟩
        · rw [hless, finishRemove, bind_ok hrun, decide_eq_true hdel.mem]
          rfl
        · rw [hal', hfreed']
          refine List.Perm.trans ?_ haccounted
          change (x.addrs ++ tree.addr :: s₁.freed).Perm
            (tree.addr :: tree.kids.flatMap Tree.addrs ++ s₁.freed)
          rw [hx, List.flatMap_singleton]
          exact List.perm_middle
        · rw [hfreed', hran.changed.freed]
          rfl
  · refine ⟨h, r.tree, r.freed, ?_, fun time faults s₁ hran => ?_⟩
    · rcases htakes with ⟨-, hmem, htree, -⟩ | ⟨-, hdel⟩
      · exact .inl ⟨hmem, by rw [htree]⟩
      · exact .inr hdel
    · obtain ⟨hroot, haccounted, hnodup⟩ := ran hran
      refine ⟨s₁, ?_, ⟨⟨hroot, hran.rep, hfits.2 hless, hsorted, haccounted, hnodup⟩,
        hran.changed.freed, hran.changed.allocated⟩, hran.changed.faults⟩
      rcases htakes with ⟨hfail, hmem, -⟩ | ⟨hne, hdel⟩
      · rw [hfail, decide_eq_false hmem]
        rfl
      · rw [decide_eq_true hdel.mem]
        cases hst : r.status with
        | searchFailure => exact absurd hst hne
        | lessKeys => exact absurd hst hless
        | duplicate => rfl
        | success => rfl
        | insertIt => rfl

/-- `del`, as `remove` calls it. -/
theorem remove_del {s : Mem K} {t : Tree K h} (hs : Stores c s t) (key : K) :
    ∃ s₁, DelRan { s with time := s.time + 1 } s₁ t (delT c h 1 t key) ∧
      remove c key s = finishRemove c (delT c h 1 t key).status s₁ := by
  obtain ⟨s₁, hrun, hran⟩ := del_ok (c := c) key h 1 (s.allocated.length + 1) t _
    (hs.congr (s.time + 1) s.faults).placed hs.fuel
  refine ⟨s₁, hran, ?_⟩
  rw [hs.root] at hrun
  rw [remove, start_ok, hs.root, bind_ok hrun]

theorem remove_ok {s : Mem K} {t : Tree K h} (hs : Stores c s t) (key : K) :
    ∃ s' h', ∃ t' : Tree K h', remove c key s = .ok (decide (key ∈ t.toList), s') ∧
      Stores c s' t' ∧ s'.faults = s.faults ∧
      (key ∉ t.toList ∧ t'.toList = t.toList ∨ Deletes key t.toList t'.toList) := by
  obtain ⟨s₁, hran, hrun⟩ := remove_del hs key
  obtain ⟨h', t', freed, hlist, hfinish⟩ := finishRemove_ok hs key
  obtain ⟨s', hrun₂, hleaves, hfaults⟩ := hfinish _ _ s₁ hran
  exact ⟨s', h', t', hrun.trans hrun₂, hleaves.stores, hfaults, hlist⟩

/-- The least key of a sorted list not below another one, if there is one. -/
theorem least_or_below (key : K) : ∀ l : List K,
    (∃ u, LeastAbove key u l) ∨ ∀ x ∈ l, x < key := by
  intro l
  induction l with
  | nil => exact .inr (by simp)
  | cons a l ih =>
      by_cases ha : key ≤ a
      · rcases ih with ⟨u, hmem, hle, hleast⟩ | hbelow
        · rcases le_total a u with hau | hua
          · exact .inl ⟨a, List.mem_cons_self .., ha, fun x hx hkx => by
              rcases List.mem_cons.1 hx with rfl | hx
              · exact le_refl _
              · exact le_trans hau (hleast x hx hkx)⟩
          · exact .inl ⟨u, List.mem_cons_of_mem _ hmem, hle, fun x hx hkx => by
              rcases List.mem_cons.1 hx with rfl | hx
              · exact hua
              · exact hleast x hx hkx⟩
        · exact .inl ⟨a, List.mem_cons_self .., ha, fun x hx hkx => by
            rcases List.mem_cons.1 hx with rfl | hx
            · exact le_refl _
            · exact absurd (hbelow x hx) (not_lt_of_ge hkx)⟩
      · rcases ih with ⟨u, hmem, hle, hleast⟩ | hbelow
        · exact .inl ⟨u, List.mem_cons_of_mem _ hmem, hle, fun x hx hkx => by
            rcases List.mem_cons.1 hx with rfl | hx
            · exact absurd hkx ha
            · exact hleast x hx hkx⟩
        · exact .inr fun x hx => by
            rcases List.mem_cons.1 hx with rfl | hx
            · exact lt_of_not_ge ha
            · exact hbelow x hx

/-- `delUpper`, as `removeUpper` calls it where there is a key to find. -/
theorem removeUpper_del {s : Mem K} {t : Tree K h} (hs : Stores c s t) {key u : K}
    (hu : LeastAbove key u t.toList) (found : K) :
    ∃ fs s₁, DelRan { s with time := s.time + 1, faults := fs ++ s.faults } s₁ t
        (delT c h 1 t u) ∧
      (fs = [] ↔ t.SafeUpper c s.heap key) ∧
      ∀ {b s'}, finishRemove c (delT c h 1 t u).status s₁ = .ok (b, s') →
        removeUpper c key found s = .ok ((b, u), s') := by
  obtain ⟨fs, s₁, hrun, hran, hfs⟩ := delUpper_ok h 1 (s.allocated.length + 1) t _ key found u
    (hs.congr (s.time + 1) s.faults).placed hs.sorted hu hs.fuel
  refine ⟨fs, s₁, hran, hfs, fun {b s'} hfinish => ?_⟩
  rw [hs.root] at hrun
  rw [removeUpper, start_ok, hs.root, bind_ok hrun, bind_ok hfinish]
  rfl

/-- `removeUpper` where there is no key to find. -/
theorem removeUpper_fails {s : Mem K} {t : Tree K h} (hs : Stores c s t) {key : K}
    (hbelow : ∀ x ∈ t.toList, x < key) (found : K) :
    ∃ fs, removeUpper c key found s =
        .ok ((false, retried key found
            (Mem.spareKeys c { s with time := s.time + 1 } (s.allocated.length + 1) s.root)),
          { s with time := s.time + 1, faults := fs ++ s.faults }) ∧
      (fs = [] ↔ t.SafeUpper c s.heap key) := by
  obtain ⟨fs, hrun, hfs⟩ := delUpper_fails (c := c) h 1 (s.allocated.length + 1) t
    { s with time := s.time + 1 } key found hs.wf hs.rep hbelow hs.fuel
  refine ⟨fs, ?_, hfs⟩
  rw [← hs.root] at hrun
  rw [removeUpper, start_ok, bind_ok hrun]
  rfl

/-- `removeUpper` takes out the least key not below the one given, or finds none and
leaves the tree alone.  The invalid reads it makes are those `SafeUpper` excludes. -/
theorem removeUpper_ok {s : Mem K} {t : Tree K h} (hs : Stores c s t) (key found : K) :
    ∃ s' h', ∃ t' : Tree K h', ∃ r fs, removeUpper c key found s = .ok (r, s') ∧
      Stores c s' t' ∧ s'.faults = fs ++ s.faults ∧ (fs = [] ↔ t.SafeUpper c s.heap key) ∧
      ((∃ u, LeastAbove key u t.toList ∧ r = (true, u) ∧ Deletes u t.toList t'.toList) ∨
        (∀ x ∈ t.toList, x < key) ∧ r.1 = false ∧ t'.toList = t.toList) := by
  rcases least_or_below key t.toList with ⟨u, hu⟩ | hbelow
  · obtain ⟨fs, s₁, hran, hfs, hrun⟩ := removeUpper_del hs hu found
    obtain ⟨h', t', freed, hlist, hfinish⟩ := finishRemove_ok hs u
    obtain ⟨s', hrun₂, hleaves, hfaults⟩ := hfinish _ _ s₁ hran
    have hdel : Deletes u t.toList t'.toList := by
      rcases hlist with ⟨hno, -⟩ | hdel
      · exact absurd hu.mem hno
      · exact hdel
    refine ⟨s', h', t', (true, u), fs, ?_, hleaves.stores, hfaults, hfs, .inl ⟨u, hu, rfl, hdel⟩⟩
    rw [hrun hrun₂, decide_eq_true hu.mem]
  · obtain ⟨fs, hrun, hfs⟩ := removeUpper_fails hs hbelow found
    exact ⟨_, h, t, _, fs, hrun, hs.congr (s.time + 1) (fs ++ s.faults), rfl, hfs,
      .inr ⟨hbelow, rfl, rfl⟩⟩

end SatAllocatorTest.Ports.Btree
