import SatAllocatorTest.Ports.BtreeSet

/-!
# The shape of the heap after every run

The tree a state stores (`Stores`) read off the heap again, without mention of
trees: which nodes the live pointers reach and along which paths, how many keys
each holds, how deep the leaves lie, and in which order a traversal meets the keys.

Main results:

* `run_wellFormed` — the B-tree invariant holds after every run;
* `run_accounted` — the reachable nodes are those allocated and not freed, each
  reached by one path.
-/

namespace SatAllocatorTest.Ports.Btree

open SatAllocatorTest.Verified.Slots
open SatAllocatorTest.Verified.Interleave
open SatAllocatorTest.Verified.SortedKeys
open SatAllocatorTest.Ports.Btree.Tree

variable {K : Type} {c : Cfg K} {h lo : Nat} {heap : Heap K}

/-! ## Paths -/

/-- The live pointers with the indices `is` lead from `q` to the node at `b`. -/
inductive PathTo (heap : Heap K) : Ptr → List Nat → Addr → Prop
  | here (a : Addr) : PathTo heap (some a) [] a
  | child {a b : Addr} {nd : BtNode K} {n i : Nat} {q : Ptr} {is : List Nat}
      (ha : heap a = some nd) (hn : nd.n = some n) (hi : i ≤ n) (hq : nd.p i = some q)
      (hrest : PathTo heap q is b) : PathTo heap (some a) (i :: is) b

/-- A path in the heap from the root of a tree stays in the tree. -/
theorem PathTo.into {t : Node K (Tree K h)} {is : List Nat} {b : Addr} (hwf : Tree.WF (h := h + 1) c lo t)
    (hrep : Rep (h := h + 1) heap t) (hpath : PathTo heap (some t.addr) is b) :
    (is = [] ∧ b = t.addr) ∨ ∃ i rest kid, is = i :: rest ∧ t.kids[i]? = some kid ∧
      PathTo heap kid.ptr rest b := by
  obtain ⟨-, -, hkids, -⟩ := hwf
  obtain ⟨⟨nd, ha, hn, -, hp⟩, -⟩ := hrep
  cases hpath with
  | here => exact .inl ⟨rfl, rfl⟩
  | @child _ _ nd' n i q rest ha' hn' hi hq hrest =>
      cases ha.symm.trans ha'
      cases hn.symm.trans hn'
      have hget : t.kids[i]? = some t.kids[i] := List.getElem?_eq_getElem (by omega)
      have hq' : nd.p i = some t.kids[i].ptr := hp _ _ (by rw [List.getElem?_map, hget]; rfl)
      cases hq.symm.trans hq'
      exact .inr ⟨i, rest, _, rfl, hget, hrest⟩

/-- From a node to what is below one of its children. -/
theorem PathTo.step {t : Node K (Tree K h)} {i : Nat} {kid : Tree K h} {is : List Nat} {b : Addr}
    (hwf : Tree.WF (h := h + 1) c lo t) (hrep : Rep (h := h + 1) heap t)
    (hkid : t.kids[i]? = some kid) (hrest : PathTo heap kid.ptr is b) :
    PathTo heap (some t.addr) (i :: is) b := by
  obtain ⟨-, -, hkids, -⟩ := hwf
  obtain ⟨⟨nd, ha, hn, -, hp⟩, -⟩ := hrep
  have hi := (List.getElem?_eq_some_iff.1 hkid).1
  exact .child ha hn (by omega) (hp _ _ (by rw [List.getElem?_map, hkid]; rfl)) hrest

/-- No path starts at a null pointer. -/
theorem PathTo.not_null {is : List Nat} {b : Addr} : ¬PathTo heap none is b := by
  intro hpath
  cases hpath

/-- The nodes on a path are nodes of the tree, one level deeper with each step. -/
theorem PathTo.node {is : List Nat} {b : Addr} : ∀ (h lo : Nat) (t : Tree K h), t.WF c lo →
    Rep heap t → PathTo heap t.ptr is b → ∃ k, ∃ x : Node K (Tree K k), x.addr = b ∧
      h = is.length + (k + 1) ∧ Rep (h := k + 1) heap x ∧
        Tree.WF (h := k + 1) c (if is = [] then lo else c.min) x := by
  intro h
  induction h generalizing is with
  | zero => exact fun _ _ _ _ hpath => (PathTo.not_null hpath).elim
  | succ h ih =>
      intro lo (t : Node K (Tree K h)) hwf hrep hpath
      rcases hpath.into hwf hrep with ⟨rfl, rfl⟩ | ⟨i, rest, kid, rfl, hkid, hrest⟩
      · exact ⟨h, t, rfl, by simp, hrep, hwf⟩
      · have hmem := List.mem_of_getElem? hkid
        obtain ⟨k, x, hx, hk, hrepx, hwfx⟩ := ih c.min kid (hwf.2.2.2 kid hmem) (hrep.2 kid hmem) hrest
        refine ⟨k, x, hx, by rw [hk, List.length_cons]; omega, hrepx, ?_⟩
        rw [if_neg (List.cons_ne_nil _ _)]
        by_cases hr : rest = []
        · rwa [if_pos hr] at hwfx
        · rwa [if_neg hr] at hwfx

/-- The nodes of a tree are those its root leads to. -/
theorem exists_path_iff {b : Addr} : ∀ (h lo : Nat) (t : Tree K h), t.WF c lo → Rep heap t →
    ((∃ is, PathTo heap t.ptr is b) ↔ b ∈ t.addrs) := by
  intro h
  induction h with
  | zero =>
      refine fun _ _ _ _ => ⟨fun ⟨_, hpath⟩ => (PathTo.not_null hpath).elim, fun hb => ?_⟩
      cases hb
  | succ h ih =>
      intro lo (t : Node K (Tree K h)) hwf hrep
      constructor
      · rintro ⟨is, hpath⟩
        rcases hpath.into hwf hrep with ⟨-, rfl⟩ | ⟨i, rest, kid, -, hkid, hrest⟩
        · exact List.mem_cons_self ..
        · have hmem := List.mem_of_getElem? hkid
          exact List.mem_cons_of_mem _ (List.mem_flatMap.2 ⟨kid, hmem,
            (ih c.min kid (hwf.2.2.2 kid hmem) (hrep.2 kid hmem)).1 ⟨rest, hrest⟩⟩)
      · intro hb
        rcases List.mem_cons.1 hb with rfl | hb
        · exact ⟨[], .here _⟩
        · obtain ⟨kid, hmem, hb⟩ := List.mem_flatMap.1 hb
          obtain ⟨i, hi⟩ := List.getElem?_of_mem hmem
          obtain ⟨is, hpath⟩ := (ih c.min kid (hwf.2.2.2 kid hmem) (hrep.2 kid hmem)).2 hb
          exact ⟨i :: is, PathTo.step hwf hrep hi hpath⟩

/-- In a tree of distinct nodes each is reached in one way. -/
theorem path_unique {b : Addr} : ∀ (h lo : Nat) (t : Tree K h) (is is' : List Nat), t.WF c lo →
    Rep heap t → t.addrs.Nodup → PathTo heap t.ptr is b → PathTo heap t.ptr is' b → is = is' := by
  intro h
  induction h with
  | zero => exact fun _ _ _ _ _ _ _ hpath _ => (PathTo.not_null hpath).elim
  | succ h ih =>
      intro lo (t : Node K (Tree K h)) is is' hwf hrep hnd hpath hpath'
      have below : ∀ {i rest kid}, t.kids[i]? = some kid → PathTo heap kid.ptr rest b →
          b ∈ kid.addrs ∧ ∃ ka kb ca cb, Focus t i ka kb ca kid cb := by
        intro i rest kid hkid hrest
        have hmem := List.mem_of_getElem? hkid
        have hi := (List.getElem?_eq_some_iff.1 hkid).1
        refine ⟨(exists_path_iff h c.min kid (hwf.2.2.2 kid hmem) (hrep.2 kid hmem)).1
          ⟨rest, hrest⟩, ?_⟩
        obtain ⟨ka, kb, ca, kid', cb, f⟩ := Focus.exists hwf.2.2.1
          (show i ≤ t.keys.length by have := hwf.2.2.1; omega)
        cases f.kid_get.symm.trans hkid
        exact ⟨ka, kb, ca, cb, f⟩
      rcases hpath.into hwf hrep with ⟨rfl, rfl⟩ | ⟨i, rest, kid, rfl, hkid, hrest⟩
      · rcases hpath'.into hwf hrep with ⟨rfl, -⟩ | ⟨i, rest, kid, rfl, hkid, hrest⟩
        · rfl
        · obtain ⟨hb, ka, kb, ca, cb, f⟩ := below hkid hrest
          exact absurd hb (addrs_disjoint f.kids hnd).1
      · obtain ⟨hb, ka, kb, ca, cb, f⟩ := below hkid hrest
        obtain ⟨hself, hndk, hapart⟩ := addrs_disjoint f.kids hnd
        rcases hpath'.into hwf hrep with ⟨rfl, rfl⟩ | ⟨i', rest', kid', rfl, hkid', hrest'⟩
        · exact absurd hb hself
        · obtain ⟨hb', -⟩ := below hkid' hrest'
          have hi : i = i' := by
            by_contra hne
            refine (hapart kid' ?_).2 b hb' hb
            have hmem : kid' ∈ t.kids.eraseIdx i :=
              List.mem_eraseIdx_iff_getElem?.2 ⟨i', Ne.symm hne, hkid'⟩
            rwa [f.kids, ← f.lenC, SatAllocatorTest.Verified.Positions.eraseIdx_around] at hmem
          subst hi
          cases hkid.symm.trans hkid'
          rw [ih c.min kid rest rest' (hwf.2.2.2 kid f.kid_mem) (hrep.2 kid f.kid_mem) hndk hrest
            hrest']

/-- The pointers of a node are the roots of its subtrees. -/
theorem kids_ptr {k : Nat} {x : Node K (Tree K k)} {nd : BtNode K} {n i : Nat}
    (hwf : Tree.WF (h := k + 1) c lo x) (hrep : Rep (h := k + 1) heap x)
    (ha : heap x.addr = some nd) (hn : nd.n = some n) (hi : i ≤ n) :
    ∃ kid : Tree K k, nd.p i = some kid.ptr := by
  obtain ⟨⟨nd', ha', hn', -, hp⟩, -⟩ := hrep
  cases ha.symm.trans ha'
  cases hn.symm.trans hn'
  have hlt : i < x.kids.length := by
    have := hwf.2.2.1
    omega
  exact ⟨x.kids[i], hp _ _ (by rw [List.getElem?_map, List.getElem?_eq_getElem hlt]; rfl)⟩

/-! ## The keys in order -/

/-- What `displayNode` prints of a node, from child `i` on with `count` keys left;
`self` prints a child. -/
def inorderFrom (self : Ptr → Option (List K)) (nd : BtNode K) : (i count : Nat) → Option (List K)
  | i, 0 => (nd.p i).bind self
  | i, count + 1 =>
      match (nd.p i).bind self, nd.keys i, inorderFrom self nd (i + 1) count with
      | some block, some k, some rest => some (block ++ k :: rest)
      | _, _, _ => none

/-- The keys in the order in which `displayNode` meets them. -/
def inorder (heap : Heap K) : (fuel : Nat) → Ptr → Option (List K)
  | 0, _ => none
  | _ + 1, none => some []
  | fuel + 1, some a =>
      match heap a with
      | none => none
      | some nd =>
        match nd.n with
        | none => none
        | some n => inorderFrom (inorder heap fuel) nd 0 n

private theorem inorderFrom_ok {self : Ptr → Option (List K)} {nd : BtNode K}
    {keys : List K} {kids : List (Tree K h)} (hk : Holds nd.keys keys)
    (hp : Holds nd.p (kids.map Tree.ptr)) (hkids : kids.length = keys.length + 1)
    (hself : ∀ kid ∈ kids, self kid.ptr = some kid.toList) :
    ∀ count i, i + count = keys.length → inorderFrom self nd i count =
      some (weave ((kids.drop i).map Tree.toList) (keys.drop i)) := by
  intro count
  induction count with
  | zero =>
      intro i hi
      have hlt : i < kids.length := by omega
      have hq : nd.p i = some kids[i].ptr :=
        hp _ _ (by rw [List.getElem?_map, List.getElem?_eq_getElem hlt]; rfl)
      rw [inorderFrom, hq, Option.bind_some, hself _ (List.getElem_mem hlt),
        List.drop_eq_getElem_cons hlt, List.drop_eq_nil_of_le (show keys.length ≤ i by omega)]
      rfl
  | succ count ih =>
      intro i hi
      have hlt : i < kids.length := by omega
      have hlt' : i < keys.length := by omega
      have hq : nd.p i = some kids[i].ptr :=
        hp _ _ (by rw [List.getElem?_map, List.getElem?_eq_getElem hlt]; rfl)
      rw [inorderFrom, hq, Option.bind_some, hself _ (List.getElem_mem hlt), hk.get hlt',
        ih (i + 1) (by omega), List.drop_eq_getElem_cons hlt, List.drop_eq_getElem_cons hlt']
      rfl

theorem inorder_ok : ∀ (h lo fuel : Nat) (t : Tree K h), t.WF c lo → Rep heap t → h < fuel →
    inorder heap fuel t.ptr = some t.toList := by
  intro h
  induction h with
  | zero =>
      intro lo fuel t _ _ hfuel
      obtain ⟨fuel, rfl⟩ : ∃ f, fuel = f + 1 := ⟨fuel - 1, by omega⟩
      rfl
  | succ h ih =>
      intro lo fuel (t : Node K (Tree K h)) ⟨_, _, hkids, hwf⟩ ⟨⟨nd, ha, hn, hk, hp⟩, hrep⟩ hfuel
      obtain ⟨fuel, rfl⟩ : ∃ f, fuel = f + 1 := ⟨fuel - 1, by omega⟩
      change inorder heap (fuel + 1) (some t.addr) = _
      simp only [inorder, ha, hn]
      exact inorderFrom_ok hk hp hkids
        (fun kid hmem => ih c.min fuel kid (hwf kid hmem) (hrep kid hmem) (by omega)) _ 0 (by omega)

/-! ## The invariant on the heap -/

variable [LinearOrder K]

/-- The B-tree invariant, in terms of nodes and pointers. -/
structure Mem.WellFormed (c : Cfg K) (s : Mem K) : Prop where
  /-- The root holds between `1` and `M - 1` keys. -/
  root_keys : ∀ a, s.root = some a →
    ∃ nd n, s.heap a = some nd ∧ nd.n = some n ∧ 1 ≤ n ∧ n ≤ c.M - 1
  /-- Every other node holds between `(M - 1) / 2` and `M - 1` keys. -/
  node_keys : ∀ is a, is ≠ [] → PathTo s.heap s.root is a →
    ∃ nd n, s.heap a = some nd ∧ nd.n = some n ∧ (c.M - 1) / 2 ≤ n ∧ n ≤ c.M - 1
  /-- The first `n + 1` pointers of a node are all null or all not. -/
  leaf_or_inner : ∀ is a nd n, PathTo s.heap s.root is a → s.heap a = some nd → nd.n = some n →
    (∀ i, i ≤ n → nd.p i = some none) ∨ ∀ i, i ≤ n → ∃ b, nd.p i = some (some b)
  /-- All leaves are equally deep. -/
  leaf_depth : ∃ d, ∀ is a nd, PathTo s.heap s.root is a → s.heap a = some nd →
    nd.p 0 = some none → is.length = d
  /-- The keys strictly increase along a traversal. -/
  increasing : ∃ ks, inorder s.heap (s.allocated.length + 1) s.root = some ks ∧
    ks.Pairwise (· < ·)

/-- Every allocated node that was not freed is reached once, and no other. -/
structure Mem.Accounted (s : Mem K) : Prop where
  reachable : ∀ a, (∃ is, PathTo s.heap s.root is a) ↔ a ∈ s.allocated ∧ a ∉ s.freed
  unique : ∀ a is is', PathTo s.heap s.root is a → PathTo s.heap s.root is' a → is = is'
  freed_once : s.freed.Nodup
  freed_allocated : ∀ a ∈ s.freed, a ∈ s.allocated

/-! ## From the tree to the heap -/

namespace Stores

variable {s : Mem K} {t : Tree K h}

/-- A node reached from the root, and the part of the tree below it. -/
theorem reached (hs : Stores c s t) {is : List Nat} {a : Addr} (hpath : PathTo s.heap s.root is a) :
    ∃ k, ∃ x : Node K (Tree K k), x.addr = a ∧ h = is.length + (k + 1) ∧
      Rep (h := k + 1) s.heap x ∧ Tree.WF (h := k + 1) c (if is = [] then 1 else c.min) x :=
  PathTo.node h 1 t hs.wf hs.rep (hs.root ▸ hpath)

theorem wellFormed (hs : Stores c s t) : s.WellFormed c where
  root_keys := by
    intro a ha
    obtain ⟨k, x, rfl, -, ⟨⟨nd, hnd, hn, -, -⟩, -⟩, hlo, hhi, -⟩ :=
      hs.reached (ha ▸ PathTo.here a : PathTo s.heap s.root [] a)
    exact ⟨nd, _, hnd, hn, hlo, hhi⟩
  node_keys := by
    intro is a hne hpath
    obtain ⟨k, x, rfl, -, ⟨⟨nd, hnd, hn, -, -⟩, -⟩, hlo, hhi, -⟩ := hs.reached hpath
    rw [if_neg hne] at hlo
    exact ⟨nd, _, hnd, hn, hlo, hhi⟩
  leaf_or_inner := by
    intro is a nd n hpath hnd hn
    obtain ⟨k, x, rfl, -, hrep, hwf⟩ := hs.reached hpath
    cases k with
    | zero =>
        refine .inl fun i hi => ?_
        obtain ⟨_, hkid⟩ := kids_ptr hwf hrep hnd hn hi
        exact hkid
    | succ k =>
        refine .inr fun i hi => ?_
        obtain ⟨kid, hkid⟩ := kids_ptr hwf hrep hnd hn hi
        exact ⟨_, hkid⟩
  leaf_depth := by
    refine ⟨h - 1, ?_⟩
    intro is a nd hpath hnd hleaf
    obtain ⟨k, x, rfl, hk, hrep, hwf⟩ := hs.reached hpath
    cases k with
    | zero => omega
    | succ k =>
        obtain ⟨nd', hnd', hn, -⟩ := hrep.1
        cases hnd.symm.trans hnd'
        obtain ⟨kid, hkid⟩ := kids_ptr hwf hrep hnd hn (Nat.zero_le _)
        cases hleaf.symm.trans hkid
  increasing := by
    refine ⟨t.toList, ?_, hs.sorted⟩
    rw [hs.root]
    exact inorder_ok h 1 _ t hs.wf hs.rep hs.fuel

theorem isAccounted (hs : Stores c s t) : s.Accounted where
  reachable := by
    intro a
    rw [hs.root, exists_path_iff h 1 t hs.wf hs.rep, ← hs.accounted.mem_iff, List.mem_append]
    have hapart := (List.nodup_append.1 (hs.accounted.symm.nodup hs.nodup)).2.2
    constructor
    · exact fun ha => ⟨.inl ha, fun hf => hapart a ha a hf rfl⟩
    · exact fun ⟨ha, hf⟩ => ha.resolve_right hf
  unique := by
    intro a is is' hpath hpath'
    rw [hs.root] at hpath hpath'
    exact path_unique h 1 t is is' hs.wf hs.rep hs.addrs_nodup hpath hpath'
  freed_once := (List.nodup_append.1 (hs.accounted.symm.nodup hs.nodup)).2.1
  freed_allocated := fun _ ha => hs.accounted.subset (List.mem_append_right _ ha)

end Stores

/-- After every run from the empty tree, whatever its calls returned, the heap is a
B-tree: occupancy, leaves, depth and order. -/
theorem run_wellFormed (c : Cfg K) (ops : List (Op K)) :
    ∃ rs s, run c ops Mem.empty = .ok (rs, s) ∧ s.WellFormed c := by
  obtain ⟨rs, s, hrun, ⟨h, t, hs, -⟩, -⟩ := run_ok c ops
  exact ⟨rs, s, hrun, hs.wellFormed⟩

/-- After every run from the empty tree each node that was allocated and not freed is
reached from the root along one path, no other is, and none was freed twice. -/
theorem run_accounted (c : Cfg K) (ops : List (Op K)) :
    ∃ rs s, run c ops Mem.empty = .ok (rs, s) ∧ s.Accounted := by
  obtain ⟨rs, s, hrun, ⟨h, t, hs, -⟩, -⟩ := run_ok c ops
  exact ⟨rs, s, hrun, hs.isAccounted⟩

end SatAllocatorTest.Ports.Btree
