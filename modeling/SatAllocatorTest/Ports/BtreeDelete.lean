import SatAllocatorTest.Ports.BtreeShape

/-!
# The deletion on the heap

`del` does to the nodes in the heap what `delT` does to the tree they represent.
The order of the keys plays no part here: the swap with the predecessor, the two
borrowings and the merge are followed as moves of keys and pointers.  What is
needed is the occupancy (`Tree.WF`), which keeps every index inside its array, and
that the nodes are distinct.

Main results: `swapPredecessor_ok`, `rebalance_ok`, `del_ok`.
-/

namespace SatAllocatorTest.Ports.Btree

open SatAllocatorTest.Verified.Slots
open SatAllocatorTest.Verified.Refinement
open SatAllocatorTest.Verified.Positions
open SatAllocatorTest.Ports.Btree.Tree

variable {K : Type} {c : Cfg K} {h : Nat}

/-! ## The swap with the predecessor -/

/-- The walk to the rightmost leaf, and the write it is made for. -/
theorem rightmost_ok (key : K) : ∀ (h lo fuel : Nat) (t : Tree K (h + 1)) (s : Mem K), 1 ≤ lo →
    t.WF c lo → Rep s.heap t → t.addrs.Nodup → h < fuel →
    ∃ la nd n k t', rightmost c fuel t.ptr s = .ok ((some la, n + 1), s) ∧ la ∈ t.addrs ∧
      s.heap la = some nd ∧ n < c.M - 1 ∧ nd.keys n = some k ∧ swapLast h t key = some (k, t') ∧
      Rep (s.set la (nd.setKey n key)).heap t' := by
  have hM := c.three_le
  intro h
  induction h with
  | zero =>
      intro lo fuel (t : Node K (Tree K 0)) s hlo hwf hrep _ hfuel
      obtain ⟨hge, hle, hkids, -⟩ := hwf
      obtain ⟨⟨nd, ha, hn, hk, hp⟩, -⟩ := hrep
      obtain ⟨fuel, rfl⟩ : ∃ f, fuel = f + 1 := ⟨fuel - 1, by omega⟩
      obtain ⟨ks, k, hks⟩ := split_last (l := t.keys) (by omega)
      have hlen : t.keys.length = ks.length + 1 := by rw [hks]; simp
      have hlast : t.keys.getLast? = some k := by rw [hks]; simp
      have hq : nd.p t.keys.length = some none := by
        refine hp _ _ ?_
        rw [List.getElem?_map, List.getElem?_eq_getElem (by omega)]
        rfl
      refine ⟨t.addr, nd, ks.length, k,
        (⟨t.addr, t.keys.set (t.keys.length - 1) key, t.kids⟩ : Node K (Tree K 0)), ?_,
        List.mem_cons_self .., ha, by omega, ?_, ?_, ⟨⟨_, Mem.set_same _ _ _, ?_, ?_, hp⟩,
          fun _ _ => trivial⟩⟩
      · rw [hlen] at hn hq
        change rightmost c (fuel + 1) (some t.addr) s = _
        rw [rightmost, bind_ok (readN_ok ha hn), bind_ok (readP_ok ha (by omega) hq)]
        rfl
      · refine hk _ _ ?_
        rw [hks]
        exact getElem?_around ks k []
      · change Node.swapLeaf t key = _
        rw [Node.swapLeaf, hlast]
        rfl
      · simpa using hn
      · rw [hlen, Nat.add_sub_cancel]
        exact hk.update _ _
  | succ h ih =>
      intro lo fuel (t : Node K (Tree K (h + 1))) s hlo hwf hrep hnd hfuel
      obtain ⟨hge, hle, hkids, hwf⟩ := hwf
      obtain ⟨hnode, hrep⟩ := hrep
      obtain ⟨fuel, rfl⟩ : ∃ f, fuel = f + 1 := ⟨fuel - 1, by omega⟩
      obtain ⟨cs, kid, hcs⟩ := split_last (l := t.kids) (by omega)
      have hlen : cs.length = t.keys.length := by
        rw [hcs, List.length_append, List.length_singleton] at hkids
        omega
      have hget : t.kids[t.keys.length]? = some kid := by
        rw [hcs, ← hlen]
        exact getElem?_around cs kid []
      have hmem : kid ∈ t.kids := List.mem_of_getElem? hget
      obtain ⟨hself, hndk, hrest⟩ := addrs_disjoint hcs hnd
      obtain ⟨la, nd', n, k, kid', hrun, hla, hla', hn', hk', hswap, hrep'⟩ :=
        ih c.min fuel kid s c.min_pos (hwf kid hmem) (hrep kid hmem) hndk (by omega)
      have hptr : kid'.ptr = kid.ptr := by
        obtain ⟨k₂, kid₂, hk₂, hspec⟩ := swapLast_spec key h c.min kid c.min_pos (hwf kid hmem)
        cases hswap.symm.trans hk₂
        exact hspec.ptr
      have hne : t.addr ≠ la := fun he => hself (he ▸ hla)
      obtain ⟨nd, ha, hn, hk, hp⟩ := id hnode
      refine ⟨la, nd', n, k, (⟨t.addr, t.keys, cs ++ [kid']⟩ : Node K (Tree K (h + 1))), ?_,
        List.mem_cons_of_mem _ (List.mem_flatMap.2 ⟨kid, hmem, hla⟩), hla', hn', hk', ?_,
        ⟨NodeAt.kids (hnode.congr (Mem.set_other hne _)) ?_, fun x hx => ?_⟩⟩
      · have hq : nd.p t.keys.length = some kid.ptr :=
          hp _ _ (by rw [List.getElem?_map, hget]; rfl)
        change rightmost c (fuel + 1) (some t.addr) s = _
        rw [rightmost, bind_ok (readN_ok ha hn), bind_ok (readP_ok ha (by omega) hq),
          if_neg (show kid.ptr ≠ none from Option.some_ne_none _)]
        exact hrun
      · change Node.swapKid (swapLast h) t key = _
        rw [Node.swapKid, hget]
        simp only [hswap]
        rw [hcs, ← hlen, set_around]
        rfl
      · rw [hcs, List.map_append, List.map_append, List.map_singleton, List.map_singleton, hptr]
      · rcases List.mem_append.1 hx with hx | hx
        · refine (hrep x (hcs ▸ List.mem_append_left _ hx)).congr fun a ha => Mem.set_other ?_ _
          exact fun he => (hrest x (List.mem_append_left _ hx)).2 a ha (he ▸ hla)
        · rw [List.mem_singleton.1 hx]
          exact hrep'

/-- `key_arr[pos]` trades places with its predecessor. -/
theorem swapPredecessor_ok {t : Node K (Tree K (h + 1))} {lo pos fuel : Nat} {ka kb : List K}
    {ca cb : List (Tree K (h + 1))} {kid : Tree K (h + 1)} {s : Mem K} {key : K}
    (hwf : Tree.WF (h := h + 2) c lo t) (hrep : Rep (h := h + 2) s.heap t)
    (hnd : (Tree.addrs (h := h + 2) t).Nodup) (hfuel : h < fuel)
    (f : Focus t pos ka (key :: kb) ca kid cb) :
    ∃ s' k kid', swapPredecessor c fuel (some t.addr) pos key s = .ok ((), s') ∧
      swapLast h kid key = some (k, kid') ∧
      Rep (h := h + 2) s'.heap
        (⟨t.addr, ka ++ k :: kb, ca ++ kid' :: cb⟩ : Node K (Tree K (h + 1))) ∧
      Changed s s' (Tree.addrs (h := h + 2) t) [] [] := by
  have hM := c.three_le
  obtain ⟨hge, hle, hkids, hwfk⟩ := hwf
  obtain ⟨⟨nd, ha, hn, hk, hp⟩, hrepk⟩ := hrep
  have hposlt : pos < t.keys.length := by
    rw [f.keys_length, f.lenA, List.length_cons]
    omega
  obtain ⟨hself, hndk, hrest⟩ := addrs_disjoint (h := h + 1) f.kids hnd
  obtain ⟨la, nd', n, k, kid', hrun, hla, hla', hn', hk', hswap, hrep'⟩ :=
    rightmost_ok key h c.min fuel kid s c.min_pos (hwfk kid f.kid_mem) (hrepk kid f.kid_mem) hndk
      hfuel
  obtain ⟨k₂, kid₂, hk₂, hspec⟩ := swapLast_spec key h c.min kid c.min_pos (hwfk kid f.kid_mem)
  cases hswap.symm.trans hk₂
  have hne : la ≠ t.addr := fun he => hself (he ▸ hla)
  have hla₁ : (s.set t.addr (nd.setKey pos k)).heap la = some nd' :=
    (Mem.set_other hne _).trans hla'
  have hq : nd.p pos = some kid.ptr :=
    hp _ _ (by rw [List.getElem?_map, f.kid_get]; rfl)
  have hkids' : (ca ++ kid' :: cb).map Tree.ptr = t.kids.map Tree.ptr := by
    rw [f.kids, List.map_append, List.map_append, List.map_cons, List.map_cons, hspec.ptr]
  let s' := (s.set t.addr (nd.setKey pos k)).set la (nd'.setKey n key)
  refine ⟨s', k, kid', ?_, hswap, ⟨⟨nd.setKey pos k, ?_, ?_, ?_, ?_⟩, fun x hx => ?_⟩, ?_⟩
  · rw [swapPredecessor, bind_ok (readP_ok ha (by omega) hq), bind_ok hrun]
    dsimp only
    rw [bind_ok (predOf_ok _ (Nat.succ_pos n)), Nat.succ_sub_one,
      bind_ok (readKey_ok hla' hn' hk'), bind_ok (writeKey_ok ha (by omega) k),
      writeKey_ok hla₁ hn' key]
  · exact (Mem.set_other hne.symm _).trans (Mem.set_same _ _ _)
  · rw [BtNode.setKey_n, hn, f.keys, List.length_append, List.length_append]
    rfl
  · rw [← f.set_key k]
    exact hk.update _ _
  · rw [BtNode.setKey_p]
    exact hkids' ▸ hp
  · -- outside the leaf that was written the children are as before
    have hother : ∀ b, b ≠ t.addr → b ≠ la → s'.heap b = s.heap b := fun b hb hbl =>
      (Mem.set_other hbl _).trans (Mem.set_other hb _)
    rcases List.mem_append.1 hx with hx | hx
    · have hx' := List.mem_append_left cb hx
      refine (hrepk x (f.kids ▸ List.mem_append_left _ hx)).congr fun b hb => hother b ?_ ?_
      · exact fun he => (hrest x hx').1 (he ▸ hb)
      · exact fun he => (hrest x hx').2 b hb (he ▸ hla)
    rcases List.mem_cons.1 hx with rfl | hx
    · refine hrep'.congr fun b hb => ?_
      rw [hspec.addrs] at hb
      by_cases hbl : b = la
      · subst hbl
        exact (Mem.set_same _ _ _).trans (Mem.set_same _ _ _).symm
      · rw [hother b (fun he => hself (he ▸ hb)) hbl, Mem.set_other hbl]
    · have hx' := List.mem_append_right ca hx
      refine (hrepk x (f.kids ▸ List.mem_append_right _ (List.mem_cons_of_mem _ hx))).congr
        fun b hb => hother b ?_ ?_
      · exact fun he => (hrest x hx').1 (he ▸ hb)
      · exact fun he => (hrest x hx').2 b hb (he ▸ hla)
  · refine ((Changed.set s t.addr (nd.setKey pos k)).trans
      (Changed.set _ la (nd'.setKey n key)) ?_ ?_)
    · intro a ha
      rw [List.mem_singleton.1 ha]
      exact .inl (List.mem_cons_self ..)
    · intro a ha
      rw [List.mem_singleton.1 ha]
      exact .inl (List.mem_cons_of_mem _ (List.mem_flatMap.2 ⟨kid, f.kid_mem, hla⟩))

/-! ## Rebalancing -/

/-- `p[i]->n > min`, when there is a child to ask. -/
theorem hasSpare_ok (cond : Bool) (i : Nat) {t : Node K (Node K (Tree K h))} {s : Mem K}
    (hrep : Rep (h := h + 2) s.heap t) (hlen : t.kids.length ≤ c.M)
    (hi : cond = true → i < t.kids.length) :
    hasSpare c cond (some t.addr) i s = .ok (cond && t.hasSpare c.min i, s) := by
  obtain ⟨⟨nd, ha, -, -, hp⟩, hrepk⟩ := hrep
  cases cond with
  | false => rfl
  | true =>
      have hlt := hi rfl
      have hget : t.kids[i]? = some t.kids[i] := List.getElem?_eq_getElem hlt
      have hq : nd.p i = some (some t.kids[i].addr) :=
        hp _ _ (List.getElem?_map.trans (congrArg (Option.map (Tree.ptr (h := h + 1))) hget))
      obtain ⟨⟨nd', ha', hn', -, -⟩, -⟩ := hrepk t.kids[i] (List.getElem_mem hlt)
      rw [hasSpare, if_pos rfl, bind_ok (readP_ok ha (by omega) hq), bind_ok (readN_ok ha' hn'),
        Node.hasSpare, hget]
      rfl

/-- No test for a sibling succeeds when that sibling, if asked, has no key too many. -/
theorem hasSpare_false {t : Node K (Node K (Tree K h))} {cond : Prop} [Decidable cond]
    {i min : Nat} (hle : ∀ s, cond → t.kids[i]? = some s → s.keys.length ≤ min) :
    (decide cond && t.hasSpare min i) = false := by
  by_cases hcond : cond
  · unfold Node.hasSpare
    split
    · rename_i s hs
      rw [decide_eq_false (Nat.not_lt.2 (hle s hcond hs)), Bool.and_false]
    · exact Bool.and_false _
  · rw [decide_eq_false hcond, Bool.false_and]

/-- Two neighbours, their children and the rest of a node's subtree are apart. -/
theorem addrs_disjoint_two {t : Node K (Node K (Tree K h))} {ca cb : List (Node K (Tree K h))}
    {l r : Node K (Tree K h)} (hkids : t.kids = ca ++ l :: r :: cb)
    (hnd : (Tree.addrs (h := h + 2) t).Nodup) :
    t.addr ≠ l.addr ∧ t.addr ≠ r.addr ∧ l.addr ≠ r.addr ∧
      (∀ x ∈ ca ++ cb, ∀ a ∈ Tree.addrs (h := h + 1) x, a ∉ [t.addr, l.addr, r.addr]) ∧
      ∀ x ∈ l.kids ++ r.kids, ∀ a ∈ Tree.addrs x, a ∉ [t.addr, l.addr, r.addr] := by
  have hl := addrs_disjoint (h := h + 1) hkids hnd
  have hr := addrs_disjoint (h := h + 1)
    (hkids.trans (List.append_cons ca l (r :: cb))) hnd
  have self : ∀ y : Node K (Tree K h), y.addr ∈ Tree.addrs (h := h + 1) y :=
    fun y => List.mem_cons_self ..
  have below : ∀ {y : Node K (Tree K h)} {x a}, x ∈ y.kids → a ∈ Tree.addrs x →
      a ∈ Tree.addrs (h := h + 1) y :=
    fun hx ha => List.mem_cons_of_mem _ (List.mem_flatMap.2 ⟨_, hx, ha⟩)
  have own : ∀ {y : Node K (Tree K h)}, (Tree.addrs (h := h + 1) y).Nodup →
      ∀ x ∈ y.kids, ∀ a ∈ Tree.addrs x, a ≠ y.addr := fun hy x hx a ha he =>
    (List.nodup_cons.1 hy).1 (he ▸ List.mem_flatMap.2 ⟨x, hx, ha⟩)
  have hlr : ∀ a ∈ Tree.addrs (h := h + 1) l, a ∉ Tree.addrs (h := h + 1) r :=
    fun a ha => (hr.2.2 l
      (List.mem_append_left _ (List.mem_append_right _ (List.mem_singleton_self _)))).2 a ha
  have hlt : t.addr ≠ l.addr := fun he => hl.1 (he ▸ self l)
  have hrt : t.addr ≠ r.addr := fun he => hr.1 (he ▸ self r)
  refine ⟨hlt, hrt, fun he => hlr _ (self l) (he ▸ self r), fun x hx a ha => ?_, fun x hx a ha => ?_⟩
  · have hxl : x ∈ ca ++ r :: cb := by
      simp only [List.mem_append, List.mem_cons] at hx ⊢
      tauto
    have hxr : x ∈ (ca ++ [l]) ++ cb := by
      simp only [List.mem_append, List.mem_cons] at hx ⊢
      tauto
    simp only [List.mem_cons, List.not_mem_nil, or_false, not_or]
    exact ⟨fun he => (hl.2.2 x hxl).1 (he ▸ ha), fun he => (hl.2.2 x hxl).2 a ha (he ▸ self l),
      fun he => (hr.2.2 x hxr).2 a ha (he ▸ self r)⟩
  · simp only [List.mem_cons, List.not_mem_nil, or_false, not_or]
    rcases List.mem_append.1 hx with hx | hx
    · exact ⟨fun he => hl.1 (he ▸ below hx ha), own hl.2.1 x hx a ha,
        fun he => hlr a (below hx ha) (he ▸ self r)⟩
    · exact ⟨fun he => hr.1 (he ▸ below hx ha), fun he => hlr _ (self l) (he ▸ below hx ha),
        own hr.2.1 x hx a ha⟩

private theorem map_around {C : Type} (f : C → Ptr) {ca cb : List C} {x x' : C}
    (hx : f x' = f x) : (ca ++ x' :: cb).map f = (ca ++ x :: cb).map f := by
  simp [hx]

private theorem map_two {C : Type} (f : C → Ptr) {ca cb : List C} {l r l' r' : C}
    (hl : f l' = f l) (hr : f r' = f r) :
    (ca ++ l' :: r' :: cb).map f = (ca ++ l :: r :: cb).map f := by
  simp [hl, hr]

section Window

variable {t : Node K (Node K (Tree K h))} {ka kb : List K} {ca cb : List (Node K (Tree K h))}
  {k : K} {l r l' r' : Node K (Tree K h)} {s s' : Mem K}

theorem window_mem (hc : t.kids = ca ++ l :: r :: cb) : l ∈ t.kids ∧ r ∈ t.kids := by
  rw [hc]
  simp

/-- The addresses of a window lie in the node's subtree. -/
theorem window_addrs (hc : t.kids = ca ++ l :: r :: cb) :
    ∀ a ∈ [t.addr, l.addr, r.addr], a ∈ Tree.addrs (h := h + 2) t := by
  have kid : ∀ y ∈ t.kids, y.addr ∈ Tree.addrs (h := h + 2) t := fun y hy =>
    List.mem_cons_of_mem _ (List.mem_flatMap.2 ⟨y, hy, List.mem_cons_self ..⟩)
  intro a ha
  simp only [List.mem_cons, List.not_mem_nil, or_false] at ha
  rcases ha with rfl | rfl | rfl
  · exact List.mem_cons_self ..
  · exact kid l (window_mem hc).1
  · exact kid r (window_mem hc).2

theorem window_ptrs (hc : t.kids = ca ++ l :: r :: cb) (hl : l'.addr = l.addr)
    (hr : r'.addr = r.addr) : (ca ++ l' :: r' :: cb).map (Tree.ptr (h := h + 1)) =
      t.kids.map (Tree.ptr (h := h + 1)) :=
  (map_two (Tree.ptr (h := h + 1)) (congrArg some hl) (congrArg some hr)).trans
    (congrArg (List.map (Tree.ptr (h := h + 1))) hc.symm)

/-- The pointers to the two children a step is about. -/
theorem window_reads {nd : BtNode K} (hc : t.kids = ca ++ l :: r :: cb)
    (hp : Holds nd.p (t.kids.map (Tree.ptr (h := h + 1)))) :
    nd.p ca.length = some (some l.addr) ∧ nd.p (ca.length + 1) = some (some r.addr) := by
  have hl : t.kids[ca.length]? = some l := hc ▸ getElem?_around ca l _
  have hr : t.kids[ca.length + 1]? = some r := hc ▸ getElem?_after ca l r cb
  exact ⟨hp _ _ (List.getElem?_map.trans (congrArg (Option.map (Tree.ptr (h := h + 1))) hl)),
    hp _ _ (List.getElem?_map.trans (congrArg (Option.map (Tree.ptr (h := h + 1))) hr))⟩

/-- The other children, and the children of the two, are where they were. -/
theorem window_rest (hc : t.kids = ca ++ l :: r :: cb) (hrep : Rep (h := h + 2) s.heap t)
    (hnd : (Tree.addrs (h := h + 2) t).Nodup)
    (hfar : ∀ a, a ∉ [t.addr, l.addr, r.addr] → s'.heap a = s.heap a) :
    (∀ x ∈ ca ++ cb, Rep (h := h + 1) s'.heap x) ∧ ∀ x ∈ l.kids ++ r.kids, Rep s'.heap x := by
  obtain ⟨-, hrepk⟩ := hrep
  obtain ⟨-, -, -, hout, hgrand⟩ := addrs_disjoint_two hc hnd
  refine ⟨fun x hx => ?_, fun x hx => ?_⟩
  · have hmem : x ∈ t.kids := by
      rw [hc, List.mem_append, List.mem_cons, List.mem_cons]
      exact (List.mem_append.1 hx).imp id fun h => .inr (.inr h)
    exact (hrepk x hmem).congr fun a ha => hfar a (hout x hx a ha)
  · refine Rep.congr ?_ fun a ha => hfar a (hgrand x hx a ha)
    rcases List.mem_append.1 hx with hx | hx
    · exact (hrepk l (window_mem hc).1).2 x hx
    · exact (hrepk r (window_mem hc).2).2 x hx

/-- A step that changed nothing but a node, two neighbouring children and the key
between them leaves the tree with these replaced. -/
theorem window_rep {nd' : BtNode K} {k' : K} (hk : t.keys = ka ++ k :: kb)
    (hc : t.kids = ca ++ l :: r :: cb) (hlen : ka.length = ca.length)
    (hrep : Rep (h := h + 2) s.heap t) (hnd : (Tree.addrs (h := h + 2) t).Nodup)
    (hch : Changed s s' [t.addr, l.addr, r.addr] [] [])
    (ha : s'.heap t.addr = some nd') (hn : nd'.n = some t.keys.length)
    (hkeys : Holds nd'.keys (t.keys.set ca.length k'))
    (hp : Holds nd'.p (t.kids.map (Tree.ptr (h := h + 1))))
    (hl : NodeAt Tree.ptr s'.heap l') (hr : NodeAt Tree.ptr s'.heap r')
    (hmoved : l'.addr = l.addr ∧ r'.addr = r.addr ∧ l'.kids ++ r'.kids = l.kids ++ r.kids) :
    Rep (h := h + 2) s'.heap (⟨t.addr, ka ++ k' :: kb, ca ++ l' :: r' :: cb⟩ :
      Node K (Node K (Tree K h))) := by
  obtain ⟨hla, hra, hkids⟩ := hmoved
  obtain ⟨other, grand⟩ := window_rest hc hrep hnd fun a ha => hch.heap a ha List.not_mem_nil
  refine ⟨⟨nd', ha, ?_, ?_, ?_⟩, fun x hx => ?_⟩
  · rw [hn, hk]
    simp
  · rw [hk, ← hlen, set_around] at hkeys
    exact hkeys
  · rw [window_ptrs hc hla hra]
    exact hp
  · rcases List.mem_append.1 hx with hx | hx
    · exact other x (List.mem_append_left _ hx)
    rcases List.mem_cons.1 hx with rfl | hx
    · exact ⟨hl, fun y hy => grand y (hkids ▸ List.mem_append_left _ hy)⟩
    rcases List.mem_cons.1 hx with rfl | hx
    · exact ⟨hr, fun y hy => grand y (hkids ▸ List.mem_append_right _ hy)⟩
    · exact other x (List.mem_append_right _ hx)

/-- A key moves over from the left node of the window to the right one. -/
theorem borrowLeftEntry_ok (hk : t.keys = ka ++ k :: kb) (hc : t.kids = ca ++ l :: r :: cb)
    (hlen : ka.length = ca.length) (hle : t.keys.length ≤ c.M - 1)
    (hlk : l.kids.length = l.keys.length + 1) (hrk : r.kids.length = r.keys.length + 1)
    (hl0 : 0 < l.keys.length) (hlM : l.keys.length ≤ c.M - 1) (hrM : r.keys.length < c.M - 1)
    (hrep : Rep (h := h + 2) s.heap t) (hnd : (Tree.addrs (h := h + 2) t).Nodup) :
    ∃ s', borrowLeft c (some t.addr) ca.length (some l.addr) (some r.addr) s = .ok ((), s') ∧
      Rep (h := h + 2) s'.heap (⟨t.addr, ka ++ (l.borrowLeft k r).2.1 :: kb,
        ca ++ (l.borrowLeft k r).1 :: (l.borrowLeft k r).2.2 :: cb⟩ :
          Node K (Node K (Tree K h))) ∧
      Changed s s' (Tree.addrs (h := h + 2) t) [] [] := by
  obtain ⟨nd, ha, hn, hkeys, hp⟩ := id hrep.1
  obtain ⟨hal, har, hlr, -, -⟩ := addrs_disjoint_two hc hnd
  have hpiv : t.keys[ca.length]? = some k := hk ▸ hlen ▸ getElem?_around ka k kb
  obtain ⟨s', nd', hrun, ha', hn', hp', hkeys', hl', hr', hch⟩ :=
    borrowLeft_ok (c := c) ha hkeys hpiv hle (hrep.2 l (window_mem hc).1).1
      (hrep.2 r (window_mem hc).2).1 hlk hrk hl0 hlM hrM hal har hlr
  exact ⟨s', hrun, window_rep hk hc hlen hrep hnd hch ha' (hn'.trans hn) hkeys' (hp' ▸ hp) hl' hr'
    (borrowLeft_kids l r k), hch.mono (window_addrs hc)⟩

/-- A key moves over from the right node of the window to the left one. -/
theorem borrowRightEntry_ok (hk : t.keys = ka ++ k :: kb) (hc : t.kids = ca ++ l :: r :: cb)
    (hlen : ka.length = ca.length) (hle : t.keys.length ≤ c.M - 1)
    (hlk : l.kids.length = l.keys.length + 1) (hrk : r.kids.length = r.keys.length + 1)
    (hr0 : 0 < r.keys.length) (hrM : r.keys.length ≤ c.M - 1) (hlM : l.keys.length < c.M - 1)
    (hrep : Rep (h := h + 2) s.heap t) (hnd : (Tree.addrs (h := h + 2) t).Nodup) :
    ∃ s', borrowRight c (some t.addr) ca.length (some l.addr) (some r.addr) s = .ok ((), s') ∧
      Rep (h := h + 2) s'.heap (⟨t.addr, ka ++ (l.borrowRight k r).2.1 :: kb,
        ca ++ (l.borrowRight k r).1 :: (l.borrowRight k r).2.2 :: cb⟩ :
          Node K (Node K (Tree K h))) ∧
      Changed s s' (Tree.addrs (h := h + 2) t) [] [] := by
  obtain ⟨nd, ha, hn, hkeys, hp⟩ := id hrep.1
  obtain ⟨hal, har, hlr, -, -⟩ := addrs_disjoint_two hc hnd
  have hpiv : t.keys[ca.length]? = some k := hk ▸ hlen ▸ getElem?_around ka k kb
  obtain ⟨s', nd', hrun, ha', hn', hp', hkeys', hl', hr', hch⟩ :=
    borrowRight_ok (c := c) ha hkeys hpiv hle (hrep.2 l (window_mem hc).1).1
      (hrep.2 r (window_mem hc).2).1 hlk hrk hr0 hrM hlM hal har hlr
  exact ⟨s', hrun, window_rep hk hc hlen hrep hnd hch ha' (hn'.trans hn) hkeys' (hp' ▸ hp) hl' hr'
    (borrowRight_kids l r k), hch.mono (window_addrs hc)⟩

/-- Where neither sibling can spare a key, the two nodes of the window fit in one. -/
theorem merge_fits {pos : Nat} (hk : t.keys = ka ++ k :: kb) (hc : t.kids = ca ++ l :: r :: cb)
    (hlen : ka.length = ca.length) (hs : ShortAt (h := h) c t pos)
    (hpos : pos = ca.length ∧ r.keys.length ≤ c.min ∧
        (∀ x, 0 < pos → t.kids[pos - 1]? = some x → x.keys.length ≤ c.min) ∨
      pos = ca.length + 1 ∧ kb = [] ∧ l.keys.length ≤ c.min) (s : Mem K) :
    (decide (0 < pos) && t.hasSpare c.min (pos - 1)) = false ∧
      (decide (pos < t.keys.length) && t.hasSpare c.min (pos + 1)) = false ∧
      l.kids.length = l.keys.length + 1 ∧ r.kids.length = r.keys.length + 1 ∧
      l.keys.length + r.keys.length + 1 ≤ c.M - 1 ∧
      mergePivot (some t.addr) pos t.keys.length s = .ok (ca.length, s) ∧
      min pos (t.keys.length - 1) = ca.length := by
  have hmin := c.min_two
  have hmin1 := c.min_pos
  have hn : t.keys.length = ca.length + kb.length + 1 := by
    rw [hk, List.length_append, List.length_cons, hlen]
    omega
  rcases hpos with ⟨rfl, hr', hno⟩ | ⟨hpos, hkb, hl'⟩
  · obtain ⟨⟨hll, hlk, -⟩, ⟨-, -, hrk, -⟩, -⟩ := hs.of_left hc rfl
    have hr : t.kids[ca.length + 1]? = some r := hc ▸ getElem?_after ca l r cb
    refine ⟨hasSpare_false hno, hasSpare_false fun x _ hx => ?_, hlk, hrk, by omega, ?_, by omega⟩
    · exact Option.some.inj (hr.symm.trans hx) ▸ hr'
    · rw [mergePivot, if_neg (by omega)]
      rfl
  · subst hkb
    obtain ⟨⟨hrl, hrk, -⟩, ⟨-, -, hlk, -⟩, -⟩ := hs.of_right hc hpos
    have hl : t.kids[ca.length]? = some l := hc ▸ getElem?_around ca l _
    simp only [List.length_nil] at hn
    refine ⟨hasSpare_false fun x _ hx => ?_, ?_, hlk, hrk, by omega, ?_, by omega⟩
    · rw [hpos, Nat.add_sub_cancel] at hx
      exact Option.some.inj (hl.symm.trans hx) ▸ hl'
    · rw [decide_eq_false (by omega), Bool.false_and]
    · rw [mergePivot, if_pos (by omega), predOf_ok _ (by omega), hpos, Nat.add_sub_cancel]

/-- The two nodes become one, and the parent gives up the key and the pointer. -/
theorem mergeEntry_ok {lo pos : Nat} (hk : t.keys = ka ++ k :: kb)
    (hc : t.kids = ca ++ l :: r :: cb) (hlen : ka.length = ca.length)
    (hlo : lo = lowerBound c s (some t.addr)) (hle : t.keys.length ≤ c.M - 1)
    (hkids : t.kids.length = t.keys.length + 1) (hpos : min pos (t.keys.length - 1) = ca.length)
    (hlk : l.kids.length = l.keys.length + 1) (hrk : r.kids.length = r.keys.length + 1)
    (hroom : l.keys.length + r.keys.length + 1 ≤ c.M - 1)
    (hrep : Rep (h := h + 2) s.heap t) (hnd : (Tree.addrs (h := h + 2) t).Nodup) :
    ∃ s₁ s₂, mergeNodes c (some t.addr) ca.length (some l.addr) (some r.addr) s = .ok ((), s₁) ∧
      dropEntry c (some t.addr) pos t.keys.length s₁ =
        .ok (if lo ≤ t.keys.length - 1 then .success else .lessKeys, s₂) ∧
      Rep (h := h + 2) s₂.heap (⟨t.addr, ka ++ kb, ca ++ l.merge k r :: cb⟩ :
        Node K (Node K (Tree K h))) ∧
      Changed s s₂ (Tree.addrs (h := h + 2) t) [] [r.addr] := by
  obtain ⟨nd, ha, -, hkeys, -⟩ := id hrep.1
  obtain ⟨hal, har, hlr, -, -⟩ := addrs_disjoint_two hc hnd
  have hpiv : t.keys[ca.length]? = some k := hk ▸ hlen ▸ getElem?_around ka k kb
  have h0 : 0 < t.keys.length := by
    have := (List.getElem?_eq_some_iff.1 hpiv).1
    omega
  obtain ⟨s₁, hrun, hmerged, hch⟩ := mergeNodes_ok (c := c) ha hkeys hpiv hle
    (hrep.2 l (window_mem hc).1).1 (hrep.2 r (window_mem hc).2).1 hlk hrk hroom hal hlr
  have hself : t.addr ∉ [l.addr, r.addr] := by simp [hal, har]
  have hnode : NodeAt (Tree.ptr (h := h + 1)) s₁.heap
      (⟨t.addr, t.keys, ca ++ l.merge k r :: r :: cb⟩ : Node K (Node K (Tree K h))) :=
    (NodeAt.congr hrep.1 (hch.heap _ hself List.not_mem_nil)).kids (window_ptrs hc rfl rfl)
  have hcs : (ca ++ l.merge k r :: r :: cb).length = t.keys.length + 1 := by
    rw [← hkids, hc]
    simp
  obtain ⟨s₂, hdrop, hdropped, hch'⟩ := dropEntry_ok (c := c) pos hnode hcs hle h0
  have hroot : lowerBound c s₁ (some t.addr) = lo := by
    rw [hlo, lowerBound, lowerBound, hch.root]
  have hks : t.keys.eraseIdx ca.length = ka ++ kb := by
    rw [hk, ← hlen]
    exact eraseIdx_around ka k kb
  rw [hroot, hpos] at hdrop hdropped
  have hnode' : NodeAt (Tree.ptr (h := h + 1)) s₂.heap
      (⟨t.addr, ka ++ kb, ca ++ l.merge k r :: cb⟩ : Node K (Node K (Tree K h))) := by
    rw [← hks, ← eraseIdx_after ca (l.merge k r) r cb]
    exact hdropped
  obtain ⟨other, grand⟩ := window_rest hc hrep hnd fun a ha => by
    simp only [List.mem_cons, List.not_mem_nil, or_false, not_or] at ha
    rw [hch'.heap a (by simp [ha.1]) List.not_mem_nil,
      hch.heap a (by simp [ha.2]) List.not_mem_nil]
  refine ⟨s₁, s₂, hrun, hdrop, ⟨hnode', fun x hx => ?_⟩, ?_⟩
  · rcases List.mem_append.1 hx with hx | hx
    · exact other x (List.mem_append_left _ hx)
    rcases List.mem_cons.1 hx with rfl | hx
    · refine ⟨hmerged.congr (hch'.heap _ ?_ List.not_mem_nil), fun y hy => grand y hy⟩
      exact List.mem_singleton.not.2 (Ne.symm hal)
    · exact other x (List.mem_append_right _ hx)
  · have hall := window_addrs hc
    refine hch.trans hch' (fun a ha => .inl (hall a (List.mem_cons_of_mem _ ha)))
      (fun a ha => .inl (hall a ?_))
    rw [List.mem_singleton.1 ha]
    exact List.mem_cons_self ..

end Window

/-- `ptr`'s child at `pos` borrows from a sibling or is merged with one. -/
theorem rebalance_ok {t : Node K (Node K (Tree K h))} {lo pos : Nat} {s : Mem K}
    (hlo : lo = lowerBound c s (some t.addr)) (h0 : 0 < t.keys.length)
    (hle : t.keys.length ≤ c.M - 1) (hkids : t.kids.length = t.keys.length + 1)
    (hpos : pos ≤ t.keys.length) (hs : ShortAt (h := h) c t pos)
    (hrep : Rep (h := h + 2) s.heap t) (hnd : (Tree.addrs (h := h + 2) t).Nodup) :
    ∃ s', rebalance c (some t.addr) pos t.keys.length s =
        .ok ((t.rebalance c.min lo pos).status, s') ∧
      Rep (h := h + 2) s'.heap (t.rebalance c.min lo pos).tree ∧
      Changed s s' (Tree.addrs (h := h + 2) t) [] (t.rebalance c.min lo pos).freed := by
  have hM := c.three_le
  have hmin := c.min_two
  have hmin1 := c.min_pos
  have hleft := hasSpare_ok (c := c) (decide (0 < pos)) (pos - 1) hrep (by omega)
    (fun _ => by omega)
  have hright := hasSpare_ok (c := c) (decide (pos < t.keys.length)) (pos + 1) hrep
    (by omega) (fun hd => by have := of_decide_eq_true hd; omega)
  have step := Node.rebalance_cases c.min lo hkids hpos h0
  generalize t.rebalance c.min lo pos = out at step ⊢
  obtain ⟨nd, ha, -, -, hp⟩ := id hrep.1
  have inside : ∀ {ca cb} {l r : Node K (Tree K h)}, t.kids = ca ++ l :: r :: cb →
      ca.length + 1 < c.M := fun hc => by
    have := congrArg List.length hc
    simp only [List.length_append, List.length_cons] at this
    omega
  cases step with
  | @left ka kb ca cb k l r hkeys hc hlen hp' hspare =>
      obtain ⟨hr, hl, -, -⟩ := hs.of_right hc hp'
      obtain ⟨hpl, hpr⟩ := window_reads hc hp
      have hM' := inside hc
      obtain ⟨s', hrun, hrep', hch⟩ := borrowLeftEntry_ok hkeys hc hlen hle hl.2.2.1 hr.2.1
        (by omega) hl.2.1 (by have := hr.1; omega) hrep hnd
      refine ⟨s', ?_, hrep', hch⟩
      have htest : (decide (0 < pos) && t.hasSpare c.min (pos - 1)) = true := by
        rw [hp', Nat.add_sub_cancel, Node.hasSpare, hc, getElem?_around]
        simpa using hspare
      rw [htest] at hleft
      rw [rebalance, bind_ok hleft, if_pos rfl, hp', Nat.add_sub_cancel,
        bind_ok (readP_ok ha (by omega) hpl), bind_ok (readP_ok ha hM' hpr), bind_ok hrun]
      rfl
  | @right ka kb ca cb k l r hkeys hc hlen hp' hspare hno =>
      obtain ⟨hl, hr, -, -⟩ := hs.of_left hc hp'
      obtain ⟨hpl, hpr⟩ := window_reads hc hp
      have hM' := inside hc
      obtain ⟨s', hrun, hrep', hch⟩ := borrowRightEntry_ok hkeys hc hlen hle hl.2.1 hr.2.2.1
        (by omega) hr.2.1 (by have := hl.1; omega) hrep hnd
      refine ⟨s', ?_, hrep', hch⟩
      have hposlt : pos < t.keys.length := by
        rw [hkeys, List.length_append, List.length_cons]
        omega
      have htest : (decide (pos < t.keys.length) && t.hasSpare c.min (pos + 1)) = true := by
        rw [decide_eq_true hposlt, hp', Node.hasSpare, hc, getElem?_after]
        simpa using hspare
      rw [hasSpare_false hno] at hleft
      rw [htest] at hright
      rw [rebalance, bind_ok hleft, if_neg Bool.false_ne_true, bind_ok hright, if_pos rfl, hp',
        bind_ok (readP_ok ha (by omega) hpl), bind_ok (readP_ok ha hM' hpr), bind_ok hrun]
      rfl
  | @merge ka kb ca cb k l r hkeys hc hlen hp' =>
      obtain ⟨hpl, hpr⟩ := window_reads hc hp
      have hM' := inside hc
      obtain ⟨hnoL, hnoR, hlk, hrk, hroom, hpivot, hat⟩ := merge_fits hkeys hc hlen hs hp' s
      obtain ⟨s₁, s₂, hrun, hdrop, hrep', hch⟩ :=
        mergeEntry_ok hkeys hc hlen hlo hle hkids hat hlk hrk hroom hrep hnd
      refine ⟨s₂, ?_, hrep', hch⟩
      rw [hnoL] at hleft
      rw [hnoR] at hright
      rw [rebalance, bind_ok hleft, if_neg Bool.false_ne_true, bind_ok hright,
        if_neg Bool.false_ne_true, bind_ok hpivot, bind_ok (readP_ok ha (by omega) hpl),
        bind_ok (readP_ok ha hM' hpr), bind_ok hrun]
      exact hdrop

/-! ## The deletion -/

/-- A subtree in the heap, held to the bound `lo` the code will hold it to. -/
structure Placed (c : Cfg K) (s : Mem K) (lo : Nat) (t : Tree K h) : Prop where
  one_le : 1 ≤ lo
  wf : t.WF c lo
  rep : Rep s.heap t
  nodup : t.addrs.Nodup
  bound : ∀ a, t.ptr = some a → lo = lowerBound c s (some a)
  below : ∀ a ∈ t.addrs, t.ptr ≠ some a → s.root ≠ some a

theorem Placed.kid {t : Node K (Tree K h)} {s : Mem K} {lo pos : Nat} {ka kb : List K}
    {ca cb : List (Tree K h)} {kid : Tree K h} (hp : Placed (h := h + 1) c s lo t)
    (f : Focus t pos ka kb ca kid cb) : Placed c s c.min kid := by
  obtain ⟨hself, hnd, -⟩ := addrs_disjoint f.kids hp.nodup
  have hroot : ∀ a ∈ kid.addrs, s.root ≠ some a := fun a ha =>
    hp.below a (List.mem_cons_of_mem _ (List.mem_flatMap.2 ⟨kid, f.kid_mem, ha⟩))
      fun he => hself (Option.some.inj he ▸ ha)
  refine ⟨c.min_pos, hp.wf.2.2.2 kid f.kid_mem, hp.rep.2 kid f.kid_mem, hnd, fun a ha => ?_,
    fun a ha _ => hroot a ha⟩
  have hmem : a ∈ kid.addrs := by
    cases h with
    | zero => cases ha
    | succ h =>
        cases ha
        exact List.mem_cons_self ..
  rw [lowerBound, if_neg fun he => hroot a hmem he.symm]

/-- What a deletion that behaved like `delT` on `t` did to the state. -/
structure DelRan (s s' : Mem K) (t : Tree K h) (r : Removed (Tree K h)) : Prop where
  rep : Rep s'.heap r.tree
  changed : Changed s s' t.addrs [] r.freed

/-- The end of a deletion at an inner node. -/
theorem afterChild_ok {t : Node K (Node K (Tree K h))} {s s₁ : Mem K} {lo pos : Nat} {ka kb : List K}
    {ca cb : List (Node K (Tree K h))} {kid : Node K (Tree K h)}
    {r : Removed (Node K (Tree K h))} (hp : Placed (h := h + 2) c s lo t)
    (f : Focus t pos ka kb ca kid cb) (hr : Removed.Fits (h := h + 1) c c.min r)
    (haddrs : (Tree.addrs (h := h + 1) r.tree ++ r.freed).Perm (Tree.addrs (h := h + 1) kid))
    (hptr : r.tree.addr = kid.addr) (hran : DelRan (h := h + 1) s s₁ kid r) :
    ∃ s₂, afterChild c (some t.addr) pos t.keys.length r.status s₁ =
        .ok ((Node.afterKid c.min lo t pos r).status, s₂) ∧
      DelRan (h := h + 2) s s₂ t (Node.afterKid c.min lo t pos r) := by
  have hwf : lo ≤ t.keys.length ∧ t.keys.length ≤ c.M - 1 := ⟨hp.wf.1, hp.wf.2.1⟩
  have hone := hp.one_le
  have hpos : pos ≤ t.keys.length := by
    rw [f.keys_length, f.lenA]
    omega
  have hself : t.addr ∈ Tree.addrs (h := h + 2) t := List.mem_cons_self ..
  have hsub : ∀ a ∈ Tree.addrs (h := h + 1) kid, a ∈ Tree.addrs (h := h + 2) t := fun a ha =>
    List.mem_cons_of_mem _ (List.mem_flatMap.2 ⟨kid, f.kid_mem, ha⟩)
  obtain ⟨hout, -, hrest⟩ := addrs_disjoint (h := h + 1) f.kids hp.nodup
  -- the node with the treated child
  have hnode : NodeAt (Tree.ptr (h := h + 1)) s₁.heap
      (⟨t.addr, t.keys, t.kids.set pos r.tree⟩ : Node K (Node K (Tree K h))) := by
    refine NodeAt.kids (NodeAt.congr hp.rep.1 (hran.changed.heap _ hout List.not_mem_nil)) ?_
    rw [f.set_kid, f.kids]
    exact map_around (Tree.ptr (h := h + 1)) (congrArg some hptr)
  have hrep₁ : Rep (h := h + 2) s₁.heap
      (⟨t.addr, t.keys, t.kids.set pos r.tree⟩ : Node K (Node K (Tree K h))) := by
    refine ⟨hnode, fun x hx => ?_⟩
    have other : ∀ x ∈ ca ++ cb, Rep (h := h + 1) s₁.heap x := fun x hx => by
      have hmem : x ∈ t.kids := by
        rw [f.kids]
        simp only [List.mem_append, List.mem_cons] at hx ⊢
        tauto
      exact hran.changed.rep (hp.rep.2 x hmem) fun a ha => ⟨(hrest x hx).2 a ha, List.not_mem_nil⟩
    change x ∈ t.kids.set pos r.tree at hx
    rw [f.set_kid] at hx
    rcases List.mem_append.1 hx with hx | hx
    · exact other x (List.mem_append_left _ hx)
    rcases List.mem_cons.1 hx with rfl | hx
    · exact hran.rep
    · exact other x (List.mem_append_right _ hx)
  have hset := set_addrs f haddrs
  unfold Node.afterKid afterChild
  by_cases hs : r.status = .lessKeys
  · simp only [hs, ne_eq, not_true_eq_false, if_true, if_false]
    have hwfk : ∀ x ∈ ca ++ kid :: cb, Tree.WF (h := h + 1) c c.min x := fun x hx =>
      hp.wf.2.2.2 x (f.kids ▸ hx)
    obtain ⟨s₂, hrun, hrep₂, hch₂⟩ := rebalance_ok (c := c) (s := s₁)
      (t := ⟨t.addr, t.keys, t.kids.set pos r.tree⟩)
      ((hp.bound t.addr rfl).trans (by rw [lowerBound, lowerBound, hran.changed.root]))
      (by simp only; omega) hwf.2 (List.length_set.trans f.kids_length) hpos
      ⟨ca, r.tree, cb, f.set_kid _, f.lenC, hr.1 hs,
        fun x hx => hwfk x (List.mem_append_left _ hx),
        fun x hx => hwfk x (List.mem_append_right _ (List.mem_cons_of_mem _ hx))⟩
      hrep₁ ((List.nodup_append.1 (hset.symm.nodup hp.nodup)).1)
    refine ⟨s₂, hrun, hrep₂, hran.changed.trans hch₂ (fun a ha => .inl (hsub a ha))
      fun a ha => .inl (hset.subset (List.mem_append_left _ ha))⟩
  · simp only [hs, ne_eq, not_false_eq_true, if_true, if_false]
    exact ⟨s₁, rfl, hrep₁, hran.changed.mono hsub⟩

/-- The first pointer of a leaf is null. -/
theorem leaf_p {t : Node K (Tree K 0)} {nd : BtNode K} {i : Nat}
    (hkids : t.kids.length = t.keys.length + 1) (hp : Holds nd.p (t.kids.map Tree.ptr))
    (hi : i ≤ t.keys.length) : nd.p i = some none := by
  refine hp _ _ ?_
  rw [List.getElem?_map, List.getElem?_eq_getElem (show i < t.kids.length by omega)]
  rfl

/-- The pointers of an inner node are not. -/
theorem inner_p {t : Node K (Tree K (h + 1))} {nd : BtNode K} {i : Nat} {kid : Tree K (h + 1)}
    (hp : Holds nd.p (t.kids.map Tree.ptr)) (hkid : t.kids[i]? = some kid) :
    nd.p i = some kid.ptr := by
  refine hp _ _ ?_
  rw [List.getElem?_map, hkid]
  rfl

theorem inner_first {t : Node K (Tree K (h + 1))} {nd : BtNode K}
    (hkids : t.kids.length = t.keys.length + 1) (hp : Holds nd.p (t.kids.map Tree.ptr)) :
    ∃ q, nd.p 0 = some q ∧ q ≠ none :=
  ⟨_, inner_p hp (List.getElem?_eq_getElem (show 0 < t.kids.length by omega)),
    Option.some_ne_none _⟩

/-- After the swap the node is placed as before. -/
theorem Placed.swapped {t : Node K (Tree K (h + 1))} {s s' : Mem K} {lo pos : Nat} {ka kb : List K}
    {ca cb : List (Tree K (h + 1))} {kid kid' : Tree K (h + 1)} {key k : K}
    (hp : Placed (h := h + 2) c s lo t) (f : Focus t pos ka (key :: kb) ca kid cb)
    (hkid : SwappedLast c c.min kid key k kid')
    (hrep : Rep (h := h + 2) s'.heap
      (⟨t.addr, ka ++ k :: kb, ca ++ kid' :: cb⟩ : Node K (Tree K (h + 1))))
    (hch : Changed s s' (Tree.addrs (h := h + 2) t) [] []) :
    Placed (h := h + 2) c s' lo
        (⟨t.addr, ka ++ k :: kb, ca ++ kid' :: cb⟩ : Node K (Tree K (h + 1))) ∧
      Tree.addrs (h := h + 2) (⟨t.addr, ka ++ k :: kb, ca ++ kid' :: cb⟩ : Node K (Tree K (h + 1))) =
        Tree.addrs (h := h + 2) t := by
  have haddrs : Tree.addrs (h := h + 2)
      (⟨t.addr, ka ++ k :: kb, ca ++ kid' :: cb⟩ : Node K (Tree K (h + 1))) =
        Tree.addrs (h := h + 2) t := by
    change t.addr :: (ca ++ kid' :: cb).flatMap Tree.addrs = t.addr :: t.kids.flatMap Tree.addrs
    rw [f.kids, List.flatMap_append, List.flatMap_append, List.flatMap_cons, List.flatMap_cons,
      hkid.addrs]
  obtain ⟨hone, ⟨hge, hle, hkids, hwf⟩, -, hnd, hbound, hbelow⟩ := hp
  have hlen : (ka ++ k :: kb).length = t.keys.length := by
    rw [f.keys_length, List.length_append, List.length_cons, List.length_cons]
  have hwf' : ∀ x ∈ ca ++ kid' :: cb, x.WF c c.min := by
    rw [f.kids] at hwf
    simp only [List.forall_mem_append, List.forall_mem_cons] at hwf ⊢
    exact ⟨hwf.1, hkid.wf, hwf.2.2⟩
  have hkids' : (ca ++ kid' :: cb).length = (ka ++ k :: kb).length + 1 := by
    rw [hlen, ← hkids, f.kids]
    simp
  refine ⟨⟨hone, ⟨hlen ▸ hge, hlen ▸ hle, hkids', hwf'⟩, hrep, haddrs ▸ hnd, fun a ha => ?_,
    fun a ha hne => ?_⟩, haddrs⟩
  · rw [hbound a ha, lowerBound, lowerBound, hch.root]
  · rw [hch.root]
    exact hbelow a (haddrs ▸ ha) hne

theorem afterKid_congr {min lo pos : Nat} {t t' : Node K (Node K (Tree K h))}
    {r : Removed (Node K (Tree K h))} (haddr : t.addr = t'.addr) (hkeys : t.keys = t'.keys)
    (hkids : t.kids.set pos r.tree = t'.kids.set pos r.tree) :
    Node.afterKid min lo t pos r = Node.afterKid min lo t' pos r := by
  unfold Node.afterKid
  rw [haddr, hkeys, hkids]

variable [LinearOrder K]

/-- The swap, and what remains to be done once the key is gone from the child: the
node then is what `delT` makes of it. -/
theorem swapDescend_ok (fuel : Nat) {t : Node K (Node K (Tree K h))} {s : Mem K} {lo pos : Nat}
    {ka kb : List K} {ca cb : List (Node K (Tree K h))} {kid : Node K (Tree K h)} {key : K}
    (hp : Placed (h := h + 2) c s lo t) (f : Focus t pos ka (key :: kb) ca kid cb)
    (hpos : searchIdx key t.keys = pos) (hfuel : h < fuel) :
    ∃ s₁ k kid', swapPredecessor c fuel (some t.addr) pos key s = .ok ((), s₁) ∧
      readP c (some t.addr) pos s₁ = .ok (Tree.ptr (h := h + 1) kid', s₁) ∧
      Placed (h := h + 1) c s₁ c.min kid' ∧ SwappedLast (h := h + 1) c c.min kid key k kid' ∧
      ∀ s₂, DelRan (h := h + 1) s₁ s₂ kid' (delT c (h + 1) c.min kid' key) →
        ∃ s₃, afterChild c (some t.addr) pos t.keys.length
            (delT c (h + 1) c.min kid' key).status s₂ =
              .ok ((delT c (h + 2) lo t key).status, s₃) ∧
          DelRan (h := h + 2) s s₃ t (delT c (h + 2) lo t key) := by
  have hM := c.three_le
  have hle : t.keys.length ≤ c.M - 1 := hp.wf.2.1
  have hplt : pos < t.keys.length := by
    rw [f.keys_length, f.lenA, List.length_cons]
    omega
  have hpk := Placed.kid (h := h + 1) hp f
  obtain ⟨s₁, k, (kid' : Node K (Tree K h)), hsw, hswap, hrep₁, hch₁⟩ :=
    swapPredecessor_ok (c := c) hp.wf hp.rep hp.nodup hfuel f
  obtain ⟨k₂, kid₂, hswap₂, hkid⟩ := swapLast_spec key h c.min kid c.min_pos hpk.wf
  cases hswap.symm.trans hswap₂
  obtain ⟨hp₁, haddrs₁⟩ := hp.swapped f hkid hrep₁ hch₁
  have f₁ : Focus (⟨t.addr, ka ++ k :: kb, ca ++ kid' :: cb⟩ : Node K (Node K (Tree K h)))
      pos ka (k :: kb) ca kid' cb :=
    ⟨rfl, rfl, f.lenA, f.lenC, f.lenB⟩
  have hpk₁ := Placed.kid (h := h + 1) hp₁ f₁
  obtain ⟨nd₁, ha₁, -, -, hpp₁⟩ := hp₁.rep.1
  refine ⟨s₁, k, kid', hsw, readP_ok ha₁ (by omega) (inner_p hpp₁ f₁.kid_get), hpk₁, hkid,
    fun s₂ hran => ?_⟩
  obtain ⟨haddrs, hptr⟩ := delT_addrs (c := c) key (h + 1) c.min kid' c.min_pos hpk₁.wf
  obtain ⟨s₃, hrun₃, hran₃⟩ := afterChild_ok hp₁ f₁
    (delT_fits key (h + 1) c.min kid' c.min_pos hpk₁.wf) haddrs (Option.some.inj hptr) hran
  have hdel : delT c (h + 2) lo t key = Node.afterKid c.min lo
      ⟨t.addr, ka ++ k :: kb, ca ++ kid' :: cb⟩ pos (delT c (h + 1) c.min kid' key) :=
    (Node.del_swapped hpos f hswap).trans
      (afterKid_congr rfl rfl ((f.set_kid _).trans (f₁.set_kid _).symm))
  rw [hdel]
  refine ⟨s₃, ?_, hran₃.rep, ?_⟩
  · rw [show (ka ++ k :: kb).length = t.keys.length by
      rw [f.keys_length, List.length_append, List.length_cons, List.length_cons]] at hrun₃
    exact hrun₃
  · have := hch₁.trans hran₃.changed (fun a ha => .inl ha) fun a ha => .inl (haddrs₁ ▸ ha)
    rw [List.append_nil, List.append_nil] at this
    exact this

/-- The same without a swap. -/
theorem descend_ok {t : Node K (Node K (Tree K h))} {s s₁ : Mem K} {lo pos : Nat}
    {ka kb : List K} {ca cb : List (Node K (Tree K h))} {kid : Node K (Tree K h)} {key : K}
    (hp : Placed (h := h + 2) c s lo t) (f : Focus t pos ka kb ca kid cb)
    (hpos : searchIdx key t.keys = pos) (hne : t.keys[pos]? ≠ some key)
    (hran : DelRan (h := h + 1) s s₁ kid (delT c (h + 1) c.min kid key)) :
    ∃ s₂, afterChild c (some t.addr) pos t.keys.length (delT c (h + 1) c.min kid key).status s₁ =
        .ok ((delT c (h + 2) lo t key).status, s₂) ∧
      DelRan (h := h + 2) s s₂ t (delT c (h + 2) lo t key) := by
  have hpk := Placed.kid (h := h + 1) hp f
  obtain ⟨haddrs, hptr⟩ := delT_addrs (c := c) key (h + 1) c.min kid c.min_pos hpk.wf
  have hdel : delT c (h + 2) lo t key =
      Node.afterKid c.min lo t pos (delT c (h + 1) c.min kid key) := Node.del_through hpos f hne
  rw [hdel]
  exact afterChild_ok hp f (delT_fits key (h + 1) c.min kid c.min_pos hpk.wf) haddrs
    (Option.some.inj hptr) hran

omit [LinearOrder K] in
/-- A key and its pointer go from a leaf. -/
theorem Placed.dropEntry {t : Node K (Tree K 0)} {s : Mem K} {lo pos : Nat}
    (hp : Placed (h := 1) c s lo t) (hpos : pos < t.keys.length) :
    ∃ s', Btree.dropEntry c (some t.addr) pos t.keys.length s =
        .ok ((t.removeAt lo pos).status, s') ∧ DelRan (h := 1) s s' t (t.removeAt lo pos) := by
  obtain ⟨-, hle, hkids, -⟩ := hp.wf
  obtain ⟨s', hrun, hnode, hch⟩ := dropEntry_ok (c := c) pos hp.rep.1 hkids hle (by omega)
  rw [show lowerBound c s (some t.addr) = lo from (hp.bound t.addr rfl).symm,
    Nat.min_eq_left (by omega)] at hrun hnode
  refine ⟨s', hrun, ⟨hnode, fun _ _ => trivial⟩, hch.mono fun a ha => ?_⟩
  rw [List.mem_singleton.1 ha]
  exact List.mem_cons_self ..

/-- `del` at a leaf, up to the test on the key. -/
theorem del_leaf {t : Node K (Tree K 0)} {s : Mem K} (key : K) (fuel : Nat)
    (ht : NodeAt Tree.ptr s.heap t) (hle : t.keys.length ≤ c.M - 1)
    (hkids : t.kids.length = t.keys.length + 1) :
    del c (fuel + 1) (some t.addr) key s =
      (if searchIdx key t.keys = t.keys.length then pure .searchFailure else do
        let k ← readKey c (some t.addr) (searchIdx key t.keys)
        if key < k then pure .searchFailure
        else dropEntry c (some t.addr) (searchIdx key t.keys) t.keys.length : BtM K _) s := by
  have hM := c.three_le
  obtain ⟨nd, ha, hn, hk, hp⟩ := ht
  rw [del, if_neg (Option.some_ne_none _), bind_ok (readN_ok ha hn),
    bind_ok (searchPos_ok ha hk hle key),
    bind_ok (readP_ok ha (by omega) (leaf_p hkids hp (Nat.zero_le _))), if_pos rfl]

/-- `del` at an inner node, up to the swap and the call on the child. -/
theorem del_enter {t : Node K (Tree K (h + 1))} {s : Mem K} (key : K) (fuel : Nat)
    (ht : NodeAt Tree.ptr s.heap t) (hle : t.keys.length ≤ c.M - 1)
    (hkids : t.kids.length = t.keys.length + 1) :
    del c (fuel + 1) (some t.addr) key s = (do
      swapWhen c (decide (t.keys[searchIdx key t.keys]? = some key)) fuel (some t.addr)
        (searchIdx key t.keys) key
      let child ← readP c (some t.addr) (searchIdx key t.keys)
      let value ← del c fuel child key
      afterChild c (some t.addr) (searchIdx key t.keys) t.keys.length value : BtM K _) s := by
  have hM := c.three_le
  obtain ⟨nd, ha, hn, hk, hp⟩ := ht
  obtain ⟨q, hq, hq0⟩ := inner_first hkids hp
  rw [del, if_neg (Option.some_ne_none _), bind_ok (readN_ok ha hn),
    bind_ok (searchPos_ok ha hk hle key), bind_ok (readP_ok ha (by omega) hq),
    if_neg hq0, bind_ok (foundAt_ok ha hk hle key _)]

theorem del_leaf_ok {t : Node K (Tree K 0)} {s : Mem K} {lo : Nat} (key : K) (fuel : Nat)
    (hp : Placed (h := 1) c s lo t) :
    ∃ s', del c (fuel + 1) (some t.addr) key s = .ok ((t.delLeaf lo key).status, s') ∧
      DelRan (h := 1) s s' t (t.delLeaf lo key) := by
  have hM := c.three_le
  obtain ⟨-, hle, hkids, -⟩ := hp.wf
  obtain ⟨nd, ha, -, hk, -⟩ := id hp.rep.1
  have hpos := searchIdx_le key t.keys
  rcases t.delLeaf_cases lo key with ⟨hfound, heq⟩ | ⟨hne, heq⟩
  · have hlt := (List.getElem?_eq_some_iff.1 hfound).1
    obtain ⟨s', hrun, hran⟩ := hp.dropEntry hlt
    rw [heq]
    refine ⟨s', (del_leaf key fuel hp.rep.1 hle hkids).trans ?_, hran⟩
    rw [if_neg (by omega), bind_ok (readKey_ok ha (by omega) (hk _ _ hfound)),
      if_neg (lt_irrefl _)]
    exact hrun
  · rw [heq]
    refine ⟨s, (del_leaf key fuel hp.rep.1 hle hkids).trans ?_, hp.rep, Changed.refl _ _⟩
    by_cases hend : searchIdx key t.keys = t.keys.length
    · rw [if_pos hend]
      rfl
    · have hget := List.getElem?_eq_getElem (l := t.keys) (i := searchIdx key t.keys) (by omega)
      have hlt : key < t.keys[searchIdx key t.keys] :=
        lt_of_le_of_ne (le_of_searchIdx hget) fun he => hne (hget.trans (congrArg some he.symm))
      rw [if_neg hend, bind_ok (readKey_ok ha (by omega) (hk _ _ hget)), if_pos hlt]
      rfl

theorem del_ok (key : K) : ∀ (h lo fuel : Nat) (t : Tree K h) (s : Mem K), Placed c s lo t →
    h < fuel → ∃ s', del c fuel t.ptr key s = .ok ((delT c h lo t key).status, s') ∧
      DelRan s s' t (delT c h lo t key) := by
  have hM := c.three_le
  intro h
  induction h with
  | zero =>
      intro lo fuel t s _ hfuel
      obtain ⟨fuel, rfl⟩ : ∃ f, fuel = f + 1 := ⟨fuel - 1, by omega⟩
      exact ⟨s, rfl, trivial, Changed.refl _ _⟩
  | succ h ih =>
      cases h with
      | zero =>
          intro lo fuel (t : Node K (Tree K 0)) s hp hfuel
          obtain ⟨fuel, rfl⟩ : ∃ f, fuel = f + 1 := ⟨fuel - 1, by omega⟩
          exact del_leaf_ok key fuel hp
      | succ h =>
          intro lo fuel (t : Node K (Node K (Tree K h))) s hp hfuel
          obtain ⟨fuel, rfl⟩ : ∃ f, fuel = f + 1 := ⟨fuel - 1, by omega⟩
          have hkids : t.kids.length = t.keys.length + 1 := hp.wf.2.2.1
          have hle : t.keys.length ≤ c.M - 1 := hp.wf.2.1
          have hpos := searchIdx_le key t.keys
          obtain ⟨nd, ha, -, -, hpp⟩ := id hp.rep.1
          obtain ⟨ka, kb, ca, kid, cb, f⟩ := Focus.exists hkids hpos
          have enter := del_enter (c := c) (h := h) key fuel hp.rep.1 hle hkids
          change ∃ s', del c (fuel + 1) (some t.addr) key s =
              .ok ((delT c (h + 2) lo t key).status, s') ∧
            DelRan (h := h + 2) s s' t (delT c (h + 2) lo t key)
          by_cases hfound : t.keys[searchIdx key t.keys]? = some key
          · obtain ⟨kb, rfl⟩ := f.found hfound
            obtain ⟨s₁, k, kid', hsw, hread, hpk, -, hfinish⟩ :=
              swapDescend_ok fuel hp f rfl (by omega)
            obtain ⟨s₂, hrun, hran⟩ := ih c.min fuel kid' s₁ hpk (by omega)
            obtain ⟨s₃, hrun₃, hran₃⟩ := hfinish s₂ hran
            refine ⟨s₃, ?_, hran₃⟩
            rw [enter, decide_eq_true hfound,
              bind_ok (show swapWhen c true fuel _ _ _ s = .ok ((), s₁) from hsw),
              bind_ok hread, bind_ok hrun]
            exact hrun₃
          · have hpk := Placed.kid (h := h + 1) hp f
            obtain ⟨s₁, hrun, hran⟩ := ih c.min fuel kid s hpk (by omega)
            obtain ⟨s₂, hrun₂, hran₂⟩ := descend_ok hp f rfl hfound hran
            refine ⟨s₂, ?_, hran₂⟩
            rw [enter, decide_eq_false hfound,
              bind_ok (show swapWhen c false fuel _ _ _ s = .ok ((), s) from rfl),
              bind_ok (readP_ok ha (by omega) (inner_p hpp f.kid_get)), bind_ok hrun]
            exact hrun₂

end SatAllocatorTest.Ports.Btree
