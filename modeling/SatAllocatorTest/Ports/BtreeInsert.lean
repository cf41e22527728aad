import SatAllocatorTest.Ports.BtreeShape

/-!
# The insertion on the heap

`ins` does to the nodes in the heap what `insT` does to the tree they represent.
The induction is on the height; at each node the call on the child is followed by
one of the operations of `BtreeNodes`, and everything outside the subtree and the
newly allocated nodes is left alone.

Main result: `ins_ok`.
-/

namespace SatAllocatorTest.Ports.Btree

open SatAllocatorTest.Verified.Slots
open SatAllocatorTest.Verified.Refinement
open SatAllocatorTest.Verified.Positions
open SatAllocatorTest.Ports.Btree.Tree

variable {K : Type} [LinearOrder K] {c : Cfg K} {h : Nat}

/-- What `ins` returned and left in `s'`, for each outcome of `insT`. -/
inductive InsRan (c : Cfg K) (fuel : Nat) (t : Tree K h) (key : K) (s : Mem K) :
    Inserted (Tree K h) K → Mem K → Prop
  | dup (hrun : ins c fuel t.ptr key s = .ok (.stop .duplicate, s)) :
      InsRan c fuel t key s .dup s
  | done {t' : Tree K h} {s'} (hrun : ins c fuel t.ptr key s = .ok (.stop .success, s'))
      (hrep : Rep s'.heap t') : InsRan c fuel t key s (.done t') s'
  | split {l r : Tree K h} {up : K} {s'}
      (hrun : ins c fuel t.ptr key s = .ok (.insertIt up r.ptr, s'))
      (hl : Rep s'.heap l) (hr : Rep s'.heap r) : InsRan c fuel t key s (.split l up r) s'

section Descend

variable {C : Type} {ptr : C → Ptr} {s : Mem K} {t : Node K C} {key : K} {fuel : Nat}

/-- The key is in the node. -/
theorem ins_found (ht : NodeAt ptr s.heap t) (hlen : t.keys.length ≤ c.M - 1)
    (hfound : t.keys[searchIdx key t.keys]? = some key) :
    ins c (fuel + 1) (some t.addr) key s = .ok (.stop .duplicate, s) := by
  obtain ⟨nd, ha, hn, hk, -⟩ := ht
  rw [ins, if_neg (Option.some_ne_none _), bind_ok (readN_ok ha hn),
    bind_ok (searchPos_ok ha hk hlen key), bind_ok (foundAt_ok ha hk hlen key _),
    if_pos (decide_eq_true hfound)]
  rfl

/-- The key is not in the node, and the search goes on in a child. -/
theorem ins_descend {ka kb : List K} {ca cb : List C} {kid : C}
    (ht : NodeAt ptr s.heap t) (hlen : t.keys.length ≤ c.M - 1)
    (f : Focus t (searchIdx key t.keys) ka kb ca kid cb)
    (hne : t.keys[searchIdx key t.keys]? ≠ some key) :
    ins c (fuel + 1) (some t.addr) key s =
      (ins c fuel (ptr kid) key >>= insUp c (some t.addr) t.keys.length (searchIdx key t.keys)) s := by
  obtain ⟨nd, ha, hn, hk, hp⟩ := ht
  have hM := c.three_le
  have hpos := searchIdx_le key t.keys
  have hkid : nd.p (searchIdx key t.keys) = some (ptr kid) :=
    hp _ _ (by rw [List.getElem?_map, f.kid_get]; rfl)
  rw [ins, if_neg (Option.some_ne_none _), bind_ok (readN_ok ha hn),
    bind_ok (searchPos_ok ha hk hlen key), bind_ok (foundAt_ok ha hk hlen key _),
    decide_eq_false hne, if_neg Bool.false_ne_true, bind_ok (readP_ok ha (by omega) hkid)]

end Descend

/-- The state after the call on a child, seen from the node: the child's trees are
there, and nothing else of the node has changed. -/
structure Called (s₁ : Mem K) (t : Node K (Tree K h)) (ca cb : List (Tree K h)) (kid : Tree K h)
    (out : Inserted (Tree K h) K) : Prop where
  node : NodeAt Tree.ptr s₁.heap t
  rep : ∀ x ∈ ca ++ cb, Rep s₁.heap x
  self_mem : t.addr ∈ s₁.allocated
  out_addrs : ∀ x ∈ ca ++ cb, ∀ a ∈ x.addrs, a ≠ t.addr ∧ a ∈ s₁.allocated
  kid_addrs : ∀ a ∈ out.addrs kid, a ≠ t.addr ∧ a ∈ s₁.allocated

section Called

variable {s₁ : Mem K} {t : Node K (Tree K h)} {pos : Nat} {ka kb : List K}
  {ca cb : List (Tree K h)} {kid kid' r : Tree K h} {up : K}

omit [LinearOrder K] in
/-- The node, with the child's tree replaced. -/
theorem Called.node_set {out : Inserted (Tree K h) K} (hc : Called s₁ t ca cb kid out)
    (f : Focus t pos ka kb ca kid cb) (hptr : kid'.ptr = kid.ptr) :
    NodeAt Tree.ptr s₁.heap ⟨t.addr, t.keys, ca ++ kid' :: cb⟩ :=
  hc.node.kids (by
    rw [f.kids, List.map_append, List.map_append, List.map_cons, List.map_cons, hptr])

omit [LinearOrder K] in
/-- After a split below, the children are there, away from the node. -/
theorem Called.kids_split (hc : Called s₁ t ca cb kid (.split kid' up r))
    (hl : Rep s₁.heap kid') (hr : Rep s₁.heap r) :
    ∀ x ∈ ca ++ kid' :: r :: cb,
      Rep s₁.heap x ∧ ∀ a ∈ x.addrs, a ≠ t.addr ∧ a ∈ s₁.allocated := by
  intro x hx
  rcases List.mem_append.1 hx with hx | hx
  · exact ⟨hc.rep x (List.mem_append_left _ hx), hc.out_addrs x (List.mem_append_left _ hx)⟩
  rcases List.mem_cons.1 hx with rfl | hx
  · exact ⟨hl, fun a ha => hc.kid_addrs a (List.mem_append_left _ ha)⟩
  rcases List.mem_cons.1 hx with rfl | hx
  · exact ⟨hr, fun a ha => hc.kid_addrs a (List.mem_append_right _ ha)⟩
  · exact ⟨hc.rep x (List.mem_append_right _ hx), hc.out_addrs x (List.mem_append_right _ hx)⟩

omit [LinearOrder K] in
/-- The child has been replaced, and nothing is to be inserted into the node. -/
theorem Called.done_rep (hc : Called s₁ t ca cb kid (.done kid'))
    (f : Focus t pos ka kb ca kid cb) (hptr : kid'.ptr = kid.ptr) (hkid : Rep s₁.heap kid') :
    Rep (h := h + 1) s₁.heap (⟨t.addr, t.keys, ca ++ kid' :: cb⟩ : Node K (Tree K h)) := by
  refine ⟨hc.node_set f hptr, fun x hx => ?_⟩
  rcases List.mem_append.1 hx with hx | hx
  · exact hc.rep x (List.mem_append_left _ hx)
  rcases List.mem_cons.1 hx with rfl | hx
  · exact hkid
  · exact hc.rep x (List.mem_append_right _ hx)

/-- The child was split, and the node has room for the new key. -/
theorem Called.room_ok (hc : Called s₁ t ca cb kid (.split kid' up r))
    (f : Focus t pos ka kb ca kid cb) (hptr : kid'.ptr = kid.ptr)
    (hkids : t.kids.length = t.keys.length + 1) (hroom : t.keys.length < c.M - 1)
    (hl : Rep s₁.heap kid') (hr : Rep s₁.heap r) :
    ∃ s₂, insUp c (some t.addr) t.keys.length pos (.insertIt up r.ptr) s₁ =
        .ok (.stop .success, s₂) ∧
      Rep (h := h + 1) s₂.heap (⟨t.addr, t.keys.insertIdx (searchIdx up t.keys) up,
        (ca ++ kid' :: cb).insertIdx (searchIdx up t.keys + 1) r⟩ : Node K (Tree K h)) ∧
      Changed s₁ s₂ [t.addr] [] [] := by
  have hlen : (ca ++ kid' :: cb).length = t.keys.length + 1 := by
    rw [← hkids, f.kids, List.length_append, List.length_append, List.length_cons,
      List.length_cons]
  obtain ⟨s₂, hrun, hnode, hch⟩ := insertInNode_ok (c := c) (r := r) (hc.node_set f hptr) hlen
    hroom up
  refine ⟨s₂, by rw [insUp, if_pos hroom]; exact hrun, ⟨hnode, fun x hx => ?_⟩, hch⟩
  have hmem : x ∈ ca ++ kid' :: r :: cb := by
    rw [List.mem_append, List.mem_cons, List.mem_cons]
    rcases List.eq_or_mem_of_mem_insertIdx hx with rfl | hx
    · exact .inr (.inr (.inl rfl))
    · exact (List.mem_append.1 hx).imp id fun hx => (List.mem_cons.1 hx).imp id .inr
  obtain ⟨hx, haddrs⟩ := hc.kids_split hl hr x hmem
  exact hch.rep hx fun a ha => ⟨List.mem_singleton.not.2 (haddrs a ha).1, List.not_mem_nil⟩

/-- The child was split, and the node, being full, is split as well. -/
theorem Called.full_ok {l u : Node K (Tree K h)} {up' : K}
    (hc : Called s₁ t ca cb kid (.split kid' up r)) (f : Focus t pos ka kb ca kid cb)
    (hptr : kid'.ptr = kid.ptr) (hkids : t.kids.length = t.keys.length + 1)
    (hfull : t.keys.length = c.M - 1) (hpos : pos ≤ t.keys.length)
    (hl : Rep s₁.heap kid') (hr : Rep s₁.heap r)
    (hsplit : Node.splitAt c.min (ka ++ up :: kb) (ca ++ kid' :: r :: cb) t.addr
      (c.allocNode s₁.allocated) = some (l, up', u)) :
    ∃ s₂, insUp c (some t.addr) t.keys.length pos (.insertIt up r.ptr) s₁ =
        .ok (.insertIt up' (Tree.ptr (h := h + 1) u), s₂) ∧
      Rep (h := h + 1) s₂.heap l ∧ Rep (h := h + 1) s₂.heap u ∧
      Changed s₁ s₂ [t.addr] [c.allocNode s₁.allocated] [] := by
  have hM := c.three_le
  have hlen : (ca ++ kid' :: cb).length = t.keys.length + 1 := by
    rw [← hkids, f.kids, List.length_append, List.length_append, List.length_cons,
      List.length_cons]
  obtain ⟨s₂, l', up'', u', hrun, hsplit', hnodeL, hnodeU, hch⟩ :=
    overflow_ok (c := c) (r := r) (hc.node_set f hptr) hlen hfull hpos hc.self_mem up
  -- the two descriptions of the split agree
  have hks : t.keys.insertIdx pos up = ka ++ up :: kb := by
    conv_lhs => rw [← f.lenA, f.keys]
    exact insertIdx_at ka kb up
  have hcs : (ca ++ kid' :: cb).insertIdx (pos + 1) r = ca ++ kid' :: r :: cb := by
    rw [← f.lenC]
    exact insertIdx_after ca kid' cb r
  simp only [hks, hcs] at hsplit'
  cases hsplit.symm.trans hsplit'
  have hrep : ∀ x ∈ ca ++ kid' :: r :: cb, Rep s₂.heap x := by
    intro x hx
    obtain ⟨hx, haddrs⟩ := hc.kids_split hl hr x hx
    refine hch.rep hx fun a ha => ⟨List.mem_singleton.not.2 (haddrs a ha).1, ?_⟩
    rw [List.mem_singleton]
    exact fun he => c.fresh _ (he ▸ (haddrs a ha).2)
  have hparts : u.addr = c.allocNode s₁.allocated ∧
      (∀ x ∈ l.kids, x ∈ ca ++ kid' :: r :: cb) ∧ ∀ x ∈ u.kids, x ∈ ca ++ kid' :: r :: cb := by
    rw [Node.splitAt] at hsplit
    split at hsplit
    · cases hsplit
    · cases hsplit
      exact ⟨rfl, fun x => List.mem_of_mem_take, fun x => List.mem_of_mem_drop⟩
  refine ⟨s₂, ?_, ⟨hnodeL, fun x hx => hrep x (hparts.2.1 x hx)⟩,
    ⟨hnodeU, fun x hx => hrep x (hparts.2.2 x hx)⟩, hch⟩
  rw [insUp, if_neg (by omega)]
  exact hrun.trans (by rw [← hparts.1]; rfl)

end Called

private theorem called_ok {key : K} {lo : Nat} {t : Node K (Tree K h)} {pos : Nat} {ka kb : List K}
    {ca cb : List (Tree K h)} {kid : Tree K h} {s s₁ : Mem K} {new : List Addr}
    (ht : Rep (h := h + 1) s.heap t) (hnd : (Tree.addrs (h := h + 1) t).Nodup)
    (hal : ∀ a ∈ Tree.addrs (h := h + 1) t, a ∈ s.allocated) (hals : s.allocated.Nodup)
    (f : Focus t pos ka kb ca kid cb) (hwf : kid.WF c lo) (hch : Changed s s₁ kid.addrs new [])
    (hout : s₁.allocated = (insT c h kid key s.allocated).2) :
    Called s₁ t ca cb kid (insT c h kid key s.allocated).1 := by
  have hself : t.addr ∈ s.allocated := hal _ (List.mem_cons_self ..)
  have hsub : ∀ x ∈ t.kids, ∀ a ∈ x.addrs, a ∈ s.allocated := fun x hx a ha =>
    hal a (List.mem_cons_of_mem _ (List.mem_flatMap.2 ⟨x, hx, ha⟩))
  have hmem : ∀ x ∈ ca ++ cb, x ∈ t.kids := fun x hx => by
    rw [f.kids]
    rcases List.mem_append.1 hx with hx | hx
    · exact List.mem_append_left _ hx
    · exact List.mem_append_right _ (List.mem_cons_of_mem _ hx)
  -- the new nodes are none of the old
  have hfresh : ∀ a ∈ s.allocated, a ∉ new := fun a ha hnew => by
    have hnodup := insT_nodup (c := c) key h lo kid s.allocated hwf hals
    rw [← hout, hch.allocated, List.nodup_append] at hnodup
    exact hnodup.2.2 a hnew a ha rfl
  have hold : ∀ a ∈ s.allocated, a ∈ s₁.allocated := fun a ha => by
    rw [hch.allocated]
    exact List.mem_append_right _ ha
  obtain ⟨hself_out, -, hrest⟩ := addrs_disjoint f.kids hnd
  refine ⟨ht.1.congr (hch.heap _ hself_out (hfresh _ hself)), fun x hx => ?_, hold _ hself,
    fun x hx a ha => ⟨fun he => (hrest x hx).1 (he ▸ ha), hold a (hsub x (hmem x hx) a ha)⟩,
    fun a ha => ?_⟩
  · exact hch.rep (ht.2 x (hmem x hx)) fun a ha =>
      ⟨(hrest x hx).2 a ha, hfresh a (hsub x (hmem x hx) a ha)⟩
  · obtain ⟨new', hnew', hperm⟩ := insT_addrs (c := c) key h lo kid s.allocated hwf
    rw [← hout, hch.allocated] at hnew'
    obtain rfl : new = new' := List.append_cancel_right hnew'
    rcases List.mem_append.1 (hperm.mem_iff.1 ha) with ha | ha
    · refine ⟨fun he => hfresh _ hself (he ▸ ha), ?_⟩
      rw [hch.allocated]
      exact List.mem_append_left _ ha
    · exact ⟨fun he => hself_out (he ▸ ha), hold a (hsub kid f.kid_mem a ha)⟩

theorem ins_ok (key : K) : ∀ (h lo fuel : Nat) (t : Tree K h) (s : Mem K), t.WF c lo →
    Rep s.heap t → t.addrs.Nodup → (∀ a ∈ t.addrs, a ∈ s.allocated) → s.allocated.Nodup →
    h < fuel → ∃ s' new, InsRan c fuel t key s (insT c h t key s.allocated).1 s' ∧
      Changed s s' t.addrs new [] ∧ s'.allocated = (insT c h t key s.allocated).2 := by
  intro h
  induction h with
  | zero =>
      intro lo fuel t s _ _ _ _ _ hfuel
      obtain ⟨fuel, rfl⟩ : ∃ f, fuel = f + 1 := ⟨fuel - 1, by omega⟩
      exact ⟨s, [], .split rfl trivial trivial, Changed.refl _ _, rfl⟩
  | succ h ih =>
      intro lo fuel (t : Node K (Tree K h)) s ⟨hge, hle, hkids, hwf⟩ hrep hnd hal hals hfuel
      obtain ⟨fuel, rfl⟩ : ∃ f, fuel = f + 1 := ⟨fuel - 1, by omega⟩
      have step := Node.ins_cases (insT c h) hkids hle key s.allocated
      change ∃ s' new, InsRan (h := h + 1) c (fuel + 1) t key s
        (Node.ins c (insT c h) t key s.allocated).1 s' ∧
          Changed s s' (Tree.addrs (h := h + 1) t) new [] ∧
            s'.allocated = (Node.ins c (insT c h) t key s.allocated).2
      generalize Node.ins c (insT c h) t key s.allocated = out at step ⊢
      -- the call on the child
      have call : ∀ {ka kb ca kid cb out al'}, Focus t (searchIdx key t.keys) ka kb ca kid cb →
          insT c h kid key s.allocated = (out, al') → ∃ s₁ new, InsRan c fuel kid key s out s₁ ∧
            Changed s s₁ (Tree.addrs (h := h + 1) t) new [] ∧ s₁.allocated = al' ∧
              Called s₁ t ca cb kid out ∧ out.Keeps kid := by
        intro ka kb ca kid cb out al' f hkid
        obtain ⟨-, hndk, -⟩ := addrs_disjoint f.kids hnd
        have hsub : ∀ a ∈ kid.addrs, a ∈ Tree.addrs (h := h + 1) t := fun a ha =>
          List.mem_cons_of_mem _ (List.mem_flatMap.2 ⟨kid, f.kid_mem, ha⟩)
        obtain ⟨s₁, new, hran, hch, hout⟩ := ih c.min fuel kid s (hwf kid f.kid_mem)
          (hrep.2 kid f.kid_mem) hndk (fun a ha => hal a (hsub a ha)) hals (by omega)
        have hcalled := called_ok hrep hnd hal hals f (hwf kid f.kid_mem) hch hout
        have hkeeps := insT_keeps (c := c) key h c.min kid s.allocated (hwf kid f.kid_mem)
        rw [hkid] at hran hout hcalled hkeeps
        exact ⟨s₁, new, hran, hch.mono hsub, hout, hcalled, hkeeps⟩
      have own : ∀ {new : List Addr}, ∀ a ∈ [t.addr], a ∈ Tree.addrs (h := h + 1) t ∨ a ∈ new :=
        fun a ha => .inl (List.mem_singleton.1 ha ▸ List.mem_cons_self ..)
      cases step with
      | found hfound => exact ⟨s, [], .dup (ins_found hrep.1 hle hfound), Changed.refl _ _, rfl⟩
      | @dup ka kb ca kid cb al' f hne hkid =>
          obtain ⟨s₁, new, hran, hch, hout, -, -⟩ := call f hkid
          cases hran with
          | dup hrun =>
              refine ⟨s, new, .dup ?_, hch, hout⟩
              exact (ins_descend hrep.1 hle f hne).trans (by rw [bind_ok hrun]; rfl)
      | @done ka kb ca kid cb kid' al' f hne hkid =>
          obtain ⟨s₁, new, hran, hch, hout, hcalled, hkeeps⟩ := call f hkid
          cases hran with
          | done hrun hrep' =>
              refine ⟨s₁, new, .done ?_ (hcalled.done_rep f hkeeps hrep'), hch, hout⟩
              exact (ins_descend hrep.1 hle f hne).trans (by rw [bind_ok hrun]; rfl)
      | @room ka kb ca kid cb kid' up r al' f hne hkid hroom =>
          obtain ⟨s₁, new, hran, hch, hout, hcalled, hkeeps⟩ := call f hkid
          cases hran with
          | split hrun hl hr =>
              obtain ⟨s₂, hrun₂, hrep₂, hch₂⟩ := hcalled.room_ok f hkeeps hkids hroom hl hr
              refine ⟨s₂, new, .done ?_ hrep₂, hch.trans hch₂ (fun a ha => .inl ha) own,
                hch₂.allocated.trans hout⟩
              exact (ins_descend hrep.1 hle f hne).trans (by rw [bind_ok hrun]; exact hrun₂)
      | @full ka kb ca kid cb kid' up r al' up' l u f hne hkid hfull hsplit =>
          obtain ⟨s₁, new, hran, hch, hout, hcalled, hkeeps⟩ := call f hkid
          cases hran with
          | split hrun hl hr =>
              obtain ⟨s₂, hrun₂, hl₂, hu₂, hch₂⟩ := hcalled.full_ok f hkeeps hkids hfull
                (searchIdx_le key t.keys) hl hr (hout ▸ hsplit)
              refine ⟨s₂, c.allocNode s₁.allocated :: new, .split ?_ hl₂ hu₂,
                hch.trans hch₂ (fun a ha => .inl ha) own, ?_⟩
              · exact (ins_descend hrep.1 hle f hne).trans (by rw [bind_ok hrun]; exact hrun₂)
              · rw [hch₂.allocated, hout]
                rfl

end SatAllocatorTest.Ports.Btree
