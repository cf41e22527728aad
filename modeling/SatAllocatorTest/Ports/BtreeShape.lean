import SatAllocatorTest.Ports.BtreeSteps
import SatAllocatorTest.Ports.BtreeNodes

/-!
# Occupancy and addresses

What `insT` and `delT` keep of a tree whatever order its keys are in: the
occupancy bounds `Tree.WF`, and the addresses of its nodes, to which an
insertion adds those it allocates and from which a deletion takes those it
frees.

Main results:

* `insT_wf`, `insT_addrs` — for an insertion;
* `delT_fits`, `delT_addrs` — for a deletion; a node that comes back with
  `LessKeys` is `Short`, one key below its bound and otherwise in order.
-/

namespace SatAllocatorTest.Ports.Btree

open SatAllocatorTest.Verified.Positions
open SatAllocatorTest.Verified.Interleave
open SatAllocatorTest.Ports.Btree.Tree

variable {K : Type} {c : Cfg K} {h lo : Nat}

theorem Tree.WF.mono {lo' : Nat} (hle : lo' ≤ lo) : ∀ {h : Nat} {t : Tree K h},
    WF c lo t → WF c lo' t
  | 0, _, _ => trivial
  | _ + 1, _, ⟨hlo, hrest⟩ => ⟨Nat.le_trans hle hlo, hrest⟩

/-- A node one key below the bound `lo`, with everything under it in order. -/
def Tree.Short (c : Cfg K) (lo : Nat) : {h : Nat} → Tree K h → Prop
  | 0, _ => False
  | _ + 1, t =>
      (Node.keys t).length + 1 = lo ∧ (Node.kids t).length = (Node.keys t).length + 1 ∧
        ∀ k ∈ Node.kids t, WF c c.min k

/-- What the status of a deletion says about the tree that comes with it. -/
def Removed.Fits (c : Cfg K) (lo : Nat) (r : Removed (Tree K h)) : Prop :=
  (r.status = .lessKeys → r.tree.Short c lo) ∧ (r.status ≠ .lessKeys → r.tree.WF c lo)

/-- The nodes of what an insertion into `t` leaves. -/
def Inserted.addrs (t : Tree K h) : Inserted (Tree K h) K → List Addr
  | .dup => t.addrs
  | .done t' => t'.addrs
  | .split l _ r => l.addrs ++ r.addrs

/-- The occupancy of what an insertion leaves: the halves of a split are both
full enough. -/
def Inserted.Fits (c : Cfg K) (lo : Nat) : Inserted (Tree K h) K → Prop
  | .dup => True
  | .done t' => t'.WF c lo
  | .split l _ r => l.WF c c.min ∧ r.WF c c.min

variable [LinearOrder K]

/-! ## Insertion -/

theorem insT_wf (key : K) : ∀ (h lo : Nat) (t : Tree K h) (al : List Addr), lo ≤ c.min →
    t.WF c lo → (insT c h t key al).1.Fits c lo := by
  have hmin := c.min_two
  have hM := c.three_le
  intro h
  induction h with
  | zero => exact fun _ _ _ _ _ => ⟨trivial, trivial⟩
  | succ h ih =>
      intro lo (t : Node K (Tree K h)) al hlo ⟨hge, hle, hkids, hwf⟩
      -- one step at `t`; `ih` is about the child it descends into
      have step := Node.ins_cases (insT c h) hkids hle key al
      change Inserted.Fits (h := h + 1) c lo (Node.ins c (insT c h) t key al).1
      generalize Node.ins c (insT c h) t key al = out at step ⊢
      have sub : ∀ {kid kid' ca cb up r al'}, t.kids = ca ++ kid :: cb →
          insT c h kid key al = (.split kid' up r, al') →
          ∀ x ∈ ca ++ kid' :: r :: cb, x.WF c c.min := by
        intro kid kid' ca cb up r al' hk hkid
        have hkid' := ih c.min kid al (Nat.le_refl _) (hwf kid (by simp [hk]))
        rw [hkid] at hkid'
        rw [hk] at hwf
        simp only [List.forall_mem_append, List.forall_mem_cons] at hwf ⊢
        exact ⟨hwf.1, hkid'.1, hkid'.2, hwf.2.2⟩
      cases step with
      | found => trivial
      | dup => trivial
      | @done ka kb ca kid cb kid' al' f _ hkid =>
          have hkid' := ih c.min kid al (Nat.le_refl _) (hwf kid f.kid_mem)
          rw [hkid] at hkid'
          rw [f.kids] at hwf hkids
          simp only [List.forall_mem_append, List.forall_mem_cons] at hwf
          refine ⟨hge, hle, by simpa using hkids, ?_⟩
          simp only [List.forall_mem_append, List.forall_mem_cons]
          exact ⟨hwf.1, hkid', hwf.2.2⟩
      | @room ka kb ca kid cb kid' up r al' f _ hkid hroom =>
          have hpos := searchIdx_le up t.keys
          have hlen : (ca ++ kid' :: cb).length = t.keys.length + 1 := by
            rw [← hkids, f.kids]
            simp
          have hkeys' := List.length_insertIdx_of_le_length hpos up
          have hkids' := List.length_insertIdx_of_le_length
            (show searchIdx up t.keys + 1 ≤ (ca ++ kid' :: cb).length by omega) r
          refine ⟨by simp only [hkeys']; omega, by simp only [hkeys']; omega,
            by simp only [hkeys', hkids', hlen], fun x hx => sub f.kids hkid x ?_⟩
          have := (List.mem_insertIdx (by omega)).1 hx
          simp only [List.mem_append, List.mem_cons] at this ⊢
          tauto
      | @full ka kb ca kid cb kid' up r al' up' l u f _ hkid hfull hsplit =>
          have hlen := f.keys_length
          have := f.lenA
          have := f.lenB
          have := f.lenC
          have hall := sub f.kids hkid
          generalize hks : ka ++ up :: kb = ks at hsplit
          generalize hcs : ca ++ kid' :: r :: cb = cs at hsplit hall
          have hks' : ks.length = c.M := by
            rw [← hks, List.length_append, List.length_cons]
            omega
          have hcs' : cs.length = c.M + 1 := by
            rw [← hcs, List.length_append, List.length_cons, List.length_cons]
            omega
          have hc1 := c.min_pos
          rw [Node.splitAt] at hsplit
          split at hsplit
          · cases hsplit
          · cases hsplit
            refine ⟨⟨?_, ?_, ?_, fun x hx => hall x (List.mem_of_mem_take hx)⟩,
              ⟨?_, ?_, ?_, fun x hx => hall x (List.mem_of_mem_drop hx)⟩⟩
            all_goals
              simp only [List.length_take, List.length_drop, hks', hcs']
              omega

/-- The nodes after an insertion: those of the tree and the newly allocated. -/
theorem insT_addrs (key : K) : ∀ (h lo : Nat) (t : Tree K h) (al : List Addr), t.WF c lo →
    ∃ new, (insT c h t key al).2 = new ++ al ∧
      ((insT c h t key al).1.addrs t).Perm (new ++ t.addrs) := by
  intro h
  induction h with
  | zero => exact fun _ t _ _ => ⟨[], rfl, List.Perm.refl _⟩
  | succ h ih =>
      intro lo (t : Node K (Tree K h)) al ⟨hge, hle, hkids, hwf⟩
      have step := Node.ins_cases (insT c h) hkids hle key al
      change ∃ new, (Node.ins c (insT c h) t key al).2 = new ++ al ∧
        (Inserted.addrs (h := h + 1) t (Node.ins c (insT c h) t key al).1).Perm
          (new ++ Tree.addrs (h := h + 1) t)
      generalize Node.ins c (insT c h) t key al = out at step ⊢
      cases step with
      | found => exact ⟨[], rfl, List.Perm.refl _⟩
      | @dup ka kb ca kid cb al' f _ hkid =>
          obtain ⟨new, hnew, hperm⟩ := ih c.min kid al (hwf kid f.kid_mem)
          rw [hkid] at hnew hperm
          obtain rfl : new = [] := by simpa [Inserted.addrs] using hperm.length_eq
          exact ⟨[], hnew, List.Perm.refl _⟩
      | @done ka kb ca kid cb kid' al' f _ hkid =>
          obtain ⟨new, hnew, hperm⟩ := ih c.min kid al (hwf kid f.kid_mem)
          rw [hkid] at hnew hperm
          refine ⟨new, hnew, List.perm_iff_count.2 fun a => ?_⟩
          have := List.perm_iff_count.1 hperm a
          simp only [Inserted.addrs, Tree.addrs, f.kids, List.count_cons, List.count_append,
            List.flatMap_append, List.flatMap_cons] at this ⊢
          omega
      | @room ka kb ca kid cb kid' up r al' f _ hkid hroom =>
          obtain ⟨new, hnew, hperm⟩ := ih c.min kid al (hwf kid f.kid_mem)
          rw [hkid] at hnew hperm
          have hlen : (ca ++ kid' :: cb).length = t.keys.length + 1 := by
            rw [← hkids, f.kids]
            simp
          have hins := (List.perm_insertIdx r (ca ++ kid' :: cb)
            (i := searchIdx up t.keys + 1) (by have := searchIdx_le up t.keys; omega)).flatMap_right
              Tree.addrs
          refine ⟨new, hnew, List.perm_iff_count.2 fun a => ?_⟩
          have h₁ := List.perm_iff_count.1 hperm a
          have h₂ := List.perm_iff_count.1 hins a
          simp only [Inserted.addrs, Tree.addrs, f.kids, List.count_cons, List.count_append,
            List.flatMap_append, List.flatMap_cons] at h₁ h₂ ⊢
          omega
      | @full ka kb ca kid cb kid' up r al' up' l u f _ hkid hfull hsplit =>
          obtain ⟨new, hnew, hperm⟩ := ih c.min kid al (hwf kid f.kid_mem)
          rw [hkid] at hnew hperm
          refine ⟨c.allocNode al' :: new, congrArg (List.cons (c.allocNode al')) hnew,
            List.perm_iff_count.2 fun a => ?_⟩
          have h₁ := List.perm_iff_count.1 hperm a
          rw [Node.splitAt] at hsplit
          split at hsplit
          · cases hsplit
          · cases hsplit
            have h₂ := congrArg (fun l => List.count a (l.flatMap Tree.addrs))
              (List.take_append_drop (c.min + 1) (ca ++ kid' :: r :: cb))
            simp only [Inserted.addrs, Tree.addrs, f.kids, List.count_cons, List.count_append,
              List.flatMap_append, List.flatMap_cons, List.cons_append] at h₁ h₂ ⊢
            omega

/-- The pointer to what an insertion leaves in place of `t`. -/
def Inserted.Keeps (t : Tree K h) : Inserted (Tree K h) K → Prop
  | .dup => True
  | .done t' => t'.ptr = t.ptr
  | .split l _ _ => l.ptr = t.ptr

theorem insT_keeps (key : K) : ∀ (h lo : Nat) (t : Tree K h) (al : List Addr), t.WF c lo →
    (insT c h t key al).1.Keeps t := by
  intro h
  cases h with
  | zero => exact fun _ _ _ _ => rfl
  | succ h =>
      intro lo (t : Node K (Tree K h)) al ⟨_, hle, hkids, _⟩
      have step := Node.ins_cases (insT c h) hkids hle key al
      change Inserted.Keeps (h := h + 1) t (Node.ins c (insT c h) t key al).1
      generalize Node.ins c (insT c h) t key al = out at step ⊢
      cases step with
      | found => trivial
      | dup => trivial
      | done => rfl
      | room => rfl
      | full f _ _ _ hsplit =>
          rw [Node.splitAt] at hsplit
          split at hsplit
          · cases hsplit
          · cases hsplit
            rfl

/-- No address is allocated twice. -/
theorem insT_nodup (key : K) : ∀ (h lo : Nat) (t : Tree K h) (al : List Addr), t.WF c lo →
    al.Nodup → (insT c h t key al).2.Nodup := by
  intro h
  induction h with
  | zero => exact fun _ _ _ _ hal => hal
  | succ h ih =>
      intro lo (t : Node K (Tree K h)) al ⟨_, hle, hkids, hwf⟩ hal
      have step := Node.ins_cases (insT c h) hkids hle key al
      change (Node.ins c (insT c h) t key al).2.Nodup
      generalize Node.ins c (insT c h) t key al = out at step ⊢
      have sub : ∀ {kid out al'}, kid ∈ t.kids → insT c h kid key al = (out, al') → al'.Nodup :=
        fun {kid _ _} hkid heq => by simpa only [heq] using ih c.min kid al (hwf kid hkid) hal
      cases step with
      | found => exact hal
      | dup f _ hkid => exact sub f.kid_mem hkid
      | done f _ hkid => exact sub f.kid_mem hkid
      | room f _ hkid _ => exact sub f.kid_mem hkid
      | full f _ hkid _ _ => exact List.nodup_cons.2 ⟨c.fresh _, sub f.kid_mem hkid⟩

/-! ## The swap with the predecessor -/

/-- What the swap with the last key below `t` finds and leaves. -/
structure SwappedLast (c : Cfg K) (lo : Nat) (t : Tree K h) (key k : K) (t' : Tree K h) :
    Prop where
  wf : t'.WF c lo
  addrs : t'.addrs = t.addrs
  ptr : t'.ptr = t.ptr
  toList : ∃ init, t.toList = init ++ [k] ∧ t'.toList = init ++ [key]

omit [LinearOrder K] in
theorem swapLast_spec (key : K) : ∀ (h lo : Nat) (t : Tree K (h + 1)), 1 ≤ lo → t.WF c lo →
    ∃ k t', swapLast h t key = some (k, t') ∧ SwappedLast c lo t key k t' := by
  intro h
  induction h with
  | zero =>
      intro lo (t : Node K (Tree K 0)) hlo ⟨hge, hle, hkids, hwf⟩
      obtain ⟨addr, keys, kids⟩ := t
      obtain ⟨ks, k, rfl⟩ := split_last (l := keys) (by simp only at hge; omega)
      obtain ⟨cs, x, rfl⟩ := split_last (l := kids) (by simp only at hkids; omega)
      simp only [List.length_append, List.length_singleton] at hge hle hkids
      refine ⟨k, (⟨addr, ks ++ [key], cs ++ [x]⟩ : Node K (Tree K 0)), ?_, ?_, rfl, rfl,
        weave (cs.map Tree.toList) ks, ?_, ?_⟩
      · change Node.swapLeaf _ key = _
        simp [Node.swapLeaf]
        rfl
      · exact ⟨by simpa using hge, by simpa using hle, by simpa using hkids, hwf⟩
      all_goals
        refine Eq.trans (congrArg (weave · _) (show List.map _ (_ ++ [x]) = _ from List.map_append)) ?_
        exact weave_split _ [] [[]] _ ks (by simpa using hkids)
  | succ h ih =>
      intro lo (t : Node K (Tree K (h + 1))) hlo ⟨hge, hle, hkids, hwf⟩
      obtain ⟨cs, x, hcs⟩ := split_last (l := t.kids) (by omega)
      have hlen : cs.length = t.keys.length := by
        rw [hcs, List.length_append, List.length_singleton] at hkids
        omega
      obtain ⟨k, x', hx, hwf', haddrs, hptr, init, hinit, hinit'⟩ :=
        ih c.min x c.min_pos (hwf x (by simp [hcs]))
      rw [hcs] at hwf
      simp only [List.forall_mem_append, List.forall_mem_singleton] at hwf
      have toList : ∀ y : Tree K (h + 1), weave ((cs ++ [y]).map Tree.toList) t.keys =
          before (cs.map Tree.toList) t.keys ++ y.toList := by
        intro y
        have := weave_focus y.toList [] [] rfl (cs.map Tree.toList) t.keys (by simpa using hlen)
        simpa using this
      refine ⟨k, (⟨t.addr, t.keys, cs ++ [x']⟩ : Node K (Tree K (h + 1))), ?_, ?_, ?_, rfl,
        before (cs.map Tree.toList) t.keys ++ init, ?_, ?_⟩
      · change Node.swapKid (swapLast h) t key = _
        rw [Node.swapKid, hcs, ← hlen, getElem?_around]
        simp only [hx, set_around]
        rfl
      · refine ⟨hge, hle, by simpa using hlen, ?_⟩
        simp only [List.forall_mem_append, List.forall_mem_singleton]
        exact ⟨hwf.1, hwf'⟩
      · change t.addr :: (cs ++ [x']).flatMap Tree.addrs = t.addr :: t.kids.flatMap Tree.addrs
        rw [hcs, List.flatMap_append, List.flatMap_append, List.flatMap_singleton,
          List.flatMap_singleton, haddrs]
      · change weave (t.kids.map Tree.toList) t.keys = _
        rw [hcs, toList, hinit, List.append_assoc]
      · change weave ((cs ++ [x']).map Tree.toList) t.keys = _
        rw [toList, hinit', List.append_assoc]

/-! ## Rebalancing -/

/-- Every child of a node is in order, but the one at `pos` is one key short. -/
def ShortAt (c : Cfg K) (t : Node K (Tree K (h + 1))) (pos : Nat) : Prop :=
  ∃ ca kid cb, t.kids = ca ++ kid :: cb ∧ ca.length = pos ∧ kid.Short c c.min ∧
    (∀ x ∈ ca, x.WF c c.min) ∧ ∀ x ∈ cb, x.WF c c.min

section

variable {t : Node K (Tree K (h + 1))} {ca cb : List (Tree K (h + 1))}
  {l r : Tree K (h + 1)} {pos : Nat}

omit [LinearOrder K]

theorem ShortAt.of_left (hs : ShortAt c t pos) (hkids : t.kids = ca ++ l :: r :: cb)
    (hpos : pos = ca.length) : l.Short c c.min ∧ r.WF c c.min ∧
      (∀ x ∈ ca, x.WF c c.min) ∧ ∀ x ∈ cb, x.WF c c.min := by
  obtain ⟨ca', kid, cb', hk, hlen, hshort, hca, hcb⟩ := hs
  obtain ⟨rfl, hrest⟩ := List.append_inj (hk.symm.trans hkids) (hlen.trans hpos)
  cases hrest
  exact ⟨hshort, hcb r (List.mem_cons_self ..), hca, fun x hx => hcb x (List.mem_cons_of_mem _ hx)⟩

theorem ShortAt.of_right (hs : ShortAt c t pos) (hkids : t.kids = ca ++ l :: r :: cb)
    (hpos : pos = ca.length + 1) : r.Short c c.min ∧ l.WF c c.min ∧
      (∀ x ∈ ca, x.WF c c.min) ∧ ∀ x ∈ cb, x.WF c c.min := by
  obtain ⟨ca', kid, cb', hk, hlen, hshort, hca, hcb⟩ := hs
  have hkids' : t.kids = (ca ++ [l]) ++ r :: cb := by simp [hkids]
  obtain ⟨rfl, hrest⟩ := List.append_inj (hk.symm.trans hkids') (by simp; omega)
  cases hrest
  exact ⟨hshort, hca l (by simp), fun x hx => hca x (by simp [hx]), hcb⟩

theorem borrowLeft_wf {l r : Node K (Tree K h)} {k : K} (hl : Tree.WF (h := h + 1) c c.min l)
    (hspare : c.min < l.keys.length) (hr : Tree.Short (h := h + 1) c c.min r) :
    Tree.WF (h := h + 1) c c.min (l.borrowLeft k r).1 ∧
      Tree.WF (h := h + 1) c c.min (l.borrowLeft k r).2.2 := by
  have hmin := c.min_two
  have hmin1 := c.min_pos
  obtain ⟨al, lkeys, lkids⟩ := l
  obtain ⟨ar, rks, rcs⟩ := r
  obtain ⟨-, hlM, hlk, hlw⟩ := hl
  obtain ⟨hrlen, hrk, hrw⟩ := hr
  simp only at hspare hlM hlk hlw hrlen hrk hrw
  obtain ⟨lks, k', rfl⟩ := split_last (l := lkeys) (by omega)
  obtain ⟨lcs, x, rfl⟩ := split_last (l := lkids) (by omega)
  rw [Node.borrowLeft_eq]
  simp only [List.length_append, List.length_singleton, List.forall_mem_append,
    List.forall_mem_singleton] at hspare hlM hlk hlw
  refine ⟨⟨by simp only; omega, by simp only; omega, by simp only; omega, hlw.1⟩,
    by simp only [List.length_cons]; omega, by simp only [List.length_cons]; omega,
    by simp only [List.length_cons]; omega, List.forall_mem_cons.2 ⟨hlw.2, hrw⟩⟩

theorem borrowRight_wf {l r : Node K (Tree K h)} {k : K} (hl : Tree.Short (h := h + 1) c c.min l)
    (hspare : c.min < r.keys.length) (hr : Tree.WF (h := h + 1) c c.min r) :
    Tree.WF (h := h + 1) c c.min (l.borrowRight k r).1 ∧
      Tree.WF (h := h + 1) c c.min (l.borrowRight k r).2.2 := by
  have hmin := c.min_two
  have hmin1 := c.min_pos
  obtain ⟨al, lks, lcs⟩ := l
  obtain ⟨ar, rkeys, rkids⟩ := r
  obtain ⟨-, hrM, hrk, hrw⟩ := hr
  obtain ⟨hllen, hlk, hlw⟩ := hl
  simp only at hspare hrM hrk hrw hllen hlk hlw
  obtain ⟨k', rks, rfl⟩ := List.exists_cons_of_length_pos (l := rkeys) (by omega)
  obtain ⟨x, rcs, rfl⟩ := List.exists_cons_of_length_pos (l := rkids) (by omega)
  rw [Node.borrowRight_eq]
  simp only [List.length_cons, List.forall_mem_cons] at hspare hrM hrk hrw
  refine ⟨⟨?_, ?_, ?_, ?_⟩, ?_, ?_, ?_, hrw.2⟩
  case refine_4 =>
    simp only [List.forall_mem_append, List.forall_mem_singleton]
    exact ⟨hlw, hrw.1⟩
  all_goals
    simp only [List.length_append, List.length_singleton]
    omega

theorem merge_wf {l r : Node K (Tree K h)} {k : K} (hlk : l.kids.length = l.keys.length + 1)
    (hrk : r.kids.length = r.keys.length + 1)
    (hlen : l.keys.length + r.keys.length + 1 = 2 * c.min)
    (hl : ∀ x ∈ l.kids, x.WF c c.min) (hr : ∀ x ∈ r.kids, x.WF c c.min) :
    Tree.WF (h := h + 1) c c.min (l.merge k r) := by
  have hmin := c.min_two
  refine ⟨?_, ?_, ?_, List.forall_mem_append.2 ⟨hl, hr⟩⟩
  all_goals
    simp only [Node.merge, List.length_append, List.length_cons]
    omega

theorem Removed.fits_success {t : Tree K h} {freed : List Addr} (ht : t.WF c lo) :
    Removed.Fits c lo ⟨.success, t, freed⟩ :=
  ⟨(fun hs => nomatch hs), fun _ => ht⟩

/-- A node that has lost a key reports by its count. -/
theorem Removed.fits_counted {t : Node K (Tree K h)} {n : Nat} {freed : List Addr}
    (hn : n = t.keys.length) (hlo : lo ≤ n + 1) (hle : n ≤ c.M - 1)
    (hkids : t.kids.length = n + 1) (hwf : ∀ x ∈ t.kids, x.WF c c.min) :
    Removed.Fits (h := h + 1) c lo ⟨if lo ≤ n then .success else .lessKeys, t, freed⟩ := by
  subst hn
  by_cases hb : lo ≤ t.keys.length
  · rw [if_pos hb]
    exact fits_success ⟨hb, hle, hkids, hwf⟩
  · rw [if_neg hb]
    exact ⟨fun _ => ⟨show t.keys.length + 1 = lo by omega, hkids, hwf⟩, fun hne => absurd rfl hne⟩

end

omit [LinearOrder K] in
/-- The bounds hold again after a rebalancing, except at the node itself if that
reports `LessKeys`. -/
theorem rebalance_fits {t : Node K (Node K (Tree K h))} {pos : Nat} (hlo : 1 ≤ lo)
    (hge : lo ≤ t.keys.length) (hle : t.keys.length ≤ c.M - 1)
    (hkids : t.kids.length = t.keys.length + 1) (hpos : pos ≤ t.keys.length)
    (hs : ShortAt (h := h) c t pos) :
    Removed.Fits (h := h + 2) c lo (t.rebalance c.min lo pos) := by
  have hmin1 := c.min_pos
  have step := Node.rebalance_cases c.min lo hkids hpos (by omega)
  generalize t.rebalance c.min lo pos = out at step ⊢
  -- a borrowing leaves the node its size
  have resized : ∀ {ka kb ca cb k} {l r l' r' : Node K (Tree K h)}, t.keys = ka ++ k :: kb →
      t.kids = ca ++ l :: r :: cb → ∀ k' : K,
      (∀ x ∈ ca ++ l' :: r' :: cb, Tree.WF (h := h + 1) c c.min x) →
      Tree.WF (h := h + 2) c lo
        (⟨t.addr, ka ++ k' :: kb, ca ++ l' :: r' :: cb⟩ : Node K (Node K (Tree K h))) := by
    intro ka kb ca cb k l r l' r' hk hc k' hwf
    rw [hk] at hge hle hkids
    rw [hc] at hkids
    simp only [List.length_append, List.length_cons] at hge hle hkids
    refine ⟨?_, ?_, ?_, hwf⟩
    · simpa only [List.length_append, List.length_cons] using hge
    · simpa only [List.length_append, List.length_cons] using hle
    · change (ca ++ l' :: r' :: cb).length = (ka ++ k' :: kb).length + 1
      simpa only [List.length_append, List.length_cons] using hkids
  cases step with
  | @left ka kb ca cb k l r hk hc hlen hp hspare =>
      obtain ⟨hr, hl, hca, hcb⟩ := hs.of_right hc hp
      have hwf := borrowLeft_wf (k := k) hl hspare hr
      refine Removed.fits_success (h := h + 2) (resized hk hc _ ?_)
      exact List.forall_mem_append.2
        ⟨hca, List.forall_mem_cons.2 ⟨hwf.1, List.forall_mem_cons.2 ⟨hwf.2, hcb⟩⟩⟩
  | @right ka kb ca cb k l r hk hc hlen hp hspare _ =>
      obtain ⟨hl, hr, hca, hcb⟩ := hs.of_left hc hp
      have hwf := borrowRight_wf (k := k) hl hspare hr
      refine Removed.fits_success (h := h + 2) (resized hk hc _ ?_)
      exact List.forall_mem_append.2
        ⟨hca, List.forall_mem_cons.2 ⟨hwf.1, List.forall_mem_cons.2 ⟨hwf.2, hcb⟩⟩⟩
  | @merge ka kb ca cb k l r hk hc hlen hp =>
      have hwf : Tree.WF (h := h + 1) c c.min (l.merge k r) ∧
          (∀ x ∈ ca, Tree.WF (h := h + 1) c c.min x) ∧
            ∀ x ∈ cb, Tree.WF (h := h + 1) c c.min x := by
        rcases hp with ⟨hp, hr', -⟩ | ⟨hp, -, hl'⟩
        · obtain ⟨⟨hll, hlk, hlw⟩, ⟨hrge, hrle, hrk, hrw⟩, hca, hcb⟩ := hs.of_left hc hp
          exact ⟨merge_wf hlk hrk (by omega) hlw hrw, hca, hcb⟩
        · obtain ⟨⟨hrl, hrk, hrw⟩, ⟨hlge, hlle, hlk, hlw⟩, hca, hcb⟩ := hs.of_right hc hp
          exact ⟨merge_wf hlk hrk (by omega) hlw hrw, hca, hcb⟩
      have hk' := congrArg List.length hk
      have hc' := congrArg List.length hc
      simp only [List.length_append, List.length_cons] at hk' hc'
      refine Removed.fits_counted (h := h + 1) (t := ⟨t.addr, ka ++ kb, ca ++ l.merge k r :: cb⟩)
        (n := t.keys.length - 1) ?_ (by omega) (by omega) ?_ ?_
      · rw [List.length_append]
        omega
      · change (ca ++ l.merge k r :: cb).length = _
        rw [List.length_append, List.length_cons]
        omega
      exact List.forall_mem_append.2 ⟨hwf.2.1, List.forall_mem_cons.2 ⟨hwf.1, hwf.2.2⟩⟩

section

omit [LinearOrder K]

theorem borrowLeft_kids {C : Type} (l r : Node K C) (k : K) :
    (l.borrowLeft k r).1.addr = l.addr ∧ (l.borrowLeft k r).2.2.addr = r.addr ∧
      (l.borrowLeft k r).1.kids ++ (l.borrowLeft k r).2.2.kids = l.kids ++ r.kids := by
  unfold Node.borrowLeft
  split
  · rename_i x _ hx
    refine ⟨rfl, rfl, ?_⟩
    change l.kids.dropLast ++ x :: r.kids = _
    rw [List.append_cons, List.dropLast_append_getLast? x hx]
  · exact ⟨rfl, rfl, rfl⟩

theorem borrowRight_kids {C : Type} (l r : Node K C) (k : K) :
    (l.borrowRight k r).1.addr = l.addr ∧ (l.borrowRight k r).2.2.addr = r.addr ∧
      (l.borrowRight k r).1.kids ++ (l.borrowRight k r).2.2.kids = l.kids ++ r.kids := by
  unfold Node.borrowRight
  split
  · rename_i hx
    exact ⟨rfl, rfl, by simp [hx]⟩
  · exact ⟨rfl, rfl, rfl⟩

/-- Rebalancing moves children between the nodes that stay, and frees the one it
empties. -/
theorem rebalance_addrs {t : Node K (Node K (Tree K h))} {min pos : Nat}
    (hkids : t.kids.length = t.keys.length + 1) (hpos : pos ≤ t.keys.length)
    (hkeys : 0 < t.keys.length) :
    (Tree.addrs (h := h + 2) (t.rebalance min lo pos).tree ++
      (t.rebalance min lo pos).freed).Perm (Tree.addrs (h := h + 2) t) ∧
      (t.rebalance min lo pos).tree.addr = t.addr := by
  have step := Node.rebalance_cases min lo hkids hpos hkeys
  generalize t.rebalance min lo pos = out at step ⊢
  have node : ∀ s : Node K (Node K (Tree K h)), Tree.addrs (h := h + 2) s =
      s.addr :: s.kids.flatMap fun x => x.addr :: x.kids.flatMap Tree.addrs := fun _ => rfl
  -- a borrowing exchanges two children for two with the same children between them
  have exchange : ∀ {ca cb} {l r l' r' : Node K (Tree K h)} {ks}, t.kids = ca ++ l :: r :: cb →
      l'.addr = l.addr ∧ r'.addr = r.addr ∧ l'.kids ++ r'.kids = l.kids ++ r.kids →
      (Tree.addrs (h := h + 2)
        (⟨t.addr, ks, ca ++ l' :: r' :: cb⟩ : Node K (Node K (Tree K h))) ++ []).Perm
        (Tree.addrs (h := h + 2) t) := by
    intro ca cb l r l' r' ks hc ⟨hl, hr, hlr⟩
    refine List.perm_iff_count.2 fun a => ?_
    have := congrArg (fun cs => List.count a (cs.flatMap Tree.addrs)) hlr
    simp only [node, hc, hl, hr, List.flatMap_append, List.flatMap_cons, List.count_append,
      List.count_cons, List.append_nil] at this ⊢
    omega
  cases step with
  | left _ hc _ _ _ => exact ⟨exchange hc (borrowLeft_kids ..), rfl⟩
  | right _ hc _ _ _ _ => exact ⟨exchange hc (borrowRight_kids ..), rfl⟩
  | merge _ hc _ _ =>
      refine ⟨List.perm_iff_count.2 fun a => ?_, rfl⟩
      simp only [node, hc, Node.merge, List.flatMap_append, List.flatMap_cons, List.count_append,
        List.count_cons, List.count_nil]
      omega

end

/-! ## Deletion -/

omit [LinearOrder K] in
/-- The end of a deletion at an inner node keeps the bounds, whatever happened to
the keys of the node itself. -/
theorem afterKid_fits {t : Node K (Node K (Tree K h))} {pos : Nat} {ka kb : List K}
    {ca cb : List (Node K (Tree K h))} {kid : Node K (Tree K h)}
    {r : Removed (Node K (Tree K h))} (hlo : 1 ≤ lo) (ht : Tree.WF (h := h + 2) c lo t)
    (f : Focus t pos ka kb ca kid cb) (hr : Removed.Fits (h := h + 1) c c.min r) :
    Removed.Fits (h := h + 2) c lo (Node.afterKid c.min lo t pos r) := by
  obtain ⟨hge, hle, hkids, hwf⟩ := ht
  have hpos : pos ≤ t.keys.length := by
    rw [f.keys_length, f.lenA]
    omega
  have hkids' : (t.kids.set pos r.tree).length = t.keys.length + 1 :=
    List.length_set.trans hkids
  have hca : ∀ x ∈ ca, Tree.WF (h := h + 1) c c.min x :=
    fun x hx => hwf x (f.kids ▸ List.mem_append_left _ hx)
  have hcb : ∀ x ∈ cb, Tree.WF (h := h + 1) c c.min x :=
    fun x hx => hwf x (f.kids ▸ List.mem_append_right _ (List.mem_cons_of_mem _ hx))
  unfold Node.afterKid
  by_cases hs : r.status = .lessKeys
  · simp only [if_pos hs]
    exact rebalance_fits (t := { t with kids := t.kids.set pos r.tree }) hlo hge hle hkids' hpos
      ⟨ca, r.tree, cb, f.set_kid _, f.lenC, hr.1 hs, hca, hcb⟩
  · simp only [if_neg hs]
    refine ⟨fun h => absurd h hs, fun _ => ⟨hge, hle, hkids', ?_⟩⟩
    change ∀ x ∈ t.kids.set pos r.tree, Tree.WF (h := h + 1) c c.min x
    rw [f.set_kid]
    exact List.forall_mem_append.2 ⟨hca, List.forall_mem_cons.2 ⟨hr.2 hs, hcb⟩⟩

theorem delT_fits (key : K) : ∀ (h lo : Nat) (t : Tree K h), 1 ≤ lo → t.WF c lo →
    (delT c h lo t key).Fits c lo := by
  intro h
  induction h with
  | zero => exact fun _ _ _ _ => ⟨(fun hs => nomatch hs), fun _ => trivial⟩
  | succ h ih =>
      cases h with
      | zero =>
          intro lo (t : Node K (Tree K 0)) hlo ht
          change Removed.Fits (h := 1) c lo (t.delLeaf lo key)
          rcases t.delLeaf_cases lo key with ⟨hfound, heq⟩ | ⟨hne, heq⟩
          · rw [heq]
            obtain ⟨hge, hle, hkids, -⟩ := ht
            have hpos := (List.getElem?_eq_some_iff.1 hfound).1
            refine Removed.fits_counted (List.length_eraseIdx_of_lt hpos).symm (by omega)
              (by omega) ?_ (fun _ _ => trivial)
            change (t.kids.eraseIdx _).length = _
            rw [List.length_eraseIdx_of_lt (by omega)]
            omega
          · rw [heq]
            exact ⟨(fun hs => nomatch hs), fun _ => ht⟩
      | succ h =>
          intro lo (t : Node K (Node K (Tree K h))) hlo ht
          have hwf : ∀ kid ∈ t.kids, Tree.WF (h := h + 1) c c.min kid := ht.2.2.2
          have step := Node.del_cases c.min lo (delT c (h + 1) c.min)
            (t := t) ht.2.2.1 (fun kid hkid => by
              obtain ⟨k, kid', hk, -⟩ := swapLast_spec key h c.min kid c.min_pos (hwf kid hkid)
              exact ⟨k, kid', hk⟩)
          change Removed.Fits (h := h + 2) c lo
            (Node.del c.min lo (swapLast h) (delT c (h + 1) c.min) t key)
          generalize Node.del c.min lo (swapLast h) (delT c (h + 1) c.min) t key = out at step ⊢
          cases step with
          | @through ka kb ca kid cb f _ =>
              exact afterKid_fits hlo ht f (ih c.min kid c.min_pos (hwf kid f.kid_mem))
          | @swapped ka kb ca kid cb k kid' f hswap =>
              obtain ⟨k', kid'', hk, hkid⟩ :=
                swapLast_spec key h c.min kid c.min_pos (hwf kid f.kid_mem)
              cases hswap.symm.trans hk
              have hkeys : (ka ++ k :: kb).length = t.keys.length := by
                rw [f.keys_length, List.length_append, List.length_cons, List.length_cons]
              refine afterKid_fits hlo ?_
                ⟨rfl, f.kids, f.lenA, f.lenC, f.lenB⟩ (ih c.min kid' c.min_pos hkid.wf)
              change lo ≤ (ka ++ k :: kb).length ∧ (ka ++ k :: kb).length ≤ c.M - 1 ∧
                t.kids.length = (ka ++ k :: kb).length + 1 ∧ _
              rw [hkeys]
              exact ht

omit [LinearOrder K] in
/-- A node with a treated child, and the nodes that child gave up. -/
theorem set_addrs {t : Node K (Node K (Tree K h))} {pos : Nat} {ka kb : List K}
    {ca cb : List (Node K (Tree K h))} {kid : Node K (Tree K h)}
    {r : Removed (Node K (Tree K h))} (f : Focus t pos ka kb ca kid cb)
    (hr : (Tree.addrs (h := h + 1) r.tree ++ r.freed).Perm (Tree.addrs (h := h + 1) kid)) :
    (Tree.addrs (h := h + 2)
      (⟨t.addr, t.keys, t.kids.set pos r.tree⟩ : Node K (Node K (Tree K h))) ++ r.freed).Perm
      (Tree.addrs (h := h + 2) t) := by
  obtain ⟨g, hg⟩ : ∃ g : Node K (Tree K h) → List Addr, Tree.addrs (h := h + 1) = g := ⟨_, rfl⟩
  have node : ∀ s : Node K (Node K (Tree K h)), Tree.addrs (h := h + 2) s =
      s.addr :: s.kids.flatMap g := fun _ => by rw [← hg]; rfl
  rw [hg] at hr
  refine List.perm_iff_count.2 fun a => ?_
  have := List.perm_iff_count.1 hr a
  rw [f.set_kid, node, node, f.kids]
  simp only [List.flatMap_append, List.flatMap_cons, List.count_append,
    List.count_cons] at this ⊢
  omega

omit [LinearOrder K] in
theorem afterKid_addrs (min lo : Nat) {t : Node K (Node K (Tree K h))} {pos : Nat} {ka kb : List K}
    {ca cb : List (Node K (Tree K h))} {kid : Node K (Tree K h)}
    {r : Removed (Node K (Tree K h))} (hkeys : 0 < t.keys.length)
    (f : Focus t pos ka kb ca kid cb)
    (hr : (Tree.addrs (h := h + 1) r.tree ++ r.freed).Perm (Tree.addrs (h := h + 1) kid)) :
    (Tree.addrs (h := h + 2) (Node.afterKid min lo t pos r).tree ++
      (Node.afterKid min lo t pos r).freed).Perm (Tree.addrs (h := h + 2) t) ∧
      (Node.afterKid min lo t pos r).tree.addr = t.addr := by
  have hpos : pos ≤ t.keys.length := by
    rw [f.keys_length, f.lenA]
    omega
  have hset := set_addrs f hr
  unfold Node.afterKid
  by_cases hs : r.status = .lessKeys
  · simp only [if_pos hs]
    obtain ⟨hperm, haddr⟩ := rebalance_addrs (t := { t with kids := t.kids.set pos r.tree })
      (List.length_set.trans f.kids_length) hpos hkeys
    refine ⟨?_, haddr⟩
    rw [← List.append_assoc]
    exact (hperm.append_right _).trans hset
  · simp only [if_neg hs]
    exact ⟨hset, trivial⟩

/-- The nodes after a deletion: those of the tree, less the freed ones. -/
theorem delT_addrs (key : K) : ∀ (h lo : Nat) (t : Tree K h), 1 ≤ lo → t.WF c lo →
    ((delT c h lo t key).tree.addrs ++ (delT c h lo t key).freed).Perm t.addrs ∧
      (delT c h lo t key).tree.ptr = t.ptr := by
  intro h
  induction h with
  | zero => exact fun _ _ _ _ => ⟨List.Perm.refl _, rfl⟩
  | succ h ih =>
      cases h with
      | zero =>
          intro lo (t : Node K (Tree K 0)) hlo ht
          have leaf : ∀ s : Node K (Tree K 0), Tree.addrs (h := 1) s = [s.addr] := by
            intro s
            change s.addr :: s.kids.flatMap (fun _ => []) = _
            rw [List.flatMap_eq_nil_iff.2 fun _ _ => rfl]
          change (Tree.addrs (h := 1) (t.delLeaf lo key).tree ++ (t.delLeaf lo key).freed).Perm
            (Tree.addrs (h := 1) t) ∧ some (t.delLeaf lo key).tree.addr = some t.addr
          rw [leaf, leaf]
          rcases t.delLeaf_cases lo key with ⟨_, heq⟩ | ⟨_, heq⟩
          all_goals
            rw [heq]
            exact ⟨List.Perm.refl _, rfl⟩
      | succ h =>
          intro lo (t : Node K (Node K (Tree K h))) hlo ⟨hge, hle, hkids, hwf⟩
          have hwf : ∀ kid ∈ t.kids, Tree.WF (h := h + 1) c c.min kid := hwf
          have step := Node.del_cases c.min lo (delT c (h + 1) c.min)
            (t := t) hkids (fun kid hkid => by
              obtain ⟨k, kid', hk, -⟩ := swapLast_spec key h c.min kid c.min_pos (hwf kid hkid)
              exact ⟨k, kid', hk⟩)
          change (Tree.addrs (h := h + 2)
            (Node.del c.min lo (swapLast h) (delT c (h + 1) c.min) t key).tree ++
              (Node.del c.min lo (swapLast h) (delT c (h + 1) c.min) t key).freed).Perm
              (Tree.addrs (h := h + 2) t) ∧
            some (Node.del c.min lo (swapLast h) (delT c (h + 1) c.min) t key).tree.addr =
              some t.addr
          generalize Node.del c.min lo (swapLast h) (delT c (h + 1) c.min) t key = out at step ⊢
          cases step with
          | @through ka kb ca kid cb f _ =>
              have := afterKid_addrs c.min lo (by omega) f
                (ih c.min kid c.min_pos (hwf kid f.kid_mem)).1
              exact ⟨this.1, congrArg some this.2⟩
          | @swapped ka kb ca kid cb k kid' f hswap =>
              obtain ⟨k', kid'', hk, hkid⟩ :=
                swapLast_spec key h c.min kid c.min_pos (hwf kid f.kid_mem)
              cases hswap.symm.trans hk
              have hr := (ih c.min kid' c.min_pos hkid.wf).1
              rw [hkid.addrs] at hr
              have := afterKid_addrs c.min lo
                (t := ⟨t.addr, ka ++ k :: kb, t.kids⟩)
                (by simp only [List.length_append, List.length_cons]; omega)
                ⟨rfl, f.kids, f.lenA, f.lenC, f.lenB⟩ hr
              exact ⟨this.1, congrArg some this.2⟩

end SatAllocatorTest.Ports.Btree
