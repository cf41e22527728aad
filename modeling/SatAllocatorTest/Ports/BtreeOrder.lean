import SatAllocatorTest.Ports.BtreeShape
import SatAllocatorTest.Verified.SortedKeys

/-!
# Order and contents

What `insT` and `delT` do to the keys of a tree, read in order.  A position found
by `searchIdx` splits the keys of a node's subtree in three: those before the
child at the position, all smaller than the key searched; those in the child; and
those after, none of them smaller.  Everything a step does happens in the middle
part or at its border.

Main results:

* `insT_adds` — an insertion puts the key in, or reports that it is there;
* `delT_takes` — a deletion takes the key out, or reports that it is not there and
  changes nothing.  The swap with the predecessor leaves the child's list sorted,
  because the key that comes in is the separator behind that child.
-/

namespace SatAllocatorTest.Ports.Btree

open SatAllocatorTest.Verified.Positions
open SatAllocatorTest.Verified.Interleave
open SatAllocatorTest.Verified.SortedKeys
open SatAllocatorTest.Ports.Btree.Tree

variable {K : Type} {c : Cfg K} {h lo : Nat}

/-! ## A tree seen from a child -/

theorem toList_focus {t : Node K (Tree K h)} {pos : Nat} {ka kb : List K} {ca cb : List (Tree K h)}
    {kid : Tree K h} (f : Focus t pos ka kb ca kid cb) :
    Tree.toList (h := h + 1) t =
      before (ca.map Tree.toList) ka ++ kid.toList ++ after kb (cb.map Tree.toList) := by
  change weave (t.kids.map Tree.toList) t.keys = _
  rw [f.kids, f.keys, List.map_append, List.map_cons]
  exact weave_focus _ _ _ (by rw [List.length_map, f.lenB]) _ _
    (by rw [List.length_map, f.lenC, f.lenA])

/-- Two neighbours with the key between them, in their place. -/
theorem toList_two (addr : Addr) {ka kb : List K} {ca cb : List (Tree K h)} (l r : Tree K h) (k : K)
    (hlen : ca.length = ka.length) (hb : cb.length = kb.length) :
    Tree.toList (h := h + 1) (⟨addr, ka ++ k :: kb, ca ++ l :: r :: cb⟩ : Node K (Tree K h)) =
      before (ca.map Tree.toList) ka ++ (l.toList ++ k :: r.toList) ++
        after kb (cb.map Tree.toList) := by
  have f : Focus (⟨addr, ka ++ k :: kb, ca ++ l :: r :: cb⟩ : Node K (Tree K h)) ca.length
      ka (k :: kb) ca l (r :: cb) :=
    ⟨rfl, rfl, hlen.symm, rfl, congrArg (· + 1) hb⟩
  rw [toList_focus f]
  simp [after]

theorem toList_leaf {t : Node K (Tree K 0)} (hkids : t.kids.length = t.keys.length + 1) :
    Tree.toList (h := 1) t = t.keys := by
  refine weave_of_nil _ _ (by rw [List.length_map, hkids]) fun l hl => ?_
  obtain ⟨x, -, rfl⟩ := List.mem_map.1 hl
  rfl

/-- The halves of a node cut in two, around the key that goes up. -/
theorem toList_splitAt {n : Nat} {keys : List K} {kids : List (Tree K h)} {addr new : Addr}
    {l r : Node K (Tree K h)} {up : K} (hkids : kids.length = keys.length + 1)
    (hsplit : Node.splitAt n keys kids addr new = some (l, up, r)) :
    Tree.toList (h := h + 1) l ++ up :: Tree.toList (h := h + 1) r =
      weave (kids.map Tree.toList) keys := by
  rw [Node.splitAt] at hsplit
  split at hsplit
  · cases hsplit
  · rename_i up' hup
    cases hsplit
    have hn := (List.getElem?_eq_some_iff.1 hup).1
    change weave ((kids.take (n + 1)).map Tree.toList) (keys.take n) ++
      up :: weave ((kids.drop (n + 1)).map Tree.toList) (keys.drop (n + 1)) = _
    rw [← weave_split _ _ _ _ _ (by simp; omega), ← List.map_append, List.take_append_drop]
    congr 1
    obtain ⟨_, rfl⟩ := List.getElem?_eq_some_iff.1 hup
    rw [List.getElem_cons_drop, List.take_append_drop]

variable [LinearOrder K]

theorem searchIdx_append {key : K} {ka kb : List K} (ha : ∀ k ∈ ka, k < key)
    (hb : ∀ k ∈ kb, key ≤ k) : searchIdx key (ka ++ kb) = ka.length := by
  induction ka with
  | nil =>
      cases kb with
      | nil => rfl
      | cons k kb => rw [List.nil_append, searchIdx_cons, if_pos (hb k (by simp))]; rfl
  | cons k ka ih =>
      rw [List.cons_append, searchIdx_cons, if_neg (not_le_of_gt (ha k (by simp))),
        ih fun j hj => ha j (List.mem_cons_of_mem _ hj)]
      rfl

/-- What sortedness says about the three parts around the position of `key`. -/
structure Around (key : K) (t : Node K (Tree K h)) (ka kb : List K) (ca : List (Tree K h))
    (kid : Tree K h) (cb : List (Tree K h)) : Prop where
  before_lt : ∀ x ∈ before (ca.map Tree.toList) ka, x < key
  le_after : ∀ y ∈ after kb (cb.map Tree.toList), key ≤ y
  lt_after : t.keys[searchIdx key t.keys]? ≠ some key →
    ∀ y ∈ after kb (cb.map Tree.toList), key < y
  head_le : ∀ y ∈ after kb (cb.map Tree.toList),
    ∃ k, t.keys[searchIdx key t.keys]? = some k ∧ k ≤ y
  sorted : Sorted kid.toList
  before_kid : ∀ x ∈ before (ca.map Tree.toList) ka, ∀ y ∈ kid.toList, x < y
  kid_after : ∀ x ∈ kid.toList, ∀ y ∈ after kb (cb.map Tree.toList), x < y
  before_after : ∀ x ∈ before (ca.map Tree.toList) ka,
    ∀ y ∈ after kb (cb.map Tree.toList), x < y

theorem Focus.around {key : K} {t : Node K (Tree K h)} {ka kb : List K} {ca cb : List (Tree K h)}
    {kid : Tree K h} (f : Focus t (searchIdx key t.keys) ka kb ca kid cb)
    (hsorted : Sorted (Tree.toList (h := h + 1) t)) : Around key t ka kb ca kid cb := by
  have hlen : (ca.map Tree.toList).length = ka.length := by rw [List.length_map, f.lenC, f.lenA]
  rw [toList_focus f, Sorted.append_iff, Sorted.append_iff] at hsorted
  obtain ⟨⟨hbef, hkid, hbk⟩, haft, hcross⟩ := hsorted
  have hka : ∀ k ∈ ka, k < key := by
    intro k hk
    obtain ⟨i, hi, rfl⟩ := List.getElem_of_mem hk
    refine lt_of_lt_searchIdx (i := i) ?_ (f.lenA ▸ hi)
    rw [f.keys, List.getElem?_append_left hi, List.getElem?_eq_getElem hi]
  -- what stands after the child begins with the key at the position
  have hafter : ∀ y ∈ after kb (cb.map Tree.toList), ∃ k, t.keys[searchIdx key t.keys]? = some k ∧
      k ≤ y := by
    intro y hy
    rw [f.key_get]
    cases kb with
    | nil =>
        rw [after_nil_left] at hy
        cases hy
    | cons k kb =>
        obtain ⟨d, cb', hcb⟩ := List.exists_cons_of_length_eq_add_one f.lenB
        subst hcb
        refine ⟨k, rfl, ?_⟩
        rw [List.map_cons, after] at hy haft
        rcases List.mem_cons.1 hy with rfl | hy
        · exact le_refl _
        · exact le_of_lt ((Sorted.cons_iff.1 haft).1 y hy)
  refine ⟨before_le_of_sorted _ _ hlen hbef hka, ?_, ?_, hafter, hkid, hbk,
    fun x hx => hcross x (List.mem_append_right _ hx),
    fun x hx => hcross x (List.mem_append_left _ hx)⟩
  · intro y hy
    obtain ⟨k, hk, hky⟩ := hafter y hy
    exact le_trans (le_of_searchIdx hk) hky
  · intro hne y hy
    obtain ⟨k, hk, hky⟩ := hafter y hy
    exact lt_of_lt_of_le (lt_of_le_of_ne (le_of_searchIdx hk) fun he => hne (he ▸ hk)) hky

/-- A key that is neither at its position nor below it is nowhere in the node. -/
theorem Around.not_mem {key : K} {t : Node K (Tree K h)} {ka kb : List K} {ca cb : List (Tree K h)}
    {kid : Tree K h} (ha : Around key t ka kb ca kid cb)
    (f : Focus t (searchIdx key t.keys) ka kb ca kid cb)
    (hne : t.keys[searchIdx key t.keys]? ≠ some key) (hkid : key ∉ kid.toList) :
    key ∉ Tree.toList (h := h + 1) t := by
  rw [toList_focus f, List.mem_append, List.mem_append]
  rintro ((hmem | hmem) | hmem)
  · exact lt_irrefl _ (ha.before_lt _ hmem)
  · exact hkid hmem
  · exact lt_irrefl _ (ha.lt_after hne _ hmem)

/-! ## Insertion -/

/-- What an insertion of `key` says and does about the keys of a tree. -/
def Inserted.Adds (key : K) (t : Tree K h) : Inserted (Tree K h) K → Prop
  | .dup => key ∈ t.toList
  | .done t' => Inserts key t.toList t'.toList
  | .split l up r => Inserts key t.toList (l.toList ++ up :: r.toList)

theorem insT_adds (key : K) : ∀ (h lo : Nat) (t : Tree K h) (al : List Addr), t.WF c lo →
    Sorted t.toList → (insT c h t key al).1.Adds key t := by
  intro h
  induction h with
  | zero => exact fun _ _ _ _ _ => ⟨[], [], rfl, by simp, by simp, rfl⟩
  | succ h ih =>
      intro lo (t : Node K (Tree K h)) al ⟨hge, hle, hkids, hwf⟩ hsorted
      have step := Node.ins_cases (insT c h) hkids hle key al
      change Inserted.Adds (h := h + 1) key t (Node.ins c (insT c h) t key al).1
      generalize Node.ins c (insT c h) t key al = out at step ⊢
      -- what the insertion into the child amounts to, seen from the node
      have lift : ∀ {ka kb ca kid cb l}, Focus t (searchIdx key t.keys) ka kb ca kid cb →
          t.keys[searchIdx key t.keys]? ≠ some key → Inserts key kid.toList l →
          Inserts key (Tree.toList (h := h + 1) t)
            (before (ca.map Tree.toList) ka ++ l ++ after kb (cb.map Tree.toList)) := by
        intro ka kb ca kid cb l f hne hins
        have around := f.around hsorted
        rw [toList_focus f]
        exact hins.within around.before_lt (around.lt_after hne)
      cases step with
      | found hfound =>
          obtain ⟨ka, kb, ca, kid, cb, f⟩ := Focus.exists hkids (searchIdx_le key t.keys)
          change key ∈ Tree.toList (h := h + 1) t
          rw [toList_focus f]
          refine List.mem_append_right _ (mem_after_of_mem key kb _ ?_ ?_)
          · rw [List.length_map, f.lenB]
          · rw [f.key_get] at hfound
            exact List.mem_of_getElem? hfound
      | @dup ka kb ca kid cb al' f hne hkid =>
          have hmem := ih c.min kid al (hwf kid f.kid_mem) (f.around hsorted).sorted
          rw [hkid] at hmem
          change key ∈ Tree.toList (h := h + 1) t
          rw [toList_focus f]
          exact List.mem_append_left _ (List.mem_append_right _ hmem)
      | @done ka kb ca kid cb kid' al' f hne hkid =>
          have hins := ih c.min kid al (hwf kid f.kid_mem) (f.around hsorted).sorted
          rw [hkid] at hins
          change Inserts key _ (Tree.toList (h := h + 1) _)
          rw [toList_focus (t := ⟨t.addr, t.keys, ca ++ kid' :: cb⟩)
            ⟨f.keys, rfl, f.lenA, f.lenC, f.lenB⟩]
          exact lift f hne hins
      | @room ka kb ca kid cb kid' up r al' f hne hkid hroom =>
          have around := f.around hsorted
          have hins := ih c.min kid al (hwf kid f.kid_mem) around.sorted
          rw [hkid] at hins
          -- `up` lies between the keys left and right of the child
          have hup : up = key ∨ up ∈ kid.toList := hins.mem_iff.1 (by simp)
          have hat : searchIdx up t.keys = ka.length := by
            rw [f.keys]
            refine searchIdx_append (fun k hk => ?_) fun k hk => ?_
            · have hk := mem_before_of_mem k (ca.map Tree.toList) ka
                (by rw [List.length_map, f.lenC, f.lenA]) hk
              rcases hup with rfl | hup
              · exact around.before_lt k hk
              · exact around.before_kid k hk up hup
            · have hk := mem_after_of_mem k kb (cb.map Tree.toList)
                (by rw [List.length_map, f.lenB]) hk
              rcases hup with rfl | hup
              · exact around.le_after k hk
              · exact le_of_lt (around.kid_after up hup k hk)
          have hcs : (ca ++ kid' :: cb).insertIdx (ka.length + 1) r = ca ++ kid' :: r :: cb := by
            rw [f.lenA, ← f.lenC]
            exact insertIdx_after ca kid' cb r
          change Inserts key _ (Tree.toList (h := h + 1) _)
          rw [hat, hcs, f.keys, insertIdx_at,
            toList_two t.addr kid' r up (f.lenC.trans f.lenA.symm) f.lenB]
          exact lift f hne hins
      | @full ka kb ca kid cb kid' up r al' up' l u f hne hkid hfull hsplit =>
          have hins := ih c.min kid al (hwf kid f.kid_mem) (f.around hsorted).sorted
          rw [hkid] at hins
          change Inserts key _ (Tree.toList (h := h + 1) l ++ up' :: Tree.toList (h := h + 1) u)
          rw [toList_splitAt ?_ hsplit]
          · have := toList_two t.addr kid' r up (f.lenC.trans f.lenA.symm) f.lenB
            rw [show weave ((ca ++ kid' :: r :: cb).map Tree.toList) (ka ++ up :: kb) = _ from this]
            exact lift f hne hins
          · have := f.lenA
            have := f.lenB
            have := f.lenC
            simp only [List.length_append, List.length_cons]
            omega

/-! ## Deletion -/

/-- What a deletion of `key` says and does about the keys of a tree. -/
def Removed.Takes (key : K) (t : Tree K h) (r : Removed (Tree K h)) : Prop :=
  (r.status = .searchFailure ∧ key ∉ t.toList ∧ r.tree = t ∧ r.freed = []) ∨
    (r.status ≠ .searchFailure ∧ Deletes key t.toList r.tree.toList)

omit [LinearOrder K] in
/-- Rebalancing keeps the order of the keys. -/
theorem rebalance_toList {t : Node K (Node K (Tree K h))} {min pos : Nat}
    (hkids : t.kids.length = t.keys.length + 1) (hpos : pos ≤ t.keys.length)
    (hkeys : 0 < t.keys.length)
    (hshape : ∀ kid ∈ t.kids, kid.kids.length = kid.keys.length + 1) :
    Tree.toList (h := h + 2) (t.rebalance min lo pos).tree = Tree.toList (h := h + 2) t := by
  have step := Node.rebalance_cases min lo hkids hpos hkeys
  generalize t.rebalance min lo pos = out at step ⊢
  have lenB : ∀ {ka kb ca cb k} {l r : Node K (Tree K h)}, t.keys = ka ++ k :: kb →
      t.kids = ca ++ l :: r :: cb → ka.length = ca.length → cb.length = kb.length := by
    intro ka kb ca cb k l r hk hc hlen
    rw [hk, hc] at hkids
    simp only [List.length_append, List.length_cons] at hkids
    omega
  obtain ⟨addr, keys, kids⟩ := t
  cases step with
  | @left ka kb ca cb k l r hk hc hlen _ hspare =>
      obtain rfl : keys = _ := hk
      obtain rfl : kids = _ := hc
      have hb := lenB rfl rfl hlen
      have hl : l.kids.length = l.keys.length + 1 := hshape l (by simp)
      refine (toList_two (h := h + 1) addr _ _ _ hlen.symm hb).trans
        (Eq.trans ?_ (toList_two (h := h + 1) addr l r k hlen.symm hb).symm)
      congr 2
      obtain ⟨al, lkeys, lkids⟩ := l
      obtain ⟨ar, rks, rcs⟩ := r
      obtain ⟨lks, k', rfl⟩ := split_last (l := lkeys) (by simp only at hspare; omega)
      obtain ⟨lcs, x, rfl⟩ := split_last (l := lkids) (by simp only at hl; omega)
      rw [Node.borrowLeft_eq]
      change weave (lcs.map Tree.toList) lks ++ k' :: (x.toList ++ k :: weave _ rks) =
        weave ((lcs ++ [x]).map Tree.toList) (lks ++ [k']) ++ k :: weave _ rks
      rw [List.map_append, weave_split _ _ _ _ _ (by simpa using hl)]
      simp [weave]
  | @right ka kb ca cb k l r hk hc hlen _ hspare _ =>
      obtain rfl : keys = _ := hk
      obtain rfl : kids = _ := hc
      have hb := lenB rfl rfl hlen
      have hl : l.kids.length = l.keys.length + 1 := hshape l (by simp)
      have hr : r.kids.length = r.keys.length + 1 := hshape r (by simp)
      refine (toList_two (h := h + 1) addr _ _ _ hlen.symm hb).trans
        (Eq.trans ?_ (toList_two (h := h + 1) addr l r k hlen.symm hb).symm)
      congr 2
      obtain ⟨al, lks, lcs⟩ := l
      obtain ⟨ar, rkeys, rkids⟩ := r
      obtain ⟨k', rks, rfl⟩ := List.exists_cons_of_length_pos (l := rkeys)
        (by simp only at hspare; omega)
      obtain ⟨x, rcs, rfl⟩ := List.exists_cons_of_length_pos (l := rkids)
        (by simp only at hr; omega)
      rw [Node.borrowRight_eq]
      change weave ((lcs ++ [x]).map Tree.toList) (lks ++ [k]) ++ k' :: weave _ rks =
        weave (lcs.map Tree.toList) lks ++ k :: (x.toList ++ k' :: weave _ rks)
      rw [List.map_append, weave_split _ _ _ _ _ (by simpa using hl)]
      simp [weave]
  | @merge ka kb ca cb k l r hk hc hlen _ =>
      obtain rfl : keys = _ := hk
      obtain rfl : kids = _ := hc
      have hb := lenB rfl rfl hlen
      have hl : l.kids.length = l.keys.length + 1 := hshape l (by simp)
      have f : Focus (⟨addr, ka ++ kb, ca ++ l.merge k r :: cb⟩ : Node K (Tree K (h + 1)))
          ca.length ka kb ca (l.merge k r) cb := ⟨rfl, rfl, hlen, rfl, hb⟩
      refine (toList_focus f).trans
        (Eq.trans ?_ (toList_two (h := h + 1) addr l r k hlen.symm hb).symm)
      congr 2
      change weave ((l.kids ++ r.kids).map Tree.toList) (l.keys ++ k :: r.keys) = _
      rw [List.map_append, weave_split _ _ _ _ _ (by simpa using hl)]
      rfl

omit [LinearOrder K] in
theorem shape_of_fits {r : Removed (Node K (Tree K h))} (hr : Removed.Fits (h := h + 1) c lo r) :
    r.tree.kids.length = r.tree.keys.length + 1 := by
  by_cases hs : r.status = .lessKeys
  · exact (hr.1 hs).2.1
  · exact (hr.2 hs).2.2.1

omit [LinearOrder K] in
/-- Around a treated child everything keeps its place. -/
theorem afterKid_toList {t : Node K (Node K (Tree K h))} {pos : Nat} {ka kb : List K}
    {ca cb : List (Node K (Tree K h))} {kid : Node K (Tree K h)}
    {r : Removed (Node K (Tree K h))} (hlo : 1 ≤ lo) (ht : Tree.WF (h := h + 2) c lo t)
    (f : Focus t pos ka kb ca kid cb) (hr : Removed.Fits (h := h + 1) c c.min r) :
    Tree.toList (h := h + 2) (Node.afterKid c.min lo t pos r).tree =
      before (ca.map (Tree.toList (h := h + 1))) ka ++ Tree.toList (h := h + 1) r.tree ++
        after kb (cb.map (Tree.toList (h := h + 1))) := by
  have hpos : pos ≤ t.keys.length := by
    rw [f.keys_length, f.lenA]
    omega
  have hge : lo ≤ t.keys.length := ht.1
  have hset : Tree.toList (h := h + 2)
      (⟨t.addr, t.keys, t.kids.set pos r.tree⟩ : Node K (Node K (Tree K h))) =
      before (ca.map (Tree.toList (h := h + 1))) ka ++ Tree.toList (h := h + 1) r.tree ++
        after kb (cb.map (Tree.toList (h := h + 1))) := by
    rw [f.set_kid]
    exact toList_focus (h := h + 1) (t := ⟨t.addr, t.keys, ca ++ r.tree :: cb⟩)
      ⟨f.keys, rfl, f.lenA, f.lenC, f.lenB⟩
  unfold Node.afterKid
  by_cases hs : r.status = .lessKeys
  · simp only [if_pos hs]
    refine (rebalance_toList (t := { t with kids := t.kids.set pos r.tree })
      (List.length_set.trans f.kids_length) hpos (by simp only; omega) ?_).trans hset
    intro x hx
    change x ∈ t.kids.set pos r.tree at hx
    rcases List.mem_or_eq_of_mem_set hx with hx | rfl
    · exact (ht.2.2.2 x hx).2.2.1
    · exact shape_of_fits hr
  · simp only [if_neg hs]
    exact hset

private theorem counted_ne (p : Prop) [Decidable p] :
    (if p then BtKeyStatus.success else .lessKeys) ≠ .searchFailure := by
  split <;> simp

omit [LinearOrder K] in
/-- A child that reports anything but `LessKeys` decides the status. -/
theorem afterKid_status (min lo : Nat) {t : Node K (Node K (Tree K h))} {pos : Nat}
    (r : Removed (Node K (Tree K h))) (hkids : t.kids.length = t.keys.length + 1)
    (hpos : pos ≤ t.keys.length) (hkeys : 0 < t.keys.length) :
    (Node.afterKid min lo t pos r).status = .searchFailure ↔ r.status = .searchFailure := by
  unfold Node.afterKid
  by_cases hs : r.status = .lessKeys
  · simp only [hs, if_true]
    have step := Node.rebalance_cases min lo
      (t := { t with kids := t.kids.set pos r.tree }) (List.length_set.trans hkids) hpos hkeys
    generalize Node.rebalance min lo { t with kids := t.kids.set pos r.tree } pos = out at step ⊢
    cases step with
    | left => simp
    | right => simp
    | merge => simp only [reduceCtorEq, counted_ne]
  · simp only [if_neg hs]

/-- A list with a larger key in the place of its last is still sorted. -/
theorem SwappedLast.sorted {t t' : Tree K h} {key k : K} (hs : SwappedLast c lo t key k t')
    (ht : Sorted t.toList) (hlt : ∀ x ∈ t.toList, x < key) : Sorted t'.toList := by
  obtain ⟨init, hinit, hinit'⟩ := hs.toList
  rw [hinit'] at *
  rw [hinit] at ht hlt
  refine Sorted.append_iff.2 ⟨(Sorted.append_iff.1 ht).1, List.pairwise_singleton _ _,
    fun x hx y hy => ?_⟩
  rw [List.mem_singleton.1 hy]
  exact hlt x (List.mem_append_left _ hx)

/-- The deletion at a leaf. -/
theorem delLeaf_takes {key : K} {t : Node K (Tree K 0)}
    (hkids : t.kids.length = t.keys.length + 1) (hsorted : Sorted (Tree.toList (h := 1) t)) :
    Removed.Takes (h := 1) key t (t.delLeaf lo key) := by
  obtain ⟨ka, kb, ca, kid, cb, f⟩ := Focus.exists hkids (searchIdx_le key t.keys)
  rcases t.delLeaf_cases lo key with ⟨hfound, heq⟩ | ⟨hne, heq⟩
  · rw [heq]
    obtain ⟨kb, rfl⟩ := f.found hfound
    have hlt := (List.getElem?_eq_some_iff.1 hfound).1
    refine .inr ⟨?_, ka, kb, ?_, ?_⟩
    · exact counted_ne _
    · rw [toList_leaf hkids, f.keys]
    · refine (toList_leaf (t := (t.removeAt lo (searchIdx key t.keys)).tree) ?_).trans ?_
      · simp only [Node.removeAt]
        rw [List.length_eraseIdx_of_lt hlt, List.length_eraseIdx_of_lt (by omega)]
        omega
      · change t.keys.eraseIdx _ = _
        rw [← f.lenA, f.keys]
        exact eraseIdx_around ka key kb
  · rw [heq]
    exact .inl ⟨rfl, (f.around hsorted).not_mem f hne List.not_mem_nil, rfl, rfl⟩

section Inner

variable {t : Node K (Node K (Tree K h))} {key : K} {ka kb : List K}
  {ca cb : List (Node K (Tree K h))} {kid : Node K (Tree K h)}

/-- The deletion at an inner node that does not hold the key. -/
theorem through_takes {r : Removed (Node K (Tree K h))} (hlo : 1 ≤ lo)
    (ht : Tree.WF (h := h + 2) c lo t) (hsorted : Sorted (Tree.toList (h := h + 2) t))
    (f : Focus t (searchIdx key t.keys) ka kb ca kid cb)
    (hne : t.keys[searchIdx key t.keys]? ≠ some key)
    (htakes : Removed.Takes (h := h + 1) key kid r) (hfits : Removed.Fits (h := h + 1) c c.min r) :
    Removed.Takes (h := h + 2) key t (Node.afterKid c.min lo t (searchIdx key t.keys) r) := by
  have hstatus := afterKid_status c.min lo r ht.2.2.1 (searchIdx_le key t.keys)
    (Nat.lt_of_lt_of_le hlo ht.1)
  rcases htakes with ⟨hs, hmem, htree, hfreed⟩ | ⟨hs, hdel⟩
  · refine .inl ⟨hstatus.2 hs, (f.around (h := h + 1) hsorted).not_mem f hne hmem, ?_, ?_⟩
    · simp only [Node.afterKid, hs, reduceCtorEq, if_false]
      rw [htree, f.set_kid kid, ← f.kids]
    · simp only [Node.afterKid, hs, reduceCtorEq, if_false, hfreed]
  · refine .inr ⟨fun h => hs (hstatus.1 h), ?_⟩
    rw [toList_focus (h := h + 1) f, afterKid_toList hlo ht f hfits]
    exact hdel.within _ _

/-- The deletion at an inner node that holds the key: the predecessor takes its place,
and the key goes from the end of the child. -/
theorem swapped_takes {k : K} {kid' : Node K (Tree K h)} {r : Removed (Node K (Tree K h))}
    (hlo : 1 ≤ lo) (ht : Tree.WF (h := h + 2) c lo t)
    (f : Focus t (searchIdx key t.keys) ka (key :: kb) ca kid cb)
    (hkid : SwappedLast (h := h + 1) c c.min kid key k kid')
    (hsorted : Sorted (Tree.toList (h := h + 1) kid'))
    (htakes : Removed.Takes (h := h + 1) key kid' r)
    (hfits : Removed.Fits (h := h + 1) c c.min r) :
    Removed.Takes (h := h + 2) key t
      (Node.afterKid c.min lo ⟨t.addr, ka ++ k :: kb, t.kids⟩ (searchIdx key t.keys) r) := by
  obtain ⟨init, hinit, hinit'⟩ := hkid.toList
  have hlen : (ka ++ k :: kb).length = t.keys.length := by
    rw [f.keys_length, List.length_append, List.length_cons, List.length_cons]
  have ht' : Tree.WF (h := h + 2) c lo
      (⟨t.addr, ka ++ k :: kb, t.kids⟩ : Node K (Node K (Tree K h))) := by
    change lo ≤ (ka ++ k :: kb).length ∧ (ka ++ k :: kb).length ≤ c.M - 1 ∧
      t.kids.length = (ka ++ k :: kb).length + 1 ∧ _
    rw [hlen]
    exact ht
  have hmem : key ∈ Tree.toList (h := h + 1) kid' := by rw [hinit']; simp
  rcases htakes with ⟨-, hno, -⟩ | ⟨hs, hdel⟩
  · exact absurd hmem hno
  · rw [hinit'] at hdel hsorted
    have hrest := hdel.of_last hsorted
    have hpos : searchIdx key t.keys ≤ (ka ++ k :: kb).length := hlen ▸ searchIdx_le key t.keys
    have hstatus := afterKid_status c.min lo (t := ⟨t.addr, ka ++ k :: kb, t.kids⟩) r ht'.2.2.1
      hpos (Nat.lt_of_lt_of_le hlo ht'.1)
    obtain ⟨d, cb, rfl⟩ := List.exists_cons_of_length_eq_add_one f.lenB
    refine .inr ⟨fun h => hs (hstatus.1 h), ?_⟩
    rw [toList_focus (h := h + 1) f, afterKid_toList hlo ht'
      ⟨rfl, f.kids, f.lenA, f.lenC, f.lenB⟩ hfits, hrest, hinit]
    refine ⟨before (ca.map (Tree.toList (h := h + 1))) ka ++ (init ++ [k]),
      Tree.toList (h := h + 1) d ++ after kb (cb.map (Tree.toList (h := h + 1))), rfl, ?_⟩
    refine Eq.trans (List.append_assoc ..) (Eq.trans ?_ (List.append_assoc ..).symm)
    exact congrArg _ (List.append_cons ..)

end Inner

theorem delT_takes (key : K) : ∀ (h lo : Nat) (t : Tree K h), 1 ≤ lo → t.WF c lo →
    Sorted t.toList → (delT c h lo t key).Takes key t := by
  intro h
  induction h with
  | zero => exact fun _ _ _ _ _ => .inl ⟨rfl, List.not_mem_nil, rfl, rfl⟩
  | succ h ih =>
      cases h with
      | zero =>
          intro lo (t : Node K (Tree K 0)) hlo ht hsorted
          exact delLeaf_takes ht.2.2.1 hsorted
      | succ h =>
          intro lo (t : Node K (Node K (Tree K h))) hlo ht hsorted
          have hwf : ∀ kid ∈ t.kids, Tree.WF (h := h + 1) c c.min kid := ht.2.2.2
          have step := Node.del_cases c.min lo (delT c (h + 1) c.min)
            (t := t) ht.2.2.1 (fun kid hkid => by
              obtain ⟨k, kid', hk, -⟩ := swapLast_spec key h c.min kid c.min_pos (hwf kid hkid)
              exact ⟨k, kid', hk⟩)
          change Removed.Takes (h := h + 2) key t
            (Node.del c.min lo (swapLast h) (delT c (h + 1) c.min) t key)
          generalize Node.del c.min lo (swapLast h) (delT c (h + 1) c.min) t key = out at step ⊢
          cases step with
          | @through ka kb ca kid cb f hne =>
              have hkid := hwf kid f.kid_mem
              exact through_takes hlo ht hsorted f hne
                (ih c.min kid c.min_pos hkid (f.around (h := h + 1) hsorted).sorted)
                (delT_fits key (h + 1) c.min kid c.min_pos hkid)
          | @swapped ka kb ca kid cb k kid' f hswap =>
              have around := f.around (h := h + 1) hsorted
              obtain ⟨k', kid'', hk, hkid⟩ :=
                swapLast_spec key h c.min kid c.min_pos (hwf kid f.kid_mem)
              cases hswap.symm.trans hk
              -- the child with the separator behind its last key is still sorted
              have hsorted' : Sorted (Tree.toList (h := h + 1) kid') :=
                hkid.sorted around.sorted fun x hx => around.kid_after x hx key
                  (mem_after_of_mem _ _ _ ((List.length_map _).trans f.lenB) (by simp))
              exact swapped_takes hlo ht f hkid hsorted'
                (ih c.min kid' c.min_pos hkid.wf hsorted')
                (delT_fits key (h + 1) c.min kid' c.min_pos hkid.wf)

end SatAllocatorTest.Ports.Btree
