import SatAllocatorTest.Ports.BtreeTree
import SatAllocatorTest.Verified.Positions

/-!
# What one step of the tree functions can do

`insT`, `delT` and `Node.rebalance` each look at one node and branch on what they
find.  The cases are listed once here, with the node written out around the
position that was searched; every later proof about these functions is a case
analysis of `InsStep`, `DelStep` or `Rebalanced`, and unfolds none of them.
-/

namespace SatAllocatorTest.Ports.Btree

open SatAllocatorTest.Verified.Positions
open SatAllocatorTest.Ports.Btree.Tree

variable {K C : Type} {c : Cfg K}

/-- A node seen from its child `kid` at `pos`. -/
structure Focus (t : Node K C) (pos : Nat) (ka kb : List K) (ca : List C) (kid : C)
    (cb : List C) : Prop where
  keys : t.keys = ka ++ kb
  kids : t.kids = ca ++ kid :: cb
  lenA : ka.length = pos
  lenC : ca.length = pos
  lenB : cb.length = kb.length

theorem Focus.exists {t : Node K C} {pos : Nat} (hkids : t.kids.length = t.keys.length + 1)
    (hpos : pos ≤ t.keys.length) : ∃ ka kb ca kid cb, Focus t pos ka kb ca kid cb := by
  obtain ⟨ka, kb, hk, hka⟩ := split_at hpos
  obtain ⟨ca, kid, cb, hc, hca⟩ := split_around (l := t.kids) (i := pos) (by omega)
  refine ⟨ka, kb, ca, kid, cb, hk, hc, hka, hca, ?_⟩
  rw [hk, hc] at hkids
  simp only [List.length_append, List.length_cons] at hkids
  omega

namespace Focus

variable {t : Node K C} {pos : Nat} {ka kb : List K} {ca cb : List C} {kid : C}

theorem kid_get (f : Focus t pos ka kb ca kid cb) : t.kids[pos]? = some kid := by
  rw [f.kids, ← f.lenC]
  exact getElem?_around ca kid cb

theorem kid_mem (f : Focus t pos ka kb ca kid cb) : kid ∈ t.kids := by
  rw [f.kids]
  simp

theorem set_kid (f : Focus t pos ka kb ca kid cb) (k : C) :
    t.kids.set pos k = ca ++ k :: cb := by
  rw [f.kids, ← f.lenC]
  exact set_around ca kid cb k

theorem key_get (f : Focus t pos ka kb ca kid cb) : t.keys[pos]? = kb[0]? := by
  rw [f.keys, ← f.lenA, List.getElem?_append_right (Nat.le_refl _), Nat.sub_self]

theorem set_key {k : K} (f : Focus t pos ka (k :: kb) ca kid cb) (k' : K) :
    t.keys.set pos k' = ka ++ k' :: kb := by
  rw [f.keys, ← f.lenA]
  exact set_around ka k kb k'

theorem keys_length (f : Focus t pos ka kb ca kid cb) :
    t.keys.length = ka.length + kb.length := by
  rw [f.keys, List.length_append]

theorem kids_length (f : Focus t pos ka kb ca kid cb) :
    t.kids.length = t.keys.length + 1 := by
  rw [f.kids, f.keys_length, List.length_append, List.length_cons, f.lenC, f.lenA, f.lenB]
  omega

/-- The key searched is at the position. -/
theorem found {key : K} (f : Focus t pos ka kb ca kid cb) (hfound : t.keys[pos]? = some key) :
    ∃ kb', kb = key :: kb' := by
  rw [f.key_get] at hfound
  cases kb with
  | nil => cases hfound
  | cons b kb => exact ⟨kb, by rw [Option.some.inj hfound]⟩

end Focus

/-! ## Insertion -/

variable [LinearOrder K]

/-- The cases of `Node.ins`. -/
inductive InsStep (c : Cfg K) (self : C → K → List Addr → Inserted C K × List Addr)
    (t : Node K C) (key : K) (al : List Addr) : Inserted (Node K C) K × List Addr → Prop
  | found (hfound : t.keys[searchIdx key t.keys]? = some key) :
      InsStep c self t key al (.dup, al)
  | dup {ka kb ca kid cb al'} (f : Focus t (searchIdx key t.keys) ka kb ca kid cb)
      (hne : t.keys[searchIdx key t.keys]? ≠ some key)
      (hkid : self kid key al = (.dup, al')) : InsStep c self t key al (.dup, al')
  | done {ka kb ca kid cb kid' al'} (f : Focus t (searchIdx key t.keys) ka kb ca kid cb)
      (hne : t.keys[searchIdx key t.keys]? ≠ some key)
      (hkid : self kid key al = (.done kid', al')) :
      InsStep c self t key al (.done ⟨t.addr, t.keys, ca ++ kid' :: cb⟩, al')
  | room {ka kb ca kid cb kid' up r al'} (f : Focus t (searchIdx key t.keys) ka kb ca kid cb)
      (hne : t.keys[searchIdx key t.keys]? ≠ some key)
      (hkid : self kid key al = (.split kid' up r, al'))
      (hroom : t.keys.length < c.M - 1) :
      InsStep c self t key al (.done ⟨t.addr, t.keys.insertIdx (searchIdx up t.keys) up,
        (ca ++ kid' :: cb).insertIdx (searchIdx up t.keys + 1) r⟩, al')
  | full {ka kb ca kid cb kid' up r al' up' l u}
      (f : Focus t (searchIdx key t.keys) ka kb ca kid cb)
      (hne : t.keys[searchIdx key t.keys]? ≠ some key)
      (hkid : self kid key al = (.split kid' up r, al'))
      (hfull : t.keys.length = c.M - 1)
      (hsplit : Node.splitAt c.min (ka ++ up :: kb) (ca ++ kid' :: r :: cb) t.addr
        (c.allocNode al') = some (l, up', u)) :
      InsStep c self t key al (.split l up' u, c.allocNode al' :: al')

theorem Node.ins_cases (self : C → K → List Addr → Inserted C K × List Addr) {t : Node K C}
    (hkids : t.kids.length = t.keys.length + 1) (hlen : t.keys.length ≤ c.M - 1) (key : K)
    (al : List Addr) : InsStep c self t key al (Node.ins c self t key al) := by
  have hmin := c.min_two
  have hM := c.three_le
  have hpos : searchIdx key t.keys ≤ t.keys.length := List.findIdx_le_length
  obtain ⟨ka, kb, ca, kid, cb, f⟩ := Focus.exists hkids hpos
  by_cases hfound : t.keys[searchIdx key t.keys]? = some key
  · simp only [Node.ins, hfound, if_true]
    exact .found hfound
  · simp only [Node.ins, hfound, if_false, f.kid_get]
    cases hkid : self kid key al with
    | mk out al' =>
      cases out with
      | dup => exact .dup f hfound hkid
      | done kid' =>
          simp only [f.set_kid]
          exact .done f hfound hkid
      | split kid' up r =>
          simp only [f.set_kid]
          by_cases hroom : t.keys.length < c.M - 1
          · rw [if_pos hroom]
            exact .room f hfound hkid hroom
          · rw [if_neg hroom]
            have hk : t.keys.insertIdx (searchIdx key t.keys) up = ka ++ up :: kb := by
              conv_lhs => rw [← f.lenA, f.keys]
              exact insertIdx_at ka kb up
            have hc : (ca ++ kid' :: cb).insertIdx (searchIdx key t.keys + 1) r =
                ca ++ kid' :: r :: cb := by
              rw [← f.lenC]
              exact insertIdx_after ca kid' cb r
            rw [hk, hc]
            have hlt : c.min < (ka ++ up :: kb).length := by
              have := f.keys_length
              simp only [List.length_append, List.length_cons]
              omega
            obtain ⟨⟨l, up', u⟩, hsplit⟩ : ∃ x, Node.splitAt c.min (ka ++ up :: kb)
                (ca ++ kid' :: r :: cb) t.addr (c.allocNode al') = some x :=
              ⟨_, by rw [Node.splitAt, List.getElem?_eq_getElem hlt]⟩
            rw [hsplit]
            exact .full f hfound hkid (by omega) hsplit

/-! ## Rebalancing -/

/-- The cases of `Node.rebalance`, around the two neighbours concerned. -/
inductive Rebalanced (min lo : Nat) (t : Node K (Node K C)) (pos : Nat) :
    Removed (Node K (Node K C)) → Prop
  | left {ka kb ca cb k} {l r : Node K C} (hkeys : t.keys = ka ++ k :: kb)
      (hkids : t.kids = ca ++ l :: r :: cb) (hlen : ka.length = ca.length)
      (hpos : pos = ca.length + 1) (hspare : min < l.keys.length) :
      Rebalanced min lo t pos ⟨.success, ⟨t.addr, ka ++ (l.borrowLeft k r).2.1 :: kb,
        ca ++ (l.borrowLeft k r).1 :: (l.borrowLeft k r).2.2 :: cb⟩, []⟩
  | right {ka kb ca cb k} {l r : Node K C} (hkeys : t.keys = ka ++ k :: kb)
      (hkids : t.kids = ca ++ l :: r :: cb) (hlen : ka.length = ca.length)
      (hpos : pos = ca.length) (hspare : min < r.keys.length)
      (hleft : ∀ s, 0 < pos → t.kids[pos - 1]? = some s → s.keys.length ≤ min) :
      Rebalanced min lo t pos ⟨.success, ⟨t.addr, ka ++ (l.borrowRight k r).2.1 :: kb,
        ca ++ (l.borrowRight k r).1 :: (l.borrowRight k r).2.2 :: cb⟩, []⟩
  | merge {ka kb ca cb k} {l r : Node K C} (hkeys : t.keys = ka ++ k :: kb)
      (hkids : t.kids = ca ++ l :: r :: cb) (hlen : ka.length = ca.length)
      (hpos : pos = ca.length ∧ r.keys.length ≤ min ∧
          (∀ s, 0 < pos → t.kids[pos - 1]? = some s → s.keys.length ≤ min) ∨
        pos = ca.length + 1 ∧ kb = [] ∧ l.keys.length ≤ min) :
      Rebalanced min lo t pos
        ⟨if lo ≤ t.keys.length - 1 then .success else .lessKeys,
          ⟨t.addr, ka ++ kb, ca ++ l.merge k r :: cb⟩, [r.addr]⟩

omit [LinearOrder K] in
private theorem window_eq {t : Node K (Node K C)} {ka kb : List K} {ca cb : List (Node K C)}
    {k : K} {l r : Node K C} (hkeys : t.keys = ka ++ k :: kb)
    (hkids : t.kids = ca ++ l :: r :: cb) (hlen : ka.length = ca.length)
    (f : Node K C → K → Node K C → Node K C × K × Node K C) :
    t.window ca.length f =
      ⟨t.addr, ka ++ (f l k r).2.1 :: kb, ca ++ (f l k r).1 :: (f l k r).2.2 :: cb⟩ := by
  have hk : t.keys[ca.length]? = some k := by
    rw [hkeys, ← hlen]
    exact getElem?_around ka k kb
  have hl : t.kids[ca.length]? = some l := by
    rw [hkids]
    exact getElem?_around ca l _
  have hr : t.kids[ca.length + 1]? = some r := by
    rw [hkids]
    exact getElem?_after ca l r cb
  simp only [Node.window, hl, hk, hr]
  rw [hkeys, hkids, set_around, set_after, ← hlen, set_around]

omit [LinearOrder K] in
private theorem joinAt_eq {lo : Nat} {t : Node K (Node K C)} {ka kb : List K}
    {ca cb : List (Node K C)} {k : K} {l r : Node K C} (hkeys : t.keys = ka ++ k :: kb)
    (hkids : t.kids = ca ++ l :: r :: cb) (hlen : ka.length = ca.length) :
    t.joinAt lo ca.length = ⟨if lo ≤ t.keys.length - 1 then .success else .lessKeys,
      ⟨t.addr, ka ++ kb, ca ++ l.merge k r :: cb⟩, [r.addr]⟩ := by
  have hk : t.keys[ca.length]? = some k := by
    rw [hkeys, ← hlen]
    exact getElem?_around ka k kb
  have hl : t.kids[ca.length]? = some l := by
    rw [hkids]
    exact getElem?_around ca l _
  have hr : t.kids[ca.length + 1]? = some r := by
    rw [hkids]
    exact getElem?_after ca l r cb
  simp only [Node.joinAt, hl, hk, hr]
  rw [hkeys, hkids, set_around, eraseIdx_after, ← hlen, eraseIdx_around]

omit [LinearOrder K] in
private theorem around_two {t : Node K (Node K C)} {i : Nat}
    (hkids : t.kids.length = t.keys.length + 1) (hi : i < t.keys.length) :
    ∃ ka k kb ca l r cb, t.keys = ka ++ k :: kb ∧ t.kids = ca ++ l :: r :: cb ∧
      ka.length = ca.length ∧ ca.length = i := by
  obtain ⟨ka, k, kb, hk, hka⟩ := split_around hi
  obtain ⟨ca, l, r, cb, hc, hca⟩ := split_around_two (l := t.kids) (i := i) (by omega)
  exact ⟨ka, k, kb, ca, l, r, cb, hk, hc, hka.trans hca.symm, hca⟩

omit [LinearOrder K] in
theorem Node.rebalance_cases (min lo : Nat) {t : Node K (Node K C)} {pos : Nat}
    (hkids : t.kids.length = t.keys.length + 1) (hpos : pos ≤ t.keys.length)
    (hkeys : 0 < t.keys.length) : Rebalanced min lo t pos (t.rebalance min lo pos) := by
  unfold Node.rebalance
  by_cases hleft : 0 < pos ∧ t.hasSpare min (pos - 1) = true
  · rw [if_pos hleft]
    obtain ⟨ka, k, kb, ca, l, r, cb, hk, hc, hlen, hi⟩ :=
      around_two hkids (i := pos - 1) (by omega)
    have hl : t.kids[pos - 1]? = some l := by
      rw [hc, ← hi]
      exact getElem?_around ca l _
    have hspare := hleft.2
    rw [Node.hasSpare, hl] at hspare
    rw [← hi, window_eq hk hc hlen]
    exact .left hk hc hlen (by omega) (of_decide_eq_true hspare)
  · rw [if_neg hleft]
    have hleft' : ∀ s, 0 < pos → t.kids[pos - 1]? = some s → s.keys.length ≤ min := by
      intro s h0 hs
      by_contra hlt
      exact hleft ⟨h0, by rw [Node.hasSpare, hs]; exact decide_eq_true (by omega)⟩
    by_cases hright : pos < t.keys.length ∧ t.hasSpare min (pos + 1) = true
    · rw [if_pos hright]
      obtain ⟨ka, k, kb, ca, l, r, cb, hk, hc, hlen, hi⟩ := around_two hkids hright.1
      have hr : t.kids[pos + 1]? = some r := by
        rw [hc, ← hi]
        exact getElem?_after ca l r cb
      have hspare := hright.2
      rw [Node.hasSpare, hr] at hspare
      rw [← hi, window_eq hk hc hlen]
      exact .right hk hc hlen rfl (of_decide_eq_true hspare) (hi.symm ▸ hleft')
    · rw [if_neg hright]
      by_cases hend : pos = t.keys.length
      · rw [if_pos hend]
        obtain ⟨ka, k, kb, ca, l, r, cb, hk, hc, hlen, hi⟩ :=
          around_two hkids (i := pos - 1) (by omega)
        have hl : t.kids[pos - 1]? = some l := by
          rw [hc, ← hi]
          exact getElem?_around ca l _
        have hkb : kb = [] := by
          have := congrArg List.length hk
          simp only [List.length_append, List.length_cons] at this
          exact List.length_eq_zero_iff.1 (by omega)
        rw [← hi, joinAt_eq hk hc hlen]
        exact .merge hk hc hlen (.inr ⟨by omega, hkb, hleft' l (by omega) hl⟩)
      · rw [if_neg hend]
        obtain ⟨ka, k, kb, ca, l, r, cb, hk, hc, hlen, hi⟩ :=
          around_two hkids (i := pos) (by omega)
        have hr : t.kids[pos + 1]? = some r := by
          rw [hc, ← hi]
          exact getElem?_after ca l r cb
        have hspare : r.keys.length ≤ min := by
          by_contra hlt
          exact hright ⟨by omega, by rw [Node.hasSpare, hr]; exact decide_eq_true (by omega)⟩
        rw [← hi, joinAt_eq hk hc hlen]
        exact .merge hk hc hlen (.inl ⟨rfl, hspare, hi.symm ▸ hleft'⟩)

/-! ## Deletion -/

/-- The cases of `Node.delLeaf`. -/
theorem Node.delLeaf_cases (lo : Nat) (t : Node K C) (key : K) :
    t.keys[searchIdx key t.keys]? = some key ∧
        t.delLeaf lo key = t.removeAt lo (searchIdx key t.keys) ∨
      t.keys[searchIdx key t.keys]? ≠ some key ∧
        t.delLeaf lo key = ⟨.searchFailure, t, []⟩ := by
  by_cases hfound : t.keys[searchIdx key t.keys]? = some key
  · exact .inl ⟨hfound, by rw [Node.delLeaf, if_pos hfound]⟩
  · exact .inr ⟨hfound, by rw [Node.delLeaf, if_neg hfound]⟩

/-- The cases of `Node.del`. -/
inductive DelStep (min lo : Nat) (swap : Node K C → K → Option (K × Node K C))
    (self : Node K C → K → Removed (Node K C)) (t : Node K (Node K C)) (key : K) :
    Removed (Node K (Node K C)) → Prop
  | through {ka kb ca kid cb} (f : Focus t (searchIdx key t.keys) ka kb ca kid cb)
      (hne : t.keys[searchIdx key t.keys]? ≠ some key) :
      DelStep min lo swap self t key
        (Node.afterKid min lo t (searchIdx key t.keys) (self kid key))
  | swapped {ka kb ca kid cb k kid'}
      (f : Focus t (searchIdx key t.keys) ka (key :: kb) ca kid cb)
      (hswap : swap kid key = some (k, kid')) :
      DelStep min lo swap self t key
        (Node.afterKid min lo ⟨t.addr, ka ++ k :: kb, t.kids⟩ (searchIdx key t.keys)
          (self kid' key))

theorem Node.del_through {min lo pos : Nat} {swap : Node K C → K → Option (K × Node K C)}
    {self : Node K C → K → Removed (Node K C)} {t : Node K (Node K C)} {key : K} {ka kb : List K}
    {ca cb : List (Node K C)} {kid : Node K C} (hpos : searchIdx key t.keys = pos)
    (f : Focus t pos ka kb ca kid cb) (hne : t.keys[pos]? ≠ some key) :
    Node.del min lo swap self t key = Node.afterKid min lo t pos (self kid key) := by
  simp only [Node.del, hpos, f.kid_get, hne, if_false]

theorem Node.del_swapped {min lo pos : Nat} {swap : Node K C → K → Option (K × Node K C)}
    {self : Node K C → K → Removed (Node K C)} {t : Node K (Node K C)} {key k : K} {ka kb : List K}
    {ca cb : List (Node K C)} {kid kid' : Node K C} (hpos : searchIdx key t.keys = pos)
    (f : Focus t pos ka (key :: kb) ca kid cb) (hswap : swap kid key = some (k, kid')) :
    Node.del min lo swap self t key =
      Node.afterKid min lo ⟨t.addr, ka ++ k :: kb, t.kids⟩ pos (self kid' key) := by
  have hfound : t.keys[pos]? = some key := f.key_get
  simp only [Node.del, hpos, f.kid_get, hfound, if_true, hswap, f.set_key]

theorem Node.del_cases (min lo : Nat) {swap : Node K C → K → Option (K × Node K C)}
    (self : Node K C → K → Removed (Node K C)) {t : Node K (Node K C)} {key : K}
    (hkids : t.kids.length = t.keys.length + 1)
    (hswap : ∀ kid ∈ t.kids, ∃ k kid', swap kid key = some (k, kid')) :
    DelStep min lo swap self t key (Node.del min lo swap self t key) := by
  have hpos : searchIdx key t.keys ≤ t.keys.length := List.findIdx_le_length
  obtain ⟨ka, kb, ca, kid, cb, f⟩ := Focus.exists hkids hpos
  by_cases hfound : t.keys[searchIdx key t.keys]? = some key
  · obtain ⟨k, kid', hk⟩ := hswap kid f.kid_mem
    obtain ⟨kb, rfl⟩ := f.found hfound
    rw [Node.del_swapped rfl f hk]
    exact .swapped f hk
  · rw [Node.del_through rfl f hfound]
    exact .through f hfound

end SatAllocatorTest.Ports.Btree
