import SatAllocatorTest.Ports.BtreeDelete
import SatAllocatorTest.Ports.BtreeOrder

/-!
# The deletion of the least key not below a given one

`delUpper` descends like `del`, and when the descent fails tries again with the
separator behind the child it came from.  The guard of that second attempt looks
at `key_arr[pos]` also when `pos` is `n`, a slot that holds no key of the tree.

The result does not depend on what is found there: where the guard looks at such a
slot, every key below is smaller than the one searched, and a second descent with a
still larger one fails as the first did.  What does depend on it is whether the
access is a valid one; `Tree.SafeUpper` says when.

Main results:

* `delUpper_fails` — with no key to find, nothing is changed, and the reads were
  valid if and only if `SafeUpper`;
* `delUpper_ok` — otherwise the run is that of `del` on the least key not below.
-/

namespace SatAllocatorTest.Ports.Btree

open SatAllocatorTest.Verified.Slots
open SatAllocatorTest.Verified.Refinement
open SatAllocatorTest.Verified.Positions
open SatAllocatorTest.Verified.Interleave
open SatAllocatorTest.Verified.SortedKeys
open SatAllocatorTest.Ports.Btree.Tree

variable {K : Type} {c : Cfg K} {h : Nat}

/-! ## Invalid reads -/

/-- The state with more invalid reads recorded. -/
def Mem.logs (s : Mem K) (fs : List Fault) : Mem K := { s with faults := fs ++ s.faults }

@[simp] theorem Mem.logs_heap (s : Mem K) (fs : List Fault) : (s.logs fs).heap = s.heap := rfl
@[simp] theorem Mem.logs_root (s : Mem K) (fs : List Fault) : (s.logs fs).root = s.root := rfl
@[simp] theorem Mem.logs_time (s : Mem K) (fs : List Fault) : (s.logs fs).time = s.time := rfl

theorem Mem.logs_logs (s : Mem K) (fs fs' : List Fault) :
    (s.logs fs).logs fs' = s.logs (fs' ++ fs) := by
  simp [Mem.logs]

/-- The slot of `keys` behind the live ones exists and has been written. -/
def SpareSlot {C : Type} (c : Cfg K) (heap : Heap K) (t : Node K C) : Prop :=
  t.keys.length < c.M - 1 ∧ ∃ nd k, heap t.addr = some nd ∧ nd.keys t.keys.length = some k

/-- What a read of `keys[i]` of the node at `a` returns during one call. -/
def Mem.keyAt (c : Cfg K) (s : Mem K) (a : Addr) (i : Nat) : K :=
  ((s.heap a).bind fun nd => if i < c.M - 1 then nd.keys i else none).getD
    (c.junk s.time s.heap a i)

/-- A read of the slot behind the live keys returns the same value each time. -/
theorem readKey_spare {C : Type} {ptr : C → Ptr} {t : Node K C} {s : Mem K}
    (ht : NodeAt ptr s.heap t) (fs₀ : List Fault) : ∃ fs,
      readKey c (some t.addr) t.keys.length (s.logs fs₀) =
        .ok (s.keyAt c t.addr t.keys.length, s.logs (fs ++ fs₀)) ∧
      (fs = [] ↔ SpareSlot c s.heap t) := by
  obtain ⟨nd, ha, -⟩ := ht
  have heq : ∀ nd', s.heap t.addr = some nd' → nd' = nd := fun nd' h =>
    Option.some.inj (h.symm.trans ha)
  rw [Mem.keyAt, ha, Option.bind_some]
  by_cases hi : t.keys.length < c.M - 1
  · rw [if_pos hi]
    cases hk : nd.keys t.keys.length with
    | some k =>
        refine ⟨[], readKey_ok ha hi hk, ?_⟩
        exact iff_of_true rfl ⟨hi, nd, k, ha, hk⟩
    | none =>
        refine ⟨[.keyUnwritten t.addr t.keys.length], ?_, ?_⟩
        · simp [readKey, deref, ha, hi, hk, Mem.log, Mem.logs]
        · refine iff_of_false (by simp) ?_
          rintro ⟨-, nd', k, ha', hk'⟩
          rw [heq nd' ha', hk] at hk'
          cases hk'
  · rw [if_neg hi]
    refine ⟨[.keyIndex t.addr t.keys.length], ?_, ?_⟩
    · simp [readKey, deref, ha, hi, Mem.log, Mem.logs]
    · exact iff_of_false (by simp) fun hs => hi hs.1

/-- What reads of the slots behind the live keys return, for the inner nodes from `ptr`
down along the last children. -/
def Mem.spareKeys (c : Cfg K) (s : Mem K) : (fuel : Nat) → Ptr → List K
  | 0, _ => []
  | _ + 1, none => []
  | fuel + 1, some a =>
      match s.heap a with
      | none => []
      | some nd =>
        match nd.n, nd.p 0 with
        | some n, some (some _) => s.keyAt c a n :: spareKeys c s fuel ((nd.p n).getD none)
        | _, _ => []

/-- The record of invalid reads does not matter. -/
theorem spareKeys_logs (s : Mem K) (fs : List Fault) : ∀ (fuel : Nat) (ptr : Ptr),
    (s.logs fs).spareKeys c fuel ptr = s.spareKeys c fuel ptr := by
  intro fuel
  induction fuel with
  | zero => exact fun _ => rfl
  | succ fuel ih =>
      intro ptr
      cases ptr with
      | none => rfl
      | some a =>
          simp only [Mem.spareKeys, ih]
          rfl

variable [LinearOrder K]

/-- The search for `key`, which ends at a node that holds it, meets no inner node
that has only smaller keys below it and no spare slot. -/
def Tree.SafeUpper (c : Cfg K) (heap : Heap K) (key : K) : {h : Nat} → Tree K h → Prop
  | 0, _ => True
  | 1, _ => True
  | h + 2, t =>
      ((∀ x ∈ Tree.toList (h := h + 2) t, x < key) →
        SpareSlot c heap (show Node K (Tree K (h + 1)) from t)) ∧
      ((Node.keys t)[searchIdx key (Node.keys t)]? ≠ some key → ∀ kid,
        (Node.kids t)[searchIdx key (Node.keys t)]? = some kid → SafeUpper c heap key kid)

/-! ## Nothing to find -/

section Below

variable {key : K} {t : Node K (Tree K h)} {pos : Nat} {ka kb : List K} {ca cb : List (Tree K h)}
  {kid : Tree K h}

omit [LinearOrder K] in
theorem mem_of_kid (f : Focus t pos ka kb ca kid cb) {x : K} (hx : x ∈ kid.toList) :
    x ∈ Tree.toList (h := h + 1) t := by
  rw [toList_focus f]
  exact List.mem_append_left _ (List.mem_append_right _ hx)

omit [LinearOrder K] in
theorem mem_of_key (hkids : t.kids.length = t.keys.length + 1) {k : K} (hk : k ∈ t.keys) :
    k ∈ Tree.toList (h := h + 1) t := by
  obtain ⟨ka, kb, ca, kid, cb, f⟩ := Focus.exists hkids (Nat.zero_le t.keys.length)
  rw [toList_focus f]
  have hkb : t.keys = kb := by
    rw [f.keys, List.length_eq_zero_iff.1 f.lenA, List.nil_append]
  exact List.mem_append_right _
    (mem_after_of_mem k kb _ ((List.length_map _).trans f.lenB) (hkb ▸ hk))

/-- A search past all keys of a node ends behind the last. -/
theorem searchIdx_of_lt {keys : List K} (hlt : ∀ k ∈ keys, k < key) :
    searchIdx key keys = keys.length := by
  have := searchIdx_append hlt (show ∀ k ∈ ([] : List K), key ≤ k by simp)
  rwa [List.append_nil] at this

end Below

/-- What `SafeUpper` asks of an inner node all of whose keys are smaller. -/
theorem safeUpper_below (heap : Heap K) {key : K} {t : Node K (Tree K (h + 1))} {kid : Tree K (h + 1)}
    (hlt : ∀ x ∈ Tree.toList (h := h + 2) t, x < key)
    (hpos : searchIdx key t.keys = t.keys.length) (hkid : t.kids[t.keys.length]? = some kid) :
    Tree.SafeUpper (h := h + 2) c heap key t ↔
      SpareSlot c heap t ∧ kid.SafeUpper c heap key := by
  change ((∀ x ∈ Tree.toList (h := h + 2) t, x < key) → SpareSlot c heap t) ∧
    (t.keys[searchIdx key t.keys]? ≠ some key → ∀ kid,
      t.kids[searchIdx key t.keys]? = some kid → SafeUpper c heap key kid) ↔ _
  rw [hpos, hkid]
  have hnone : t.keys[t.keys.length]? ≠ some key := by simp
  constructor
  · exact fun ⟨hself, hbelow⟩ => ⟨hself hlt, hbelow hnone kid rfl⟩
  · rintro ⟨hself, hbelow⟩
    exact ⟨fun _ => hself, fun _ k hk => Option.some.inj hk ▸ hbelow⟩

/-- Where all keys are smaller, it does not matter which larger key is searched. -/
theorem safeUpper_congr (heap : Heap K) {key key' : K} : ∀ (h lo : Nat) (t : Tree K h), t.WF c lo →
    (∀ x ∈ t.toList, x < key) → (∀ x ∈ t.toList, x < key') →
    (t.SafeUpper c heap key ↔ t.SafeUpper c heap key') := by
  intro h
  induction h with
  | zero => exact fun _ _ _ _ _ => Iff.rfl
  | succ h ih =>
      cases h with
      | zero => exact fun _ _ _ _ _ => Iff.rfl
      | succ h =>
          intro lo (t : Node K (Tree K (h + 1))) ⟨_, _, hkids, hwf⟩ hlt hlt'
          obtain ⟨ka, kb, ca, kid, cb, f⟩ := Focus.exists hkids (Nat.le_refl t.keys.length)
          have hpos := searchIdx_of_lt fun k hk => hlt k (mem_of_key hkids hk)
          have hpos' := searchIdx_of_lt fun k hk => hlt' k (mem_of_key hkids hk)
          rw [safeUpper_below heap hlt hpos f.kid_get, safeUpper_below heap hlt' hpos' f.kid_get,
            ih c.min kid (hwf kid f.kid_mem) (fun x hx => hlt x (mem_of_kid f hx))
              (fun x hx => hlt' x (mem_of_kid f hx))]

/-- The descent of `delUpper` at an inner node, up to the call on the child. -/
theorem delUpper_enter {t : Node K (Tree K (h + 1))} {s : Mem K} (key fkey : K) (fuel : Nat)
    (ht : NodeAt Tree.ptr s.heap t) (hle : t.keys.length ≤ c.M - 1)
    (hkids : t.kids.length = t.keys.length + 1) :
    delUpper c (fuel + 1) (some t.addr) key fkey s = (do
      swapWhen c (decide (t.keys[searchIdx key t.keys]? = some key)) fuel (some t.addr)
        (searchIdx key t.keys) key
      let child ← readP c (some t.addr) (searchIdx key t.keys)
      let r ← delUpper c fuel child key
        (if decide (t.keys[searchIdx key t.keys]? = some key) then key else fkey)
      let r ← retryUpper c (delUpper c fuel) fuel (some t.addr) (searchIdx key t.keys)
        t.keys.length key r.1 r.2
      let value ← afterChild c (some t.addr) (searchIdx key t.keys) t.keys.length r.1
      pure (value, r.2) : BtM K _) s := by
  have hM := c.three_le
  obtain ⟨nd, ha, hn, hk, hpp⟩ := ht
  obtain ⟨q, hq, hq0⟩ := inner_first hkids hpp
  rw [delUpper, if_neg (Option.some_ne_none _), bind_ok (readN_ok ha hn),
    bind_ok (searchPos_ok ha hk hle key), bind_ok (readP_ok ha (by omega) hq),
    if_neg hq0, bind_ok (foundAt_ok ha hk hle key _)]

/-- The descent of `delUpper` at a leaf. -/
theorem delUpper_leaf {t : Node K (Tree K 0)} {s : Mem K} {key fkey : K} {fuel : Nat}
    (ht : NodeAt Tree.ptr s.heap t) (hle : t.keys.length ≤ c.M - 1)
    (hkids : t.kids.length = t.keys.length + 1) :
    delUpper c (fuel + 1) (some t.addr) key fkey s =
      (if searchIdx key t.keys = t.keys.length then pure (.searchFailure, fkey)
      else do
        let k ← readKey c (some t.addr) (searchIdx key t.keys)
        let value ← dropEntry c (some t.addr) (searchIdx key t.keys) t.keys.length
        pure (value, if key < k then k else key) : BtM K _) s := by
  have hM := c.three_le
  obtain ⟨nd, ha, hn, hk, hpp⟩ := ht
  rw [delUpper, if_neg (Option.some_ne_none _), bind_ok (readN_ok ha hn),
    bind_ok (searchPos_ok ha hk hle key),
    bind_ok (readP_ok ha (by omega) (leaf_p hkids hpp (Nat.zero_le _))), if_pos rfl]

/-- What becomes of `fkey` on a descent that finds nothing, where the second attempts
meet the keys `vs`: each that is larger is taken for the next to search. -/
def retried : (key fkey : K) → (vs : List K) → K
  | _, fkey, [] => fkey
  | key, fkey, v :: vs => if key < v then retried v v vs else retried key fkey vs

omit [LinearOrder K] in
theorem spareKeys_leaf {t : Node K (Tree K 0)} {s : Mem K} (ht : NodeAt Tree.ptr s.heap t)
    (hkids : t.kids.length = t.keys.length + 1) (fuel : Nat) :
    s.spareKeys c (fuel + 1) (some t.addr) = [] := by
  obtain ⟨nd, ha, hn, -, hp⟩ := ht
  simp only [Mem.spareKeys, ha, hn, leaf_p hkids hp (Nat.zero_le _)]

omit [LinearOrder K] in
theorem spareKeys_inner {t : Node K (Tree K (h + 1))} {s : Mem K} {kid : Tree K (h + 1)}
    (ht : NodeAt Tree.ptr s.heap t) (hkids : t.kids.length = t.keys.length + 1)
    (hkid : t.kids[t.keys.length]? = some kid) (fuel : Nat) :
    s.spareKeys c (fuel + 1) (some t.addr) =
      s.keyAt c t.addr t.keys.length :: s.spareKeys c fuel kid.ptr := by
  obtain ⟨nd, ha, hn, -, hp⟩ := ht
  obtain ⟨q, hq, hq0⟩ := inner_first hkids hp
  obtain ⟨b, rfl⟩ := Option.ne_none_iff_exists'.1 hq0
  simp only [Mem.spareKeys, ha, hn, hq, inner_p hp hkid, Option.getD_some]

/-- With only smaller keys in the tree, `delUpper` fails and changes nothing. -/
theorem delUpper_fails : ∀ (h lo fuel : Nat) (t : Tree K h) (s : Mem K) (key fkey : K),
    t.WF c lo → Rep s.heap t → (∀ x ∈ t.toList, x < key) → h < fuel →
    ∃ fs, delUpper c fuel t.ptr key fkey s =
        .ok ((.searchFailure, retried key fkey (s.spareKeys c fuel t.ptr)), s.logs fs) ∧
      (fs = [] ↔ t.SafeUpper c s.heap key) := by
  have hM := c.three_le
  intro h
  induction h with
  | zero =>
      intro lo fuel t s key fkey _ _ _ hfuel
      obtain ⟨fuel, rfl⟩ : ∃ f, fuel = f + 1 := ⟨fuel - 1, by omega⟩
      exact ⟨[], rfl, iff_of_true rfl trivial⟩
  | succ h ih =>
      cases h with
      | zero =>
          intro lo fuel (t : Node K (Tree K 0)) s key fkey ⟨_, hle, hkids, _⟩ hrep hlt hfuel
          obtain ⟨fuel, rfl⟩ : ∃ f, fuel = f + 1 := ⟨fuel - 1, by omega⟩
          have hpos := searchIdx_of_lt fun k hk => hlt k (mem_of_key hkids hk)
          refine ⟨[], ?_, iff_of_true rfl trivial⟩
          refine (delUpper_leaf hrep.1 hle hkids).trans ?_
          rw [if_pos hpos]
          exact congrArg (fun vs => Except.ok ((BtKeyStatus.searchFailure, retried key fkey vs), s))
            (spareKeys_leaf hrep.1 hkids fuel).symm
      | succ h =>
          intro lo fuel (t : Node K (Tree K (h + 1))) s key fkey ⟨_, hle, hkids, hwf⟩ hrep hlt hfuel
          obtain ⟨fuel, rfl⟩ : ∃ f, fuel = f + 1 := ⟨fuel - 1, by omega⟩
          obtain ⟨ka, kb, ca, kid, cb, f⟩ := Focus.exists hkids (Nat.le_refl t.keys.length)
          have hpos := searchIdx_of_lt fun k hk => hlt k (mem_of_key hkids hk)
          have hltk : ∀ x ∈ kid.toList, x < key := fun x hx => hlt x (mem_of_kid f hx)
          have hnone : t.keys[t.keys.length]? ≠ some key := by simp
          have hread : ∀ fs, readP c (some t.addr) t.keys.length (s.logs fs) =
              .ok (kid.ptr, s.logs fs) := fun fs => by
            obtain ⟨nd, ha, -, -, hpp⟩ := hrep.1
            exact readP_ok ha (by omega) (inner_p hpp f.kid_get)
          -- the call on the child, for any key larger than what is below
          have call : ∀ key', (∀ x ∈ kid.toList, x < key') → ∀ fkey fs₀, ∃ fs,
              delUpper c fuel kid.ptr key' fkey (s.logs fs₀) =
                .ok ((.searchFailure, retried key' fkey (s.spareKeys c fuel kid.ptr)),
                  s.logs (fs ++ fs₀)) ∧
              (fs = [] ↔ kid.SafeUpper c s.heap key') := by
            intro key' hlt' fkey fs₀
            obtain ⟨fs, hrun, hfs⟩ := ih c.min fuel kid (s.logs fs₀) key' fkey
              (hwf kid f.kid_mem) (hrep.2 kid f.kid_mem) hlt' (by omega)
            rw [spareKeys_logs] at hrun
            exact ⟨fs, by rw [hrun, Mem.logs_logs], hfs⟩
          obtain ⟨fs₁, hrun₁, hfs₁⟩ := call key hltk fkey []
          obtain ⟨fs₂, hrun₂, hfs₂⟩ := readKey_spare (c := c) hrep.1 (fs₁ ++ [])
          set v := s.keyAt c t.addr t.keys.length with hv
          have enter : ∀ {x}, retryUpper c (delUpper c fuel) fuel (some t.addr) t.keys.length
                t.keys.length key .searchFailure (retried key fkey (s.spareKeys c fuel kid.ptr))
                (s.logs (fs₁ ++ [])) = .ok x → x.1.1 = .searchFailure →
              delUpper c (fuel + 1) (some t.addr) key fkey s = .ok ((.searchFailure, x.1.2), x.2) := by
            intro x hx hfail
            rw [delUpper_enter _ _ _ hrep.1 hle hkids, hpos, decide_eq_false hnone,
              bind_ok (show swapWhen c false fuel _ _ _ s = .ok ((), s.logs []) from rfl),
              bind_ok (hread []), if_neg Bool.false_ne_true, bind_ok hrun₁, bind_ok hx, hfail]
            rfl
          have hsafe := safeUpper_below (c := c) s.heap hlt hpos f.kid_get
          have hspare := spareKeys_inner (c := c) hrep.1 hkids f.kid_get fuel
          change ∃ fs, delUpper c (fuel + 1) (some t.addr) key fkey s =
            .ok ((.searchFailure, retried key fkey (s.spareKeys c (fuel + 1) (some t.addr))),
              s.logs fs) ∧ _
          rw [hspare, retried]
          by_cases hretry : key < v
          · obtain ⟨fs₃, hrun₃, hfs₃⟩ := readKey_spare (c := c) hrep.1 (fs₂ ++ (fs₁ ++ []))
            obtain ⟨fs₄, hrun₄, hfs₄⟩ := call v (fun x hx => lt_trans (hltk x hx) hretry) v
              (fs₃ ++ (fs₂ ++ (fs₁ ++ [])))
            rw [if_pos hretry]
            refine ⟨fs₄ ++ (fs₃ ++ (fs₂ ++ (fs₁ ++ []))),
              enter (x := ((.searchFailure, _), _)) ?_ rfl, ?_⟩
            · rw [retryUpper, if_pos rfl, bind_ok hrun₂, if_pos hretry, bind_ok hrun₃,
                decide_eq_false (lt_irrefl _),
                bind_ok (show swapWhen c false fuel _ _ _ _ = .ok ((), s.logs _) from rfl),
                bind_ok (hread _), hrun₄]
              rfl
            · rw [hsafe, ← hfs₂, ← hfs₁]
              have := safeUpper_congr (c := c) s.heap h.succ c.min kid (hwf kid f.kid_mem)
                hltk (fun x hx => lt_trans (hltk x hx) hretry)
              simp only [List.append_eq_nil_iff, hfs₄, hfs₃, ← this, ← hfs₁, ← hfs₂]
              constructor
              · exact fun h => ⟨h.2.1, h.1⟩
              · exact fun h => ⟨h.2, h.1, h.1, h.2, trivial⟩
          · rw [if_neg hretry]
            refine ⟨fs₂ ++ (fs₁ ++ []), enter (x := ((.searchFailure, _), _)) ?_ rfl, ?_⟩
            · rw [retryUpper, if_pos rfl, bind_ok hrun₂, if_neg hretry]
              rfl
            · rw [hsafe, ← hfs₂, ← hfs₁]
              simp

/-! ## The least key not below -/

/-- `u` is the least key of the list not below `key`. -/
structure LeastAbove (key u : K) (l : List K) : Prop where
  mem : u ∈ l
  le : key ≤ u
  least : ∀ x ∈ l, key ≤ x → u ≤ x

/-- A search for a key that is there looks at live slots only. -/
theorem safeUpper_of_mem {heap : Heap K} {key : K} : ∀ (h lo : Nat) (t : Tree K h), t.WF c lo →
    Sorted t.toList → key ∈ t.toList → t.SafeUpper c heap key := by
  intro h
  induction h with
  | zero => exact fun _ _ _ _ _ => trivial
  | succ h ih =>
      cases h with
      | zero => exact fun _ _ _ _ _ => trivial
      | succ h =>
          intro lo (t : Node K (Tree K (h + 1))) ⟨_, _, hkids, hwf⟩ hsorted hmem
          refine ⟨fun hlt => absurd (hlt key hmem) (lt_irrefl _), fun hne kid hkid => ?_⟩
          obtain ⟨ka, kb, ca, kid', cb, f⟩ := Focus.exists hkids (searchIdx_le key t.keys)
          obtain rfl := Option.some.inj (f.kid_get.symm.trans hkid)
          have around := f.around hsorted
          refine ih c.min kid' (hwf kid' f.kid_mem) around.sorted ?_
          rw [toList_focus f, List.mem_append, List.mem_append] at hmem
          rcases hmem with (hmem | hmem) | hmem
          · exact absurd (around.before_lt _ hmem) (lt_irrefl _)
          · exact hmem
          · exact absurd (around.lt_after hne _ hmem) (lt_irrefl _)

omit [LinearOrder K] in
theorem Placed.logs {s : Mem K} {lo : Nat} {t : Tree K h} (hp : Placed c s lo t)
    (fs : List Fault) : Placed c (s.logs fs) lo t :=
  ⟨hp.one_le, hp.wf, hp.rep, hp.nodup, hp.bound, hp.below⟩

/-- What `delUpper` did, for the least key `u` not below the one searched. -/
def UpperRan (c : Cfg K) (fuel lo : Nat) (t : Tree K h) (s : Mem K) (key fkey u : K) : Prop :=
  ∃ fs s', delUpper c fuel t.ptr key fkey s = .ok (((delT c h lo t u).status, u), s') ∧
    DelRan (s.logs fs) s' t (delT c h lo t u) ∧ (fs = [] ↔ t.SafeUpper c s.heap key)

section LeastAbove

variable {key u : K} {t : Node K (Tree K h)} {ka kb : List K} {ca cb : List (Tree K h)}
  {kid : Tree K h}

/-- The search for the least key not below goes the same way. -/
theorem LeastAbove.searchIdx_eq (hu : LeastAbove key u (Tree.toList (h := h + 1) t))
    (f : Focus t (searchIdx key t.keys) ka kb ca kid cb) (around : Around key t ka kb ca kid cb) :
    searchIdx u t.keys = searchIdx key t.keys := by
  have hlen : (ca.map Tree.toList).length = ka.length := (List.length_map _).trans
    (f.lenC.trans f.lenA.symm)
  have hlen' : (cb.map Tree.toList).length = kb.length := (List.length_map _).trans f.lenB
  conv_lhs => rw [f.keys]
  rw [← f.lenA]
  refine searchIdx_append (fun k hk => ?_) fun k hk => ?_
  · exact lt_of_lt_of_le (around.before_lt k (mem_before_of_mem k _ _ hlen hk)) hu.le
  · have hk := mem_after_of_mem k kb _ hlen' hk
    refine hu.least k ?_ (around.le_after k hk)
    rw [toList_focus f]
    exact List.mem_append_right _ hk

/-- It is in the child, or it is the separator behind it. -/
theorem LeastAbove.locate (hu : LeastAbove key u (Tree.toList (h := h + 1) t))
    (f : Focus t (searchIdx key t.keys) ka kb ca kid cb) (around : Around key t ka kb ca kid cb) :
    (LeastAbove key u kid.toList ∧ t.keys[searchIdx key t.keys]? ≠ some u) ∨
      ((∀ x ∈ kid.toList, x < key) ∧ ∃ kb', kb = u :: kb') := by
  obtain ⟨hmem, hle, hleast⟩ := hu
  rw [toList_focus f] at hmem hleast
  rw [List.mem_append, List.mem_append] at hmem
  have notbefore : u ∉ before (ca.map Tree.toList) ka := fun hb =>
    absurd (around.before_lt u hb) (not_lt_of_ge hle)
  -- a key at the position stands behind the child
  have hsep : ∀ k, t.keys[searchIdx key t.keys]? = some k → k ∈ after kb (cb.map Tree.toList) := by
    intro k hk
    rw [f.key_get] at hk
    exact mem_after_of_mem k kb _ ((List.length_map _).trans f.lenB) (List.mem_of_getElem? hk)
  by_cases hkid : ∃ x ∈ kid.toList, key ≤ x
  · obtain ⟨x, hx, hkx⟩ := hkid
    have hux := hleast x (List.mem_append_left _ (List.mem_append_right _ hx)) hkx
    have hu : u ∈ kid.toList := by
      rcases hmem with (hmem | hmem) | hmem
      · exact absurd hmem notbefore
      · exact hmem
      · exact absurd (around.kid_after x hx u hmem) (not_lt_of_ge hux)
    refine .inl ⟨⟨hu, hle, fun y hy => hleast y (List.mem_append_left _
      (List.mem_append_right _ hy))⟩, fun hk => ?_⟩
    exact lt_irrefl _ (around.kid_after u hu u (hsep u hk))
  · have hlt : ∀ x ∈ kid.toList, x < key := fun x hx => lt_of_not_ge fun hge => hkid ⟨x, hx, hge⟩
    refine .inr ⟨hlt, ?_⟩
    have hu : u ∈ after kb (cb.map Tree.toList) := by
      rcases hmem with (hmem | hmem) | hmem
      · exact absurd hmem notbefore
      · exact absurd (hlt u hmem) (not_lt_of_ge hle)
      · exact hmem
    obtain ⟨k, hk, hku⟩ := around.head_le u hu
    have huk := hleast k (List.mem_append_right _ (hsep k hk)) (around.le_after k (hsep k hk))
    exact f.found (hk.trans (congrArg some (le_antisymm hku huk)))

end LeastAbove

private theorem delUpper_leaf_ok {lo fuel : Nat} {t : Node K (Tree K 0)} {s : Mem K}
    {key fkey u : K} (hp : Placed (h := 1) c s lo t) (hsorted : Sorted (Tree.toList (h := 1) t))
    (hu : LeastAbove key u (Tree.toList (h := 1) t)) :
    UpperRan (h := 1) c (fuel + 1) lo t s key fkey u := by
  have hM := c.three_le
  obtain ⟨hge, hle, hkids, -⟩ := hp.wf
  obtain ⟨ka, kb, ca, kid, cb, f⟩ := Focus.exists hkids (searchIdx_le key t.keys)
  have around := f.around hsorted
  have hpos := hu.searchIdx_eq f around
  obtain ⟨kb, rfl⟩ : ∃ kb', kb = u :: kb' := by
    rcases hu.locate f around with ⟨hkid, -⟩ | ⟨-, hkb⟩
    · cases hkid.mem
    · exact hkb
  have hget : t.keys[searchIdx key t.keys]? = some u := f.key_get
  have hlt := (List.getElem?_eq_some_iff.1 hget).1
  obtain ⟨nd, ha, hn, hk, -⟩ := id hp.rep.1
  obtain ⟨s', hrun, hran⟩ := hp.dropEntry hlt
  have hdel : delT c 1 lo t u = t.removeAt lo (searchIdx key t.keys) := by
    change t.delLeaf lo u = _
    rw [Node.delLeaf, hpos, if_pos hget]
  refine ⟨[], s', ?_, ?_, iff_of_true rfl trivial⟩
  · refine (delUpper_leaf hp.rep.1 hle hkids).trans ?_
    rw [if_neg (by omega), bind_ok (readKey_ok ha (by omega) (hk _ _ hget)), bind_ok hrun, hdel]
    have hkey : (if key < u then u else key) = u := by
      rcases lt_or_eq_of_le hu.le with hlt | rfl
      · rw [if_pos hlt]
      · rw [if_neg (lt_irrefl _)]
    rw [hkey]
    rfl
  · rw [hdel]
    exact hran

/-- No second attempt after a descent that found its key. -/
theorem retryUpper_skip {self : Ptr → K → K → BtM K (BtKeyStatus × K)} {fuel pos n : Nat}
    {ptr : Ptr} {key fkey : K} {value : BtKeyStatus} (hvalue : value ≠ .searchFailure) :
    retryUpper c self fuel ptr pos n key value fkey = pure (value, fkey) :=
  if_neg hvalue

/-- `delUpper` where every descent with a key that is there follows `del`. -/
private theorem swapUpper_ok (fuel : Nat) {t : Node K (Node K (Tree K h))} {s : Mem K} {lo pos : Nat}
    {ka kb : List K} {ca cb : List (Node K (Tree K h))} {kid : Node K (Tree K h)} {u : K}
    (ih : ∀ (kid : Tree K (h + 1)) (s : Mem K) (fkey : K), Placed c s c.min kid →
      Sorted kid.toList → LeastAbove u u kid.toList → UpperRan c fuel c.min kid s u fkey u)
    (hp : Placed (h := h + 2) c s lo t) (f : Focus t pos ka (u :: kb) ca kid cb)
    (hpos : searchIdx u t.keys = pos) (hfuel : h < fuel)
    (hsorted : Sorted (Tree.toList (h := h + 1) kid))
    (hlt : ∀ x ∈ Tree.toList (h := h + 1) kid, x < u) :
    ∃ s₁ q, swapPredecessor c fuel (some t.addr) pos u s = .ok ((), s₁) ∧
      readP c (some t.addr) pos s₁ = .ok (q, s₁) ∧
      ∀ fkey, ∃ s₂ value, delUpper c fuel q u fkey s₁ = .ok ((value, u), s₂) ∧
        value ≠ .searchFailure ∧ ∃ s₃, afterChild c (some t.addr) pos t.keys.length value s₂ =
            .ok ((delT c (h + 2) lo t u).status, s₃) ∧
          DelRan (h := h + 2) s s₃ t (delT c (h + 2) lo t u) := by
  obtain ⟨s₁, k, kid', hsw, hread, hpk, hkid, hfinish⟩ := swapDescend_ok fuel hp f hpos hfuel
  refine ⟨s₁, _, hsw, hread, fun fkey => ?_⟩
  have hsorted' := hkid.sorted hsorted hlt
  have hmem : u ∈ Tree.toList (h := h + 1) kid' := by
    obtain ⟨init, -, hinit⟩ := hkid.toList
    rw [hinit]
    simp
  obtain ⟨fs, s₂, hrun, hran, hfs⟩ := ih kid' s₁ fkey hpk hsorted'
    ⟨hmem, le_refl _, fun _ _ hx => hx⟩
  obtain rfl := hfs.2 (safeUpper_of_mem _ _ _ hpk.wf hsorted' hmem)
  refine ⟨s₂, _, hrun, ?_, hfinish s₂ hran⟩
  rcases delT_takes (c := c) u (h + 1) c.min kid' hpk.one_le hpk.wf hsorted' with ⟨-, hno, -⟩ | ⟨hs, -⟩
  · exact absurd hmem hno
  · exact hs

section Inner

variable {t : Node K (Node K (Tree K h))} {s : Mem K} {lo fuel : Nat} {ka kb : List K}
  {ca cb : List (Node K (Tree K h))} {kid : Node K (Tree K h)} {key fkey u : K}

/-- The key itself is a separator. -/
private theorem delUpper_found_ok
    (ih : ∀ (kid : Tree K (h + 1)) (s : Mem K) (fkey : K), Placed c s c.min kid →
      Sorted kid.toList → LeastAbove u u kid.toList → UpperRan c fuel c.min kid s u fkey u)
    (hp : Placed (h := h + 2) c s lo t) (hsorted : Sorted (Tree.toList (h := h + 2) t))
    (f : Focus t (searchIdx u t.keys) ka (u :: kb) ca kid cb)
    (around : Around (h := h + 1) u t ka (u :: kb) ca kid cb) (hfuel : h < fuel) :
    UpperRan (h := h + 2) c (fuel + 1) lo t s u fkey u := by
  have hkids : t.kids.length = t.keys.length + 1 := hp.wf.2.2.1
  have hfound : t.keys[searchIdx u t.keys]? = some u := f.key_get
  have hmem : u ∈ Tree.toList (h := h + 2) t :=
    mem_of_key (h := h + 1) hkids (List.mem_of_getElem? hfound)
  have hlt : ∀ x ∈ Tree.toList (h := h + 1) kid, x < u := fun x hx =>
    around.kid_after x hx u
      (mem_after_of_mem _ _ _ ((List.length_map _).trans f.lenB) (by simp))
  obtain ⟨s₁, q, hsw, hq, hcall⟩ := swapUpper_ok fuel ih hp f rfl hfuel around.sorted hlt
  obtain ⟨s₂, value, hrun, hvalue, s₃, hrun₃, hran⟩ := hcall u
  refine ⟨[], s₃, ?_, hran, iff_of_true rfl (safeUpper_of_mem _ _ _ hp.wf hsorted hmem)⟩
  refine (delUpper_enter u fkey fuel hp.rep.1 hp.wf.2.1 hkids).trans ?_
  rw [decide_eq_true hfound,
    bind_ok (show swapWhen c true fuel _ _ _ s = .ok ((), s₁) from hsw), bind_ok hq,
    if_pos rfl, bind_ok hrun, retryUpper_skip hvalue, bind_ok (pure_ok _ _), bind_ok hrun₃]
  rfl

/-- A search for a key that is no separator looks at the slots a search in the child does. -/
private theorem safeUpper_iff_kid (hu : LeastAbove key u (Tree.toList (h := h + 2) t))
    (f : Focus t (searchIdx key t.keys) ka kb ca kid cb)
    (hfound : t.keys[searchIdx key t.keys]? ≠ some key) :
    Tree.SafeUpper (h := h + 2) c s.heap key t ↔ Tree.SafeUpper (h := h + 1) c s.heap key kid := by
  constructor
  · exact fun hsafe => hsafe.2 hfound kid f.kid_get
  · refine fun hsafe => ⟨fun hlt => absurd (hlt u hu.mem) (not_lt_of_ge hu.le), fun _ x hx => ?_⟩
    cases f.kid_get.symm.trans hx
    exact hsafe

/-- The child is looked up. -/
private theorem readKid_ok (hp : Placed (h := h + 2) c s lo t)
    (f : Focus t (searchIdx key t.keys) ka kb ca kid cb) (fs : List Fault) :
    readP c (some t.addr) (searchIdx key t.keys) (s.logs fs) =
      .ok (Tree.ptr (h := h + 1) kid, s.logs fs) := by
  have hM := c.three_le
  have hle : t.keys.length ≤ c.M - 1 := hp.wf.2.1
  have hpos := searchIdx_le key t.keys
  obtain ⟨nd, ha, -, -, hpp⟩ := id hp.rep.1
  exact readP_ok ha (by omega) (inner_p hpp f.kid_get)

/-- The least key not below is in the child. -/
private theorem delUpper_below_ok
    (ih : ∀ (kid : Tree K (h + 1)) (s : Mem K) (fkey : K), Placed c s c.min kid →
      Sorted kid.toList → LeastAbove key u kid.toList → UpperRan c fuel c.min kid s key fkey u)
    (hp : Placed (h := h + 2) c s lo t) (f : Focus t (searchIdx key t.keys) ka kb ca kid cb)
    (hsorted : Sorted (Tree.toList (h := h + 1) kid))
    (hu : LeastAbove key u (Tree.toList (h := h + 2) t))
    (hpos : searchIdx u t.keys = searchIdx key t.keys)
    (hfound : t.keys[searchIdx key t.keys]? ≠ some key)
    (huk : LeastAbove key u (Tree.toList (h := h + 1) kid))
    (hne : t.keys[searchIdx key t.keys]? ≠ some u) :
    UpperRan (h := h + 2) c (fuel + 1) lo t s key fkey u := by
  have hpk := Placed.kid (h := h + 1) hp f
  obtain ⟨fs, s₁, hrun, hran, hfs⟩ := ih kid s fkey hpk hsorted huk
  obtain ⟨s₂, hrun₂, hran₂⟩ := descend_ok (hp.logs fs) f hpos hne hran
  have hvalue : (delT c (h + 1) c.min kid u).status ≠ .searchFailure := by
    rcases delT_takes (c := c) u (h + 1) c.min kid hpk.one_le hpk.wf hsorted with
      ⟨-, hno, -⟩ | ⟨hs, -⟩
    · exact absurd huk.mem hno
    · exact hs
  refine ⟨fs, s₂, ?_, hran₂, hfs.trans (safeUpper_iff_kid hu f hfound).symm⟩
  refine (delUpper_enter key fkey fuel hp.rep.1 hp.wf.2.1 hp.wf.2.2.1).trans ?_
  rw [decide_eq_false hfound,
    bind_ok (show swapWhen c false fuel _ _ _ s = .ok ((), s.logs []) from rfl),
    bind_ok (readKid_ok hp f []), if_neg Bool.false_ne_true]
  refine (bind_ok hrun).trans ?_
  rw [retryUpper_skip hvalue, bind_ok (pure_ok _ _), bind_ok hrun₂]
  rfl

/-- The descent fails, and the separator behind the child is next. -/
private theorem delUpper_next_ok
    (ih : ∀ (kid : Tree K (h + 1)) (s : Mem K) (fkey : K), Placed c s c.min kid →
      Sorted kid.toList → LeastAbove u u kid.toList → UpperRan c fuel c.min kid s u fkey u)
    (hp : Placed (h := h + 2) c s lo t) (f : Focus t (searchIdx key t.keys) ka (u :: kb) ca kid cb)
    (hsorted : Sorted (Tree.toList (h := h + 1) kid))
    (hu : LeastAbove key u (Tree.toList (h := h + 2) t))
    (hpos : searchIdx u t.keys = searchIdx key t.keys)
    (hfound : t.keys[searchIdx key t.keys]? ≠ some key)
    (hlt : ∀ x ∈ Tree.toList (h := h + 1) kid, x < key) (hfuel : h + 1 < fuel) :
    UpperRan (h := h + 2) c (fuel + 1) lo t s key fkey u := by
  have hle : t.keys.length ≤ c.M - 1 := hp.wf.2.1
  have hpk := Placed.kid (h := h + 1) hp f
  obtain ⟨nd, ha, -, hk, -⟩ := id hp.rep.1
  have hget : t.keys[searchIdx key t.keys]? = some u := f.key_get
  have hplt := (List.getElem?_eq_some_iff.1 hget).1
  have hku : key < u := lt_of_le_of_ne hu.le fun he => hfound (he ▸ hget)
  obtain ⟨fs, hrun, hfs⟩ := delUpper_fails (c := c) (h + 1) c.min fuel kid s key fkey hpk.wf
    hpk.rep hlt hfuel
  obtain ⟨s₁, q, hsw, hq, hcall⟩ := swapUpper_ok fuel ih (hp.logs fs) f hpos (by omega) hsorted
    (fun x hx => lt_trans (hlt x hx) hku)
  obtain ⟨s₂, value, hrun₂, hvalue, s₃, hrun₃, hran⟩ := hcall u
  refine ⟨fs, s₃, ?_, hran, hfs.trans (safeUpper_iff_kid hu f hfound).symm⟩
  have hkey : readKey c (some t.addr) (searchIdx key t.keys) (s.logs fs) =
      .ok (u, s.logs fs) := readKey_ok ha (by omega) (hk _ _ hget)
  have hretry : ∀ fkey₁, retryUpper c (delUpper c fuel) fuel (some t.addr)
      (searchIdx key t.keys) t.keys.length key .searchFailure fkey₁ (s.logs fs) =
        .ok ((value, u), s₂) := by
    intro fkey₁
    rw [retryUpper, if_pos rfl, bind_ok hkey, if_pos hku, bind_ok hkey, decide_eq_true hplt,
      bind_ok (show swapWhen c true fuel _ _ _ _ = .ok ((), s₁) from hsw), bind_ok hq]
    exact hrun₂
  refine (delUpper_enter key fkey fuel hp.rep.1 hle hp.wf.2.2.1).trans ?_
  rw [decide_eq_false hfound,
    bind_ok (show swapWhen c false fuel _ _ _ s = .ok ((), s.logs []) from rfl),
    bind_ok (readKid_ok hp f []), if_neg Bool.false_ne_true]
  refine (bind_ok hrun).trans ?_
  rw [bind_ok (hretry _), bind_ok hrun₃]
  rfl

end Inner

/-- With a key to find, `delUpper` does what `del` does for the least such key. -/
theorem delUpper_ok : ∀ (h lo fuel : Nat) (t : Tree K h) (s : Mem K) (key fkey u : K),
    Placed c s lo t → Sorted t.toList → LeastAbove key u t.toList → h < fuel →
    UpperRan c fuel lo t s key fkey u := by
  intro h
  induction h with
  | zero => exact fun _ _ _ _ _ _ _ _ _ hu _ => absurd hu.mem List.not_mem_nil
  | succ h ih =>
      cases h with
      | zero =>
          intro lo fuel t s key fkey u hp hsorted hu hfuel
          obtain ⟨fuel, rfl⟩ : ∃ f, fuel = f + 1 := ⟨fuel - 1, by omega⟩
          exact delUpper_leaf_ok hp hsorted hu
      | succ h =>
          intro lo fuel (t : Node K (Node K (Tree K h))) s key fkey u hp hsorted hu hfuel
          obtain ⟨fuel, rfl⟩ : ∃ f, fuel = f + 1 := ⟨fuel - 1, by omega⟩
          have hkids : t.kids.length = t.keys.length + 1 := hp.wf.2.2.1
          obtain ⟨ka, kb, ca, kid, cb, f⟩ := Focus.exists hkids (searchIdx_le key t.keys)
          have around := f.around (h := h + 1) hsorted
          have hpos := hu.searchIdx_eq (h := h + 1) f around
          have below : ∀ (key u : K) (kid : Tree K (h + 1)) (s : Mem K) (fkey : K),
              Placed c s c.min kid → Sorted kid.toList → LeastAbove key u kid.toList →
              UpperRan c fuel c.min kid s key fkey u := fun key u kid s fkey hpk hs hu =>
            ih c.min fuel kid s key fkey u hpk hs hu (by omega)
          by_cases hfound : t.keys[searchIdx key t.keys]? = some key
          · obtain ⟨kb, rfl⟩ := f.found hfound
            have hmem : key ∈ Tree.toList (h := h + 2) t :=
              mem_of_key (h := h + 1) hkids (List.mem_of_getElem? hfound)
            obtain rfl : u = key := le_antisymm (hu.least key hmem (le_refl _)) hu.le
            exact delUpper_found_ok (below u u) hp hsorted f around (by omega)
          · rcases hu.locate (h := h + 1) f around with ⟨huk, hne⟩ | ⟨hlt, kb, rfl⟩
            · exact delUpper_below_ok (below key u) hp f around.sorted hu hpos hfound huk hne
            · exact delUpper_next_ok (below u u) hp f around.sorted hu hpos hfound hlt (by omega)

end SatAllocatorTest.Ports.Btree
