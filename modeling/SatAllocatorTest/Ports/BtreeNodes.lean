import SatAllocatorTest.Ports.BtreeLoops
import SatAllocatorTest.Verified.Positions

/-!
# What the code does to single nodes

The pieces `ins` and `del` are made of act on one node, or on a node and two
neighbouring children.  Each is executed here on nodes the heap holds
(`Tree.NodeAt`), and leaves nodes that are the corresponding functions of
`BtreeTree`.  `Changed` says what else it did: nothing outside the named
addresses.
-/

namespace SatAllocatorTest.Ports.Btree

open SatAllocatorTest.Verified.Slots
open SatAllocatorTest.Verified.Refinement
open SatAllocatorTest.Verified.Positions
open SatAllocatorTest.Ports.Btree.Tree

variable {K C : Type} {c : Cfg K} {s : Mem K}

/-- From `s` to `s'` only nodes at `at_` changed, `new` were allocated and
`freed` freed. -/
structure Changed (s s' : Mem K) (at_ new freed : List Addr) : Prop where
  heap : ∀ a, a ∉ at_ → a ∉ new → s'.heap a = s.heap a
  root : s'.root = s.root
  allocated : s'.allocated = new ++ s.allocated
  freed : s'.freed = freed ++ s.freed
  time : s'.time = s.time
  faults : s'.faults = s.faults

theorem Changed.refl (s : Mem K) (at_ : List Addr) : Changed s s at_ [] [] :=
  ⟨fun _ _ _ => rfl, rfl, rfl, rfl, rfl, rfl⟩

theorem Changed.trans {s₁ s₂ s₃ : Mem K} {at₁ at₂ at_ new₁ new₂ freed₁ freed₂ : List Addr}
    (h₁ : Changed s₁ s₂ at₁ new₁ freed₁) (h₂ : Changed s₂ s₃ at₂ new₂ freed₂)
    (hat₁ : ∀ a ∈ at₁, a ∈ at_ ∨ a ∈ new₂ ++ new₁)
    (hat₂ : ∀ a ∈ at₂, a ∈ at_ ∨ a ∈ new₂ ++ new₁) :
    Changed s₁ s₃ at_ (new₂ ++ new₁) (freed₂ ++ freed₁) where
  heap a ha hnew := by
    have hout : ∀ at' : List Addr, (∀ b ∈ at', b ∈ at_ ∨ b ∈ new₂ ++ new₁) → a ∉ at' :=
      fun at' hsub hmem => (hsub a hmem).elim ha hnew
    rw [List.mem_append, not_or] at hnew
    rw [h₂.heap a (hout _ hat₂) hnew.1, h₁.heap a (hout _ hat₁) hnew.2]
  root := h₂.root.trans h₁.root
  allocated := by rw [h₂.allocated, h₁.allocated, List.append_assoc]
  freed := by rw [h₂.freed, h₁.freed, List.append_assoc]
  time := h₂.time.trans h₁.time
  faults := h₂.faults.trans h₁.faults

theorem Changed.mono {s s' : Mem K} {at_ at' new freed : List Addr}
    (h : Changed s s' at_ new freed) (hsub : ∀ a ∈ at_, a ∈ at') :
    Changed s s' at' new freed :=
  { h with heap := fun a ha hnew => h.heap a (fun hmem => ha (hsub a hmem)) hnew }

theorem Changed.set (s : Mem K) (a : Addr) (nd : BtNode K) :
    Changed s (s.set a nd) [a] [] [] :=
  ⟨fun b hb _ => Mem.set_other (by simpa using hb) nd, rfl, rfl, rfl, rfl, rfl⟩

/-! ## Frames -/

theorem Tree.NodeAt.congr {ptr : C → Ptr} {heap heap' : Heap K} {t : Node K C}
    (ht : NodeAt ptr heap t) (hheap : heap' t.addr = heap t.addr) : NodeAt ptr heap' t := by
  obtain ⟨nd, ha, hrest⟩ := ht
  exact ⟨nd, hheap.trans ha, hrest⟩

/-- Only the pointers to the children matter. -/
theorem Tree.NodeAt.kids {ptr : C → Ptr} {heap : Heap K} {t : Node K C} {kids : List C}
    (ht : NodeAt ptr heap t) (hptr : kids.map ptr = t.kids.map ptr) :
    NodeAt ptr heap { t with kids := kids } := by
  obtain ⟨nd, ha, hn, hk, hp⟩ := ht
  exact ⟨nd, ha, hn, hk, hptr ▸ hp⟩

theorem Tree.Rep.congr {heap heap' : Heap K} : ∀ {h : Nat} {t : Tree K h}, Rep heap t →
    (∀ a ∈ t.addrs, heap' a = heap a) → Rep heap' t
  | 0, _, _, _ => trivial
  | _ + 1, _, ⟨hnode, hkids⟩, hheap =>
      ⟨hnode.congr (hheap _ (List.mem_cons_self ..)), fun kid hkid =>
        (hkids kid hkid).congr fun a ha => hheap a
          (List.mem_cons_of_mem _ (List.mem_flatMap.2 ⟨kid, hkid, ha⟩))⟩

/-- A tree none of whose nodes was touched is still there. -/
theorem Changed.rep {s s' : Mem K} {at_ new freed : List Addr} {h : Nat} {t : Tree K h}
    (hch : Changed s s' at_ new freed) (ht : Rep s.heap t)
    (hout : ∀ a ∈ t.addrs, a ∉ at_ ∧ a ∉ new) : Rep s'.heap t :=
  ht.congr fun a ha => hch.heap a (hout a ha).1 (hout a ha).2

/-- The nodes of a tree are distinct: those of a child, of the others, and the
node itself. -/
theorem addrs_disjoint {h : Nat} {t : Node K (Tree K h)} {ca cb : List (Tree K h)}
    {kid : Tree K h} (hkids : t.kids = ca ++ kid :: cb)
    (hnd : (Tree.addrs (h := h + 1) t).Nodup) :
    t.addr ∉ kid.addrs ∧ kid.addrs.Nodup ∧
      ∀ x ∈ ca ++ cb, t.addr ∉ x.addrs ∧ ∀ a ∈ x.addrs, a ∉ kid.addrs := by
  change (t.addr :: t.kids.flatMap Tree.addrs).Nodup at hnd
  rw [hkids, List.flatMap_append, List.flatMap_cons, List.nodup_cons] at hnd
  obtain ⟨hself, hnd⟩ := hnd
  simp only [List.mem_append, not_or] at hself
  rw [List.nodup_append, List.nodup_append] at hnd
  obtain ⟨-, ⟨hkid, -, hkb⟩, hak⟩ := hnd
  have mem : ∀ {l : List (Tree K h)} {x a}, x ∈ l → a ∈ x.addrs → a ∈ l.flatMap Tree.addrs :=
    fun hx ha => List.mem_flatMap.2 ⟨_, hx, ha⟩
  refine ⟨hself.2.1, hkid, fun x hx => ?_⟩
  rcases List.mem_append.1 hx with hx | hx
  · exact ⟨fun ha => hself.1 (mem hx ha),
      fun a ha hk => hak a (mem hx ha) a (List.mem_append_left _ hk) rfl⟩
  · exact ⟨fun ha => hself.2.2 (mem hx ha), fun a ha hk => hkb a hk a (mem hx ha) rfl⟩

/-! ## Insertion into a node -/

/-- "If keys in node is less than M-1": the key and the pointer are inserted. -/
theorem insertInNode_ok [LinearOrder K] {ptr : C → Ptr} {t : Node K C} {r : C}
    (ht : NodeAt ptr s.heap t) (hkids : t.kids.length = t.keys.length + 1)
    (hroom : t.keys.length < c.M - 1) (up : K) :
    ∃ s', insertInNode c (some t.addr) t.keys.length up (ptr r) s = .ok (.stop .success, s') ∧
      NodeAt ptr s'.heap { t with
        keys := t.keys.insertIdx (searchIdx up t.keys) up
        kids := t.kids.insertIdx (searchIdx up t.keys + 1) r } ∧
      Changed s s' [t.addr] [] [] := by
  obtain ⟨nd, ha, hn, hk, hp⟩ := ht
  have hpos := searchIdx_le up t.keys
  obtain ⟨s₁, nd', hshift, hput, hn', hk', hp'⟩ := shiftRight_putAt (c := c) _ ha hk hp
    (by simpa using hkids) hroom hpos up (ptr r)
  refine ⟨s.set t.addr (nd'.setN (t.keys.length + 1)), ?_, ⟨_, Mem.set_same _ _ _, ?_, hk', ?_⟩,
    Changed.set _ _ _⟩
  · rw [insertInNode, bind_ok (searchPos_ok ha hk (by omega) up), bind_ok hshift, bind_ok hput,
      bind_ok (readN_ok (Mem.set_same _ _ _) (hn'.trans hn)),
      bind_ok (writeN_ok (Mem.set_same _ _ _) _), Mem.set_set]
    rfl
  · simp [List.length_insertIdx_of_le_length hpos]
  · simpa [List.map_insertIdx] using hp'

/-! ## The split of a full node -/

private theorem insertInFull_ok {a : Addr} {nd : BtNode K} {keys : List K} {kids : List Ptr}
    {pos : Nat} (ha : s.heap a = some nd) (hk : Holds nd.keys keys) (hp : Holds nd.p kids)
    (hkids : kids.length = keys.length + 1) (hfull : keys.length = c.M - 1)
    (hpos : pos ≤ keys.length) (k : K) (q : Ptr) :
    ∃ nd' ks lk qs lq, insertInFull c (some a) pos k q s = .ok ((lk, lq), s.set a nd') ∧
      nd'.n = nd.n ∧ Holds nd'.keys ks ∧ Holds nd'.p qs ∧
      keys.insertIdx pos k = ks ++ [lk] ∧ kids.insertIdx (pos + 1) q = qs ++ [lq] := by
  have hM := c.three_le
  by_cases hlast : pos = c.M - 1
  · refine ⟨nd, keys, k, kids, q, ?_, rfl, hk, hp, ?_, ?_⟩
    · rw [insertInFull, if_pos hlast, Mem.set_self ha]
      rfl
    · rw [hlast, ← hfull, List.insertIdx_length_self]
    · rw [hlast, ← hfull, ← hkids, List.insertIdx_length_self]
  · obtain ⟨ks, lk, rfl⟩ := split_last (l := keys) (by omega)
    obtain ⟨qs, lq, rfl⟩ := split_last (l := kids) (by omega)
    simp only [List.length_append, List.length_singleton] at hfull hkids hpos
    obtain ⟨s₁, nd', hshift, hput, hn, hk', hp'⟩ := shiftRight_putAt (c := c) pos ha
      hk.left hp.left (by omega) (by omega) (by omega) k q
    refine ⟨nd', ks.insertIdx pos k, lk, qs.insertIdx (pos + 1) q, lq, ?_, hn, hk', hp', ?_, ?_⟩
    · have hlk : nd.keys (c.M - 2) = some lk := by
        rw [show c.M - 2 = ks.length by omega]
        exact hk _ _ (getElem?_around ks lk [])
      have hlq : nd.p (c.M - 1) = some lq := by
        rw [show c.M - 1 = qs.length by omega]
        exact hp _ _ (getElem?_around qs lq [])
      rw [insertInFull, if_neg hlast, bind_ok (readKey_ok ha (by omega) hlk),
        bind_ok (readP_ok ha (by omega) hlq), show c.M - 2 - pos = ks.length - pos by omega,
        bind_ok hshift, bind_ok hput]
      rfl
    · exact insertIdx_append_left (by omega) _ _
    · exact insertIdx_append_left (by omega) _ _

private theorem splitNode_ok {a : Addr} {nd : BtNode K} {ks : List K} {qs : List Ptr}
    (ha : s.heap a = some nd) (hk : Holds nd.keys ks) (hp : Holds nd.p qs)
    (hks : ks.length = c.M - 1) (hqs : qs.length = c.M) (hal : a ∈ s.allocated)
    (lk : K) (lq : Ptr) {up : K} (hup : ks[c.min]? = some up) :
    ∃ s' nd', splitNode c (some a) lk lq s =
        .ok (.insertIt up (some (c.allocNode s.allocated)), s') ∧
      s'.heap a = some (nd.setN c.min) ∧ s'.heap (c.allocNode s.allocated) = some nd' ∧
      nd'.n = some (c.M - 1 - c.min) ∧ Holds nd'.keys ((ks ++ [lk]).drop (c.min + 1)) ∧
      Holds nd'.p ((qs ++ [lq]).drop (c.min + 1)) ∧
      Changed s s' [a] [c.allocNode s.allocated] [] := by
  have hM := c.three_le
  have hmin := c.min_two
  have hpos := c.min_pos
  set new := c.allocNode s.allocated with hnew
  have hne : new ≠ a := fun h => c.fresh s.allocated (hnew ▸ h ▸ hal)
  -- the state in which the copying loop starts
  let nd₀ : BtNode K := BtNode.unwritten.setN (c.M - 1 - c.min)
  let s₁ : Mem K := { s with
    heap := Function.update s.heap new (some BtNode.unwritten)
    allocated := new :: s.allocated }
  let s₂ := (s₁.set a (nd.setN c.min)).set new nd₀
  have ha₁ : s₁.heap a = some nd := (Function.update_of_ne hne.symm _ _).trans ha
  have hn₁ : (s₁.set a (nd.setN c.min)).heap new = some BtNode.unwritten :=
    (Mem.set_other hne _).trans (Function.update_self _ _ _)
  have ha₂ : s₂.heap a = some (nd.setN c.min) :=
    (Mem.set_other hne.symm _).trans (Mem.set_same _ _ _)
  obtain ⟨nd', hcopy, hn', hkeys', hp'⟩ := splitCopy_spec (c := c) hne (nd.setN c.min) c.min
    (c.M - 1 - c.min) lk (c.M - 1 - c.min) 0 s₂ nd₀ (Mem.set_same _ _ _) ha₂ (by omega) (by omega)
    (fun j hj => hk.written (by omega)) (fun j hj => hp.written (by omega))
  refine ⟨s₂.set new (nd'.setP (c.M - 1 - c.min) lq), nd'.setP (c.M - 1 - c.min) lq, ?_,
    (Mem.set_other hne.symm _).trans ha₂, Mem.set_same _ _ _, hn', ?_, ?_, ?_⟩
  · rw [splitNode, show (c.M - 1) / 2 = c.min from rfl, bind_ok (readKey_ok ha (by omega) (hk _ _ hup)),
      bind_ok (show allocNode c s = .ok (some new, s₁) from rfl),
      bind_ok (writeN_ok ha₁ _), bind_ok (writeN_ok hn₁ _),
      bind_ok (readN_ok (Mem.set_same _ _ _) rfl), bind_ok hcopy,
      bind_ok (writeP_ok (Mem.set_same _ _ _) (by omega) lq), Mem.set_set]
    rfl
  · -- the keys: copied up to the last one, which is `lk`
    intro i x hx
    rw [List.getElem?_drop] at hx
    have hi : c.min + 1 + i < (ks ++ [lk]).length := (List.getElem?_eq_some_iff.1 hx).1
    simp only [List.length_append, List.length_singleton] at hi
    rw [BtNode.setP_keys, hkeys', if_pos (by omega)]
    by_cases hlt : i < c.M - 1 - c.min - 1
    · rw [List.getElem?_append_left (by omega)] at hx
      rw [if_pos hlt, show i + c.min + 1 = c.min + 1 + i by omega]
      exact hk _ _ hx
    · rw [show c.min + 1 + i = ks.length by omega, getElem?_around] at hx
      rw [if_neg hlt, hx]
  · intro i x hx
    rw [List.getElem?_drop] at hx
    have hi : c.min + 1 + i < (qs ++ [lq]).length := (List.getElem?_eq_some_iff.1 hx).1
    simp only [List.length_append, List.length_singleton] at hi
    rw [BtNode.setP_p]
    by_cases hlt : i < c.M - 1 - c.min
    · rw [List.getElem?_append_left (by omega)] at hx
      rw [Function.update_of_ne (by omega), hp', if_pos (by omega),
        show i + c.min + 1 = c.min + 1 + i by omega]
      exact hp _ _ hx
    · rw [show c.min + 1 + i = qs.length by omega, getElem?_around] at hx
      rw [show i = c.M - 1 - c.min by omega, Function.update_self, hx]
  · exact ⟨fun b hb hbn => by
        rw [Mem.set_other (by simpa using hbn), Mem.set_other (by simpa using hbn),
          Mem.set_other (by simpa using hb)]
        exact Function.update_of_ne (by simpa using hbn) _ _,
      rfl, rfl, rfl, rfl, rfl⟩

/-- "If keys in nodes are maximum": the node and its newcomer are cut in two. -/
theorem overflow_ok {ptr : C → Ptr} {t : Node K C} {pos : Nat} {r : C}
    (ht : NodeAt ptr s.heap t) (hkids : t.kids.length = t.keys.length + 1)
    (hfull : t.keys.length = c.M - 1) (hpos : pos ≤ t.keys.length)
    (hal : t.addr ∈ s.allocated) (k : K) :
    ∃ s' l up u, (insertInFull c (some t.addr) pos k (ptr r) >>= fun last =>
        splitNode c (some t.addr) last.1 last.2) s =
          .ok (.insertIt up (some (c.allocNode s.allocated)), s') ∧
      Node.splitAt c.min (t.keys.insertIdx pos k) (t.kids.insertIdx (pos + 1) r) t.addr
        (c.allocNode s.allocated) = some (l, up, u) ∧
      NodeAt ptr s'.heap l ∧ NodeAt ptr s'.heap u ∧
      Changed s s' [t.addr] [c.allocNode s.allocated] [] := by
  have hmin := c.min_two
  have hmin1 := c.min_pos
  obtain ⟨nd, ha, hn, hk, hp⟩ := ht
  obtain ⟨nd₁, ks, lk, qs, lq, hfill, hn₁, hk₁, hp₁, hks, hqs⟩ := insertInFull_ok (c := c) ha hk hp
    (by simpa using hkids) hfull hpos k (ptr r)
  have hkslen : ks.length = c.M - 1 := by
    have := congrArg List.length hks
    rw [List.length_insertIdx_of_le_length hpos, List.length_append, List.length_singleton] at this
    omega
  have hqslen : qs.length = c.M := by
    have := congrArg List.length hqs
    rw [List.length_insertIdx_of_le_length (by simp; omega), List.length_append,
      List.length_singleton, List.length_map] at this
    omega
  obtain ⟨up, hup⟩ : ∃ up, ks[c.min]? = some up :=
    ⟨_, List.getElem?_eq_getElem (show c.min < ks.length by omega)⟩
  obtain ⟨s', nd₂, hsplit, ha', hb', hn₂, hk₂, hp₂, hch⟩ := splitNode_ok (c := c)
    (Mem.set_same s t.addr nd₁) hk₁ hp₁ hkslen hqslen hal lk lq hup
  have hnew : c.allocNode (s.set t.addr nd₁).allocated = c.allocNode s.allocated := rfl
  rw [hnew] at hsplit hb' hch
  have hup' : (t.keys.insertIdx pos k)[c.min]? = some up := by
    rw [hks, List.getElem?_append_left (by omega)]
    exact hup
  have hkids' : (t.kids.insertIdx (pos + 1) r).map ptr = qs ++ [lq] := by
    rw [List.map_insertIdx, hqs]
  refine ⟨s', ⟨t.addr, (t.keys.insertIdx pos k).take c.min,
      (t.kids.insertIdx (pos + 1) r).take (c.min + 1)⟩, up,
    ⟨c.allocNode s.allocated, (t.keys.insertIdx pos k).drop (c.min + 1),
      (t.kids.insertIdx (pos + 1) r).drop (c.min + 1)⟩, ?_, by rw [Node.splitAt, hup'],
    ⟨nd₁.setN c.min, ha', ?_, ?_, ?_⟩, ⟨nd₂, hb', ?_, ?_, ?_⟩, ?_⟩
  · rw [bind_ok hfill]
    exact hsplit
  · simp [hks, hkslen]
    omega
  · rw [hks, List.take_append_of_le_length (by omega)]
    exact hk₁.take _
  · rw [List.map_take, hkids', List.take_append_of_le_length (by omega)]
    exact hp₁.take _
  · simp [hn₂, hks, hkslen]
  · rw [hks]
    exact hk₂
  · rw [List.map_drop, hkids']
    exact hp₂
  · exact (Changed.set s t.addr nd₁).trans hch (fun a ha => Or.inl ha) (fun a ha => Or.inl ha)

/-! ## Deletion from a node -/

/-- The bound a node is held to after a deletion: `ptr == root ? 1 : min`. -/
def lowerBound (c : Cfg K) (s : Mem K) (ptr : Ptr) : Nat :=
  if ptr = s.root then 1 else c.min

private theorem decCount_ok {a : Addr} {nd : BtNode K} {n : Nat} (ha : s.heap a = some nd)
    (hn : nd.n = some n) (hpos : 0 < n) :
    decCount c (some a) s =
      .ok (if lowerBound c s (some a) ≤ n - 1 then .success else .lessKeys,
        s.set a (nd.setN (n - 1))) := by
  rw [decCount, bind_ok (readN_ok ha hn), bind_ok (predOf_ok _ hpos),
    bind_ok (writeN_ok ha _)]
  rfl

/-- The key at `pos`, or the last one, goes with the pointer behind it. -/
theorem dropEntry_ok {ptr : C → Ptr} {t : Node K C} (pos : Nat)
    (ht : NodeAt ptr s.heap t) (hkids : t.kids.length = t.keys.length + 1)
    (hlen : t.keys.length ≤ c.M - 1) (h0 : 0 < t.keys.length) :
    ∃ s', dropEntry c (some t.addr) pos t.keys.length s =
        .ok ((t.removeAt (lowerBound c s (some t.addr)) (min pos (t.keys.length - 1))).status, s') ∧
      NodeAt ptr s'.heap
        (t.removeAt (lowerBound c s (some t.addr)) (min pos (t.keys.length - 1))).tree ∧
      Changed s s' [t.addr] [] [] := by
  obtain ⟨nd, ha, hn, hk, hp⟩ := ht
  obtain ⟨nd', hshift, hn', hk', hp'⟩ := shiftLeft_ok (c := c) pos ha hk hp
    (by simpa using hkids) hlen
  rw [show min (pos + 1) t.keys.length = min pos (t.keys.length - 1) + 1 by omega] at hp'
  refine ⟨s.set t.addr (nd'.setN (t.keys.length - 1)), ?_,
    ⟨nd'.setN (t.keys.length - 1), Mem.set_same _ _ _, ?_, hk', ?_⟩, Changed.set _ _ _⟩
  · rw [dropEntry, bind_ok hshift,
      decCount_ok (Mem.set_same _ _ _) (hn'.trans hn) (by omega), Mem.set_set]
    rfl
  · simp only [Node.removeAt, BtNode.setN_n]
    rw [List.length_eraseIdx_of_lt (by omega)]
  · rw [Node.removeAt, ← List.eraseIdx_map]
    exact hp'

/-! ## Borrowing from a sibling -/

theorem Node.borrowLeft_eq (al ar : Addr) (lks : List K) (k' : K) (lcs : List C) (x : C) (k : K)
    (rks : List K) (rcs : List C) :
    Node.borrowLeft ⟨al, lks ++ [k'], lcs ++ [x]⟩ k ⟨ar, rks, rcs⟩ =
      (⟨al, lks, lcs⟩, k', ⟨ar, k :: rks, x :: rcs⟩) := by
  simp [Node.borrowLeft]

theorem Node.borrowRight_eq (al ar : Addr) (lks : List K) (lcs : List C) (k k' : K)
    (rks : List K) (x : C) (rcs : List C) :
    Node.borrowRight ⟨al, lks, lcs⟩ k ⟨ar, k' :: rks, x :: rcs⟩ =
      (⟨al, lks ++ [k], lcs ++ [x]⟩, k', ⟨ar, rks, rcs⟩) := rfl

/-- A key and a child come over from the left sibling. -/
theorem borrowLeft_ok {ptr : C → Ptr} {a : Addr} {nda : BtNode K} {keys : List K} {pivot : Nat}
    {k : K} {l r : Node K C} (ha : s.heap a = some nda) (hk : Holds nda.keys keys)
    (hpiv : keys[pivot]? = some k) (hlen : keys.length ≤ c.M - 1)
    (hl : NodeAt ptr s.heap l) (hr : NodeAt ptr s.heap r)
    (hlk : l.kids.length = l.keys.length + 1) (hrk : r.kids.length = r.keys.length + 1)
    (hl0 : 0 < l.keys.length) (hlM : l.keys.length ≤ c.M - 1) (hrM : r.keys.length < c.M - 1)
    (hal : a ≠ l.addr) (har : a ≠ r.addr) (hlr : l.addr ≠ r.addr) :
    ∃ s' nda', borrowLeft c (some a) pivot (some l.addr) (some r.addr) s = .ok ((), s') ∧
      s'.heap a = some nda' ∧ nda'.n = nda.n ∧ nda'.p = nda.p ∧
      Holds nda'.keys (keys.set pivot (Node.borrowLeft l k r).2.1) ∧
      NodeAt ptr s'.heap (Node.borrowLeft l k r).1 ∧
      NodeAt ptr s'.heap (Node.borrowLeft l k r).2.2 ∧
      Changed s s' [a, l.addr, r.addr] [] [] := by
  have hM := c.three_le
  have hpivlt : pivot < keys.length := (List.getElem?_eq_some_iff.1 hpiv).1
  obtain ⟨al, lkeys, lkids⟩ := l
  obtain ⟨ar, rks, rcs⟩ := r
  obtain ⟨lks, k', rfl⟩ := split_last hl0
  obtain ⟨lcs, x, rfl⟩ := split_last (l := lkids) (by rw [show lkids.length = _ from hlk]; omega)
  obtain ⟨ndl, hal', hnl, hkl, hpl⟩ := hl
  obtain ⟨ndr, har', hnr, hkr, hpr⟩ := hr
  simp only [List.length_append, List.length_singleton] at hlk hlM hnl
  simp only at hal har hlr hal' har' hnr hkr hpr hrk hrM hkl hpl
  rw [Node.borrowLeft_eq]
  -- the pointer behind the last key of the right sibling, and the shift
  obtain ⟨q, hq⟩ := hpr.written (i := rks.length) (by simp [hrk])
  obtain ⟨ndr', hshift, hnr', hkeys', hp'⟩ := shiftUp_spec (c := c) rks.length
    (s.set ar (ndr.setP (rks.length + 1) q)) (ndr.setP (rks.length + 1) q) (Mem.set_same _ _ _)
    hrM (fun j hj => hkr.written hj) (fun j hj => by
      rw [BtNode.setP_p, Function.update_of_ne (by omega)]
      exact hpr.written (by simp; omega))
  let nd₃ := ndr'.setN (rks.length + 1)
  let nd₅ := (nd₃.setKey 0 k).setP 0 (ptr x)
  let s₅ := s.set ar nd₅
  let s₆ := s₅.set al (ndl.setN lks.length)
  have hlk' : ndl.keys lks.length = some k' := hkl _ _ (getElem?_around lks k' [])
  have hlp' : ndl.p (lks.length + 1) = some (ptr x) := by
    have := hpl (lks.length + 1) (ptr x)
    rw [show lks.length + 1 = lcs.length by omega] at this ⊢
    exact this (by simp)
  have hal₅ : ∀ nd, (s.set ar nd).heap al = some ndl := fun nd => (Mem.set_other hlr _).trans hal'
  have ha₅ : ∀ nd, (s.set ar nd).heap a = some nda := fun nd => (Mem.set_other har _).trans ha
  have ha₆ : s₆.heap a = some nda := (Mem.set_other hal _).trans (ha₅ _)
  refine ⟨s₆.set a (nda.setKey pivot k'), nda.setKey pivot k', ?_, Mem.set_same _ _ _, rfl, rfl,
    hk.update _ _, ⟨ndl.setN lks.length, ?_, rfl, hkl.left, ?_⟩, ⟨nd₅, ?_, rfl, ?_, ?_⟩, ?_⟩
  · rw [borrowLeft, bind_ok (readN_ok har' hnr), bind_ok (readP_ok har' (by omega) hq),
      bind_ok (writeP_ok har' (by omega) q), bind_ok hshift,
      bind_ok (writeN_ok (Mem.set_same _ _ _) _), Mem.set_set, Mem.set_set,
      bind_ok (readKey_ok (ha₅ _) (by omega) (hk _ _ hpiv)),
      bind_ok (writeKey_ok (Mem.set_same _ _ _) (by omega) k), Mem.set_set,
      bind_ok (readN_ok (hal₅ _) hnl), bind_ok (readP_ok (hal₅ _) (by omega) hlp'),
      bind_ok (writeP_ok (Mem.set_same _ _ _) (by omega) _), Mem.set_set,
      bind_ok (predOf_ok _ (by omega)), bind_ok (writeN_ok (hal₅ _) _), Nat.add_sub_cancel,
      bind_ok (readKey_ok (Mem.set_same _ al (ndl.setN lks.length)) (by omega) hlk'),
      writeKey_ok ha₆ (by omega) k']
  · exact (Mem.set_other hal.symm _).trans (Mem.set_same _ _ _)
  · rw [List.map_append] at hpl
    exact hpl.left
  · exact (Mem.set_other har.symm _).trans ((Mem.set_other hlr.symm _).trans (Mem.set_same _ _ _))
  · rw [← List.insertIdx_zero]
    refine hkr.insertIdx (by simp [nd₅]) (fun i hi => by omega) (fun i _ hi => ?_)
    change Function.update ndr'.keys 0 (some k) (i + 1) = _
    rw [Function.update_of_ne (by omega), hkeys', if_pos (by omega), Nat.add_sub_cancel]
    rfl
  · rw [List.map_cons, ← List.insertIdx_zero]
    refine hpr.insertIdx (by simp [nd₅]) (fun i hi => by omega) (fun i _ hi => ?_)
    rw [List.length_map] at hi
    change Function.update ndr'.p 0 (some (ptr x)) (i + 1) = _
    rw [Function.update_of_ne (by omega), hp']
    by_cases hlast : i = rks.length
    · subst hlast
      rw [if_neg (by omega), BtNode.setP_p, Function.update_self, hq]
    · rw [if_pos (by omega), BtNode.setP_p, Nat.add_sub_cancel, Function.update_of_ne (by omega)]
  · exact ⟨fun b hb _ => by
        simp only [List.mem_cons, List.not_mem_nil, or_false, not_or] at hb
        rw [Mem.set_other hb.1, Mem.set_other hb.2.1, Mem.set_other hb.2.2],
      rfl, rfl, rfl, rfl, rfl⟩

/-- A key and a child come over from the right sibling. -/
theorem borrowRight_ok {ptr : C → Ptr} {a : Addr} {nda : BtNode K} {keys : List K} {pivot : Nat}
    {k : K} {l r : Node K C} (ha : s.heap a = some nda) (hk : Holds nda.keys keys)
    (hpiv : keys[pivot]? = some k) (hlen : keys.length ≤ c.M - 1)
    (hl : NodeAt ptr s.heap l) (hr : NodeAt ptr s.heap r)
    (hlk : l.kids.length = l.keys.length + 1) (hrk : r.kids.length = r.keys.length + 1)
    (hr0 : 0 < r.keys.length) (hrM : r.keys.length ≤ c.M - 1) (hlM : l.keys.length < c.M - 1)
    (hal : a ≠ l.addr) (har : a ≠ r.addr) (hlr : l.addr ≠ r.addr) :
    ∃ s' nda', borrowRight c (some a) pivot (some l.addr) (some r.addr) s = .ok ((), s') ∧
      s'.heap a = some nda' ∧ nda'.n = nda.n ∧ nda'.p = nda.p ∧
      Holds nda'.keys (keys.set pivot (Node.borrowRight l k r).2.1) ∧
      NodeAt ptr s'.heap (Node.borrowRight l k r).1 ∧
      NodeAt ptr s'.heap (Node.borrowRight l k r).2.2 ∧
      Changed s s' [a, l.addr, r.addr] [] [] := by
  have hM := c.three_le
  have hpivlt : pivot < keys.length := (List.getElem?_eq_some_iff.1 hpiv).1
  obtain ⟨al, lks, lcs⟩ := l
  obtain ⟨ar, rkeys, rkids⟩ := r
  obtain ⟨k', rks, rfl⟩ := List.exists_cons_of_length_pos hr0
  obtain ⟨x, rcs, rfl⟩ := List.exists_cons_of_length_pos (l := rkids)
    (by rw [show rkids.length = _ from hrk]; omega)
  obtain ⟨ndl, hal', hnl, hkl, hpl⟩ := hl
  obtain ⟨ndr, har', hnr, hkr, hpr⟩ := hr
  simp only [List.length_cons] at hrk hrM hnr
  simp only at hal har hlr hal' har' hnl hkl hpl hkr hpr hlk hlM
  rw [Node.borrowRight_eq]
  have hk0 : ndr.keys 0 = some k' := hkr 0 k' rfl
  have hp0 : ndr.p 0 = some (ptr x) := hpr 0 _ rfl
  -- the right sibling closes its gap
  let ndr₁ := ndr.setN rks.length
  let ndl₁ := (ndl.setKey lks.length k).setP (lks.length + 1) (ptr x)
  let ndl₂ := ndl₁.setN (lks.length + 1)
  let s₂ := ((s.set al ndl₁).set a (nda.setKey pivot k')).set al ndl₂
  obtain ⟨ndr', hshift, hnr', hkeys', hp'⟩ := shiftDown_spec (c := c) rks.length 0
    (s₂.set ar ndr₁) ndr₁ (Mem.set_same _ _ _) (by omega)
    (fun j hj => hkr.written (by simp; omega)) (fun j hj => hpr.written (by simp; omega))
  obtain ⟨q, hq⟩ := hpr.written (i := rks.length + 1) (by simp; omega)
  have hq' : ndr'.p (rks.length + 1) = some q := by
    rw [hp', if_neg (by omega)]
    exact hq
  have har₁ : ∀ nd, (s.set al nd).heap ar = some ndr :=
    fun nd => (Mem.set_other hlr.symm _).trans har'
  have har₂ : s₂.heap ar = some ndr :=
    (Mem.set_other hlr.symm _).trans ((Mem.set_other har.symm _).trans (har₁ _))
  have ha₁ : ∀ nd, (s.set al nd).heap a = some nda := fun nd => (Mem.set_other hal _).trans ha
  refine ⟨s₂.set ar (ndr'.setP rks.length q), nda.setKey pivot k', ?_, ?_, rfl, rfl,
    hk.update _ _, ⟨ndl₂, ?_, ?_, hkl.snoc k, ?_⟩, ⟨ndr'.setP rks.length q, Mem.set_same _ _ _,
      hnr', ?_, ?_⟩, ?_⟩
  · rw [borrowRight, bind_ok (readN_ok hal' hnl),
      bind_ok (readKey_ok ha (by omega) (hk _ _ hpiv)), bind_ok (writeKey_ok hal' (by omega) k),
      bind_ok (readP_ok (har₁ _) (by omega) hp0),
      bind_ok (writeP_ok (Mem.set_same _ _ _) (by omega) _), Mem.set_set,
      bind_ok (readKey_ok (har₁ _) (by omega) hk0),
      bind_ok (writeKey_ok (ha₁ _) (by omega) k'),
      bind_ok (writeN_ok ((Mem.set_other hal.symm _).trans (Mem.set_same _ _ _)) _),
      bind_ok (readN_ok har₂ hnr), bind_ok (predOf_ok _ (by omega)), Nat.add_sub_cancel,
      bind_ok (writeN_ok har₂ _), bind_ok hshift, Mem.set_set,
      bind_ok (readP_ok (Mem.set_same _ ar ndr') (by omega) hq'),
      writeP_ok (Mem.set_same _ _ _) (by omega) q, Mem.set_set]
  · exact (Mem.set_other har _).trans ((Mem.set_other hal _).trans (Mem.set_same _ _ _))
  · exact (Mem.set_other hlr _).trans (Mem.set_same _ _ _)
  · simp [ndl₂]
  · rw [List.map_append]
    have := hpl.snoc (ptr x)
    rw [List.length_map, hlk] at this
    exact this
  · intro i y hy
    have hi : i < rks.length := (List.getElem?_eq_some_iff.1 hy).1
    rw [BtNode.setP_keys, hkeys', if_pos (by omega)]
    exact hkr (i + 1) y hy
  · intro i y hy
    have hi : i < (rcs.map ptr).length := (List.getElem?_eq_some_iff.1 hy).1
    rw [List.length_map] at hi
    rw [BtNode.setP_p]
    by_cases hlast : i = rks.length
    · subst hlast
      rw [Function.update_self, ← hq]
      exact hpr (rks.length + 1) y hy
    · rw [Function.update_of_ne hlast, hp', if_pos (by omega)]
      exact hpr (i + 1) y hy
  · exact ⟨fun b hb _ => by
        simp only [List.mem_cons, List.not_mem_nil, or_false, not_or] at hb
        rw [Mem.set_other hb.2.2, Mem.set_other hb.2.1, Mem.set_other hb.1,
          Mem.set_other hb.2.1],
      rfl, rfl, rfl, rfl, rfl⟩

/-! ## Merging with a sibling -/

/-- "merge right node with left node". -/
theorem mergeNodes_ok {ptr : C → Ptr} {a : Addr} {nda : BtNode K} {keys : List K} {pivot : Nat}
    {k : K} {l r : Node K C} (ha : s.heap a = some nda) (hk : Holds nda.keys keys)
    (hpiv : keys[pivot]? = some k) (hlen : keys.length ≤ c.M - 1)
    (hl : NodeAt ptr s.heap l) (hr : NodeAt ptr s.heap r)
    (hlk : l.kids.length = l.keys.length + 1) (hrk : r.kids.length = r.keys.length + 1)
    (hroom : l.keys.length + r.keys.length + 1 ≤ c.M - 1)
    (hal : a ≠ l.addr) (hlr : l.addr ≠ r.addr) :
    ∃ s', mergeNodes c (some a) pivot (some l.addr) (some r.addr) s = .ok ((), s') ∧
      NodeAt ptr s'.heap (l.merge k r) ∧ Changed s s' [l.addr, r.addr] [] [r.addr] := by
  have hM := c.three_le
  have hpivlt : pivot < keys.length := (List.getElem?_eq_some_iff.1 hpiv).1
  obtain ⟨al, lks, lcs⟩ := l
  obtain ⟨ar, rks, rkids⟩ := r
  obtain ⟨x, rcs, rfl⟩ := List.exists_cons_of_length_pos (l := rkids)
    (by rw [show rkids.length = _ from hrk]; omega)
  obtain ⟨ndl, hal', hnl, hkl, hpl⟩ := hl
  obtain ⟨ndr, har', hnr, hkr, hpr⟩ := hr
  simp only [List.length_cons] at hrk
  simp only at hal hlr hal' har' hnl hkl hpl hnr hkr hpr hlk hroom
  have hp0 : ndr.p 0 = some (ptr x) := hpr 0 _ rfl
  have har₁ : ∀ nd, (s.set al nd).heap ar = some ndr :=
    fun nd => (Mem.set_other hlr.symm _).trans har'
  let ndl₁ := (ndl.setKey lks.length k).setP (lks.length + 1) (ptr x)
  obtain ⟨ndl₂, hcopy, hn₂, hkeys₂, hp₂⟩ := mergeCopy_spec (c := c) hlr ndr lks.length
    rks.length 0 (s.set al ndl₁) ndl₁ (Mem.set_same _ _ _) (har₁ _) (by omega)
    (fun j hj => hkr.written (by omega)) (fun j hj => hpr.written (by simp; omega))
  let s₁ := s.set al (ndl₂.setN (lks.length + rks.length + 1))
  refine ⟨{ s₁ with heap := Function.update s₁.heap ar none, freed := ar :: s₁.freed }, ?_,
    ⟨ndl₂.setN (lks.length + rks.length + 1), ?_, ?_, ?_, ?_⟩, ?_⟩
  · rw [mergeNodes, bind_ok (readN_ok hal' hnl),
      bind_ok (readKey_ok ha (by omega) (hk _ _ hpiv)), bind_ok (writeKey_ok hal' (by omega) k),
      bind_ok (readP_ok (har₁ _) (by omega) hp0),
      bind_ok (writeP_ok (Mem.set_same _ _ _) (by omega) _), Mem.set_set,
      bind_ok (readN_ok (har₁ _) hnr), bind_ok hcopy, Mem.set_set,
      bind_ok (writeN_ok (Mem.set_same _ _ _) _), Mem.set_set, freeNode_ok (har₁ _)]
  · exact (Function.update_of_ne hlr _ _).trans (Mem.set_same _ _ _)
  · simp [Node.merge, Nat.add_assoc]
  · -- the left keys, the parent's key, the right keys
    change Holds _ (lks ++ k :: rks)
    refine Holds.append (hkl.congr fun i hi => ?_) (fun i y hy => ?_)
    · rw [BtNode.setN_keys, hkeys₂, if_neg (by omega)]
      exact Function.update_of_ne (by omega) _ _
    · rw [BtNode.setN_keys, hkeys₂]
      cases i with
      | zero =>
          rw [if_neg (by omega)]
          simpa [ndl₁] using hy
      | succ i =>
          rw [List.getElem?_cons_succ] at hy
          have hi : i < rks.length := (List.getElem?_eq_some_iff.1 hy).1
          rw [if_pos (by omega), show lks.length + (i + 1) - (lks.length + 1) = i by omega]
          exact hkr i y hy
  · rw [show ((⟨al, lks, lcs⟩ : Node K C).merge k ⟨ar, rks, x :: rcs⟩).kids.map ptr =
        lcs.map ptr ++ (x :: rcs).map ptr from List.map_append]
    refine Holds.append (hpl.congr fun i hi => ?_) (fun i y hy => ?_)
    · rw [List.length_map] at hi
      rw [BtNode.setN_p, hp₂, if_neg (by omega)]
      exact Function.update_of_ne (by omega) _ _
    · rw [BtNode.setN_p, hp₂, List.length_map]
      have hi : i < ((x :: rcs).map ptr).length := (List.getElem?_eq_some_iff.1 hy).1
      rw [List.length_map, List.length_cons] at hi
      cases i with
      | zero =>
          rw [if_neg (by omega)]
          simpa [ndl₁, hlk] using hy
      | succ i =>
          rw [if_pos (by omega), show lcs.length + (i + 1) - (lks.length + 1) = i + 1 by omega]
          exact hpr (i + 1) y hy
  · exact ⟨fun b hb _ => by
        simp only [List.mem_cons, List.not_mem_nil, or_false, not_or] at hb
        exact (Function.update_of_ne hb.2 _ _).trans (Mem.set_other hb.1 _),
      rfl, rfl, rfl, rfl, rfl⟩

end SatAllocatorTest.Ports.Btree
