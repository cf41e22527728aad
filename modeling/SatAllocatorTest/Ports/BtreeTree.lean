import Mathlib.Data.List.Basic
import Mathlib.Order.Lattice
import SatAllocatorTest.Ports.BtreeMemory
import SatAllocatorTest.Verified.Interleave
import SatAllocatorTest.Verified.Slots

/-!
# Addressed trees

What the pointers of a B-tree describe, as a value: a node is its address, its
live keys and its subtrees, and a tree of height `h + 1` is a node whose
children are trees of height `h`.  The null pointers of a leaf are the trees of
height `0`, so all leaves of a `Tree K h` are at one depth by construction.

`insT`, `delT` and `Node.rebalance` do to such a value what `ins`, `del` and the
shared end of the deletions do to the heap, addresses included.  They are the
middle layer of this development: `BtreeInsert` and `BtreeDelete` prove that the
heap code follows them step by step, and the theorems about order, occupancy
and contents are proved about them.

The `none` branches below are never taken on a tree that satisfies `WF`.
-/

namespace SatAllocatorTest.Ports.Btree

open SatAllocatorTest.Verified.Slots
open SatAllocatorTest.Verified.Interleave

/-- A node: where it is, its live keys, and its children. -/
structure Node (K C : Type) where
  addr : Addr
  keys : List K
  kids : List C

/-- Trees of height `h`. -/
def Tree (K : Type) : Nat → Type
  | 0 => Unit
  | h + 1 => Node K (Tree K h)

namespace Tree

variable {K : Type}

/-- The pointer to a tree. -/
def ptr : {h : Nat} → Tree K h → Ptr
  | 0, _ => none
  | _ + 1, t => some (Node.addr t)

/-- The addresses of all nodes of a tree. -/
def addrs : {h : Nat} → Tree K h → List Addr
  | 0, _ => []
  | _ + 1, t => Node.addr t :: (Node.kids t).flatMap addrs

/-- The keys of a tree in order. -/
def toList : {h : Nat} → Tree K h → List K
  | 0, _ => []
  | _ + 1, t => weave ((Node.kids t).map toList) (Node.keys t)

/-- The heap holds the node `t`, its live keys, and pointers to its children. -/
def NodeAt {C : Type} (ptr : C → Ptr) (heap : Heap K) (t : Node K C) : Prop :=
  ∃ nd, heap t.addr = some nd ∧ nd.n = some t.keys.length ∧
    Holds nd.keys t.keys ∧ Holds nd.p (t.kids.map ptr)

/-- The heap holds the tree. -/
def Rep (heap : Heap K) : {h : Nat} → Tree K h → Prop
  | 0, _ => True
  | _ + 1, t => NodeAt ptr heap t ∧ ∀ c ∈ Node.kids t, Rep heap c

/-- Occupancy: a node has between `lo` and `M - 1` keys and one child more, and
every node below it has at least `min` keys. -/
def WF (c : Cfg K) : (lo : Nat) → {h : Nat} → Tree K h → Prop
  | _, 0, _ => True
  | lo, _ + 1, t =>
      lo ≤ (Node.keys t).length ∧ (Node.keys t).length ≤ c.M - 1 ∧
        (Node.kids t).length = (Node.keys t).length + 1 ∧
        ∀ k ∈ Node.kids t, WF c c.min k

end Tree

/-! ## The functions -/

section Functions

variable {K C : Type} [LinearOrder K]

/-- `searchPos`: the first index whose key is not below `key`. -/
def searchIdx (key : K) (keys : List K) : Nat :=
  keys.findIdx fun k => decide (key ≤ k)

/-- The result of a deletion: the status, what is left, and the nodes freed. -/
structure Removed (T : Type) where
  status : BtKeyStatus
  tree : T
  freed : List Addr

namespace Node

/-- A key goes from the left sibling over the parent to the right one. -/
def borrowLeft (l : Node K C) (k : K) (r : Node K C) : Node K C × K × Node K C :=
  match l.keys.getLast?, l.kids.getLast? with
  | some k', some c =>
      ({ l with keys := l.keys.dropLast, kids := l.kids.dropLast }, k',
        { r with keys := k :: r.keys, kids := c :: r.kids })
  | _, _ => (l, k, r)

/-- A key goes from the right sibling over the parent to the left one. -/
def borrowRight (l : Node K C) (k : K) (r : Node K C) : Node K C × K × Node K C :=
  match r.keys, r.kids with
  | k' :: ks, c :: cs =>
      ({ l with keys := l.keys ++ [k], kids := l.kids ++ [c] }, k',
        { r with keys := ks, kids := cs })
  | _, _ => (l, k, r)

/-- The right sibling goes into the left one, around the parent's key. -/
def merge (l : Node K C) (k : K) (r : Node K C) : Node K C :=
  { l with keys := l.keys ++ k :: r.keys, kids := l.kids ++ r.kids }

/-- `p[i]->n > min`. -/
def hasSpare (min : Nat) (t : Node K (Node K C)) (i : Nat) : Bool :=
  match t.kids[i]? with
  | some s => decide (min < s.keys.length)
  | none => false

/-- Two neighbours and the key between them are replaced. -/
def window (t : Node K (Node K C)) (i : Nat)
    (f : Node K C → K → Node K C → Node K C × K × Node K C) : Node K (Node K C) :=
  match t.kids[i]?, t.keys[i]?, t.kids[i + 1]? with
  | some l, some k, some r =>
      { t with
        keys := t.keys.set i (f l k r).2.1
        kids := (t.kids.set i (f l k r).1).set (i + 1) (f l k r).2.2 }
  | _, _, _ => t

/-- Two neighbours become one, and the key between them goes. -/
def joinAt (lo : Nat) (t : Node K (Node K C)) (i : Nat) : Removed (Node K (Node K C)) :=
  match t.kids[i]?, t.keys[i]?, t.kids[i + 1]? with
  | some l, some k, some r =>
      { status := if lo ≤ t.keys.length - 1 then .success else .lessKeys
        tree := { t with
          keys := t.keys.eraseIdx i
          kids := (t.kids.set i (l.merge k r)).eraseIdx (i + 1) }
        freed := [r.addr] }
  | _, _, _ => ⟨.searchFailure, t, []⟩

/-- What `rebalance` does to a node whose child at `pos` is one key short; `lo`
is the node's own bound. -/
def rebalance (min lo : Nat) (t : Node K (Node K C)) (pos : Nat) :
    Removed (Node K (Node K C)) :=
  if 0 < pos ∧ t.hasSpare min (pos - 1) then ⟨.success, t.window (pos - 1) borrowLeft, []⟩
  else if pos < t.keys.length ∧ t.hasSpare min (pos + 1) then
    ⟨.success, t.window pos borrowRight, []⟩
  else t.joinAt lo (if pos = t.keys.length then pos - 1 else pos)

end Node

/-- What `ins` leaves: nothing changed, the tree changed in place, or the tree
split in two around a key. -/
inductive Inserted (T K : Type)
  | dup
  | done (t : T)
  | split (t : T) (up : K) (r : T)

/-- A full node with one key and one child more than fit is cut in two. -/
def Node.splitAt (at_ : Nat) (keys : List K) (kids : List C) (addr new : Addr) :
    Option (Node K C × K × Node K C) :=
  match keys[at_]? with
  | none => none
  | some up => some (⟨addr, keys.take at_, kids.take (at_ + 1)⟩, up,
      ⟨new, keys.drop (at_ + 1), kids.drop (at_ + 1)⟩)

/-- `ins` at a node, given `ins` on its children (`self`) and the addresses
allocated so far; also returns those allocated by then. -/
def Node.ins (c : Cfg K) (self : C → K → List Addr → Inserted C K × List Addr)
    (t : Node K C) (key : K) (al : List Addr) : Inserted (Node K C) K × List Addr :=
  let pos := searchIdx key t.keys
  if t.keys[pos]? = some key then (.dup, al)
  else
    match t.kids[pos]? with
    | none => (.dup, al)
    | some kid =>
      match self kid key al with
      | (.dup, al) => (.dup, al)
      | (.done kid, al) => (.done { t with kids := t.kids.set pos kid }, al)
      | (.split kid up r, al) =>
        if t.keys.length < c.M - 1 then
          let at_ := searchIdx up t.keys
          (.done { t with
            keys := t.keys.insertIdx at_ up
            kids := (t.kids.set pos kid).insertIdx (at_ + 1) r }, al)
        else
          let new := c.allocNode al
          match Node.splitAt c.min (t.keys.insertIdx pos up)
            ((t.kids.set pos kid).insertIdx (pos + 1) r) t.addr new with
          | none => (.dup, al)
          | some (l, up, r) => (.split l up r, new :: al)

/-- `ins` on a tree. -/
def insT (c : Cfg K) : (h : Nat) → Tree K h → K → List Addr →
    Inserted (Tree K h) K × List Addr
  | 0, t, key, al => (.split t key t, al)
  | h + 1, t, key, al => Node.ins c (insT c h) t key al

/-- The last key of a leaf, and the leaf with `key` in its place. -/
def Node.swapLeaf (t : Node K C) (key : K) : Option (K × Node K C) :=
  match t.keys.getLast? with
  | none => none
  | some k => some (k, { t with keys := t.keys.set (t.keys.length - 1) key })

/-- The same below the last child of an inner node. -/
def Node.swapKid (self : C → K → Option (K × C)) (t : Node K C) (key : K) :
    Option (K × Node K C) :=
  match t.kids[t.keys.length]? with
  | none => none
  | some kid =>
    match self kid key with
    | none => none
    | some (k, kid) => some (k, { t with kids := t.kids.set t.keys.length kid })

/-- `swapPredecessor` on the subtree it walks: the last key, and the subtree with
`key` in its place. -/
def swapLast : (h : Nat) → Tree K (h + 1) → K → Option (K × Tree K (h + 1))
  | 0, t, key => Node.swapLeaf t key
  | h + 1, t, key => Node.swapKid (swapLast h) t key

/-- The end of `del` at a leaf: the key at `pos` goes. -/
def Node.removeAt (lo : Nat) (t : Node K C) (pos : Nat) : Removed (Node K C) :=
  { status := if lo ≤ t.keys.length - 1 then .success else .lessKeys
    tree := { t with keys := t.keys.eraseIdx pos, kids := t.kids.eraseIdx (pos + 1) }
    freed := [] }

/-- `del` at a leaf. -/
def Node.delLeaf (lo : Nat) (t : Node K C) (key : K) : Removed (Node K C) :=
  if t.keys[searchIdx key t.keys]? = some key then t.removeAt lo (searchIdx key t.keys)
  else ⟨.searchFailure, t, []⟩

/-- The end of `del` at an inner node: the child at `pos` has been treated, and
may have to be rebalanced. -/
def Node.afterKid (min lo : Nat) (t : Node K (Node K C)) (pos : Nat)
    (r : Removed (Node K C)) : Removed (Node K (Node K C)) :=
  let t := { t with kids := t.kids.set pos r.tree }
  if r.status = .lessKeys then
    { t.rebalance min lo pos with freed := (t.rebalance min lo pos).freed ++ r.freed }
  else ⟨r.status, t, r.freed⟩

/-- `del` at an inner node, given `del` on its children (`self`) and the swap with
the last key below one. -/
def Node.del (min lo : Nat) (swap : Node K C → K → Option (K × Node K C))
    (self : Node K C → K → Removed (Node K C)) (t : Node K (Node K C)) (key : K) :
    Removed (Node K (Node K C)) :=
  let pos := searchIdx key t.keys
  match t.kids[pos]? with
  | none => ⟨.searchFailure, t, []⟩
  | some kid =>
    if t.keys[pos]? = some key then
      match swap kid key with
      | none => ⟨.searchFailure, t, []⟩
      | some (k, kid) =>
        Node.afterKid min lo { t with keys := t.keys.set pos k } pos (self kid key)
    else Node.afterKid min lo t pos (self kid key)

/-- `del` on a tree; `lo` is the bound its root is held to. -/
def delT (c : Cfg K) : (h : Nat) → (lo : Nat) → Tree K h → K → Removed (Tree K h)
  | 0, _, t, _ => ⟨.searchFailure, t, []⟩
  | 1, lo, t, key => Node.delLeaf lo t key
  | h + 2, lo, t, key =>
      Node.del c.min lo (swapLast h) (delT c (h + 1) c.min) (t : Node K (Node K (Tree K h))) key

end Functions

end SatAllocatorTest.Ports.Btree
