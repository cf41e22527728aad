import Mathlib.Order.Lattice
import Mathlib.Logic.Function.Basic

/-!
# The memory of the B-tree

`btree.h` keeps its keys in nodes of fixed arrays, reached through raw
pointers.  This file is the memory those nodes live in: a heap from addresses
to nodes, the accesses the C++ makes to it, and the two virtual functions
`allocNode` and `freeNode`.

Three things the C++ leaves to chance are explicit here.

* A slot of `keys` or `p` is `none` until it is written; `allocNode` returns a
  node in which every slot, and `n`, is unwritten.
* A read of `keys` that has no value of its own (an unwritten slot, or
  `keys[M - 1]`, one past the array) returns `Cfg.junk`, an arbitrary value
  fixed by the contents of memory, and leaves a record in `Mem.faults`.
* Every other invalid access (a null pointer, a freed node, an index outside
  an array on a write, an unwritten pointer) stops the run with that `Fault`.

So a run that ends with `faults = []` made no invalid access at all.
-/

namespace SatAllocatorTest.Ports.Btree

/-- The address of a node. -/
abbrev Addr := Nat

/-- `BtNode *`; `none` is the null pointer. -/
abbrev Ptr := Option Addr

/-- `enum BtKeyStatus`. -/
inductive BtKeyStatus
  | duplicate
  | searchFailure
  | success
  | insertIt
  | lessKeys
  deriving DecidableEq, Repr

/-- `struct BtNode`.  A field or slot is `none` until it is first written. -/
structure BtNode (K : Type) where
  n : Option Nat
  keys : Nat → Option K
  p : Nat → Option Ptr

namespace BtNode

variable {K : Type}

/-- The node `allocNode` returns: nothing in it has been written. -/
def unwritten : BtNode K := ⟨none, fun _ => none, fun _ => none⟩

def setN (nd : BtNode K) (n : Nat) : BtNode K := { nd with n := some n }

def setKey (nd : BtNode K) (i : Nat) (k : K) : BtNode K :=
  { nd with keys := Function.update nd.keys i (some k) }

def setP (nd : BtNode K) (i : Nat) (q : Ptr) : BtNode K :=
  { nd with p := Function.update nd.p i (some q) }

@[simp] theorem setN_n (nd : BtNode K) (n : Nat) : (nd.setN n).n = some n := rfl
@[simp] theorem setN_keys (nd : BtNode K) (n : Nat) : (nd.setN n).keys = nd.keys := rfl
@[simp] theorem setN_p (nd : BtNode K) (n : Nat) : (nd.setN n).p = nd.p := rfl
@[simp] theorem setKey_n (nd : BtNode K) (i : Nat) (k : K) : (nd.setKey i k).n = nd.n := rfl
@[simp] theorem setKey_keys (nd : BtNode K) (i : Nat) (k : K) :
    (nd.setKey i k).keys = Function.update nd.keys i (some k) := rfl
@[simp] theorem setKey_p (nd : BtNode K) (i : Nat) (k : K) : (nd.setKey i k).p = nd.p := rfl
@[simp] theorem setP_n (nd : BtNode K) (i : Nat) (q : Ptr) : (nd.setP i q).n = nd.n := rfl
@[simp] theorem setP_keys (nd : BtNode K) (i : Nat) (q : Ptr) :
    (nd.setP i q).keys = nd.keys := rfl
@[simp] theorem setP_p (nd : BtNode K) (i : Nat) (q : Ptr) :
    (nd.setP i q).p = Function.update nd.p i (some q) := rfl

end BtNode

abbrev Heap (K : Type) := Addr → Option (BtNode K)

/-- What can be wrong with an access. -/
inductive Fault
  | nullDeref
  | deadNode (a : Addr)
  | countUnwritten (a : Addr)
  | keyIndex (a : Addr) (i : Nat)
  | keyUnwritten (a : Addr) (i : Nat)
  | ptrIndex (a : Addr) (i : Nat)
  | ptrUnwritten (a : Addr) (i : Nat)
  | negativeIndex (a : Addr)
  /-- Not an access: a recursion of the model ran out of fuel. -/
  | outOfFuel
  deriving DecidableEq, Repr

/-- One instantiation `Btree<BtKey, M>` in its surroundings: the order `M`, the
derived class's `allocNode` (an address that was never returned before, given
those that were), and the values found in slots that hold none. -/
structure Cfg (K : Type) where
  M : Nat
  three_le : 3 ≤ M
  allocNode : List Addr → Addr
  fresh : ∀ allocated, allocNode allocated ∉ allocated
  junk : (time : Nat) → Heap K → Addr → (slot : Nat) → K

/-- `min` of the deletion routines: the least number of keys of a node that is
not the root.  `splitPos` of the insertion is the same expression. -/
def Cfg.min {K : Type} (c : Cfg K) : Nat := (c.M - 1) / 2

theorem Cfg.min_pos {K : Type} (c : Cfg K) : 1 ≤ c.min := by
  have := c.three_le
  unfold Cfg.min
  omega

theorem Cfg.min_two {K : Type} (c : Cfg K) : 2 * c.min ≤ c.M - 1 := by
  unfold Cfg.min
  omega

/-- The state of a `Btree` object and of the memory behind it. -/
structure Mem (K : Type) where
  heap : Heap K
  root : Ptr
  /-- Every address `allocNode` has returned, newest first. -/
  allocated : List Addr
  /-- Every address passed to `freeNode`, newest first. -/
  freed : List Addr
  /-- The number of public operations started. -/
  time : Nat
  /-- The invalid reads made so far, newest first. -/
  faults : List Fault

namespace Mem

variable {K : Type}

/-- `Btree()`: `this->root = 0`, before any allocation. -/
def empty : Mem K := ⟨fun _ => none, none, [], [], 0, []⟩

def set (s : Mem K) (a : Addr) (nd : BtNode K) : Mem K :=
  { s with heap := Function.update s.heap a (some nd) }

def log (s : Mem K) (f : Fault) : Mem K := { s with faults := f :: s.faults }

@[simp] theorem set_heap (s : Mem K) (a : Addr) (nd : BtNode K) :
    (s.set a nd).heap = Function.update s.heap a (some nd) := rfl
@[simp] theorem set_root (s : Mem K) (a : Addr) (nd : BtNode K) :
    (s.set a nd).root = s.root := rfl
@[simp] theorem set_allocated (s : Mem K) (a : Addr) (nd : BtNode K) :
    (s.set a nd).allocated = s.allocated := rfl
@[simp] theorem set_freed (s : Mem K) (a : Addr) (nd : BtNode K) :
    (s.set a nd).freed = s.freed := rfl
@[simp] theorem set_time (s : Mem K) (a : Addr) (nd : BtNode K) :
    (s.set a nd).time = s.time := rfl
@[simp] theorem set_faults (s : Mem K) (a : Addr) (nd : BtNode K) :
    (s.set a nd).faults = s.faults := rfl

@[simp] theorem set_set (s : Mem K) (a : Addr) (nd nd' : BtNode K) :
    (s.set a nd).set a nd' = s.set a nd' := by
  simp [set, Function.update_idem]

theorem set_same (s : Mem K) (a : Addr) (nd : BtNode K) : (s.set a nd).heap a = some nd := by
  simp

theorem set_other {s : Mem K} {a b : Addr} (h : b ≠ a) (nd : BtNode K) :
    (s.set a nd).heap b = s.heap b := by
  simp [h]

theorem set_self {s : Mem K} {a : Addr} {nd : BtNode K} (h : s.heap a = some nd) :
    s.set a nd = s := by
  simp [set, ← h]

end Mem

/-- A statement of the B-tree code. -/
abbrev BtM (K : Type) := StateT (Mem K) (Except Fault)

variable {K : Type}

def stop {α : Type} (f : Fault) : BtM K α := fun _ => .error f

/-- `ptr->`: the node behind a pointer. -/
def deref {α : Type} (ptr : Ptr) (f : Addr → BtNode K → BtM K α) : BtM K α := fun s =>
  match ptr with
  | none => .error .nullDeref
  | some a =>
    match s.heap a with
    | none => .error (.deadNode a)
    | some nd => f a nd s

/-- `ptr->n`. -/
def readN (ptr : Ptr) : BtM K Nat := deref ptr fun a nd s =>
  match nd.n with
  | none => .error (.countUnwritten a)
  | some n => .ok (n, s)

/-- `ptr->n = n`. -/
def writeN (ptr : Ptr) (n : Nat) : BtM K Unit := deref ptr fun a nd s =>
  .ok ((), s.set a (nd.setN n))

/-- `ptr->keys[i]`, as a value. -/
def readKey (c : Cfg K) (ptr : Ptr) (i : Nat) : BtM K K := deref ptr fun a nd s =>
  if i < c.M - 1 then
    match nd.keys i with
    | some k => .ok (k, s)
    | none => .ok (c.junk s.time s.heap a i, s.log (.keyUnwritten a i))
  else .ok (c.junk s.time s.heap a i, s.log (.keyIndex a i))

/-- `ptr->keys[i] = k`. -/
def writeKey (c : Cfg K) (ptr : Ptr) (i : Nat) (k : K) : BtM K Unit :=
  deref ptr fun a nd s =>
    if i < c.M - 1 then .ok ((), s.set a (nd.setKey i k)) else .error (.keyIndex a i)

/-- `ptr->p[i]`, as a value. -/
def readP (c : Cfg K) (ptr : Ptr) (i : Nat) : BtM K Ptr := deref ptr fun a nd s =>
  if i < c.M then
    match nd.p i with
    | some q => .ok (q, s)
    | none => .error (.ptrUnwritten a i)
  else .error (.ptrIndex a i)

/-- `ptr->p[i] = q`. -/
def writeP (c : Cfg K) (ptr : Ptr) (i : Nat) (q : Ptr) : BtM K Unit :=
  deref ptr fun a nd s =>
    if i < c.M then .ok ((), s.set a (nd.setP i q)) else .error (.ptrIndex a i)

/-- An index (or count) `i - 1` of the C++, which must not be negative. -/
def predOf (ptr : Ptr) (i : Nat) : BtM K Nat :=
  if i = 0 then stop (.negativeIndex (ptr.getD 0)) else pure (i - 1)

/-- `this->allocNode()`. -/
def allocNode (c : Cfg K) : BtM K Ptr := fun s =>
  let a := c.allocNode s.allocated
  .ok (some a, { s with
    heap := Function.update s.heap a (some BtNode.unwritten)
    allocated := a :: s.allocated })

/-- `this->freeNode(ptr)`. -/
def freeNode (ptr : Ptr) : BtM K Unit := deref ptr fun a _ s =>
  .ok ((), { s with heap := Function.update s.heap a none, freed := a :: s.freed })

def readRoot : BtM K Ptr := fun s => .ok (s.root, s)

def writeRoot (ptr : Ptr) : BtM K Unit := fun s => .ok ((), { s with root := ptr })

/-! ## What a valid access does -/

section Access

variable {c : Cfg K} {s : Mem K} {a : Addr} {nd : BtNode K} {i n : Nat}

theorem readN_ok (h : s.heap a = some nd) (hn : nd.n = some n) :
    readN (some a) s = .ok (n, s) := by
  simp [readN, deref, h, hn]

theorem writeN_ok (h : s.heap a = some nd) (n : Nat) :
    writeN (some a) n s = .ok ((), s.set a (nd.setN n)) := by
  simp [writeN, deref, h]

theorem readKey_ok {k : K} (h : s.heap a = some nd) (hi : i < c.M - 1)
    (hk : nd.keys i = some k) : readKey c (some a) i s = .ok (k, s) := by
  simp [readKey, deref, h, hi, hk]

theorem writeKey_ok (h : s.heap a = some nd) (hi : i < c.M - 1) (k : K) :
    writeKey c (some a) i k s = .ok ((), s.set a (nd.setKey i k)) := by
  simp [writeKey, deref, h, hi]

theorem readP_ok {q : Ptr} (h : s.heap a = some nd) (hi : i < c.M)
    (hq : nd.p i = some q) : readP c (some a) i s = .ok (q, s) := by
  simp [readP, deref, h, hi, hq]

theorem writeP_ok (h : s.heap a = some nd) (hi : i < c.M) (q : Ptr) :
    writeP c (some a) i q s = .ok ((), s.set a (nd.setP i q)) := by
  simp [writeP, deref, h, hi]

theorem predOf_ok (ptr : Ptr) (hi : 0 < i) :
    (predOf ptr i : BtM K Nat) s = .ok (i - 1, s) := by
  rw [predOf, if_neg (Nat.ne_of_gt hi)]
  rfl

theorem freeNode_ok (h : s.heap a = some nd) :
    freeNode (some a) s = .ok ((), { s with
      heap := Function.update s.heap a none, freed := a :: s.freed }) := by
  simp [freeNode, deref, h]

end Access

end SatAllocatorTest.Ports.Btree
