import SatAllocatorTest.Ports.BtreeMemory
import SatAllocatorTest.Verified.Refinement

/-!
# The B-tree code

`btree.h`, statement by statement, over the memory of `BtreeMemory`.  The
counted `for` loops recurse on the number of iterations left; `ins`, `del`,
`delUpper`, `contains` and the walk to the rightmost leaf recurse on fuel, of
which a public operation supplies one unit more than nodes were ever
allocated.  `ins` returns its out parameters `upKey` and `newnode` with
`InsOut.insertIt`, the only status under which the code has written them, and
`delUpper` returns the value its reference `fkey` is left with.

`del` and `delUpper` end in the same fifty lines, which the source repeats;
they are `rebalance` here.  `BtKey`'s comparisons are those of one linear
order, so `==` is equality.
-/

namespace SatAllocatorTest.Ports.Btree

open SatAllocatorTest.Verified.Refinement

variable {K : Type} [LinearOrder K] (c : Cfg K)

/-- `while (pos < n && key > key_arr[pos]) pos++`, with `n - pos` keys left. -/
def searchPosFrom (key : K) (key_arr : Ptr) : (left pos : Nat) → BtM K Nat
  | 0, pos => pure pos
  | left + 1, pos => do
      let k ← readKey c key_arr pos
      if key > k then searchPosFrom key key_arr left (pos + 1) else pure pos

/-- `searchPos(key, key_arr, n)`. -/
def searchPos (key : K) (key_arr : Ptr) (n : Nat) : BtM K Nat :=
  searchPosFrom c key key_arr n 0

/-- `pos < n && key == ptr->keys[pos]`. -/
def foundAt (key : K) (ptr : Ptr) (pos n : Nat) : BtM K Bool :=
  if pos < n then do
    let k ← readKey c ptr pos
    pure (decide (key = k))
  else pure false

/-- `for (i = pos + count; i > pos; i--)`: keys and pointers move one right. -/
def shiftRight (ptr : Ptr) (pos : Nat) : (count : Nat) → BtM K Unit
  | 0 => pure ()
  | count + 1 => do
      let k ← readKey c ptr (pos + count)
      writeKey c ptr (pos + count + 1) k
      let q ← readP c ptr (pos + count + 1)
      writeP c ptr (pos + count + 2) q
      shiftRight ptr pos count

/-- `for (; count > 0; i++, count--)`: key `i` and pointer `i + 1` move one
left. -/
def shiftLeft (ptr : Ptr) : (i count : Nat) → BtM K Unit
  | _, 0 => pure ()
  | i, count + 1 => do
      let k ← readKey c ptr i
      let j ← predOf ptr i
      writeKey c ptr j k
      let q ← readP c ptr (i + 1)
      writeP c ptr i q
      shiftLeft ptr (i + 1) count

/-! ## Insertion -/

/-- What `ins` hands back. -/
inductive InsOut (K : Type)
  | stop (value : BtKeyStatus)
  | insertIt (upKey : K) (newnode : Ptr)

/-- The key and the pointer are put in at `pos`, after the tail has moved. -/
def putAt (ptr : Ptr) (pos : Nat) (newKey : K) (newPtr : Ptr) : BtM K Unit := do
  writeKey c ptr pos newKey
  writeP c ptr (pos + 1) newPtr

/-- "If keys in node is less than M-1". -/
def insertInNode (ptr : Ptr) (n : Nat) (newKey : K) (newPtr : Ptr) : BtM K (InsOut K) := do
  let pos ← searchPos c newKey ptr n
  shiftRight c ptr pos (n - pos)
  putAt c ptr pos newKey newPtr
  let n ← readN ptr
  writeN ptr (n + 1)
  pure (.stop .success)

/-- "If keys in nodes are maximum": what does not fit is returned as
`lastKey`, `lastPtr`. -/
def insertInFull (ptr : Ptr) (pos : Nat) (newKey : K) (newPtr : Ptr) : BtM K (K × Ptr) :=
  if pos = c.M - 1 then pure (newKey, newPtr)
  else do
    let lastKey ← readKey c ptr (c.M - 2)
    let lastPtr ← readP c ptr (c.M - 1)
    shiftRight c ptr pos (c.M - 2 - pos)
    putAt c ptr pos newKey newPtr
    pure (lastKey, lastPtr)

/-- `if (i < (*newnode)->n - 1) … else (*newnode)->keys[i] = lastKey`. -/
def splitKey (newnode ptr : Ptr) (splitPos newn : Nat) (lastKey : K) (i : Nat) : BtM K Unit :=
  if i < newn - 1 then do
    let k ← readKey c ptr (i + splitPos + 1)
    writeKey c newnode i k
  else writeKey c newnode i lastKey

/-- The loop that fills the right node after a split, with `count` rounds
left. -/
def splitCopy (newnode ptr : Ptr) (splitPos newn : Nat) (lastKey : K) :
    (i count : Nat) → BtM K Unit
  | _, 0 => pure ()
  | i, count + 1 => do
      let q ← readP c ptr (i + splitPos + 1)
      writeP c newnode i q
      splitKey c newnode ptr splitPos newn lastKey i
      splitCopy newnode ptr splitPos newn lastKey (i + 1) count

/-- The split of a full node. -/
def splitNode (ptr : Ptr) (lastKey : K) (lastPtr : Ptr) : BtM K (InsOut K) := do
  let splitPos := (c.M - 1) / 2
  let upKey ← readKey c ptr splitPos
  let newnode ← allocNode c
  writeN ptr splitPos
  writeN newnode (c.M - 1 - splitPos)
  let newn ← readN newnode
  splitCopy c newnode ptr splitPos newn lastKey 0 newn
  writeP c newnode newn lastPtr
  pure (.insertIt upKey newnode)

/-- `ins` once the call on the child has returned `out`. -/
def insUp (ptr : Ptr) (n pos : Nat) : (out : InsOut K) → BtM K (InsOut K)
  | .stop value => pure (.stop value)
  | .insertIt newKey newPtr =>
      if n < c.M - 1 then insertInNode c ptr n newKey newPtr
      else do
        let last ← insertInFull c ptr pos newKey newPtr
        splitNode c ptr last.1 last.2

/-- `ins(ptr, key, upKey, newnode)`. -/
def ins : (fuel : Nat) → Ptr → K → BtM K (InsOut K)
  | 0, _, _ => stop .outOfFuel
  | fuel + 1, ptr, key =>
      if ptr = none then pure (.insertIt key none)
      else do
        let n ← readN ptr
        let pos ← searchPos c key ptr n
        let dup ← foundAt c key ptr pos n
        if dup then pure (.stop .duplicate)
        else do
          let child ← readP c ptr pos
          let out ← ins fuel child key
          insUp c ptr n pos out

/-! ## Deletion -/

/-- `--ptr->n >= (ptr == root ? 1 : min) ? Success : LessKeys`. -/
def decCount (ptr : Ptr) : BtM K BtKeyStatus := do
  let n ← readN ptr
  let n ← predOf ptr n
  writeN ptr n
  let root ← readRoot
  pure (if (if ptr = root then 1 else c.min) ≤ n then .success else .lessKeys)

/-- The key at `pos` goes, with the pointer behind it; when `pos` is `n` the last
ones go. -/
def dropEntry (ptr : Ptr) (pos n : Nat) : BtM K BtKeyStatus := do
  shiftLeft c ptr (pos + 1) (n - (pos + 1))
  decCount c ptr

/-- `for (;;)`: from `qp` to the rightmost leaf below it and its key count. -/
def rightmost : (fuel : Nat) → Ptr → BtM K (Ptr × Nat)
  | 0, _ => stop .outOfFuel
  | fuel + 1, qp => do
      let nkey ← readN qp
      let qp1 ← readP c qp nkey
      if qp1 = none then pure (qp, nkey) else rightmost fuel qp1

/-- `key_arr[pos]` trades places with its predecessor, the last key of the
rightmost leaf below `p[pos]`. -/
def swapPredecessor (fuel : Nat) (ptr : Ptr) (pos : Nat) (key : K) : BtM K Unit := do
  let child ← readP c ptr pos
  let (qp, nkey) ← rightmost c fuel child
  let last ← predOf qp nkey
  let k ← readKey c qp last
  writeKey c ptr pos k
  writeKey c qp last key

/-- `if (cond) { … }` around a swap. -/
def swapWhen (cond : Bool) (fuel : Nat) (ptr : Ptr) (pos : Nat) (key : K) : BtM K Unit :=
  if cond then swapPredecessor c fuel ptr pos key else pure ()

/-- `for (i = count; i > 0; i--)`: keys and pointers move one right. -/
def shiftUp (rptr : Ptr) : (count : Nat) → BtM K Unit
  | 0 => pure ()
  | i + 1 => do
      let k ← readKey c rptr i
      writeKey c rptr (i + 1) k
      let q ← readP c rptr i
      writeP c rptr (i + 1) q
      shiftUp rptr i

/-- A key and a pointer come over from the left sibling. -/
def borrowLeft (ptr : Ptr) (pivot : Nat) (lptr rptr : Ptr) : BtM K Unit := do
  let rn ← readN rptr
  let q ← readP c rptr rn
  writeP c rptr (rn + 1) q
  shiftUp c rptr rn
  writeN rptr (rn + 1)
  let k ← readKey c ptr pivot
  writeKey c rptr 0 k
  let ln ← readN lptr
  let q ← readP c lptr ln
  writeP c rptr 0 q
  let ln ← predOf lptr ln
  writeN lptr ln
  let k ← readKey c lptr ln
  writeKey c ptr pivot k

/-- `for (; count > 0; i++, count--)`: keys and pointers move one left. -/
def shiftDown (rptr : Ptr) : (i count : Nat) → BtM K Unit
  | _, 0 => pure ()
  | i, count + 1 => do
      let k ← readKey c rptr (i + 1)
      writeKey c rptr i k
      let q ← readP c rptr (i + 1)
      writeP c rptr i q
      shiftDown rptr (i + 1) count

/-- A key and a pointer come over from the right sibling. -/
def borrowRight (ptr : Ptr) (pivot : Nat) (lptr rptr : Ptr) : BtM K Unit := do
  let ln ← readN lptr
  let k ← readKey c ptr pivot
  writeKey c lptr ln k
  let q ← readP c rptr 0
  writeP c lptr (ln + 1) q
  let k ← readKey c rptr 0
  writeKey c ptr pivot k
  writeN lptr (ln + 1)
  let rn ← readN rptr
  let rn ← predOf rptr rn
  writeN rptr rn
  shiftDown c rptr 0 rn
  let q ← readP c rptr (rn + 1)
  writeP c rptr rn q

/-- The copying loop of the merge. -/
def mergeCopy (lptr rptr : Ptr) (ln : Nat) : (i count : Nat) → BtM K Unit
  | _, 0 => pure ()
  | i, count + 1 => do
      let k ← readKey c rptr i
      writeKey c lptr (ln + 1 + i) k
      let q ← readP c rptr (i + 1)
      writeP c lptr (ln + 2 + i) q
      mergeCopy lptr rptr ln (i + 1) count

/-- "merge right node with left node". -/
def mergeNodes (ptr : Ptr) (pivot : Nat) (lptr rptr : Ptr) : BtM K Unit := do
  let ln ← readN lptr
  let k ← readKey c ptr pivot
  writeKey c lptr ln k
  let q ← readP c rptr 0
  writeP c lptr (ln + 1) q
  let rn ← readN rptr
  mergeCopy c lptr rptr ln 0 rn
  writeN lptr (ln + rn + 1)
  freeNode rptr

/-- `cond && p[i]->n > min`. -/
def hasSpare (cond : Bool) (ptr : Ptr) (i : Nat) : BtM K Bool :=
  if cond then do
    let sibling ← readP c ptr i
    let n ← readN sibling
    pure (decide (c.min < n))
  else pure false

/-- `pos == n ? pos - 1 : pos`. -/
def mergePivot (ptr : Ptr) (pos n : Nat) : BtM K Nat :=
  if pos = n then predOf ptr pos else pure pos

/-- `ptr`'s child at `pos` has lost one key too many: borrow from a sibling, or
merge with one. -/
def rebalance (ptr : Ptr) (pos n : Nat) : BtM K BtKeyStatus := do
  let left ← hasSpare c (decide (0 < pos)) ptr (pos - 1)
  if left then do
    let lptr ← readP c ptr (pos - 1)
    let rptr ← readP c ptr pos
    borrowLeft c ptr (pos - 1) lptr rptr
    pure .success
  else do
    let right ← hasSpare c (decide (pos < n)) ptr (pos + 1)
    if right then do
      let lptr ← readP c ptr pos
      let rptr ← readP c ptr (pos + 1)
      borrowRight c ptr pos lptr rptr
      pure .success
    else do
      let pivot ← mergePivot ptr pos n
      let lptr ← readP c ptr pivot
      let rptr ← readP c ptr (pivot + 1)
      mergeNodes c ptr pivot lptr rptr
      dropEntry c ptr pos n

/-- `if (value != LessKeys) return value;` and what follows. -/
def afterChild (ptr : Ptr) (pos n : Nat) (value : BtKeyStatus) : BtM K BtKeyStatus :=
  if value ≠ .lessKeys then pure value else rebalance c ptr pos n

/-- `del(ptr, key)`. -/
def del : (fuel : Nat) → Ptr → K → BtM K BtKeyStatus
  | 0, _, _ => stop .outOfFuel
  | fuel + 1, ptr, key =>
      if ptr = none then pure .searchFailure
      else do
        let n ← readN ptr
        let pos ← searchPos c key ptr n
        let p0 ← readP c ptr 0
        if p0 = none then
          if pos = n then pure .searchFailure
          else do
            let k ← readKey c ptr pos
            if key < k then pure .searchFailure else dropEntry c ptr pos n
        else do
          let found ← foundAt c key ptr pos n
          swapWhen c found fuel ptr pos key
          let child ← readP c ptr pos
          let value ← del fuel child key
          afterChild c ptr pos n value

/-- "retry with local upper key": `self` is the recursive call.  The guard reads
`key_arr[pos]` also when `pos` is `n`. -/
def retryUpper (self : Ptr → K → K → BtM K (BtKeyStatus × K)) (fuel : Nat) (ptr : Ptr)
    (pos n : Nat) (key : K) (value : BtKeyStatus) (fkey : K) : BtM K (BtKeyStatus × K) :=
  if value = .searchFailure then do
    let k ← readKey c ptr pos
    if key < k then do
      let key ← readKey c ptr pos
      swapWhen c (decide (pos < n)) fuel ptr pos key
      let child ← readP c ptr pos
      self child key key
    else pure (value, fkey)
  else pure (value, fkey)

/-- `delUpper(ptr, key, fkey)`: the status, and what `fkey` refers to then. -/
def delUpper : (fuel : Nat) → Ptr → K → (fkey : K) → BtM K (BtKeyStatus × K)
  | 0, _, _, _ => stop .outOfFuel
  | fuel + 1, ptr, key, fkey =>
      if ptr = none then pure (.searchFailure, fkey)
      else do
        let n ← readN ptr
        let pos ← searchPos c key ptr n
        let p0 ← readP c ptr 0
        if p0 = none then
          if pos = n then pure (.searchFailure, fkey)
          else do
            let k ← readKey c ptr pos
            let key := if key < k then k else key
            let value ← dropEntry c ptr pos n
            pure (value, key)
        else do
          let found ← foundAt c key ptr pos n
          let fkey := if found then key else fkey
          swapWhen c found fuel ptr pos key
          let child ← readP c ptr pos
          let r ← delUpper fuel child key fkey
          let r ← retryUpper c (delUpper fuel) fuel ptr pos n key r.1 r.2
          let value ← afterChild c ptr pos n r.1
          pure (value, r.2)

/-! ## The public operations -/

/-- Fuel for one descent: no path is longer than the number of nodes. -/
def descentFuel : BtM K Nat := fun s => .ok (s.allocated.length + 1, s)

/-- A public operation begins. -/
def tick : BtM K Unit := fun s => .ok ((), { s with time := s.time + 1 })

/-- The two tests on the status `ins` returned: a new root takes what came up. -/
def finishInsert : InsOut K → BtM K Bool
  | .stop value => pure (value ≠ .duplicate)
  | .insertIt upKey newnode => do
      let uproot ← readRoot
      let root ← allocNode c
      writeRoot root
      writeN root 1
      writeKey c root 0 upKey
      writeP c root 0 uproot
      writeP c root 1 newnode
      pure true

/-- `insert(key)`. -/
def insert (key : K) : BtM K Bool := do
  tick
  let fuel ← descentFuel
  let root ← readRoot
  let out ← ins c fuel root key
  finishInsert c out

/-- The loop of `contains`. -/
def containsFrom : (fuel : Nat) → Ptr → K → BtM K Bool
  | 0, _, _ => stop .outOfFuel
  | fuel + 1, ptr, key =>
      if ptr = none then pure false
      else do
        let n ← readN ptr
        let pos ← searchPos c key ptr n
        let found ← foundAt c key ptr pos n
        if found then pure true
        else do
          let child ← readP c ptr pos
          containsFrom fuel child key

/-- `contains(key)`. -/
def contains (key : K) : BtM K Bool := do
  tick
  let fuel ← descentFuel
  let root ← readRoot
  containsFrom c fuel root key

/-- `case LessKeys`: the root is empty, and its first child takes its place. -/
def collapseRoot : BtM K Unit := do
  let uproot ← readRoot
  let child ← readP c uproot 0
  writeRoot child
  freeNode uproot

/-- The `switch (value)` after `del` and `delUpper`. -/
def finishRemove (value : BtKeyStatus) : BtM K Bool :=
  match value with
  | .searchFailure => pure false
  | .lessKeys => do
      collapseRoot c
      pure true
  | _ => pure true

/-- `remove(key)`. -/
def remove (key : K) : BtM K Bool := do
  tick
  let fuel ← descentFuel
  let root ← readRoot
  let value ← del c fuel root key
  finishRemove c value

/-- `removeUpper(key, found)`: the result, and the caller's `found` after it. -/
def removeUpper (key found : K) : BtM K (Bool × K) := do
  tick
  let fuel ← descentFuel
  let root ← readRoot
  let out ← delUpper c fuel root key found
  let r ← finishRemove c out.1
  pure (r, out.2)

/-- A call of a public operation; `found` is the caller's variable before the
call. -/
inductive Op (K : Type)
  | insert (key : K)
  | remove (key : K)
  | removeUpper (key found : K)
  | contains (key : K)

/-- What a call returns: a boolean, and for `removeUpper` the variable `found`. -/
structure Ret (K : Type) where
  value : Bool
  found : Option K

def exec : Op K → BtM K (Ret K)
  | .insert key => do
      let r ← insert c key
      pure ⟨r, none⟩
  | .remove key => do
      let r ← remove c key
      pure ⟨r, none⟩
  | .removeUpper key found => do
      let r ← removeUpper c key found
      pure ⟨r.1, some r.2⟩
  | .contains key => do
      let r ← contains c key
      pure ⟨r, none⟩

/-- The calls of a run, one after the other. -/
def run (ops : List (Op K)) : BtM K (List (Ret K)) := runAll (exec c) ops

/-- A state some run from the constructor's state leaves. -/
def Reachable (s : Mem K) : Prop :=
  ∃ ops rs, run c ops Mem.empty = .ok (rs, s)

end SatAllocatorTest.Ports.Btree
