import SatAllocatorTest.Ports.PageHeap

/-!
# Size classes

Small requests are rounded up to one of `kNumClasses` sizes.  `SizeMap::Init` chooses the
sizes and the number of pages a span of each has, and fills `class_array_`, through which
`SizeClass` finds the class of a size without a search.

How many objects are moved at a time depends on the environment variable
`TCMALLOC_TRANSFER_NUM_OBJ`, and so do the spans and the classes.
-/

namespace SatAllocatorTest.Ports.TCmalloc

def kMinAlign : Nat := 16
def kBaseClasses : Nat := 9
def kNumClasses : Nat := kBaseClasses + 79
def kMaxSize : Nat := 256 * 1024
def kAlignment : Nat := 8
def kMaxSmallSize : Nat := 1024
def kClassArraySize : Nat := ((kMaxSize + 127 + (120 <<< 7)) >>> 7) + 1
def kDefaultTransferNumObjecs : Int := 512

/-- `InitTCMallocTransferNumObjects`: the value of the variable, if it is set. -/
def initTCMallocTransferNumObjects (envval : Option Int32) : Int :=
  match envval with
  | none => kDefaultTransferNumObjecs
  | some v => v.toInt

/-- A turn of the loop of `LgFloor`. -/
def lgFloorTurn (r : Nat × Nat) (i : Nat) : Nat × Nat :=
  let shift := 1 <<< i
  let x := r.1 >>> shift
  if x ≠ 0 then (x, r.2 + shift) else r

/-- `LgFloor`. -/
def lgFloor (n : Nat) : Except Fault Nat := do
  let r := [4, 3, 2, 1, 0].foldl lgFloorTurn (n, 0)
  PageHeap.assert (r.1 = 1)
  pure r.2

/-- `AlignmentForSize`. -/
def alignmentForSize (size : Nat) : Except Fault Nat := do
  let alignment ←
    if kMaxSize < size then pure kPageSize
    else if 128 ≤ size then do
      let log ← lgFloor size
      pure ((1 <<< log) / 8)
    else if kMinAlign ≤ size then pure kMinAlign
    else pure kAlignment
  let alignment := if kPageSize < alignment then kPageSize else alignment
  checkCondition (size < kMinAlign ∨ kMinAlign ≤ alignment)
  checkCondition (alignment &&& (alignment - 1) = 0)
  pure alignment

namespace SizeMap

/-- `NumMoveSize`; the quotient of the two doubles, cut to an `int`, is the integer one. -/
def numMoveSize (flag : Int) (size : Nat) : Int :=
  if size = 0 then 0
  else
    let num : Int := (64 * 1024 / size : Nat)
    let num := if num < 2 then 2 else num
    if num > flag then flag else num

/-- `blocks_to_move`, as the comparison with a `size_t` reads it. -/
def blocksToMove (flag : Int) (size : Nat) : Nat :=
  PageHeap.lengthOfInt ((numMoveSize flag size).tdiv 4)

/-- "Allocate enough pages so leftover is less than 1/8 of total." -/
def growSpan (size : Nat) : (fuel : Nat) → (psize : Nat) → Except Fault Nat
  | 0, _ => .error .outOfFuel
  | fuel + 1, psize =>
    if psize % size > psize >>> 3 then growSpan size fuel ((psize + kPageSize) % 2 ^ 64)
    else .ok psize

/-- "Continue to add pages until there are at least as many objects in the span as are
needed": the `do` loop around it. -/
def spanSize (size blocks : Nat) : (fuel : Nat) → (psize : Nat) → Except Fault Nat
  | 0, _ => .error .outOfFuel
  | fuel + 1, psize => do
    let psize ← growSpan size fuel ((psize + kPageSize) % 2 ^ 64)
    if psize / size < blocks then spanSize size blocks fuel psize else pure psize

/-- An entry of `class_to_size_` and `class_to_pages_`. -/
structure SizeClass where
  size : Nat
  pages : Nat
  deriving DecidableEq

/-- "Add new class". -/
def addClass (classes : List SizeClass) (size pages : Nat) : Except Fault (List SizeClass) :=
  if classes.length + 1 < kNumClasses then .ok (⟨size, pages⟩ :: classes)
  else .error .outOfBounds

/-- "See if we can merge this into the previous class without increasing the fragmentation
of the previous class."  The classes so far stand with the last one in front. -/
def addSize (classes : List SizeClass) (size pages : Nat) : Except Fault (List SizeClass) :=
  match classes with
  | [] => addClass [] size pages
  | last :: rest =>
    if pages = last.pages ∧
        (pages <<< kPageShift) / size = (last.pages <<< kPageShift) / last.size then
      .ok (⟨size, last.pages⟩ :: rest)
    else addClass (last :: rest) size pages

/-- "Compute the size classes we want to use". -/
def classesFrom (flag : Int) (fuel : Nat) :
    (turns : Nat) → (size : Nat) → List SizeClass → Except Fault (List SizeClass)
  | 0, _, _ => .error .outOfFuel
  | turns + 1, size, classes =>
    if size ≤ kMaxSize then do
      let alignment ← alignmentForSize size
      checkCondition (size % alignment = 0)
      let psize ← spanSize size (blocksToMove flag size) fuel 0
      let classes ← addSize classes size (psize >>> kPageShift)
      classesFrom flag fuel turns (size + alignment) classes
    else .ok classes

/-- `SmallSizeClass`. -/
def smallSizeClass (s : Nat) : Nat := (s % 2 ^ 32 + 7) >>> 3

/-- `LargeSizeClass`. -/
def largeSizeClass (s : Nat) : Nat := (s % 2 ^ 32 + 127 + (120 <<< 7)) >>> 7

/-- What `ClassIndex` computes. -/
def indexOf (s : Nat) : Nat := if s ≤ kMaxSmallSize then smallSizeClass s else largeSizeClass s

/-- `ClassIndex`. -/
def classIndex (s : Nat) : Except Fault Nat := do
  PageHeap.assert (s ≤ kMaxSize)
  pure (indexOf s)

/-- A write to `class_array_`. -/
def writeClass (classArray : Nat → Nat) (i c : Nat) : Except Fault (Nat → Nat) :=
  if i < kClassArraySize then .ok (Function.update classArray i (c % 256))
  else .error .outOfBounds

/-- The loop over the sizes of class `c`. -/
def fillClass (c maxSize : Nat) :
    (fuel : Nat) → (s : Nat) → (Nat → Nat) → Except Fault (Nat → Nat)
  | 0, _, _ => .error .outOfFuel
  | fuel + 1, s, classArray =>
    if s ≤ maxSize then do
      let i ← classIndex s
      let classArray ← writeClass classArray i c
      fillClass c maxSize fuel (s + kAlignment) classArray
    else .ok classArray

/-- "Initialize the mapping arrays", from class `c` on. -/
def fillClasses (fuel : Nat) :
    (c : Nat) → List SizeClass → (nextSize : Nat) → (Nat → Nat) → Except Fault (Nat → Nat)
  | _, [], _, classArray => .ok classArray
  | c, k :: rest, nextSize, classArray => do
    let classArray ← fillClass c k.size fuel nextSize classArray
    fillClasses fuel (c + 1) rest (k.size + kAlignment) classArray

end SizeMap

/-- `SizeMap`; class `c` is entry `c - 1` of `classes`, and class 0 has none. -/
structure SizeMap where
  classes : List SizeMap.SizeClass
  classArray : Nat → Nat
  flag : Int

namespace SizeMap

/-- `class_to_size`, `ByteSizeForClass`. -/
def classToSize (m : SizeMap) (c : Nat) : Nat :=
  match c with
  | 0 => 0
  | c + 1 => (m.classes[c]?.map SizeClass.size).getD 0

/-- `class_to_pages`. -/
def classToPages (m : SizeMap) (c : Nat) : Nat :=
  match c with
  | 0 => 0
  | c + 1 => (m.classes[c]?.map SizeClass.pages).getD 0

/-- `num_objects_to_move`; the entry of class 0 is never written. -/
def numObjectsToMove (m : SizeMap) (c : Nat) : Int :=
  if c = 0 then 0 else numMoveSize m.flag (m.classToSize c)

/-- `SizeClass`. -/
def sizeClass (m : SizeMap) (size : Nat) : Except Fault Nat := do
  let i ← classIndex size
  pure (m.classArray i)

/-- `MaybeSizeClass`. -/
def maybeSizeClass (m : SizeMap) (size : Nat) : Option Nat :=
  if size ≤ kMaxSmallSize then some (m.classArray (smallSizeClass size))
  else if size ≤ kMaxSize then some (m.classArray (largeSizeClass size))
  else none

/-- "Double-check sizes just to be safe", from `size` on. -/
def checkSizes (m : SizeMap) : (fuel : Nat) → (size : Nat) → Except Fault Unit
  | 0, _ => .error .outOfFuel
  | fuel + 1, size =>
    if size ≤ kMaxSize then do
      let sc ← sizeClass m size
      checkCondition (0 < sc ∧ sc < kNumClasses)
      checkCondition (¬ (1 < sc ∧ size ≤ m.classToSize (sc - 1)))
      checkCondition (size ≤ m.classToSize sc ∧ m.classToSize sc ≠ 0)
      checkSizes m fuel (if size ≤ kMaxSmallSize then size + 8 else size + 128)
    else .ok ()

/-- `Init`. -/
def init (envval : Option Int32) (fuel : Nat) : Except Fault SizeMap := do
  let flag := initTCMallocTransferNumObjects envval
  let first ← classIndex 0
  checkCondition (first = 0)
  let last ← classIndex kMaxSize
  checkCondition (last < kClassArraySize)
  checkCondition (kAlignment ≤ kMinAlign)
  let classes ← classesFrom flag fuel fuel kAlignment []
  checkCondition (classes.length + 1 = kNumClasses)
  let classArray ← fillClasses fuel 1 classes.reverse 0 fun _ => 0
  let m : SizeMap := ⟨classes.reverse, classArray, flag⟩
  checkSizes m fuel 0
  pure m

end SizeMap

end SatAllocatorTest.Ports.TCmalloc
