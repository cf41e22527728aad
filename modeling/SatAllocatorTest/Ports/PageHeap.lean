import SatAllocatorTest.Ports.PageMap
import SatAllocatorTest.Ports.SpanList

/-!
# The page heap

`PageHeap` hands out runs of pages ("spans").  Free spans are kept in lists, one pair for
each length below `kMaxPages` and one pair for all longer ones: the normal list holds
spans that are backed by memory, the returned list those whose memory was given back to
the system.  Freed spans are joined with their free neighbours, which the page map finds.

An operation either returns or stops with a fault: a failed assertion, the end of the
process when no memory is left for metadata, a write through a null pointer, or a loop that
did not end within its fuel.  The operating system and the flags are a `Config`: whether a
call succeeds and which memory it gives is the system's choice, but never memory it gave
before.

The lists are modelled by the spans in them, as `SpanList.run_represents` allows; the
header `normal i` stands for `free_[i].normal`, and for `large_.normal` when `i` is
`kMaxPages`, and likewise `returned i`.  `stats_` counts in 64 bits; the memory a process
has mapped fits its address space, so `TCMalloc_SystemTaken` is a natural number.
-/

namespace SatAllocatorTest.Ports.TCmalloc

open SpanList (removeSpan prependSpan)

abbrev SpanId := Nat

def kPageShift : Nat := 13
def kPageSize : Nat := 1 <<< kPageShift
def kMaxPages : Nat := 1 <<< (20 - kPageShift)
def kMinSystemAlloc : Nat := kMaxPages
def kMaxValidPages : Nat := (2 ^ 64 - 1) >>> kPageShift
def kForcedCoalesceInterval : UInt64 := 128 * 1024 * 1024
def kPageMapBigAllocationThreshold : UInt64 := UInt64.ofNat (128 <<< 20)
def kDefaultReleaseDelay : Int := 1 <<< 18

inductive Location where
  | inUse
  | onNormalFreelist
  | onReturnedFreelist
  deriving DecidableEq

/-- `Span`; `objects` is the linked list of its free objects. -/
structure Span where
  start : Nat
  length : Nat
  objects : List Nat
  refcount : Nat
  sizeclass : Nat
  location : Location
  sample : Bool
  deriving DecidableEq

inductive Header where
  | normal (i : Nat)
  | returned (i : Nat)
  deriving DecidableEq

structure Stats where
  systemBytes : UInt64
  freeBytes : UInt64
  unmappedBytes : UInt64
  committedBytes : UInt64

inductive Fault where
  | assertion
  /-- `CHECK_CONDITION` and `Log(kCrash)`. -/
  | crash
  | nullPointer
  | outOfBounds
  | outOfFuel
  deriving DecidableEq

/-- `CHECK_CONDITION`. -/
def checkCondition (c : Prop) [Decidable c] : Except Fault Unit :=
  if c then .ok () else .error .crash

/-- Page `p` lies in one of the ranges (first byte, number of bytes). -/
def TakenPage (taken : List (Nat × Nat)) (p : Nat) : Prop :=
  ∃ r ∈ taken, r.1 ≤ p <<< kPageShift ∧ p <<< kPageShift < r.1 + r.2

/-- The system and the flags.  `systemAlloc call taken bytes` is the answer to the call
with that number when `taken` was given before: an address and the size really given.

The system gives aligned, non-null memory inside the address space that it did not give
before, never 2 ^ 31 pages (16 TiB) in a row, and commits what it is asked to commit
(`TCMalloc_SystemCommit` reports nothing). -/
structure Config where
  systemAlloc : Nat → List (Nat × Nat) → Nat → Option (Nat × Nat)
  systemRelease : Nat → Bool
  /-- What the metadata of a call takes from the system; none if there is no more. -/
  metadata : Nat → Option Nat
  heapLimitMb : Nat
  /-- `tcmalloc_release_rate` is above 1e-6. -/
  releaseEnabled : Bool
  /-- The pages to wait for after a release, computed in floating point. -/
  releaseDelay : Nat → Nat
  alloc_enough : ∀ {call taken bytes ptr size},
    systemAlloc call taken bytes = some (ptr, size) → bytes ≤ size
  alloc_aligned : ∀ {call taken bytes ptr size},
    systemAlloc call taken bytes = some (ptr, size) → ptr % kPageSize = 0
  alloc_inside : ∀ {call taken bytes ptr size},
    systemAlloc call taken bytes = some (ptr, size) → 0 < ptr ∧ ptr + size ≤ 2 ^ 64
  alloc_fresh : ∀ {call taken bytes ptr size},
    systemAlloc call taken bytes = some (ptr, size) →
      ∀ p, TakenPage taken p → ¬ TakenPage [(ptr, size)] p
  alloc_sparse : ∀ {call taken bytes ptr size},
    systemAlloc call taken bytes = some (ptr, size) →
      (∀ x, ∃ q, x ≤ q ∧ q < x + 2 ^ 31 ∧ ¬ TakenPage taken q) →
      ∀ x, ∃ q, x ≤ q ∧ q < x + 2 ^ 31 ∧ ¬ TakenPage ((ptr, size) :: taken) q

/-- The page heap, its span allocator (`freeSpans`, `freshSpan`), and the system's side:
the ranges given, the bytes taken, the pages backed by memory and the calls so far. -/
structure PageHeap (M : Type) where
  pagemap : M
  span : SpanId → Span
  lists : Header → List SpanId
  stats : Stats
  scavengeCounter : Int
  releaseIndex : Nat
  aggressiveDecommit : Bool
  freeSpans : List SpanId
  freshSpan : SpanId
  taken : List (Nat × Nat)
  systemTaken : Nat
  committed : Nat → Bool
  calls : Nat

namespace PageHeap

variable {M : Type} [PageMap M SpanId]

/-- The constructor, over an empty page map. -/
def init (pagemap : M) (systemTaken : Nat) : PageHeap M where
  pagemap := pagemap
  span := fun _ => ⟨0, 0, [], 0, 0, .inUse, false⟩
  lists := fun _ => []
  stats := ⟨0, 0, 0, 0⟩
  scavengeCounter := 0
  releaseIndex := kMaxPages
  aggressiveDecommit := false
  freeSpans := []
  freshSpan := 0
  taken := []
  systemTaken := systemTaken
  committed := fun _ => false
  calls := 0

/-- `ASSERT`. -/
def assert (c : Prop) [Decidable c] : Except Fault Unit :=
  if c then .ok () else .error .assertion

/-- `n << kPageShift` as the statistics count it. -/
def bytesOf (n : Nat) : UInt64 := UInt64.ofNat (n <<< kPageShift)

/-- The list of free spans of a length. -/
def listIndex (n : Nat) : Nat := if n < kMaxPages then n else kMaxPages

/-- A number of pages as an `int`. -/
def toInt32 (n : Nat) : Int :=
  if n % 2 ^ 32 < 2 ^ 31 then (n % 2 ^ 32 : Nat) else ((n % 2 ^ 32 : Nat) : Int) - 2 ^ 32

/-- An `int` as a number of pages. -/
def lengthOfInt (e : Int) : Nat := (e % 2 ^ 64).toNat

/-- Subtraction of unsigned words. -/
def sub64 (a b : Nat) : Nat := (a + 2 ^ 64 - b) % 2 ^ 64

/-- `Check`. -/
def check (h : PageHeap M) : Except Fault Unit := do
  assert (h.lists (.normal 0) = [])
  assert (h.lists (.returned 0) = [])

/-- `GetDescriptor`. -/
def getDescriptor (h : PageHeap M) (p : Nat) : Option SpanId := PageMap.get h.pagemap p

/-- `pagemap_.set`. -/
def setMap (h : PageHeap M) (p : Nat) (id : SpanId) : Except Fault (PageHeap M) :=
  match PageMap.set h.pagemap p (some id) with
  | some pagemap => .ok { h with pagemap := pagemap }
  | none => .error .nullPointer

/-- `RecordSpan`. -/
def recordSpan (h : PageHeap M) (id : SpanId) : Except Fault (PageHeap M) := do
  let h ← setMap h (h.span id).start id
  if (h.span id).length > 1 then
    setMap h ((h.span id).start + (h.span id).length - 1) id
  else
    .ok h

/-- A change of one span's fields. -/
def modifySpan (h : PageHeap M) (id : SpanId) (f : Span → Span) : PageHeap M :=
  { h with span := Function.update h.span id (f (h.span id)) }

/-- `NewSpan`: a span of the allocator's free list, or a new one, with all else zero.  The
allocator ends the process if it can have no memory for a new one. -/
def newSpan (cfg : Config) (h : PageHeap M) (p len : Nat) : Except Fault (PageHeap M × SpanId) :=
  match h.freeSpans with
  | id :: rest =>
    .ok ({ h with
        freeSpans := rest
        span := Function.update h.span id ⟨p, len, [], 0, 0, .inUse, false⟩ }, id)
  | [] =>
    match cfg.metadata h.calls with
    | none => .error .crash
    | some bytes =>
      .ok ({ h with
          freshSpan := h.freshSpan + 1
          systemTaken := h.systemTaken + bytes
          calls := h.calls + 1
          span := Function.update h.span h.freshSpan ⟨p, len, [], 0, 0, .inUse, false⟩ },
        h.freshSpan)

/-- `DeleteSpan`; the link of the allocator's free list overwrites the first word. -/
def deleteSpan (h : PageHeap M) (id : SpanId) : PageHeap M :=
  { h.modifySpan id fun s => { s with start := h.freeSpans.headD 0 } with
    freeSpans := id :: h.freeSpans }

/-- `RemoveFromFreeList`. -/
def removeFromFreeList (h : PageHeap M) (id : SpanId) : Except Fault (PageHeap M) := do
  assert ((h.span id).location ≠ .inUse)
  let bytes := bytesOf (h.span id).length
  let stats :=
    if (h.span id).location = .onNormalFreelist then
      { h.stats with freeBytes := h.stats.freeBytes - bytes }
    else
      { h.stats with unmappedBytes := h.stats.unmappedBytes - bytes }
  .ok { h with stats := stats, lists := removeSpan h.lists id }

/-- `next` and `prev` of the span are null: it is on no list. -/
def Unlisted (h : PageHeap M) (id : SpanId) : Prop :=
  ∀ i ≤ kMaxPages, id ∉ h.lists (.normal i) ∧ id ∉ h.lists (.returned i)

instance (h : PageHeap M) (id : SpanId) : Decidable (Unlisted h id) := by
  unfold Unlisted
  infer_instance

/-- `PrependToFreeList`, with the assertions of `DLL_Prepend`. -/
def prependToFreeList (h : PageHeap M) (id : SpanId) : Except Fault (PageHeap M) := do
  assert ((h.span id).location ≠ .inUse)
  assert (Unlisted h id)
  let bytes := bytesOf (h.span id).length
  let i := listIndex (h.span id).length
  if (h.span id).location = .onNormalFreelist then
    .ok { h with
      stats := { h.stats with freeBytes := h.stats.freeBytes + bytes }
      lists := prependSpan h.lists (.normal i) id }
  else
    .ok { h with
      stats := { h.stats with unmappedBytes := h.stats.unmappedBytes + bytes }
      lists := prependSpan h.lists (.returned i) id }

/-- The pages of a span are backed by memory or not from now on. -/
def setCommitted (h : PageHeap M) (id : SpanId) (b : Bool) : Nat → Bool := fun p =>
  if (h.span id).start ≤ p ∧ p < (h.span id).start + (h.span id).length then b
  else h.committed p

/-- `CommitSpan`. -/
def commitSpan (h : PageHeap M) (id : SpanId) : PageHeap M :=
  { h with
    committed := h.setCommitted id true
    calls := h.calls + 1
    stats :=
      { h.stats with
        committedBytes := h.stats.committedBytes + bytesOf (h.span id).length } }

/-- `DecommitSpan`. -/
def decommitSpan (cfg : Config) (h : PageHeap M) (id : SpanId) : PageHeap M × Bool :=
  if cfg.systemRelease h.calls then
    ({ h with
        committed := h.setCommitted id false
        calls := h.calls + 1
        stats :=
          { h.stats with
            committedBytes := h.stats.committedBytes - bytesOf (h.span id).length } }, true)
  else ({ h with calls := h.calls + 1 }, false)

/-- `stats_.unmapped_bytes + stats_.committed_bytes == stats_.system_bytes`. -/
def assertStats (h : PageHeap M) : Except Fault Unit :=
  assert (h.stats.unmappedBytes + h.stats.committedBytes = h.stats.systemBytes)

/-- "The next span of |leftover| was not previously coalesced with |span|". -/
def assertNotCoalesced (h : PageHeap M) (leftover : SpanId) : Except Fault Unit :=
  match getDescriptor h ((h.span leftover).start + (h.span leftover).length) with
  | none => .ok ()
  | some next =>
    assert ((h.span next).location = .inUse ∨
      (h.span next).location ≠ (h.span leftover).location)

/-- "move any leftover part of span into appropriate free lists" in `Carve`. -/
def carveLeftover (h : PageHeap M) (cfg : Config) (id : SpanId) (n : Nat) (oldLocation : Location)
    (extra : Nat) : Except Fault (PageHeap M) := do
  let (h, leftover) ← newSpan cfg h ((h.span id).start + n) extra
  let h := h.modifySpan leftover fun s => { s with location := oldLocation }
  let h ← recordSpan h leftover
  assertNotCoalesced h leftover
  let h ← prependToFreeList h leftover
  let h := h.modifySpan id fun s => { s with length := n }
  setMap h ((h.span id).start + n - 1) id

/-- `if (extra > 0)`. -/
def carveExtra (h : PageHeap M) (cfg : Config) (id : SpanId) (n : Nat) (oldLocation : Location)
    (extra : Int) : Except Fault (PageHeap M) :=
  if 0 < extra then carveLeftover h cfg id n oldLocation (lengthOfInt extra) else .ok h

/-- `Carve`. -/
def carve (h : PageHeap M) (cfg : Config) (id : SpanId) (n : Nat) : Except Fault (PageHeap M) := do
  assert (0 < n)
  assert ((h.span id).location ≠ .inUse)
  let oldLocation := (h.span id).location
  let h ← removeFromFreeList h id
  let h := h.modifySpan id fun s => { s with location := .inUse }
  let extra := toInt32 ((h.span id).length - n)
  assert (0 ≤ extra)
  let h ← carveExtra h cfg id n oldLocation extra
  check h
  let h := if oldLocation = .onReturnedFreelist then commitSpan h id else h
  assert ((h.span id).location = .inUse)
  assert ((h.span id).length = n)
  assertStats h
  pure h

/-- `Split`; returns the second span. -/
def split (h : PageHeap M) (cfg : Config) (id : SpanId) (n : Nat) :
    Except Fault (PageHeap M × SpanId) := do
  assert (0 < n)
  assert (n < (h.span id).length)
  assert ((h.span id).location = .inUse)
  assert ((h.span id).sizeclass = 0)
  let extra := toInt32 ((h.span id).length - n)
  let (h, leftover) ← newSpan cfg h ((h.span id).start + n) (lengthOfInt extra)
  assert ((h.span leftover).location = .inUse)
  let h ← recordSpan h leftover
  let h ← setMap h ((h.span id).start + n - 1) id
  pure (h.modifySpan id fun s => { s with length := n }, leftover)

/-- `MayMergeSpans`. -/
def mayMergeSpans (h : PageHeap M) (id other : SpanId) : Bool :=
  if h.aggressiveDecommit then (h.span other).location ≠ .inUse
  else (h.span id).location = (h.span other).location

/-- What the merge of a neighbour adds to `temp_committed`. -/
def tempCommitted (h : PageHeap M) (other : SpanId) : UInt64 :=
  if h.aggressiveDecommit ∧ (h.span other).location = .onReturnedFreelist then
    bytesOf (h.span other).length
  else 0

/-- "Merge preceding span into this span". -/
def mergePrevious (h : PageHeap M) (id : SpanId) : Except Fault (PageHeap M × UInt64) := do
  let p := (h.span id).start
  match getDescriptor h (sub64 p 1) with
  | none => pure (h, 0)
  | some prev =>
    if mayMergeSpans h id prev then do
      assert ((h.span prev).start + (h.span prev).length = p)
      let len := (h.span prev).length
      let temp := tempCommitted h prev
      let h ← removeFromFreeList h prev
      let h := deleteSpan h prev
      let h := h.modifySpan id fun s =>
        { s with start := sub64 s.start len, length := s.length + len }
      let h ← setMap h (h.span id).start id
      pure (h, temp)
    else pure (h, 0)

/-- "Merge next span into this span"; `next` is the page behind the span before any merge. -/
def mergeNext (h : PageHeap M) (id : SpanId) (next : Nat) : Except Fault (PageHeap M × UInt64) := do
  match getDescriptor h next with
  | none => pure (h, 0)
  | some other =>
    if mayMergeSpans h id other then do
      assert ((h.span other).start = next)
      let len := (h.span other).length
      let temp := tempCommitted h other
      let h ← removeFromFreeList h other
      let h := deleteSpan h other
      let h := h.modifySpan id fun s => { s with length := s.length + len }
      let h ← setMap h ((h.span id).start + (h.span id).length - 1) id
      pure (h, temp)
    else pure (h, 0)

/-- "blindly decommitting the entire coalesced region". -/
def decommitMerged (h : PageHeap M) (cfg : Config) (id : SpanId) (temp : UInt64) :
    Except Fault (PageHeap M) :=
  if h.aggressiveDecommit then
    let (h, rv) := decommitSpan cfg h id
    if rv then
      let h := h.modifySpan id fun s => { s with location := .onReturnedFreelist }
      .ok { h with
        stats := { h.stats with committedBytes := h.stats.committedBytes + temp } }
    else do
      assert (temp = 0)
      pure h
  else .ok h

/-- `MergeIntoFreeList`. -/
def mergeIntoFreeList (h : PageHeap M) (cfg : Config) (id : SpanId) :
    Except Fault (PageHeap M) := do
  assert ((h.span id).location ≠ .inUse)
  let next := (h.span id).start + (h.span id).length
  let (h, temp) ← mergePrevious h id
  let (h, temp') ← mergeNext h id next
  let h ← decommitMerged h cfg id (temp + temp')
  prependToFreeList h id

/-- `ReleaseLastNormalSpan`. -/
def releaseLastNormalSpan (h : PageHeap M) (cfg : Config) (i : Nat) :
    Except Fault (PageHeap M × Nat) := do
  match (h.lists (.normal i)).getLast? with
  | none => .error .nullPointer
  | some s =>
    assert ((h.span s).location = .onNormalFreelist)
    let (h, rv) := decommitSpan cfg h s
    if rv then do
      let h ← removeFromFreeList h s
      let n := (h.span s).length
      let h := h.modifySpan s fun s => { s with location := .onReturnedFreelist }
      let h ← mergeIntoFreeList h cfg s
      pure (h, n)
    else pure (h, 0)

/-- The `for` loop of `ReleaseAtLeastNPages`, with `turns` turns to go: the pages
released so far, and whether the function returned from inside. -/
def releaseRound (cfg : Config) (numPages : Nat) : (turns : Nat) → PageHeap M → (released : Nat) →
    Except Fault (PageHeap M × Nat × Bool)
  | 0, h, released => .ok (h, released, false)
  | turns + 1, h, released =>
    if released < numPages then do
      let h := if h.releaseIndex > kMaxPages then { h with releaseIndex := 0 } else h
      if h.lists (.normal h.releaseIndex) ≠ [] then do
        let (h, len) ← releaseLastNormalSpan h cfg h.releaseIndex
        if len = 0 then pure (h, released, true)
        else
          releaseRound cfg numPages turns { h with releaseIndex := h.releaseIndex + 1 }
            (released + len)
      else
        releaseRound cfg numPages turns { h with releaseIndex := h.releaseIndex + 1 } released
    else .ok (h, released, false)

/-- The `while` loop of `ReleaseAtLeastNPages`. -/
def releaseFrom (cfg : Config) (numPages : Nat) : (fuel : Nat) → PageHeap M → (released : Nat) →
    Except Fault (PageHeap M × Nat)
  | 0, _, _ => .error .outOfFuel
  | fuel + 1, h, released =>
    if released < numPages ∧ h.stats.freeBytes > 0 then do
      let (h, released, done) ← releaseRound cfg numPages (kMaxPages + 1) h released
      if done then pure (h, released) else releaseFrom cfg numPages fuel h released
    else .ok (h, released)

/-- The spans on normal lists, more than the `while` loop has turns. -/
def normalCount (h : PageHeap M) : Nat :=
  ((List.range (kMaxPages + 1)).map fun i => (h.lists (.normal i)).length).sum

/-- `ReleaseAtLeastNPages`. -/
def releaseAtLeastNPages (h : PageHeap M) (cfg : Config) (numPages : Nat) :
    Except Fault (PageHeap M × Nat) :=
  releaseFrom cfg numPages (normalCount h + 1) h 0

/-- `IncrementalScavenge`. -/
def incrementalScavenge (h : PageHeap M) (cfg : Config) (n : Nat) : Except Fault (PageHeap M) := do
  let h := { h with scavengeCounter := h.scavengeCounter - n }
  if h.scavengeCounter ≥ 0 then pure h
  else if !cfg.releaseEnabled then pure { h with scavengeCounter := kDefaultReleaseDelay }
  else do
    let (h, released) ← releaseAtLeastNPages h cfg 1
    if released = 0 then pure { h with scavengeCounter := kDefaultReleaseDelay }
    else pure { h with scavengeCounter := (cfg.releaseDelay released : Nat) }

/-- `Delete`. -/
def delete (h : PageHeap M) (cfg : Config) (id : SpanId) : Except Fault (PageHeap M) := do
  check h
  assert ((h.span id).location = .inUse)
  assert (0 < (h.span id).length)
  assert (getDescriptor h (h.span id).start = some id)
  assert (getDescriptor h ((h.span id).start + (h.span id).length - 1) = some id)
  let n := (h.span id).length
  let h := h.modifySpan id fun s =>
    { s with sizeclass := 0, sample := false, location := .onNormalFreelist }
  let h ← mergeIntoFreeList h cfg id
  let h ← incrementalScavenge h cfg n
  assertStats h
  check h
  pure h

/-- `EnsureLimit`. -/
def ensureLimit (h : PageHeap M) (cfg : Config) (n : Nat) (withRelease : Bool) :
    Except Fault (PageHeap M × Bool) := do
  let limit := (cfg.heapLimitMb * 1024 * 1024) >>> kPageShift
  if limit = 0 then pure (h, true)
  else do
    let takenPages := h.systemTaken >>> kPageShift
    let unmapped := h.stats.unmappedBytes.toNat >>> kPageShift
    assert (unmapped ≤ takenPages)
    let takenPages := takenPages - unmapped
    if limit < takenPages + n ∧ withRelease then do
      let (h, released) ← releaseAtLeastNPages h cfg (takenPages + n - limit)
      -- no wrap: the released pages are taken ones
      let takenPages := takenPages - released
      pure (h, decide (takenPages + n ≤ limit))
    else pure (h, decide (takenPages + n ≤ limit))

/-- A span is long enough and beats the best one so far: it is shorter, or as long and at a
lower address. -/
def Beats (h : PageHeap M) (n : Nat) (best : Option SpanId) (id : SpanId) : Prop :=
  n ≤ (h.span id).length ∧ ∀ b ∈ best, (h.span id).length < (h.span b).length ∨
    ((h.span id).length = (h.span b).length ∧ (h.span id).start < (h.span b).start)

instance (h : PageHeap M) (n : Nat) (best : Option SpanId) (id : SpanId) :
    Decidable (Beats h n best id) := by
  unfold Beats
  infer_instance

/-- A loop of `AllocLarge` over one of the two lists. -/
def bestOf (h : PageHeap M) (n : Nat) (freelist : Location) :
    List SpanId → Option SpanId → Except Fault (Option SpanId)
  | [], best => .ok best
  | id :: rest, best =>
    if Beats h n best id then do
      assert ((h.span id).location = freelist)
      bestOf h n freelist rest (some id)
    else bestOf h n freelist rest best

/-- `AllocLarge`; it calls itself again at most once, so two tries are enough fuel. -/
def allocLargeFrom (cfg : Config) (n : Nat) : (fuel : Nat) → PageHeap M →
    Except Fault (PageHeap M × Option SpanId)
  | 0, _ => .error .outOfFuel
  | fuel + 1, h => do
    let bestNormal ← bestOf h n .onNormalFreelist (h.lists (.normal kMaxPages)) none
    let best ← bestOf h n .onReturnedFreelist (h.lists (.returned kMaxPages)) bestNormal
    if best = bestNormal then
      match best with
      | none => pure (h, none)
      | some id => do
        let h ← carve h cfg id n
        pure (h, some id)
    else
      match best with
      | none => pure (h, none)
      | some id => do
        let (h, ok) ← ensureLimit h cfg n false
        if ok then do
          let h ← carve h cfg id n
          pure (h, some id)
        else do
          let (h, ok) ← ensureLimit h cfg n true
          if ok then allocLargeFrom cfg n fuel h
          else do
            assert (bestNormal = none)
            pure (h, none)

def allocLarge (h : PageHeap M) (cfg : Config) (n : Nat) :
    Except Fault (PageHeap M × Option SpanId) :=
  allocLargeFrom cfg n 2 h

/-- The search of the lists `s, s + 1, …`, `count` of them, then of the large spans. -/
def searchFrom (cfg : Config) (n : Nat) : (count s : Nat) → PageHeap M →
    Except Fault (PageHeap M × Option SpanId)
  | 0, _, h => allocLarge h cfg n
  | count + 1, s, h =>
    match h.lists (.normal s) with
    | id :: _ => do
      assert ((h.span id).location = .onNormalFreelist)
      let h ← carve h cfg id n
      pure (h, some id)
    | [] =>
      if h.lists (.returned s) ≠ [] then do
        let (h, ok) ← ensureLimit h cfg n true
        if ok then
          match h.lists (.returned s) with
          | id :: _ => do
            assert ((h.span id).location = .onReturnedFreelist)
            let h ← carve h cfg id n
            pure (h, some id)
          | [] => searchFrom cfg n count (s + 1) h
        else searchFrom cfg n count (s + 1) h
      else searchFrom cfg n count (s + 1) h

/-- `SearchFreeAndLargeLists`. -/
def searchFreeAndLargeLists (h : PageHeap M) (cfg : Config) (n : Nat) :
    Except Fault (PageHeap M × Option SpanId) := do
  check h
  assert (0 < n)
  searchFrom cfg n (kMaxPages - n) n h

/-- `TCMalloc_SystemAlloc`. -/
def systemAlloc (h : PageHeap M) (cfg : Config) (bytes : Nat) : PageHeap M × Option (Nat × Nat) :=
  match cfg.systemAlloc h.calls h.taken bytes with
  | none => ({ h with calls := h.calls + 1 }, none)
  | some (ptr, size) =>
    ({ h with
        calls := h.calls + 1
        taken := (ptr, size) :: h.taken
        systemTaken := h.systemTaken + size
        committed := fun p => decide (ptr ≤ p <<< kPageShift ∧ p <<< kPageShift < ptr + size) ||
          h.committed p }, some (ptr, size))

/-- One try of `GrowHeap` to get `ask` pages. -/
def tryGrow (h : PageHeap M) (cfg : Config) (ask : Nat) :
    Except Fault (PageHeap M × Option (Nat × Nat)) := do
  let (h, ok) ← ensureLimit h cfg ask true
  if ok then pure (systemAlloc h cfg (ask <<< kPageShift)) else pure (h, none)

/-- The page map when the statistics of `ask` new pages were added: at 128 MiB, room is
made for more. -/
def mapForGrowth (h : PageHeap M) (ask : Nat) : M :=
  if h.stats.systemBytes < kPageMapBigAllocationThreshold ∧
      h.stats.systemBytes + bytesOf ask ≥ kPageMapBigAllocationThreshold then
    PageMap.preallocateMoreMemory h.pagemap
  else h.pagemap

/-- `RecordGrowth` and the statistics of new memory.  `RecordGrowth` takes metadata, and so
do the nodes that `PreallocateMoreMemory` and `Ensure` may add to the page map; without any
for the former the process ends. -/
def countGrowth (h : PageHeap M) (cfg : Config) (ask : Nat) : Except Fault (PageHeap M) :=
  match cfg.metadata h.calls with
  | none => .error .crash
  | some bytes =>
    .ok { h with
      pagemap := mapForGrowth h ask
      systemTaken := h.systemTaken + bytes
      calls := h.calls + 1
      stats := { h.stats with
        systemBytes := h.stats.systemBytes + bytesOf ask
        committedBytes := h.stats.committedBytes + bytesOf ask } }

/-- What `GrowHeap` does with the memory it got. -/
def addRange (h : PageHeap M) (cfg : Config) (ptr size : Nat) :
    Except Fault (PageHeap M × Bool) := do
  let ask := size >>> kPageShift
  let h ← countGrowth h cfg ask
  let p := ptr >>> kPageShift
  assert (0 < p)
  let (pagemap, ensured) := PageMap.ensure h.pagemap (p - 1) (ask + 2)
  let h := { h with pagemap := pagemap }
  if ensured then do
    let (h, span) ← newSpan cfg h p ask
    let h ← recordSpan h span
    let h ← delete h cfg span
    assertStats h
    check h
    pure (h, true)
  else pure (h, false)

/-- `GrowHeap`. -/
def growHeap (h : PageHeap M) (cfg : Config) (n : Nat) : Except Fault (PageHeap M × Bool) := do
  assert (kMinSystemAlloc ≤ kMaxPages)
  if kMaxValidPages < n then pure (h, false)
  else do
    let ask := if kMinSystemAlloc < n then n else kMinSystemAlloc
    let (h, range) ← tryGrow h cfg ask
    match range with
    | some (ptr, size) => addRange h cfg ptr size
    | none =>
      if n < ask then do
        let (h, range) ← tryGrow h cfg n
        match range with
        | some (ptr, size) => addRange h cfg ptr size
        | none => pure (h, false)
      else pure (h, false)

/-- Before growing, the heap is worth being coalesced by a release of all free pages. -/
def shouldCoalesce (h : PageHeap M) (n : Nat) : Bool :=
  h.stats.freeBytes ≠ 0 ∧ h.stats.unmappedBytes ≠ 0 ∧
    h.stats.freeBytes + h.stats.unmappedBytes ≥ h.stats.systemBytes / 4 ∧
    h.stats.systemBytes / kForcedCoalesceInterval ≠
      (h.stats.systemBytes + bytesOf n) / kForcedCoalesceInterval

/-- "Grow the heap and try again." -/
def growAndSearch (h : PageHeap M) (cfg : Config) (n : Nat) :
    Except Fault (PageHeap M × Option SpanId) := do
  let (h, grown) ← growHeap h cfg n
  if grown then searchFreeAndLargeLists h cfg n
  else do
    assertStats h
    check h
    pure (h, none)

/-- `New`. -/
def new (h : PageHeap M) (cfg : Config) (n : Nat) : Except Fault (PageHeap M × Option SpanId) := do
  check h
  assert (0 < n)
  let (h, result) ← searchFreeAndLargeLists h cfg n
  match result with
  | some id => pure (h, some id)
  | none =>
    if shouldCoalesce h n then do
      let (h, _) ← releaseAtLeastNPages h cfg 0x7fffffff
      let (h, result) ← searchFreeAndLargeLists h cfg n
      match result with
      | some id => pure (h, some id)
      | none => growAndSearch h cfg n
    else growAndSearch h cfg n

/-- The loop of `RegisterSizeClass` over the interior pages `start + i, …`. -/
def registerPages (id : SpanId) : (count i : Nat) → PageHeap M → Except Fault (PageHeap M)
  | 0, _, h => .ok h
  | count + 1, i, h => do
    let h ← setMap h ((h.span id).start + i) id
    registerPages id count (i + 1) h

/-- `RegisterSizeClass`; the size class of a span has eight bits. -/
def registerSizeClass (h : PageHeap M) (id : SpanId) (sc : Nat) : Except Fault (PageHeap M) := do
  assert ((h.span id).location = .inUse)
  assert (getDescriptor h (h.span id).start = some id)
  assert (getDescriptor h ((h.span id).start + (h.span id).length - 1) = some id)
  let h := h.modifySpan id fun s => { s with sizeclass := sc % 2 ^ 8 }
  registerPages id ((h.span id).length - 2) 1 h

/-- `SetAggressiveDecommit`. -/
def setAggressiveDecommit (h : PageHeap M) (aggressiveDecommit : Bool) : PageHeap M :=
  { h with aggressiveDecommit := aggressiveDecommit }

end PageHeap

end SatAllocatorTest.Ports.TCmalloc
