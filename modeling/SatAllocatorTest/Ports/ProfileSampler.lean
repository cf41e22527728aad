import Mathlib.Data.List.Zip
import SatAllocatorTest.Ports.SampleRange
import SatAllocatorTest.Verified.Promises
import SatAllocatorTest.Verified.Runs

/-!
# The sampler and its charts

`ProfileSampler.ts` and the part of `SamplesGraph.tsx` that asks it for blocks.  The
sampler keeps one block for each index and level, fetches those it has not asked for
yet, and chains the loads it has started in one promise, `loading`.  Every chart that
shares the sampler asks for the blocks of its view when the view changes, and shows them
when they come.

Promises and jobs are those of `Verified.Promises`.  What a fetch answers, and when,
comes from outside: an event of the run.  A fetch that succeeds has one item for each
block it asked for.

The drawing of a chart has its own module; the statistics and the global view are left out.
-/

namespace SatAllocatorTest.Ports.Monitor

open SatAllocatorTest.Verified.ExtendedNumbers
open SatAllocatorTest.Verified.Promises

/-- The values the server sends for a block, by label. -/
abbrev Samples := String → Option (List ℚ)

/-- A block of samples; its index and level are the `Location` it is kept at. -/
structure SamplesBlock where
  loading : ℤ
  samples : Option Samples

structure RangeType where
  valueMin : ℚ
  valueMax : ℚ
  deriving DecidableEq

/-- The value is in the range. -/
def RangeType.Holds (range : RangeType) (value : ℚ) : Prop :=
  range.valueMin ≤ value ∧ value ≤ range.valueMax

namespace SamplesBlock

/-- `new SamplesBlock(index, level)`. -/
def new : SamplesBlock := ⟨0, none⟩

def load (_ : SamplesBlock) (data : Samples) : SamplesBlock := ⟨1, some data⟩

/-- The body of the loop of `getValueRange`. -/
def widen (range : RangeType) (value : ℚ) : RangeType :=
  if value < range.valueMin then { range with valueMin := value }
  else if value > range.valueMax then { range with valueMax := value }
  else range

/-- The values of a block under a label. -/
def values (b : SamplesBlock) (label : String) : List ℚ := (b.samples.bind (· label)).getD []

def getValueRange (b : SamplesBlock) (label : String) (range : RangeType) : RangeType :=
  (b.values label).foldl widen range

end SamplesBlock

/-- What a chart shows. -/
structure SamplesGrapher where
  label : String
  blocks : Option (List Location)
  range : Option RangeType

namespace ProfileSampler

/-- The blocks the sampler keeps, and the charts. -/
structure World (C : Type) where
  blockLevels : Location → Option SamplesBlock
  charts : C → SamplesGrapher

namespace World

variable {C : Type}

/-- The block at a location; a new one where there is none. -/
def block (w : World C) (l : Location) : SamplesBlock := (w.blockLevels l).getD .new

def setBlock (w : World C) (l : Location) (b : SamplesBlock) : World C :=
  { w with blockLevels := Function.update w.blockLevels l (some b) }

@[simp] theorem block_setBlock_self (w : World C) (l : Location) (b : SamplesBlock) :
    (w.setBlock l b).block l = b := by
  simp [block, setBlock]

theorem block_setBlock_of_ne (w : World C) {l l' : Location} (b : SamplesBlock) (h : l' ≠ l) :
    (w.setBlock l b).block l' = w.block l' := by
  simp [block, setBlock, h]

/-- `samples.map((data, i) => blocks[i].load(data))`. -/
def load (w : World C) (items : List (Location × Samples)) : World C :=
  items.foldl (fun w item => w.setBlock item.1 ((w.block item.1).load item.2)) w

/-- A block is as some item has loaded it, or no item was for it. -/
theorem block_load : ∀ (items : List (Location × Samples)) (w : World C) (l : Location),
    (l ∉ items.map Prod.fst ∧ (w.load items).block l = w.block l) ∨
      ∃ data, (l, data) ∈ items ∧ (w.load items).block l = ⟨1, some data⟩ := by
  intro items
  induction items with
  | nil => exact fun _ _ => .inl ⟨List.not_mem_nil, rfl⟩
  | cons item items ih =>
      intro w l
      rcases ih (w.setBlock item.1 ((w.block item.1).load item.2)) l with ⟨hnot, heq⟩ | ⟨data, hmem, heq⟩
      · by_cases hl : l = item.1
        · subst hl
          rw [block_setBlock_self] at heq
          exact .inr ⟨item.2, List.mem_cons_self, heq⟩
        · rw [block_setBlock_of_ne _ _ hl] at heq
          refine .inl ⟨?_, heq⟩
          rw [List.map_cons, List.mem_cons]
          exact not_or.2 ⟨hl, hnot⟩
      · exact .inr ⟨data, List.mem_cons_of_mem _ hmem, heq⟩

@[simp] theorem charts_load (items : List (Location × Samples)) (w : World C) :
    (w.load items).charts = w.charts := by
  induction items generalizing w with
  | nil => rfl
  | cons item items ih => exact ih _

/-- `chart.apply(blocks)`. -/
def apply [DecidableEq C] (w : World C) (chart : C) (blocks : List Location) : World C :=
  let range := blocks.foldl
    (fun range l => (w.block l).getValueRange (w.charts chart).label range) ⟨0, 0⟩
  let shown := { w.charts chart with blocks := some blocks, range := some range }
  { w with charts := Function.update w.charts chart shown }

end World

/-- The handlers of the promises: of `loadBlocks`, of `getBlockSpan`, and of the `update`
of a chart. -/
inductive Handler (C : Type)
  | load (blocks : List Location)
  | give (blocks : List Location)
  | apply (chart : C)

/-- What promises are fulfilled with. -/
inductive Value
  | response (samples : List Samples)
  | sampler
  | blocks (blocks : List Location)
  | pair (u v : Value)
  | undefined

/-- A handler runs.  A load always has a response, a chart always blocks. -/
def exec {C : Type} [DecidableEq C] (w : World C) : Handler C → Value → World C × Value
  | .load blocks, .response samples => (w.load (blocks.zip samples), .sampler)
  | .load _, _ => (w, .undefined)
  | .give blocks, _ => (w, .blocks blocks)
  | .apply chart, .blocks blocks => (w.apply chart blocks, .undefined)
  | .apply _, _ => (w, .undefined)

/-- The blocks the loop of `getBlockSpan(indexMin, indexMax, level)` visits; none when it
does not end. -/
def visited : Extended ℤ → Extended ℤ → Extended ℤ → Option (List Location)
  | .finite indexMin, .finite indexMax, .finite level =>
      some (blocksFrom level indexMin (indexMax + 1 - indexMin).toNat)
  | indexMin, indexMax, _ => if indexMin.le indexMax then none else some []

theorem visited_nodup {indexMin indexMax level : Extended ℤ} {span : List Location}
    (h : visited indexMin indexMax level = some span) : span.Nodup := by
  unfold visited at h
  split at h
  · cases h
    exact nodup_blocksFrom _ _ _
  · split at h
    · cases h
    · cases h
      exact List.nodup_nil

/-- A fetch: the promise it returned and the blocks it is for. -/
structure Request where
  fetch : ℕ
  blocks : List Location
  deriving DecidableEq

/-- A call of `getBlockSpan`: the promise it returned and its arguments. -/
structure Call where
  promise : ℕ
  indexMin : Extended ℤ
  indexMax : Extended ℤ
  level : Extended ℤ

/-- The blocks a call asks for. -/
def Call.span (c : Call) : List Location := (visited c.indexMin c.indexMax c.level).getD []

/-- The window of a view. -/
structure Window where
  start : ℚ
  end_ : ℚ
  deriving DecidableEq

/-- An `update` of a chart: the promise it waits for, and the window it saw. -/
structure Update (C : Type) where
  chart : C
  promise : ℕ
  window : Window

end ProfileSampler

open ProfileSampler in
/-- The sampler, its charts and their views, with the requests, calls and updates so far. -/
structure ProfileSampler (C : Type) where
  blockLength : ℚ
  machine : Machine (Handler C) Value
  world : World C
  loading : Option ℕ
  views : C → Window
  requests : List Request
  calls : List Call
  updates : List (Update C)

namespace ProfileSampler

variable {C : Type}

/-- The local variables of the loop of `getBlockSpan`. -/
structure Scan (C : Type) where
  world : World C
  blockLoading : List Location
  hasLoading : Bool
  blocks : List Location

/-- The body of the loop. -/
def Scan.visit (s : Scan C) (l : Location) : Scan C :=
  let curBlock := s.world.block l
  let world := s.world.setBlock l curBlock
  if curBlock.loading = 0 then
    { world := world.setBlock l { curBlock with loading := -1 }
      blockLoading := s.blockLoading ++ [l]
      hasLoading := s.hasLoading
      blocks := s.blocks ++ [l] }
  else
    { world := world
      blockLoading := s.blockLoading
      hasLoading := s.hasLoading || decide (curBlock.loading < 0)
      blocks := s.blocks ++ [l] }

def scan (w : World C) (span : List Location) : Scan C :=
  span.foldl Scan.visit ⟨w, [], false, []⟩

theorem Scan.visit_new {s : Scan C} {l : Location} (h : (s.world.block l).loading = 0) :
    s.visit l =
      ⟨(s.world.setBlock l (s.world.block l)).setBlock l ⟨-1, (s.world.block l).samples⟩,
        s.blockLoading ++ [l], s.hasLoading, s.blocks ++ [l]⟩ := if_pos h

theorem Scan.visit_old {s : Scan C} {l : Location} (h : (s.world.block l).loading ≠ 0) :
    s.visit l =
      ⟨s.world.setBlock l (s.world.block l), s.blockLoading,
        s.hasLoading || decide ((s.world.block l).loading < 0), s.blocks ++ [l]⟩ := if_neg h

theorem Scan.visit_block (s : Scan C) (l l' : Location) :
    (s.visit l).world.block l' =
      if l' = l ∧ (s.world.block l').loading = 0 then ⟨-1, (s.world.block l').samples⟩
      else s.world.block l' := by
  by_cases hnew : (s.world.block l).loading = 0
  · rw [Scan.visit_new hnew]
    by_cases hl : l' = l
    · subst hl
      simp [hnew]
    · simp [hl, World.block_setBlock_of_ne]
  · rw [Scan.visit_old hnew]
    by_cases hl : l' = l
    · subst hl
      simp [hnew]
    · simp [hl, World.block_setBlock_of_ne]

/-- What the loop has found and done. -/
structure Scan.Finds (s : Scan C) (span : List Location) (r : Scan C) : Prop where
  blocks : r.blocks = s.blocks ++ span
  blockLoading : r.blockLoading =
    s.blockLoading ++ span.filter fun l => decide ((s.world.block l).loading = 0)
  hasLoading : r.hasLoading = true ↔
    s.hasLoading = true ∨ ∃ l ∈ span, (s.world.block l).loading < 0
  charts : r.world.charts = s.world.charts
  world : ∀ l, r.world.block l =
    if l ∈ span ∧ (s.world.block l).loading = 0 then ⟨-1, (s.world.block l).samples⟩
    else s.world.block l

theorem Scan.finds : ∀ (span : List Location) (s : Scan C), span.Nodup →
    s.Finds span (span.foldl Scan.visit s) := by
  intro span
  induction span with
  | nil =>
      intro s _
      exact ⟨by simp, by simp, by simp, rfl, by simp⟩
  | cons l span ih =>
      intro s hnodup
      obtain ⟨hnot, hnodup⟩ := List.nodup_cons.1 hnodup
      have hrest := ih (s.visit l) hnodup
      have hkeep : ∀ l' ∈ span, (s.visit l).world.block l' = s.world.block l' := by
        intro l' hl'
        rw [Scan.visit_block, if_neg]
        rintro ⟨rfl, -⟩
        exact hnot hl'
      have hloading : ∀ l' ∈ span, ((s.visit l).world.block l').loading =
          (s.world.block l').loading := fun l' hl' => by rw [hkeep l' hl']
      have hfilter : (span.filter fun l' => decide (((s.visit l).world.block l').loading = 0)) =
          span.filter fun l' => decide ((s.world.block l').loading = 0) := by
        refine List.filter_congr fun l' hl' => ?_
        rw [hloading l' hl']
      constructor
      · rw [List.foldl_cons, hrest.blocks]
        by_cases hnew : (s.world.block l).loading = 0
        · simp [Scan.visit_new hnew]
        · simp [Scan.visit_old hnew]
      · rw [List.foldl_cons, hrest.blockLoading, hfilter]
        by_cases hnew : (s.world.block l).loading = 0
        · simp [Scan.visit_new hnew, hnew]
        · simp [Scan.visit_old hnew, hnew]
      · rw [List.foldl_cons, hrest.hasLoading, List.exists_mem_cons_iff]
        have hexists : (∃ l' ∈ span, ((s.visit l).world.block l').loading < 0) ↔
            ∃ l' ∈ span, (s.world.block l').loading < 0 := by
          refine exists_congr fun l' => and_congr_right fun hl' => ?_
          rw [hloading l' hl']
        rw [hexists]
        by_cases hnew : (s.world.block l).loading = 0
        · simp [Scan.visit_new hnew, hnew]
        · simp [Scan.visit_old hnew, or_assoc]
      · rw [List.foldl_cons, hrest.charts]
        by_cases hnew : (s.world.block l).loading = 0
        · rw [Scan.visit_new hnew]
          rfl
        · rw [Scan.visit_old hnew]
          rfl
      · intro l'
        rw [List.foldl_cons, hrest.world l']
        by_cases hl : l' = l
        · subst hl
          simp [hnot, Scan.visit_block]
        · simp [hl, Scan.visit_block]

/-- `loadBlocks(blocks)`, and the promise it returns. -/
def loadBlocks (s : ProfileSampler C) (blocks : List Location) : ProfileSampler C × ℕ :=
  let fetch := s.machine.size
  let machine := (s.machine.make .outside).andThen fetch (.load blocks)
  let promise := fetch + 1
  let requests := s.requests ++ [⟨fetch, blocks⟩]
  match s.loading with
  | none => ({ s with machine := machine, requests := requests, loading := some promise }, promise)
  | some loading =>
    ({ s with
        machine := machine.all loading promise
        requests := requests
        loading := some (promise + 1) },
      promise + 1)

/-- `p.then(() => blocks)`. -/
def thenGive (s : ProfileSampler C) (p : ℕ) (blocks : List Location) : ProfileSampler C × ℕ :=
  ({ s with machine := s.machine.andThen p (.give blocks) }, s.machine.size)

/-- What `getBlockSpan` returns after its loop; none where `this.loading` is not there. -/
def answer (s : ProfileSampler C) (scan : Scan C) : Option (ProfileSampler C × ℕ) :=
  let s := { s with world := scan.world }
  if scan.blockLoading ≠ [] then
    let loaded := s.loadBlocks scan.blockLoading
    some (loaded.1.thenGive loaded.2 scan.blocks)
  else if scan.hasLoading then
    s.loading.map fun loading => s.thenGive loading scan.blocks
  else
    some ({ s with machine := s.machine.resolve (.blocks scan.blocks) }, s.machine.size)

def getBlockSpan (s : ProfileSampler C) (indexMin indexMax level : Extended ℤ) :
    Option (ProfileSampler C × ℕ) :=
  match visited indexMin indexMax level with
  | none => none
  | some span =>
    match s.answer (scan s.world span) with
    | none => none
    | some (s', promise) =>
      some ({ s' with calls := s'.calls ++ [⟨promise, indexMin, indexMax, level⟩] }, promise)

/-- `getRangeSamples(start, end, 512)`. -/
def getWindowSamples (s : ProfileSampler C) (window : Window) : Option (ProfileSampler C × ℕ) :=
  let sampling := getRangeSamples s.blockLength window.start window.end_ 512
  s.getBlockSpan sampling.indexMin sampling.indexMax sampling.level

/-- `update` of a chart. -/
def update (s : ProfileSampler C) (chart : C) : Option (ProfileSampler C) :=
  let window := s.views chart
  match s.getWindowSamples window with
  | none => none
  | some (s', promise) =>
    some
      { s' with
        machine := s'.machine.andThen promise (.apply chart)
        updates := s'.updates ++ [⟨chart, promise, window⟩] }

/-- The blocks `getRangeSamples` gives for a window; none when it does not return. -/
def windowBlocks (blockLength : ℚ) (window : Window) : Option (List Location) :=
  let sampling := getRangeSamples blockLength window.start window.end_ 512
  visited sampling.indexMin sampling.indexMax sampling.level

/-- What can happen: a call of `getBlockSpan`, a change of the view of a chart, a fetch
that succeeds or fails, and the next job. -/
inductive Event (C : Type)
  | getBlockSpan (indexMin indexMax level : ℤ)
  | change (chart : C) (window : Window)
  | respond (request : ℕ) (samples : List Samples)
  | fail (request : ℕ)
  | job

/-- The fetch of a request that has none yet gets its outcome. -/
def answered (s : ProfileSampler C) (r : Request) (o : Outcome Value) : Option (ProfileSampler C) :=
  if (s.machine.state r.fetch).isNone then some { s with machine := s.machine.settle r.fetch o }
  else none

def step [DecidableEq C] (s : ProfileSampler C) : Event C → Option (ProfileSampler C)
  | .getBlockSpan indexMin indexMax level =>
      (s.getBlockSpan (.finite indexMin) (.finite indexMax) (.finite level)).map Prod.fst
  | .change chart window => { s with views := Function.update s.views chart window }.update chart
  | .respond request samples =>
      match s.requests[request]? with
      | none => none
      | some r =>
        if samples.length = r.blocks.length then s.answered r (.fulfilled (.response samples))
        else none
  | .fail request =>
      match s.requests[request]? with
      | none => none
      | some r => s.answered r .rejected
  | .job =>
      match s.machine.job exec .pair s.world with
      | none => none
      | some (machine, world) => some { s with machine := machine, world := world }

/-- A new sampler with charts of these labels and views. -/
def init (blockLength : ℚ) (labels : C → String) (views : C → Window) : ProfileSampler C where
  blockLength := blockLength
  machine := .empty
  world := ⟨fun _ => none, fun chart => ⟨labels chart, none, none⟩⟩
  loading := none
  views := views
  requests := []
  calls := []
  updates := []

end ProfileSampler

end SatAllocatorTest.Ports.Monitor
