import Mathlib.Algebra.Group.Action.Defs
import Mathlib.Algebra.Group.Basic
import Mathlib.Algebra.Group.Nat.Defs
import Mathlib.Data.Int.Notation
import Mathlib.Data.List.Count
import Mathlib.Data.List.Induction
import Mathlib.Data.List.Perm.Basic
import Mathlib.Logic.Function.Iterate
import SatAllocatorTest.Verified.Slots

/-!
# The benchmark loop

`AllocTest::RunLoop` of `test_alloc.h`: cycles of allocations with random sizes, each of
which may be followed by the release of a random buffer, and a purge of what is left at
the end of a cycle.  The allocator under test answers as it likes, and so does the
generator; the loop leaves a trace of the calls it makes and of the slots it touches.

The buffers in use are the first `buffersCount` slots of the array, up to order, because a
buffer is taken out by moving the last one to its place.  A failed allocation leaves its
zero behind them.  But `memset` is called before the answer is looked at; the trace goes
on after a write through a null pointer, as if it did no harm.

The times that are measured are left out.

Main result: `RunLoop_handled_iff`.
-/

namespace SatAllocatorTest.Ports.Benchmark

open SatAllocatorTest.Verified.Slots

/-! ## The loop -/

/-- The fields of `struct AllocTest` that `RunLoop` reads. -/
structure AllocTest where
  sizeMin : ℤ
  sizeMax : ℤ
  testFreeFrequency : ℤ
  num_cycle : ℤ

/-- `AllocTest()`. -/
def AllocTest.new : AllocTest := ⟨1, 65536, 3, 4⟩

/-- The variable `sizeDelta`.  Sizes are positive, so the difference does not wrap. -/
def AllocTest.sizeDelta (t : AllocTest) : ℤ :=
  let sizeDelta := t.sizeMax - t.sizeMin
  if sizeDelta ≤ 0 then 1 else sizeDelta

/-- The size that is asked for when `fastrand()` is `draw`. -/
def AllocTest.requestedSize (t : AllocTest) (draw : ℕ) : ℤ :=
  t.sizeMin + Int.tmod draw t.sizeDelta

/-- What the loop does that can be seen from outside.  The argument of `FreeBuffer` is none
where it is read from a slot that was never written. -/
inductive Act
  | alloc (size answer : ℤ)
  | memset (buf size : ℤ)
  | printf
  | index (i : ℤ)
  | free (buf : Option ℤ)
  deriving DecidableEq

/-- The variables of the loop, how often the allocator and the generator have been called,
and the trace. -/
structure Loop where
  buffers : ℕ → Option ℤ
  buffersCount : ℕ
  allocs : ℕ
  draws : ℕ
  trace : List Act

/-- `new intptr_t[count]`, and the count of buffers in use. -/
def Loop.start : Loop := ⟨fun _ => none, 0, 0, 0, []⟩

section

variable (answers : ℕ → ℤ) (random : ℕ → ℕ) (t : AllocTest)

/-- A buffer is asked for, filled with zeros, and kept if it is one. -/
def allocate (s : Loop) : Loop :=
  let size := t.requestedSize (random s.draws)
  let buf := answers s.allocs
  { buffers := Function.update s.buffers s.buffersCount (some buf)
    buffersCount := if buf ≠ 0 then s.buffersCount + 1 else s.buffersCount
    allocs := s.allocs + 1
    draws := s.draws + 1
    trace := s.trace ++ [.index s.buffersCount, .alloc size buf, .memset buf size] ++
      if buf ≠ 0 then [] else [.printf] }

/-- `if (buffersCount) { ... }`: a random buffer is freed. -/
def release (s : Loop) : Loop :=
  if s.buffersCount = 0 then s
  else
    let i := random s.draws % s.buffersCount
    let last := s.buffersCount - 1
    { s with
      buffers := Function.update s.buffers i (s.buffers last)
      buffersCount := last
      draws := s.draws + 1
      trace := s.trace ++ [.index i, .index last, .free (s.buffers i)] }

/-- `if (testFreeFrequency) { ... }`. -/
def maybeRelease (s : Loop) : Loop :=
  if t.testFreeFrequency = 0 then s
  else
    let draw := random s.draws
    let s := { s with draws := s.draws + 1 }
    if Int.tmod draw t.testFreeFrequency = 0 then release random s else s

/-- The body of the inner loop. -/
def turn (s : Loop) : Loop := maybeRelease random t (allocate answers random t s)

/-- What the purge does from slot `i` on, where `rest` slots are left. -/
def purgeFrom (buffers : ℕ → Option ℤ) : (i rest : ℕ) → List Act
  | _, 0 => []
  | i, rest + 1 => .index i :: .free (buffers i) :: purgeFrom buffers (i + 1) rest

/-- The purge at the end of a cycle. -/
def purge (s : Loop) : Loop :=
  { s with
    buffersCount := 0
    trace := s.trace ++ purgeFrom s.buffers 0 s.buffersCount }

/-- The body of the outer loop. -/
def cycle (count : ℕ) (s : Loop) : Loop := purge ((turn answers random t)^[count] s)

/-- The loop with an array of `count` slots. -/
def runLoop (count : ℕ) : Loop := (cycle answers random t count)^[t.num_cycle.toNat] .start

/-- `intptr_t count = 500000`. -/
def bufferCount : ℕ := 500000

/-- `RunLoop()`. -/
def RunLoop : Loop := runLoop answers random t bufferCount

end

/-! ## What the loop is to do -/

/-- The buffers in use after one more act. -/
def liveStep (live : List ℤ) : Act → List ℤ
  | .alloc _ answer => if answer = 0 then live else answer :: live
  | .free (some buf) => live.erase buf
  | _ => live

/-- The buffers in use after a trace. -/
def live (trace : List Act) : List ℤ := trace.foldl liveStep []

/-- The allocator returns `buf`. -/
def isReturn (buf : ℤ) : Act → Bool
  | .alloc _ answer => answer = buf
  | _ => false

/-- How often the allocator has returned `buf`. -/
def returned (trace : List Act) (buf : ℤ) : ℕ := trace.countP (isReturn buf)

/-- How often `buf` has been freed. -/
def freed (trace : List Act) (buf : ℤ) : ℕ := trace.count (.free (some buf))

/-- Only buffers in use are freed. -/
def FreesLive (trace : List Act) : Prop :=
  ∀ before buf after, trace = before ++ .free buf :: after →
    ∃ b, buf = some b ∧ b ≠ 0 ∧ b ∈ live before

/-- A loop over `count` slots handles every answer of its allocator. -/
structure Handled (answers : ℕ → ℤ) (random : ℕ → ℕ) (t : AllocTest) (count : ℕ) : Prop where
  writes : ∀ buf size, .memset buf size ∈ (runLoop answers random t count).trace → buf ≠ 0
  indices : ∀ i : ℤ, .index i ∈ (runLoop answers random t count).trace → 0 ≤ i ∧ i < count
  frees : FreesLive (runLoop answers random t count).trace
  once : ∀ buf, buf ≠ 0 → freed (runLoop answers random t count).trace buf =
    returned (runLoop answers random t count).trace buf
  failure : ∀ s, answers s.allocs = 0 →
    (allocate answers random t s).buffersCount = s.buffersCount ∧
      ∀ i, i < s.buffersCount → (allocate answers random t s).buffers i = s.buffers i

/-! ## Traces -/

/-- The act frees nothing. -/
def Quiet (act : Act) : Prop := ∀ buf, act ≠ .free buf

theorem live_append (trace acts : List Act) :
    live (trace ++ acts) = acts.foldl liveStep (live trace) := List.foldl_append

theorem freesLive_nil : FreesLive [] := by
  intro before buf after h
  simp at h

theorem freesLive_snoc {trace : List Act} {act : Act} (h : FreesLive trace)
    (hact : ∀ buf, act = .free buf → ∃ b, buf = some b ∧ b ≠ 0 ∧ b ∈ live trace) :
    FreesLive (trace ++ [act]) := by
  intro before buf after heq
  rcases List.eq_nil_or_concat after with rfl | ⟨after, last, rfl⟩
  · obtain ⟨rfl, hlast⟩ := List.append_inj' heq rfl
    exact hact buf (List.singleton_inj.1 hlast)
  · rw [List.concat_eq_append, ← List.cons_append, ← List.append_assoc] at heq
    obtain ⟨htrace, -⟩ := List.append_inj' heq rfl
    exact h before buf after htrace

theorem freesLive_append : ∀ (acts : List Act) {trace : List Act}, FreesLive trace →
    (∀ act ∈ acts, Quiet act) → FreesLive (trace ++ acts) := by
  intro acts
  induction acts with
  | nil =>
      intro trace h _
      rwa [List.append_nil]
  | cons act acts ih =>
      intro trace h hquiet
      obtain ⟨hact, hacts⟩ := List.forall_mem_cons.1 hquiet
      have hsnoc := freesLive_snoc h fun buf heq => absurd heq (hact buf)
      have hrest := ih hsnoc hacts
      rwa [List.append_assoc, List.singleton_append] at hrest

theorem freesLive_free {trace : List Act} {buf : ℤ} (h : FreesLive trace) (hne : buf ≠ 0)
    (hlive : buf ∈ live trace) : FreesLive (trace ++ [.free (some buf)]) := by
  refine freesLive_snoc h fun buf' heq => ⟨buf, ?_, hne, hlive⟩
  cases heq
  rfl

/-- A buffer that is in use once more than it was freed has been returned as often. -/
theorem returned_eq {buf : ℤ} (hbuf : buf ≠ 0) (trace : List Act) (h : FreesLive trace) :
    returned trace buf = freed trace buf + (live trace).count buf := by
  induction trace using List.reverseRecOn with
  | nil => rfl
  | append_singleton trace act ih =>
      have hprefix : FreesLive trace := by
        intro before b after heq
        refine h before b (after ++ [act]) ?_
        rw [heq, List.append_assoc, List.cons_append]
      have hind := ih hprefix
      have hreturned : returned (trace ++ [act]) buf =
          returned trace buf + if isReturn buf act = true then 1 else 0 := by
        rw [returned, List.countP_append, List.countP_singleton]
        rfl
      have hfreed : freed (trace ++ [act]) buf =
          freed trace buf + if act = .free (some buf) then 1 else 0 := by
        rw [freed, List.count_append, List.count_singleton]
        simp only [beq_iff_eq]
        rfl
      rw [hreturned, hfreed, live_append, hind]
      cases act with
      | alloc size answer =>
          by_cases hzero : answer = 0
          · have hne : answer ≠ buf := fun heq => hbuf (heq ▸ hzero)
            simp [isReturn, liveStep, hzero, Ne.symm hbuf]
          · simp [isReturn, liveStep, hzero, List.count_cons]
            omega
      | memset b size => simp [isReturn, liveStep]
      | printf => simp [isReturn, liveStep]
      | index i => simp [isReturn, liveStep]
      | free b =>
          obtain ⟨b', rfl, -, hmem⟩ := h trace b [] rfl
          by_cases heq : b' = buf
          · subst heq
            have hpos := List.count_pos_iff.2 hmem
            simp [isReturn, liveStep, List.count_erase_self]
            omega
          · simp [isReturn, liveStep, heq, List.count_erase_of_ne (Ne.symm heq)]

/-! ## The buffers in use -/

/-- Every slot the trace touches is one of the array. -/
def InArray (count : ℕ) (trace : List Act) : Prop :=
  ∀ i : ℤ, .index i ∈ trace → 0 ≤ i ∧ i < count

theorem inArray_append {count : ℕ} {trace acts : List Act} (h : InArray count trace)
    (hacts : InArray count acts) : InArray count (trace ++ acts) := by
  intro i hi
  rcases List.mem_append.1 hi with hi | hi
  · exact h i hi
  · exact hacts i hi

/-- A slot of the array is touched. -/
theorem touch_spec {count i : ℕ} {trace : List Act} (hfrees : FreesLive trace)
    (hindices : InArray count trace) (hi : i < count) :
    live (trace ++ [.index i]) = live trace ∧ FreesLive (trace ++ [.index i]) ∧
      InArray count (trace ++ [.index i]) := by
  constructor
  · exact live_append _ _
  constructor
  · exact freesLive_snoc hfrees fun buf heq => nomatch heq
  · refine inArray_append hindices fun j hj => ?_
    rw [List.mem_singleton, Act.index.injEq] at hj
    omega

/-- A buffer in use is freed. -/
theorem free_spec {count : ℕ} {trace : List Act} {buf : ℤ} (hfrees : FreesLive trace)
    (hindices : InArray count trace) (hne : buf ≠ 0) (hlive : buf ∈ live trace) :
    live (trace ++ [.free (some buf)]) = (live trace).erase buf ∧
      FreesLive (trace ++ [.free (some buf)]) ∧ InArray count (trace ++ [.free (some buf)]) := by
  constructor
  · exact live_append _ _
  constructor
  · exact freesLive_free hfrees hne hlive
  · refine inArray_append hindices fun j hj => ?_
    cases List.mem_singleton.1 hj

/-- The first slots of the array hold `xs`, which are the buffers in use, and there are no
more of them than `i`. -/
structure Keeps (count i : ℕ) (s : Loop) (xs : List ℤ) : Prop where
  holds : Holds s.buffers xs
  length : xs.length = s.buffersCount
  room : s.buffersCount ≤ i
  in_use : (live s.trace).Perm xs
  nonzero : ∀ x ∈ xs, x ≠ 0
  frees : FreesLive s.trace
  indices : InArray count s.trace

theorem keeps_start (count : ℕ) : Keeps count 0 .start [] where
  holds := Holds.nil
  length := rfl
  room := Nat.le_refl _
  in_use := List.Perm.refl _
  nonzero := fun _ hx => absurd hx List.not_mem_nil
  frees := freesLive_nil
  indices := fun _ hi => absurd hi List.not_mem_nil

section

variable {answers : ℕ → ℤ} {random : ℕ → ℕ} {t : AllocTest} {count : ℕ}

/-- What the turns and the purges keep holds in the end. -/
theorem runLoop_invariant {I : Loop → Prop} (start : I .start)
    (turn : ∀ s, I s → I (turn answers random t s)) (purge : ∀ s, I s → I (purge s)) :
    I (runLoop answers random t count) := by
  have cycle : ∀ s, I s → I (cycle answers random t count s) := fun s hs =>
    purge _ (Function.Iterate.rec I hs turn count)
  exact Function.Iterate.rec I start cycle _

theorem live_allocate (s : Loop) : live (allocate answers random t s).trace =
    if answers s.allocs = 0 then live s.trace else answers s.allocs :: live s.trace := by
  unfold allocate
  rw [live_append, live_append]
  by_cases hbuf : answers s.allocs = 0
  · simp [hbuf, liveStep]
  · simp [hbuf, liveStep]

theorem freesLive_allocate {s : Loop} (h : FreesLive s.trace) :
    FreesLive (allocate answers random t s).trace := by
  refine freesLive_append _ (freesLive_append _ h ?_) ?_
  · intro act hact buf heq
    subst heq
    simp at hact
  · intro act hact buf heq
    subst heq
    split at hact
    · cases hact
    · simp at hact

theorem inArray_allocate {s : Loop} (h : InArray count s.trace) (hlt : s.buffersCount < count) :
    InArray count (allocate answers random t s).trace := by
  refine inArray_append (inArray_append h ?_) ?_
  · intro j hj
    simp only [List.mem_cons, Act.index.injEq, reduceCtorEq, List.not_mem_nil, or_false] at hj
    omega
  · intro j hj
    split at hj
    · cases hj
    · simp at hj

theorem Keeps.allocate {i : ℕ} {s : Loop} {xs : List ℤ} (h : Keeps count i s xs)
    (hi : i < count) : ∃ ys, Keeps count (i + 1) (allocate answers random t s) ys := by
  have hlive : live (Benchmark.allocate answers random t s).trace = _ := live_allocate s
  have hfrees : FreesLive (Benchmark.allocate answers random t s).trace :=
    freesLive_allocate h.frees
  have hindices : InArray count (Benchmark.allocate answers random t s).trace :=
    inArray_allocate h.indices (Nat.lt_of_le_of_lt h.room hi)
  by_cases hbuf : answers s.allocs = 0
  · -- the zero is written behind the buffers in use, and stays there
    have hcount : (Benchmark.allocate answers random t s).buffersCount = s.buffersCount :=
      if_neg (not_not.2 hbuf)
    rw [if_pos hbuf] at hlive
    refine ⟨xs, ?_⟩
    constructor
    · exact h.holds.congr fun j hj => Function.update_of_ne (Nat.ne_of_lt (h.length ▸ hj)) _ _
    · rw [hcount, h.length]
    · rw [hcount]
      exact Nat.le_succ_of_le h.room
    · rw [hlive]
      exact h.in_use
    · exact h.nonzero
    · exact hfrees
    · exact hindices
  · have hcount : (Benchmark.allocate answers random t s).buffersCount = s.buffersCount + 1 :=
      if_pos hbuf
    rw [if_neg hbuf] at hlive
    refine ⟨xs ++ [answers s.allocs], ?_⟩
    constructor
    · have hsnoc := h.holds.snoc (answers s.allocs)
      rwa [h.length] at hsnoc
    · rw [hcount, List.length_append, h.length, List.length_singleton]
    · rw [hcount]
      exact Nat.succ_le_succ h.room
    · rw [hlive]
      exact (h.in_use.cons _).trans (List.perm_append_singleton _ xs).symm
    · intro x hx
      rcases List.mem_append.1 hx with hx | hx
      · exact h.nonzero x hx
      · rw [List.mem_singleton.1 hx]
        exact hbuf
    · exact hfrees
    · exact hindices

/-- The last buffer is moved to the slot of the one that is freed. -/
theorem Keeps.release {i : ℕ} {s : Loop} {xs : List ℤ} (h : Keeps count i s xs)
    (hi : i ≤ count) : ∃ ys, Keeps count i (release random s) ys := by
  obtain ⟨hholds, hlength, hroom, hlive, hnonzero, hfrees, hindices⟩ := h
  unfold Benchmark.release
  split
  · exact ⟨xs, hholds, hlength, hroom, hlive, hnonzero, hfrees, hindices⟩
  · rename_i hcount
    have hslot : random s.draws % s.buffersCount < s.buffersCount :=
      Nat.mod_lt _ (Nat.pos_of_ne_zero hcount)
    simp only
    generalize random s.draws % s.buffersCount = slot at hslot
    rcases List.eq_nil_or_concat xs with rfl | ⟨ys, z, rfl⟩
    · exact absurd hlength.symm hcount
    rw [List.concat_eq_append] at *
    have hlast : s.buffersCount - 1 = ys.length := by
      rw [List.length_append, List.length_singleton] at hlength
      omega
    have hin : slot < (ys ++ [z]).length := hlength ▸ hslot
    have hperm := swap_remove_perm z hin
    rw [hholds.get hin, hlast]
    generalize (ys ++ [z])[slot] = buf at hperm
    have hmem : ∀ x ∈ buf :: ys.set slot z, x ∈ ys ++ [z] := fun x hx => hperm.mem_iff.1 hx
    have hbuf : buf ≠ 0 := hnonzero buf (hmem buf (List.mem_cons_self ..))
    have hlive' : (live s.trace).Perm (buf :: ys.set slot z) := hlive.trans hperm.symm
    -- two slots are touched, and the buffer is freed
    obtain ⟨hlive₁, hfrees₁, hindices₁⟩ := touch_spec hfrees hindices (by omega : slot < count)
    obtain ⟨hlive₂, hfrees₂, hindices₂⟩ :=
      touch_spec hfrees₁ hindices₁ (by omega : ys.length < count)
    rw [hlive₁] at hlive₂
    have hused : buf ∈ live (s.trace ++ [.index slot] ++ [.index ys.length]) := by
      rw [hlive₂]
      exact hlive'.mem_iff.2 (List.mem_cons_self ..)
    obtain ⟨hlive₃, hfrees₃, hindices₃⟩ := free_spec hfrees₂ hindices₂ hbuf hused
    rw [hlive₂] at hlive₃
    have htrace : s.trace ++ [.index slot, .index ys.length, .free (some buf)] =
        s.trace ++ [.index slot] ++ [.index ys.length] ++ [.free (some buf)] := by simp
    refine ⟨ys.set slot z, ?_⟩
    rw [htrace]
    constructor
    · exact hholds.swapRemove slot
    · exact List.length_set
    · simp only
      omega
    · rw [hlive₃]
      have herase := hlive'.erase buf
      rwa [List.erase_cons_head] at herase
    · exact fun x hx => hnonzero x (hmem x (List.mem_cons_of_mem _ hx))
    · exact hfrees₃
    · exact hindices₃

/-- The draws do not matter. -/
theorem Keeps.setDraws {i : ℕ} {s : Loop} {xs : List ℤ} (h : Keeps count i s xs) (draws : ℕ) :
    Keeps count i { s with draws := draws } xs :=
  ⟨h.holds, h.length, h.room, h.in_use, h.nonzero, h.frees, h.indices⟩

theorem Keeps.maybeRelease {i : ℕ} {s : Loop} {xs : List ℤ} (h : Keeps count i s xs)
    (hi : i ≤ count) : ∃ ys, Keeps count i (maybeRelease random t s) ys := by
  unfold Benchmark.maybeRelease
  split
  · exact ⟨xs, h⟩
  · simp only
    split
    · exact (h.setDraws _).release hi
    · exact ⟨xs, h.setDraws _⟩

theorem Keeps.turn {i : ℕ} {s : Loop} {xs : List ℤ} (h : Keeps count i s xs) (hi : i < count) :
    ∃ ys, Keeps count (i + 1) (turn answers random t s) ys := by
  obtain ⟨ys, hys⟩ := h.allocate hi
  exact hys.maybeRelease hi

/-- The inner loop. -/
theorem Keeps.turns (answers : ℕ → ℤ) (random : ℕ → ℕ) (t : AllocTest) {s : Loop}
    (h : Keeps count 0 s []) : ∀ n, n ≤ count → ∃ xs,
      Keeps count n ((Benchmark.turn answers random t)^[n] s) xs := by
  intro n
  induction n with
  | zero => exact fun _ => ⟨[], h⟩
  | succ n ih =>
      intro hn
      obtain ⟨xs, hxs⟩ := ih (Nat.le_of_succ_le hn)
      rw [Function.iterate_succ_apply']
      exact hxs.turn hn

/-- The purge frees the buffers in use one after the other. -/
theorem purgeFrom_spec {buffers : ℕ → Option ℤ} : ∀ (xs : List ℤ) (i : ℕ) {trace : List Act},
    (∀ j x, xs[j]? = some x → buffers (i + j) = some x) → (live trace).Perm xs →
    (∀ x ∈ xs, x ≠ 0) → FreesLive trace → i + xs.length ≤ count → InArray count trace →
    let trace' := trace ++ purgeFrom buffers i xs.length
    live trace' = [] ∧ FreesLive trace' ∧ InArray count trace' := by
  intro xs
  induction xs with
  | nil =>
      intro i trace _ hlive _ hfrees _ hindices
      rw [List.length_nil, purgeFrom, List.append_nil]
      exact ⟨hlive.eq_nil, hfrees, hindices⟩
  | cons x xs ih =>
      intro i trace hholds hlive hnonzero hfrees hroom hindices
      obtain ⟨hx, hxs⟩ := List.forall_mem_cons.1 hnonzero
      have hslot : buffers i = some x := hholds 0 x rfl
      have hsplit : trace ++ purgeFrom buffers i (x :: xs).length =
          trace ++ [.index i] ++ [.free (some x)] ++ purgeFrom buffers (i + 1) xs.length := by
        rw [List.length_cons, purgeFrom, hslot]
        simp
      rw [List.length_cons] at hroom
      obtain ⟨hlive₁, hfrees₁, hindices₁⟩ := touch_spec hfrees hindices (by omega : i < count)
      have hused : x ∈ live (trace ++ [.index i]) := by
        rw [hlive₁]
        exact hlive.mem_iff.2 (List.mem_cons_self ..)
      obtain ⟨hlive₂, hfrees₂, hindices₂⟩ := free_spec hfrees₁ hindices₁ hx hused
      rw [hlive₁] at hlive₂
      rw [hsplit]
      refine ih (i + 1) ?_ ?_ hxs hfrees₂ (by omega) hindices₂
      · intro j y hy
        have hnext := hholds (j + 1) y hy
        rwa [show i + (j + 1) = i + 1 + j by omega] at hnext
      · rw [hlive₂]
        have herase := hlive.erase x
        rwa [List.erase_cons_head] at herase

theorem Keeps.purge {i : ℕ} {s : Loop} {xs : List ℤ} (h : Keeps count i s xs) (hi : i ≤ count) :
    Keeps count 0 (purge s) [] := by
  have hroom : 0 + xs.length ≤ count := by
    rw [Nat.zero_add, h.length]
    exact Nat.le_trans h.room hi
  have hspec := purgeFrom_spec xs 0
    (fun j x hx => by rw [Nat.zero_add]; exact h.holds j x hx) h.in_use h.nonzero h.frees hroom
    h.indices
  rw [h.length] at hspec
  obtain ⟨hlive, hfrees, hindices⟩ := hspec
  constructor
  · exact Holds.nil
  · rfl
  · exact Nat.le_refl _
  · exact List.Perm.of_eq hlive
  · exact fun _ hx => absurd hx List.not_mem_nil
  · exact hfrees
  · exact hindices

theorem Keeps.cycle {s : Loop} (h : Keeps count 0 s []) :
    Keeps count 0 (cycle answers random t count s) [] := by
  obtain ⟨xs, hxs⟩ := h.turns answers random t count (Nat.le_refl _)
  exact hxs.purge (Nat.le_refl _)

/-- The whole loop. -/
theorem runLoop_keeps (answers : ℕ → ℤ) (random : ℕ → ℕ) (t : AllocTest) (count : ℕ) :
    Keeps count 0 (runLoop answers random t count) [] := by
  unfold runLoop
  induction t.num_cycle.toNat with
  | zero => exact keeps_start count
  | succ n ih =>
      rw [Function.iterate_succ_apply']
      exact ih.cycle

/-! ## The writes -/

/-- The writes of a trace go through the answers of the allocator so far. -/
structure Writes (answers : ℕ → ℤ) (s : Loop) : Prop where
  mem_iff : ∀ buf, (∃ size, .memset buf size ∈ s.trace) ↔ ∃ k, k < s.allocs ∧ answers k = buf

/-- Acts that write nothing. -/
theorem Writes.append {s s' : Loop} (h : Writes answers s) (hallocs : s'.allocs = s.allocs)
    {acts : List Act} (htrace : s'.trace = s.trace ++ acts)
    (hacts : ∀ buf size, Act.memset buf size ∉ acts) : Writes answers s' := by
  constructor
  intro buf
  rw [hallocs, ← h.mem_iff buf, htrace]
  constructor
  · rintro ⟨size, hmem⟩
    exact ⟨size, (List.mem_append.1 hmem).resolve_right (hacts buf size)⟩
  · rintro ⟨size, hmem⟩
    exact ⟨size, List.mem_append_left _ hmem⟩

theorem Writes.allocate {s : Loop} (h : Writes answers s) :
    Writes answers (allocate answers random t s) := by
  constructor
  intro buf
  have hallocs : (Benchmark.allocate answers random t s).allocs = s.allocs + 1 := rfl
  have hmem : (∃ size, .memset buf size ∈ (Benchmark.allocate answers random t s).trace) ↔
      (∃ size, .memset buf size ∈ s.trace) ∨ buf = answers s.allocs := by
    unfold Benchmark.allocate
    by_cases hzero : answers s.allocs = 0
    · simp [hzero, exists_or]
    · simp [hzero, exists_or]
  rw [hallocs, hmem, h.mem_iff]
  constructor
  · rintro (⟨k, hk, heq⟩ | heq)
    · exact ⟨k, Nat.lt_succ_of_lt hk, heq⟩
    · exact ⟨s.allocs, Nat.lt_succ_self _, heq.symm⟩
  · rintro ⟨k, hk, heq⟩
    rcases Nat.lt_succ_iff_lt_or_eq.1 hk with hk | rfl
    · exact .inl ⟨k, hk, heq⟩
    · exact .inr heq.symm

theorem Writes.release {s : Loop} (h : Writes answers s) : Writes answers (release random s) := by
  unfold Benchmark.release
  split
  · exact h
  · refine h.append rfl rfl fun buf size hmem => ?_
    simp at hmem

theorem Writes.turn {s : Loop} (h : Writes answers s) : Writes answers (turn answers random t s) := by
  have halloc : Writes answers (Benchmark.allocate answers random t s) := h.allocate
  unfold Benchmark.turn Benchmark.maybeRelease
  split
  · exact halloc
  · simp only
    split
    · have hdraws : Writes answers { Benchmark.allocate answers random t s with
          draws := (Benchmark.allocate answers random t s).draws + 1 } := ⟨halloc.mem_iff⟩
      exact hdraws.release
    · exact ⟨halloc.mem_iff⟩

theorem purgeFrom_writes (buffers : ℕ → Option ℤ) (buf size : ℤ) : ∀ rest i : ℕ,
    Act.memset buf size ∉ purgeFrom buffers i rest := by
  intro rest
  induction rest with
  | zero => exact fun i => List.not_mem_nil
  | succ rest ih =>
      intro i hmem
      rw [purgeFrom] at hmem
      simp only [List.mem_cons, reduceCtorEq, false_or] at hmem
      exact ih (i + 1) hmem

theorem Writes.purge {s : Loop} (h : Writes answers s) : Writes answers (purge s) :=
  h.append rfl rfl fun buf size => purgeFrom_writes _ buf size _ _

theorem release_allocs (random : ℕ → ℕ) (s : Loop) : (release random s).allocs = s.allocs := by
  unfold release
  split
  · rfl
  · rfl

/-- A turn asks for one buffer. -/
theorem turn_allocs (s : Loop) : (turn answers random t s).allocs = s.allocs + 1 := by
  unfold turn maybeRelease
  split
  · rfl
  · simp only
    split
    · exact release_allocs random _
    · rfl

theorem runLoop_allocs :
    (runLoop answers random t count).allocs = t.num_cycle.toNat * count := by
  have hturn : Function.Semiconj Loop.allocs (turn answers random t) (· + 1) := turn_allocs
  have hcycle : Function.Semiconj Loop.allocs (cycle answers random t count) (· + count) := by
    intro s
    have hturns := hturn.iterate_right count s
    rwa [add_right_iterate_apply, smul_eq_mul, Nat.mul_one] at hturns
  have hcycles := hcycle.iterate_right t.num_cycle.toNat .start
  rw [add_right_iterate_apply, smul_eq_mul] at hcycles
  exact hcycles.trans (Nat.zero_add _)

/-- The loop asks for a buffer in each turn of each cycle, and writes through every
answer. -/
theorem runLoop_writes (buf : ℤ) :
    (∃ size, .memset buf size ∈ (runLoop answers random t count).trace) ↔
      ∃ k, k < t.num_cycle.toNat * count ∧ answers k = buf := by
  have hstart : Writes answers .start := ⟨fun buf => by simp [Loop.start]⟩
  have hwrites : Writes answers (runLoop answers random t count) :=
    runLoop_invariant hstart (fun _ h => h.turn) fun _ h => h.purge
  rw [hwrites.mem_iff, runLoop_allocs]

/-! ## The main result -/

/-- Whatever the answers are, the slots, the releases and the failures are in order. -/
theorem handled_of_writes
    (h : ∀ buf size, .memset buf size ∈ (runLoop answers random t count).trace → buf ≠ 0) :
    Handled answers random t count := by
  have hkeeps := runLoop_keeps answers random t count
  constructor
  · exact h
  · exact hkeeps.indices
  · exact hkeeps.frees
  · intro buf hbuf
    have hreturned := returned_eq hbuf _ hkeeps.frees
    rw [hkeeps.in_use.eq_nil, List.count_nil, Nat.add_zero] at hreturned
    exact hreturned.symm
  · intro s hzero
    unfold allocate
    simp only [hzero]
    exact ⟨rfl, fun i hi => Function.update_of_ne (Nat.ne_of_lt hi) _ _⟩

/-- A loop that meets a failure writes through it. -/
theorem Handled.answers_ne (h : Handled answers random t count) {k : ℕ}
    (hk : k < t.num_cycle.toNat * count) : answers k ≠ 0 := by
  obtain ⟨size, hmem⟩ := (runLoop_writes (answers k)).2 ⟨k, hk, rfl⟩
  exact h.writes _ size hmem

end

/-- `RunLoop` handles every answer exactly when no allocation fails. -/
theorem RunLoop_handled_iff (answers : ℕ → ℤ) (random : ℕ → ℕ) (t : AllocTest) :
    Handled answers random t bufferCount ↔
      ∀ k, k < t.num_cycle.toNat * bufferCount → answers k ≠ 0 := by
  constructor
  · exact fun h k => h.answers_ne
  · intro h
    apply handled_of_writes
    rintro buf size hmem rfl
    obtain ⟨k, hk, hzero⟩ := (runLoop_writes 0).1 ⟨size, hmem⟩
    exact h k hk hzero

/-- The first allocation fails, and `memset` gets a null pointer. -/
theorem RunLoop_not_handled : ¬∀ (answers : ℕ → ℤ) (random : ℕ → ℕ) (t : AllocTest),
    Handled answers random t bufferCount := by
  intro hall
  have hhandled := hall (fun k => if k = 0 then 0 else k) (fun _ => 0) .new
  exact hhandled.answers_ne (k := 0) (by decide) rfl

end SatAllocatorTest.Ports.Benchmark
