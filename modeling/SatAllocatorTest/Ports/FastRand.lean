import SatAllocatorTest.Ports.AllocTest
import SatAllocatorTest.Verified.Congruential

/-!
# The sizes of the benchmark

`fastrand` of `test_alloc.h`, a congruential generator on 32 bits whose draws are 15 bits of
its state, and the sizes `RunLoop` asks for with it.

The generator has full period, so every state comes up.  But there are only `2 ^ 15` draws,
and a size is `sizeMin` and a draw, reduced to the range.  So the sizes span exactly the
ranges that are no longer than that.

Main result: `spans_iff`.
-/

namespace SatAllocatorTest.Ports.Benchmark

open SatAllocatorTest.Verified.Congruential

/-! ## The generator -/

/-- `g_seed = (214013 * g_seed + 2531011)`, which wraps. -/
def nextSeed (g_seed : BitVec 32) : BitVec 32 := 214013 * g_seed + 2531011

/-- `(g_seed >> 16) & 0x7FFF`; the shift carries the sign. -/
def drawOf (g_seed : BitVec 32) : BitVec 32 := g_seed.sshiftRight 16 &&& 0x7FFF

/-- `fastrand()`: the draw, and the state it leaves. -/
def fastrand (g_seed : BitVec 32) : ℕ × BitVec 32 :=
  ((drawOf (nextSeed g_seed)).toNat, nextSeed g_seed)

/-- The state after `n` draws from the initial seed. -/
def seedAt (n : ℕ) : BitVec 32 := (fun g_seed => (fastrand g_seed).2)^[n] 0

/-- What the generator draws from then on. -/
def drawsFrom (first : ℕ) : ℕ → ℕ := fun k => (fastrand (seedAt (first + k))).1

theorem nextSeed_toNat (g_seed : BitVec 32) :
    (nextSeed g_seed).toNat = next 214013 2531011 (2 ^ 32) g_seed.toNat := by
  rw [nextSeed, BitVec.toNat_add, BitVec.toNat_mul, next, Nat.mod_add_mod]
  rfl

theorem seedAt_toNat (n : ℕ) :
    (seedAt n).toNat = (next 214013 2531011 (2 ^ 32))^[n] 0 := by
  induction n with
  | zero => rfl
  | succ n ih =>
      have hstep : seedAt (n + 1) = nextSeed (seedAt n) := Function.iterate_succ_apply' _ _ _
      rw [hstep, nextSeed_toNat, ih, Function.iterate_succ_apply']

/-- A draw has 15 bits. -/
theorem drawOf_lt (g_seed : BitVec 32) : (drawOf g_seed).toNat < 2 ^ 15 := by
  have hmask : (drawOf g_seed).toNat ≤ 0x7FFF := by
    rw [drawOf, BitVec.toNat_and]
    exact Nat.and_le_right
  omega

/-- The draw from a state whose upper half is `draw`. -/
theorem drawOf_of_upper {g_seed : BitVec 32} {draw : ℕ} (hdraw : draw < 2 ^ 15)
    (h : g_seed.toNat = draw * 2 ^ 16) : (drawOf g_seed).toNat = draw := by
  have hmsb : g_seed.msb = false := by
    rw [BitVec.msb_eq_decide, h]
    apply decide_eq_false
    omega
  rw [drawOf, BitVec.toNat_and, BitVec.toNat_sshiftRight_of_msb_false hmsb, h,
    Nat.shiftRight_eq_div_pow, Nat.mul_div_cancel _ (Nat.two_pow_pos 16)]
  have hmask : (0x7FFF : BitVec 32).toNat = 2 ^ 15 - 1 := rfl
  rw [hmask, Nat.and_two_pow_sub_one_eq_mod, Nat.mod_eq_of_lt hdraw]

/-- Every 15 bits are drawn. -/
theorem exists_draw {draw : ℕ} (hdraw : draw < 2 ^ 15) : ∃ n, (fastrand (seedAt n)).1 = draw := by
  obtain ⟨n, hn, hstate⟩ := exists_iterate_next (a := 214013) (c := 2531011) (k := 32) rfl rfl 1
    (show draw * 2 ^ 16 < 2 ^ 32 by omega)
  obtain ⟨n, rfl⟩ := Nat.exists_eq_add_of_le' hn
  rw [← seedAt_toNat] at hstate
  have hstep : seedAt (n + 1) = nextSeed (seedAt n) := Function.iterate_succ_apply' _ _ _
  rw [hstep] at hstate
  exact ⟨n, drawOf_of_upper hdraw hstate⟩

/-! ## The sizes -/

variable {t : AllocTest}

/-- The sizes are in the range, and span it. -/
structure Spans (t : AllocTest) : Prop where
  inside : ∀ (answers : ℕ → ℤ) (first : ℕ) (size answer : ℤ),
    .alloc size answer ∈ (RunLoop answers (drawsFrom first) t).trace →
    t.sizeMin ≤ size ∧ size < t.sizeMax
  reached : ∀ size, t.sizeMin ≤ size → size < t.sizeMax →
    ∃ n, t.requestedSize (fastrand (seedAt n)).1 = size

theorem requestedSize_eq (hlt : t.sizeMin < t.sizeMax) (draw : ℕ) :
    t.requestedSize draw = t.sizeMin + draw % (t.sizeMax - t.sizeMin) := by
  have hdelta : t.sizeDelta = t.sizeMax - t.sizeMin := if_neg (by omega)
  rw [AllocTest.requestedSize, hdelta, Int.tmod_eq_emod_of_nonneg (Int.natCast_nonneg draw)]

theorem requestedSize_inside (hlt : t.sizeMin < t.sizeMax) (draw : ℕ) :
    t.sizeMin ≤ t.requestedSize draw ∧ t.requestedSize draw < t.sizeMax := by
  rw [requestedSize_eq hlt]
  have hpos : 0 < t.sizeMax - t.sizeMin := by omega
  have hlow := Int.emod_nonneg (draw : ℤ) hpos.ne'
  have hhigh := Int.emod_lt_of_pos (draw : ℤ) hpos
  omega

/-- Every size of a trace is asked for with a draw. -/
def Drawn (t : AllocTest) (trace : List Act) : Prop :=
  ∀ size answer, .alloc size answer ∈ trace → ∃ draw, size = t.requestedSize draw

theorem drawn_append {trace acts : List Act} (h : Drawn t trace) (hacts : Drawn t acts) :
    Drawn t (trace ++ acts) := by
  intro size answer hmem
  rcases List.mem_append.1 hmem with hmem | hmem
  · exact h size answer hmem
  · exact hacts size answer hmem

section

variable {answers : ℕ → ℤ} {random : ℕ → ℕ}

theorem drawn_allocate {s : Loop} (h : Drawn t s.trace) :
    Drawn t (allocate answers random t s).trace := by
  refine drawn_append (drawn_append h ?_) ?_
  · intro size answer hmem
    simp only [List.mem_cons, reduceCtorEq, Act.alloc.injEq, List.not_mem_nil, or_false,
      false_or] at hmem
    exact ⟨_, hmem.1⟩
  · intro size answer hmem
    split at hmem
    · cases hmem
    · simp at hmem

theorem drawn_release {s : Loop} (h : Drawn t s.trace) : Drawn t (release random s).trace := by
  unfold release
  split
  · exact h
  · refine drawn_append h fun size answer hmem => ?_
    simp at hmem

theorem drawn_turn {s : Loop} (h : Drawn t s.trace) :
    Drawn t (turn answers random t s).trace := by
  have halloc : Drawn t (allocate answers random t s).trace := drawn_allocate h
  unfold turn maybeRelease
  split
  · exact halloc
  · simp only
    split
    · exact drawn_release halloc
    · exact halloc

theorem drawn_purgeFrom (buffers : ℕ → Option ℤ) : ∀ rest i : ℕ,
    Drawn t (purgeFrom buffers i rest) := by
  intro rest
  induction rest with
  | zero => exact fun i size answer hmem => absurd hmem List.not_mem_nil
  | succ rest ih =>
      intro i size answer hmem
      rw [purgeFrom] at hmem
      simp only [List.mem_cons, reduceCtorEq, false_or] at hmem
      exact ih (i + 1) size answer hmem

theorem drawn_runLoop (count : ℕ) : Drawn t (runLoop answers random t count).trace :=
  runLoop_invariant (I := fun s => Drawn t s.trace)
    (fun _ _ hmem => absurd hmem List.not_mem_nil) (fun _ h => drawn_turn h)
    fun _ h => drawn_append h (drawn_purgeFrom _ _ _)

end

/-- The range has no more sizes than there are draws. -/
theorem Spans.length_le (hlt : t.sizeMin < t.sizeMax) (h : Spans t) :
    t.sizeMax - t.sizeMin ≤ 2 ^ 15 := by
  by_contra hlong
  obtain ⟨n, hn⟩ := h.reached (t.sizeMin + 2 ^ 15) (by omega) (by omega)
  rw [requestedSize_eq hlt] at hn
  have hdraw : (fastrand (seedAt n)).1 < 2 ^ 15 := drawOf_lt _
  rw [Int.emod_eq_of_lt (Int.natCast_nonneg _) (by omega)] at hn
  omega

/-- The sizes span their range exactly when it is no longer than `2 ^ 15`. -/
theorem spans_iff (t : AllocTest) (hlt : t.sizeMin < t.sizeMax) :
    Spans t ↔ t.sizeMax - t.sizeMin ≤ 2 ^ 15 := by
  constructor
  · exact Spans.length_le hlt
  · intro hlen
    constructor
    · intro answers first size answer hmem
      obtain ⟨draw, rfl⟩ := drawn_runLoop bufferCount size answer hmem
      exact requestedSize_inside hlt draw
    · intro size hlow hhigh
      have hcast : ((size - t.sizeMin).toNat : ℤ) = size - t.sizeMin :=
        Int.toNat_of_nonneg (by omega)
      have hdraw : (size - t.sizeMin).toNat < 2 ^ 15 := by omega
      obtain ⟨n, hn⟩ := exists_draw hdraw
      refine ⟨n, ?_⟩
      rw [hn, requestedSize_eq hlt, hcast, Int.emod_eq_of_lt (by omega) (by omega)]
      omega

/-- The sizes from 1 to 3. -/
theorem spans_three : Spans ⟨1, 4, 3, 4⟩ :=
  (spans_iff ⟨1, 4, 3, 4⟩ (by decide)).2 (by decide)

/-- No size from 32769 on is ever asked for where the default range ends at 65536. -/
theorem not_spans_default : ¬∀ t : AllocTest, 0 < t.sizeMin → t.sizeMin < t.sizeMax → Spans t := by
  intro hall
  have hspans := hall .new (by decide) (by decide)
  have hlen := hspans.length_le (by decide)
  revert hlen
  decide

/-! ## The sizes in a trace -/

section

variable {answers : ℕ → ℤ} {random : ℕ → ℕ} {act : Act}

theorem mem_release {s : Loop} (h : act ∈ s.trace) : act ∈ (release random s).trace := by
  unfold release
  split
  · exact h
  · exact List.mem_append_left _ h

theorem mem_turn {s : Loop} (h : act ∈ (allocate answers random t s).trace) :
    act ∈ (turn answers random t s).trace := by
  unfold turn maybeRelease
  split
  · exact h
  · simp only
    split
    · exact mem_release h
    · exact h

/-- The first buffer is asked for with the first draw. -/
theorem runLoop_first (answers : ℕ → ℤ) (random : ℕ → ℕ) {count : ℕ} (hcount : 0 < count)
    (hcycle : 0 < t.num_cycle) :
    ∃ answer, .alloc (t.requestedSize (random 0)) answer ∈
      (runLoop answers random t count).trace := by
  have hall : ((runLoop answers random t count).allocs = 0 ∧
        (runLoop answers random t count).draws = 0) ∨
      ∃ answer, .alloc (t.requestedSize (random 0)) answer ∈
        (runLoop answers random t count).trace := by
    apply runLoop_invariant (I := fun s => (s.allocs = 0 ∧ s.draws = 0) ∨
      ∃ answer, .alloc (t.requestedSize (random 0)) answer ∈ s.trace)
    · exact Or.inl ⟨rfl, rfl⟩
    · rintro s (⟨-, hdraws⟩ | ⟨answer, hmem⟩)
      · refine Or.inr ⟨answers s.allocs, mem_turn ?_⟩
        unfold allocate
        rw [hdraws]
        simp
      · refine Or.inr ⟨answer, mem_turn ?_⟩
        exact List.mem_append_left _ (List.mem_append_left _ hmem)
    · rintro s (hnone | ⟨answer, hmem⟩)
      · exact Or.inl hnone
      · exact Or.inr ⟨answer, List.mem_append_left _ hmem⟩
  refine hall.resolve_left ?_
  rintro ⟨hallocs, -⟩
  rw [runLoop_allocs] at hallocs
  have hpos : 0 < t.num_cycle.toNat * count := Nat.mul_pos (by omega) hcount
  omega

end

/-- Where the sizes span their range, each of them is asked for in a run of `RunLoop` from
some state of the generator on. -/
theorem Spans.allocated (h : Spans t) (hcycle : 0 < t.num_cycle) (answers : ℕ → ℤ) {size : ℤ}
    (hlow : t.sizeMin ≤ size) (hhigh : size < t.sizeMax) :
    ∃ first answer, .alloc size answer ∈ (RunLoop answers (drawsFrom first) t).trace := by
  obtain ⟨n, rfl⟩ := h.reached size hlow hhigh
  exact ⟨n, runLoop_first answers (drawsFrom n) (show 0 < 500000 by decide) hcycle⟩

end SatAllocatorTest.Ports.Benchmark
