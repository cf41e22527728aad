import Mathlib.Data.List.Chain
import Mathlib.Tactic.IntervalCases
import SatAllocatorTest.Ports.PageHeapCore
import SatAllocatorTest.Ports.SizeMap

/-!
# The table of size classes

The table `Init` computes depends on the number of objects to move, but only through the
least number of objects a span must have.  A larger least number changes nothing as long as
the span that was enough before still is (`spanSize_of_le`), so one run of the loop stands
for a whole range of numbers (`classesOn`), and thirty runs for all from 40 on.

Below 40 the loop finds fewer than `kNumClasses` classes, which `Init` takes for a crash;
from -4 down it asks for more objects than a span can have, and never ends.
-/

namespace SatAllocatorTest.Ports.TCmalloc.SizeMap

variable {flag lo hi : Int} {size fuel p q : Nat}

theorem numMoveSize_mono (h : lo ≤ hi) : numMoveSize lo size ≤ numMoveSize hi size := by
  unfold numMoveSize
  split
  · exact Int.le_refl _
  · simp only
    split <;> split <;> split <;> omega

/-- No size has more than 8192 objects moved at a time. -/
theorem numMoveSize_saturates (hsize : 8 ≤ size) (h : 8192 ≤ flag) :
    numMoveSize flag size = numMoveSize 8192 size := by
  have hdiv : 64 * 1024 / size ≤ 8192 := by
    calc 64 * 1024 / size ≤ 64 * 1024 / 8 := Nat.div_le_div_left hsize (by decide)
      _ = 8192 := rfl
  unfold numMoveSize
  split
  · rfl
  · simp only
    split <;> split <;> split <;> omega

/-- The quotient of C, which rounds towards zero. -/
theorem tdiv_four (h : -3 ≤ lo) : lo.tdiv 4 = (lo.toNat / 4 : Nat) := by
  rcases Int.lt_or_le lo 0 with hneg | hpos
  · interval_cases lo <;> decide
  · rw [Int.tdiv_eq_ediv_of_nonneg hpos]
    omega

theorem numMoveSize_ge (h : -3 ≤ lo) : -3 ≤ numMoveSize lo size := by
  unfold numMoveSize
  split
  · decide
  · simp only
    split <;> split <;> omega

theorem lengthOfInt_eq_toNat {e : Int} (h₀ : 0 ≤ e) (h : e < 2 ^ 64) :
    PageHeap.lengthOfInt e = e.toNat := by
  rw [PageHeap.lengthOfInt, Int.emod_eq_of_lt h₀ h]

theorem numMoveSize_le : numMoveSize flag size ≤ 64 * 1024 := by
  have hdiv : 64 * 1024 / size ≤ 64 * 1024 := Nat.div_le_self _ _
  unfold numMoveSize
  split
  · decide
  · simp only
    split <;> split <;> omega

theorem blocksToMove_mono (hlo : -3 ≤ lo) (h : lo ≤ hi) :
    blocksToMove lo size ≤ blocksToMove hi size := by
  have hmono : numMoveSize lo size ≤ numMoveSize hi size := numMoveSize_mono h
  have hge : -3 ≤ numMoveSize lo size := numMoveSize_ge hlo
  have hle : numMoveSize hi size ≤ 64 * 1024 := numMoveSize_le
  have hle' : numMoveSize lo size ≤ 64 * 1024 := numMoveSize_le
  unfold blocksToMove
  rw [tdiv_four hge, tdiv_four (Int.le_trans hge hmono),
    lengthOfInt_eq_toNat (Int.natCast_nonneg _) (by omega),
    lengthOfInt_eq_toNat (Int.natCast_nonneg _) (by omega), Int.toNat_natCast, Int.toNat_natCast]
  exact Nat.div_le_div_right (Int.toNat_le_toNat hmono)

/-! ## One run for a range -/

/-- A span that is long enough for more blocks is the one chosen for them too. -/
theorem spanSize_of_le {b b' : Nat} (hb : b ≤ b') :
    ∀ {fuel p : Nat}, spanSize size b fuel p = .ok q → b' ≤ q / size →
      spanSize size b' fuel p = .ok q := by
  intro fuel
  induction fuel with
  | zero => exact fun h => nomatch h
  | succ fuel ih =>
      intro p h hq
      rw [spanSize] at h ⊢
      cases hgrow : growSpan size fuel ((p + kPageSize) % 2 ^ 64) with
      | error e =>
          rw [hgrow] at h
          cases h
      | ok r =>
          rw [hgrow] at h
          simp only [PageHeap.ok_bind] at h ⊢
          by_cases hr : r / size < b
          · rw [if_pos hr] at h
            rw [if_pos (Nat.lt_of_lt_of_le hr hb)]
            exact ih h hq
          · rw [if_neg hr] at h
            cases h
            rw [if_neg (Nat.not_lt.2 hq)]
            rfl

/-- The loop for the smallest of a range of numbers, as long as it is the loop for the
largest one as well. -/
def classesOn (lo hi : Int) (fuel : Nat) :
    (turns : Nat) → (size : Nat) → List SizeClass → Option (List SizeClass)
  | 0, _, _ => none
  | turns + 1, size, classes =>
    if size ≤ kMaxSize then
      match alignmentForSize size, spanSize size (blocksToMove lo size) fuel 0 with
      | .ok alignment, .ok psize =>
        if size % alignment = 0 ∧ blocksToMove hi size ≤ psize / size then
          match addSize classes size (psize >>> kPageShift) with
          | .ok classes => classesOn lo hi fuel turns (size + alignment) classes
          | .error _ => none
        else none
      | _, _ => none
    else some classes

theorem classesOn_spec (hlo : -3 ≤ lo) (h : lo ≤ flag) (h' : ∀ {s}, 8 ≤ s →
      blocksToMove flag s ≤ blocksToMove hi s) :
    ∀ {turns size : Nat} {classes cs : List SizeClass}, 8 ≤ size →
      classesOn lo hi fuel turns size classes = some cs →
        classesFrom flag fuel turns size classes = .ok cs := by
  intro turns
  induction turns with
  | zero => exact fun _ hrun => nomatch hrun
  | succ turns ih =>
      intro size classes cs hsize hrun
      rw [classesOn] at hrun
      rw [classesFrom]
      by_cases hmax : size ≤ kMaxSize
      · rw [if_pos hmax] at hrun ⊢
        split at hrun
        · next alignment psize hal hspan =>
          split at hrun
          · next hcond =>
            have hspan' := spanSize_of_le (blocksToMove_mono hlo h) hspan
              (Nat.le_trans (h' hsize) hcond.2)
            rw [hal, PageHeap.ok_bind, checkCondition, if_pos hcond.1, PageHeap.ok_bind, hspan',
              PageHeap.ok_bind]
            split at hrun
            · next classes' hadd =>
              rw [hadd, PageHeap.ok_bind]
              exact ih (by omega) hrun
            · cases hrun
          · cases hrun
        · cases hrun
      · rw [if_neg hmax] at hrun ⊢
        cases hrun
        rfl

/-! ## The tables -/

/-- What `Init` and its callers rely on, for classes in the order of their sizes. -/
structure Proper (flag : Int) (classes : List SizeClass) : Prop where
  count : classes.length + 1 = kNumClasses
  sorted : classes.Pairwise fun a b => a.size < b.size
  last : classes.getLast?.map SizeClass.size = some kMaxSize
  pos : ∀ k ∈ classes, 0 < k.size
  aligned : ∀ k ∈ classes, k.size % kAlignment = 0
  large : ∀ k ∈ classes, kMaxSmallSize < k.size → k.size % 128 = 0
  sixteen : ∀ k ∈ classes, kMinAlign ≤ k.size → k.size % kMinAlign = 0
  fits : ∀ k ∈ classes, k.size ≤ k.pages <<< kPageShift
  leftover : ∀ k ∈ classes,
    (k.pages <<< kPageShift) % k.size ≤ (k.pages <<< kPageShift) >>> 3
  enough : ∀ k ∈ classes, blocksToMove flag k.size ≤ (k.pages <<< kPageShift) / k.size

/-- `Proper` on a table with the largest class in front. -/
def properTable (flag : Int) (classes : List SizeClass) : Bool :=
  decide (classes.length + 1 = kNumClasses) &&
    decide (classes.head?.map SizeClass.size = some kMaxSize) &&
    decide (classes.IsChain fun a b => b.size < a.size) &&
    classes.all fun k =>
      decide (0 < k.size ∧ k.size % kAlignment = 0 ∧
        (kMaxSmallSize < k.size → k.size % 128 = 0) ∧
        (kMinAlign ≤ k.size → k.size % kMinAlign = 0) ∧
        k.size ≤ k.pages <<< kPageShift ∧
        (k.pages <<< kPageShift) % k.size ≤ (k.pages <<< kPageShift) >>> 3 ∧
        blocksToMove flag k.size ≤ (k.pages <<< kPageShift) / k.size)

theorem proper_of_table {classes : List SizeClass} (h : properTable flag classes = true) :
    Proper flag classes.reverse := by
  unfold properTable at h
  simp only [Bool.and_eq_true, decide_eq_true_eq, List.all_eq_true] at h
  obtain ⟨⟨⟨hcount, hlast⟩, hchain⟩, hall⟩ := h
  have hsorted : classes.Pairwise fun a b => b.size < a.size :=
    haveI : Trans (fun a b : SizeClass => b.size < a.size) (fun a b : SizeClass => b.size < a.size)
        (fun a b : SizeClass => b.size < a.size) := ⟨fun hab hbc => Nat.lt_trans hbc hab⟩
    hchain.pairwise
  have hmem : ∀ k ∈ classes.reverse, k ∈ classes := fun k hk => List.mem_reverse.1 hk
  exact
    { count := by rw [List.length_reverse, hcount]
      sorted := List.pairwise_reverse.2 hsorted
      last := by rw [List.getLast?_reverse, hlast]
      pos := fun k hk => (hall k (hmem k hk)).1
      aligned := fun k hk => (hall k (hmem k hk)).2.1
      large := fun k hk => (hall k (hmem k hk)).2.2.1
      sixteen := fun k hk => (hall k (hmem k hk)).2.2.2.1
      fits := fun k hk => (hall k (hmem k hk)).2.2.2.2.1
      leftover := fun k hk => (hall k (hmem k hk)).2.2.2.2.2.1
      enough := fun k hk => (hall k (hmem k hk)).2.2.2.2.2.2 }

theorem Proper.mono {classes : List SizeClass} (P : Proper hi classes)
    (h : ∀ {s}, 8 ≤ s → blocksToMove flag s ≤ blocksToMove hi s) : Proper flag classes :=
  { P with
    enough := by
      intro k hk
      have hpos := P.pos k hk
      have hal := P.aligned k hk
      simp only [kAlignment] at hal
      exact Nat.le_trans (h (by omega)) (P.enough k hk) }

/-- Enough turns for every loop of `Init`. -/
def initFuel : Nat := 40000

/-- The ranges of numbers with one table, each with 88 classes. -/
def goodRanges : List (Int × Int) :=
  [(40, 43), (44, 47), (48, 51), (52, 59), (60, 67), (68, 71), (72, 75), (76, 79), (80, 87),
    (88, 95), (96, 103), (104, 115), (116, 131), (132, 139), (140, 147), (148, 159), (160, 171),
    (172, 187), (188, 207), (208, 227), (228, 259), (260, 295), (296, 343), (344, 411),
    (412, 515), (516, 683), (684, 1027), (1028, 2051), (2052, 4099), (4100, 8192)]

/-- The ranges whose tables have fewer. -/
def shortRanges : List (Int × Int) :=
  [(-3, 7), (8, 11), (12, 15), (16, 19), (20, 23), (24, 27), (28, 31), (32, 35), (36, 39)]

theorem goodRanges_proper : ∀ r ∈ goodRanges,
    ((classesOn r.1 r.2 initFuel initFuel kAlignment []).any (properTable r.2)) = true := by
  decide +kernel

theorem shortRanges_short : ∀ r ∈ shortRanges,
    ((classesOn r.1 r.2 initFuel initFuel kAlignment []).any
      fun classes => classes.length + 1 < kNumClasses) = true := by
  decide +kernel

/-- The ranges follow each other without a gap from `lo` to `hi`. -/
def covers : (lo : Int) → List (Int × Int) → (hi : Int) → Bool
  | lo, [], hi => decide (hi < lo)
  | lo, r :: rs, hi => decide (r.1 ≤ lo) && covers (r.2 + 1) rs hi

theorem exists_range : ∀ {rs : List (Int × Int)} {lo : Int}, covers lo rs hi = true →
    lo ≤ flag → flag ≤ hi → ∃ r ∈ rs, r.1 ≤ flag ∧ flag ≤ r.2 := by
  intro rs
  induction rs with
  | nil =>
      intro lo hcov h h'
      have hempty : hi < lo := by simpa [covers] using hcov
      omega
  | cons r rs ih =>
      intro lo hcov h h'
      rw [covers, Bool.and_eq_true, decide_eq_true_eq] at hcov
      by_cases hin : flag ≤ r.2
      · exact ⟨r, List.mem_cons_self, Int.le_trans hcov.1 h, hin⟩
      · obtain ⟨r', hr', hr⟩ := ih hcov.2 (by omega) h'
        exact ⟨r', List.mem_cons_of_mem _ hr', hr⟩

theorem goodRanges_cover : covers 40 goodRanges 8192 = true := by decide

theorem shortRanges_cover : covers (-3) shortRanges 39 = true := by decide

theorem goodRanges_ge : ∀ r ∈ goodRanges, (-3 : Int) ≤ r.1 := by decide

theorem shortRanges_ge : ∀ r ∈ shortRanges, (-3 : Int) ≤ r.1 := by decide

/-- From 40 on the loop finds a proper table. -/
theorem classes_proper (h : 40 ≤ flag) :
    ∃ classes, classesFrom flag initFuel initFuel kAlignment [] = .ok classes ∧
      Proper flag classes.reverse := by
  -- A number above 8192 does what 8192 does.
  obtain ⟨r, hr, hlo, hhi⟩ : ∃ r ∈ goodRanges, r.1 ≤ flag ∧ (flag ≤ r.2 ∨ 8192 ≤ flag ∧
      r.2 = 8192) := by
    rcases Int.le_total flag 8192 with hle | hge
    · obtain ⟨r, hr, hlo, hhi⟩ := exists_range goodRanges_cover h hle
      exact ⟨r, hr, hlo, Or.inl hhi⟩
    · exact ⟨(4100, 8192), by decide, by simp only; omega, Or.inr ⟨hge, rfl⟩⟩
  have hblocks : ∀ {s}, 8 ≤ s → blocksToMove flag s ≤ blocksToMove r.2 s := by
    intro s hs
    rcases hhi with hhi | ⟨hge, hmax⟩
    · exact blocksToMove_mono (by omega) hhi
    · unfold blocksToMove
      rw [numMoveSize_saturates hs hge, hmax]
  have hproper := goodRanges_proper r hr
  rw [Option.any_eq_true] at hproper
  obtain ⟨classes, hrun, htable⟩ := hproper
  exact ⟨classes, classesOn_spec (goodRanges_ge r hr) hlo hblocks (by decide) hrun,
    (proper_of_table htable).mono hblocks⟩

/-- Below 40 it finds too few classes. -/
theorem classes_short (h : -3 ≤ flag) (h' : flag < 40) :
    ∃ classes, classesFrom flag initFuel initFuel kAlignment [] = .ok classes ∧
      classes.length + 1 < kNumClasses := by
  obtain ⟨r, hr, hlo, hhi⟩ := exists_range shortRanges_cover h (Int.le_of_lt_add_one h')
  have hshort := shortRanges_short r hr
  rw [Option.any_eq_true] at hshort
  obtain ⟨classes, hrun, hlength⟩ := hshort
  refine ⟨classes, classesOn_spec (shortRanges_ge r hr) hlo (fun hs => ?_) (by decide) hrun,
    by simpa using hlength⟩
  exact blocksToMove_mono h hhi

end SatAllocatorTest.Ports.TCmalloc.SizeMap
