import SatAllocatorTest.Ports.SizeMapClasses
import SatAllocatorTest.Verified.Loops

/-!
# `SizeMap::Init`

`class_array_` has one entry for several sizes, all up to `top i`, and the sizes of the
classes are such tops themselves.  So the last class that is written to an entry is the
least one that holds all its sizes, and `SizeClass` finds the least class of a size.

`Init` returns when `TCMALLOC_TRANSFER_NUM_OBJ` is not set or is at least 40.
-/

namespace SatAllocatorTest.Ports.TCmalloc.SizeMap

open SatAllocatorTest.Verified.Loops
open PageHeap (ok_bind pure_eq_ok assert_pos)

variable {s i k c fuel : Nat}

/-- The largest size with entry `i`. -/
def top (i : Nat) : Nat := if i ≤ 128 then 8 * i else 128 * (i - 120)

theorem indexOf_small (h : s ≤ 1024) : indexOf s = (s + 7) / 8 := by
  rw [indexOf, if_pos (by simpa [kMaxSmallSize] using h), smallSizeClass,
    Nat.mod_eq_of_lt (by omega), Nat.shiftRight_eq_div_pow]

theorem indexOf_large (h : 1024 < s) (hmax : s ≤ 262144) : indexOf s = (s + 15487) / 128 := by
  rw [indexOf, if_neg (by simpa [kMaxSmallSize] using h), largeSizeClass,
    Nat.mod_eq_of_lt (by omega), Nat.shiftRight_eq_div_pow, Nat.add_assoc]
  rfl

theorem kMaxSize_eq : kMaxSize = 262144 := rfl

theorem kClassArraySize_eq : kClassArraySize = 2169 := rfl

theorem indexOf_lt (h : s ≤ kMaxSize) : indexOf s < kClassArraySize := by
  rw [kMaxSize_eq] at h
  rw [kClassArraySize_eq]
  rcases Nat.lt_or_ge 1024 s with hlarge | hsmall
  · rw [indexOf_large hlarge h]
    omega
  · rw [indexOf_small hsmall]
    omega

theorem top_small (h : i ≤ 128) : top i = 8 * i := if_pos h

theorem top_large (h : 128 < i) : top i = 128 * (i - 120) := if_neg (Nat.not_le.2 h)

theorem le_top (h : s ≤ kMaxSize) : s ≤ top (indexOf s) := by
  rw [kMaxSize_eq] at h
  rcases Nat.lt_or_ge 1024 s with hlarge | hsmall
  · rw [indexOf_large hlarge h, top_large (by omega)]
    omega
  · rw [indexOf_small hsmall, top_small (by omega)]
    omega

theorem top_le_kMaxSize (h : i < kClassArraySize) : top i ≤ kMaxSize := by
  rw [kClassArraySize_eq] at h
  rw [kMaxSize_eq]
  unfold top
  split <;> omega

theorem top_aligned : top i % 8 = 0 := by
  unfold top
  split <;> omega

theorem indexOf_top (h : i < kClassArraySize) : indexOf (top i) = i := by
  have hmax := top_le_kMaxSize h
  rw [kMaxSize_eq] at hmax
  rcases Nat.lt_or_ge 128 i with hi | hi
  · have htop := top_large hi
    rw [indexOf_large (by omega) hmax]
    omega
  · have htop := top_small hi
    rw [indexOf_small (by omega)]
    omega

/-- A class holds all sizes of an entry or none. -/
theorem top_le (hk : k ≤ kMaxSize) (hal : k % kAlignment = 0)
    (hlarge : kMaxSmallSize < k → k % 128 = 0) (h : s ≤ k) : top (indexOf s) ≤ k := by
  rw [kMaxSize_eq] at hk
  simp only [kAlignment, kMaxSmallSize] at hal hlarge
  rcases Nat.lt_or_ge 1024 s with hs | hs
  · have hmod := hlarge (by omega)
    rw [indexOf_large hs (by omega), top_large (by omega)]
    omega
  · rw [indexOf_small hs, top_small (by omega)]
    omega

/-! ## Filling the array -/

theorem classIndex_ok (h : s ≤ kMaxSize) : classIndex s = .ok (indexOf s) := by
  rw [classIndex, assert_pos h]
  rfl

theorem writeClass_ok (h : i < kClassArraySize) (hc : c < 256) (a : Nat → Nat) :
    writeClass a i c = .ok (Function.update a i c) := by
  rw [writeClass, if_pos h, Nat.mod_eq_of_lt hc]

/-- The loop of one class writes the entries whose tops are between the class before and
this one. -/
theorem fillClass_ok (hc : c < 256) (hk : k ≤ kMaxSize) (hal : k % kAlignment = 0)
    (hlarge : kMaxSmallSize < k → k % 128 = 0) :
    ∀ (fuel s : Nat) (a : Nat → Nat), s % 8 = 0 → s ≤ k + 8 → (k + 8 - s) / 8 < fuel →
      ∃ a', fillClass c k fuel s a = .ok a' ∧ ∀ i < kClassArraySize,
        a' i = if s ≤ top i ∧ top i ≤ k then c else a i := by
  have hk8 : k % 8 = 0 := hal
  intro fuel
  induction fuel with
  | zero => exact fun _ _ _ _ hfuel => absurd hfuel (Nat.not_lt_zero _)
  | succ fuel ih =>
      intro s a hs hle hfuel
      rw [fillClass]
      by_cases hgo : s ≤ k
      · have hmax : s ≤ kMaxSize := Nat.le_trans hgo hk
        have hlt := indexOf_lt hmax
        obtain ⟨a', hrun, ha'⟩ := ih (s + 8) (Function.update a (indexOf s) c)
          (by omega) (by omega) (by omega)
        refine ⟨a', ?_, ?_⟩
        · rw [if_pos hgo, classIndex_ok hmax, ok_bind, writeClass_ok hlt hc, ok_bind]
          exact hrun
        · intro i hi
          have htop := top_aligned (i := i)
          rw [ha' i hi]
          by_cases his : i = indexOf s
          · subst his
            have hin : s ≤ top (indexOf s) ∧ top (indexOf s) ≤ k :=
              ⟨le_top hmax, top_le hk hal hlarge hgo⟩
            rw [Function.update_self, ite_self, if_pos hin]
          · -- An entry whose top is `s` itself is the entry of `s`.
            have hne : top i ≠ s := fun heq => his (by rw [← heq, indexOf_top hi])
            rw [Function.update_of_ne his]
            by_cases hin : s ≤ top i ∧ top i ≤ k
            · rw [if_pos hin, if_pos (by omega)]
            · rw [if_neg hin, if_neg (by omega)]
      · refine ⟨a, by rw [if_neg hgo], ?_⟩
        intro i _
        rw [if_neg (by omega)]

/-- The class of a size: the first one that holds it. -/
def classOf (classes : List SizeClass) (s : Nat) : Nat :=
  classes.findIdx fun k => decide (s ≤ k.size)

theorem classOf_cons (k : SizeClass) (rest : List SizeClass) (s : Nat) :
    classOf (k :: rest) s = if s ≤ k.size then 0 else classOf rest s + 1 := by
  unfold classOf
  rw [List.findIdx_cons]
  by_cases h : s ≤ k.size
  · simp [h]
  · simp [h]

theorem classOf_congr {classes : List SizeClass} {s t : Nat}
    (h : ∀ k ∈ classes, s ≤ k.size ↔ t ≤ k.size) : classOf classes s = classOf classes t := by
  induction classes with
  | nil => rfl
  | cons k rest ih =>
      rw [classOf_cons, classOf_cons, ih fun j hj => h j (List.mem_cons_of_mem _ hj)]
      exact if_congr (h k List.mem_cons_self) rfl rfl

theorem fillClasses_ok {classes : List SizeClass}
    (hsorted : classes.Pairwise fun a b => a.size < b.size)
    (hsize : ∀ k ∈ classes, k.size ≤ kMaxSize) (hal : ∀ k ∈ classes, k.size % kAlignment = 0)
    (hlarge : ∀ k ∈ classes, kMaxSmallSize < k.size → k.size % 128 = 0) (fuel : Nat)
    (hfuel : 32769 < fuel) :
    ∀ (c next : Nat) (a : Nat → Nat), c + classes.length ≤ 256 → next % 8 = 0 →
      (∀ k ∈ classes, next ≤ k.size) →
      ∃ a', fillClasses fuel c classes next a = .ok a' ∧ ∀ i < kClassArraySize,
        (top i < next → a' i = a i) ∧
        (next ≤ top i → (∃ k ∈ classes, top i ≤ k.size) → a' i = c + classOf classes (top i)) := by
  induction classes with
  | nil =>
      intro c next a _ _ _
      exact ⟨a, rfl, fun i _ => ⟨fun _ => rfl, fun _ h => absurd h (by simp)⟩⟩
  | cons k rest ih =>
      intro c next a hc hnext hle
      rw [List.pairwise_cons] at hsorted
      rw [List.length_cons] at hc
      have hk := List.mem_cons_self (a := k) (l := rest)
      have hkmax := hsize k hk
      have hkal : k.size % 8 = 0 := hal k hk
      rw [kMaxSize_eq] at hkmax
      obtain ⟨a₁, hrun₁, ha₁⟩ := fillClass_ok (c := c) (by omega) (hsize k hk) (hal k hk)
        (hlarge k hk) fuel next a hnext (Nat.le_add_right_of_le (hle k hk)) (by omega)
      have hnext' : ∀ j ∈ rest, k.size + 8 ≤ j.size := by
        intro j hj
        have hlt := hsorted.1 j hj
        have hjal : j.size % 8 = 0 := hal j (List.mem_cons_of_mem _ hj)
        omega
      obtain ⟨a₂, hrun₂, ha₂⟩ := ih hsorted.2 (fun j hj => hsize j (List.mem_cons_of_mem _ hj))
        (fun j hj => hal j (List.mem_cons_of_mem _ hj))
        (fun j hj => hlarge j (List.mem_cons_of_mem _ hj)) (c + 1) (k.size + 8) a₁ (by omega) (by omega) hnext'
      refine ⟨a₂, by rw [fillClasses, hrun₁, ok_bind]; exact hrun₂, ?_⟩
      intro i hi
      have htop := top_aligned (i := i)
      have hfirst := ha₁ i hi
      obtain ⟨hbefore, hafter⟩ := ha₂ i hi
      constructor
      · intro hlt
        have hkle := hle k hk
        rw [hbefore (by omega), hfirst, if_neg (by omega)]
      · intro hge hex
        rw [classOf_cons]
        by_cases hin : top i ≤ k.size
        · rw [hbefore (by omega), hfirst, if_pos ⟨hge, hin⟩, if_pos hin]
          rfl
        · have hrest : ∃ j ∈ rest, top i ≤ j.size := by
            obtain ⟨j, hj, hjle⟩ := hex
            rcases List.mem_cons.1 hj with rfl | hj
            · exact absurd hjle hin
            · exact ⟨j, hj, hjle⟩
          rw [hafter (by omega) hrest, if_neg hin]
          omega

/-! ## Looking up a class -/

/-- `c` is the class of `size`, and the least one that holds it. -/
structure LeastClass (m : SizeMap) (size c : Nat) : Prop where
  lookup : sizeClass m size = .ok c
  pos : 0 < c
  lt : c < kNumClasses
  fits : size ≤ m.classToSize c
  least : ∀ c', 0 < c' → c' < c → m.classToSize c' < size

/-- What `Init` leaves. -/
structure Ready (m : SizeMap) : Prop where
  proper : Proper m.flag m.classes
  flag : 40 ≤ m.flag
  filled : ∀ i < kClassArraySize, m.classArray i = 1 + classOf m.classes (top i)

variable {m : SizeMap} {size : Nat}

theorem Proper.le_max {flag : Int} {classes : List SizeClass} (P : Proper flag classes)
    {k : SizeClass} (hk : k ∈ classes) : k.size ≤ kMaxSize := by
  have hlast := P.last
  rw [Option.map_eq_some_iff] at hlast
  obtain ⟨last, hget, hsize⟩ := hlast
  have hne := List.ne_nil_of_mem hk
  have hgetLast : classes.getLast hne = last := by
    rw [List.getLast?_eq_getLast_of_ne_nil hne] at hget
    exact Option.some.inj hget
  have hsplit := List.dropLast_append_getLast hne
  have hsorted := P.sorted
  rw [← hsplit] at hk hsorted
  rw [List.mem_append, List.mem_singleton] at hk
  rcases hk with hk | rfl
  · have hlt := (List.pairwise_append.1 hsorted).2.2 k hk _ (List.mem_singleton_self _)
    rw [hgetLast, hsize] at hlt
    exact Nat.le_of_lt hlt
  · rw [hgetLast, hsize]

theorem Proper.holds {flag : Int} {classes : List SizeClass} (P : Proper flag classes)
    (h : size ≤ kMaxSize) : ∃ k ∈ classes, size ≤ k.size := by
  have hlast := P.last
  rw [Option.map_eq_some_iff] at hlast
  obtain ⟨last, hget, hsize⟩ := hlast
  exact ⟨last, List.mem_of_getLast? hget, by rw [hsize]; exact h⟩

theorem classToSize_succ {j : Nat} (h : j < m.classes.length) :
    m.classToSize (j + 1) = m.classes[j].size := by
  simp [classToSize, h]

theorem Ready.leastClass (R : Ready m) (h : size ≤ kMaxSize) :
    LeastClass m size (1 + classOf m.classes size) := by
  have P := R.proper
  have hcount : m.classes.length = 87 := Nat.succ.inj P.count
  have hlt : classOf m.classes size < m.classes.length := by
    apply List.findIdx_lt_length_of_exists
    simpa using P.holds h
  -- A class holds `size` when it holds all sizes of its entry.
  have hsame : classOf m.classes (top (indexOf size)) = classOf m.classes size := by
    apply classOf_congr
    intro k hk
    exact ⟨Nat.le_trans (le_top h), top_le (P.le_max hk) (P.aligned k hk) (P.large k hk)⟩
  have hget := List.findIdx_getElem (w := hlt)
  rw [decide_eq_true_eq] at hget
  refine ⟨?_, by omega, ?_, ?_, ?_⟩
  · rw [sizeClass, classIndex_ok h, ok_bind, R.filled _ (indexOf_lt h), hsame]
    rfl
  · show 1 + classOf m.classes size < 88
    omega
  · rw [Nat.add_comm, classToSize_succ hlt]
    exact hget
  · intro c' hpos hc'
    obtain ⟨j, rfl⟩ : ∃ j, c' = j + 1 := ⟨c' - 1, by omega⟩
    have hj : j < classOf m.classes size := by omega
    have hnot := List.not_of_lt_findIdx hj
    rw [classToSize_succ (by omega)]
    simpa using hnot

theorem Ready.checkSizes_ok (R : Ready m) :
    ∀ (fuel size : Nat), (kMaxSize + 8 - size) / 8 < fuel →
      checkSizes m fuel size = .ok () := by
  intro fuel
  induction fuel with
  | zero => exact fun _ hfuel => absurd hfuel (Nat.not_lt_zero _)
  | succ fuel ih =>
      intro size hfuel
      rw [checkSizes]
      by_cases hgo : size ≤ kMaxSize
      · have L := R.leastClass hgo
        have hpositive : m.classToSize (1 + classOf m.classes size) ≠ 0 := by
          have hlt : classOf m.classes size < m.classes.length := by
            have hlt := L.lt
            rw [← R.proper.count] at hlt
            omega
          rw [Nat.add_comm, classToSize_succ hlt]
          exact Nat.pos_iff_ne_zero.1 (R.proper.pos _ (List.getElem_mem hlt))
        have hleast : ¬ (1 < 1 + classOf m.classes size ∧
            size ≤ m.classToSize (1 + classOf m.classes size - 1)) := by
          intro hand
          have hlt := L.least _ (by omega) (Nat.sub_lt (by omega) Nat.one_pos)
          omega
        rw [if_pos hgo, L.lookup, ok_bind, checkCondition, if_pos ⟨L.pos, L.lt⟩, ok_bind,
          checkCondition, if_pos hleast, ok_bind, checkCondition, if_pos ⟨L.fits, hpositive⟩,
          ok_bind]
        rw [kMaxSize_eq] at hfuel hgo
        apply ih
        rw [kMaxSize_eq]
        split <;> omega
      · rw [if_neg hgo]

/-! ## More fuel -/

theorem growSpan_sooner {fuel more : Nat} (h : fuel ≤ more) (p : Nat) :
    Sooner Fault.outOfFuel (growSpan size fuel p) (growSpan size more p) := by
  induction fuel generalizing more p with
  | zero => exact Sooner.ranOut _
  | succ fuel ih =>
      obtain ⟨more, rfl⟩ : ∃ n, more = n + 1 := ⟨more - 1, by omega⟩
      rw [growSpan, growSpan]
      exact (ih (by omega) _).ite (Sooner.refl _)

theorem spanSize_sooner {b fuel more : Nat} (h : fuel ≤ more) (p : Nat) :
    Sooner Fault.outOfFuel (spanSize size b fuel p) (spanSize size b more p) := by
  induction fuel generalizing more p with
  | zero => exact Sooner.ranOut _
  | succ fuel ih =>
      obtain ⟨more, rfl⟩ : ∃ n, more = n + 1 := ⟨more - 1, by omega⟩
      rw [spanSize, spanSize]
      exact (growSpan_sooner (by omega) _).bind fun q => (ih (by omega) q).ite (Sooner.refl _)

theorem classesFrom_sooner (flag : Int) {fuel more : Nat} (h : fuel ≤ more) {turns turns' : Nat}
    (h' : turns ≤ turns') (size : Nat) (classes : List SizeClass) :
    Sooner Fault.outOfFuel (classesFrom flag fuel turns size classes)
      (classesFrom flag more turns' size classes) := by
  induction turns generalizing turns' size classes with
  | zero => exact Sooner.ranOut _
  | succ turns ih =>
      obtain ⟨turns', rfl⟩ : ∃ n, turns' = n + 1 := ⟨turns' - 1, by omega⟩
      rw [classesFrom, classesFrom]
      refine Sooner.ite ?_ (Sooner.refl _)
      refine (Sooner.refl _).bind fun alignment => (Sooner.refl _).bind fun _ => ?_
      refine (spanSize_sooner h 0).bind fun psize => (Sooner.refl _).bind fun classes' => ?_
      exact ih (by omega) _ _

theorem fillClass_sooner {maxSize fuel more : Nat} (h : fuel ≤ more) (s : Nat) (a : Nat → Nat) :
    Sooner Fault.outOfFuel (fillClass c maxSize fuel s a) (fillClass c maxSize more s a) := by
  induction fuel generalizing more s a with
  | zero => exact Sooner.ranOut _
  | succ fuel ih =>
      obtain ⟨more, rfl⟩ : ∃ n, more = n + 1 := ⟨more - 1, by omega⟩
      rw [fillClass, fillClass]
      refine Sooner.ite ?_ (Sooner.refl _)
      exact (Sooner.refl _).bind fun i => (Sooner.refl _).bind fun a' => ih (by omega) _ _

theorem fillClasses_sooner {fuel more : Nat} (h : fuel ≤ more) (classes : List SizeClass) :
    ∀ (c next : Nat) (a : Nat → Nat), Sooner Fault.outOfFuel (fillClasses fuel c classes next a)
      (fillClasses more c classes next a) := by
  induction classes with
  | nil => exact fun _ _ _ => Sooner.refl _
  | cons k rest ih =>
      intro c next a
      rw [fillClasses, fillClasses]
      exact (fillClass_sooner h _ _).bind fun a' => ih _ _ _

theorem checkSizes_sooner (m : SizeMap) {fuel more : Nat} (h : fuel ≤ more) (size : Nat) :
    Sooner Fault.outOfFuel (checkSizes m fuel size) (checkSizes m more size) := by
  induction fuel generalizing more size with
  | zero => exact Sooner.ranOut _
  | succ fuel ih =>
      obtain ⟨more, rfl⟩ : ∃ n, more = n + 1 := ⟨more - 1, by omega⟩
      rw [checkSizes, checkSizes]
      refine Sooner.ite ?_ (Sooner.refl _)
      refine (Sooner.refl _).bind fun sc => (Sooner.refl _).bind fun _ => ?_
      exact (Sooner.refl _).bind fun _ => (Sooner.refl _).bind fun _ => ih (by omega) _

theorem init_sooner (envval : Option Int32) {fuel more : Nat} (h : fuel ≤ more) :
    Sooner Fault.outOfFuel (init envval fuel) (init envval more) := by
  unfold init
  refine (Sooner.refl _).bind fun first => (Sooner.refl _).bind fun _ => ?_
  refine (Sooner.refl _).bind fun last => (Sooner.refl _).bind fun _ => ?_
  refine (Sooner.refl _).bind fun _ => ?_
  refine (classesFrom_sooner _ h h _ _).bind fun classes => (Sooner.refl _).bind fun _ => ?_
  refine (fillClasses_sooner h _ _ _ _).bind fun classArray => ?_
  exact (checkSizes_sooner _ h 0).bind fun _ => Sooner.refl _

/-! ## `Init` -/

variable {envval : Option Int32}

/-- The checks before the loops pass. -/
theorem init_eq (envval : Option Int32) (fuel : Nat) :
    init envval fuel = (do
      let flag := initTCMallocTransferNumObjects envval
      let classes ← classesFrom flag fuel fuel kAlignment []
      checkCondition (classes.length + 1 = kNumClasses)
      let classArray ← fillClasses fuel 1 classes.reverse 0 fun _ => 0
      let m : SizeMap := ⟨classes.reverse, classArray, flag⟩
      checkSizes m fuel 0
      pure m) := by
  have hfirst : classIndex 0 = .ok 0 := classIndex_ok (by decide)
  have hlast : classIndex kMaxSize = .ok (indexOf kMaxSize) := classIndex_ok (Nat.le_refl _)
  unfold init
  rw [hfirst, ok_bind, checkCondition, if_pos rfl, ok_bind, hlast, ok_bind, checkCondition,
    if_pos (indexOf_lt (Nat.le_refl _)), ok_bind, checkCondition, if_pos (by decide), ok_bind]

theorem init_ready (h : 40 ≤ initTCMallocTransferNumObjects envval) :
    ∃ m, init envval initFuel = .ok m ∧ Ready m ∧
      m.flag = initTCMallocTransferNumObjects envval := by
  obtain ⟨classes, hrun, P⟩ := classes_proper h
  have hcount : classes.length + 1 = kNumClasses := by
    rw [← P.count, List.length_reverse]
  have hlength : classes.reverse.length = 87 := Nat.succ.inj P.count
  obtain ⟨a, hfill, ha⟩ := fillClasses_ok P.sorted (fun k hk => P.le_max hk)
    P.aligned P.large initFuel (by decide) 1 0 (fun _ => 0) (by omega) rfl
    fun k _ => Nat.zero_le _
  have R : Ready ⟨classes.reverse, a, initTCMallocTransferNumObjects envval⟩ :=
    ⟨P, h, fun i hi => (ha i hi).2 (Nat.zero_le _) (P.holds (top_le_kMaxSize hi))⟩
  refine ⟨_, ?_, R, rfl⟩
  simp only [init_eq, hrun, ok_bind, checkCondition, if_pos hcount, hfill,
    R.checkSizes_ok initFuel 0 (by decide), pure_eq_ok]

theorem init_crash (h : -3 ≤ initTCMallocTransferNumObjects envval)
    (h' : initTCMallocTransferNumObjects envval < 40) : init envval initFuel = .error .crash := by
  obtain ⟨classes, hrun, hshort⟩ := classes_short h h'
  simp only [init_eq, hrun, ok_bind, checkCondition, if_neg (Nat.ne_of_lt hshort)]
  rfl

/-- No span of objects of 8 bytes has as many as a negative number asks for. -/
theorem spanSize_endless {b : Nat} (hb : 2 ^ 61 ≤ b) :
    ∀ (fuel p : Nat), spanSize 8 b fuel p = .error .outOfFuel := by
  intro fuel
  induction fuel with
  | zero => exact fun _ => rfl
  | succ fuel ih =>
      intro p
      have hgrow : growSpan 8 fuel ((p + kPageSize) % 2 ^ 64) = .error .outOfFuel ∨
          ∃ q < 2 ^ 64, growSpan 8 fuel ((p + kPageSize) % 2 ^ 64) = .ok q := by
        generalize hq : (p + kPageSize) % 2 ^ 64 = q
        have hlt : q < 2 ^ 64 := by
          rw [← hq]
          exact Nat.mod_lt _ (by decide)
        clear hq ih
        induction fuel generalizing q with
        | zero => exact Or.inl rfl
        | succ fuel ih =>
            rw [growSpan]
            split
            · exact ih _ (Nat.mod_lt _ (by decide))
            · exact Or.inr ⟨q, hlt, rfl⟩
      rw [spanSize]
      rcases hgrow with hout | ⟨q, hq, hok⟩
      · rw [hout]
        rfl
      · rw [hok, ok_bind, if_pos (by omega)]
        exact ih q

theorem init_endless (h : initTCMallocTransferNumObjects envval < -3) (fuel : Nat) :
    init envval fuel = .error .outOfFuel := by
  have hge : -2 ^ 31 ≤ initTCMallocTransferNumObjects envval := by
    unfold initTCMallocTransferNumObjects
    split
    · decide
    · next v => exact v.le_toInt
  have hmove : numMoveSize (initTCMallocTransferNumObjects envval) 8 =
      initTCMallocTransferNumObjects envval := by
    unfold numMoveSize
    rw [if_neg (by decide)]
    simp only
    split <;> split <;> omega
  have hblocks : 2 ^ 61 ≤ blocksToMove (initTCMallocTransferNumObjects envval) 8 := by
    unfold blocksToMove PageHeap.lengthOfInt
    rw [hmove]
    generalize initTCMallocTransferNumObjects envval = flag at h hge
    obtain ⟨k, rfl⟩ : ∃ k : Nat, flag = -(k : Int) := ⟨(-flag).toNat, by omega⟩
    rw [Int.neg_tdiv, Int.tdiv_eq_ediv_of_nonneg (Int.natCast_nonneg _)]
    omega
  have hclasses : classesFrom (initTCMallocTransferNumObjects envval) fuel fuel kAlignment [] =
      .error .outOfFuel := by
    cases fuel with
    | zero => rfl
    | succ fuel =>
        have halign : alignmentForSize kAlignment = .ok 8 := by decide
        rw [classesFrom, if_pos (by decide), halign, ok_bind, checkCondition, if_pos (by decide),
          ok_bind]
        have hspan := spanSize_endless hblocks (fuel + 1) 0
        simp only [kAlignment] at hspan ⊢
        rw [hspan]
        rfl
  rw [init_eq]
  simp only [hclasses]
  rfl

/-- What `Init` ends with does not depend on the fuel. -/
theorem init_unique {fuel more : Nat} (h : init envval fuel ≠ .error .outOfFuel)
    (h' : init envval more ≠ .error .outOfFuel) : init envval fuel = init envval more := by
  have hleft := (init_sooner envval (Nat.le_max_left fuel more)).eq h
  have hright := (init_sooner envval (Nat.le_max_right fuel more)).eq h'
  rw [hleft, hright]

/-- `Init` returns only if enough objects are moved at a time. -/
theorem flag_of_init {fuel : Nat} (h : init envval fuel = .ok m) :
    40 ≤ initTCMallocTransferNumObjects envval := by
  have hended : init envval fuel ≠ .error .outOfFuel := by
    rw [h]
    simp
  by_contra hfew
  rcases Int.lt_or_le (initTCMallocTransferNumObjects envval) (-3) with hless | hge
  · exact hended (init_endless hless fuel)
  · have hcrash := init_crash hge (Int.not_le.1 hfew)
    have heq := @init_unique envval fuel initFuel hended (by rw [hcrash]; simp)
    rw [h, hcrash] at heq
    cases heq

/-- `Init` returns if and only if the variable is not set or is at least 40.  From -3 to 39 it
finds a wrong number of classes and crashes, and below that it never ends. -/
theorem init_ok_iff (envval : Option Int32) :
    ((∃ fuel m, init envval fuel = .ok m) ↔ 40 ≤ initTCMallocTransferNumObjects envval) ∧
      ((∃ fuel, init envval fuel = .error .crash) ↔
        -3 ≤ initTCMallocTransferNumObjects envval ∧
          initTCMallocTransferNumObjects envval < 40) ∧
      ((∀ fuel, init envval fuel = .error .outOfFuel) ↔
        initTCMallocTransferNumObjects envval < -3) := by
  rcases Int.lt_or_le (initTCMallocTransferNumObjects envval) (-3) with hless | hge
  · have hendless := init_endless hless
    refine ⟨iff_of_false ?_ (by omega), iff_of_false ?_ (by omega), iff_of_true hendless hless⟩
    · rintro ⟨fuel, m, hok⟩
      have hmany := flag_of_init hok
      omega
    · rintro ⟨fuel, hcrash⟩
      rw [hendless fuel] at hcrash
      cases hcrash
  · rcases Int.lt_or_le (initTCMallocTransferNumObjects envval) 40 with hless | hmany
    · have hcrash := init_crash hge hless
      refine ⟨iff_of_false ?_ (by omega), iff_of_true ⟨_, hcrash⟩ ⟨hge, hless⟩,
        iff_of_false (fun hall => ?_) (by omega)⟩
      · rintro ⟨fuel, m, hok⟩
        have hmany := flag_of_init hok
        omega
      · rw [hall initFuel] at hcrash
        cases hcrash
    · obtain ⟨m, hok, -⟩ := init_ready hmany
      refine ⟨iff_of_true ⟨_, m, hok⟩ hmany, iff_of_false ?_ (by omega),
        iff_of_false (fun hall => ?_) (by omega)⟩
      · rintro ⟨fuel, hcrash⟩
        have heq := @init_unique envval fuel initFuel
          (by rw [hcrash]; simp) (by rw [hok]; simp)
        rw [hok, hcrash] at heq
        cases heq
      · rw [hall initFuel] at hok
        cases hok

/-- Whatever number of turns `Init` took. -/
theorem ready_of_init {fuel : Nat} (h : init envval fuel = .ok m) :
    Ready m ∧ m.flag = initTCMallocTransferNumObjects envval := by
  obtain ⟨m', hok, hready⟩ := init_ready (flag_of_init h)
  have heq := @init_unique envval fuel initFuel (by rw [h]; simp) (by rw [hok]; simp)
  rw [h, hok] at heq
  cases heq
  exact hready

theorem Ready.mem (R : Ready m) (hpos : 0 < c) (hlt : c < kNumClasses) :
    ∃ k ∈ m.classes, m.classToSize c = k.size ∧ m.classToPages c = k.pages := by
  obtain ⟨j, rfl⟩ : ∃ j, c = j + 1 := ⟨c - 1, by omega⟩
  have hj : j < m.classes.length := by
    rw [← R.proper.count] at hlt
    omega
  exact ⟨m.classes[j], List.getElem_mem hj, classToSize_succ hj, by simp [classToPages, hj]⟩

/-- `SizeClass` and `MaybeSizeClass` find the least class that holds a size, and there is one
for every size up to `kMaxSize`; the sizes of the classes are multiples of 8, and of 16 from
there on. -/
theorem sizeClass_least {fuel : Nat} (h : init envval fuel = .ok m) (size : Nat) :
    (size ≤ kMaxSize → ∃ c, LeastClass m size c ∧ maybeSizeClass m size = some c ∧
      m.classToSize c % kAlignment = 0 ∧ (kMinAlign ≤ size → m.classToSize c % kMinAlign = 0)) ∧
    (kMaxSize < size → maybeSizeClass m size = none) := by
  have R := (ready_of_init h).1
  constructor
  · intro hsize
    have L := R.leastClass hsize
    refine ⟨_, L, ?_, ?_, ?_⟩
    · have hlookup := L.lookup
      rw [sizeClass, classIndex_ok hsize, ok_bind, pure_eq_ok, Except.ok.injEq] at hlookup
      rw [← hlookup, maybeSizeClass, indexOf]
      split
      · rfl
      · rfl
    · obtain ⟨k, hk, hc, -⟩ := R.mem L.pos L.lt
      rw [hc]
      exact R.proper.aligned k hk
    · intro hmin
      obtain ⟨k, hk, hc, -⟩ := R.mem L.pos L.lt
      have hfits := L.fits
      rw [hc] at hfits ⊢
      exact R.proper.sixteen k hk (Nat.le_trans hmin hfits)
  · intro hsize
    have hsmall : ¬ size ≤ kMaxSmallSize := by
      simp only [kMaxSize, kMaxSmallSize] at hsize ⊢
      omega
    rw [maybeSizeClass, if_neg hsmall, if_neg (Nat.not_le.2 hsize)]

/-- With the variable unset, 100 bytes are served from a class of multiples of 16. -/
theorem sizeClass_least_hundred :
    ∃ m c, LeastClass m 100 c ∧ m.classToSize c % kMinAlign = 0 := by
  have hdefault : 40 ≤ initTCMallocTransferNumObjects none := by decide
  obtain ⟨m, hok, -⟩ := init_ready hdefault
  obtain ⟨c, hleast, -, -, hsixteen⟩ := (sizeClass_least hok 100).1 (by decide)
  exact ⟨m, c, hleast, hsixteen (by decide)⟩

/-- The span of a class holds an object, and a quarter of what is moved at a time; at most an
eighth of it is left over. -/
theorem classSpans {fuel : Nat} (h : init envval fuel = .ok m) (hpos : 0 < c)
    (hlt : c < kNumClasses) :
    0 < m.classToSize c ∧ m.classToSize c ≤ m.classToPages c <<< kPageShift ∧
      2 ≤ m.numObjectsToMove c ∧ m.numObjectsToMove c ≤ 8192 ∧
      m.numObjectsToMove c ≤ initTCMallocTransferNumObjects envval ∧
      m.numObjectsToMove c / 4 ≤ ((m.classToPages c <<< kPageShift) / m.classToSize c : Nat) ∧
      (m.classToPages c <<< kPageShift) % m.classToSize c ≤
        (m.classToPages c <<< kPageShift) >>> 3 := by
  obtain ⟨R, hflag⟩ := ready_of_init h
  have P := R.proper
  have hmany := R.flag
  obtain ⟨k, hk, hsize, hpages⟩ := R.mem hpos hlt
  have hkpos := P.pos k hk
  have hmove : m.numObjectsToMove c = numMoveSize m.flag k.size := by
    rw [numObjectsToMove, if_neg (Nat.pos_iff_ne_zero.1 hpos), hsize]
  have hdiv : 64 * 1024 / k.size ≤ 8192 := by
    have hal := P.aligned k hk
    simp only [kAlignment] at hal
    calc 64 * 1024 / k.size ≤ 64 * 1024 / 8 := Nat.div_le_div_left (by omega) (by decide)
      _ = 8192 := rfl
  have hbounds : 2 ≤ numMoveSize m.flag k.size ∧ numMoveSize m.flag k.size ≤ 8192 ∧
      numMoveSize m.flag k.size ≤ m.flag := by
    unfold numMoveSize
    rw [if_neg (Nat.pos_iff_ne_zero.1 hkpos)]
    simp only
    split <;> split <;> omega
  have henough := P.enough k hk
  rw [blocksToMove, tdiv_four (by omega), lengthOfInt_eq_toNat (Int.natCast_nonneg _) (by omega),
    Int.toNat_natCast] at henough
  rw [hsize, hpages, hmove, ← hflag]
  refine ⟨hkpos, P.fits k hk, hbounds.1, hbounds.2.1, hbounds.2.2, ?_, P.leftover k hk⟩
  omega

theorem classSpans_last : ∃ m : SizeMap, 87 < kNumClasses ∧
    m.classToSize 87 ≤ m.classToPages 87 <<< kPageShift ∧ 2 ≤ m.numObjectsToMove 87 := by
  have hdefault : 40 ≤ initTCMallocTransferNumObjects none := by decide
  obtain ⟨m, hok, -⟩ := init_ready hdefault
  have hspan := classSpans hok (c := 87) (by decide) (by decide)
  exact ⟨m, by decide, hspan.2.1, hspan.2.2.1⟩

end SatAllocatorTest.Ports.TCmalloc.SizeMap
