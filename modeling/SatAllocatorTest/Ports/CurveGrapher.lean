import Mathlib.Algebra.Order.Archimedean.Basic
import Mathlib.Algebra.Order.Field.Rat
import Mathlib.Algebra.Order.BigOperators.Group.List
import Mathlib.Tactic.Linarith
import Mathlib.Tactic.FieldSimp
import SatAllocatorTest.Verified.Loops

/-!
# Curves on a regular grid of times

`CurveGrapher` of `chart-curve.tsx`: `apply` gathers the values of a curve in steps of a
thousandth, each output point being the mean of the values whose times the step has
passed, or the point before it where there is none.  Numbers are exact.

The outer loop counts in `i`, but only the inner loop moves `i`, and it does so as long
as `dataTimes[i] < time`.  Past the end of `dataTimes` there is `undefined`, with which
every comparison is false.  So the loops end exactly when no value is without a time.

Main result: `apply_resamples_iff`.
-/

namespace SatAllocatorTest.Ports.Monitor

open SatAllocatorTest.Verified.Loops

/-- What `apply` is given: the two fields, where they are arrays. -/
structure CurveData where
  times : Option (List ℚ)
  values : Option (List ℚ)

/-- The fields of `class CurveGrapher` that `apply` assigns and `draw` reads. -/
structure CurveGrapher where
  valueMin : Option ℚ
  valueMax : Option ℚ
  values : List ℚ
  times : List (Option ℚ)
  startIndex : ℤ
  endIndex : ℤ
  deriving DecidableEq

namespace CurveGrapher

/-- `const step = 0.001`. -/
def step : ℚ := 1 / 1000

/-- `t < time`; false if one of them is not a number. -/
def before : Option ℚ → Option ℚ → Bool
  | some t, some time => t < time
  | _, _ => false

/-- The variables of the inner loop. -/
structure Gathered where
  i : ℕ
  acc : ℚ
  count : ℕ

/-- `while (i < dataValues.length && dataTimes[i] < time)`; `rest` is what `dataValues`
holds from `i` on. -/
def gather (dataTimes : List ℚ) (time : Option ℚ) : (rest : List ℚ) → Gathered → Gathered
  | [], g => g
  | value :: rest, g =>
    if before dataTimes[g.i]? time then
      gather dataTimes time rest ⟨g.i + 1, g.acc + value, g.count + 1⟩
    else g

/-- The variables of the outer loop. -/
structure Cursor where
  time : Option ℚ
  value : ℚ
  i : ℕ
  valueMin : ℚ
  valueMax : ℚ
  times : List (Option ℚ)
  values : List ℚ

/-- `let time = dataTimes[0], value = 0, i = 0`. -/
def start (dataTimes : List ℚ) : Cursor := ⟨dataTimes[0]?, 0, 0, 0, 0, [], []⟩

/-- The body of the outer loop. -/
def turn (dataTimes dataValues : List ℚ) (s : Cursor) : Cursor :=
  let g := gather dataTimes s.time (dataValues.drop s.i) ⟨s.i, 0, 0⟩
  let value := if 0 < g.count then g.acc / g.count else s.value
  let time := s.time.map (· + step)
  { time := time
    value := value
    i := g.i
    valueMin := min s.valueMin value
    valueMax := max s.valueMax value
    times := s.times ++ [time]
    values := s.values ++ [value] }

/-- `while (i < dataValues.length)`. -/
def goesOn (dataValues : List ℚ) (s : Cursor) : Bool := s.i < dataValues.length

/-- The end of `apply`. -/
def assign (c : CurveGrapher) (times : List (Option ℚ)) (values : List ℚ) : CurveGrapher :=
  { c with values := values, times := times, startIndex := 0, endIndex := times.length - 1 }

/-- `apply(data)`, if its loops end within `fuel` tests. -/
def apply (fuel : ℕ) (c : CurveGrapher) : (data : Option CurveData) → Option CurveGrapher
  | some ⟨some dataTimes, some dataValues⟩ =>
    (whileLoop (goesOn dataValues) (turn dataTimes dataValues) fuel (start dataTimes)).map
      fun s => { c with valueMin := s.valueMin, valueMax := s.valueMax }.assign s.times s.values
  | _ => some (c.assign [] [])

/-! ## What the points are -/

/-- The points made of groups of values: the mean of a group, or the point before. -/
def means : (last : ℚ) → List (List ℚ) → List ℚ
  | _, [] => []
  | last, group :: groups =>
    let value := if group = [] then last else group.sum / group.length
    value :: means value groups

/-- The values are divided among the points, and the points lie at regular times and
between the bounds. -/
structure Resampled (dataValues : List ℚ) (c : CurveGrapher) : Prop where
  grouped : ∃ groups : List (List ℚ), groups.flatten = dataValues ∧ c.values = means 0 groups
  spaced : ∃ first : ℚ, c.times =
    (List.range c.values.length).map fun j : ℕ => some (first + j * step)
  bounded : ∀ value ∈ c.values, ∃ low high, c.valueMin = some low ∧ c.valueMax = some high ∧
    low ≤ value ∧ value ≤ high

theorem means_append (group : List ℚ) : ∀ (groups : List (List ℚ)) (first : ℚ),
    means first (groups ++ [group]) = means first groups ++
      [if group = [] then (means first groups).getLastD first
        else group.sum / group.length] := by
  intro groups
  induction groups with
  | nil => exact fun first => rfl
  | cons head groups ih =>
      intro first
      rw [List.cons_append, means, means, ih, List.cons_append]
      cases hrest : means (if head = [] then first else head.sum / head.length) groups with
      | nil => rfl
      | cons value rest => rfl

/-- The inner loop takes a group of values from the front, and stops before a value whose
time has not come. -/
theorem gather_spec (dataTimes : List ℚ) (time : Option ℚ) : ∀ (rest : List ℚ) (g : Gathered),
    ∃ group left, rest = group ++ left ∧
      gather dataTimes time rest g =
        ⟨g.i + group.length, g.acc + group.sum, g.count + group.length⟩ ∧
      (left ≠ [] → before dataTimes[g.i + group.length]? time = false) := by
  intro rest
  induction rest with
  | nil => exact fun g => ⟨[], [], rfl, by simp [gather], fun h => absurd rfl h⟩
  | cons value rest ih =>
      intro g
      by_cases hb : before dataTimes[g.i]? time = true
      · have hrest := ih ⟨g.i + 1, g.acc + value, g.count + 1⟩
        obtain ⟨group, left, hsplit, hgather, hstop⟩ := hrest
        refine ⟨value :: group, left, by rw [hsplit, List.cons_append], ?_, ?_⟩
        · rw [gather, if_pos hb, hgather]
          simp only [List.length_cons, List.sum_cons, Gathered.mk.injEq]
          refine ⟨by omega, by ring, by omega⟩
        · intro hleft
          have hlast := hstop hleft
          rw [List.length_cons, show g.i + (group.length + 1) = g.i + 1 + group.length by omega]
          exact hlast
      · refine ⟨[], value :: rest, rfl, ?_, fun _ => by simpa using hb⟩
        rw [gather, if_neg hb]
        simp

/-- The inner loop stops at the end of the times at the latest. -/
theorem gather_le (dataTimes : List ℚ) (time : Option ℚ) : ∀ (rest : List ℚ) (g : Gathered),
    g.i ≤ dataTimes.length → (gather dataTimes time rest g).i ≤ dataTimes.length := by
  intro rest
  induction rest with
  | nil => exact fun g hg => hg
  | cons value rest ih =>
      intro g hg
      by_cases hb : before dataTimes[g.i]? time = true
      · rw [gather, if_pos hb]
        apply ih
        by_contra hlt
        rw [List.getElem?_eq_none (by simp only at hlt; omega), before] at hb
        · cases hb
        · simp
      · rw [gather, if_neg hb]
        exact hg

/-! ## The loops -/

section Loops

variable {dataTimes dataValues : List ℚ} {first : ℚ} {bound : ℕ} {s : Cursor}

/-- What holds between two turns of the outer loop: every value before `i` is in the
points, and within `bound` turns no value is left. -/
structure Cursor.Inv (dataValues : List ℚ) (first : ℚ) (bound : ℕ) (s : Cursor) : Prop where
  time_eq : s.time = some (first + s.values.length * step)
  grouped : ∃ groups : List (List ℚ),
    groups.flatten = dataValues.take s.i ∧ s.values = means 0 groups
  last : s.value = s.values.getLastD 0
  spaced : s.times = (List.range s.values.length).map fun j : ℕ => some (first + (j + 1) * step)
  bounded : ∀ value ∈ s.values, s.valueMin ≤ value ∧ value ≤ s.valueMax
  turns : s.i < dataValues.length → s.values.length ≤ bound

/-- What a turn does: it takes a group of values, and adds the point of that. -/
theorem turn_spec (dataTimes dataValues : List ℚ) (s : Cursor) :
    ∃ group left value, dataValues.drop s.i = group ++ left ∧
      value = (if group = [] then s.value else group.sum / group.length) ∧
      turn dataTimes dataValues s =
        ⟨s.time.map (· + step), value, s.i + group.length, min s.valueMin value,
          max s.valueMax value, s.times ++ [s.time.map (· + step)], s.values ++ [value]⟩ ∧
      (left ≠ [] → before dataTimes[s.i + group.length]? s.time = false) := by
  have hspec := gather_spec dataTimes s.time (dataValues.drop s.i) ⟨s.i, 0, 0⟩
  obtain ⟨group, left, hsplit, hgather, hstop⟩ := hspec
  refine ⟨group, left, _, hsplit, rfl, ?_, hstop⟩
  rw [turn, hgather]
  by_cases hempty : group = []
  · simp [hempty]
  · have hpos := List.length_pos_iff.2 hempty
    simp [hempty, hpos]

theorem turn_inv (hle : dataValues.length ≤ dataTimes.length)
    (hbound : ∀ t ∈ dataTimes, t < first + bound * step) (hs : s.Inv dataValues first bound) :
    (turn dataTimes dataValues s).Inv dataValues first bound := by
  obtain ⟨groups, hflat, hvalues⟩ := hs.grouped
  obtain ⟨group, left, value, hsplit, hvalue, hturn, hstop⟩ := turn_spec dataTimes dataValues s
  have htime : s.time.map (· + step) = some (first + (s.values.length + 1) * step) := by
    rw [hs.time_eq]
    exact congrArg some (by ring)
  rw [hturn]
  constructor
  · change s.time.map (· + step) = _
    rw [htime, List.length_append, List.length_singleton]
    push_cast
    rfl
  · refine ⟨groups ++ [group], ?_, ?_⟩
    · rw [List.flatten_append, hflat, List.flatten_singleton, List.take_add, hsplit,
        List.take_left]
    · change s.values ++ [value] = _
      rw [means_append, ← hvalues, hvalue, hs.last]
  · exact (List.getLastD_concat ..).symm
  · change s.times ++ [s.time.map (· + step)] = _
    rw [List.length_append, List.length_singleton, List.range_succ, List.map_append, ← hs.spaced,
      htime]
    rfl
  · intro v hv
    rcases List.mem_append.1 hv with hv | hv
    · have hb := hs.bounded v hv
      exact ⟨(min_le_left _ _).trans hb.1, hb.2.trans (le_max_left _ _)⟩
    · cases List.mem_singleton.1 hv
      exact ⟨min_le_right _ _, le_max_right _ _⟩
  · intro hlt
    change s.i + group.length < dataValues.length at hlt
    have hleft : left ≠ [] := by
      rintro rfl
      have hlen := congrArg List.length hsplit
      simp only [List.append_nil, List.length_drop] at hlen
      omega
    have hstill := hstop hleft
    -- the value that stopped the inner loop has a time, and it has not come
    rw [List.getElem?_eq_getElem (hlt.trans_le hle), hs.time_eq, before] at hstill
    have hnot : ¬dataTimes[s.i + group.length] < first + s.values.length * step := by
      simpa using hstill
    have hcome := hbound _ (List.getElem_mem (hlt.trans_le hle))
    have hmul : (s.values.length : ℚ) * step < bound * step := by linarith
    have hcount : (s.values.length : ℚ) < bound := lt_of_mul_lt_mul_right hmul (by norm_num [step])
    rw [List.length_append, List.length_singleton]
    exact_mod_cast hcount

/-- With a time for every value the outer loop ends, and then no value is left. -/
theorem loop_ends (hle : dataValues.length ≤ dataTimes.length)
    (hbound : ∀ t ∈ dataTimes, t < first + bound * step)
    (hs : s.Inv dataValues first bound) :
    ∃ t, Ends (goesOn dataValues) (turn dataTimes dataValues) s t ∧
      t.Inv dataValues first bound ∧ goesOn dataValues t = false := by
  apply ends_of_variant (fun s => bound + 1 - s.values.length) _ hs
  intro s hs hcond
  have hturns := hs.turns (of_decide_eq_true hcond)
  refine ⟨turn_inv hle hbound hs, ?_⟩
  have hlen : (turn dataTimes dataValues s).values.length = s.values.length + 1 :=
    List.length_append
  omega

/-- A value without a time is never reached: the outer loop goes on for ever. -/
theorem loop_endless (hlt : dataTimes.length < dataValues.length) (fuel : ℕ) :
    whileLoop (goesOn dataValues) (turn dataTimes dataValues) fuel (start dataTimes) = none := by
  refine whileLoop_none (I := fun s => s.i ≤ dataTimes.length) ?_ fuel _ (Nat.zero_le _)
  intro s hs
  exact ⟨decide_eq_true (hs.trans_lt hlt), gather_le _ _ _ _ hs⟩

end Loops

/-- After enough steps every time has come. -/
theorem exists_bound (dataTimes : List ℚ) (first : ℚ) :
    ∃ bound : ℕ, ∀ t ∈ dataTimes, t < first + bound * step := by
  have hstep : 0 < step := by norm_num [step]
  induction dataTimes with
  | nil => exact ⟨0, fun t ht => absurd ht List.not_mem_nil⟩
  | cons time rest ih =>
      obtain ⟨bound, hbound⟩ := ih
      obtain ⟨more, hmore⟩ := exists_nat_gt ((time - first) / step)
      have htime := (div_lt_iff₀ hstep).1 hmore
      have later : ∀ {n : ℕ}, n ≤ max bound more →
          (n : ℚ) * step ≤ (max bound more : ℕ) * step := fun hn =>
        mul_le_mul_of_nonneg_right (by exact_mod_cast hn) hstep.le
      refine ⟨max bound more, fun t ht => ?_⟩
      rcases List.mem_cons.1 ht with rfl | ht
      · have := later (le_max_right bound more)
        linarith
      · have := later (le_max_left bound more)
        have := hbound t ht
        linarith

theorem start_inv {dataTimes dataValues : List ℚ} {first : ℚ} (hfirst : dataTimes[0]? = some first)
    (bound : ℕ) : (start dataTimes).Inv dataValues first bound where
  time_eq := by
    rw [start, hfirst]
    simp
  grouped := ⟨[], by simp [start], rfl⟩
  last := rfl
  spaced := rfl
  bounded _ hv := absurd hv List.not_mem_nil
  turns _ := Nat.zero_le _

/-- What the loops leave when every value has been reached. -/
theorem Cursor.Inv.resampled {dataValues : List ℚ} {first : ℚ} {bound : ℕ} {s : Cursor}
    (hs : s.Inv dataValues first bound) (hend : goesOn dataValues s = false) (c : CurveGrapher) :
    Resampled dataValues
      ({ c with valueMin := s.valueMin, valueMax := s.valueMax }.assign s.times s.values) := by
  have hlen : dataValues.length ≤ s.i := Nat.not_lt.1 (of_decide_eq_false hend)
  constructor
  · obtain ⟨groups, hflat, hvalues⟩ := hs.grouped
    rw [List.take_of_length_le hlen] at hflat
    exact ⟨groups, hflat, hvalues⟩
  · refine ⟨first + step, ?_⟩
    change s.times = (List.range s.values.length).map _
    rw [hs.spaced]
    congr 1
    funext j
    exact congrArg some (by ring)
  · intro value hvalue
    have hb := hs.bounded value hvalue
    exact ⟨s.valueMin, s.valueMax, rfl, rfl, hb.1, hb.2⟩

/-- With a time for every value the loops end, and have divided the values. -/
theorem loops_resample (c : CurveGrapher) {dataTimes dataValues : List ℚ}
    (hle : dataValues.length ≤ dataTimes.length) :
    ∃ s, Ends (goesOn dataValues) (turn dataTimes dataValues) (start dataTimes) s ∧
      Resampled dataValues
        ({ c with valueMin := s.valueMin, valueMax := s.valueMax }.assign s.times s.values) := by
  cases dataTimes with
  | nil =>
      cases List.length_eq_zero_iff.1 (Nat.le_zero.1 hle)
      refine ⟨start [], ⟨1, rfl⟩, ⟨[], rfl, rfl⟩, ⟨0, rfl⟩, ?_⟩
      exact fun value hvalue => absurd hvalue List.not_mem_nil
  | cons first rest =>
      obtain ⟨bound, hbound⟩ := exists_bound (first :: rest) first
      have hstart : (first :: rest)[0]? = some first := rfl
      obtain ⟨s, hends, hinv, hend⟩ := loop_ends hle hbound (start_inv hstart bound)
      exact ⟨s, hends, hinv.resampled hend c⟩

/-- Given two arrays, `apply` ends and divides the values among points at regular times
and between the bounds if and only if there is a time for every value. -/
theorem apply_resamples_iff (c : CurveGrapher) (dataTimes dataValues : List ℚ) :
    ((∃ fuel, (apply fuel c (some ⟨some dataTimes, some dataValues⟩)).isSome) ∧
      ∀ fuel c', apply fuel c (some ⟨some dataTimes, some dataValues⟩) = some c' →
        Resampled dataValues c') ↔ dataValues.length ≤ dataTimes.length := by
  constructor
  · rintro ⟨⟨fuel, hends⟩, -⟩
    by_contra hlt
    rw [apply, loop_endless (Nat.lt_of_not_le hlt)] at hends
    cases hends
  · intro hle
    obtain ⟨s, hends, hres⟩ := loops_resample c hle
    constructor
    · obtain ⟨fuel, hfuel⟩ := hends
      refine ⟨fuel, ?_⟩
      rw [apply, hfuel]
      rfl
    · intro fuel c' hc'
      rw [apply] at hc'
      obtain ⟨s', hs', rfl⟩ := Option.map_eq_some_iff.1 hc'
      -- the state the loops end in is the same for every number of tests
      cases hends.unique ⟨fuel, hs'⟩
      exact hres

/-- One value and no time: the loops do not end. -/
theorem apply_endless : ¬∀ (c : CurveGrapher) (dataTimes dataValues : List ℚ),
    ∃ fuel, (apply fuel c (some ⟨some dataTimes, some dataValues⟩)).isSome := by
  intro hall
  obtain ⟨fuel, hends⟩ := hall ⟨none, none, [], [], 0, -1⟩ [] [1]
  rw [apply, loop_endless (by decide)] at hends
  cases hends

end CurveGrapher

end SatAllocatorTest.Ports.Monitor
