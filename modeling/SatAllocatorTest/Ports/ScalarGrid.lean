import SatAllocatorTest.Ports.ProfileViewClient
import SatAllocatorTest.Verified.Decimals
import SatAllocatorTest.Verified.Loops

/-!
# The grid of a time axis

`ScalarGridGrapher` of `chart-scalarGrid.tsx`: vertical lines at the multiples of the step
that `ProfileViewClient.update` has chosen, with their labels above them where `showHead`
asks for these.  Numbers are exact; a base-ten logarithm, rounded up or down, is the
corresponding search among the powers of ten.

The step is a one, a two or a five in its decade, and the precision is the decade, so a
label says exactly where its line is.  The precision is bounded by zero from below but by
nothing from above, and `toFixed` refuses more than a hundred decimals.

Main result: `readable_iff`.
-/

namespace SatAllocatorTest.Ports.Monitor

open SatAllocatorTest.Verified.Loops
open SatAllocatorTest.Verified.Decimals
open SatAllocatorTest.Verified.Runs

namespace ProfileView

variable {C : Type}

/-- The length of the window is the distance of its ends. -/
def Measured (v : ProfileView C) : Prop := v.interval = v.end_ - v.start

theorem new_measured (min max : ℚ) : (new min max : ProfileView C).Measured := rfl

theorem exec_measured [DecidableEq C] {v : ProfileView C} (hv : v.Measured) (op : Op C) :
    (v.exec op).1.Measured := by
  cases op with
  | set start end_ => rfl
  | clip min max => rfl
  | translate delta => rfl
  | map client => exact hv
  | unmap client => exact hv

/-- So it is after any calls. -/
theorem run_measured [DecidableEq C] {min max : ℚ} {calls : List (Call C)} {s : Observed C}
    (hrun : run step ⟨new min max, []⟩ calls = some s) : s.view.Measured := by
  refine run_invariant (I := fun s : Observed C => s.view.Measured) ?_ calls _ s
    (new_measured min max) hrun
  rintro s call s' hs hstep
  cases hstep
  exact exec_measured hs call.1

end ProfileView

/-! ## The canvas -/

namespace Canvas

/-- A call on a drawing context, or an assignment to one of its properties.  The abscissa
of a point is none where it is not a number. -/
inductive Command
  | font (name : String)
  | textAlign (align : String)
  | textBaseline (baseline : String)
  | fillStyle (colour : String)
  | strokeStyle (colour : String)
  | strokeWidth (width : ℚ)
  | fillRect (x y width height : ℚ)
  | fillText (text : String) (x y : ℚ)
  | beginPath
  | moveTo (x : Option ℚ) (y : ℚ)
  | lineTo (x : Option ℚ) (y : ℚ)
  | stroke
  | closePath
  | fill
  deriving DecidableEq

/-- The height a command takes its point at, if it adds a point to the path. -/
def Command.ordinate : Command → Option ℚ
  | .moveTo _ y => some y
  | .lineTo _ y => some y
  | _ => none

/-- The size of a canvas. -/
structure Size where
  width : ℚ
  height : ℚ

end Canvas

open Canvas

/-! ## The labels -/

/-- `format(value)`; the charts put a unit behind it. -/
def ProfileViewClient.format (c : ProfileViewClient) (unit : String) (value : ℚ) :
    Option String :=
  (toFixed value c.precision).map (· ++ unit)

/-- `Math.round`. -/
def mathRound (x : ℚ) : ℤ := ⌊x + 1 / 2⌋

/-! ## The grapher -/

/-- What is read of a style. -/
structure GridStyle where
  headHeight : ℚ
  headColor : String
  headTextFont : String
  headTextColor : String
  headTextPadding : ℚ
  headTextBaseline : ℚ
  gridColor : String

/-- `chartStyles.gridStyle`. -/
def gridStyle : GridStyle where
  headHeight := 16
  headColor := "rgba(255,255,255,0.5)"
  headTextFont := "11px 'Lucida Grande', 'Open Sans', sans-serif"
  headTextColor := "#000"
  headTextPadding := 2
  headTextBaseline := 8
  gridColor := "rgba(0,0,0,0.2)"

/-- The options of a chart. -/
structure GridOptions where
  showHead : Option Bool
  style : Option GridStyle

/-- `class ScalarGridGrapher`, and the unit its client puts behind a label. -/
structure ScalarGridGrapher where
  unit : String
  showHead : Bool
  style : GridStyle

namespace ScalarGridGrapher

/-- `new ScalarGridGrapher(client, options)`. -/
def new (unit : String) (options : Option GridOptions) : ScalarGridGrapher where
  unit := unit
  showHead := (options.bind GridOptions.showHead).getD false
  style := (options.bind GridOptions.style).getD gridStyle

/-- The variable of a loop, and what has been drawn; none once something was thrown. -/
structure Sweep where
  t : ℚ
  drawn : Option (List Command)

/-- `t < end`, unless the loop has been left. -/
def goesOn (end_ : ℚ) (s : Sweep) : Bool := s.drawn.isSome && s.t < end_

/-- One time, and `t += step`. -/
def turn (step : ℚ) (mark : ℚ → Option (List Command)) (s : Sweep) : Sweep where
  t := s.t + step
  drawn := do
    let drawn ← s.drawn
    let commands ← mark s.t
    return drawn ++ commands

/-- `for (let t = t0; t < end; t += step) { ... }`, if it ends within `fuel` tests. -/
def forTimes (fuel : ℕ) (t0 end_ step : ℚ) (mark : ℚ → Option (List Command)) :
    Option (Option (List Command)) :=
  (whileLoop (goesOn end_) (turn step mark) fuel ⟨t0, some []⟩).map Sweep.drawn

/-- The label of the line at `t`. -/
def label (g : ScalarGridGrapher) (client : ProfileViewClient) (t : ℚ) :
    Option (List Command) := do
  let x := t * client.scale - client.offset + g.style.headTextPadding
  let text ← client.format g.unit t
  return [.fillText text x g.style.headTextBaseline]

/-- The line at `t`. -/
def line (client : ProfileViewClient) (gl : Size) (t : ℚ) : List Command :=
  let x := t * client.scale - client.offset
  [.moveTo (some x) 0, .lineTo (some x) gl.height]

/-- The head is drawn, and its labels. -/
def drawHead (fuel : ℕ) (g : ScalarGridGrapher) (client : ProfileViewClient) (gl : Size)
    (t0 end_ : ℚ) : Option (Option (List Command)) := do
  let labels ← forTimes fuel t0 end_ client.step (g.label client)
  return labels.map fun labels =>
    [.fillStyle g.style.headColor, .fillRect 0 0 gl.width g.style.headHeight,
      .font g.style.headTextFont, .textAlign "left", .textBaseline "middle",
      .fillStyle g.style.headTextColor] ++ labels

/-- The lines are drawn. -/
def drawLines (fuel : ℕ) (g : ScalarGridGrapher) (client : ProfileViewClient) (gl : Size)
    (t0 end_ : ℚ) : Option (Option (List Command)) := do
  let lines ← forTimes fuel t0 end_ client.step fun t => some (line client gl t)
  return lines.map fun lines =>
    [.strokeWidth 1, .strokeStyle g.style.gridColor, .beginPath] ++ lines ++ [.stroke]

/-- `draw(gl)`, if its loops end within `fuel` tests; none within if it throws. -/
def draw {C : Type} (fuel : ℕ) (g : ScalarGridGrapher) (client : ProfileViewClient)
    (view : ProfileView C) (gl : Size) : Option (Option (List Command)) := do
  let t0 := mathRound (view.start / client.step) * client.step
  match ← if g.showHead then drawHead fuel g client gl t0 view.end_ else some (some []) with
  | none => return none
  | some head =>
    let lines ← drawLines fuel g client gl t0 view.end_
    return lines.map fun lines => head ++ lines

/-! ## The times a loop passes -/

/-- `n` times from `t` on. -/
def timesFrom (step : ℚ) : (n : ℕ) → ℚ → List ℚ
  | 0, _ => []
  | n + 1, t => t :: timesFrom step n (t + step)

/-- How many times there are before `end_`. -/
def count (end_ step t : ℚ) : ℕ := ⌈(end_ - t) / step⌉.toNat

/-- The times the loop passes. -/
def times (end_ step t : ℚ) : List ℚ := timesFrom step (count end_ step t) t

theorem count_of_le {end_ step t : ℚ} (hstep : 0 < step) (hle : end_ ≤ t) :
    count end_ step t = 0 := by
  have hceil : ⌈(end_ - t) / step⌉ ≤ 0 := by
    rw [Int.ceil_le, Int.cast_zero]
    exact div_nonpos_of_nonpos_of_nonneg (sub_nonpos.2 hle) hstep.le
  exact Int.toNat_of_nonpos hceil

theorem count_of_lt {end_ step t : ℚ} (hstep : 0 < step) (hlt : t < end_) :
    count end_ step t = count end_ step (t + step) + 1 := by
  have hshift : (end_ - (t + step)) / step = (end_ - t) / step - 1 := by
    have hne := hstep.ne'
    field_simp
    ring
  have hpos : 0 < ⌈(end_ - t) / step⌉ := Int.ceil_pos.2 (div_pos (sub_pos.2 hlt) hstep)
  rw [count, count, hshift, Int.ceil_sub_one]
  omega

theorem le_of_count_eq_zero {end_ step t : ℚ} (hstep : 0 < step) (h : count end_ step t = 0) :
    end_ ≤ t := by
  by_contra hlt
  rw [count_of_lt hstep (not_le.1 hlt)] at h
  omega

theorem of_count_eq_succ {end_ step t : ℚ} {n : ℕ} (hstep : 0 < step)
    (h : count end_ step t = n + 1) : t < end_ ∧ count end_ step (t + step) = n := by
  have hlt : t < end_ := by
    by_contra hle
    rw [count_of_le hstep (not_lt.1 hle)] at h
    omega
  rw [count_of_lt hstep hlt] at h
  exact ⟨hlt, Nat.succ.inj h⟩

theorem times_of_le {end_ step t : ℚ} (hstep : 0 < step) (hle : end_ ≤ t) :
    times end_ step t = [] := by
  rw [times, count_of_le hstep hle]
  rfl

theorem times_of_lt {end_ step t : ℚ} (hstep : 0 < step) (hlt : t < end_) :
    times end_ step t = t :: times end_ step (t + step) := by
  rw [times, count_of_lt hstep hlt]
  rfl

/-- The rule of the loop: it draws its marks at its times, in their order. -/
theorem whileLoop_times {end_ step : ℚ} (hstep : 0 < step) {mark : ℚ → Option (List Command)}
    {marks : ℚ → List Command} : ∀ (n : ℕ) (t : ℚ) (drawn : List Command),
    count end_ step t = n → (∀ u ∈ times end_ step t, mark u = some (marks u)) →
    ∃ last, whileLoop (goesOn end_) (turn step mark) (n + 1) ⟨t, some drawn⟩ =
      some ⟨last, some (drawn ++ (times end_ step t).flatMap marks)⟩ := by
  intro n
  induction n with
  | zero =>
      intro t drawn hn _
      have hle := le_of_count_eq_zero hstep hn
      have hstop : goesOn end_ ⟨t, some drawn⟩ = false := by
        simp [goesOn, not_lt.2 hle]
      refine ⟨t, ?_⟩
      rw [whileLoop, hstop, times_of_le hstep hle, List.flatMap_nil, List.append_nil]
      rfl
  | succ n ih =>
      intro t drawn hn hmarks
      obtain ⟨hlt, hcount⟩ := of_count_eq_succ hstep hn
      rw [times_of_lt hstep hlt] at hmarks
      have hmark := hmarks t (List.mem_cons_self ..)
      have hturn : turn step mark ⟨t, some drawn⟩ = ⟨t + step, some (drawn ++ marks t)⟩ := by
        simp [turn, hmark]
      have hgo : goesOn end_ ⟨t, some drawn⟩ = true := by simp [goesOn, hlt]
      have hrest := ih (t + step) (drawn ++ marks t) hcount
        fun u hu => hmarks u (List.mem_cons_of_mem _ hu)
      rw [whileLoop, if_pos hgo, hturn, times_of_lt hstep hlt, List.flatMap_cons,
        ← List.append_assoc]
      exact hrest

theorem forTimes_eq {end_ step t0 : ℚ} (hstep : 0 < step) {mark : ℚ → Option (List Command)}
    {marks : ℚ → List Command} (hmarks : ∀ t ∈ times end_ step t0, mark t = some (marks t)) :
    forTimes (count end_ step t0 + 1) t0 end_ step mark =
      some (some ((times end_ step t0).flatMap marks)) := by
  obtain ⟨last, hrun⟩ := whileLoop_times hstep _ t0 [] rfl hmarks
  rw [forTimes, hrun]
  rfl

theorem mem_times {end_ step : ℚ} (hstep : 0 < step) {u : ℚ} : ∀ {t : ℚ},
    u ∈ times end_ step t ↔ u < end_ ∧ ∃ j : ℕ, u = t + j * step := by
  intro t
  induction hn : count end_ step t generalizing t with
  | zero =>
      have hle := le_of_count_eq_zero hstep hn
      rw [times_of_le hstep hle]
      constructor
      · exact fun hu => absurd hu List.not_mem_nil
      · rintro ⟨hlt, j, rfl⟩
        have hj : 0 ≤ (j : ℚ) * step := by positivity
        linarith
  | succ n ih =>
      obtain ⟨hlt, hcount⟩ := of_count_eq_succ hstep hn
      rw [times_of_lt hstep hlt, List.mem_cons, ih hcount]
      constructor
      · rintro (rfl | ⟨hu, j, rfl⟩)
        · exact ⟨hlt, 0, by simp⟩
        · refine ⟨hu, j + 1, ?_⟩
          push_cast
          ring
      · rintro ⟨hu, j, rfl⟩
        cases j with
        | zero => exact .inl (by simp)
        | succ j =>
            refine .inr ⟨hu, j, ?_⟩
            push_cast
            ring

theorem times_pairwise {end_ step : ℚ} (hstep : 0 < step) (t : ℚ) :
    (times end_ step t).Pairwise (· < ·) := by
  induction hn : count end_ step t generalizing t with
  | zero =>
      rw [times, hn]
      exact List.Pairwise.nil
  | succ n ih =>
      obtain ⟨hlt, hcount⟩ := of_count_eq_succ hstep hn
      rw [times_of_lt hstep hlt]
      refine List.Pairwise.cons (fun u hu => ?_) (ih _ hcount)
      obtain ⟨-, j, rfl⟩ := (mem_times hstep).1 hu
      have hj : 0 ≤ (j : ℚ) * step := by positivity
      linarith

end ScalarGridGrapher

/-! ## The step and the precision -/

namespace ProfileViewClient

variable {C : Type} {view : ProfileView C} {c : ProfileViewClient}

/-- The time `minStrideWidth` pixels stand for. -/
def base (view : ProfileView C) (c : ProfileViewClient) : ℚ :=
  view.interval * minStrideWidth / c.size

theorem base_pos (hinterval : 0 < view.interval) (hsize : 0 < c.size) : 0 < base view c := by
  unfold base minStrideWidth
  positivity

/-- A one, a two or a five in the decade `k`, and how far it may exceed `b`. -/
def IsStride (step b : ℚ) (k : ℤ) : Prop :=
  (step = 10 ^ k ∧ step < 2 * b) ∨ (step = 2 * 10 ^ k ∧ step < 2 * b) ∨
    (step = 5 * 10 ^ k ∧ step < 5 / 2 * b)

/-- The decade of a stride is what the precision is worked out from. -/
theorem IsStride.log {step b : ℚ} {k : ℤ} (h : IsStride step b k) :
    Int.log 10 (step * (101 / 100)) = k := by
  have hten : (0 : ℚ) < 10 ^ k := zpow_pos (by norm_num) k
  have hbounds : (10 : ℚ) ^ k ≤ step ∧ step ≤ 5 * 10 ^ k := by
    rcases h with ⟨rfl, -⟩ | ⟨rfl, -⟩ | ⟨rfl, -⟩
    · constructor <;> linarith
    · constructor <;> linarith
    · constructor <;> linarith
  have hpos : 0 < step * (101 / 100) := by linarith [hbounds.1]
  have hlow : ((10 : ℕ) : ℚ) ^ k ≤ step * (101 / 100) := by
    push_cast
    linarith [hbounds.1]
  have hhigh : step * (101 / 100) < ((10 : ℕ) : ℚ) ^ (k + 1) := by
    rw [zpow_add_one₀ (by norm_num)]
    push_cast
    linarith [hbounds.2]
  have hge := (Int.zpow_le_iff_le_log (by norm_num) hpos).1 hlow
  have hlt := (Int.lt_zpow_iff_log_lt (by norm_num) hpos).1 hhigh
  omega

/-- The thresholds of `update`, in terms of the base. -/
theorem le_density_iff (hinterval : 0 < view.interval) (hsize : 0 < c.size) (m step : ℚ) :
    m * minStrideWidth ≤ step * (c.size / view.interval) ↔ m * base view c ≤ step := by
  unfold base
  rw [← mul_div_assoc, le_div_iff₀ hinterval, ← mul_div_assoc, div_le_iff₀ hsize]
  constructor <;> intro h <;> linarith

/-- `update` takes the next stride from the base on. -/
theorem update_isStride (hinterval : 0 < view.interval) (hsize : 0 < c.size) :
    ∃ k, IsStride (c.update view).step (base view c) k ∧ base view c ≤ (c.update view).step := by
  have hlow : base view c ≤ (10 : ℚ) ^ Int.clog 10 (base view c) := by
    exact_mod_cast Int.self_le_zpow_clog (b := 10) (by norm_num) (base view c)
  have hhigh : (10 : ℚ) ^ (Int.clog 10 (base view c) - 1) < base view c := by
    exact_mod_cast Int.zpow_pred_clog_lt_self (b := 10) (by norm_num) (base_pos hinterval hsize)
  have hdef : (c.update view).step =
      (let step : ℚ := 10 ^ Int.clog 10 (base view c)
        let step := if 5 * minStrideWidth ≤ step * (c.size / view.interval) then step / 5
          else step
        if 2 * minStrideWidth ≤ step * (c.size / view.interval) then step / 2 else step) := rfl
  rw [hdef]
  generalize Int.clog 10 (base view c) = decade at hlow hhigh
  have hdecade : (10 : ℚ) ^ decade = 10 * 10 ^ (decade - 1) := by
    rw [← zpow_one_add₀ (by norm_num)]
    congr 1
    omega
  simp only [le_density_iff hinterval hsize]
  by_cases h5 : 5 * base view c ≤ 10 ^ decade
  · -- a tenth of the power is below the base, so a fifth of it is below twice the base
    have h2 : ¬2 * base view c ≤ 10 ^ decade / 5 := by linarith
    rw [if_pos h5, if_neg h2]
    exact ⟨decade - 1, .inr (.inl ⟨by linarith, by linarith⟩), by linarith⟩
  · rw [if_neg h5]
    by_cases h2 : 2 * base view c ≤ 10 ^ decade
    · rw [if_pos h2]
      exact ⟨decade - 1, .inr (.inr ⟨by linarith, by linarith⟩), by linarith⟩
    · rw [if_neg h2]
      exact ⟨decade, .inl ⟨rfl, by linarith⟩, hlow⟩

/-- The precision is worked out from the decade of the stride. -/
theorem update_step (hinterval : 0 < view.interval) (hsize : 0 < c.size) :
    ∃ k, IsStride (c.update view).step (base view c) k ∧ base view c ≤ (c.update view).step ∧
      (c.update view).precision = max 0 (-k) := by
  obtain ⟨k, hk, hle⟩ := update_isStride hinterval hsize
  have hprecision : (c.update view).precision =
    max 0 (-Int.log 10 ((c.update view).step * (101 / 100))) := rfl
  refine ⟨k, hk, hle, ?_⟩
  rw [hprecision, hk.log]

theorem update_step_pos (hinterval : 0 < view.interval) (hsize : 0 < c.size) :
    0 < (c.update view).step := by
  obtain ⟨k, -, hle⟩ := update_isStride hinterval hsize
  exact (base_pos hinterval hsize).trans_le hle

/-- The precision stays in the range of `toFixed` exactly when the base is not too short. -/
theorem precision_le_iff (hinterval : 0 < view.interval) (hsize : 0 < c.size) :
    (c.update view).precision ≤ maxFractionDigits ↔ 5 * 10 ^ (-101 : ℤ) < base view c := by
  obtain ⟨k, hk, hle, hprecision⟩ := update_step hinterval hsize
  have hmax : (c.update view).precision ≤ maxFractionDigits ↔ -100 ≤ k := by
    rw [hprecision, maxFractionDigits]
    omega
  have htens : (10 : ℚ) ^ (-100 : ℤ) = 10 * 10 ^ (-101 : ℤ) := by norm_num
  have hten : (0 : ℚ) < 10 ^ (-101 : ℤ) := by positivity
  rw [hmax]
  constructor
  · intro hk100
    have hpow : (10 : ℚ) ^ (-100 : ℤ) ≤ 10 ^ k := zpow_le_zpow_right₀ (by norm_num) hk100
    rcases hk with ⟨heq, hlt⟩ | ⟨heq, hlt⟩ | ⟨heq, hlt⟩
    · linarith
    · linarith
    · linarith
  · intro hbase
    by_contra hk100
    have hpow : (10 : ℚ) ^ k ≤ 10 ^ (-101 : ℤ) := zpow_le_zpow_right₀ (by norm_num) (by omega)
    rcases hk with ⟨heq, -⟩ | ⟨heq, -⟩ | ⟨heq, -⟩
    · linarith
    · linarith
    · linarith

/-- A multiple of the step has no more decimals than the precision says. -/
theorem hasDecimals_multiple (hinterval : 0 < view.interval) (hsize : 0 < c.size) (n : ℤ) :
    HasDecimals (n * (c.update view).step) (c.update view).precision.toNat := by
  obtain ⟨k, hk, -, hprecision⟩ := update_step hinterval hsize
  have hdigit : ∃ m : ℤ, (c.update view).step = m * 10 ^ k := by
    rcases hk with ⟨heq, -⟩ | ⟨heq, -⟩ | ⟨heq, -⟩
    · exact ⟨1, by rw [heq]; push_cast; ring⟩
    · exact ⟨2, by rw [heq]; push_cast; ring⟩
    · exact ⟨5, by rw [heq]; push_cast; ring⟩
  obtain ⟨m, hm⟩ := hdigit
  rw [hm, hprecision]
  have hp : ((max 0 (-k)).toNat : ℤ) = max 0 (-k) := by omega
  obtain ⟨r, hr⟩ : ∃ r : ℕ, (r : ℤ) = k + max 0 (-k) := ⟨(k + max 0 (-k)).toNat, by omega⟩
  have hpow : (10 : ℚ) ^ k * 10 ^ (max 0 (-k)).toNat = 10 ^ r := by
    rw [← zpow_natCast, hp, ← zpow_add₀ (by norm_num), ← hr, zpow_natCast]
  refine ⟨n * m * 10 ^ r, ?_⟩
  rw [mul_assoc, mul_assoc, hpow]
  push_cast
  ring

end ProfileViewClient

namespace ScalarGridGrapher

variable {C : Type} {view : ProfileView C} {c : ProfileViewClient}

/-! ## What a grid is to be -/

/-- The times are the multiples of the step in the window, and maybe the one before it. -/
structure Complete (view : ProfileView C) (client : ProfileViewClient) (ts : List ℚ) : Prop where
  increasing : ts.Pairwise (· < ·)
  multiples : ∀ t ∈ ts, ∃ n : ℤ, t = n * client.step
  all : ∀ n : ℤ, view.start ≤ n * client.step → n * client.step < view.end_ →
    n * client.step ∈ ts
  inside : ∀ t ∈ ts, view.start ≤ t →
    0 ≤ t * client.scale - client.offset ∧ t * client.scale - client.offset < client.size
  outside : ∀ t ∈ ts, t < view.start → view.start - client.step < t
  one_outside : ∀ t ∈ ts, ∀ u ∈ ts, t < view.start → u < view.start → t = u

/-- The loops of `draw` end, and the lines it draws are those of the grid. -/
def Draws (view : ProfileView C) (client : ProfileViewClient) (g : ScalarGridGrapher)
    (gl : Size) : Prop :=
  ∃ fuel before after ts,
    g.draw fuel client view gl = some (some (before ++ ts.flatMap (line client gl) ++ after)) ∧
    (∀ command ∈ before ++ after, command.ordinate = none) ∧ Complete view client ts

/-- The lines are neither close nor far apart, their labels are exact, and they are all
drawn. -/
structure Readable (view : ProfileView C) (client : ProfileViewClient) : Prop where
  stride : ∃ k : ℤ,
    client.step = 10 ^ k ∨ client.step = 2 * 10 ^ k ∨ client.step = 5 * 10 ^ k
  spaced : minStrideWidth ≤ client.step * client.size / view.interval ∧
    client.step * client.size / view.interval < 5 / 2 * minStrideWidth
  labelled : ∀ n : ℤ, ∃ text, client.format "" (n * client.step) = some text ∧
    reading text = n * client.step
  distinct : ∀ (unit : String) (n m : ℤ),
    client.format unit (n * client.step) = client.format unit (m * client.step) → n = m
  drawn : ∀ (g : ScalarGridGrapher) (gl : Size), Draws view client g gl

/-! ## The lines -/

/-- Where a time stands in the drawing. -/
theorem position_eq (view : ProfileView C) (c : ProfileViewClient) (t : ℚ) :
    t * (c.update view).scale - (c.update view).offset =
      (t - view.start) * (c.size / view.interval) := by
  have hscale : (c.update view).scale = c.size / view.interval := rfl
  have hoffset : (c.update view).offset = view.start * (c.size / view.interval) := rfl
  rw [hscale, hoffset, sub_mul]

theorem position_inside (hinterval : 0 < view.interval) (hsize : 0 < c.size)
    (hmeasured : view.Measured) {t : ℚ} (hstart : view.start ≤ t) (hend : t < view.end_) :
    0 ≤ t * (c.update view).scale - (c.update view).offset ∧
      t * (c.update view).scale - (c.update view).offset < (c.update view).size := by
  have hdensity : 0 < c.size / view.interval := div_pos hsize hinterval
  have hlt : t - view.start < view.interval := by
    rw [hmeasured]
    linarith
  rw [position_eq]
  constructor
  · exact mul_nonneg (sub_nonneg.2 hstart) hdensity.le
  · calc (t - view.start) * (c.size / view.interval)
        < view.interval * (c.size / view.interval) := mul_lt_mul_of_pos_right hlt hdensity
      _ = c.size := mul_div_cancel₀ _ hinterval.ne'

/-- The first time is a multiple of the step less than half a step from the start, or just
half a step after it. -/
theorem round_bounds (start : ℚ) {step : ℚ} (hstep : 0 < step) :
    start - step / 2 < mathRound (start / step) * step ∧
      mathRound (start / step) * step ≤ start + step / 2 := by
  have hfloor := Int.floor_le (start / step + 1 / 2)
  have hceil := Int.lt_floor_add_one (start / step + 1 / 2)
  have hcancel : start / step * step = start := div_mul_cancel₀ _ hstep.ne'
  unfold mathRound
  constructor
  · nlinarith
  · nlinarith

/-- Only the first time may lie before the window. -/
theorem eq_first_of_lt {start end_ step : ℚ} (hstep : 0 < step) {first : ℤ}
    (hfirst : start - step / 2 < first * step) {t : ℚ} (ht : t ∈ times end_ step (first * step))
    (hlt : t < start) : t = first * step := by
  obtain ⟨-, j, rfl⟩ := (mem_times hstep).1 ht
  cases j with
  | zero => simp
  | succ j =>
      have hj : 0 ≤ (j : ℚ) * step := by positivity
      push_cast at hlt
      linarith

/-- No multiple in the window is left out. -/
theorem multiple_mem_times {start end_ step : ℚ} (hstep : 0 < step) {first : ℤ}
    (hfirst : first * step ≤ start + step / 2) {n : ℤ} (hstart : start ≤ n * step)
    (hend : n * step < end_) : n * step ∈ times end_ step (first * step) := by
  have hn : (first : ℚ) - 1 < n := by
    by_contra hle
    have hmul := mul_le_mul_of_nonneg_right (not_lt.1 hle) hstep.le
    linarith
  have hle : first ≤ n := by
    have : first - 1 < n := by exact_mod_cast hn
    omega
  obtain ⟨j, hj⟩ := Int.eq_ofNat_of_zero_le (sub_nonneg.2 hle)
  have hcast : (n : ℚ) = first + j := by
    have : n = first + j := by omega
    exact_mod_cast this
  apply (mem_times hstep).2
  refine ⟨hend, j, ?_⟩
  rw [hcast]
  ring

theorem complete_times (hinterval : 0 < view.interval) (hsize : 0 < c.size)
    (hmeasured : view.Measured) :
    Complete view (c.update view) (times view.end_ (c.update view).step
      (mathRound (view.start / (c.update view).step) * (c.update view).step)) := by
  have hstep := ProfileViewClient.update_step_pos hinterval hsize
  obtain ⟨hlow, hhigh⟩ := round_bounds view.start hstep
  have hinside : ∀ {t : ℚ}, view.start ≤ t → t < view.end_ →
      0 ≤ t * (c.update view).scale - (c.update view).offset ∧
        t * (c.update view).scale - (c.update view).offset < (c.update view).size :=
    fun hstart hend => position_inside hinterval hsize hmeasured hstart hend
  generalize (c.update view) = client at hstep hlow hhigh hinside
  generalize mathRound (view.start / client.step) = first at hlow hhigh
  constructor
  · exact times_pairwise hstep _
  · intro t ht
    obtain ⟨-, j, rfl⟩ := (mem_times hstep).1 ht
    exact ⟨first + j, by push_cast; ring⟩
  · exact fun n hstart hend => multiple_mem_times hstep hhigh hstart hend
  · exact fun t ht hstart => hinside hstart ((mem_times hstep).1 ht).1
  · intro t ht hlt
    rw [eq_first_of_lt hstep hlow ht hlt]
    linarith
  · intro t ht u hu hlt hlt'
    rw [eq_first_of_lt hstep hlow ht hlt, eq_first_of_lt hstep hlow hu hlt']

/-! ## The labels -/

/-- The labels of the multiples of the step are exact. -/
theorem format_multiple (hinterval : 0 < view.interval) (hsize : 0 < c.size)
    (hprecision : (c.update view).precision ≤ maxFractionDigits) (unit : String) (n : ℤ) :
    ∃ text, (c.update view).format unit (n * (c.update view).step) = some (text ++ unit) ∧
      reading text = n * (c.update view).step := by
  have hpos : 0 ≤ (c.update view).precision := le_max_left _ _
  have hdecimals := ProfileViewClient.hasDecimals_multiple hinterval hsize (c := c) n
  obtain ⟨text, htext, hreading⟩ := reading_toFixed hpos hprecision hdecimals
  refine ⟨text, ?_, hreading⟩
  rw [ProfileViewClient.format, htext]
  rfl

theorem format_injective (hinterval : 0 < view.interval) (hsize : 0 < c.size)
    (hprecision : (c.update view).precision ≤ maxFractionDigits) (unit : String) {n m : ℤ}
    (h : (c.update view).format unit (n * (c.update view).step) =
      (c.update view).format unit (m * (c.update view).step)) : n = m := by
  obtain ⟨text, htext, hreading⟩ := format_multiple hinterval hsize hprecision unit n
  obtain ⟨text', htext', hreading'⟩ := format_multiple hinterval hsize hprecision unit m
  rw [htext, htext'] at h
  have hsame : text = text' := by
    have hlists := congrArg String.toList (Option.some.inj h)
    rw [String.toList_append, String.toList_append] at hlists
    exact String.toList_inj.1 (List.append_cancel_right hlists)
  have hstep := ProfileViewClient.update_step_pos hinterval hsize
  rw [hsame, hreading'] at hreading
  exact_mod_cast (mul_right_cancel₀ hstep.ne' hreading).symm

/-! ## The drawing -/

theorem drawLines_eq {client : ProfileViewClient} (hstep : 0 < client.step)
    (g : ScalarGridGrapher) (gl : Size) (t0 end_ : ℚ) :
    drawLines (count end_ client.step t0 + 1) g client gl t0 end_ =
      some (some ([.strokeWidth 1, .strokeStyle g.style.gridColor, .beginPath] ++
        (times end_ client.step t0).flatMap (line client gl) ++ [.stroke])) := by
  have hlines : forTimes (count end_ client.step t0 + 1) t0 end_ client.step
      (fun t => some (line client gl t)) =
        some (some ((times end_ client.step t0).flatMap (line client gl))) :=
    forTimes_eq hstep fun _ _ => rfl
  rw [drawLines, hlines]
  rfl

/-- The head is drawn where every label is printed, and has no lines. -/
theorem drawHead_eq {client : ProfileViewClient} (hstep : 0 < client.step)
    (g : ScalarGridGrapher) (gl : Size) (t0 end_ : ℚ)
    (hformat : ∀ t ∈ times end_ client.step t0, ∃ text, client.format g.unit t = some text) :
    ∃ head, drawHead (count end_ client.step t0 + 1) g client gl t0 end_ = some (some head) ∧
      ∀ command ∈ head, command.ordinate = none := by
  have hlabel : ∀ t ∈ times end_ client.step t0, ∃ text x,
      g.label client t = some [.fillText text x g.style.headTextBaseline] := by
    intro t ht
    obtain ⟨text, htext⟩ := hformat t ht
    exact ⟨_, _, by rw [label, htext]; rfl⟩
  have hmarks : ∀ t ∈ times end_ client.step t0,
      g.label client t = some ((g.label client t).getD []) := by
    intro t ht
    obtain ⟨text, x, h⟩ := hlabel t ht
    rw [h]
    rfl
  refine ⟨_, by rw [drawHead, forTimes_eq hstep hmarks]; rfl, ?_⟩
  intro command hcommand
  rcases List.mem_append.1 hcommand with hcommand | hcommand
  · simp only [List.mem_cons, List.not_mem_nil, or_false] at hcommand
    rcases hcommand with rfl | rfl | rfl | rfl | rfl | rfl <;> rfl
  · obtain ⟨t, ht, hcommand⟩ := List.mem_flatMap.1 hcommand
    obtain ⟨text, x, h⟩ := hlabel t ht
    rw [h] at hcommand
    rw [List.mem_singleton.1 hcommand]
    rfl

theorem drawn (hinterval : 0 < view.interval) (hsize : 0 < c.size) (hmeasured : view.Measured)
    (hprecision : (c.update view).precision ≤ maxFractionDigits) (g : ScalarGridGrapher)
    (gl : Size) : Draws view (c.update view) g gl := by
  have hcomplete := complete_times hinterval hsize hmeasured
  have hstep := ProfileViewClient.update_step_pos hinterval hsize
  have hformat := format_multiple hinterval hsize hprecision g.unit
  generalize (c.update view) = client at hcomplete hstep hformat
  have hlines := drawLines_eq hstep g gl
    (mathRound (view.start / client.step) * client.step) view.end_
  have hhead := drawHead_eq hstep g gl (mathRound (view.start / client.step) * client.step)
    view.end_ fun t ht => by
      obtain ⟨n, rfl⟩ := hcomplete.multiples t ht
      obtain ⟨text, htext, -⟩ := hformat n
      exact ⟨_, htext⟩
  generalize count view.end_ client.step _ + 1 = fuel at hlines hhead
  cases hshow : g.showHead with
  | false =>
      refine ⟨fuel, [.strokeWidth 1, .strokeStyle g.style.gridColor, .beginPath], [.stroke], _,
        ?_, ?_, hcomplete⟩
      · rw [draw, hshow]
        simp only [Bool.false_eq_true, if_false, Option.bind_eq_bind, Option.bind_some, hlines]
        rfl
      · simp [Command.ordinate]
  | true =>
      obtain ⟨head, hdraw, hordinate⟩ := hhead
      refine ⟨fuel, head ++ [.strokeWidth 1, .strokeStyle g.style.gridColor, .beginPath],
        [.stroke], _, ?_, ?_, hcomplete⟩
      · rw [draw, hshow]
        simp only [if_true, Option.bind_eq_bind, hdraw, Option.bind_some, hlines,
          Option.map_some, List.append_assoc]
        rfl
      · simp only [List.mem_append, List.mem_cons, List.not_mem_nil, or_false]
        rintro command ((hcommand | rfl | rfl | rfl) | rfl)
        · exact hordinate command hcommand
        · rfl
        · rfl
        · rfl
        · rfl

/-! ## The main result -/

theorem update_spaced (hinterval : 0 < view.interval) (hsize : 0 < c.size) :
    minStrideWidth ≤ (c.update view).step * c.size / view.interval ∧
      (c.update view).step * c.size / view.interval < 5 / 2 * minStrideWidth := by
  obtain ⟨k, hk, hle, -⟩ := ProfileViewClient.update_step hinterval hsize
  have hb : ProfileViewClient.base view c * c.size = view.interval * minStrideWidth :=
    div_mul_cancel₀ _ hsize.ne'
  have hpos := ProfileViewClient.base_pos hinterval hsize
  have hlt : (c.update view).step < 5 / 2 * ProfileViewClient.base view c := by
    rcases hk with ⟨-, h⟩ | ⟨-, h⟩ | ⟨-, h⟩
    · linarith
    · linarith
    · exact h
  rw [le_div_iff₀ hinterval, div_lt_iff₀ hinterval]
  have hlow := mul_le_mul_of_nonneg_right hle hsize.le
  have hhigh := mul_lt_mul_of_pos_right hlt hsize
  constructor
  · linarith
  · linarith

theorem readable_of_precision (hinterval : 0 < view.interval) (hsize : 0 < c.size)
    (hmeasured : view.Measured) (hprecision : (c.update view).precision ≤ maxFractionDigits) :
    Readable view (c.update view) := by
  constructor
  · obtain ⟨k, hk, -, -⟩ := ProfileViewClient.update_step hinterval hsize
    refine ⟨k, ?_⟩
    rcases hk with ⟨h, -⟩ | ⟨h, -⟩ | ⟨h, -⟩
    · exact .inl h
    · exact .inr (.inl h)
    · exact .inr (.inr h)
  · exact update_spaced hinterval hsize
  · intro n
    obtain ⟨text, htext, hreading⟩ := format_multiple hinterval hsize hprecision "" n
    rw [String.append_empty] at htext
    exact ⟨text, htext, hreading⟩
  · exact fun unit n m => format_injective hinterval hsize hprecision unit
  · exact drawn hinterval hsize hmeasured hprecision

/-- A label is a text only where the precision is in the range of `toFixed`. -/
theorem Readable.precision_le {client : ProfileViewClient} (h : Readable view client) :
    client.precision ≤ maxFractionDigits := by
  obtain ⟨text, htext, -⟩ := h.labelled 0
  by_contra hlarge
  rw [ProfileViewClient.format, toFixed, if_pos (.inr (not_le.1 hlarge))] at htext
  cases htext

theorem readable_iff_precision (hinterval : 0 < view.interval) (hsize : 0 < c.size)
    (hmeasured : view.Measured) :
    Readable view (c.update view) ↔ (c.update view).precision ≤ maxFractionDigits := by
  constructor
  · exact Readable.precision_le
  · exact readable_of_precision hinterval hsize hmeasured

/-- On every view a program can come to, a client of some width finds a readable grid
exactly when the numbers have few enough decimals. -/
theorem run_readable_iff [DecidableEq C] {min max : ℚ} {calls : List (ProfileView.Call C)}
    {s : ProfileView.Observed C}
    (hrun : run ProfileView.step ⟨ProfileView.new min max, []⟩ calls = some s)
    (hinterval : 0 < s.view.interval) (hsize : 0 < c.size) :
    Readable s.view (c.update s.view) ↔
      5 * 10 ^ (-101 : ℤ) < s.view.interval * minStrideWidth / c.size :=
  (readable_iff_precision hinterval hsize (ProfileView.run_measured hrun)).trans
    (ProfileViewClient.precision_le_iff hinterval hsize)

/-- The grid is readable and complete exactly when the time of `minStrideWidth` pixels is
longer than half of the hundredth decimal. -/
theorem readable_iff (view : ProfileView C) (c : ProfileViewClient) (hinterval : 0 < view.interval)
    (hsize : 0 < c.size) (hmeasured : view.interval = view.end_ - view.start) :
    Readable view (c.update view) ↔
      5 * 10 ^ (-101 : ℤ) < view.interval * minStrideWidth / c.size :=
  (readable_iff_precision hinterval hsize hmeasured).trans
    (ProfileViewClient.precision_le_iff hinterval hsize)

/-- A window of three seconds in 240 pixels. -/
theorem readable_three : Readable (⟨7, 10, 0, 20, 3, []⟩ : ProfileView Unit)
    (ProfileViewClient.update ⟨1, 0, 0, 1, 240⟩ (⟨7, 10, 0, 20, 3, []⟩ : ProfileView Unit)) :=
  (readable_iff ⟨7, 10, 0, 20, 3, []⟩ ⟨1, 0, 0, 1, 240⟩ (by norm_num) (by norm_num)
    (by norm_num)).2 (by norm_num [minStrideWidth])

/-- In a window of `10 ^ -150` a label would have a hundred and fifty decimals. -/
theorem readable_not_tiny : ¬∀ (view : ProfileView Unit) (c : ProfileViewClient),
    0 < view.interval → 0 < c.size → view.interval = view.end_ - view.start →
    Readable view (c.update view) := by
  intro hall
  have hreadable := hall ⟨0, 10 ^ (-150 : ℤ), 0, 1, 10 ^ (-150 : ℤ), []⟩ ⟨1, 0, 0, 1, 80⟩
    (by norm_num) (by norm_num) (by norm_num)
  have hbase := (ProfileViewClient.precision_le_iff (by norm_num) (by norm_num)).1
    hreadable.precision_le
  norm_num [ProfileViewClient.base, minStrideWidth] at hbase

end ScalarGridGrapher

end SatAllocatorTest.Ports.Monitor
