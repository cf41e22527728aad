import Mathlib.Data.Rat.Floor
import Mathlib.Algebra.Order.Group.MinMax
import Mathlib.Algebra.Order.Ring.Rat
import Mathlib.Tactic.Linarith
import SatAllocatorTest.Verified.Runs

/-!
# The time window of a profile

`ProfileView.tsx`: a window `[start, end]` inside the bounds `[min, max]`, shared by
the clients registered with `map`, each of which is told of every change.  Numbers are
exact.  A method returns the view it leaves and the notifications it sends on the way:
to whom, and the view as the client finds it.  No code assigns `onChange`, so it is
left out.

`set` clamps the new start from below only and the new end from above only, and `clip`
moves the bounds without regard to the window.  So a window keeps to its bounds only as
long as each requested range meets them; `translate` always does.

Main result: `run_valid_iff`.
-/

namespace SatAllocatorTest.Ports.Monitor

open SatAllocatorTest.Verified.Runs

/-- `class ProfileView`; `C` is the type of its clients. -/
structure ProfileView (C : Type) where
  start : ℚ
  end_ : ℚ
  min : ℚ
  max : ℚ
  interval : ℚ
  clients : List C
  deriving DecidableEq

namespace ProfileView

variable {C D : Type}

/-- `new ProfileView(min, max)`. -/
def new (min max : ℚ) : ProfileView C := ⟨min, max, min, max, max - min, []⟩

/-- A client, and the view its `update` finds. -/
abbrev Notification (C : Type) := C × ProfileView C

/-- `for (const c of this.clients) c.update()`. -/
def notify (v : ProfileView C) : List (Notification C) :=
  v.clients.map fun c => (c, v)

/-- The assignments of `set`. -/
def assign (v : ProfileView C) (start end_ : ℚ) : ProfileView C :=
  let start := Max.max start v.min
  let end_ := Min.min end_ v.max
  { v with start := start, end_ := end_, interval := end_ - start }

/-- `set(start, end)`. -/
def set (v : ProfileView C) (start end_ : ℚ) :
    ProfileView C × List (Notification C) :=
  (v.assign start end_, (v.assign start end_).notify)

/-- `clip(min, max)`. -/
def clip (v : ProfileView C) (min max : ℚ) :
    ProfileView C × List (Notification C) :=
  { v with min := min, max := max }.set v.start v.end_

/-- The distance `translate` settles on. -/
def shift (v : ProfileView C) (delta : ℚ) : ℚ :=
  let start_delta := Max.max (v.start + delta) v.min - v.start
  let end_delta := Min.min (v.end_ + delta) v.max - v.end_
  if start_delta * start_delta < end_delta * end_delta then start_delta else end_delta

/-- `translate(delta)`. -/
def translate (v : ProfileView C) (delta : ℚ) :
    ProfileView C × List (Notification C) :=
  v.set (v.start + v.shift delta) (v.end_ + v.shift delta)

/-- A call of a method. -/
inductive Op (C : Type)
  | set (start end_ : ℚ)
  | clip (min max : ℚ)
  | translate (delta : ℚ)
  | map (client : C)
  | unmap (client : C)

/-- The call, and the notifications it sends. -/
def exec [DecidableEq C] (v : ProfileView C) :
    Op C → ProfileView C × List (Notification C)
  | .set start end_ => v.set start end_
  | .clip min max => v.clip min max
  | .translate delta => v.translate delta
  | .map client => ({ v with clients := v.clients ++ [client] }, [])
  | .unmap client => ({ v with clients := v.clients.erase client }, [])

/-- The same call for other names of the clients. -/
def Op.rename (f : C → D) : Op C → Op D
  | .set start end_ => .set start end_
  | .clip min max => .clip min max
  | .translate delta => .translate delta
  | .map client => .map (f client)
  | .unmap client => .unmap (f client)

/-- The call goes through `set`, and so tells the clients. -/
def Op.Moves : Op C → Prop
  | .set _ _ => True
  | .clip _ _ => True
  | .translate _ => True
  | .map _ => False
  | .unmap _ => False

/-! ## The window and its bounds -/

/-- The window lies in its bounds. -/
structure Valid (v : ProfileView C) : Prop where
  min_le : v.min ≤ v.start
  ordered : v.start ≤ v.end_
  le_max : v.end_ ≤ v.max
  interval_eq : v.interval = v.end_ - v.start

/-- The arguments of a call are in order. -/
def Op.Ordered : Op C → Prop
  | .set start end_ => start ≤ end_
  | .clip min max => min ≤ max
  | _ => True

/-- The range a call asks for and the bounds it is to lie in have a point in common. -/
def Op.Meets (v : ProfileView C) : Op C → Prop
  | .set start end_ => start ≤ v.max ∧ v.min ≤ end_
  | .clip min max => v.start ≤ max ∧ min ≤ v.end_
  | _ => True

/-- `set` ends in a valid window exactly when the range asked for meets the bounds. -/
theorem assign_valid_iff {v : ProfileView C} (hbounds : v.min ≤ v.max) {start end_ : ℚ}
    (hle : start ≤ end_) : (v.assign start end_).Valid ↔ start ≤ v.max ∧ v.min ≤ end_ := by
  constructor
  · intro hvalid
    have hcross : Max.max start v.min ≤ Min.min end_ v.max := hvalid.ordered
    exact ⟨(le_max_left _ _).trans (hcross.trans (min_le_right _ _)),
      (le_max_right _ _).trans (hcross.trans (min_le_left _ _))⟩
  · rintro ⟨hstart, hend⟩
    exact ⟨le_max_right _ _, max_le (le_min hle hstart) (le_min hend hbounds), min_le_right _ _, rfl⟩

theorem Valid.bounds {v : ProfileView C} (hv : v.Valid) : v.min ≤ v.max :=
  hv.min_le.trans (hv.ordered.trans hv.le_max)

/-- The distance is the one asked for, cut to what either end may move. -/
theorem shift_eq {v : ProfileView C} (hv : v.Valid) (delta : ℚ) :
    v.shift delta = Max.max (v.min - v.start) (Min.min (v.max - v.end_) delta) := by
  obtain ⟨hmin, hord, hmax, -⟩ := hv
  have hstart : Max.max (v.start + delta) v.min - v.start = Max.max delta (v.min - v.start) := by
    rw [← max_sub_sub_right, add_sub_cancel_left]
  have hend : Min.min (v.end_ + delta) v.max - v.end_ = Min.min (v.max - v.end_) delta := by
    rw [← min_sub_sub_right, add_sub_cancel_left, min_comm]
  unfold ProfileView.shift
  rw [hstart, hend]
  rcases le_total 0 delta with hpos | hneg
  · -- to the right: the start moves freely, and the end stops at the upper bound
    have hend0 : 0 ≤ Min.min (v.max - v.end_) delta := le_min (sub_nonneg.2 hmax) hpos
    have hend1 : Min.min (v.max - v.end_) delta ≤ delta := min_le_right _ _
    rw [max_eq_left ((sub_nonpos.2 hmin).trans hpos), max_eq_right ((sub_nonpos.2 hmin).trans hend0),
      if_neg (not_lt.2 (mul_self_le_mul_self hend0 hend1))]
  · -- to the left: the end moves freely, and the start stops at the lower bound
    have hstart0 : Max.max delta (v.min - v.start) ≤ 0 := max_le hneg (sub_nonpos.2 hmin)
    have hstart1 : delta ≤ Max.max delta (v.min - v.start) := le_max_left _ _
    rw [min_eq_right (hneg.trans (sub_nonneg.2 hmax)), max_comm (v.min - v.start)]
    by_cases hlt : Max.max delta (v.min - v.start) * Max.max delta (v.min - v.start) < delta * delta
    · rw [if_pos hlt]
    · rw [if_neg hlt]
      nlinarith

/-- The distance takes neither end of a valid window across a bound. -/
theorem shift_inside {v : ProfileView C} (hv : v.Valid) (delta : ℚ) :
    v.min ≤ v.start + v.shift delta ∧ v.end_ + v.shift delta ≤ v.max := by
  have hroom : v.min - v.start ≤ v.max - v.end_ := by
    have := hv.min_le
    have := hv.le_max
    linarith
  have hlow : v.min - v.start ≤ v.shift delta := shift_eq hv delta ▸ le_max_left _ _
  have hhigh : v.shift delta ≤ v.max - v.end_ :=
    shift_eq hv delta ▸ max_le hroom (min_le_left _ _)
  constructor
  · linarith
  · linarith

/-- A step from a valid window leads to a valid one exactly when it meets the bounds. -/
theorem exec_valid_iff [DecidableEq C] {v : ProfileView C} (hv : v.Valid) {op : Op C}
    (hop : op.Ordered) : (v.exec op).1.Valid ↔ op.Meets v := by
  cases op with
  | set start end_ => exact assign_valid_iff hv.bounds hop
  | clip min max =>
      exact assign_valid_iff (v := { v with min := min, max := max }) hop hv.ordered
  | translate delta =>
      obtain ⟨hmin, hmax⟩ := shift_inside hv delta
      have hord := hv.ordered
      refine iff_of_true ((assign_valid_iff hv.bounds (by linarith)).2 ⟨?_, ?_⟩) trivial
      · linarith
      · linarith
  | map client => exact iff_of_true ⟨hv.min_le, hv.ordered, hv.le_max, hv.interval_eq⟩ trivial
  | unmap client => exact iff_of_true ⟨hv.min_le, hv.ordered, hv.le_max, hv.interval_eq⟩ trivial

/-- A client that is told of a change finds the view as the call leaves it. -/
theorem exec_notified [DecidableEq C] (v : ProfileView C) (op : Op C) :
    ∀ u ∈ (v.exec op).2, u.2 = (v.exec op).1 := by
  have notified : ∀ w : ProfileView C, ∀ u ∈ w.notify, u.2 = w := by
    intro w u hu
    obtain ⟨c, -, rfl⟩ := List.mem_map.1 hu
    rfl
  cases op with
  | set start end_ => exact notified _
  | clip min max => exact notified _
  | translate delta => exact notified _
  | map client => exact fun _ hu => absurd hu List.not_mem_nil
  | unmap client => exact fun _ hu => absurd hu List.not_mem_nil

/-! ## Runs -/

/-- A call whose arguments are in order. -/
abbrev Call (C : Type) := { op : Op C // op.Ordered }

/-- A view, and what the clients were told during the last call. -/
structure Observed (C : Type) where
  view : ProfileView C
  seen : List (Notification C)

/-- The next call. -/
def step [DecidableEq C] (s : Observed C) (call : Call C) : Option (Observed C) :=
  some ⟨(s.view.exec call.1).1, (s.view.exec call.1).2⟩

/-- The window is valid after the last call, and was in every notification it sent. -/
def Observed.Valid (s : Observed C) : Prop := s.view.Valid ∧ ∀ u ∈ s.seen, u.2.Valid

/-- The range asked for and the bounds have a point in common. -/
def Observed.Meets (s : Observed C) (call : Call C) : Prop := call.1.Meets s.view

theorem new_valid {min max : ℚ} (hle : min ≤ max) : (new min max : ProfileView C).Valid :=
  ⟨le_refl _, hle, le_refl _, rfl⟩

/-- From the constructor on, the window stays in its bounds, and every client finds it
there, if and only if each range that is asked for meets the bounds in force. -/
theorem run_valid_iff [DecidableEq C] (min max : ℚ) (hle : min ≤ max) (calls : List (Call C)) :
    AllStates step Observed.Valid ⟨new min max, []⟩ calls ↔
      AllSteps step Observed.Meets ⟨new min max, []⟩ calls := by
  refine allStates_iff_allSteps (I := fun _ => True) (fun _ _ _ _ _ => trivial) ?_ calls _ trivial
    ⟨new_valid hle, fun _ hu => absurd hu List.not_mem_nil⟩
  rintro s call s' - ⟨hview, -⟩ hstep
  cases hstep
  refine Iff.trans ?_ (exec_valid_iff hview call.2)
  constructor
  · exact fun h => h.1
  · exact fun h => ⟨h, fun u hu => (exec_notified _ _ u hu).symm ▸ h⟩

/-- Half of the window, moved to the right as far as it goes, in bounds that grow. -/
theorem run_valid_half :
    AllStates step Observed.Valid ⟨(new 0 1 : ProfileView Unit), []⟩
      [⟨.map (), trivial⟩, ⟨.set 0 (1 / 2), one_half_pos.le⟩, ⟨.translate 3, trivial⟩,
        ⟨.clip 0 2, zero_le_two⟩] := by
  refine (run_valid_iff 0 1 (by norm_num) _).2 ?_
  intro s₁ h₁
  cases h₁
  refine ⟨trivial, ?_⟩
  intro s₂ h₂
  cases h₂
  refine ⟨by norm_num [Observed.Meets, Op.Meets, exec, new], ?_⟩
  intro s₃ h₃
  cases h₃
  refine ⟨trivial, ?_⟩
  intro s₄ h₄
  cases h₄
  refine ⟨?_, trivial⟩
  norm_num [Observed.Meets, Op.Meets, exec, new, translate, set, assign, shift]

/-- `set(2, 3)` on a view of `[0, 1]` leaves the window `[2, 1]`. -/
theorem set_beyond_max : ¬∀ (min max : ℚ) (calls : List (Call Unit)), min ≤ max →
    AllStates step Observed.Valid ⟨new min max, []⟩ calls := by
  intro hall
  have hrun := hall 0 1 [⟨.set 2 3, by norm_num [Op.Ordered]⟩] (by norm_num)
  have hord : Max.max (2 : ℚ) 0 ≤ Min.min (3 : ℚ) 1 := (hrun.2 _ rfl).1.ordered
  norm_num at hord

end ProfileView

end SatAllocatorTest.Ports.Monitor
