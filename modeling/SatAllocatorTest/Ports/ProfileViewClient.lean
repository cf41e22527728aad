import Mathlib.Data.Int.Log
import Mathlib.Tactic.FieldSimp
import SatAllocatorTest.Ports.ProfileView

/-!
# Panning and zooming

`ProfileViewClient` of `ProfileView.tsx`: a drawing of `size` pixels over the window of a
view.  Each client keeps the scale and the offset of its drawing, from which it works out
what a drag or a turn of the wheel asks of the view; the view tells all its clients of
the outcome, and they work these out again.  `draw` has no part in this and is left out.

Main result: `pan_zoom_law`.
-/

namespace SatAllocatorTest.Ports.Monitor

open SatAllocatorTest.Verified.Runs

/-- `const minStrideWidth = 80`. -/
def minStrideWidth : ℚ := 80

/-- `class ProfileViewClient`. -/
structure ProfileViewClient where
  step : ℚ
  precision : ℤ
  offset : ℚ
  scale : ℚ
  size : ℚ

namespace ProfileViewClient

variable {C : Type}

/-- `update()`. -/
def update (c : ProfileViewClient) (view : ProfileView C) : ProfileViewClient :=
  let scale := c.size / view.interval
  let base := view.interval * minStrideWidth / c.size
  let decade := Int.clog 10 base
  let pixelsDensity := c.size / view.interval
  let step : ℚ := 10 ^ decade
  let step := if 5 * minStrideWidth ≤ step * pixelsDensity then step / 5 else step
  let step := if 2 * minStrideWidth ≤ step * pixelsDensity then step / 2 else step
  { c with
    scale := scale
    offset := view.start * scale
    step := step
    precision := max 0 (-Int.log 10 (step * (101 / 100))) }

/-- `translate(deltaX)`. -/
def translate (c : ProfileViewClient) (view : ProfileView C) (deltaX : ℚ) :
    ProfileView C × List (ProfileView.Notification C) :=
  view.translate (deltaX / c.scale)

/-- `rescale(factor, pos)`. -/
def rescale (c : ProfileViewClient) (view : ProfileView C) (factor pos : ℚ) :
    ProfileView C × List (ProfileView.Notification C) :=
  let prev_scale := c.scale
  let prev_offset := c.offset
  let at_ := (prev_offset + pos) / prev_scale
  let scale := factor * prev_scale
  let offset := at_ * scale - at_ * prev_scale + prev_offset
  view.set (offset / scale) ((offset + c.size) / scale)

/-- The client draws the window of `view`. -/
def InStep (c : ProfileViewClient) (view : ProfileView C) : Prop :=
  c.scale = c.size / view.interval ∧ c.offset = view.start * c.scale

theorem update_inStep (c : ProfileViewClient) (view : ProfileView C) :
    (c.update view).InStep view := ⟨rfl, rfl⟩

/-! ## What translate and rescale ask for -/

/-- Neither end is cut again by `set`. -/
theorem translate_ends {view : ProfileView C} (hv : view.Valid) (delta : ℚ) :
    let d := max (view.min - view.start) (min (view.max - view.end_) delta)
    max (view.start + view.shift delta) view.min = view.start + d ∧
      min (view.end_ + view.shift delta) view.max = view.end_ + d := by
  obtain ⟨hmin, hmax⟩ := ProfileView.shift_inside hv delta
  rw [max_eq_left hmin, min_eq_left hmax, ProfileView.shift_eq hv]
  exact ⟨rfl, rfl⟩

/-- The ends `rescale` asks for, in terms of the window: the part to the left of the
pointer and the part to its right, each divided by the factor. -/
theorem rescale_ends {c : ProfileViewClient} {view : ProfileView C} (hstep : c.InStep view)
    (hinterval : 0 < view.interval) (hsize : 0 < c.size) {factor : ℚ} (hfactor : 0 < factor)
    (pos : ℚ) :
    let at_ := (c.offset + pos) / c.scale
    let scale := factor * c.scale
    let offset := at_ * scale - at_ * c.scale + c.offset
    let a := view.start + pos * view.interval / c.size
    offset / scale = a - pos * view.interval / (factor * c.size) ∧
      (offset + c.size) / scale = a + (c.size - pos) * view.interval / (factor * c.size) := by
  obtain ⟨hscale, hoffset⟩ := hstep
  have hinterval' := hinterval.ne'
  have hsize' := hsize.ne'
  have hfactor' := hfactor.ne'
  dsimp only
  rw [hoffset, hscale]
  constructor
  · field_simp
    ring
  · field_simp
    ring

/-- The pointer stands in the window, with a part of the window on one side of it at
least. -/
theorem rescale_between {start end_ size factor pos : ℚ} (hlt : start < end_) (hsize : 0 < size)
    (hfactor : 0 < factor) (hpos : 0 ≤ pos) (hle : pos ≤ size) :
    let a := start + pos * (end_ - start) / size
    let left := a - pos * (end_ - start) / (factor * size)
    let right := a + (size - pos) * (end_ - start) / (factor * size)
    left < right ∧ left < end_ ∧ start < right := by
  have hinterval : 0 < end_ - start := sub_pos.2 hlt
  have hleft : 0 ≤ pos * (end_ - start) / (factor * size) := by positivity
  have hright : 0 ≤ (size - pos) * (end_ - start) / (factor * size) :=
    div_nonneg (mul_nonneg (sub_nonneg.2 hle) hinterval.le) (by positivity)
  have hsum : pos * (end_ - start) / (factor * size) +
      (size - pos) * (end_ - start) / (factor * size) = (end_ - start) / factor := by
    field_simp
    ring
  have hwidth : 0 < (end_ - start) / factor := div_pos hinterval hfactor
  have ha0 : 0 ≤ pos * (end_ - start) / size := by positivity
  have ha1 : pos * (end_ - start) / size ≤ end_ - start := by
    rw [div_le_iff₀ hsize, mul_comm (end_ - start)]
    exact mul_le_mul_of_nonneg_right hle hinterval.le
  dsimp only
  refine ⟨by linarith, ?_, ?_⟩
  · -- the left end is left of the pointer, unless the pointer is at the start
    rcases hpos.eq_or_lt with rfl | hpos
    · simp only [zero_mul, zero_div]
      linarith
    · have : 0 < pos * (end_ - start) / (factor * size) := by positivity
      linarith
  · rcases hle.eq_or_lt with rfl | hlt'
    · have hone : pos * (end_ - start) / pos = end_ - start := mul_div_cancel_left₀ _ hsize.ne'
      rw [hone]
      linarith
    · have : 0 < (size - pos) * (end_ - start) / (factor * size) :=
        div_pos (mul_pos (sub_pos.2 hlt') hinterval) (by positivity)
      linarith

end ProfileViewClient

/-! ## A view and its clients -/

/-- A view, and the clients by name. -/
structure Drawings (C : Type) where
  view : ProfileView C
  client : C → ProfileViewClient

namespace Drawings

variable {C : Type} [DecidableEq C]

/-- A client that is told updates itself. -/
def refresh (s : Drawings C) (u : ProfileView.Notification C) : Drawings C :=
  { s with client := Function.update s.client u.1 ((s.client u.1).update u.2) }

/-- The clients that are told update themselves. -/
def notified (s : Drawings C) (told : List (ProfileView.Notification C)) : Drawings C :=
  told.foldl refresh s

/-- What the user does with a client. -/
inductive Event (C : Type)
  | translate (client : C) (deltaX : ℚ)
  | rescale (client : C) (factor pos : ℚ)

/-- One event; only clients that are mapped receive any, and the wheel turns inside the
drawing. -/
def step (s : Drawings C) : Event C → Option (Drawings C)
  | .translate c deltaX =>
    if c ∈ s.view.clients then
      let (view, told) := (s.client c).translate s.view deltaX
      some ({ s with view := view }.notified told)
    else none
  | .rescale c factor pos =>
    if c ∈ s.view.clients ∧ 0 < factor ∧ 0 ≤ pos ∧ pos ≤ (s.client c).size then
      let (view, told) := (s.client c).rescale s.view factor pos
      some ({ s with view := view }.notified told)
    else none

/-- The window is not empty, keeps to its bounds, and every mapped client draws it. -/
structure Ready (s : Drawings C) : Prop where
  min_le : s.view.min ≤ s.view.start
  ordered : s.view.start < s.view.end_
  le_max : s.view.end_ ≤ s.view.max
  interval_eq : s.view.interval = s.view.end_ - s.view.start
  size_pos : ∀ c ∈ s.view.clients, 0 < (s.client c).size
  inStep : ∀ c ∈ s.view.clients, (s.client c).InStep s.view

/-- What an event does to the window.  Under the wheel stands the time `a`. -/
def Law (s : Drawings C) (s' : Drawings C) : Event C → Prop
  | .translate c deltaX =>
    let d := max (s.view.min - s.view.start)
      (min (s.view.max - s.view.end_) (deltaX / (s.client c).scale))
    s'.view.interval = s.view.interval ∧ s'.view.start = s.view.start + d ∧
      s'.view.end_ = s.view.end_ + d
  | .rescale c factor pos =>
    let size := (s.client c).size
    let interval := s.view.interval
    let a := s.view.start + pos * interval / size
    let left := a - pos * interval / (factor * size)
    let right := a + (size - pos) * interval / (factor * size)
    s'.view.start = max left s.view.min ∧ s'.view.end_ = min right s.view.max ∧
      (s.view.min ≤ left → right ≤ s.view.max →
        a * (s'.client c).scale - (s'.client c).offset = pos)

omit [DecidableEq C] in
theorem Ready.valid {s : Drawings C} (hs : s.Ready) : s.view.Valid :=
  ⟨hs.min_le, hs.ordered.le, hs.le_max, hs.interval_eq⟩

/-! ## Notifications -/

theorem notified_view (told : List (ProfileView.Notification C)) :
    ∀ s : Drawings C, (s.notified told).view = s.view := by
  induction told with
  | nil => exact fun _ => rfl
  | cons u told ih => exact fun s => ih _

theorem refresh_size (s : Drawings C) (u : ProfileView.Notification C) (c : C) :
    ((s.refresh u).client c).size = (s.client c).size := by
  by_cases h : c = u.1
  · subst h
    have hclient : (s.refresh u).client u.1 = (s.client u.1).update u.2 :=
      Function.update_self _ _ _
    rw [hclient]
    rfl
  · exact congrArg ProfileViewClient.size (Function.update_of_ne h _ _)

theorem notified_size (told : List (ProfileView.Notification C)) :
    ∀ (s : Drawings C) (c : C), ((s.notified told).client c).size = (s.client c).size := by
  induction told with
  | nil => exact fun _ _ => rfl
  | cons u told ih => exact fun s c => (ih _ c).trans (refresh_size s u c)

/-- A client that is told, and any that drew the window already, draws it afterwards. -/
theorem notified_inStep (view : ProfileView C) : ∀ (cs : List C) (s : Drawings C) (c : C),
    c ∈ cs ∨ (s.client c).InStep view →
    ((s.notified (cs.map fun d => (d, view))).client c).InStep view := by
  intro cs
  induction cs with
  | nil =>
      intro s c h
      exact h.resolve_left List.not_mem_nil
  | cons d cs ih =>
      intro s c h
      refine ih _ c ?_
      by_cases hd : c = d
      · subst hd
        have hclient : (s.refresh (c, view)).client c = (s.client c).update view :=
          Function.update_self _ _ _
        exact .inr (hclient ▸ (s.client c).update_inStep view)
      · rcases h with h | h
        · exact .inl ((List.mem_cons.1 h).resolve_left hd)
        · have hclient : (s.refresh (d, view)).client c = s.client c :=
            Function.update_of_ne hd _ _
          exact .inr (hclient ▸ h)

/-- The state after `set(start, end)`. -/
def afterSet (s : Drawings C) (start end_ : ℚ) : Drawings C :=
  { s with view := (s.view.set start end_).1 }.notified (s.view.set start end_).2

theorem afterSet_view (s : Drawings C) (start end_ : ℚ) :
    (s.afterSet start end_).view = s.view.assign start end_ := notified_view _ _

theorem afterSet_size (s : Drawings C) (start end_ : ℚ) (c : C) :
    ((s.afterSet start end_).client c).size = (s.client c).size := notified_size _ _ c

/-- An event that happens has the view set its window. -/
theorem step_eq_afterSet {s s' : Drawings C} {e : Event C} (h : step s e = some s') :
    ∃ start end_, s' = s.afterSet start end_ := by
  cases e with
  | translate c deltaX =>
      rw [step] at h
      split at h
      · cases h
        exact ⟨_, _, rfl⟩
      · cases h
  | rescale c factor pos =>
      rw [step] at h
      split at h
      · cases h
        exact ⟨_, _, rfl⟩
      · cases h

/-- No event changes the clients of the view, its bounds, or the size of a drawing. -/
theorem step_keeps {s s' : Drawings C} {e : Event C} (h : step s e = some s') :
    s'.view.clients = s.view.clients ∧ s'.view.min = s.view.min ∧ s'.view.max = s.view.max ∧
      ∀ c, (s'.client c).size = (s.client c).size := by
  obtain ⟨start, end_, rfl⟩ := step_eq_afterSet h
  rw [afterSet_view]
  exact ⟨rfl, rfl, rfl, afterSet_size s start end_⟩

/-- After `set`, the drawings of all mapped clients follow the new window. -/
theorem afterSet_ready {s : Drawings C} (hs : s.Ready) {start end_ : ℚ}
    (hlt : max start s.view.min < min end_ s.view.max) : (s.afterSet start end_).Ready := by
  refine ⟨?_, ?_, ?_, ?_, ?_, ?_⟩
  · rw [afterSet_view]
    exact le_max_right _ _
  · rw [afterSet_view]
    exact hlt
  · rw [afterSet_view]
    exact min_le_right _ _
  · rw [afterSet_view]
    rfl
  · intro c hc
    rw [afterSet_view] at hc
    rw [afterSet_size]
    exact hs.size_pos c hc
  · intro c hc
    rw [afterSet_view] at hc ⊢
    exact notified_inStep _ s.view.clients _ c (.inl hc)

/-! ## One event -/

/-- `translate` moves the window. -/
theorem step_translate {s : Drawings C} (hs : s.Ready) {c : C} (hc : c ∈ s.view.clients)
    (deltaX : ℚ) :
    ∃ s', step s (.translate c deltaX) = some s' ∧ s.Law s' (.translate c deltaX) ∧
      s'.Ready := by
  set delta := deltaX / (s.client c).scale with hdelta
  obtain ⟨hstart, hend⟩ := ProfileViewClient.translate_ends hs.valid delta
  refine ⟨s.afterSet (s.view.start + s.view.shift delta) (s.view.end_ + s.view.shift delta),
    if_pos hc, ?_, ?_⟩
  · change (s.afterSet _ _).view.interval = _ ∧ (s.afterSet _ _).view.start = _ ∧
      (s.afterSet _ _).view.end_ = _
    rw [afterSet_view]
    change min _ _ - max _ _ = s.view.interval ∧ max _ _ = _ ∧ min _ _ = _
    rw [hstart, hend, hs.interval_eq]
    exact ⟨by ring, rfl, rfl⟩
  · refine afterSet_ready hs ?_
    rw [hstart, hend]
    have hlt := hs.ordered
    linarith

/-- `rescale` stretches the window around the time under the pointer. -/
theorem step_rescale {s : Drawings C} (hs : s.Ready) {c : C} (hc : c ∈ s.view.clients)
    {factor pos : ℚ} (hfactor : 0 < factor) (hpos : 0 ≤ pos) (hle : pos ≤ (s.client c).size) :
    ∃ s', step s (.rescale c factor pos) = some s' ∧ s.Law s' (.rescale c factor pos) ∧
      s'.Ready := by
  have hsize := hs.size_pos c hc
  have hinterval : 0 < s.view.interval := by
    rw [hs.interval_eq]
    exact sub_pos.2 hs.ordered
  obtain ⟨hleft, hright⟩ :=
    ProfileViewClient.rescale_ends (hs.inStep c hc) hinterval hsize hfactor pos
  obtain ⟨hlt, hend, hstart⟩ :=
    ProfileViewClient.rescale_between hs.ordered hsize hfactor hpos hle
  rw [← hs.interval_eq] at hlt hend hstart
  have hstep : step s (.rescale c factor pos) = some (s.afterSet _ _) :=
    if_pos ⟨hc, hfactor, hpos, hle⟩
  refine ⟨_, hstep, ?_⟩
  rw [hleft, hright]
  set a := s.view.start + pos * s.view.interval / (s.client c).size with ha
  set left := a - pos * s.view.interval / (factor * (s.client c).size) with hl
  set right := a + ((s.client c).size - pos) * s.view.interval / (factor * (s.client c).size)
    with hr
  have hready : (s.afterSet left right).Ready := by
    refine afterSet_ready hs (max_lt (lt_min hlt ?_) (lt_min ?_ ?_))
    · exact hend.trans_le hs.le_max
    · exact hs.min_le.trans_lt hstart
    · exact hs.min_le.trans_lt (hs.ordered.trans_le hs.le_max)
  refine ⟨⟨by rw [afterSet_view]; rfl, by rw [afterSet_view]; rfl, ?_⟩, hready⟩
  intro hmin hmax
  have hmem : c ∈ (s.afterSet left right).view.clients := by
    rw [afterSet_view]
    exact hc
  obtain ⟨hscale, hoffset⟩ := hready.inStep c hmem
  have hstart' : (s.afterSet left right).view.start = left := by
    rw [afterSet_view]
    exact max_eq_left hmin
  have hinterval' : (s.afterSet left right).view.interval = right - left := by
    rw [afterSet_view]
    change min right s.view.max - max left s.view.min = right - left
    rw [min_eq_left hmax, max_eq_left hmin]
  have hwidth : right - left = s.view.interval / factor := by
    rw [hr, hl]
    field_simp
    ring
  -- the pointer is as far from the new left end, in pixels, as it was
  rw [hoffset, hscale, afterSet_size, hstart', hinterval', hwidth, ← sub_mul,
    show a - left = pos * s.view.interval / (factor * (s.client c).size) by rw [hl]; ring]
  field_simp

/-- An event that happens finds its client mapped, and the drawings stay ready. -/
theorem step_ready (s : Drawings C) (e : Event C) (s' : Drawings C) (hs : s.Ready)
    (h : step s e = some s') : s'.Ready := by
  cases e with
  | translate c deltaX =>
      by_cases hc : c ∈ s.view.clients
      · obtain ⟨t, ht, -, hready⟩ := step_translate hs hc deltaX
        cases ht.symm.trans h
        exact hready
      · rw [step, if_neg hc] at h
        cases h
  | rescale c factor pos =>
      by_cases hc : c ∈ s.view.clients ∧ 0 < factor ∧ 0 ≤ pos ∧ pos ≤ (s.client c).size
      · obtain ⟨hmem, hfactor, hpos, hle⟩ := hc
        obtain ⟨t, ht, -, hready⟩ := step_rescale hs hmem hfactor hpos hle
        cases ht.symm.trans h
        exact hready
      · rw [step, if_neg hc] at h
        cases h

/-- After any events the window is not empty and every mapped client draws it; and whatever
the user then does with a mapped client happens, and pans or zooms as it should. -/
theorem pan_zoom_law {s₀ : Drawings C} (h₀ : s₀.Ready) (events : List (Event C)) (s : Drawings C)
    (hrun : run step s₀ events = some s) :
    s.Ready ∧ ∀ c ∈ s.view.clients,
      (∀ deltaX, ∃ s', step s (.translate c deltaX) = some s' ∧
        s.Law s' (.translate c deltaX) ∧ s'.Ready) ∧
      ∀ factor pos, 0 < factor → 0 ≤ pos → pos ≤ (s.client c).size →
        ∃ s', step s (.rescale c factor pos) = some s' ∧
          s.Law s' (.rescale c factor pos) ∧ s'.Ready := by
  have hs : s.Ready := run_invariant step_ready events s₀ s h₀ hrun
  refine ⟨hs, fun c hc => ⟨fun deltaX => step_translate hs hc deltaX, ?_⟩⟩
  intro factor pos hfactor hpos hle
  exact step_rescale hs hc hfactor hpos hle

/-- A view of `[0, 4]` that shows `[1, 3]` to one client of a hundred pixels. -/
def oneDrawing : Drawings Unit := ⟨⟨1, 3, 0, 4, 2, [()]⟩, fun _ => ⟨1, 0, 50, 50, 100⟩⟩

/-- The drawing is dragged past the end of the view, which stops it after one second; then
the wheel halves the window around its middle, which stays where it is. -/
theorem pan_zoom_law_dragged :
    ∃ s s' : Drawings Unit, run step oneDrawing [.translate () 200] = some s ∧
      (s.view.start = 2 ∧ s.view.end_ = 4) ∧ step s (.rescale () 2 50) = some s' ∧
      (s'.view.start = 5 / 2 ∧ s'.view.end_ = 7 / 2) ∧
      3 * (s'.client ()).scale - (s'.client ()).offset = 50 ∧ s'.Ready := by
  have hready : oneDrawing.Ready :=
    ⟨by norm_num [oneDrawing], by norm_num [oneDrawing], by norm_num [oneDrawing],
      by norm_num [oneDrawing], fun _ _ => by norm_num [oneDrawing],
      fun _ _ => ⟨by norm_num [oneDrawing], by norm_num [oneDrawing]⟩⟩
  obtain ⟨s, hs, ⟨hinterval, hstart, hend⟩, -⟩ :=
    ((pan_zoom_law hready [] oneDrawing rfl).2 () (List.mem_singleton.2 rfl)).1 200
  norm_num [oneDrawing] at hinterval hstart hend
  obtain ⟨hclients, hmin, hmax, hsize⟩ := step_keeps hs
  have hrun : run step oneDrawing [.translate () 200] = some s := by
    rw [run, hs]
    rfl
  obtain ⟨s', hs', ⟨hstart', hend', hpos⟩, hready'⟩ :=
    ((pan_zoom_law hready _ s hrun).2 () (hclients ▸ List.mem_singleton.2 rfl)).2 2 50
      (by norm_num) (by norm_num) (by norm_num [hsize, oneDrawing])
  norm_num [hstart, hinterval, hsize, hmin, hmax, oneDrawing] at hstart' hend' hpos
  exact ⟨s, s', hrun, ⟨hstart, hend⟩, hs', ⟨hstart', hend'⟩, hpos, hready'⟩

end Drawings

end SatAllocatorTest.Ports.Monitor
