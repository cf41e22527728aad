import Mathlib.Order.Bounds.Basic
import SatAllocatorTest.Ports.ProfileSampler
import SatAllocatorTest.Ports.ScalarGrid

/-!
# Drawing samples

`draw` of `SamplesGrapher` in `SamplesGraph.tsx`: the samples of a label as an area over the
zero axis.  `apply` has worked out the range of the values; `draw` maps it to the band
between the two paddings, upside down, as heights on a canvas count from the top.

The range begins as the single point zero, and the fold keeps its two ends in order.
That is why the maximum need not be tested where the minimum has moved.

Main result: `apply_draw_band`.
-/

namespace SatAllocatorTest.Ports.Monitor

open Canvas ProfileSampler

/-! ## The range of the values -/

/-- The ends of the range are the least and the greatest of some values. -/
structure RangeType.Spans (range : RangeType) (values : Set ℚ) : Prop where
  least : IsLeast values range.valueMin
  greatest : IsGreatest values range.valueMax

theorem RangeType.Spans.ordered {range : RangeType} {values : Set ℚ} (h : range.Spans values) :
    range.valueMin ≤ range.valueMax := h.least.2 h.greatest.1

theorem RangeType.Spans.congr {range : RangeType} {values values' : Set ℚ}
    (h : range.Spans values) (heq : ∀ v, v ∈ values ↔ v ∈ values') : range.Spans values' :=
  Set.ext heq ▸ h

namespace SamplesBlock

/-- As long as the ends of the range are in order, one test decides which of them moves. -/
theorem widen_eq {range : RangeType} (hrange : range.valueMin ≤ range.valueMax) (value : ℚ) :
    widen range value = ⟨min value range.valueMin, max value range.valueMax⟩ := by
  unfold widen
  split
  · rename_i hlt
    rw [min_eq_left hlt.le, max_eq_right (hlt.le.trans hrange)]
  · rename_i hle
    split
    · rename_i hgt
      rw [min_eq_right (not_lt.1 hle), max_eq_left hgt.le]
    · rename_i hle'
      rw [min_eq_right (not_lt.1 hle), max_eq_right (not_lt.1 hle')]

theorem widen_spans {range : RangeType} {values : Set ℚ} (h : range.Spans values) (value : ℚ) :
    (widen range value).Spans (insert value values) := by
  rw [widen_eq h.ordered]
  exact ⟨h.least.insert value, h.greatest.insert value⟩

theorem foldl_widen_spans : ∀ (list : List ℚ) {range : RangeType} {values : Set ℚ},
    range.Spans values → (list.foldl widen range).Spans {v | v ∈ values ∨ v ∈ list} := by
  intro list
  induction list with
  | nil => exact fun h => h.congr fun v => by simp
  | cons value list ih =>
      intro range values h
      refine (ih (widen_spans h value)).congr fun v => ?_
      simp only [Set.mem_ofPred_eq, Set.mem_insert_iff, List.mem_cons]
      tauto

end SamplesBlock

namespace SamplesGrapher

/-- The values of a label in all blocks. -/
def allValues (label : String) (blocks : List SamplesBlock) : Set ℚ :=
  {v | ∃ b ∈ blocks, v ∈ b.values label}

/-- The range `apply` works out. -/
theorem foldl_getValueRange_spans (label : String) : ∀ (blocks : List SamplesBlock)
    {range : RangeType} {values : Set ℚ}, range.Spans values →
    (blocks.foldl (fun range b => b.getValueRange label range) range).Spans
      {v | v ∈ values ∨ v ∈ allValues label blocks} := by
  intro blocks
  induction blocks with
  | nil => exact fun h => h.congr fun v => by simp [allValues]
  | cons b blocks ih =>
      intro range values h
      refine (ih (SamplesBlock.foldl_widen_spans (b.values label) h)).congr fun v => ?_
      simp only [allValues, Set.mem_ofPred_eq, List.mem_cons, exists_eq_or_imp]
      tauto

/-! ## The drawing -/

/-- What is read of a style. -/
structure CurveStyle where
  textFont : String
  textColor : String
  areaColor : String
  areaOutline : String
  axisColor : String

/-- `chartStyles.curveStyle`. -/
def curveStyle : CurveStyle where
  textFont := "14px 'Lucida Grande', 'Open Sans', sans-serif"
  textColor := "#000"
  areaColor := "rgba(0,0,255,0.3)"
  areaOutline := "rgba(0,0,255,0.8)"
  axisColor := "rgba(100,200,255,0.8)"

/-- `padding || 5`. -/
def paddingOr5 : Option ℚ → ℚ
  | none => 5
  | some padding => if padding = 0 then 5 else padding

/-- The variable `pos`, and what has been drawn. -/
structure Pen where
  pos : Option ℚ
  drawn : List Command

/-- Where a value is drawn. -/
def ordinateOf (valueScale valueOffset value : ℚ) : ℚ := value * valueScale + valueOffset

section

variable (client : ProfileViewClient) (valueScale valueOffset : ℚ)

/-- The loop over the values of a block, from the index `i` on. -/
def plotValues (times : List ℚ) : (i : ℕ) → List ℚ → Pen → Pen
  | _, [], pen => pen
  | i, value :: rest, pen =>
    let pos := times[i]?.map fun time => time * client.scale - client.offset
    let command := Command.lineTo pos (ordinateOf valueScale valueOffset value)
    plotValues times (i + 1) rest ⟨pos, pen.drawn ++ [command]⟩

/-- The loop over the blocks; none if it reads of a block that has no samples. -/
def plotBlocks (label : String) : List SamplesBlock → Pen → Option Pen
  | [], pen => some pen
  | b :: rest, pen => do
    let samples ← b.samples
    match samples label, samples "time" with
    | some values, some times =>
      plotBlocks label rest (plotValues client valueScale valueOffset times 0 values pen)
    | _, _ => plotBlocks label rest pen

end

/-- `this.blocks`, with the blocks the sampler keeps. -/
def shown (g : SamplesGrapher) (block : Location → SamplesBlock) : Option (List SamplesBlock) :=
  g.blocks.map fun blocks => blocks.map block

/-- The area of the samples. -/
def drawArea (client : ProfileViewClient) (style : CurveStyle) (label : String)
    (blocks : Option (List SamplesBlock)) (valueScale valueOffset : ℚ) : Option (List Command) := do
  let path ← match blocks with
    | some blocks => do
      let start : Pen := ⟨some 0, [.moveTo (some 0) valueOffset]⟩
      let pen ← plotBlocks client valueScale valueOffset label blocks start
      some (pen.drawn ++ [.lineTo pen.pos valueOffset])
    | none => some []
  return [.fillStyle style.areaColor, .strokeStyle style.areaOutline, .beginPath] ++ path ++
    [.stroke, .closePath, .fill]

/-- `draw(gl, paddingTop, paddingBottom)`; none if it throws. -/
def draw (g : SamplesGrapher) (block : Location → SamplesBlock) (client : ProfileViewClient)
    (title : String) (style : CurveStyle) (gl : Size) (paddingTop paddingBottom : Option ℚ) :
    Option (List Command) := do
  let paddingTop := paddingOr5 paddingTop
  let paddingBottom := paddingOr5 paddingBottom
  let flat := (gl.height - paddingTop, [])
  let (valueOffset, area) ← match g.range with
    | some range =>
      let valueInterval := range.valueMax - range.valueMin
      if valueInterval > 0 then do
        let valueScale := -(gl.height - paddingTop - paddingBottom) / valueInterval
        let valueOffset := -range.valueMax * valueScale + paddingTop
        let area ← drawArea client style g.label (g.shown block) valueScale valueOffset
        some (valueOffset, area)
      else some flat
    -- the difference of two fields that are not assigned is not a number
    | none => some flat
  return [.font style.textFont, .textAlign "left", .textBaseline "top",
      .fillStyle style.textColor, .fillText title 0 paddingTop] ++ area ++
    [.strokeStyle style.axisColor, .beginPath, .moveTo (some 0) valueOffset,
      .lineTo (some client.size) valueOffset, .stroke]

/-! ## The heights -/

/-- The heights of the points of a path. -/
def ordinates (commands : List Command) : List ℚ := commands.filterMap Command.ordinate

theorem ordinates_append (cs cs' : List Command) :
    ordinates (cs ++ cs') = ordinates cs ++ ordinates cs' := List.filterMap_append

/-- The values that are drawn: those of the blocks that have times for them. -/
def plotted (label : String) (b : SamplesBlock) : List ℚ :=
  if (b.samples.bind (· "time")).isSome then b.values label else []

section

variable (client : ProfileViewClient) (valueScale valueOffset : ℚ)

theorem plotValues_ordinates (times : List ℚ) : ∀ (values : List ℚ) (i : ℕ) (pen : Pen),
    ordinates (plotValues client valueScale valueOffset times i values pen).drawn =
      ordinates pen.drawn ++ values.map (ordinateOf valueScale valueOffset) := by
  intro values
  induction values with
  | nil => exact fun i pen => (List.append_nil _).symm
  | cons value rest ih =>
      intro i pen
      rw [plotValues, ih, ordinates_append, List.append_assoc]
      rfl

theorem plotBlocks_ordinates (label : String) : ∀ (blocks : List SamplesBlock) (pen : Pen),
    (∀ b ∈ blocks, b.samples.isSome = true) →
    ∃ pen', plotBlocks client valueScale valueOffset label blocks pen = some pen' ∧
      ordinates pen'.drawn = ordinates pen.drawn ++
        (blocks.flatMap (plotted label)).map (ordinateOf valueScale valueOffset) := by
  intro blocks
  induction blocks with
  | nil => exact fun pen _ => ⟨pen, rfl, (List.append_nil _).symm⟩
  | cons b rest ih =>
      intro pen hloaded
      obtain ⟨hb, hrest⟩ := List.forall_mem_cons.1 hloaded
      obtain ⟨samples, hsamples⟩ := Option.isSome_iff_exists.1 hb
      rw [plotBlocks, hsamples, List.flatMap_cons, List.map_append]
      have hplotted : plotted label b =
          if (samples "time").isSome then (samples label).getD [] else [] := by
        rw [plotted, SamplesBlock.values, hsamples]
        rfl
      simp only [Option.bind_eq_bind, Option.bind_some]
      split
      · rename_i values times hvalues htimes
        obtain ⟨pen', hpen', hord⟩ :=
          ih (plotValues client valueScale valueOffset times 0 values pen) hrest
        refine ⟨pen', hpen', ?_⟩
        rw [hord, plotValues_ordinates, hplotted, hvalues, htimes, List.append_assoc]
        rfl
      · rename_i hnone
        obtain ⟨pen', hpen', hord⟩ := ih pen hrest
        refine ⟨pen', hpen', ?_⟩
        have hnil : plotted label b = [] := by
          rw [hplotted]
          cases htimes : samples "time" with
          | none => rfl
          | some times =>
              cases hvalues : samples label with
              | none => rfl
              | some values => exact absurd htimes (hnone values times hvalues)
        rw [hord, hnil]
        rfl

end

/-- The path of the area: from the axis through the values and back to the axis. -/
theorem drawArea_ordinates (client : ProfileViewClient) (style : CurveStyle) (label : String)
    {blocks : List SamplesBlock} (hloaded : ∀ b ∈ blocks, b.samples.isSome = true)
    (valueScale valueOffset : ℚ) :
    ∃ area, drawArea client style label (some blocks) valueScale valueOffset = some area ∧
      ordinates area = (0 :: (blocks.flatMap (plotted label) ++ [0])).map
        (ordinateOf valueScale valueOffset) := by
  obtain ⟨pen, hpen, hord⟩ := plotBlocks_ordinates client valueScale valueOffset label blocks
    ⟨some 0, [.moveTo (some 0) valueOffset]⟩ hloaded
  have hzero : ordinateOf valueScale valueOffset 0 = valueOffset := by simp [ordinateOf]
  refine ⟨_, by rw [drawArea]; simp only [hpen, Option.bind_eq_bind, Option.bind_some]; rfl, ?_⟩
  rw [ordinates_append, ordinates_append, ordinates_append, hord, List.map_cons, List.map_append,
    List.map_cons, hzero]
  simp [ordinates, List.filterMap_cons, Command.ordinate]

/-! ## The band -/

/-- The values stand in the band from `top` to `bottom`: greater values higher, which is at
smaller heights, and the two ends of the range on its edges. -/
structure Banded (range : RangeType) (top bottom : ℚ) (place : ℚ → ℚ) : Prop where
  higher : StrictAnti place
  at_max : place range.valueMax = top
  at_min : place range.valueMin = bottom

theorem Banded.inside {range : RangeType} {top bottom : ℚ} {place : ℚ → ℚ}
    (h : Banded range top bottom place) {value : ℚ} (hvalue : range.Holds value) :
    top ≤ place value ∧ place value ≤ bottom := by
  rw [← h.at_max, ← h.at_min]
  exact ⟨h.higher.antitone hvalue.2, h.higher.antitone hvalue.1⟩

/-- The scale and the offset of `draw` map the range to the band. -/
theorem banded_ordinateOf {range : RangeType} {height top bottom : ℚ}
    (hrange : range.valueMin < range.valueMax) (hheight : top + bottom < height) :
    let valueScale := -(height - top - bottom) / (range.valueMax - range.valueMin)
    Banded range top (height - bottom)
      (ordinateOf valueScale (-range.valueMax * valueScale + top)) := by
  have hinterval : 0 < range.valueMax - range.valueMin := sub_pos.2 hrange
  intro valueScale
  have hscale : valueScale < 0 := div_neg_of_neg_of_pos (by linarith) hinterval
  have hcancel : valueScale * (range.valueMax - range.valueMin) = -(height - top - bottom) :=
    div_mul_cancel₀ _ hinterval.ne'
  constructor
  · intro value value' hlt
    have hmul := mul_lt_mul_of_neg_right hlt hscale
    exact add_lt_add_left hmul _
  · unfold ordinateOf
    ring
  · unfold ordinateOf
    linarith

/-- What `draw` plots where the range and the band have an inside. -/
theorem draw_ordinates {g : SamplesGrapher} {block : Location → SamplesBlock}
    {range : RangeType} {locations : List Location} (hrange : g.range = some range)
    (hblocks : g.blocks = some locations)
    (hloaded : ∀ l ∈ locations, (block l).samples.isSome = true)
    (hlt : range.valueMin < range.valueMax) (client : ProfileViewClient) (title : String)
    (style : CurveStyle) (gl : Size) (paddingTop paddingBottom : Option ℚ)
    (hheight : paddingOr5 paddingTop + paddingOr5 paddingBottom < gl.height) :
    ∃ commands place,
      g.draw block client title style gl paddingTop paddingBottom = some commands ∧
      Banded range (paddingOr5 paddingTop) (gl.height - paddingOr5 paddingBottom) place ∧
      ordinates commands =
        (0 :: ((locations.map block).flatMap (plotted g.label) ++ [0, 0, 0])).map place := by
  have hbanded := banded_ordinateOf hlt hheight
  have hinterval : range.valueMax - range.valueMin > 0 := sub_pos.2 hlt
  simp only at hbanded
  unfold draw
  simp only [hrange, if_pos hinterval]
  generalize -(gl.height - paddingOr5 paddingTop - paddingOr5 paddingBottom) /
    (range.valueMax - range.valueMin) = valueScale at hbanded
  generalize -range.valueMax * valueScale + paddingOr5 paddingTop = valueOffset at hbanded
  have hloaded' : ∀ b ∈ locations.map block, b.samples.isSome = true := by
    intro b hb
    obtain ⟨l, hl, rfl⟩ := List.mem_map.1 hb
    exact hloaded l hl
  obtain ⟨area, harea, hord⟩ := drawArea_ordinates client style g.label hloaded' valueScale
    valueOffset
  have hshown : g.shown block = some (locations.map block) := by
    rw [shown, hblocks]
    rfl
  rw [hshown, harea]
  have hzero : ordinateOf valueScale valueOffset 0 = valueOffset := by simp [ordinateOf]
  refine ⟨_, _, rfl, hbanded, ?_⟩
  rw [ordinates_append, ordinates_append, hord]
  simp [ordinates, List.filterMap_cons, Command.ordinate, hzero]

theorem mem_values_of_mem_plotted {label : String} {b : SamplesBlock} {v : ℚ}
    (hv : v ∈ plotted label b) : v ∈ b.values label := by
  unfold plotted at hv
  split at hv
  · exact hv
  · exact absurd hv List.not_mem_nil

/-- What is drawn is zero or a value of the label. -/
theorem mem_of_mem_drawn {label : String} {block : Location → SamplesBlock}
    {locations : List Location} {v : ℚ}
    (hv : v ∈ 0 :: ((locations.map block).flatMap (plotted label) ++ [0, 0, 0])) :
    v = 0 ∨ ∃ l ∈ locations, v ∈ (block l).values label := by
  rcases List.mem_cons.1 hv with rfl | hv
  · exact .inl rfl
  rcases List.mem_append.1 hv with hv | hv
  · obtain ⟨b, hb, hv⟩ := List.mem_flatMap.1 hv
    obtain ⟨l, hl, rfl⟩ := List.mem_map.1 hb
    exact .inr ⟨l, hl, mem_values_of_mem_plotted hv⟩
  · simp only [List.mem_cons, List.not_mem_nil, or_false, or_self] at hv
    exact .inl hv

theorem apply_chart {C : Type} [DecidableEq C] (w : World C) (chart : C)
    (locations : List Location) :
    (w.apply chart locations).charts chart =
      ⟨(w.charts chart).label, some locations,
        some (locations.foldl
          (fun range l => (w.block l).getValueRange (w.charts chart).label range) ⟨0, 0⟩)⟩ :=
  Function.update_self ..

theorem apply_spans {C : Type} [DecidableEq C] (w : World C) (chart : C)
    (locations : List Location) :
    ∃ range, ((w.apply chart locations).charts chart).range = some range ∧
      range.Spans {v | v = 0 ∨ ∃ l ∈ locations, v ∈ (w.block l).values (w.charts chart).label} := by
  have hzero : (⟨0, 0⟩ : RangeType).Spans {0} := ⟨isLeast_singleton, isGreatest_singleton⟩
  have hfold := foldl_getValueRange_spans (w.charts chart).label (locations.map w.block) hzero
  rw [List.foldl_map] at hfold
  rw [apply_chart]
  refine ⟨_, rfl, hfold.congr fun v => ?_⟩
  simp [allValues]

/-- The range of a chart is that of zero and all values of its label, and the drawing keeps
to the band: with zero and the values inside, greater values higher, and the two extremes
on the edges. -/
theorem apply_draw_band {C : Type} [DecidableEq C] (w : World C) (chart : C)
    (locations : List Location)
    (hloaded : ∀ l ∈ locations, ((w.apply chart locations).block l).samples.isSome = true) :
    let w' := w.apply chart locations
    let g := w'.charts chart
    ∃ range, g.range = some range ∧
      range.Spans {v | v = 0 ∨ ∃ l ∈ locations, v ∈ (w'.block l).values g.label} ∧
      ∀ (client : ProfileViewClient) (title : String) (style : CurveStyle) (gl : Size)
        (paddingTop paddingBottom : Option ℚ), range.valueMin < range.valueMax →
        let top := paddingOr5 paddingTop
        let bottom := gl.height - paddingOr5 paddingBottom
        paddingOr5 paddingTop + paddingOr5 paddingBottom < gl.height →
        ∃ commands place,
          g.draw w'.block client title style gl paddingTop paddingBottom = some commands ∧
          Banded range top bottom place ∧
          ordinates commands =
            (0 :: ((locations.map w'.block).flatMap (plotted g.label) ++ [0, 0, 0])).map place ∧
          ∀ y ∈ ordinates commands, top ≤ y ∧ y ≤ bottom := by
  intro w' g
  have happly := apply_chart w chart locations
  have hblocks : g.blocks = some locations := (congrArg blocks happly :)
  have hlabel : g.label = (w.charts chart).label := (congrArg label happly :)
  obtain ⟨range, hrange, hspans⟩ := apply_spans w chart locations
  rw [← hlabel] at hspans
  refine ⟨range, hrange, hspans, ?_⟩
  intro client title style gl paddingTop paddingBottom hlt top bottom hheight
  obtain ⟨commands, place, hdraw, hbanded, hord⟩ := draw_ordinates hrange hblocks hloaded hlt
    client title style gl paddingTop paddingBottom hheight
  refine ⟨commands, place, hdraw, hbanded, hord, ?_⟩
  intro y hy
  rw [hord] at hy
  obtain ⟨v, hv, rfl⟩ := List.mem_map.1 hy
  have hmem := mem_of_mem_drawn hv
  exact hbanded.inside ⟨hspans.least.2 hmem, hspans.greatest.2 hmem⟩

/-- The block at zero has samples of `cpu`, every other block has samples of nothing. -/
def oneLabelled : World Unit where
  blockLevels l :=
    some ⟨1, some fun label => if l = ⟨0, 0⟩ ∧ (label = "cpu" ∨ label = "time") then some [1, -3]
      else none⟩
  charts _ := ⟨"cpu", none, none⟩

/-- In a canvas of height 100 the band reaches from 5 to 95. -/
theorem apply_draw_band_two : ∃ commands,
    ((oneLabelled.apply () [⟨1, 0⟩, ⟨0, 0⟩]).charts ()).draw
      (oneLabelled.apply () [⟨1, 0⟩, ⟨0, 0⟩]).block ⟨1, 0, 0, 1, 240⟩ "CPU" curveStyle ⟨240, 100⟩
      (some 5) (some 0) = some commands ∧
    ∀ y ∈ ordinates commands, 5 ≤ y ∧ y ≤ 95 := by
  obtain ⟨range, hrange, hspans, hdraw⟩ := apply_draw_band oneLabelled () [⟨1, 0⟩, ⟨0, 0⟩]
    fun _ _ => rfl
  have hlow : range.valueMin ≤ -3 :=
    hspans.least.2 (.inr ⟨⟨0, 0⟩, by simp, by decide⟩)
  have hhigh : 0 ≤ range.valueMax := hspans.greatest.2 (.inl rfl)
  obtain ⟨commands, -, hcommands, -, -, hinside⟩ := hdraw ⟨1, 0, 0, 1, 240⟩ "CPU" curveStyle
    ⟨240, 100⟩ (some 5) (some 0) (by linarith) (by norm_num [paddingOr5])
  refine ⟨commands, hcommands, fun y hy => ?_⟩
  have h := hinside y hy
  norm_num [paddingOr5] at h
  exact h

end SamplesGrapher

end SatAllocatorTest.Ports.Monitor
