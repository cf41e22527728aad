import Mathlib.Data.List.Perm.Basic
import Mathlib.Tactic.Linarith
import SatAllocatorTest.Ports.ProfileViewClient

/-!
# Drawing a flame chart

`NestedFlameGrapher` of `chart-flame.tsx`: a histogram tree drawn as nested rectangles.
Siblings are sorted by time and follow one another from the left edge of their parent;
what reaches out of the drawing is cut, and what lies outside of it is skipped with all
that is below it.

The cut is made in place, and the cut right edge is where the next sibling begins.  That
displaces nothing that can be seen: once an edge has been cut at the right border, all
that follows is outside.

Main result: `draw_fills`.
-/

namespace SatAllocatorTest.Ports.Monitor

namespace FlameChart

/-! ## The drawing -/

/-- A node of a histogram; one without `subs` has none. -/
inductive Node
  | mk (name : String) (time : ℚ) (subs : List Node)

namespace Node

def name : Node → String
  | mk name _ _ => name

def time : Node → ℚ
  | mk _ time _ => time

def subs : Node → List Node
  | mk _ _ subs => subs

end Node

/-- What is read of a style. -/
structure Style where
  height : ℚ
  textPadding : ℚ
  textBaseline : ℚ

/-- `chartStyles.flameStyle`. -/
def flameStyle : Style := ⟨16, 4, 8⟩

/-- What is read of the canvas: its height, and how much of a text fits in a width. -/
structure Canvas where
  height : ℚ
  trimTextRight : String → ℚ → String

/-- The colours rectangles are filled with. -/
inductive FillStyle
  | background
  | overflow
  deriving DecidableEq

/-- A call on the canvas. -/
inductive Command
  | fillRect (fillStyle : FillStyle) (left y width h : ℚ)
  | strokeRect (left y width h : ℚ)
  | fillText (text : String) (x y : ℚ)

/-- `subs.sort((a, b) => b.time - a.time)`. -/
def sortByTime (subs : List Node) : List Node := subs.mergeSort fun a b => b.time ≤ a.time

theorem mem_sortByTime {node : Node} {subs : List Node} : node ∈ sortByTime subs ↔ node ∈ subs :=
  List.mem_mergeSort

theorem sizeOf_sortByTime (subs : List Node) : sizeOf (sortByTime subs) = sizeOf subs :=
  (List.mergeSort_perm _ _).sizeOf_eq_sizeOf

theorem sizeOf_subs_lt (node : Node) (rest : List Node) :
    sizeOf (sortByTime node.subs) < sizeOf (node :: rest) := by
  rw [sizeOf_sortByTime]
  cases node
  simp only [Node.subs, List.cons.sizeOf_spec, Node.mk.sizeOf_spec]
  omega

theorem sizeOf_rest_lt (node : Node) (rest : List Node) : sizeOf rest < sizeOf (node :: rest) := by
  rw [List.cons.sizeOf_spec]
  have hpos : 0 < 1 + sizeOf node := by omega
  omega

section

variable (style : Style) (client : ProfileViewClient) (gl : Canvas)

/-- What is drawn of one node: its rectangle, and what goes into it. -/
def drawNode (node : Node) (left right y width : ℚ) (leftOverflow rightOverflow : Prop)
    [Decidable leftOverflow] [Decidable rightOverflow] : List Command :=
  let h := style.height
  if 0 ≤ y + h then
    .fillRect .background left y width h ::
      if 3 < width then
        let text := gl.trimTextRight node.name (width - style.textPadding * 2)
        .strokeRect left y width h ::
          (if text ≠ "" then [.fillText text (left + style.textPadding) (y + style.textBaseline)]
            else []) ++
          (if leftOverflow then [.fillRect .overflow (left + 1) y 2 h] else []) ++
          (if rightOverflow then [.fillRect .overflow (right - 3) y 2 h] else [])
      else []
  else []

/-- The loop of `drawNodes` over siblings that have been sorted. -/
def drawSorted : List Node → ℚ → ℕ → List Command
  | [], _, _ => []
  | node :: rest, posX, level =>
    let y := level * style.height
    let width := node.time * client.scale
    let left := posX
    let right := posX + width
    if left < client.size ∧ 0 < right then
      let leftOverflow := left < 0
      let width := if leftOverflow then width + left else width
      let left := if leftOverflow then 0 else left
      let rightOverflow := client.size < right
      let width := if rightOverflow then width + (client.size - right) else width
      let right := if rightOverflow then client.size else right
      drawNode style gl node left right y width leftOverflow rightOverflow ++
        ((if 1 / 2 < width ∧ y < gl.height then
            drawSorted (sortByTime node.subs) posX (level + 1)
          else []) ++
        drawSorted rest right level)
    else drawSorted rest right level
  termination_by nodes => sizeOf nodes
  decreasing_by
    · exact sizeOf_subs_lt node rest
    · exact sizeOf_rest_lt node rest
    · exact sizeOf_rest_lt node rest

/-- `drawNodes(gl, subs, posX, level)`. -/
def drawNodes (subs : List Node) (posX : ℚ) (level : ℕ) : List Command :=
  drawSorted style client gl (sortByTime subs) posX level

/-- `draw(gl)`, for data with these `subs`. -/
def draw (subs : List Node) : List Command := drawNodes style client gl subs (-client.offset) 0

end

/-! ## The layout -/

/-- A node of the layout: its left edge and its width, neither of them cut. -/
structure Interval where
  x : ℚ
  w : ℚ

/-- The interval of a node, and those of its ancestors, the nearest first. -/
structure Placed where
  own : Interval
  above : List Interval

/-- The sorted siblings from `x` on, and all that is below them. -/
def layoutSorted (scale : ℚ) : List Node → ℚ → List Interval → List Placed
  | [], _, _ => []
  | node :: rest, x, above =>
    let own : Interval := ⟨x, node.time * scale⟩
    ⟨own, above⟩ :: (layoutSorted scale (sortByTime node.subs) x (own :: above) ++
      layoutSorted scale rest (x + node.time * scale) above)
  termination_by nodes => sizeOf nodes
  decreasing_by
    · exact sizeOf_subs_lt node rest
    · exact sizeOf_rest_lt node rest

/-- The unclipped layout, one entry for each node. -/
def layout (scale : ℚ) (roots : List Node) (x : ℚ) : List Placed :=
  layoutSorted scale (sortByTime roots) x []

namespace Interval

/-- A part of the interval is in the drawing. -/
def Visible (size : ℚ) (i : Interval) : Prop := i.x < size ∧ 0 < i.x + i.w

instance (size : ℚ) (i : Interval) : Decidable (i.Visible size) :=
  inferInstanceAs (Decidable (_ ∧ _))

/-- The ends of the part in the drawing. -/
def left (i : Interval) : ℚ := max i.x 0

def right (size : ℚ) (i : Interval) : ℚ := min (i.x + i.w) size

end Interval

section

variable (style : Style) (size glHeight : ℚ)

/-- Each of these, one above the other, was painted, and is wide and high enough to go on
below. -/
def Opened : List Interval → Prop
  | [] => True
  | i :: above => i.Visible size ∧ 1 / 2 < i.right size - i.left ∧
      above.length * style.height < glHeight ∧ Opened above

/-- The node is in the drawing, and everything above it is opened. -/
def Placed.Painted (p : Placed) : Prop :=
  p.own.Visible size ∧ Opened style size glHeight p.above

instance decidableOpened : ∀ path, Decidable (Opened style size glHeight path)
  | [] => isTrue trivial
  | _ :: above =>
    have := decidableOpened above
    inferInstanceAs (Decidable (_ ∧ _ ∧ _ ∧ _))

instance (p : Placed) : Decidable (p.Painted style size glHeight) :=
  inferInstanceAs (Decidable (_ ∧ _))

/-- The rectangle of a node: its interval as far as it is in the drawing, at its level. -/
def Placed.rectangle (p : Placed) : Command :=
  .fillRect .background p.own.left (p.above.length * style.height)
    (p.own.right size - p.own.left) style.height

end

/-- The call fills the rectangle of a node. -/
def Command.FillsNode : Command → Bool
  | .fillRect .background _ _ _ _ => true
  | _ => false

/-! ## The fills are the visible part of the layout -/

/-- To prove something of all lists of siblings, prove it of a node and its siblings from
the sorted nodes below it and from the siblings that follow. -/
theorem siblings_induction {P : List Node → Prop} (nil : P [])
    (cons : ∀ node rest, P (sortByTime node.subs) → P rest → P (node :: rest)) :
    ∀ nodes, P nodes
  | [] => nil
  | node :: rest => cons node rest (siblings_induction nil cons (sortByTime node.subs))
      (siblings_induction nil cons rest)
  termination_by nodes => sizeOf nodes
  decreasing_by
    · exact sizeOf_subs_lt node rest
    · exact sizeOf_rest_lt node rest

/-- No node of the tree has a negative time. -/
inductive Node.Timed : Node → Prop
  | mk {name : String} {time : ℚ} {subs : List Node} (nonneg : 0 ≤ time)
      (below : ∀ sub ∈ subs, Timed sub) : Timed (.mk name time subs)

theorem Node.Timed.time_nonneg {node : Node} (h : node.Timed) : 0 ≤ node.time := by
  cases h with
  | mk nonneg below => exact nonneg

theorem Node.Timed.sorted {node : Node} (h : node.Timed) :
    ∀ sub ∈ sortByTime node.subs, sub.Timed := by
  cases h with
  | mk nonneg below => exact fun sub hsub => below sub (mem_sortByTime.1 hsub)

section

variable {style : Style} {client : ProfileViewClient} {gl : Canvas}

theorem Opened.visible {size glHeight : ℚ} {i : Interval} {above : List Interval}
    (h : Opened style size glHeight (i :: above)) : i.Visible size := h.1

/-- Below what is not opened nothing is painted. -/
theorem layout_closed {size glHeight scale : ℚ} (nodes : List Node) :
    ∀ (x : ℚ) (above : List Interval), ¬Opened style size glHeight above →
      (layoutSorted scale nodes x above).filter (·.Painted style size glHeight) = [] := by
  induction nodes using siblings_induction with
  | nil =>
      intro x above _
      rw [layoutSorted, List.filter_nil]
  | cons node rest below ih =>
      intro x above hclosed
      rw [layoutSorted, List.filter_cons_of_neg, List.filter_append, ih _ _ hclosed, below]
      · rfl
      · exact fun h : Opened style size glHeight (_ :: above) => hclosed h.2.2.2
      · simp only [decide_eq_true_eq]
        exact fun h => hclosed h.2

/-- From the right border on nothing is painted. -/
theorem layout_beyond {size glHeight scale : ℚ} (hscale : 0 < scale) (nodes : List Node) :
    ∀ (x : ℚ) (above : List Interval), (∀ node ∈ nodes, node.Timed) → size ≤ x →
      (layoutSorted scale nodes x above).filter (·.Painted style size glHeight) = [] := by
  induction nodes using siblings_induction with
  | nil =>
      intro x above _ _
      rw [layoutSorted, List.filter_nil]
  | cons node rest below ih =>
      intro x above htimed hx
      have hwidth : 0 ≤ node.time * scale :=
        mul_nonneg (htimed node List.mem_cons_self).time_nonneg hscale.le
      have hout : ¬(⟨x, node.time * scale⟩ : Interval).Visible size :=
        fun h => absurd h.1 (not_lt.2 hx)
      rw [layoutSorted, List.filter_cons_of_neg, List.filter_append,
        layout_closed _ _ _ fun h => hout h.visible,
        ih _ _ (fun n hn => htimed n (List.mem_cons_of_mem _ hn)) (by linarith)]
      · rfl
      · simp only [decide_eq_true_eq]
        exact fun h => hout h.1

/-- From the right border on nothing is drawn. -/
theorem draw_beyond (hscale : 0 < client.scale) : ∀ (nodes : List Node) (posX : ℚ) (level : ℕ),
    (∀ node ∈ nodes, node.Timed) → client.size ≤ posX →
      drawSorted style client gl nodes posX level = [] := by
  intro nodes
  induction nodes with
  | nil =>
      intro posX level _ _
      rw [drawSorted]
  | cons node rest ih =>
      intro posX level htimed hx
      have hwidth : 0 ≤ node.time * client.scale :=
        mul_nonneg (htimed node List.mem_cons_self).time_nonneg hscale.le
      rw [drawSorted, if_neg fun h => absurd h.1 (not_lt.2 hx)]
      exact ih _ _ (fun n hn => htimed n (List.mem_cons_of_mem _ hn)) (by linarith)

/-- One node fills one rectangle. -/
theorem drawNode_fills {node : Node} {left right y width : ℚ} {leftOverflow rightOverflow : Prop}
    [Decidable leftOverflow] [Decidable rightOverflow] (hy : 0 ≤ y + style.height) :
    (drawNode style gl node left right y width leftOverflow rightOverflow).filter
        Command.FillsNode = [.fillRect .background left y width style.height] := by
  have hinside : ∀ (P : Prop) [Decidable P] (c : Command), c.FillsNode = false →
      (if P then [c] else []).filter Command.FillsNode = [] := by
    intro P _ c hc
    split
    · rw [List.filter_cons_of_neg (by rw [hc]; decide), List.filter_nil]
    · rfl
  unfold drawNode
  rw [if_pos hy, List.filter_cons_of_pos rfl]
  congr 1
  split
  · dsimp only
    rw [List.filter_append, List.filter_append, List.filter_cons_of_neg Bool.false_ne_true,
      hinside _ _ rfl, hinside _ _ rfl, hinside _ _ rfl]
    rfl
  · rfl

/-- The left edge when the left side has been cut. -/
theorem clipped_left (i : Interval) : (if i.x < 0 then 0 else i.x) = i.left := by
  unfold Interval.left
  split
  · rw [max_eq_right (le_of_lt ‹_›)]
  · rw [max_eq_left (not_lt.1 ‹_›)]

/-- The width that is left when both sides have been cut. -/
theorem clipped_width (size : ℚ) (i : Interval) :
    (if size < i.x + i.w then (if i.x < 0 then i.w + i.x else i.w) + (size - (i.x + i.w))
      else (if i.x < 0 then i.w + i.x else i.w)) = i.right size - i.left := by
  unfold Interval.left Interval.right
  by_cases hleft : i.x < 0
  · rw [if_pos hleft, max_eq_right hleft.le]
    by_cases hright : size < i.x + i.w
    · rw [if_pos hright, min_eq_right hright.le]
      ring
    · rw [if_neg hright, min_eq_left (not_lt.1 hright)]
      ring
  · rw [if_neg hleft, max_eq_left (not_lt.1 hleft)]
    by_cases hright : size < i.x + i.w
    · rw [if_pos hright, min_eq_right hright.le]
      ring
    · rw [if_neg hright, min_eq_left (not_lt.1 hright)]
      ring

/-- Among siblings, what is filled is the visible part of the layout. -/
theorem drawSorted_fills (hstyle : 0 ≤ style.height) (hscale : 0 < client.scale)
    (nodes : List Node) :
    ∀ (posX : ℚ) (above : List Interval), (∀ node ∈ nodes, node.Timed) →
      Opened style client.size gl.height above →
      (drawSorted style client gl nodes posX above.length).filter Command.FillsNode =
        ((layoutSorted client.scale nodes posX above).filter
          (·.Painted style client.size gl.height)).map (·.rectangle style client.size) := by
  induction nodes using siblings_induction with
  | nil =>
      intro posX above _ _
      rw [drawSorted, layoutSorted]
      rfl
  | cons node rest below ih =>
      intro posX above htimed hopened
      have hnode := htimed node List.mem_cons_self
      have hrest : ∀ n ∈ rest, n.Timed := fun n hn => htimed n (List.mem_cons_of_mem _ hn)
      rw [drawSorted, layoutSorted]
      set own : Interval := ⟨posX, node.time * client.scale⟩ with hown
      by_cases hvisible : own.Visible client.size
      · have hwidth : (if client.size < posX + node.time * client.scale then
            (if posX < 0 then node.time * client.scale + posX else node.time * client.scale) +
              (client.size - (posX + node.time * client.scale))
          else if posX < 0 then node.time * client.scale + posX else node.time * client.scale) =
            own.right client.size - own.left := clipped_width client.size own
        have hleft : (if posX < 0 then 0 else posX) = own.left := clipped_left own
        have hy : 0 ≤ (above.length : ℚ) * style.height + style.height := by positivity
        have hopen : Opened style client.size gl.height (own :: above) ↔
            1 / 2 < own.right client.size - own.left ∧
              above.length * style.height < gl.height := by
          constructor
          · exact fun h => ⟨h.2.1, h.2.2.1⟩
          · exact fun h => ⟨hvisible, h.1, h.2, hopened⟩
        have hbelow : (if 1 / 2 < own.right client.size - own.left ∧
              above.length * style.height < gl.height then
            drawSorted style client gl (sortByTime node.subs) posX (above.length + 1)
          else []).filter Command.FillsNode =
            ((layoutSorted client.scale (sortByTime node.subs) posX (own :: above)).filter
              (·.Painted style client.size gl.height)).map (·.rectangle style client.size) := by
          by_cases h : Opened style client.size gl.height (own :: above)
          · rw [if_pos (hopen.1 h)]
            exact below posX (own :: above) hnode.sorted h
          · rw [if_neg fun hcond => h (hopen.2 hcond), layout_closed _ _ _ h]
            rfl
        have hafter : (drawSorted style client gl rest
              (if client.size < posX + node.time * client.scale then client.size
                else posX + node.time * client.scale) above.length).filter Command.FillsNode =
            ((layoutSorted client.scale rest (posX + node.time * client.scale) above).filter
              (·.Painted style client.size gl.height)).map (·.rectangle style client.size) := by
          by_cases hright : client.size < posX + node.time * client.scale
          · -- the edge was moved to the border, and all that follows is beyond it
            rw [if_pos hright, draw_beyond hscale rest _ _ hrest (le_refl _),
              layout_beyond hscale rest _ _ hrest hright.le]
            rfl
          · rw [if_neg hright]
            exact ih _ above hrest hopened
        rw [if_pos (show posX < client.size ∧ 0 < posX + node.time * client.scale from hvisible)]
        dsimp only
        rw [hwidth, hleft, List.filter_append, List.filter_append, drawNode_fills hy, hbelow,
          hafter, List.filter_cons_of_pos, List.filter_append, List.map_cons, List.map_append]
        · rfl
        · exact decide_eq_true ⟨hvisible, hopened⟩
      · -- nothing of the node is in the drawing, nor of what is below it
        rw [if_neg (show ¬(posX < client.size ∧ 0 < posX + node.time * client.scale) from hvisible),
          List.filter_cons_of_neg, List.filter_append, layout_closed _ _ _ fun h => hvisible h.visible,
          List.nil_append]
        · exact ih _ above hrest hopened
        · simp only [decide_eq_true_eq]
          exact fun h => hvisible h.1

/-- The rectangles filled for nodes are those of the nodes of the layout that are in the
drawing below opened ones: one for each, as far as it is in the drawing. -/
theorem draw_fills (hstyle : 0 ≤ style.height) (hscale : 0 < client.scale)
    {roots : List Node} (htimed : ∀ node ∈ roots, node.Timed) :
    (draw style client gl roots).filter Command.FillsNode =
      ((layout client.scale roots (-client.offset)).filter
        (·.Painted style client.size gl.height)).map (·.rectangle style client.size) :=
  drawSorted_fills hstyle hscale (sortByTime roots) _ []
    (fun node hnode => htimed node (mem_sortByTime.1 hnode)) trivial

end

/-- Two roots, the wider one with a node below it, in a drawing that begins in its middle. -/
theorem draw_fills_two :
    (draw flameStyle ⟨1, 0, 30, 100, 100⟩ ⟨40, fun text _ => text⟩
        [.mk "b" (1 / 4) [], .mk "a" (3 / 4) [.mk "c" (1 / 2) []]]).filter Command.FillsNode =
      ((layout 100 [.mk "b" (1 / 4) [], .mk "a" (3 / 4) [.mk "c" (1 / 2) []]] (-30)).filter
        (·.Painted flameStyle 100 40)).map (·.rectangle flameStyle 100) := by
  have leaf : ∀ (name : String) {time : ℚ}, 0 ≤ time → (Node.mk name time []).Timed :=
    fun name time htime => .mk htime fun _ hsub => absurd hsub List.not_mem_nil
  refine draw_fills (by norm_num [flameStyle]) (by norm_num) fun node hnode => ?_
  rcases List.mem_cons.1 hnode with rfl | hnode
  · exact leaf "b" (by norm_num)
  · obtain rfl := List.mem_singleton.1 hnode
    refine .mk (by norm_num) fun sub hsub => ?_
    obtain rfl := List.mem_singleton.1 hsub
    exact leaf "c" (by norm_num)

end FlameChart

end SatAllocatorTest.Ports.Monitor
