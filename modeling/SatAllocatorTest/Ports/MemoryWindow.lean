import Mathlib.Data.Rat.Floor
import Mathlib.Algebra.Order.Ring.Rat
import Mathlib.Tactic.Linarith
import SatAllocatorTest.Verified.Runs

/-!
# The pages of the memory window

`MemoryWindow/index.tsx`: a window onto the objects of the heap, one page at a time,
and the row of page numbers under it.  Every click sends a query at once; several may be
in flight, and whichever answer comes replaces what is shown.

Nothing ties an answer to the last query, and the page it was asked for is cut to the
page count it brings.  An empty heap has page count `0`, and its last page is `-1`.

Main results: `page_shown_iff`, `queries_wellFormed_iff`.
-/

namespace SatAllocatorTest.Ports.Monitor

open SatAllocatorTest.Verified.Runs

/-! ## The row of pages -/

/-- `class Pagination`: its props. -/
structure Pagination where
  pageIndex : ℤ
  pageCount : ℤ
  width : ℤ
  deriving DecidableEq

namespace Pagination

/-- The page `handleNext` asks for. -/
def handleNext (p : Pagination) : ℤ := min (p.pageCount - 1) (p.pageIndex + 1)

/-- The page `handleBack` asks for. -/
def handleBack (p : Pagination) : ℤ := max 0 (p.pageIndex - 1)

/-- `startIndex` and `endIndex` of `render`. -/
def span (p : Pagination) : ℤ × ℤ :=
  let halfLength := p.width.tdiv 2
  let startIndex := p.pageIndex - halfLength
  let endIndex := p.pageIndex + halfLength + 1
  let (startIndex, endIndex) :=
    if startIndex < 0 then (0, endIndex - startIndex) else (startIndex, endIndex)
  if p.pageCount < endIndex then
    (max 0 (startIndex - (endIndex - p.pageCount)), p.pageCount)
  else (startIndex, endIndex)

/-- The row has an item for page `i`. -/
def Shows (p : Pagination) (i : ℤ) : Prop := p.span.1 ≤ i ∧ i < p.span.2

instance (p : Pagination) (i : ℤ) : Decidable (p.Shows i) := inferInstanceAs (Decidable (_ ∧ _))

/-- No item is for a negative page. -/
theorem shows_nonneg {p : Pagination} {i : ℤ} (h : p.Shows i) : 0 ≤ i := by
  refine le_trans ?_ h.1
  unfold span
  by_cases hneg : p.pageIndex - p.width.tdiv 2 < 0
  · simp only [if_pos hneg]
    split
    · exact le_max_left _ _
    · exact le_refl _
  · simp only [if_neg hneg]
    split
    · exact le_max_left _ _
    · exact not_lt.1 hneg

end Pagination

/-! ## The window -/

/-- `const objectsPerPage = 32`. -/
def objectsPerPage : ℤ := 32

/-- A query of `update`, and the page `update` was called with. -/
structure Query where
  id : ℕ
  pageIndex : ℤ
  startIndex : ℤ
  maxObjects : ℤ
  deriving DecidableEq

/-- `class MemoryWindow`: its state, the queries under way, and the record of what was
sent and what succeeded, newest first.  Every answer brings an array of its own, so
`objects` is known by the query it answers. -/
structure MemoryWindow where
  pageIndex : ℤ
  pageCount : ℤ
  objectCount : Option ℕ
  objects : Option ℕ
  inFlight : List Query
  sent : List Query
  succeeded : List (Query × ℕ)
  deriving DecidableEq

namespace MemoryWindow

/-- `Math.ceil(data.objectCount / objectsPerPage)`. -/
def countPages (objectCount : ℕ) : ℤ := ⌈(objectCount : ℚ) / objectsPerPage⌉

/-- `update(pageIndex)`, to the point where the request is out. -/
def update (s : MemoryWindow) (pageIndex : ℤ) : MemoryWindow :=
  let query : Query := ⟨s.sent.length, pageIndex, pageIndex * objectsPerPage, objectsPerPage⟩
  { s with inFlight := query :: s.inFlight, sent := query :: s.sent }

/-- The success handler of `update`. -/
def receive (s : MemoryWindow) (query : Query) (objectCount : ℕ) : MemoryWindow :=
  { s with
    pageIndex := min query.pageIndex (countPages objectCount - 1)
    pageCount := countPages objectCount
    objectCount := some objectCount
    objects := some query.id
    inFlight := s.inFlight.erase query
    succeeded := (query, objectCount) :: s.succeeded }

/-- The failure handler of `update`. -/
def fail (s : MemoryWindow) (query : Query) : MemoryWindow :=
  { s with inFlight := s.inFlight.erase query }

/-- The row of pages `render` makes. -/
def pagination (s : MemoryWindow) : Pagination := ⟨s.pageIndex, s.pageCount, 8⟩

/-- What can happen to the window. -/
inductive Event
  | next
  | back
  | item (pageIndex : ℤ)
  | success (id objectCount : ℕ)
  | failure (id : ℕ)

/-- The query under way with this id. -/
def pendingQuery (s : MemoryWindow) (id : ℕ) : Option Query := s.inFlight.find? fun q => q.id = id

/-- One event; only pages that are shown can be clicked, and only a query under way can
be answered. -/
def step (s : MemoryWindow) : Event → Option MemoryWindow
  | .next => some (s.update s.pagination.handleNext)
  | .back => some (s.update s.pagination.handleBack)
  | .item pageIndex => if s.pagination.Shows pageIndex then some (s.update pageIndex) else none
  | .success id objectCount => (s.pendingQuery id).map fun q => s.receive q objectCount
  | .failure id => (s.pendingQuery id).map s.fail

/-- `state = { pageIndex: 0, pageCount: 0 }`, and `componentWillMount`. -/
def init : MemoryWindow :=
  update ⟨0, 0, none, none, [], [], []⟩ 0

/-! ## The record -/

/-- The record of the queries is true to what was sent and to what is shown. -/
structure Recorded (s : MemoryWindow) : Prop where
  ids : ∀ q ∈ s.sent, ∀ r ∈ s.sent, q.id = r.id → q = r
  fresh : ∀ q ∈ s.sent, q.id < s.sent.length
  start : ∀ q ∈ s.sent, q.startIndex = q.pageIndex * objectsPerPage
  under_way : ∀ q ∈ s.inFlight, q ∈ s.sent
  known : ∀ a ∈ s.succeeded, a.1 ∈ s.sent
  shown : ∀ a, s.succeeded.head? = some a →
    s.objects = some a.1.id ∧ s.pageIndex = min a.1.pageIndex (countPages a.2 - 1)
  count : 0 ≤ s.pageCount

theorem countPages_nonneg (n : ℕ) : 0 ≤ countPages n := by
  unfold countPages objectsPerPage
  exact Int.ceil_nonneg (by positivity)

/-- Page `i` exists exactly when an object stands at its first place. -/
theorem le_lastPage_iff (i : ℤ) (n : ℕ) :
    i ≤ countPages n - 1 ↔ i * objectsPerPage < (n : ℤ) := by
  unfold countPages objectsPerPage
  rw [Int.le_sub_one_iff, Int.lt_ceil, lt_div_iff₀ (by norm_num)]
  exact_mod_cast Iff.rfl

theorem pendingQuery_mem {s : MemoryWindow} {id : ℕ} {q : Query}
    (h : s.pendingQuery id = some q) : q ∈ s.inFlight := List.mem_of_find?_eq_some h

theorem update_recorded {s : MemoryWindow} (hs : s.Recorded) (i : ℤ) : (s.update i).Recorded := by
  have hnew : ∀ q ∈ s.sent, q.id ≠ s.sent.length := fun q hq => (hs.fresh q hq).ne
  refine ⟨?_, ?_, ?_, ?_, ?_, hs.shown, hs.count⟩
  · intro q hq r hr hid
    rcases List.mem_cons.1 hq with rfl | hq
    · rcases List.mem_cons.1 hr with rfl | hr
      · rfl
      · exact absurd hid.symm (hnew r hr)
    · rcases List.mem_cons.1 hr with rfl | hr
      · exact absurd hid (hnew q hq)
      · exact hs.ids q hq r hr hid
  · intro q hq
    rcases List.mem_cons.1 hq with rfl | hq
    · exact Nat.lt_succ_self _
    · exact (hs.fresh q hq).trans (Nat.lt_succ_self _)
  · intro q hq
    rcases List.mem_cons.1 hq with rfl | hq
    · rfl
    · exact hs.start q hq
  · intro q hq
    rcases List.mem_cons.1 hq with rfl | hq
    · exact List.mem_cons_self
    · exact List.mem_cons_of_mem _ (hs.under_way q hq)
  · exact fun a ha => List.mem_cons_of_mem _ (hs.known a ha)

theorem receive_recorded {s : MemoryWindow} (hs : s.Recorded) {q : Query} (hq : q ∈ s.inFlight)
    (n : ℕ) : (s.receive q n).Recorded := by
  refine ⟨hs.ids, hs.fresh, hs.start, ?_, ?_, ?_, countPages_nonneg n⟩
  · exact fun r hr => hs.under_way r (List.mem_of_mem_erase hr)
  · intro a ha
    rcases List.mem_cons.1 ha with rfl | ha
    · exact hs.under_way q hq
    · exact hs.known a ha
  · intro a ha
    cases ha
    exact ⟨rfl, rfl⟩

theorem fail_recorded {s : MemoryWindow} (hs : s.Recorded) (q : Query) : (s.fail q).Recorded :=
  ⟨hs.ids, hs.fresh, hs.start, fun r hr => hs.under_way r (List.mem_of_mem_erase hr), hs.known,
    hs.shown, hs.count⟩

/-- What one event can do. -/
theorem step_cases {s s' : MemoryWindow} {e : Event} (h : step s e = some s') :
    (∃ i, s' = s.update i ∧ (e = .next ∧ i = s.pagination.handleNext ∨
      e = .back ∧ i = s.pagination.handleBack ∨ e = .item i ∧ s.pagination.Shows i)) ∨
    (∃ q n, e = .success q.id n ∧ q ∈ s.inFlight ∧ s' = s.receive q n) ∨
    (∃ q, e = .failure q.id ∧ q ∈ s.inFlight ∧ s' = s.fail q) := by
  have found : ∀ {id q}, s.pendingQuery id = some q → q.id = id := by
    intro id q hq
    simpa using List.find?_some hq
  cases e with
  | next =>
      cases h
      exact .inl ⟨_, rfl, .inl ⟨rfl, rfl⟩⟩
  | back =>
      cases h
      exact .inl ⟨_, rfl, .inr (.inl ⟨rfl, rfl⟩)⟩
  | item i =>
      by_cases hi : s.pagination.Shows i
      · rw [step, if_pos hi] at h
        cases h
        exact .inl ⟨i, rfl, .inr (.inr ⟨rfl, hi⟩)⟩
      · rw [step, if_neg hi] at h
        cases h
  | success id n =>
      obtain ⟨q, hq, rfl⟩ := Option.map_eq_some_iff.1 h
      exact .inr (.inl ⟨q, n, by rw [found hq], pendingQuery_mem hq, rfl⟩)
  | failure id =>
      obtain ⟨q, hq, rfl⟩ := Option.map_eq_some_iff.1 h
      exact .inr (.inr ⟨q, by rw [found hq], pendingQuery_mem hq, rfl⟩)

theorem step_recorded (s : MemoryWindow) (e : Event) (s' : MemoryWindow) (hs : s.Recorded)
    (h : step s e = some s') : s'.Recorded := by
  obtain ⟨i, rfl, -⟩ | ⟨q, n, -, hq, rfl⟩ | ⟨q, -, -, rfl⟩ := step_cases h
  · exact update_recorded hs i
  · exact receive_recorded hs hq n
  · exact fail_recorded hs q

theorem init_recorded : init.Recorded := by
  refine update_recorded ⟨?_, ?_, ?_, ?_, ?_, ?_, le_refl 0⟩ 0
  · exact fun q hq => absurd hq List.not_mem_nil
  · exact fun q hq => absurd hq List.not_mem_nil
  · exact fun q hq => absurd hq List.not_mem_nil
  · exact fun q hq => absurd hq List.not_mem_nil
  · exact fun q hq => absurd hq List.not_mem_nil
  · intro a ha
    cases ha

/-! ## The page shown -/

/-- Once nothing is under way: if the last query succeeded, its answer is what is shown,
and it was sent for the page shown. -/
def ShowsLast (s : MemoryWindow) : Prop :=
  s.inFlight = [] → ∀ q, s.sent.head? = some q → q ∈ s.succeeded.map Prod.fst →
    s.objects = some q.id ∧ q.startIndex = s.pageIndex * objectsPerPage

/-- Once nothing is under way: if the last query succeeded, no older one did after it,
and there was an object where it starts. -/
def AnsweredLast (s : MemoryWindow) : Prop :=
  s.inFlight = [] → ∀ q, s.sent.head? = some q → q ∈ s.succeeded.map Prod.fst →
    ∃ n : ℕ, s.succeeded.head? = some (q, n) ∧ q.startIndex < n

theorem Recorded.shown_iff {s : MemoryWindow} (hs : s.Recorded) {q : Query} (hq : q ∈ s.sent)
    {a : Query × ℕ} (ha : s.succeeded.head? = some a) :
    (s.objects = some q.id ∧ q.startIndex = s.pageIndex * objectsPerPage) ↔
      a.1 = q ∧ q.startIndex < a.2 := by
  obtain ⟨hobjects, hpage⟩ := hs.shown a ha
  have hmem : a.1 ∈ s.sent := hs.known a (List.mem_of_mem_head? ha)
  rw [hobjects, hpage, hs.start q hq, ← le_lastPage_iff]
  constructor
  · rintro ⟨hid, hstart⟩
    have heq : a.1 = q := hs.ids _ hmem _ hq (Option.some.inj hid)
    have hmin : q.pageIndex = min a.1.pageIndex (countPages a.2 - 1) :=
      mul_right_cancel₀ (by decide) hstart
    refine ⟨heq, ?_⟩
    rw [hmin]
    exact min_le_right _ _
  · rintro ⟨rfl, hle⟩
    rw [min_eq_left hle]
    exact ⟨rfl, rfl⟩

/-- In every reachable state: what is shown is the answer to the last query if and only
if that answer was the last to arrive, and the query began before the end. -/
theorem page_shown_iff (events : List Event) (s : MemoryWindow)
    (hrun : run step init events = some s) : s.ShowsLast ↔ s.AnsweredLast := by
  have hs : s.Recorded := run_invariant step_recorded events init s init_recorded hrun
  refine forall_congr' fun _ => forall_congr' fun q => forall_congr' fun hq =>
    forall_congr' fun hmem => ?_
  obtain ⟨a, ha⟩ : ∃ a, s.succeeded.head? = some a := by
    cases hl : s.succeeded with
    | nil =>
        rw [hl] at hmem
        exact absurd hmem List.not_mem_nil
    | cons a as => exact ⟨a, rfl⟩
  rw [hs.shown_iff (List.mem_of_mem_head? hq) ha, ha]
  constructor
  · rintro ⟨rfl, hlt⟩
    exact ⟨a.2, rfl, hlt⟩
  · rintro ⟨n, hn, hlt⟩
    cases hn
    exact ⟨rfl, hlt⟩

/-- Page `2` is answered, and then page `1`, which was asked for before it. -/
theorem page_shown_three :
    (⟨1, 4, some 100, some 1, [], [⟨2, 2, 64, 32⟩, ⟨1, 1, 32, 32⟩, ⟨0, 0, 0, 32⟩],
      [(⟨1, 1, 32, 32⟩, 100), (⟨2, 2, 64, 32⟩, 100), (⟨0, 0, 0, 32⟩, 100)]⟩ :
        MemoryWindow).ShowsLast ↔
    (⟨1, 4, some 100, some 1, [], [⟨2, 2, 64, 32⟩, ⟨1, 1, 32, 32⟩, ⟨0, 0, 0, 32⟩],
      [(⟨1, 1, 32, 32⟩, 100), (⟨2, 2, 64, 32⟩, 100), (⟨0, 0, 0, 32⟩, 100)]⟩ :
        MemoryWindow).AnsweredLast :=
  page_shown_iff [.success 0 100, .item 1, .item 2, .success 2 100, .success 1 100] _
    (by decide +kernel)

/-- The page shown is not always the one asked for. -/
theorem older_answer_shown : ¬∀ (events : List Event) (s : MemoryWindow),
    run step init events = some s → s.ShowsLast := by
  intro hall
  have hshown := hall [.success 0 100, .item 1, .item 2, .success 2 100, .success 1 100] _
    (by decide +kernel : _ = some ⟨1, 4, some 100, some 1, [],
      [⟨2, 2, 64, 32⟩, ⟨1, 1, 32, 32⟩, ⟨0, 0, 0, 32⟩],
      [(⟨1, 1, 32, 32⟩, 100), (⟨2, 2, 64, 32⟩, 100), (⟨0, 0, 0, 32⟩, 100)]⟩)
  have hpage := (hshown rfl _ rfl (by decide)).1
  cases hpage

/-! ## The queries sent -/

/-- No query begins before the first object, and no negative page is shown. -/
def WellFormed (s : MemoryWindow) : Prop :=
  0 ≤ s.pageIndex ∧ ∀ q ∈ s.sent, 0 ≤ q.startIndex

/-- `next` is clicked when there is a page, and an answer finds an object. -/
def Filled (s : MemoryWindow) : Event → Prop
  | .next => 1 ≤ s.pageCount
  | .success _ objectCount => 0 < objectCount
  | _ => True

theorem update_wellFormed_iff {s : MemoryWindow} (hs : s.WellFormed) (i : ℤ) :
    (s.update i).WellFormed ↔ 0 ≤ i := by
  have hstart : 0 ≤ i * objectsPerPage ↔ 0 ≤ i :=
    mul_nonneg_iff_of_pos_right (by decide)
  constructor
  · exact fun h => hstart.1 (h.2 _ List.mem_cons_self)
  · intro hi
    refine ⟨hs.1, fun q hq => ?_⟩
    rcases List.mem_cons.1 hq with rfl | hq
    · exact hstart.2 hi
    · exact hs.2 q hq

theorem receive_wellFormed_iff {s : MemoryWindow} (hs : s.WellFormed) {q : Query}
    (hq : 0 ≤ q.pageIndex) (n : ℕ) : (s.receive q n).WellFormed ↔ 0 < n := by
  have hlast : 0 ≤ countPages n - 1 ↔ 0 < n := by
    rw [le_lastPage_iff, zero_mul, Nat.cast_pos]
  constructor
  · exact fun h => hlast.1 (h.1.trans (min_le_right _ _))
  · exact fun hn => ⟨le_min hq (hlast.2 hn), hs.2⟩

/-- A step from a well-formed window leads to one exactly when it finds a page. -/
theorem step_wellFormed_iff (s : MemoryWindow) (e : Event) (s' : MemoryWindow) (hrec : s.Recorded)
    (hs : s.WellFormed) (h : step s e = some s') : s'.WellFormed ↔ s.Filled e := by
  have hpage : 0 ≤ s.pageIndex := hs.1
  obtain ⟨i, rfl, hclick⟩ | ⟨q, n, rfl, hq, rfl⟩ | ⟨q, rfl, -, rfl⟩ := step_cases h
  · rw [update_wellFormed_iff hs]
    rcases hclick with ⟨rfl, rfl⟩ | ⟨rfl, rfl⟩ | ⟨rfl, hi⟩
    · change 0 ≤ min (s.pageCount - 1) (s.pageIndex + 1) ↔ 1 ≤ s.pageCount
      omega
    · exact iff_of_true (le_max_left _ _) trivial
    · exact iff_of_true (Pagination.shows_nonneg hi) trivial
  · refine receive_wellFormed_iff hs ?_ n
    have hsent := hrec.under_way q hq
    have hstart := hs.2 q hsent
    rw [hrec.start q hsent] at hstart
    exact (mul_nonneg_iff_of_pos_right (by decide)).1 hstart
  · exact iff_of_true hs trivial

/-- Every query is well formed, and no page shown is negative, if and only if `next` is
clicked only where there is a page and no answer finds the heap empty. -/
theorem queries_wellFormed_iff (events : List Event) :
    AllStates step WellFormed init events ↔ AllSteps step Filled init events :=
  allStates_iff_allSteps step_recorded step_wellFormed_iff events init init_recorded
    ⟨le_refl 0, by decide⟩

/-- `next`, clicked before the first answer, asks for what begins at `-32`. -/
theorem next_before_answer : ¬∀ events : List Event, AllStates step WellFormed init events := by
  intro hall
  have hfilled := (hall [.next]).2 (init.update (-1)) (by decide +kernel)
  exact absurd (hfilled.2 _ List.mem_cons_self) (by decide)

end MemoryWindow

end SatAllocatorTest.Ports.Monitor
