import SatAllocatorTest.Ports.ProfileView

/-!
# The views that follow a time window

`StackHistogram.tsx` and `ObjectsBrowser.tsx`: two React components that show what the
server knows about the window of a `ProfileView`.  Both register with the view, ask the
server for the window when it changes, hold back while a request is pending, and look
at the window again when an answer arrives.  They are one machine here, `RangeView`,
and the three things they do differently are its `Kind`.

The events are the calls the browser and React make, in any order that is possible:
mounting, changes of the view (by anyone, through the methods of `ProfileView`), edits
of the filter, answers to a request in flight, unmounting.  A response of the server is
the data the component shows of it.  What is sent, in flight and answered is recorded
for the statements below; no code reads it.

Main results:

* `views_converge` — with no request in flight a mounted view shows its window;
* `views_fault_iff` — a run reads the window of an unmapped view exactly when a request
  completes after the component was unmounted.
-/

namespace SatAllocatorTest.Ports.Monitor

open SatAllocatorTest.Verified.Runs

/-- The body of a request; a view without a filter has `F` the unit type. -/
structure Request (F : Type) where
  start : ℚ
  end_ : ℚ
  filter : F
  deriving DecidableEq

/-- What sets one component apart from the other. -/
structure Kind (F : Type) where
  /-- There is an input for a filter. -/
  filters : Bool
  /-- `handleFilter`: the filter kept of what was typed. -/
  handleFilter : F → F
  /-- A request clears what is shown. -/
  clearsOnSend : Bool
  /-- A failure clears what is shown. -/
  clearsOnFailure : Bool
  /-- One way or the other, a failure does not leave an old answer on display. -/
  clears : clearsOnSend = true ∨ clearsOnFailure = true

/-- `this.viewClient`: not there before the component is mounted, then registered with
the view, and after `unmap` without a view. -/
inductive ViewClient
  | absent
  | mapped
  | unmapped
  deriving DecidableEq

/-- The clients of a view, as one component sees them: its own, and others. -/
inductive Client
  | own
  | other (n : ℕ)
  deriving DecidableEq

/-- A component, and the view it is about. -/
structure RangeView (F J : Type) where
  view : ProfileView (Client)
  viewClient : ViewClient
  pending : Bool
  start : ℚ
  end_ : ℚ
  /-- `this.filter`: what was typed. -/
  filter : F
  /-- `this.state.filter`: the filter of what is shown. -/
  stateFilter : F
  /-- `this.state.histogram`, `this.state.objects`. -/
  shown : Option J
  /-- The requests without an answer. -/
  inFlight : List (Request F)
  /-- All requests, newest first. -/
  sent : List (Request F)
  /-- The requests that succeeded and their responses, newest first. -/
  answered : List (Request F × J)
  /-- `start` or `end` of a null view was read. -/
  faulted : Bool

inductive Event (F J : Type)
  | mount
  | unmount
  | change (op : ProfileView.Op ℕ)
  | edit (value : F)
  | applyFilter
  | success (i : ℕ) (data : J)
  | failure (i : ℕ)

namespace RangeView

variable {F J : Type} [DecidableEq F]

/-- Before the component is mounted; `filter` is the undefined filter. -/
def init (view : ProfileView ℕ) (filter : F) : RangeView F J where
  view := { view with clients := view.clients.map .other }
  viewClient := .absent
  pending := false
  start := 0
  end_ := 0
  filter := filter
  stateFilter := filter
  shown := none
  inFlight := []
  sent := []
  answered := []
  faulted := false

/-- The window moved, or another filter is to be applied. -/
def Differs (s : RangeView F J) : Prop :=
  s.start ≠ s.view.start ∨ s.end_ ≠ s.view.end_ ∨ s.stateFilter ≠ s.filter

instance (s : RangeView F J) : Decidable s.Differs :=
  inferInstanceAs (Decidable (_ ∨ _))

/-- The body of `updateRange`'s `if`. -/
def send (k : Kind F) (s : RangeView F J) : RangeView F J :=
  let request : Request F := ⟨s.view.start, s.view.end_, s.filter⟩
  { s with
    start := s.view.start
    end_ := s.view.end_
    pending := true
    inFlight := s.inFlight ++ [request]
    sent := request :: s.sent
    shown := if k.clearsOnSend then none else s.shown }

/-- `updateRange()`. -/
def updateRange (k : Kind F) (s : RangeView F J) : RangeView F J :=
  if s.viewClient = .mapped then
    if s.pending = false ∧ s.Differs then s.send k else s
  else { s with faulted := true }

/-- `setState`, which has no effect on a component that is gone. -/
def setState (s : RangeView F J) (shown : Option J) (stateFilter : F) : RangeView F J :=
  if s.viewClient = .mapped then { s with shown := shown, stateFilter := stateFilter } else s

/-- The request at `i` is no longer in flight, and `this.pending = null`. -/
def settle (s : RangeView F J) (i : ℕ) (answered : List (Request F × J)) : RangeView F J :=
  { s with inFlight := s.inFlight.eraseIdx i, pending := false, answered := answered }

/-- A response, up to the call of `updateRange`. -/
def received (s : RangeView F J) (i : ℕ) (request : Request F) (data : J) : RangeView F J :=
  (s.settle i ((request, data) :: s.answered)).setState (some data) request.filter

/-- A failure, up to the call of `updateRange`. -/
def lost (k : Kind F) (s : RangeView F J) (i : ℕ) : RangeView F J :=
  if k.clearsOnFailure then (s.settle i s.answered).setState none s.stateFilter
  else s.settle i s.answered

/-- The notifications of a change, in turn. -/
def notified (k : Kind F) (s : RangeView F J)
    (notifications : List (ProfileView.Notification (Client))) : RangeView F J :=
  notifications.foldl (fun s u => if u.1 = .own then s.updateRange k else s) s

/-- `new ProfileViewListener(view, this.updateRange)`: `map` unmaps first. -/
def link (view : ProfileView (Client)) : ProfileView (Client) :=
  ((view.exec (.unmap .own)).1.exec (.map .own)).1

def step (k : Kind F) (s : RangeView F J) : Event F J → Option (RangeView F J)
  | .mount =>
      if s.viewClient = .absent then
        some ({ s with view := link s.view, viewClient := .mapped }.updateRange k)
      else none
  | .unmount =>
      if s.viewClient = .mapped then
        some { s with view := (s.view.exec (.unmap .own)).1, viewClient := .unmapped }
      else none
  | .change op =>
      let out := s.view.exec (op.rename .other)
      some ({ s with view := out.1 }.notified k out.2)
  | .edit value =>
      if k.filters ∧ s.viewClient = .mapped then some { s with filter := k.handleFilter value }
      else none
  | .applyFilter =>
      if k.filters ∧ s.viewClient = .mapped then some (s.updateRange k) else none
  | .success i data =>
      match s.inFlight[i]? with
      | none => none
      | some request => some ((s.received i request data).updateRange k)
  | .failure i =>
      match s.inFlight[i]? with
      | none => none
      | some _ => some ((s.lost k i).updateRange k)

end RangeView

/-! ## The two components -/

/-- `class StackHistogramView`: a failure clears the histogram. -/
def StackHistogramView.kind : Kind Unit where
  filters := false
  handleFilter _ := ()
  clearsOnSend := false
  clearsOnFailure := true
  clears := .inr rfl

/-- `class ObjectsView`: a request clears the objects, and there is a filter. -/
def ObjectsView.kind : Kind (Option String) where
  filters := true
  handleFilter value := if value = some "" then none else value
  clearsOnSend := true
  clearsOnFailure := false
  clears := .inl rfl

def StackHistogramView.init {J : Type} (view : ProfileView ℕ) : RangeView Unit J :=
  RangeView.init view ()

def StackHistogramView.step {J : Type} : RangeView Unit J → Event Unit J → Option (RangeView Unit J) :=
  RangeView.step StackHistogramView.kind

def ObjectsView.init {J : Type} (view : ProfileView ℕ) : RangeView (Option String) J :=
  RangeView.init view none

def ObjectsView.step {J : Type} : RangeView (Option String) J → Event (Option String) J →
    Option (RangeView (Option String) J) :=
  RangeView.step ObjectsView.kind

namespace RangeView

variable {F J : Type} [DecidableEq F] {k : Kind F}

/-! ## Invariants -/

/-- The component is told of a change of the view exactly while it is mapped. -/
def Registered (s : RangeView F J) : Prop :=
  s.view.clients.count .own = if s.viewClient = .mapped then 1 else 0

/-- The request in flight, if any, is the last one sent, and is for the range recorded;
while it is, a component that a failure would not clear shows nothing. -/
structure OneFlight (k : Kind F) (s : RangeView F J) : Prop where
  waiting : s.pending = true → ∃ r rest, s.inFlight = [r] ∧ s.sent = r :: rest ∧
    r.start = s.start ∧ r.end_ = s.end_
  cleared : s.pending = true → k.clearsOnFailure = false → s.shown = none
  idle : s.pending = false → s.inFlight = []
  unborn : s.viewClient = .absent → s.pending = false ∧ s.shown = none

/-- What is shown without a request in flight is the answer to the last request. -/
def ShowsLast (s : RangeView F J) : Prop :=
  s.viewClient = .mapped → s.pending = false → ∀ data, s.shown = some data →
    ∃ r, s.sent.head? = some r ∧ s.answered.head? = some (r, data) ∧
      r.start = s.start ∧ r.end_ = s.end_ ∧ r.filter = s.stateFilter

/-- Without a request in flight the range recorded is the window. -/
def Synced (s : RangeView F J) : Prop :=
  s.viewClient = .mapped → s.pending = false → s.start = s.view.start ∧ s.end_ = s.view.end_

/-- The invariant between two events. -/
structure Inv (k : Kind F) (s : RangeView F J) : Prop where
  registered : s.Registered
  flight : s.OneFlight k
  shows : s.ShowsLast
  synced : s.Synced

/-- The invariant but for the window: what holds when `updateRange` is called. -/
structure Ready (k : Kind F) (s : RangeView F J) : Prop where
  mapped : s.viewClient = .mapped
  registered : s.Registered
  flight : s.OneFlight k
  shows : s.ShowsLast

/-- `updateRange` catches up with the window, now or when the pending request is over. -/
theorem updateRange_inv {s : RangeView F J} (hs : s.Ready k) :
    (s.updateRange k).Inv k ∧ (s.updateRange k).viewClient = .mapped ∧
      (s.updateRange k).faulted = s.faulted := by
  obtain ⟨hmapped, hreg, hflight, hshows⟩ := hs
  unfold updateRange
  rw [if_pos hmapped]
  by_cases hsend : s.pending = false ∧ s.Differs
  · rw [if_pos hsend]
    refine ⟨⟨hreg, ⟨fun _ => ?_, fun _ hfail => ?_, nofun, ?_⟩, fun _ => nofun, fun _ => nofun⟩,
      hmapped, rfl⟩
    · refine ⟨⟨s.view.start, s.view.end_, s.filter⟩, s.sent, ?_, rfl, rfl, rfl⟩
      change s.inFlight ++ _ = _
      rw [hflight.idle hsend.1, List.nil_append]
    · have hclears : k.clearsOnSend = true := k.clears.resolve_right (by simp [hfail])
      exact if_pos hclears
    · intro habsent
      exact absurd (habsent.symm.trans hmapped) (by decide)
  · rw [if_neg hsend]
    refine ⟨⟨hreg, hflight, hshows, ?_⟩, hmapped, rfl⟩
    intro _ hidle
    have hsame : ¬s.Differs := fun h => hsend ⟨hidle, h⟩
    simp only [Differs, not_or, not_not] at hsame
    exact ⟨hsame.1, hsame.2.1⟩

omit [DecidableEq F] in
theorem Inv.ready {s : RangeView F J} (hs : s.Inv k) (hmapped : s.viewClient = .mapped) :
    s.Ready k :=
  ⟨hmapped, hs.registered, hs.flight, hs.shows⟩

/-- Of several notifications the first one that reaches the component does the work. -/
theorem notified_inv : ∀ (us : List (ProfileView.Notification (Client))) (s : RangeView F J),
    s.Ready k → (Client.own ∈ us.map Prod.fst ∨ s.Synced) →
      (s.notified k us).Inv k ∧ (s.notified k us).faulted = s.faulted := by
  intro us
  induction us with
  | nil =>
      intro s hs htold
      have hsync : s.Synced := htold.resolve_left List.not_mem_nil
      exact ⟨⟨hs.registered, hs.flight, hs.shows, hsync⟩, rfl⟩
  | cons u us ih =>
      intro s hs htold
      by_cases hown : u.1 = .own
      · obtain ⟨hinv, hmapped, hfault⟩ := updateRange_inv (k := k) hs
        obtain ⟨hinv', hfault'⟩ := ih (s.updateRange k) (hinv.ready hmapped) (.inr hinv.synced)
        have heq : s.notified k (u :: us) = (s.updateRange k).notified k us := by
          simp [notified, hown]
        rw [heq]
        exact ⟨hinv', hfault'.trans hfault⟩
      · have heq : s.notified k (u :: us) = s.notified k us := by
          simp [notified, hown]
        rw [heq]
        refine ih s hs (htold.imp_left fun hmem => ?_)
        exact (List.mem_cons.1 hmem).resolve_left fun he => hown he.symm

/-- Notifications to others leave the component alone. -/
theorem notified_others : ∀ (us : List (ProfileView.Notification (Client))) (s : RangeView F J),
    Client.own ∉ us.map Prod.fst → s.notified k us = s := by
  intro us
  induction us with
  | nil => exact fun _ _ => rfl
  | cons u us ih =>
      intro s hnone
      rw [List.map_cons, List.mem_cons, not_or] at hnone
      have heq : s.notified k (u :: us) = s.notified k us := by
        simp [notified, Ne.symm hnone.1]
      rw [heq, ih s hnone.2]

/-- A call on the view by others: it tells all clients and keeps them, or it tells no
one, keeps the window, and registers or removes a client that is not the component. -/
theorem exec_others (v : ProfileView (Client)) (op : ProfileView.Op ℕ) :
    (v.exec (op.rename .other)).1.clients.count .own = v.clients.count .own ∧
      ((v.exec (op.rename .other)).2.map Prod.fst = v.clients ∨
        (v.exec (op.rename .other)).2 = [] ∧ (v.exec (op.rename .other)).1.start = v.start ∧
          (v.exec (op.rename .other)).1.end_ = v.end_) := by
  have told : ∀ w : ProfileView (Client), w.notify.map Prod.fst = w.clients := by
    intro w
    simp [ProfileView.notify, Function.comp_def]
  cases op with
  | set start end_ => exact ⟨rfl, .inl (told _)⟩
  | clip min max => exact ⟨rfl, .inl (told _)⟩
  | translate delta => exact ⟨rfl, .inl (told _)⟩
  | map client =>
      refine ⟨?_, .inr ⟨rfl, rfl, rfl⟩⟩
      change (v.clients ++ [Client.other client]).count Client.own = _
      simp
  | unmap client =>
      refine ⟨?_, .inr ⟨rfl, rfl, rfl⟩⟩
      change (v.clients.erase (Client.other client)).count Client.own = _
      rw [List.count_erase]
      simp

omit [DecidableEq F] in
/-- The component is among the clients of its view, or not. -/
theorem Registered.mem_iff {s : RangeView F J} (hs : s.Registered) :
    Client.own ∈ s.view.clients ↔ s.viewClient = .mapped := by
  rw [← List.count_pos_iff, hs]
  by_cases h : s.viewClient = .mapped
  · rw [if_pos h]
    exact iff_of_true Nat.one_pos h
  · rw [if_neg h]
    exact iff_of_false (Nat.lt_irrefl 0) h

omit [DecidableEq F] in
/-- The request whose answer arrives is the one in flight. -/
theorem OneFlight.answered {s : RangeView F J} (hs : s.OneFlight k) {i : ℕ} {r : Request F}
    (hr : s.inFlight[i]? = some r) : s.inFlight.eraseIdx i = [] ∧ s.sent.head? = some r ∧
      r.start = s.start ∧ r.end_ = s.end_ ∧ s.pending = true ∧ s.viewClient ≠ .absent := by
  cases hp : s.pending with
  | false =>
      rw [hs.idle hp] at hr
      cases hr
  | true =>
      obtain ⟨r', rest, hin, hsent, hstart, hend⟩ := hs.waiting hp
      rw [hin] at hr
      obtain ⟨rfl, rfl⟩ : i = 0 ∧ r' = r := by
        cases i with
        | zero => exact ⟨rfl, Option.some.inj hr⟩
        | succ i => simp at hr
      refine ⟨by rw [hin]; rfl, by rw [hsent]; rfl, hstart, hend, rfl, fun habsent => ?_⟩
      rw [(hs.unborn habsent).1] at hp
      cases hp

/-! ## Steps -/

/-- A request completes after the component was unmounted. -/
def Late (s : RangeView F J) : Event F J → Prop
  | .success _ _ => s.viewClient = .unmapped
  | .failure _ => s.viewClient = .unmapped
  | _ => False

/-- What both handlers leave when they call `updateRange`. -/
structure Answered (s s' : RangeView F J) (i : ℕ) : Prop where
  viewClient : s'.viewClient = s.viewClient
  view : s'.view = s.view
  faulted : s'.faulted = s.faulted
  pending : s'.pending = false
  inFlight : s'.inFlight = s.inFlight.eraseIdx i

omit [DecidableEq F] in
theorem settle_answered (s : RangeView F J) (i : ℕ) (answered : List (Request F × J)) :
    s.Answered (s.settle i answered) i :=
  ⟨rfl, rfl, rfl, rfl, rfl⟩

omit [DecidableEq F] in
theorem Answered.setState {s s' : RangeView F J} {i : ℕ} (h : s.Answered s' i) (shown : Option J)
    (filter : F) : s.Answered (s'.setState shown filter) i := by
  unfold RangeView.setState
  split
  · exact ⟨h.viewClient, h.view, h.faulted, h.pending, h.inFlight⟩
  · exact h

omit [DecidableEq F] in
theorem lost_answered (s : RangeView F J) (i : ℕ) : s.Answered (s.lost k i) i := by
  unfold lost
  split
  · exact (settle_answered s i _).setState _ _
  · exact settle_answered s i _

/-- A handler that runs while the component is mapped ends in `updateRange` on a state
that is ready; one that runs later reads the window of a null view. -/
theorem handled {s s' : RangeView F J} (hs : s.Inv k) {i : ℕ} {r : Request F}
    (hr : s.inFlight[i]? = some r) (hans : s.Answered s' i)
    (hshows : s.viewClient = .mapped → s'.ShowsLast) :
    (s'.updateRange k).Inv k ∧
      ((s'.updateRange k).faulted = true ↔ s.faulted = true ∨ s.viewClient = .unmapped) := by
  obtain ⟨hclient, hview, hfault, hpending, hinflight⟩ := hans
  obtain ⟨hnone, -, -, -, -, hborn⟩ := hs.flight.answered hr
  have hflight : s'.OneFlight k := by
    refine ⟨fun hp => ?_, fun hp => ?_, fun _ => hinflight.trans hnone, fun habsent => ?_⟩
    · rw [hpending] at hp
      cases hp
    · rw [hpending] at hp
      cases hp
    · exact absurd (hclient.symm.trans habsent) hborn
  have hreg : s'.Registered := by
    rw [Registered, hview, hclient]
    exact hs.registered
  by_cases hmapped : s.viewClient = .mapped
  · obtain ⟨hinv, -, hfault'⟩ := updateRange_inv (k := k)
      ⟨hclient.trans hmapped, hreg, hflight, hshows hmapped⟩
    refine ⟨hinv, ?_⟩
    rw [hfault', hfault, hmapped]
    simp
  · have hmapped' : s'.viewClient ≠ .mapped := fun h => hmapped (hclient.symm.trans h)
    have hgone : s.viewClient = .unmapped := by
      cases hv : s.viewClient with
      | absent => exact absurd hv hborn
      | mapped => exact absurd hv hmapped
      | unmapped => rfl
    unfold updateRange
    rw [if_neg hmapped']
    refine ⟨⟨hreg, ⟨hflight.waiting, hflight.cleared, hflight.idle, hflight.unborn⟩,
      fun h => absurd h hmapped', fun h => absurd h hmapped'⟩, ?_⟩
    exact iff_of_true rfl (.inr hgone)

/-- A component that is mounted looks at its window. -/
theorem mount_inv {s : RangeView F J} (hs : s.Inv k) (habsent : s.viewClient = .absent) :
    (updateRange k { s with view := link s.view, viewClient := .mapped }).Inv k ∧
      (updateRange k { s with view := link s.view, viewClient := .mapped }).faulted = s.faulted := by
  obtain ⟨hidle, hshown⟩ := hs.flight.unborn habsent
  have hcount : s.view.clients.count .own = 0 := by
    have := hs.registered
    rwa [Registered, habsent, if_neg (by decide)] at this
  have hready : ({ s with view := link s.view, viewClient := .mapped } : RangeView F J).Ready k := by
    refine ⟨rfl, ?_, ⟨fun hp => ?_, fun _ _ => hshown, hs.flight.idle, nofun⟩,
      fun _ _ data hdata => ?_⟩
    · change (s.view.clients.erase Client.own ++ [Client.own]).count Client.own = 1
      rw [List.count_append, List.count_erase, hcount]
      simp
    · exact absurd (hidle.symm.trans hp) (by decide)
    · exact absurd (hshown.symm.trans hdata) (by simp)
  obtain ⟨hinv, -, hfault⟩ := updateRange_inv (k := k) hready
  exact ⟨hinv, hfault⟩

/-- A component that is told of a change looks at its window; one that is not told had
nothing to see. -/
theorem change_inv {s : RangeView F J} (hs : s.Inv k) (op : ProfileView.Op ℕ) :
    (notified k { s with view := (s.view.exec (op.rename .other)).1 }
      (s.view.exec (op.rename .other)).2).Inv k ∧
    (notified k { s with view := (s.view.exec (op.rename .other)).1 }
      (s.view.exec (op.rename .other)).2).faulted = s.faulted := by
  obtain ⟨hcount, htold⟩ := exec_others s.view op
  have hreg : ({ s with view := (s.view.exec (op.rename .other)).1 } : RangeView F J).Registered :=
    hcount.trans hs.registered
  by_cases hmapped : s.viewClient = .mapped
  · have hmem := hs.registered.mem_iff.2 hmapped
    refine notified_inv (k := k) (s.view.exec (op.rename .other)).2
      { s with view := (s.view.exec (op.rename .other)).1 }
      ⟨hmapped, hreg, ⟨hs.flight.waiting, hs.flight.cleared, hs.flight.idle, hs.flight.unborn⟩,
        hs.shows⟩ ?_
    rcases htold with h | ⟨-, hstart, hend⟩
    · rw [h]
      exact .inl hmem
    · refine .inr fun hm hp => ?_
      exact ⟨(hs.synced hm hp).1.trans hstart.symm, (hs.synced hm hp).2.trans hend.symm⟩
  · have hnone : Client.own ∉ (s.view.exec (op.rename .other)).2.map Prod.fst := by
      rcases htold with h | ⟨h, -⟩
      · rw [h]
        exact fun hmem => hmapped (hs.registered.mem_iff.1 hmem)
      · rw [h]
        exact List.not_mem_nil
    rw [notified_others _ _ hnone]
    exact ⟨⟨hreg, ⟨hs.flight.waiting, hs.flight.cleared, hs.flight.idle, hs.flight.unborn⟩, hs.shows,
      fun h => absurd h hmapped⟩, rfl⟩

/-- What an event does where it can happen. -/
inductive Stepped (k : Kind F) (s : RangeView F J) : Event F J → RangeView F J → Prop
  | mount (habsent : s.viewClient = .absent) :
      Stepped k s .mount (updateRange k { s with view := link s.view, viewClient := .mapped })
  | unmount (hmapped : s.viewClient = .mapped) :
      Stepped k s .unmount
        { s with view := (s.view.exec (.unmap .own)).1, viewClient := .unmapped }
  | change (op : ProfileView.Op ℕ) :
      Stepped k s (.change op) (notified k { s with view := (s.view.exec (op.rename .other)).1 }
        (s.view.exec (op.rename .other)).2)
  | edit (value : F) (hcan : k.filters = true ∧ s.viewClient = .mapped) :
      Stepped k s (.edit value) { s with filter := k.handleFilter value }
  | applyFilter (hcan : k.filters = true ∧ s.viewClient = .mapped) :
      Stepped k s .applyFilter (s.updateRange k)
  | success {i : ℕ} {r : Request F} (data : J) (hr : s.inFlight[i]? = some r) :
      Stepped k s (.success i data) (updateRange k (s.received i r data))
  | failure {i : ℕ} {r : Request F} (hr : s.inFlight[i]? = some r) :
      Stepped k s (.failure i) (updateRange k (s.lost k i))

theorem step_cases {s s' : RangeView F J} {e : Event F J} (hstep : step k s e = some s') :
    s.Stepped k e s' := by
  cases e with
  | mount =>
      simp only [step] at hstep
      split at hstep
      · cases hstep
        exact .mount ‹_›
      · cases hstep
  | unmount =>
      simp only [step] at hstep
      split at hstep
      · cases hstep
        exact .unmount ‹_›
      · cases hstep
  | change op =>
      cases hstep
      exact .change op
  | edit value =>
      simp only [step] at hstep
      split at hstep
      · cases hstep
        exact .edit value ‹_›
      · cases hstep
  | applyFilter =>
      simp only [step] at hstep
      split at hstep
      · cases hstep
        exact .applyFilter ‹_›
      · cases hstep
  | success i data =>
      simp only [step] at hstep
      split at hstep
      · cases hstep
      · cases hstep
        exact .success data ‹_›
  | failure i =>
      simp only [step] at hstep
      split at hstep
      · cases hstep
      · cases hstep
        exact .failure ‹_›

omit [DecidableEq F] in
/-- A component that is unmounted is told no more. -/
theorem unmount_inv {s : RangeView F J} (hs : s.Inv k) (hmapped : s.viewClient = .mapped) :
    Inv k { s with view := (s.view.exec (.unmap .own)).1, viewClient := .unmapped } := by
  have hcount : s.view.clients.count .own = 1 := by
    have := hs.registered
    rwa [Registered, hmapped, if_pos rfl] at this
  refine ⟨?_, ⟨hs.flight.waiting, hs.flight.cleared, hs.flight.idle, nofun⟩, nofun, nofun⟩
  change (s.view.clients.erase Client.own).count Client.own = 0
  rw [List.count_erase, hcount]
  simp

omit [DecidableEq F] in
/-- After a failure nothing is shown, whichever way the component clears it. -/
theorem lost_shown {s : RangeView F J} (hs : s.Inv k) {i : ℕ} {r : Request F}
    (hr : s.inFlight[i]? = some r) (hmapped : s.viewClient = .mapped) :
    (s.lost k i).shown = none := by
  unfold lost
  split
  · rw [setState, if_pos (show (s.settle i _).viewClient = .mapped from hmapped)]
  · rename_i hkeeps
    obtain ⟨-, -, -, -, hwait, -⟩ := hs.flight.answered hr
    exact hs.flight.cleared hwait (Bool.eq_false_iff.2 hkeeps)

/-- One event: the invariant is kept, and the window of a null view is read exactly by the
handler of a request that completes late. -/
theorem step_inv {s s' : RangeView F J} {e : Event F J} (hs : s.Inv k)
    (hstep : step k s e = some s') :
    s'.Inv k ∧ (s'.faulted = true ↔ s.faulted = true ∨ s.Late e) := by
  cases step_cases hstep with
  | mount habsent =>
      obtain ⟨hinv, hfault⟩ := mount_inv hs habsent
      refine ⟨hinv, ?_⟩
      rw [hfault]
      simp [Late]
  | unmount hmapped => exact ⟨unmount_inv hs hmapped, by simp [Late]⟩
  | change op =>
      obtain ⟨hinv, hfault⟩ := change_inv hs op
      refine ⟨hinv, ?_⟩
      rw [hfault]
      simp [Late]
  | edit value =>
      exact ⟨⟨hs.registered, ⟨hs.flight.waiting, hs.flight.cleared, hs.flight.idle,
        hs.flight.unborn⟩, hs.shows, hs.synced⟩, by simp [Late]⟩
  | applyFilter hcan =>
      obtain ⟨hinv, -, hfault⟩ := updateRange_inv (k := k) (hs.ready hcan.2)
      refine ⟨hinv, ?_⟩
      rw [hfault]
      simp [Late]
  | @success i r data hr =>
      obtain ⟨-, hsent, hstart, hend, -, -⟩ := hs.flight.answered hr
      refine handled hs hr ((settle_answered s i _).setState _ _) fun hmapped => ?_
      rw [received, setState, if_pos (show (s.settle i _).viewClient = .mapped from hmapped)]
      intro _ _ data' hdata
      cases hdata
      exact ⟨r, hsent, rfl, hstart, hend, rfl⟩
  | @failure i r hr =>
      refine handled hs hr (lost_answered s i) fun hmapped => ?_
      intro _ _ data hdata
      exact absurd ((lost_shown hs hr hmapped).symm.trans hdata) (by simp)

/-! ## Runs -/

omit [DecidableEq F] in
theorem init_inv (view : ProfileView ℕ) (filter : F) : (init view filter : RangeView F J).Inv k where
  registered := by
    change (view.clients.map Client.other).count Client.own = 0
    rw [List.count_eq_zero, List.mem_map]
    rintro ⟨_, _, hne⟩
    cases hne
  flight := ⟨nofun, nofun, fun _ => rfl, fun _ => ⟨rfl, rfl⟩⟩
  shows := nofun
  synced := nofun

theorem run_inv {view : ProfileView ℕ} {filter : F} {events : List (Event F J)}
    {s : RangeView F J} (hrun : run (step k) (init view filter) events = some s) : s.Inv k :=
  run_invariant (fun _ _ _ hs hstep => (step_inv hs hstep).1) events _ _ (init_inv view filter) hrun

/-- A mounted component has at most one request in flight.  When it has none, the range
recorded is the window, and what is shown, if anything, is the response to the last
request, which was for that range and for the filter of the state. -/
def Converged (s : RangeView F J) : Prop :=
  s.viewClient = .mapped → s.inFlight.length ≤ 1 ∧
    (s.inFlight = [] → s.start = s.view.start ∧ s.end_ = s.view.end_ ∧
      ∀ data, s.shown = some data → ∃ r, s.sent.head? = some r ∧
        s.answered.head? = some (r, data) ∧ r.start = s.start ∧ r.end_ = s.end_ ∧
          r.filter = s.stateFilter)

omit [DecidableEq F] in
theorem Inv.converged {s : RangeView F J} (hs : s.Inv k) : s.Converged := by
  intro hmapped
  cases hp : s.pending with
  | true =>
      obtain ⟨r, rest, hin, -⟩ := hs.flight.waiting hp
      refine ⟨by rw [hin]; exact Nat.le_refl 1, fun hnone => ?_⟩
      rw [hin] at hnone
      cases hnone
  | false =>
      obtain ⟨hstart, hend⟩ := hs.synced hmapped hp
      refine ⟨by rw [hs.flight.idle hp]; exact Nat.zero_le 1, fun _ => ⟨hstart, hend, ?_⟩⟩
      exact hs.shows hmapped hp

/-- A run reads the window of a null view exactly if a request completes late. -/
theorem fault_iff (view : ProfileView ℕ) (filter : F) (events : List (Event F J)) :
    AllStates (step k) (fun s => s.faulted = false) (init view filter) events ↔
      AllSteps (step k) (fun s e => ¬s.Late e) (init view filter) events := by
  refine allStates_iff_allSteps (I := fun s => s.Inv k) (fun _ _ _ hs hstep => (step_inv hs hstep).1)
    ?_ events _ (init_inv view filter) rfl
  intro s e s' hs hgood hstep
  have hiff := (step_inv hs hstep).2
  simp only [hgood, Bool.false_eq_true, false_or] at hiff
  rw [← hiff, Bool.not_eq_true]

end RangeView

/-- Both views converge, whatever happens and in whichever order: the range and the data
of an idle mounted view are those of the window. -/
theorem views_converge {J : Type} (view : ProfileView ℕ) :
    (∀ events s, run StackHistogramView.step (StackHistogramView.init (J := J) view) events = some s →
      s.Converged) ∧
    ∀ events s, run ObjectsView.step (ObjectsView.init (J := J) view) events = some s →
      s.Converged :=
  ⟨fun _ _ hrun => (RangeView.run_inv hrun).converged,
    fun _ _ hrun => (RangeView.run_inv hrun).converged⟩

/-- The window moves while the first request is pending: the second one is for where it
went. -/
theorem views_converge_moved :
    ∃ s : RangeView Unit ℕ, run StackHistogramView.step (StackHistogramView.init (.new 1 9))
      [.mount, .change (.set 2 5), .success 0 7, .success 0 8] = some s ∧ s.shown = some 8 ∧
        s.Converged := by
  refine ⟨_, rfl, rfl, ?_⟩
  exact (views_converge (.new 1 9)).1 [.mount, .change (.set 2 5), .success 0 7, .success 0 8] _ rfl

/-- Neither view reads the window of a null view during a run if and only if no request
of the run completes after the component was unmounted. -/
theorem views_fault_iff {J : Type} (view : ProfileView ℕ) :
    (∀ events, AllStates StackHistogramView.step (fun s => s.faulted = false)
        (StackHistogramView.init (J := J) view) events ↔
      AllSteps StackHistogramView.step (fun s e => ¬s.Late e)
        (StackHistogramView.init view) events) ∧
    ∀ events, AllStates ObjectsView.step (fun s => s.faulted = false)
        (ObjectsView.init (J := J) view) events ↔
      AllSteps ObjectsView.step (fun s e => ¬s.Late e) (ObjectsView.init view) events :=
  ⟨RangeView.fault_iff view (), RangeView.fault_iff view none⟩

/-- The request sent at mounting is answered after the unmounting. -/
theorem answer_after_unmount : ¬∀ (view : ProfileView ℕ) (events : List (Event Unit ℕ)),
    AllStates StackHistogramView.step (fun s => s.faulted = false)
      (StackHistogramView.init view) events := by
  intro hall
  have hfault := ((hall (.new 1 2) [.mount, .unmount, .success 0 7]).2 _ rfl).2 _ rfl
  exact Bool.noConfusion (hfault.2 _ rfl)

end SatAllocatorTest.Ports.Monitor
