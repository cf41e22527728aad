import Mathlib.Data.List.Chain
import SatAllocatorTest.Ports.RangeViews

/-!
# The queries of the objects view

Whether a view that follows a window asks the same question twice in a row.  The range
of a request is recorded when it is sent, its filter only when it succeeds.  So after a
request for a new filter has failed, `updateRange` still finds a difference, and sends
what it sent before.

Main result: `objects_varied_iff`.
-/

namespace SatAllocatorTest.Ports.Monitor

open SatAllocatorTest.Verified.Runs

namespace RangeView

variable {F J : Type} [DecidableEq F] {k : Kind F}

/-- No request equals the one sent before it. -/
def Varied (s : RangeView F J) : Prop := s.sent.IsChain (· ≠ ·)

/-- The last request was for the window of `view` and the present filter, and that filter
is not the one of what is shown. -/
def Unsettled (s : RangeView F J) (view : ProfileView Client) : Prop :=
  s.stateFilter ≠ s.filter ∧ s.sent.head? = some ⟨view.start, view.end_, s.filter⟩

/-- `updateRange` runs with nothing pending, on a request that remained unsettled. -/
def Repeats (s : RangeView F J) : Event F J → Prop
  | .failure _ => s.viewClient = .mapped ∧ s.Unsettled s.view
  | .applyFilter => s.pending = false ∧ s.Unsettled s.view
  | .change op => s.viewClient = .mapped ∧ s.pending = false ∧ op.Moves ∧
      s.Unsettled (s.view.exec (op.rename .other)).1
  | _ => False

/-- The range recorded is the one of the last request. -/
structure Recorded (s : RangeView F J) : Prop where
  last : ∀ r, s.sent.head? = some r → r.start = s.start ∧ r.end_ = s.end_
  unborn : s.viewClient = .absent → s.sent = []

/-- `updateRange` repeats a request exactly when it finds one unsettled. -/
theorem updateRange_varied {s : RangeView F J} (hrec : ∀ r, s.sent.head? = some r →
    r.start = s.start ∧ r.end_ = s.end_) (hs : s.Varied) :
    (s.updateRange k).Varied ↔
      ¬(s.viewClient = .mapped ∧ s.pending = false ∧ s.Unsettled s.view) := by
  unfold updateRange
  by_cases hmapped : s.viewClient = .mapped
  · rw [if_pos hmapped]
    by_cases hsend : s.pending = false ∧ s.Differs
    · rw [if_pos hsend]
      change (⟨s.view.start, s.view.end_, s.filter⟩ :: s.sent).IsChain (· ≠ ·) ↔ _
      rw [List.isChain_cons]
      have hlast : s.sent.head? = some ⟨s.view.start, s.view.end_, s.filter⟩ → s.Unsettled s.view := by
        intro hhead
        obtain ⟨hstart, hend⟩ := hrec _ hhead
        refine ⟨?_, hhead⟩
        rcases hsend.2 with h | h | h
        · exact absurd hstart.symm h
        · exact absurd hend.symm h
        · exact h
      constructor
      · rintro ⟨hne, -⟩ ⟨-, -, -, hhead⟩
        exact hne _ hhead rfl
      · intro hno
        refine ⟨?_, hs⟩
        rintro r hr rfl
        exact hno ⟨hmapped, hsend.1, hlast hr⟩
    · rw [if_neg hsend]
      refine iff_of_true hs ?_
      rintro ⟨-, hidle, hne, -⟩
      exact hsend ⟨hidle, .inr (.inr hne)⟩
  · rw [if_neg hmapped]
    exact iff_of_true hs fun h => hmapped h.1

theorem updateRange_recorded {s : RangeView F J} (hs : s.Recorded) : (s.updateRange k).Recorded := by
  unfold updateRange
  split
  · rename_i hmapped
    split
    · refine ⟨fun r hr => ?_, fun habsent => ?_⟩
      · cases hr
        exact ⟨rfl, rfl⟩
      · exact absurd (habsent.symm.trans hmapped) (by decide)
    · exact hs
  · exact ⟨hs.last, hs.unborn⟩

/-- A second call finds nothing to do. -/
theorem updateRange_twice {s : RangeView F J} (hmapped : s.viewClient = .mapped) :
    (s.updateRange k).updateRange k = s.updateRange k := by
  by_cases hsend : s.pending = false ∧ s.Differs
  · have heq : s.updateRange k = s.send k := by
      rw [updateRange, if_pos hmapped, if_pos hsend]
    rw [heq, updateRange, if_pos (show (s.send k).viewClient = .mapped from hmapped), if_neg]
    exact fun h => Bool.noConfusion h.1
  · have heq : s.updateRange k = s := by
      rw [updateRange, if_pos hmapped, if_neg hsend]
    rw [heq, heq]

theorem updateRange_mapped {s : RangeView F J} (hmapped : s.viewClient = .mapped) :
    (s.updateRange k).viewClient = .mapped := by
  unfold updateRange
  rw [if_pos hmapped]
  split
  · exact hmapped
  · exact hmapped

/-- However often a mapped component is notified of one change, it looks once. -/
theorem notified_eq : ∀ (us : List (ProfileView.Notification Client)) (s : RangeView F J),
    s.viewClient = .mapped → Client.own ∈ us.map Prod.fst → s.notified k us = s.updateRange k := by
  intro us
  induction us with
  | nil => exact fun _ _ hmem => absurd hmem List.not_mem_nil
  | cons u us ih =>
      intro s hmapped hmem
      by_cases hown : u.1 = .own
      · have heq : s.notified k (u :: us) = (s.updateRange k).notified k us := by
          simp [notified, hown]
        rw [heq]
        by_cases hrest : Client.own ∈ us.map Prod.fst
        · rw [ih _ (updateRange_mapped hmapped) hrest, updateRange_twice hmapped]
        · exact notified_others us _ hrest
      · have heq : s.notified k (u :: us) = s.notified k us := by
          simp [notified, hown]
        rw [heq]
        exact ih s hmapped ((List.mem_cons.1 hmem).resolve_left fun he => hown he.symm)

/-- A change of the view that tells its clients tells a registered component. -/
theorem moves_iff (v : ProfileView Client) (op : ProfileView.Op ℕ) (hmem : Client.own ∈ v.clients) :
    Client.own ∈ (v.exec (op.rename .other)).2.map Prod.fst ↔ op.Moves := by
  have told : ∀ w : ProfileView Client, w.notify.map Prod.fst = w.clients := by
    intro w
    simp [ProfileView.notify, Function.comp_def]
  cases op with
  | set start end_ => exact iff_of_true ((told _).symm ▸ hmem) trivial
  | clip min max => exact iff_of_true ((told _).symm ▸ hmem) trivial
  | translate delta => exact iff_of_true ((told _).symm ▸ hmem) trivial
  | map client => exact iff_of_false List.not_mem_nil id
  | unmap client => exact iff_of_false List.not_mem_nil id

omit [DecidableEq F] in
theorem received_sent (s : RangeView F J) (i : ℕ) (r : Request F) (data : J) :
    (s.received i r data).sent = s.sent ∧ (s.received i r data).start = s.start ∧
      (s.received i r data).end_ = s.end_ ∧ (s.received i r data).filter = s.filter := by
  unfold received setState
  split
  · exact ⟨rfl, rfl, rfl, rfl⟩
  · exact ⟨rfl, rfl, rfl, rfl⟩

omit [DecidableEq F] in
theorem lost_sent (s : RangeView F J) (i : ℕ) :
    (s.lost k i).sent = s.sent ∧ (s.lost k i).start = s.start ∧ (s.lost k i).end_ = s.end_ ∧
      (s.lost k i).filter = s.filter ∧ (s.lost k i).stateFilter = s.stateFilter := by
  unfold lost setState
  split
  · split
    · exact ⟨rfl, rfl, rfl, rfl, rfl⟩
    · exact ⟨rfl, rfl, rfl, rfl, rfl⟩
  · exact ⟨rfl, rfl, rfl, rfl, rfl⟩

/-- A change repeats a request exactly as `Repeats` says. -/
theorem change_varied {s : RangeView F J} (hs : s.Inv k) (hrec : s.Recorded) (op : ProfileView.Op ℕ) :
    (notified k { s with view := (s.view.exec (op.rename .other)).1 }
      (s.view.exec (op.rename .other)).2).Recorded ∧
    (s.Varied → ((notified k { s with view := (s.view.exec (op.rename .other)).1 }
      (s.view.exec (op.rename .other)).2).Varied ↔ ¬s.Repeats (.change op))) := by
  have hrec' : ({ s with view := (s.view.exec (op.rename .other)).1 } : RangeView F J).Recorded :=
    ⟨hrec.last, hrec.unborn⟩
  by_cases hmapped : s.viewClient = .mapped
  · have hmoves := moves_iff s.view op (hs.registered.mem_iff.2 hmapped)
    by_cases hown : Client.own ∈ (s.view.exec (op.rename .other)).2.map Prod.fst
    · rw [notified_eq (k := k) _ { s with view := (s.view.exec (op.rename .other)).1 } hmapped hown]
      refine ⟨updateRange_recorded hrec', fun hvar => ?_⟩
      rw [updateRange_varied hrec'.last hvar]
      refine not_congr ⟨fun h => ⟨h.1, h.2.1, hmoves.1 hown, h.2.2⟩, fun h => ⟨h.1, h.2.1, h.2.2.2⟩⟩
    · rw [notified_others _ _ hown]
      exact ⟨hrec', fun hvar => iff_of_true hvar fun h => hown (hmoves.2 h.2.2.1)⟩
  · have hnone : Client.own ∉ (s.view.exec (op.rename .other)).2.map Prod.fst := by
      intro hmem
      rcases (exec_others s.view op).2 with h | ⟨h, -⟩
      · exact hmapped (hs.registered.mem_iff.1 (h ▸ hmem))
      · rw [h] at hmem
        cases hmem
    rw [notified_others _ _ hnone]
    exact ⟨hrec', fun hvar => iff_of_true hvar fun h => hmapped h.1⟩

/-- After a response the filter is the one of what is shown: no request is repeated. -/
theorem success_varied {s : RangeView F J} (hs : s.Inv k) (hrec : s.Recorded) {i : ℕ}
    {r : Request F} (hr : s.inFlight[i]? = some r) (data : J) :
    (updateRange k (s.received i r data)).Recorded ∧
      (s.Varied → (updateRange k (s.received i r data)).Varied) := by
  obtain ⟨-, hsent, -, -, -, hborn⟩ := hs.flight.answered hr
  obtain ⟨hsent', hstart', hend', hfilter'⟩ := received_sent s i r data
  have hans := (settle_answered s i ((r, data) :: s.answered)).setState (some data) r.filter
  have hrec' : (s.received i r data).Recorded := by
    refine ⟨fun r' hr' => ?_, fun habsent => absurd (hans.viewClient.symm.trans habsent) hborn⟩
    rw [hstart', hend']
    exact hrec.last r' (hsent' ▸ hr')
  refine ⟨updateRange_recorded hrec', fun hvar => ?_⟩
  rw [updateRange_varied hrec'.last (by rw [Varied, hsent']; exact hvar)]
  rintro ⟨hmapped, -, hne, hhead⟩
  rw [hsent', hsent] at hhead
  have hstate : (s.received i r data).stateFilter = r.filter := by
    rw [received, setState,
      if_pos (show (s.settle i _).viewClient = .mapped from hans.viewClient.symm.trans hmapped)]
  have hlast := congrArg Request.filter (Option.some.inj hhead)
  exact hne (hstate.trans hlast)

/-- A failure repeats the request exactly as `Repeats` says. -/
theorem failure_varied {s : RangeView F J} (hs : s.Inv k) (hrec : s.Recorded) {i : ℕ}
    {r : Request F} (hr : s.inFlight[i]? = some r) :
    (updateRange k (s.lost k i)).Recorded ∧
      (s.Varied → ((updateRange k (s.lost k i)).Varied ↔ ¬s.Repeats (.failure i))) := by
  obtain ⟨-, -, -, -, -, hborn⟩ := hs.flight.answered hr
  obtain ⟨hsent', hstart', hend', hfilter', hstate'⟩ := lost_sent (k := k) s i
  have hans := lost_answered (k := k) s i
  have hrec' : (s.lost k i).Recorded := by
    refine ⟨fun r' hr' => ?_, fun habsent => absurd (hans.viewClient.symm.trans habsent) hborn⟩
    rw [hstart', hend']
    exact hrec.last r' (hsent' ▸ hr')
  refine ⟨updateRange_recorded hrec', fun hvar => ?_⟩
  rw [updateRange_varied hrec'.last (by rw [Varied, hsent']; exact hvar)]
  rw [hans.viewClient, hans.pending, hans.view, Unsettled, hstate', hfilter', hsent']
  exact not_congr (and_congr_right fun _ => and_iff_right rfl)

/-- One event repeats a request exactly as `Repeats` says. -/
theorem step_varied {s s' : RangeView F J} {e : Event F J} (hs : s.Inv k) (hrec : s.Recorded)
    (hstep : step k s e = some s') :
    s'.Recorded ∧ (s.Varied → (s'.Varied ↔ ¬s.Repeats e)) := by
  cases step_cases hstep with
  | mount habsent =>
      have hnone := hrec.unborn habsent
      have hrec' : ({ s with view := link s.view, viewClient := .mapped } : RangeView F J).Recorded :=
        ⟨hrec.last, fun habsent => by cases habsent⟩
      refine ⟨updateRange_recorded hrec', fun hvar => ?_⟩
      rw [updateRange_varied hrec'.last hvar]
      refine not_congr (iff_of_false ?_ id)
      rintro ⟨-, -, -, hhead⟩
      change s.sent.head? = _ at hhead
      rw [hnone] at hhead
      cases hhead
  | unmount =>
      exact ⟨⟨hrec.last, fun habsent => by cases habsent⟩, fun hvar => iff_of_true hvar id⟩
  | change op => exact change_varied hs hrec op
  | edit value => exact ⟨⟨hrec.last, hrec.unborn⟩, fun hvar => iff_of_true hvar id⟩
  | applyFilter hcan =>
      refine ⟨updateRange_recorded hrec, fun hvar => ?_⟩
      rw [updateRange_varied hrec.last hvar]
      exact not_congr (and_iff_right hcan.2)
  | success data hr =>
      obtain ⟨hrec', hvaried⟩ := success_varied hs hrec hr data
      exact ⟨hrec', fun hvar => iff_of_true (hvaried hvar) id⟩
  | failure hr => exact failure_varied hs hrec hr

end RangeView

/-- In a run of the objects view each query differs from the one before it if and only if
`updateRange` never runs, with nothing pending, while the last query is still for the
window and the filter in force and that filter is not the one of the objects shown. -/
theorem objects_varied_iff {J : Type} (view : ProfileView ℕ) (events : List (Event (Option String) J)) :
    AllStates ObjectsView.step RangeView.Varied (ObjectsView.init view) events ↔
      AllSteps ObjectsView.step (fun s e => ¬s.Repeats e) (ObjectsView.init view) events := by
  refine allStates_iff_allSteps (I := fun s => s.Inv ObjectsView.kind ∧ s.Recorded) ?_ ?_ events _
    ⟨RangeView.init_inv view none, ⟨nofun, fun _ => rfl⟩⟩ .nil
  · intro s e s' hs hstep
    exact ⟨(RangeView.step_inv hs.1 hstep).1, (RangeView.step_varied hs.1 hs.2 hstep).1⟩
  · intro s e s' hs hvar hstep
    exact (RangeView.step_varied hs.1 hs.2 hstep).2 hvar

/-- The query for a new filter fails, and is sent again at once. -/
theorem objects_repeat_failure : ¬∀ (view : ProfileView ℕ) (events : List (Event (Option String) ℕ)),
    AllStates ObjectsView.step RangeView.Varied (ObjectsView.init view) events := by
  intro hall
  have hrun := (hall (.new 1 2) [.mount, .success 0 7, .edit (some "a"), .applyFilter, .failure 0]).2
    _ rfl
  have hsent : List.IsChain (· ≠ ·) (_ :: _ :: _) := (((hrun.2 _ rfl).2 _ rfl).2 _ rfl).2 _ rfl
  exact (List.isChain_cons_cons.1 hsent).1 rfl

end SatAllocatorTest.Ports.Monitor
