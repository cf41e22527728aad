/-!
# Runs of an event machine

A machine that reacts to events: `step s e` is the state after `e`, or `none` when
`e` cannot happen in `s`.  A run is a list of events that all happened; whatever
holds at first and is kept by every step holds after every run (`run_invariant`).

`AllStates` says of a run that a property holds in each state it passes through, and
`AllSteps` that a condition holds before each event.  Where a step from a good state
leads to a good one exactly under the condition, the two are the same
(`allStates_iff_allSteps`).
-/

namespace SatAllocatorTest.Verified.Runs

variable {σ E : Type} (step : σ → E → Option σ)

/-- The state a run leads to; `none` when one of its events cannot happen. -/
def run : σ → List E → Option σ
  | s, [] => some s
  | s, e :: es =>
    match step s e with
    | none => none
    | some s' => run s' es

/-- `G` holds of every state the run passes through, the first one included. -/
def AllStates (G : σ → Prop) : σ → List E → Prop
  | s, [] => G s
  | s, e :: es => G s ∧ ∀ s', step s e = some s' → AllStates G s' es

/-- `P` holds before each event of the run that happens. -/
def AllSteps (P : σ → E → Prop) : σ → List E → Prop
  | _, [] => True
  | s, e :: es => ∀ s', step s e = some s' → P s e ∧ AllSteps P s' es

variable {step}

/-- The first event of a run happened. -/
theorem run_cons_inv {s t : σ} {e : E} {es : List E} (h : run step s (e :: es) = some t) :
    ∃ s', step s e = some s' ∧ run step s' es = some t := by
  rw [run] at h
  cases hs : step s e with
  | none =>
      rw [hs] at h
      cases h
  | some s' =>
      rw [hs] at h
      exact ⟨s', rfl, h⟩

/-- What every step with an event of a kind keeps, every run of such events keeps. -/
theorem run_invariant_of {I : σ → Prop} {P : E → Prop}
    (keep : ∀ s e s', P e → I s → step s e = some s' → I s') :
    ∀ (es : List E) (s t : σ), (∀ e ∈ es, P e) → I s → run step s es = some t → I t := by
  intro es
  induction es with
  | nil =>
      intro s t _ hs hrun
      cases hrun
      exact hs
  | cons e es ih =>
      intro s t hP hs hrun
      obtain ⟨s', hstep, hrest⟩ := run_cons_inv hrun
      obtain ⟨hPe, hP⟩ := List.forall_mem_cons.1 hP
      exact ih s' t hP (keep s e s' hPe hs hstep) hrest

/-- What every step keeps, every run keeps. -/
theorem run_invariant {I : σ → Prop}
    (keep : ∀ s e s', I s → step s e = some s' → I s')
    (es : List E) (s t : σ) (hs : I s) (hrun : run step s es = some t) : I t :=
  run_invariant_of (P := fun _ => True) (fun s e s' _ => keep s e s') es s t
    (fun _ _ => trivial) hs hrun

/-- What every step that meets a condition keeps, every run of such steps keeps. -/
theorem run_invariant_steps {I : σ → Prop} {P : σ → E → Prop}
    (keep : ∀ s e s', P s e → I s → step s e = some s' → I s') :
    ∀ (es : List E) (s t : σ), AllSteps step P s es → I s → run step s es = some t → I t := by
  intro es
  induction es with
  | nil =>
      intro s t _ hs hrun
      cases hrun
      exact hs
  | cons e es ih =>
      intro s t hall hs hrun
      obtain ⟨s', hstep, hrest⟩ := run_cons_inv hrun
      obtain ⟨hP, hall⟩ := hall s' hstep
      exact ih s' t hall (keep s e s' hP hs hstep) hrest

/-- One more event at the end of a run. -/
theorem run_concat {s t t' : σ} {es : List E} {e : E} (hrun : run step s es = some t)
    (hstep : step t e = some t') : run step s (es ++ [e]) = some t' := by
  induction es generalizing s with
  | nil =>
      cases hrun
      rw [List.nil_append, run, hstep]
      rfl
  | cons e' es ih =>
      obtain ⟨s', hs, hrest⟩ := run_cons_inv hrun
      rw [List.cons_append, run, hs]
      exact ih hrest

theorem allSteps_concat {P : σ → E → Prop} {s t : σ} {es : List E} {e : E}
    (hall : AllSteps step P s es) (hrun : run step s es = some t) (hP : P t e) :
    AllSteps step P s (es ++ [e]) := by
  induction es generalizing s with
  | nil =>
      cases hrun
      exact fun s' _ => ⟨hP, trivial⟩
  | cons e' es ih =>
      obtain ⟨s', hs, hrest⟩ := run_cons_inv hrun
      intro s₁ hs₁
      cases hs.symm.trans hs₁
      exact ⟨(hall s' hs).1, ih (hall s' hs).2 hrest⟩

/-- An event leads to one state at most. -/
theorem forall_step_iff {s s' : σ} {e : E} (h : step s e = some s') {Q : σ → Prop} :
    (∀ t, step s e = some t → Q t) ↔ Q s' := by
  constructor
  · exact fun hall => hall s' h
  · intro hQ t ht
    cases h.symm.trans ht
    exact hQ

/-- If a step from a good state ends in a good one exactly when it meets `P`, then a run
from a good state stays in good ones exactly when all its steps meet `P`. -/
theorem allStates_iff_allSteps {I G : σ → Prop} {P : σ → E → Prop}
    (keep : ∀ s e s', I s → step s e = some s' → I s')
    (exact_step : ∀ s e s', I s → G s → step s e = some s' → (G s' ↔ P s e)) :
    ∀ (es : List E) (s : σ), I s → G s → (AllStates step G s es ↔ AllSteps step P s es) := by
  intro es
  induction es with
  | nil => exact fun s _ hG => iff_of_true hG trivial
  | cons e es ih =>
      intro s hI hG
      cases hs : step s e with
      | none =>
          have hnone : ∀ s', step s e ≠ some s' := by
            intro s' hs'
            rw [hs] at hs'
            cases hs'
          exact iff_of_true ⟨hG, fun s' hs' => absurd hs' (hnone s')⟩
            fun s' hs' => absurd hs' (hnone s')
      | some s' =>
          have hstep := exact_step s e s' hI hG hs
          have hrest : G s' → (AllStates step G s' es ↔ AllSteps step P s' es) :=
            ih s' (keep s e s' hI hs)
          have hfirst : AllStates step G s' es → G s' := by
            intro hall
            cases es with
            | nil => exact hall
            | cons e' es' => exact hall.1
          constructor
          · rintro ⟨-, hall⟩
            have hall := (forall_step_iff hs).1 hall
            have hgood := hfirst hall
            exact (forall_step_iff hs).2 ⟨hstep.1 hgood, (hrest hgood).1 hall⟩
          · intro hall
            obtain ⟨hP, hall⟩ := (forall_step_iff hs).1 hall
            have hgood := hstep.2 hP
            exact ⟨hG, (forall_step_iff hs).2 ((hrest hgood).2 hall)⟩

end SatAllocatorTest.Verified.Runs
