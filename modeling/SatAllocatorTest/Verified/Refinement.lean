/-!
# Refinement over runs

An implementation whose operations are stateful programs that may stop, against a
specification whose operations are total functions on an abstract state.  If one
operation keeps a relation between the two states and returns what the
specification returns, then any list of operations does (`runAll_refines`), and in
particular no run stops.

Where an operation can go wrong without stopping, `AllSteps` says of a run that a
condition holds before each operation, and `runAll_good_iff` turns an exact condition
for one step into an exact condition for a run.

The programs are written in `StateT σ (Except ε)`: a run either stops with an error or
returns a value and the state it leaves.  A proof executes such a program one statement at
a time, and every step is an instance of `bind_ok`: the first statement returned `a` in
`s'`, so the run is the run of the continuation from there.  `bind_inv` goes the other way:
a sequence that returned was two runs that returned.
-/

namespace SatAllocatorTest.Verified.Refinement

/-! ## One statement at a time -/

variable {σ ε Op Ret S Out α β : Type}

/-- One step of symbolic execution. -/
theorem bind_ok {x : StateT σ (Except ε) α} {f : α → StateT σ (Except ε) β}
    {s s' : σ} {a : α} (h : x s = .ok (a, s')) : (x >>= f) s = f a s' := by
  show (x s >>= fun p => f p.1 p.2) = f a s'
  rw [h]
  rfl

/-- The value of the last statement. -/
theorem pure_ok (a : α) (s : σ) :
    (pure a : StateT σ (Except ε) α) s = .ok (a, s) := rfl

/-- A sequence that returned is two runs that returned. -/
theorem bind_inv {x : StateT σ (Except ε) α} {f : α → StateT σ (Except ε) β}
    {s s' : σ} {b : β} (h : (x >>= f) s = .ok (b, s')) :
    ∃ a s₁, x s = .ok (a, s₁) ∧ f a s₁ = .ok (b, s') := by
  change (x s >>= fun p => f p.1 p.2) = .ok (b, s') at h
  cases hx : x s with
  | error e => rw [hx] at h; cases h
  | ok p => rw [hx] at h; exact ⟨p.1, p.2, rfl, h⟩

/-! ## Runs of operations -/

/-- The operations of a list, one after the other. -/
def runAll (exec : Op → StateT σ (Except ε) Ret) : List Op → StateT σ (Except ε) (List Ret)
  | [] => pure []
  | op :: ops => do
      let r ← exec op
      let rs ← runAll exec ops
      pure (r :: rs)

/-- The same for the specification. -/
def specRun (spec : S → Op → S × Out) : S → List Op → S × List Out
  | S, [] => (S, [])
  | S, op :: ops => ((specRun spec (spec S op).1 ops).1,
      (spec S op).2 :: (specRun spec (spec S op).1 ops).2)

variable {exec : Op → StateT σ (Except ε) Ret}

theorem runAll_cons {op : Op} {ops : List Op} {s s₁ s₂ : σ} {r : Ret} {rs : List Ret}
    (h₁ : exec op s = .ok (r, s₁)) (h₂ : runAll exec ops s₁ = .ok (rs, s₂)) :
    runAll exec (op :: ops) s = .ok (r :: rs, s₂) := by
  rw [runAll, bind_ok h₁, bind_ok h₂]
  rfl

/-- One step that refines makes every run refine. -/
theorem runAll_refines {R : σ → S → Prop} {spec : S → Op → S × Out} {obs : Ret → Out}
    (step : ∀ s S op, R s S → ∃ r s', exec op s = .ok (r, s') ∧ R s' (spec S op).1 ∧
      obs r = (spec S op).2) :
    ∀ ops s S, R s S → ∃ rs s', runAll exec ops s = .ok (rs, s') ∧
      R s' (specRun spec S ops).1 ∧ rs.map obs = (specRun spec S ops).2 := by
  intro ops
  induction ops with
  | nil => exact fun s S hR => ⟨[], s, rfl, hR, rfl⟩
  | cons op ops ih =>
      intro s S hR
      obtain ⟨r, s₁, h₁, hR₁, hobs⟩ := step s S op hR
      obtain ⟨rs, s₂, h₂, hR₂, hobs₂⟩ := ih s₁ _ hR₁
      refine ⟨r :: rs, s₂, runAll_cons h₁ h₂, hR₂, ?_⟩
      rw [List.map_cons, hobs, hobs₂, specRun]

/-- Before each operation of the run, `P` holds of the state and the operation. -/
def AllSteps (exec : Op → StateT σ (Except ε) Ret) (P : σ → Op → Prop) : List Op → σ → Prop
  | [], _ => True
  | op :: ops, s => P s op ∧ ∀ r s', exec op s = .ok (r, s') → AllSteps exec P ops s'

/-- If a step ends well exactly when it began well and met `P`, then a run that begins
well ends well exactly when all its steps meet `P`. -/
theorem runAll_good_iff {R G : σ → Prop} {P : σ → Op → Prop}
    (step : ∀ s op, R s → ∃ r s', exec op s = .ok (r, s') ∧ R s' ∧ (G s' ↔ G s ∧ P s op)) :
    ∀ ops s, R s → ((∃ rs s', runAll exec ops s = .ok (rs, s') ∧ G s') ↔
      G s ∧ AllSteps exec P ops s) := by
  intro ops
  induction ops with
  | nil =>
      refine fun s _ => ⟨?_, fun hgood => ⟨[], s, rfl, hgood.1⟩⟩
      rintro ⟨rs, s', hrun, hgood⟩
      cases hrun
      exact ⟨hgood, trivial⟩
  | cons op ops ih =>
      intro s hR
      obtain ⟨r, s₁, h₁, hR₁, hiff⟩ := step s op hR
      have hall : AllSteps exec P (op :: ops) s ↔ P s op ∧ AllSteps exec P ops s₁ := by
        refine and_congr_right fun _ => ⟨fun h => h r s₁ h₁, fun h r' s' h₁' => ?_⟩
        cases h₁.symm.trans h₁'
        exact h
      rw [hall, ← and_assoc, ← hiff, ← ih s₁ hR₁]
      constructor
      · rintro ⟨rs, s', hrun, hgood⟩
        rw [runAll, bind_ok h₁] at hrun
        obtain ⟨rs₂, s₂, h₂, hpure⟩ := bind_inv hrun
        cases hpure
        exact ⟨rs₂, _, h₂, hgood⟩
      · rintro ⟨rs, s', hrun, hgood⟩
        exact ⟨r :: rs, s', runAll_cons h₁ hrun, hgood⟩

end SatAllocatorTest.Verified.Refinement
