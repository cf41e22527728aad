/-!
# While loops

`whileLoop cond body` runs `while (cond) body` for at most so many tests of its condition.
A loop ends when some number of tests is enough (`Ends`); the state it ends in does not
depend on that number (`whileLoop_mono`).

The rule `ends_of_variant` is total correctness: a loop whose turns keep an invariant and
lower a natural number ends, in a state where the invariant holds and the condition does
not.  `whileLoop_none` is its converse side: a loop that keeps an invariant under which
the condition holds never ends.

A loop of the source that can fail is a recursion on fuel whose result says when it ran out.
`Sooner out x y` says that `x` is `y` unless it ran out of fuel (the fault `out`): what more
fuel can do.  The relation goes through binds, so each loop's lemma only looks at its own turn.
-/

namespace SatAllocatorTest.Verified.Loops

variable {σ : Type} (cond : σ → Bool) (body : σ → σ)

/-- The state `while (cond) body` ends in, if it does within `fuel` tests. -/
def whileLoop : (fuel : Nat) → σ → Option σ
  | 0, _ => none
  | fuel + 1, s => if cond s then whileLoop fuel (body s) else some s

/-- The loop from `s` ends in `t`. -/
def Ends (s t : σ) : Prop := ∃ fuel, whileLoop cond body fuel s = some t

variable {cond body}

/-- More tests than enough change nothing. -/
theorem whileLoop_mono {fuel more : Nat} (hle : fuel ≤ more) {s t : σ}
    (h : whileLoop cond body fuel s = some t) : whileLoop cond body more s = some t := by
  induction fuel generalizing more s with
  | zero => simp [whileLoop] at h
  | succ fuel ih =>
      match more, hle with
      | more + 1, hle =>
          rw [whileLoop] at h ⊢
          by_cases hc : cond s = true
          · rw [if_pos hc] at h ⊢
            exact ih (Nat.le_of_succ_le_succ hle) h
          · rw [if_neg hc] at h ⊢
            exact h

/-- The state a loop ends in is the only one. -/
theorem Ends.unique {s t t' : σ} (h : Ends cond body s t) (h' : Ends cond body s t') :
    t = t' := by
  obtain ⟨n, hn⟩ := h
  obtain ⟨n', hn'⟩ := h'
  have hmax := whileLoop_mono (Nat.le_max_left n n') hn
  have hmax' := whileLoop_mono (Nat.le_max_right n n') hn'
  exact Option.some.inj (hmax.symm.trans hmax')

/-- A loop that keeps `I` and lowers `variant` as long as it goes on ends within one test
more than `variant` says, with `I` kept and the condition false. -/
theorem whileLoop_of_variant {I : σ → Prop} (variant : σ → Nat)
    (turn : ∀ s, I s → cond s = true → I (body s) ∧ variant (body s) < variant s) :
    ∀ (fuel : Nat) (s : σ), I s → variant s < fuel →
      ∃ t, whileLoop cond body fuel s = some t ∧ I t ∧ cond t = false := by
  intro fuel
  induction fuel with
  | zero => exact fun s _ hlt => absurd hlt (Nat.not_lt_zero _)
  | succ fuel ih =>
      intro s hs hlt
      rw [whileLoop]
      by_cases hc : cond s = true
      · have hturn := turn s hs hc
        rw [if_pos hc]
        exact ih (body s) hturn.1 (by omega)
      · rw [if_neg hc]
        exact ⟨s, rfl, hs, by simpa using hc⟩

/-- The same, without the count of tests. -/
theorem ends_of_variant {I : σ → Prop} (variant : σ → Nat)
    (turn : ∀ s, I s → cond s = true → I (body s) ∧ variant (body s) < variant s)
    {s : σ} (hs : I s) : ∃ t, Ends cond body s t ∧ I t ∧ cond t = false := by
  have hrun := whileLoop_of_variant variant turn (variant s + 1) s hs (Nat.lt_succ_self _)
  obtain ⟨t, ht, hI, hc⟩ := hrun
  exact ⟨t, ⟨_, ht⟩, hI, hc⟩

/-- A loop that never leaves states where its condition holds never ends. -/
theorem whileLoop_none {I : σ → Prop} (turn : ∀ s, I s → cond s = true ∧ I (body s)) :
    ∀ (fuel : Nat) (s : σ), I s → whileLoop cond body fuel s = none := by
  intro fuel
  induction fuel with
  | zero => exact fun _ _ => rfl
  | succ fuel ih =>
      intro s hs
      have hturn := turn s hs
      rw [whileLoop, if_pos hturn.1]
      exact ih (body s) hturn.2

/-! ## Loops that can fail -/

variable {ε α β : Type} {out : ε}

/-- `x` ran out of fuel, or is `y`. -/
def Sooner (out : ε) (x y : Except ε α) : Prop := x = .error out ∨ x = y

theorem Sooner.refl (x : Except ε α) : Sooner out x x := Or.inr rfl

theorem Sooner.ranOut (y : Except ε α) : Sooner out (.error out) y := Or.inl rfl

theorem Sooner.eq {x y : Except ε α} (h : Sooner out x y) (hx : x ≠ .error out) : x = y :=
  h.resolve_left hx

theorem Sooner.bind {x y : Except ε α} {f g : α → Except ε β} (h : Sooner out x y)
    (hfg : ∀ a, Sooner out (f a) (g a)) : Sooner out (x >>= f) (y >>= g) := by
  rcases h with hout | heq
  · rw [hout]
    exact Or.inl rfl
  · rw [heq]
    cases y with
    | error e => exact Or.inr rfl
    | ok a => exact hfg a

theorem Sooner.ite {c : Prop} [Decidable c] {x y x' y' : Except ε α} (h : Sooner out x y)
    (h' : Sooner out x' y') : Sooner out (if c then x else x') (if c then y else y') := by
  split
  · exact h
  · exact h'

end SatAllocatorTest.Verified.Loops
