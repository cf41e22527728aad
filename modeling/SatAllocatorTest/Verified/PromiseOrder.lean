import Mathlib.Data.List.Pairwise
import SatAllocatorTest.Verified.Promises

/-!
# The order of reactions

Which of the reactions of a machine of promises runs first.  `own` picks some reactions;
`waiting own` lists what it picks: first those in the queue, then those that still wait,
by the promise they wait for.

The list is the order in which they will run, provided the promises they wait for are
chained: each `Needs` the ones before it (`Linked`), so that none is fulfilled before
them.  Then a promise that is fulfilled leaves the list as it is (`Linked.settle_waiting`),
a reaction registered with the last promise of the chain goes to the end
(`Linked.subscribe_waiting`), and a job takes the first element (`waiting_pop`).
-/

namespace SatAllocatorTest.Verified.Promises

namespace Machine

variable {H V W α : Type}

/-! ## Lists by number -/

/-- The first list that is not empty may be taken out and put in front. -/
theorem flatMap_range_first {f : ℕ → List α} {t : ℕ} (hfirst : ∀ p, p < t → f p = []) :
    ∀ n, t < n →
      (List.range n).flatMap f = f t ++ (List.range n).flatMap (Function.update f t []) := by
  intro n
  induction n with
  | zero => exact fun h => absurd h (Nat.not_lt_zero t)
  | succ n ih =>
      intro ht
      rw [List.range_succ, List.flatMap_append, List.flatMap_append]
      rcases Nat.lt_or_eq_of_le (Nat.le_of_lt_succ ht) with hlt | rfl
      · have hne : n ≠ t := Nat.ne_of_gt hlt
        rw [ih hlt]
        simp [hne]
      · have hnone : (List.range t).flatMap f = [] :=
          List.flatMap_eq_nil_iff.2 fun p hp => hfirst p (List.mem_range.1 hp)
        have hnone' : (List.range t).flatMap (Function.update f t []) = [] := by
          refine List.flatMap_eq_nil_iff.2 fun p hp => ?_
          have hlt := List.mem_range.1 hp
          rw [Function.update_of_ne (Nat.ne_of_lt hlt)]
          exact hfirst p hlt
        rw [hnone, hnone']
        simp

/-- What is added to the last list that is not empty comes last. -/
theorem flatMap_range_last {f : ℕ → List α} {t : ℕ} (a : List α)
    (hlast : ∀ p, t < p → f p = []) :
    ∀ n, t < n →
      (List.range n).flatMap (Function.update f t (f t ++ a)) = (List.range n).flatMap f ++ a := by
  intro n
  induction n with
  | zero => exact fun h => absurd h (Nat.not_lt_zero t)
  | succ n ih =>
      intro ht
      rw [List.range_succ, List.flatMap_append, List.flatMap_append]
      rcases Nat.lt_or_eq_of_le (Nat.le_of_lt_succ ht) with hlt | rfl
      · have hne : n ≠ t := Nat.ne_of_gt hlt
        rw [ih hlt]
        simp [hne, hlast n hlt]
      · have hsame : (List.range t).flatMap (Function.update f t (f t ++ a)) =
            (List.range t).flatMap f := by
          refine List.flatMap_congr fun p hp => ?_
          exact Function.update_of_ne (Nat.ne_of_lt (List.mem_range.1 hp)) _ _
        rw [hsame]
        simp

/-! ## What waits -/

/-- What `own` picks of the reactions that wait for `p`. -/
def pendingOn (own : Reaction H → Option α) (reactions : ℕ → List (Reaction H)) (p : ℕ) : List α :=
  (reactions p).filterMap own

/-- What `own` picks of the reactions, in the order they will run. -/
def waiting (own : Reaction H → Option α) (m : Machine H V) : List α :=
  m.queue.filterMap (fun job => own job.1) ++ (List.range m.size).flatMap (pendingOn own m.reactions)

variable {own : Reaction H → Option α} {m m' : Machine H V} {w w' : W}
  {Effect : W → H → V → V → Prop}

theorem waiting_make (hs : Sound Effect m w) (o : Origin H) :
    (m.make o).waiting own = m.waiting own := by
  have hnone : pendingOn own m.reactions m.size = [] := by
    rw [pendingOn, (hs.fresh _ (Nat.le_refl _)).2.2]
    rfl
  simp [waiting, make, List.range_succ, hnone]

/-- A job takes the first of what waits, or nothing. -/
theorem waiting_pop {r : Reaction H} {o : Outcome V} {rest : List (Reaction H × Outcome V)}
    (hqueue : m.queue = (r, o) :: rest) :
    m.waiting own = (own r).toList ++ (m.withQueue rest).waiting own := by
  unfold waiting
  rw [hqueue]
  cases hown : own r with
  | none => simp [hown, withQueue]
  | some a => simp [hown, withQueue]

theorem subscribe_waiting_of_none {p : ℕ} {r : Reaction H} (hown : own r = none) :
    (m.subscribe p r).waiting own = m.waiting own := by
  cases hstate : m.state p with
  | some o =>
      rw [subscribe_settled hstate]
      simp [waiting, hown]
  | none =>
      rw [subscribe_pending hstate]
      unfold waiting
      congr 1
      refine List.flatMap_congr fun q _ => ?_
      unfold pendingOn
      by_cases hq : q = p
      · subst hq
        simp [hown]
      · simp [hq]

/-- Where what waits waits: the promises of `chain`, the last one first, each of which
needs the ones after it. -/
structure Linked (own : Reaction H → Option α) (m : Machine H V) (chain : List ℕ) : Prop where
  linked : ∀ p, pendingOn own m.reactions p ≠ [] → p ∈ chain
  needs : chain.Pairwise fun a b => b < a ∧ Needs m.origin a b

/-- No promise is rejected. -/
def Successful (m : Machine H V) : Prop := ∀ t, m.state t ≠ some .rejected

theorem Linked.needs_of_lt {chain : List ℕ} (hl : Linked own m chain) {a b : ℕ} (ha : a ∈ chain)
    (hb : b ∈ chain) (hlt : b < a) : Needs m.origin a b := by
  have hcase : ∀ l : List ℕ, (l.Pairwise fun a b => b < a ∧ Needs m.origin a b) → a ∈ l → b ∈ l →
      Needs m.origin a b := by
    intro l
    induction l with
    | nil => exact fun _ ha => absurd ha List.not_mem_nil
    | cons c l ih =>
        intro hl ha hb
        obtain ⟨hc, hl⟩ := List.pairwise_cons.1 hl
        rcases List.mem_cons.1 ha with rfl | ha'
        · rcases List.mem_cons.1 hb with rfl | hb'
          · exact absurd hlt (Nat.lt_irrefl _)
          · exact (hc b hb').2
        · rcases List.mem_cons.1 hb with rfl | hb'
          · exact absurd (Nat.lt_trans (hc a ha').1 hlt) (Nat.lt_irrefl _)
          · exact ih hl ha' hb'
  exact hcase chain hl.needs ha hb

/-- Nothing waits for a promise that a fulfilled one needs. -/
theorem Sound.none_pending (hs : Sound Effect m w) (own : Reaction H → Option α) {t p : ℕ} {v : V} (hneeds : Needs m.origin t p)
    (hv : m.state t = some (.fulfilled v)) : pendingOn own m.reactions p = [] := by
  obtain ⟨u, hu⟩ := hs.needs hneeds v hv
  rw [pendingOn, hs.quiet p (hu ▸ Option.some_ne_none _)]
  rfl

/-- What waits for a promise goes to the end of the queue when it is fulfilled; that
changes no order. -/
theorem Linked.settle_waiting {chain : List ℕ} (hl : Linked own m chain) (hs : Sound Effect m w)
    {t : ℕ} {v : V} (hs' : Sound Effect (m.settle t (.fulfilled v)) w') :
    (m.settle t (.fulfilled v)).waiting own = m.waiting own := by
  cases hstate : m.state t with
  | some o => rw [settle_settled hstate]
  | none =>
      have hmoved : (m.settle t (.fulfilled v)).waiting own =
          m.queue.filterMap (fun job => own job.1) ++ (pendingOn own m.reactions t ++
            (List.range m.size).flatMap (Function.update (pendingOn own m.reactions) t [])) := by
        rw [settle_pending hstate]
        unfold waiting
        rw [List.filterMap_append, List.append_assoc, List.filterMap_map]
        congr 2
        refine List.flatMap_congr fun q _ => ?_
        unfold pendingOn
        by_cases hq : q = t
        · subst hq
          simp
        · simp [hq]
      rw [hmoved, waiting]
      congr 1
      by_cases hnone : pendingOn own m.reactions t = []
      · rw [hnone, List.nil_append]
        congr 1
        exact Function.update_eq_self_iff.2 hnone.symm
      · have hlt : t < m.size := by
          refine hs.lt_size (.inr (.inr fun hempty => hnone ?_))
          rw [pendingOn, hempty]
          rfl
        refine (flatMap_range_first (fun p hp => ?_) m.size hlt).symm
        by_contra hpending
        have hneeds : Needs (m.settle t (.fulfilled v)).origin t p := by
          rw [settle_origin]
          exact hl.needs_of_lt (hl.linked t hnone) (hl.linked p hpending) hp
        have hdone := hs'.none_pending own hneeds (settle_state_self hstate)
        rw [settle_pending hstate, pendingOn] at hdone
        simp only [Function.update_of_ne (Nat.ne_of_lt hp)] at hdone
        exact hpending hdone

/-- A reaction registered with the last promise of the chain comes last. -/
theorem Linked.subscribe_waiting {l : ℕ} {chain : List ℕ} (hl : Linked own m (l :: chain))
    (hs : Sound Effect m w) (hok : m.Successful) (hlt : l < m.size) {r : Reaction H} {a : α}
    (hown : own r = some a) : (m.subscribe l r).waiting own = m.waiting own ++ [a] := by
  have hlast : ∀ p, l < p → pendingOn own m.reactions p = [] := by
    intro p hp
    by_contra hpending
    rcases List.mem_cons.1 (hl.linked p hpending) with rfl | hmem
    · exact Nat.lt_irrefl _ hp
    · exact Nat.lt_asymm hp ((List.pairwise_cons.1 hl.needs).1 p hmem).1
  cases hstate : m.state l with
  | some o =>
      rw [subscribe_settled hstate]
      obtain ⟨v, rfl⟩ : ∃ v, o = .fulfilled v := by
        cases o with
        | fulfilled v => exact ⟨v, rfl⟩
        | rejected => exact absurd hstate (hok l)
      have hnone : ∀ p, pendingOn own m.reactions p = [] := by
        intro p
        by_contra hpending
        have hmem := hl.linked p hpending
        have hneeds : Needs m.origin l p := by
          rcases List.mem_cons.1 hmem with rfl | hmem'
          · exact .refl _
          · exact ((List.pairwise_cons.1 hl.needs).1 p hmem').2
        exact hpending (hs.none_pending own hneeds hstate)
      have hempty : ∀ n, (List.range n).flatMap (pendingOn own m.reactions) = [] := fun n =>
        List.flatMap_eq_nil_iff.2 fun p _ => hnone p
      simp [waiting, hempty, hown]
  | none =>
      rw [subscribe_pending hstate]
      unfold waiting
      rw [List.append_assoc, ← flatMap_range_last [a] hlast m.size hlt]
      congr 1
      refine List.flatMap_congr fun q _ => ?_
      unfold pendingOn
      by_cases hq : q = l
      · subst hq
        simp [hown]
      · simp [hq]

/-! ## The chain stays one -/

theorem Linked.extends {chain : List ℕ} (hl : Linked own m chain) (hs : Sound Effect m w)
    (hext : m.Extends m') (hpending : ∀ p, pendingOn own m'.reactions p ≠ [] → p ∈ chain) :
    Linked own m' chain :=
  ⟨hpending, hl.needs.imp fun h => ⟨h.1, h.2.extends hs hext⟩⟩

theorem settle_pendingOn (own : Reaction H → Option α) (m : Machine H V) (t : ℕ) (o : Outcome V) (p : ℕ) :
    pendingOn own (m.settle t o).reactions p = [] ∨
      pendingOn own (m.settle t o).reactions p = pendingOn own m.reactions p := by
  cases hstate : m.state t with
  | some o' =>
      rw [settle_settled hstate]
      exact .inr rfl
  | none =>
      rw [settle_pending hstate]
      by_cases hp : p = t
      · subst hp
        exact .inl (by simp [pendingOn])
      · exact .inr (by simp [pendingOn, hp])

theorem Linked.settle {chain : List ℕ} (hl : Linked own m chain) (hs : Sound Effect m w) (t : ℕ)
    (o : Outcome V) : Linked own (m.settle t o) chain := by
  refine hl.extends hs (extends_settle m t o) fun p hp => ?_
  rcases settle_pendingOn own m t o p with heq | heq
  · exact absurd heq hp
  · exact hl.linked p (heq ▸ hp)

theorem subscribe_pendingOn (m : Machine H V) {p : ℕ} {r : Reaction H} {q : ℕ}
    (h : own r = none ∨ q ≠ p) : pendingOn own (m.subscribe p r).reactions q = pendingOn own m.reactions q := by
  cases hstate : m.state p with
  | some o => rw [subscribe_settled hstate]
  | none =>
      rw [subscribe_pending hstate]
      unfold pendingOn
      by_cases hq : q = p
      · subst hq
        simp [h.resolve_right fun hne => hne rfl]
      · simp [hq]

/-- A reaction is registered: one that is not picked, or with a promise of the chain. -/
theorem Linked.subscribe {chain : List ℕ} (hl : Linked own m chain) (hs : Sound Effect m w) {p : ℕ}
    {r : Reaction H} (h : own r = none ∨ p ∈ chain) : Linked own (m.subscribe p r) chain := by
  refine hl.extends hs (extends_subscribe m p r) fun q hq => ?_
  by_cases hsame : own r = none ∨ q ≠ p
  · rw [subscribe_pendingOn m hsame] at hq
    exact hl.linked q hq
  · obtain ⟨hown, heq⟩ := not_or.1 hsame
    rw [not_not.1 heq]
    exact h.resolve_left hown

end Machine

end SatAllocatorTest.Verified.Promises
