import SatAllocatorTest.Ports.SamplerBlocks
import SatAllocatorTest.Verified.PromiseOrder

/-!
# The order in which charts are served

The updates of a chart whose blocks are not all loaded wait for `loading`, and are served
in the order they were made, whatever the order of the responses (`Ordered`).  `due`
lists what a chart has yet to show, in the order it will show it, and `final` is what it
ends on; jobs change neither the order nor the end (`Ordered.job`).
-/

namespace SatAllocatorTest.Ports.Monitor

open SatAllocatorTest.Verified.ExtendedNumbers
open SatAllocatorTest.Verified.Promises
open SatAllocatorTest.Verified.Promises.Machine
open SatAllocatorTest.Verified.Runs

namespace ProfileSampler

variable {C : Type}

/-- The promise of a call that waits for `loading`. -/
def giveTarget : Reaction (Handler C) → Option ℕ
  | .run (.give _) t => some t
  | _ => none

/-- The chart that waits for the promise of a call. -/
def applyChart : Reaction (Handler C) → Option C
  | .run (.apply chart) _ => some chart
  | _ => none

/-- What a job is going to show in a chart. -/
def applied [DecidableEq C] (chart : C) : Reaction (Handler C) × Outcome Value → Option (List Location)
  | (.run (.apply chart') _, .fulfilled (.blocks blocks)) =>
      if chart' = chart then some blocks else none
  | _ => none

/-- The blocks of the window of an update. -/
def Update.blocks (blockLength : ℚ) (u : Update C) : List Location :=
  (windowBlocks blockLength u.window).getD []

/-- The updates of a chart whose promise is not settled, the oldest first. -/
def unsettled [DecidableEq C] (s : ProfileSampler C) (chart : C) : List (Update C) :=
  s.updates.filter fun u => decide (u.chart = chart) && (s.machine.state u.promise).isNone

/-- What a chart has yet to show. -/
def due [DecidableEq C] (s : ProfileSampler C) (chart : C) : List (List Location) :=
  s.machine.queue.filterMap (applied chart) ++
    (s.unsettled chart).map (Update.blocks s.blockLength)

/-- What a chart shows when all it has yet to show has come. -/
def final [DecidableEq C] (s : ProfileSampler C) (chart : C) : Option (List Location) :=
  (s.due chart).getLast?.or (s.world.charts chart).blocks

/-- The charts that wait for a promise are those of the updates that did, as long as it is
not settled. -/
def Waited (m : Machine (Handler C) Value) (updates : List (Update C)) : Prop :=
  ∀ p, pendingOn applyChart m.reactions p =
    (updates.filter fun u => decide (u.promise = p) && (m.state p).isNone).map Update.chart

/-- The updates of the charts are served in order. -/
structure Ordered (s : ProfileSampler C) : Prop where
  successful : s.machine.Successful
  linked : ∃ chain, s.loading = chain.head? ∧ Linked giveTarget s.machine chain
  sorted : (s.machine.waiting giveTarget).Pairwise (· < ·)
  waits : ∀ t, t ∈ s.machine.waiting giveTarget ↔
    (∃ c ∈ s.calls, c.promise = t) ∧ s.machine.state t = none
  updated : ∀ u ∈ s.updates, ∃ c ∈ s.calls,
    c.promise = u.promise ∧ windowBlocks s.blockLength u.window = some c.span
  order : s.updates.Pairwise fun u v => u.promise < v.promise
  applies : ∀ t p chart, s.machine.origin t = .after p (.apply chart) →
    ∃ u ∈ s.updates, u.promise = p ∧ u.chart = chart
  pending : Waited s.machine s.updates

variable {s : ProfileSampler C} {m m' : Machine (Handler C) Value} {w w' : World C}

theorem Ordered.setWorld (ho : s.Ordered) (w : World C) : Ordered { s with world := w } :=
  ⟨ho.successful, ho.linked, ho.sorted, ho.waits, ho.updated, ho.order, ho.applies, ho.pending⟩

theorem Ordered.setViews (ho : s.Ordered) (views : C → Window) : Ordered { s with views := views } :=
  ⟨ho.successful, ho.linked, ho.sorted, ho.waits, ho.updated, ho.order, ho.applies, ho.pending⟩

/-! ## Changes that concern no call and no chart -/

/-- The machine goes on, and nothing happens to the calls and charts that wait. -/
structure Keeps (m m' : Machine (Handler C) Value) : Prop where
  ext : m.Extends m'
  state : m'.state = m.state
  waiting : m'.waiting giveTarget = m.waiting giveTarget
  gives : ∀ p, pendingOn giveTarget m'.reactions p = pendingOn giveTarget m.reactions p
  applies : ∀ p, pendingOn applyChart m'.reactions p = pendingOn applyChart m.reactions p
  applied : ∀ [DecidableEq C] (chart : C),
    m'.queue.filterMap (applied chart) = m.queue.filterMap (applied chart)

theorem Keeps.trans {m₁ m₂ m₃ : Machine (Handler C) Value} (h : Keeps m₁ m₂) (h' : Keeps m₂ m₃) :
    Keeps m₁ m₃ :=
  ⟨h.ext.trans h'.ext, h'.state.trans h.state, h'.waiting.trans h.waiting,
    fun p => (h'.gives p).trans (h.gives p), fun p => (h'.applies p).trans (h.applies p),
    fun chart => (h'.applied chart).trans (h.applied chart)⟩

theorem Keeps.make (hs : Machine.Sound Effect m w) (o : Origin (Handler C)) : Keeps m (m.make o) :=
  ⟨extends_make m o, rfl, waiting_make hs o, fun _ => rfl, fun _ => rfl, fun _ => rfl⟩

theorem applied_of_none [DecidableEq C] {r : Reaction (Handler C)} (h : applyChart r = none)
    (chart : C) (o : Outcome Value) : applied chart (r, o) = none := by
  unfold applyChart at h
  unfold applied
  split at h
  · cases h
  · rename_i hne
    split
    · rename_i chart' t blocks heq
      cases heq
      exact absurd rfl (hne _ _)
    · rfl

theorem subscribe_applied [DecidableEq C] (m : Machine (Handler C) Value) (p : ℕ)
    {r : Reaction (Handler C)} (happly : applyChart r = none) (chart : C) :
    (m.subscribe p r).queue.filterMap (applied chart) = m.queue.filterMap (applied chart) := by
  cases hstate : m.state p with
  | some o =>
      rw [subscribe_settled hstate]
      simp [applied_of_none happly]
  | none => rw [subscribe_pending hstate]

theorem Keeps.subscribe (m : Machine (Handler C) Value) (p : ℕ) {r : Reaction (Handler C)}
    (hgive : giveTarget r = none) (happly : applyChart r = none) : Keeps m (m.subscribe p r) := by
  exact ⟨extends_subscribe m p r, subscribe_state m p r, subscribe_waiting_of_none hgive,
    fun q => subscribe_pendingOn m (.inl hgive), fun q => subscribe_pendingOn m (.inl happly),
    fun chart => subscribe_applied m p happly chart⟩

theorem Keeps.andThen (hs : Machine.Sound Effect m w) (p : ℕ) {h : Handler C}
    (hgive : ∀ blocks, h ≠ .give blocks) (happly : ∀ chart, h ≠ .apply chart) :
    Keeps m (m.andThen p h) := by
  refine (Keeps.make hs _).trans (Keeps.subscribe _ p ?_ ?_)
  · cases h with
    | load blocks => rfl
    | give blocks => exact absurd rfl (hgive blocks)
    | apply chart => rfl
  · cases h with
    | load blocks => rfl
    | give blocks => rfl
    | apply chart => exact absurd rfl (happly chart)

theorem Keeps.all (hs : Machine.Sound Effect m w) (p q : ℕ) : Keeps m (m.all p q) :=
  (Keeps.make hs _).trans ((Keeps.subscribe _ p rfl rfl).trans (Keeps.subscribe _ q rfl rfl))

theorem Ordered.keeps (ho : s.Ordered) (hs : Machine.Sound Effect s.machine w)
    (hk : Keeps s.machine m)
    (happly : ∀ t p chart, m.origin t = .after p (.apply chart) →
      s.machine.origin t = .after p (.apply chart)) :
    Ordered { s with machine := m } := by
  refine ⟨?_, ?_, ?_, ?_, ho.updated, ho.order, ?_, ?_⟩
  · intro t
    change m.state t ≠ _
    rw [hk.state]
    exact ho.successful t
  · obtain ⟨chain, hloading, hl⟩ := ho.linked
    exact ⟨chain, hloading, hl.extends hs hk.ext fun p hp => hl.linked p (hk.gives p ▸ hp)⟩
  · change (m.waiting giveTarget).Pairwise _
    rw [hk.waiting]
    exact ho.sorted
  · intro t
    change t ∈ m.waiting giveTarget ↔ _ ∧ m.state t = none
    rw [hk.waiting, hk.state]
    exact ho.waits t
  · exact fun t p chart horigin => ho.applies t p chart (happly t p chart horigin)
  · intro p
    change pendingOn applyChart m.reactions p = (s.updates.filter fun u => _ && (m.state p).isNone).map _
    rw [hk.applies, hk.state]
    exact ho.pending p

theorem Keeps.due [DecidableEq C] (hk : Keeps s.machine m) (chart : C) :
    due { s with machine := m } chart = s.due chart := by
  simp only [ProfileSampler.due, unsettled, hk.applied, hk.state]

/-! ## Jobs -/

theorem Ordered.update_call (ho : s.Ordered) {u : Update C} (hu : u ∈ s.updates) :
    ∃ c ∈ s.calls, c.promise = u.promise := by
  obtain ⟨c, hc, heq, -⟩ := ho.updated u hu
  exact ⟨c, hc, heq⟩

/-- The charts that wait for a promise are those of its updates. -/
theorem Ordered.none_waits (ho : s.Ordered) {t : ℕ} (hcall : ∀ c ∈ s.calls, c.promise ≠ t) :
    pendingOn applyChart s.machine.reactions t = [] := by
  rw [ho.pending t, List.map_eq_nil_iff, List.filter_eq_nil_iff]
  intro u hu
  obtain ⟨c, hc, heq⟩ := ho.update_call hu
  have hne : u.promise ≠ t := heq ▸ hcall c hc
  simp [hne]

theorem successful_settle (hok : m.Successful) (t : ℕ) (v : Value) :
    (m.settle t (.fulfilled v)).Successful := by
  intro p
  cases hstate : m.state t with
  | some o =>
      rw [settle_settled hstate]
      exact hok p
  | none =>
      by_cases hp : p = t
      · subst hp
        rw [settle_state_self hstate]
        exact fun h => by cases h
      · rw [settle_state_of_ne _ _ hp]
        exact hok p

theorem Waited.settle {updates : List (Update C)} (h : Waited m updates) (t : ℕ) (o : Outcome Value) :
    Waited (m.settle t o) updates := by
  intro p
  cases hstate : m.state t with
  | some o' =>
      rw [settle_settled hstate]
      exact h p
  | none =>
      by_cases hp : p = t
      · subst hp
        rw [settle_state_self hstate, settle_pending hstate]
        simp [pendingOn]
      · rw [settle_state_of_ne _ _ hp, ← h p, settle_pending hstate]
        simp [pendingOn, hp]

/-- A promise that no call returned is fulfilled. -/
theorem Ordered.settle (ho : s.Ordered) (hs : Machine.Sound Effect s.machine w) {t : ℕ} {v : Value}
    (hs' : Machine.Sound Effect (s.machine.settle t (.fulfilled v)) w')
    (hcall : ∀ c ∈ s.calls, c.promise ≠ t) :
    Ordered { s with machine := s.machine.settle t (.fulfilled v) } := by
  obtain ⟨chain, hloading, hl⟩ := ho.linked
  have hwaiting := hl.settle_waiting hs hs'
  refine ⟨successful_settle ho.successful t v, ⟨chain, hloading, hl.settle hs t _⟩, ?_, ?_,
    ho.updated, ho.order, ?_, ho.pending.settle t _⟩
  · exact (show (s.machine.settle t _).waiting giveTarget = _ from hwaiting) ▸ ho.sorted
  · intro p
    change p ∈ (s.machine.settle t _).waiting giveTarget ↔ _ ∧ (s.machine.settle t _).state p = none
    rw [hwaiting, ho.waits p]
    refine and_congr_right ?_
    rintro ⟨c, hc, rfl⟩
    rw [settle_state_of_ne _ _ (hcall c hc)]
  · intro q p chart horigin
    rw [settle_origin] at horigin
    exact ho.applies q p chart horigin

theorem applied_moved_nil [DecidableEq C] {rs : List (Reaction (Handler C))}
    (h : rs.filterMap applyChart = []) (chart : C) (o : Outcome Value) :
    (rs.map fun r => (r, o)).filterMap (applied chart) = [] := by
  rw [List.filterMap_eq_nil_iff] at h ⊢
  intro job hjob
  obtain ⟨r, hr, rfl⟩ := List.mem_map.1 hjob
  exact applied_of_none (h r hr) chart o

theorem Ordered.settle_due [DecidableEq C] (ho : s.Ordered) {t : ℕ} {o : Outcome Value}
    (hcall : ∀ c ∈ s.calls, c.promise ≠ t) (chart : C) :
    due { s with machine := s.machine.settle t o } chart = s.due chart := by
  cases hstate : s.machine.state t with
  | some o' => rw [settle_settled hstate]
  | none =>
      have hmoved : ((s.machine.reactions t).map fun r => (r, o)).filterMap (applied chart) = [] :=
        applied_moved_nil (ho.none_waits hcall) chart o
      have hqueue : (s.machine.settle t o).queue.filterMap (applied chart) =
          s.machine.queue.filterMap (applied chart) := by
        rw [settle_pending hstate, List.filterMap_append, hmoved, List.append_nil]
      have hunsettled : unsettled { s with machine := s.machine.settle t o } chart =
          s.unsettled chart := by
        refine List.filter_congr fun u hu => ?_
        obtain ⟨c, hc, heq⟩ := ho.update_call hu
        have hne : u.promise ≠ t := heq ▸ hcall c hc
        rw [settle_state_of_ne _ _ hne]
      simp only [due, hqueue, hunsettled]

/-- A job is taken from the queue that settles no call. -/
theorem Ordered.pop (ho : s.Ordered) {r : Reaction (Handler C)} {o : Outcome Value}
    {rest : List (Reaction (Handler C) × Outcome Value)} (hqueue : s.machine.queue = (r, o) :: rest)
    (hgive : giveTarget r = none) : Ordered { s with machine := s.machine.withQueue rest } := by
  have hwaiting : (s.machine.withQueue rest).waiting giveTarget = s.machine.waiting giveTarget := by
    rw [waiting_pop hqueue, hgive]
    rfl
  obtain ⟨chain, hloading, hl⟩ := ho.linked
  refine ⟨ho.successful, ⟨chain, hloading, hl.linked, hl.needs⟩, ?_, ?_, ho.updated, ho.order,
    ho.applies, ho.pending⟩
  · exact hwaiting ▸ ho.sorted
  · intro t
    change t ∈ (s.machine.withQueue rest).waiting giveTarget ↔ _
    rw [hwaiting]
    exact ho.waits t

theorem pop_due [DecidableEq C] {r : Reaction (Handler C)} {o : Outcome Value}
    {rest : List (Reaction (Handler C) × Outcome Value)} (hqueue : s.machine.queue = (r, o) :: rest)
    (chart : C) :
    s.due chart =
      (applied chart (r, o)).toList ++ due { s with machine := s.machine.withQueue rest } chart := by
  unfold due
  rw [hqueue]
  cases happlied : applied chart (r, o) with
  | none => simp [happlied, withQueue, unsettled]
  | some blocks => simp [happlied, withQueue, unsettled]

/-- The first of a sorted list may be taken out and put in front. -/
theorem sorted_split {t : ℕ} : ∀ us : List (Update C),
    (us.Pairwise fun u v => u.promise < v.promise) → (∀ u ∈ us, t ≤ u.promise) →
      us = us.filter (fun u => decide (u.promise = t)) ++
        us.filter fun u => !decide (u.promise = t) := by
  intro us
  induction us with
  | nil => exact fun _ _ => rfl
  | cons u us ih =>
      intro hsorted hle
      obtain ⟨hu, hsorted⟩ := List.pairwise_cons.1 hsorted
      have hlater : ∀ v ∈ us, v.promise ≠ t := fun v hv =>
        Nat.ne_of_gt (Nat.lt_of_le_of_lt (hle u List.mem_cons_self) (hu v hv))
      have hnone : us.filter (fun u => decide (u.promise = t)) = [] :=
        List.filter_eq_nil_iff.2 fun v hv => by simp [hlater v hv]
      have hall : us.filter (fun u => !decide (u.promise = t)) = us :=
        List.filter_eq_self.2 fun v hv => by simp [hlater v hv]
      by_cases ht : u.promise = t
      · simp [ht, hnone, hall]
      · simp [ht, hnone, hall]

theorem applied_moved [DecidableEq C] (rs : List (Reaction (Handler C))) (chart : C)
    (blocks : List Location) :
    (rs.map fun r => (r, Outcome.fulfilled (Value.blocks blocks))).filterMap (applied chart) =
      ((rs.filterMap applyChart).filter fun chart' => decide (chart' = chart)).map
        fun _ => blocks := by
  induction rs with
  | nil => rfl
  | cons r rs ih =>
      rw [List.map_cons]
      cases hr : applyChart r with
      | none =>
          rw [List.filterMap_cons_none (applied_of_none hr chart _), List.filterMap_cons_none hr, ih]
      | some chart' =>
          obtain ⟨t, rfl⟩ : ∃ t, r = .run (.apply chart') t := by
            unfold applyChart at hr
            split at hr
            · rename_i t
              cases hr
              exact ⟨t, rfl⟩
            · cases hr
          rw [List.filterMap_cons_some hr]
          by_cases hsame : chart' = chart
          · subst hsame
            rw [List.filterMap_cons_some (b := blocks) (by simp [applied]), ih]
            simp
          · rw [List.filterMap_cons_none (by simp [applied, hsame]), ih]
            simp [hsame]

/-- The span of a call is what its promise waits to give. -/
theorem Inv.span_eq (hs : s.Inv) {c : Call} (hc : c ∈ s.calls) {p : ℕ} {blocks : List Location}
    (ho : s.machine.origin c.promise = .after p (.give blocks)) : c.span = blocks := by
  rcases (hs.calls c hc).made with ⟨ho', -⟩ | ⟨l, ho'⟩
  · cases ho.symm.trans ho'
  · cases ho.symm.trans ho'
    rfl

section Give

variable {t : ℕ} {blocks : List Location} {v : Value}
  {rest : List (Reaction (Handler C) × Outcome Value)}

/-- The first call that waits gets its blocks. -/
theorem Ordered.give (ho : s.Ordered) (hs : s.Inv)
    (hqueue : s.machine.queue = (.run (.give blocks) t, .fulfilled v) :: rest)
    (hs' : Machine.Sound Effect
      ((s.machine.withQueue rest).settle t (.fulfilled (.blocks blocks))) w') :
    Ordered { s with machine := (s.machine.withQueue rest).settle t (.fulfilled (.blocks blocks)) } := by
  set m₁ := s.machine.withQueue rest with hm₁
  have hsound : Machine.Sound Effect m₁ s.world := by
    refine hs.sound.withQueue fun x hx => ?_
    rw [hqueue]
    exact List.mem_cons_of_mem _ hx
  obtain ⟨chain, hloading, hl⟩ := ho.linked
  have hl₁ : Linked giveTarget m₁ chain := ⟨hl.linked, hl.needs⟩
  have hwaiting : s.machine.waiting giveTarget =
      t :: (m₁.settle t (.fulfilled (.blocks blocks))).waiting giveTarget := by
    rw [hl₁.settle_waiting hsound hs', waiting_pop hqueue]
    rfl
  have hsorted := ho.sorted
  rw [hwaiting, List.pairwise_cons] at hsorted
  have hstate : m₁.state t = none := ((ho.waits t).1 (hwaiting ▸ List.mem_cons_self)).2
  have hpending : Waited m₁ s.updates := ho.pending
  refine ⟨successful_settle (m := m₁) ho.successful t _, ⟨chain, hloading, hl₁.settle hsound t _⟩,
    hsorted.2, ?_, ho.updated, ho.order, ?_, hpending.settle t _⟩
  · intro p
    change p ∈ (m₁.settle t _).waiting giveTarget ↔ _ ∧ (m₁.settle t _).state p = none
    by_cases hp : p = t
    · subst hp
      rw [settle_state_self hstate]
      refine iff_of_false (fun hmem => Nat.lt_irrefl _ (hsorted.1 p hmem)) ?_
      rintro ⟨-, h⟩
      cases h
    · rw [settle_state_of_ne _ _ hp]
      have hmem := ho.waits p
      rw [hwaiting, List.mem_cons] at hmem
      exact ⟨fun h => hmem.1 (.inr h), fun h => (hmem.2 h).resolve_left hp⟩
  · intro q p chart horigin
    rw [settle_origin] at horigin
    exact ho.applies q p chart horigin

/-- The call at the head of the queue is not settled, and none that waits is older. -/
theorem Ordered.give_least (ho : s.Ordered)
    (hqueue : s.machine.queue = (.run (.give blocks) t, .fulfilled v) :: rest) :
    s.machine.state t = none ∧ ∀ p ∈ s.machine.waiting giveTarget, t ≤ p := by
  have hwaiting : s.machine.waiting giveTarget =
      t :: (s.machine.withQueue rest).waiting giveTarget := waiting_pop hqueue
  have hsorted := ho.sorted
  rw [hwaiting] at hsorted
  refine ⟨((ho.waits t).1 (hwaiting ▸ List.mem_cons_self)).2, fun p hp => ?_⟩
  rw [hwaiting] at hp
  rcases List.mem_cons.1 hp with rfl | hp
  · exact Nat.le_refl _
  · exact Nat.le_of_lt ((List.pairwise_cons.1 hsorted).1 p hp)

/-- An update that waits for the call asked for the blocks the call gets. -/
theorem Ordered.give_blocks (ho : s.Ordered) (hs : s.Inv)
    (hqueue : s.machine.queue = (.run (.give blocks) t, .fulfilled v) :: rest) {u : Update C}
    (hu : u ∈ s.updates) (hut : u.promise = t) : u.blocks s.blockLength = blocks := by
  obtain ⟨p, hw, -⟩ := hs.sound.queued _ _ (hqueue ▸ List.mem_cons_self)
  obtain ⟨c, hc, heq, hwindow⟩ := ho.updated u hu
  cases hw with
  | run horigin =>
      have hwaits : s.machine.origin c.promise = .after p (.give blocks) := by
        rw [heq, hut, horigin]
      rw [Update.blocks, hwindow, ← hs.span_eq hc hwaits]
      rfl

/-- The charts that wait for the call are going to show its blocks. -/
theorem Ordered.give_moved [DecidableEq C] (ho : s.Ordered) (hs : s.Inv)
    (hqueue : s.machine.queue = (.run (.give blocks) t, .fulfilled v) :: rest) (chart : C) :
    ((s.machine.reactions t).map fun r => (r, Outcome.fulfilled (Value.blocks blocks))).filterMap
        (applied chart) =
      ((s.unsettled chart).filter fun u => decide (u.promise = t)).map
        (Update.blocks s.blockLength) := by
  have hconst : ((s.unsettled chart).filter fun u => decide (u.promise = t)).map
        (Update.blocks s.blockLength) =
      ((s.unsettled chart).filter fun u => decide (u.promise = t)).map fun _ => blocks := by
    refine List.map_congr_left fun u hu => ?_
    obtain ⟨hu, ht⟩ := List.mem_filter.1 hu
    exact ho.give_blocks hs hqueue (List.mem_filter.1 hu).1 (of_decide_eq_true ht)
  rw [applied_moved, hconst, show (s.machine.reactions t).filterMap applyChart = _ from ho.pending t,
    List.filter_map, List.map_map, unsettled, List.filter_filter, List.filter_filter]
  refine congrArg (List.map fun _ => blocks) (List.filter_congr fun u _ => ?_)
  by_cases ht : u.promise = t
  · simp [ht, (ho.give_least hqueue).1]
  · simp [ht]

/-- The updates that still wait when the call has its blocks. -/
theorem Ordered.give_later [DecidableEq C] (ho : s.Ordered)
    (hqueue : s.machine.queue = (.run (.give blocks) t, .fulfilled v) :: rest) (chart : C) :
    unsettled
        { s with machine := (s.machine.withQueue rest).settle t (.fulfilled (.blocks blocks)) } chart =
      (s.unsettled chart).filter fun u => !decide (u.promise = t) := by
  rw [unsettled, unsettled, List.filter_filter]
  refine List.filter_congr fun u _ => ?_
  by_cases ht : u.promise = t
  · have hsettled : ((s.machine.withQueue rest).settle t (.fulfilled (.blocks blocks))).state t =
        some (.fulfilled (.blocks blocks)) := settle_state_self (ho.give_least hqueue).1
    simp [ht, hsettled]
  · simp [ht, settle_state_of_ne, withQueue]

theorem Ordered.give_due [DecidableEq C] (ho : s.Ordered) (hs : s.Inv)
    (hqueue : s.machine.queue = (.run (.give blocks) t, .fulfilled v) :: rest) (chart : C) :
    due { s with machine := (s.machine.withQueue rest).settle t (.fulfilled (.blocks blocks)) }
      chart = s.due chart := by
  obtain ⟨hstate, hleast⟩ := ho.give_least hqueue
  have hsplit := sorted_split (t := t) (s.unsettled chart) (ho.order.filter _) fun u hu => by
    obtain ⟨hmem, hu⟩ := List.mem_filter.1 hu
    obtain ⟨-, hnone⟩ := Bool.and_eq_true_iff.1 hu
    exact hleast _ ((ho.waits _).2 ⟨ho.update_call hmem, Option.isNone_iff_eq_none.1 hnone⟩)
  have hnew : ((s.machine.withQueue rest).settle t (.fulfilled (.blocks blocks))).queue =
      rest ++ (s.machine.reactions t).map fun r => (r, .fulfilled (.blocks blocks)) := by
    rw [settle_pending (m := s.machine.withQueue rest) hstate]
    rfl
  unfold due
  rw [ho.give_later hqueue chart, hnew, hqueue, List.filterMap_append, ho.give_moved hs hqueue chart,
    List.append_assoc, ← List.map_append, ← hsplit]
  rfl

end Give

theorem Ordered.recordFirst (ho : s.Ordered) (t : ℕ) (v : Value) :
    Ordered { s with machine := s.machine.recordFirst t v } := by
  obtain ⟨chain, hloading, hl⟩ := ho.linked
  exact ⟨ho.successful, ⟨chain, hloading, hl.linked, hl.needs⟩, ho.sorted, ho.waits, ho.updated,
    ho.order, ho.applies, ho.pending⟩

theorem Ordered.recordSecond (ho : s.Ordered) (t : ℕ) (v : Value) :
    Ordered { s with machine := s.machine.recordSecond t v } := by
  obtain ⟨chain, hloading, hl⟩ := ho.linked
  exact ⟨ho.successful, ⟨chain, hloading, hl.linked, hl.needs⟩, ho.sorted, ho.waits, ho.updated,
    ho.order, ho.applies, ho.pending⟩

theorem Ordered.join [DecidableEq C] (ho : s.Ordered) (hs : Machine.Sound Effect s.machine w) {t : ℕ}
    (hcall : ∀ c ∈ s.calls, c.promise ≠ t) :
    Ordered { s with machine := s.machine.join .pair t } ∧
      ∀ chart, due { s with machine := s.machine.join .pair t } chart = s.due chart := by
  have hjoined := hs.join .pair t
  rcases join_cases .pair s.machine t with heq | ⟨u, v, -, -, heq⟩
  · rw [heq]
    exact ⟨ho, fun _ => rfl⟩
  · rw [heq] at hjoined ⊢
    exact ⟨ho.settle hs hjoined hcall, ho.settle_due hcall⟩

/-- A reaction that gives no call its blocks settles no call. -/
theorem Inv.no_call (hs : s.Inv) {r : Reaction (Handler C)} {p : ℕ}
    (hw : Watches s.machine.origin r p) (hgive : giveTarget r = none) :
    ∀ c ∈ s.calls, c.promise ≠ r.target := by
  intro c hc heq
  rcases (hs.calls c hc).made with ⟨ho, -⟩ | ⟨l, ho⟩
  · have huses := hw.uses
    rw [← heq, ho] at huses
    cases huses
  · cases hw with
    | @run h t p ho' =>
        rw [show c.promise = t from heq, ho'] at ho
        cases ho
        cases hgive
    | @first t p q ho' =>
        rw [show c.promise = t from heq, ho'] at ho
        cases ho
    | @second t q p ho' =>
        rw [show c.promise = t from heq, ho'] at ho
        cases ho

/-- A handler shows in a chart what its job was going to show. -/
theorem exec_shown [DecidableEq C] (w : World C) (h : Handler C) (v : Value) (t : ℕ) (chart : C) :
    ((exec w h v).1.charts chart).blocks =
      (applied chart (.run h t, .fulfilled v)).or (w.charts chart).blocks := by
  cases h with
  | load blocks =>
      cases v with
      | response samples => simp [exec, applied]
      | sampler => rfl
      | blocks _ => rfl
      | pair _ _ => rfl
      | undefined => rfl
  | give blocks => cases v <;> rfl
  | apply chart' =>
      cases v with
      | blocks blocks =>
          by_cases hsame : chart = chart'
          · subst hsame
            simp [exec, applied, World.apply]
          · simp [exec, applied, World.apply, hsame, Ne.symm hsame]
      | response _ => rfl
      | sampler => rfl
      | pair _ _ => rfl
      | undefined => rfl

theorem getLast?_or {α : Type} (a : Option α) (d : List α) (shown : Option α) :
    (a.toList ++ d).getLast?.or shown = d.getLast?.or (a.or shown) := by
  rw [List.getLast?_append]
  cases a with
  | none => simp
  | some a => cases d.getLast? <;> rfl

/-- A job leaves the updates in order, and changes nothing of what a chart ends on. -/
theorem Ordered.job [DecidableEq C] (ho : s.Ordered) (hs : s.Inv)
    (hjob : s.machine.job exec .pair s.world = some (m, w)) :
    Ordered { s with machine := m, world := w } ∧
      ∀ chart, final { s with machine := m, world := w } chart = s.final chart := by
  have hsound' : Machine.Sound Effect m w := (hs.job hjob).sound
  obtain ⟨r, o, rest, hqueue, heq⟩ := job_eq hjob
  obtain ⟨p, hw, hp⟩ := hs.sound.queued r o (hqueue ▸ List.mem_cons_self)
  obtain ⟨v, rfl⟩ : ∃ v, o = .fulfilled v := by
    cases o with
    | fulfilled v => exact ⟨v, rfl⟩
    | rejected => exact absurd hp (ho.successful p)
  have hpopped : Machine.Sound Effect (s.machine.withQueue rest) s.world := by
    refine hs.sound.withQueue fun x hx => ?_
    rw [hqueue]
    exact List.mem_cons_of_mem _ hx
  by_cases hgive : giveTarget r = none
  · have hcall := hs.no_call hw hgive
    have hpop := ho.pop hqueue hgive
    have hdue := fun chart => pop_due hqueue chart
    cases hw with
    | @run h t p horigin =>
        cases heq
        refine ⟨(hpop.settle hpopped hsound' hcall).setWorld _, fun chart => ?_⟩
        unfold final
        rw [hdue chart, getLast?_or, ← exec_shown]
        exact congrArg (fun d : List (List Location) => d.getLast?.or _) (hpop.settle_due hcall chart)
    | @first t p q horigin =>
        cases heq
        obtain ⟨hordered, hsame⟩ := (hpop.recordFirst t v).join (hpopped.recordFirst horigin hp) hcall
        refine ⟨hordered.setWorld _, fun chart => ?_⟩
        unfold final
        rw [hdue chart]
        exact congrArg (fun d : List (List Location) => d.getLast?.or _) (hsame chart)
    | @second t q p horigin =>
        cases heq
        obtain ⟨hordered, hsame⟩ := (hpop.recordSecond t v).join (hpopped.recordSecond horigin hp) hcall
        refine ⟨hordered.setWorld _, fun chart => ?_⟩
        unfold final
        rw [hdue chart]
        exact congrArg (fun d : List (List Location) => d.getLast?.or _) (hsame chart)
  · obtain ⟨blocks, t, rfl⟩ : ∃ blocks t, r = .run (.give blocks) t := by
      unfold giveTarget at hgive
      split at hgive
      · rename_i blocks t
        exact ⟨blocks, t, rfl⟩
      · exact absurd rfl hgive
    cases heq
    refine ⟨(ho.give hs hqueue hsound').setWorld _, fun chart => ?_⟩
    exact congrArg (fun d : List (List Location) => d.getLast?.or _) (ho.give_due hs hqueue chart)

end ProfileSampler

end SatAllocatorTest.Ports.Monitor
