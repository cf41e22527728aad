import SatAllocatorTest.Ports.SamplesOrder

/-!
# What a samples chart ends on

An update of a chart whose blocks are all loaded is served at once, before those that
wait for `loading`; every other one is served last.  So a chart ends on the blocks of its
last update when that update had to wait or nothing else did, and on an older window
otherwise.

Main result: `chart_current_iff`.
-/

namespace SatAllocatorTest.Ports.Monitor

open SatAllocatorTest.Verified.ExtendedNumbers
open SatAllocatorTest.Verified.Promises
open SatAllocatorTest.Verified.Promises.Machine
open SatAllocatorTest.Verified.Runs

namespace ProfileSampler

variable {C : Type} {s : ProfileSampler C} {w : World C}

/-! ## Responses and calls -/

theorem Ordered.respond [DecidableEq C] (ho : s.Ordered) (hs : s.Inv) {r : Request}
    (hr : r ∈ s.requests) {samples : List Samples} (hlength : samples.length = r.blocks.length)
    {s' : ProfileSampler C} (h : s.answered r (.fulfilled (.response samples)) = some s') :
    s'.Ordered ∧ ∀ chart, s'.final chart = s.final chart := by
  have hsettled := hs.settled hr (o := .fulfilled (.response samples)) fun v hv => by
    cases hv
    exact ⟨samples, rfl, hlength⟩
  have hcall : ∀ c ∈ s.calls, c.promise ≠ r.fetch := by
    intro c hc heq
    have horigin := (hs.fetched r hr).2.1
    rw [← heq] at horigin
    rcases (hs.calls c hc).made with ⟨ho, -⟩ | ⟨l, ho⟩
    · cases horigin.symm.trans ho
    · cases horigin.symm.trans ho
  unfold ProfileSampler.answered at h
  split at h
  · cases h
    refine ⟨ho.settle hs.sound hsettled.sound hcall, fun chart => ?_⟩
    exact congrArg (fun d : List (List Location) => d.getLast?.or _) (ho.settle_due hcall chart)
  · cases h

theorem Inv.call_lt (hs : s.Inv) {c : Call} (hc : c ∈ s.calls) : c.promise < s.machine.size := by
  rcases (hs.calls c hc).made with ⟨-, hstate⟩ | ⟨l, ho⟩
  · exact hs.sound.lt_size (.inr (.inl (hstate ▸ Option.some_ne_none _)))
  · have huses : (s.machine.origin c.promise).Uses l := ho ▸ .after
    exact hs.sound.made huses

theorem loadBlocks_keeps (hs : Machine.Sound Effect s.machine w)
    (blocks : List Location) : Keeps s.machine (s.loadBlocks blocks).1.machine := by
  have hsound : Machine.Sound Effect (s.machine.make .outside) w := hs.make fun p h => by cases h
  have hload : Keeps s.machine ((s.machine.make .outside).andThen s.machine.size (.load blocks)) :=
    (Keeps.make hs _).trans (Keeps.andThen hsound _ (fun _ h => by cases h) fun _ h => by cases h)
  have hsoundLoad := hsound.andThen (Nat.lt_succ_self s.machine.size) (Handler.load blocks)
  unfold ProfileSampler.loadBlocks
  cases s.loading with
  | none => exact hload
  | some l => exact hload.trans (Keeps.all hsoundLoad _ _)

/-- The blocks that nobody has asked for are asked for. -/
theorem Ordered.asking [DecidableEq C] (ho : s.Ordered) (hs : s.Inv) {w : World C}
    {span : List Location} (hw : s.Marks (s.unasked span) w) :
    (s.asking w (s.unasked span)).Ordered ∧
      ∀ chart, (s.asking w (s.unasked span)).final chart = s.final chart := by
  unfold ProfileSampler.asking
  by_cases hnone : s.unasked span = []
  · rw [if_pos hnone]
    refine ⟨ho.setWorld w, fun chart => ?_⟩
    change (s.due chart).getLast?.or (w.charts chart).blocks = _
    rw [hw.charts]
    rfl
  · rw [if_neg hnone]
    obtain ⟨m, l, heq, hstarted, -⟩ :=
      loadBlocks_started (s := { s with world := w }) hs.sound hs.made (s.unasked span)
    have hkeeps : Keeps s.machine m := by
      have h := loadBlocks_keeps (s := { s with world := w }) hs.sound (s.unasked span)
      rwa [heq] at h
    rw [heq]
    have hbase : Ordered { s with machine := m } := by
      refine ho.keeps hs.sound hkeeps fun t p chart horigin => ?_
      rcases hstarted.handlers t p _ horigin with h | ⟨-, h⟩
      · exact h
      · cases h
    obtain ⟨chain, hloading, hl⟩ := hbase.linked
    -- the new promise needs the whole chain
    have hneeds : ∀ b ∈ chain, b < l ∧ Needs m.origin l b := by
      intro b hb
      cases chain with
      | nil => exact absurd hb List.not_mem_nil
      | cons a rest =>
          have ha := hs.made a hloading
          have hla := hstarted.chain a hloading
          rcases List.mem_cons.1 hb with rfl | hb
          · exact ⟨Nat.lt_of_lt_of_le ha hstarted.size.2.1, hla⟩
          · obtain ⟨hlt, hab⟩ := (List.pairwise_cons.1 hl.needs).1 b hb
            exact ⟨Nat.lt_trans hlt (Nat.lt_of_lt_of_le ha hstarted.size.2.1), hla.trans hab⟩
    refine ⟨⟨hbase.successful, ⟨l :: chain, rfl, fun p hp => List.mem_cons_of_mem l (hl.linked p hp),
      List.pairwise_cons.2 ⟨hneeds, hl.needs⟩⟩, hbase.sorted, hbase.waits, hbase.updated,
      hbase.order, hbase.applies, hbase.pending⟩, fun chart => ?_⟩
    change (due { s with machine := m } chart).getLast?.or (w.charts chart).blocks = _
    rw [hkeeps.due chart, hw.charts]
    rfl

theorem Ordered.addCall (ho : s.Ordered) {c : Call} (hc : s.machine.state c.promise ≠ none) :
    (s.addCall c).Ordered := by
  refine ⟨ho.successful, ho.linked, ho.sorted, ?_, ?_, ho.order, ho.applies, ho.pending⟩
  · intro t
    refine (ho.waits t).trans (and_congr_left fun hstate => ?_)
    constructor
    · rintro ⟨c', hc', heq⟩
      exact ⟨c', List.mem_append_left _ hc', heq⟩
    · rintro ⟨c', hc', rfl⟩
      rcases List.mem_append.1 hc' with hc' | hc'
      · exact ⟨c', hc', rfl⟩
      · cases List.mem_singleton.1 hc'
        exact absurd hstate hc
  · intro u hu
    obtain ⟨c', hc', h⟩ := ho.updated u hu
    exact ⟨c', List.mem_append_left _ hc', h⟩

/-- A call whose blocks are all loaded gets them at once. -/
theorem Ordered.cached [DecidableEq C] (ho : s.Ordered) (hs : s.Inv) {w : World C}
    {span : List Location} (hw : s.Marks (s.unasked span) w) {c : Call}
    (hpromise : c.promise = s.machine.size) :
    ((s.cached w span).addCall c).Ordered ∧
      ∀ chart, ((s.cached w span).addCall c).final chart = s.final chart := by
  have hmade : Machine.Sound Effect (s.machine.make .resolved) s.world :=
    hs.sound.make fun p h => by cases h
  have hkeeps : Keeps s.machine (s.machine.make .resolved) := Keeps.make hs.sound _
  have hbase : Ordered { s with machine := s.machine.make .resolved } := by
    refine ho.keeps hs.sound hkeeps fun t p chart horigin => ?_
    by_cases ht : t = s.machine.size
    · rw [ht, make_origin_self] at horigin
      cases horigin
    · rwa [make_origin_of_ne _ _ ht] at horigin
  have hcall : ∀ c ∈ s.calls, c.promise ≠ s.machine.size := fun c hc => Nat.ne_of_lt (hs.call_lt hc)
  have hsettled := hbase.settle hmade (hs.sound.resolve (.blocks span)) hcall
  refine ⟨(hsettled.setWorld w).addCall ?_, fun chart => ?_⟩
  · have hstate : (s.machine.resolve (.blocks span)).state s.machine.size =
        some (.fulfilled (.blocks span)) := settle_state_self (hs.sound.fresh _ (Nat.le_refl _)).2.1
    change (s.machine.resolve (.blocks span)).state c.promise ≠ none
    rw [hpromise, hstate]
    exact Option.some_ne_none _
  · change (due { s with machine := (s.machine.make .resolved).settle s.machine.size _ }
      chart).getLast?.or (w.charts chart).blocks = _
    rw [hw.charts, hbase.settle_due hcall chart, hkeeps.due chart]
    rfl

/-- A call that waits for `loading` waits behind all others. -/
theorem Ordered.thenGive [DecidableEq C] (ho : s.Ordered) (hs : s.Inv) {l : ℕ}
    (hl : s.loading = some l) (span : List Location) {c : Call}
    (hpromise : c.promise = s.machine.size) :
    ((s.thenGive l span).1.addCall c).Ordered ∧
      ∀ chart, ((s.thenGive l span).1.addCall c).final chart = s.final chart := by
  have hlt := hs.made l hl
  have hmade : Machine.Sound Effect (s.machine.make (.after l (.give span))) s.world := by
    refine hs.sound.make fun p h => ?_
    cases h
    exact hlt
  have hkeeps : Keeps s.machine (s.machine.make (.after l (.give span))) := Keeps.make hs.sound _
  have hbase : Ordered { s with machine := s.machine.make (.after l (.give span)) } := by
    refine ho.keeps hs.sound hkeeps fun t p chart horigin => ?_
    by_cases ht : t = s.machine.size
    · rw [ht, make_origin_self] at horigin
      cases horigin
    · rwa [make_origin_of_ne _ _ ht] at horigin
  set m := s.machine.make (.after l (.give span)) with hm
  set r : Reaction (Handler C) := .run (.give span) s.machine.size with hr
  have hmachine : ((s.thenGive l span).1.addCall c).machine = m.subscribe l r := rfl
  have hfresh : m.state s.machine.size = none := (hs.sound.fresh _ (Nat.le_refl _)).2.1
  obtain ⟨chain, hloading, hlinked⟩ := hbase.linked
  obtain ⟨rest, rfl⟩ : ∃ rest, chain = l :: rest := by
    cases chain with
    | nil => cases hl.symm.trans hloading
    | cons a rest =>
        cases hl.symm.trans hloading
        exact ⟨rest, rfl⟩
  have hwaiting : (m.subscribe l r).waiting giveTarget =
      m.waiting giveTarget ++ [s.machine.size] :=
    hlinked.subscribe_waiting hmade hbase.successful (Nat.lt_succ_of_lt hlt) rfl
  refine ⟨⟨?_, ⟨l :: rest, hloading, hlinked.subscribe hmade (.inr List.mem_cons_self)⟩, ?_, ?_, ?_,
    hbase.order, ?_, ?_⟩, fun chart => ?_⟩
  · intro t
    change (m.subscribe l r).state t ≠ _
    rw [subscribe_state]
    exact hbase.successful t
  · change ((m.subscribe l r).waiting giveTarget).Pairwise _
    rw [hwaiting, List.pairwise_append]
    refine ⟨hbase.sorted, List.pairwise_singleton _ _, fun t ht t' ht' => ?_⟩
    obtain ⟨⟨c', hc', rfl⟩, -⟩ := (hbase.waits t).1 ht
    rw [List.mem_singleton.1 ht']
    exact hs.call_lt hc'
  · intro t
    change t ∈ (m.subscribe l r).waiting giveTarget ↔ (∃ c' ∈ s.calls ++ [c], _) ∧
      (m.subscribe l r).state t = none
    rw [hwaiting, subscribe_state, List.mem_append, hbase.waits t, List.mem_singleton]
    constructor
    · rintro (⟨⟨c', hc', heq⟩, hstate⟩ | rfl)
      · exact ⟨⟨c', List.mem_append_left _ hc', heq⟩, hstate⟩
      · exact ⟨⟨c, List.mem_append_right _ (List.mem_singleton_self _), hpromise⟩, hfresh⟩
    · rintro ⟨⟨c', hc', rfl⟩, hstate⟩
      rcases List.mem_append.1 hc' with hc' | hc'
      · exact .inl ⟨⟨c', hc', rfl⟩, hstate⟩
      · cases List.mem_singleton.1 hc'
        exact .inr hpromise
  · intro u hu
    obtain ⟨c', hc', h⟩ := hbase.updated u hu
    exact ⟨c', List.mem_append_left _ hc', h⟩
  · intro t p chart horigin
    refine hbase.applies t p chart ?_
    rwa [hmachine, subscribe_origin] at horigin
  · intro p
    change pendingOn applyChart (m.subscribe l r).reactions p =
      (s.updates.filter fun u => _ && ((m.subscribe l r).state p).isNone).map _
    rw [subscribe_pendingOn m (.inl rfl), subscribe_state]
    exact hbase.pending p
  · have hdue : ((s.thenGive l span).1.addCall c).due chart = s.due chart := by
      rw [← hkeeps.due chart]
      unfold due unsettled
      rw [hmachine, subscribe_applied m l rfl, subscribe_state]
      rfl
    unfold final
    rw [hdue]
    rfl

theorem asking_state (hs : s.Inv) (w : World C) (new : List Location) :
    (s.asking w new).machine.state = s.machine.state := by
  unfold ProfileSampler.asking
  split
  · rfl
  · exact (loadBlocks_keeps (s := { s with world := w }) hs.sound new).state

theorem asking_same (s : ProfileSampler C) (w : World C) (new : List Location) :
    (s.asking w new).updates = s.updates ∧ (s.asking w new).views = s.views ∧
      (s.asking w new).blockLength = s.blockLength := by
  unfold ProfileSampler.asking
  split
  · exact ⟨rfl, rfl, rfl⟩
  · unfold ProfileSampler.loadBlocks
    cases s.loading with
    | none => exact ⟨rfl, rfl, rfl⟩
    | some l => exact ⟨rfl, rfl, rfl⟩

/-- What a call does to the charts: nothing; and its promise is fulfilled at once or waits. -/
structure Called [DecidableEq C] (s : ProfileSampler C) (span : List Location)
    (s' : ProfileSampler C) (promise : ℕ) : Prop where
  ordered : s'.Ordered
  final : ∀ chart, s'.final chart = s.final chart
  fresh : s.machine.size ≤ promise
  state : ∀ p, p < s.machine.size → s'.machine.state p = s.machine.state p
  outcome : s'.machine.state promise = none ∧ ¬(∀ b ∈ span, s.Loaded b) ∨
    s'.machine.state promise = some (.fulfilled (.blocks span)) ∧ ∀ b ∈ span, s.Loaded b
  call : ∃ c ∈ s'.calls, c.promise = promise ∧ c.span = span
  updates : s'.updates = s.updates
  views : s'.views = s.views
  blockLength : s'.blockLength = s.blockLength

theorem Ordered.getBlockSpan [DecidableEq C] (ho : s.Ordered) (hs : s.Inv)
    {indexMin indexMax level : Extended ℤ} {s' : ProfileSampler C} {promise : ℕ}
    (h : s.getBlockSpan indexMin indexMax level = some (s', promise)) :
    ∃ span, visited indexMin indexMax level = some span ∧ s.Called span s' promise := by
  cases hvisited : visited indexMin indexMax level with
  | none =>
      rw [ProfileSampler.getBlockSpan, hvisited] at h
      cases h
  | some span =>
      have hspan : ∀ promise, Call.span ⟨promise, indexMin, indexMax, level⟩ = span := fun _ =>
        congrArg (Option.getD · []) hvisited
      refine ⟨span, rfl, ?_⟩
      obtain ⟨w, hw, ⟨hall, heq⟩ | ⟨hnot, s₁, l, rfl, hloading, heq⟩⟩ := hs.getBlockSpan_cases hvisited
      · cases h.symm.trans heq
        obtain ⟨hordered, hfinal⟩ :=
          ho.cached hs hw (c := ⟨s.machine.size, indexMin, indexMax, level⟩) rfl
        refine ⟨hordered, hfinal, Nat.le_refl _, fun p hp => ?_, .inr ⟨?_, hall⟩,
          ⟨_, List.mem_append_right _ (List.mem_singleton_self _), rfl, hspan _⟩, rfl, rfl, rfl⟩
        · exact settle_state_of_ne _ _ (Nat.ne_of_lt hp)
        · exact settle_state_self (hs.sound.fresh _ (Nat.le_refl _)).2.1
      · cases h.symm.trans heq
        obtain ⟨hinv, -, hfollows⟩ := hs.asking (visited_nodup hvisited) hw
        obtain ⟨hasking, hsame⟩ := ho.asking hs hw
        obtain ⟨hordered, hfinal⟩ := hasking.thenGive hinv hloading span
          (c := ⟨(s.asking w (s.unasked span)).machine.size, indexMin, indexMax, level⟩) rfl
        obtain ⟨hupdates, hviews, hlength⟩ := asking_same s w (s.unasked span)
        have hstate : ((s.asking w (s.unasked span)).thenGive l span).1.machine.state =
            s.machine.state := (andThen_state _ _ _).trans (asking_state hs w _)
        refine ⟨hordered, fun chart => (hfinal chart).trans (hsame chart), hfollows.machine.size,
          fun p _ => congrFun hstate p, .inl ⟨?_, hnot⟩,
          ⟨_, List.mem_append_right _ (List.mem_singleton_self _), rfl, hspan _⟩, hupdates, hviews,
          hlength⟩
        refine (congrFun hstate _).trans ?_
        exact (hs.sound.fresh _ hfollows.machine.size).2.1

/-! ## An update -/

/-- `p.then(apply)` for a chart, on record. -/
def thenApply (s : ProfileSampler C) (u : Update C) : ProfileSampler C :=
  { s with machine := s.machine.andThen u.promise (.apply u.chart), updates := s.updates ++ [u] }

theorem Ordered.thenApply (ho : s.Ordered) (hs : s.Inv) {u : Update C}
    (hlt : u.promise < s.machine.size) (hnew : ∀ v ∈ s.updates, v.promise < u.promise)
    (hcall : ∃ c ∈ s.calls, c.promise = u.promise ∧
      windowBlocks s.blockLength u.window = some c.span) :
    (s.thenApply u).Ordered := by
  have hmade : Machine.Sound Effect (s.machine.make (.after u.promise (.apply u.chart))) s.world := by
    refine hs.sound.make fun p h => ?_
    cases h
    exact hlt
  have hkeeps : Keeps s.machine (s.machine.make (.after u.promise (.apply u.chart))) :=
    Keeps.make hs.sound _
  set m := s.machine.make (.after u.promise (.apply u.chart)) with hm
  set r : Reaction (Handler C) := .run (.apply u.chart) s.machine.size with hr
  have hmachine : (s.thenApply u).machine = m.subscribe u.promise r := rfl
  have hwaiting : (m.subscribe u.promise r).waiting giveTarget = s.machine.waiting giveTarget :=
    (subscribe_waiting_of_none rfl).trans hkeeps.waiting
  obtain ⟨chain, hloading, hlinked⟩ := ho.linked
  have hlinkedMade : Linked giveTarget m chain := hlinked.extends hs.sound hkeeps.ext hlinked.linked
  refine ⟨?_, ⟨chain, hloading, hlinkedMade.subscribe hmade (.inl rfl)⟩, ?_, ?_, ?_, ?_, ?_, ?_⟩
  · intro p
    rw [hmachine, subscribe_state]
    exact ho.successful p
  · rw [hmachine, hwaiting]
    exact ho.sorted
  · intro p
    rw [hmachine, hwaiting, subscribe_state]
    exact ho.waits p
  · intro v hv
    rcases List.mem_append.1 hv with hv | hv
    · exact ho.updated v hv
    · cases List.mem_singleton.1 hv
      exact hcall
  · refine List.pairwise_append.2 ⟨ho.order, List.pairwise_singleton _ _, fun v hv v' hv' => ?_⟩
    rw [List.mem_singleton.1 hv']
    exact hnew v hv
  · intro t p chart horigin
    rw [hmachine, subscribe_origin] at horigin
    by_cases ht : t = s.machine.size
    · rw [ht, hm, make_origin_self] at horigin
      cases horigin
      exact ⟨u, List.mem_append_right _ (List.mem_singleton_self _), rfl, rfl⟩
    · rw [hm, make_origin_of_ne _ _ ht] at horigin
      obtain ⟨v, hv, h⟩ := ho.applies t p chart horigin
      exact ⟨v, List.mem_append_left _ hv, h⟩
  · intro p
    change pendingOn applyChart (m.subscribe u.promise r).reactions p =
      ((s.updates ++ [u]).filter fun v => _ && ((m.subscribe u.promise r).state p).isNone).map _
    have hpending : pendingOn applyChart m.reactions p = _ := ho.pending p
    rw [subscribe_state, List.filter_append, List.map_append]
    by_cases hp : p = u.promise
    · subst hp
      cases hstate : m.state u.promise with
      | some o =>
          have hstate' : s.machine.state u.promise = some o := hstate
          rw [subscribe_settled hstate]
          rw [hstate'] at hpending
          rw [hpending]
          simp
      | none =>
          have hstate' : s.machine.state u.promise = none := hstate
          rw [hstate'] at hpending
          rw [← hpending, subscribe_pending hstate]
          simp [pendingOn, hr, applyChart]
    · rw [subscribe_pendingOn m (.inr hp), hpending]
      simp [Ne.symm hp, hm, Machine.make]

/-- An update that waits goes to the end of what its chart has yet to show. -/
theorem thenApply_due_pending [DecidableEq C] {u : Update C} (hstate : s.machine.state u.promise = none)
    (chart : C) :
    (s.thenApply u).due chart =
      s.due chart ++ if u.chart = chart then [u.blocks s.blockLength] else [] := by
  have hqueue : (s.thenApply u).machine.queue = s.machine.queue := by
    have hmade : (s.machine.make (.after u.promise (.apply u.chart))).state u.promise = none := hstate
    have hsubscribed := congrArg Machine.queue
      (subscribe_pending (r := .run (.apply u.chart) s.machine.size) hmade)
    exact hsubscribed
  have hunsettled : (s.thenApply u).unsettled chart =
      s.unsettled chart ++ if u.chart = chart then [u] else [] := by
    unfold unsettled ProfileSampler.thenApply
    simp only [andThen_state, List.filter_append]
    by_cases hchart : u.chart = chart
    · simp [hchart, hstate]
    · simp [hchart]
  unfold due
  rw [hqueue, hunsettled, List.map_append, ← List.append_assoc]
  congr 1
  split <;> rfl

/-- An update whose blocks are there goes before those that wait. -/
theorem thenApply_due_settled [DecidableEq C] {u : Update C} {span : List Location}
    (hstate : s.machine.state u.promise = some (.fulfilled (.blocks span))) (chart : C) :
    (s.thenApply u).due chart =
      s.machine.queue.filterMap (applied chart) ++ ((if u.chart = chart then [span] else []) ++
        (s.unsettled chart).map (Update.blocks s.blockLength)) := by
  have hqueue : (s.thenApply u).machine.queue = s.machine.queue ++
      [(.run (.apply u.chart) s.machine.size, .fulfilled (.blocks span))] := by
    refine congrArg Machine.queue (subscribe_settled (m := s.machine.make _) (p := u.promise) ?_)
    exact hstate
  have hunsettled : (s.thenApply u).unsettled chart = s.unsettled chart := by
    unfold unsettled ProfileSampler.thenApply
    simp only [andThen_state, List.filter_append]
    simp [hstate]
  unfold due
  rw [hqueue, hunsettled, List.filterMap_append, List.append_assoc]
  congr 2
  by_cases hchart : u.chart = chart
  · simp [applied, hchart]
  · simp [applied, hchart]

/-- An update of a chart to a window will be served last, or for the same blocks as the
last: it has to wait, or no earlier update of the chart does, or the latest of those that
do is for the same blocks. -/
def Orderly [DecidableEq C] (s : ProfileSampler C) (chart : C) (window : Window) : Prop :=
  (∃ b ∈ (windowBlocks s.blockLength window).getD [], ¬s.Loaded b) ∨
    ∀ u, (s.unsettled chart).getLast? = some u →
      u.blocks s.blockLength = (windowBlocks s.blockLength window).getD []

theorem Ordered.update [DecidableEq C] (ho : s.Ordered) (hs : s.Inv) {chart : C}
    {s' : ProfileSampler C} (h : s.update chart = some s') :
    s'.Ordered ∧ s'.views = s.views ∧ s'.blockLength = s.blockLength ∧
      (∀ chart', chart ≠ chart' → s'.final chart' = s.final chart') ∧
      (s'.final chart = windowBlocks s.blockLength (s.views chart) ↔
        s.Orderly chart (s.views chart)) := by
  unfold ProfileSampler.update at h
  simp only at h
  split at h
  · cases h
  · rename_i s₁ promise hcall
    obtain ⟨hinv, hlt, -⟩ := hs.getBlockSpan hcall
    obtain ⟨span, hvisited, hcalled⟩ := ho.getBlockSpan hs hcall
    replace hvisited : windowBlocks s.blockLength (s.views chart) = some span := hvisited
    set u : Update C := ⟨chart, promise, s.views chart⟩ with hu
    obtain rfl : s₁.thenApply u = s' := Option.some.inj h
    have hblocks : u.blocks s₁.blockLength = span := by
      rw [hcalled.blockLength]
      exact congrArg (Option.getD · []) hvisited
    have hunsettled : s₁.unsettled chart = s.unsettled chart := by
      unfold unsettled
      rw [hcalled.updates]
      refine List.filter_congr fun v hv => ?_
      obtain ⟨c, hc, heq⟩ := ho.update_call hv
      rw [hcalled.state v.promise (heq ▸ hs.call_lt hc)]
    have hordered : (s₁.thenApply u).Ordered := by
      refine hcalled.ordered.thenApply hinv hlt ?_ ?_
      · intro v hv
        rw [hcalled.updates] at hv
        obtain ⟨c, hc, heq⟩ := ho.update_call hv
        exact Nat.lt_of_lt_of_le (heq ▸ hs.call_lt hc) hcalled.fresh
      · obtain ⟨c, hc, heq, hspan⟩ := hcalled.call
        refine ⟨c, hc, heq, ?_⟩
        rw [hspan, hcalled.blockLength]
        exact hvisited
    refine ⟨hordered, hcalled.views, hcalled.blockLength, ?_, ?_⟩
    · intro chart' hne
      rw [← hcalled.final chart']
      rcases hcalled.outcome with ⟨hstate, -⟩ | ⟨hstate, -⟩
      · unfold final
        rw [thenApply_due_pending hstate, if_neg hne, List.append_nil]
        rfl
      · unfold final
        rw [thenApply_due_settled hstate, if_neg hne]
        rfl
    · rw [hvisited]
      unfold Orderly
      rw [hvisited]
      rcases hcalled.outcome with ⟨hstate, hnot⟩ | ⟨hstate, hall⟩
      · refine iff_of_true ?_ (.inl ?_)
        · unfold final
          rw [thenApply_due_pending hstate, if_pos rfl, hblocks, List.getLast?_append]
          rfl
        · push Not at hnot
          exact hnot
      · unfold final
        rw [thenApply_due_settled hstate, if_pos rfl, hunsettled, hcalled.blockLength]
        cases hlast : (s.unsettled chart).getLast? with
        | none =>
            refine iff_of_true ?_ (.inr fun u hu => by cases hu)
            rw [List.getLast?_append, List.getLast?_append, List.getLast?_map, hlast]
            rfl
        | some v =>
            rw [List.getLast?_append, List.getLast?_append, List.getLast?_map, hlast]
            constructor
            · intro heq
              refine .inr fun u hu => ?_
              cases hu
              exact Option.some.inj heq
            · rintro (⟨b, hb, hnot⟩ | hsame)
              · exact absurd (hall b hb) hnot
              · exact congrArg some (hsame v rfl)

/-! ## Runs -/

namespace Event

/-- A fetch fails. -/
def Fails : Event C → Prop
  | .fail _ => True
  | _ => False

/-- The view of the chart changes. -/
def Changes (chart : C) : Event C → Prop
  | .change chart' _ => chart' = chart
  | _ => False

end Event

theorem init_ordered (blockLength : ℚ) (labels : C → String) (views : C → Window) :
    (init blockLength labels views).Ordered where
  successful _ h := by cases h
  linked := ⟨[], rfl, fun _ h => absurd rfl h, .nil⟩
  sorted := .nil
  waits t := iff_of_false List.not_mem_nil fun ⟨⟨_, hc, _⟩, _⟩ => List.not_mem_nil hc
  updated _ h := absurd h List.not_mem_nil
  order := .nil
  applies _ _ _ h := by cases h
  pending _ := rfl

/-- Nothing but a change of its view changes what a chart ends on. -/
theorem step_ordered [DecidableEq C] {s' : ProfileSampler C} {e : Event C} (hok : ¬e.Fails)
    (ho : s.Ordered) (hs : s.Inv) (h : step s e = some s') :
    s'.Ordered ∧ s'.blockLength = s.blockLength ∧
      ∀ chart, ¬e.Changes chart → s'.views chart = s.views chart ∧ s'.final chart = s.final chart := by
  cases e with
  | getBlockSpan indexMin indexMax level =>
      obtain ⟨⟨s₁, promise⟩, hcall, rfl⟩ := Option.map_eq_some_iff.1 h
      obtain ⟨span, -, hcalled⟩ := ho.getBlockSpan hs hcall
      exact ⟨hcalled.ordered, hcalled.blockLength,
        fun chart _ => ⟨congrFun hcalled.views chart, hcalled.final chart⟩⟩
  | change chart window =>
      obtain ⟨hordered, hviews, hlength, hothers, -⟩ := (ho.setViews _).update (hs.setView _) h
      refine ⟨hordered, hlength, fun chart' hne => ⟨?_, hothers chart' hne⟩⟩
      rw [hviews]
      exact Function.update_of_ne (Ne.symm hne) _ _
  | respond request samples =>
      simp only [step] at h
      split at h
      · cases h
      · rename_i r hr
        split at h
        · rename_i hlength
          obtain ⟨hordered, hfinal⟩ := ho.respond hs (List.mem_of_getElem? hr) hlength h
          unfold ProfileSampler.answered at h
          split at h
          · cases h
            exact ⟨hordered, rfl, fun chart _ => ⟨rfl, hfinal chart⟩⟩
          · cases h
        · cases h
  | fail request => exact absurd trivial hok
  | job =>
      simp only [step] at h
      split at h
      · cases h
      · rename_i m w hjob
        cases h
        obtain ⟨hordered, hfinal⟩ := ho.job hs hjob
        exact ⟨hordered, rfl, fun chart _ => ⟨rfl, hfinal chart⟩⟩

/-- Everything a chart has asked for has come, and every job has run. -/
def Settled (s : ProfileSampler C) (chart : C) : Prop :=
  s.machine.queue = [] ∧
    ∀ u ∈ s.updates, u.chart = chart → s.machine.state u.promise ≠ none

theorem final_settled [DecidableEq C] {chart : C} (h : s.Settled chart) :
    s.final chart = (s.world.charts chart).blocks := by
  have hnone : s.unsettled chart = [] := by
    refine List.filter_eq_nil_iff.2 fun u hu => ?_
    by_cases hchart : u.chart = chart
    · simp [h.2 u hu hchart]
    · simp [hchart]
  unfold final due
  rw [h.1, hnone]
  rfl

/-- After any run without failures, a chart ends on the blocks of the window of its last
update exactly when that update was in order. -/
theorem chart_current_iff [DecidableEq C] {blockLength : ℚ} {labels : C → String}
    {views : C → Window} (before after : List (Event C)) {chart : C} {window : Window}
    {s₀ s₁ s : ProfileSampler C}
    (hbefore : run step (init blockLength labels views) before = some s₀)
    (hchange : step s₀ (.change chart window) = some s₁)
    (hafter : run step s₁ after = some s)
    (hok : ∀ e ∈ before ++ after, ¬e.Fails) (hlast : ∀ e ∈ after, ¬e.Changes chart)
    (hsettled : s.Settled chart) :
    (s.world.charts chart).blocks = windowBlocks s.blockLength (s.views chart) ↔
      s₀.Orderly chart window := by
  obtain ⟨hs₀, ho₀⟩ : s₀.Inv ∧ s₀.Ordered := by
    refine run_invariant_of (I := fun s => s.Inv ∧ s.Ordered) (P := fun e => ¬e.Fails) ?_ before _ s₀
      (fun e he => hok e (List.mem_append_left _ he)) ⟨init_inv _ _ _, init_ordered _ _ _⟩ hbefore
    rintro s e s' hfails ⟨hs, ho⟩ hstep
    exact ⟨step_inv s e s' hs hstep, (step_ordered hfails ho hs hstep).1⟩
  have hs₁ := step_inv _ _ _ hs₀ hchange
  obtain ⟨ho₁, hviews, hlength, -, hiff⟩ := (ho₀.setViews _).update (hs₀.setView _) hchange
  obtain ⟨-, -, hlength', hview', hfinal'⟩ : s.Inv ∧ s.Ordered ∧ s.blockLength = s₁.blockLength ∧
      s.views chart = s₁.views chart ∧ s.final chart = s₁.final chart := by
    refine run_invariant_of (I := fun s => s.Inv ∧ s.Ordered ∧ s.blockLength = s₁.blockLength ∧
      s.views chart = s₁.views chart ∧ s.final chart = s₁.final chart)
      (P := fun e => ¬e.Fails ∧ ¬e.Changes chart) ?_ after s₁ s
      (fun e he => ⟨hok e (List.mem_append_right _ he), hlast e he⟩) ⟨hs₁, ho₁, rfl, rfl, rfl⟩ hafter
    rintro s e s' ⟨hfails, hchanges⟩ ⟨hs, ho, hlen, hview, hfinal⟩ hstep
    obtain ⟨ho', hlen', hchart⟩ := step_ordered hfails ho hs hstep
    obtain ⟨hview', hfinal'⟩ := hchart chart hchanges
    exact ⟨step_inv s e s' hs hstep, ho', hlen'.trans hlen, hview'.trans hview, hfinal'.trans hfinal⟩
  have hwindow : s₁.views chart = window := by
    rw [hviews]
    exact Function.update_self _ _ _
  rw [← final_settled hsettled, hfinal', hlength', hview', hwindow, hlength]
  simp only [Function.update_self] at hiff
  exact hiff

/-- What holds of the state a run leads to can be checked by running it. -/
theorem exists_of_any {o : Option (ProfileSampler C)} {P : ProfileSampler C → Prop} [DecidablePred P]
    (h : (o.any fun s => decide (P s)) = true) : ∃ s, o = some s ∧ P s := by
  cases o with
  | none => cases h
  | some s => exact ⟨s, rfl, of_decide_eq_true h⟩

instance (s : ProfileSampler Unit) : Decidable (s.Settled ()) :=
  inferInstanceAs (Decidable (_ ∧ ∀ u ∈ s.updates, _ → _))

/-- The samples of two blocks. -/
def twoBlocks : List Samples := [fun _ => some [0], fun _ => some [1]]

/-- The blocks of the first window come, and are shown. -/
def firstShown : List (Event Unit) := [.respond 0 twoBlocks, .job, .job, .job]

theorem chart_current_first :
    ∃ s, run step (init 512 (fun _ => "time") fun _ => ⟨0, 1⟩)
        (.change () ⟨0, 1⟩ :: firstShown) = some s ∧
      (s.world.charts ()).blocks = windowBlocks s.blockLength (s.views ()) := by
  obtain ⟨s, hrun, hsettled⟩ : ∃ s, run step (init 512 (fun _ => "time") fun _ => ⟨0, 1⟩)
      (.change () ⟨0, 1⟩ :: firstShown) = some s ∧ s.Settled () :=
    exists_of_any (by decide +kernel)
  obtain ⟨s₁, hchange, hafter⟩ := run_cons_inv hrun
  refine ⟨s, hrun, (chart_current_iff [] firstShown rfl hchange hafter ?_ ?_ hsettled).2 ?_⟩
  · simp [firstShown, Event.Fails]
  · simp [firstShown, Event.Changes]
  · exact .inr fun u hu => by cases hu

/-- The view goes on to a window that is not loaded, and back to one that is, before the
response for the other comes. -/
def backAgain : List (Event Unit) :=
  [.change () ⟨4, 5⟩, .change () ⟨0, 1⟩, .respond 1 twoBlocks,
    .job, .job, .job, .job, .job, .job]

theorem older_window_shown :
    ∃ s, run step (init 512 (fun _ => "time") fun _ => ⟨0, 1⟩)
        ((.change () ⟨0, 1⟩ :: firstShown) ++ backAgain) = some s ∧
      s.Settled () ∧ s.views () = ⟨0, 1⟩ ∧
      windowBlocks s.blockLength (s.views ()) = some [⟨0, 0⟩, ⟨1, 0⟩] ∧
      (s.world.charts ()).blocks = some [⟨4, 0⟩, ⟨5, 0⟩] :=
  exists_of_any (by decide +kernel)

end ProfileSampler

end SatAllocatorTest.Ports.Monitor
