import SatAllocatorTest.Ports.SamplerBlocks

/-!
# What a failed fetch leaves behind

A load that failed stays in the chain of `loading`, and its blocks stay marked as on
their way.  So once a fetch has failed, a call gets its blocks when all of them are
there already, and not otherwise: nothing of the failed fetch is asked for again, and no
promise that waits for `loading` is ever fulfilled.

Main result: `failure_honoured_iff`.
-/

namespace SatAllocatorTest.Ports.Monitor

open SatAllocatorTest.Verified.ExtendedNumbers
open SatAllocatorTest.Verified.Promises
open SatAllocatorTest.Verified.Promises.Machine
open SatAllocatorTest.Verified.Runs

namespace ProfileSampler

variable {C : Type} {s s₀ s₁ : ProfileSampler C}

/-- The fetch of the request has failed. -/
def Failed (s : ProfileSampler C) (r : Request) : Prop :=
  s.machine.state r.fetch = some .rejected

/-- Every fetch has been answered, and every job has run. -/
def Quiet (s : ProfileSampler C) : Prop :=
  s.machine.queue = [] ∧ ∀ r ∈ s.requests, s.machine.state r.fetch ≠ none

/-- A call for `span`, made in `s₀`, returned `promise` and left `s₁`; later the sampler
is `s`.  The blocks of failed fetches were asked for again, and the promise is fulfilled
if in the end all the blocks of the span are there. -/
structure Honoured (s₀ s₁ s : ProfileSampler C) (span : List Location) (promise : ℕ) : Prop where
  again : ∀ r ∈ s₀.requests, s₀.Failed r → ∀ b ∈ span, b ∈ r.blocks →
    ∃ r' ∈ s₁.requests, r' ∉ s₀.requests ∧ b ∈ r'.blocks
  fulfilled : s.Quiet → (∀ b ∈ span, s.Loaded b) →
    ∃ v, s.machine.state promise = some (.fulfilled v)

theorem Follows.failed (h : s₀.Follows s) {r : Request} (hr : s₀.Failed r) : s.Failed r :=
  h.machine.state _ _ hr

/-- A block of a failed fetch is not loaded, and in no other request. -/
theorem Inv.failed_block (hs : s.Inv) {r : Request} (hr : r ∈ s.requests) (hfailed : s.Failed r)
    {b : Location} (hb : b ∈ r.blocks) : ¬s.Loaded b := by
  intro hloaded
  obtain ⟨data, -, r', hr', samples, hstate, hzip⟩ := hs.loaded_sent hloaded
  cases hs.request_unique hr hr' hb (List.of_mem_zip hzip).1
  cases hfailed.symm.trans hstate

/-- Nothing that needs the load of a failed fetch is ever fulfilled. -/
theorem Inv.failed_needs (hs : s.Inv) {r : Request} (hr : r ∈ s.requests) (hfailed : s.Failed r)
    {t : ℕ} (hneeds : Needs s.machine.origin t (r.fetch + 1)) :
    ¬∃ v, s.machine.state t = some (.fulfilled v) := by
  rintro ⟨v, hv⟩
  obtain ⟨u, hu⟩ := hs.sound.needs hneeds v hv
  obtain ⟨u', hu', -⟩ := hs.sound.after (hs.fetched r hr).2.2 hu
  cases hfailed.symm.trans hu'

/-- What a call returns: a promise that is fulfilled, or one that needs every load. -/
theorem Inv.getBlockSpan_promise (hs : s.Inv) {indexMin indexMax level : Extended ℤ}
    {span : List Location} (hvisited : visited indexMin indexMax level = some span) {promise : ℕ}
    (h : s.getBlockSpan indexMin indexMax level = some (s₁, promise)) :
    (∀ b ∈ span, s.Loaded b) ∧ s₁.machine.state promise = some (.fulfilled (.blocks span)) ∨
      (¬∀ b ∈ span, s.Loaded b) ∧
        ∀ r ∈ s.requests, Needs s₁.machine.origin promise (r.fetch + 1) := by
  obtain ⟨w, hw, ⟨hall, heq⟩ | ⟨hnot, s₂, l, rfl, hloading, heq⟩⟩ := hs.getBlockSpan_cases hvisited
  · cases h.symm.trans heq
    exact .inl ⟨hall, settle_state_self (hs.sound.fresh _ (Nat.le_refl _)).2.1⟩
  · cases h.symm.trans heq
    obtain ⟨hasking, -, hfollows⟩ := hs.asking (visited_nodup hvisited) hw
    refine .inr ⟨hnot, fun r hr => ?_⟩
    obtain ⟨l', hl', hneeds⟩ := hasking.chained r (hfollows.requests.subset hr)
    cases hloading.symm.trans hl'
    set m := (s.asking w (s.unasked span)).machine with hm
    have horigin : (m.andThen l (.give span)).origin m.size = .after l (.give span) :=
      (congrFun (andThen_origin m l _) _).trans (Function.update_self _ _ _)
    exact .after horigin (hneeds.extends hasking.sound (extends_andThen m l _))

/-- After a failed fetch a call is honoured when its blocks are all there, or when it is
owed nothing: no block of its span failed, and in the end some block is missing. -/
theorem failure_honoured_iff [DecidableEq C] {blockLength : ℚ} {labels : C → String}
    {views : C → Window} (before after : List (Event C))
    (hbefore : run step (init blockLength labels views) before = some s₀)
    (hfailure : ∃ r ∈ s₀.requests, s₀.Failed r) {indexMin indexMax level : ℤ} {promise : ℕ}
    (hcall : s₀.getBlockSpan (.finite indexMin) (.finite indexMax) (.finite level) =
      some (s₁, promise))
    (hafter : run step s₁ after = some s) :
    Honoured s₀ s₁ s (blocksFrom level indexMin (indexMax + 1 - indexMin).toNat) promise ↔
      (∀ b ∈ blocksFrom level indexMin (indexMax + 1 - indexMin).toNat, s₀.Loaded b) ∨
        (∀ r ∈ s₀.requests, s₀.Failed r →
          ∀ b ∈ blocksFrom level indexMin (indexMax + 1 - indexMin).toNat, b ∉ r.blocks) ∧
        ¬(s.Quiet ∧
          ∀ b ∈ blocksFrom level indexMin (indexMax + 1 - indexMin).toNat, s.Loaded b) := by
  set span := blocksFrom level indexMin (indexMax + 1 - indexMin).toNat with hspan
  have hvisited : visited (.finite indexMin) (.finite indexMax) (.finite level) = some span := rfl
  have hs₀ := run_inv hbefore
  obtain ⟨hs₁, -, hfollows₁⟩ := hs₀.getBlockSpan hcall
  obtain ⟨hs, hfollows⟩ := run_follows hs₁ hafter
  obtain ⟨r, hr, hfailed⟩ := hfailure
  have hr₁ : r ∈ s₁.requests := hfollows₁.requests.subset hr
  constructor
  · rintro ⟨hagain, hfulfilled⟩
    rcases hs₀.getBlockSpan_promise hvisited hcall with ⟨hall, -⟩ | ⟨-, hneeds⟩
    · exact .inl hall
    · refine .inr ⟨?_, ?_⟩
      · intro r' hr' hfailed' b hb hmem
        obtain ⟨r'', hr'', hnew, hmem'⟩ := hagain r' hr' hfailed' b hb hmem
        cases hs₁.request_unique (hfollows₁.requests.subset hr') hr'' hmem hmem'
        exact hnew hr'
      · rintro ⟨hquiet, hloaded⟩
        have hneeds' := (hneeds r hr).extends hs₁.sound hfollows.machine
        exact hs.failed_needs (hfollows.requests.subset hr₁)
          (hfollows.failed (hfollows₁.failed hfailed)) hneeds' (hfulfilled hquiet hloaded)
  · rintro (hall | ⟨hnone, hmissing⟩)
    · refine ⟨?_, fun _ _ => ?_⟩
      · exact fun r' hr' hfailed' b hb hmem =>
          absurd (hall b hb) (hs₀.failed_block hr' hfailed' hmem)
      · rcases hs₀.getBlockSpan_promise hvisited hcall with ⟨-, hstate⟩ | ⟨hnot, -⟩
        · exact ⟨_, hfollows.machine.state _ _ hstate⟩
        · exact absurd hall hnot
    · exact ⟨fun r' hr' hfailed' b hb hmem => absurd hmem (hnone r' hr' hfailed' b hb),
        fun hquiet hloaded => absurd ⟨hquiet, hloaded⟩ hmissing⟩

/-- One block has been loaded, and the fetch of another has failed. -/
def failedOther : List (Event Unit) :=
  [.getBlockSpan 0 0 0, .respond 0 [fun _ => some [0]], .job, .job, .getBlockSpan 1 1 0, .fail 1]

theorem failure_honoured_cached :
    ∃ s₀ s₁ : ProfileSampler Unit,
      run step (init 64 (fun _ => "time") fun _ => ⟨0, 1⟩) failedOther = some s₀ ∧
      s₀.getBlockSpan (.finite 0) (.finite 0) (.finite 0) = some (s₁, 7) ∧
      Honoured s₀ s₁ s₁ (blocksFrom 0 0 (0 + 1 - 0 : ℤ).toNat) 7 := by
  have hbefore : run step (init 64 (fun _ => "time") fun _ => ⟨0, 1⟩) failedOther = some _ := rfl
  refine ⟨_, _, hbefore, rfl, ?_⟩
  refine (failure_honoured_iff failedOther [] hbefore ⟨⟨3, [⟨1, 0⟩]⟩, .tail _ (.head _), rfl⟩
    ?_ ?_).2 (.inl ?_)
  · rfl
  · rfl
  · exact List.forall_mem_singleton.2 rfl

/-- The fetch of one block has failed. -/
def failedOnce : List (Event Unit) := [.getBlockSpan 0 0 0, .fail 0, .job, .job]

/-- The next block is fetched, and everything runs to its end. -/
def fetchedNext : List (Event Unit) :=
  [.respond 1 [fun _ => some [0]], .job, .job, .job, .job]

/-- A call for the same block asks for nothing and is rejected, and a call for the next
block is rejected although that block has been loaded. -/
theorem failure_poisons :
    ∃ s₀ s₁ s₂ s : ProfileSampler Unit,
      run step (init 64 (fun _ => "time") fun _ => ⟨0, 1⟩) failedOnce = some s₀ ∧
      s₀.requests = [⟨0, [⟨0, 0⟩]⟩] ∧ s₀.Failed ⟨0, [⟨0, 0⟩]⟩ ∧
      s₀.getBlockSpan (.finite 0) (.finite 0) (.finite 0) = some (s₁, 3) ∧
      s₁.requests = s₀.requests ∧
      s₀.getBlockSpan (.finite 1) (.finite 1) (.finite 0) = some (s₂, 6) ∧
      run step s₂ fetchedNext = some s ∧ s.Quiet ∧ s.Loaded ⟨1, 0⟩ ∧
      s.machine.state 6 = some .rejected := by
  refine ⟨_, _, _, _, rfl, rfl, rfl, rfl, rfl, rfl, rfl, ⟨rfl, ?_⟩, rfl, rfl⟩
  decide

end ProfileSampler

end SatAllocatorTest.Ports.Monitor
