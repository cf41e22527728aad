import SatAllocatorTest.Ports.PageHeapNew
import SatAllocatorTest.Verified.Runs

/-!
# The page heap over whole runs

Clients of the page heap see an allocator of regions: spans in use that do not overlap
(`RegionStep`).  In every state that requests can reach, the next request that meets what
is required of it is a step of that allocator (`pageHeap_refines`), and the promises of the
header about the free spans, the page map and the statistics hold.

The mode of `aggressive_decommit_` may change between two requests.  It can be switched off
at any time, but the merging of spans it does relies on what the mode kept before: switched
on while free pages are backed by memory, it decommits these twice.
-/

namespace SatAllocatorTest.Ports.TCmalloc.PageHeap

open SatAllocatorTest.Verified.Tilings
open SatAllocatorTest.Verified.Runs

variable {M : Type} [PageMap M SpanId]

/-- The operations that change the heap. -/
inductive Request where
  | setAggressiveDecommit (aggressiveDecommit : Bool)
  | new (n : Nat)
  | delete (id : SpanId)
  | split (id : SpanId) (n : Nat)
  | registerSizeClass (id : SpanId) (sc : Nat)
  | releaseAtLeastNPages (n : Nat)

/-- A request and the span it returns, if any. -/
def apply (cfg : Config) (h : PageHeap M) : Request → Except Fault (PageHeap M × Option SpanId)
  | .setAggressiveDecommit b => .ok (setAggressiveDecommit h b, none)
  | .new n => new h cfg n
  | .delete id => do
    let h ← delete h cfg id
    pure (h, none)
  | .split id n => do
    let (h, leftover) ← split h cfg id n
    pure (h, some leftover)
  | .registerSizeClass id sc => do
    let h ← registerSizeClass h id sc
    pure (h, none)
  | .releaseAtLeastNPages n => do
    let (h, _) ← releaseAtLeastNPages h cfg n
    pure (h, none)

/-- What the header requires of the arguments, for the spans in use.  The mode is switched
on only while no free page is backed by memory, if the system takes memory back whenever
asked. -/
def Requires (cfg : Config) (h : PageHeap M) : Request → Prop
  | .setAggressiveDecommit b =>
    b = true → (∀ i, h.lists (.normal i) = []) ∧ ∀ t, cfg.systemRelease t = true
  | .new n => 0 < n
  | .delete id => ∃ s, held h id = some s
  | .split id n => ∃ s, held h id = some s ∧ 0 < n ∧ n < s.length ∧ s.sizeclass = 0
  | .registerSizeClass id _ => ∃ s, held h id = some s
  | .releaseAtLeastNPages _ => True

/-! ## The allocator of regions -/

/-- The pages of the spans have none in common. -/
def Apart (s t : Span) : Prop := s.start + s.length ≤ t.start ∨ t.start + t.length ≤ s.start

/-- What a request does to the spans in use: `New` adds one that is apart from all others
or fails, `Delete` removes one, `Split` makes two of one; a release or a change of the mode
changes nothing. -/
inductive RegionStep (regions : SpanId → Option Span) :
    Request → Option SpanId → (SpanId → Option Span) → Prop where
  | setAggressiveDecommit (b : Bool) :
      RegionStep regions (.setAggressiveDecommit b) none regions
  | newFails (n : Nat) : RegionStep regions (.new n) none regions
  | new {n : Nat} {id : SpanId} {s : Span} (fresh : regions id = none) (length : s.length = n)
      (sizeclass : s.sizeclass = 0) (apart : ∀ k t, regions k = some t → Apart s t) :
      RegionStep regions (.new n) (some id) (Function.update regions id (some s))
  | delete (id : SpanId) :
      RegionStep regions (.delete id) none (Function.update regions id none)
  | split {id leftover : SpanId} {n : Nat} {s t : Span} (held : regions id = some s)
      (fresh : regions leftover = none) (start : t.start = s.start + n)
      (length : t.length = s.length - n) (sizeclass : t.sizeclass = 0) :
      RegionStep regions (.split id n) (some leftover)
        (Function.update (Function.update regions id (some { s with length := n }))
          leftover (some t))
  | registerSizeClass {id : SpanId} {sc : Nat} {s : Span} (held : regions id = some s) :
      RegionStep regions (.registerSizeClass id sc) none
        (Function.update regions id (some { s with sizeclass := sc % 2 ^ 8 }))
  | releaseAtLeastNPages (n : Nat) : RegionStep regions (.releaseAtLeastNPages n) none regions

/-- No two spans in use overlap. -/
def NoOverlap (regions : SpanId → Option Span) : Prop :=
  ∀ i j s t, regions i = some s → regions j = some t → i ≠ j → Apart s t

variable {h h' : PageHeap M} {cfg : Config}

theorem Settled.noOverlap (S : Settled h) : NoOverlap (held h) := by
  intro i j s t hi hj hij
  obtain ⟨hli, rfl, -⟩ := held_eq_some.1 hi
  obtain ⟨hlj, rfl, -⟩ := held_eq_some.1 hj
  have hposi := S.core.length_pos hli
  have hposj := S.core.length_pos hlj
  by_contra hoverlap
  obtain ⟨h1, h2⟩ := not_or.1 hoverlap
  -- both have the later one of the two first pages
  exact hij (S.core.tiled.apart (p := max (h.span i).start (h.span j).start) (piece_eq hli)
    (piece_eq hlj) (by omega) (by omega) (by omega) (by omega))

/-! ## Single requests -/

/-- In aggressive mode the system takes memory back. -/
def Obliging (cfg : Config) (h : PageHeap M) : Prop :=
  h.aggressiveDecommit = true → ∀ t, cfg.systemRelease t = true

omit [PageMap M SpanId] in
theorem Obliging.grows (hrelease : Obliging cfg h) (hgrows : Grows h h') : Obliging cfg h' := by
  unfold Obliging
  rw [hgrows.aggressive]
  exact hrelease

/-- A change of the mode that leaves no free neighbours to be merged. -/
theorem Settled.setAggressiveDecommit (S : Settled h) {b : Bool}
    (hquiet : b = true → ∀ i, h.lists (.normal i) = []) :
    Settled (setAggressiveDecommit h b) where
  core :=
    { S.core with
      apart := by
        intro i j hadj hi hj hmerge
        obtain ⟨hni, hnj, hor⟩ := hmerge
        refine S.core.apart hadj hi hj ⟨hni, hnj, Or.inr ?_⟩
        rcases hor with hb | heq
        · -- all free spans are on returned lists
          have hreturned : ∀ {k}, Live h k → (h.span k).location ≠ .inUse →
              (h.span k).location = .onReturnedFreelist := by
            intro k hk hinUse
            cases hloc : (h.span k).location with
            | inUse => exact absurd hloc hinUse
            | onReturnedFreelist => rfl
            | onNormalFreelist =>
                have hmem : k ∈ h.lists (.normal (listIndex (h.span k).length)) :=
                  S.core.mem_lists.2 ⟨hk, by simp, by rw [headerOf, hloc]⟩
                rw [hquiet hb] at hmem
                cases hmem
          rw [hreturned (live_of_adjacent_left hadj) hni, hreturned (live_of_adjacent_right hadj) hnj]
        · exact heq }
  quiet := hquiet
  balanced := S.balanced
  releaseIndex := S.releaseIndex

/-- A request that meets its requirements is a step of the region allocator. -/
theorem apply_ends (S : Settled h) {request : Request} (hrequest : Requires cfg h request)
    (hrelease : Obliging cfg h) :
    Ends cfg (apply cfg h request) fun r =>
      Settled r.1 ∧ Obliging cfg r.1 ∧ RegionStep (held h) request r.2 (held r.1) := by
  cases request with
  | setAggressiveDecommit b =>
      exact ⟨S.setAggressiveDecommit fun hb => (hrequest hb).1, fun hb => (hrequest hb).2,
        .setAggressiveDecommit b⟩
  | new n =>
      apply (new_ends S cfg hrequest hrelease).mono
      rintro ⟨h', result⟩ A
      refine ⟨A.settled, hrelease.grows A.grows, ?_⟩
      cases result with
      | none =>
          rw [A.failed rfl]
          exact .newFails n
      | some id =>
          obtain ⟨hnone, s, hlen, hsize, hheld⟩ := A.found id rfl
          rw [hheld]
          apply RegionStep.new hnone hlen hsize
          intro k t hk
          have hne : k ≠ id := by
            rintro rfl
            rw [hnone] at hk
            cases hk
          apply A.settled.noOverlap id k s t
          · rw [hheld, Function.update_self]
          · rw [hheld, Function.update_of_ne hne]
            exact hk
          · exact hne.symm
  | delete id =>
      obtain ⟨s, hs⟩ := hrequest
      obtain ⟨h', hrun, S', hgrows, hheld, -⟩ := delete_ok S cfg hs hrelease
      simp only [apply, hrun, ok_bind]
      refine ⟨S', hrelease.grows hgrows, ?_⟩
      rw [hheld]
      exact .delete id
  | split id n =>
      obtain ⟨s, hs, hn, hlt, hsize⟩ := hrequest
      rcases split_ok S cfg hs hn hlt hsize with ⟨hcrash, hstarved⟩ |
        ⟨h', j, t, hrun, S', hgrows, hnone, hstart, hlen, hsize', hheld⟩
      · simp only [apply, hcrash]
        exact ends_crash ⟨_, hstarved.2⟩
      · simp only [apply, hrun, ok_bind]
        refine ⟨S', hrelease.grows hgrows, ?_⟩
        rw [hheld]
        exact .split hs hnone hstart hlen hsize'
  | registerSizeClass id sc =>
      obtain ⟨s, hs⟩ := hrequest
      obtain ⟨h', hrun, S', hgrows, hheld⟩ := registerSizeClass_ok S hs sc
      simp only [apply, hrun, ok_bind]
      refine ⟨S', hrelease.grows hgrows, ?_⟩
      rw [hheld]
      exact .registerSizeClass hs
  | releaseAtLeastNPages n =>
      obtain ⟨h', m, hrun, S', hstays, -⟩ := releaseAtLeastNPages_ok S cfg n
      simp only [apply, hrun, ok_bind]
      refine ⟨S', hrelease.grows hstays.grows, ?_⟩
      rw [hstays.held]
      exact .releaseAtLeastNPages n

/-! ## Runs -/

/-- The heap after a request that succeeds. -/
def step (cfg : Config) (h : PageHeap M) (request : Request) : Option (PageHeap M) :=
  match apply cfg h request with
  | .ok r => some r.1
  | .error _ => none

/-- The heap starts over an empty page map. -/
def Starts (h : PageHeap M) : Prop :=
  ∃ pagemap systemTaken, h = init pagemap systemTaken ∧ ∀ p, PageMap.get pagemap p = none

/-- Requests that meet their requirements lead from a start to `h`. -/
inductive Reached (cfg : Config) (h : PageHeap M) : Prop where
  | intro (h₀ : PageHeap M) (requests : List Request) (starts : Starts h₀)
      (allowed : AllSteps (step cfg) (Requires cfg) h₀ requests)
      (run : run (step cfg) h₀ requests = some h)

theorem Starts.settled (I : Starts h) : Settled h := by
  obtain ⟨pagemap, systemTaken, rfl, hempty⟩ := I
  have hlive : ∀ k, ¬ Live (init pagemap systemTaken) k :=
    fun k hk => Nat.not_lt_zero k hk.1
  have hpiece : ∀ k, piece (init pagemap systemTaken) k = none :=
    fun k => if_neg (hlive k)
  have hcovered : ∀ p, ¬ Covered (piece (init pagemap systemTaken)) p := by
    rintro p ⟨k, b, m, hk, -⟩
    rw [hpiece] at hk
    cases hk
  have htaken : ∀ p, ¬ TakenPage (init pagemap systemTaken).taken p := by
    rintro p ⟨r, hr, -⟩
    cases hr
  exact
    { core :=
        { ensured := fun hp => absurd hp (hcovered _)
          inside := fun hp => absurd hp (hcovered _)
          address := fun hp => absurd hp (htaken _)
          sparse := fun x => ⟨x, Nat.le_refl x, by omega, htaken x⟩
          room := by
            intro s hs
            have hnone : s = ∅ := Finset.eq_empty_of_forall_notMem fun p hp => hcovered p (hs p hp)
            rw [hnone, Finset.card_empty, Nat.zero_mul]
            exact Nat.zero_le _
          tiled :=
            { pos := fun hk => by
                rw [hpiece] at hk
                cases hk
              apart := fun hk => by
                rw [hpiece] at hk
                cases hk
              first := fun hk => by
                rw [hpiece] at hk
                cases hk
              last := fun hk => by
                rw [hpiece] at hk
                cases hk
              outside := fun {p k} hp => absurd ((hempty p).symm.trans hp) (by simp) }
          freeSpans_lt := fun _ hk => absurd hk List.not_mem_nil
          freeSpans_nodup := List.nodup_nil
          mem_lists := fun {hd k} => iff_of_false List.not_mem_nil fun hk => hlive k hk.1
          lists_nodup := fun _ => List.nodup_nil
          sized := fun hk => absurd hk (hlive _)
          free := by
            rw [show totalPages (init pagemap systemTaken) .normal = 0 from
              Finset.sum_eq_zero fun _ _ => rfl]
            rfl
          unmapped := by
            rw [show totalPages (init pagemap systemTaken) .returned = 0 from
              Finset.sum_eq_zero fun _ _ => rfl]
            rfl
          backed := fun hk => absurd hk (hlive _)
          apart := fun hadj => absurd (live_of_adjacent_left hadj) (hlive _) }
      quiet := fun _ _ => rfl
      balanced := rfl
      releaseIndex := Nat.le_succ _ }

/-- What every reached state keeps. -/
theorem Reached.invariant (R : Reached cfg h) : Settled h ∧ Obliging cfg h := by
  obtain ⟨h₀, requests, starts, allowed, hrun⟩ := R
  have hobliging : Obliging cfg h₀ := by
    obtain ⟨pagemap, systemTaken, rfl, -⟩ := starts
    exact fun ha => absurd ha Bool.false_ne_true
  refine run_invariant_steps (I := fun h : PageHeap M => Settled h ∧ Obliging cfg h) ?_ requests h₀ h
    allowed ⟨starts.settled, hobliging⟩ hrun
  rintro s request s' hrequest ⟨S, hrelease⟩ hstep
  have hends := apply_ends S hrequest hrelease
  unfold step at hstep
  cases happly : apply cfg s request with
  | error e =>
      rw [happly] at hstep
      cases hstep
  | ok r =>
      rw [happly] at hstep hends
      cases hstep
      exact ⟨hends.1, hends.2.1⟩

/-- One more request. -/
theorem Reached.next (R : Reached cfg h) {request : Request} (hrequest : Requires cfg h request)
    (hstep : step cfg h request = some h') : Reached cfg h' := by
  obtain ⟨h₀, requests, starts, allowed, hrun⟩ := R
  exact ⟨h₀, requests ++ [request], starts, allSteps_concat allowed hrun hrequest,
    run_concat hrun hstep⟩

/-! ## Some reached states -/

/-- A page map of 512 pages in one array. -/
structure FlatMap where
  array : Nat → Option SpanId

instance : PageMap FlatMap SpanId where
  get m k := if k < 512 then m.array k else none
  set m k v := if k < 512 then some ⟨Function.update m.array k v⟩ else none
  ensure m start n := (m, decide (start + n ≤ 512))
  next m k := scanLeaf m.array (512 - k) k
  preallocateMoreMemory m := m
  Ensured _ k := k < 512
  set_spec := by
    intro m k v hk
    refine ⟨_, if_pos hk, ?_, fun _ => Iff.rfl⟩
    intro k'
    by_cases h : k' = k
    · subst h
      simp [hk]
    · simp [h]
  get_ensure := fun _ _ _ _ => rfl
  ensured_mono := fun _ _ h => h
  ensured_ensure := by
    intro m start n _ h k hlo hhi
    have hle := of_decide_eq_true h
    omega
  get_preallocate := fun _ _ => rfl
  ensured_preallocate := fun h => h
  next_spec := by
    intro m k
    constructor
    · intro v hv
      obtain ⟨j, hlo, hhi, hj, hbefore⟩ := scanLeaf_some hv
      exact ⟨j, hlo, (if_pos (by omega)).trans hj,
        fun i h1 h2 => (if_pos (by omega)).trans (hbefore i h1 h2)⟩
    · intro hnone j hj
      by_cases hlt : j < 512
      · exact (if_pos hlt).trans (scanLeaf_none hnone j hj (by omega))
      · exact if_neg hlt

/-- A system with a single range of 1 MiB, and no limits. -/
def oneRange : Config where
  systemAlloc _ taken bytes :=
    if taken = [] ∧ bytes ≤ 2 ^ 20 then some (2 ^ 20, 2 ^ 20) else none
  systemRelease _ := true
  metadata _ := some 0
  heapLimitMb := 0
  releaseEnabled := false
  releaseDelay _ := 0
  alloc_enough := by
    intro call taken bytes ptr size hsome
    split at hsome
    · rename_i hcond
      cases hsome
      exact hcond.2
    · cases hsome
  alloc_aligned := by
    intro call taken bytes ptr size hsome
    split at hsome
    · cases hsome
      decide
    · cases hsome
  alloc_inside := by
    intro call taken bytes ptr size hsome
    split at hsome
    · cases hsome
      decide
    · cases hsome
  alloc_fresh := by
    intro call taken bytes ptr size hsome p hp
    split at hsome
    · rename_i hcond
      rw [hcond.1] at hp
      obtain ⟨r, hr, -⟩ := hp
      cases hr
    · cases hsome
  alloc_sparse := by
    intro call taken bytes ptr size hsome _ x
    split at hsome
    · rename_i hcond
      cases hsome
      refine ⟨x + 256, by omega, by omega, ?_⟩
      rw [hcond.1, takenPage_cons, Nat.shiftLeft_eq]
      rintro (⟨-, hhi⟩ | ⟨r, hr, -⟩)
      · change (x + 256) * 2 ^ 13 < 2 ^ 20 + 2 ^ 20 at hhi
        omega
      · cases hr
    · cases hsome

def emptyHeap : PageHeap FlatMap := init ⟨fun _ => none⟩ 0

theorem emptyHeap_reached : Reached oneRange emptyHeap :=
  ⟨emptyHeap, [], ⟨_, _, rfl, fun _ => ite_self _⟩, trivial, rfl⟩

/-- The heap after one more request, if that succeeds. -/
def next (h : PageHeap FlatMap) (request : Request) : PageHeap FlatMap :=
  (step oneRange h request).getD h

theorem next_reached {h : PageHeap FlatMap} (R : Reached oneRange h) {request : Request}
    (hrequest : Requires oneRange h request) : Reached oneRange (next h request) := by
  unfold next
  cases hstep : step oneRange h request with
  | none => exact R
  | some h' => exact R.next hrequest hstep

/-- In aggressive mode: three pages with a size class, and the rest of the range returned. -/
def afterRegister : PageHeap FlatMap :=
  next (next (next emptyHeap (.setAggressiveDecommit true)) (.new 3)) (.registerSizeClass 0 5)

theorem afterRegister_held : held afterRegister 0 = some ⟨128, 3, [], 0, 5, .inUse, false⟩ := by
  decide +kernel

theorem afterRegister_reached : Reached oneRange afterRegister := by
  apply next_reached
  · apply next_reached
    · exact next_reached emptyHeap_reached fun _ => ⟨fun _ => rfl, fun _ => rfl⟩
    · exact Nat.succ_pos 2
  · exact ⟨⟨128, 3, [], 0, 0, .inUse, false⟩, by decide +kernel⟩

/-- Without aggressive mode: a page freed beside 127 returned ones stays apart from them. -/
def afterDelete : PageHeap FlatMap :=
  next (next (next emptyHeap (.new 1)) (.releaseAtLeastNPages 1)) (.delete 0)

theorem afterDelete_spans :
    Live afterDelete 0 ∧ afterDelete.span 0 = ⟨128, 1, [], 0, 0, .onNormalFreelist, false⟩ ∧
      Live afterDelete 1 ∧
        afterDelete.span 1 = ⟨129, 127, [], 0, 0, .onReturnedFreelist, false⟩ := by
  decide +kernel

theorem afterDelete_reached : Reached oneRange afterDelete := by
  apply next_reached
  · apply next_reached
    · exact next_reached emptyHeap_reached Nat.one_pos
    · trivial
  · exact ⟨⟨128, 1, [], 0, 0, .inUse, false⟩, by decide +kernel⟩

theorem afterDelete_free : Free afterDelete 0 ∧ Free afterDelete 1 := by
  obtain ⟨hl₀, hs₀, hl₁, hs₁⟩ := afterDelete_spans
  exact ⟨⟨hl₀, by rw [hs₀]; simp⟩, ⟨hl₁, by rw [hs₁]; simp⟩⟩

/-! ## What clients rely on -/

/-- The page heap refines the allocator of regions: whatever requests came before, the next
one that meets its requirements is a step of that allocator.  It neither writes through a
null pointer nor loops, fails an assertion only under a heap limit, and ends the process
only without memory for metadata. -/
theorem pageHeap_refines (R : Reached cfg h) {request : Request}
    (hrequest : Requires cfg h request) :
    NoOverlap (held h) ∧ Ends cfg (apply cfg h request) fun r =>
      RegionStep (held h) request r.2 (held r.1) ∧ NoOverlap (held r.1) := by
  obtain ⟨S, hrelease⟩ := R.invariant
  refine ⟨S.noOverlap, (apply_ends S hrequest hrelease).mono ?_⟩
  rintro r ⟨S', -, hstep⟩
  exact ⟨hstep, S'.noOverlap⟩

theorem pageHeap_refines_delete :
    NoOverlap (held afterRegister) ∧ Ends oneRange (apply oneRange afterRegister (.delete 0)) fun r =>
      RegionStep (held afterRegister) (.delete 0) r.2 (held r.1) ∧ NoOverlap (held r.1) :=
  pageHeap_refines afterRegister_reached ⟨_, afterRegister_held⟩

/-- "Eager coalescing": two free spans side by side are told apart by their location, and
with `aggressive_decommit_` no two free spans are side by side. -/
theorem free_spans_coalesced (R : Reached cfg h) {i j : SpanId} (hi : Free h i) (hj : Free h j)
    (hend : (h.span i).start + (h.span i).length = (h.span j).start) :
    h.aggressiveDecommit = false ∧ (h.span i).location ≠ (h.span j).location := by
  have C := R.invariant.1.core
  have hadj : Adjacent (piece h) i j :=
    ⟨(h.span i).start, (h.span i).length, (h.span j).length, piece_eq hi.1, by
      rw [hend]
      exact piece_eq hj.1⟩
  have hapart := C.apart hadj (by simp) (by simp)
  constructor
  · cases ha : h.aggressiveDecommit with
    | false => rfl
    | true => exact absurd ⟨hi.2, hj.2, Or.inl ha⟩ hapart
  · exact fun heq => hapart ⟨hi.2, hj.2, Or.inr heq⟩

theorem free_spans_coalesced_delete : afterDelete.aggressiveDecommit = false ∧
    (afterDelete.span 0).location ≠ (afterDelete.span 1).location :=
  free_spans_coalesced afterDelete_reached afterDelete_free.1 afterDelete_free.2 (by decide +kernel)

/-- A span in use is found by the page map at both ends, and on every page once it has a
size class; all its pages are backed by memory, and lie in ranges the system gave. -/
theorem span_in_use_served (R : Reached cfg h) {id : SpanId} {s : Span}
    (hheld : held h id = some s) :
    getDescriptor h s.start = some id ∧ getDescriptor h (s.start + s.length - 1) = some id ∧
      ∀ p, s.start ≤ p → p < s.start + s.length →
        (s.sizeclass ≠ 0 → getDescriptor h p = some id) ∧ h.committed p = true ∧
          TakenPage h.taken p := by
  have S := R.invariant.1
  have hbacked := S.backed hheld
  obtain ⟨hl, rfl, -⟩ := held_eq_some.1 hheld
  refine ⟨S.core.first hl, S.core.last hl, fun p hlo hhi => ⟨fun hne => ?_, hbacked p hlo hhi, ?_⟩⟩
  · exact (S.core.sized hl hne).2 p hlo hhi
  · exact S.core.inside (covered_of_live hl hlo hhi)

theorem span_in_use_served_register :
    getDescriptor afterRegister 128 = some 0 ∧ getDescriptor afterRegister (128 + 3 - 1) = some 0 ∧
      ∀ p, 128 ≤ p → p < 128 + 3 → (5 ≠ 0 → getDescriptor afterRegister p = some 0) ∧
        afterRegister.committed p = true ∧ TakenPage afterRegister.taken p := by
  have hserved := span_in_use_served afterRegister_reached afterRegister_held
  -- the heap is not to be evaluated
  generalize afterRegister = h at hserved ⊢
  exact hserved

/-- `ReleaseAtLeastNPages` ends and disturbs no client.  The pages it reports went from
normal lists to returned ones; they are as many as asked for, or all free ones, unless the
system refuses to take memory back. -/
theorem releaseAtLeastNPages_reported (R : Reached cfg h) (numPages : Nat) :
    ∃ h' n, releaseAtLeastNPages h cfg numPages = .ok (h', n) ∧ held h' = held h ∧
      totalPages h .normal = totalPages h' .normal + n ∧
      totalPages h' .returned = totalPages h .returned + n ∧
      ((∀ t, cfg.systemRelease t = true) → min numPages (totalPages h .normal) ≤ n) := by
  obtain ⟨h', n, hrun, -, hstays, hreleased, hend⟩ :=
    releaseAtLeastNPages_ok R.invariant.1 cfg numPages
  refine ⟨h', n, hrun, hstays.held, hreleased.normal, hreleased.returned, fun hall => ?_⟩
  have hnormal := hreleased.normal
  rcases hend with henough | hnone | ⟨t, hrefused⟩
  · omega
  · omega
  · rw [hall t] at hrefused
    cases hrefused

theorem releaseAtLeastNPages_reported_delete : afterDelete.lists (.normal 1) = [0] ∧
    ∃ h' n, releaseAtLeastNPages afterDelete oneRange 5 = .ok (h', n) ∧
      held h' = held afterDelete ∧ totalPages afterDelete .normal = totalPages h' .normal + n ∧
      totalPages h' .returned = totalPages afterDelete .returned + n ∧
      ((∀ t, oneRange.systemRelease t = true) → min 5 (totalPages afterDelete .normal) ≤ n) :=
  ⟨by decide +kernel, releaseAtLeastNPages_reported afterDelete_reached 5⟩

end SatAllocatorTest.Ports.TCmalloc.PageHeap
