import SatAllocatorTest.Ports.PageHeapSpans

/-!
# Growing the heap

`GrowHeap` asks the system for memory and frees it as one new span.  The heap stays
settled whether the limit, the system or the page map refuses, or none of them; only
without memory for metadata the process ends.
-/

namespace SatAllocatorTest.Ports.TCmalloc.PageHeap

open SatAllocatorTest.Verified.Tilings

variable {M : Type} [PageMap M SpanId]
variable {h h' : PageHeap M} {cfg : Config} {n : Nat}

/-- The heap got new memory, not yet in the page map. -/
structure Given (h h' : PageHeap M) (ptr size : Nat) : Prop where
  settled : Settled h'
  stays : held h' = held h ∧ (∀ p, Covered (piece h') p ↔ Covered (piece h) p) ∧
    h'.aggressiveDecommit = h.aggressiveDecommit
  page_pos : 0 < ptr >>> kPageShift
  end_le : ptr >>> kPageShift + size >>> kPageShift ≤ 2 ^ 51
  fresh : ∀ p, ptr >>> kPageShift ≤ p → p < ptr >>> kPageShift + size >>> kPageShift →
    ¬ Covered (piece h') p
  inside : ∀ p, ptr >>> kPageShift ≤ p → p < ptr >>> kPageShift + size >>> kPageShift →
    TakenPage h'.taken p
  committed : ∀ p, ptr >>> kPageShift ≤ p → p < ptr >>> kPageShift + size >>> kPageShift →
    h'.committed p = true
  room : ∀ t : Finset Nat, (∀ p ∈ t, Covered (piece h') p) →
    (t.card + size >>> kPageShift) * kPageSize ≤ h'.systemTaken

/-- The whole pages of an aligned range. -/
theorem page_in_range {ptr size p : Nat} (haligned : ptr % kPageSize = 0)
    (hlo : ptr >>> kPageShift ≤ p) (hhi : p < ptr >>> kPageShift + size >>> kPageShift) :
    ptr ≤ p <<< kPageShift ∧ p <<< kPageShift < ptr + size := by
  rw [Nat.shiftRight_eq_div_pow] at hlo
  rw [Nat.shiftRight_eq_div_pow, Nat.shiftRight_eq_div_pow] at hhi
  rw [Nat.shiftLeft_eq]
  change ptr % 2 ^ 13 = 0 at haligned
  change ptr / 2 ^ 13 ≤ p at hlo
  change p < ptr / 2 ^ 13 + size / 2 ^ 13 at hhi
  change ptr ≤ p * 2 ^ 13 ∧ p * 2 ^ 13 < ptr + size
  omega

theorem takenPage_cons {ptr size p : Nat} {taken : List (Nat × Nat)} :
    TakenPage ((ptr, size) :: taken) p ↔
      (ptr ≤ p <<< kPageShift ∧ p <<< kPageShift < ptr + size) ∨ TakenPage taken p := by
  simp only [TakenPage, List.mem_cons, exists_eq_or_imp]

theorem systemAlloc_none (S : Settled h) {bytes : Nat}
    (hnone : cfg.systemAlloc h.calls h.taken bytes = none) :
    systemAlloc h cfg bytes = ({ h with calls := h.calls + 1 }, none) ∧
      Settled { h with calls := h.calls + 1 } := by
  refine ⟨?_, S.tick _⟩
  rw [systemAlloc, hnone]

theorem systemAlloc_some (S : Settled h) {bytes ptr size : Nat}
    (hsome : cfg.systemAlloc h.calls h.taken bytes = some (ptr, size)) :
    ∃ h', systemAlloc h cfg bytes = (h', some (ptr, size)) ∧ Given h h' ptr size ∧ bytes ≤ size := by
  have C := S.core
  have haligned := cfg.alloc_aligned hsome
  have hinside := cfg.alloc_inside hsome
  let h₁ : PageHeap M :=
    { h with
      calls := h.calls + 1
      taken := (ptr, size) :: h.taken
      systemTaken := h.systemTaken + size
      committed := fun p => decide (ptr ≤ p <<< kPageShift ∧ p <<< kPageShift < ptr + size) ||
        h.committed p }
  have hrange : ∀ {p}, ptr >>> kPageShift ≤ p →
      p < ptr >>> kPageShift + size >>> kPageShift → TakenPage [(ptr, size)] p :=
    fun hlo hhi => takenPage_cons.2 (Or.inl (page_in_range haligned hlo hhi))
  have hground : Ground h₁ :=
    { ensured := C.ensured
      inside := fun hp => takenPage_cons.2 (Or.inr (C.inside hp))
      address := by
        intro p hp
        rcases takenPage_cons.1 hp with hp | hp
        · rw [Nat.shiftLeft_eq] at hp
          change ptr ≤ p * 2 ^ 13 ∧ p * 2 ^ 13 < ptr + size at hp
          change ptr % 2 ^ 13 = 0 at haligned
          omega
        · exact C.address hp
      sparse := cfg.alloc_sparse hsome C.sparse
      room := fun t ht => Nat.le_trans (C.room t ht) (Nat.le_add_right _ _) }
  have hsettled : Settled h₁ :=
    { core :=
        { hground with
          tiled := C.tiled
          freeSpans_lt := C.freeSpans_lt
          freeSpans_nodup := C.freeSpans_nodup
          mem_lists := C.mem_lists
          lists_nodup := C.lists_nodup
          sized := C.sized
          free := C.free
          unmapped := C.unmapped
          backed := by
            intro k hk hF hloc p hlo hhi
            change (_ || h.committed p) = true
            rw [C.backed hk hF hloc p hlo hhi, Bool.or_true]
          apart := C.apart }
      quiet := S.quiet
      balanced := S.balanced
      releaseIndex := S.releaseIndex }
  refine ⟨h₁, ?_, ?_, cfg.alloc_enough hsome⟩
  · rw [systemAlloc, hsome]
  · exact
      { settled := hsettled
        stays := ⟨rfl, fun _ => Iff.rfl, rfl⟩
        page_pos := by
          rw [Nat.shiftRight_eq_div_pow]
          change ptr % 2 ^ 13 = 0 at haligned
          change 0 < ptr / 2 ^ 13
          omega
        end_le := by
          rw [Nat.shiftRight_eq_div_pow, Nat.shiftRight_eq_div_pow]
          change ptr % 2 ^ 13 = 0 at haligned
          change ptr / 2 ^ 13 + size / 2 ^ 13 ≤ 2 ^ 51
          omega
        fresh := fun p hlo hhi hcov => cfg.alloc_fresh hsome p (C.inside hcov) (hrange hlo hhi)
        inside := fun p hlo hhi => takenPage_cons.2 (Or.inl (page_in_range haligned hlo hhi))
        committed := by
          intro p hlo hhi
          change (decide _ || h.committed p) = true
          rw [decide_eq_true (page_in_range haligned hlo hhi), Bool.true_or]
        room := by
          intro t ht
          have hwhole : size >>> kPageShift * kPageSize ≤ size := by
            rw [Nat.shiftRight_eq_div_pow]
            exact Nat.div_mul_le_self size _
          rw [Nat.add_mul]
          exact Nat.add_le_add (C.room t ht) hwhole }

/-- A new span in use over the given pages. -/
theorem add_ok {a : PageHeap M} {j : SpanId} {s : Span} (S : Settled h) (N : NewIn h a j s)
    (hinUse : s.location = .inUse) (hsize : s.sizeclass = 0) (hpos : 0 < s.length)
    (hfree : ∀ p, s.start ≤ p → p < s.start + s.length → ¬ Covered (piece h) p)
    (hensured : ∀ p, s.start ≤ p → p < s.start + s.length → PageMap.Ensured h.pagemap p)
    (hinside : ∀ p, s.start ≤ p → p < s.start + s.length → TakenPage h.taken p)
    (hcommitted : ∀ p, s.start ≤ p → p < s.start + s.length → h.committed p = true)
    (hroom : ∀ t : Finset Nat, (∀ p ∈ t, Covered (piece h) p) →
      (t.card + s.length) * kPageSize ≤ h.systemTaken) :
    ∃ h', recordSpan a j = .ok h' ∧ Settled h' ∧ Grows h h' ∧ held h j = none ∧
      held h' = Function.update (held h) j (some s) := by
  obtain ⟨h', hrecord, X⟩ := N.record hpos hensured
  have C : Core h' [j] :=
    S.core.add X hpos hsize hfree (S.core.toGround.add X hensured hinside hroom)
  refine ⟨h', hrecord, ?_, ⟨?_, X.aggressive⟩, ?_, ?_⟩
  · exact
      { core := by
          apply C.give
          · rw [X.span_j]
            exact hinUse
          · rw [X.span_j, X.committed]
            exact hcommitted
        quiet := by
          intro ha i
          rw [X.lists]
          exact S.quiet (X.aggressive.symm.trans ha) i
        balanced := by
          rw [X.stats]
          exact S.balanced
        releaseIndex := by
          rw [X.releaseIndex]
          exact S.releaseIndex }
  · exact fun p hp => (X.covered p).2 (Or.inl hp)
  · unfold held
    rw [if_neg fun hcond => X.fresh hcond.1]
  · funext k
    by_cases hk : k = j
    · subst hk
      rw [Function.update_self, held_eq_some]
      exact ⟨(X.live k).2 (Or.inr rfl), X.span_j, hinUse⟩
    · rw [Function.update_of_ne hk]
      have hlive : Live h' k ↔ Live h k := (X.live k).trans (or_iff_left hk)
      unfold held
      simp only [hlive, X.span_other k hk]

/-! ## `GrowHeap` -/

/-- At some call there is no memory for metadata. -/
def OutOfMetadata (cfg : Config) : Prop := ∃ call, cfg.metadata call = none

/-- The heap with the statistics of `ask` new pages, `bytes` of metadata and a page map. -/
def grown (h : PageHeap M) (ask bytes : Nat) (pagemap : M) : PageHeap M :=
  { h with
    pagemap := pagemap
    systemTaken := h.systemTaken + bytes
    calls := h.calls + 1
    stats := { h.stats with
      systemBytes := h.stats.systemBytes + bytesOf ask
      committedBytes := h.stats.committedBytes + bytesOf ask } }

omit [PageMap M SpanId] in
theorem grown_stays (ask bytes : Nat) (pagemap : M) :
    Grows h (grown h ask bytes pagemap) ∧ held (grown h ask bytes pagemap) = held h :=
  ⟨⟨fun _ hp => hp, rfl⟩, rfl⟩

theorem grown_settled (S : Settled h) (ask bytes : Nat) {pagemap : M}
    (hget : ∀ q, PageMap.get pagemap q = getDescriptor h q)
    (hens : ∀ q, PageMap.Ensured h.pagemap q → PageMap.Ensured pagemap q) :
    Settled (grown h ask bytes pagemap) := by
  have C := S.core
  have hindex : getDescriptor (grown h ask bytes pagemap) = getDescriptor h := funext hget
  have hbalanced := S.balanced
  exact
    { core :=
        { ensured := fun hp => hens _ (C.ensured hp)
          inside := C.inside
          address := C.address
          sparse := C.sparse
          room := fun t ht => Nat.le_trans (C.room t ht) (Nat.le_add_right _ _)
          tiled := by
            rw [hindex]
            exact C.tiled
          freeSpans_lt := C.freeSpans_lt
          freeSpans_nodup := C.freeSpans_nodup
          mem_lists := C.mem_lists
          lists_nodup := C.lists_nodup
          sized := by
            intro k hk hne
            rw [hindex]
            exact C.sized hk hne
          free := C.free
          unmapped := C.unmapped
          backed := C.backed
          apart := C.apart }
      quiet := S.quiet
      balanced := by
        simp only [grown]
        grind
      releaseIndex := S.releaseIndex }

theorem mapForGrowth_keeps (h : PageHeap M) (ask : Nat) :
    (∀ q, PageMap.get (mapForGrowth h ask) q = getDescriptor h q) ∧
      ∀ q, PageMap.Ensured h.pagemap q → PageMap.Ensured (mapForGrowth h ask) q := by
  unfold mapForGrowth
  split
  · exact ⟨PageMap.get_preallocate h.pagemap, fun q => PageMap.ensured_preallocate⟩
  · exact ⟨fun q => rfl, fun q hq => hq⟩

theorem addRange_ok (cfg : Config) {h₀ : PageHeap M} {ptr size : Nat} (G : Given h₀ h ptr size)
    (hsize : 0 < size >>> kPageShift)
    (hrelease : h.aggressiveDecommit = true → ∀ t, cfg.systemRelease t = true) :
    (addRange h cfg ptr size = .error .crash ∧ OutOfMetadata cfg) ∨
      ∃ h' b, addRange h cfg ptr size = .ok (h', b) ∧ Settled h' ∧ Grows h h' ∧ held h' = held h ∧
        (b = true → HasFit h' (size >>> kPageShift)) := by
  have hend := G.end_le
  have hpos := G.page_pos
  obtain ⟨hget, hens⟩ := mapForGrowth_keeps h (size >>> kPageShift)
  unfold addRange countGrowth
  cases hmeta : cfg.metadata h.calls with
  | none => exact Or.inl ⟨rfl, _, hmeta⟩
  | some bytes =>
      simp only [ok_bind]
      rw [assert_pos hpos, ok_bind]
      -- the page map with the pages of the range, one before and one behind
      let ensured := PageMap.ensure (mapForGrowth h (size >>> kPageShift))
        (ptr >>> kPageShift - 1) (size >>> kPageShift + 2)
      let h₁ := grown h (size >>> kPageShift) bytes ensured.1
      have S₁ : Settled h₁ := by
        apply grown_settled G.settled
        · intro q
          rw [PageMap.get_ensure, hget]
        · exact fun q hq => PageMap.ensured_mono _ _ (hens q hq)
      obtain ⟨hgrows₁, hheld₁⟩ := grown_stays (h := h) (size >>> kPageShift) bytes ensured.1
      change (if ensured.2 = true then newSpan cfg h₁ (ptr >>> kPageShift) (size >>> kPageShift) >>= _
        else pure (h₁, false)) = _ ∧ _ ∨ ∃ h' b, (if ensured.2 = true then
          newSpan cfg h₁ (ptr >>> kPageShift) (size >>> kPageShift) >>= _ else pure (h₁, false)) = _ ∧ _
      by_cases hok : ensured.2 = true
      · rw [if_pos hok]
        rcases newSpan_cases cfg S₁.core.freeSpans_lt S₁.core.freeSpans_nodup (ptr >>> kPageShift)
          (size >>> kPageShift) with ⟨hcrash, hstarved⟩ | ⟨a, j, hnew, N⟩
        · rw [hcrash]
          exact Or.inl ⟨rfl, _, hstarved.2⟩
        · have hensured : ∀ p, ptr >>> kPageShift ≤ p →
              p < ptr >>> kPageShift + size >>> kPageShift → PageMap.Ensured h₁.pagemap p :=
            fun p hlo hhi => PageMap.ensured_ensure (by omega) hok p (by omega) (by omega)
          obtain ⟨h₂, hrecord, S₂, hgrows₂, hnone, hheld₂⟩ := add_ok S₁ N rfl rfl hsize G.fresh
            hensured G.inside G.committed
            fun t ht => Nat.le_trans (G.room t ht) (Nat.le_add_right _ _)
          obtain ⟨h₃, hdelete, S₃, hgrows₃, hheld₃, hfit⟩ := delete_ok S₂ cfg
            (by rw [hheld₂, Function.update_self])
            (by rw [hgrows₂.aggressive]; exact hrelease)
          refine Or.inr ⟨h₃, true, ?_, S₃, hgrows₁.trans (hgrows₂.trans hgrows₃), ?_, fun _ => hfit⟩
          · rw [hnew]
            simp only [hrecord, ok_bind, hdelete, S₃.assertStats_ok, S₃.core.check_ok]
            rfl
          · rw [hheld₃, hheld₂, Function.update_idem, ← hnone, Function.update_eq_self]
            exact hheld₁
      · rw [if_neg hok]
        exact Or.inr ⟨h₁, false, rfl, S₁, hgrows₁, hheld₁, fun hb => by cases hb⟩

/-- One try to get memory: nothing, or a range of `ask` pages or more. -/
theorem tryGrow_ok (S : Settled h) (cfg : Config) (ask : Nat) :
    ∃ h' range, tryGrow h cfg ask = .ok (h', range) ∧ Settled h' ∧ Grows h h' ∧
      held h' = held h ∧ ∀ ptr size, range = some (ptr, size) →
        ∃ h₀ : PageHeap M, Given h₀ h' ptr size ∧ ask <<< kPageShift ≤ size := by
  obtain ⟨h₁, ok, hensure, S₁, hstays₁, -⟩ := ensureLimit_ok S cfg ask true
  unfold tryGrow
  rw [hensure, ok_bind]
  cases ok with
  | false =>
      refine ⟨h₁, none, rfl, S₁, hstays₁.grows, hstays₁.held, ?_⟩
      intro ptr size hrange
      cases hrange
  | true =>
      cases hask : cfg.systemAlloc h₁.calls h₁.taken (ask <<< kPageShift) with
      | none =>
          obtain ⟨heq, S₂⟩ := systemAlloc_none S₁ hask
          refine ⟨_, none, ?_, S₂, ⟨fun p => (hstays₁.covered p).2, hstays₁.aggressive⟩,
            hstays₁.held, ?_⟩
          · simp only [if_true, heq]
            rfl
          · intro ptr size hrange
            cases hrange
      | some range =>
          obtain ⟨ptr, size⟩ := range
          obtain ⟨h₂, heq, G, hle⟩ := systemAlloc_some S₁ hask
          refine ⟨h₂, some (ptr, size), ?_, G.settled, ⟨?_, ?_⟩, ?_, ?_⟩
          · simp only [if_true, heq]
            rfl
          · exact fun p hp => (G.stays.2.1 p).2 ((hstays₁.covered p).2 hp)
          · exact G.stays.2.2.trans hstays₁.aggressive
          · exact G.stays.1.trans hstays₁.held
          · intro ptr' size' hrange
            cases hrange
            exact ⟨h₁, G, hle⟩

theorem growHeap_ok (S : Settled h) (cfg : Config) (hn : 0 < n)
    (hrelease : h.aggressiveDecommit = true → ∀ t, cfg.systemRelease t = true) :
    (growHeap h cfg n = .error .crash ∧ OutOfMetadata cfg) ∨
      ∃ h' b, growHeap h cfg n = .ok (h', b) ∧ Settled h' ∧ Grows h h' ∧ held h' = held h ∧
        (b = true → HasFit h' n) := by
  have hadd : ∀ {k : PageHeap M} {ask ptr size : Nat}, Grows h k → held k = held h → n ≤ ask →
      (∃ h₀ : PageHeap M, Given h₀ k ptr size ∧ ask <<< kPageShift ≤ size) →
      (addRange k cfg ptr size = .error .crash ∧ OutOfMetadata cfg) ∨
        ∃ h' b, addRange k cfg ptr size = .ok (h', b) ∧ Settled h' ∧ Grows h h' ∧
          held h' = held h ∧ (b = true → HasFit h' n) := by
    rintro k ask ptr size hgrows hheld hask ⟨h₀, G, hle⟩
    have hsize : ask ≤ size >>> kPageShift := by
      rw [Nat.shiftLeft_eq] at hle
      rw [Nat.shiftRight_eq_div_pow]
      exact (Nat.le_div_iff_mul_le (Nat.two_pow_pos _)).2 hle
    rcases addRange_ok cfg G (by omega) (by rw [hgrows.aggressive]; exact hrelease) with
      hcrash | ⟨h', b, hrun, S', hgrows', hheld', hfit⟩
    · exact Or.inl hcrash
    · refine Or.inr ⟨h', b, hrun, S', hgrows.trans hgrows', hheld'.trans hheld, fun hb => ?_⟩
      obtain ⟨id, hfree, hlen⟩ := hfit hb
      exact ⟨id, hfree, by omega⟩
  have hfail : ∀ {k : PageHeap M}, Settled k → Grows h k → held k = held h →
      ∃ h' b, (Except.ok (k, false) : Except Fault (PageHeap M × Bool)) = .ok (h', b) ∧ Settled h' ∧
        Grows h h' ∧ held h' = held h ∧ (b = true → HasFit h' n) :=
    fun hk hg hh => ⟨_, false, rfl, hk, hg, hh, fun hb => by cases hb⟩
  unfold growHeap
  rw [assert_pos (show kMinSystemAlloc ≤ kMaxPages from Nat.le_refl _), ok_bind]
  by_cases hmax : kMaxValidPages < n
  · rw [if_pos hmax]
    exact Or.inr (hfail S ⟨fun p hp => hp, rfl⟩ rfl)
  · rw [if_neg hmax]
    have hask : n ≤ (if kMinSystemAlloc < n then n else kMinSystemAlloc) := by
      split <;> omega
    generalize (if kMinSystemAlloc < n then n else kMinSystemAlloc) = ask at hask
    simp only
    obtain ⟨h₁, range, htry, S₁, hgrows₁, hheld₁, hgiven⟩ := tryGrow_ok S cfg ask
    rw [htry, ok_bind]
    cases range with
    | some r =>
        obtain ⟨ptr, size⟩ := r
        exact hadd hgrows₁ hheld₁ hask (hgiven ptr size rfl)
    | none =>
        simp only
        split
        · obtain ⟨h₂, range, htry₂, S₂, hgrows₂, hheld₂, hgiven₂⟩ := tryGrow_ok S₁ cfg n
          rw [htry₂, ok_bind]
          have hgrows := hgrows₁.trans hgrows₂
          have hheld := hheld₂.trans hheld₁
          cases range with
          | some r =>
              obtain ⟨ptr, size⟩ := r
              exact hadd hgrows hheld (Nat.le_refl n) (hgiven₂ ptr size rfl)
          | none => exact Or.inr (hfail S₂ hgrows hheld)
        · exact Or.inr (hfail S₁ hgrows₁ hheld₁)

end SatAllocatorTest.Ports.TCmalloc.PageHeap
