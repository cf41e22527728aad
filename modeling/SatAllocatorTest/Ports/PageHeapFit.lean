import SatAllocatorTest.Ports.PageHeapRuns

/-!
# Which span `New` takes

Without a heap limit, `New` takes the best free span there is: the shortest that is long
enough, on a normal list rather than a returned one for lengths below `kMaxPages`, and at
the lowest address for longer ones.  It fails only when no free span is long enough, not
even after a release that was worth it, and the system or the page map refuses.
-/

namespace SatAllocatorTest.Ports.TCmalloc.PageHeap

open SatAllocatorTest.Verified.Tilings

variable {M : Type} [PageMap M SpanId]
variable {h h' : PageHeap M} {id k : SpanId} {cfg : Config} {n : Nat}

/-- `s` is taken rather than `t`. -/
def Preferred (s t : Span) : Prop :=
  s.length < t.length ∨ (s.length = t.length ∧
    if s.length < kMaxPages then s.location = .onNormalFreelist ∨ t.location = .onReturnedFreelist
    else s.start ≤ t.start)

/-- The free span that is preferred to all others with `n` pages. -/
def BestFit (h : PageHeap M) (n : Nat) (id : SpanId) : Prop :=
  Free h id ∧ n ≤ (h.span id).length ∧
    ∀ k, Free h k → n ≤ (h.span k).length → Preferred (h.span id) (h.span k)

/-! ## Large spans -/

/-- "address-ordered best-fit". -/
def AddressOrdered (s t : Span) : Prop :=
  s.length < t.length ∨ (s.length = t.length ∧ s.start ≤ t.start)

omit [PageMap M SpanId] in
theorem betterFit_none {best : Option SpanId} (hstep : betterFit h n best k = none) :
    best = none ∧ (h.span k).length < n := by
  unfold betterFit at hstep
  by_cases hbeats : Beats h n best k
  · rw [if_pos hbeats] at hstep
    cases hstep
  · rw [if_neg hbeats] at hstep
    subst hstep
    refine ⟨rfl, ?_⟩
    by_contra hlen
    exact hbeats ⟨Nat.not_lt.1 hlen, fun b hb => (nomatch hb)⟩

omit [PageMap M SpanId] in
/-- One turn keeps the better one. -/
theorem betterFit_some {best : Option SpanId} (hstep : betterFit h n best k = some id) :
    (∀ b, best = some b → AddressOrdered (h.span id) (h.span b)) ∧
      (n ≤ (h.span k).length → AddressOrdered (h.span id) (h.span k)) := by
  unfold betterFit at hstep
  by_cases hbeats : Beats h n best k
  · rw [if_pos hbeats] at hstep
    cases hstep
    constructor
    · rintro b rfl
      exact (hbeats.2 b rfl).imp_right fun hsame => ⟨hsame.1, Nat.le_of_lt hsame.2⟩
    · exact fun _ => Or.inr ⟨rfl, Nat.le_refl _⟩
  · rw [if_neg hbeats] at hstep
    subst hstep
    constructor
    · intro b hb
      cases hb
      exact Or.inr ⟨rfl, Nat.le_refl _⟩
    · intro hlen
      have hworse : ¬ ((h.span k).length < (h.span id).length ∨
          ((h.span k).length = (h.span id).length ∧ (h.span k).start < (h.span id).start)) := by
        intro hbetter
        apply hbeats
        refine ⟨hlen, fun b hb => ?_⟩
        cases hb
        exact hbetter
      unfold AddressOrdered
      omega

theorem AddressOrdered.trans {s t u : Span} (h₁ : AddressOrdered s t) (h₂ : AddressOrdered t u) :
    AddressOrdered s u := by
  unfold AddressOrdered at *
  omega

omit [PageMap M SpanId] in
/-- The search keeps the best of the spans it saw, the one before them included. -/
theorem foldl_betterFit_best (h : PageHeap M) (n : Nat) (ids : List SpanId)
    (best : Option SpanId) :
    (ids.foldl (betterFit h n) best = none →
      best = none ∧ ∀ k ∈ ids, (h.span k).length < n) ∧
    ∀ id, ids.foldl (betterFit h n) best = some id →
      (∀ b, best = some b → AddressOrdered (h.span id) (h.span b)) ∧
        ∀ k ∈ ids, n ≤ (h.span k).length → AddressOrdered (h.span id) (h.span k) := by
  induction ids generalizing best with
  | nil =>
      refine ⟨fun hnone => ⟨hnone, fun k hk => absurd hk List.not_mem_nil⟩, fun id hid => ⟨?_, ?_⟩⟩
      · rintro b rfl
        cases hid
        exact Or.inr ⟨rfl, Nat.le_refl _⟩
      · exact fun k hk => absurd hk List.not_mem_nil
  | cons j ids ih =>
      rw [List.foldl_cons]
      obtain ⟨ihnone, ihsome⟩ := ih (betterFit h n best j)
      constructor
      · intro hnone
        obtain ⟨hstep, hrest⟩ := ihnone hnone
        obtain ⟨hbest, hj⟩ := betterFit_none hstep
        exact ⟨hbest, List.forall_mem_cons.2 ⟨hj, hrest⟩⟩
      · intro id hid
        obtain ⟨hnow, hrest⟩ := ihsome id hid
        cases hstep : betterFit h n best j with
        | none =>
            obtain ⟨rfl, hj⟩ := betterFit_none hstep
            refine ⟨fun b hb => (nomatch hb), List.forall_mem_cons.2 ⟨fun hlen => ?_, hrest⟩⟩
            omega
        | some i =>
            have hi := hnow i hstep
            obtain ⟨hbefore, hj⟩ := betterFit_some hstep
            exact ⟨fun b hb => hi.trans (hbefore b hb),
              List.forall_mem_cons.2 ⟨fun hlen => hi.trans (hj hlen), hrest⟩⟩

/-- What a search finds, when nothing stops it. -/
def Finds (cfg : Config) (h : PageHeap M) (n : Nat)
    (x : Except Fault (PageHeap M × Option SpanId)) : Prop :=
  (∃ id, BestFit h n id ∧ x = (carve h cfg id n >>= fun h => .ok (h, some id))) ∨
    (¬ HasFit h n ∧ x = .ok (h, none))

/-- The list a free span is on. -/
theorem Settled.on_list (S : Settled h) (hfree : Free h k) :
    (k ∈ h.lists (.normal (listIndex (h.span k).length)) ∧
        (h.span k).location = .onNormalFreelist) ∨
      (k ∈ h.lists (.returned (listIndex (h.span k).length)) ∧
        (h.span k).location = .onReturnedFreelist) := by
  obtain ⟨hl, hinUse⟩ := hfree
  cases hloc : (h.span k).location with
  | inUse => exact absurd hloc hinUse
  | onNormalFreelist =>
      exact Or.inl ⟨S.core.mem_lists.2 ⟨hl, by simp, by rw [headerOf, hloc]⟩, rfl⟩
  | onReturnedFreelist =>
      exact Or.inr ⟨S.core.mem_lists.2 ⟨hl, by simp, by rw [headerOf, hloc]⟩, rfl⟩

/-- A span on a list is free. -/
theorem Settled.free_of_mem (S : Settled h) {hd : Header} (hmem : k ∈ h.lists hd) : Free h k := by
  obtain ⟨hl, -, hheader⟩ := S.core.mem_lists.1 hmem
  refine ⟨hl, fun hloc => ?_⟩
  rw [headerOf, hloc] at hheader
  cases hheader

theorem listIndex_of_lt {m : Nat} (hm : m < kMaxPages) : listIndex m = m := if_pos hm

theorem listIndex_of_le {m : Nat} (hm : kMaxPages ≤ m) : listIndex m = kMaxPages :=
  if_neg (by omega)

/-- The last search, when all spans that are long enough are large. -/
theorem allocLarge_finds (S : Settled h) (cfg : Config) (hlimit : limitPages cfg = 0)
    (hlarge : ∀ k, Free h k → n ≤ (h.span k).length → kMaxPages ≤ (h.span k).length) :
    Finds cfg h n (allocLarge h cfg n) := by
  have hwithin := ensureLimit_within cfg S n false (Or.inl hlimit)
  unfold allocLarge
  rw [allocLargeFrom, (S.bestOf_large n _).1, ok_bind, (S.bestOf_large n _).2, ok_bind]
  simp only [hwithin, ok_bind, if_true]
  generalize hbn : (h.lists (.normal kMaxPages)).foldl (betterFit h n) none = bestNormal
  generalize hb : (h.lists (.returned kMaxPages)).foldl (betterFit h n) bestNormal = best
  have hon : ∀ k, Free h k → n ≤ (h.span k).length →
      k ∈ h.lists (.normal kMaxPages) ∨ k ∈ h.lists (.returned kMaxPages) := by
    intro k hfree hlen
    have hlisted := S.on_list hfree
    rw [listIndex_of_le (hlarge k hfree hlen)] at hlisted
    exact hlisted.imp And.left And.left
  have hnormal := foldl_betterFit_best h n (h.lists (.normal kMaxPages)) none
  have hreturned := foldl_betterFit_best h n (h.lists (.returned kMaxPages)) bestNormal
  rw [hbn] at hnormal
  rw [hb] at hreturned
  cases best with
  | none =>
      obtain ⟨hnone, hshort⟩ := hreturned.1 rfl
      have hshort' := (hnormal.1 hnone).2
      refine Or.inr ⟨?_, ?_⟩
      · rintro ⟨k, hfree, hlen⟩
        rcases hon k hfree hlen with hk | hk
        · have := hshort' k hk
          omega
        · have := hshort k hk
          omega
      · exact ite_self _
  | some id =>
      have hmem : ∃ hd, id ∈ h.lists hd ∧ n ≤ (h.span id).length := by
        rcases foldl_betterFit hb with hn | ⟨hmem, hlen⟩
        · rcases foldl_betterFit (hbn.trans hn) with hn' | ⟨hmem, hlen⟩
          · cases hn'
          · exact ⟨_, hmem, hlen⟩
        · exact ⟨_, hmem, hlen⟩
      obtain ⟨hd, hmem, hlen⟩ := hmem
      have hfree := S.free_of_mem hmem
      obtain ⟨hbefore, hseen⟩ := hreturned.2 id rfl
      have hordered : ∀ k, Free h k → n ≤ (h.span k).length →
          AddressOrdered (h.span id) (h.span k) := by
        intro k hk hklen
        rcases hon k hk hklen with hmem | hmem
        · cases hbest : bestNormal with
          | none =>
              have := (hnormal.1 hbest).2 k hmem
              omega
          | some b => exact (hbefore b hbest).trans ((hnormal.2 b hbest).2 k hmem hklen)
        · exact hseen k hmem hklen
      refine Or.inl ⟨id, ⟨hfree, hlen, ?_⟩, ite_self _⟩
      intro k hk hklen
      unfold Preferred
      rw [if_neg (Nat.not_lt.2 (hlarge id hfree hlen))]
      exact hordered k hk hklen

/-! ## All lists -/

/-- A free span of a short length is on one of the two lists of that length. -/
theorem Settled.on_short (S : Settled h) {s : Nat} (hless : s < kMaxPages) {k : SpanId}
    (hfree : Free h k) (hlen : (h.span k).length = s) :
    (k ∈ h.lists (.normal s) ∧ (h.span k).location = .onNormalFreelist) ∨
      (k ∈ h.lists (.returned s) ∧ (h.span k).location = .onReturnedFreelist) := by
  have hlisted := S.on_list hfree
  rwa [hlen, listIndex_of_lt hless] at hlisted

/-- A free span of the shortest length that fits is a best fit, if it is a normal one or
there is no normal one of this length. -/
theorem bestFit_of_shortest (S : Settled h) {s : Nat} (hs : n ≤ s) (hless : s < kMaxPages)
    (hshort : ∀ k, Free h k → n ≤ (h.span k).length → (h.span k).length < kMaxPages →
      s ≤ (h.span k).length)
    {id : SpanId} (hfree : Free h id) (hlen : (h.span id).length = s)
    (hloc : (h.span id).location = .onNormalFreelist ∨ h.lists (.normal s) = []) :
    BestFit h n id := by
  refine ⟨hfree, by omega, ?_⟩
  intro k hk hklen
  unfold Preferred
  rw [hlen, if_pos hless]
  by_cases hlarge : kMaxPages ≤ (h.span k).length
  · exact Or.inl (by omega)
  · have hge := hshort k hk hklen (by omega)
    by_cases heq : (h.span k).length = s
    · refine Or.inr ⟨heq.symm, ?_⟩
      rcases hloc with hloc | hempty
      · exact Or.inl hloc
      · rcases S.on_short hless hk heq with ⟨hmem, -⟩ | ⟨-, hret⟩
        · rw [hempty] at hmem
          cases hmem
        · exact Or.inr hret
    · exact Or.inl (by omega)

theorem searchFrom_finds (cfg : Config) (hlimit : limitPages cfg = 0) (S : Settled h)
    (count s : Nat) (hs : n ≤ s) (hcount : count = 0 ∧ kMaxPages ≤ s ∨ s + count = kMaxPages)
    (hshort : ∀ k, Free h k → n ≤ (h.span k).length → (h.span k).length < kMaxPages →
      s ≤ (h.span k).length) :
    Finds cfg h n (searchFrom cfg n count s h) := by
  induction count generalizing s with
  | zero =>
      apply allocLarge_finds S cfg hlimit
      intro k hfree hlen
      by_contra hlt
      have := hshort k hfree hlen (by omega)
      omega
  | succ count ih =>
      have hless : s < kMaxPages := by omega
      have hnext : (∀ k, Free h k → (h.span k).length ≠ s) →
          Finds cfg h n (searchFrom cfg n count (s + 1) h) := by
        intro hne
        apply ih (s + 1) (by omega) (by omega)
        intro k hfree hlen hlt
        have hge := hshort k hfree hlen hlt
        have := hne k hfree
        omega
      have hlength : ∀ {k}, listIndex (h.span k).length = s → (h.span k).length = s :=
        fun hindex => (length_of_listIndex hindex).1 hless
      have hbest : ∀ {id}, Free h id → (h.span id).length = s →
          ((h.span id).location = .onNormalFreelist ∨ h.lists (.normal s) = []) →
          BestFit h n id := bestFit_of_shortest S hs hless hshort
      rw [searchFrom]
      cases hnormal : h.lists (.normal s) with
      | cons id rest =>
          have hmem : id ∈ h.lists (.normal s) := by
            rw [hnormal]
            exact List.mem_cons_self
          obtain ⟨-, hloc, hindex⟩ := S.mem_normal hmem
          refine Or.inl ⟨id, hbest (S.free_of_mem hmem) (hlength hindex) (Or.inl hloc), ?_⟩
          simp only
          rw [assert_pos hloc]
          rfl
      | nil =>
          simp only
          cases hreturned : h.lists (.returned s) with
          | cons id rest =>
              have hmem : id ∈ h.lists (.returned s) := by
                rw [hreturned]
                exact List.mem_cons_self
              obtain ⟨-, hloc, hindex⟩ := S.mem_returned hmem
              refine Or.inl ⟨id, hbest (S.free_of_mem hmem) (hlength hindex) (Or.inr hnormal), ?_⟩
              rw [if_pos (by simp), ensureLimit_within cfg S n true (Or.inl hlimit)]
              simp only [ok_bind, if_true, hreturned]
              rw [assert_pos hloc]
              rfl
          | nil =>
              rw [if_neg (by simp)]
              apply hnext
              intro k hfree hlen
              rcases S.on_short hless hfree hlen with ⟨hmem, -⟩ | ⟨hmem, -⟩
              · rw [hnormal] at hmem
                cases hmem
              · rw [hreturned] at hmem
                cases hmem

theorem search_finds (S : Settled h) (cfg : Config) (hlimit : limitPages cfg = 0) (hn : 0 < n) :
    Finds cfg h n (searchFreeAndLargeLists h cfg n) := by
  unfold searchFreeAndLargeLists
  rw [S.core.check_ok, ok_bind, assert_pos hn, ok_bind]
  exact searchFrom_finds cfg hlimit S _ _ (Nat.le_refl n) (by omega) fun k _ hlen _ => hlen

/-! ## `New` -/

theorem new_of_fit (S : Settled h) (hlimit : limitPages cfg = 0) (hn : 0 < n) (hfit : HasFit h n) :
    ∃ id, BestFit h n id ∧
      ((new h cfg n = .error .crash ∧ Starved cfg h) ∨
        ∃ h', new h cfg n = .ok (h', some id) ∧
          held h' = Function.update (held h) id
            (some { h.span id with length := n, location := .inUse })) := by
  rcases search_finds S cfg hlimit hn with ⟨id, hbest, hsearch⟩ | ⟨hno, -⟩
  · have hrun : new h cfg n = carve h cfg id n >>= fun h => .ok (h, some id) := by
      unfold new
      rw [S.core.check_ok, ok_bind, assert_pos hn, ok_bind, hsearch]
      cases carve h cfg id n <;> rfl
    rw [hrun]
    refine ⟨id, hbest, ?_⟩
    rcases carve_ok S hbest.1.1 hbest.1.2 cfg hn hbest.2.1 with
      ⟨hcrash, hstarved⟩ | ⟨h', hcarve, -, -, hheld⟩
    · rw [hcrash]
      exact Or.inl ⟨rfl, hstarved⟩
    · rw [hcarve]
      exact Or.inr ⟨h', rfl, hheld⟩
  · exact absurd hfit hno

/-- As long as a free span fits, `New` takes the best one, from its first page on.  It needs
a span of its own for the rest, and the process ends if there is no memory for that. -/
theorem new_takes_best (R : Reached cfg h) (hlimit : limitPages cfg = 0) (hn : 0 < n)
    (hfit : HasFit h n) :
    ∃ id, BestFit h n id ∧
      ((new h cfg n = .error .crash ∧ Starved cfg h) ∨
        ∃ h', new h cfg n = .ok (h', some id) ∧
          held h' = Function.update (held h) id
            (some { h.span id with length := n, location := .inUse })) :=
  new_of_fit R.invariant.1 hlimit hn hfit

/-- Two free spans have a page, and the shorter one is taken. -/
theorem new_takes_best_shorter : ∃ id, BestFit afterDelete 1 id ∧
    ((new afterDelete oneRange 1 = .error .crash ∧ Starved oneRange afterDelete) ∨
      ∃ h', new afterDelete oneRange 1 = .ok (h', some id) ∧
        held h' = Function.update (held afterDelete) id
          (some { afterDelete.span id with length := 1, location := .inUse })) :=
  new_takes_best afterDelete_reached rfl Nat.one_pos
    ⟨0, afterDelete_free.1, by rw [afterDelete_spans.2.1]⟩

/-! ## When `New` fails -/

/-- A search that fails found no fit. -/
theorem Finds.none {x : Except Fault (PageHeap M × Option SpanId)} (hfinds : Finds cfg h n x)
    {k : PageHeap M} (hx : x = .ok (k, none)) : ¬ HasFit h n ∧ k = h := by
  rcases hfinds with ⟨id, hbest, hsearch⟩ | ⟨hno, hsearch⟩
  · rw [hsearch] at hx
    cases hcarve : carve h cfg id n with
    | error e =>
        rw [hcarve] at hx
        cases hx
    | ok h' =>
        rw [hcarve] at hx
        cases hx
  · rw [hsearch] at hx
    cases hx
    exact ⟨hno, rfl⟩

/-- What the system answers to `GrowHeap`, which asks for 1 MiB at least, and then for no
more than it needs. -/
def answer (cfg : Config) (h : PageHeap M) (n : Nat) : Option (Nat × Nat) :=
  let ask := if kMinSystemAlloc < n then n else kMinSystemAlloc
  match cfg.systemAlloc h.calls h.taken (ask <<< kPageShift) with
  | some range => some range
  | none =>
    if n < ask then cfg.systemAlloc (h.calls + 1) h.taken (n <<< kPageShift) else none

/-- The heap cannot grow by `n` pages: they are too many, the system gives no memory, or the
page map has no room for what it gives. -/
def Refuses (cfg : Config) (h : PageHeap M) (n : Nat) : Prop :=
  kMaxValidPages < n ∨ answer cfg h n = none ∨
    ∃ ptr size, answer cfg h n = some (ptr, size) ∧
      (PageMap.ensure (mapForGrowth h (size >>> kPageShift)) (ptr >>> kPageShift - 1)
        (size >>> kPageShift + 2)).2 = false

/-- The heap `GrowHeap` is called on: coalesced by a release, if that is worth it. -/
def Coalesced (cfg : Config) (h : PageHeap M) (n : Nat) (k : PageHeap M) : Prop :=
  if shouldCoalesce h n then ∃ m, releaseAtLeastNPages h cfg 0x7fffffff = .ok (k, m) else k = h

/-- New memory is left out only if the page map cannot be extended. -/
theorem addRange_refused {ptr size : Nat} (hrun : addRange h cfg ptr size = .ok (h', false)) :
    (PageMap.ensure (mapForGrowth h (size >>> kPageShift)) (ptr >>> kPageShift - 1)
      (size >>> kPageShift + 2)).2 = false := by
  unfold addRange countGrowth at hrun
  cases hmeta : cfg.metadata h.calls with
  | none =>
      rw [hmeta] at hrun
      cases hrun
  | some bytes =>
      rw [hmeta] at hrun
      simp only [ok_bind] at hrun
      obtain ⟨-, -, hrun⟩ := ok_of_bind hrun
      cases hensured : (PageMap.ensure (mapForGrowth h (size >>> kPageShift))
        (ptr >>> kPageShift - 1) (size >>> kPageShift + 2)).2 with
      | false => rfl
      | true =>
          rw [hensured, if_pos rfl] at hrun
          obtain ⟨⟨h₁, id⟩, -, hrun⟩ := ok_of_bind hrun
          obtain ⟨h₂, -, hrun⟩ := ok_of_bind hrun
          obtain ⟨h₃, -, hrun⟩ := ok_of_bind hrun
          obtain ⟨-, -, hrun⟩ := ok_of_bind hrun
          obtain ⟨-, -, hrun⟩ := ok_of_bind hrun
          cases hrun

/-- Without a limit each try of `GrowHeap` is one request to the system. -/
theorem tryGrow_unlimited (S : Settled h) (hlimit : limitPages cfg = 0) (ask : Nat) :
    tryGrow h cfg ask = .ok (systemAlloc h cfg (ask <<< kPageShift)) := by
  unfold tryGrow
  rw [ensureLimit_within cfg S ask true (Or.inl hlimit)]
  rfl

theorem systemAlloc_given {bytes ptr size : Nat}
    (hsome : cfg.systemAlloc h.calls h.taken bytes = some (ptr, size)) :
    ∃ k, systemAlloc h cfg bytes = (k, some (ptr, size)) ∧
      ∀ ask, mapForGrowth k ask = mapForGrowth h ask := by
  unfold systemAlloc
  rw [hsome]
  exact ⟨_, rfl, fun _ => rfl⟩

theorem growHeap_refused (S : Settled h) (hlimit : limitPages cfg = 0)
    (hrun : growHeap h cfg n = .ok (h', false)) : Refuses cfg h n := by
  unfold growHeap at hrun
  rw [assert_pos (show kMinSystemAlloc ≤ kMaxPages from Nat.le_refl _), ok_bind] at hrun
  by_cases hmax : kMaxValidPages < n
  · exact Or.inl hmax
  · refine Or.inr ?_
    rw [if_neg hmax] at hrun
    unfold answer
    generalize (if kMinSystemAlloc < n then n else kMinSystemAlloc) = ask at hrun
    simp only [tryGrow_unlimited S hlimit, ok_bind] at hrun ⊢
    cases hask : cfg.systemAlloc h.calls h.taken (ask <<< kPageShift) with
    | some range =>
        obtain ⟨ptr, size⟩ := range
        obtain ⟨k, hgiven, hmap⟩ := systemAlloc_given hask
        rw [hgiven] at hrun
        have hrefused := addRange_refused hrun
        rw [hmap] at hrefused
        exact Or.inr ⟨ptr, size, rfl, hrefused⟩
    | none =>
        rw [(systemAlloc_none S hask).1] at hrun
        simp only at hrun ⊢
        by_cases hless : n < ask
        · rw [if_pos hless, tryGrow_unlimited (S.tick _) hlimit, ok_bind] at hrun
          rw [if_pos hless]
          cases hagain : cfg.systemAlloc (h.calls + 1) h.taken (n <<< kPageShift) with
          | none => exact Or.inl rfl
          | some range =>
              obtain ⟨ptr, size⟩ := range
              obtain ⟨k, hgiven, hmap⟩ :=
                systemAlloc_given (h := { h with calls := h.calls + 1 }) hagain
              rw [hgiven] at hrun
              have hrefused := addRange_refused hrun
              rw [hmap] at hrefused
              exact Or.inr ⟨ptr, size, rfl, hrefused⟩
        · rw [if_neg hless]
          exact Or.inl rfl

theorem growAndSearch_fails (S : Settled h) (hlimit : limitPages cfg = 0) (hn : 0 < n)
    (hrelease : Obliging cfg h) (hfail : growAndSearch h cfg n = .ok (h', none)) :
    Refuses cfg h n := by
  unfold growAndSearch at hfail
  rcases growHeap_ok S cfg hn hrelease with ⟨hcrash, -⟩ | ⟨h₁, b, hgrow, S₁, -, -, hfit⟩
  · rw [hcrash] at hfail
    cases hfail
  · cases b with
    | false => exact growHeap_refused S hlimit hgrow
    | true =>
        rw [hgrow] at hfail
        exact absurd (hfit rfl) ((search_finds S₁ cfg hlimit hn).none hfail).1

/-- `New` fails only when no free span is long enough, not even after a release if one was
due, and the system or the page map then refuses what `GrowHeap` asks for. -/
theorem new_fails (R : Reached cfg h) (hlimit : limitPages cfg = 0) (hn : 0 < n)
    (hfail : new h cfg n = .ok (h', none)) :
    ¬ HasFit h n ∧ ∃ k, Coalesced cfg h n k ∧ ¬ HasFit k n ∧ Refuses cfg k n := by
  obtain ⟨S, hrelease⟩ := R.invariant
  unfold new at hfail
  rw [S.core.check_ok, ok_bind, assert_pos hn, ok_bind] at hfail
  obtain ⟨⟨h₁, result⟩, hsearch, hrest⟩ := ok_of_bind hfail
  cases result with
  | some id => cases hrest
  | none =>
      obtain ⟨hfit, hsame⟩ := (search_finds S cfg hlimit hn).none hsearch
      rw [hsame] at hrest
      refine ⟨hfit, ?_⟩
      unfold Coalesced
      simp only at hrest
      by_cases hcoalesce : shouldCoalesce h n = true
      · obtain ⟨k, m, hrun, S', hstays, -⟩ := releaseAtLeastNPages_ok S cfg 0x7fffffff
        rw [if_pos hcoalesce, hrun, ok_bind] at hrest
        refine ⟨k, by rw [if_pos hcoalesce]; exact ⟨m, hrun⟩, ?_⟩
        obtain ⟨⟨h₂, result⟩, hsearch', hgrow⟩ := ok_of_bind hrest
        cases result with
        | some id => cases hgrow
        | none =>
            obtain ⟨hfit', hsame'⟩ := (search_finds S' cfg hlimit hn).none hsearch'
            rw [hsame'] at hgrow
            exact ⟨hfit', growAndSearch_fails S' hlimit hn (hrelease.grows hstays.grows) hgrow⟩
      · rw [if_neg hcoalesce] at hrest
        exact ⟨h, by rw [if_neg hcoalesce], hfit,
          growAndSearch_fails S hlimit hn hrelease hrest⟩

/-- All pages are free, but not in one span. -/
theorem new_fails_apart : ¬ HasFit afterDelete 128 ∧ ∃ k, Coalesced oneRange afterDelete 128 k ∧
    ¬ HasFit k 128 ∧ Refuses oneRange k 128 := by
  have heval : (new afterDelete oneRange 128).toOption.map (fun r => r.2) = some none := by
    decide +kernel
  cases hnew : new afterDelete oneRange 128 with
  | error e =>
      rw [hnew] at heval
      cases heval
  | ok r =>
      obtain ⟨h', result⟩ := r
      rw [hnew] at heval
      cases Option.some.inj heval
      exact new_fails afterDelete_reached rfl (by decide) hnew

end SatAllocatorTest.Ports.TCmalloc.PageHeap
