import SatAllocatorTest.Ports.PageHeapFit

/-!
# What the page heap reports

The consistency check, the statistics of the free lists, and the enumeration of all
spans for heap dumps (`GetNextRange`, `IterateOverRanges`).  The fraction in use of a range
is a floating-point number and left out.
-/

namespace SatAllocatorTest.Ports.TCmalloc.PageHeap

open SatAllocatorTest.Verified.Tilings

variable {M : Type} [PageMap M SpanId]

/-- The loop of `CheckList`. -/
def checkSpans (h : PageHeap M) (minPages maxPages : Nat) (freelist : Location) :
    List SpanId → Except Fault Unit
  | [] => .ok ()
  | s :: rest => do
    checkCondition ((h.span s).location = freelist)
    checkCondition (minPages ≤ (h.span s).length)
    checkCondition ((h.span s).length ≤ maxPages)
    checkCondition (getDescriptor h (h.span s).start = some s)
    checkCondition (getDescriptor h ((h.span s).start + (h.span s).length - 1) = some s)
    checkSpans h minPages maxPages freelist rest

/-- `CheckList`. -/
def checkList (h : PageHeap M) (list : Header) (minPages maxPages : Nat) (freelist : Location) :
    Except Fault Unit :=
  checkSpans h minPages maxPages freelist (h.lists list)

/-- The loop of `CheckExpensive` over the lists from `s` on. -/
def checkLists (h : PageHeap M) : (count s : Nat) → Except Fault Unit
  | 0, _ => .ok ()
  | count + 1, s => do
    checkList h (.normal s) s s .onNormalFreelist
    checkList h (.returned s) s s .onReturnedFreelist
    checkLists h count (s + 1)

/-- `CheckExpensive`. -/
def checkExpensive (h : PageHeap M) : Except Fault Unit := do
  check h
  checkList h (.normal kMaxPages) kMaxPages 1000000000 .onNormalFreelist
  checkList h (.returned kMaxPages) kMaxPages 1000000000 .onReturnedFreelist
  checkLists h (kMaxPages - 1) 1

structure SmallSpanStats where
  normalLength : Nat → Nat
  returnedLength : Nat → Nat

structure LargeSpanStats where
  spans : Nat
  normalPages : Nat
  returnedPages : Nat

/-- `GetSmallSpanStats`, the entries `s < kMaxPages` of the arrays. -/
def getSmallSpanStats (h : PageHeap M) : SmallSpanStats where
  normalLength s := (h.lists (.normal s)).length
  returnedLength s := (h.lists (.returned s)).length

/-- `GetLargeSpanStats`. -/
def getLargeSpanStats (h : PageHeap M) : LargeSpanStats :=
  let normal := (h.lists (.normal kMaxPages)).foldl (fun (r : LargeSpanStats) s =>
    { r with normalPages := r.normalPages + (h.span s).length, spans := r.spans + 1 }) ⟨0, 0, 0⟩
  (h.lists (.returned kMaxPages)).foldl (fun (r : LargeSpanStats) s =>
    { r with returnedPages := r.returnedPages + (h.span s).length, spans := r.spans + 1 }) normal

inductive RangeType where
  | inuse
  | free
  | unmapped
  deriving DecidableEq

/-- `base::MallocRange`. -/
structure MallocRange where
  address : Nat
  length : Nat
  type : RangeType
  deriving DecidableEq

/-- What `GetNextRange` stores about a span. -/
def rangeOf (s : Span) : MallocRange where
  address := s.start <<< kPageShift
  length := s.length <<< kPageShift
  type :=
    match s.location with
    | .inUse => .inuse
    | .onNormalFreelist => .free
    | .onReturnedFreelist => .unmapped

/-- `GetNextRange`. -/
def getNextRange (h : PageHeap M) (start : Nat) : Option MallocRange :=
  (PageMap.next h.pagemap start).map fun id => rangeOf (h.span id)

/-- The inner loop of `IterateOverRanges`: up to `room` ranges into the buffer, and whether
the enumeration is done. -/
def fillRanges (h : PageHeap M) : (room page : Nat) → List MallocRange × Nat × Bool
  | 0, page => ([], page, false)
  | room + 1, page =>
    match getNextRange h page with
    | none => ([], page, true)
    | some r =>
      let limit := r.address + r.length
      let (rest, page, done) := fillRanges h room ((limit + kPageSize - 1) >>> kPageShift)
      (r :: rest, page, done)

def kNumRanges : Nat := 16

/-- The outer loop: the ranges `func` is called on. -/
def iterateFrom (h : PageHeap M) : (fuel page : Nat) → Except Fault (List MallocRange)
  | 0, _ => .error .outOfFuel
  | fuel + 1, page => do
    let (ranges, page, done) := fillRanges h kNumRanges page
    if done then pure ranges
    else do
      let rest ← iterateFrom h fuel page
      pure (ranges ++ rest)

/-- `IterateOverRanges`; every full buffer has a span of its own. -/
def iterateOverRanges (h : PageHeap M) : Except Fault (List MallocRange) :=
  iterateFrom h (h.freshSpan + 1) 1

variable {h : PageHeap M} {cfg : Config} {id : SpanId}

/-! ## `CheckExpensive` -/

theorem checkCondition_pos {c : Prop} [Decidable c] (h : c) : checkCondition c = .ok () := if_pos h

theorem checkSpans_ok_iff {minPages maxPages : Nat} {freelist : Location} (ids : List SpanId)
    (hids : ∀ s ∈ ids, (h.span s).location = freelist ∧ minPages ≤ (h.span s).length ∧
      getDescriptor h (h.span s).start = some s ∧
      getDescriptor h ((h.span s).start + (h.span s).length - 1) = some s) :
    checkSpans h minPages maxPages freelist ids = .ok () ↔
      ∀ s ∈ ids, (h.span s).length ≤ maxPages := by
  induction ids with
  | nil => exact iff_of_true rfl fun s hs => absurd hs List.not_mem_nil
  | cons s ids ih =>
      obtain ⟨hself, hrest⟩ := List.forall_mem_cons.1 hids
      rw [checkSpans, checkCondition_pos hself.1, ok_bind, checkCondition_pos hself.2.1, ok_bind,
        List.forall_mem_cons, ← ih hrest]
      by_cases hle : (h.span s).length ≤ maxPages
      · rw [checkCondition_pos hle, ok_bind, checkCondition_pos hself.2.2.1, ok_bind,
          checkCondition_pos hself.2.2.2, ok_bind]
        exact (and_iff_right hle).symm
      · rw [checkCondition, if_neg hle]
        exact iff_of_false (by rintro ⟨⟩) fun hand => hle hand.1

/-- A list with the spans of one location that belong there. -/
theorem Settled.checkList_ok_iff (S : Settled h) (list : Header) (minPages maxPages : Nat)
    (freelist : Location)
    (hlist : ∀ s : Span, headerOf s = some list → s.location = freelist ∧ minPages ≤ s.length) :
    checkList h list minPages maxPages freelist = .ok () ↔
      ∀ s ∈ h.lists list, (h.span s).length ≤ maxPages := by
  apply checkSpans_ok_iff
  intro s hs
  obtain ⟨hl, -, hheader⟩ := S.core.mem_lists.1 hs
  have hboth := hlist _ hheader
  exact ⟨hboth.1, hboth.2, S.core.first hl, S.core.last hl⟩

/-- The lists of one length pass their checks. -/
theorem Settled.checkLists_ok (S : Settled h) (count s : Nat) (hs : s + count ≤ kMaxPages) :
    checkLists h count s = .ok () := by
  induction count generalizing s with
  | zero => rfl
  | succ count ih =>
      have hnormal : checkList h (.normal s) s s .onNormalFreelist = .ok () := by
        apply (S.checkList_ok_iff _ _ _ _ _).2
        · intro k hk
          have hheader := header_normal (S.core.mem_lists.1 hk).2.2
          have := (length_of_listIndex hheader.2).1 (by omega)
          omega
        · intro k hheader
          have hk := header_normal hheader
          have := (length_of_listIndex hk.2).1 (by omega)
          exact ⟨hk.1, by omega⟩
      have hreturned : checkList h (.returned s) s s .onReturnedFreelist = .ok () := by
        apply (S.checkList_ok_iff _ _ _ _ _).2
        · intro k hk
          have hheader := header_returned (S.core.mem_lists.1 hk).2.2
          have := (length_of_listIndex hheader.2).1 (by omega)
          omega
        · intro k hheader
          have hk := header_returned hheader
          have := (length_of_listIndex hk.2).1 (by omega)
          exact ⟨hk.1, by omega⟩
      rw [checkLists, hnormal, ok_bind, hreturned, ok_bind]
      exact ih (s + 1) (by omega)

/-- `CheckExpensive` passes in every reached state, unless a free span is longer than the
1000000000 pages it allows. -/
theorem checkExpensive_ok_iff (R : Reached cfg h) :
    checkExpensive h = .ok () ↔ ∀ id, Free h id → (h.span id).length ≤ 1000000000 := by
  have S := R.invariant.1
  have hlarge : ∀ m, listIndex m = kMaxPages → kMaxPages ≤ m :=
    fun m hindex => (length_of_listIndex hindex).2 rfl
  have hnormal := S.checkList_ok_iff (.normal kMaxPages) kMaxPages 1000000000
    .onNormalFreelist (by
      intro s hheader
      have hs := header_normal hheader
      exact ⟨hs.1, hlarge _ hs.2⟩)
  have hreturned := S.checkList_ok_iff (.returned kMaxPages) kMaxPages 1000000000
    .onReturnedFreelist (by
      intro s hheader
      have hs := header_returned hheader
      exact ⟨hs.1, hlarge _ hs.2⟩)
  have hsmall := S.checkLists_ok (kMaxPages - 1) 1 (by decide)
  unfold checkExpensive
  rw [S.core.check_ok, ok_bind]
  constructor
  · intro hok id hfree
    cases hn : checkList h (.normal kMaxPages) kMaxPages 1000000000 .onNormalFreelist with
    | error e =>
        rw [hn] at hok
        cases hok
    | ok u =>
        rw [hn, ok_bind] at hok
        cases hr : checkList h (.returned kMaxPages) kMaxPages 1000000000 .onReturnedFreelist with
        | error e =>
            rw [hr] at hok
            cases hok
        | ok u' =>
            by_cases hlen : (h.span id).length < kMaxPages
            · have : kMaxPages ≤ 1000000000 := by decide
              omega
            · have hlisted := S.on_list hfree
              rw [listIndex_of_le (by omega)] at hlisted
              rcases hlisted with ⟨hmem, -⟩ | ⟨hmem, -⟩
              · exact hnormal.1 hn id hmem
              · exact hreturned.1 hr id hmem
  · intro hall
    rw [hnormal.2 fun s hs => hall s (S.free_of_mem hs), ok_bind,
      hreturned.2 fun s hs => hall s (S.free_of_mem hs), ok_bind]
    exact hsmall

theorem checkExpensive_ok_iff_delete : checkExpensive afterDelete = .ok () ↔
    ∀ id, Free afterDelete id → (afterDelete.span id).length ≤ 1000000000 :=
  checkExpensive_ok_iff afterDelete_reached

/-! ## Span statistics -/

omit [PageMap M SpanId] in
theorem largeSpanStats_eq (h : PageHeap M) :
    (getLargeSpanStats h).spans =
        (h.lists (.normal kMaxPages)).length + (h.lists (.returned kMaxPages)).length ∧
      (getLargeSpanStats h).normalPages = pagesOn h (.normal kMaxPages) ∧
      (getLargeSpanStats h).returnedPages = pagesOn h (.returned kMaxPages) := by
  have hnormal : ∀ (ids : List SpanId) (r : LargeSpanStats),
      ids.foldl (fun (r : LargeSpanStats) s =>
        { r with normalPages := r.normalPages + (h.span s).length, spans := r.spans + 1 }) r =
      { r with
        normalPages := r.normalPages + (ids.map fun id => (h.span id).length).sum
        spans := r.spans + ids.length } := by
    intro ids
    induction ids with
    | nil => exact fun r => rfl
    | cons k ids ih =>
        intro r
        rw [List.foldl_cons, ih, List.map_cons, List.sum_cons, List.length_cons]
        simp only [LargeSpanStats.mk.injEq, and_true]
        omega
  have hreturned : ∀ (ids : List SpanId) (r : LargeSpanStats),
      ids.foldl (fun (r : LargeSpanStats) s =>
        { r with returnedPages := r.returnedPages + (h.span s).length, spans := r.spans + 1 }) r =
      { r with
        returnedPages := r.returnedPages + (ids.map fun id => (h.span id).length).sum
        spans := r.spans + ids.length } := by
    intro ids
    induction ids with
    | nil => exact fun r => rfl
    | cons k ids ih =>
        intro r
        rw [List.foldl_cons, ih, List.map_cons, List.sum_cons, List.length_cons]
        simp only [LargeSpanStats.mk.injEq, true_and]
        omega
  unfold getLargeSpanStats
  simp only
  rw [hnormal, hreturned]
  simp only [Nat.zero_add, pagesOn, and_self]

/-- All spans on a list of short ones have its length. -/
theorem Settled.pagesOn_small (S : Settled h) {s : Nat} (hs : s < kMaxPages) :
    pagesOn h (.normal s) = s * (h.lists (.normal s)).length ∧
      pagesOn h (.returned s) = s * (h.lists (.returned s)).length := by
  have hsum : ∀ hd, (∀ k ∈ h.lists hd, (h.span k).length = s) →
      pagesOn h hd = s * (h.lists hd).length := by
    intro hd hall
    unfold pagesOn
    rw [List.map_congr_left hall, List.map_const', List.sum_replicate_nat, Nat.mul_comm]
  constructor
  · apply hsum
    intro k hk
    exact (length_of_listIndex (header_normal (S.core.mem_lists.1 hk).2.2).2).1 hs
  · apply hsum
    intro k hk
    exact (length_of_listIndex (header_returned (S.core.mem_lists.1 hk).2.2).2).1 hs

/-- In every reached state the statistics of the small and the large spans add up to the
free and the unmapped bytes, and these with the committed ones to the system's. -/
theorem spanStats_add_up (R : Reached cfg h) :
    (∑ s ∈ Finset.range kMaxPages, s * (getSmallSpanStats h).normalLength s +
        (getLargeSpanStats h).normalPages) * kPageSize = h.stats.freeBytes.toNat ∧
      (∑ s ∈ Finset.range kMaxPages, s * (getSmallSpanStats h).returnedLength s +
        (getLargeSpanStats h).returnedPages) * kPageSize = h.stats.unmappedBytes.toNat ∧
      h.stats.unmappedBytes + h.stats.committedBytes = h.stats.systemBytes := by
  have S := R.invariant.1
  have hlt := S.core.freePages_lt
  obtain ⟨-, hnormal, hreturned⟩ := largeSpanStats_eq h
  have hsums : ∑ s ∈ Finset.range kMaxPages, s * (h.lists (.normal s)).length =
        ∑ s ∈ Finset.range kMaxPages, pagesOn h (.normal s) ∧
      ∑ s ∈ Finset.range kMaxPages, s * (h.lists (.returned s)).length =
        ∑ s ∈ Finset.range kMaxPages, pagesOn h (.returned s) := by
    constructor
    · apply Finset.sum_congr rfl
      intro s hs
      exact (S.pagesOn_small (Finset.mem_range.1 hs)).1.symm
    · apply Finset.sum_congr rfl
      intro s hs
      exact (S.pagesOn_small (Finset.mem_range.1 hs)).2.symm
  refine ⟨?_, ?_, S.balanced⟩
  · rw [S.core.free, bytesOf_toNat (by omega), hnormal, totalPages, Finset.sum_range_succ, ← hsums.1]
    rfl
  · rw [S.core.unmapped, bytesOf_toNat (by omega), hreturned, totalPages, Finset.sum_range_succ,
      ← hsums.2]
    rfl

theorem spanStats_add_up_delete :
    (∑ s ∈ Finset.range kMaxPages, s * (getSmallSpanStats afterDelete).normalLength s +
        (getLargeSpanStats afterDelete).normalPages) * kPageSize =
          afterDelete.stats.freeBytes.toNat ∧
      (∑ s ∈ Finset.range kMaxPages, s * (getSmallSpanStats afterDelete).returnedLength s +
        (getLargeSpanStats afterDelete).returnedPages) * kPageSize =
          afterDelete.stats.unmappedBytes.toNat ∧
      afterDelete.stats.unmappedBytes + afterDelete.stats.committedBytes =
        afterDelete.stats.systemBytes :=
  spanStats_add_up afterDelete_reached

/-- Aggressive mode switched on while 127 free pages are backed by memory: a release
decommits them twice, and the committed bytes wrap around. -/
example :
    let h := next (next (next emptyHeap (.new 1)) (.setAggressiveDecommit true))
      (.releaseAtLeastNPages 1)
    h.stats.systemBytes = bytesOf 128 ∧ h.stats.unmappedBytes = bytesOf 127 ∧
      h.stats.committedBytes = 0 - bytesOf 126 := by
  decide +kernel

/-! ## `IterateOverRanges` -/

/-- No span goes across the beginning of the page. -/
def Boundary (h : PageHeap M) (page : Nat) : Prop :=
  ∀ id, Live h id → (h.span id).start + (h.span id).length ≤ page ∨ page ≤ (h.span id).start

/-- `ids` are the spans between two boundaries, in the order of their addresses. -/
structure Between (h : PageHeap M) (page page' : Nat) (ids : List SpanId) : Prop where
  le : page ≤ page'
  boundary : Boundary h page'
  mem : ∀ id, id ∈ ids ↔ Live h id ∧ page ≤ (h.span id).start ∧ (h.span id).start < page'
  sorted : ids.Pairwise fun i j => (h.span i).start + (h.span i).length ≤ (h.span j).start

/-- From a boundary on, `Next` finds the next span. -/
theorem Settled.next_span (S : Settled h) {page : Nat} (hpage : Boundary h page) :
    (∀ id, PageMap.next h.pagemap page = some id → Live h id ∧ page ≤ (h.span id).start ∧
      ∀ k, Live h k → page ≤ (h.span k).start →
        k = id ∨ (h.span id).start + (h.span id).length ≤ (h.span k).start) ∧
    (PageMap.next h.pagemap page = none → ∀ k, Live h k → (h.span k).start < page) := by
  have C := S.core
  obtain ⟨hsome, hnone⟩ := PageMap.next_spec h.pagemap page
  constructor
  · intro id hid
    obtain ⟨j, hj, hget, hbefore⟩ := hsome id hid
    obtain ⟨l, b, m, hl, hlo, hhi⟩ := C.tiled.outside hget
    obtain ⟨hlive, rfl, rfl⟩ := live_of_piece hl
    have hstart : page ≤ (h.span l).start := by
      rcases hpage l hlive with hend | hstart
      · omega
      · exact hstart
    have hfirst : (h.span l).start = j := by
      by_contra hne
      have hempty := hbefore (h.span l).start hstart (by omega)
      exact absurd ((C.first hlive).symm.trans hempty) (by simp)
    have hsame : l = id := by
      have hfound := C.first hlive
      rw [hfirst] at hfound
      exact Option.some.inj (hfound.symm.trans hget)
    subst hsame
    refine ⟨hlive, hstart, fun k hk hkpage => ?_⟩
    by_cases hkl : k = l
    · exact Or.inl hkl
    · have hafter : (h.span l).start ≤ (h.span k).start := by
        by_contra hlt
        have hempty := hbefore (h.span k).start hkpage (by omega)
        exact absurd ((C.first hk).symm.trans hempty) (by simp)
      have hpos := C.length_pos hk
      have hoff := C.tiled.off (piece_eq hlive) (piece_eq hk) hkl (Nat.le_refl _) (by omega)
      omega
  · intro hempty k hk
    by_contra hge
    have hfound := hnone hempty (h.span k).start (by omega)
    exact absurd ((C.first hk).symm.trans hfound) (by simp)

/-- The page behind a range. -/
theorem next_page (s : Span) :
    ((rangeOf s).address + (rangeOf s).length + kPageSize - 1) >>> kPageShift =
      s.start + s.length := by
  simp only [rangeOf]
  rw [Nat.shiftLeft_eq, Nat.shiftLeft_eq, Nat.shiftRight_eq_div_pow, ← Nat.add_mul]
  change ((s.start + s.length) * 2 ^ 13 + 2 ^ 13 - 1) / 2 ^ 13 = _
  omega

theorem fillRanges_ok (S : Settled h) (room page : Nat) (hpage : Boundary h page) :
    ∃ ids page' done,
      fillRanges h room page = (ids.map fun id => rangeOf (h.span id), page', done) ∧
      Between h page page' ids ∧
      (done = true → ∀ k, Live h k → (h.span k).start < page') ∧
      (done = false → ids.length = room) := by
  have hnil : Between h page page [] := by
    refine ⟨Nat.le_refl _, hpage, fun id => ?_, List.Pairwise.nil⟩
    exact iff_of_false List.not_mem_nil fun hcond => by omega
  induction room generalizing page with
  | zero => exact ⟨[], page, false, rfl, hnil, fun hdone => (nomatch hdone), fun _ => rfl⟩
  | succ room ih =>
      rw [fillRanges, getNextRange]
      obtain ⟨hsome, hnone⟩ := S.next_span hpage
      cases hnext : PageMap.next h.pagemap page with
      | none => exact ⟨[], page, true, rfl, hnil, fun _ => hnone hnext, fun hdone => (nomatch hdone)⟩
      | some id =>
          obtain ⟨hl, hstart, hafter⟩ := hsome id hnext
          have hpos := S.core.length_pos hl
          have hend : Boundary h ((h.span id).start + (h.span id).length) := by
            intro k hk
            rcases hpage k hk with hle | hge
            · exact Or.inl (by omega)
            · rcases hafter k hk hge with rfl | hle
              · exact Or.inl (Nat.le_refl _)
              · exact Or.inr hle
          obtain ⟨ids, page', done, hrun, B, hdone, hfull⟩ := ih _ hend (by
            refine ⟨Nat.le_refl _, hend, fun id => ?_, List.Pairwise.nil⟩
            exact iff_of_false List.not_mem_nil fun hcond => by omega)
          have hle := B.le
          refine ⟨id :: ids, page', done, ?_, ⟨by omega, B.boundary, ?_, ?_⟩, hdone, ?_⟩
          · simp only [Option.map_some, next_page, hrun, List.map_cons]
          · intro k
            rw [List.mem_cons, B.mem]
            constructor
            · rintro (rfl | ⟨h1, h2, h3⟩)
              · exact ⟨hl, hstart, by omega⟩
              · exact ⟨h1, by omega, h3⟩
            · rintro ⟨h1, h2, h3⟩
              rcases hafter k h1 h2 with heq | hge
              · exact Or.inl heq
              · exact Or.inr ⟨h1, hge, h3⟩
          · apply List.Pairwise.cons _ B.sorted
            intro k hk
            exact ((B.mem k).1 hk).2.1
          · intro hd
            rw [List.length_cons, hfull hd]

/-- The spans that are not enumerated yet. -/
def remaining (h : PageHeap M) (page : Nat) : Finset SpanId :=
  (Finset.range h.freshSpan).filter fun id => Live h id ∧ page ≤ (h.span id).start

theorem iterateFrom_ok (S : Settled h) (fuel page : Nat) (hpage : Boundary h page)
    (hfuel : (remaining h page).card < fuel) :
    ∃ ids : List SpanId, iterateFrom h fuel page = .ok (ids.map fun id => rangeOf (h.span id)) ∧
      (∀ id, id ∈ ids ↔ Live h id ∧ page ≤ (h.span id).start) ∧
      ids.Pairwise fun i j => (h.span i).start + (h.span i).length ≤ (h.span j).start := by
  induction fuel generalizing page with
  | zero => exact absurd hfuel (Nat.not_lt_zero _)
  | succ fuel ih =>
      obtain ⟨ids, page', done, hrun, B, hdone, hfull⟩ := fillRanges_ok S kNumRanges page hpage
      rw [iterateFrom, hrun]
      simp only
      cases hd : done with
      | true =>
          refine ⟨ids, rfl, fun id => ?_, B.sorted⟩
          rw [B.mem]
          constructor
          · exact fun hcond => ⟨hcond.1, hcond.2.1⟩
          · exact fun hcond => ⟨hcond.1, hcond.2, hdone hd id hcond.1⟩
      | false =>
          -- the buffer is full, so fewer spans remain
          have hless : (remaining h page').card < (remaining h page).card := by
            apply Finset.card_lt_card
            rw [Finset.ssubset_iff_of_subset]
            · have hlen := hfull hd
              cases ids with
              | nil => cases hlen
              | cons id rest =>
                  obtain ⟨h1, h2, h3⟩ := (B.mem id).1 List.mem_cons_self
                  refine ⟨id, Finset.mem_filter.2 ⟨Finset.mem_range.2 h1.1, h1, h2⟩, ?_⟩
                  intro hmem
                  have := (Finset.mem_filter.1 hmem).2.2
                  omega
            · intro id hmem
              obtain ⟨h1, h2, h3⟩ := Finset.mem_filter.1 hmem
              have hle := B.le
              exact Finset.mem_filter.2 ⟨h1, h2, by omega⟩
          obtain ⟨rest, hrest, hmem, hsorted⟩ := ih page' B.boundary (by omega)
          refine ⟨ids ++ rest, ?_, fun id => ?_, ?_⟩
          · simp only [Bool.false_eq_true, if_false, hrest, ok_bind, pure_eq_ok, List.map_append]
          · rw [List.mem_append, B.mem, hmem]
            have hle := B.le
            constructor
            · rintro (⟨h1, h2, -⟩ | ⟨h1, h2⟩)
              · exact ⟨h1, h2⟩
              · exact ⟨h1, by omega⟩
            · rintro ⟨h1, h2⟩
              by_cases hlt : (h.span id).start < page'
              · exact Or.inl ⟨h1, h2, hlt⟩
              · exact Or.inr ⟨h1, by omega⟩
          · rw [List.pairwise_append]
            refine ⟨B.sorted, hsorted, fun i hi j hj => ?_⟩
            obtain ⟨h1, h2, h3⟩ := (B.mem i).1 hi
            obtain ⟨h4, h5⟩ := (hmem j).1 hj
            rcases B.boundary i h1 with hend | hstart
            · omega
            · omega

/-- `IterateOverRanges` ends, and calls the function on every span once, in the order of
their addresses. -/
theorem iterateOverRanges_all (R : Reached cfg h) :
    ∃ ids : List SpanId, iterateOverRanges h = .ok (ids.map fun id => rangeOf (h.span id)) ∧
      (∀ id, id ∈ ids ↔ Live h id) ∧
      ids.Pairwise fun i j => (h.span i).start + (h.span i).length ≤ (h.span j).start := by
  have S := R.invariant.1
  have hpage : Boundary h 1 := fun id hl => Or.inr (S.core.start_pos hl)
  have hcard : (remaining h 1).card < h.freshSpan + 1 := by
    have hle := Finset.card_filter_le (Finset.range h.freshSpan)
      (fun id => Live h id ∧ 1 ≤ (h.span id).start)
    rw [Finset.card_range] at hle
    exact Nat.lt_succ_of_le hle
  obtain ⟨ids, hrun, hmem, hsorted⟩ := iterateFrom_ok S (h.freshSpan + 1) 1 hpage hcard
  refine ⟨ids, hrun, fun id => ?_, hsorted⟩
  rw [hmem]
  exact and_iff_left_of_imp S.core.start_pos

theorem iterateOverRanges_all_delete : ∃ ids : List SpanId,
    iterateOverRanges afterDelete = .ok (ids.map fun id => rangeOf (afterDelete.span id)) ∧
      (∀ id, id ∈ ids ↔ Live afterDelete id) ∧
      ids.Pairwise fun i j =>
        (afterDelete.span i).start + (afterDelete.span i).length ≤ (afterDelete.span j).start :=
  iterateOverRanges_all afterDelete_reached

end SatAllocatorTest.Ports.TCmalloc.PageHeap
