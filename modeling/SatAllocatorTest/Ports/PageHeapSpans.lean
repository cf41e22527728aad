import SatAllocatorTest.Ports.PageHeapRelease

/-!
# Operations on one span

`Carve` takes a free span for a client and frees what is left of it, `Split` cuts a span in
use in two, `Delete` frees one, and `RegisterSizeClass` names its pages in the page map.
Each leads from a settled heap to a settled one and changes no other span in use.
-/

namespace SatAllocatorTest.Ports.TCmalloc.PageHeap

open SatAllocatorTest.Verified.Tilings

variable {M : Type} [PageMap M SpanId]
variable {h h' : PageHeap M} {F : List SpanId} {id : SpanId} {cfg : Config} {n : Nat}

/-- The heap keeps its pages and its mode. -/
structure Grows (h h' : PageHeap M) : Prop where
  covered : ∀ p, Covered (piece h) p → Covered (piece h') p
  aggressive : h'.aggressiveDecommit = h.aggressiveDecommit

omit [PageMap M SpanId] in
theorem Grows.trans {h'' : PageHeap M} (h₁ : Grows h h') (h₂ : Grows h' h'') : Grows h h'' :=
  ⟨fun p hp => h₂.covered p (h₁.covered p hp), h₂.aggressive.trans h₁.aggressive⟩

omit [PageMap M SpanId] in
theorem Stays.grows (s : Stays h h') : Grows h h' :=
  ⟨fun p => (s.covered p).2, s.aggressive⟩

/-! ## `Carve` -/

/-- The span in hand has its `n` pages, what is left of the span before is on its list. -/
structure Carved (h h' : PageHeap M) (id : SpanId) (n : Nat) : Prop where
  core : Core h' [id]
  live : Live h' id
  span : h'.span id = { h.span id with length := n, location := .inUse }
  held : ∀ k, k ≠ id → held h' k = held h k
  covered : ∀ p, Covered (piece h') p ↔ Covered (piece h) p
  committed : h'.committed = h.committed
  stats : h'.stats = statsWithout h.stats { h.span id with length := n }
  quiet : Quiet h'
  aggressive : h'.aggressiveDecommit = h.aggressiveDecommit
  releaseIndex : h'.releaseIndex = h.releaseIndex

omit [PageMap M SpanId] in
theorem held_modifySpan_of_ne {f : Span → Span} {k : SpanId} (hk : k ≠ id) :
    held (h.modifySpan id f) k = held h k := by
  unfold held
  rw [modifySpan_of_ne hk]
  rfl

/-- The span of `Carve` off its list and in use, before the cut. -/
def inHand (h : PageHeap M) (id : SpanId) : PageHeap M :=
  (takenOff h id).modifySpan id fun s => { s with location := .inUse }

section Carve

variable (S : Settled h) (hl : Live h id) (hinUse : (h.span id).location ≠ .inUse)
include S hl hinUse

theorem core_inHand : Core (inHand h id) [id] := by
  apply (S.core.takenOff hl (by simp) hinUse).assign (by simp) rfl rfl
  exact S.core.sizeclass_free hl hinUse

omit hl hinUse in
theorem quiet_inHand : Quiet (inHand h id) := by
  intro ha i
  change (h.lists (.normal i)).erase id = []
  rw [S.quiet ha]
  rfl

theorem carved_whole : Carved h (inHand h id) id (h.span id).length where
  core := core_inHand S hl hinUse
  live := hl
  span := modifySpan_self
  held := fun k hk => held_modifySpan_of_ne hk
  covered := fun p => by
    have hpiece : piece (inHand h id) = piece (takenOff h id) := piece_modifySpan rfl rfl
    rw [hpiece]
    exact Iff.rfl
  committed := rfl
  stats := rfl
  quiet := quiet_inHand S
  aggressive := rfl
  releaseIndex := rfl

/-- What `Carve` leaves of a span. -/
def leftoverOf (h : PageHeap M) (id : SpanId) (n : Nat) : Span :=
  ⟨(h.span id).start + n, (h.span id).length - n, [], 0, 0, (h.span id).location, false⟩

omit S hl hinUse [PageMap M SpanId] in
theorem inHand_span : (inHand h id).span id = { h.span id with location := .inUse } :=
  modifySpan_self

omit S hl hinUse [PageMap M SpanId] in
theorem inHand_span_of_ne {k : SpanId} (hk : k ≠ id) : (inHand h id).span k = h.span k :=
  modifySpan_of_ne hk

omit S hl hinUse [PageMap M SpanId] in
theorem piece_inHand : piece (inHand h id) = piece h := by
  have hsame : piece (inHand h id) = piece (takenOff h id) := piece_modifySpan rfl rfl
  rw [hsame]
  rfl

/-- The span behind was not merged with the one that is cut, so the assertion passes. -/
theorem leftover_notCoalesced {a : PageHeap M} {j : SpanId} (hn : 0 < n)
    (hlt : n < (h.span id).length) (N : NewIn (inHand h id) a j (leftoverOf h id n)) {m : M}
    (hget : ∀ q, q ≠ (leftoverOf h id n).start →
      q ≠ (leftoverOf h id n).start + (leftoverOf h id n).length - 1 →
      PageMap.get m q = getDescriptor h q) :
    assertNotCoalesced { a with pagemap := m } j = .ok () := by
  have hspan_j : ({ a with pagemap := m } : PageHeap M).span j = leftoverOf h id n := by
    change a.span j = _
    rw [N.span, Function.update_self]
  have hend : (leftoverOf h id n).start + (leftoverOf h id n).length =
      (h.span id).start + (h.span id).length := by
    simp only [leftoverOf]
    omega
  unfold assertNotCoalesced
  rw [hspan_j, hend]
  cases hnext : getDescriptor ({ a with pagemap := m } : PageHeap M)
      ((h.span id).start + (h.span id).length) with
  | none => rfl
  | some next =>
      have hold : getDescriptor h ((h.span id).start + (h.span id).length) = some next := by
        rw [← hnext]
        apply (hget _ _ _).symm
        · simp only [leftoverOf]
          omega
        · rw [hend]
          omega
      obtain ⟨l, hpiece, hnid⟩ := S.core.tiled.right (piece_eq hl) hold
      have hlive := (live_of_piece hpiece).1
      have hnj : next ≠ j := by
        rintro rfl
        exact N.fresh hlive
      have hspan : ({ a with pagemap := m } : PageHeap M).span next = h.span next := by
        change a.span next = _
        rw [N.span, Function.update_of_ne hnj]
        exact inHand_span_of_ne hnid
      have hapart := S.core.apart (i := id) (j := next) ⟨_, _, l, piece_eq hl, hpiece⟩ (by simp)
        (by simp)
      apply assert_pos
      rw [hspan]
      by_cases hfree : (h.span next).location = .inUse
      · exact Or.inl hfree
      · exact Or.inr fun heq => hapart ⟨hinUse, hfree, Or.inr heq.symm⟩

section Leftover

variable {c : PageHeap M} {j : SpanId} (hn : 0 < n) (hlt : n < (h.span id).length)
  (X : CutOf (inHand h id) c id j n) (hj : c.span j = leftoverOf h id n)
include hn hlt X

theorem core_cut : Core c [j, id] := by
  apply (core_inHand S hl hinUse).cut hl X (by simp) hn
  · rw [inHand_span]
    exact hlt
  · rw [inHand_span]
    exact S.core.sizeclass_free hl hinUse

include hj

theorem leftover_listable : Listable c [j, id] j := by
  have C := S.core
  have hlt' : n < ((inHand h id).span id).length := by
    rw [inHand_span]
    exact hlt
  have hne : j ≠ id := X.ne (h := inHand h id) hl
  have hneighbours := fun {x y} (hadj : Adjacent (piece c) x y) =>
    (core_cut S hl hinUse hn hlt X).tiled.adjacent_split (piece_eq (h := inHand h id) hl) hn hlt'
      (X.piece_id hl) X.piece_j X.piece_other hadj
  exact
    { free := by
        rw [hj]
        exact hinUse
      backed := by
        rw [hj]
        intro hloc p hlo hhi
        rw [X.committed]
        simp only [leftoverOf] at hlo hhi
        exact C.backed hl (by simp) hloc p (by omega) (by omega)
      left := by
        intro k hadj hk
        simp only [List.mem_cons, List.not_mem_nil, or_false, not_or] at hk
        rcases hneighbours hadj with ⟨hkid, -⟩ | ⟨hkj, -⟩ | ⟨-, -, hjj, -⟩
        · exact absurd hkid hk.2
        · exact absurd hkj hk.1
        · exact absurd rfl hjj
      right := by
        intro k hadj hk
        simp only [List.mem_cons, List.not_mem_nil, or_false, not_or] at hk
        rcases hneighbours hadj with ⟨hjid, -⟩ | ⟨-, -, -, hold⟩ | ⟨-, hjj, -⟩
        · exact absurd hjid hne
        · rw [piece_inHand] at hold
          have hspan : c.span k = h.span k :=
            (X.span_other k hk.2 hk.1).trans (inHand_span_of_ne hk.2)
          rw [hj, hspan, X.aggressive]
          exact C.apart (i := id) (j := k) hold (by simp) (by simp)
        · exact absurd rfl hjj }

theorem carved_leftover : Carved h (putOn c j) id n := by
  have hne : j ≠ id := X.ne (h := inHand h id) hl
  have L := leftover_listable S hl hinUse hn hlt X hj
  exact
    { core := (core_cut S hl hinUse hn hlt X).putOn ((X.live j).2 (Or.inr rfl)) (by simpa using hne) L
      live := (X.live id).2 (Or.inl hl)
      span := by
        change c.span id = _
        rw [X.span_id, inHand_span]
      held := by
        intro k hk
        change held c k = _
        by_cases hkj : k = j
        · subst hkj
          have hfree : ¬ (Live c k ∧ (c.span k).location = .inUse) := fun hheld => L.free hheld.2
          have hnone : ¬ (Live h k ∧ (h.span k).location = .inUse) :=
            fun hheld => X.fresh hheld.1
          unfold held
          rw [if_neg hfree, if_neg hnone]
        · have hlive : Live c k ↔ Live h k := (X.live k).trans (or_iff_left hkj)
          have hspan : c.span k = h.span k :=
            (X.span_other k hk hkj).trans (inHand_span_of_ne hk)
          unfold held
          simp only [hlive, hspan]
      covered := by
        intro p
        have hl₁ : Live (inHand h id) id := hl
        have hle₁ : n ≤ ((inHand h id).span id).length := by
          rw [inHand_span]
          exact Nat.le_of_lt hlt
        have hcovered := X.covered hl₁ hle₁ p
        rw [piece_inHand] at hcovered
        exact hcovered
      committed := X.committed
      stats := by
        change statsWith c.stats (c.span j) = _
        rw [hj, X.stats]
        change statsWith (statsWithout h.stats (h.span id)) (leftoverOf h id n) = _
        have hbytes : bytesOf (h.span id).length =
            bytesOf n + bytesOf ((h.span id).length - n) := by
          rw [← bytesOf_add]
          congr 1
          omega
        unfold statsWith statsWithout
        simp only [leftoverOf]
        split
        · simp only [hbytes, Stats.mk.injEq, true_and, and_true]
          grind
        · simp only [hbytes, Stats.mk.injEq, true_and, and_true]
          grind
      quiet := by
        intro ha i
        have ha' : h.aggressiveDecommit = true := X.aggressive.symm.trans ha
        have hret := S.core.returned S.quiet ha' hl (by simp) hinUse
        rw [putOn_normal (by rw [hj]; exact hret), X.lists]
        exact quiet_inHand S ha' i
      aggressive := X.aggressive
      releaseIndex := X.releaseIndex }

end Leftover

/-- What is left of the span goes on the list the span was on. -/
theorem carveLeftover_ok (cfg : Config) (hn : 0 < n) (hlt : n < (h.span id).length) :
    (carveLeftover (inHand h id) cfg id n (h.span id).location ((h.span id).length - n) =
        .error .crash ∧ Starved cfg h) ∨
      ∃ h', carveLeftover (inHand h id) cfg id n (h.span id).location ((h.span id).length - n) =
        .ok h' ∧ Carved h h' id n := by
  have C := core_inHand S hl hinUse
  have hstart : ((inHand h id).span id).start = (h.span id).start := by rw [inHand_span]
  rcases newSpan_cases cfg C.freeSpans_lt C.freeSpans_nodup ((h.span id).start + n)
    ((h.span id).length - n) with ⟨hcrash, hstarved⟩ | ⟨a₀, j, hnew, N₀⟩
  · refine Or.inl ⟨?_, hstarved⟩
    unfold carveLeftover
    rw [hstart, hcrash]
    rfl
  · let a := a₀.modifySpan j fun s => { s with location := (h.span id).location }
    have N : NewIn (inHand h id) a j (leftoverOf h id n) := N₀.assign _
    have hne : j ≠ id := by
      intro heq
      exact N.fresh (by rw [heq]; exact hl)
    obtain ⟨m₁, m₂, hrecord, hget₁, hset, X⟩ := cut_ok C hl hn (by rw [inHand_span]; exact hlt) N
      (by rw [inHand_span]; rfl) (by rw [inHand_span]; rfl) rfl
    let a₁ : PageHeap M := { a with pagemap := m₁ }
    let c : PageHeap M :=
      { a with
        span := Function.update a.span id { (inHand h id).span id with length := n }
        pagemap := m₂ }
    have ha_j : a₁.span j = leftoverOf h id n := by
      change a.span j = _
      rw [N.span, Function.update_self]
    have ha_id : a.span id = (inHand h id).span id := by
      rw [N.span, Function.update_of_ne hne.symm]
    have hc_j : c.span j = leftoverOf h id n := by
      change Function.update a.span id _ j = _
      rw [Function.update_of_ne hne]
      exact ha_j
    have hunlisted : Unlisted a₁ j := (core_cut S hl hinUse hn hlt X).unlisted (by simp)
    refine Or.inr ⟨putOn c j, ?_, carved_leftover S hl hinUse hn hlt X hc_j⟩
    let b : PageHeap M := (putOn a₁ j).modifySpan id fun s => { s with length := n }
    have hb_id : b.span id = { (inHand h id).span id with length := n } := by
      change Function.update a.span id { a.span id with length := n } id = _
      rw [Function.update_self, ha_id]
    have hb : setMap b ((b.span id).start + n - 1) id = .ok { b with pagemap := m₂ } := by
      rw [hb_id]
      exact hset b rfl
    have hend : ({ b with pagemap := m₂ } : PageHeap M) = putOn c j := by
      change ({ putOn a₁ j with
        span := Function.update a.span id { a.span id with length := n }
        pagemap := m₂ } : PageHeap M) = putOn c j
      simp only [putOn, ha_j, hc_j, ha_id]
      rfl
    unfold carveLeftover
    rw [hstart, hnew]
    change (recordSpan a j >>= _) = _
    rw [hrecord, ok_bind, leftover_notCoalesced S hl hinUse hn hlt N hget₁, ok_bind,
      prependToFreeList_eq (by rw [ha_j]; exact hinUse) hunlisted, ok_bind]
    change setMap b ((b.span id).start + n - 1) id = _
    rw [hb, hend]

/-- "We need to recommit this address space." -/
def recommitted (h : PageHeap M) (id : SpanId) (oldLocation : Location) : PageHeap M :=
  if oldLocation = .onReturnedFreelist then commitSpan h id else h

section Recommit

variable {h₁ : PageHeap M} (X : Carved h h₁ id n)
include X

omit S hl hinUse in
theorem recommitted_same :
    (recommitted h₁ id (h.span id).location).span = h₁.span ∧
      (∀ k, Live (recommitted h₁ id (h.span id).location) k ↔ Live h₁ k) ∧
      (recommitted h₁ id (h.span id).location).lists = h₁.lists ∧
      (recommitted h₁ id (h.span id).location).aggressiveDecommit = h.aggressiveDecommit ∧
      (recommitted h₁ id (h.span id).location).releaseIndex = h.releaseIndex := by
  unfold recommitted
  split
  · exact ⟨rfl, fun _ => Iff.rfl, rfl, X.aggressive, X.releaseIndex⟩
  · exact ⟨rfl, fun _ => Iff.rfl, rfl, X.aggressive, X.releaseIndex⟩

omit S hl in
/-- The committed bytes make up for what the span was on its list. -/
theorem recommitted_stats :
    (recommitted h₁ id (h.span id).location).stats.unmappedBytes +
        (recommitted h₁ id (h.span id).location).stats.committedBytes =
      h.stats.unmappedBytes + h.stats.committedBytes ∧
    (recommitted h₁ id (h.span id).location).stats.systemBytes = h.stats.systemBytes := by
  have hlen : (h₁.span id).length = n := by rw [X.span]
  cases hloc : (h.span id).location with
  | inUse => exact absurd hloc hinUse
  | onNormalFreelist => simp [recommitted, X.stats, statsWithout, hloc]
  | onReturnedFreelist =>
      simp only [recommitted, if_true, commitSpan, X.stats, statsWithout, hloc, reduceCtorEq,
        if_false, hlen, and_true]
      grind

omit hinUse in
/-- In the end the pages of the span are backed. -/
theorem recommitted_backed (hle : n ≤ (h.span id).length) :
    Backed (recommitted h₁ id (h.span id).location) id := by
  intro p hlo hhi
  rw [(recommitted_same X).1] at hlo hhi
  unfold recommitted
  split
  · simp only [commitSpan, setCommitted]
    rw [if_pos ⟨hlo, hhi⟩]
  · rename_i hloc
    rw [X.committed]
    rw [X.span] at hlo hhi
    simp only at hlo hhi
    exact S.core.backed hl (by simp) hloc p hlo (by omega)

theorem recommitted_settled (hle : n ≤ (h.span id).length) :
    Settled (recommitted h₁ id (h.span id).location) := by
  obtain ⟨hspan, -, hlists, haggr, hindex⟩ := recommitted_same X
  have hstats := recommitted_stats hinUse X
  have hcore : Core (recommitted h₁ id (h.span id).location) [id] := by
    unfold recommitted
    split
    · exact X.core.commit X.live (by simp) true _ rfl rfl
    · exact X.core
  exact
    { core := hcore.give (by rw [hspan, X.span]) (recommitted_backed S hl X hle)
      quiet := by
        intro ha i
        rw [hlists]
        exact X.quiet (X.aggressive.trans (haggr.symm.trans ha)) i
      balanced := by
        rw [hstats.1, hstats.2]
        exact S.balanced
      releaseIndex := by
        rw [hindex]
        exact S.releaseIndex }

omit S hl hinUse in
theorem recommitted_grows : Grows h (recommitted h₁ id (h.span id).location) := by
  obtain ⟨hspan, hlive, -, haggr, -⟩ := recommitted_same X
  have hpiece : piece (recommitted h₁ id (h.span id).location) = piece h₁ := by
    funext k
    simp only [piece, hlive, hspan]
  refine ⟨fun p hp => ?_, haggr⟩
  rw [hpiece]
  exact (X.covered p).2 hp

omit S hl hinUse in
theorem recommitted_held : held (recommitted h₁ id (h.span id).location) =
    Function.update (held h) id (some { h.span id with length := n, location := .inUse }) := by
  obtain ⟨hspan, hlive, -⟩ := recommitted_same X
  funext k
  by_cases hk : k = id
  · subst hk
    rw [Function.update_self, held_eq_some]
    exact ⟨(hlive k).2 X.live, by rw [hspan, X.span], rfl⟩
  · rw [Function.update_of_ne hk, ← X.held k hk]
    unfold held
    simp only [hlive, hspan]

end Recommit

/-- `Carve` succeeds, unless there is no metadata for what is left of the span. -/
theorem carve_ok (cfg : Config) (hn : 0 < n) (hle : n ≤ (h.span id).length) :
    (carve h cfg id n = .error .crash ∧ Starved cfg h) ∨
      ∃ h', carve h cfg id n = .ok h' ∧ Settled h' ∧ Grows h h' ∧
        held h' = Function.update (held h) id
          (some { h.span id with length := n, location := .inUse }) := by
  have hlong := S.core.length_lt hl
  have hextra : toInt32 ((h.span id).length - n) = ((h.span id).length - n : Nat) :=
    toInt32_eq (by omega)
  have hlen : ((inHand h id).span id).length = (h.span id).length := by rw [inHand_span]
  have hcut : (carveExtra (inHand h id) cfg id n (h.span id).location
        ((h.span id).length - n : Nat) = .error .crash ∧ Starved cfg h) ∨
      ∃ h₁, carveExtra (inHand h id) cfg id n (h.span id).location
        ((h.span id).length - n : Nat) = .ok h₁ ∧ Carved h h₁ id n := by
    unfold carveExtra
    by_cases hwhole : n = (h.span id).length
    · refine Or.inr ⟨inHand h id, ?_, ?_⟩
      · rw [if_neg (by omega)]
      · rw [hwhole]
        exact carved_whole S hl hinUse
    · rw [if_pos (by omega), lengthOfInt_eq (by omega)]
      exact carveLeftover_ok S hl hinUse cfg hn (by omega)
  have hrun : carve h cfg id n = carveExtra (inHand h id) cfg id n (h.span id).location
      ((h.span id).length - n : Nat) >>= fun h₁ => check h₁ >>= fun _ =>
        let h₂ := recommitted h₁ id (h.span id).location
        assert ((h₂.span id).location = .inUse) >>= fun _ =>
          assert ((h₂.span id).length = n) >>= fun _ => assertStats h₂ >>= fun _ => pure h₂ := by
    unfold carve
    rw [assert_pos hn, ok_bind, assert_pos hinUse, ok_bind, removeFromFreeList_eq hinUse]
    simp only [ok_bind]
    change (assert (0 ≤ toInt32 (((inHand h id).span id).length - n)) >>= fun _ =>
      carveExtra (inHand h id) cfg id n (h.span id).location
        (toInt32 (((inHand h id).span id).length - n)) >>= _) = _
    rw [hlen, hextra, assert_pos (by omega), ok_bind]
    rfl
  rw [hrun]
  rcases hcut with ⟨hcrash, hstarved⟩ | ⟨h₁, hok, X⟩
  · rw [hcrash]
    exact Or.inl ⟨rfl, hstarved⟩
  · have hspan : (recommitted h₁ id (h.span id).location).span id =
        { h.span id with length := n, location := .inUse } := by
      rw [(recommitted_same X).1, X.span]
    have hsettled := recommitted_settled S hl hinUse X hle
    refine Or.inr ⟨_, ?_, hsettled, recommitted_grows X, recommitted_held X⟩
    rw [hok, ok_bind, X.core.check_ok, ok_bind]
    dsimp only
    rw [assert_pos (by rw [hspan]), ok_bind, assert_pos (by rw [hspan]), ok_bind,
      hsettled.assertStats_ok]
    rfl

end Carve

/-! ## `Split` -/

theorem Settled.backed (S : Settled h) {s : Span} (hheld : held h id = some s) : Backed h id := by
  obtain ⟨hl, rfl, hloc⟩ := held_eq_some.1 hheld
  exact S.core.backed hl (by simp) (by simp [hloc])

section Split

variable {c : PageHeap M} {j : SpanId} (S : Settled h) (hl : Live h id)
  (hloc : (h.span id).location = .inUse) (hn : 0 < n) (hlt : n < (h.span id).length)
  (hsize : (h.span id).sizeclass = 0) (X : CutOf h c id j n)
  (hj : (c.span j).location = .inUse)
include S hl hloc hn hlt hsize X hj

/-- Both parts of a span in use stay out of the lists, with their pages backed. -/
theorem core_split : Core c [] := by
  have hbacked : ∀ p, (h.span id).start ≤ p → p < (h.span id).start + (h.span id).length →
      c.committed p = true := by
    rw [X.committed]
    exact S.core.backed hl (by simp) (by simp [hloc])
  have hcut : Core c [j, id] := (S.core.take hloc).cut hl X (by simp) hn hlt hsize
  have hfirst : Core c [id] := by
    apply hcut.give hj
    intro p hlo hhi
    rw [X.start] at hlo hhi
    rw [X.length] at hhi
    exact hbacked p (by omega) (by omega)
  apply hfirst.give
  · rw [X.span_id]
    exact hloc
  · intro p hlo hhi
    rw [X.span_id] at hlo hhi
    simp only at hlo hhi
    exact hbacked p hlo (by omega)

theorem settled_split : Settled c :=
  { core := core_split S hl hloc hn hlt hsize X hj
    quiet := by
      intro ha i
      rw [X.lists]
      exact S.quiet (X.aggressive.symm.trans ha) i
    balanced := by
      rw [X.stats]
      exact S.balanced
    releaseIndex := by
      rw [X.releaseIndex]
      exact S.releaseIndex }

omit S hn hlt hsize in
theorem held_split : held c = Function.update
    (Function.update (held h) id (some { h.span id with length := n })) j (some (c.span j)) := by
  funext k
  by_cases hkj : k = j
  · subst hkj
    rw [Function.update_self, held_eq_some]
    exact ⟨(X.live k).2 (Or.inr rfl), rfl, hj⟩
  · rw [Function.update_of_ne hkj]
    by_cases hk : k = id
    · subst hk
      rw [Function.update_self, held_eq_some]
      exact ⟨(X.live k).2 (Or.inl hl), X.span_id, hloc⟩
    · rw [Function.update_of_ne hk]
      have hlive : Live c k ↔ Live h k := (X.live k).trans (or_iff_left hkj)
      have hspan : c.span k = h.span k := X.span_other k hk hkj
      unfold held
      simp only [hlive, hspan]

end Split

/-- `Split` succeeds, unless there is no metadata for the span behind. -/
theorem split_ok (S : Settled h) (cfg : Config) {s : Span} (hheld : held h id = some s) (hn : 0 < n)
    (hlt : n < s.length) (hsize : s.sizeclass = 0) :
    (split h cfg id n = .error .crash ∧ Starved cfg h) ∨
      ∃ h' j t, split h cfg id n = .ok (h', j) ∧ Settled h' ∧ Grows h h' ∧ held h j = none ∧
        t.start = s.start + n ∧ t.length = s.length - n ∧ t.sizeclass = 0 ∧
        held h' = Function.update (Function.update (held h) id (some { s with length := n }))
          j (some t) := by
  obtain ⟨hl, rfl, hloc⟩ := held_eq_some.1 hheld
  have C := S.core
  have hlong := C.length_lt hl
  have hextra : lengthOfInt (toInt32 ((h.span id).length - n)) = (h.span id).length - n := by
    rw [toInt32_eq (by omega), lengthOfInt_eq (by omega)]
  unfold split
  rw [assert_pos hn, ok_bind, assert_pos hlt, ok_bind, assert_pos hloc, ok_bind, assert_pos hsize,
    ok_bind]
  simp only [hextra]
  rcases newSpan_cases cfg C.freeSpans_lt C.freeSpans_nodup ((h.span id).start + n)
    ((h.span id).length - n) with ⟨hcrash, hstarved⟩ | ⟨a, j, hnew, N⟩
  · rw [hcrash]
    exact Or.inl ⟨rfl, hstarved⟩
  right
  have hne : j ≠ id := by
    intro heq
    exact N.fresh (by rw [heq]; exact hl)
  obtain ⟨m₁, m₂, hrecord, -, hset, X⟩ := cut_ok (C.take hloc) hl hn hlt N rfl rfl rfl
  let c : PageHeap M :=
    { a with span := Function.update a.span id { h.span id with length := n }, pagemap := m₂ }
  have ha_id : a.span id = h.span id := by rw [N.span, Function.update_of_ne hne.symm]
  have ha_j : (a.span j).location = .inUse := by rw [N.span, Function.update_self]
  have hc_j : c.span j = a.span j := Function.update_of_ne hne _ _
  have hj : (c.span j).location = .inUse := by rw [hc_j, ha_j]
  refine ⟨c, j, c.span j, ?_, settled_split S hl hloc hn hlt hsize X hj,
    ⟨fun p => (X.covered hl (Nat.le_of_lt hlt) p).2, X.aggressive⟩, ?_, X.start, X.length,
    X.sizeclass, held_split hl hloc X hj⟩
  · rw [hnew]
    simp only [ok_bind]
    rw [assert_pos ha_j, ok_bind, hrecord, ok_bind]
    have hwhere : ((({ a with pagemap := m₁ } : PageHeap M).span id).start + n - 1) =
        (h.span id).start + n - 1 := by
      change (a.span id).start + n - 1 = _
      rw [ha_id]
    rw [hwhere, hset _ rfl, ok_bind]
    have hend : (({ a with pagemap := m₂ } : PageHeap M).modifySpan id fun s =>
        { s with length := n }) = c := by
      change ({ a with
        span := Function.update a.span id { a.span id with length := n }
        pagemap := m₂ } : PageHeap M) = c
      rw [ha_id]
    change Except.ok ((({ a with pagemap := m₂ } : PageHeap M).modifySpan id fun s =>
        { s with length := n }), j) = _
    rw [hend]
  · unfold held
    rw [if_neg fun hcond => X.fresh hcond.1]

/-! ## `Delete` -/

theorem delete_ok (S : Settled h) (cfg : Config) {s : Span} (hheld : held h id = some s)
    (hrelease : h.aggressiveDecommit = true → ∀ t, cfg.systemRelease t = true) :
    ∃ h', delete h cfg id = .ok h' ∧ Settled h' ∧ Grows h h' ∧
      held h' = Function.update (held h) id none ∧ HasFit h' s.length := by
  have hbacked := S.backed hheld
  obtain ⟨hl, rfl, hloc⟩ := held_eq_some.1 hheld
  have C := S.core
  let h₁ := h.modifySpan id fun s =>
    { s with sizeclass := 0, sample := false, location := .onNormalFreelist }
  have hspan : h₁.span id =
      { h.span id with sizeclass := 0, sample := false, location := .onNormalFreelist } :=
    modifySpan_self
  have C₁ : Core h₁ [id] := (C.take hloc).assign (by simp) rfl rfl rfl
  have hpiece : piece h₁ = piece h := piece_modifySpan rfl rfl
  obtain ⟨h₂, hmerge, freed⟩ := mergeIntoFreeList_ok cfg C₁ hl (by rw [hspan]; simp)
    (by rw [hspan]) S.quiet
    (by
      intro _ p
      rw [hspan]
      exact hbacked p)
    hrelease
  have hS₂ : Settled h₂ :=
    { core := freed.core
      quiet := freed.quiet
      balanced := by
        have hbal := S.balanced
        have haggr : h₁.aggressiveDecommit = h.aggressiveDecommit := rfl
        have hstats : h₁.stats = h.stats := rfl
        rw [freed.stats, landed, haggr, hstats]
        cases h.aggressiveDecommit with
        | true =>
            simp only [if_true]
            grind
        | false =>
            simp only [Bool.false_eq_true, if_false, statsWith, hspan, if_true]
            exact hbal
      releaseIndex := by
        rw [freed.releaseIndex]
        exact S.releaseIndex }
  obtain ⟨h₃, hscavenge, hS₃, hstays⟩ := incrementalScavenge_ok hS₂ cfg (h.span id).length
  have hstays₁ := freed.stays.trans hstays
  have hfit : HasFit h₁ (h.span id).length :=
    ⟨id, ⟨hl, by rw [hspan]; simp⟩, by rw [hspan]⟩
  refine ⟨h₃, ?_, hS₃, ⟨?_, hstays₁.aggressive⟩, ?_, hstays₁.fits _ hfit⟩
  · unfold delete
    rw [C.check_ok, ok_bind, assert_pos hloc, ok_bind, assert_pos (C.length_pos hl), ok_bind,
      assert_pos (C.first hl), ok_bind, assert_pos (C.last hl), ok_bind]
    simp only
    rw [hmerge, ok_bind, hscavenge, ok_bind, hS₃.assertStats_ok, ok_bind, hS₃.core.check_ok]
    rfl
  · intro p hp
    apply (hstays₁.covered p).2
    rwa [hpiece]
  · rw [hstays₁.held]
    funext k
    by_cases hk : k = id
    · subst hk
      rw [Function.update_self, held, if_neg]
      rw [hspan]
      simp
    · rw [Function.update_of_ne hk]
      exact held_modifySpan_of_ne hk

/-! ## `RegisterSizeClass` -/

/-- The loop over `count` pages of a span from its page `i` on. -/
theorem registerPages_ok (h : PageHeap M) (id : SpanId) (count i : Nat)
    (hensured : ∀ q, (h.span id).start + i ≤ q → q < (h.span id).start + i + count →
      PageMap.Ensured h.pagemap q) :
    ∃ m, registerPages id count i h = .ok { h with pagemap := m } ∧
      (∀ q, PageMap.get m q =
        if (h.span id).start + i ≤ q ∧ q < (h.span id).start + i + count then some id
        else getDescriptor h q) ∧
      ∀ q, PageMap.Ensured m q ↔ PageMap.Ensured h.pagemap q := by
  induction count generalizing h i with
  | zero =>
      refine ⟨h.pagemap, rfl, fun q => ?_, fun _ => Iff.rfl⟩
      rw [if_neg (by omega)]
      rfl
  | succ count ih =>
      obtain ⟨m₁, hset, hget₁, hens₁⟩ := setMap_ok (hensured _ (Nat.le_refl _) (by omega)) id
      obtain ⟨m, hrun, hget, hens⟩ := ih (h := { h with pagemap := m₁ }) (i + 1) (by
        intro q hlo hhi
        simp only at hlo hhi
        exact (hens₁ q).2 (hensured q (by omega) (by omega)))
      refine ⟨m, ?_, ?_, fun q => (hens q).trans (hens₁ q)⟩
      · rw [registerPages, hset, ok_bind]
        exact hrun
      · intro q
        rw [hget, getDescriptor, hget₁]
        simp only
        by_cases hq : q = (h.span id).start + i
        · rw [if_neg (by omega), if_pos hq, if_pos (by omega)]
        · rw [if_neg hq]
          have hiff : ((h.span id).start + (i + 1) ≤ q ∧
              q < (h.span id).start + (i + 1) + count) ↔
                ((h.span id).start + i ≤ q ∧ q < (h.span id).start + i + (count + 1)) := by
            omega
          simp only [hiff]

theorem registerSizeClass_ok (S : Settled h) {s : Span} (hheld : held h id = some s) (sc : Nat) :
    ∃ h', registerSizeClass h id sc = .ok h' ∧ Settled h' ∧ Grows h h' ∧
      held h' = Function.update (held h) id (some { s with sizeclass := sc % 2 ^ 8 }) := by
  obtain ⟨hl, rfl, hloc⟩ := held_eq_some.1 hheld
  have C := S.core
  let h₁ := h.modifySpan id fun s => { s with sizeclass := sc % 2 ^ 8 }
  have hspan : h₁.span id = { h.span id with sizeclass := sc % 2 ^ 8 } := modifySpan_self
  have hpos := C.length_pos hl
  obtain ⟨m, hrun, hget, hens⟩ := registerPages_ok h₁ id ((h.span id).length - 2) 1 (by
    intro q hlo hhi
    rw [hspan] at hlo hhi
    simp only at hlo hhi
    exact C.ensured (covered_of_live hl (by omega) (by omega)))
  have hstart : (h₁.span id).start = (h.span id).start := by rw [hspan]
  have hold : ∀ q, getDescriptor h₁ q = getDescriptor h q := fun _ => rfl
  simp only [hstart, hold] at hget
  have hcore : Core { h₁ with pagemap := m } [] := by
    apply C.mark hl hloc
    · intro q
      rw [hget]
      split
      · exact Or.inr ⟨rfl, by omega, by omega⟩
      · exact Or.inl rfl
    · intro q hlo hhi
      rw [hget]
      split
      · rfl
      · by_cases hfirst : q = (h.span id).start
        · rw [hfirst]
          exact C.first hl
        · rw [show q = (h.span id).start + (h.span id).length - 1 by omega]
          exact C.last hl
    · exact hens
  have hpiece : piece { h₁ with pagemap := m } = piece h :=
    have hsame : piece (h.modifySpan id fun s => { s with sizeclass := sc % 2 ^ 8 }) = piece h :=
      piece_modifySpan rfl rfl
    hsame
  refine ⟨{ h₁ with pagemap := m }, ?_, ?_, ⟨?_, rfl⟩, ?_⟩
  · unfold registerSizeClass
    rw [assert_pos hloc, ok_bind, assert_pos (C.first hl), ok_bind, assert_pos (C.last hl), ok_bind]
    simp only
    have hlen : ((h.modifySpan id fun s => { s with sizeclass := sc % 2 ^ 8 }).span id).length =
        (h.span id).length := by rw [modifySpan_self]
    rw [hlen]
    exact hrun
  · exact ⟨hcore, S.quiet, S.balanced, S.releaseIndex⟩
  · intro p hp
    rwa [hpiece]
  · funext k
    by_cases hk : k = id
    · subst hk
      rw [Function.update_self, held_eq_some]
      exact ⟨hl, hspan, hloc⟩
    · rw [Function.update_of_ne hk]
      have hsame : held h₁ k = held h k := held_modifySpan_of_ne hk
      exact hsame

end SatAllocatorTest.Ports.TCmalloc.PageHeap
