import SatAllocatorTest.Ports.PageHeapGrow

/-!
# Allocating spans

`New` looks for a free span, may coalesce the heap by a release of all free pages, and
grows it as a last resort.  It ends in a settled heap with one more span in use, or with
the same ones.

Under a heap limit one assertion of `AllocLarge` can fail, "If bestNormal existed,
EnsureLimit would succeeded": metadata counts against the limit but is not limited, and
the system may refuse to take memory back.  And the process ends when a span is needed
and there is no memory for metadata.  `Ends` allows for these, and for no other fault.
-/

namespace SatAllocatorTest.Ports.TCmalloc.PageHeap

open SatAllocatorTest.Verified.Tilings

variable {M : Type} [PageMap M SpanId]
variable {h h' h'' : PageHeap M} {id : SpanId} {cfg : Config} {n : Nat}

/-- The operation succeeds, unless an assertion fails under a heap limit or the process ends
without memory for metadata. -/
def Ends {α : Type} (cfg : Config) (x : Except Fault α) (P : α → Prop) : Prop :=
  match x with
  | .ok a => P a
  | .error e =>
    (e = .assertion ∧ limitPages cfg ≠ 0) ∨ (e = .crash ∧ OutOfMetadata cfg)

theorem Ends.mono {α : Type} {x : Except Fault α} {P Q : α → Prop} (E : Ends cfg x P)
    (hPQ : ∀ a, P a → Q a) : Ends cfg x Q := by
  cases x with
  | ok a => exact hPQ a E
  | error e => exact E

/-- An operation after one that ends well. -/
theorem Ends.bind {α β : Type} {x : Except Fault α} {f : α → Except Fault β} {P : α → Prop}
    {Q : β → Prop} (E : Ends cfg x P) (hf : ∀ a, P a → Ends cfg (f a) Q) :
    Ends cfg (x >>= f) Q := by
  cases x with
  | ok a => exact hf a E
  | error e => exact E

theorem ends_crash {α : Type} {P : α → Prop} (hout : OutOfMetadata cfg) :
    Ends cfg (.error .crash : Except Fault α) P := Or.inr ⟨rfl, hout⟩

/-- What a search or `New` may lead to: the same spans in use, or one more, with `n` pages. -/
structure Allocated (h : PageHeap M) (n : Nat) (r : PageHeap M × Option SpanId) : Prop where
  settled : Settled r.1
  grows : Grows h r.1
  failed : r.2 = none → held r.1 = held h
  found : ∀ id, r.2 = some id → held h id = none ∧
    ∃ s : Span, s.length = n ∧ s.sizeclass = 0 ∧
      held r.1 = Function.update (held h) id (some s)

theorem Allocated.of_stays {r : PageHeap M × Option SpanId} (s : Grows h h')
    (hheld : held h' = held h) (A : Allocated h' n r) : Allocated h n r where
  settled := A.settled
  grows := s.trans A.grows
  failed := fun hnone => (A.failed hnone).trans hheld
  found := by
    rw [← hheld]
    exact A.found

theorem allocated_none (S : Settled h) (n : Nat) : Allocated h n (h, none) where
  settled := S
  grows := ⟨fun _ hp => hp, rfl⟩
  failed := fun _ => rfl
  found := fun _ hsome => (nomatch hsome)

theorem carve_ends (S : Settled h) (cfg : Config) (hl : Live h id)
    (hinUse : (h.span id).location ≠ .inUse) (hn : 0 < n) (hle : n ≤ (h.span id).length) :
    Ends cfg (carve h cfg id n) fun h' => Allocated h n (h', some id) := by
  rcases carve_ok S hl hinUse cfg hn hle with ⟨hcrash, hstarved⟩ | ⟨h', hrun, S', hgrows, hheld⟩
  · rw [hcrash]
    exact ends_crash ⟨_, hstarved.2⟩
  · rw [hrun]
    refine ⟨S', hgrows, fun hnone => (nomatch hnone), ?_⟩
    intro id' hid
    cases hid
    refine ⟨?_, _, rfl, ?_, hheld⟩
    · unfold held
      rw [if_neg fun hcond => hinUse hcond.2]
    · exact S.core.sizeclass_free hl hinUse

/-! ## Spans on lists -/

theorem header_normal {s : Span} {i : Nat} (hheader : headerOf s = some (.normal i)) :
    s.location = .onNormalFreelist ∧ listIndex s.length = i := by
  unfold headerOf at hheader
  split at hheader
  · cases hheader
  · rename_i hloc
    exact ⟨hloc, Header.normal.inj (Option.some.inj hheader)⟩
  · cases hheader

theorem header_returned {s : Span} {i : Nat} (hheader : headerOf s = some (.returned i)) :
    s.location = .onReturnedFreelist ∧ listIndex s.length = i := by
  unfold headerOf at hheader
  split at hheader
  · cases hheader
  · cases hheader
  · rename_i hloc
    exact ⟨hloc, Header.returned.inj (Option.some.inj hheader)⟩

theorem length_of_listIndex {m i : Nat} (hindex : listIndex m = i) :
    (i < kMaxPages → m = i) ∧ (i = kMaxPages → kMaxPages ≤ m) := by
  unfold listIndex at hindex
  split at hindex <;> omega

theorem Settled.mem_normal (S : Settled h) {i : Nat} (hmem : id ∈ h.lists (.normal i)) :
    Live h id ∧ (h.span id).location = .onNormalFreelist ∧ listIndex (h.span id).length = i := by
  obtain ⟨hl, -, hheader⟩ := S.core.mem_lists.1 hmem
  exact ⟨hl, header_normal hheader⟩

theorem Settled.mem_returned (S : Settled h) {i : Nat} (hmem : id ∈ h.lists (.returned i)) :
    Live h id ∧ (h.span id).location = .onReturnedFreelist ∧
      listIndex (h.span id).length = i := by
  obtain ⟨hl, -, hheader⟩ := S.core.mem_lists.1 hmem
  exact ⟨hl, header_returned hheader⟩

/-- A listed span can be carved. -/
theorem carve_listed (S : Settled h) (cfg : Config) {hd : Header} (hmem : id ∈ h.lists hd)
    (hn : 0 < n) (hle : n ≤ (h.span id).length) :
    Ends cfg (carve h cfg id n) fun h' => Allocated h n (h', some id) := by
  obtain ⟨hl, -, hhd⟩ := S.core.mem_lists.1 hmem
  apply carve_ends S cfg hl _ hn hle
  intro hloc
  rw [headerOf, hloc] at hhd
  cases hhd

/-- `Carve` of a listed span is the end of a search. -/
theorem found_ends (S : Settled h) (cfg : Config) {hd : Header} (hmem : id ∈ h.lists hd)
    (hn : 0 < n) (hle : n ≤ (h.span id).length) :
    Ends cfg (carve h cfg id n >>= fun h => pure (h, some id)) (Allocated h n) :=
  (carve_listed S cfg hmem hn hle).bind fun _ A => A

/-! ## `AllocLarge` -/

/-- The better one of a span and the best before it. -/
def betterFit (h : PageHeap M) (n : Nat) (best : Option SpanId) (id : SpanId) : Option SpanId :=
  if Beats h n best id then some id else best

omit [PageMap M SpanId] in
theorem bestOf_eq {freelist : Location} {ids : List SpanId} (best : Option SpanId)
    (hids : ∀ k ∈ ids, (h.span k).location = freelist) :
    bestOf h n freelist ids best = .ok (ids.foldl (betterFit h n) best) := by
  induction ids generalizing best with
  | nil => rfl
  | cons k ids ih =>
      obtain ⟨hk, hrest⟩ := List.forall_mem_cons.1 hids
      rw [bestOf, List.foldl_cons, betterFit]
      by_cases hbeats : Beats h n best k
      · rw [if_pos hbeats, if_pos hbeats, assert_pos hk, ok_bind]
        exact ih (some k) hrest
      · rw [if_neg hbeats, if_neg hbeats]
        exact ih best hrest

/-- The assertions of the two loops hold. -/
theorem Settled.bestOf_large (S : Settled h) (n : Nat) (best : Option SpanId) :
    bestOf h n .onNormalFreelist (h.lists (.normal kMaxPages)) best =
        .ok ((h.lists (.normal kMaxPages)).foldl (betterFit h n) best) ∧
      bestOf h n .onReturnedFreelist (h.lists (.returned kMaxPages)) best =
        .ok ((h.lists (.returned kMaxPages)).foldl (betterFit h n) best) :=
  ⟨bestOf_eq best fun _ hk => (S.mem_normal hk).2.1,
    bestOf_eq best fun _ hk => (S.mem_returned hk).2.1⟩

omit [PageMap M SpanId] in
/-- A span the search settles on was looked at, and is long enough. -/
theorem foldl_betterFit {ids : List SpanId} {best : Option SpanId}
    (hfit : ids.foldl (betterFit h n) best = some id) :
    best = some id ∨ (id ∈ ids ∧ n ≤ (h.span id).length) := by
  induction ids generalizing best with
  | nil => exact Or.inl hfit
  | cons k ids ih =>
      rw [List.foldl_cons] at hfit
      rcases ih hfit with hbest | ⟨hmem, hle⟩
      · unfold betterFit at hbest
        by_cases hbeats : Beats h n best k
        · rw [if_pos hbeats] at hbest
          cases hbest
          exact Or.inr ⟨List.mem_cons_self, hbeats.1⟩
        · rw [if_neg hbeats] at hbest
          exact Or.inl hbest
      · exact Or.inr ⟨List.mem_cons_of_mem _ hmem, hle⟩

/-- With enough room under the limit, one try is enough. -/
theorem allocLargeFrom_within (S : Settled h) (hn : 0 < n) (hin : Within h cfg n) (fuel : Nat) :
    Ends cfg (allocLargeFrom cfg n (fuel + 1) h) (Allocated h n) := by
  rw [allocLargeFrom, (S.bestOf_large n _).1, ok_bind, (S.bestOf_large n _).2, ok_bind]
  generalize hbn : (h.lists (.normal kMaxPages)).foldl (betterFit h n) none = bestNormal
  generalize hb : (h.lists (.returned kMaxPages)).foldl (betterFit h n) bestNormal = best
  by_cases hsame : best = bestNormal
  · subst hsame
    rw [if_pos rfl]
    cases best with
    | none => exact allocated_none S n
    | some id =>
        obtain ⟨hmem, hle⟩ := (foldl_betterFit hbn).resolve_left (by simp)
        exact found_ends S cfg hmem hn hle
  · rw [if_neg hsame]
    cases best with
    | none => exact allocated_none S n
    | some id =>
        obtain ⟨hmem, hle⟩ := (foldl_betterFit hb).resolve_left fun heq => hsame heq.symm
        simp only [ensureLimit_within cfg S n false hin, ok_bind, if_true]
        exact found_ends S cfg hmem hn hle

theorem allocLarge_ends (S : Settled h) (cfg : Config) (hn : 0 < n) :
    Ends cfg (allocLarge h cfg n) (Allocated h n) := by
  unfold allocLarge
  by_cases hin : Within h cfg n
  · exact allocLargeFrom_within S hn hin 1
  · have hlimit : limitPages cfg ≠ 0 := fun hzero => hin (Or.inl hzero)
    rw [allocLargeFrom, (S.bestOf_large n _).1, ok_bind, (S.bestOf_large n _).2, ok_bind]
    generalize hbn : (h.lists (.normal kMaxPages)).foldl (betterFit h n) none = bestNormal
    generalize hb : (h.lists (.returned kMaxPages)).foldl (betterFit h n) bestNormal = best
    by_cases hsame : best = bestNormal
    · subst hsame
      rw [if_pos rfl]
      cases best with
      | none => exact allocated_none S n
      | some id =>
          obtain ⟨hmem, hle⟩ := (foldl_betterFit hbn).resolve_left (by simp)
          exact found_ends S cfg hmem hn hle
    · rw [if_neg hsame]
      cases best with
      | none => exact allocated_none S n
      | some id =>
          obtain ⟨h₀, ok₀, hensure₀, -, -, hok₀, hsame₀⟩ := ensureLimit_ok S cfg n false
          have hh₀ := hsame₀ rfl
          subst hh₀
          have hno : ok₀ = false := by
            cases ok₀ with
            | false => rfl
            | true => exact absurd (hok₀.1 rfl) hin
          subst hno
          obtain ⟨h₁, ok, hensure, S₁, hstays, hok, -⟩ := ensureLimit_ok S cfg n true
          simp only [hensure₀, ok_bind, Bool.false_eq_true, if_false, hensure]
          cases ok with
          | true =>
              simp only [if_true]
              exact (allocLargeFrom_within S₁ hn (hok.1 rfl) 0).mono fun r A =>
                A.of_stays hstays.grows hstays.held
          | false =>
              simp only [Bool.false_eq_true, if_false]
              by_cases hnormal : bestNormal = none
              · rw [assert_pos hnormal]
                exact (allocated_none S₁ n).of_stays hstays.grows hstays.held
              · rw [PageHeap.assert, if_neg hnormal]
                exact Or.inl ⟨rfl, hlimit⟩

/-! ## `SearchFreeAndLargeLists` -/

theorem searchFrom_ends (cfg : Config) (hn : 0 < n) (count s : Nat) (S : Settled h) (hs : n ≤ s)
    (hcount : count = 0 ∨ s + count = kMaxPages) :
    Ends cfg (searchFrom cfg n count s h) (Allocated h n) := by
  induction count generalizing s h with
  | zero => exact allocLarge_ends S cfg hn
  | succ count ih =>
      have hless : s < kMaxPages := by omega
      have hlength : ∀ {k : PageHeap M} {i : SpanId}, listIndex (k.span i).length = s →
          n ≤ (k.span i).length := by
        intro k i hindex
        have := (length_of_listIndex hindex).1 hless
        omega
      have hrest : count = 0 ∨ s + 1 + count = kMaxPages := Or.inr (by omega)
      rw [searchFrom]
      cases hnormal : h.lists (.normal s) with
      | cons id rest =>
          have hmem : id ∈ h.lists (.normal s) := by
            rw [hnormal]
            exact List.mem_cons_self
          obtain ⟨-, hloc, hindex⟩ := S.mem_normal hmem
          simp only
          rw [assert_pos hloc, ok_bind]
          exact found_ends S cfg hmem hn (hlength hindex)
      | nil =>
          simp only
          split
          · obtain ⟨h₁, ok, hensure, S₁, hstays, -, -⟩ := ensureLimit_ok S cfg n true
            have hback : ∀ {x : Except Fault (PageHeap M × Option SpanId)},
                Ends cfg x (Allocated h₁ n) → Ends cfg x (Allocated h n) :=
              fun E => E.mono fun r A => A.of_stays hstays.grows hstays.held
            rw [hensure, ok_bind]
            cases ok with
            | false => exact hback (ih (s + 1) S₁ (by omega) hrest)
            | true =>
                simp only [if_true]
                cases hreturned : h₁.lists (.returned s) with
                | cons id rest =>
                    have hmem : id ∈ h₁.lists (.returned s) := by
                      rw [hreturned]
                      exact List.mem_cons_self
                    obtain ⟨-, hloc, hindex⟩ := S₁.mem_returned hmem
                    simp only
                    rw [assert_pos hloc, ok_bind]
                    exact hback (found_ends S₁ cfg hmem hn (hlength hindex))
                | nil => exact hback (ih (s + 1) S₁ (by omega) hrest)
          · exact ih (s + 1) S (by omega) hrest

theorem search_ends (S : Settled h) (cfg : Config) (hn : 0 < n) :
    Ends cfg (searchFreeAndLargeLists h cfg n) (Allocated h n) := by
  unfold searchFreeAndLargeLists
  rw [S.core.check_ok, ok_bind, assert_pos hn, ok_bind]
  exact searchFrom_ends cfg hn _ _ S (Nat.le_refl n) (by omega)

/-! ## `New` -/

theorem growAndSearch_ends (S : Settled h) (cfg : Config) (hn : 0 < n)
    (hrelease : h.aggressiveDecommit = true → ∀ t, cfg.systemRelease t = true) :
    Ends cfg (growAndSearch h cfg n) (Allocated h n) := by
  unfold growAndSearch
  rcases growHeap_ok S cfg hn hrelease with ⟨hcrash, hout⟩ | ⟨h₁, b, hgrow, S₁, hgrows, hheld, -⟩
  · rw [hcrash]
    exact ends_crash hout
  · rw [hgrow, ok_bind]
    cases b with
    | true => exact (search_ends S₁ cfg hn).mono fun r A => A.of_stays hgrows hheld
    | false =>
        simp only [Bool.false_eq_true, if_false]
        rw [S₁.assertStats_ok, ok_bind, S₁.core.check_ok, ok_bind]
        exact (allocated_none S₁ n).of_stays hgrows hheld

theorem new_ends (S : Settled h) (cfg : Config) (hn : 0 < n)
    (hrelease : h.aggressiveDecommit = true → ∀ t, cfg.systemRelease t = true) :
    Ends cfg (new h cfg n) (Allocated h n) := by
  unfold new
  rw [S.core.check_ok, ok_bind, assert_pos hn, ok_bind]
  apply (search_ends S cfg hn).bind
  rintro ⟨h₁, result⟩ A
  have hgrows := A.grows
  cases result with
  | some id => exact A
  | none =>
      have hheld := A.failed rfl
      simp only
      have hgrow : ∀ {k : PageHeap M}, Settled k → Grows h k → held k = held h →
          Ends cfg (growAndSearch k cfg n) (Allocated h n) := by
        intro k hk hg hh
        apply (growAndSearch_ends hk cfg hn _).mono fun r A => A.of_stays hg hh
        rw [hg.aggressive]
        exact hrelease
      split
      · obtain ⟨h₂, m, hrun, S₂, hstays, -⟩ := releaseAtLeastNPages_ok A.settled cfg 0x7fffffff
        rw [hrun, ok_bind]
        have hgrows₂ := hgrows.trans hstays.grows
        have hheld₂ := hstays.held.trans hheld
        apply (search_ends S₂ cfg hn).bind
        rintro ⟨h₃, result⟩ A₃
        cases result with
        | some id => exact A₃.of_stays hgrows₂ hheld₂
        | none =>
            exact hgrow A₃.settled (hgrows₂.trans A₃.grows) ((A₃.failed rfl).trans hheld₂)
      · exact hgrow A.settled hgrows hheld

end SatAllocatorTest.Ports.TCmalloc.PageHeap
