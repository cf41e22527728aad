import SatAllocatorTest.Ports.PageHeapLists

/-!
# Edits of spans in hand

What an operation does to a span that is on no list: cut it in two, join a neighbour to
it, set its fields, commit or decommit its pages, name it in the page map.  Each edit is a
relation between the heaps before and after, and keeps `Core` (`Core.edit`): the spans that
are not in hand stay as they are.
-/

namespace SatAllocatorTest.Ports.TCmalloc.PageHeap

open SatAllocatorTest.Verified.Tilings

variable {M : Type} [PageMap M SpanId]
variable {h h' : PageHeap M} {F F' : List SpanId} {id j : SpanId} {p n : Nat}

theorem Ground.of_covered (G : Ground h)
    (hcovered : ∀ p, Covered (piece h') p → Covered (piece h) p)
    (hensured : ∀ p, PageMap.Ensured h.pagemap p → PageMap.Ensured h'.pagemap p)
    (htaken : h'.taken = h.taken) (hsystem : h.systemTaken ≤ h'.systemTaken) : Ground h' where
  ensured := fun hp => hensured _ (G.ensured (hcovered _ hp))
  inside := by
    rw [htaken]
    exact fun hp => G.inside (hcovered _ hp)
  address := by
    rw [htaken]
    exact G.address
  sparse := by
    rw [htaken]
    exact G.sparse
  room := fun s hs => Nat.le_trans (G.room s fun p hp => hcovered p (hs p hp)) hsystem

/-- The spans that are not in hand are the same before and after. -/
structure SameOthers (h h' : PageHeap M) (F F' : List SpanId) : Prop where
  live : ∀ k, Live h' k ∧ k ∉ F' ↔ Live h k ∧ k ∉ F
  span : ∀ k, Live h k → k ∉ F → h'.span k = h.span k
  get : ∀ k, Live h k → k ∉ F → ∀ p, (h.span k).start ≤ p →
    p < (h.span k).start + (h.span k).length → getDescriptor h' p = getDescriptor h p
  committed : ∀ k, Live h k → k ∉ F → ∀ p, (h.span k).start ≤ p →
    p < (h.span k).start + (h.span k).length → h'.committed p = h.committed p
  adjacent : ∀ i j, Adjacent (piece h') i j → i ∉ F' → j ∉ F' → Adjacent (piece h) i j
  lists : h'.lists = h.lists
  aggressive : h'.aggressiveDecommit = h.aggressiveDecommit
  freeBytes : h'.stats.freeBytes = h.stats.freeBytes
  unmappedBytes : h'.stats.unmappedBytes = h.stats.unmappedBytes

omit [PageMap M SpanId] in
theorem live_of_adjacent_left {i : SpanId} (hadj : Adjacent (piece h) i j) : Live h i := by
  obtain ⟨a, n, m, hi, hj⟩ := hadj
  exact (live_of_piece hi).1

omit [PageMap M SpanId] in
theorem live_of_adjacent_right {i : SpanId} (hadj : Adjacent (piece h) i j) : Live h j := by
  obtain ⟨a, n, m, hi, hj⟩ := hadj
  exact (live_of_piece hj).1

/-- An edit of spans in hand keeps the invariant. -/
theorem Core.edit (C : Core h F) (S : SameOthers h h' F F') (G : Ground h')
    (htiled : Tiled (piece h') (getDescriptor h'))
    (hlt : ∀ k ∈ h'.freeSpans, k < h'.freshSpan) (hnodup : h'.freeSpans.Nodup)
    (hsized : ∀ k ∈ F', Live h' k → (h'.span k).sizeclass ≠ 0 →
      (h'.span k).location = .inUse ∧
        ∀ p, (h'.span k).start ≤ p → p < (h'.span k).start + (h'.span k).length →
          getDescriptor h' p = some k) : Core h' F' := by
  have hback : ∀ {k}, Live h' k → k ∉ F' → Live h k ∧ k ∉ F ∧ h'.span k = h.span k := by
    intro k hl hk
    have hold := (S.live k).1 ⟨hl, hk⟩
    exact ⟨hold.1, hold.2, S.span k hold.1 hold.2⟩
  have hpages : ∀ hd, pagesOn h' hd = pagesOn h hd := by
    intro hd
    apply pagesOn_congr
    · rw [S.lists]
    · intro k hk
      have hk := C.mem_lists.1 hk
      rw [S.span k hk.1 hk.2.1]
  exact
    { G with
      tiled := htiled
      freeSpans_lt := hlt
      freeSpans_nodup := hnodup
      mem_lists := by
        intro hd k
        rw [S.lists, C.mem_lists]
        constructor
        · rintro ⟨h1, h2, h3⟩
          have hnew := (S.live k).2 ⟨h1, h2⟩
          refine ⟨hnew.1, hnew.2, ?_⟩
          rw [S.span k h1 h2]
          exact h3
        · rintro ⟨h1, h2, h3⟩
          have hold := hback h1 h2
          rw [hold.2.2] at h3
          exact ⟨hold.1, hold.2.1, h3⟩
      lists_nodup := by
        rw [S.lists]
        exact C.lists_nodup
      sized := by
        intro k hl hne
        by_cases hk : k ∈ F'
        · exact hsized k hk hl hne
        · obtain ⟨h1, h2, h3⟩ := hback hl hk
          rw [h3] at hne ⊢
          have hold := C.sized h1 hne
          refine ⟨hold.1, fun p hlo hhi => ?_⟩
          rw [S.get k h1 h2 p hlo hhi]
          exact hold.2 p hlo hhi
      free := by
        rw [S.freeBytes, C.free, totalPages_congr .normal fun k => hpages (.normal k)]
      unmapped := by
        rw [S.unmappedBytes, C.unmapped, totalPages_congr .returned fun k => hpages (.returned k)]
      backed := by
        intro k hl hk hloc p hlo hhi
        obtain ⟨h1, h2, h3⟩ := hback hl hk
        rw [h3] at hloc hlo hhi
        rw [S.committed k h1 h2 p hlo hhi]
        exact C.backed h1 h2 hloc p hlo hhi
      apart := by
        intro i j hadj hi hj
        have hold := S.adjacent i j hadj hi hj
        have h1 := hback (live_of_adjacent_left hadj) hi
        have h2 := hback (live_of_adjacent_right hadj) hj
        rw [h1.2.2, h2.2.2, S.aggressive]
        exact C.apart hold h1.2.1 h2.2.1 }

/-! ## Writes to the page map -/

theorem setMap_ok (hensured : PageMap.Ensured h.pagemap p) (id : SpanId) :
    ∃ pagemap, setMap h p id = .ok { h with pagemap := pagemap } ∧
      (∀ q, PageMap.get pagemap q = if q = p then some id else getDescriptor h q) ∧
      ∀ q, PageMap.Ensured pagemap q ↔ PageMap.Ensured h.pagemap q := by
  obtain ⟨pagemap, hset, hget, hens⟩ := PageMap.set_spec (some id) hensured
  refine ⟨pagemap, ?_, hget, hens⟩
  rw [setMap, hset]

/-- `RecordSpan` writes both ends of a span. -/
theorem recordSpan_ok (h : PageHeap M) (id : SpanId) (hlen : 0 < (h.span id).length)
    (hfirst : PageMap.Ensured h.pagemap (h.span id).start)
    (hlast : PageMap.Ensured h.pagemap ((h.span id).start + (h.span id).length - 1)) :
    ∃ pagemap, recordSpan h id = .ok { h with pagemap := pagemap } ∧
      (∀ q, PageMap.get pagemap q =
        if q = (h.span id).start ∨ q = (h.span id).start + (h.span id).length - 1 then some id
        else getDescriptor h q) ∧
      ∀ q, PageMap.Ensured pagemap q ↔ PageMap.Ensured h.pagemap q := by
  obtain ⟨m₁, hset₁, hget₁, hens₁⟩ := setMap_ok hfirst id
  by_cases hone : (h.span id).length > 1
  · have hlast₁ : PageMap.Ensured ({ h with pagemap := m₁ } : PageHeap M).pagemap
        ((h.span id).start + (h.span id).length - 1) := (hens₁ _).2 hlast
    obtain ⟨m₂, hset₂, hget₂, hens₂⟩ := setMap_ok hlast₁ id
    refine ⟨m₂, ?_, ?_, fun q => (hens₂ q).trans (hens₁ q)⟩
    · simp only [recordSpan, hset₁, ok_bind, hone, if_true]
      exact hset₂
    · intro q
      rw [hget₂, getDescriptor, hget₁]
      grind
  · refine ⟨m₁, ?_, ?_, hens₁⟩
    · simp only [recordSpan, hset₁, ok_bind, hone, if_false]
    · intro q
      rw [hget₁]
      grind

/-- `a` is `h` with the new span `j`, not yet in the page map. -/
structure NewIn (h a : PageHeap M) (j : SpanId) (s : Span) : Prop where
  fresh : ¬ Live h j
  live : ∀ k, Live a k ↔ Live h k ∨ k = j
  freeSpans_lt : ∀ k ∈ a.freeSpans, k < a.freshSpan
  freeSpans_nodup : a.freeSpans.Nodup
  span : a.span = Function.update h.span j s
  systemTaken : h.systemTaken ≤ a.systemTaken
  pagemap : a.pagemap = h.pagemap
  lists : a.lists = h.lists
  stats : a.stats = h.stats
  taken : a.taken = h.taken
  committed : a.committed = h.committed
  aggressive : a.aggressiveDecommit = h.aggressiveDecommit
  releaseIndex : a.releaseIndex = h.releaseIndex

/-- The next new span needs metadata, and there is none. -/
def Starved (cfg : Config) (h : PageHeap M) : Prop :=
  h.freeSpans = [] ∧ cfg.metadata h.calls = none

omit [PageMap M SpanId] in
/-- `NewSpan` takes an id that no live span has, or ends the process. -/
theorem newSpan_cases (cfg : Config) (hlt : ∀ k ∈ h.freeSpans, k < h.freshSpan)
    (hnodup : h.freeSpans.Nodup) (p len : Nat) :
    (newSpan cfg h p len = .error .crash ∧ Starved cfg h) ∨
      ∃ a j, newSpan cfg h p len = .ok (a, j) ∧ NewIn h a j ⟨p, len, [], 0, 0, .inUse, false⟩ := by
  unfold newSpan
  cases hfree : h.freeSpans with
  | nil =>
      cases hmeta : cfg.metadata h.calls with
      | none => exact Or.inl ⟨rfl, hfree, hmeta⟩
      | some bytes =>
          refine Or.inr ⟨_, _, rfl, ?_, ?_, ?_, List.nodup_nil, rfl, Nat.le_add_right _ _, rfl, rfl,
            rfl, rfl, rfl, rfl, rfl⟩
          · exact fun hl => Nat.lt_irrefl _ hl.1
          · intro k
            change (k < h.freshSpan + 1 ∧ k ∉ []) ↔
              (k < h.freshSpan ∧ k ∉ h.freeSpans) ∨ k = h.freshSpan
            rw [hfree]
            have hnone : k ∉ ([] : List SpanId) := List.not_mem_nil
            have hsucc := Nat.lt_succ_iff_lt_or_eq (m := k) (n := h.freshSpan)
            tauto
          · exact fun k hk => absurd hk List.not_mem_nil
  | cons j rest =>
      rw [hfree, List.nodup_cons] at hnodup
      rw [hfree] at hlt
      have hj := hlt j (by simp)
      refine Or.inr ⟨_, _, rfl, ?_, ?_, ?_, hnodup.2, rfl, Nat.le_refl _, rfl, rfl, rfl, rfl, rfl, rfl,
        rfl⟩
      · intro hl
        exact hl.2 (by rw [hfree]; simp)
      · intro k
        change (k < h.freshSpan ∧ k ∉ rest) ↔ (k < h.freshSpan ∧ k ∉ h.freeSpans) ∨ k = j
        rw [hfree, List.mem_cons]
        constructor
        · rintro ⟨h1, h2⟩
          by_cases hk : k = j
          · exact Or.inr hk
          · exact Or.inl ⟨h1, by simp [hk, h2]⟩
        · rintro (⟨h1, h2⟩ | rfl)
          · exact ⟨h1, fun hk => h2 (Or.inr hk)⟩
          · exact ⟨hj, hnodup.1⟩
      · exact fun k hk => hlt k (List.mem_cons_of_mem _ hk)

omit [PageMap M SpanId] in
theorem NewIn.assign {a : PageHeap M} {s : Span} (N : NewIn h a j s) (f : Span → Span) :
    NewIn h (a.modifySpan j f) j (f s) :=
  { N with
    span := by
      change Function.update a.span j (f (a.span j)) = _
      rw [N.span, Function.update_idem, Function.update_self] }

/-! ## The edits -/

/-- Lists, statistics and the system's side are the same, or more metadata was taken. -/
structure SameRest (h h' : PageHeap M) : Prop where
  lists : h'.lists = h.lists
  stats : h'.stats = h.stats
  taken : h'.taken = h.taken
  committed : h'.committed = h.committed
  aggressive : h'.aggressiveDecommit = h.aggressiveDecommit
  releaseIndex : h'.releaseIndex = h.releaseIndex
  systemTaken : h.systemTaken ≤ h'.systemTaken

/-- `id` keeps its first `n` pages; the others are the new span `j`. -/
structure CutOf (h h' : PageHeap M) (id j : SpanId) (n : Nat) : Prop extends SameRest h h' where
  fresh : ¬ Live h j
  live : ∀ k, Live h' k ↔ Live h k ∨ k = j
  freeSpans_lt : ∀ k ∈ h'.freeSpans, k < h'.freshSpan
  freeSpans_nodup : h'.freeSpans.Nodup
  span_id : h'.span id = { h.span id with length := n }
  span_other : ∀ k, k ≠ id → k ≠ j → h'.span k = h.span k
  start : (h'.span j).start = (h.span id).start + n
  length : (h'.span j).length = (h.span id).length - n
  sizeclass : (h'.span j).sizeclass = 0
  get : ∀ q, getDescriptor h' q =
    if q = (h.span id).start + n - 1 then some id
    else if q = (h.span id).start + n ∨ q = (h.span id).start + (h.span id).length - 1 then some j
    else getDescriptor h q
  ensured : ∀ q, PageMap.Ensured h'.pagemap q ↔ PageMap.Ensured h.pagemap q

section Cut

variable (C : Core h F) (hl : Live h id) (X : CutOf h h' id j n)
include hl X

theorem CutOf.ne : j ≠ id := by
  rintro rfl
  exact X.fresh hl

theorem CutOf.piece_id : piece h' id = some ((h.span id).start, n) := by
  rw [piece_eq ((X.live id).2 (Or.inl hl)), X.span_id]

omit hl in
theorem CutOf.piece_j : piece h' j = some ((h.span id).start + n, (h.span id).length - n) := by
  rw [piece_eq ((X.live j).2 (Or.inr rfl)), X.start, X.length]

omit hl in
theorem CutOf.piece_other (k : SpanId) (hid : k ≠ id) (hj : k ≠ j) : piece h' k = piece h k := by
  have hlive : Live h' k ↔ Live h k := by
    rw [X.live]
    exact or_iff_left hj
  simp only [piece, hlive, X.span_other k hid hj]

theorem CutOf.covered (hlt : n ≤ (h.span id).length) (p : Nat) :
    Covered (piece h') p ↔ Covered (piece h) p :=
  covered_split (piece_eq hl) (if_neg X.fresh) hlt (X.piece_id hl) X.piece_j X.piece_other p

include C

theorem Core.cut (hF : id ∈ F) (hn : 0 < n) (hlt : n < (h.span id).length)
    (hsize : (h.span id).sizeclass = 0) : Core h' (j :: F) := by
  have hother := X.piece_other
  have htiled : Tiled (piece h') (getDescriptor h') := by
    apply C.tiled.split (piece_eq hl) (if_neg X.fresh) hn hlt (X.piece_id hl) X.piece_j hother
    · rw [X.get, if_pos rfl]
    · rw [X.get, if_neg (by omega), if_pos (Or.inl rfl)]
    · rw [X.get, if_neg (by omega), if_pos (Or.inr rfl)]
    · intro p h1 h2 h3
      rw [X.get, if_neg h1, if_neg (by omega)]
  have hne : ∀ k, k ∉ F → k ≠ id := by
    rintro k hk rfl
    exact hk hF
  have hlive_ne : ∀ k, Live h k → k ≠ j := by
    rintro k hk rfl
    exact X.fresh hk
  have hsame : SameOthers h h' F (j :: F) :=
    { live := by
        intro k
        rw [X.live, List.mem_cons, not_or]
        constructor
        · rintro ⟨h1 | h1, h2, h3⟩
          · exact ⟨h1, h3⟩
          · exact absurd h1 h2
        · rintro ⟨h1, h2⟩
          exact ⟨Or.inl h1, hlive_ne k h1, h2⟩
      span := fun k h1 h2 => X.span_other k (hne k h2) (hlive_ne k h1)
      get := by
        intro k h1 h2 p hlo hhi
        have hoff := C.tiled.off (piece_eq hl) (piece_eq h1) (hne k h2) hlo hhi
        rw [X.get, if_neg (by omega), if_neg (by omega)]
      committed := by
        intro k _ _ p _ _
        rw [X.committed]
      adjacent := by
        intro x y hadj hx hy
        rw [List.mem_cons, not_or] at hx hy
        rcases htiled.adjacent_split (piece_eq hl) hn hlt (X.piece_id hl) X.piece_j hother hadj with
          ⟨rfl, -⟩ | ⟨rfl, -⟩ | ⟨-, -, -, hold⟩
        · exact absurd hF hx.2
        · exact absurd rfl hx.1
        · exact hold
      lists := X.lists
      aggressive := X.aggressive
      freeBytes := by rw [X.stats]
      unmappedBytes := by rw [X.stats] }
  have hground : Ground h' := C.toGround.of_covered
    (fun p => (X.covered hl (Nat.le_of_lt hlt) p).1) (fun p => (X.ensured p).2) X.taken
    X.systemTaken
  apply C.edit hsame hground htiled X.freeSpans_lt X.freeSpans_nodup
  intro k _ hlk hne'
  by_cases hj : k = j
  · subst hj
    exact absurd X.sizeclass hne'
  · by_cases hid : k = id
    · subst hid
      rw [X.span_id] at hne'
      exact absurd hsize hne'
    · have hold := ((X.live k).1 hlk).resolve_right hj
      rw [X.span_other k hid hj] at hne' ⊢
      have hsized := C.sized hold hne'
      refine ⟨hsized.1, fun p hlo hhi => ?_⟩
      have hoff := C.tiled.off (piece_eq hl) (piece_eq hold) hid hlo hhi
      rw [X.get, if_neg (by omega), if_neg (by omega)]
      exact hsized.2 p hlo hhi

end Cut

/-- The writes of a cut: the ends of the new span, and the new last page of the old one.
The statements between them do not touch the page map. -/
theorem cut_ok {a : PageHeap M} {s : Span} (C : Core h F) (hl : Live h id) (hn : 0 < n)
    (hlt : n < (h.span id).length) (N : NewIn h a j s) (hstart : s.start = (h.span id).start + n)
    (hlength : s.length = (h.span id).length - n) (hsize : s.sizeclass = 0) :
    ∃ m₁ m₂, recordSpan a j = .ok { a with pagemap := m₁ } ∧
      (∀ q, q ≠ s.start → q ≠ s.start + s.length - 1 → PageMap.get m₁ q = getDescriptor h q) ∧
      (∀ b : PageHeap M, b.pagemap = m₁ →
        setMap b ((h.span id).start + n - 1) id = .ok { b with pagemap := m₂ }) ∧
      CutOf h { a with
        span := Function.update a.span id { h.span id with length := n }
        pagemap := m₂ } id j n := by
  have hne : j ≠ id := by
    rintro rfl
    exact N.fresh hl
  have hspan : a.span j = s := by rw [N.span, Function.update_self]
  have hensured : ∀ q, (h.span id).start ≤ q → q < (h.span id).start + (h.span id).length →
      PageMap.Ensured a.pagemap q := by
    intro q hlo hhi
    rw [N.pagemap]
    exact C.ensured (covered_of_live hl hlo hhi)
  have hget : ∀ q, getDescriptor a q = getDescriptor h q := by
    intro q
    rw [getDescriptor, N.pagemap]
    rfl
  obtain ⟨m₁, hrecord, hget₁, hens₁⟩ := recordSpan_ok a j
    (by rw [hspan, hlength]; omega)
    (by rw [hspan, hstart]; exact hensured _ (by omega) (by omega))
    (by rw [hspan, hstart, hlength]; exact hensured _ (by omega) (by omega))
  rw [hspan] at hget₁
  obtain ⟨m₂, hset, hget₂, hens₂⟩ := PageMap.set_spec (some id)
    ((hens₁ ((h.span id).start + n - 1)).2 (hensured _ (by omega) (by omega)))
  refine ⟨m₁, m₂, hrecord, ?_, ?_, ?_⟩
  · intro q h1 h2
    rw [hget₁, if_neg (by omega), hget]
  · intro b hb
    rw [setMap, hb, hset]
  · exact
      { N with
        span_id := Function.update_self _ _ _
        span_other := by
          intro k hk hk'
          change Function.update a.span id _ k = _
          rw [Function.update_of_ne hk, N.span, Function.update_of_ne hk']
        start := by
          change (Function.update a.span id _ j).start = _
          rw [Function.update_of_ne hne, hspan, hstart]
        length := by
          change (Function.update a.span id _ j).length = _
          rw [Function.update_of_ne hne, hspan, hlength]
        sizeclass := by
          change (Function.update a.span id _ j).sizeclass = _
          rw [Function.update_of_ne hne, hspan, hsize]
        get := by
          intro q
          have hends : (q = s.start ∨ q = s.start + s.length - 1) ↔
              (q = (h.span id).start + n ∨ q = (h.span id).start + (h.span id).length - 1) := by
            omega
          change PageMap.get m₂ q = _
          rw [hget₂, hget₁, hget]
          simp only [hends]
        ensured := by
          intro q
          rw [hens₂, hens₁, N.pagemap] }

/-- `j` is deleted and its pages go to `id`, which then has the `l` pages from `c` on. -/
structure JoinOf (h h' : PageHeap M) (id j : SpanId) (c l : Nat) : Prop extends SameRest h h' where
  live : ∀ k, Live h' k ↔ Live h k ∧ k ≠ j
  freeSpans_lt : ∀ k ∈ h'.freeSpans, k < h'.freshSpan
  freeSpans_nodup : h'.freeSpans.Nodup
  start : (h'.span id).start = c
  length : (h'.span id).length = l
  location : (h'.span id).location = (h.span id).location
  sizeclass : (h'.span id).sizeclass = (h.span id).sizeclass
  span_other : ∀ k, k ≠ id → k ≠ j → h'.span k = h.span k
  both : ∀ p, (c ≤ p ∧ p < c + l) ↔
    ((h.span id).start ≤ p ∧ p < (h.span id).start + (h.span id).length) ∨
      ((h.span j).start ≤ p ∧ p < (h.span j).start + (h.span j).length)
  first : getDescriptor h' c = some id
  last : getDescriptor h' (c + l - 1) = some id
  get : ∀ q, q ≠ c → q ≠ c + l - 1 → getDescriptor h' q = getDescriptor h q
  ensured : ∀ q, PageMap.Ensured h'.pagemap q ↔ PageMap.Ensured h.pagemap q

section Join

variable {c l : Nat} (hl : Live h id) (hlj : Live h j) (hne : j ≠ id) (X : JoinOf h h' id j c l)
include X

omit hl hlj hne in
theorem JoinOf.piece_j : piece h' j = none :=
  if_neg fun hj => ((X.live j).1 hj).2 rfl

omit hl hlj hne in
theorem JoinOf.piece_other (k : SpanId) (hid : k ≠ id) (hj : k ≠ j) : piece h' k = piece h k := by
  have hlive : Live h' k ↔ Live h k := by
    rw [X.live]
    exact and_iff_left hj
  simp only [piece, hlive, X.span_other k hid hj]

include hl hne

omit hlj in
theorem JoinOf.live_id : Live h' id := (X.live id).2 ⟨hl, hne.symm⟩

omit hlj in
theorem JoinOf.piece_id : piece h' id = some (c, l) := by
  rw [piece_eq (X.live_id hl hne), X.start, X.length]

include hlj

theorem JoinOf.covered (p : Nat) : Covered (piece h') p ↔ Covered (piece h) p :=
  covered_join (piece_eq hl) (piece_eq hlj) X.both (X.piece_id hl hne) X.piece_j X.piece_other p

/-- The neighbours of the joined span were neighbours of one of the two. -/
theorem JoinOf.adjacent (C : Core h F) {x y : SpanId} (hadj : Adjacent (piece h') x y) :
    (x = id ∧ y ≠ id ∧ y ≠ j ∧ (Adjacent (piece h) id y ∨ Adjacent (piece h) j y)) ∨
      (y = id ∧ x ≠ id ∧ x ≠ j ∧ (Adjacent (piece h) x id ∨ Adjacent (piece h) x j)) ∨
      (x ≠ id ∧ x ≠ j ∧ y ≠ id ∧ y ≠ j ∧ Adjacent (piece h) x y) :=
  C.tiled.adjacent_join (piece_eq hl) (piece_eq hlj) X.both (X.piece_id hl hne) X.piece_j
    X.piece_other hadj

theorem Core.join (C : Core h (j :: id :: F)) (hsize : (h.span id).sizeclass = 0) :
    Core h' (id :: F) := by
  have htiled : Tiled (piece h') (getDescriptor h') :=
    C.tiled.join (piece_eq hl) (piece_eq hlj) hne X.both (X.piece_id hl hne) X.piece_j
      X.piece_other X.first X.last X.get
  -- the pages of another span are no ends of the joined one
  have hget : ∀ k, Live h k → k ≠ id → k ≠ j → ∀ p, (h.span k).start ≤ p →
      p < (h.span k).start + (h.span k).length → getDescriptor h' p = getDescriptor h p := by
    intro k hk hid hj p hlo hhi
    have h1 := C.tiled.off (piece_eq hl) (piece_eq hk) hid hlo hhi
    have h2 := C.tiled.off (piece_eq hlj) (piece_eq hk) hj hlo hhi
    have hpos := C.length_pos hl
    have hin := (X.both (h.span id).start).2 (Or.inl ⟨Nat.le_refl _, by omega⟩)
    have hout := (X.both p).not.2 (by omega)
    exact X.get p (by omega) (by omega)
  have hsplit : ∀ k, k ∉ j :: id :: F ↔ k ≠ j ∧ k ≠ id ∧ k ∉ F := by
    intro k
    rw [List.mem_cons, not_or, List.mem_cons, not_or]
  have hsame : SameOthers h h' (j :: id :: F) (id :: F) :=
    { live := by
        intro k
        rw [X.live, hsplit, List.mem_cons, not_or]
        tauto
      span := by
        intro k _ hk
        rw [hsplit] at hk
        exact X.span_other k hk.2.1 hk.1
      get := by
        intro k hk hkF
        rw [hsplit] at hkF
        exact hget k hk hkF.2.1 hkF.1
      committed := by
        intro k _ _ p _ _
        rw [X.committed]
      adjacent := by
        intro x y hadj hx hy
        rw [List.mem_cons, not_or] at hx hy
        rcases X.adjacent hl hlj hne C hadj with ⟨rfl, -⟩ | ⟨rfl, -⟩ | ⟨-, -, -, -, hold⟩
        · exact absurd rfl hx.1
        · exact absurd rfl hy.1
        · exact hold
      lists := X.lists
      aggressive := X.aggressive
      freeBytes := by rw [X.stats]
      unmappedBytes := by rw [X.stats] }
  have hground : Ground h' := C.toGround.of_covered (fun p => (X.covered hl hlj hne p).1)
    (fun p => (X.ensured p).2) X.taken X.systemTaken
  apply C.edit hsame hground htiled X.freeSpans_lt X.freeSpans_nodup
  intro k _ hlk hne'
  by_cases hid : k = id
  · subst hid
    rw [X.sizeclass] at hne'
    exact absurd hsize hne'
  · obtain ⟨hold, hj⟩ := (X.live k).1 hlk
    rw [X.span_other k hid hj] at hne' ⊢
    have hsized := C.sized hold hne'
    refine ⟨hsized.1, fun p hlo hhi => ?_⟩
    rw [hget k hold hid hj p hlo hhi]
    exact hsized.2 p hlo hhi

end Join

/-! ## Fields, memory and interior pages -/

/-- Fields other than the pages of a span in hand can be set, with no size class. -/
theorem Core.assign {f : Span → Span} (C : Core h F) (hF : id ∈ F)
    (hstart : (f (h.span id)).start = (h.span id).start)
    (hlength : (f (h.span id)).length = (h.span id).length)
    (hsize : (f (h.span id)).sizeclass = 0) : Core (h.modifySpan id f) F := by
  have hpiece := piece_modifySpan hstart hlength
  have hsame : SameOthers h (h.modifySpan id f) F F :=
    { live := fun k => Iff.rfl
      span := by
        intro k _ hk
        apply modifySpan_of_ne
        rintro rfl
        exact hk hF
      get := fun k _ _ p _ _ => rfl
      committed := fun k _ _ p _ _ => rfl
      adjacent := by
        intro i j hadj _ _
        rw [hpiece] at hadj
        exact hadj
      lists := rfl
      aggressive := rfl
      freeBytes := rfl
      unmappedBytes := rfl }
  have hground : Ground (h.modifySpan id f) :=
    C.toGround.of_covered (fun p hp => hpiece ▸ hp) (fun p hp => hp) rfl (Nat.le_refl _)
  have htiled : Tiled (piece (h.modifySpan id f)) (getDescriptor (h.modifySpan id f)) := by
    rw [hpiece]
    exact C.tiled
  apply C.edit hsame hground htiled C.freeSpans_lt C.freeSpans_nodup
  intro k _ hl hne
  by_cases hk : k = id
  · subst hk
    rw [modifySpan_self] at hne
    exact absurd hsize hne
  · rw [modifySpan_of_ne hk] at hne ⊢
    exact C.sized hl hne

/-- Committing or decommitting the pages of a span in hand; `stats` may count the bytes. -/
theorem Core.commit (C : Core h F) (hl : Live h id) (hF : id ∈ F) (b : Bool) (calls : Nat)
    {stats : Stats} (hfree : stats.freeBytes = h.stats.freeBytes)
    (hunmapped : stats.unmappedBytes = h.stats.unmappedBytes) :
    Core { h with committed := h.setCommitted id b, calls := calls, stats := stats } F := by
  have hsame : SameOthers h
      { h with committed := h.setCommitted id b, calls := calls, stats := stats } F F :=
    { live := fun k => Iff.rfl
      span := fun _ _ _ => rfl
      get := fun k _ _ p _ _ => rfl
      committed := by
        intro k hk hkF p hlo hhi
        have hne : k ≠ id := by
          rintro rfl
          exact hkF hF
        have hoff := C.tiled.off (piece_eq hl) (piece_eq hk) hne hlo hhi
        simp only [setCommitted]
        rw [if_neg (by omega)]
      adjacent := fun i j hadj _ _ => hadj
      lists := rfl
      aggressive := rfl
      freeBytes := hfree
      unmappedBytes := hunmapped }
  exact C.edit hsame { C.toGround with } C.tiled C.freeSpans_lt C.freeSpans_nodup
    fun k _ hlk hne => C.sized hlk hne

/-- `j` is a new span `s`, named in the page map. -/
structure AddOf (h h' : PageHeap M) (j : SpanId) (s : Span) : Prop extends SameRest h h' where
  fresh : ¬ Live h j
  live : ∀ k, Live h' k ↔ Live h k ∨ k = j
  freeSpans_lt : ∀ k ∈ h'.freeSpans, k < h'.freshSpan
  freeSpans_nodup : h'.freeSpans.Nodup
  span_j : h'.span j = s
  span_other : ∀ k, k ≠ j → h'.span k = h.span k
  get : ∀ q, getDescriptor h' q =
    if q = s.start ∨ q = s.start + s.length - 1 then some j else getDescriptor h q
  ensured : ∀ q, PageMap.Ensured h'.pagemap q ↔ PageMap.Ensured h.pagemap q

/-- `RecordSpan` of a new span. -/
theorem NewIn.record {a : PageHeap M} {s : Span} (N : NewIn h a j s) (hpos : 0 < s.length)
    (hensured : ∀ p, s.start ≤ p → p < s.start + s.length → PageMap.Ensured h.pagemap p) :
    ∃ h', recordSpan a j = .ok h' ∧ AddOf h h' j s := by
  have hspan : a.span j = s := by rw [N.span, Function.update_self]
  have hens : ∀ p, s.start ≤ p → p < s.start + s.length → PageMap.Ensured a.pagemap p := by
    intro p hlo hhi
    rw [N.pagemap]
    exact hensured p hlo hhi
  obtain ⟨m, hrecord, hget, hens'⟩ := recordSpan_ok a j (by rw [hspan]; exact hpos)
    (by rw [hspan]; exact hens _ (Nat.le_refl _) (by omega))
    (by rw [hspan]; exact hens _ (by omega) (by omega))
  rw [hspan] at hget
  have hsame : ∀ q, getDescriptor a q = getDescriptor h q := by
    intro q
    rw [getDescriptor, N.pagemap]
    rfl
  simp only [hsame] at hget
  rw [N.pagemap] at hens'
  exact ⟨_, hrecord,
    { N with
      span_j := hspan
      span_other := by
        intro k hk
        change a.span k = _
        rw [N.span, Function.update_of_ne hk]
      get := hget
      ensured := hens' }⟩

section Add

variable {s : Span} (X : AddOf h h' j s)
include X

theorem AddOf.piece_fresh : piece h j = none := if_neg X.fresh

theorem AddOf.piece_j : piece h' j = some (s.start, s.length) := by
  rw [piece_eq ((X.live j).2 (Or.inr rfl)), X.span_j]

theorem AddOf.piece_other (k : SpanId) (hk : k ≠ j) : piece h' k = piece h k := by
  have hiff : Live h' k ↔ Live h k := (X.live k).trans (or_iff_left hk)
  simp only [piece, hiff, X.span_other k hk]

theorem AddOf.covered (p : Nat) :
    Covered (piece h') p ↔ Covered (piece h) p ∨ (s.start ≤ p ∧ p < s.start + s.length) :=
  covered_add X.piece_fresh X.piece_j X.piece_other p

theorem AddOf.ne {k : SpanId} (hk : Live h k) : k ≠ j := by
  rintro rfl
  exact X.fresh hk

/-- The pages of other spans are none of the new one. -/
theorem AddOf.get_other (hpos : 0 < s.length)
    (hfree : ∀ p, s.start ≤ p → p < s.start + s.length → ¬ Covered (piece h) p)
    {k : SpanId} (hk : Live h k) (p : Nat) (hlo : (h.span k).start ≤ p)
    (hhi : p < (h.span k).start + (h.span k).length) : getDescriptor h' p = getDescriptor h p := by
  have hcov := covered_of_live hk hlo hhi
  have hout : ¬ (s.start ≤ p ∧ p < s.start + s.length) := fun hin => hfree p hin.1 hin.2 hcov
  exact (X.get p).trans (if_neg (by omega))

/-- The new pages are taken from the system, and there are as many more of them. -/
theorem Ground.add (G : Ground h)
    (hensured : ∀ p, s.start ≤ p → p < s.start + s.length → PageMap.Ensured h.pagemap p)
    (hinside : ∀ p, s.start ≤ p → p < s.start + s.length → TakenPage h.taken p)
    (hroom : ∀ t : Finset Nat, (∀ p ∈ t, Covered (piece h) p) →
      (t.card + s.length) * kPageSize ≤ h.systemTaken) : Ground h' where
  ensured := by
    intro p hp
    rcases (X.covered p).1 hp with hp | hp
    · exact (X.ensured p).2 (G.ensured hp)
    · exact (X.ensured p).2 (hensured p hp.1 hp.2)
  inside := by
    intro p hp
    rw [X.taken]
    rcases (X.covered p).1 hp with hp | hp
    · exact G.inside hp
    · exact hinside p hp.1 hp.2
  address := by
    rw [X.taken]
    exact G.address
  sparse := by
    rw [X.taken]
    exact G.sparse
  room := by
    intro t ht
    -- the pages of the new span, and the others
    have hnew : (t.filter fun p => s.start ≤ p ∧ p < s.start + s.length).card ≤ s.length := by
      calc (t.filter fun p => s.start ≤ p ∧ p < s.start + s.length).card
          ≤ (Finset.Ico s.start (s.start + s.length)).card := by
            apply Finset.card_le_card
            intro p hp
            exact Finset.mem_Ico.2 (Finset.mem_filter.1 hp).2
        _ = s.length := by rw [Nat.card_Ico, Nat.add_sub_cancel_left]
    have hold := hroom (t.filter fun p => ¬ (s.start ≤ p ∧ p < s.start + s.length)) (by
      intro p hp
      obtain ⟨h1, h2⟩ := Finset.mem_filter.1 hp
      exact ((X.covered p).1 (ht p h1)).resolve_right h2)
    have hsum := Finset.card_filter_add_card_filter_not (s := t)
      (fun p => s.start ≤ p ∧ p < s.start + s.length)
    calc t.card * kPageSize
        ≤ ((t.filter fun p => ¬ (s.start ≤ p ∧ p < s.start + s.length)).card + s.length) *
            kPageSize := Nat.mul_le_mul_right _ (by omega)
      _ ≤ h.systemTaken := hold
      _ ≤ h'.systemTaken := X.systemTaken

/-- A new span over pages that no span has. -/
theorem Core.add (C : Core h F) (hpos : 0 < s.length) (hsize : s.sizeclass = 0)
    (hfree : ∀ p, s.start ≤ p → p < s.start + s.length → ¬ Covered (piece h) p)
    (hground : Ground h') : Core h' (j :: F) := by
  have htiled : Tiled (piece h') (getDescriptor h') := by
    apply C.tiled.add X.piece_fresh hpos hfree X.piece_j X.piece_other
    · exact (X.get _).trans (if_pos (Or.inl rfl))
    · exact (X.get _).trans (if_pos (Or.inr rfl))
    · exact fun p h1 h2 => (X.get p).trans (if_neg (by omega))
  have hsame : SameOthers h h' F (j :: F) :=
    { live := by
        intro k
        rw [X.live, List.mem_cons, not_or]
        constructor
        · rintro ⟨h1 | h1, h2, h3⟩
          · exact ⟨h1, h3⟩
          · exact absurd h1 h2
        · rintro ⟨h1, h2⟩
          exact ⟨Or.inl h1, X.ne h1, h2⟩
      span := fun k hk _ => X.span_other k (X.ne hk)
      get := fun k hk _ => X.get_other hpos hfree hk
      committed := by
        intro k _ _ p _ _
        rw [X.committed]
      adjacent := by
        intro x y hadj hx hy
        rw [List.mem_cons, not_or] at hx hy
        obtain ⟨b, m, q, h1, h2⟩ := hadj
        rw [X.piece_other x hx.1] at h1
        rw [X.piece_other y hy.1] at h2
        exact ⟨b, m, q, h1, h2⟩
      lists := X.lists
      aggressive := X.aggressive
      freeBytes := by rw [X.stats]
      unmappedBytes := by rw [X.stats] }
  apply C.edit hsame hground htiled X.freeSpans_lt X.freeSpans_nodup
  intro k _ hlk hne
  by_cases hk : k = j
  · subst hk
    rw [X.span_j] at hne
    exact absurd hsize hne
  · have hold := ((X.live k).1 hlk).resolve_right hk
    rw [X.span_other k hk] at hne ⊢
    have hsized := C.sized hold hne
    refine ⟨hsized.1, fun p hlo hhi => ?_⟩
    rw [X.get_other hpos hfree hold p hlo hhi]
    exact hsized.2 p hlo hhi

end Add

/-- Interior pages of a span may be named in the page map as well. -/
theorem Core.mark {m : M} (C : Core h F) (hl : Live h id) {sc : Nat}
    (hloc : (h.span id).location = .inUse)
    (hget : ∀ q, PageMap.get m q = getDescriptor h q ∨
      (PageMap.get m q = some id ∧ (h.span id).start ≤ q ∧
        q < (h.span id).start + (h.span id).length))
    (hall : ∀ q, (h.span id).start ≤ q → q < (h.span id).start + (h.span id).length →
      PageMap.get m q = some id)
    (hens : ∀ q, PageMap.Ensured m q ↔ PageMap.Ensured h.pagemap q) :
    Core { h.modifySpan id (fun s => { s with sizeclass := sc }) with pagemap := m } F := by
  let h' : PageHeap M :=
    { h.modifySpan id (fun s => { s with sizeclass := sc }) with pagemap := m }
  have hpiece : piece h' = piece h :=
    have hsame : piece (h.modifySpan id fun s => { s with sizeclass := sc }) = piece h :=
      piece_modifySpan rfl rfl
    hsame
  have htiled : Tiled (piece h') (getDescriptor h') := by
    rw [hpiece]
    exact C.tiled.mark (piece_eq hl) hget
  have hspan : ∀ k, k ≠ id → h'.span k = h.span k := fun k hk => Function.update_of_ne hk _ _
  have hself : h'.span id = { h.span id with sizeclass := sc } := Function.update_self _ _ _
  have hfields : ∀ k, (h'.span k).location = (h.span k).location ∧
      (h'.span k).start = (h.span k).start ∧ (h'.span k).length = (h.span k).length := by
    intro k
    by_cases hk : k = id
    · subst hk
      rw [hself]
      exact ⟨rfl, rfl, rfl⟩
    · rw [hspan k hk]
      exact ⟨rfl, rfl, rfl⟩
  have hpages : ∀ hd, pagesOn h' hd = pagesOn h hd :=
    fun hd => pagesOn_congr rfl fun k _ => (hfields k).2.2
  have hground : Ground h' := C.toGround.of_covered (fun p hp => by rwa [hpiece] at hp)
    (fun p => (hens p).2) rfl (Nat.le_refl _)
  exact
    { hground with
      tiled := htiled
      freeSpans_lt := C.freeSpans_lt
      freeSpans_nodup := C.freeSpans_nodup
      mem_lists := by
        intro hd k
        have hheader : headerOf (h'.span k) = headerOf (h.span k) := by
          unfold headerOf
          rw [(hfields k).1, (hfields k).2.2]
        change k ∈ h.lists hd ↔ Live h k ∧ k ∉ F ∧ headerOf (h'.span k) = some hd
        rw [hheader]
        exact C.mem_lists
      lists_nodup := C.lists_nodup
      sized := by
        intro k hk hne
        change (h'.span k).location = .inUse ∧ ∀ p, (h'.span k).start ≤ p →
          p < (h'.span k).start + (h'.span k).length → PageMap.get m p = some k
        rw [(hfields k).1, (hfields k).2.1, (hfields k).2.2]
        by_cases hid : k = id
        · subst hid
          exact ⟨hloc, hall⟩
        · have hne' : (h.span k).sizeclass ≠ 0 := by
            rw [← hspan k hid]
            exact hne
          have hsized := C.sized hk hne'
          refine ⟨hsized.1, fun p hlo hhi => ?_⟩
          have hoff := C.tiled.off (piece_eq hl) (piece_eq hk) hid hlo hhi
          rcases hget p with heq | ⟨-, hin⟩
          · rw [heq]
            exact hsized.2 p hlo hhi
          · omega
      free := C.free.trans (congrArg bytesOf (totalPages_congr .normal fun k => hpages _).symm)
      unmapped :=
        C.unmapped.trans (congrArg bytesOf (totalPages_congr .returned fun k => hpages _).symm)
      backed := by
        intro k hk hF
        change (h'.span k).location ≠ _ → ∀ p, (h'.span k).start ≤ p →
          p < (h'.span k).start + (h'.span k).length → h.committed p = true
        rw [(hfields k).1, (hfields k).2.1, (hfields k).2.2]
        exact C.backed hk hF
      apart := by
        intro x y hadj hx hy
        change ¬ Mergeable _ (h'.span x).location (h'.span y).location
        change Adjacent (piece h') x y at hadj
        rw [hpiece] at hadj
        rw [(hfields x).1, (hfields y).1]
        exact C.apart hadj hx hy }

end SatAllocatorTest.Ports.TCmalloc.PageHeap
