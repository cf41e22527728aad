import SatAllocatorTest.Ports.PageHeapEdits

/-!
# Joining a free span with its neighbours

`MergeIntoFreeList` joins a span in hand with each neighbour that may be merged, and puts
it on its list.  `landed` is what the statistics are at the end; a merge on the way does
not change it, in either mode, as long as with `aggressive_decommit_` no span is on a
normal list (`Quiet`) and the system takes memory back.
-/

namespace SatAllocatorTest.Ports.TCmalloc.PageHeap

open SatAllocatorTest.Verified.Tilings

variable {M : Type} [PageMap M SpanId]
variable {h h' h'' : PageHeap M} {F : List SpanId} {id other : SpanId} {p n : Nat} {cfg : Config}

/-- With `aggressive_decommit_` all free spans are returned. -/
def Quiet (h : PageHeap M) : Prop := h.aggressiveDecommit = true → ∀ i, h.lists (.normal i) = []

/-- No span before this one can be merged with it. -/
def LeftClear (h : PageHeap M) (id : SpanId) : Prop :=
  ∀ k, Adjacent (piece h) k id →
    ¬ Mergeable h.aggressiveDecommit (h.span k).location (h.span id).location

/-- No span behind this one can be merged with it. -/
def RightClear (h : PageHeap M) (id : SpanId) : Prop :=
  ∀ k, Adjacent (piece h) id k →
    ¬ Mergeable h.aggressiveDecommit (h.span id).location (h.span k).location

/-- All pages of a span are backed by memory. -/
def Backed (h : PageHeap M) (id : SpanId) : Prop :=
  ∀ p, (h.span id).start ≤ p → p < (h.span id).start + (h.span id).length → h.committed p = true

/-- The statistics when the span in hand is on its list, with `temp` for `temp_committed`. -/
def landed (h : PageHeap M) (id : SpanId) (temp : UInt64) : Stats :=
  if h.aggressiveDecommit then
    { h.stats with
      unmappedBytes := h.stats.unmappedBytes + bytesOf (h.span id).length
      committedBytes := h.stats.committedBytes - bytesOf (h.span id).length + temp }
  else statsWith h.stats (h.span id)

/-- What merges do while span `id` is in hand: it grows, free spans go, all else stays. -/
structure Merged (h h' : PageHeap M) (id : SpanId) (temp : UInt64) : Prop where
  core : Core h' [id]
  live : Live h' id
  live_of : ∀ k, Live h' k → Live h k
  kept : ∀ k, Live h k → (h.span k).location = .inUse → Live h' k
  span : ∀ k, Live h' k → k ≠ id → h'.span k = h.span k
  absorbs : ∀ k, Live h k → Live h' k ∨ (h.span k).length ≤ (h'.span id).length
  location : (h'.span id).location = (h.span id).location
  sizeclass : (h'.span id).sizeclass = (h.span id).sizeclass
  start_le : (h'.span id).start ≤ (h.span id).start
  end_le : (h.span id).start + (h.span id).length ≤ (h'.span id).start + (h'.span id).length
  covered : ∀ p, Covered (piece h') p ↔ Covered (piece h) p
  backed : h.aggressiveDecommit = false → (h.span id).location = .onNormalFreelist →
    Backed h id → Backed h' id
  stats : ∀ t, landed h' id (t + temp) = landed h id t
  quiet : Quiet h → Quiet h'
  sublist : ∀ hd, (h'.lists hd).Sublist (h.lists hd)
  taken : h'.taken = h.taken
  systemTaken : h'.systemTaken = h.systemTaken
  committed : h'.committed = h.committed
  aggressive : h'.aggressiveDecommit = h.aggressiveDecommit
  releaseIndex : h'.releaseIndex = h.releaseIndex

theorem Merged.rfl' (C : Core h [id]) (hl : Live h id) : Merged h h id 0 where
  core := C
  live := hl
  live_of := fun _ hk => hk
  kept := fun _ hk _ => hk
  span := fun _ _ _ => rfl
  absorbs := fun _ hk => Or.inl hk
  location := rfl
  sizeclass := rfl
  start_le := Nat.le_refl _
  end_le := Nat.le_refl _
  covered := fun _ => Iff.rfl
  backed := fun _ _ hb => hb
  stats := fun t => by rw [UInt64.add_zero]
  quiet := fun hq => hq
  sublist := fun _ => List.Sublist.refl _
  taken := rfl
  systemTaken := rfl
  committed := rfl
  aggressive := rfl
  releaseIndex := rfl

theorem Merged.length_le {temp : UInt64} (m : Merged h h' id temp) :
    (h.span id).length ≤ (h'.span id).length := by
  have hstart := m.start_le
  have hend := m.end_le
  omega

theorem Merged.trans {temp temp' : UInt64} (h₁ : Merged h h' id temp) (h₂ : Merged h' h'' id temp')
    (hinUse : (h.span id).location ≠ .inUse) : Merged h h'' id (temp + temp') where
  core := h₂.core
  live := h₂.live
  live_of := fun k hk => h₁.live_of k (h₂.live_of k hk)
  kept := by
    intro k hk hloc
    have hne : k ≠ id := by
      rintro rfl
      exact hinUse hloc
    have hk' := h₁.kept k hk hloc
    apply h₂.kept k hk'
    rw [h₁.span k hk' hne]
    exact hloc
  span := fun k hk hne => (h₂.span k hk hne).trans (h₁.span k (h₂.live_of k hk) hne)
  absorbs := by
    intro k hk
    rcases h₁.absorbs k hk with hk' | hle
    · rcases h₂.absorbs k hk' with hk'' | hle
      · exact Or.inl hk''
      · by_cases hid : k = id
        · subst hid
          exact Or.inl h₂.live
        · rw [h₁.span k hk' hid] at hle
          exact Or.inr hle
    · exact Or.inr (Nat.le_trans hle h₂.length_le)
  location := h₂.location.trans h₁.location
  sizeclass := h₂.sizeclass.trans h₁.sizeclass
  start_le := Nat.le_trans h₂.start_le h₁.start_le
  end_le := Nat.le_trans h₁.end_le h₂.end_le
  covered := fun p => (h₂.covered p).trans (h₁.covered p)
  backed := by
    intro ha hloc hb
    apply h₂.backed (h₁.aggressive.trans ha) (h₁.location.trans hloc)
    exact h₁.backed ha hloc hb
  stats := by
    intro t
    rw [← UInt64.add_assoc, h₂.stats, h₁.stats]
  quiet := fun hq => h₂.quiet (h₁.quiet hq)
  sublist := fun hd => (h₂.sublist hd).trans (h₁.sublist hd)
  taken := h₂.taken.trans h₁.taken
  systemTaken := h₂.systemTaken.trans h₁.systemTaken
  committed := h₂.committed.trans h₁.committed
  aggressive := h₂.aggressive.trans h₁.aggressive
  releaseIndex := h₂.releaseIndex.trans h₁.releaseIndex

omit [PageMap M SpanId] in
/-- The spans that `MayMergeSpans` allows are on lists and can be merged. -/
theorem mayMerge_iff (hinUse : (h.span id).location ≠ .inUse) :
    mayMergeSpans h id other = true ↔
      Mergeable h.aggressiveDecommit (h.span other).location (h.span id).location := by
  unfold mayMergeSpans Mergeable
  cases h.aggressiveDecommit with
  | true => simp [hinUse]
  | false =>
      simp only [Bool.false_eq_true, if_false, decide_eq_true_eq, false_or]
      constructor
      · intro heq
        exact ⟨heq ▸ hinUse, hinUse, heq.symm⟩
      · exact fun hm => hm.2.2.symm

omit [PageMap M SpanId] in
theorem mergeable_comm {b : Bool} {l l' : Location} : Mergeable b l l' ↔ Mergeable b l' l := by
  unfold Mergeable
  rw [eq_comm (a := l)]
  tauto

/-- In the quiet mode a span on a list is returned. -/
theorem Core.returned (C : Core h F) (hquiet : Quiet h) (ha : h.aggressiveDecommit = true)
    (hl : Live h other) (hF : other ∉ F) (hinUse : (h.span other).location ≠ .inUse) :
    (h.span other).location = .onReturnedFreelist := by
  cases hloc : (h.span other).location with
  | inUse => exact absurd hloc hinUse
  | onNormalFreelist =>
      have hmem : other ∈ h.lists (.normal (listIndex (h.span other).length)) :=
        C.mem_lists.2 ⟨hl, hF, by rw [headerOf, hloc]⟩
      rw [hquiet ha] at hmem
      cases hmem
  | onReturnedFreelist => rfl

/-! ## One merge -/

/-- The heap when `other` was taken off its list and deleted and `id` has its pages. -/
def absorbed (h : PageHeap M) (id other : SpanId) (f : Span → Span) : PageHeap M :=
  ((takenOff h other).deleteSpan other).modifySpan id f

section Absorb

variable {f : Span → Span} {c l : Nat}

omit [PageMap M SpanId] in
theorem absorbed_span (hne : other ≠ id) : (absorbed h id other f).span id = f (h.span id) := by
  rw [absorbed, modifySpan_self]
  have hsame : ((takenOff h other).deleteSpan other).span id = h.span id :=
    Function.update_of_ne hne.symm _ _
  rw [hsame]

/-- Once the page map is written, `id` is the span of both. -/
theorem absorbed_joinOf {m : M} (C : Core h F) (hlo : Live h other)
    (hne : other ≠ id) (hf : f (h.span id) = { h.span id with start := c, length := l })
    (hboth : ∀ p, (c ≤ p ∧ p < c + l) ↔
      ((h.span id).start ≤ p ∧ p < (h.span id).start + (h.span id).length) ∨
        ((h.span other).start ≤ p ∧ p < (h.span other).start + (h.span other).length))
    {q : Nat} (hq : q = c ∨ q = c + l - 1)
    (hends : ∀ e, e = c ∨ e = c + l - 1 → e ≠ q → getDescriptor h e = some id)
    (hget : ∀ e, PageMap.get m e = if e = q then some id else getDescriptor h e)
    (hens : ∀ e, PageMap.Ensured m e ↔ PageMap.Ensured h.pagemap e) :
    JoinOf (takenOff h other) { absorbed h id other f with pagemap := m } id other c l := by
  let h' : PageHeap M := { absorbed h id other f with pagemap := m }
  have hspan_id : h'.span id = { h.span id with start := c, length := l } := by
    rw [← hf]
    exact absorbed_span hne
  exact
    { lists := rfl
      stats := rfl
      taken := rfl
      committed := rfl
      aggressive := rfl
      releaseIndex := rfl
      systemTaken := Nat.le_refl _
      live := by
        intro k
        change (k < h.freshSpan ∧ k ∉ other :: h.freeSpans) ↔ Live h k ∧ k ≠ other
        rw [List.mem_cons, not_or, Live]
        tauto
      freeSpans_lt := by
        intro k hk
        rcases List.mem_cons.1 hk with rfl | hk
        · exact hlo.1
        · exact C.freeSpans_lt k hk
      freeSpans_nodup := List.nodup_cons.2 ⟨hlo.2, C.freeSpans_nodup⟩
      start := by
        change (h'.span id).start = c
        rw [hspan_id]
      length := by
        change (h'.span id).length = l
        rw [hspan_id]
      location := by
        change (h'.span id).location = _
        rw [hspan_id]
        rfl
      sizeclass := by
        change (h'.span id).sizeclass = _
        rw [hspan_id]
        rfl
      span_other := by
        intro k hk hk'
        change (((takenOff h other).deleteSpan other).modifySpan id f).span k = _
        rw [modifySpan_of_ne hk]
        exact Function.update_of_ne hk' _ _
      both := hboth
      first := by
        by_cases hc : c = q
        · exact (hget c).trans (if_pos hc)
        · exact (hget c).trans ((if_neg hc).trans (hends c (Or.inl rfl) hc))
      last := by
        by_cases hc : c + l - 1 = q
        · exact (hget _).trans (if_pos hc)
        · exact (hget _).trans ((if_neg hc).trans (hends _ (Or.inr rfl) hc))
      get := by
        intro e h1 h2
        exact (hget e).trans (if_neg (by omega))
      ensured := hens }

section Joined

variable (X : JoinOf (takenOff h other) h' id other c l) (C : Core h [id]) (hlo : Live h other)
  (hne : other ≠ id) (hquiet : Quiet h)
  (hmergeable : Mergeable h.aggressiveDecommit (h.span other).location (h.span id).location)
  (hlen : l = (h.span id).length + (h.span other).length)
include X C hlo hne hquiet hmergeable hlen

/-- The join takes `other` off its list, and the span in hand makes up for it. -/
theorem JoinOf.stats_landed (t : UInt64) :
    landed h' id (t + tempCommitted h other) = landed h id t := by
  have hother : other ∉ [id] := by simpa using hne
  have hlen' : (h'.span id).length = (h.span id).length + (h.span other).length :=
    X.length.trans hlen
  have hloc : (h'.span id).location = (h.span id).location := X.location
  have hstats : h'.stats = statsWithout h.stats (h.span other) := X.stats
  have haggr : h'.aggressiveDecommit = h.aggressiveDecommit := X.aggressive
  unfold landed tempCommitted
  rw [haggr, hstats]
  cases ha : h.aggressiveDecommit with
  | true =>
      have hret := C.returned hquiet ha hlo hother hmergeable.1
      simp only [statsWithout, hret, hlen', bytesOf_add, if_true, true_and, reduceCtorEq,
        if_false, Stats.mk.injEq]
      grind
  | false =>
      have heq := hmergeable.2.2.resolve_left (by simp [ha])
      simp only [Bool.false_eq_true, if_false]
      unfold statsWith statsWithout
      rw [hloc, heq, hlen', bytesOf_add]
      split
      · simp only [Stats.mk.injEq, true_and, and_true]
        grind
      · simp only [Stats.mk.injEq, true_and, and_true]
        grind

theorem JoinOf.merged (hl : Live h id) (hsize : (h.span id).sizeclass = 0)
    (hsystem : h'.systemTaken = h.systemTaken) :
    Merged h h' id (tempCommitted h other) := by
  have hother : other ∉ [id] := by simpa using hne
  have hl₁ : Live (takenOff h other) id := hl
  have hlo₁ : Live (takenOff h other) other := hlo
  have hlive : ∀ k, Live h' k ↔ Live h k ∧ k ≠ other := X.live
  have hlists : h'.lists = SpanList.removeSpan h.lists other := X.lists
  have hcovered : ∀ p, Covered (piece h') p ↔ Covered (piece (takenOff h other)) p :=
    X.covered hl₁ hlo₁ hne
  have hboth := X.both
  simp only [takenOff] at hboth
  have hpos := C.length_pos hl
  exact
    { core := (C.takenOff hlo hother hmergeable.1).join hl₁ hlo₁ hne X hsize
      live := X.live_id hl₁ hne
      live_of := fun k hk => ((hlive k).1 hk).1
      kept := by
        intro k hk hloc
        apply (hlive k).2 ⟨hk, ?_⟩
        rintro rfl
        exact hmergeable.1 hloc
      span := fun k hk hid => X.span_other k hid ((hlive k).1 hk).2
      absorbs := by
        intro k hk
        by_cases hko : k = other
        · subst hko
          refine Or.inr ?_
          rw [X.length, hlen]
          omega
        · exact Or.inl ((hlive k).2 ⟨hk, hko⟩)
      location := X.location
      sizeclass := X.sizeclass
      start_le := by
        rw [X.start]
        exact ((hboth (h.span id).start).2 (Or.inl ⟨Nat.le_refl _, by omega⟩)).1
      end_le := by
        have hin := (hboth ((h.span id).start + (h.span id).length - 1)).2
          (Or.inl ⟨by omega, by omega⟩)
        rw [X.start, X.length]
        omega
      covered := hcovered
      backed := by
        intro ha hloc hb p hlo' hhi'
        rw [X.start] at hlo' hhi'
        rw [X.length] at hhi'
        have hotherLoc : (h.span other).location ≠ .onReturnedFreelist := by
          rw [hmergeable.2.2.resolve_left (by simp [ha]), hloc]
          simp
        rw [X.committed]
        rcases (hboth p).1 ⟨hlo', hhi'⟩ with hin | hin
        · exact hb p hin.1 hin.2
        · exact C.backed hlo hother hotherLoc p hin.1 hin.2
      stats := X.stats_landed C hlo hne hquiet hmergeable hlen
      quiet := by
        intro _ ha i
        have hnil := hquiet (X.aggressive.symm.trans ha) i
        rw [hlists]
        change (h.lists (.normal i)).erase other = []
        rw [hnil]
        rfl
      sublist := by
        intro hd
        rw [hlists]
        exact List.erase_sublist
      taken := X.taken
      systemTaken := hsystem
      committed := X.committed
      aggressive := X.aggressive
      releaseIndex := X.releaseIndex }

end Joined

theorem absorb_ok (C : Core h [id]) (hl : Live h id) (hlo : Live h other) (hne : other ≠ id)
    (hinUse : (h.span id).location ≠ .inUse) (hsize : (h.span id).sizeclass = 0)
    (hquiet : Quiet h) (hmay : mayMergeSpans h id other = true)
    (hf : f (h.span id) = { h.span id with start := c, length := l })
    (hlen : l = (h.span id).length + (h.span other).length)
    (hboth : ∀ p, (c ≤ p ∧ p < c + l) ↔
      ((h.span id).start ≤ p ∧ p < (h.span id).start + (h.span id).length) ∨
        ((h.span other).start ≤ p ∧ p < (h.span other).start + (h.span other).length))
    {q : Nat} (hq : q = c ∨ q = c + l - 1)
    (hends : ∀ e, e = c ∨ e = c + l - 1 → e ≠ q → getDescriptor h e = some id) :
    ∃ h', setMap (absorbed h id other f) q id = .ok h' ∧
      Merged h h' id (tempCommitted h other) ∧ JoinOf (takenOff h other) h' id other c l := by
  have hpos := C.length_pos hl
  have hcov : Covered (piece h) q := by
    rcases (hboth q).1 (by omega) with hin | hin
    · exact covered_of_live hl hin.1 hin.2
    · exact covered_of_live hlo hin.1 hin.2
  obtain ⟨pagemap, hset, hget, hens⟩ :=
    setMap_ok (h := absorbed h id other f) (C.ensured hcov) id
  have X := absorbed_joinOf C hlo hne hf hboth hq hends hget hens
  exact ⟨_, hset, X.merged C hlo hne hquiet ((mayMerge_iff hinUse).1 hmay) hlen hl hsize rfl,
    X⟩

end Absorb

omit [PageMap M SpanId] in
theorem mergeable_trans {b : Bool} {l₁ l₂ l₃ : Location} (h₁ : Mergeable b l₁ l₃)
    (h₂ : Mergeable b l₂ l₃) : Mergeable b l₁ l₂ := by
  refine ⟨h₁.1, h₂.1, ?_⟩
  rcases h₁.2.2 with hb | h₁
  · exact Or.inl hb
  · rcases h₂.2.2 with hb | h₂
    · exact Or.inl hb
    · exact Or.inr (h₁.trans h₂.symm)

theorem Core.index_left (C : Core h F) {k : SpanId} (hadj : Adjacent (piece h) k id) :
    getDescriptor h ((h.span id).start - 1) = some k := by
  obtain ⟨a, n, m, hk, hid⟩ := hadj
  have hstart := (live_of_piece hid).2.1
  exact C.tiled.index_left hk hstart.symm

theorem Core.index_right (C : Core h F) {k : SpanId} (hadj : Adjacent (piece h) id k) :
    getDescriptor h ((h.span id).start + (h.span id).length) = some k := by
  obtain ⟨a, n, m, hid, hk⟩ := hadj
  obtain ⟨-, rfl, rfl⟩ := live_of_piece hid
  exact C.tiled.first hk

/-- "Merge preceding span into this span": afterwards no span before it can be merged. -/
theorem mergePrevious_ok (C : Core h [id]) (hl : Live h id)
    (hinUse : (h.span id).location ≠ .inUse) (hsize : (h.span id).sizeclass = 0)
    (hquiet : Quiet h) :
    ∃ h' temp, mergePrevious h id = .ok (h', temp) ∧ Merged h h' id temp ∧ LeftClear h' id ∧
      (h'.span id).start + (h'.span id).length = (h.span id).start + (h.span id).length := by
  have hpos := C.start_pos hl
  have hend := C.end_le hl
  have hlen := C.length_pos hl
  have hsub : sub64 (h.span id).start 1 = (h.span id).start - 1 := sub64_eq hpos (by omega)
  unfold mergePrevious
  simp only [hsub]
  cases hprev : getDescriptor h ((h.span id).start - 1) with
  | none =>
      refine ⟨h, 0, rfl, Merged.rfl' C hl, ?_, rfl⟩
      intro k hadj
      rw [C.index_left hadj] at hprev
      cases hprev
  | some prev =>
      obtain ⟨b, m, hpiece, hbm, hne⟩ := C.tiled.left (piece_eq hl) hpos hprev
      obtain ⟨hlo, rfl, rfl⟩ := live_of_piece hpiece
      by_cases hmay : mayMergeSpans h id prev = true
      · have hmergeable := (mayMerge_iff hinUse).1 hmay
        have hstart : sub64 (h.span id).start (h.span prev).length = (h.span prev).start := by
          rw [sub64_eq (by omega) (by omega)]
          omega
        obtain ⟨h', hset, hmerged, X⟩ := absorb_ok
          (f := fun s => { s with
            start := sub64 s.start (h.span prev).length, length := s.length + (h.span prev).length })
          (c := (h.span prev).start) (l := (h.span id).length + (h.span prev).length)
          (q := (h.span prev).start) C hl hlo hne hinUse hsize hquiet hmay (by rw [hstart]) rfl
          (by intro p; omega) (Or.inl rfl) (by
            rintro e (rfl | rfl) heq
            · exact absurd rfl heq
            · rw [show (h.span prev).start + ((h.span id).length + (h.span prev).length) - 1 =
                (h.span id).start + (h.span id).length - 1 by omega]
              exact C.last hl)
        refine ⟨h', tempCommitted h prev, ?_, hmerged, ?_, ?_⟩
        · have hwhere : ((absorbed h id prev fun s => { s with
              start := sub64 s.start (h.span prev).length,
              length := s.length + (h.span prev).length }).span id).start =
                (h.span prev).start := by
            rw [absorbed_span hne]
            exact hstart
          simp only
          rw [if_pos hmay, assert_pos hbm, removeFromFreeList_eq hmergeable.1]
          simp only [ok_bind]
          change setMap (absorbed h id prev _) ((absorbed h id prev _).span id).start id >>= _ = _
          rw [hwhere, hset]
          rfl
        · intro k hadj
          have hl₁ : Live (takenOff h prev) id := hl
          have hlo₁ : Live (takenOff h prev) prev := hlo
          rcases X.adjacent hl₁ hlo₁ hne (C.takenOff hlo (by simpa using hne) hmergeable.1) hadj with
            ⟨-, hid, -⟩ | ⟨-, hk, hk', hold⟩ | ⟨-, -, hid, -⟩
          · exact absurd rfl hid
          · rw [hmerged.aggressive, hmerged.location,
              hmerged.span k (live_of_adjacent_left hadj) hk]
            rcases hold with hold | hold
            · have hindex := C.index_left hold
              rw [hprev] at hindex
              exact absurd (Option.some.inj hindex).symm hk'
            · have hapart := C.apart (i := k) (j := prev) hold (by simpa using hk)
                (by simpa using hne)
              exact fun hm => hapart (mergeable_trans hm hmergeable)
          · exact absurd rfl hid
        · rw [X.start, X.length]
          omega
      · simp only
        rw [if_neg hmay]
        refine ⟨h, 0, rfl, Merged.rfl' C hl, ?_, rfl⟩
        intro k hadj
        have hindex := C.index_left hadj
        rw [hprev] at hindex
        cases hindex
        exact fun hm => hmay ((mayMerge_iff hinUse).2 hm)

/-- "Merge next span into this span": afterwards no span behind it can be merged. -/
theorem mergeNext_ok (C : Core h [id]) (hl : Live h id)
    (hinUse : (h.span id).location ≠ .inUse) (hsize : (h.span id).sizeclass = 0)
    (hquiet : Quiet h) (hleft : LeftClear h id) :
    ∃ h' temp, mergeNext h id ((h.span id).start + (h.span id).length) = .ok (h', temp) ∧
      Merged h h' id temp ∧ LeftClear h' id ∧ RightClear h' id := by
  have hlen := C.length_pos hl
  unfold mergeNext
  cases hnext : getDescriptor h ((h.span id).start + (h.span id).length) with
  | none =>
      refine ⟨h, 0, rfl, Merged.rfl' C hl, hleft, ?_⟩
      intro k hadj
      rw [C.index_right hadj] at hnext
      cases hnext
  | some other =>
      obtain ⟨m, hpiece, hne⟩ := C.tiled.right (piece_eq hl) hnext
      obtain ⟨hlo, hstart, rfl⟩ := live_of_piece hpiece
      by_cases hmay : mayMergeSpans h id other = true
      · have hmergeable := (mayMerge_iff hinUse).1 hmay
        obtain ⟨h', hset, hmerged, X⟩ := absorb_ok
          (f := fun s => { s with length := s.length + (h.span other).length })
          (c := (h.span id).start) (l := (h.span id).length + (h.span other).length)
          (q := (h.span id).start + ((h.span id).length + (h.span other).length) - 1)
          C hl hlo hne hinUse hsize hquiet hmay rfl rfl
          (by intro p; omega) (Or.inr rfl) (by
            rintro e (rfl | rfl) heq
            · exact C.first hl
            · exact absurd rfl heq)
        refine ⟨h', tempCommitted h other, ?_, hmerged, ?_, ?_⟩
        · have hwhere : (absorbed h id other fun s => { s with
              length := s.length + (h.span other).length }).span id =
                { h.span id with length := (h.span id).length + (h.span other).length } := by
            rw [absorbed_span hne]
          simp only
          rw [if_pos hmay, assert_pos hstart, removeFromFreeList_eq hmergeable.1]
          simp only [ok_bind]
          change setMap (absorbed h id other _) (((absorbed h id other _).span id).start +
            ((absorbed h id other _).span id).length - 1) id >>= _ = _
          rw [hwhere, hset]
          rfl
        · intro k hadj
          have hl₁ : Live (takenOff h other) id := hl
          have hlo₁ : Live (takenOff h other) other := hlo
          rcases X.adjacent hl₁ hlo₁ hne (C.takenOff hlo (by simpa using hne) hmergeable.1) hadj with
            ⟨-, hid, -⟩ | ⟨-, hk, hk', hold⟩ | ⟨-, -, hid, -⟩
          · exact absurd rfl hid
          · rw [hmerged.aggressive, hmerged.location,
              hmerged.span k (live_of_adjacent_left hadj) hk]
            rcases hold with hold | hold
            · exact hleft k hold
            · have hindex := C.index_left hold
              rw [hstart, C.last hl] at hindex
              exact absurd (Option.some.inj hindex).symm hk
          · exact absurd rfl hid
        · intro k hadj
          have hl₁ : Live (takenOff h other) id := hl
          have hlo₁ : Live (takenOff h other) other := hlo
          rcases X.adjacent hl₁ hlo₁ hne (C.takenOff hlo (by simpa using hne) hmergeable.1) hadj with
            ⟨-, hk, hk', hold⟩ | ⟨rfl, hid, -⟩ | ⟨hid, -⟩
          · rw [hmerged.aggressive, hmerged.location,
              hmerged.span k (live_of_adjacent_right hadj) hk]
            rcases hold with hold | hold
            · have hindex := C.index_right hold
              rw [hnext] at hindex
              exact absurd (Option.some.inj hindex).symm hk'
            · have hapart := C.apart (i := other) (j := k) hold (by simpa using hne)
                (by simpa using hk)
              intro hm
              apply hapart
              exact mergeable_comm.1 (mergeable_trans (mergeable_comm.1 hm) hmergeable)
          · exact absurd rfl hid
          · exact absurd rfl hid
      · simp only
        rw [if_neg hmay]
        refine ⟨h, 0, rfl, Merged.rfl' C hl, hleft, ?_⟩
        intro k hadj
        have hindex := C.index_right hadj
        rw [hnext] at hindex
        cases hindex
        exact fun hm => hmay ((mayMerge_iff hinUse).2 (mergeable_comm.1 hm))

/-! ## `MergeIntoFreeList` -/

omit [PageMap M SpanId] in
theorem held_eq_some {s : Span} :
    held h id = some s ↔ Live h id ∧ h.span id = s ∧ s.location = .inUse := by
  unfold held
  constructor
  · intro hheld
    split at hheld
    · rename_i hcond
      cases hheld
      exact ⟨hcond.1, rfl, hcond.2⟩
    · cases hheld
  · rintro ⟨hl, rfl, hloc⟩
    rw [if_pos ⟨hl, hloc⟩]

omit [PageMap M SpanId] in
/-- The spans in use are the same, with the same fields. -/
theorem held_congr
    (hiff : ∀ k, (Live h' k ∧ (h'.span k).location = .inUse) ↔
      (Live h k ∧ (h.span k).location = .inUse))
    (hspan : ∀ k, Live h' k → (h'.span k).location = .inUse → h'.span k = h.span k) :
    held h' = held h := by
  funext k
  unfold held
  by_cases hk : Live h' k ∧ (h'.span k).location = .inUse
  · rw [if_pos hk, if_pos ((hiff k).1 hk), hspan k hk.1 hk.2]
  · rw [if_neg hk, if_neg ((hiff k).not.1 hk)]

/-- What an operation on free spans leaves as it was. -/
structure Stays (h h' : PageHeap M) : Prop where
  held : held h' = held h
  fits : ∀ n, HasFit h n → HasFit h' n
  covered : ∀ p, Covered (piece h') p ↔ Covered (piece h) p
  taken : h'.taken = h.taken
  systemTaken : h'.systemTaken = h.systemTaken
  aggressive : h'.aggressiveDecommit = h.aggressiveDecommit

theorem Merged.stays {temp : UInt64} (m : Merged h h' id temp)
    (hinUse : (h.span id).location ≠ .inUse) : Stays h h' where
  held := by
    have hne : ∀ k, Live h' k → (h'.span k).location = .inUse → k ≠ id := by
      rintro k - hloc rfl
      rw [m.location] at hloc
      exact hinUse hloc
    apply held_congr
    · intro k
      constructor
      · rintro ⟨hk, hloc⟩
        rw [m.span k hk (hne k hk hloc)] at hloc
        exact ⟨m.live_of k hk, hloc⟩
      · rintro ⟨hk, hloc⟩
        have hk' := m.kept k hk hloc
        have hid : k ≠ id := by
          rintro rfl
          exact hinUse hloc
        exact ⟨hk', by rw [m.span k hk' hid]; exact hloc⟩
    · exact fun k hk hloc => m.span k hk (hne k hk hloc)
  fits := by
    rintro n ⟨k, ⟨hk, hloc⟩, hle⟩
    have hid : Free h' id := ⟨m.live, by rw [m.location]; exact hinUse⟩
    by_cases hkid : k = id
    · subst hkid
      exact ⟨k, hid, Nat.le_trans hle m.length_le⟩
    · rcases m.absorbs k hk with hk' | hlen
      · have hspan := m.span k hk' hkid
        exact ⟨k, ⟨hk', by rw [hspan]; exact hloc⟩, by rw [hspan]; exact hle⟩
      · exact ⟨id, hid, Nat.le_trans hle hlen⟩
  covered := m.covered
  taken := m.taken
  systemTaken := m.systemTaken
  aggressive := m.aggressive

omit [PageMap M SpanId] in
theorem Stays.trans (h₁ : Stays h h') (h₂ : Stays h' h'') : Stays h h'' where
  held := h₂.held.trans h₁.held
  fits := fun n hn => h₂.fits n (h₁.fits n hn)
  covered := fun p => (h₂.covered p).trans (h₁.covered p)
  taken := h₂.taken.trans h₁.taken
  systemTaken := h₂.systemTaken.trans h₁.systemTaken
  aggressive := h₂.aggressive.trans h₁.aggressive

omit [PageMap M SpanId] in
theorem stays_of_same (hspan : h'.span = h.span) (hfresh : h'.freshSpan = h.freshSpan)
    (hfree : h'.freeSpans = h.freeSpans) (htaken : h'.taken = h.taken)
    (hsystem : h'.systemTaken = h.systemTaken)
    (haggr : h'.aggressiveDecommit = h.aggressiveDecommit) : Stays h h' := by
  have hlive : ∀ k, Live h' k ↔ Live h k := by
    intro k
    rw [Live, Live, hfresh, hfree]
  have hpiece : piece h' = piece h := by
    funext k
    simp only [piece, hlive, hspan]
  have hheld : held h' = held h := by
    funext k
    simp only [held, hlive, hspan]
  have hfits : ∀ n, HasFit h n → HasFit h' n := by
    rintro n ⟨k, ⟨hk, hloc⟩, hle⟩
    exact ⟨k, ⟨(hlive k).2 hk, by rw [hspan]; exact hloc⟩, by rw [hspan]; exact hle⟩
  exact ⟨hheld, hfits, fun p => by rw [hpiece], htaken, hsystem, haggr⟩

omit [PageMap M SpanId] in
theorem stays_putOn (h : PageHeap M) (id : SpanId) : Stays h (putOn h id) :=
  stays_of_same rfl rfl rfl rfl rfl rfl

omit [PageMap M SpanId] in
/-- A free span becomes a returned one. -/
theorem stays_setReturned (hinUse : (h.span id).location ≠ .inUse) :
    Stays h (h.modifySpan id fun s => { s with location := .onReturnedFreelist }) := by
  let h' := h.modifySpan id fun s => { s with location := .onReturnedFreelist }
  have hself : h'.span id = { h.span id with location := .onReturnedFreelist } := modifySpan_self
  have hinUse' : (h'.span id).location ≠ .inUse := by
    rw [hself]
    simp
  have hother : ∀ {k}, k ≠ id → h'.span k = h.span k := fun hk => modifySpan_of_ne hk
  refine ⟨held_congr (fun k => ?_) (fun k _ hloc => ?_), ?_, fun p => ?_, rfl, rfl, rfl⟩
  · by_cases hk : k = id
    · subst hk
      exact iff_of_false (fun hcond => hinUse' hcond.2) fun hcond => hinUse hcond.2
    · change Live h k ∧ (h'.span k).location = .inUse ↔ _
      rw [hother hk]
  · apply hother
    rintro rfl
    exact hinUse' hloc
  · rintro n ⟨k, ⟨hk, hfree⟩, hle⟩
    by_cases hkid : k = id
    · subst hkid
      exact ⟨k, ⟨hk, hinUse'⟩, by change n ≤ (h'.span k).length; rw [hself]; exact hle⟩
    · exact ⟨k, ⟨hk, by change (h'.span k).location ≠ _; rw [hother hkid]; exact hfree⟩,
        by change n ≤ (h'.span k).length; rw [hother hkid]; exact hle⟩
  · rw [piece_modifySpan rfl rfl]

/-- A span in hand went to its list, with its neighbours. -/
structure Freed (h h' : PageHeap M) (id : SpanId) : Prop where
  core : Core h' []
  quiet : Quiet h'
  stats : h'.stats = landed h id 0
  stays : Stays h h'
  normal : h.aggressiveDecommit = true ∨ (h.span id).location = .onReturnedFreelist →
    ∀ i, (h'.lists (.normal i)).Sublist (h.lists (.normal i))
  releaseIndex : h'.releaseIndex = h.releaseIndex

omit [PageMap M SpanId] in
/-- A returned span goes to a returned list. -/
theorem putOn_normal (hloc : (h.span id).location = .onReturnedFreelist) (i : Nat) :
    (putOn h id).lists (.normal i) = h.lists (.normal i) := by
  have hhd : headerOf (h.span id) = some (.returned (listIndex (h.span id).length)) := by
    rw [headerOf, hloc]
  simp only [putOn, hhd]
  exact Function.update_of_ne (by simp) _ _

omit [PageMap M SpanId] in
theorem normal_of_free (hinUse : (h.span id).location ≠ .inUse)
    (hloc : (h.span id).location ≠ .onReturnedFreelist) :
    (h.span id).location = .onNormalFreelist := by
  cases hcase : (h.span id).location with
  | inUse => exact absurd hcase hinUse
  | onNormalFreelist => rfl
  | onReturnedFreelist => exact absurd hcase hloc

/-! ### Without `aggressive_decommit_` -/

theorem Merged.listable {temp : UInt64} (m : Merged h h' id temp)
    (hinUse : (h.span id).location ≠ .inUse) (ha : h.aggressiveDecommit = false)
    (hbacked : (h.span id).location = .onNormalFreelist → Backed h id) (hleft : LeftClear h' id)
    (hright : RightClear h' id) : Listable h' [id] id where
  free := by rwa [m.location]
  backed := by
    intro hloc
    rw [m.location] at hloc
    have hnormal := normal_of_free hinUse hloc
    exact m.backed ha hnormal (hbacked hnormal)
  left := fun hadj _ => hleft _ hadj
  right := fun hadj _ => hright _ hadj

theorem Merged.freed {temp : UInt64} (m : Merged h h' id temp)
    (hinUse : (h.span id).location ≠ .inUse) (ha : h.aggressiveDecommit = false)
    (L : Listable h' [id] id) : Freed h (putOn h' id) id where
  core := m.core.putOn m.live (by simp) L
  quiet := by
    intro ha'
    have htrue : h'.aggressiveDecommit = true := ha'
    rw [m.aggressive, ha] at htrue
    cases htrue
  stats := by
    have hstats := m.stats 0
    rw [UInt64.zero_add] at hstats
    rw [← hstats, landed, m.aggressive, ha]
    rfl
  stays := (m.stays hinUse).trans (stays_putOn h' id)
  normal := by
    rintro (ha' | hloc) i
    · cases ha.symm.trans ha'
    · rw [putOn_normal (by rwa [m.location])]
      exact m.sublist _
  releaseIndex := m.releaseIndex

/-! ### With `aggressive_decommit_`

The merged span is decommitted as a whole and becomes a returned one.
-/

/-- The heap after `DecommitSpan` of the span in hand. -/
def decommitted (h : PageHeap M) (id : SpanId) (temp : UInt64) : PageHeap M :=
  ({ h with
      committed := h.setCommitted id false
      calls := h.calls + 1
      stats := { h.stats with
        committedBytes := h.stats.committedBytes - bytesOf (h.span id).length + temp } } :
    PageHeap M).modifySpan id fun s => { s with location := .onReturnedFreelist }

section Decommitted

variable {temp : UInt64}

omit [PageMap M SpanId] in
theorem decommitMerged_eq (ha : h.aggressiveDecommit = true)
    (hrelease : ∀ t, cfg.systemRelease t = true) :
    decommitMerged h cfg id temp = .ok (decommitted h id temp) := by
  rw [decommitMerged, if_pos ha]
  simp only [decommitSpan, hrelease, if_true]
  rfl

omit [PageMap M SpanId] in
theorem decommitted_span : (decommitted h id temp).span id =
    { h.span id with location := .onReturnedFreelist } := modifySpan_self

omit [PageMap M SpanId] in
theorem stays_decommitted (hinUse : (h.span id).location ≠ .inUse) :
    Stays h (decommitted h id temp) := by
  have hfirst : Stays h { h with
      committed := h.setCommitted id false
      calls := h.calls + 1
      stats := { h.stats with
        committedBytes := h.stats.committedBytes - bytesOf (h.span id).length + temp } } :=
    stays_of_same rfl rfl rfl rfl rfl rfl
  exact hfirst.trans (stays_setReturned hinUse)

theorem Core.decommitted (C : Core h [id]) (hl : Live h id) (hsize : (h.span id).sizeclass = 0) :
    Core (decommitted h id temp) [id] := by
  apply Core.assign _ (by simp) rfl rfl
  · exact hsize
  · exact C.commit hl (by simp) false (h.calls + 1) rfl rfl

omit [PageMap M SpanId] in
/-- Where no free neighbour was left, none can be merged with the returned span. -/
theorem listable_decommitted (ha : h.aggressiveDecommit = true)
    (hinUse : (h.span id).location ≠ .inUse) (hleft : LeftClear h id) (hright : RightClear h id) :
    Listable (decommitted h id temp) [id] id := by
  have hpiece : piece (decommitted h id temp) = piece h := piece_modifySpan rfl rfl
  have hne : ∀ {k}, k ∉ [id] → ((decommitted h id temp).span k).location ≠ .inUse →
      (h.span k).location ≠ .inUse := by
    intro k hk hfree
    have hother : (decommitted h id temp).span k = h.span k :=
      modifySpan_of_ne (by simpa using hk)
    rwa [hother] at hfree
  exact
    { free := by
        rw [decommitted_span]
        simp
      backed := by
        rw [decommitted_span]
        exact fun hloc => absurd rfl hloc
      left := by
        intro k hadj hk hm
        rw [hpiece] at hadj
        exact hleft k hadj ⟨hne hk hm.1, hinUse, Or.inl ha⟩
      right := by
        intro k hadj hk hm
        rw [hpiece] at hadj
        exact hright k hadj ⟨hinUse, hne hk hm.2.1, Or.inl ha⟩ }

theorem Merged.freed_decommitted (m : Merged h h' id temp)
    (hinUse : (h.span id).location ≠ .inUse) (hsize : (h.span id).sizeclass = 0)
    (ha : h.aggressiveDecommit = true) (hquiet : Quiet h)
    (L : Listable (decommitted h' id temp) [id] id) :
    Freed h (putOn (decommitted h' id temp) id) id := by
  have hinUse' : (h'.span id).location ≠ .inUse := by rwa [m.location]
  have hnormal : ∀ i, (putOn (decommitted h' id temp) id).lists (.normal i) =
      h'.lists (.normal i) := by
    intro i
    rw [putOn_normal (by rw [decommitted_span])]
    rfl
  exact
    { core := (m.core.decommitted m.live (by rwa [m.sizeclass])).putOn m.live (by simp) L
      quiet := by
        intro _ i
        rw [hnormal]
        exact m.quiet hquiet (m.aggressive.trans ha) i
      stats := by
        have hstats := m.stats 0
        rw [UInt64.zero_add] at hstats
        rw [← hstats, landed, m.aggressive, ha]
        change statsWith _ ((decommitted h' id temp).span id) = _
        rw [decommitted_span]
        rfl
      stays := ((m.stays hinUse).trans (stays_decommitted hinUse')).trans (stays_putOn _ id)
      normal := by
        intro _ i
        rw [hnormal]
        exact m.sublist _
      releaseIndex := m.releaseIndex }

end Decommitted

/-! ### The whole -/

theorem mergeIntoFreeList_ok (cfg : Config) (C : Core h [id]) (hl : Live h id)
    (hinUse : (h.span id).location ≠ .inUse) (hsize : (h.span id).sizeclass = 0)
    (hquiet : Quiet h) (hbacked : (h.span id).location = .onNormalFreelist → Backed h id)
    (hrelease : h.aggressiveDecommit = true → ∀ t, cfg.systemRelease t = true) :
    ∃ h', mergeIntoFreeList h cfg id = .ok h' ∧ Freed h h' id := by
  obtain ⟨h₁, t₁, hprev, m₁, hleft₁, hend⟩ := mergePrevious_ok C hl hinUse hsize hquiet
  have hinUse₁ : (h₁.span id).location ≠ .inUse := by rwa [m₁.location]
  have hsize₁ : (h₁.span id).sizeclass = 0 := by rwa [m₁.sizeclass]
  obtain ⟨h₂, t₂, hnext, m₂, hleft₂, hright₂⟩ :=
    mergeNext_ok m₁.core m₁.live hinUse₁ hsize₁ (m₁.quiet hquiet) hleft₁
  rw [hend] at hnext
  have m := m₁.trans m₂ hinUse
  have hinUse₂ : (h₂.span id).location ≠ .inUse := by rwa [m.location]
  unfold mergeIntoFreeList
  rw [assert_pos hinUse]
  simp only [ok_bind, hprev, hnext]
  cases ha : h.aggressiveDecommit with
  | false =>
      have L := m.listable hinUse ha hbacked hleft₂ hright₂
      have hmode : decommitMerged h₂ cfg id (t₁ + t₂) = .ok h₂ :=
        if_neg (by rw [m.aggressive, ha]; exact Bool.false_ne_true)
      rw [hmode, ok_bind, prependToFreeList_eq L.free (m.core.unlisted (by simp))]
      exact ⟨_, rfl, m.freed hinUse ha L⟩
  | true =>
      have ha₂ : h₂.aggressiveDecommit = true := m.aggressive.trans ha
      have L : Listable (decommitted h₂ id (t₁ + t₂)) [id] id :=
        listable_decommitted ha₂ hinUse₂ hleft₂ hright₂
      have C₂ : Core (decommitted h₂ id (t₁ + t₂)) [id] :=
        m.core.decommitted m.live (by rwa [m.sizeclass])
      rw [decommitMerged_eq ha₂ (hrelease ha), ok_bind,
        prependToFreeList_eq L.free (C₂.unlisted (by simp))]
      exact ⟨_, rfl, m.freed_decommitted hinUse hsize ha hquiet L⟩

end SatAllocatorTest.Ports.TCmalloc.PageHeap
