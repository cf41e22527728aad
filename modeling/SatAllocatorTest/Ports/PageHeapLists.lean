import SatAllocatorTest.Ports.PageHeapCore

/-!
# Spans on and off their lists

The two statements that move a span between a free list and the hands of an operation,
`RemoveFromFreeList` and `PrependToFreeList`.  A span in use is on no list, and can be
taken in hand and given back.
-/

namespace SatAllocatorTest.Ports.TCmalloc.PageHeap

open SatAllocatorTest.Verified.Tilings
open SpanList (removeSpan prependSpan)

variable {M : Type} [PageMap M SpanId]
variable {h h' : PageHeap M} {F : List SpanId} {id j : SpanId} {p n : Nat}

/-! ## Pages on the lists -/

omit [PageMap M SpanId] in
/-- One list changes by `n` pages, the others of its kind do not. -/
theorem totalPages_change (kind : Nat → Header) {i : Nat} (hi : i ≤ kMaxPages)
    (hself : pagesOn h (kind i) = pagesOn h' (kind i) + n)
    (hother : ∀ k, k ≠ i → pagesOn h' (kind k) = pagesOn h (kind k)) :
    totalPages h kind = totalPages h' kind + n := by
  have hmem : i ∈ Finset.range (kMaxPages + 1) := Finset.mem_range.2 (by omega)
  unfold totalPages
  rw [← Finset.add_sum_erase _ _ hmem, ← Finset.add_sum_erase _ (fun i => pagesOn h' (kind i)) hmem,
    hself]
  have hrest : ∑ k ∈ (Finset.range (kMaxPages + 1)).erase i, pagesOn h (kind k) =
      ∑ k ∈ (Finset.range (kMaxPages + 1)).erase i, pagesOn h' (kind k) := by
    apply Finset.sum_congr rfl
    intro k hk
    exact (hother k (Finset.ne_of_mem_erase hk)).symm
  rw [hrest]
  omega

omit [PageMap M SpanId] in
theorem totalPages_congr (kind : Nat → Header)
    (hsame : ∀ k, pagesOn h' (kind k) = pagesOn h (kind k)) :
    totalPages h' kind = totalPages h kind :=
  Finset.sum_congr rfl fun k _ => hsame k

omit [PageMap M SpanId] in
/-- A list without the changed spans has the same pages. -/
theorem pagesOn_congr {hd : Header} (hlist : h'.lists hd = h.lists hd)
    (hspan : ∀ k ∈ h.lists hd, (h'.span k).length = (h.span k).length) :
    pagesOn h' hd = pagesOn h hd := by
  unfold pagesOn
  rw [hlist, List.map_congr_left hspan]

/-- A free span belongs on a list. -/
theorem headerOf_free {s : Span} (hloc : s.location ≠ .inUse) : ∃ hd, headerOf s = some hd := by
  unfold headerOf
  cases hcase : s.location with
  | inUse => exact absurd hcase hloc
  | onNormalFreelist => exact ⟨_, rfl⟩
  | onReturnedFreelist => exact ⟨_, rfl⟩

omit [PageMap M SpanId] in
/-- One list changes by the pages of a span that belongs on it: so do the pages of its
kind, and the other kind has what it had. -/
theorem totalPages_of_header {s : Span} {hd : Header} (hhd : headerOf s = some hd)
    (hself : pagesOn h hd = pagesOn h' hd + s.length)
    (hother : ∀ hd', hd' ≠ hd → pagesOn h' hd' = pagesOn h hd') :
    (s.location = .onNormalFreelist ∧
        totalPages h .normal = totalPages h' .normal + s.length ∧
        totalPages h' .returned = totalPages h .returned) ∨
      (s.location = .onReturnedFreelist ∧
        totalPages h .returned = totalPages h' .returned + s.length ∧
        totalPages h' .normal = totalPages h .normal) := by
  unfold headerOf at hhd
  cases hcase : s.location with
  | inUse =>
      rw [hcase] at hhd
      cases hhd
  | onNormalFreelist =>
      rw [hcase] at hhd
      injection hhd with hhd
      refine Or.inl ⟨rfl, ?_, ?_⟩
      · apply totalPages_change _ (listIndex_le s.length)
        · rw [hhd]
          exact hself
        · intro k hk
          apply hother
          rintro rfl
          exact hk (Header.normal.inj hhd).symm
      · apply totalPages_congr
        intro k
        apply hother
        rintro rfl
        cases hhd
  | onReturnedFreelist =>
      rw [hcase] at hhd
      injection hhd with hhd
      refine Or.inr ⟨rfl, ?_, ?_⟩
      · apply totalPages_change _ (listIndex_le s.length)
        · rw [hhd]
          exact hself
        · intro k hk
          apply hother
          rintro rfl
          exact hk (Header.returned.inj hhd).symm
      · apply totalPages_congr
        intro k
        apply hother
        rintro rfl
        cases hhd

/-! ## `RemoveFromFreeList` -/

/-- The statistics without a span of a list. -/
def statsWithout (stats : Stats) (s : Span) : Stats :=
  if s.location = .onNormalFreelist then
    { stats with freeBytes := stats.freeBytes - bytesOf s.length }
  else
    { stats with unmappedBytes := stats.unmappedBytes - bytesOf s.length }

/-- The heap with a span taken off its list. -/
def takenOff (h : PageHeap M) (id : SpanId) : PageHeap M :=
  { h with stats := statsWithout h.stats (h.span id), lists := removeSpan h.lists id }

omit [PageMap M SpanId] in
theorem removeFromFreeList_eq (hloc : (h.span id).location ≠ .inUse) :
    removeFromFreeList h id = .ok (takenOff h id) := by
  unfold removeFromFreeList
  rw [assert_pos hloc]
  rfl

theorem sub_of_add {a b c : UInt64} (h : a = b + c) : a - c = b := by
  rw [h, UInt64.add_sub_cancel]

section Remove

variable (C : Core h F) {hd : Header} (hhd : headerOf (h.span id) = some hd)
include C hhd

/-- A span off its list is on no other. -/
theorem Core.not_mem_other {hd' : Header} (hne : hd' ≠ hd) : id ∉ h.lists hd' := by
  intro hid
  have hhd' := (C.mem_lists.1 hid).2.2
  rw [hhd] at hhd'
  exact hne (Option.some.inj hhd').symm

theorem Core.takenOff_stats (hmem : id ∈ h.lists hd) :
    (statsWithout h.stats (h.span id)).freeBytes =
        bytesOf (totalPages (takenOff h id) .normal) ∧
      (statsWithout h.stats (h.span id)).unmappedBytes =
        bytesOf (totalPages (takenOff h id) .returned) := by
  have hself : pagesOn h hd = pagesOn (PageHeap.takenOff h id) hd + (h.span id).length := by
    have hsum := List.sum_map_erase (fun k => (h.span k).length) hmem
    unfold pagesOn
    simp only [PageHeap.takenOff, removeSpan]
    omega
  have hother : ∀ hd', hd' ≠ hd → pagesOn (PageHeap.takenOff h id) hd' = pagesOn h hd' := by
    intro hd' hne
    apply pagesOn_congr
    · simp only [PageHeap.takenOff, removeSpan]
      exact List.erase_of_not_mem (C.not_mem_other hhd hne)
    · exact fun _ _ => rfl
  unfold statsWithout
  rcases totalPages_of_header hhd hself hother with ⟨hloc, htotal, hsame⟩ | ⟨hloc, htotal, hsame⟩
  · simp only [hloc, if_true]
    constructor
    · apply sub_of_add
      rw [C.free, htotal, bytesOf_add]
    · rw [C.unmapped, hsame]
  · simp only [hloc, reduceCtorEq, if_false]
    constructor
    · rw [C.free, hsame]
    · apply sub_of_add
      rw [C.unmapped, htotal, bytesOf_add]

end Remove

theorem Core.takenOff (C : Core h F) (hl : Live h id) (hF : id ∉ F)
    (hloc : (h.span id).location ≠ .inUse) : Core (takenOff h id) (id :: F) := by
  obtain ⟨hd, hhd⟩ := headerOf_free hloc
  have hstats := C.takenOff_stats hhd (C.mem_lists.2 ⟨hl, hF, hhd⟩)
  exact
    { C with
      tiled := C.tiled
      freeSpans_lt := C.freeSpans_lt
      freeSpans_nodup := C.freeSpans_nodup
      mem_lists := by
        intro hd' k
        simp only [PageHeap.takenOff, removeSpan]
        rw [(C.lists_nodup hd').mem_erase_iff, C.mem_lists, List.mem_cons, not_or]
        simp only [Live]
        tauto
      lists_nodup := fun hd' => (C.lists_nodup hd').erase id
      sized := C.sized
      free := hstats.1
      unmapped := hstats.2
      backed := fun hlk hkF => C.backed hlk fun hk => hkF (List.mem_cons_of_mem _ hk)
      apart := fun hadj hi hj => C.apart hadj (fun hk => hi (List.mem_cons_of_mem _ hk))
        fun hk => hj (List.mem_cons_of_mem _ hk) }

/-! ## `PrependToFreeList` -/

/-- The statistics with a span on its list. -/
def statsWith (stats : Stats) (s : Span) : Stats :=
  if s.location = .onNormalFreelist then
    { stats with freeBytes := stats.freeBytes + bytesOf s.length }
  else
    { stats with unmappedBytes := stats.unmappedBytes + bytesOf s.length }

/-- The heap with a free span put on its list. -/
def putOn (h : PageHeap M) (id : SpanId) : PageHeap M :=
  { h with
    stats := statsWith h.stats (h.span id)
    lists :=
      match headerOf (h.span id) with
      | some hd => prependSpan h.lists hd id
      | none => h.lists }

/-- A span in hand is on no list. -/
theorem Core.unlisted (C : Core h F) (hF : id ∈ F) : Unlisted h id :=
  fun _ _ => ⟨fun hid => (C.mem_lists.1 hid).2.1 hF, fun hid => (C.mem_lists.1 hid).2.1 hF⟩

omit [PageMap M SpanId] in
theorem prependToFreeList_eq (hloc : (h.span id).location ≠ .inUse) (hunlisted : Unlisted h id) :
    prependToFreeList h id = .ok (putOn h id) := by
  unfold prependToFreeList
  rw [assert_pos hloc, ok_bind, assert_pos hunlisted, ok_bind]
  cases hcase : (h.span id).location with
  | inUse => exact absurd hcase hloc
  | onNormalFreelist => simp [putOn, headerOf, statsWith, hcase]
  | onReturnedFreelist => simp [putOn, headerOf, statsWith, hcase]

/-- What must hold of a span in hand for it to go back on a list: its pages are backed
unless it is returned, and no neighbour can be merged with it. -/
structure Listable (h : PageHeap M) (F : List SpanId) (id : SpanId) : Prop where
  free : (h.span id).location ≠ .inUse
  backed : (h.span id).location ≠ .onReturnedFreelist →
    ∀ p, (h.span id).start ≤ p → p < (h.span id).start + (h.span id).length →
      h.committed p = true
  left : ∀ {k}, Adjacent (piece h) k id → k ∉ F →
    ¬ Mergeable h.aggressiveDecommit (h.span k).location (h.span id).location
  right : ∀ {k}, Adjacent (piece h) id k → k ∉ F →
    ¬ Mergeable h.aggressiveDecommit (h.span id).location (h.span k).location

omit [PageMap M SpanId] in
theorem putOn_lists {hd : Header} (hhd : headerOf (h.span id) = some hd) :
    (putOn h id).lists = prependSpan h.lists hd id := by
  simp only [putOn, hhd]

section Prepend

variable (C : Core h (id :: F)) {hd : Header} (hhd : headerOf (h.span id) = some hd)
include C

theorem Core.not_mem_hand (hd' : Header) : id ∉ h.lists hd' :=
  fun hid => (C.mem_lists.1 hid).2.1 (by simp)

include hhd

theorem Core.mem_putOn (hl : Live h id) (hF : id ∉ F) {hd' : Header} {k : SpanId} :
    k ∈ (putOn h id).lists hd' ↔ Live h k ∧ k ∉ F ∧ headerOf (h.span k) = some hd' := by
  have hold : k ∈ h.lists hd' ↔ _ := C.mem_lists
  rw [List.mem_cons, not_or] at hold
  rw [putOn_lists hhd]
  unfold prependSpan
  by_cases hk : k = id
  · subst hk
    rw [hhd]
    by_cases hsame : hd' = hd
    · subst hsame
      rw [Function.update_self]
      simp [hl, hF]
    · rw [Function.update_of_ne hsame]
      have hne : ¬ some hd = some hd' := fun h => hsame (Option.some.inj h).symm
      simp [C.not_mem_hand hd', hne]
  · by_cases hsame : hd' = hd
    · subst hsame
      rw [Function.update_self, List.mem_cons, hold]
      tauto
    · rw [Function.update_of_ne hsame, hold]
      tauto

theorem Core.putOn_nodup (hd' : Header) : ((putOn h id).lists hd').Nodup := by
  rw [putOn_lists hhd]
  unfold prependSpan
  by_cases hsame : hd' = hd
  · subst hsame
    rw [Function.update_self]
    exact List.nodup_cons.2 ⟨C.not_mem_hand hd', C.lists_nodup hd'⟩
  · rw [Function.update_of_ne hsame]
    exact C.lists_nodup hd'

theorem Core.putOn_stats :
    (statsWith h.stats (h.span id)).freeBytes = bytesOf (totalPages (putOn h id) .normal) ∧
      (statsWith h.stats (h.span id)).unmappedBytes =
        bytesOf (totalPages (putOn h id) .returned) := by
  have hspan : (PageHeap.putOn h id).span = h.span := rfl
  have hself : pagesOn (PageHeap.putOn h id) hd = pagesOn h hd + (h.span id).length := by
    simp only [pagesOn, putOn_lists hhd, hspan, prependSpan, Function.update_self, List.map_cons,
      List.sum_cons]
    omega
  have hother : ∀ hd', hd' ≠ hd → pagesOn h hd' = pagesOn (PageHeap.putOn h id) hd' := by
    intro hd' hne
    simp only [pagesOn, putOn_lists hhd, hspan, prependSpan, Function.update_of_ne hne]
  unfold statsWith
  rcases totalPages_of_header hhd hself hother with ⟨hloc, htotal, hsame⟩ | ⟨hloc, htotal, hsame⟩
  · simp only [hloc, if_true]
    constructor
    · rw [C.free, htotal, bytesOf_add]
    · rw [C.unmapped, hsame]
  · simp only [hloc, reduceCtorEq, if_false]
    constructor
    · rw [C.free, hsame]
    · rw [C.unmapped, htotal, bytesOf_add]

end Prepend

/-- A pair of neighbours with the span in it is kept apart by `L`, the others by `C`. -/
theorem Listable.apart (L : Listable h (id :: F) id) (C : Core h (id :: F)) {i j : SpanId}
    (hadj : Adjacent (piece h) i j) (hi : i ∉ F) (hj : j ∉ F) :
    ¬ Mergeable h.aggressiveDecommit (h.span i).location (h.span j).location := by
  by_cases hid : i = id
  · subst hid
    by_cases hjd : j = i
    · subst hjd
      obtain ⟨a, n, m, h1, h2⟩ := hadj
      have hsame := piece_inj h1 h2
      have hn := C.tiled.pos h1
      omega
    · exact L.right hadj (by simp [hjd, hj])
  · by_cases hjd : j = id
    · subst hjd
      exact L.left hadj (by simp [hid, hi])
    · exact C.apart hadj (by simp [hid, hi]) (by simp [hjd, hj])

theorem Core.putOn (C : Core h (id :: F)) (hl : Live h id) (hF : id ∉ F)
    (L : Listable h (id :: F) id) : Core (putOn h id) F := by
  obtain ⟨hd, hhd⟩ := headerOf_free L.free
  have hstats := C.putOn_stats hhd
  exact
    { C with
      tiled := C.tiled
      freeSpans_lt := C.freeSpans_lt
      freeSpans_nodup := C.freeSpans_nodup
      mem_lists := C.mem_putOn hhd hl hF
      lists_nodup := C.putOn_nodup hhd
      sized := C.sized
      free := hstats.1
      unmapped := hstats.2
      backed := by
        intro k hlk hkF
        by_cases hk : k = id
        · subst hk
          exact L.backed
        · exact C.backed hlk (by simp [hk, hkF])
      apart := L.apart C }

/-! ## Spans in use -/

section Assign

variable {f : Span → Span}

omit [PageMap M SpanId] in
@[simp] theorem modifySpan_self : (h.modifySpan id f).span id = f (h.span id) :=
  Function.update_self _ _ _

omit [PageMap M SpanId] in
theorem modifySpan_of_ne (hj : j ≠ id) : (h.modifySpan id f).span j = h.span j :=
  Function.update_of_ne hj _ _

omit [PageMap M SpanId] in
@[simp] theorem live_modifySpan : Live (h.modifySpan id f) j ↔ Live h j := Iff.rfl

omit [PageMap M SpanId] in
theorem piece_modifySpan (hstart : (f (h.span id)).start = (h.span id).start)
    (hlength : (f (h.span id)).length = (h.span id).length) :
    piece (h.modifySpan id f) = piece h := by
  funext k
  by_cases hk : k = id
  · subst hk
    simp only [piece, live_modifySpan, modifySpan_self, hstart, hlength]
  · simp only [piece, live_modifySpan, modifySpan_of_ne hk]

end Assign

omit [PageMap M SpanId] in
theorem not_mergeable_inUse_left {b : Bool} {l : Location} : ¬ Mergeable b .inUse l :=
  fun h => h.1 rfl

omit [PageMap M SpanId] in
theorem not_mergeable_inUse_right {b : Bool} {l : Location} : ¬ Mergeable b l .inUse :=
  fun h => h.2.1 rfl

/-- A span in use is on no list: it can be taken in hand. -/
theorem Core.take (C : Core h F) (hloc : (h.span id).location = .inUse) : Core h (id :: F) :=
  { C with
    mem_lists := by
      intro hd k
      rw [C.mem_lists, List.mem_cons, not_or]
      constructor
      · rintro ⟨h1, h2, h3⟩
        refine ⟨h1, ⟨?_, h2⟩, h3⟩
        rintro rfl
        rw [headerOf, hloc] at h3
        cases h3
      · rintro ⟨h1, ⟨-, h2⟩, h3⟩
        exact ⟨h1, h2, h3⟩
    backed := fun hl hF => C.backed hl fun hk => hF (List.mem_cons_of_mem _ hk)
    apart := fun hadj hi hj => C.apart hadj (fun hk => hi (List.mem_cons_of_mem _ hk))
      fun hk => hj (List.mem_cons_of_mem _ hk) }

/-- And a span in hand can be handed out, if its pages are backed. -/
theorem Core.give (C : Core h (id :: F)) (hloc : (h.span id).location = .inUse)
    (hbacked : ∀ p, (h.span id).start ≤ p → p < (h.span id).start + (h.span id).length →
      h.committed p = true) : Core h F :=
  { C with
    mem_lists := by
      intro hd k
      rw [C.mem_lists, List.mem_cons, not_or]
      constructor
      · rintro ⟨h1, ⟨-, h2⟩, h3⟩
        exact ⟨h1, h2, h3⟩
      · rintro ⟨h1, h2, h3⟩
        refine ⟨h1, ⟨?_, h2⟩, h3⟩
        rintro rfl
        rw [headerOf, hloc] at h3
        cases h3
    backed := by
      intro k hl hF
      by_cases hk : k = id
      · subst hk
        exact fun _ => hbacked
      · exact C.backed hl (by simp [hk, hF])
    apart := by
      intro i j hadj hi hj
      by_cases hid : i = id
      · subst hid
        rw [hloc]
        exact not_mergeable_inUse_left
      · by_cases hjd : j = id
        · subst hjd
          rw [hloc]
          exact not_mergeable_inUse_right
        · exact C.apart hadj (by simp [hid, hi]) (by simp [hjd, hj]) }

end SatAllocatorTest.Ports.TCmalloc.PageHeap
