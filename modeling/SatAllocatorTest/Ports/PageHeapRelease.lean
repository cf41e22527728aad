import Mathlib.Algebra.Order.BigOperators.Group.List
import SatAllocatorTest.Ports.PageHeapMerge

/-!
# Releasing memory to the system

`ReleaseAtLeastNPages` goes round the lists and releases the last span of each normal one.
Every full round releases a span as long as there is one, so the loop ends; it stops with
enough pages released, with no normal span left, or at a refusal of the system.

`Settled` is the state of the heap between two operations.
-/

namespace SatAllocatorTest.Ports.TCmalloc.PageHeap

open SatAllocatorTest.Verified.Tilings

variable {M : Type} [PageMap M SpanId]
variable {h h' : PageHeap M} {F : List SpanId} {id : SpanId} {cfg : Config}

structure Settled (h : PageHeap M) : Prop where
  core : Core h []
  quiet : Quiet h
  balanced : h.stats.unmappedBytes + h.stats.committedBytes = h.stats.systemBytes
  releaseIndex : h.releaseIndex ≤ kMaxPages + 1

theorem Settled.assertStats_ok (S : Settled h) : assertStats h = .ok () := assert_pos S.balanced

/-! ## Pages and bytes -/

/-- The spans on the lists below an index. -/
def listed (h : PageHeap M) (n : Nat) : List SpanId :=
  (List.range n).flatMap fun i => h.lists (.normal i) ++ h.lists (.returned i)

omit [PageMap M SpanId] in
theorem sum_listed (h : PageHeap M) (n : Nat) :
    ((listed h n).map fun id => (h.span id).length).sum =
      ∑ i ∈ Finset.range n, pagesOn h (.normal i) + ∑ i ∈ Finset.range n, pagesOn h (.returned i) := by
  induction n with
  | zero => rfl
  | succ n ih =>
      rw [listed, List.range_succ, List.flatMap_append, List.map_append, List.sum_append]
      change ((listed h n).map _).sum + _ = _
      rw [ih, Finset.sum_range_succ, Finset.sum_range_succ]
      simp only [List.flatMap_cons, List.flatMap_nil, List.append_nil, List.map_append,
        List.sum_append, pagesOn]
      omega

theorem Core.header_unique (C : Core h F) {hd hd' : Header} (h₁ : id ∈ h.lists hd)
    (h₂ : id ∈ h.lists hd') : hd = hd' := by
  have e₁ := (C.mem_lists.1 h₁).2.2
  have e₂ := (C.mem_lists.1 h₂).2.2
  exact Option.some.inj (e₁.symm.trans e₂)

theorem Core.listed_nodup (C : Core h F) (n : Nat) : (listed h n).Nodup := by
  unfold listed
  rw [List.nodup_flatMap]
  constructor
  · intro i _
    apply List.Nodup.append (C.lists_nodup _) (C.lists_nodup _)
    intro k h₁ h₂
    cases C.header_unique h₁ h₂
  · apply List.Pairwise.imp_of_mem _ List.nodup_range
    intro i j _ _ hij k h₁ h₂
    rcases List.mem_append.1 h₁ with h₁ | h₁ <;> rcases List.mem_append.1 h₂ with h₂ | h₂
    · exact hij (Header.normal.inj (C.header_unique h₁ h₂))
    · cases C.header_unique h₁ h₂
    · cases C.header_unique h₁ h₂
    · exact hij (Header.returned.inj (C.header_unique h₁ h₂))

/-- The pages on the lists are pages of the heap. -/
theorem Core.exists_freePages (C : Core h F) :
    ∃ s : Finset Nat, s.card = totalPages h .normal + totalPages h .returned ∧
      ∀ p ∈ s, Covered (piece h) p := by
  have hids : ∀ k ∈ listed h (kMaxPages + 1),
      piece h k = some ((h.span k).start, (h.span k).length) := by
    intro k hk
    obtain ⟨i, -, hk⟩ := List.mem_flatMap.1 hk
    apply piece_eq
    rcases List.mem_append.1 hk with hk | hk
    · exact (C.mem_lists.1 hk).1
    · exact (C.mem_lists.1 hk).1
  obtain ⟨s, hcard, hs⟩ := C.tiled.exists_positions (C.listed_nodup _) hids
  exact ⟨s, hcard.trans (sum_listed h _), hs⟩

theorem Core.freePages_le (C : Core h F) :
    (totalPages h .normal + totalPages h .returned) * kPageSize ≤ h.systemTaken := by
  obtain ⟨s, hcard, hs⟩ := C.exists_freePages
  rw [← hcard]
  exact C.room s hs

theorem Core.freePages_lt (C : Core h F) :
    totalPages h .normal + totalPages h .returned < 2 ^ 51 := by
  obtain ⟨s, hcard, hs⟩ := C.exists_freePages
  have hsub : s ⊆ Finset.Ico 1 (2 ^ 51) := by
    intro p hp
    have haddress := C.address (C.inside (hs p hp))
    exact Finset.mem_Ico.2 haddress
  have hle := Finset.card_le_card hsub
  rw [Nat.card_Ico] at hle
  omega

theorem bytesOf_toNat {n : Nat} (hn : n < 2 ^ 51) : (bytesOf n).toNat = n * kPageSize := by
  unfold bytesOf
  rw [Nat.shiftLeft_eq]
  change (UInt64.ofNat (n * 2 ^ 13)).toNat = n * 2 ^ 13
  exact UInt64.toNat_ofNat_of_lt (by
    change n * 2 ^ 13 < 2 ^ 64
    omega)

theorem bytesOf_inj {m n : Nat} (hm : m < 2 ^ 51) (hn : n < 2 ^ 51) (heq : bytesOf m = bytesOf n) :
    m = n := by
  have hnat := congrArg UInt64.toNat heq
  rw [bytesOf_toNat hm, bytesOf_toNat hn] at hnat
  exact Nat.eq_of_mul_eq_mul_right (by decide) hnat

omit [PageMap M SpanId] in
theorem length_le_totalPages (kind : Nat → Header) {i : Nat} (hi : i ≤ kMaxPages)
    (hmem : id ∈ h.lists (kind i)) : (h.span id).length ≤ totalPages h kind := by
  calc (h.span id).length ≤ pagesOn h (kind i) :=
        List.single_le_sum (fun _ _ => Nat.zero_le _) _ (List.mem_map_of_mem hmem)
    _ ≤ totalPages h kind := by
        apply Finset.single_le_sum (f := fun i => pagesOn h (kind i)) (fun _ _ => Nat.zero_le _)
        exact Finset.mem_range.2 (by omega)

/-- The pages on the returned lists, as `EnsureLimit` computes them. -/
theorem Core.unmapped_pages (C : Core h F) :
    h.stats.unmappedBytes.toNat >>> kPageShift = totalPages h .returned := by
  have hlt := C.freePages_lt
  rw [C.unmapped, bytesOf_toNat (by omega), Nat.shiftRight_eq_div_pow]
  exact Nat.mul_div_cancel _ (by decide)

theorem Core.freeBytes_pos_iff (C : Core h F) :
    h.stats.freeBytes > 0 ↔ totalPages h .normal ≠ 0 := by
  have hlt := C.freePages_lt
  have hzero : h.stats.freeBytes = 0 ↔ totalPages h .normal = 0 := by
    rw [C.free]
    constructor
    · intro heq
      exact bytesOf_inj (by omega) (by decide) (heq.trans bytesOf_zero.symm)
    · intro heq
      rw [heq]
      rfl
  rw [← not_iff_not, not_not, ← hzero, gt_iff_lt, UInt64.lt_iff_toNat_lt]
  constructor
  · intro hle
    apply UInt64.toNat_inj.1
    have h0 : (0 : UInt64).toNat = 0 := rfl
    omega
  · intro heq
    rw [heq]
    exact Nat.lt_irrefl _

/-! ## `ReleaseLastNormalSpan` -/

/-- `n` pages went from normal lists to returned ones. -/
structure Released (h h' : PageHeap M) (n : Nat) : Prop where
  normal : totalPages h .normal = totalPages h' .normal + n
  returned : totalPages h' .returned = totalPages h .returned + n
  count : normalCount h' ≤ normalCount h
  count_lt : 0 < n → normalCount h' < normalCount h

omit [PageMap M SpanId] in
theorem Released.of_lists (hlists : h'.lists = h.lists) (hspan : h'.span = h.span) :
    Released h h' 0 := by
  have hsame : ∀ hd, pagesOn h' hd = pagesOn h hd :=
    fun hd => pagesOn_congr (by rw [hlists]) fun k _ => by rw [hspan]
  have hcount : normalCount h' = normalCount h := by
    unfold normalCount
    rw [hlists]
  refine ⟨?_, ?_, Nat.le_of_eq hcount, fun hn => absurd hn (Nat.lt_irrefl 0)⟩
  · rw [Nat.add_zero, totalPages_congr .normal fun k => hsame (.normal k)]
  · rw [Nat.add_zero, totalPages_congr .returned fun k => hsame (.returned k)]

omit [PageMap M SpanId] in
theorem Released.trans {h'' : PageHeap M} {m n : Nat} (h₁ : Released h h' m)
    (h₂ : Released h' h'' n) : Released h h'' (m + n) := by
  have e₁ := h₁.normal
  have e₂ := h₁.returned
  have e₃ := h₂.normal
  have e₄ := h₂.returned
  have c₁ := h₁.count
  have c₂ := h₂.count
  refine ⟨by omega, by omega, by omega, fun hn => ?_⟩
  by_cases hm : 0 < m
  · have := h₁.count_lt hm
    omega
  · have := h₂.count_lt (by omega)
    omega

/-- A call of the system does not change the lists. -/
theorem Settled.tick (S : Settled h) (calls : Nat) : Settled { h with calls := calls } where
  core := { S.core with }
  quiet := S.quiet
  balanced := S.balanced
  releaseIndex := S.releaseIndex

omit [PageMap M SpanId] in
theorem normalCount_lt {i : Nat} (hi : i ≤ kMaxPages)
    (hle : ∀ k, (h'.lists (.normal k)).length ≤ (h.lists (.normal k)).length)
    (hlt : (h'.lists (.normal i)).length < (h.lists (.normal i)).length) :
    normalCount h' < normalCount h := by
  unfold normalCount
  apply List.sum_lt_sum
  · exact fun k _ => hle k
  · exact ⟨i, List.mem_range.2 (by omega), hlt⟩

/-- The heap when a span of a normal list is in hand and its memory was given back. -/
def givenBack (h : PageHeap M) (id : SpanId) : PageHeap M :=
  ({ takenOff h id with
      committed := h.setCommitted id false
      calls := h.calls + 1
      stats := { statsWithout h.stats (h.span id) with
        committedBytes := h.stats.committedBytes - bytesOf (h.span id).length } } :
    PageHeap M).modifySpan id fun s => { s with location := .onReturnedFreelist }

omit [PageMap M SpanId] in
theorem givenBack_span : (givenBack h id).span id =
    { h.span id with location := .onReturnedFreelist } := modifySpan_self

section GiveBack

variable {i : Nat} (S : Settled h) (hmem : id ∈ h.lists (.normal i))
include S hmem

/-- There are spans on normal lists only without `aggressive_decommit_`. -/
theorem Settled.on_normal : Live h id ∧ (h.span id).location = .onNormalFreelist ∧
    h.aggressiveDecommit = false := by
  obtain ⟨hl, -, hhd⟩ := S.core.mem_lists.1 hmem
  refine ⟨hl, ?_, ?_⟩
  · unfold headerOf at hhd
    cases hcase : (h.span id).location with
    | onNormalFreelist => rfl
    | inUse => simp [hcase] at hhd
    | onReturnedFreelist => simp [hcase] at hhd
  · cases ha : h.aggressiveDecommit with
    | false => rfl
    | true =>
        rw [S.quiet ha] at hmem
        cases hmem

theorem givenBack_freed (cfg : Config) :
    ∃ h', mergeIntoFreeList (givenBack h id) cfg id = .ok h' ∧ Freed (givenBack h id) h' id ∧
      Stays h (givenBack h id) := by
  obtain ⟨hl, hloc, haggr⟩ := S.on_normal hmem
  have hinUse : (h.span id).location ≠ .inUse := by simp [hloc]
  have hsize : (h.span id).sizeclass = 0 := S.core.sizeclass_free hl hinUse
  have hplain : ¬ (givenBack h id).aggressiveDecommit = true := by
    change ¬ h.aggressiveDecommit = true
    simp [haggr]
  have C : Core (givenBack h id) [id] := by
    apply Core.assign _ (by simp) rfl rfl
    · exact hsize
    · exact (S.core.takenOff hl (by simp) hinUse).commit hl (by simp) false (h.calls + 1) rfl rfl
  obtain ⟨h', hmerge, freed⟩ := mergeIntoFreeList_ok cfg C hl (by rw [givenBack_span]; simp)
    (by rw [givenBack_span]; exact hsize) (fun ha => absurd ha hplain)
    (by rw [givenBack_span]; exact fun hl => by cases hl) (fun ha => absurd ha hplain)
  have hsame : Stays h { takenOff h id with
      committed := h.setCommitted id false
      calls := h.calls + 1
      stats := { statsWithout h.stats (h.span id) with
        committedBytes := h.stats.committedBytes - bytesOf (h.span id).length } } :=
    stays_of_same rfl rfl rfl rfl rfl rfl
  exact ⟨h', hmerge, freed, hsame.trans (stays_setReturned hinUse)⟩

variable (freed : Freed (givenBack h id) h' id)
include freed

theorem givenBack_stats : h'.stats =
    { h.stats with
      freeBytes := h.stats.freeBytes - bytesOf (h.span id).length
      unmappedBytes := h.stats.unmappedBytes + bytesOf (h.span id).length
      committedBytes := h.stats.committedBytes - bytesOf (h.span id).length } := by
  obtain ⟨-, hloc, haggr⟩ := S.on_normal hmem
  have hplain : ¬ (givenBack h id).aggressiveDecommit = true := by
    change ¬ h.aggressiveDecommit = true
    simp [haggr]
  have hstats : (givenBack h id).stats = { statsWithout h.stats (h.span id) with
      committedBytes := h.stats.committedBytes - bytesOf (h.span id).length } := rfl
  rw [freed.stats, landed, if_neg hplain, givenBack_span, hstats]
  simp [statsWith, statsWithout, hloc]

theorem givenBack_settled : Settled h' where
  core := freed.core
  quiet := freed.quiet
  balanced := by
    have hbal := S.balanced
    rw [givenBack_stats S hmem freed]
    simp only
    grind
  releaseIndex := by
    rw [freed.releaseIndex]
    exact S.releaseIndex

/-- One span fewer is on normal lists, and its pages are on returned ones. -/
theorem givenBack_released (hi : i ≤ kMaxPages) : Released h h' (h.span id).length := by
  have C := S.core
  have hstats := givenBack_stats S hmem freed
  have hlt := C.freePages_lt
  have hlt' := freed.core.freePages_lt
  have hlen := length_le_totalPages .normal hi hmem
  have hnormal : totalPages h .normal - (h.span id).length = totalPages h' .normal := by
    apply bytesOf_inj (by omega) (by omega)
    rw [← freed.core.free, hstats]
    apply Eq.symm
    apply sub_of_add
    rw [C.free, ← bytesOf_add, Nat.sub_add_cancel hlen]
  have hreturned : totalPages h' .returned = totalPages h .returned + (h.span id).length := by
    apply bytesOf_inj (by omega) (by omega)
    rw [bytesOf_add, ← C.unmapped, ← freed.core.unmapped, hstats]
  have hsub : ∀ k, (h'.lists (.normal k)).length ≤ ((h.lists (.normal k)).erase id).length :=
    fun k => (freed.normal (Or.inr (by rw [givenBack_span])) k).length_le
  have hcount : normalCount h' < normalCount h := by
    apply normalCount_lt hi
    · exact fun k => Nat.le_trans (hsub k) List.length_erase_le
    · have hdec := List.length_erase_of_mem hmem
      have hpos := List.length_pos_of_mem hmem
      have := hsub i
      omega
  exact ⟨by omega, hreturned, Nat.le_of_lt hcount, fun _ => hcount⟩

end GiveBack

theorem releaseLastNormalSpan_ok (cfg : Config) (S : Settled h) {i : Nat} (hi : i ≤ kMaxPages)
    (hne : h.lists (.normal i) ≠ []) :
    ∃ h' n, releaseLastNormalSpan h cfg i = .ok (h', n) ∧ Settled h' ∧ Stays h h' ∧
      Released h h' n ∧ h'.releaseIndex = h.releaseIndex ∧
      (n = 0 → ∃ t, cfg.systemRelease t = false) := by
  cases hlast : (h.lists (.normal i)).getLast? with
  | none => exact absurd (List.getLast?_eq_none_iff.1 hlast) hne
  | some s =>
      have hmem : s ∈ h.lists (.normal i) := List.mem_of_getLast? hlast
      obtain ⟨hl, hloc, -⟩ := S.on_normal hmem
      unfold releaseLastNormalSpan
      rw [hlast]
      simp only
      rw [assert_pos hloc, ok_bind]
      unfold decommitSpan
      cases hrel : cfg.systemRelease h.calls with
      | false =>
          refine ⟨{ h with calls := h.calls + 1 }, 0, ?_, S.tick _,
            stays_of_same rfl rfl rfl rfl rfl rfl, Released.of_lists rfl rfl, rfl, fun _ => ⟨_, hrel⟩⟩
          simp
      | true =>
          have hinUse : (h.span s).location ≠ .inUse := by simp [hloc]
          have hpos := S.core.length_pos hl
          obtain ⟨h', hmerge, freed, hstays⟩ := givenBack_freed S hmem cfg
          refine ⟨h', (h.span s).length, ?_, givenBack_settled S hmem freed,
            hstays.trans freed.stays, givenBack_released S hmem freed hi, freed.releaseIndex,
            fun hzero => by omega⟩
          have heq : (takenOff { h with
              committed := h.setCommitted s false, calls := h.calls + 1,
              stats := { h.stats with
                committedBytes := h.stats.committedBytes - bytesOf (h.span s).length } }
              s).modifySpan s (fun s => { s with location := .onReturnedFreelist }) =
              givenBack h s := by
            simp [takenOff, givenBack, statsWithout, hloc]
          simp only [if_true]
          rw [removeFromFreeList_eq (by exact hinUse)]
          simp only [ok_bind]
          rw [heq, hmerge]
          rfl

/-! ## The loops of `ReleaseAtLeastNPages` -/

/-- The list a turn of the loop looks at. -/
def nextIndex (i : Nat) : Nat := if i > kMaxPages then 0 else i

theorem nextIndex_le (i : Nat) : nextIndex i ≤ kMaxPages := by
  unfold nextIndex
  split <;> omega

theorem Settled.setReleaseIndex (S : Settled h) {i : Nat} (hi : i ≤ kMaxPages + 1) :
    Settled { h with releaseIndex := i } where
  core := { S.core with }
  quiet := S.quiet
  balanced := S.balanced
  releaseIndex := hi

omit [PageMap M SpanId] in
theorem stays_setReleaseIndex (h : PageHeap M) (i : Nat) : Stays h { h with releaseIndex := i } :=
  stays_of_same rfl rfl rfl rfl rfl rfl

omit [PageMap M SpanId] in
theorem Released.of_index {i n : Nat} (hr : Released { h with releaseIndex := i } h' n) :
    Released h h' n := by
  have h₀ : Released h { h with releaseIndex := i } 0 := Released.of_lists rfl rfl
  have hsum := h₀.trans hr
  rwa [Nat.zero_add] at hsum

theorem nextIndex_succ {i : Nat} (hi : i ≤ kMaxPages) (k : Nat) :
    (nextIndex (i + 1) + k) % (kMaxPages + 1) = (i + (k + 1)) % (kMaxPages + 1) := by
  unfold nextIndex
  split
  · rw [show i = kMaxPages by omega, Nat.zero_add, show kMaxPages + (k + 1) = k + (kMaxPages + 1) by
      omega, Nat.add_mod_right]
  · rw [show i + 1 + k = i + (k + 1) by omega]

/-- One pass of the `for` loop.  A pass over `turns` lists that releases nothing and goes
on has seen only empty ones. -/
theorem releaseRound_ok (cfg : Config) (numPages : Nat) (turns : Nat) (S : Settled h) (released : Nat) :
    ∃ h' n done, releaseRound cfg numPages turns h released = .ok (h', released + n, done) ∧
      Settled h' ∧ Stays h h' ∧ Released h h' n ∧
      (done = true → ∃ t, cfg.systemRelease t = false) ∧
      (n = 0 → done = false → released < numPages → ∀ k < turns,
        h.lists (.normal ((nextIndex h.releaseIndex + k) % (kMaxPages + 1))) = []) := by
  induction turns generalizing h released with
  | zero =>
      refine ⟨h, 0, false, rfl, S, stays_of_same rfl rfl rfl rfl rfl rfl, Released.of_lists rfl rfl,
        fun hdone => (by cases hdone), ?_⟩
      intro _ _ _ k hk
      exact absurd hk (Nat.not_lt_zero k)
  | succ turns ih =>
      rw [releaseRound]
      by_cases hless : released < numPages
      · rw [if_pos hless]
        have hle := nextIndex_le h.releaseIndex
        have S₁ : Settled { h with releaseIndex := nextIndex h.releaseIndex } :=
          S.setReleaseIndex (by omega)
        have hset : (if h.releaseIndex > kMaxPages then { h with releaseIndex := 0 } else h) =
            { h with releaseIndex := nextIndex h.releaseIndex } := by
          unfold nextIndex
          split <;> rfl
        simp only [hset]
        by_cases hempty : h.lists (.normal (nextIndex h.releaseIndex)) = []
        · have S₂ : Settled { h with releaseIndex := nextIndex h.releaseIndex + 1 } :=
            S.setReleaseIndex (by omega)
          obtain ⟨h', n, done, hrun, hsettled, hstays, hreleased, hdone, hnone⟩ := ih S₂ released
          refine ⟨h', n, done, ?_, hsettled, ?_, ?_, hdone, ?_⟩
          · rw [if_neg (by simpa using hempty)]
            exact hrun
          · exact (stays_setReleaseIndex h _).trans hstays
          · exact hreleased.of_index
          · intro hn hd _ k hk
            by_cases hk0 : k = 0
            · subst hk0
              rw [Nat.add_zero, Nat.mod_eq_of_lt (by omega)]
              exact hempty
            · have hrest := hnone hn hd hless (k - 1) (by omega)
              have hindex := nextIndex_succ hle (k - 1)
              rw [Nat.sub_add_cancel (by omega)] at hindex
              rw [← hindex]
              exact hrest
        · obtain ⟨h₁, n₁, hlast, S₂, hstays₁, hreleased₁, hindex₁, hzero⟩ :=
            releaseLastNormalSpan_ok cfg S₁ hle hempty
          have hreleased₁' : Released h h₁ n₁ := hreleased₁.of_index
          have hstays₁' : Stays h h₁ := (stays_setReleaseIndex h _).trans hstays₁
          rw [if_pos hempty, hlast]
          simp only [ok_bind]
          by_cases hn₁ : n₁ = 0
          · subst hn₁
            refine ⟨h₁, 0, true, rfl, S₂, hstays₁', hreleased₁', fun _ => hzero rfl, ?_⟩
            exact fun _ hd => by cases hd
          · have S₃ : Settled { h₁ with releaseIndex := h₁.releaseIndex + 1 } := by
              apply S₂.setReleaseIndex
              have hindex₂ : h₁.releaseIndex = nextIndex h.releaseIndex := hindex₁
              omega
            obtain ⟨h', n, done, hrun, hsettled, hstays, hreleased, hdone, -⟩ :=
              ih S₃ (released + n₁)
            refine ⟨h', n₁ + n, done, ?_, hsettled, ?_, ?_, hdone, ?_⟩
            · rw [if_neg hn₁, ← Nat.add_assoc]
              exact hrun
            · exact (hstays₁'.trans (stays_setReleaseIndex h₁ _)).trans hstays
            · exact hreleased₁'.trans hreleased.of_index
            · intro hn
              omega
      · rw [if_neg hless]
        refine ⟨h, 0, false, rfl, S, stays_of_same rfl rfl rfl rfl rfl rfl,
          Released.of_lists rfl rfl, fun hdone => (by cases hdone), ?_⟩
        exact fun _ _ hlt => absurd hlt hless

omit [PageMap M SpanId] in
/-- A full pass over empty lists only means that nothing is free. -/
theorem totalPages_eq_zero {i : Nat}
    (hempty : ∀ k < kMaxPages + 1, h.lists (.normal ((i + k) % (kMaxPages + 1))) = []) :
    totalPages h .normal = 0 := by
  apply Finset.sum_eq_zero
  intro j hj
  have hj := Finset.mem_range.1 hj
  have hk := hempty ((j + (kMaxPages + 1) - i % (kMaxPages + 1)) % (kMaxPages + 1))
    (Nat.mod_lt _ (by omega))
  have hmod := Nat.mod_lt i (show 0 < kMaxPages + 1 by omega)
  rw [Nat.add_mod_mod, ← Nat.mod_add_mod,
    show i % (kMaxPages + 1) + (j + (kMaxPages + 1) - i % (kMaxPages + 1)) = j + (kMaxPages + 1) by
      omega, Nat.add_mod_right, Nat.mod_eq_of_lt hj] at hk
  rw [pagesOn, hk]
  rfl

/-- `ReleaseAtLeastNPages` ends.  What it says it released went from normal lists to
returned ones; if that is less than asked for, nothing more is free or the system refused. -/
theorem releaseFrom_ok (cfg : Config) (numPages : Nat) (fuel : Nat) (S : Settled h) (released : Nat)
    (hfuel : normalCount h < fuel) :
    ∃ h' n, releaseFrom cfg numPages fuel h released = .ok (h', released + n) ∧
      Settled h' ∧ Stays h h' ∧ Released h h' n ∧
      (numPages ≤ released + n ∨ totalPages h' .normal = 0 ∨ ∃ t, cfg.systemRelease t = false) := by
  induction fuel generalizing h released with
  | zero => exact absurd hfuel (Nat.not_lt_zero _)
  | succ fuel ih =>
      rw [releaseFrom]
      by_cases hgo : released < numPages ∧ h.stats.freeBytes > 0
      · rw [if_pos hgo]
        obtain ⟨h₁, n₁, done, hround, S₁, hstays₁, hreleased₁, hdone, hnone⟩ :=
          releaseRound_ok cfg numPages (kMaxPages + 1) S released
        rw [hround]
        simp only [ok_bind]
        cases hd : done with
        | true => exact ⟨h₁, n₁, rfl, S₁, hstays₁, hreleased₁, Or.inr (Or.inr (hdone hd))⟩
        | false =>
            have hpos : 0 < n₁ := by
              by_contra hzero
              have hfree := S.core.freeBytes_pos_iff.1 hgo.2
              exact hfree (totalPages_eq_zero (hnone (by omega) hd hgo.1))
            have hlt := hreleased₁.count_lt hpos
            obtain ⟨h', n, hrun, hsettled, hstays, hreleased, hend⟩ :=
              ih S₁ (released + n₁) (by omega)
            refine ⟨h', n₁ + n, ?_, hsettled, hstays₁.trans hstays, hreleased₁.trans hreleased, ?_⟩
            · rw [if_neg (by simp), ← Nat.add_assoc]
              exact hrun
            · rw [← Nat.add_assoc]
              exact hend
      · rw [if_neg hgo]
        refine ⟨h, 0, rfl, S, stays_of_same rfl rfl rfl rfl rfl rfl, Released.of_lists rfl rfl, ?_⟩
        by_cases hless : released < numPages
        · have hfree := S.core.freeBytes_pos_iff.not.1 fun hpos => hgo ⟨hless, hpos⟩
          exact Or.inr (Or.inl (not_not.1 hfree))
        · exact Or.inl (by omega)

theorem releaseAtLeastNPages_ok (S : Settled h) (cfg : Config) (numPages : Nat) :
    ∃ h' n, releaseAtLeastNPages h cfg numPages = .ok (h', n) ∧ Settled h' ∧ Stays h h' ∧
      Released h h' n ∧
      (numPages ≤ n ∨ totalPages h' .normal = 0 ∨ ∃ t, cfg.systemRelease t = false) := by
  have hrun := releaseFrom_ok cfg numPages (normalCount h + 1) S 0 (Nat.lt_succ_self _)
  simp only [Nat.zero_add] at hrun
  exact hrun

/-! ## Its callers -/

theorem Settled.setScavengeCounter (S : Settled h) (c : Int) :
    Settled { h with scavengeCounter := c } where
  core := { S.core with }
  quiet := S.quiet
  balanced := S.balanced
  releaseIndex := S.releaseIndex

theorem incrementalScavenge_ok (S : Settled h) (cfg : Config) (n : Nat) :
    ∃ h', incrementalScavenge h cfg n = .ok h' ∧ Settled h' ∧ Stays h h' := by
  unfold incrementalScavenge
  have hsame : ∀ (k : PageHeap M) (c : Int), Stays k { k with scavengeCounter := c } :=
    fun k c => stays_of_same rfl rfl rfl rfl rfl rfl
  have S₁ := S.setScavengeCounter (h.scavengeCounter - n)
  simp only
  split
  · exact ⟨_, rfl, S₁, hsame h _⟩
  · split
    · exact ⟨_, rfl, S.setScavengeCounter _, hsame h _⟩
    · obtain ⟨h', m, hrun, S', hstays, -⟩ := releaseAtLeastNPages_ok S₁ cfg 1
      have hstays' := (hsame h _).trans hstays
      rw [hrun]
      simp only [ok_bind]
      split
      · exact ⟨_, rfl, S'.setScavengeCounter _, hstays'.trans (hsame h' _)⟩
      · exact ⟨_, rfl, S'.setScavengeCounter _, hstays'.trans (hsame h' _)⟩

/-- The limit of `EnsureLimit` in pages; zero is none. -/
def limitPages (cfg : Config) : Nat := (cfg.heapLimitMb * 1024 * 1024) >>> kPageShift

/-- The pages the process has, without those given back. -/
def usedPages (h : PageHeap M) : Nat := (h.systemTaken >>> kPageShift) - totalPages h .returned

/-- `n` more pages are within the limit. -/
def Within (h : PageHeap M) (cfg : Config) (n : Nat) : Prop :=
  limitPages cfg = 0 ∨ usedPages h + n ≤ limitPages cfg

theorem Core.freePages_le_taken (C : Core h F) :
    totalPages h .normal + totalPages h .returned ≤ h.systemTaken >>> kPageShift := by
  rw [Nat.shiftRight_eq_div_pow]
  exact (Nat.le_div_iff_mul_le (by decide)).2 C.freePages_le

theorem ensureLimit_within (cfg : Config) (S : Settled h) (n : Nat) (w : Bool) (hin : Within h cfg n) :
    ensureLimit h cfg n w = .ok (h, true) := by
  have hle := S.core.freePages_le_taken
  have hlimit : (cfg.heapLimitMb * 1024 * 1024) >>> kPageShift = limitPages cfg := rfl
  have hused : h.systemTaken >>> kPageShift - totalPages h .returned = usedPages h := rfl
  unfold ensureLimit
  rw [S.core.unmapped_pages]
  simp only [hlimit, hused]
  by_cases hzero : limitPages cfg = 0
  · rw [if_pos hzero]
    rfl
  · have hin : usedPages h + n ≤ limitPages cfg := hin.resolve_left hzero
    rw [if_neg hzero, assert_pos (by omega), ok_bind, if_neg (by omega)]
    simp only [pure_eq_ok, decide_eq_true hin]

/-- `EnsureLimit` says whether `n` more pages are within the limit, after a release if
that is allowed and needed. -/
theorem ensureLimit_ok (S : Settled h) (cfg : Config) (n : Nat) (w : Bool) :
    ∃ h' ok, ensureLimit h cfg n w = .ok (h', ok) ∧ Settled h' ∧ Stays h h' ∧
      (ok = true ↔ Within h' cfg n) ∧ (w = false → h' = h) := by
  have hstay : Stays h h := stays_of_same rfl rfl rfl rfl rfl rfl
  by_cases hin : Within h cfg n
  · exact ⟨h, true, ensureLimit_within cfg S n w hin, S, hstay, iff_of_true rfl hin, fun _ => rfl⟩
  · have hle := S.core.freePages_le_taken
    have hlimit : (cfg.heapLimitMb * 1024 * 1024) >>> kPageShift = limitPages cfg := rfl
    have hused : h.systemTaken >>> kPageShift - totalPages h .returned = usedPages h := rfl
    obtain ⟨hzero, hover⟩ := not_or.1 hin
    unfold ensureLimit
    rw [S.core.unmapped_pages]
    simp only [hlimit, hused]
    rw [if_neg hzero, assert_pos (by omega), ok_bind]
    cases w with
    | false =>
        rw [if_neg (by simp)]
        refine ⟨h, false, ?_, S, hstay, iff_of_false (by simp) hin, fun _ => rfl⟩
        simp only [pure_eq_ok, decide_eq_false hover]
    | true =>
        obtain ⟨h', m, hrun, S', hstays, hreleased, -⟩ :=
          releaseAtLeastNPages_ok S cfg (usedPages h + n - limitPages cfg)
        rw [if_pos ⟨by omega, rfl⟩, hrun]
        have hused' : usedPages h - m = usedPages h' := by
          have hreturned := hreleased.returned
          unfold usedPages
          rw [hreturned, hstays.systemTaken]
          omega
        refine ⟨h', decide (usedPages h' + n ≤ limitPages cfg), ?_, S', hstays, ?_,
          fun hw => by cases hw⟩
        · simp only [ok_bind, pure_eq_ok, hused']
        · rw [decide_eq_true_eq, Within]
          exact ⟨Or.inr, fun hor => hor.resolve_left hzero⟩

end SatAllocatorTest.Ports.TCmalloc.PageHeap
