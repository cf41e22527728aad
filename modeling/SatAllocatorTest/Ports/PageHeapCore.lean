import Mathlib.Algebra.BigOperators.Group.Finset.Basic
import SatAllocatorTest.Ports.PageHeap
import SatAllocatorTest.Verified.Tilings

/-!
# What a page heap keeps

`Core h F` is the invariant of the page heap between two statements.  The live spans tile
the pages the heap got; the page map is right at their ends; each free span is on the
list of its location and length, except for those in `F`, which an operation has taken
off their lists and not put back; the statistics add up the lists; the pages of a span
that is not returned are backed by memory; and no two neighbours on lists could have been
merged.  Between two operations `F` is empty.

`held` are the spans in use, with all their fields: what the clients of the heap see.
-/

namespace SatAllocatorTest.Ports.TCmalloc.PageHeap

open SatAllocatorTest.Verified.Tilings
open SpanList (removeSpan prependSpan)

variable {M : Type} [PageMap M SpanId]

omit [PageMap M SpanId] in
/-- The span was allocated and not deleted. -/
def Live (h : PageHeap M) (id : SpanId) : Prop := id < h.freshSpan ∧ id ∉ h.freeSpans

instance (h : PageHeap M) (id : SpanId) : Decidable (Live h id) := by
  unfold Live
  infer_instance

/-- The pages of a live span. -/
def piece (h : PageHeap M) (id : SpanId) : Option (Nat × Nat) :=
  if Live h id then some ((h.span id).start, (h.span id).length) else none

/-- The list a span belongs on. -/
def headerOf (s : Span) : Option Header :=
  match s.location with
  | .inUse => none
  | .onNormalFreelist => some (.normal (listIndex s.length))
  | .onReturnedFreelist => some (.returned (listIndex s.length))

/-- The spans in use. -/
def held (h : PageHeap M) (id : SpanId) : Option Span :=
  if Live h id ∧ (h.span id).location = .inUse then some (h.span id) else none

/-- The span is live and not in use. -/
def Free (h : PageHeap M) (id : SpanId) : Prop := Live h id ∧ (h.span id).location ≠ .inUse

/-- Some free span has `n` pages. -/
def HasFit (h : PageHeap M) (n : Nat) : Prop := ∃ id, Free h id ∧ n ≤ (h.span id).length

/-- Neighbours with these locations are merged. -/
def Mergeable (aggressive : Bool) (a b : Location) : Prop :=
  a ≠ .inUse ∧ b ≠ .inUse ∧ (aggressive = true ∨ a = b)

/-- The pages on a list. -/
def pagesOn (h : PageHeap M) (hd : Header) : Nat :=
  ((h.lists hd).map fun id => (h.span id).length).sum

/-- The pages on all normal lists, or on all returned ones. -/
def totalPages (h : PageHeap M) (kind : Nat → Header) : Nat :=
  ∑ i ∈ Finset.range (kMaxPages + 1), pagesOn h (kind i)

/-- The pages of the live spans were got from the system: they can be written in the page
map, and are no more than the bytes taken.  No page number needs more than 51 bits. -/
structure Ground (h : PageHeap M) : Prop where
  ensured : ∀ {p}, Covered (piece h) p → PageMap.Ensured h.pagemap p
  inside : ∀ {p}, Covered (piece h) p → TakenPage h.taken p
  address : ∀ {p}, TakenPage h.taken p → 0 < p ∧ p < 2 ^ 51
  sparse : ∀ x, ∃ q, x ≤ q ∧ q < x + 2 ^ 31 ∧ ¬ TakenPage h.taken q
  room : ∀ s : Finset Nat, (∀ p ∈ s, Covered (piece h) p) → s.card * kPageSize ≤ h.systemTaken

structure Core (h : PageHeap M) (F : List SpanId) : Prop extends Ground h where
  tiled : Tiled (piece h) (getDescriptor h)
  freeSpans_lt : ∀ id ∈ h.freeSpans, id < h.freshSpan
  freeSpans_nodup : h.freeSpans.Nodup
  mem_lists : ∀ {hd id}, id ∈ h.lists hd ↔
    Live h id ∧ id ∉ F ∧ headerOf (h.span id) = some hd
  lists_nodup : ∀ hd, (h.lists hd).Nodup
  sized : ∀ {id}, Live h id → (h.span id).sizeclass ≠ 0 →
    (h.span id).location = .inUse ∧
      ∀ p, (h.span id).start ≤ p → p < (h.span id).start + (h.span id).length →
        getDescriptor h p = some id
  free : h.stats.freeBytes = bytesOf (totalPages h .normal)
  unmapped : h.stats.unmappedBytes = bytesOf (totalPages h .returned)
  backed : ∀ {id}, Live h id → id ∉ F → (h.span id).location ≠ .onReturnedFreelist →
    ∀ p, (h.span id).start ≤ p → p < (h.span id).start + (h.span id).length →
      h.committed p = true
  apart : ∀ {i j}, Adjacent (piece h) i j → i ∉ F → j ∉ F →
    ¬ Mergeable h.aggressiveDecommit (h.span i).location (h.span j).location

/-! ## Small facts -/

@[simp] theorem ok_bind {α β : Type} (a : α) (f : α → Except Fault β) :
    (Except.ok a >>= f) = f a := rfl

@[simp] theorem pure_eq_ok {α : Type} (a : α) : (pure a : Except Fault α) = .ok a := rfl

theorem ok_of_bind {α β : Type} {x : Except Fault α} {f : α → Except Fault β} {b : β}
    (hbind : (x >>= f) = .ok b) : ∃ a, x = .ok a ∧ f a = .ok b := by
  cases x with
  | ok a => exact ⟨a, rfl, hbind⟩
  | error e => cases hbind

theorem assert_pos {c : Prop} [Decidable c] (h : c) : assert c = .ok () := if_pos h

theorem listIndex_le (n : Nat) : listIndex n ≤ kMaxPages := by
  unfold listIndex
  split <;> omega

theorem listIndex_eq_zero {n : Nat} (h : listIndex n = 0) : n = 0 := by
  unfold listIndex at h
  split at h
  · exact h
  · exact absurd h (by decide)

theorem toInt32_eq {n : Nat} (h : n < 2 ^ 31) : toInt32 n = n := by
  have hmod : n % 2 ^ 32 = n := Nat.mod_eq_of_lt (by omega)
  rw [toInt32, hmod, if_pos h]

theorem lengthOfInt_eq {n : Nat} (h : n < 2 ^ 31) : lengthOfInt (n : Int) = n := by
  unfold lengthOfInt
  omega

theorem sub64_eq {a b : Nat} (hle : b ≤ a) (ha : a < 2 ^ 64) : sub64 a b = a - b := by
  unfold sub64
  omega

theorem bytesOf_add (a b : Nat) : bytesOf (a + b) = bytesOf a + bytesOf b := by
  unfold bytesOf
  rw [Nat.shiftLeft_eq, Nat.shiftLeft_eq, Nat.shiftLeft_eq, Nat.add_mul, UInt64.ofNat_add]

@[simp] theorem bytesOf_zero : bytesOf 0 = 0 := rfl

variable {h h' : PageHeap M} {F : List SpanId} {id j : SpanId} {p n : Nat}

omit [PageMap M SpanId] in
theorem piece_eq (hl : Live h id) : piece h id = some ((h.span id).start, (h.span id).length) :=
  if_pos hl

omit [PageMap M SpanId] in
theorem live_of_piece {a n : Nat} (hp : piece h id = some (a, n)) :
    Live h id ∧ (h.span id).start = a ∧ (h.span id).length = n := by
  unfold piece at hp
  by_cases hl : Live h id
  · rw [if_pos hl] at hp
    injection hp with hp
    injection hp with ha hn
    exact ⟨hl, ha, hn⟩
  · rw [if_neg hl] at hp
    cases hp

omit [PageMap M SpanId] in
theorem covered_of_live (hl : Live h id) (hlo : (h.span id).start ≤ p)
    (hhi : p < (h.span id).start + (h.span id).length) : Covered (piece h) p :=
  covered_of_piece (piece_eq hl) hlo hhi

namespace Core

theorem length_pos (C : Core h F) (hl : Live h id) : 0 < (h.span id).length :=
  C.tiled.pos (piece_eq hl)

theorem start_pos (C : Core h F) (hl : Live h id) : 0 < (h.span id).start := by
  have hlen := C.length_pos hl
  exact (C.address (C.inside (covered_of_live hl (Nat.le_refl _) (by omega)))).1

theorem end_le (C : Core h F) (hl : Live h id) :
    (h.span id).start + (h.span id).length ≤ 2 ^ 51 := by
  have hlen := C.length_pos hl
  have hlast := C.address (C.inside (covered_of_live hl
    (p := (h.span id).start + (h.span id).length - 1) (by omega) (by omega)))
  omega

/-- No span is as long as 2 ^ 31 pages. -/
theorem length_lt (C : Core h F) (hl : Live h id) : (h.span id).length < 2 ^ 31 := by
  by_contra hlong
  obtain ⟨q, hlo, hhi, hq⟩ := C.sparse (h.span id).start
  exact hq (C.inside (covered_of_live hl hlo (by omega)))

theorem first (C : Core h F) (hl : Live h id) :
    getDescriptor h (h.span id).start = some id :=
  C.tiled.first (piece_eq hl)

theorem last (C : Core h F) (hl : Live h id) :
    getDescriptor h ((h.span id).start + (h.span id).length - 1) = some id :=
  C.tiled.last (piece_eq hl)

/-- A free span has no size class. -/
theorem sizeclass_free (C : Core h F) (hl : Live h id)
    (hloc : (h.span id).location ≠ .inUse) : (h.span id).sizeclass = 0 := by
  by_contra hne
  exact hloc (C.sized hl hne).1

/-- `Check` passes. -/
theorem check_ok (C : Core h F) : check h = .ok () := by
  have hempty : ∀ hd, (∀ s : Span, headerOf s = some hd → s.length = 0) → h.lists hd = [] := by
    intro hd hzero
    apply List.eq_nil_iff_forall_not_mem.2
    intro id hid
    have hmem := C.mem_lists.1 hid
    have hlen := C.length_pos hmem.1
    have := hzero _ hmem.2.2
    omega
  have hnormal : h.lists (.normal 0) = [] := by
    apply hempty
    intro s hs
    unfold headerOf at hs
    split at hs
    · cases hs
    · injection hs with hs
      injection hs with hs
      exact listIndex_eq_zero hs
    · cases hs
  have hreturned : h.lists (.returned 0) = [] := by
    apply hempty
    intro s hs
    unfold headerOf at hs
    split at hs
    · cases hs
    · cases hs
    · injection hs with hs
      injection hs with hs
      exact listIndex_eq_zero hs
  unfold check
  rw [assert_pos hnormal, assert_pos hreturned]
  rfl

end Core

end SatAllocatorTest.Ports.TCmalloc.PageHeap
