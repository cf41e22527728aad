import Mathlib.Data.List.Chain
import Mathlib.Logic.Function.Basic

/-!
# Circular doubly linked lists

Every node has two link words, `next` and `prev`.  A ring is a header node followed by
its members, each linked both ways to the one after it and the last one to the header
(`IsRing`).  Several headers share one memory: `RingSet m head lists` says that the ring of
`head k` has the members `lists k`, and that no node is in two places.

Unlinking a member changes the two links around it (`RingSet.unlink`); linking a fresh node
in behind the header changes the two links around that place (`RingSet.link`).  Every other
link is framed out, so each edit of the memory is one edit of one list.
-/

namespace SatAllocatorTest.Verified.Rings

variable {ν κ : Type}

/-- The link words of all nodes. -/
structure Links (ν : Type) where
  next : ν → Option ν
  prev : ν → Option ν

/-- `b` follows `a`. -/
def Linked (m : Links ν) (a b : ν) : Prop := m.next a = some b ∧ m.prev b = some a

/-- The ring of the header `hd` has the members `xs`. -/
def IsRing (m : Links ν) (hd : ν) (xs : List ν) : Prop :=
  (hd :: (xs ++ [hd])).IsChain (Linked m)

/-- Each header has a ring of its own. -/
structure RingSet (m : Links ν) (head : κ → ν) (lists : κ → List ν) : Prop where
  ring : ∀ k, IsRing m (head k) (lists k)
  nodup : ∀ k, (head k :: lists k).Nodup
  apart : ∀ {k k' x}, x ∈ head k :: lists k → x ∈ head k' :: lists k' → k = k'

variable {m m' : Links ν} {hd : ν} {xs : List ν}

/-- A chain reads `next` of all its nodes but the last, and `prev` of all but the first. -/
theorem chain_congr : ∀ {l : List ν}, l.IsChain (Linked m) →
    (∀ a ∈ l.dropLast, m'.next a = m.next a) → (∀ b ∈ l.tail, m'.prev b = m.prev b) →
    l.IsChain (Linked m') := by
  intro l
  induction l with
  | nil => exact fun _ _ _ => List.isChain_nil
  | cons a l ih =>
      intro hl hnext hprev
      cases l with
      | nil => exact List.isChain_singleton a
      | cons b l =>
          rw [List.isChain_cons_cons] at hl ⊢
          have hab := hl.1
          have hna := hnext a (by simp)
          have hpb := hprev b (by simp)
          refine ⟨⟨hna.trans hab.1, hpb.trans hab.2⟩, ih hl.2 ?_ ?_⟩
          · intro c hc
            exact hnext c (by simp [hc])
          · intro c hc
            exact hprev c (by simp only [List.tail_cons] at hc ⊢; exact List.mem_cons_of_mem _ hc)

/-- The header's links lead to the first member. -/
theorem IsRing.next_head (h : IsRing m hd xs) : m.next hd = some (xs.head?.getD hd) := by
  cases xs with
  | nil => exact (List.isChain_cons_cons.1 h).1.1
  | cons x xs => exact (List.isChain_cons_cons.1 h).1.1

/-- The links around a member. -/
theorem IsRing.around {pre post : List ν} {x : ν} (h : IsRing m hd (pre ++ x :: post)) :
    m.prev x = some ((hd :: pre).getLast (by simp)) ∧
      m.next x = some ((post ++ [hd]).head (by simp)) := by
  have hsplit : hd :: (pre ++ x :: post ++ [hd]) = (hd :: pre) ++ (x :: (post ++ [hd])) := by
    simp
  unfold IsRing at h
  rw [hsplit, List.isChain_append] at h
  obtain ⟨-, hpost, hseam⟩ := h
  constructor
  · have hlast := hseam _ (List.getLast_mem_getLast? (by simp)) x (by simp)
    exact hlast.2
  · cases post with
    | nil => exact (List.isChain_cons_cons.1 hpost).1.1
    | cons y post => exact (List.isChain_cons_cons.1 hpost).1.1

/-! ## The two edits -/

variable [DecidableEq ν]

/-- Unlinking `x` from between `p` and `n`. -/
def unlink (m : Links ν) (x p n : ν) : Links ν where
  next := Function.update (Function.update m.next p (some n)) x none
  prev := Function.update (Function.update m.prev n (some p)) x none

/-- Linking `x` in between `p` and `n`. -/
def link (m : Links ν) (x p n : ν) : Links ν where
  next := Function.update (Function.update m.next x (some n)) p (some x)
  prev := Function.update (Function.update m.prev x (some p)) n (some x)

omit [DecidableEq ν] in
/-- A ring without the nodes of an edit is as before. -/
theorem IsRing.congr (h : IsRing m hd xs) (hnext : ∀ a ∈ hd :: xs, m'.next a = m.next a)
    (hprev : ∀ a ∈ hd :: xs, m'.prev a = m.prev a) : IsRing m' hd xs := by
  apply chain_congr h
  · intro a ha
    have hdrop : (hd :: (xs ++ [hd])).dropLast = hd :: xs := by
      rw [← List.cons_append, List.dropLast_concat]
    rw [hdrop] at ha
    exact hnext a ha
  · intro b hb
    apply hprev b
    simpa [or_comm] using hb

theorem IsRing.unlink {pre post : List ν} {x : ν} (h : IsRing m hd (pre ++ x :: post))
    (hnd : (hd :: (pre ++ x :: post)).Nodup) :
    IsRing (unlink m x ((hd :: pre).getLast (by simp)) ((post ++ [hd]).head (by simp))) hd
      (pre ++ post) := by
  obtain ⟨A, p, hA⟩ : ∃ A p, hd :: pre = A ++ [p] :=
    ⟨_, _, (List.dropLast_append_getLast (by simp)).symm⟩
  obtain ⟨n, B, hB⟩ : ∃ n B, post ++ [hd] = n :: B := by
    cases post with
    | nil => exact ⟨hd, [], rfl⟩
    | cons y post => exact ⟨y, post ++ [hd], rfl⟩
  have hp : (hd :: pre).getLast (by simp) = p := by simp only [hA, List.getLast_concat]
  have hn : (post ++ [hd]).head (by simp) = n := by simp only [hB, List.head_cons]
  rw [hp, hn]
  -- the nodes before and behind the gap
  have hnd1 : (A ++ p :: x :: post).Nodup := by
    have heq : hd :: (pre ++ x :: post) = A ++ p :: x :: post := by
      rw [← List.cons_append, hA, List.append_assoc, List.singleton_append]
    rwa [heq] at hnd
  have hnd2 : (pre ++ x :: n :: B).Nodup := by
    have heq : pre ++ x :: n :: B = (pre ++ x :: post) ++ [hd] := by
      rw [List.append_assoc, List.cons_append, hB]
    have hperm : List.Perm ([hd] ++ (pre ++ x :: post)) ((pre ++ x :: post) ++ [hd]) :=
      List.perm_append_comm
    rw [heq]
    exact hperm.nodup_iff.1 hnd
  have hwhole : hd :: (pre ++ x :: post ++ [hd]) = A ++ p :: x :: n :: B := by
    rw [List.append_assoc, List.cons_append, hB, ← List.cons_append, hA, List.append_assoc,
      List.singleton_append]
  have hgoal : hd :: (pre ++ post ++ [hd]) = A ++ p :: n :: B := by
    rw [List.append_assoc, hB, ← List.cons_append, hA, List.append_assoc, List.singleton_append]
  have htail : (A ++ [p]).tail = pre := by rw [← hA, List.tail_cons]
  have hinit : (n :: B).dropLast = post := by rw [← hB, List.dropLast_concat]
  unfold IsRing at h ⊢
  rw [hwhole, List.isChain_append_cons_cons, List.isChain_cons_cons] at h
  rw [hgoal, List.isChain_append_cons_cons]
  have hndp := (List.nodup_append.1 hnd1).2.1
  have hndx := (List.nodup_append.1 hnd2).2.1
  have hxp : p ≠ x := fun hpx => (List.nodup_cons.1 hndp).1 (by simp [hpx])
  have hxn : n ≠ x := fun hnx => (List.nodup_cons.1 hndx).1 (by simp [hnx])
  refine ⟨chain_congr h.1 ?_ ?_, ⟨?_, ?_⟩, chain_congr h.2.2.2 ?_ ?_⟩
  · intro a ha
    rw [List.dropLast_concat] at ha
    have hap : a ≠ p := (List.nodup_append.1 hnd1).2.2 a ha p (by simp)
    have hax : a ≠ x := (List.nodup_append.1 hnd1).2.2 a ha x (by simp)
    simp only [Rings.unlink, Function.update_of_ne hax, Function.update_of_ne hap]
  · intro b hb
    rw [htail] at hb
    have hbn : b ≠ n := (List.nodup_append.1 hnd2).2.2 b hb n (by simp)
    have hbx : b ≠ x := (List.nodup_append.1 hnd2).2.2 b hb x (by simp)
    simp only [Rings.unlink, Function.update_of_ne hbx, Function.update_of_ne hbn]
  · simp only [Rings.unlink, Function.update_of_ne hxp, Function.update_self]
  · simp only [Rings.unlink, Function.update_of_ne hxn, Function.update_self]
  · intro a ha
    rw [hinit] at ha
    have hap : a ≠ p := by
      rintro rfl
      exact (List.nodup_cons.1 hndp).1 (List.mem_cons_of_mem x ha)
    have hax : a ≠ x := by
      rintro rfl
      exact (List.nodup_cons.1 (List.nodup_cons.1 hndp).2).1 ha
    simp only [Rings.unlink, Function.update_of_ne hax, Function.update_of_ne hap]
  · intro b hb
    rw [List.tail_cons] at hb
    have hbn : b ≠ n := by
      rintro rfl
      exact (List.nodup_cons.1 (List.nodup_cons.1 hndx).2).1 hb
    have hbx : b ≠ x := by
      rintro rfl
      exact (List.nodup_cons.1 hndx).1 (List.mem_cons_of_mem n hb)
    simp only [Rings.unlink, Function.update_of_ne hbx, Function.update_of_ne hbn]

theorem IsRing.link {x : ν} (h : IsRing m hd xs) (hnd : (hd :: xs).Nodup) (hx : x ∉ hd :: xs) :
    IsRing (link m x hd ((xs ++ [hd]).head (by simp))) hd (x :: xs) := by
  obtain ⟨n, B, hB⟩ : ∃ n B, xs ++ [hd] = n :: B := by
    cases xs with
    | nil => exact ⟨hd, [], rfl⟩
    | cons y xs => exact ⟨y, xs ++ [hd], rfl⟩
  have hn : (xs ++ [hd]).head (by simp) = n := by simp only [hB, List.head_cons]
  rw [hn]
  have hinit : (n :: B).dropLast = xs := by rw [← hB, List.dropLast_concat]
  have hndB : (n :: B).Nodup := by
    have hperm : List.Perm ([hd] ++ xs) (xs ++ [hd]) := List.perm_append_comm
    rw [← hB]
    exact hperm.nodup_iff.1 hnd
  have hxB : x ∉ n :: B := by
    rw [← hB]
    simpa [or_comm] using hx
  unfold IsRing at h ⊢
  rw [List.cons_append, hB, List.isChain_cons_cons, List.isChain_cons_cons]
  rw [hB, List.isChain_cons_cons] at h
  have hxh : x ≠ hd := fun hxh => hx (by simp [hxh])
  have hxn : x ≠ n := fun hxn => hxB (by simp [hxn])
  refine ⟨⟨?_, ?_⟩, ⟨?_, ?_⟩, chain_congr h.2 ?_ ?_⟩
  · simp only [Rings.link, Function.update_self]
  · simp only [Rings.link, Function.update_of_ne hxn, Function.update_self]
  · simp only [Rings.link, Function.update_of_ne hxh, Function.update_self]
  · simp only [Rings.link, Function.update_self]
  · intro a ha
    rw [hinit] at ha
    have hah : a ≠ hd := by
      rintro rfl
      exact (List.nodup_cons.1 hnd).1 ha
    have hax : a ≠ x := by
      rintro rfl
      exact hx (List.mem_cons_of_mem hd ha)
    simp only [Rings.link, Function.update_of_ne hah, Function.update_of_ne hax]
  · intro b hb
    rw [List.tail_cons] at hb
    have hbn : b ≠ n := by
      rintro rfl
      exact (List.nodup_cons.1 hndB).1 hb
    have hbx : b ≠ x := by
      rintro rfl
      exact hxB (List.mem_cons_of_mem n hb)
    simp only [Rings.link, Function.update_of_ne hbn, Function.update_of_ne hbx]

variable [DecidableEq κ] {head : κ → ν} {lists : κ → List ν}

/-- Unlinking a member of one ring removes it from that list and from nothing else. -/
theorem RingSet.unlink {k : κ} {pre post : List ν} {x : ν} (R : RingSet m head lists)
    (hk : lists k = pre ++ x :: post) :
    ∃ p n, m.prev x = some p ∧ m.next x = some n ∧ p ≠ x ∧
      RingSet (Rings.unlink m x p n) head (Function.update lists k (pre ++ post)) := by
  have hring := R.ring k
  have hnd := R.nodup k
  rw [hk] at hring hnd
  have haround := hring.around
  have hp : (head k :: pre).getLast (by simp) ∈ head k :: pre := List.getLast_mem _
  have hn : (post ++ [head k]).head (by simp) ∈ post ++ [head k] := List.head_mem _
  have hpk : (head k :: pre).getLast (by simp) ∈ head k :: lists k := by
    rw [hk]
    rcases List.mem_cons.1 hp with hp | hp
    · exact List.mem_cons.2 (Or.inl hp)
    · exact List.mem_cons_of_mem _ (List.mem_append_left _ hp)
  have hnk : (post ++ [head k]).head (by simp) ∈ head k :: lists k := by
    rw [hk]
    rcases List.mem_append.1 hn with hn | hn
    · exact List.mem_cons_of_mem _ (List.mem_append_right _ (List.mem_cons_of_mem x hn))
    · exact List.mem_cons.2 (Or.inl (List.mem_singleton.1 hn))
  have hxk : x ∈ head k :: lists k := by simp [hk]
  have hsub : ∀ {y k'}, y ∈ head k' :: Function.update lists k (pre ++ post) k' →
      y ∈ head k' :: lists k' := by
    intro y k' hy
    by_cases hkk : k' = k
    · subst hkk
      rw [Function.update_self] at hy
      rw [hk]
      simp only [List.mem_cons, List.mem_append] at hy ⊢
      tauto
    · rwa [Function.update_of_ne hkk] at hy
  refine ⟨_, _, haround.1, haround.2, ?_, ?_, ?_, ?_⟩
  · intro hpx
    rw [← List.cons_append] at hnd
    exact (List.nodup_append.1 hnd).2.2 _ hp x (by simp) hpx
  · intro k'
    by_cases hkk : k' = k
    · subst hkk
      rw [Function.update_self]
      exact hring.unlink hnd
    · rw [Function.update_of_ne hkk]
      have hoff : ∀ {y a}, y ∈ head k :: lists k → a ∈ head k' :: lists k' → a ≠ y := by
        rintro y a hy ha rfl
        exact hkk (R.apart ha hy)
      apply (R.ring k').congr
      · intro a ha
        simp only [Rings.unlink, Function.update_of_ne (hoff hxk ha),
          Function.update_of_ne (hoff hpk ha)]
      · intro a ha
        simp only [Rings.unlink, Function.update_of_ne (hoff hxk ha),
          Function.update_of_ne (hoff hnk ha)]
  · intro k'
    by_cases hkk : k' = k
    · subst hkk
      rw [Function.update_self]
      have hsublist : List.Sublist (head k' :: (pre ++ post)) (head k' :: (pre ++ x :: post)) :=
        List.Sublist.cons_cons _ (List.Sublist.append_left (List.sublist_cons_self x post) pre)
      exact List.Nodup.sublist hsublist hnd
    · rw [Function.update_of_ne hkk]
      exact R.nodup k'
  · intro k' k'' y hy hy'
    exact R.apart (hsub hy) (hsub hy')

/-- Linking a node that is in no ring in behind a header puts it first in that list. -/
theorem RingSet.link {k : κ} {x : ν} (R : RingSet m head lists)
    (hx : ∀ k', x ∉ head k' :: lists k') :
    ∃ n, m.next (head k) = some n ∧ n ≠ x ∧
      RingSet (Rings.link m x (head k) n) head (Function.update lists k (x :: lists k)) := by
  have hring := R.ring k
  have hhead : (lists k).head?.getD (head k) = (lists k ++ [head k]).head (by simp) := by
    cases lists k <;> rfl
  have hn : (lists k ++ [head k]).head (by simp) ∈ lists k ++ [head k] := List.head_mem _
  have hnk : (lists k ++ [head k]).head (by simp) ∈ head k :: lists k := by
    rcases List.mem_append.1 hn with hn | hn
    · exact List.mem_cons_of_mem _ hn
    · exact List.mem_cons.2 (Or.inl (List.mem_singleton.1 hn))
  have hnext := hring.next_head
  rw [hhead] at hnext
  refine ⟨_, hnext, ?_, ?_, ?_, ?_⟩
  · intro hnx
    exact hx k (hnx ▸ hnk)
  · intro k'
    by_cases hkk : k' = k
    · subst hkk
      rw [Function.update_self]
      exact hring.link (R.nodup k') (hx k')
    · rw [Function.update_of_ne hkk]
      have hax : ∀ a ∈ head k' :: lists k', a ≠ x := fun a ha hax => hx k' (hax ▸ ha)
      apply (R.ring k').congr
      · intro a ha
        have hah : a ≠ head k := fun hah => hkk (R.apart ha (by simp [hah]))
        simp only [Rings.link, Function.update_of_ne hah, Function.update_of_ne (hax a ha)]
      · intro a ha
        have han : a ≠ (lists k ++ [head k]).head (by simp) :=
          fun han => hkk (R.apart ha (han ▸ hnk))
        simp only [Rings.link, Function.update_of_ne han, Function.update_of_ne (hax a ha)]
  · intro k'
    by_cases hkk : k' = k
    · subst hkk
      rw [Function.update_self]
      have hnd := R.nodup k'
      have hxk := hx k'
      simp only [List.nodup_cons, List.mem_cons, not_or] at hnd hxk ⊢
      exact ⟨⟨fun h => hxk.1 h.symm, hnd.1⟩, hxk.2, hnd.2⟩
    · rw [Function.update_of_ne hkk]
      exact R.nodup k'
  · have hmem : ∀ {y k'}, y ∈ head k' :: Function.update lists k (x :: lists k) k' →
        (y = x ∧ k' = k) ∨ y ∈ head k' :: lists k' := by
      intro y k' hy
      by_cases hkk : k' = k
      · subst hkk
        rw [Function.update_self] at hy
        simp only [List.mem_cons] at hy ⊢
        tauto
      · rw [Function.update_of_ne hkk] at hy
        exact Or.inr hy
    intro k' k'' y hy hy'
    rcases hmem hy with ⟨hyx, hk'⟩ | hold
    · rcases hmem hy' with ⟨-, hk''⟩ | hold'
      · exact hk'.trans hk''.symm
      · exact absurd (hyx ▸ hold') (hx k'')
    · rcases hmem hy' with ⟨hyx, -⟩ | hold'
      · exact absurd (hyx ▸ hold) (hx k')
      · exact R.apart hold hold'

end SatAllocatorTest.Verified.Rings
