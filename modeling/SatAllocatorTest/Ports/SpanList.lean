import SatAllocatorTest.Verified.Rings
import SatAllocatorTest.Verified.Runs

/-!
# The doubly linked lists of spans

`DLL_Init`, `DLL_Remove`, `DLL_Prepend`, `DLL_IsEmpty` and `DLL_Length` work on the `next`
and `prev` words of spans, the headers of the lists being spans themselves.  A write
through a null pointer and a failed assertion are `none`.

The page heap and the central free lists keep many such lists in one memory.  `ListOp` is
what they do to them: take a span out of the list it is in, put a span that is in none at
the front of one.  `run_represents` is the licence to model each list by its spans in
order: whatever the operations, the memory keeps representing the lists, no null
pointer is written through, and the five functions read off it what the lists say.
-/

namespace SatAllocatorTest.Ports.TCmalloc.SpanList

open SatAllocatorTest.Verified
open SatAllocatorTest.Verified.Rings

abbrev Addr := Nat
abbrev Memory := Links Addr

/-- `DLL_Init`. -/
def dllInit (m : Memory) (list : Addr) : Memory where
  next := Function.update m.next list (some list)
  prev := Function.update m.prev list (some list)

/-- `DLL_Remove`. -/
def dllRemove (m : Memory) (span : Addr) : Option Memory := do
  let before ← m.prev span
  let m := { m with next := Function.update m.next before (m.next span) }
  let after ← m.next span
  let m := { m with prev := Function.update m.prev after (m.prev span) }
  let m := { m with prev := Function.update m.prev span none }
  some { m with next := Function.update m.next span none }

/-- `DLL_IsEmpty`. -/
def dllIsEmpty (m : Memory) (list : Addr) : Bool := m.next list == some list

/-- `DLL_Prepend`. -/
def dllPrepend (m : Memory) (list span : Addr) : Option Memory := do
  guard (m.next span = none)
  guard (m.prev span = none)
  let m := { m with next := Function.update m.next span (m.next list) }
  let m := { m with prev := Function.update m.prev span (some list) }
  let first ← m.next list
  let m := { m with prev := Function.update m.prev first (some span) }
  some { m with next := Function.update m.next list (some span) }

/-- The loop of `DLL_Length` from the span `s` on, for so many turns at most. -/
def dllLengthFrom (m : Memory) (list : Addr) : (fuel : Nat) → Option Addr → (result : Nat) →
    Option Nat
  | 0, _, _ => none
  | _ + 1, none, _ => none
  | fuel + 1, some s, result =>
    if s = list then some result else dllLengthFrom m list fuel (m.next s) (result + 1)

/-- `DLL_Length`. -/
def dllLength (m : Memory) (list : Addr) (fuel : Nat) : Option Nat :=
  dllLengthFrom m list fuel (m.next list) 0

/-! ## The lists in the abstract -/

variable {κ : Type} [DecidableEq κ]

/-- What a client does to its lists. -/
inductive ListOp (κ : Type) where
  | remove (span : Addr)
  | prepend (list : κ) (span : Addr)

/-- The lists after an operation: a span is removed from the list it is in, and is put
only at the front of a list when it is in none. -/
def removeSpan (lists : κ → List Addr) (span : Addr) : κ → List Addr :=
  fun k => (lists k).erase span

/-- `span` at the front of list `k`. -/
def prependSpan (lists : κ → List Addr) (k : κ) (span : Addr) : κ → List Addr :=
  Function.update lists k (span :: lists k)

variable (head : κ → Addr)

/-- When the client may do an operation. -/
def Allowed (lists : κ → List Addr) : ListOp κ → Prop
  | .remove span => ∃ k, span ∈ lists k
  | .prepend _ span => ∀ k', span ∉ head k' :: lists k'

/-- The lists after an operation. -/
def listStep (lists : κ → List Addr) : ListOp κ → κ → List Addr
  | .remove span => removeSpan lists span
  | .prepend k span => prependSpan lists k span

/-- The memory after an operation. -/
def memoryStep (m : Memory) : ListOp κ → Option Memory
  | .remove span => dllRemove m span
  | .prepend k span => dllPrepend m (head k) span

/-- The memory holds the lists, and the links of every other span are null. -/
structure Represents (m : Memory) (lists : κ → List Addr) : Prop where
  rings : RingSet m head lists
  null : ∀ x, (∀ k, x ∉ head k :: lists k) → m.next x = none ∧ m.prev x = none

variable {head} {m : Memory} {lists : κ → List Addr}

/-- A span is in one list and there once. -/
theorem Represents.remove_lists (R : Represents head m lists) {k : κ} {pre post : List Addr}
    {span : Addr} (hk : lists k = pre ++ span :: post) :
    removeSpan lists span = Function.update lists k (pre ++ post) := by
  funext k'
  by_cases hkk : k' = k
  · subst hkk
    have hnd := R.rings.nodup k'
    rw [hk] at hnd
    have hpre : span ∉ pre := by
      intro hmem
      exact (List.nodup_append.1 (List.nodup_cons.1 hnd).2).2.2 _ hmem span (by simp) rfl
    rw [Function.update_self, removeSpan, hk, List.erase_append_right _ hpre,
      List.erase_cons_head]
  · have hspan : span ∉ lists k' := by
      intro hmem
      exact hkk (R.rings.apart (List.mem_cons_of_mem _ hmem) (by simp [hk]))
    rw [Function.update_of_ne hkk, removeSpan, List.erase_of_not_mem hspan]

/-! ## One operation -/

theorem dllRemove_eq {span p n : Addr} (hp : m.prev span = some p) (hn : m.next span = some n)
    (hne : p ≠ span) : dllRemove m span = some (Rings.unlink m span p n) := by
  have hnext : Function.update m.next p (m.next span) span = some n := by
    rw [Function.update_of_ne hne.symm, hn]
  simp only [dllRemove, hp, hn, Option.bind_eq_bind, Option.bind_some,
    Function.update_of_ne hne.symm, Rings.unlink]

theorem dllPrepend_eq {list span n : Addr} (hnext : m.next span = none)
    (hprev : m.prev span = none) (hn : m.next list = some n) (hne : list ≠ span) :
    dllPrepend m list span = some (Rings.link m span list n) := by
  simp only [dllPrepend, hnext, hprev, guard, if_true, Option.bind_eq_bind, Option.pure_def,
    Option.bind_some, Function.update_of_ne hne, hn, Rings.link]

theorem Represents.remove (R : Represents head m lists) {span : Addr}
    (h : ∃ k, span ∈ lists k) :
    ∃ m', dllRemove m span = some m' ∧ Represents head m' (removeSpan lists span) := by
  obtain ⟨k, hspan⟩ := h
  obtain ⟨pre, post, hk⟩ := List.append_of_mem hspan
  obtain ⟨p, n, hp, hn, hne, hrings⟩ := R.rings.unlink hk
  refine ⟨_, dllRemove_eq hp hn hne, ?_⟩
  rw [R.remove_lists hk]
  refine ⟨hrings, ?_⟩
  intro x hx
  by_cases hxs : x = span
  · subst hxs
    simp only [Rings.unlink, Function.update_self, and_self]
  · -- a span outside all lists was outside them before, so none of its links was written
    have hold : ∀ k', x ∉ head k' :: lists k' := by
      intro k' hmem
      apply hx k'
      by_cases hkk : k' = k
      · subst hkk
        rw [hk] at hmem
        rw [Function.update_self]
        simp only [List.mem_cons, List.mem_append] at hmem ⊢
        tauto
      · rwa [Function.update_of_ne hkk]
    have hnull := R.null x hold
    have hring := R.rings.ring k
    rw [hk] at hring
    have haround := hring.around
    rw [hp, hn] at haround
    have hxp : x ≠ p := by
      rintro rfl
      have hmem : x ∈ head k :: pre := by
        rw [Option.some.inj haround.1]
        exact List.getLast_mem _
      apply hold k
      rw [hk]
      simp only [List.mem_cons, List.mem_append] at hmem ⊢
      tauto
    have hxn : x ≠ n := by
      rintro rfl
      have hmem : x ∈ post ++ [head k] := by
        rw [Option.some.inj haround.2]
        exact List.head_mem _
      apply hold k
      rw [hk]
      simp only [List.mem_cons, List.mem_append, List.not_mem_nil, or_false] at hmem ⊢
      tauto
    simp only [Rings.unlink, Function.update_of_ne hxs, Function.update_of_ne hxp,
      Function.update_of_ne hxn, hnull, and_self]

theorem Represents.prepend (R : Represents head m lists) {k : κ} {span : Addr}
    (h : ∀ k', span ∉ head k' :: lists k') :
    ∃ m', dllPrepend m (head k) span = some m' ∧
      Represents head m' (prependSpan lists k span) := by
  have hnull := R.null span h
  obtain ⟨n, hn, hne, hrings⟩ := R.rings.link h (k := k)
  have hhead : head k ≠ span := fun hhs => h k (by simp [hhs])
  refine ⟨_, dllPrepend_eq hnull.1 hnull.2 hn hhead, hrings, ?_⟩
  intro x hx
  have hxs : x ≠ span := by
    rintro rfl
    apply hx k
    rw [prependSpan, Function.update_self]
    simp
  have hold : ∀ k', x ∉ head k' :: lists k' := by
    intro k' hmem
    apply hx k'
    by_cases hkk : k' = k
    · subst hkk
      rw [prependSpan, Function.update_self]
      simp only [List.mem_cons] at hmem ⊢
      tauto
    · rwa [prependSpan, Function.update_of_ne hkk]
  have hnx := R.null x hold
  have hxk : x ≠ head k := fun hxk => hold k (by simp [hxk])
  have hxn : x ≠ n := by
    rintro rfl
    have hnext := (R.rings.ring k).next_head
    rw [hn] at hnext
    apply hold k
    cases hlist : lists k with
    | nil =>
        rw [hlist] at hnext
        simp [Option.some.inj hnext]
    | cons y ys =>
        rw [hlist] at hnext
        simp [Option.some.inj hnext]
  simp only [Rings.link, Function.update_of_ne hxs, Function.update_of_ne hxk,
    Function.update_of_ne hxn, hnx, and_self]

/-! ## What is read off the memory -/

omit [DecidableEq κ] in
theorem Represents.isEmpty (R : Represents head m lists) (k : κ) :
    dllIsEmpty m (head k) = (lists k).isEmpty := by
  have hnext := (R.rings.ring k).next_head
  have hnd := R.rings.nodup k
  cases hk : lists k with
  | nil =>
      rw [hk] at hnext
      simpa [dllIsEmpty] using hnext
  | cons x xs =>
      rw [hk] at hnext hnd
      have hne : x ≠ head k := fun h => (List.nodup_cons.1 hnd).1 (by simp [h])
      simpa [dllIsEmpty, hnext] using hne

omit [DecidableEq κ] in
/-- `list->next` is the first span of the list. -/
theorem Represents.first (R : Represents head m lists) (k : κ) :
    m.next (head k) = some ((lists k).head?.getD (head k)) :=
  (R.rings.ring k).next_head

omit [DecidableEq κ] in
/-- `list->prev` is the last one. -/
theorem Represents.last (R : Represents head m lists) (k : κ) :
    m.prev (head k) = some ((lists k).getLast?.getD (head k)) := by
  have hring := R.rings.ring k
  unfold IsRing at hring
  rw [← List.cons_append] at hring
  rcases List.eq_nil_or_concat (lists k) with hk | ⟨xs, x, hk⟩
  · rw [hk] at hring ⊢
    exact (List.isChain_cons_cons.1 hring).1.2
  · rw [hk] at hring ⊢
    rw [List.concat_eq_append, ← List.cons_append, List.append_assoc, List.singleton_append,
      List.isChain_append_cons_cons] at hring
    rw [List.concat_eq_append, List.getLast?_concat, Option.getD_some]
    exact hring.2.1.2

/-- The loop of `DLL_Length` over the rest of a ring. -/
theorem dllLengthFrom_chain {hd : Addr} : ∀ (xs : List Addr) (s : Option Addr) (result : Nat),
    hd ∉ xs → (s = (xs ++ [hd]).head?) → (xs ++ [hd]).IsChain (Linked m) →
      dllLengthFrom m hd (xs.length + 1) s result = some (result + xs.length) := by
  intro xs
  induction xs with
  | nil =>
      intro s result _ hs _
      subst hs
      simp [dllLengthFrom]
  | cons x xs ih =>
      intro s result hnot hs hchain
      subst hs
      have hxh : x ≠ hd := fun h => hnot (by simp [h])
      have hnext : m.next x = (xs ++ [hd]).head? ∧ (xs ++ [hd]).IsChain (Linked m) := by
        cases xs with
        | nil => exact ⟨(List.isChain_cons_cons.1 hchain).1.1, List.isChain_singleton _⟩
        | cons y ys =>
            have hcons := List.isChain_cons_cons.1 hchain
            exact ⟨hcons.1.1, hcons.2⟩
      rw [List.cons_append, List.head?_cons, List.length_cons, dllLengthFrom, if_neg hxh,
        ih _ (result + 1) (fun h => hnot (List.mem_cons_of_mem _ h)) hnext.1 hnext.2]
      congr 1
      omega

omit [DecidableEq κ] in
theorem Represents.length (R : Represents head m lists) (k : κ) :
    dllLength m (head k) ((lists k).length + 1) = some (lists k).length := by
  have hring := R.rings.ring k
  have hnd := R.rings.nodup k
  have hfirst : m.next (head k) = (lists k ++ [head k]).head? := by
    rw [R.first k]
    cases lists k <;> rfl
  have hchain : (lists k ++ [head k]).IsChain (Linked m) := by
    unfold IsRing at hring
    cases hk : lists k with
    | nil => exact List.isChain_singleton _
    | cons x xs =>
        rw [hk] at hring
        exact (List.isChain_cons_cons.1 hring).2
  rw [dllLength, dllLengthFrom_chain (lists k) _ 0 (List.nodup_cons.1 hnd).1 hfirst hchain,
    Nat.zero_add]

/-! ## From the initialised headers on -/

/-- All links null, then `DLL_Init` on each header. -/
def initAll (head : κ → Addr) (ks : List κ) : Memory :=
  ks.foldl (fun m k => dllInit m (head k)) ⟨fun _ => none, fun _ => none⟩

omit [DecidableEq κ] in
theorem initAll_links (head : κ → Addr) (ks : List κ) (x : Addr) :
    ((∃ k ∈ ks, head k = x) → (initAll head ks).next x = some x ∧
      (initAll head ks).prev x = some x) ∧
    ((∀ k ∈ ks, head k ≠ x) → (initAll head ks).next x = none ∧
      (initAll head ks).prev x = none) := by
  induction ks using List.reverseRecOn with
  | nil => simp [initAll]
  | append_singleton ks k ih =>
      have hstep : initAll head (ks ++ [k]) = dllInit (initAll head ks) (head k) := by
        simp only [initAll, List.foldl_append, List.foldl_cons, List.foldl_nil]
      rw [hstep]
      by_cases hkx : x = head k
      · subst hkx
        simp [dllInit]
      · have hne : head k ≠ x := fun h => hkx h.symm
        simp only [dllInit, Function.update_of_ne hkx, List.mem_append, List.mem_singleton]
        constructor
        · rintro ⟨k', hk' | rfl, hx⟩
          · exact ih.1 ⟨k', hk', hx⟩
          · exact absurd hx hne
        · intro hall
          exact ih.2 fun k' hk' => hall k' (Or.inl hk')

omit [DecidableEq κ] in
/-- Initialised headers are empty lists. -/
theorem initAll_represents (hinj : Function.Injective head) {ks : List κ} (hks : ∀ k, k ∈ ks) :
    Represents head (initAll head ks) (fun _ => []) := by
  refine ⟨⟨?_, ?_, ?_⟩, ?_⟩
  · intro k
    have hlinks := (initAll_links head ks (head k)).1 ⟨k, hks k, rfl⟩
    exact List.isChain_cons_cons.2 ⟨hlinks, List.isChain_singleton _⟩
  · intro k
    simp
  · intro k k' x hx hx'
    simp only [List.mem_singleton] at hx hx'
    exact hinj (hx.symm.trans hx')
  · intro x hx
    apply (initAll_links head ks x).2
    intro k _ hkx
    exact hx k (by simp [hkx])

/-- Each operation of a list is allowed when its turn comes. -/
def AllowedRun (head : κ → Addr) : (κ → List Addr) → List (ListOp κ) → Prop
  | _, [] => True
  | lists, op :: ops => Allowed head lists op ∧ AllowedRun head (listStep lists op) ops

theorem Represents.run (ops : List (ListOp κ)) : ∀ (m : Memory) (lists : κ → List Addr),
    Represents head m lists → AllowedRun head lists ops →
      ∃ m', Runs.run (memoryStep head) m ops = some m' ∧
        Represents head m' (ops.foldl listStep lists) := by
  induction ops with
  | nil => exact fun m lists R _ => ⟨m, rfl, R⟩
  | cons op ops ih =>
      intro m lists R hops
      have hstep : ∃ m', memoryStep head m op = some m' ∧
          Represents head m' (listStep lists op) := by
        cases op with
        | remove span => exact R.remove hops.1
        | prepend k span => exact R.prepend hops.1
      obtain ⟨m₁, hm₁, R₁⟩ := hstep
      obtain ⟨m', hm', R'⟩ := ih m₁ _ R₁ hops.2
      refine ⟨m', ?_, R'⟩
      rw [Runs.run, hm₁]
      exact hm'

/-- From freshly initialised headers, whatever spans are put in front of a list and taken
out of the list they are in: no operation writes through a null pointer or fails an
assertion, and what the code reads off the headers and counts is what the lists say. -/
theorem run_represents (hinj : Function.Injective head) {ks : List κ} (hks : ∀ k, k ∈ ks)
    (ops : List (ListOp κ)) (hops : AllowedRun head (fun _ => []) ops) :
    ∃ m, Runs.run (memoryStep head) (initAll head ks) ops = some m ∧
      ∀ k, dllIsEmpty m (head k) = (ops.foldl listStep (fun _ => []) k).isEmpty ∧
        m.next (head k) = some ((ops.foldl listStep (fun _ => []) k).head?.getD (head k)) ∧
        m.prev (head k) = some ((ops.foldl listStep (fun _ => []) k).getLast?.getD (head k)) ∧
        dllLength m (head k) ((ops.foldl listStep (fun _ => []) k).length + 1) =
          some (ops.foldl listStep (fun _ => []) k).length := by
  obtain ⟨m, hm, R⟩ := Represents.run ops _ _ (initAll_represents hinj hks) hops
  exact ⟨m, hm, fun k => ⟨R.isEmpty k, R.first k, R.last k, R.length k⟩⟩

/-- Two lists with headers 0 and 1: span 10 goes from the first to the second. -/
theorem run_represents_move :
    ∃ m, Runs.run (memoryStep fun k : Fin 2 => k.val) (initAll (fun k : Fin 2 => k.val) [0, 1])
        [.prepend 0 10, .prepend 0 11, .remove 10, .prepend 1 10] = some m ∧
      m.next 0 = some 11 ∧ m.next 1 = some 10 := by
  have hallowed : AllowedRun (fun k : Fin 2 => k.val) (fun _ => [])
      [.prepend 0 10, .prepend 0 11, .remove 10, .prepend 1 10] := by
    simp only [AllowedRun, Allowed]
    decide
  have hall : ∀ k : Fin 2, k ∈ [0, 1] := by decide
  have h := run_represents (fun _ _ hab => Fin.ext hab) hall _ hallowed
  obtain ⟨m, hm, hread⟩ := h
  exact ⟨m, hm, (hread 0).2.1, (hread 1).2.1⟩

end SatAllocatorTest.Ports.TCmalloc.SpanList
