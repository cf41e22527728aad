import Mathlib.Data.List.Nodup
import Mathlib.Data.List.TakeDrop
import SatAllocatorTest.Ports.ProfileView

/-!
# Links that go while they are told

`ProfileViewLink` of `ProfileView.tsx`, and the loop of `ProfileView.set` that tells the
links of a view of a change.  An `update` may unmap links, and `unmap` removes them from the
array the loop runs over, while the loop counts its positions.

A link whose turn has passed is in front of the position of the loop; without it those
behind it move up, and the one next in turn comes to stand in front of the position,
untold.

Main result: `set_tells_iff`.
-/

namespace SatAllocatorTest.Ports.Monitor

open SatAllocatorTest.Verified.Runs

namespace ProfileViewLink

variable {L : Type} [DecidableEq L]

/-! ## Links -/

/-- A view, and of each link whether it has it for its `view`. -/
structure Linking (L : Type) where
  view : ProfileView L
  linked : L → Bool

namespace Linking

/-- A view without links. -/
def new (view : ProfileView L) : Linking L := ⟨{ view with clients := [] }, fun _ => false⟩

/-- `this.view.unmap(this)`, and `this.view = null`. -/
def leave (s : Linking L) (link : L) : Linking L :=
  ⟨(s.view.exec (.unmap link)).1, Function.update s.linked link false⟩

/-- `link.unmap()`; none if it throws. -/
def unmap (s : Linking L) (link : L) : Option (Linking L) :=
  if s.linked link then some (s.leave link) else none

/-- `link.map(view)`. -/
def map (s : Linking L) (link : L) : Linking L :=
  let s := if s.linked link then s.leave link else s
  ⟨(s.view.exec (.map link)).1, Function.update s.linked link true⟩

/-- A call of a method of a link. -/
inductive Event (L : Type)
  | map (link : L)
  | unmap (link : L)

def step (s : Linking L) : Event L → Option (Linking L)
  | .map link => some (s.map link)
  | .unmap link => s.unmap link

end Linking

/-! ## The loop of set -/

/-- A view within `set`: the position of the loop, and the links that have been told. -/
structure Notifying (L : Type) where
  links : Linking L
  next : ℕ
  told : List L

namespace Notifying

/-- The links that are mapped. -/
def clients (s : Notifying L) : List L := s.links.view.clients

/-- What happens within `set`: the loop tells the link at its position, or a callback unmaps
a link. -/
inductive Event (L : Type)
  | update
  | unmap (link : L)

def step (s : Notifying L) : Event L → Option (Notifying L)
  | .update =>
    s.clients[s.next]?.map fun link => { s with next := s.next + 1, told := s.told ++ [link] }
  | .unmap link => (s.links.unmap link).map fun links => { s with links := links }

/-- The loop has come to the end of the array. -/
def Done (s : Notifying L) : Prop := s.clients.length ≤ s.next

/-- The link that is passed over where a link is unmapped. -/
def passedOver (s : Notifying L) (link : L) : Option L :=
  if link ∈ s.clients.take s.next then s.clients[s.next]? else none

/-- Whenever a callback unmaps a link whose turn has passed, the link next in turn is unmapped
later on as well. -/
def NoneLost : Notifying L → List (Event L) → Prop
  | _, [] => True
  | s, .update :: rest => ∀ s', s.step .update = some s' → NoneLost s' rest
  | s, .unmap link :: rest =>
    (∀ lost, s.passedOver link = some lost → .unmap lost ∈ rest) ∧
      ∀ s', s.step (.unmap link) = some s' → NoneLost s' rest

end Notifying

/-- `set(start, end)`, up to its loop. -/
def Linking.set (s : Linking L) (start end_ : ℚ) : Notifying L :=
  ⟨{ s with view := s.view.assign start end_ }, 0, []⟩

/-! ## Removal in front of a position and behind it -/

/-- Without an element in front of the position, the next one comes to stand there. -/
theorem erase_of_mem_take {cs : List L} {n : ℕ} {link : L} (h : link ∈ cs.take n) :
    (cs.erase link).take n = (cs.take n).erase link ++ cs[n]?.toList ∧
      (cs.erase link).drop n = cs.drop (n + 1) := by
  have hsplit : cs.erase link = (cs.take n).erase link ++ cs.drop n := by
    rw [← List.erase_append_left _ h, List.take_append_drop]
  have hlen : ((cs.take n).erase link).length = min n cs.length - 1 := by
    rw [List.length_erase_of_mem h, List.length_take]
  have hpos : 0 < min n cs.length := by
    rw [← List.length_take]
    exact List.length_pos_of_mem h
  have hnext : cs[n]?.toList = (cs.drop n).take 1 := by
    rw [List.take_one, List.head?_drop]
  have hle : ((cs.take n).erase link).length ≤ n := by omega
  rw [hsplit, List.take_append, List.drop_append, List.take_of_length_le hle,
    List.drop_of_length_le hle, hnext, List.nil_append, List.drop_drop]
  rcases Nat.lt_or_ge n cs.length with hlt | hge
  · have hone : n - ((cs.take n).erase link).length = 1 := by omega
    rw [hone]
    exact ⟨rfl, rfl⟩
  · rw [List.drop_of_length_le hge, List.take_nil, List.take_nil,
      List.drop_of_length_le (by omega), List.drop_of_length_le (by omega)]
    exact ⟨rfl, rfl⟩

theorem erase_of_not_mem_take {cs : List L} {n : ℕ} {link : L} (h : link ∉ cs.take n) :
    (cs.erase link).take n = cs.take n ∧ (cs.erase link).drop n = (cs.drop n).erase link := by
  have hsplit : cs.erase link = cs.take n ++ (cs.drop n).erase link := by
    rw [← List.erase_append_right _ h, List.take_append_drop]
  rcases Nat.lt_or_ge n cs.length with hlt | hge
  · have hlen : (cs.take n).length = n := by
      rw [List.length_take]
      omega
    rw [hsplit]
    exact ⟨List.take_left' hlen, List.drop_left' hlen⟩
  · have hempty : (cs.drop n).erase link = [] := by
      rw [List.drop_of_length_le hge]
      rfl
    rw [hsplit, hempty, List.append_nil, List.take_take, Nat.min_self, List.drop_take,
      Nat.sub_self, List.take_zero]
    exact ⟨rfl, rfl⟩

/-! ## The links of a view -/

/-- No link is mapped twice, and a link that is mapped knows its view. -/
structure Linking.Valid (s : Linking L) : Prop where
  nodup : s.view.clients.Nodup
  linked : ∀ link ∈ s.view.clients, s.linked link = true

omit [DecidableEq L] in
theorem Linking.new_valid (view : ProfileView L) : (Linking.new view).Valid :=
  ⟨List.nodup_nil, fun _ h => absurd h List.not_mem_nil⟩

theorem Linking.Valid.leave {s : Linking L} (h : s.Valid) (link : L) :
    (s.leave link).Valid ∧ link ∉ (s.leave link).view.clients := by
  have hclients : (s.leave link).view.clients = s.view.clients.erase link := rfl
  rw [hclients]
  refine ⟨⟨hclients ▸ h.nodup.erase link, fun other hother => ?_⟩, h.nodup.not_mem_erase⟩
  rw [hclients, h.nodup.mem_erase_iff] at hother
  exact (Function.update_of_ne hother.1 _ _).trans (h.linked other hother.2)

theorem Linking.step_valid {s s' : Linking L} {e : Linking.Event L} (h : s.Valid)
    (hstep : s.step e = some s') : s'.Valid := by
  cases e with
  | unmap link =>
      rw [Linking.step, Linking.unmap] at hstep
      split at hstep
      · cases hstep
        exact (h.leave link).1
      · cases hstep
  | map link =>
      cases hstep
      -- the link is not among those it is put behind
      have hfree : ∃ s₀ : Linking L, s₀.Valid ∧ link ∉ s₀.view.clients ∧
          s.map link = ⟨(s₀.view.exec (.map link)).1, Function.update s₀.linked link true⟩ := by
        by_cases hlinked : s.linked link = true
        · refine ⟨s.leave link, (h.leave link).1, (h.leave link).2, ?_⟩
          rw [Linking.map, if_pos hlinked]
        · refine ⟨s, h, fun hmem => hlinked (h.linked link hmem), ?_⟩
          rw [Linking.map, if_neg hlinked]
      obtain ⟨s₀, hs₀, hnot, heq⟩ := hfree
      rw [heq]
      constructor
      · exact List.nodup_append.2 ⟨hs₀.nodup, List.nodup_singleton link, fun a ha b hb hab =>
          hnot (List.mem_singleton.1 hb ▸ hab ▸ ha)⟩
      · intro other hother
        by_cases hsame : other = link
        · rw [hsame]
          exact Function.update_self _ _ _
        · rcases List.mem_append.1 hother with hother | hother
          · exact (Function.update_of_ne hsame _ _).trans (hs₀.linked other hother)
          · exact absurd (List.mem_singleton.1 hother) hsame

/-! ## The loop -/

namespace Notifying

/-- Within the loop: no link is mapped twice or told twice, and none has been told before its
turn. -/
structure Valid (s : Notifying L) : Prop where
  nodup : s.clients.Nodup
  told_nodup : s.told.Nodup
  waiting : ∀ link ∈ s.clients.drop s.next, link ∉ s.told

/-- What a step of the loop can be. -/
theorem step_cases {s s' : Notifying L} {e : Event L} (h : s.step e = some s') :
    (∃ link, e = .update ∧ s.clients[s.next]? = some link ∧ s'.clients = s.clients ∧
      s'.next = s.next + 1 ∧ s'.told = s.told ++ [link]) ∨
    (∃ link, e = .unmap link ∧ s'.clients = s.clients.erase link ∧ s'.next = s.next ∧
      s'.told = s.told) := by
  cases e with
  | update =>
      obtain ⟨link, hlink, rfl⟩ := Option.map_eq_some_iff.1 h
      exact .inl ⟨link, rfl, hlink, rfl, rfl, rfl⟩
  | unmap link =>
      obtain ⟨links, hlinks, rfl⟩ := Option.map_eq_some_iff.1 h
      rw [Linking.unmap] at hlinks
      split at hlinks
      · cases hlinks
        exact .inr ⟨link, rfl, rfl, rfl, rfl⟩
      · cases hlinks

omit [DecidableEq L] in
theorem mem_drop_of_next {cs : List L} {n : ℕ} {link : L} (h : cs[n]? = some link) :
    link ∈ cs.drop n := by
  obtain ⟨hn, rfl⟩ := List.getElem?_eq_some_iff.1 h
  rw [List.drop_eq_getElem_cons hn]
  exact List.mem_cons_self ..

theorem step_valid {s s' : Notifying L} {e : Event L} (h : s.Valid)
    (hstep : s.step e = some s') : s'.Valid := by
  rcases step_cases hstep with ⟨link, -, hlink, hclients, hnext, htold⟩ |
    ⟨link, -, hclients, hnext, htold⟩
  · have hfresh := h.waiting link (mem_drop_of_next hlink)
    obtain ⟨hn, hget⟩ := List.getElem?_eq_some_iff.1 hlink
    have hdrop := List.drop_eq_getElem_cons hn
    rw [hget] at hdrop
    have hnodup : (link :: s.clients.drop (s.next + 1)).Nodup :=
      hdrop ▸ h.nodup.sublist (List.drop_sublist _ _)
    constructor
    · rw [hclients]
      exact h.nodup
    · rw [htold]
      exact List.nodup_append.2 ⟨h.told_nodup, List.nodup_singleton link, fun a ha b hb hab =>
        hfresh (List.mem_singleton.1 hb ▸ hab ▸ ha)⟩
    · rw [hclients, hnext, htold]
      intro other hother hmem
      rcases List.mem_append.1 hmem with hmem | hmem
      · exact h.waiting other (hdrop ▸ List.mem_cons_of_mem _ hother) hmem
      · exact (List.nodup_cons.1 hnodup).1 (List.mem_singleton.1 hmem ▸ hother)
  · constructor
    · rw [hclients]
      exact h.nodup.erase link
    · rw [htold]
      exact h.told_nodup
    · rw [hclients, hnext, htold]
      intro other hother
      by_cases hpassed : link ∈ s.clients.take s.next
      · rw [(erase_of_mem_take hpassed).2] at hother
        refine h.waiting other ?_
        rw [← List.drop_drop] at hother
        exact List.mem_of_mem_drop hother
      · rw [(erase_of_not_mem_take hpassed).2] at hother
        exact h.waiting other (List.mem_of_mem_erase hother)

/-- Every link in front of the position has been told, or will be unmapped. -/
def Covered (s : Notifying L) (rest : List (Event L)) : Prop :=
  ∀ link ∈ s.clients.take s.next, link ∉ s.told → .unmap link ∈ rest

/-- When the loop tells a link, it passes over none. -/
theorem covered_update {s s' : Notifying L} (hs : s.Valid) {rest : List (Event L)}
    (hstep : s.step .update = some s') : Covered s (.update :: rest) ↔ Covered s' rest := by
  rcases step_cases hstep with ⟨link, -, hlink, hclients, hnext, htold⟩ | ⟨link, heq, -⟩
  · have htake : s'.clients.take s'.next = s.clients.take s.next ++ [link] := by
      rw [hclients, hnext, List.take_add_one, hlink]
      rfl
    have hdisjoint : link ∉ s.clients.take s.next := fun hmem =>
      List.disjoint_take_drop hs.nodup (Nat.le_refl _) hmem (mem_drop_of_next hlink)
    unfold Covered
    rw [htake, htold]
    constructor
    · intro h other hother hnot
      rw [List.mem_append, not_or] at hnot
      have hfront := (List.mem_append.1 hother).resolve_right hnot.2
      have hmem := h other hfront hnot.1
      rw [List.mem_cons] at hmem
      exact hmem.resolve_left fun heq => nomatch heq
    · intro h other hother hnot
      refine List.mem_cons_of_mem _ (h other (List.mem_append_left _ hother) ?_)
      rw [List.mem_append, not_or, List.mem_singleton]
      exact ⟨hnot, fun heq => hdisjoint (heq ▸ hother)⟩
  · cases heq

/-- When a link is unmapped, the one that is passed over joins those that are not told. -/
theorem covered_unmap {s s' : Notifying L} (hs : s.Valid) {link : L} {rest : List (Event L)}
    (hstep : s.step (.unmap link) = some s') :
    Covered s (.unmap link :: rest) ∧
        (∀ lost, s.passedOver link = some lost → .unmap lost ∈ rest) ↔
      Covered s' rest := by
  rcases step_cases hstep with ⟨link', heq, -⟩ | ⟨link', heq, hclients, hnext, htold⟩
  · cases heq
  cases heq
  have hother : ∀ {other : L}, other ≠ link →
      (Event.unmap other ∈ Event.unmap link :: rest ↔ Event.unmap other ∈ rest) := by
    intro other hne
    rw [List.mem_cons, Event.unmap.injEq]
    exact ⟨fun h => h.resolve_left hne, .inr⟩
  unfold Covered passedOver
  rw [hclients, hnext, htold]
  by_cases hpassed : link ∈ s.clients.take s.next
  · have hnodup : (s.clients.take s.next).Nodup := hs.nodup.sublist (List.take_sublist _ _)
    rw [(erase_of_mem_take hpassed).1, if_pos hpassed]
    constructor
    · rintro ⟨hcovered, hlost⟩ other hmem hnot
      rcases List.mem_append.1 hmem with hmem | hmem
      · have hne := (hnodup.mem_erase_iff.1 hmem).1
        exact (hother hne).1 (hcovered other (List.mem_of_mem_erase hmem) hnot)
      · exact hlost other (Option.mem_toList.1 hmem)
    · intro hcovered
      refine ⟨fun other hmem hnot => ?_, fun lost hlost => ?_⟩
      · by_cases hne : other = link
        · exact hne ▸ List.mem_cons_self ..
        · exact (hother hne).2 (hcovered other
            (List.mem_append_left _ (hnodup.mem_erase_iff.2 ⟨hne, hmem⟩)) hnot)
      · exact hcovered lost (List.mem_append_right _ (Option.mem_toList.2 hlost))
          (hs.waiting lost (mem_drop_of_next hlost))
  · rw [(erase_of_not_mem_take hpassed).1, if_neg hpassed]
    constructor
    · rintro ⟨hcovered, -⟩ other hmem hnot
      have hne : other ≠ link := fun heq => hpassed (heq ▸ hmem)
      exact (hother hne).1 (hcovered other hmem hnot)
    · intro hcovered
      refine ⟨fun other hmem hnot => List.mem_cons_of_mem _ (hcovered other hmem hnot), ?_⟩
      exact fun lost hlost => nomatch hlost

/-- The loop from some position on. -/
theorem run_tells_iff : ∀ (events : List (Event L)) (s s' : Notifying L), s.Valid →
    run step s events = some s' → s'.Done →
    ((∀ link ∈ s'.clients, link ∈ s'.told) ↔ Covered s events ∧ s.NoneLost events) := by
  intro events
  induction events with
  | nil =>
      intro s s' _ hrun hdone
      cases hrun
      unfold Covered
      rw [List.take_of_length_le hdone]
      constructor
      · exact fun h => ⟨fun link hlink hnot => absurd (h link hlink) hnot, trivial⟩
      · intro h link hlink
        by_contra hnot
        exact absurd (h.1 link hlink hnot) List.not_mem_nil
  | cons e events ih =>
      intro s s' hs hrun hdone
      obtain ⟨s₁, hstep, hrest⟩ := run_cons_inv hrun
      have hind := ih s₁ s' (step_valid hs hstep) hrest hdone
      rw [hind]
      cases e with
      | update => rw [NoneLost, forall_step_iff hstep, covered_update hs hstep]
      | unmap link =>
          rw [NoneLost, forall_step_iff hstep, ← and_assoc, covered_unmap hs hstep]

/-- The loop maps no links. -/
theorem step_subset {s s' : Notifying L} {e : Event L} (hstep : s.step e = some s') :
    s'.clients ⊆ s.clients := by
  rcases step_cases hstep with ⟨link, -, -, hclients, -⟩ | ⟨link, -, hclients, -⟩
  · rw [hclients]
    exact List.Subset.refl _
  · rw [hclients]
    exact List.erase_subset

end Notifying

omit [DecidableEq L] in
theorem Linking.Valid.set {s : Linking L} (h : s.Valid) (start end_ : ℚ) :
    (s.set start end_).Valid :=
  ⟨h.nodup, List.nodup_nil, fun _ _ hmem => absurd hmem List.not_mem_nil⟩

/-! ## The main result -/

/-- After any calls of `map` and `unmap`, one call of `set` tells every link exactly once
that is mapped when it begins and when it returns, if and only if no link is passed over
that stays. -/
theorem set_tells_iff (view : ProfileView L) (before : List (Linking.Event L)) (s : Linking L)
    (hbefore : run Linking.step (Linking.new view) before = some s) (start end_ : ℚ)
    (during : List (Notifying.Event L)) (s' : Notifying L)
    (hduring : run Notifying.step (s.set start end_) during = some s') (hdone : s'.Done) :
    (∀ link, link ∈ s.view.clients → link ∈ s'.clients → s'.told.count link = 1) ↔
      (s.set start end_).NoneLost during := by
  have hs : s.Valid := run_invariant (fun _ _ _ => Linking.step_valid) before _ _
    (Linking.new_valid view) hbefore
  have hset := hs.set start end_
  have hend : s'.Valid := run_invariant (fun _ _ _ => Notifying.step_valid) during _ _ hset hduring
  have hsubset : s'.clients ⊆ s.view.clients :=
    run_invariant (I := fun t => t.clients ⊆ s.view.clients)
      (fun _ _ _ ht hstep => List.Subset.trans (Notifying.step_subset hstep) ht) during _ _
      (List.Subset.refl _) hduring
  have hcovered : Notifying.Covered (s.set start end_) during := fun link hlink =>
    absurd hlink List.not_mem_nil
  have htells := Notifying.run_tells_iff during _ _ hset hduring hdone
  rw [and_iff_right hcovered] at htells
  rw [← htells]
  constructor
  · intro h link hlink
    have hcount := h link (hsubset hlink) hlink
    exact List.count_pos_iff.1 (hcount ▸ Nat.one_pos)
  · exact fun h link _ hlink => List.count_eq_one_of_mem hend.told_nodup (h link hlink)

/-- Two links, in this order. -/
def twoLinks (first second : Bool) : Linking Bool :=
  ((Linking.new (ProfileView.new 0 1)).map first).map second

/-- The last link unmaps itself. -/
theorem set_tells_last : ∃ s', run Notifying.step ((twoLinks false true).set 0 1)
      [.update, .update, .unmap true] = some s' ∧
    ∀ link, link ∈ (twoLinks false true).view.clients → link ∈ s'.clients →
      s'.told.count link = 1 := by
  refine ⟨_, rfl, (set_tells_iff (ProfileView.new 0 1) [.map false, .map true]
    (twoLinks false true) rfl 0 1 [.update, .update, .unmap true] _ rfl (Nat.le_succ 1)).2 ?_⟩
  intro s₁ h₁
  cases h₁
  intro s₂ h₂
  cases h₂
  exact ⟨fun _ hlost => absurd hlost (Option.some_ne_none _).symm, fun _ _ => trivial⟩

/-- The first link unmaps itself, and the second is not told. -/
theorem set_tells_not : ¬∀ (view : ProfileView Bool) (before : List (Linking.Event Bool))
    (s : Linking Bool), run Linking.step (Linking.new view) before = some s →
    ∀ (start end_ : ℚ) (during : List (Notifying.Event Bool)) (s' : Notifying Bool),
    run Notifying.step (s.set start end_) during = some s' → s'.Done →
    ∀ link, link ∈ s.view.clients → link ∈ s'.clients → s'.told.count link = 1 := by
  intro hall
  have hcount := hall (ProfileView.new 0 1) [.map true, .map false] (twoLinks true false) rfl 0 1
    [.update, .unmap true] _ rfl (Nat.le_refl 1) false (by decide) (by decide)
  exact absurd hcount (by decide)

end ProfileViewLink

end SatAllocatorTest.Ports.Monitor
