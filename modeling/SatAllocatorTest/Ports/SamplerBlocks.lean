import Mathlib.Data.List.Flatten
import SatAllocatorTest.Ports.ProfileSampler

/-!
# What the sampler gives

Whatever calls and responses come in whatever order, a promise of `getBlockSpan` that is
fulfilled gives the blocks asked for, and each of them holds what the server sent for it.
The reason is the promise `loading`: it `Needs` every load started so far, so whoever
waits for it waits for every block that is not there yet.

Main result: `getBlockSpan_safe`.
-/

namespace SatAllocatorTest.Ports.Monitor

open SatAllocatorTest.Verified.ExtendedNumbers
open SatAllocatorTest.Verified.Promises
open SatAllocatorTest.Verified.Promises.Machine
open SatAllocatorTest.Verified.Runs

namespace ProfileSampler

variable {C : Type}

/-- What a handler leaves behind. -/
def Effect (w : World C) : Handler C → Value → Value → Prop
  | .load blocks, .response samples, _ =>
      ∀ l data, (l, data) ∈ blocks.zip samples → w.block l = ⟨1, some data⟩
  | .load _, _, _ => True
  | .give blocks, _, v => v = .blocks blocks
  | .apply _, _, _ => True

/-- What handlers did lasts as long as the loaded blocks do. -/
theorem lasting_of_loaded {m : Machine (Handler C) Value} {w w' : World C}
    (hkeep : ∀ l, (w.block l).loading = 1 → w'.block l = w.block l) : Lasting Effect m w w' := by
  intro t p h u v _ _ _ heff
  cases h with
  | give blocks => exact heff
  | apply chart => trivial
  | load blocks =>
      cases u with
      | response samples =>
          intro l data hmem
          have hloaded := heff l data hmem
          exact (hkeep l (congrArg SamplesBlock.loading hloaded)).trans hloaded
      | sampler => trivial
      | blocks _ => trivial
      | pair _ _ => trivial
      | undefined => trivial

/-- The server sent `data` for the block at `l`. -/
def Sent (s : ProfileSampler C) (l : Location) (data : Samples) : Prop :=
  ∃ r ∈ s.requests, ∃ samples,
    s.machine.state r.fetch = some (.fulfilled (.response samples)) ∧ (l, data) ∈ r.blocks.zip samples

def Loaded (s : ProfileSampler C) (l : Location) : Prop := (s.world.block l).loading = 1

/-- The promise of a call holds its blocks, or waits for each of them that is not loaded. -/
structure Backed (s : ProfileSampler C) (c : Call) : Prop where
  made : s.machine.origin c.promise = .resolved ∧
      s.machine.state c.promise = some (.fulfilled (.blocks c.span)) ∨
    ∃ l, s.machine.origin c.promise = .after l (.give c.span)
  covered : ∀ b ∈ c.span, s.Loaded b ∨
    ∃ r ∈ s.requests, b ∈ r.blocks ∧ Needs s.machine.origin c.promise (r.fetch + 1)

/-- What holds of the sampler between two events. -/
structure Inv (s : ProfileSampler C) : Prop where
  sound : Machine.Sound Effect s.machine s.world
  blocks : ∀ l, s.world.block l = .new ∨ s.world.block l = ⟨-1, none⟩ ∨
    ∃ data, s.world.block l = ⟨1, some data⟩ ∧ s.Sent l data
  asked : ∀ l, (s.world.block l).loading ≠ 0 ↔ ∃ r ∈ s.requests, l ∈ r.blocks
  once : (s.requests.flatMap Request.blocks).Nodup
  fetched : ∀ r ∈ s.requests, r.fetch + 1 < s.machine.size ∧
    s.machine.origin r.fetch = .outside ∧
    s.machine.origin (r.fetch + 1) = .after r.fetch (.load r.blocks)
  loads : ∀ t p blocks, s.machine.origin t = .after p (.load blocks) → ⟨p, blocks⟩ ∈ s.requests
  answered : ∀ r ∈ s.requests, ∀ v, s.machine.state r.fetch = some (.fulfilled v) →
    ∃ samples, v = .response samples ∧ samples.length = r.blocks.length
  chained : ∀ r ∈ s.requests, ∃ l, s.loading = some l ∧ Needs s.machine.origin l (r.fetch + 1)
  made : ∀ l, s.loading = some l → l < s.machine.size
  calls : ∀ c ∈ s.calls, s.Backed c

/-- No promise and no request of `s` is lost in `s'`. -/
structure Follows (s s' : ProfileSampler C) : Prop where
  machine : s.machine.Extends s'.machine
  requests : s.requests <+: s'.requests

theorem Follows.trans {s₁ s₂ s₃ : ProfileSampler C} (h : s₁.Follows s₂) (h' : s₂.Follows s₃) :
    s₁.Follows s₃ := ⟨h.machine.trans h'.machine, h.requests.trans h'.requests⟩

/-! ## Requests and what they bring -/

theorem zip_exists {blocks : List Location} {samples : List Samples} {l : Location}
    (hlength : samples.length = blocks.length) (hl : l ∈ blocks) :
    ∃ data, (l, data) ∈ blocks.zip samples := by
  rw [← List.map_fst_zip (Nat.le_of_eq hlength.symm)] at hl
  obtain ⟨⟨l', data⟩, hmem, rfl⟩ := List.mem_map.1 hl
  exact ⟨data, hmem⟩

theorem zip_unique {blocks : List Location} {samples : List Samples} {l : Location}
    {data data' : Samples} (hlength : samples.length = blocks.length) (hnodup : blocks.Nodup)
    (h : (l, data) ∈ blocks.zip samples) (h' : (l, data') ∈ blocks.zip samples) : data = data' := by
  have hkeys : ((blocks.zip samples).map Prod.fst).Nodup := by
    rwa [List.map_fst_zip (Nat.le_of_eq hlength.symm)]
  exact congrArg Prod.snd (List.inj_on_of_nodup_map hkeys h h' rfl)

variable {s : ProfileSampler C}

/-- A block is in one request. -/
theorem Inv.request_unique (hs : s.Inv) {r r' : Request} (hr : r ∈ s.requests)
    (hr' : r' ∈ s.requests) {l : Location} (hl : l ∈ r.blocks) (hl' : l ∈ r'.blocks) : r = r' := by
  by_contra hne
  have hsymm : Std.Symm (Function.onFun List.Disjoint Request.blocks) := ⟨fun _ _ h => h.symm⟩
  have hapart := (List.nodup_flatMap.1 hs.once).2.forall hr hr' hne
  exact hapart hl hl'

theorem Inv.blocks_nodup (hs : s.Inv) {r : Request} (hr : r ∈ s.requests) : r.blocks.Nodup :=
  (List.nodup_flatMap.1 hs.once).1 r hr

/-- The server sent one thing for a block. -/
theorem Inv.sent_unique (hs : s.Inv) {l : Location} {data data' : Samples} (h : s.Sent l data)
    (h' : s.Sent l data') : data = data' := by
  obtain ⟨r, hr, samples, hstate, hmem⟩ := h
  obtain ⟨r', hr', samples', hstate', hmem'⟩ := h'
  cases hs.request_unique hr hr' (List.of_mem_zip hmem).1 (List.of_mem_zip hmem').1
  cases hstate.symm.trans hstate'
  obtain ⟨_, heq, hlength⟩ := hs.answered r hr _ hstate
  cases heq
  exact zip_unique hlength (hs.blocks_nodup hr) hmem hmem'

/-- A loaded block holds what the server sent for it. -/
theorem Inv.loaded_sent (hs : s.Inv) {l : Location} (h : s.Loaded l) :
    ∃ data, s.world.block l = ⟨1, some data⟩ ∧ s.Sent l data := by
  rcases hs.blocks l with hnew | hasked | hloaded
  · exact absurd ((congrArg SamplesBlock.loading hnew).symm.trans h) (show (0 : ℤ) ≠ 1 by decide)
  · exact absurd ((congrArg SamplesBlock.loading hasked).symm.trans h) (show (-1 : ℤ) ≠ 1 by decide)
  · exact hloaded

/-- What backs a call lasts. -/
theorem Backed.mono {s' : ProfileSampler C} {c : Call} (h : s.Backed c)
    (hsound : Machine.Sound Effect s.machine s.world) (hext : s.machine.Extends s'.machine)
    (hloaded : ∀ l, s.Loaded l → s'.Loaded l) (hrequests : ∀ r ∈ s.requests, r ∈ s'.requests) :
    s'.Backed c := by
  constructor
  · rcases h.made with ⟨ho, hstate⟩ | ⟨l, ho⟩
    · have hlt : c.promise < s.machine.size :=
        hsound.lt_size (.inr (.inl (hstate ▸ Option.some_ne_none _)))
      exact .inl ⟨(hext.origin _ hlt).trans ho, hext.state _ _ hstate⟩
    · have huses : (s.machine.origin c.promise).Uses l := ho ▸ .after
      exact .inr ⟨l, (hext.origin _ (hsound.made huses)).trans ho⟩
  · intro b hb
    rcases h.covered b hb with h | ⟨r, hr, hmem, hneeds⟩
    · exact .inl (hloaded b h)
    · exact .inr ⟨r, hrequests r hr, hmem, hneeds.extends hsound hext⟩

/-! ## One event -/

/-- The invariant stays when the machine goes on, no block is lost, and nothing is asked. -/
theorem Inv.frame (hs : s.Inv) {m : Machine (Handler C) Value} {w : World C}
    (hext : s.machine.Extends m) (hsound : Machine.Sound Effect m w)
    (hloads : ∀ t p blocks, m.origin t = .after p (.load blocks) →
      s.machine.origin t = .after p (.load blocks))
    (hfetch : ∀ r ∈ s.requests, ∀ v, m.state r.fetch = some (.fulfilled v) →
      ∃ samples, v = .response samples ∧ samples.length = r.blocks.length)
    (hworld : ∀ l, w.block l = s.world.block l ∨ (s.world.block l).loading ≠ 0 ∧
      ∃ data, w.block l = ⟨1, some data⟩ ∧ Sent { s with machine := m, world := w } l data) :
    Inv { s with machine := m, world := w } := by
  have needs : ∀ {t p}, Needs s.machine.origin t p → Needs m.origin t p := fun h =>
    h.extends hs.sound hext
  have sent : ∀ {l data}, s.Sent l data → Sent { s with machine := m, world := w } l data := by
    rintro l data ⟨r, hr, samples, hstate, hmem⟩
    exact ⟨r, hr, samples, hext.state _ _ hstate, hmem⟩
  have loaded : ∀ {l}, s.Loaded l → Loaded { s with machine := m, world := w } l := by
    intro l hl
    rcases hworld l with heq | ⟨-, data, heq, -⟩
    · exact (congrArg SamplesBlock.loading heq).trans hl
    · exact congrArg SamplesBlock.loading heq
  refine ⟨hsound, ?_, ?_, hs.once, ?_, ?_, hfetch, ?_, ?_, ?_⟩
  · intro l
    rcases hworld l with heq | ⟨-, data, heq, hsent⟩
    · rcases hs.blocks l with h | h | ⟨data, h, hsent⟩
      · exact .inl (heq.trans h)
      · exact .inr (.inl (heq.trans h))
      · exact .inr (.inr ⟨data, heq.trans h, sent hsent⟩)
    · exact .inr (.inr ⟨data, heq, hsent⟩)
  · intro l
    rcases hworld l with heq | ⟨hne, data, heq, -⟩
    · change (w.block l).loading ≠ 0 ↔ _
      rw [heq]
      exact hs.asked l
    · refine iff_of_true ?_ ((hs.asked l).1 hne)
      change (w.block l).loading ≠ 0
      rw [heq]
      exact one_ne_zero
  · intro r hr
    obtain ⟨hlt, hfetch, hload⟩ := hs.fetched r hr
    have hlt' : r.fetch < s.machine.size := Nat.lt_of_succ_lt hlt
    exact ⟨Nat.lt_of_lt_of_le hlt hext.size, (hext.origin _ hlt').trans hfetch,
      (hext.origin _ hlt).trans hload⟩
  · exact fun t p blocks ho => hs.loads t p blocks (hloads t p blocks ho)
  · intro r hr
    obtain ⟨l, hl, hneeds⟩ := hs.chained r hr
    exact ⟨l, hl, needs hneeds⟩
  · exact fun l hl => Nat.lt_of_lt_of_le (hs.made l hl) hext.size
  · exact fun c hc => (hs.calls c hc).mono hs.sound hext (fun l => loaded) fun r hr => hr

/-- A fetch has its outcome. -/
theorem Inv.settled (hs : s.Inv) {r : Request} (hr : r ∈ s.requests) {o : Outcome Value}
    (ho : ∀ v, o = .fulfilled v → ∃ samples, v = .response samples ∧
      samples.length = r.blocks.length) :
    Inv { s with machine := s.machine.settle r.fetch o } := by
  obtain ⟨hlt, horigin, -⟩ := hs.fetched r hr
  refine hs.frame (extends_settle _ _ _) (hs.sound.settle (Nat.lt_of_succ_lt hlt) ?_) ?_ ?_
    fun _ => .inl rfl
  · rw [horigin]
    trivial
  · intro t p blocks ht
    rwa [settle_origin] at ht
  · intro r' hr' v hv
    by_cases hpending : s.machine.state r.fetch = none
    · by_cases hsame : r'.fetch = r.fetch
      · rw [hsame, settle_state_self hpending] at hv
        have hload := (hs.fetched r' hr').2.2
        rw [hsame, (hs.fetched r hr).2.2] at hload
        have hblocks : r.blocks = r'.blocks := Handler.load.inj (Origin.after.inj hload).2
        rw [← hblocks]
        exact ho v (Option.some.inj hv)
      · rw [settle_state_of_ne _ _ hsame] at hv
        exact hs.answered r' hr' v hv
    · obtain ⟨o', ho'⟩ := Option.ne_none_iff_exists'.1 hpending
      rw [settle_settled ho'] at hv
      exact hs.answered r' hr' v hv

theorem Inv.respond (hs : s.Inv) {s' : ProfileSampler C} {r : Request} {o : Outcome Value}
    (hr : r ∈ s.requests) (ho : ∀ v, o = .fulfilled v → ∃ samples, v = .response samples ∧
      samples.length = r.blocks.length) (h : s.answered r o = some s') :
    s'.Inv ∧ s.Follows s' := by
  unfold ProfileSampler.answered at h
  split at h
  · cases h
    exact ⟨hs.settled hr ho, extends_settle _ _ _, List.prefix_refl _⟩
  · cases h

/-- What a handler does to the blocks: a load brings what the server sent. -/
theorem Inv.exec_block [DecidableEq C] (hs : s.Inv) {h : Handler C} {t p : ℕ} {v : Value}
    (ho : s.machine.origin t = .after p h) (hp : s.machine.state p = some (.fulfilled v))
    (l : Location) :
    (exec s.world h v).1.block l = s.world.block l ∨ (s.world.block l).loading ≠ 0 ∧
      ∃ data, (exec s.world h v).1.block l = ⟨1, some data⟩ ∧ s.Sent l data := by
  cases h with
  | give blocks => exact .inl rfl
  | apply chart => cases v <;> exact .inl rfl
  | load blocks =>
      have hr := hs.loads t p blocks ho
      obtain ⟨samples, rfl, hlength⟩ := hs.answered _ hr v hp
      rcases World.block_load (blocks.zip samples) s.world l with ⟨-, heq⟩ | ⟨data, hmem, heq⟩
      · exact .inl heq
      · have hasked := (hs.asked l).2 ⟨_, hr, (List.of_mem_zip hmem).1⟩
        exact .inr ⟨hasked, data, heq, _, hr, samples, hp, hmem⟩

/-- A handler has its effect. -/
theorem Inv.exec_effect [DecidableEq C] (hs : s.Inv) {h : Handler C} {t p : ℕ} {v : Value}
    (ho : s.machine.origin t = .after p h) (hp : s.machine.state p = some (.fulfilled v)) :
    Effect (exec s.world h v).1 h v (exec s.world h v).2 := by
  cases h with
  | give blocks => exact rfl
  | apply chart => trivial
  | load blocks =>
      have hr := hs.loads t p blocks ho
      obtain ⟨samples, rfl, hlength⟩ := hs.answered _ hr v hp
      intro l data hmem
      rcases World.block_load (blocks.zip samples) s.world l with ⟨hnot, -⟩ | ⟨data', hmem', heq⟩
      · exact absurd (List.mem_map.2 ⟨_, hmem, rfl⟩) hnot
      · cases zip_unique hlength (hs.blocks_nodup hr) hmem hmem'
        exact heq

/-- A handler spoils no load: a block is loaded once. -/
theorem Inv.exec_lasting [DecidableEq C] (hs : s.Inv) {h : Handler C} {t p : ℕ} {v : Value}
    (ho : s.machine.origin t = .after p h) (hp : s.machine.state p = some (.fulfilled v)) :
    Lasting Effect s.machine s.world (exec s.world h v).1 := by
  refine lasting_of_loaded fun l hl => ?_
  rcases hs.exec_block ho hp l with heq | ⟨-, data', heq, hsent'⟩
  · exact heq
  · obtain ⟨data, hblock, hsent⟩ := hs.loaded_sent hl
    rw [heq, hblock, hs.sent_unique hsent hsent']

theorem Inv.job [DecidableEq C] (hs : s.Inv) {m : Machine (Handler C) Value} {w : World C}
    (hjob : s.machine.job exec .pair s.world = some (m, w)) :
    Inv { s with machine := m, world := w } := by
  have hext := extends_job hjob
  refine hs.frame hext (hs.sound.job hjob fun h t p v ho hp =>
    ⟨hs.exec_effect ho hp, hs.exec_lasting ho hp⟩) ?_ ?_ ?_
  · intro t p blocks ho
    rwa [job_origin hjob] at ho
  · intro r hr v hv
    rw [hs.sound.job_outside hjob (hs.fetched r hr).2.1] at hv
    exact hs.answered r hr v hv
  · intro l
    obtain ⟨r, o, rest, hqueue, heq⟩ := job_eq hjob
    obtain ⟨p, hw, hp⟩ := hs.sound.queued r o (hqueue ▸ List.mem_cons_self)
    cases o with
    | rejected =>
        cases r <;> cases heq <;> exact .inl rfl
    | fulfilled v =>
        cases hw with
        | first ho =>
            cases heq
            exact .inl rfl
        | second ho =>
            cases heq
            exact .inl rfl
        | @run h t p ho =>
            cases heq
            rcases hs.exec_block ho hp l with heq | ⟨hne, data, heq, r', hr', samples, hstate, hmem⟩
            · exact .inl heq
            · exact .inr ⟨hne, data, heq, r', hr', samples, hext.state _ _ hstate, hmem⟩

/-- The machine goes on by `p.then(h)`, where `h` is no load. -/
theorem Inv.andThen (hs : s.Inv) {p : ℕ} (hp : p < s.machine.size) {h : Handler C}
    (hload : ∀ blocks, h ≠ .load blocks) :
    Inv { s with machine := s.machine.andThen p h } := by
  refine hs.frame (extends_andThen _ _ _) (hs.sound.andThen hp h) ?_ ?_ fun _ => .inl rfl
  · intro t p' blocks ho
    rw [andThen_origin] at ho
    by_cases ht : t = s.machine.size
    · subst ht
      rw [Function.update_self] at ho
      exact absurd (Origin.after.inj ho).2 (hload blocks)
    · rwa [Function.update_of_ne ht] at ho
  · intro r hr v hv
    rw [andThen_state] at hv
    exact hs.answered r hr v hv

theorem Inv.resolve (hs : s.Inv) (v : Value) : Inv { s with machine := s.machine.resolve v } := by
  have hext := extends_resolve s.machine v
  refine hs.frame hext (hs.sound.resolve v) ?_ ?_ fun _ => .inl rfl
  · intro t p' blocks ho
    rw [resolve_origin] at ho
    by_cases ht : t = s.machine.size
    · subst ht
      rw [Function.update_self] at ho
      cases ho
    · rwa [Function.update_of_ne ht] at ho
  · intro r hr v' hv
    have hne : r.fetch ≠ s.machine.size :=
      Nat.ne_of_lt (Nat.lt_of_succ_lt (hs.fetched r hr).1)
    unfold Machine.resolve at hv
    rw [settle_state_of_ne _ _ hne] at hv
    exact hs.answered r hr v' hv

/-! ## A request -/

/-- The blocks of `new` are marked as asked for. -/
structure Marks (s : ProfileSampler C) (new : List Location) (w : World C) : Prop where
  block : ∀ l, w.block l = if l ∈ new then ⟨-1, (s.world.block l).samples⟩ else s.world.block l
  charts : w.charts = s.world.charts

/-- Marking blocks that nobody has asked for leaves the others as they are. -/
theorem Marks.block_eq {new : List Location} {w : World C} (hw : s.Marks new w)
    (hnew : ∀ l ∈ new, (s.world.block l).loading = 0) {l : Location}
    (hl : (s.world.block l).loading ≠ 0) : w.block l = s.world.block l := by
  rw [hw.block l, if_neg fun hmem => hl (hnew l hmem)]

theorem Inv.marked_sound (hs : s.Inv) {new : List Location} {w : World C} (hw : s.Marks new w)
    (hnew : ∀ l ∈ new, (s.world.block l).loading = 0) : Machine.Sound Effect s.machine w := by
  refine hs.sound.world (lasting_of_loaded fun l hl => hw.block_eq hnew ?_)
  rw [hl]
  exact one_ne_zero

/-- What `loadBlocks` does to the promises: it starts a load, and chains it. -/
structure Started (m : Machine (Handler C) Value) (loading : Option ℕ) (blocks : List Location)
    (m' : Machine (Handler C) Value) (l : ℕ) : Prop where
  ext : m.Extends m'
  state : m'.state = m.state
  fetch : m'.origin m.size = .outside
  load : m'.origin (m.size + 1) = .after m.size (.load blocks)
  handlers : ∀ t p h, m'.origin t = .after p h →
    m.origin t = .after p h ∨ p = m.size ∧ h = .load blocks
  size : m.size + 1 < m'.size ∧ m.size ≤ l ∧ l < m'.size
  needs : Needs m'.origin l (m.size + 1)
  chain : ∀ l', loading = some l' → Needs m'.origin l l'

/-- A load alone. -/
theorem started_load {m : Machine (Handler C) Value} {w : World C} (hs : Machine.Sound Effect m w)
    (blocks : List Location) :
    Started m none blocks ((m.make .outside).andThen m.size (.load blocks)) (m.size + 1) ∧
      Machine.Sound Effect ((m.make .outside).andThen m.size (.load blocks)) w := by
  have hmade : Machine.Sound Effect (m.make .outside) w := hs.make fun p h => by cases h
  have horigin : ((m.make .outside).andThen m.size (.load blocks)).origin =
      Function.update (m.make .outside).origin (m.size + 1) (.after m.size (.load blocks)) :=
    andThen_origin _ _ _
  have hsize : ((m.make .outside).andThen m.size (.load blocks)).size = m.size + 2 :=
    andThen_size _ _ _
  refine ⟨⟨(extends_make _ _).trans (extends_andThen _ _ _), andThen_state _ _ _, ?_, ?_, ?_,
    ⟨by omega, by omega, by omega⟩, .refl _, fun l hl => by cases hl⟩,
    hmade.andThen (Nat.lt_succ_self _) _⟩
  · rw [horigin, Function.update_of_ne (Nat.ne_of_lt (Nat.lt_succ_self _))]
    exact make_origin_self _ _
  · rw [horigin, Function.update_self]
  · intro t p h ho
    rw [horigin] at ho
    by_cases ht : t = m.size + 1
    · rw [ht, Function.update_self] at ho
      cases ho
      exact .inr ⟨rfl, rfl⟩
    · rw [Function.update_of_ne ht] at ho
      by_cases ht' : t = m.size
      · rw [ht', make_origin_self] at ho
        cases ho
      · rw [make_origin_of_ne _ _ ht'] at ho
        exact .inl ho

/-- A load behind those before. -/
theorem Started.behind {m m' : Machine (Handler C) Value} {w : World C} {blocks : List Location}
    {p : ℕ} (h : Started m none blocks m' p) (hs : Machine.Sound Effect m' w) (l : ℕ) :
    Started m (some l) blocks (m'.all l p) m'.size := by
  obtain ⟨hlt, hle, hltp⟩ := h.size
  have hnew : (m'.all l p).origin m'.size = .both l p := by
    rw [all_origin, Function.update_self]
  have hold : ∀ t, t ≠ m'.size → (m'.all l p).origin t = m'.origin t := by
    intro t ht
    rw [all_origin, Function.update_of_ne ht]
  refine ⟨h.ext.trans (extends_all _ _ _), (all_state _ _ _).trans h.state, ?_, ?_, ?_, ⟨?_, ?_, ?_⟩,
    .right hnew (h.needs.extends hs (extends_all _ _ _)), fun l' hl' => ?_⟩
  · rw [hold _ (by omega)]
    exact h.fetch
  · rw [hold _ (by omega)]
    exact h.load
  · intro t q hd ho
    by_cases ht : t = m'.size
    · rw [ht, hnew] at ho
      cases ho
    · rw [hold t ht] at ho
      exact h.handlers t q hd ho
  · rw [all_size]
    omega
  · omega
  · rw [all_size]
    omega
  · cases hl'
    exact .left hnew (.refl _)

theorem loadBlocks_started {w : World C} (hsound : Machine.Sound Effect s.machine w)
    (hmade : ∀ l, s.loading = some l → l < s.machine.size) (blocks : List Location) :
    ∃ m l, s.loadBlocks blocks =
        ({ s with
            machine := m
            requests := s.requests ++ [⟨s.machine.size, blocks⟩]
            loading := some l }, l) ∧
      Started s.machine s.loading blocks m l ∧ Machine.Sound Effect m w := by
  obtain ⟨hstarted, hload⟩ := started_load hsound blocks
  cases hloading : s.loading with
  | none =>
      refine ⟨_, _, ?_, hstarted, hload⟩
      simp only [loadBlocks, hloading]
  | some l =>
      have hl : l < s.machine.size := hmade l hloading
      refine ⟨_, _, ?_, hstarted.behind hload l,
        hload.all (Nat.lt_of_lt_of_le hl hstarted.ext.size) hstarted.size.2.2⟩
      have hsize : ((s.machine.make .outside).andThen s.machine.size (.load blocks)).size =
          s.machine.size + 1 + 1 := andThen_size _ _ _
      simp only [loadBlocks, hloading, hsize]

/-- What a request asks for, over and above what was asked for. -/
theorem Inv.marked_asked (hs : s.Inv) {new : List Location} {w : World C} (hw : s.Marks new w)
    (l : Location) :
    (w.block l).loading ≠ 0 ↔ (∃ r ∈ s.requests, l ∈ r.blocks) ∨ l ∈ new := by
  rw [hw.block l]
  by_cases hmem : l ∈ new
  · rw [if_pos hmem]
    exact iff_of_true (show (-1 : ℤ) ≠ 0 by decide) (.inr hmem)
  · rw [if_neg hmem, hs.asked l]
    exact ⟨.inl, fun h => h.resolve_right hmem⟩

theorem Inv.marked_blocks (hs : s.Inv) {new : List Location}
    (hnew : ∀ l ∈ new, (s.world.block l).loading = 0) {w : World C} (hw : s.Marks new w)
    (l : Location) : w.block l = .new ∨ w.block l = ⟨-1, none⟩ ∨
      ∃ data, w.block l = ⟨1, some data⟩ ∧ s.Sent l data := by
  by_cases hmem : l ∈ new
  · rw [hw.block l, if_pos hmem]
    rcases hs.blocks l with h | h | ⟨data, h, -⟩
    · exact .inr (.inl (by rw [h]; rfl))
    · exact .inr (.inl (by rw [h]))
    · have hzero := hnew l hmem
      rw [h] at hzero
      exact absurd hzero one_ne_zero
  · rw [hw.block l, if_neg hmem]
    exact hs.blocks l

/-- The sampler asks for blocks that nobody has asked for. -/
theorem Inv.loadBlocks (hs : s.Inv) {blocks : List Location} (hnodup : blocks.Nodup)
    (hnew : ∀ l ∈ blocks, (s.world.block l).loading = 0) {w : World C} (hw : s.Marks blocks w) :
    ∃ s' l, { s with world := w }.loadBlocks blocks = (s', l) ∧ s'.Inv ∧ s'.loading = some l ∧
      s'.world = w ∧ s.Follows s' := by
  have hunasked : ∀ r ∈ s.requests, ∀ l ∈ blocks, l ∉ r.blocks := by
    intro r hr l hl hmem
    exact (hs.asked l).2 ⟨r, hr, hmem⟩ (hnew l hl)
  obtain ⟨m, l, heq, hstarted, hsound'⟩ :=
    loadBlocks_started (s := { s with world := w }) (hs.marked_sound hw hnew) hs.made blocks
  refine ⟨_, l, heq, ?_, rfl, rfl, hstarted.ext, List.prefix_append _ _⟩
  have hloaded : ∀ l, s.Loaded l → (w.block l).loading = 1 := by
    intro l hl
    have hne : (s.world.block l).loading ≠ 0 := by
      rw [show (s.world.block l).loading = 1 from hl]
      exact one_ne_zero
    rw [hw.block_eq hnew hne]
    exact hl
  refine ⟨hsound', ?_, ?_, ?_, ?_, ?_, ?_, ?_, ?_, ?_⟩
  · intro l'
    rcases hs.marked_blocks hnew hw l' with h | h | ⟨data, h, r, hr, samples, hstate, hzip⟩
    · exact .inl h
    · exact .inr (.inl h)
    · exact .inr (.inr ⟨data, h, r, List.mem_append_left _ hr, samples,
        hstarted.ext.state _ _ hstate, hzip⟩)
  · intro l'
    refine (hs.marked_asked hw l').trans ?_
    simp only [List.mem_append, List.mem_singleton, or_and_right, exists_or, exists_eq_left]
  · change ((s.requests ++ _).flatMap Request.blocks).Nodup
    rw [List.flatMap_append, List.nodup_append]
    refine ⟨hs.once, by simpa using hnodup, ?_⟩
    intro l' hl' l'' hl'' heq'
    subst heq'
    obtain ⟨r, hr, hmem⟩ := List.mem_flatMap.1 hl'
    exact hunasked r hr l' (by simpa using hl'') hmem
  · intro r hr
    rcases List.mem_append.1 hr with hr | hr
    · obtain ⟨hlt, hfetch, hload⟩ := hs.fetched r hr
      exact ⟨Nat.lt_of_lt_of_le hlt hstarted.ext.size,
        (hstarted.ext.origin _ (Nat.lt_of_succ_lt hlt)).trans hfetch,
        (hstarted.ext.origin _ hlt).trans hload⟩
    · cases List.mem_singleton.1 hr
      exact ⟨hstarted.size.1, hstarted.fetch, hstarted.load⟩
  · intro t p blocks' ho
    rcases hstarted.handlers t p _ ho with ho | ⟨hp, hh⟩
    · exact List.mem_append_left _ (hs.loads t p blocks' ho)
    · cases hp
      cases hh
      exact List.mem_append_right _ (List.mem_singleton_self _)
  · intro r hr v hv
    have hstate : m.state = s.machine.state := hstarted.state
    replace hv : m.state r.fetch = _ := hv
    rw [hstate] at hv
    rcases List.mem_append.1 hr with hr | hr
    · exact hs.answered r hr v hv
    · cases List.mem_singleton.1 hr
      have hfresh : s.machine.state s.machine.size = none :=
        (hs.sound.fresh _ (Nat.le_refl _)).2.1
      cases hfresh.symm.trans hv
  · intro r hr
    refine ⟨l, rfl, ?_⟩
    rcases List.mem_append.1 hr with hr | hr
    · obtain ⟨l', hl', hneeds⟩ := hs.chained r hr
      exact (hstarted.chain l' hl').trans (hneeds.extends hs.sound hstarted.ext)
    · cases List.mem_singleton.1 hr
      exact hstarted.needs
  · intro l' hl'
    cases hl'
    exact hstarted.size.2.2
  · exact fun c hc => (hs.calls c hc).mono hs.sound hstarted.ext hloaded
      fun r hr => List.mem_append_left _ hr

/-! ## A call -/

/-- The blocks of a span nobody has asked for. -/
def unasked (s : ProfileSampler C) (span : List Location) : List Location :=
  span.filter fun l => decide ((s.world.block l).loading = 0)

theorem unasked_nodup {span : List Location} (h : span.Nodup) : (s.unasked span).Nodup := h.filter _

theorem unasked_new {span : List Location} {l : Location} (h : l ∈ s.unasked span) :
    (s.world.block l).loading = 0 := of_decide_eq_true (List.mem_filter.1 h).2

/-- The sampler with the blocks of `new` asked for, if there are any. -/
def asking (s : ProfileSampler C) (w : World C) (new : List Location) : ProfileSampler C :=
  if new = [] then { s with world := w } else ({ s with world := w }.loadBlocks new).1

/-- What `getBlockSpan` returns when all blocks are loaded. -/
def cached (s : ProfileSampler C) (w : World C) (span : List Location) : ProfileSampler C :=
  { s with world := w, machine := s.machine.resolve (.blocks span) }

def addCall (s : ProfileSampler C) (c : Call) : ProfileSampler C := { s with calls := s.calls ++ [c] }

theorem Inv.marks_nil (hs : s.Inv) {w : World C} (hw : s.Marks [] w) : Inv { s with world := w } :=
  hs.frame (.refl _) (hs.marked_sound hw fun _ h => absurd h List.not_mem_nil) (fun _ _ _ h => h)
    hs.answered fun l => .inl (hw.block l)

theorem Inv.asking (hs : s.Inv) {span : List Location} (hnodup : span.Nodup) {w : World C}
    (hw : s.Marks (s.unasked span) w) :
    (s.asking w (s.unasked span)).Inv ∧ (s.asking w (s.unasked span)).world = w ∧
      s.Follows (s.asking w (s.unasked span)) := by
  unfold ProfileSampler.asking
  by_cases hnone : s.unasked span = []
  · rw [if_pos hnone]
    rw [hnone] at hw
    exact ⟨hs.marks_nil hw, rfl, .refl _, List.prefix_refl _⟩
  · rw [if_neg hnone]
    obtain ⟨s', l, heq, hinv, -, hworld, hfollows⟩ :=
      hs.loadBlocks (unasked_nodup hnodup) (fun _ => unasked_new) hw
    rw [heq]
    exact ⟨hinv, hworld, hfollows⟩

/-- A block that is asked for but not loaded is on its way. -/
theorem Inv.on_its_way (hs : s.Inv) {l : Location} (hasked : (s.world.block l).loading ≠ 0)
    (hnot : ¬s.Loaded l) : (s.world.block l).loading < 0 := by
  rcases hs.blocks l with h | h | ⟨data, h, -⟩
  · rw [h] at hasked
    exact absurd rfl hasked
  · rw [h]
    decide
  · exact absurd (congrArg SamplesBlock.loading h) hnot

/-- What `getBlockSpan` has found when its loop ends. -/
theorem getBlockSpan_scan (s : ProfileSampler C) {indexMin indexMax level : Extended ℤ}
    {span : List Location} (hvisited : visited indexMin indexMax level = some span) :
    ∃ w hasLoading, s.Marks (s.unasked span) w ∧
      (hasLoading = true ↔ ∃ l ∈ span, (s.world.block l).loading < 0) ∧
      s.getBlockSpan indexMin indexMax level =
        (s.answer ⟨w, s.unasked span, hasLoading, span⟩).map fun r =>
          (r.1.addCall ⟨r.2, indexMin, indexMax, level⟩, r.2) := by
  have hfinds : Scan.Finds ⟨s.world, [], false, []⟩ span (scan s.world span) :=
    Scan.finds span _ (visited_nodup hvisited)
  rcases hscan : scan s.world span with ⟨w, new, hasLoading, blocks⟩
  rw [hscan] at hfinds
  have hblocks : blocks = span := hfinds.blocks
  have hnew : new = s.unasked span := hfinds.blockLoading
  subst hblocks hnew
  refine ⟨w, hasLoading, ⟨fun l => ?_, hfinds.charts⟩, ?_, ?_⟩
  · refine (hfinds.world l).trans ?_
    simp only [unasked, List.mem_filter, decide_eq_true_eq]
  · exact hfinds.hasLoading.trans ⟨fun h => h.resolve_left Bool.false_ne_true, .inr⟩
  · unfold ProfileSampler.getBlockSpan
    rw [hvisited]
    simp only [hscan]
    cases s.answer ⟨w, s.unasked blocks, hasLoading, blocks⟩ <;> rfl

/-- All blocks of a span are loaded when all are asked for and none is on its way. -/
theorem Inv.loaded_iff (hs : s.Inv) {span : List Location} :
    (∀ l ∈ span, s.Loaded l) ↔
      s.unasked span = [] ∧ ¬∃ l ∈ span, (s.world.block l).loading < 0 := by
  constructor
  · intro hall
    constructor
    · refine List.eq_nil_iff_forall_not_mem.2 fun l hl => ?_
      have hzero := unasked_new hl
      rw [show (s.world.block l).loading = 1 from hall l (List.mem_filter.1 hl).1] at hzero
      exact one_ne_zero hzero
    · rintro ⟨l, hl, hneg⟩
      rw [show (s.world.block l).loading = 1 from hall l hl] at hneg
      exact absurd hneg (by decide)
  · rintro ⟨hnone, hway⟩ l hl
    by_contra hnot
    refine hway ⟨l, hl, hs.on_its_way (fun hzero => ?_) hnot⟩
    have hmem : l ∈ s.unasked span := List.mem_filter.2 ⟨hl, decide_eq_true hzero⟩
    rw [hnone] at hmem
    exact List.not_mem_nil hmem

/-- What `getBlockSpan` does, and that it returns whenever its loop ends. -/
theorem Inv.getBlockSpan_cases (hs : s.Inv) {indexMin indexMax level : Extended ℤ}
    {span : List Location} (hvisited : visited indexMin indexMax level = some span) :
    ∃ w, s.Marks (s.unasked span) w ∧
      ((∀ l ∈ span, s.Loaded l) ∧ s.getBlockSpan indexMin indexMax level =
          some ((s.cached w span).addCall ⟨s.machine.size, indexMin, indexMax, level⟩,
            s.machine.size) ∨
        (¬∀ l ∈ span, s.Loaded l) ∧ ∃ s₁ l, s₁ = s.asking w (s.unasked span) ∧
          s₁.loading = some l ∧ s.getBlockSpan indexMin indexMax level =
            some ((s₁.thenGive l span).1.addCall ⟨s₁.machine.size, indexMin, indexMax, level⟩,
              s₁.machine.size)) := by
  obtain ⟨w, hasLoading, hmarks, hway, hcall⟩ := s.getBlockSpan_scan hvisited
  refine ⟨w, hmarks, ?_⟩
  rw [hs.loaded_iff, hcall]
  by_cases hnone : s.unasked span = []
  · have hskip : ¬(Scan.mk w (s.unasked span) hasLoading span).blockLoading ≠ [] := not_not.2 hnone
    by_cases hloading : hasLoading = true
    · refine .inr ⟨fun h => h.2 (hway.1 hloading), ?_⟩
      obtain ⟨l, -, hneg⟩ := hway.1 hloading
      obtain ⟨r, hr, -⟩ := (hs.asked l).1 (ne_of_lt hneg)
      obtain ⟨p, hp, -⟩ := hs.chained r hr
      rw [ProfileSampler.answer, if_neg hskip, if_pos hloading, ProfileSampler.asking, if_pos hnone]
      exact ⟨_, p, rfl, hp, by simp only [hp]; rfl⟩
    · refine .inl ⟨⟨hnone, fun h => hloading (hway.2 h)⟩, ?_⟩
      rw [ProfileSampler.answer, if_neg hskip, if_neg hloading]
      rfl
  · refine .inr ⟨fun h => hnone h.1, ?_⟩
    obtain ⟨s', l, heq, -, hloading, -⟩ :=
      hs.loadBlocks (unasked_nodup (visited_nodup hvisited)) (fun _ => unasked_new) hmarks
    have hasking : s.asking w (s.unasked span) = s' := by
      rw [ProfileSampler.asking, if_neg hnone]
      exact congrArg Prod.fst heq
    refine ⟨s', l, hasking.symm, hloading, ?_⟩
    rw [ProfileSampler.answer, if_pos hnone]
    simp only [heq]
    rfl

theorem Inv.addCall (hs : s.Inv) {c : Call} (hc : s.Backed c) : (s.addCall c).Inv := by
  refine ⟨hs.sound, hs.blocks, hs.asked, hs.once, hs.fetched, hs.loads, hs.answered, hs.chained,
    hs.made, ?_⟩
  intro c' hc'
  have hback : s.Backed c' := by
    rcases List.mem_append.1 hc' with hc' | hc'
    · exact hs.calls c' hc'
    · cases List.mem_singleton.1 hc'
      exact hc
  exact hback.mono hs.sound (.refl _) (fun _ h => h) fun _ h => h

theorem Inv.cached (hs : s.Inv) {span : List Location} (hall : ∀ l ∈ span, s.Loaded l) {w : World C}
    (hw : s.Marks (s.unasked span) w) {c : Call} (hspan : c.span = span)
    (hpromise : c.promise = s.machine.size) : ((s.cached w span).addCall c).Inv := by
  rw [(hs.loaded_iff.1 hall).1] at hw
  have hcached : (s.cached w span).Inv := (hs.marks_nil hw).resolve _
  refine hcached.addCall ⟨.inl ⟨?_, ?_⟩, fun b hb => .inl ?_⟩
  · rw [hpromise]
    exact (congrFun (resolve_origin s.machine _) _).trans (Function.update_self _ _ _)
  · rw [hpromise, hspan]
    exact settle_state_self (hs.sound.fresh _ (Nat.le_refl _)).2.1
  · rw [hspan] at hb
    exact (congrArg SamplesBlock.loading (hw.block b)).trans (hall b hb)

theorem Inv.thenGive (hs : s.Inv) {span : List Location}
    (hasked : ∀ b ∈ span, (s.world.block b).loading ≠ 0) {l : ℕ} (hl : s.loading = some l) {c : Call}
    (hspan : c.span = span) (hpromise : c.promise = s.machine.size) :
    ((s.thenGive l span).1.addCall c).Inv := by
  have hthen : (s.thenGive l span).1.Inv := hs.andThen (hs.made l hl) fun _ h => by cases h
  have horigin : (s.thenGive l span).1.machine.origin c.promise = .after l (.give span) := by
    rw [hpromise]
    exact (congrFun (andThen_origin s.machine l _) _).trans (Function.update_self _ _ _)
  refine hthen.addCall ⟨.inr ⟨l, hspan ▸ horigin⟩, fun b hb => .inr ?_⟩
  rw [hspan] at hb
  obtain ⟨r, hr, hmem⟩ := (hs.asked b).1 (hasked b hb)
  obtain ⟨l', hl', hneeds⟩ := hs.chained r hr
  cases hl.symm.trans hl'
  exact ⟨r, hr, hmem, .after horigin (hneeds.extends hs.sound (extends_andThen _ _ _))⟩

theorem Marks.asked {span : List Location} {w : World C} (hw : s.Marks (s.unasked span) w) :
    ∀ b ∈ span, (w.block b).loading ≠ 0 := by
  intro b hb
  rw [hw.block b]
  by_cases hzero : (s.world.block b).loading = 0
  · have hmem : b ∈ s.unasked span := List.mem_filter.2 ⟨hb, decide_eq_true hzero⟩
    rw [if_pos hmem]
    exact show (-1 : ℤ) ≠ 0 by decide
  · rw [if_neg fun hmem => hzero (unasked_new hmem)]
    exact hzero

theorem Inv.getBlockSpan (hs : s.Inv) {indexMin indexMax level : Extended ℤ} {s' : ProfileSampler C}
    {promise : ℕ} (h : s.getBlockSpan indexMin indexMax level = some (s', promise)) :
    s'.Inv ∧ promise < s'.machine.size ∧ s.Follows s' := by
  cases hvisited : visited indexMin indexMax level with
  | none =>
      rw [ProfileSampler.getBlockSpan, hvisited] at h
      cases h
  | some span =>
      have hspan : ∀ promise, Call.span ⟨promise, indexMin, indexMax, level⟩ = span := fun _ =>
        congrArg (Option.getD · []) hvisited
      obtain ⟨w, hw, ⟨hall, heq⟩ | ⟨-, s₁, l, rfl, hloading, heq⟩⟩ := hs.getBlockSpan_cases hvisited
      · cases h.symm.trans heq
        refine ⟨hs.cached hall hw (hspan _) rfl, ?_, extends_resolve _ _, List.prefix_refl _⟩
        change s.machine.size < (s.machine.resolve _).size
        rw [resolve_size]
        exact Nat.lt_succ_self _
      · cases h.symm.trans heq
        obtain ⟨hasking, hworld, hfollows⟩ := hs.asking (visited_nodup hvisited) hw
        refine ⟨hasking.thenGive ?_ hloading (hspan _) rfl, ?_,
          hfollows.trans ⟨extends_andThen _ _ _, List.prefix_refl _⟩⟩
        · rw [hworld]
          exact hw.asked
        · change _ < (Machine.andThen _ _ _).size
          rw [andThen_size]
          exact Nat.lt_succ_self _

theorem Inv.update (hs : s.Inv) {chart : C} {s' : ProfileSampler C}
    (h : s.update chart = some s') : s'.Inv ∧ s.Follows s' := by
  unfold ProfileSampler.update at h
  simp only at h
  split at h
  · cases h
  · rename_i s₁ promise hcall
    cases h
    obtain ⟨hinv, hlt, hfollows⟩ := hs.getBlockSpan hcall
    have hthen := hinv.andThen hlt (h := .apply chart) fun _ h => by cases h
    refine ⟨?_, hfollows.trans ⟨extends_andThen _ _ _, List.prefix_refl _⟩⟩
    exact ⟨hthen.sound, hthen.blocks, hthen.asked, hthen.once, hthen.fetched, hthen.loads,
      hthen.answered, hthen.chained, hthen.made,
      fun c hc => (hthen.calls c hc).mono hthen.sound (.refl _) (fun _ h => h) fun _ h => h⟩

/-! ## Runs -/

theorem init_inv (blockLength : ℚ) (labels : C → String) (views : C → Window) :
    (init blockLength labels views).Inv where
  sound := sound_empty _ _
  blocks _ := .inl rfl
  asked l := iff_of_false (fun h => h rfl) fun ⟨r, hr, _⟩ => List.not_mem_nil hr
  once := List.nodup_nil
  fetched _ h := absurd h List.not_mem_nil
  loads _ _ _ h := by cases h
  answered _ h := absurd h List.not_mem_nil
  chained _ h := absurd h List.not_mem_nil
  made _ h := by cases h
  calls _ h := absurd h List.not_mem_nil

theorem Inv.setView (hs : s.Inv) (views : C → Window) : Inv { s with views := views } :=
  ⟨hs.sound, hs.blocks, hs.asked, hs.once, hs.fetched, hs.loads, hs.answered, hs.chained, hs.made,
    fun c hc => (hs.calls c hc).mono hs.sound (.refl _) (fun _ h => h) fun _ h => h⟩

theorem step_follows [DecidableEq C] (s : ProfileSampler C) (e : Event C) (s' : ProfileSampler C)
    (hs : s.Inv) (h : step s e = some s') : s'.Inv ∧ s.Follows s' := by
  cases e with
  | getBlockSpan indexMin indexMax level =>
      obtain ⟨⟨s₁, promise⟩, hcall, rfl⟩ := Option.map_eq_some_iff.1 h
      obtain ⟨hinv, -, hfollows⟩ := hs.getBlockSpan hcall
      exact ⟨hinv, hfollows⟩
  | change chart window =>
      obtain ⟨hinv, hfollows⟩ := (hs.setView _).update h
      exact ⟨hinv, hfollows.machine, hfollows.requests⟩
  | respond request samples =>
      simp only [step] at h
      split at h
      · cases h
      · rename_i r hr
        split at h
        · rename_i hlength
          refine hs.respond (List.mem_of_getElem? hr) ?_ h
          intro v hv
          cases hv
          exact ⟨samples, rfl, hlength⟩
        · cases h
  | fail request =>
      simp only [step] at h
      split at h
      · cases h
      · rename_i r hr
        exact hs.respond (List.mem_of_getElem? hr) (fun v hv => by cases hv) h
  | job =>
      simp only [step] at h
      split at h
      · cases h
      · rename_i m w hjob
        cases h
        exact ⟨hs.job hjob, extends_job hjob, List.prefix_refl _⟩

theorem step_inv [DecidableEq C] (s : ProfileSampler C) (e : Event C) (s' : ProfileSampler C)
    (hs : s.Inv) (h : step s e = some s') : s'.Inv := (step_follows s e s' hs h).1

/-- A run loses nothing. -/
theorem run_follows [DecidableEq C] (hs : s.Inv) {es : List (Event C)} {s' : ProfileSampler C}
    (hrun : run step s es = some s') : s'.Inv ∧ s.Follows s' := by
  refine run_invariant (I := fun t => t.Inv ∧ s.Follows t) ?_ es s s'
    ⟨hs, .refl _, List.prefix_refl _⟩ hrun
  rintro t e t' ⟨hinv, hfollows⟩ hstep
  obtain ⟨hinv', hfollows'⟩ := step_follows t e t' hinv hstep
  exact ⟨hinv', hfollows.trans hfollows'⟩

theorem run_inv [DecidableEq C] {blockLength : ℚ} {labels : C → String} {views : C → Window}
    {es : List (Event C)} {s : ProfileSampler C}
    (hrun : run step (init blockLength labels views) es = some s) : s.Inv :=
  run_invariant step_inv es _ s (init_inv _ _ _) hrun

/-- A call whose promise is fulfilled has all its blocks, as the server sent them. -/
theorem Inv.fulfilled (hs : s.Inv) {c : Call} (hc : c ∈ s.calls) {v : Value}
    (hv : s.machine.state c.promise = some (.fulfilled v)) :
    v = .blocks c.span ∧ ∀ b ∈ c.span, ∃ data, s.world.block b = ⟨1, some data⟩ ∧ s.Sent b data := by
  obtain ⟨hmade, hcovered⟩ := hs.calls c hc
  constructor
  · rcases hmade with ⟨-, hstate⟩ | ⟨l, ho⟩
    · cases hv.symm.trans hstate
      rfl
    · obtain ⟨u, -, heff⟩ := hs.sound.after ho hv
      exact heff
  · intro b hb
    have hloaded : s.Loaded b := by
      rcases hcovered b hb with h | ⟨r, hr, hmem, hneeds⟩
      · exact h
      · obtain ⟨v', hv'⟩ := hs.sound.needs hneeds v hv
        obtain ⟨u, hu, heff⟩ := hs.sound.after (hs.fetched r hr).2.2 hv'
        obtain ⟨samples, rfl, hlength⟩ := hs.answered r hr u hu
        obtain ⟨data, hzip⟩ := zip_exists hlength hmem
        exact congrArg SamplesBlock.loading (heff b data hzip)
    exact hs.loaded_sent hloaded

/-- The sampler gives what was asked for, and asks for nothing twice. -/
theorem getBlockSpan_safe [DecidableEq C] {blockLength : ℚ} {labels : C → String}
    {views : C → Window} {es : List (Event C)} {s : ProfileSampler C}
    (hrun : run step (init blockLength labels views) es = some s) :
    (∀ (promise : ℕ) (indexMin indexMax level : ℤ),
      ⟨promise, .finite indexMin, .finite indexMax, .finite level⟩ ∈ s.calls →
      ∀ v, s.machine.state promise = some (.fulfilled v) →
        v = .blocks (blocksFrom level indexMin (indexMax + 1 - indexMin).toNat) ∧
        ∀ b ∈ blocksFrom level indexMin (indexMax + 1 - indexMin).toNat,
          ∃ data, s.world.block b = ⟨1, some data⟩ ∧ s.Sent b data) ∧
    s.requests.Pairwise fun earlier later =>
      ∀ b, b ∈ earlier.blocks → b ∈ later.blocks →
        s.machine.state earlier.fetch = some .rejected := by
  have hs := run_inv hrun
  constructor
  · intro promise indexMin indexMax level hc v hv
    exact hs.fulfilled hc hv
  · refine (List.nodup_flatMap.1 hs.once).2.imp ?_
    intro earlier later hdisjoint b hearlier hlater
    exact absurd hlater (hdisjoint hearlier)

/-- A span of two blocks, and a call for one of them while it is on its way. -/
def sharedBlock : List (Event Unit) :=
  [.getBlockSpan 0 1 0, .getBlockSpan 1 1 0,
    .respond 0 [fun _ => some [0, 1], fun _ => some [2, 3]], .job, .job, .job]

theorem getBlockSpan_safe_two :
    ∃ s, run step (init 64 (fun _ => "time") fun _ => ⟨0, 1⟩) sharedBlock = some s ∧
      s.machine.state 3 = some (.fulfilled (.blocks [⟨1, 0⟩])) ∧
      ∀ b ∈ blocksFrom 0 1 1, ∃ data, s.world.block b = ⟨1, some data⟩ ∧ s.Sent b data := by
  have hrun : run step (init 64 (fun _ => "time") fun _ => ⟨0, 1⟩) sharedBlock = some _ := rfl
  exact ⟨_, hrun, rfl, ((getBlockSpan_safe hrun).1 3 1 1 0 (.tail _ (.head _)) _ rfl).2⟩

end ProfileSampler

end SatAllocatorTest.Ports.Monitor
