import Mathlib.Logic.Function.Basic
import Mathlib.Data.List.Nodup

/-!
# Promises and their jobs

The promises of an event loop: cells that are pending until they are settled once, with
reactions that wait for it, and one first-in first-out queue of jobs.  When a promise
settles, its reactions go to the end of the queue in the order they were registered; a
reaction registered with a settled promise goes there at once.  A job runs one reaction:
the handler of a `then`, whose result settles the promise `then` returned, or the
bookkeeping of a `Promise.all` over two promises.

`H` names the handlers, `V` the values, and `W` is the world handlers read and write;
`exec` is what they do and `pair` the value a `Promise.all` is fulfilled with.  Handlers
do not throw.

`Sound` relates every cell, reaction and job to the way its promise was made, and every
operation keeps it.  Its use: a fulfilled promise had all that it `Needs` fulfilled
(`Sound.needs`), and a handler whose promise is fulfilled has had its `Effect`
(`Sound.after`).
-/

namespace SatAllocatorTest.Verified.Promises

/-- What a settled promise holds. -/
inductive Outcome (V : Type)
  | fulfilled (v : V)
  | rejected
  deriving DecidableEq

/-- How a promise was made: it is settled from outside, was resolved at once, is what
`p.then(h)` returned, or is `Promise.all([p, q])`. -/
inductive Origin (H : Type)
  | outside
  | resolved
  | after (p : ℕ) (h : H)
  | both (p q : ℕ)

/-- A promise made this way waits for `p`. -/
inductive Origin.Uses {H : Type} : Origin H → ℕ → Prop
  | after {p : ℕ} {h : H} : Uses (.after p h) p
  | left {p q : ℕ} : Uses (.both p q) p
  | right {p q : ℕ} : Uses (.both p q) q

/-- What waits for a promise. -/
inductive Reaction (H : Type)
  | run (h : H) (target : ℕ)
  | first (target : ℕ)
  | second (target : ℕ)

/-- The promise a reaction is to settle. -/
def Reaction.target {H : Type} : Reaction H → ℕ
  | .run _ t => t
  | .first t => t
  | .second t => t

/-- All promises made so far, by number, and the queue. -/
structure Machine (H V : Type) where
  size : ℕ
  origin : ℕ → Origin H
  state : ℕ → Option (Outcome V)
  reactions : ℕ → List (Reaction H)
  /-- What the two promises of a `Promise.all` were fulfilled with. -/
  first : ℕ → Option V
  second : ℕ → Option V
  queue : List (Reaction H × Outcome V)

namespace Machine

variable {H V W : Type}

def empty : Machine H V where
  size := 0
  origin _ := .outside
  state _ := none
  reactions _ := []
  first _ := none
  second _ := none
  queue := []

/-- A new pending promise; its number is the old `size`. -/
def make (m : Machine H V) (o : Origin H) : Machine H V :=
  { m with size := m.size + 1, origin := Function.update m.origin m.size o }

/-- The promise settles, unless it is settled already. -/
def settle (m : Machine H V) (t : ℕ) (o : Outcome V) : Machine H V :=
  match m.state t with
  | some _ => m
  | none =>
    { m with
      state := Function.update m.state t (some o)
      reactions := Function.update m.reactions t []
      queue := m.queue ++ (m.reactions t).map fun r => (r, o) }

/-- A reaction is registered. -/
def subscribe (m : Machine H V) (p : ℕ) (r : Reaction H) : Machine H V :=
  match m.state p with
  | some o => { m with queue := m.queue ++ [(r, o)] }
  | none => { m with reactions := Function.update m.reactions p (m.reactions p ++ [r]) }

/-- `Promise.resolve(v)`. -/
def resolve (m : Machine H V) (v : V) : Machine H V :=
  (m.make .resolved).settle m.size (.fulfilled v)

/-- `p.then(h)`. -/
def andThen (m : Machine H V) (p : ℕ) (h : H) : Machine H V :=
  (m.make (.after p h)).subscribe p (.run h m.size)

/-- `Promise.all([p, q])`. -/
def all (m : Machine H V) (p q : ℕ) : Machine H V :=
  ((m.make (.both p q)).subscribe p (.first m.size)).subscribe q (.second m.size)

/-- The value at the first place of a `Promise.all` is there. -/
def recordFirst (m : Machine H V) (t : ℕ) (v : V) : Machine H V :=
  { m with first := Function.update m.first t (some v) }

/-- The value at the second place is there. -/
def recordSecond (m : Machine H V) (t : ℕ) (v : V) : Machine H V :=
  { m with second := Function.update m.second t (some v) }

/-- A `Promise.all` is fulfilled when both values are there. -/
def join (pair : V → V → V) (m : Machine H V) (t : ℕ) : Machine H V :=
  match m.first t, m.second t with
  | some u, some v => m.settle t (.fulfilled (pair u v))
  | _, _ => m

/-- A reaction runs. -/
def react (exec : W → H → V → W × V) (pair : V → V → V) (m : Machine H V) (w : W) :
    Reaction H → Outcome V → Machine H V × W
  | .run h t, .fulfilled v => (m.settle t (.fulfilled (exec w h v).2), (exec w h v).1)
  | .first t, .fulfilled v => ((m.recordFirst t v).join pair t, w)
  | .second t, .fulfilled v => ((m.recordSecond t v).join pair t, w)
  | r, .rejected => (m.settle r.target .rejected, w)

/-- The queue is `q`. -/
def withQueue (m : Machine H V) (q : List (Reaction H × Outcome V)) : Machine H V :=
  { m with queue := q }

/-- The next job of the queue. -/
def job (exec : W → H → V → W × V) (pair : V → V → V) (m : Machine H V) (w : W) :
    Option (Machine H V × W) :=
  match m.queue with
  | [] => none
  | (r, o) :: rest => some (react exec pair (m.withQueue rest) w r o)

/-! ## Later machines -/

/-- The promises of `m` are there in `m'`, made the same way, and settled the same way
if they were settled. -/
structure Extends (m m' : Machine H V) : Prop where
  size : m.size ≤ m'.size
  origin : ∀ t, t < m.size → m'.origin t = m.origin t
  state : ∀ t o, m.state t = some o → m'.state t = some o

theorem Extends.refl (m : Machine H V) : m.Extends m :=
  ⟨Nat.le_refl _, fun _ _ => rfl, fun _ _ h => h⟩

theorem Extends.trans {m₁ m₂ m₃ : Machine H V} (h : m₁.Extends m₂) (h' : m₂.Extends m₃) :
    m₁.Extends m₃ :=
  ⟨Nat.le_trans h.size h'.size,
    fun t ht => (h'.origin t (Nat.lt_of_lt_of_le ht h.size)).trans (h.origin t ht),
    fun t o ho => h'.state t o (h.state t o ho)⟩

/-- A settled promise stays settled. -/
theorem Extends.settled {m m' : Machine H V} (h : m.Extends m') {t : ℕ} (ht : m.state t ≠ none) :
    m'.state t ≠ none := by
  obtain ⟨o, ho⟩ := Option.ne_none_iff_exists'.1 ht
  rw [h.state t o ho]
  exact Option.some_ne_none o

theorem extends_make (m : Machine H V) (o : Origin H) : m.Extends (m.make o) :=
  ⟨Nat.le_succ _, fun _ ht => Function.update_of_ne (Nat.ne_of_lt ht) _ _, fun _ _ h => h⟩

@[simp] theorem make_origin_self (m : Machine H V) (o : Origin H) :
    (m.make o).origin m.size = o := Function.update_self _ _ _

theorem make_origin_of_ne (m : Machine H V) (o : Origin H) {t : ℕ} (h : t ≠ m.size) :
    (m.make o).origin t = m.origin t := Function.update_of_ne h _ _

theorem settle_settled {m : Machine H V} {t : ℕ} {o o' : Outcome V} (h : m.state t = some o') :
    m.settle t o = m := by
  rw [settle, h]

theorem settle_pending {m : Machine H V} {t : ℕ} {o : Outcome V} (h : m.state t = none) :
    m.settle t o =
      { m with
        state := Function.update m.state t (some o)
        reactions := Function.update m.reactions t []
        queue := m.queue ++ (m.reactions t).map fun r => (r, o) } := by
  rw [settle, h]

theorem subscribe_settled {m : Machine H V} {p : ℕ} {r : Reaction H} {o : Outcome V}
    (h : m.state p = some o) : m.subscribe p r = { m with queue := m.queue ++ [(r, o)] } := by
  rw [subscribe, h]

theorem subscribe_pending {m : Machine H V} {p : ℕ} {r : Reaction H} (h : m.state p = none) :
    m.subscribe p r =
      { m with reactions := Function.update m.reactions p (m.reactions p ++ [r]) } := by
  rw [subscribe, h]

@[simp] theorem settle_size (m : Machine H V) (t : ℕ) (o : Outcome V) :
    (m.settle t o).size = m.size := by
  unfold settle
  split <;> rfl

@[simp] theorem settle_origin (m : Machine H V) (t : ℕ) (o : Outcome V) :
    (m.settle t o).origin = m.origin := by
  unfold settle
  split <;> rfl

@[simp] theorem subscribe_size (m : Machine H V) (p : ℕ) (r : Reaction H) :
    (m.subscribe p r).size = m.size := by
  unfold subscribe
  split <;> rfl

@[simp] theorem subscribe_origin (m : Machine H V) (p : ℕ) (r : Reaction H) :
    (m.subscribe p r).origin = m.origin := by
  unfold subscribe
  split <;> rfl

@[simp] theorem subscribe_state (m : Machine H V) (p : ℕ) (r : Reaction H) :
    (m.subscribe p r).state = m.state := by
  unfold subscribe
  split <;> rfl

theorem settle_state_of_ne (m : Machine H V) {t p : ℕ} (o : Outcome V) (h : p ≠ t) :
    (m.settle t o).state p = m.state p := by
  unfold settle
  split
  · rfl
  · exact Function.update_of_ne h _ _

theorem settle_state_self {m : Machine H V} {t : ℕ} {o : Outcome V} (h : m.state t = none) :
    (m.settle t o).state t = some o := by
  rw [settle_pending h]
  exact Function.update_self _ _ _

theorem extends_settle (m : Machine H V) (t : ℕ) (o : Outcome V) : m.Extends (m.settle t o) := by
  refine ⟨Nat.le_of_eq (settle_size m t o).symm, fun _ _ => by rw [settle_origin], ?_⟩
  intro p o' hp
  cases ht : m.state t with
  | some o'' => rwa [settle_settled ht]
  | none =>
      rw [settle_pending ht]
      have hne : p ≠ t := by
        rintro rfl
        rw [hp] at ht
        cases ht
      exact (Function.update_of_ne hne _ _).trans hp

theorem extends_subscribe (m : Machine H V) (p : ℕ) (r : Reaction H) :
    m.Extends (m.subscribe p r) :=
  ⟨Nat.le_of_eq (subscribe_size m p r).symm, fun _ _ => by rw [subscribe_origin],
    fun _ _ h => by rwa [subscribe_state]⟩

theorem resolve_origin (m : Machine H V) (v : V) :
    (m.resolve v).origin = Function.update m.origin m.size .resolved := settle_origin _ _ _

@[simp] theorem resolve_size (m : Machine H V) (v : V) : (m.resolve v).size = m.size + 1 :=
  settle_size _ _ _

theorem andThen_origin (m : Machine H V) (p : ℕ) (h : H) :
    (m.andThen p h).origin = Function.update m.origin m.size (.after p h) := subscribe_origin _ _ _

@[simp] theorem andThen_size (m : Machine H V) (p : ℕ) (h : H) : (m.andThen p h).size = m.size + 1 :=
  subscribe_size _ _ _

@[simp] theorem andThen_state (m : Machine H V) (p : ℕ) (h : H) : (m.andThen p h).state = m.state :=
  subscribe_state _ _ _

theorem all_origin (m : Machine H V) (p q : ℕ) :
    (m.all p q).origin = Function.update m.origin m.size (.both p q) :=
  (subscribe_origin _ _ _).trans (subscribe_origin _ _ _)

@[simp] theorem all_size (m : Machine H V) (p q : ℕ) : (m.all p q).size = m.size + 1 :=
  (subscribe_size _ _ _).trans (subscribe_size _ _ _)

@[simp] theorem all_state (m : Machine H V) (p q : ℕ) : (m.all p q).state = m.state :=
  (subscribe_state _ _ _).trans (subscribe_state _ _ _)

theorem extends_resolve (m : Machine H V) (v : V) : m.Extends (m.resolve v) :=
  (extends_make m _).trans (extends_settle _ _ _)

theorem extends_andThen (m : Machine H V) (p : ℕ) (h : H) : m.Extends (m.andThen p h) :=
  (extends_make m _).trans (extends_subscribe _ _ _)

theorem extends_all (m : Machine H V) (p q : ℕ) : m.Extends (m.all p q) :=
  (extends_make m _).trans ((extends_subscribe _ _ _).trans (extends_subscribe _ _ _))

theorem join_cases (pair : V → V → V) (m : Machine H V) (t : ℕ) :
    m.join pair t = m ∨
      ∃ u v, m.first t = some u ∧ m.second t = some v ∧
        m.join pair t = m.settle t (.fulfilled (pair u v)) := by
  unfold join
  split
  · rename_i u v hu hv
    exact .inr ⟨u, v, hu, hv, rfl⟩
  · exact .inl rfl

theorem extends_join (pair : V → V → V) (m : Machine H V) (t : ℕ) : m.Extends (m.join pair t) := by
  rcases join_cases pair m t with heq | ⟨u, v, -, -, heq⟩
  · rw [heq]
    exact .refl m
  · rw [heq]
    exact extends_settle m t _

theorem extends_react (exec : W → H → V → W × V) (pair : V → V → V) (m : Machine H V) (w : W)
    (r : Reaction H) (o : Outcome V) : m.Extends (react exec pair m w r o).1 := by
  have recorded : ∀ m' : Machine H V, m'.size = m.size → m'.origin = m.origin → m'.state = m.state →
      m.Extends m' := by
    intro m' hsize horigin hstate
    exact ⟨Nat.le_of_eq hsize.symm, fun _ _ => by rw [horigin], fun _ _ h => by rwa [hstate]⟩
  cases o with
  | rejected => cases r <;> exact extends_settle m _ _
  | fulfilled v =>
      cases r with
      | run h t => exact extends_settle m t _
      | first t => exact (recorded (m.recordFirst t v) rfl rfl rfl).trans (extends_join pair _ t)
      | second t => exact (recorded (m.recordSecond t v) rfl rfl rfl).trans (extends_join pair _ t)

/-- A reaction settles its target and no other promise. -/
theorem react_state (exec : W → H → V → W × V) (pair : V → V → V) (m : Machine H V) (w : W)
    (r : Reaction H) (o : Outcome V) {p : ℕ} (h : p ≠ r.target) :
    (react exec pair m w r o).1.state p = m.state p := by
  have joined : ∀ m' : Machine H V, m'.state = m.state →
      (m'.join pair r.target).state p = m.state p := by
    intro m' hstate
    rcases join_cases pair m' r.target with heq | ⟨u, v, -, -, heq⟩
    · rw [heq, hstate]
    · rw [heq, settle_state_of_ne m' _ h, hstate]
  cases o with
  | rejected => cases r <;> exact settle_state_of_ne m _ h
  | fulfilled v =>
      cases r with
      | run hd t => exact settle_state_of_ne m _ h
      | first t => exact joined (m.recordFirst t v) rfl
      | second t => exact joined (m.recordSecond t v) rfl

theorem react_origin (exec : W → H → V → W × V) (pair : V → V → V) (m : Machine H V) (w : W)
    (r : Reaction H) (o : Outcome V) : (react exec pair m w r o).1.origin = m.origin := by
  have joined : ∀ m' : Machine H V, m'.origin = m.origin → ∀ t,
      (m'.join pair t).origin = m.origin := by
    intro m' horigin t
    rcases join_cases pair m' t with heq | ⟨u, v, -, -, heq⟩
    · rw [heq, horigin]
    · rw [heq, settle_origin, horigin]
  cases o with
  | rejected => cases r <;> exact settle_origin m _ _
  | fulfilled v =>
      cases r with
      | run hd t => exact settle_origin m _ _
      | first t => exact joined (m.recordFirst t v) rfl t
      | second t => exact joined (m.recordSecond t v) rfl t

/-- A job takes the first reaction of the queue. -/
theorem job_eq {exec : W → H → V → W × V} {pair : V → V → V} {m m' : Machine H V} {w w' : W}
    (h : job exec pair m w = some (m', w')) :
    ∃ r o rest, m.queue = (r, o) :: rest ∧ (m', w') = react exec pair (m.withQueue rest) w r o := by
  unfold job at h
  split at h
  · cases h
  · rename_i r o rest hqueue
    exact ⟨r, o, rest, hqueue, (Option.some.inj h).symm⟩

theorem job_origin {exec : W → H → V → W × V} {pair : V → V → V} {m m' : Machine H V} {w w' : W}
    (h : job exec pair m w = some (m', w')) : m'.origin = m.origin := by
  obtain ⟨r, o, rest, -, heq⟩ := job_eq h
  rw [show m' = (react exec pair (m.withQueue rest) w r o).1 from congrArg Prod.fst heq]
  exact react_origin exec pair _ w r o

theorem extends_job {exec : W → H → V → W × V} {pair : V → V → V} {m m' : Machine H V} {w w' : W}
    (h : job exec pair m w = some (m', w')) : m.Extends m' := by
  obtain ⟨r, o, rest, -, heq⟩ := job_eq h
  have hreact := extends_react exec pair (m.withQueue rest) w r o
  rw [← heq] at hreact
  exact ⟨hreact.size, hreact.origin, hreact.state⟩

/-! ## What is on record about a promise -/

/-- The reaction was registered with `p` when its target was made. -/
inductive Watches (origin : ℕ → Origin H) : Reaction H → ℕ → Prop
  | run {h : H} {t p : ℕ} (ho : origin t = .after p h) : Watches origin (.run h t) p
  | first {t p q : ℕ} (ho : origin t = .both p q) : Watches origin (.first t) p
  | second {t p q : ℕ} (ho : origin t = .both p q) : Watches origin (.second t) q

/-- Why a promise that was made this way may have settled so. -/
def Cause (Effect : W → H → V → V → Prop) (m : Machine H V) (w : W) :
    Origin H → Outcome V → Prop
  | .outside, _ => True
  | .resolved, .fulfilled _ => True
  | .resolved, .rejected => False
  | .after p h, .fulfilled v => ∃ u, m.state p = some (.fulfilled u) ∧ Effect w h u v
  | .after p _, .rejected => m.state p = some .rejected
  | .both p q, .fulfilled _ =>
      (∃ u, m.state p = some (.fulfilled u)) ∧ ∃ u, m.state q = some (.fulfilled u)
  | .both p q, .rejected => m.state p = some .rejected ∨ m.state q = some .rejected

/-- Every cell, reaction and job is as the operations leave it. -/
structure Sound (Effect : W → H → V → V → Prop) (m : Machine H V) (w : W) : Prop where
  fresh : ∀ t, m.size ≤ t → m.origin t = .outside ∧ m.state t = none ∧ m.reactions t = []
  older : ∀ t p, (m.origin t).Uses p → p < t
  wired : ∀ p r, r ∈ m.reactions p → Watches m.origin r p
  quiet : ∀ p, m.state p ≠ none → m.reactions p = []
  queued : ∀ r o, (r, o) ∈ m.queue → ∃ p, Watches m.origin r p ∧ m.state p = some o
  first : ∀ t v, m.first t = some v → ∃ p q, m.origin t = .both p q ∧ m.state p = some (.fulfilled v)
  second : ∀ t v, m.second t = some v →
    ∃ p q, m.origin t = .both p q ∧ m.state q = some (.fulfilled v)
  caused : ∀ t o, m.state t = some o → m.Cause Effect w (m.origin t) o

/-- `t` cannot be fulfilled before `p` is. -/
inductive Needs (origin : ℕ → Origin H) : ℕ → ℕ → Prop
  | refl (t : ℕ) : Needs origin t t
  | after {t p q : ℕ} {h : H} (ho : origin t = .after q h) (hq : Needs origin q p) : Needs origin t p
  | left {t p q q' : ℕ} (ho : origin t = .both q q') (hq : Needs origin q p) : Needs origin t p
  | right {t p q q' : ℕ} (ho : origin t = .both q' q) (hq : Needs origin q p) : Needs origin t p

variable {Effect : W → H → V → V → Prop} {m m' : Machine H V} {w w' : W}

theorem Needs.trans {origin : ℕ → Origin H} {t p q : ℕ} (h : Needs origin t p)
    (h' : Needs origin p q) : Needs origin t q := by
  induction h with
  | refl t => exact h'
  | after ho _ ih => exact .after ho (ih h')
  | left ho _ ih => exact .left ho (ih h')
  | right ho _ ih => exact .right ho (ih h')

/-- What a fulfilled promise needs is fulfilled. -/
theorem Sound.needs (hs : Sound Effect m w) {t p : ℕ} (hneeds : Needs m.origin t p) :
    ∀ v, m.state t = some (.fulfilled v) → ∃ u, m.state p = some (.fulfilled u) := by
  induction hneeds with
  | refl t => exact fun v hv => ⟨v, hv⟩
  | @after t p q h ho _ ih =>
      intro v hv
      have hcause := hs.caused t _ hv
      rw [ho] at hcause
      obtain ⟨u, hu, -⟩ := hcause
      exact ih u hu
  | @left t p q q' ho _ ih =>
      intro v hv
      have hcause := hs.caused t _ hv
      rw [ho] at hcause
      obtain ⟨⟨u, hu⟩, -⟩ := hcause
      exact ih u hu
  | @right t p q q' ho _ ih =>
      intro v hv
      have hcause := hs.caused t _ hv
      rw [ho] at hcause
      obtain ⟨-, u, hu⟩ := hcause
      exact ih u hu

/-- A handler whose promise is fulfilled has had its effect. -/
theorem Sound.after (hs : Sound Effect m w) {t p : ℕ} {h : H} {v : V} (ho : m.origin t = .after p h)
    (hv : m.state t = some (.fulfilled v)) : ∃ u, m.state p = some (.fulfilled u) ∧ Effect w h u v := by
  have hcause := hs.caused t _ hv
  rw [ho] at hcause
  exact hcause

/-- A promise that is anything but fresh was made. -/
theorem Sound.lt_size (hs : Sound Effect m w) {t : ℕ}
    (h : m.origin t ≠ .outside ∨ m.state t ≠ none ∨ m.reactions t ≠ []) : t < m.size := by
  by_contra hge
  obtain ⟨ho, hst, hr⟩ := hs.fresh t (Nat.not_lt.1 hge)
  rcases h with h | h | h
  · exact h ho
  · exact h hst
  · exact h hr

theorem Sound.made (hs : Sound Effect m w) {t p : ℕ} (h : (m.origin t).Uses p) : t < m.size := by
  refine hs.lt_size (.inl fun ho => ?_)
  rw [ho] at h
  cases h

theorem Watches.uses {r : Reaction H} {p : ℕ} (h : Watches m.origin r p) :
    (m.origin r.target).Uses p := by
  cases h with
  | @run h t p ho =>
      change (m.origin t).Uses p
      rw [ho]
      exact .after
  | @first t _ q ho =>
      change (m.origin t).Uses p
      rw [ho]
      exact .left
  | @second t q _ ho =>
      change (m.origin t).Uses p
      rw [ho]
      exact .right

/-- What was registered stays on record. -/
theorem Watches.extends (hs : Sound Effect m w) (hext : m.Extends m') {r : Reaction H} {p : ℕ}
    (h : Watches m.origin r p) : Watches m'.origin r p := by
  have hlt := hs.made h.uses
  cases h with
  | run ho => exact .run ((hext.origin _ hlt).trans ho)
  | first ho => exact .first ((hext.origin _ hlt).trans ho)
  | second ho => exact .second ((hext.origin _ hlt).trans ho)

theorem Needs.extends (hs : Sound Effect m w) (hext : m.Extends m') {t p : ℕ} (h : Needs m.origin t p) :
    Needs m'.origin t p := by
  have keep : ∀ {t q : ℕ} {o : Origin H}, m.origin t = o → o.Uses q → m'.origin t = o :=
    fun ho huses => (hext.origin _ (hs.made (ho ▸ huses))).trans ho
  induction h with
  | refl t => exact .refl t
  | after ho _ ih => exact .after (keep ho .after) ih
  | left ho _ ih => exact .left (keep ho .left) ih
  | right ho _ ih => exact .right (keep ho .right) ih

/-- A cause stays one. -/
theorem Cause.extends (hext : m.Extends m') {origin : Origin H} {o : Outcome V}
    (h : m.Cause Effect w origin o) : m'.Cause Effect w origin o := by
  cases origin with
  | outside => trivial
  | resolved =>
      cases o with
      | fulfilled v => trivial
      | rejected => exact h
  | after p hd =>
      cases o with
      | fulfilled v =>
          obtain ⟨u, hu, heff⟩ := h
          exact ⟨u, hext.state p _ hu, heff⟩
      | rejected => exact hext.state p _ h
  | both p q =>
      cases o with
      | fulfilled v =>
          obtain ⟨⟨u, hu⟩, u', hu'⟩ := h
          exact ⟨⟨u, hext.state p _ hu⟩, u', hext.state q _ hu'⟩
      | rejected => exact Or.imp (hext.state p _) (hext.state q _) h

/-! ## The operations keep the machine sound -/

theorem sound_empty (Effect : W → H → V → V → Prop) (w : W) :
    Sound Effect (empty : Machine H V) w where
  fresh _ _ := ⟨rfl, rfl, rfl⟩
  older t p h := by cases h
  wired _ _ h := absurd h List.not_mem_nil
  quiet _ _ := rfl
  queued _ _ h := absurd h List.not_mem_nil
  first _ _ h := by cases h
  second _ _ h := by cases h
  caused _ _ h := by cases h

/-- What handlers did lasts, as far as it is on record. -/
def Lasting (Effect : W → H → V → V → Prop) (m : Machine H V) (w w' : W) : Prop :=
  ∀ t p h u v, m.origin t = .after p h → m.state p = some (.fulfilled u) →
    m.state t = some (.fulfilled v) → Effect w h u v → Effect w' h u v

/-- The world may change, as long as what handlers did lasts. -/
theorem Sound.world (hs : Sound Effect m w) (hlasts : Lasting Effect m w w') :
    Sound Effect m w' := by
  refine { hs with caused := fun t o ho => ?_ }
  have hcause := hs.caused t o ho
  cases horigin : m.origin t with
  | outside => trivial
  | resolved =>
      rw [horigin] at hcause
      cases o with
      | fulfilled v => trivial
      | rejected => exact hcause
  | after p h =>
      rw [horigin] at hcause
      cases o with
      | fulfilled v =>
          obtain ⟨u, hu, heff⟩ := hcause
          exact ⟨u, hu, hlasts t p h u v horigin hu ho heff⟩
      | rejected => exact hcause
  | both p q =>
      rw [horigin] at hcause
      cases o with
      | fulfilled v => exact hcause
      | rejected => exact hcause

theorem Sound.make (hs : Sound Effect m w) {o : Origin H} (huses : ∀ p, o.Uses p → p < m.size) :
    Sound Effect (m.make o) w := by
  have hext := extends_make m o
  have kept : ∀ {t p q}, m.origin t = .both p q → (m.make o).origin t = .both p q := by
    intro t p q ho
    have huses : (m.origin t).Uses p := ho ▸ .left
    exact (hext.origin t (hs.made huses)).trans ho
  constructor
  · intro t ht
    obtain ⟨ho, hrest⟩ := hs.fresh t (Nat.le_of_succ_le ht)
    exact ⟨(Function.update_of_ne (Nat.ne_of_gt ht) _ _).trans ho, hrest⟩
  · intro t p h
    by_cases ht : t = m.size
    · subst ht
      rw [make_origin_self] at h
      exact huses p h
    · rw [make_origin_of_ne m o ht] at h
      exact hs.older t p h
  · exact fun p r hr => (hs.wired p r hr).extends hs hext
  · exact hs.quiet
  · intro r o' hr
    obtain ⟨p, hw, hp⟩ := hs.queued r o' hr
    exact ⟨p, hw.extends hs hext, hp⟩
  · intro t v hv
    obtain ⟨p, q, ho, hp⟩ := hs.first t v hv
    exact ⟨p, q, kept ho, hp⟩
  · intro t v hv
    obtain ⟨p, q, ho, hq⟩ := hs.second t v hv
    exact ⟨p, q, kept ho, hq⟩
  · intro t o' ho'
    have hlt : t < m.size := hs.lt_size (.inr (.inl (ho' ▸ Option.some_ne_none o')))
    rw [hext.origin t hlt]
    exact (hs.caused t o' ho').extends hext

theorem Sound.settle (hs : Sound Effect m w) {t : ℕ} {o : Outcome V} (ht : t < m.size)
    (hcause : m.Cause Effect w (m.origin t) o) : Sound Effect (m.settle t o) w := by
  have hext := extends_settle m t o
  cases hstate : m.state t with
  | some o' =>
      rw [settle_settled hstate]
      exact hs
  | none =>
      rw [settle_pending hstate] at hext ⊢
      constructor
      · intro t' ht'
        have hne : t' ≠ t := Nat.ne_of_gt (Nat.lt_of_lt_of_le ht ht')
        obtain ⟨ho, hst, hr⟩ := hs.fresh t' ht'
        exact ⟨ho, (Function.update_of_ne hne _ _).trans hst,
          (Function.update_of_ne hne _ _).trans hr⟩
      · exact hs.older
      · intro p r hr
        by_cases hp : p = t
        · subst hp
          simp only [Function.update_self] at hr
          exact absurd hr List.not_mem_nil
        · simp only [Function.update_of_ne hp] at hr
          exact (hs.wired p r hr).extends hs hext
      · intro p hp
        by_cases hpt : p = t
        · subst hpt
          exact Function.update_self _ _ _
        · simp only [Function.update_of_ne hpt] at hp ⊢
          exact hs.quiet p hp
      · intro r o' hr
        rcases List.mem_append.1 hr with hr | hr
        · obtain ⟨p, hw, hp⟩ := hs.queued r o' hr
          exact ⟨p, hw.extends hs hext, hext.state p o' hp⟩
        · obtain ⟨r', hr', heq⟩ := List.mem_map.1 hr
          cases heq
          exact ⟨t, (hs.wired t r hr').extends hs hext, Function.update_self _ _ _⟩
      · intro t' v hv
        obtain ⟨p, q, ho, hp⟩ := hs.first t' v hv
        exact ⟨p, q, ho, hext.state p _ hp⟩
      · intro t' v hv
        obtain ⟨p, q, ho, hq⟩ := hs.second t' v hv
        exact ⟨p, q, ho, hext.state q _ hq⟩
      · intro t' o' ho'
        by_cases ht' : t' = t
        · subst ht'
          simp only [Function.update_self] at ho'
          cases ho'
          exact hcause.extends hext
        · simp only [Function.update_of_ne ht'] at ho'
          exact (hs.caused t' o' ho').extends hext

theorem Sound.subscribe (hs : Sound Effect m w) {p : ℕ} {r : Reaction H} (hw : Watches m.origin r p) :
    Sound Effect (m.subscribe p r) w := by
  cases hstate : m.state p with
  | some o =>
      rw [subscribe_settled hstate]
      refine { hs with queued := fun r' o' hr' => ?_ }
      rcases List.mem_append.1 hr' with hr' | hr'
      · exact hs.queued r' o' hr'
      · cases List.mem_singleton.1 hr'
        exact ⟨p, hw, hstate⟩
  | none =>
      rw [subscribe_pending hstate]
      have hlt : p < m.size := Nat.lt_trans (hs.older _ p hw.uses) (hs.made hw.uses)
      refine { hs with fresh := fun t ht => ?_, wired := fun q r' hr' => ?_, quiet := fun q hq => ?_ }
      · have hne : t ≠ p := Nat.ne_of_gt (Nat.lt_of_lt_of_le hlt ht)
        obtain ⟨ho, hst, hr⟩ := hs.fresh t ht
        exact ⟨ho, hst, (Function.update_of_ne hne _ _).trans hr⟩
      · by_cases hq : q = p
        · subst hq
          simp only [Function.update_self] at hr'
          rcases List.mem_append.1 hr' with hr' | hr'
          · exact hs.wired q r' hr'
          · cases List.mem_singleton.1 hr'
            exact hw
        · simp only [Function.update_of_ne hq] at hr'
          exact hs.wired q r' hr'
      · have hne : q ≠ p := by
          rintro rfl
          exact hq hstate
        simp only [Function.update_of_ne hne]
        exact hs.quiet q hq

theorem Sound.withQueue (hs : Sound Effect m w) {q : List (Reaction H × Outcome V)}
    (hq : ∀ x ∈ q, x ∈ m.queue) : Sound Effect (m.withQueue q) w :=
  { hs with queued := fun r o hr => hs.queued r o (hq _ hr) }

theorem Sound.recordFirst (hs : Sound Effect m w) {t p q : ℕ} {v : V} (ho : m.origin t = .both p q)
    (hp : m.state p = some (.fulfilled v)) : Sound Effect (m.recordFirst t v) w := by
  refine { hs with first := fun t' v' hv' => ?_ }
  by_cases ht : t' = t
  · subst ht
    simp only [Machine.recordFirst, Function.update_self] at hv'
    cases hv'
    exact ⟨p, q, ho, hp⟩
  · simp only [Machine.recordFirst, Function.update_of_ne ht] at hv'
    exact hs.first t' v' hv'

theorem Sound.recordSecond (hs : Sound Effect m w) {t p q : ℕ} {v : V} (ho : m.origin t = .both p q)
    (hq : m.state q = some (.fulfilled v)) : Sound Effect (m.recordSecond t v) w := by
  refine { hs with second := fun t' v' hv' => ?_ }
  by_cases ht : t' = t
  · subst ht
    simp only [Machine.recordSecond, Function.update_self] at hv'
    cases hv'
    exact ⟨p, q, ho, hq⟩
  · simp only [Machine.recordSecond, Function.update_of_ne ht] at hv'
    exact hs.second t' v' hv'

theorem Sound.resolve (hs : Sound Effect m w) (v : V) : Sound Effect (m.resolve v) w := by
  have hmade : Sound Effect (m.make .resolved) w := hs.make fun p h => by cases h
  refine hmade.settle (Nat.lt_succ_self _) ?_
  rw [make_origin_self]
  trivial

theorem Sound.andThen (hs : Sound Effect m w) {p : ℕ} (hp : p < m.size) (h : H) :
    Sound Effect (m.andThen p h) w := by
  have hmade : Sound Effect (m.make (.after p h)) w := by
    refine hs.make fun q hq => ?_
    cases hq
    exact hp
  exact hmade.subscribe (.run (make_origin_self m _))

theorem Sound.all (hs : Sound Effect m w) {p q : ℕ} (hp : p < m.size) (hq : q < m.size) :
    Sound Effect (m.all p q) w := by
  have horigin : (m.make (.both p q)).origin m.size = .both p q :=
    make_origin_self m _
  have hmade : Sound Effect (m.make (.both p q)) w := by
    refine hs.make fun t ht => ?_
    cases ht with
    | left => exact hp
    | right => exact hq
  have hfirst := hmade.subscribe (.first horigin)
  exact hfirst.subscribe (.second (by rw [subscribe_origin, horigin]))

theorem Sound.join (hs : Sound Effect m w) (pair : V → V → V) (t : ℕ) :
    Sound Effect (m.join pair t) w := by
  rcases join_cases pair m t with heq | ⟨u, v, hu, hv, heq⟩
  · rw [heq]
    exact hs
  · obtain ⟨p, q, ho, hp⟩ := hs.first t u hu
    obtain ⟨p', q', ho', hq⟩ := hs.second t v hv
    cases ho.symm.trans ho'
    rw [heq]
    have huses : (m.origin t).Uses p := ho ▸ .left
    refine hs.settle (hs.made huses) ?_
    rw [ho]
    exact ⟨⟨u, hp⟩, v, hq⟩

/-- A job keeps the machine sound, when the handler it runs has its effect and spoils
none on record. -/
theorem Sound.job {exec : W → H → V → W × V} {pair : V → V → V} (hs : Sound Effect m w)
    (hjob : m.job exec pair w = some (m', w'))
    (hexec : ∀ h t p v, m.origin t = .after p h → m.state p = some (.fulfilled v) →
      Effect (exec w h v).1 h v (exec w h v).2 ∧ Lasting Effect m w (exec w h v).1) :
    Sound Effect m' w' := by
  obtain ⟨r, o, rest, hqueue, heq⟩ := job_eq hjob
  have hpop : Sound Effect (m.withQueue rest) w := by
    refine hs.withQueue fun x hx => ?_
    rw [hqueue]
    exact List.mem_cons_of_mem _ hx
  obtain ⟨p, hw, hp⟩ := hs.queued r o (hqueue ▸ List.mem_cons_self)
  have hmade := hs.made hw.uses
  cases o with
  | rejected =>
      have hkeep : (m', w') = ((m.withQueue rest).settle r.target .rejected, w) := by
        rw [heq]
        cases r <;> rfl
      cases hkeep
      refine hpop.settle hmade ?_
      cases hw with
      | @run h t p ho =>
          change Cause Effect (m.withQueue rest) w (m.origin t) .rejected
          rw [ho]
          exact hp
      | @first t p q ho =>
          change Cause Effect (m.withQueue rest) w (m.origin t) .rejected
          rw [ho]
          exact .inl hp
      | @second t p q ho =>
          change Cause Effect (m.withQueue rest) w (m.origin t) .rejected
          rw [ho]
          exact .inr hp
  | fulfilled v =>
      cases hw with
      | @run h t p ho =>
          cases heq
          obtain ⟨heff, hlasts⟩ := hexec h t p v ho hp
          refine (hpop.world hlasts).settle hmade ?_
          change Cause Effect (m.withQueue rest) _ (m.origin t) _
          rw [ho]
          exact ⟨v, hp, heff⟩
      | first ho =>
          cases heq
          exact (hpop.recordFirst ho hp).join pair _
      | second ho =>
          cases heq
          exact (hpop.recordSecond ho hp).join pair _

/-- No job settles a promise that is settled from outside. -/
theorem Sound.job_outside {exec : W → H → V → W × V} {pair : V → V → V} (hs : Sound Effect m w)
    (hjob : m.job exec pair w = some (m', w')) {t : ℕ} (ho : m.origin t = .outside) :
    m'.state t = m.state t := by
  obtain ⟨r, o, rest, hqueue, heq⟩ := job_eq hjob
  obtain ⟨p, hw, -⟩ := hs.queued r o (hqueue ▸ List.mem_cons_self)
  have hne : t ≠ r.target := by
    rintro rfl
    have huses := hw.uses
    rw [ho] at huses
    cases huses
  rw [show m' = (react exec pair (m.withQueue rest) w r o).1 from congrArg Prod.fst heq]
  exact react_state exec pair _ w r o hne

end Machine

end SatAllocatorTest.Verified.Promises
