import Mathlib

/-!
# Tilings with an index of their boundaries

Pieces `piece i = some (a, n)` are runs of positions `a, …, a + n - 1`, no two of which
overlap.  An index names, for a position, a piece; only its entries at the first and the
last position of a piece are kept right (`Tiled`), and it is empty outside all pieces.
Entries inside a piece may be stale.

This is enough to find the neighbours of a piece in one lookup each (`Tiled.left`,
`Tiled.right`).  Splitting a piece, joining it with a neighbour and adding a new one
need one to three writes to the index (`Tiled.split`, `Tiled.joinLeft`,
`Tiled.joinRight`, `Tiled.add`).
-/

namespace SatAllocatorTest.Verified.Tilings

variable {ι : Type}

/-- Some piece contains position `p`. -/
def Covered (piece : ι → Option (Nat × Nat)) (p : Nat) : Prop :=
  ∃ i a n, piece i = some (a, n) ∧ a ≤ p ∧ p < a + n

/-- The pieces do not overlap and the index is right at their boundaries. -/
structure Tiled (piece : ι → Option (Nat × Nat)) (index : Nat → Option ι) : Prop where
  pos : ∀ {i a n}, piece i = some (a, n) → 0 < n
  apart : ∀ {i j a n b m p}, piece i = some (a, n) → piece j = some (b, m) →
    a ≤ p → p < a + n → b ≤ p → p < b + m → i = j
  first : ∀ {i a n}, piece i = some (a, n) → index a = some i
  last : ∀ {i a n}, piece i = some (a, n) → index (a + n - 1) = some i
  outside : ∀ {p k}, index p = some k → Covered piece p

/-- Piece `j` begins where piece `i` ends. -/
def Adjacent (piece : ι → Option (Nat × Nat)) (i j : ι) : Prop :=
  ∃ a n m, piece i = some (a, n) ∧ piece j = some (a + n, m)

variable {piece piece' : ι → Option (Nat × Nat)} {index index' : Nat → Option ι}
variable {i j : ι} {a n b m k : Nat}

theorem covered_of_piece (h : piece i = some (a, n)) {p : Nat} (hlo : a ≤ p) (hhi : p < a + n) :
    Covered piece p :=
  ⟨i, a, n, h, hlo, hhi⟩

/-- An id has one piece. -/
theorem piece_inj (h : piece i = some (a, n)) (h' : piece i = some (b, m)) : a = b ∧ n = m := by
  rw [h] at h'
  injection h' with h'
  injection h' with ha hn
  exact ⟨ha, hn⟩

/-- Another piece than `i` has no position of `i`. -/
theorem Tiled.off (T : Tiled piece index) (hi : piece i = some (a, n))
    (hj : piece j = some (b, m)) (hji : j ≠ i) {p : Nat} (hlo : b ≤ p) (hhi : p < b + m) :
    p < a ∨ a + n ≤ p := by
  by_contra hin
  exact hji (T.apart hj hi hlo hhi (by omega) (by omega))

/-- The piece that owns a position is the only one. -/
theorem Tiled.owner_unique (T : Tiled piece index) {p : Nat}
    (hi : piece i = some (a, n)) (hj : piece j = some (b, m))
    (hip : a ≤ p ∧ p < a + n) (hjp : b ≤ p ∧ p < b + m) : i = j ∧ a = b ∧ n = m := by
  have hij : i = j := T.apart hi hj hip.1 hip.2 hjp.1 hjp.2
  subst hij
  exact ⟨rfl, piece_inj hi hj⟩

/-- The piece before a piece, if the position before it is covered, is what the index
says there. -/
theorem Tiled.left (T : Tiled piece index) (hi : piece i = some (a, n)) (ha : 0 < a)
    (hk : index (a - 1) = some j) :
    ∃ b m, piece j = some (b, m) ∧ b + m = a ∧ j ≠ i := by
  obtain ⟨l, b, m, hl, hlo, hhi⟩ := T.outside hk
  have hn := T.pos hi
  have hend : b + m = a := by
    by_contra hne
    have hover := T.owner_unique hl hi (p := a) ⟨by omega, by omega⟩ ⟨by omega, by omega⟩
    omega
  have hlast := T.last hl
  rw [hend, hk] at hlast
  injection hlast with hlj
  subst hlj
  refine ⟨b, m, hl, hend, ?_⟩
  intro hji
  subst hji
  have hsame := piece_inj hl hi
  omega

/-- The piece after a piece likewise. -/
theorem Tiled.right (T : Tiled piece index) (hi : piece i = some (a, n))
    (hk : index (a + n) = some j) : ∃ m, piece j = some (a + n, m) ∧ j ≠ i := by
  obtain ⟨l, b, m, hl, hlo, hhi⟩ := T.outside hk
  have hn := T.pos hi
  have hbegin : b = a + n := by
    by_contra hne
    have hover := T.owner_unique hl hi (p := a + n - 1) ⟨by omega, by omega⟩
      ⟨by omega, by omega⟩
    omega
  subst hbegin
  have hfirst := T.first hl
  rw [hk] at hfirst
  injection hfirst with hlj
  subst hlj
  refine ⟨m, hl, ?_⟩
  intro hji
  subst hji
  have hsame := piece_inj hl hi
  omega

/-- A neighbour on the left is found by the index. -/
theorem Tiled.index_left (T : Tiled piece index) (hj : piece j = some (b, m))
    (hend : b + m = a) : index (a - 1) = some j := by
  rw [← hend]
  exact T.last hj

/-! ## The three edits -/

/-- Cutting piece `i` after `k` positions, the rest becoming piece `j`. -/
theorem Tiled.split (T : Tiled piece index) (hi : piece i = some (a, n)) (hj : piece j = none)
    (hk : 0 < k) (hkn : k < n)
    (hi' : piece' i = some (a, k)) (hj' : piece' j = some (a + k, n - k))
    (hother : ∀ l, l ≠ i → l ≠ j → piece' l = piece l)
    (hend : index' (a + k - 1) = some i) (hbegin : index' (a + k) = some j)
    (hlast : index' (a + n - 1) = some j)
    (hsame : ∀ p, p ≠ a + k - 1 → p ≠ a + k → p ≠ a + n - 1 → index' p = index p) :
    Tiled piece' index' := by
  have hij : i ≠ j := by
    intro hij
    subst hij
    rw [hi] at hj
    cases hj
  -- a piece of the new tiling is one of the halves or an old piece other than `i`
  have hcases : ∀ {l b m}, piece' l = some (b, m) →
      (l = i ∧ b = a ∧ m = k) ∨ (l = j ∧ b = a + k ∧ m = n - k) ∨
        (l ≠ i ∧ l ≠ j ∧ piece l = some (b, m)) := by
    intro l b m hl
    by_cases hli : l = i
    · subst hli
      exact Or.inl ⟨rfl, piece_inj hl hi'⟩
    · by_cases hlj : l = j
      · subst hlj
        exact Or.inr (Or.inl ⟨rfl, piece_inj hl hj'⟩)
      · rw [hother l hli hlj] at hl
        exact Or.inr (Or.inr ⟨hli, hlj, hl⟩)
  constructor
  · intro l b m hl
    have h := hcases hl
    rcases h with ⟨-, -, rfl⟩ | ⟨-, -, rfl⟩ | ⟨-, -, hl⟩
    · exact hk
    · omega
    · exact T.pos hl
  · intro l l' b m b' m' p hl hl' h1 h2 h3 h4
    rcases hcases hl with ⟨rfl, rfl, rfl⟩ | ⟨rfl, rfl, rfl⟩ | ⟨hli, hlj, hl⟩
    · rcases hcases hl' with ⟨rfl, -, -⟩ | ⟨-, rfl, rfl⟩ | ⟨hli', -, hl'⟩
      · rfl
      · omega
      · have hp := T.off hi hl' hli' h3 h4
        omega
    · rcases hcases hl' with ⟨-, rfl, rfl⟩ | ⟨rfl, -, -⟩ | ⟨hli', -, hl'⟩
      · omega
      · rfl
      · have hp := T.off hi hl' hli' h3 h4
        omega
    · have hp := T.off hi hl hli h1 h2
      rcases hcases hl' with ⟨-, rfl, rfl⟩ | ⟨-, rfl, rfl⟩ | ⟨-, -, hl'⟩
      · omega
      · omega
      · exact T.apart hl hl' h1 h2 h3 h4
  · intro l b m hl
    rcases hcases hl with ⟨rfl, rfl, rfl⟩ | ⟨rfl, rfl, rfl⟩ | ⟨hli, -, hl⟩
    · by_cases hm : m = 1
      · rw [show b = b + m - 1 by omega]
        exact hend
      · rw [hsame b (by omega) (by omega) (by omega)]
        exact T.first hi
    · exact hbegin
    · have hm := T.pos hl
      have hb := T.off hi hl hli (Nat.le_refl b) (by omega)
      rw [hsame b (by omega) (by omega) (by omega)]
      exact T.first hl
  · intro l b m hl
    rcases hcases hl with ⟨rfl, rfl, rfl⟩ | ⟨rfl, rfl, rfl⟩ | ⟨hli, -, hl⟩
    · exact hend
    · rw [show a + k + (n - k) - 1 = a + n - 1 by omega]
      exact hlast
    · have hm := T.pos hl
      have hb : b + m - 1 < a ∨ a + n ≤ b + m - 1 := T.off hi hl hli (by omega) (by omega)
      rw [hsame (b + m - 1) (by omega) (by omega) (by omega)]
      exact T.last hl
  · intro p q hp
    by_cases hin : a ≤ p ∧ p < a + n
    · by_cases hpk : p < a + k
      · exact ⟨i, a, k, hi', hin.1, hpk⟩
      · exact ⟨j, a + k, n - k, hj', by omega, by omega⟩
    · rw [hsame p (by omega) (by omega) (by omega)] at hp
      obtain ⟨l, b, m, hl, hlo, hhi⟩ := T.outside hp
      have hli : l ≠ i := by
        intro hli
        subst hli
        have hsame' := piece_inj hl hi
        omega
      have hlj : l ≠ j := by
        intro hlj
        rw [hlj, hj] at hl
        cases hl
      exact ⟨l, b, m, by rw [hother l hli hlj]; exact hl, hlo, hhi⟩

/-- Joining piece `j` to its neighbour `i`: the piece `(c, l)` has the positions of both. -/
theorem Tiled.join {c l : Nat} (T : Tiled piece index) (hi : piece i = some (a, n))
    (hj : piece j = some (b, m)) (hij : j ≠ i)
    (hboth : ∀ p, (c ≤ p ∧ p < c + l) ↔ (a ≤ p ∧ p < a + n) ∨ (b ≤ p ∧ p < b + m))
    (hi' : piece' i = some (c, l)) (hj' : piece' j = none)
    (hother : ∀ q, q ≠ i → q ≠ j → piece' q = piece q)
    (hbegin : index' c = some i) (hend : index' (c + l - 1) = some i)
    (hsame : ∀ p, p ≠ c → p ≠ c + l - 1 → index' p = index p) :
    Tiled piece' index' := by
  have hcases : ∀ {q d k}, piece' q = some (d, k) →
      (q = i ∧ d = c ∧ k = l) ∨ (q ≠ i ∧ q ≠ j ∧ piece q = some (d, k)) := by
    intro q d k hq
    by_cases hqi : q = i
    · subst hqi
      exact Or.inl ⟨rfl, piece_inj hq hi'⟩
    · by_cases hqj : q = j
      · subst hqj
        rw [hj'] at hq
        cases hq
      · rw [hother q hqi hqj] at hq
        exact Or.inr ⟨hqi, hqj, hq⟩
  -- another piece has no position of the joined one
  have hoff : ∀ {q d k p}, q ≠ i → q ≠ j → piece q = some (d, k) → d ≤ p → p < d + k →
      ¬ (c ≤ p ∧ p < c + l) := by
    intro q d k p hqi hqj hq hlo hhi hin
    rcases (hboth p).1 hin with hin | hin
    · have := T.off hi hq hqi hlo hhi
      omega
    · have := T.off hj hq hqj hlo hhi
      omega
  have hn := T.pos hi
  have ha := (hboth a).2 (Or.inl ⟨Nat.le_refl a, by omega⟩)
  constructor
  · intro q d k hq
    rcases hcases hq with ⟨-, -, rfl⟩ | ⟨-, -, hq⟩
    · omega
    · exact T.pos hq
  · intro q q' d k d' k' p hq hq' h1 h2 h3 h4
    rcases hcases hq with ⟨rfl, rfl, rfl⟩ | ⟨hqi, hqj, hq⟩
    · rcases hcases hq' with ⟨rfl, -, -⟩ | ⟨hqi', hqj', hq'⟩
      · rfl
      · exact absurd ⟨h1, h2⟩ (hoff hqi' hqj' hq' h3 h4)
    · rcases hcases hq' with ⟨rfl, rfl, rfl⟩ | ⟨-, -, hq'⟩
      · exact absurd ⟨h3, h4⟩ (hoff hqi hqj hq h1 h2)
      · exact T.apart hq hq' h1 h2 h3 h4
  · intro q d k hq
    rcases hcases hq with ⟨rfl, rfl, rfl⟩ | ⟨hqi, hqj, hq⟩
    · exact hbegin
    · have hk := T.pos hq
      have hd := hoff hqi hqj hq (Nat.le_refl d) (by omega)
      rw [hsame d (by omega) (by omega)]
      exact T.first hq
  · intro q d k hq
    rcases hcases hq with ⟨rfl, rfl, rfl⟩ | ⟨hqi, hqj, hq⟩
    · exact hend
    · have hk := T.pos hq
      have hd := hoff (p := d + k - 1) hqi hqj hq (by omega) (by omega)
      rw [hsame (d + k - 1) (by omega) (by omega)]
      exact T.last hq
  · intro p q hp
    by_cases hin : c ≤ p ∧ p < c + l
    · exact ⟨i, c, l, hi', hin⟩
    · rw [hsame p (by omega) (by omega)] at hp
      obtain ⟨r, d, k, hr, hlo, hhi⟩ := T.outside hp
      have hri : r ≠ i := by
        intro hri
        subst hri
        have hsame' := piece_inj hr hi
        exact hin ((hboth p).2 (Or.inl ⟨by omega, by omega⟩))
      have hrj : r ≠ j := by
        intro hrj
        subst hrj
        have hsame' := piece_inj hr hj
        exact hin ((hboth p).2 (Or.inr ⟨by omega, by omega⟩))
      exact ⟨r, d, k, by rw [hother r hri hrj]; exact hr, hlo, hhi⟩

/-- Adding a piece where none was. -/
theorem Tiled.add (T : Tiled piece index) (hi : piece i = none) (hn : 0 < n)
    (hfree : ∀ p, a ≤ p → p < a + n → ¬ Covered piece p)
    (hi' : piece' i = some (a, n)) (hother : ∀ q, q ≠ i → piece' q = piece q)
    (hbegin : index' a = some i) (hend : index' (a + n - 1) = some i)
    (hsame : ∀ p, p ≠ a → p ≠ a + n - 1 → index' p = index p) :
    Tiled piece' index' := by
  have hcases : ∀ {q d k}, piece' q = some (d, k) →
      (q = i ∧ d = a ∧ k = n) ∨ (q ≠ i ∧ piece q = some (d, k)) := by
    intro q d k hq
    by_cases hqi : q = i
    · subst hqi
      exact Or.inl ⟨rfl, piece_inj hq hi'⟩
    · rw [hother q hqi] at hq
      exact Or.inr ⟨hqi, hq⟩
  have hoff : ∀ {q d k p}, piece q = some (d, k) → d ≤ p → p < d + k → ¬ (a ≤ p ∧ p < a + n) :=
    fun hq hlo hhi hin => hfree _ hin.1 hin.2 (covered_of_piece hq hlo hhi)
  constructor
  · intro q d k hq
    rcases hcases hq with ⟨-, -, rfl⟩ | ⟨-, hq⟩
    · exact hn
    · exact T.pos hq
  · intro q q' d k d' k' p hq hq' h1 h2 h3 h4
    rcases hcases hq with ⟨rfl, rfl, rfl⟩ | ⟨-, hq⟩
    · rcases hcases hq' with ⟨rfl, -, -⟩ | ⟨-, hq'⟩
      · rfl
      · exact absurd ⟨h1, h2⟩ (hoff hq' h3 h4)
    · rcases hcases hq' with ⟨rfl, rfl, rfl⟩ | ⟨-, hq'⟩
      · exact absurd ⟨h3, h4⟩ (hoff hq h1 h2)
      · exact T.apart hq hq' h1 h2 h3 h4
  · intro q d k hq
    rcases hcases hq with ⟨rfl, rfl, rfl⟩ | ⟨-, hq⟩
    · exact hbegin
    · have hk := T.pos hq
      have hd := hoff hq (Nat.le_refl d) (by omega)
      rw [hsame d (by omega) (by omega)]
      exact T.first hq
  · intro q d k hq
    rcases hcases hq with ⟨rfl, rfl, rfl⟩ | ⟨-, hq⟩
    · exact hend
    · have hk := T.pos hq
      have hd := hoff (p := d + k - 1) hq (by omega) (by omega)
      rw [hsame (d + k - 1) (by omega) (by omega)]
      exact T.last hq
  · intro p q hp
    by_cases hin : a ≤ p ∧ p < a + n
    · exact ⟨i, a, n, hi', hin⟩
    · rw [hsame p (by omega) (by omega)] at hp
      obtain ⟨r, d, k, hr, hlo, hhi⟩ := T.outside hp
      have hri : r ≠ i := by
        intro hri
        rw [hri, hi] at hr
        cases hr
      exact ⟨r, d, k, by rw [hother r hri]; exact hr, hlo, hhi⟩

/-- Writes to the index that name the owner of a position. -/
theorem Tiled.mark (T : Tiled piece index) (hi : piece i = some (a, n))
    (hindex : ∀ p, index' p = index p ∨ (index' p = some i ∧ a ≤ p ∧ p < a + n)) :
    Tiled piece index' := by
  constructor
  · exact T.pos
  · exact T.apart
  · intro q d k hq
    rcases hindex d with hd | ⟨hd, hlo, hhi⟩
    · rw [hd]
      exact T.first hq
    · have hk := T.pos hq
      rw [hd, T.apart hi hq hlo hhi (Nat.le_refl d) (by omega)]
  · intro q d k hq
    rcases hindex (d + k - 1) with hd | ⟨hd, hlo, hhi⟩
    · rw [hd]
      exact T.last hq
    · have hk := T.pos hq
      rw [hd, T.apart hi hq hlo hhi (by omega) (by omega)]
  · intro p q hp
    rcases hindex p with hd | ⟨-, hlo, hhi⟩
    · rw [hd] at hp
      exact T.outside hp
    · exact covered_of_piece hi hlo hhi

/-! ## What the edits cover -/

theorem covered_split (hi : piece i = some (a, n)) (hj : piece j = none) (hkn : k ≤ n)
    (hi' : piece' i = some (a, k)) (hj' : piece' j = some (a + k, n - k))
    (hother : ∀ l, l ≠ i → l ≠ j → piece' l = piece l) (p : Nat) :
    Covered piece' p ↔ Covered piece p := by
  constructor
  · rintro ⟨l, b, m, hl, hlo, hhi⟩
    by_cases hli : l = i
    · subst hli
      have hsame := piece_inj hl hi'
      exact covered_of_piece hi (by omega) (by omega)
    · by_cases hlj : l = j
      · subst hlj
        have hsame := piece_inj hl hj'
        exact covered_of_piece hi (by omega) (by omega)
      · rw [hother l hli hlj] at hl
        exact covered_of_piece hl hlo hhi
  · rintro ⟨l, b, m, hl, hlo, hhi⟩
    by_cases hli : l = i
    · subst hli
      have hsame := piece_inj hl hi
      by_cases hpk : p < a + k
      · exact covered_of_piece hi' (by omega) hpk
      · exact covered_of_piece hj' (by omega) (by omega)
    · have hlj : l ≠ j := by
        intro hlj
        rw [hlj, hj] at hl
        cases hl
      rw [← hother l hli hlj] at hl
      exact covered_of_piece hl hlo hhi

theorem covered_join {c l : Nat} (hi : piece i = some (a, n)) (hj : piece j = some (b, m))
    (hboth : ∀ p, (c ≤ p ∧ p < c + l) ↔ (a ≤ p ∧ p < a + n) ∨ (b ≤ p ∧ p < b + m))
    (hi' : piece' i = some (c, l)) (hj' : piece' j = none)
    (hother : ∀ q, q ≠ i → q ≠ j → piece' q = piece q) (p : Nat) :
    Covered piece' p ↔ Covered piece p := by
  constructor
  · rintro ⟨q, d, k, hq, hlo, hhi⟩
    by_cases hqi : q = i
    · subst hqi
      have hsame := piece_inj hq hi'
      rcases (hboth p).1 ⟨by omega, by omega⟩ with hin | hin
      · exact covered_of_piece hi hin.1 hin.2
      · exact covered_of_piece hj hin.1 hin.2
    · by_cases hqj : q = j
      · rw [hqj, hj'] at hq
        cases hq
      · rw [hother q hqi hqj] at hq
        exact covered_of_piece hq hlo hhi
  · rintro ⟨q, d, k, hq, hlo, hhi⟩
    by_cases hqi : q = i
    · subst hqi
      have hsame := piece_inj hq hi
      have hin := (hboth p).2 (Or.inl ⟨by omega, by omega⟩)
      exact covered_of_piece hi' hin.1 hin.2
    · by_cases hqj : q = j
      · subst hqj
        have hsame := piece_inj hq hj
        have hin := (hboth p).2 (Or.inr ⟨by omega, by omega⟩)
        exact covered_of_piece hi' hin.1 hin.2
      · rw [← hother q hqi hqj] at hq
        exact covered_of_piece hq hlo hhi

theorem covered_add (hi : piece i = none) (hi' : piece' i = some (a, n))
    (hother : ∀ q, q ≠ i → piece' q = piece q) (p : Nat) :
    Covered piece' p ↔ Covered piece p ∨ (a ≤ p ∧ p < a + n) := by
  constructor
  · rintro ⟨q, d, k, hq, hlo, hhi⟩
    by_cases hqi : q = i
    · subst hqi
      have hsame := piece_inj hq hi'
      exact Or.inr ⟨by omega, by omega⟩
    · rw [hother q hqi] at hq
      exact Or.inl (covered_of_piece hq hlo hhi)
  · rintro (⟨q, d, k, hq, hlo, hhi⟩ | hin)
    · have hqi : q ≠ i := by
        intro hqi
        rw [hqi, hi] at hq
        cases hq
      rw [← hother q hqi] at hq
      exact covered_of_piece hq hlo hhi
    · exact covered_of_piece hi' hin.1 hin.2

/-! ## Neighbours after the edits -/

theorem Tiled.adjacent_split (T' : Tiled piece' index')
    (hi : piece i = some (a, n)) (hk : 0 < k) (hkn : k < n)
    (hi' : piece' i = some (a, k)) (hj' : piece' j = some (a + k, n - k))
    (hother : ∀ l, l ≠ i → l ≠ j → piece' l = piece l) {x y : ι}
    (h : Adjacent piece' x y) :
    (x = i ∧ y = j) ∨ (x = j ∧ y ≠ i ∧ y ≠ j ∧ Adjacent piece i y) ∨
      (x ≠ i ∧ x ≠ j ∧ y ≠ j ∧ Adjacent piece x y) := by
  obtain ⟨b, m, q, hx, hy⟩ := h
  have hq := T'.pos hy
  have hm := T'.pos hx
  by_cases hxi : x = i
  · subst hxi
    have hsame := piece_inj hx hi'
    have hyj : y = j := T'.apart hy hj' (Nat.le_refl _) (by omega) (by omega) (by omega)
    exact Or.inl ⟨rfl, hyj⟩
  · by_cases hxj : x = j
    · subst hxj
      have hsame := piece_inj hx hj'
      have hyi : y ≠ i := by
        intro hyi
        subst hyi
        have hsame' := piece_inj hy hi'
        omega
      have hyj : y ≠ x := by
        intro hyj
        subst hyj
        have hsame' := piece_inj hy hj'
        omega
      rw [hother y hyi hyj] at hy
      rw [show b + m = a + n by omega] at hy
      exact Or.inr (Or.inl ⟨rfl, hyi, hyj, a, n, q, hi, hy⟩)
    · have hyj : y ≠ j := by
        intro hyj
        subst hyj
        have hsame := piece_inj hy hj'
        exact hxi (T'.apart hx hi' (p := a + k - 1) (by omega) (by omega) (by omega) (by omega))
      rw [hother x hxi hxj] at hx
      refine Or.inr (Or.inr ⟨hxi, hxj, hyj, ?_⟩)
      by_cases hyi : y = i
      · subst hyi
        have hsame := piece_inj hy hi'
        exact ⟨b, m, n, hx, by rw [hsame.1]; exact hi⟩
      · rw [hother y hyi hyj] at hy
        exact ⟨b, m, q, hx, hy⟩

theorem Tiled.adjacent_join {c l : Nat} (T : Tiled piece index) (hi : piece i = some (a, n))
    (hj : piece j = some (b, m))
    (hboth : ∀ p, (c ≤ p ∧ p < c + l) ↔ (a ≤ p ∧ p < a + n) ∨ (b ≤ p ∧ p < b + m))
    (hi' : piece' i = some (c, l)) (hj' : piece' j = none)
    (hother : ∀ q, q ≠ i → q ≠ j → piece' q = piece q) {x y : ι}
    (h : Adjacent piece' x y) :
    (x = i ∧ y ≠ i ∧ y ≠ j ∧ (Adjacent piece i y ∨ Adjacent piece j y)) ∨
      (y = i ∧ x ≠ i ∧ x ≠ j ∧ (Adjacent piece x i ∨ Adjacent piece x j)) ∨
      (x ≠ i ∧ x ≠ j ∧ y ≠ i ∧ y ≠ j ∧ Adjacent piece x y) := by
  obtain ⟨d, k, q, hx, hy⟩ := h
  have hn := T.pos hi
  have hm := T.pos hj
  have hne : ∀ {z e}, piece' z = some e → z ≠ j := by
    intro z e hz hzj
    rw [hzj, hj'] at hz
    cases hz
  have hxj := hne hx
  have hyj := hne hy
  have ha := (hboth a).2 (Or.inl ⟨Nat.le_refl a, by omega⟩)
  by_cases hxi : x = i
  · subst hxi
    have hsame := piece_inj hx hi'
    have hyi : y ≠ x := by
      intro hyi
      subst hyi
      have hsame' := piece_inj hy hi'
      omega
    rw [hother y hyi hyj] at hy
    have hlast := (hboth (c + l - 1)).1 ⟨by omega, by omega⟩
    have hend := (hboth (c + l)).not.1 (by omega)
    refine Or.inl ⟨rfl, hyi, hyj, ?_⟩
    rcases hlast with hlast | hlast
    · exact Or.inl ⟨a, n, q, hi, by rw [show a + n = d + k by omega]; exact hy⟩
    · exact Or.inr ⟨b, m, q, hj, by rw [show b + m = d + k by omega]; exact hy⟩
  · rw [hother x hxi hxj] at hx
    by_cases hyi : y = i
    · subst hyi
      have hsame := piece_inj hy hi'
      have hfirst := (hboth c).1 ⟨Nat.le_refl c, by omega⟩
      have hk := T.pos hx
      have hbefore := (hboth (c - 1)).not.1 (by omega)
      refine Or.inr (Or.inl ⟨rfl, hxi, hxj, ?_⟩)
      rcases hfirst with hfirst | hfirst
      · exact Or.inl ⟨d, k, n, hx, by rw [show d + k = a by omega]; exact hi⟩
      · exact Or.inr ⟨d, k, m, hx, by rw [show d + k = b by omega]; exact hj⟩
    · rw [hother y hyi hyj] at hy
      exact Or.inr (Or.inr ⟨hxi, hxj, hyi, hyj, d, k, q, hx, hy⟩)

/-! ## Sizes -/

/-- The positions of some pieces, as many as their lengths say. -/
theorem Tiled.exists_positions [DecidableEq ι] (T : Tiled piece index) {start length : ι → Nat}
    {ids : List ι} (hnd : ids.Nodup)
    (hids : ∀ q ∈ ids, piece q = some (start q, length q)) :
    ∃ s : Finset Nat, s.card = (ids.map length).sum ∧ ∀ p ∈ s, Covered piece p := by
  have hdisj : ((ids.toFinset : Finset ι) : Set ι).PairwiseDisjoint
      fun q => Finset.Ico (start q) (start q + length q) := by
    intro x hx y hy hxy
    have hx := hids x (List.mem_toFinset.1 hx)
    have hy := hids y (List.mem_toFinset.1 hy)
    apply Finset.disjoint_left.2
    intro p hpx hpy
    rw [Finset.mem_Ico] at hpx hpy
    exact hxy (T.apart hx hy hpx.1 hpx.2 hpy.1 hpy.2)
  refine ⟨ids.toFinset.biUnion fun q => Finset.Ico (start q) (start q + length q), ?_, ?_⟩
  · calc (ids.toFinset.biUnion fun q => Finset.Ico (start q) (start q + length q)).card
        = ∑ q ∈ ids.toFinset, (Finset.Ico (start q) (start q + length q)).card :=
          Finset.card_biUnion hdisj
      _ = ∑ q ∈ ids.toFinset, length q := by
          simp only [Nat.card_Ico, Nat.add_sub_cancel_left]
      _ = (ids.map length).sum := List.sum_toFinset length hnd
  · intro p hp
    obtain ⟨q, hq, hp⟩ := Finset.mem_biUnion.1 hp
    rw [Finset.mem_Ico] at hp
    exact covered_of_piece (hids q (List.mem_toFinset.1 hq)) hp.1 hp.2

end SatAllocatorTest.Verified.Tilings
