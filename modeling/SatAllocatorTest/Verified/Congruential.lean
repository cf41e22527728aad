import Mathlib.Data.Fintype.EquivFin
import Mathlib.Data.Nat.ModEq
import Mathlib.Data.Nat.Prime.Basic
import Mathlib.Logic.Function.Iterate
import Mathlib.Tactic.Ring

/-!
# Congruential generators

`next a c m` is the generator `x ↦ a * x + c` modulo `m`.  From zero it is at
`c * geom a n` after `n` steps, where `geom a n` is the geometric sum of `a`.

Modulo a power of two, with `a` one more than a multiple of four and `c` odd, the generator
has full period: a geometric sum of such an `a` has as many factors two as the count of its
terms (`dvd_of_dvd_geom`), so the first `2 ^ k` states are different, and every state comes
up again after any number of steps (`exists_iterate_next`).
-/

namespace SatAllocatorTest.Verified.Congruential

/-- One step. -/
def next (a c m x : ℕ) : ℕ := (a * x + c) % m

/-- The sum of the first `n` powers of `a`. -/
def geom (a : ℕ) : ℕ → ℕ
  | 0 => 0
  | n + 1 => a * geom a n + 1

theorem iterate_next (a c m n : ℕ) : (next a c m)^[n] 0 = c * geom a n % m := by
  induction n with
  | zero => simp [geom]
  | succ n ih =>
      rw [Function.iterate_succ_apply', ih, next, geom]
      calc (a * (c * geom a n % m) + c) % m
          = (a * (c * geom a n) + c) % m := by
            rw [Nat.add_mod, Nat.mul_mod_mod, ← Nat.add_mod]
        _ = c * (a * geom a n + 1) % m := by
            congr 1
            ring

theorem geom_add (a n k : ℕ) : geom a (n + k) = geom a n + a ^ n * geom a k := by
  induction n with
  | zero => simp [geom]
  | succ n ih =>
      rw [Nat.succ_add, geom, geom, ih, pow_succ]
      ring

/-! ## Factors two -/

variable {a : ℕ}

theorem pow_mod_four (ha : a % 4 = 1) (n : ℕ) : a ^ n % 4 = 1 := by
  simp [Nat.pow_mod, ha]

/-- A sum of odd powers is odd as long as their count is. -/
theorem geom_mod_two (ha : a % 4 = 1) (n : ℕ) : geom a n % 2 = n % 2 := by
  have hodd : a % 2 = 1 := by omega
  induction n with
  | zero => rfl
  | succ n ih =>
      rw [geom, Nat.add_mod, Nat.mul_mod, hodd, ih]
      omega

/-- The sum of twice as many powers has one more factor two. -/
theorem geom_double (ha : a % 4 = 1) (n : ℕ) :
    ∃ odd, odd % 2 = 1 ∧ geom a (n + n) = 2 * (geom a n * odd) := by
  have hpow := pow_mod_four ha n
  refine ⟨(1 + a ^ n) / 2, by omega, ?_⟩
  have hhalf : 1 + a ^ n = 2 * ((1 + a ^ n) / 2) := by omega
  calc geom a (n + n) = geom a n * (1 + a ^ n) := by
        rw [geom_add]
        ring
    _ = geom a n * (2 * ((1 + a ^ n) / 2)) := by rw [← hhalf]
    _ = 2 * (geom a n * ((1 + a ^ n) / 2)) := by ring

theorem coprime_two_pow {odd : ℕ} (hodd : odd % 2 = 1) (k : ℕ) : Nat.Coprime (2 ^ k) odd :=
  Nat.Coprime.pow_left k (Nat.coprime_two_left.2 (Nat.odd_iff.2 hodd))

/-- A geometric sum has no more factors two than the count of its terms. -/
theorem dvd_of_dvd_geom (ha : a % 4 = 1) : ∀ k n : ℕ, 2 ^ k ∣ geom a n → 2 ^ k ∣ n := by
  intro k
  induction k with
  | zero => exact fun n _ => one_dvd n
  | succ k ih =>
      intro n hdvd
      have htwo : geom a n % 2 = 0 :=
        Nat.mod_eq_zero_of_dvd (dvd_trans (dvd_pow_self 2 (Nat.succ_ne_zero k)) hdvd)
      rw [geom_mod_two ha] at htwo
      obtain ⟨m, rfl⟩ : ∃ m, n = m + m := ⟨n / 2, by omega⟩
      obtain ⟨odd, hodd, hdouble⟩ := geom_double ha m
      rw [hdouble, pow_succ'] at hdvd
      have hhalf := Nat.dvd_of_mul_dvd_mul_left (by decide) hdvd
      have hm := ih m ((coprime_two_pow hodd k).dvd_of_dvd_mul_right hhalf)
      rw [pow_succ', ← two_mul]
      exact Nat.mul_dvd_mul_left 2 hm

/-! ## The period -/

variable {c k : ℕ}

/-- States of one window of `2 ^ k` steps are different. -/
theorem iterate_next_injective (ha : a % 4 = 1) (hc : c % 2 = 1) {n n' : ℕ} (hle : n ≤ n')
    (hlt : n' < n + 2 ^ k) (h : (next a c (2 ^ k))^[n] 0 = (next a c (2 ^ k))^[n'] 0) :
    n = n' := by
  obtain ⟨d, rfl⟩ := Nat.exists_eq_add_of_le hle
  rw [iterate_next, iterate_next, geom_add, Nat.mul_add] at h
  have hdvd : 2 ^ k ∣ c * (a ^ n * geom a d) :=
    (Nat.modEq_zero_iff_dvd).1 (Nat.ModEq.add_left_cancel' (c * geom a n) h.symm)
  have hpow : a ^ n % 2 = 1 := by
    have hfour := pow_mod_four ha n
    omega
  have hgeom := (coprime_two_pow hpow k).dvd_of_dvd_mul_left
    ((coprime_two_pow hc k).dvd_of_dvd_mul_left hdvd)
  have hd := Nat.eq_zero_of_dvd_of_lt (dvd_of_dvd_geom ha k d hgeom) (by omega)
  omega

/-- Every state comes up after any number of steps. -/
theorem exists_iterate_next (ha : a % 4 = 1) (hc : c % 2 = 1) (first : ℕ) {x : ℕ}
    (hx : x < 2 ^ k) : ∃ n, first ≤ n ∧ (next a c (2 ^ k))^[n] 0 = x := by
  have hpos : 0 < 2 ^ k := Nat.two_pow_pos k
  let state : Fin (2 ^ k) → Fin (2 ^ k) := fun i =>
    ⟨(next a c (2 ^ k))^[first + i] 0, by rw [iterate_next]; exact Nat.mod_lt _ hpos⟩
  have hinj : Function.Injective state := by
    intro i j hij
    have hij : (next a c (2 ^ k))^[first + i] 0 = (next a c (2 ^ k))^[first + j] 0 :=
      congrArg Fin.val hij
    have hi := i.isLt
    have hj := j.isLt
    rcases Nat.le_total i.val j.val with hle | hle
    · have heq := iterate_next_injective ha hc (by omega) (by omega) hij
      exact Fin.ext (by omega)
    · have heq := iterate_next_injective ha hc (by omega) (by omega) hij.symm
      exact Fin.ext (by omega)
  obtain ⟨i, hi⟩ := Finite.injective_iff_surjective.1 hinj ⟨x, hx⟩
  exact ⟨first + i, Nat.le_add_right _ _, congrArg Fin.val hi⟩

end SatAllocatorTest.Verified.Congruential
