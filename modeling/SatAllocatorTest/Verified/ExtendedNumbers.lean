import Mathlib.Data.Int.Log
import Mathlib.Data.Rat.Floor
import Mathlib.Algebra.Order.Ring.Rat
import Mathlib.Data.List.Chain

/-!
# Numbers with infinities

Arithmetic as a script does it: a division by zero is not an error but gives an
infinity or no number at all, and the comparison with something that is not a number
is false.  Finite numbers are exact, and zero has no sign.

A loop over such numbers need not end: adding one to an infinity changes nothing.
Between finite bounds every number is visited once (`visit_finite`).
-/

namespace SatAllocatorTest.Verified.ExtendedNumbers

/-- A number over the finite numbers `α`. -/
inductive Extended (α : Type)
  | finite (a : α)
  | infinity
  | negInfinity
  | nan
  deriving DecidableEq

namespace Extended

/-- The infinity on the side of `p`; none for zero. -/
def towards (p : ℚ) : Extended ℚ :=
  if 0 < p then .infinity else if p < 0 then .negInfinity else .nan

/-- `p / q`. -/
def divide (p q : ℚ) : Extended ℚ :=
  if q = 0 then towards p else .finite (p / q)

/-- `Math.ceil(Math.log2(x))`, the least exponent of a power of two not below `x`. -/
def ceilLog2 : Extended ℚ → Extended ℤ
  | .finite q => if 0 < q then .finite (Int.clog 2 q) else if q = 0 then .negInfinity else .nan
  | .infinity => .infinity
  | .negInfinity => .nan
  | .nan => .nan

/-- `Math.pow(2, x)`. -/
def exp2 : Extended ℤ → Extended ℚ
  | .finite n => .finite (2 ^ n)
  | .infinity => .infinity
  | .negInfinity => .finite 0
  | .nan => .nan

/-- `p * x`. -/
def scale (p : ℚ) : Extended ℚ → Extended ℚ
  | .finite q => .finite (p * q)
  | .infinity => towards p
  | .negInfinity => towards (-p)
  | .nan => .nan

/-- `f`, where it applies to finite numbers. -/
def map {α β : Type} (f : α → β) : Extended α → Extended β
  | .finite a => .finite (f a)
  | .infinity => .infinity
  | .negInfinity => .negInfinity
  | .nan => .nan

/-- `Math.floor(x)`. -/
def floor (x : Extended ℚ) : Extended ℤ := x.map Int.floor

/-- `Math.ceil(x)`. -/
def ceil (x : Extended ℚ) : Extended ℤ := x.map Int.ceil

/-- `x + 1`. -/
def succ (x : Extended ℤ) : Extended ℤ := x.map (· + 1)

/-- `x <= y`. -/
def le : Extended ℤ → Extended ℤ → Bool
  | .finite m, .finite n => m ≤ n
  | .finite _, .infinity => true
  | .infinity, .infinity => true
  | .negInfinity, .finite _ => true
  | .negInfinity, .infinity => true
  | .negInfinity, .negInfinity => true
  | _, _ => false

/-- What `for (let i = first; i <= last; i++)` visits, if it ends within `fuel` tests. -/
def visit : ℕ → Extended ℤ → Extended ℤ → Option (List (Extended ℤ))
  | 0, _, _ => none
  | fuel + 1, first, last =>
    if first.le last then (visit fuel first.succ last).map (first :: ·) else some []

/-- The loop from `first` to `last` ends. -/
def Ends (first last : Extended ℤ) : Prop := ∃ fuel, (visit fuel first last).isSome

end Extended

/-! ## Loops between finite bounds -/

/-- So many consecutive numbers, the least first. -/
def upFrom : ℤ → ℕ → List ℤ
  | _, 0 => []
  | first, count + 1 => first :: upFrom (first + 1) count

theorem length_upFrom : ∀ (count : ℕ) (first : ℤ), (upFrom first count).length = count := by
  intro count
  induction count with
  | zero => exact fun _ => rfl
  | succ count ih => exact fun first => congrArg Nat.succ (ih (first + 1))

theorem mem_upFrom {i : ℤ} : ∀ {count : ℕ} {first : ℤ},
    i ∈ upFrom first count ↔ first ≤ i ∧ i < first + count := by
  intro count
  induction count with
  | zero =>
      intro first
      refine iff_of_false List.not_mem_nil ?_
      rintro ⟨hle, hlt⟩
      simp only [Nat.cast_zero, add_zero] at hlt
      exact absurd hle (not_le.2 hlt)
  | succ count ih =>
      intro first
      rw [upFrom, List.mem_cons, ih]
      push_cast
      omega

theorem nodup_upFrom : ∀ (count : ℕ) (first : ℤ), (upFrom first count).Nodup := by
  intro count
  induction count with
  | zero => exact fun _ => List.nodup_nil
  | succ count ih =>
      intro first
      refine List.nodup_cons.2 ⟨?_, ih (first + 1)⟩
      intro hmem
      have hle := (mem_upFrom.1 hmem).1
      omega

/-- Each number is followed by the next. -/
theorem isChain_upFrom : ∀ (count : ℕ) (first : ℤ),
    (upFrom first count).IsChain fun i j => j = i + 1 := by
  intro count
  induction count with
  | zero => exact fun _ => List.isChain_nil
  | succ count ih =>
      intro first
      refine List.isChain_cons.2 ⟨?_, ih (first + 1)⟩
      intro j hj
      cases count with
      | zero => cases hj
      | succ count =>
          cases hj
          rfl

namespace Extended

/-- Between finite bounds the loop visits each number once, in order. -/
theorem visit_finite (last : ℤ) : ∀ (count : ℕ) (first : ℤ), (last + 1 - first).toNat = count →
    visit (count + 1) (.finite first) (.finite last) =
      some ((upFrom first count).map .finite) := by
  intro count
  induction count with
  | zero =>
      intro first hcount
      have hlt : ¬first ≤ last := by omega
      simp [visit, le, hlt, upFrom]
  | succ count ih =>
      intro first hcount
      have hle : first ≤ last := by omega
      have hrest := ih (first + 1) (by omega)
      have hsucc : succ (.finite first) = .finite (first + 1) := rfl
      rw [visit, hsucc, hrest]
      simp [le, hle, upFrom]

end Extended

end SatAllocatorTest.Verified.ExtendedNumbers
