import Mathlib.Data.Rat.Floor
import Mathlib.Algebra.Order.Ring.Rat
import Mathlib.Data.List.TakeWhile
import Mathlib.Data.Nat.Log
import Mathlib.Data.Nat.Prime.Basic
import Mathlib.Tactic.FieldSimp
import Mathlib.Tactic.Linarith

/-!
# Numbers as decimal texts

`toFixed` is the method of that name of a script's numbers: a text with a given count of
decimals, or with an exponent from `10 ^ 21` on.  More than a hundred decimals are
refused.  `reading` is the number such a text says.

A number that has no more decimals than are asked for is printed exactly
(`reading_toFixed`), so two such numbers never share a text.
-/

namespace SatAllocatorTest.Verified.Decimals

/-! ## Reading -/

/-- The number a text without a sign says. -/
def readUnsigned (text : List Char) : ℚ :=
  let mantissa := text.takeWhile (· ≠ 'e')
  let exponent := (text.dropWhile (· ≠ 'e')).drop 2
  let decimals := (mantissa.dropWhile (· ≠ '.')).length - 1
  (Nat.ofDigitChars 10 (mantissa.filter (· ≠ '.')) 0 : ℚ) *
    10 ^ ((Nat.ofDigitChars 10 exponent 0 : ℤ) - decimals)

/-- The number a text says. -/
def reading (text : String) : ℚ :=
  match text.toList with
  | '-' :: rest => -readUnsigned rest
  | text => readUnsigned text

/-! ## Writing -/

/-- The digits of `n`, the last `f` of them behind a point. -/
def fixedChars (n f : ℕ) : List Char :=
  let m := Nat.toDigits 10 n
  if f = 0 then m
  else
    let m := List.replicate (f + 1 - m.length) '0' ++ m
    m.take (m.length - f) ++ '.' :: m.drop (m.length - f)

/-- The digits of `s`, all but the first behind a point, and the exponent `e`. -/
def scientificChars (s e : ℕ) : List Char :=
  match Nat.toDigits 10 s with
  | [] => []
  | d :: ds => (d :: if ds = [] then [] else '.' :: ds) ++ 'e' :: '+' :: Nat.toDigits 10 e

/-- `s` without the zeros at its end, and how many there were. -/
def stripZeros : (fuel : ℕ) → ℕ → ℕ × ℕ
  | 0, s => (s, 0)
  | fuel + 1, s =>
    if s ≠ 0 ∧ s % 10 = 0 then ((stripZeros fuel (s / 10)).1, (stripZeros fuel (s / 10)).2 + 1)
    else (s, 0)

/-- `String(x)` for an `x` with finitely many decimals, from `10 ^ 21` on. -/
def largeChars (x : ℚ) : List Char :=
  let j := Nat.log 2 x.den
  let whole := ⌊x * 10 ^ j⌋.toNat
  let digits := stripZeros whole whole
  let k := (Nat.toDigits 10 digits.1).length
  scientificChars digits.1 (k + digits.2 - j - 1)

/-- The text of `x`, which is not negative. -/
def unsignedChars (x : ℚ) (f : ℕ) : List Char :=
  if 10 ^ 21 ≤ x then largeChars x else fixedChars ⌊x * 10 ^ f + 1 / 2⌋.toNat f

/-- The most decimals `toFixed` writes. -/
def maxFractionDigits : ℤ := 100

/-- `x.toFixed(fractionDigits)`; none if it throws a `RangeError`. -/
def toFixed (x : ℚ) (fractionDigits : ℤ) : Option String :=
  if fractionDigits < 0 ∨ maxFractionDigits < fractionDigits then none
  else
    let f := fractionDigits.toNat
    if x < 0 then some (String.ofList ('-' :: unsignedChars (-x) f))
    else some (String.ofList (unsignedChars x f))

/-! ## Digits and the other characters -/

theorem isDigit_of_mem {n : ℕ} {c : Char} (hc : c ∈ Nat.toDigits 10 n) : c.isDigit = true :=
  Nat.isDigit_of_mem_toDigits (by decide) (by decide) hc

theorem ne_of_isDigit {c c' : Char} (hc : c.isDigit = true) (hc' : c'.isDigit = false) :
    c ≠ c' := by
  rintro rfl
  rw [hc] at hc'
  cases hc'

/-- The mantissa of a text, and the exponent that may follow it. -/
theorem readUnsigned_append {mantissa exponent : List Char} (hm : ∀ c ∈ mantissa, c ≠ 'e')
    (he : exponent = [] ∨ exponent.head? = some 'e') :
    readUnsigned (mantissa ++ exponent) =
      (Nat.ofDigitChars 10 (mantissa.filter (· ≠ '.')) 0 : ℚ) *
        10 ^ ((Nat.ofDigitChars 10 (exponent.drop 2) 0 : ℤ) -
          ((mantissa.dropWhile (· ≠ '.')).length - 1 : ℕ)) := by
  have hall : ∀ c ∈ mantissa, decide (c ≠ 'e') = true := fun c hc => decide_eq_true (hm c hc)
  have htail : exponent.takeWhile (· ≠ 'e') = [] ∧ exponent.dropWhile (· ≠ 'e') = exponent := by
    cases exponent with
    | nil => exact ⟨rfl, rfl⟩
    | cons c rest =>
        have hc : c = 'e' := by simpa using he
        subst hc
        exact ⟨rfl, rfl⟩
  rw [readUnsigned, List.takeWhile_append_of_pos hall, List.dropWhile_append_of_pos hall, htail.1,
    htail.2, List.append_nil]

/-- Digits without a point. -/
theorem readUnsigned_whole {whole : List Char} (exponent : List Char)
    (hw : ∀ c ∈ whole, c.isDigit = true) (he : exponent = [] ∨ exponent.head? = some 'e') :
    readUnsigned (whole ++ exponent) =
      (Nat.ofDigitChars 10 whole 0 : ℚ) * 10 ^ (Nat.ofDigitChars 10 (exponent.drop 2) 0 : ℤ) := by
  have hpoint : ∀ c ∈ whole, decide (c ≠ '.') = true := fun c hc =>
    decide_eq_true (ne_of_isDigit (hw c hc) rfl)
  rw [readUnsigned_append (fun c hc => ne_of_isDigit (hw c hc) rfl) he,
    List.filter_eq_self.2 hpoint, List.dropWhile_eq_nil_iff.2 hpoint]
  simp

/-- Digits before and behind a point. -/
theorem readUnsigned_point {whole decimals : List Char} (exponent : List Char)
    (hw : ∀ c ∈ whole, c.isDigit = true) (hd : ∀ c ∈ decimals, c.isDigit = true)
    (he : exponent = [] ∨ exponent.head? = some 'e') :
    readUnsigned (whole ++ '.' :: decimals ++ exponent) =
      (Nat.ofDigitChars 10 (whole ++ decimals) 0 : ℚ) *
        10 ^ ((Nat.ofDigitChars 10 (exponent.drop 2) 0 : ℤ) - decimals.length) := by
  have hpoint : ∀ {l : List Char}, (∀ c ∈ l, c.isDigit = true) →
      ∀ c ∈ l, decide (c ≠ '.') = true := fun hl c hc =>
    decide_eq_true (ne_of_isDigit (hl c hc) rfl)
  have hexp : ∀ c ∈ whole ++ '.' :: decimals, c ≠ 'e' := by
    intro c hc
    rcases List.mem_append.1 hc with hc | hc
    · exact ne_of_isDigit (hw c hc) rfl
    rcases List.mem_cons.1 hc with rfl | hc
    · decide
    · exact ne_of_isDigit (hd c hc) rfl
  rw [readUnsigned_append hexp he, List.filter_append, List.filter_cons_of_neg (by decide),
    List.filter_eq_self.2 (hpoint hw), List.filter_eq_self.2 (hpoint hd),
    List.dropWhile_append_of_pos (hpoint hw), List.dropWhile_cons_of_neg (by decide)]
  rfl

/-! ## What the texts say -/

/-- `n` with `f` decimals is `n` divided by `10 ^ f`. -/
theorem readUnsigned_fixedChars (n f : ℕ) :
    readUnsigned (fixedChars n f) = n * 10 ^ (-(f : ℤ)) := by
  have hdigits : ∀ c ∈ Nat.toDigits 10 n, c.isDigit = true := fun _ => isDigit_of_mem
  unfold fixedChars
  by_cases hf : f = 0
  · have hwhole := readUnsigned_whole [] hdigits (.inl rfl)
    simpa [hf] using hwhole
  · simp only [hf, if_false]
    set m := List.replicate (f + 1 - (Nat.toDigits 10 n).length) '0' ++ Nat.toDigits 10 n with hm
    have hmdigits : ∀ c ∈ m, c.isDigit = true := by
      intro c hc
      rcases List.mem_append.1 hc with hc | hc
      · rw [List.eq_of_mem_replicate hc]
        rfl
      · exact hdigits c hc
    have hlen : f < m.length := by
      rw [hm, List.length_append, List.length_replicate]
      omega
    have hvalue : Nat.ofDigitChars 10 m 0 = n := by
      rw [hm, Nat.ofDigitChars_append, Nat.ofDigitChars_replicate_zero, Nat.mul_zero,
        Nat.ofDigitChars_ten_toDigits]
    have htake : ∀ c ∈ m.take (m.length - f), c.isDigit = true := fun c hc =>
      hmdigits c (List.mem_of_mem_take hc)
    have hdrop : ∀ c ∈ m.drop (m.length - f), c.isDigit = true := fun c hc =>
      hmdigits c (List.mem_of_mem_drop hc)
    have hpoint := readUnsigned_point [] htake hdrop (.inl rfl)
    rw [List.append_nil, List.take_append_drop, hvalue, List.length_drop] at hpoint
    rw [hpoint]
    congr 2
    simp
    omega

/-- The digits of `s` with the exponent `e`: the first of them counts `10 ^ e`. -/
theorem readUnsigned_scientificChars (s e : ℕ) :
    readUnsigned (scientificChars s e) =
      s * 10 ^ ((e : ℤ) - ((Nat.toDigits 10 s).length - 1 : ℕ)) := by
  have hdigits : ∀ c ∈ Nat.toDigits 10 s, c.isDigit = true := fun _ => isDigit_of_mem
  have hvalue : Nat.ofDigitChars 10 (Nat.toDigits 10 s) 0 = s := Nat.ofDigitChars_ten_toDigits
  unfold scientificChars
  cases hs : Nat.toDigits 10 s with
  | nil => exact absurd hs Nat.toDigits_ne_nil
  | cons d ds =>
      rw [hs] at hdigits hvalue
      have hd : ∀ c ∈ [d], c.isDigit = true := fun c hc =>
        hdigits c (List.mem_cons.2 (.inl (List.mem_singleton.1 hc)))
      have hds : ∀ c ∈ ds, c.isDigit = true := fun c hc => hdigits c (List.mem_cons_of_mem _ hc)
      by_cases hone : ds = []
      · have hwhole := readUnsigned_whole ('e' :: '+' :: Nat.toDigits 10 e) hd (.inr rfl)
        subst hone
        simpa [hvalue] using hwhole
      · have hpoint := readUnsigned_point ('e' :: '+' :: Nat.toDigits 10 e) hd hds
          (.inr rfl)
        simpa [hone, hvalue] using hpoint

/-! ## Numbers with finitely many decimals -/

/-- `x` has no more than `p` decimals. -/
def HasDecimals (x : ℚ) (p : ℕ) : Prop := ∃ n : ℤ, x * 10 ^ p = n

/-- A divisor of a power of ten divides that with its logarithm for an exponent. -/
theorem dvd_ten_pow_log {d p : ℕ} (hd : d ∣ 10 ^ p) : d ∣ 10 ^ Nat.log 2 d := by
  have hd0 : d ≠ 0 := ne_zero_of_dvd_ne_zero (by positivity) hd
  have hsplit : (10 : ℕ) ^ p = 2 ^ p * 5 ^ p := (Nat.mul_pow 2 5 p)
  rw [hsplit] at hd
  obtain ⟨d₂, d₅, h₂, h₅, rfl⟩ := Nat.dvd_mul.1 hd
  obtain ⟨a, -, rfl⟩ := (Nat.dvd_prime_pow Nat.prime_two).1 h₂
  obtain ⟨b, -, rfl⟩ := (Nat.dvd_prime_pow Nat.prime_five).1 h₅
  have hpos : ∀ n : ℕ, 0 < 5 ^ n := fun n => by positivity
  have ha : a ≤ Nat.log 2 (2 ^ a * 5 ^ b) :=
    (Nat.le_log_iff_pow_le (by decide) hd0).2 (Nat.le_mul_of_pos_right _ (hpos b))
  have hb : b ≤ Nat.log 2 (2 ^ a * 5 ^ b) := by
    refine (Nat.le_log_iff_pow_le (by decide) hd0).2 ?_
    calc 2 ^ b ≤ 5 ^ b := Nat.pow_le_pow_left (by decide) b
      _ ≤ 2 ^ a * 5 ^ b := Nat.le_mul_of_pos_left _ (by positivity)
  generalize Nat.log 2 (2 ^ a * 5 ^ b) = j at ha hb
  rw [show (10 : ℕ) ^ j = 2 ^ j * 5 ^ j from Nat.mul_pow 2 5 j]
  exact Nat.mul_dvd_mul (Nat.pow_dvd_pow 2 ha) (Nat.pow_dvd_pow 5 hb)

/-- The count of decimals `String(x)` starts from is enough. -/
theorem HasDecimals.log {x : ℚ} {p : ℕ} (hx : HasDecimals x p) :
    HasDecimals x (Nat.log 2 x.den) := by
  obtain ⟨n, hn⟩ := hx
  have hx : x = (n : ℚ) / ((10 ^ p : ℕ) : ℤ) := by
    rw [eq_div_iff (by positivity), ← hn]
    push_cast
    ring
  have hden : x.den ∣ 10 ^ p := by
    have hdvd := Rat.den_dvd n ((10 ^ p : ℕ) : ℤ)
    rw [Rat.divInt_eq_div, ← hx] at hdvd
    exact Int.natCast_dvd_natCast.1 hdvd
  obtain ⟨q, hq⟩ := dvd_ten_pow_log hden
  refine ⟨x.num * q, ?_⟩
  have hqx : ((10 : ℚ) ^ Nat.log 2 x.den) = x.den * q := by exact_mod_cast hq
  rw [hqx, ← mul_assoc, Rat.mul_den_eq_num]
  push_cast
  rfl

theorem stripZeros_mul : ∀ fuel s : ℕ, (stripZeros fuel s).1 * 10 ^ (stripZeros fuel s).2 = s := by
  intro fuel
  induction fuel with
  | zero => exact fun s => Nat.mul_one s
  | succ fuel ih =>
      intro s
      rw [stripZeros]
      split
      · rename_i hs
        have hrest := ih (s / 10)
        have hten : s = s / 10 * 10 := by omega
        rw [Nat.pow_succ, ← Nat.mul_assoc, hrest]
        exact hten.symm
      · exact Nat.mul_one s

/-- `String(x)` says `x`. -/
theorem readUnsigned_largeChars {x : ℚ} {p : ℕ} (hx : HasDecimals x p) (hlarge : 10 ^ 21 ≤ x) :
    readUnsigned (largeChars x) = x := by
  obtain ⟨n, hn⟩ := hx.log
  have hten : (0 : ℚ) < 10 ^ Nat.log 2 x.den := by positivity
  have hpos : (0 : ℚ) ≤ x := le_trans (by norm_num) hlarge
  rw [largeChars]
  generalize Nat.log 2 x.den = j at hn hten
  have hn0 : 0 ≤ n := by
    have : (0 : ℚ) ≤ n := hn ▸ mul_nonneg hpos hten.le
    exact_mod_cast this
  have hwhole : (⌊x * 10 ^ j⌋.toNat : ℚ) = x * 10 ^ j := by
    rw [hn, Int.floor_intCast]
    exact_mod_cast Int.toNat_of_nonneg hn0
  generalize ⌊x * 10 ^ j⌋.toNat = whole at hwhole
  have hstrip := stripZeros_mul whole whole
  generalize stripZeros whole whole = digits at hstrip
  obtain ⟨s, z⟩ := digits
  simp only at hstrip ⊢
  -- the digits of `s` are so many that the exponent is not negative
  have hs : s < 10 ^ (Nat.toDigits 10 s).length :=
    (Nat.length_toDigits_le_iff (by decide) Nat.length_toDigits_pos).1 (Nat.le_refl _)
  have hk := Nat.length_toDigits_pos (b := 10) (n := s)
  rw [readUnsigned_scientificChars]
  generalize (Nat.toDigits 10 s).length = k at hs hk
  have hlow : (10 : ℚ) ^ (21 + j) ≤ whole := by
    rw [hwhole, pow_add]
    exact mul_le_mul_of_nonneg_right hlarge hten.le
  have hhigh : (whole : ℚ) < 10 ^ (k + z) := by
    rw [← hstrip, pow_add]
    push_cast
    exact mul_lt_mul_of_pos_right (by exact_mod_cast hs) (by positivity)
  have hexp : 21 + j < k + z :=
    (pow_lt_pow_iff_right₀ (by norm_num)).1 (hlow.trans_lt hhigh)
  have hcast : ((k + z - j - 1 : ℕ) : ℤ) - ((k - 1 : ℕ) : ℤ) = (z : ℤ) - j := by omega
  rw [hcast, zpow_sub₀ (by norm_num), zpow_natCast, zpow_natCast, ← mul_div_assoc,
    div_eq_iff hten.ne', ← hwhole, ← hstrip]
  push_cast
  rfl

/-- A number that is not negative and has no more decimals than are asked for is printed
exactly. -/
theorem readUnsigned_unsignedChars {x : ℚ} {f : ℕ} (hpos : 0 ≤ x) (hx : HasDecimals x f) :
    readUnsigned (unsignedChars x f) = x := by
  unfold unsignedChars
  split
  · rename_i hlarge
    exact readUnsigned_largeChars hx hlarge
  · obtain ⟨n, hn⟩ := hx
    have hten : (0 : ℚ) < 10 ^ f := by positivity
    have hn0 : 0 ≤ n := by
      have : (0 : ℚ) ≤ n := hn ▸ mul_nonneg hpos hten.le
      exact_mod_cast this
    have hround : ⌊x * 10 ^ f + 1 / 2⌋ = n := by
      rw [hn, Int.floor_intCast_add]
      norm_num
    rw [readUnsigned_fixedChars, hround, zpow_neg, zpow_natCast, ← div_eq_mul_inv,
      div_eq_iff hten.ne', hn]
    exact_mod_cast Int.toNat_of_nonneg hn0

/-- The text begins with a digit. -/
def StartsWithDigit (text : List Char) : Prop := ∃ c rest, text = c :: rest ∧ c.isDigit = true

theorem startsWithDigit_append {l : List Char} (hl : l ≠ []) (hdigits : ∀ c ∈ l, c.isDigit = true)
    (rest : List Char) : StartsWithDigit (l ++ rest) := by
  cases l with
  | nil => exact absurd rfl hl
  | cons c l => exact ⟨c, l ++ rest, rfl, hdigits c (List.mem_cons_self ..)⟩

theorem startsWithDigit_fixedChars (n f : ℕ) : StartsWithDigit (fixedChars n f) := by
  have hdigits : ∀ c ∈ Nat.toDigits 10 n, c.isDigit = true := fun _ => isDigit_of_mem
  unfold fixedChars
  split
  · have h := startsWithDigit_append Nat.toDigits_ne_nil hdigits []
    rwa [List.append_nil] at h
  · simp only
    apply startsWithDigit_append
    · intro hnil
      have hlen := congrArg List.length hnil
      simp only [List.length_take, List.length_append, List.length_replicate,
        List.length_nil] at hlen
      omega
    · intro c hc
      rcases List.mem_append.1 (List.mem_of_mem_take hc) with hc | hc
      · rw [List.eq_of_mem_replicate hc]
        rfl
      · exact hdigits c hc

theorem startsWithDigit_scientificChars (s e : ℕ) : StartsWithDigit (scientificChars s e) := by
  have hdigits : ∀ c ∈ Nat.toDigits 10 s, c.isDigit = true := fun _ => isDigit_of_mem
  unfold scientificChars
  cases hs : Nat.toDigits 10 s with
  | nil => exact absurd hs Nat.toDigits_ne_nil
  | cons d ds => exact ⟨d, _, rfl, hdigits d (hs ▸ List.mem_cons_self ..)⟩

/-- A text without a sign begins with a digit, so with no other sign either. -/
theorem unsignedChars_head (x : ℚ) (f : ℕ) : ∀ rest, unsignedChars x f ≠ '-' :: rest := by
  have hstart : StartsWithDigit (unsignedChars x f) := by
    unfold unsignedChars
    split
    · exact startsWithDigit_scientificChars ..
    · exact startsWithDigit_fixedChars ..
  intro rest heq
  obtain ⟨c, rest', hc, hdigit⟩ := hstart
  rw [hc] at heq
  cases heq
  cases hdigit

/-- A number that has no more decimals than are asked for is printed exactly. -/
theorem reading_toFixed {x : ℚ} {fractionDigits : ℤ} (hpos : 0 ≤ fractionDigits)
    (hmax : fractionDigits ≤ maxFractionDigits) (hx : HasDecimals x fractionDigits.toNat) :
    ∃ text, toFixed x fractionDigits = some text ∧ reading text = x := by
  have hrange : ¬(fractionDigits < 0 ∨ maxFractionDigits < fractionDigits) := by omega
  rw [toFixed, if_neg hrange]
  by_cases hneg : x < 0
  · have hx' : HasDecimals (-x) fractionDigits.toNat := by
      obtain ⟨n, hn⟩ := hx
      exact ⟨-n, by rw [neg_mul, hn]; push_cast; rfl⟩
    refine ⟨_, if_pos hneg, ?_⟩
    rw [reading, String.toList_ofList]
    simp only
    rw [readUnsigned_unsignedChars (by linarith) hx', neg_neg]
  · refine ⟨_, if_neg hneg, ?_⟩
    rw [reading, String.toList_ofList]
    split
    · rename_i rest heq
      exact absurd heq (unsignedChars_head x _ rest)
    · exact readUnsigned_unsignedChars (not_lt.1 hneg) hx

end SatAllocatorTest.Verified.Decimals
