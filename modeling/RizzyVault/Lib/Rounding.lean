import Mathlib

/-!
# Rounding up to multiples

`roundUp m a` is the least multiple of `m` that is not below `a`. A length is rounded up to a
multiple of a power of two that depends only on the length's own exponent; where this power never
exceeds the exponent's, rounding keeps the order and rounds a rounded length to itself, also where
it lands on the next exponent.

## Main definitions

* `roundUp`, `roundByExponent`.

## Main results

* `isLeast_roundUp`: the least multiple not below.
* `roundByExponent_idem`, `roundByExponent_mono`.
* `and_complement_mask`: clearing low bits.
-/

namespace RizzyVault.Lib

/-- The least multiple of `m` not below `a`. -/
def roundUp (m a : ℕ) : ℕ := (a + (m - 1)) / m * m

variable {m a b : ℕ}

theorem le_roundUp (hm : 0 < m) : a ≤ roundUp m a := by
  have hdiv := Nat.div_add_mod (a + (m - 1)) m
  have hmod := Nat.mod_lt (a + (m - 1)) hm
  rw [roundUp, Nat.mul_comm]
  omega

theorem dvd_roundUp (m a : ℕ) : m ∣ roundUp m a := Dvd.intro_left _ rfl

theorem roundUp_le_of_dvd (hm : 0 < m) (hab : a ≤ b) (hb : m ∣ b) : roundUp m a ≤ b := by
  obtain ⟨k, rfl⟩ := hb
  rw [roundUp, Nat.mul_comm m k]
  refine Nat.mul_le_mul_right m (Nat.lt_succ_iff.mp ((Nat.div_lt_iff_lt_mul hm).mpr ?_))
  rw [Nat.succ_mul, Nat.mul_comm k m]
  omega

/-- The least multiple not below. -/
theorem isLeast_roundUp (hm : 0 < m) (a : ℕ) : IsLeast {v | a ≤ v ∧ m ∣ v} (roundUp m a) :=
  ⟨⟨le_roundUp hm, dvd_roundUp m a⟩, fun _ hv => roundUp_le_of_dvd hm hv.1 hv.2⟩

theorem roundUp_eq_self (hm : 0 < m) (ha : m ∣ a) : roundUp m a = a :=
  (roundUp_le_of_dvd hm le_rfl ha).antisymm (le_roundUp hm)

theorem roundUp_mono (hm : 0 < m) (hab : a ≤ b) : roundUp m a ≤ roundUp m b :=
  roundUp_le_of_dvd hm (hab.trans (le_roundUp hm)) (dvd_roundUp m b)

theorem roundUp_le_add (m a : ℕ) : roundUp m a ≤ a + (m - 1) := Nat.div_mul_le_self _ _

/-! ### By exponent -/

/-- Rounds up to a multiple of the power of two that the exponent of the length sets. -/
def roundByExponent (unit : ℕ → ℕ) (a : ℕ) : ℕ := roundUp (2 ^ unit (Nat.log 2 a)) a

variable {unit : ℕ → ℕ}

theorem le_roundByExponent (unit : ℕ → ℕ) (a : ℕ) : a ≤ roundByExponent unit a :=
  le_roundUp (by positivity)

theorem roundByExponent_le_pow (hunit : ∀ e, unit e ≤ e) (a : ℕ) :
    roundByExponent unit a ≤ 2 ^ (Nat.log 2 a + 1) :=
  roundUp_le_of_dvd (by positivity) (Nat.lt_pow_succ_log_self (by norm_num) a).le
    (pow_dvd_pow 2 ((hunit _).trans (Nat.le_succ _)))

/-- A rounded length stays, also where it reached the next exponent. -/
theorem roundByExponent_idem (hunit : ∀ e, unit e ≤ e) (a : ℕ) :
    roundByExponent unit (roundByExponent unit a) = roundByExponent unit a := by
  refine roundUp_eq_self (by positivity) ?_
  rcases (roundByExponent_le_pow hunit a).lt_or_eq with hlt | heq
  · have hle := le_roundByExponent unit a
    have hlog : Nat.log 2 (roundByExponent unit a) = Nat.log 2 a := by
      refine le_antisymm ?_ (Nat.log_mono_right hle)
      exact Nat.lt_succ_iff.mp (Nat.log_lt_of_lt_pow' (Nat.succ_ne_zero _) hlt)
    rw [hlog]
    exact dvd_roundUp _ a
  · rw [heq, Nat.log_pow (by norm_num)]
    exact pow_dvd_pow 2 (hunit _)

/-- Rounding keeps the order, also across exponents. -/
theorem roundByExponent_mono (hunit : ∀ e, unit e ≤ e) (hab : a ≤ b) :
    roundByExponent unit a ≤ roundByExponent unit b := by
  rcases (Nat.log_mono_right (b := 2) hab).lt_or_eq with hlt | heq
  · have hb : b ≠ 0 := by
      rintro rfl
      rw [Nat.log_zero_right] at hlt
      exact absurd hlt (Nat.not_lt_zero _)
    calc roundByExponent unit a ≤ 2 ^ (Nat.log 2 a + 1) := roundByExponent_le_pow hunit a
      _ ≤ 2 ^ Nat.log 2 b := Nat.pow_le_pow_right (by norm_num) hlt
      _ ≤ b := Nat.pow_log_le_self 2 hb
      _ ≤ roundByExponent unit b := le_roundByExponent unit b
  · rw [roundByExponent, heq]
    exact roundUp_mono (by positivity) hab

/-! ### Masks -/

/-- Clearing the low `k` bits of a word of `w` bits. -/
theorem and_complement_mask {w k n : ℕ} (hk : k ≤ w) (hn : n < 2 ^ w) :
    n &&& (2 ^ w - 1 - (2 ^ k - 1)) = n / 2 ^ k * 2 ^ k := by
  have hmask : 2 ^ w - 1 - (2 ^ k - 1) = 2 ^ w - (2 ^ k - 1 + 1) := by omega
  have hlt : 2 ^ k - 1 < 2 ^ w := by
    have hle : 2 ^ k ≤ 2 ^ w := Nat.pow_le_pow_right (by norm_num) hk
    have hpos : 0 < 2 ^ k := by positivity
    omega
  refine Nat.eq_of_testBit_eq fun i => ?_
  rw [hmask, Nat.testBit_and, Nat.testBit_two_pow_sub_succ hlt, Nat.testBit_two_pow_sub_one,
    Nat.testBit_mul_two_pow, Nat.testBit_div_two_pow]
  by_cases hi : i < w
  · by_cases hik : i < k
    · simp [hi, hik, Nat.not_le.mpr hik]
    · simp [hi, hik, Nat.not_lt.mp hik, Nat.sub_add_cancel (Nat.not_lt.mp hik)]
  · have hbit : n.testBit i = false := Nat.testBit_lt_two_pow
      (hn.trans_le (Nat.pow_le_pow_right (by norm_num) (Nat.not_lt.mp hi)))
    have hki : k ≤ i := hk.trans (Nat.not_lt.mp hi)
    simp [hi, hbit, Nat.sub_add_cancel hki]

end RizzyVault.Lib
