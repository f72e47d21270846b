import Mathlib

/-!
# Numbers as digits, the most significant first

The digits of a number in any base at a fixed width, and the number that digits spell.

## Main definitions

* `digitsBe`, `ofDigitsBe`.

## Main results

* `ofDigitsBe_digitsBe`, `digitsBe_ofDigitsBe`: a width and a number, or its digits.
* `digitsBe_succ`: the last digit.
* `getElem_digitsBe`: a digit of its own.
* `ofDigitsBe_append_div`, `ofDigitsBe_append_mod`: the two parts of a number.
-/

namespace RizzyVault.Lib

/-- The `w` lowest digits of a number in base `b`. -/
def digitsBe (b : ℕ) : ℕ → ℕ → List ℕ
  | 0, _ => []
  | w + 1, n => digitsBe b w (n / b) ++ [n % b]

/-- The number that digits spell. -/
def ofDigitsBe (b : ℕ) (l : List ℕ) : ℕ := l.foldl (fun acc d => acc * b + d) 0

variable {b w n : ℕ} {l : List ℕ}

theorem digitsBe_succ (b w n : ℕ) : digitsBe b (w + 1) n = digitsBe b w (n / b) ++ [n % b] := rfl

theorem length_digitsBe (b w n : ℕ) : (digitsBe b w n).length = w := by
  induction w generalizing n with
  | zero => rfl
  | succ w ih => rw [digitsBe_succ, List.length_append, ih, List.length_singleton]

theorem lt_of_mem_digitsBe (hb : 0 < b) : ∀ d ∈ digitsBe b w n, d < b := by
  induction w generalizing n with
  | zero => exact fun d hd => by cases hd
  | succ w ih =>
    intro d hd
    rw [digitsBe_succ] at hd
    rcases List.mem_append.mp hd with hd | hd
    · exact ih d hd
    · rw [List.mem_singleton.mp hd]
      exact Nat.mod_lt n hb

theorem ofDigitsBe_append (b : ℕ) (l : List ℕ) (d : ℕ) :
    ofDigitsBe b (l ++ [d]) = ofDigitsBe b l * b + d := by
  rw [ofDigitsBe, List.foldl_append]
  rfl

theorem ofDigitsBe_digitsBe (hn : n < b ^ w) : ofDigitsBe b (digitsBe b w n) = n := by
  induction w generalizing n with
  | zero =>
    rw [pow_zero] at hn
    exact (Nat.lt_one_iff.mp hn).symm
  | succ w ih =>
    have hdiv : n / b < b ^ w := Nat.div_lt_of_lt_mul (by rwa [mul_comm, ← pow_succ])
    rw [digitsBe_succ, ofDigitsBe_append, ih hdiv, Nat.div_add_mod']

theorem digitsBe_ofDigitsBe (hl : ∀ d ∈ l, d < b) : digitsBe b l.length (ofDigitsBe b l) = l := by
  induction l using List.reverseRecOn with
  | nil => rfl
  | append_singleton l d ih =>
    have hd : d < b := hl d (by simp)
    have hdiv : (ofDigitsBe b l * b + d) / b = ofDigitsBe b l := by
      rw [Nat.mul_comm, Nat.mul_add_div (Nat.zero_lt_of_lt hd), Nat.div_eq_of_lt hd, Nat.add_zero]
    have hmod : (ofDigitsBe b l * b + d) % b = d := by
      rw [Nat.mul_comm, Nat.mul_add_mod, Nat.mod_eq_of_lt hd]
    rw [List.length_append, List.length_singleton, digitsBe_succ, ofDigitsBe_append, hdiv, hmod,
      ih fun d hd => hl d (List.mem_append_left _ hd)]

theorem ofDigitsBe_lt (hl : ∀ d ∈ l, d < b) : ofDigitsBe b l < b ^ l.length := by
  induction l using List.reverseRecOn with
  | nil => exact Nat.one_pos
  | append_singleton l d ih =>
    have hd : d < b := hl d (by simp)
    have hlt := ih fun d hd => hl d (List.mem_append_left _ hd)
    rw [ofDigitsBe_append, List.length_append, List.length_singleton, pow_succ]
    calc ofDigitsBe b l * b + d
        < ofDigitsBe b l * b + b := Nat.add_lt_add_left hd _
      _ = (ofDigitsBe b l + 1) * b := (Nat.succ_mul _ _).symm
      _ ≤ b ^ l.length * b := Nat.mul_le_mul_right b hlt

theorem getElem_digitsBe (b w n i : ℕ) (hi : i < (digitsBe b w n).length) :
    (digitsBe b w n)[i] = n / b ^ (w - 1 - i) % b := by
  induction w generalizing n i with
  | zero => exact absurd hi (Nat.not_lt_zero i)
  | succ w ih =>
    have hiw : i < w + 1 := by rwa [length_digitsBe] at hi
    by_cases hlast : i < w
    · have hpow : b * b ^ (w - 1 - i) = b ^ (w + 1 - 1 - i) := by
        rw [← pow_succ']
        congr 1
        omega
      have hlt : i < (digitsBe b w (n / b)).length := by rwa [length_digitsBe]
      simp only [digitsBe_succ]
      rw [List.getElem_append_left hlt, ih (n / b) i hlt, Nat.div_div_eq_div_mul, hpow]
    · obtain rfl : i = w := by omega
      simp only [digitsBe_succ]
      rw [List.getElem_append_right (by rw [length_digitsBe])]
      simp [length_digitsBe]

/-! ### Two parts of a number -/

theorem ofDigitsBe_append_list (b : ℕ) (l m : List ℕ) :
    ofDigitsBe b (l ++ m) = ofDigitsBe b l * b ^ m.length + ofDigitsBe b m := by
  induction m using List.reverseRecOn with
  | nil => simp [ofDigitsBe]
  | append_singleton m d ih =>
    rw [← List.append_assoc, ofDigitsBe_append, ih, ofDigitsBe_append, List.length_append,
      List.length_singleton, pow_succ]
    ring

variable {m : List ℕ}

theorem ofDigitsBe_append_div (l : List ℕ) (hm : ∀ d ∈ m, d < b) :
    ofDigitsBe b (l ++ m) / b ^ m.length = ofDigitsBe b l := by
  have hlt := ofDigitsBe_lt hm
  rw [ofDigitsBe_append_list, Nat.mul_comm, Nat.mul_add_div (Nat.zero_lt_of_lt hlt),
    Nat.div_eq_of_lt hlt, Nat.add_zero]

theorem ofDigitsBe_append_mod (l : List ℕ) (hm : ∀ d ∈ m, d < b) :
    ofDigitsBe b (l ++ m) % b ^ m.length = ofDigitsBe b m := by
  rw [ofDigitsBe_append_list, Nat.mul_comm, Nat.mul_add_mod, Nat.mod_eq_of_lt (ofDigitsBe_lt hm)]

theorem digitsBe_inj {n' : ℕ} (hn : n < b ^ w) (hn' : n' < b ^ w)
    (h : digitsBe b w n = digitsBe b w n') : n = n' := by
  rw [← ofDigitsBe_digitsBe hn, h, ofDigitsBe_digitsBe hn']

theorem digitsBe_mod (b w n : ℕ) : digitsBe b w (n % b ^ w) = digitsBe b w n := by
  induction w generalizing n with
  | zero => rfl
  | succ w ih =>
    have hdiv : n % b ^ (w + 1) / b = n / b % b ^ w := by
      rw [pow_succ', Nat.mod_mul_right_div_self]
    have hmod : n % b ^ (w + 1) % b = n % b := by
      rw [pow_succ', Nat.mod_mul_right_mod]
    rw [digitsBe_succ, hdiv, hmod, ih, ← digitsBe_succ]

variable {k acc : ℕ}

/-- The leading digits of the lowest ones are left when the rest is shifted out. -/
theorem digitsBe_div (hl : ∀ d ∈ l, d < b) (hlen : l.length = k + n)
    (hacc : acc % b ^ (k + n) = ofDigitsBe b l) : digitsBe b k (acc / b ^ n) = l.take k := by
  have hback : (l.drop k).length = n := by rw [List.length_drop, hlen, Nat.add_sub_cancel_left]
  have hfront : (l.take k).length = k := by rw [List.length_take, hlen]; omega
  have hshift : acc / b ^ n % b ^ k = ofDigitsBe b (l.take k) := by
    rw [← Nat.mod_mul_right_div_self, ← pow_add, Nat.add_comm n k, hacc]
    conv_lhs => rw [← List.take_append_drop k l, ← hback]
    exact ofDigitsBe_append_div _ fun d hd => hl d (List.mem_of_mem_drop hd)
  have hdigits : digitsBe b (l.take k).length (ofDigitsBe b (l.take k)) = l.take k :=
    digitsBe_ofDigitsBe fun d hd => hl d (List.mem_of_mem_take hd)
  rw [← digitsBe_mod, hshift]
  rwa [hfront] at hdigits

/-- The last digits are left when the leading ones are masked out. -/
theorem mod_eq_ofDigitsBe_drop (hl : ∀ d ∈ l, d < b) (hlen : l.length = k + n)
    (hacc : acc % b ^ (k + n) = ofDigitsBe b l) : acc % b ^ n = ofDigitsBe b (l.drop k) := by
  have hback : (l.drop k).length = n := by rw [List.length_drop, hlen, Nat.add_sub_cancel_left]
  have hmask : acc % b ^ n = ofDigitsBe b l % b ^ n := by
    rw [← hacc, pow_add, Nat.mod_mul_left_mod]
  rw [hmask]
  conv_lhs => rw [← List.take_append_drop k l, ← hback]
  exact ofDigitsBe_append_mod _ fun d hd => hl d (List.mem_of_mem_drop hd)

end RizzyVault.Lib
