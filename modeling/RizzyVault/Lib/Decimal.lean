import RizzyVault.Lib.Words

/-!
# Plain decimal texts

A number written in ASCII digits without leading zeros, and the number that digits spell.

## Main definitions

* `decimal`, `ofDecimal`.
* `IsDecimal`: digits, without a leading zero unless they are the one digit zero.

## Main results

* `ofDecimal_decimal`, `decimal_ofDecimal`: one number has one plain text.
* `length_decimal_le`: how long a text a bounded number has.
-/

namespace RizzyVault.Lib

/-- Whether a byte is an ASCII digit. -/
def isDigit (b : Fin 256) : Bool := 48 ≤ b.val ∧ b.val ≤ 57

/-- The ASCII digit of a number below ten. -/
def digit (d : ℕ) : Fin 256 := Fin.ofNat 256 (48 + d)

/-- The decimal text of a number. -/
def decimal (n : ℕ) : List (Fin 256) := (Nat.toDigits 10 n).map fun c => Fin.ofNat 256 c.toNat

/-- The number that digits spell. -/
def ofDecimal (text : List (Fin 256)) : ℕ := text.foldl (fun n b => 10 * n + (b.val - 48)) 0

/-- A decimal text without needless zeros. -/
structure IsDecimal (text : List (Fin 256)) : Prop where
  nonempty : text ≠ []
  digits : ∀ b ∈ text, isDigit b = true
  leading : text.head? = some 48 → text = [48]

variable {n d : ℕ} {text : List (Fin 256)}

theorem val_digit (hd : d < 10) : (digit d).val = 48 + d := Nat.mod_eq_of_lt (by omega)

theorem isDigit_digit (hd : d < 10) : isDigit (digit d) = true := by
  simp only [isDigit, val_digit hd, decide_eq_true_eq]
  omega

theorem isDigit_iff {b : Fin 256} : isDigit b = true ↔ 48 ≤ b.val ∧ b.val ≤ 57 := by
  rw [isDigit, decide_eq_true_eq]

theorem digit_sub {b : Fin 256} (hb : isDigit b = true) : digit (b.val - 48) = b := by
  have h := isDigit_iff.mp hb
  apply Fin.ext
  rw [val_digit (by omega)]
  omega

theorem ofNat_digitChar (hd : d < 10) : Fin.ofNat 256 d.digitChar.toNat = digit d := by
  interval_cases d <;> rfl

theorem decimal_of_lt (hn : n < 10) : decimal n = [digit n] := by
  rw [decimal, Nat.toDigits_of_lt_base hn, List.map_singleton, ofNat_digitChar hn]

theorem decimal_of_le (hn : 10 ≤ n) : decimal n = decimal (n / 10) ++ [digit (n % 10)] := by
  have hlt : n % 10 < 10 := Nat.mod_lt n (by decide)
  rw [decimal, Nat.toDigits_of_base_le (by decide) hn, List.map_append, List.map_singleton,
    ofNat_digitChar hlt]
  rfl

theorem ofDecimal_append (text : List (Fin 256)) (b : Fin 256) :
    ofDecimal (text ++ [b]) = 10 * ofDecimal text + (b.val - 48) := by
  rw [ofDecimal, List.foldl_append]
  rfl

theorem ofDecimal_decimal (n : ℕ) : ofDecimal (decimal n) = n := by
  induction n using Nat.strongRecOn with
  | ind n ih =>
    by_cases hn : n < 10
    · rw [decimal_of_lt hn, ← List.nil_append [digit n], ofDecimal_append, val_digit hn]
      show 10 * 0 + (48 + n - 48) = n
      omega
    · have hlt : n % 10 < 10 := Nat.mod_lt n (by decide)
      rw [decimal_of_le (Nat.le_of_not_lt hn), ofDecimal_append, ih (n / 10) (by omega), val_digit hlt]
      omega

theorem decimal_inj {m n : ℕ} : decimal m = decimal n ↔ m = n := by
  refine ⟨fun h => ?_, congrArg decimal⟩
  rw [← ofDecimal_decimal m, h, ofDecimal_decimal]

theorem decimal_ne_nil (n : ℕ) : decimal n ≠ [] := by
  rw [decimal, Ne, List.map_eq_nil_iff]
  exact Nat.toDigits_ne_nil

theorem isDigit_of_mem_decimal (n : ℕ) : ∀ b ∈ decimal n, isDigit b = true := by
  induction n using Nat.strongRecOn with
  | ind n ih =>
    intro b hb
    by_cases hn : n < 10
    · rw [decimal_of_lt hn] at hb
      rw [List.mem_singleton.mp hb]
      exact isDigit_digit hn
    · rw [decimal_of_le (Nat.le_of_not_lt hn)] at hb
      rcases List.mem_append.mp hb with hb | hb
      · exact ih (n / 10) (by omega) b hb
      · rw [List.mem_singleton.mp hb]
        exact isDigit_digit (Nat.mod_lt n (by decide))

theorem head?_decimal (hn : 0 < n) : (decimal n).head? ≠ some 48 := by
  induction n using Nat.strongRecOn with
  | ind n ih =>
    by_cases hlt : n < 10
    · rw [decimal_of_lt hlt]
      intro h
      have hval := congrArg Fin.val (Option.some.inj h)
      rw [val_digit hlt] at hval
      have h48 : (48 : Fin 256).val = 48 := rfl
      omega
    · have hle := Nat.le_of_not_lt hlt
      rw [decimal_of_le hle, List.head?_append_of_ne_nil _ (decimal_ne_nil _)]
      exact ih (n / 10) (by omega) (by omega)

theorem isDecimal_decimal (n : ℕ) : IsDecimal (decimal n) where
  nonempty := decimal_ne_nil n
  digits := isDigit_of_mem_decimal n
  leading h := by
    rcases Nat.eq_zero_or_pos n with rfl | hn
    · rfl
    · exact absurd h (head?_decimal hn)

/-- One number has one plain text. -/
theorem decimal_ofDecimal (h : IsDecimal text) : decimal (ofDecimal text) = text := by
  induction text using List.reverseRecOn with
  | nil => exact absurd rfl h.nonempty
  | append_singleton text b ih =>
    have hb := h.digits b (by simp)
    have hb' := isDigit_iff.mp hb
    rcases eq_or_ne text [] with rfl | htext
    · have hval : ofDecimal [b] = b.val - 48 := by
        show 10 * 0 + (b.val - 48) = b.val - 48
        omega
      rw [List.nil_append, hval, decimal_of_lt (by omega), digit_sub hb]
    · have hhead : (text ++ [b]).head? = text.head? := List.head?_append_of_ne_nil _ htext
      have hzero : text.head? ≠ some 48 := fun hz => by
        have heq := h.leading (hhead.trans hz)
        have hlen := congrArg List.length heq
        rw [List.length_append, List.length_singleton, List.length_singleton] at hlen
        exact htext (List.length_eq_zero_iff.mp (by omega))
      have hplain : IsDecimal text :=
        ⟨htext, fun c hc => h.digits c (List.mem_append_left _ hc), fun hz => absurd hz hzero⟩
      have hpos : 0 < ofDecimal text := by
        rcases Nat.eq_zero_or_pos (ofDecimal text) with hz | hpos
        · have hdec := ih hplain
          rw [hz] at hdec
          rw [← hdec] at hzero
          exact absurd rfl hzero
        · exact hpos
      have hdiv : (10 * ofDecimal text + (b.val - 48)) / 10 = ofDecimal text := by omega
      have hmod : (10 * ofDecimal text + (b.val - 48)) % 10 = b.val - 48 := by omega
      rw [ofDecimal_append, decimal_of_le (by omega), hdiv, hmod, ih hplain, digit_sub hb]

theorem length_decimal_le {k : ℕ} (hk : 0 < k) (hn : n < 10 ^ k) : (decimal n).length ≤ k := by
  rw [decimal, List.length_map]
  exact (Nat.length_toDigits_le_iff (by decide) hk).mpr hn

end RizzyVault.Lib
