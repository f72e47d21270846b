import RizzyVault.Lib.Calendar
import RizzyVault.Lib.Result

/-!
# Days and dates

The conversion of days from 1970-01-01 to dates and back. It counts years from March, so that the
leap day ends a year, and takes 400 years at a time. Numbers are 64-bit signed, and arithmetic that
leaves them overflows.

## Main definitions

* `i64`, `i64Sum`: arithmetic of 64 bits.
* `daysFromCivil`, `civilFromDays`.

## Main results

* `daysFromCivil_eq_ok_iff`, `civilFromDays_eq_ok_iff`: the number of a date and the date of a
  number, as far as 64 bits hold them.

## References

* `crates/rizzy-import/src/time.rs`.
-/

open RizzyVault.Lib

namespace RizzyVault.Import.Time

/-! ### 64-bit arithmetic -/

/-- Why a computation stops: the input is refused, or a number leaves 64 bits. -/
inductive Stop
  | refused
  | overflow
  deriving DecidableEq

abbrev Checked := Except Stop

def I64 (n : ℤ) : Prop := -2 ^ 63 ≤ n ∧ n < 2 ^ 63

instance (n : ℤ) : Decidable (I64 n) := inferInstanceAs (Decidable (_ ∧ _))

/-- A result of 64 bits. -/
def i64 (n : ℤ) : Checked ℤ := if I64 n then .ok n else .error .overflow

/-- A sum, taken from the left. -/
def i64Sum (terms : List ℤ) : Checked ℤ := terms.foldlM (fun sum term => i64 (sum + term)) 0

def orRefuse {α : Type} : Option α → Checked α
  | some x => .ok x
  | none => .error .refused

/-! ### Dates -/

/-- The days from 1970-01-01 to a date. -/
def daysFromCivil (year month day : ℤ) : Checked ℤ := do
  let y ← (if month ≤ 2 then i64 (year - 1) else .ok year)
  let era := y / 400
  let yoe := y % 400
  let mp := (← i64 (month + 9)).tmod 12
  let doy ← i64Sum [(← i64Sum [← i64 (153 * mp), 2]).tdiv 5, day, -1]
  let doe ← i64Sum [← i64 (yoe * 365), yoe.tdiv 4, -yoe.tdiv 100, doy]
  i64Sum [← i64 (era * 146097), doe, -719468]

/-- A number as a `u32`, or one where it is none. -/
def u32OrOne (n : ℤ) : ℕ := if 0 ≤ n ∧ n < 2 ^ 32 then n.toNat else 1

/-- The date a number of days from 1970-01-01. -/
def civilFromDays (days : ℤ) : Checked (ℤ × ℕ × ℕ) := do
  let z ← i64 (days + 719468)
  let era := z / 146097
  let doe := z % 146097
  let yoe := (← i64Sum [doe, -doe.tdiv 1460, doe.tdiv 36524, -doe.tdiv 146096]).tdiv 365
  let doy ← i64 (doe - (← i64Sum [← i64 (365 * yoe), yoe.tdiv 4, -yoe.tdiv 100]))
  let mp := (← i64 ((← i64 (5 * doy)) + 2)).tdiv 153
  let day ← i64Sum [doy, -(← i64 ((← i64 (153 * mp)) + 2)).tdiv 5, 1]
  let month ← (if mp < 10 then i64 (mp + 3) else i64 (mp - 9))
  let year ← i64Sum [yoe, ← i64 (era * 400), if month ≤ 2 then 1 else 0]
  return (year, u32OrOne month, u32OrOne day)

def isLeapYear (year : ℤ) : Bool :=
  year.tmod 4 = 0 && (year.tmod 100 ≠ 0 || year.tmod 400 = 0)

def daysIn (year month : ℤ) : ℤ :=
  if month = 2 then if isLeapYear year then 29 else 28
  else if month = 4 ∨ month = 6 ∨ month = 9 ∨ month = 11 then 30
  else 31

/-! ### The number of a date -/

theorem i64_eq_ok {n m : ℤ} : i64 n = .ok m ↔ I64 n ∧ m = n := by
  rw [i64]
  split_ifs with h
  · rw [Except.ok.injEq, eq_comm, and_iff_right h]
  · simp [h]

/-- The year of a date, when a year starts in March. -/
def marchYear (a : Date) : ℤ := if a.month ≤ 2 then a.year - 1 else a.year

/-- The days of that year before the date. -/
def dayOfYear (a : Date) : ℤ := (153 * (((a.month : ℤ) + 9) % 12) + 2) / 5 + a.day - 1

/-- The days of 400 years before the date. -/
def dayOfEra (a : Date) : ℤ :=
  marchYear a % 400 * 365 + marchYear a % 400 / 4 - marchYear a % 400 / 100 + dayOfYear a

theorem era_eq (y : ℤ) : 365 * y + y / 4 - y / 100 + y / 400 =
    y / 400 * 146097 + (y % 400 * 365 + y % 400 / 4 - y % 400 / 100) := by
  omega

theorem yearStart_add_leap (year : ℤ) : yearStart year + (if isLeap year then 1 else 0) =
    365 * year + year / 4 - year / 100 + year / 400 - 719527 := by
  simp only [yearStart]
  split_ifs with h
  · obtain ⟨h4, h100⟩ := h
    omega
  · simp only [isLeap, not_and, not_or, not_not] at h
    omega

/-- The days before a month, with the leap day apart. -/
theorem monthStart_eq (year : ℤ) {month : ℕ} (h : 1 ≤ month) (h' : month ≤ 12) :
    (monthStart year month : ℤ) = (153 * (((month : ℤ) + 9) % 12) + 2) / 5 +
      if month ≤ 2 then -306 else 59 + if isLeap year then 1 else 0 := by
  have hsucc := fun m (hm : 1 ≤ m) => monthStart_succ year hm
  have h1 := monthStart_one year
  have h2 := hsucc 1 (by omega)
  have h3 := hsucc 2 (by omega)
  have h4 := hsucc 3 (by omega)
  have h5 := hsucc 4 (by omega)
  have h6 := hsucc 5 (by omega)
  have h7 := hsucc 6 (by omega)
  have h8 := hsucc 7 (by omega)
  have h9 := hsucc 8 (by omega)
  have h10 := hsucc 9 (by omega)
  have h11 := hsucc 10 (by omega)
  have h12 := hsucc 11 (by omega)
  simp only [daysInMonth, Nat.reduceAdd] at h2 h3 h4 h5 h6 h7 h8 h9 h10 h11 h12
  split_ifs at h3 ⊢ with hleap <;> interval_cases month <;> push_cast <;> omega

theorem number_eq (a : Date) :
    a.number = marchYear a / 400 * 146097 + dayOfEra a - 719468 := by
  have hmonth := monthStart_eq a.year a.month_mem.1 a.month_mem.2
  have hyear := yearStart_add_leap a.year
  have hera := era_eq (marchYear a)
  simp only [Date.number, dayOfEra, dayOfYear, hmonth]
  simp only [marchYear] at hera ⊢
  split_ifs at hera hyear ⊢
  · simp only [yearStart]
    omega
  · simp only [yearStart]
    omega
  all_goals omega

theorem dayOfYear_nonneg (a : Date) : 0 ≤ dayOfYear a := by
  have hmonth := a.month_mem
  have hday := a.day_mem
  simp only [dayOfYear]
  omega

/-- The last day of such a year is the leap day. -/
theorem dayOfYear_le (a : Date) :
    dayOfYear a ≤ 364 ∨ dayOfYear a = 365 ∧ isLeap (marchYear a + 1) := by
  have hmonth := a.month_mem
  have hday := a.day_mem.2
  by_cases hfeb : a.month = 2
  · have hyear : marchYear a + 1 = a.year := by simp [marchYear, hfeb]
    rw [hfeb] at hday
    simp only [daysInMonth] at hday
    rw [hyear]
    by_cases hleap : isLeap a.year
    · rw [if_pos hleap] at hday
      simp only [dayOfYear, hfeb, hleap, and_true]
      omega
    · rw [if_neg hleap] at hday
      simp only [dayOfYear, hfeb]
      omega
  · refine .inl ?_
    have hle := daysInMonth_le a.year a.month
    by_cases hjan : a.month = 1
    · simp only [dayOfYear, hjan]
      omega
    · simp only [dayOfYear]
      omega

theorem dayOfEra_mem (a : Date) : 0 ≤ dayOfEra a ∧ dayOfEra a ≤ 146096 := by
  have hnonneg := dayOfYear_nonneg a
  have hle := dayOfYear_le a
  simp only [dayOfEra]
  omega

/-- The year of 400 years that a day is in: the quotients count the leap days before it. -/
theorem yearOfEra_eq {year doy doe : ℤ} (hyear : 0 ≤ year ∧ year < 400) (hdoy : 0 ≤ doy)
    (hle : doy ≤ 364 ∨ doy = 365 ∧ year % 4 = 3 ∧ (year % 100 ≠ 99 ∨ year = 399))
    (hdoe : doe = year * 365 + year / 4 - year / 100 + doy) :
    (doe - doe / 1460 + doe / 36524 - doe / 146096) / 365 = year := by
  have hc : 0 ≤ year / 100 ∧ year / 100 < 4 := by omega
  have hs : 0 ≤ year % 4 ∧ year % 4 < 4 := by omega
  obtain ⟨c, hc'⟩ : ∃ c, year / 100 = c := ⟨_, rfl⟩
  obtain ⟨s, hs'⟩ : ∃ s, year % 4 = s := ⟨_, rfl⟩
  obtain ⟨q, hq⟩ : ∃ q, year = 100 * c + 4 * q + s := ⟨(year - 100 * c - s) / 4, by omega⟩
  have hq' : 0 ≤ q ∧ q < 25 := by omega
  have hquarter : year / 4 = 25 * c + q := by omega
  rw [hquarter, hc'] at hdoe
  have hdoe' : doe = 36524 * c + 1461 * q + 365 * s + doy := by rw [hdoe, hq]; ring
  have hfour : doe / 1460 = 25 * c + q + (24 * c + q + 365 * s + doy) / 1460 := by omega
  have hlast : doe / 146096 = if doe = 146096 then 1 else 0 := by
    split_ifs <;> omega
  have hcentury : doe / 36524 = if doe = 146096 then 4 else c := by
    split_ifs <;> omega
  rw [hfour, hlast, hcentury]
  split_ifs with hend
  · omega
  · omega


theorem pure_eq_ok {α : Type} {x y : α} : (pure x : Checked α) = .ok y ↔ y = x := by
  show Except.ok x = .ok y ↔ y = x
  rw [Except.ok.injEq, eq_comm]

/-- The number of a date, as far as 64 bits hold it. -/
theorem daysFromCivil_eq_ok_iff {a : Date} {n : ℤ} (hyear : I64 a.year) :
    daysFromCivil a.year a.month a.day = .ok n ↔
      a.number = n ∧ -2 ^ 63 ≤ n ∧ n + 719468 < 2 ^ 63 := by
  have hmonth := a.month_mem
  have hday := a.day_mem
  have hdays := daysInMonth_le a.year a.month
  have hera := dayOfEra_mem a
  have hnum := number_eq a
  have hdoy := dayOfYear_nonneg a
  have hy : ∀ y, (if (a.month : ℤ) ≤ 2 then i64 (a.year - 1) else .ok a.year) = .ok y ↔
      (a.month ≤ 2 → I64 (a.year - 1)) ∧ y = marchYear a := by
    intro y
    simp only [marchYear, Nat.cast_le_ofNat]
    split_ifs with h
    · simp only [i64_eq_ok, h, forall_const]
    · simp only [h, false_implies, true_and, Except.ok.injEq, eq_comm]
  have hmarch : marchYear a = a.year ∨ marchYear a = a.year - 1 := by
    simp only [marchYear]
    split_ifs <;> simp
  have hmod : ((a.month : ℤ) + 9).tmod 12 = (a.month + 9) % 12 :=
    Int.tmod_eq_emod_of_nonneg (by omega)
  have hnonneg : 0 ≤ marchYear a % 400 := Int.emod_nonneg _ (by decide)
  have hdiv : (153 * (((a.month : ℤ) + 9) % 12) + 2).tdiv 5 =
    (153 * (((a.month : ℤ) + 9) % 12) + 2) / 5 := Int.tdiv_eq_ediv_of_nonneg (by omega)
  have hfour : (marchYear a % 400).tdiv 4 = marchYear a % 400 / 4 :=
    Int.tdiv_eq_ediv_of_nonneg hnonneg
  have hhundred : (marchYear a % 400).tdiv 100 = marchYear a % 400 / 100 :=
    Int.tdiv_eq_ediv_of_nonneg hnonneg
  simp only [daysFromCivil, i64Sum, List.foldlM_cons, List.foldlM_nil, except_bind_eq_ok,
    pure_eq_ok, i64_eq_ok, hy, and_assoc, exists_and_left, exists_eq_left, hmod, hdiv, hfour,
    hhundred, zero_add]
  simp only [dayOfEra, dayOfYear, I64] at *
  omega

/-- The month of a day of a year that starts in March. -/
theorem marchMonth_eq (a : Date) : (5 * dayOfYear a + 2) / 153 = ((a.month : ℤ) + 9) % 12 := by
  obtain ⟨year, month, day, ⟨hm, hm'⟩, hday, hday'⟩ := a
  have hfeb : daysInMonth year 2 ≤ 29 := by
    simp only [daysInMonth]
    split_ifs <;> omega
  simp only [dayOfYear]
  interval_cases month
  case «2» => omega
  all_goals
    simp only [daysInMonth] at hday'
    omega

theorem civilFromDays_number_iff {n : ℤ} {r : ℤ × ℕ × ℕ} (hn : I64 n) {a : Date}
    (ha : a.number = n) :
    civilFromDays n = .ok r ↔ n + 719468 < 2 ^ 63 ∧ r = (a.year, a.month, a.day) := by
  have hmonth := a.month_mem
  have hday := a.day_mem
  have hdays := daysInMonth_le a.year a.month
  have hera := dayOfEra_mem a
  have hnum := number_eq a
  have hdoy := dayOfYear_nonneg a
  have hle := dayOfYear_le a
  have hnonneg : 0 ≤ marchYear a % 400 := Int.emod_nonneg _ (by decide)
  have he : (n + 719468) / 146097 = marchYear a / 400 := by omega
  have hd : (n + 719468) % 146097 = dayOfEra a := by omega
  have hdiv : ∀ x k : ℤ, 0 ≤ x → x.tdiv k = x / k := fun x k hx => Int.tdiv_eq_ediv_of_nonneg hx
  have hyoe : (dayOfEra a + -(dayOfEra a / 1460) + dayOfEra a / 36524 +
      -(dayOfEra a / 146096)).tdiv 365 = marchYear a % 400 := by
    rw [hdiv _ _ (by omega)]
    refine @yearOfEra_eq _ (dayOfYear a) _ (by omega) hdoy ?_ rfl
    simp only [isLeap] at hle
    omega
  have hdoe : dayOfEra a - (365 * (marchYear a % 400) + marchYear a % 400 / 4 +
      -(marchYear a % 400 / 100)) = dayOfYear a := by
    simp only [dayOfEra]
    omega
  have hmp : (5 * dayOfYear a + 2).tdiv 153 = ((a.month : ℤ) + 9) % 12 := by
    rw [hdiv _ _ (by omega), marchMonth_eq]
  have hdayEq : dayOfYear a + -(153 * (((a.month : ℤ) + 9) % 12) + 2).tdiv 5 + 1 = a.day := by
    rw [hdiv _ _ (by omega), dayOfYear]
    omega
  have hmonthEq : ∀ y, (if ((a.month : ℤ) + 9) % 12 < 10 then i64 (((a.month : ℤ) + 9) % 12 + 3)
      else i64 (((a.month : ℤ) + 9) % 12 - 9)) = .ok y ↔ y = a.month := by
    intro y
    split_ifs <;> simp only [i64_eq_ok, I64] <;> omega
  have hyearEq : marchYear a % 400 + marchYear a / 400 * 400 +
      (if (a.month : ℤ) ≤ 2 then 1 else 0) = a.year := by
    simp only [marchYear, Nat.cast_le_ofNat]
    split_ifs <;> omega
  have hu32 : ∀ k : ℕ, k < 2 ^ 32 → u32OrOne k = k := by
    intro k hk
    rw [u32OrOne, if_pos (by omega), Int.toNat_natCast]
  simp only [civilFromDays, i64Sum, List.foldlM_cons, List.foldlM_nil, except_bind_eq_ok,
    pure_eq_ok, i64_eq_ok, and_assoc, exists_and_left, exists_eq_left, he, hd, zero_add,
    hdiv _ _ hera.1, hdiv _ _ hnonneg, hyoe, hdoe, hmp, hdayEq, hmonthEq, hyearEq]
  have hmarch : marchYear a = a.year ∨ marchYear a = a.year - 1 := by
    simp only [marchYear]
    split_ifs <;> simp
  rw [hu32 a.month (by omega), hu32 a.day (by omega)]
  by_cases hr : r = (a.year, a.month, a.day)
  · simp only [hr, I64, and_true] at hn ⊢
    omega
  · simp only [hr, and_false]

/-- The date of a number, as far as 64 bits hold it. -/
theorem civilFromDays_eq_ok_iff {n : ℤ} {r : ℤ × ℕ × ℕ} (hn : I64 n) :
    civilFromDays n = .ok r ↔
      n + 719468 < 2 ^ 63 ∧ ∃ a : Date, a.number = n ∧ r = (a.year, a.month, a.day) := by
  obtain ⟨a, ha⟩ := Date.exists_number_eq n
  rw [civilFromDays_number_iff hn ha]
  refine and_congr_right fun _ => ?_
  constructor
  · intro hr
    exact ⟨a, ha, hr⟩
  · rintro ⟨b, hb, hr⟩
    rwa [Date.number_injective (ha.trans hb.symm)]

theorem isLeapYear_iff {year : ℤ} : isLeapYear year = true ↔ isLeap year := by
  have h : ∀ k : ℤ, year.tmod k = 0 ↔ year % k = 0 := fun k => by
    rw [← Int.dvd_iff_tmod_eq_zero, Int.dvd_iff_emod_eq_zero]
  simp only [isLeapYear, isLeap, Bool.and_eq_true, Bool.or_eq_true, decide_eq_true_eq, h, ne_eq]

theorem daysIn_eq (year : ℤ) {month : ℕ} (h : month ≤ 12) :
    daysIn year month = daysInMonth year month := by
  simp only [daysIn, isLeapYear_iff]
  interval_cases month
  case «2» =>
    simp only [daysInMonth, Nat.cast_ofNat, if_true]
    split_ifs <;> rfl
  all_goals rfl

end RizzyVault.Import.Time
