import Mathlib

/-!
# The proleptic Gregorian calendar

Dates of every year, the day after a date, and the number of a date: its days from 1970-01-01,
counted over whole years and whole months. The number of the next day is the next number, and the
order of dates is the order of their numbers.

## Main definitions

* `Date`, `Date.next`, `Date.number`.
* `DayCount`: a date counted day by day from the first one.

## Main results

* `number_next`, `number_lt_number`, `exists_number_eq`.
* `dayCount_iff`: counting day by day gives the number.
-/

namespace RizzyVault.Lib

/-! ### Years and months -/

def isLeap (year : ℤ) : Prop := year % 4 = 0 ∧ (year % 100 ≠ 0 ∨ year % 400 = 0)

instance (year : ℤ) : Decidable (isLeap year) := inferInstanceAs (Decidable (_ ∧ _))

/-- The days of a month. -/
def daysInMonth (year : ℤ) : ℕ → ℕ
  | 2 => if isLeap year then 29 else 28
  | 4 | 6 | 9 | 11 => 30
  | _ => 31

/-- The days of a year before a month. -/
def monthStart (year : ℤ) (month : ℕ) : ℕ := ∑ m ∈ Finset.Ico 1 month, daysInMonth year m

/-- The days from 1970-01-01 to the first day of a year. -/
def yearStart (year : ℤ) : ℤ :=
  365 * (year - 1) + (year - 1) / 4 - (year - 1) / 100 + (year - 1) / 400 - 719162

theorem daysInMonth_pos (year : ℤ) (month : ℕ) : 0 < daysInMonth year month := by
  unfold daysInMonth
  split
  · split_ifs <;> omega
  all_goals omega

theorem daysInMonth_le (year : ℤ) (month : ℕ) : daysInMonth year month ≤ 31 := by
  unfold daysInMonth
  split
  · split_ifs <;> omega
  all_goals omega

theorem monthStart_one (year : ℤ) : monthStart year 1 = 0 := by
  rw [monthStart, Finset.Ico_self, Finset.sum_empty]

theorem monthStart_succ (year : ℤ) {month : ℕ} (h : 1 ≤ month) :
    monthStart year (month + 1) = monthStart year month + daysInMonth year month := by
  rw [monthStart, Finset.sum_Ico_succ_top h, monthStart]

theorem monthStart_mono (year : ℤ) : Monotone (monthStart year) := by
  intro m m' h
  exact Finset.sum_le_sum_of_subset (Finset.Ico_subset_Ico_right h)

theorem monthStart_twelve (year : ℤ) :
    monthStart year 12 = 334 + if isLeap year then 1 else 0 := by
  simp only [monthStart, Finset.sum_Ico_succ_top, daysInMonth, Finset.Ico_self, Finset.sum_empty,
    Nat.reduceLeDiff]
  split_ifs <;> rfl

/-- The next year starts 365 days later, or 366. -/
theorem yearStart_succ (year : ℤ) :
    yearStart (year + 1) = yearStart year + monthStart year 13 := by
  rw [monthStart_succ year (by omega : 1 ≤ 12), monthStart_twelve]
  simp only [yearStart, daysInMonth]
  split_ifs with h
  · obtain ⟨h4, h100⟩ := h
    omega
  · simp only [isLeap, not_and, not_or, not_not] at h
    omega

theorem yearStart_mono : StrictMono yearStart := by
  refine strictMono_int_of_lt_succ fun year => ?_
  have h := monthStart_mono year (show 2 ≤ 13 by omega)
  have hpos := daysInMonth_pos year 1
  rw [yearStart_succ]
  rw [monthStart_succ year le_rfl, monthStart_one] at h
  omega

/-! ### Dates -/

/-- A date of the calendar. -/
@[ext]
structure Date where
  year : ℤ
  month : ℕ
  day : ℕ
  month_mem : 1 ≤ month ∧ month ≤ 12
  day_mem : 1 ≤ day ∧ day ≤ daysInMonth year month

namespace Date

variable {a b : Date}

/-- Earlier by year, then by month, then by day. -/
def Before (a b : Date) : Prop :=
  a.year < b.year ∨ a.year = b.year ∧ (a.month < b.month ∨ a.month = b.month ∧ a.day < b.day)

/-- The first day that is counted. -/
def epoch : Date := ⟨1970, 1, 1, by decide, by decide⟩

/-- The next day: of the same month, of the next month, or of the next year. -/
def next (a : Date) : Date :=
  if hday : a.day < daysInMonth a.year a.month then
    ⟨a.year, a.month, a.day + 1, a.month_mem, Nat.le_add_left 1 _, hday⟩
  else if hmonth : a.month < 12 then
    ⟨a.year, a.month + 1, 1, ⟨Nat.le_add_left 1 _, hmonth⟩, le_rfl, daysInMonth_pos _ _⟩
  else ⟨a.year + 1, 1, 1, by decide, le_rfl, daysInMonth_pos _ _⟩

/-- The days from the first day to a date. -/
def number (a : Date) : ℤ := yearStart a.year + monthStart a.year a.month + a.day - 1

theorem number_epoch : epoch.number = 0 := by
  have h := monthStart_one 1970
  simp only [number, epoch, yearStart, h]
  norm_num

theorem number_next (a : Date) : a.next.number = a.number + 1 := by
  have hday := a.day_mem
  have hmonth := a.month_mem
  unfold next
  split_ifs with hd hm
  · simp only [number]
    omega
  · simp only [number, monthStart_succ a.year hmonth.1]
    omega
  · have htwelve : a.month = 12 := by omega
    have hlast : monthStart a.year 13 = _ := monthStart_succ a.year (show 1 ≤ 12 by omega)
    rw [htwelve] at hd hday
    simp only [number, yearStart_succ, monthStart_one, htwelve]
    omega

/-- A date lies in its year. -/
theorem number_mem (a : Date) : yearStart a.year ≤ a.number ∧ a.number < yearStart (a.year + 1) := by
  have hday := a.day_mem
  have hmonth := a.month_mem
  have hlast := monthStart_succ a.year hmonth.1
  have hend := monthStart_mono a.year (show a.month + 1 ≤ 13 by omega)
  rw [yearStart_succ]
  simp only [number]
  omega

theorem number_lt_of_before (h : a.Before b) : a.number < b.number := by
  have hday := a.day_mem
  have hday' := b.day_mem
  have hlast := monthStart_succ a.year a.month_mem.1
  rcases h with hy | ⟨hy, hm | ⟨hm, hd⟩⟩
  · have hyear := yearStart_mono.monotone (show a.year + 1 ≤ b.year by omega)
    exact a.number_mem.2.trans_le (hyear.trans b.number_mem.1)
  · have hend := monthStart_mono a.year (show a.month + 1 ≤ b.month by omega)
    simp only [number, ← hy]
    omega
  · simp only [number, ← hy, ← hm]
    omega

theorem before_trichotomy (a b : Date) : a.Before b ∨ a = b ∨ b.Before a := by
  by_cases hsame : a.year = b.year ∧ a.month = b.month ∧ a.day = b.day
  · exact .inr (.inl (Date.ext hsame.1 hsame.2.1 hsame.2.2))
  · simp only [Before]
    omega

/-- The order of dates is the order of their numbers. -/
theorem number_lt_number : a.number < b.number ↔ a.Before b := by
  refine ⟨fun h => ?_, number_lt_of_before⟩
  rcases before_trichotomy a b with hab | rfl | hba
  · exact hab
  · exact absurd h (lt_irrefl _)
  · exact absurd h (number_lt_of_before hba).asymm

theorem number_injective (h : a.number = b.number) : a = b := by
  rcases before_trichotomy a b with hab | hab | hba
  · exact absurd h (number_lt_of_before hab).ne
  · exact hab
  · exact absurd h (number_lt_of_before hba).ne'

/-- Every date is the day after another. -/
theorem exists_next_eq (b : Date) : ∃ a : Date, a.next = b := by
  have hday := b.day_mem
  have hmonth := b.month_mem
  by_cases hd : b.day = 1
  · by_cases hm : b.month = 1
    · have h31 : daysInMonth (b.year - 1) 12 = 31 := rfl
      refine ⟨⟨b.year - 1, 12, 31, by decide, by decide, h31.ge⟩, ?_⟩
      apply Date.ext <;> simp [next, h31, hd, hm]
    · refine ⟨⟨b.year, b.month - 1, daysInMonth b.year (b.month - 1), by omega,
        daysInMonth_pos _ _, le_rfl⟩, ?_⟩
      have hlt : b.month - 1 < 12 := by omega
      have hsub : b.month - 1 + 1 = b.month := by omega
      apply Date.ext <;> simp [next, hlt, hsub, hd]
  · refine ⟨⟨b.year, b.month, b.day - 1, hmonth, by omega, by omega⟩, ?_⟩
    have hlt : b.day - 1 < daysInMonth b.year b.month := by omega
    have hsub : b.day - 1 + 1 = b.day := by omega
    apply Date.ext <;> simp [next, hlt, hsub]

/-- Every number is the number of a date. -/
theorem exists_number_eq (n : ℤ) : ∃ a : Date, a.number = n := by
  induction n using Int.induction_on with
  | zero => exact ⟨epoch, number_epoch⟩
  | succ n ih =>
    obtain ⟨a, ha⟩ := ih
    exact ⟨a.next, by rw [number_next, ha]⟩
  | pred n ih =>
    obtain ⟨b, hb⟩ := ih
    obtain ⟨a, rfl⟩ := exists_next_eq b
    rw [number_next] at hb
    exact ⟨a, by omega⟩

end Date

/-! ### Counting day by day -/

/-- `n` days, one after the other, lead from the first day to the date, or back from it. -/
def DayCount (date : Date) (n : ℤ) : Prop :=
  ∃ k : ℕ, (n = k ∧ Date.next^[k] Date.epoch = date) ∨ (n = -k ∧ Date.next^[k] date = Date.epoch)

theorem number_iterate_next (a : Date) (k : ℕ) : (Date.next^[k] a).number = a.number + k := by
  induction k with
  | zero => simp
  | succ k ih =>
    rw [Function.iterate_succ_apply', Date.number_next, ih]
    push_cast
    omega

/-- Counting day by day gives the number. -/
theorem dayCount_iff {date : Date} {n : ℤ} : DayCount date n ↔ date.number = n := by
  constructor
  · rintro ⟨k, ⟨rfl, rfl⟩ | ⟨rfl, h⟩⟩
    · rw [number_iterate_next, Date.number_epoch, zero_add]
    · have hk := number_iterate_next date k
      rw [h, Date.number_epoch] at hk
      omega
  · rintro rfl
    rcases le_total 0 date.number with h | h
    · refine ⟨date.number.toNat, .inl ⟨(Int.toNat_of_nonneg h).symm, Date.number_injective ?_⟩⟩
      rw [number_iterate_next, Date.number_epoch, zero_add, Int.toNat_of_nonneg h]
    · have hneg : ((-date.number).toNat : ℤ) = -date.number := Int.toNat_of_nonneg (by omega)
      refine ⟨(-date.number).toNat, .inr ⟨by omega, Date.number_injective ?_⟩⟩
      rw [number_iterate_next, Date.number_epoch, hneg]
      omega

end RizzyVault.Lib
