import RizzyVault.Import.Civil

/-!
# Timestamps of import files

The date-times that import files carry, as Unix milliseconds. A text is read field by field; what is
not a real date or time, or lies before 1970 or after 9999, is refused.

## Main definitions

* `rfc3339Ms`, `usDatetimeMs`.

## Main results

* `rfc3339Ms_eq_ok_iff`, `usDatetimeMs_eq_ok_iff`: what is read of a text.

## References

* `crates/rizzy-import/src/time.rs`.
-/

open RizzyVault.Lib

namespace RizzyVault.Import.Time

/-! ### Texts -/

/-- White space, as trimming takes it. -/
def isWhitespace (c : Char) : Bool :=
  (9 ≤ c.toNat ∧ c.toNat ≤ 13) ∨ (0x2000 ≤ c.toNat ∧ c.toNat ≤ 0x200A) ∨
    c.toNat ∈ [0x20, 0x85, 0xA0, 0x1680, 0x2028, 0x2029, 0x202F, 0x205F, 0x3000]

def trim (s : List Char) : List Char :=
  ((s.dropWhile isWhitespace).reverse.dropWhile isWhitespace).reverse

/-- The number that decimal digits spell. -/
def decimal (l : List Char) : ℕ := l.foldl (fun n c => 10 * n + (c.toNat - '0'.toNat)) 0

/-- Reads exactly `n` digits. -/
def digits (s : List Char) (n : ℕ) : Option (ℤ × List Char) :=
  if n ≤ s.length ∧ (s.take n).all Char.isDigit then some (decimal (s.take n), s.drop n) else none

/-- Reads one of the characters. -/
def stripPrefix (chars s : List Char) : Option (List Char) :=
  match s with
  | c :: rest => if c ∈ chars then some rest else none
  | [] => none

def lit (s : List Char) (c : Char) : Option (List Char) := stripPrefix [c] s

/-- Reads a time of day: hour, minute and second. -/
def readClock (s : List Char) : Option (ℤ × ℤ × ℤ × List Char) := do
  let (hour, s) ← digits s 2
  let s ← lit s ':'
  let (minute, s) ← digits s 2
  let s ← lit s ':'
  let (second, s) ← digits s 2
  return (hour, minute, second, s)

/-- Reads the milliseconds of an optional fraction of at most nine digits. -/
def readFraction (s : List Char) : Option (ℤ × List Char) :=
  match lit s '.' with
  | none => some (0, s)
  | some rest =>
    let len := (rest.takeWhile Char.isDigit).length
    if len = 0 ∨ 9 < len then none
    else
      let first3 := (rest.take len ++ ['0', '0', '0']).take 3
      some (decimal first3, rest.drop len)

/-- Reads the offset that ends a date-time, in minutes. -/
def readOffset (s : List Char) : Option ℤ :=
  if s = ['Z'] ∨ s = ['z'] then some 0
  else do
    let (sign, rest) ← match s with
      | '+' :: rest => some ((1 : ℤ), rest)
      | '-' :: rest => some (-1, rest)
      | _ => none
    let (oh, rest) ← digits rest 2
    let rest ← lit rest ':'
    let (om, rest) ← digits rest 2
    if rest ≠ [] ∨ 23 < oh ∨ 59 < om then none else some (sign * (oh * 60 + om))

/-- The fields of a date-time. -/
structure Fields where
  year : ℤ
  month : ℤ
  day : ℤ
  hour : ℤ
  minute : ℤ
  second : ℤ
  millis : ℤ
  offsetMinutes : ℤ

/-- Whether date and time of day are real, up to a last second. -/
def inRange (year month day hour minute second lastSecond : ℤ) : Bool :=
  ¬ (¬ (1 ≤ month ∧ month ≤ 12) ∨ day < 1 ∨ daysIn year month < day ∨ 23 < hour ∨ 59 < minute ∨
    lastSecond < second)

/-- Reads an RFC 3339 date-time. -/
def readRfc3339 (s : List Char) : Option Fields := do
  let (year, s) ← digits s 4
  let s ← lit s '-'
  let (month, s) ← digits s 2
  let s ← lit s '-'
  let (day, s) ← digits s 2
  let s ← stripPrefix ['T', 't', ' '] s
  let (hour, minute, second, s) ← readClock s
  if ¬ inRange year month day hour minute second 60 then none
  let (millis, s) ← readFraction s
  let (second, millis) := if second = 60 then (59, 999) else (second, millis)
  let offsetMinutes ← readOffset s
  return ⟨year, month, day, hour, minute, second, millis, offsetMinutes⟩

/-- Reads a `MM/dd/yyyy HH:mm:ss` date-time. -/
def readUsDatetime (s : List Char) : Option Fields := do
  let (month, s) ← digits s 2
  let s ← lit s '/'
  let (day, s) ← digits s 2
  let s ← lit s '/'
  let (year, s) ← digits s 4
  let s ← lit s ' '
  let (hour, minute, second, s) ← readClock s
  if s ≠ [] ∨ ¬ inRange year month day hour minute second 59 then none
  return ⟨year, month, day, hour, minute, second, 0, 0⟩

/-! ### Milliseconds -/

/-- The latest time that is kept. -/
def maxTimeMs : ℕ := 253402300799999

/-- A 64-bit number as one of the times that are kept. -/
def kept (ms : ℤ) : Checked ℕ :=
  if 0 ≤ ms ∧ ms.toNat ≤ maxTimeMs then .ok ms.toNat else .error .refused

/-- A result of 64 bits, or a refusal. -/
def orRefuseI64 (n : ℤ) : Checked ℤ := if I64 n then .ok n else .error .refused

/-- An RFC 3339 date-time as Unix milliseconds. -/
def rfc3339Ms (s : String) : Checked ℕ := do
  let f ← orRefuse (readRfc3339 (trim s.toList))
  let days ← daysFromCivil f.year f.month f.day
  let seconds ← i64Sum [← i64 (days * 86400), ← i64 (f.hour * 3600), ← i64 (f.minute * 60), f.second,
    -(← i64 (f.offsetMinutes * 60))]
  let ms ← orRefuseI64 ((← orRefuseI64 (seconds * 1000)) + f.millis)
  kept ms

/-- A `MM/dd/yyyy HH:mm:ss` date-time as Unix milliseconds. -/
def usDatetimeMs (s : String) : Checked ℕ := do
  let f ← orRefuse (readUsDatetime (trim s.toList))
  let days ← daysFromCivil f.year f.month f.day
  let seconds ← i64Sum [← i64 (days * 86400), ← i64 (f.hour * 3600), ← i64 (f.minute * 60),
    f.second]
  kept (← orRefuseI64 (seconds * 1000))

/-! ### What a text says -/

/-- `n` digits that spell a number. -/
def Spells (n : ℕ) (l : List Char) (v : ℕ) : Prop :=
  l.length = n ∧ (∀ c ∈ l, c.isDigit = true) ∧ decimal l = v

/-- The text of a time of day. -/
def SpellsClock (l : List Char) (hour minute second : ℕ) : Prop :=
  ∃ h m s, Spells 2 h hour ∧ Spells 2 m minute ∧ Spells 2 s second ∧
    l = h ++ ':' :: (m ++ ':' :: s)

/-- The text of an optional fraction. -/
def SpellsFraction (l fraction : List Char) : Prop :=
  (l = [] ∧ fraction = []) ∨
    (l = '.' :: fraction ∧ fraction ≠ [] ∧ ∀ c ∈ fraction, c.isDigit = true)

/-- The text of an offset in minutes. -/
def SpellsOffset (l : List Char) (offset : ℤ) : Prop :=
  ((l = ['Z'] ∨ l = ['z']) ∧ offset = 0) ∨
    ∃ sign factor h m hours minutes, (sign = '+' ∧ factor = 1 ∨ sign = '-' ∧ factor = -1) ∧
      Spells 2 h hours ∧ Spells 2 m minutes ∧ hours ≤ 23 ∧ minutes ≤ 59 ∧
        offset = factor * (hours * 60 + minutes) ∧ l = sign :: (h ++ ':' :: m)

/-- A date and a time of day, with the digits of its fraction and its offset in minutes. -/
structure DateTime where
  date : Date
  hour : ℕ
  minute : ℕ
  second : ℕ
  fraction : List Char
  offset : ℤ

namespace DateTime

/-- The text is an RFC 3339 date-time, with one space for the `T` where it is written so. -/
def IsRfc3339 (l : List Char) (t : DateTime) : Prop :=
  ∃ y year m d sep clock fraction offset, Spells 4 y year ∧ t.date.year = year ∧
    Spells 2 m t.date.month ∧ Spells 2 d t.date.day ∧ sep ∈ ['T', 't', ' '] ∧
    SpellsClock clock t.hour t.minute t.second ∧ t.hour ≤ 23 ∧ t.minute ≤ 59 ∧ t.second ≤ 60 ∧
    SpellsFraction fraction t.fraction ∧ SpellsOffset offset t.offset ∧
    l = y ++ '-' :: (m ++ '-' :: (d ++ sep :: (clock ++ (fraction ++ offset))))

/-- The text is a `MM/dd/yyyy HH:mm:ss` date-time. -/
def IsUsDatetime (l : List Char) (t : DateTime) : Prop :=
  ∃ y year m d clock, Spells 4 y year ∧ t.date.year = year ∧ Spells 2 m t.date.month ∧
    Spells 2 d t.date.day ∧ SpellsClock clock t.hour t.minute t.second ∧ t.hour ≤ 23 ∧
    t.minute ≤ 59 ∧ t.second ≤ 59 ∧ t.fraction = [] ∧ t.offset = 0 ∧
    l = m ++ '/' :: (d ++ '/' :: (y ++ ' ' :: clock))

/-- The milliseconds of the fraction, the rest of it left out. -/
def fractionMs (t : DateTime) : ℕ := decimal t.fraction * 1000 / 10 ^ t.fraction.length

/-- The milliseconds of the second; a leap second is the last millisecond before it. -/
def secondMs (t : DateTime) : ℤ :=
  if t.second = 60 then 59999 else t.second * 1000 + t.fractionMs

/-- The milliseconds from 1970-01-01T00:00Z, where `days` days lie before the date. -/
def instant (t : DateTime) (days : ℤ) : ℤ :=
  ((days * 24 + t.hour) * 60 + t.minute - t.offset) * 60000 + t.secondMs

end DateTime

/-! ### Reading a text -/

theorem decimal_append (a b : List Char) :
    decimal (a ++ b) = decimal a * 10 ^ b.length + decimal b := by
  have h : ∀ (l : List Char) (n : ℕ),
      l.foldl (fun n c => 10 * n + (c.toNat - '0'.toNat)) n = n * 10 ^ l.length + decimal l := by
    intro l
    induction l with
    | nil => simp [decimal]
    | cons c l ih =>
      intro n
      rw [decimal, List.foldl_cons, List.foldl_cons, ih, ih (10 * 0 + _), List.length_cons, pow_succ]
      ring
  rw [decimal, List.foldl_append, h]
  rfl

theorem decimal_lt {l : List Char} (h : ∀ c ∈ l, c.isDigit = true) : decimal l < 10 ^ l.length := by
  induction l with
  | nil => simp [decimal]
  | cons c l ih =>
    obtain ⟨hc, hl⟩ := List.forall_mem_cons.mp h
    have hlt := ih hl
    have happ := decimal_append [c] l
    have hdigit : decimal [c] ≤ 9 := by
      simp only [Char.isDigit, Bool.and_eq_true, decide_eq_true_eq, ge_iff_le,
        UInt32.le_iff_toNat_le] at hc
      have htwo : c.toNat ≤ 57 := hc.2
      have hzero : '0'.toNat = 48 := rfl
      simp only [decimal, List.foldl_cons, List.foldl_nil, hzero]
      omega
    rw [List.singleton_append] at happ
    rw [happ, List.length_cons, pow_succ]
    nlinarith

theorem Spells.lt {n v : ℕ} {l : List Char} (h : Spells n l v) : v < 10 ^ n := by
  obtain ⟨rfl, hl, rfl⟩ := h
  exact decimal_lt hl

theorem digits_eq_some_iff {s rest : List Char} {n : ℕ} {v : ℤ} :
    digits s n = some (v, rest) ↔ ∃ l k, Spells n l k ∧ v = (k : ℤ) ∧ s = l ++ rest := by
  simp only [digits]
  split_ifs with h
  · simp only [Option.some.injEq, Prod.mk.injEq]
    constructor
    · rintro ⟨rfl, rfl⟩
      exact ⟨s.take n, _, ⟨List.length_take_of_le h.1, List.all_eq_true.mp h.2, rfl⟩, rfl,
        (List.take_append_drop n s).symm⟩
    · rintro ⟨l, k, ⟨rfl, -, rfl⟩, rfl, rfl⟩
      simp
  · refine iff_of_false (by simp) ?_
    rintro ⟨l, k, ⟨rfl, hl, -⟩, -, rfl⟩
    exact h ⟨by simp, by rw [List.take_left]; exact List.all_eq_true.mpr hl⟩

theorem stripPrefix_eq_some_iff {chars s rest : List Char} :
    stripPrefix chars s = some rest ↔ ∃ c ∈ chars, s = c :: rest := by
  cases s with
  | nil => simp [stripPrefix]
  | cons c s =>
    simp only [stripPrefix]
    split_ifs with h
    · simp only [Option.some.injEq, List.cons.injEq]
      constructor
      · rintro rfl
        exact ⟨c, h, rfl, rfl⟩
      · rintro ⟨d, -, -, rfl⟩
        rfl
    · refine iff_of_false (by simp) ?_
      rintro ⟨d, hd, heq⟩
      cases heq
      exact h hd

theorem lit_eq_some_iff {s rest : List Char} {c : Char} :
    lit s c = some rest ↔ s = c :: rest := by
  rw [lit, stripPrefix_eq_some_iff]
  simp

theorem readClock_eq_some_iff {s rest : List Char} {hour minute second : ℤ} :
    readClock s = some (hour, minute, second, rest) ↔ ∃ l h m k, SpellsClock l h m k ∧
      hour = (h : ℤ) ∧ minute = (m : ℤ) ∧ second = (k : ℤ) ∧ s = l ++ rest := by
  simp only [readClock, Option.bind_eq_bind, Option.bind_eq_some_iff, Prod.exists,
    digits_eq_some_iff, lit_eq_some_iff]
  constructor
  · rintro ⟨_, _, ⟨h, hour, hh, rfl, rfl⟩, _, rfl, _, _, ⟨m, minute, hm, rfl, rfl⟩, _, rfl, _, _,
      ⟨k, second, hk, rfl, rfl⟩, hr⟩
    cases hr
    exact ⟨_, _, _, _, ⟨h, m, k, hh, hm, hk, rfl⟩, rfl, rfl, rfl, by simp⟩
  · rintro ⟨_, _, _, _, ⟨h, m, k, hh, hm, hk, rfl⟩, rfl, rfl, rfl, rfl⟩
    have hs : h ++ ':' :: (m ++ ':' :: k) ++ rest = h ++ ':' :: (m ++ ':' :: (k ++ rest)) := by
      simp
    exact ⟨_, _, ⟨h, _, hh, rfl, hs⟩, _, rfl, _, _, ⟨m, _, hm, rfl, rfl⟩, _, rfl, _, _,
      ⟨k, _, hk, rfl, rfl⟩, rfl⟩

/-- The first three of the digits, padded with zeros, are the milliseconds. -/
theorem decimal_first3 {l : List Char} (h : ∀ c ∈ l, c.isDigit = true) :
    decimal ((l ++ ['0', '0', '0']).take 3) = decimal l * 1000 / 10 ^ l.length := by
  rcases l with _ | ⟨a, _ | ⟨b, _ | ⟨c, l⟩⟩⟩
  · rfl
  · have happ := decimal_append [a] ['0', '0']
    have hzero : decimal ['0', '0'] = 0 := rfl
    simp only [List.cons_append, List.nil_append, List.length_cons, List.length_nil, hzero] at happ
    simp [happ]
    omega
  · have happ := decimal_append [a, b] ['0']
    have hzero : decimal ['0'] = 0 := rfl
    simp only [List.cons_append, List.nil_append, List.length_cons, List.length_nil, hzero] at happ
    simp [happ]
    omega
  · have hlt : decimal l < 10 ^ l.length := decimal_lt fun d hd => h d (by simp [hd])
    have happ := decimal_append [a, b, c] l
    have hpow : 10 ^ (l.length + 1 + 1 + 1) = 1000 * 10 ^ l.length := by ring
    simp only [List.cons_append, List.nil_append] at happ
    simp only [List.cons_append, List.take_succ_cons, List.take_zero, List.length_cons, happ, hpow]
    rw [mul_comm _ 1000, Nat.mul_div_mul_left _ _ (by norm_num), mul_comm (decimal [a, b, c]),
      Nat.mul_add_div (by positivity), Nat.div_eq_of_lt hlt, Nat.add_zero]

theorem takeWhile_append_of_stop {p : Char → Bool} {l rest : List Char} (h : ∀ c ∈ l, p c = true)
    (hrest : ∀ c ∈ rest.head?, p c = false) : (l ++ rest).takeWhile p = l := by
  rw [List.takeWhile_append_of_pos h]
  cases rest with
  | nil => simp
  | cons c rest => simp [hrest c rfl]

theorem readFraction_append {l fraction rest : List Char} (h : SpellsFraction l fraction)
    (hlen : fraction.length ≤ 9) (hrest : ∀ c ∈ rest.head?, c.isDigit = false ∧ c ≠ '.') :
    readFraction (l ++ rest) =
      some (((decimal fraction * 1000 / 10 ^ fraction.length : ℕ) : ℤ), rest) := by
  rcases h with ⟨rfl, rfl⟩ | ⟨rfl, hne, hdigit⟩
  · have hlit : lit rest '.' = none := by
      cases rest with
      | nil => rfl
      | cons c rest => simp [lit, stripPrefix, (hrest c rfl).2]
    rw [List.nil_append, readFraction, hlit]
    rfl
  · have htake := takeWhile_append_of_stop hdigit fun c hc => (hrest c hc).1
    have hpos : ¬ (fraction.length = 0 ∨ 9 < fraction.length) := by
      have := List.length_pos_iff.mpr hne
      omega
    have hlit : lit ('.' :: fraction ++ rest) '.' = some (fraction ++ rest) :=
      lit_eq_some_iff.mpr rfl
    rw [readFraction, hlit]
    simp only [htake, if_neg hpos, List.take_left, List.drop_left, decimal_first3 hdigit]

theorem readFraction_eq_some {s rest : List Char} {millis : ℤ}
    (h : readFraction s = some (millis, rest)) : ∃ l fraction, SpellsFraction l fraction ∧
      fraction.length ≤ 9 ∧ s = l ++ rest ∧
        millis = ((decimal fraction * 1000 / 10 ^ fraction.length : ℕ) : ℤ) := by
  unfold readFraction at h
  split at h
  · cases h
    exact ⟨[], [], .inl ⟨rfl, rfl⟩, by simp, rfl, rfl⟩
  · rename_i tail hlit
    obtain rfl := lit_eq_some_iff.mp hlit
    simp only at h
    split_ifs at h with hlen
    have hdigit : ∀ c ∈ tail.takeWhile Char.isDigit, c.isDigit = true := fun c hc =>
      List.mem_takeWhile_imp hc
    have htake : tail.take (tail.takeWhile Char.isDigit).length = tail.takeWhile Char.isDigit :=
      (List.prefix_iff_eq_take.mp (List.takeWhile_prefix _)).symm
    have hdrop : tail.drop (tail.takeWhile Char.isDigit).length = tail.dropWhile Char.isDigit :=
      calc tail.drop (tail.takeWhile Char.isDigit).length
          = (tail.takeWhile Char.isDigit ++ tail.dropWhile Char.isDigit).drop
              (tail.takeWhile Char.isDigit).length := by rw [List.takeWhile_append_dropWhile]
        _ = tail.dropWhile Char.isDigit := List.drop_left
    simp only [htake, hdrop, decimal_first3 hdigit] at h
    cases h
    simp only [not_or, not_lt] at hlen
    refine ⟨'.' :: tail.takeWhile Char.isDigit, tail.takeWhile Char.isDigit,
      .inr ⟨rfl, List.length_pos_iff.mp (Nat.pos_of_ne_zero hlen.1), hdigit⟩, hlen.2, ?_, rfl⟩
    rw [List.cons_append, List.takeWhile_append_dropWhile]

/-- The digits of an offset after its sign. -/
theorem readHoursMinutes_eq_some_iff {rest : List Char} {sign offset : ℤ} :
    (do
      let (oh, rest) ← digits rest 2
      let rest ← lit rest ':'
      let (om, rest) ← digits rest 2
      if rest ≠ [] ∨ 23 < oh ∨ 59 < om then none else some (sign * (oh * 60 + om))) = some offset ↔
      ∃ h m hours minutes, Spells 2 h hours ∧ Spells 2 m minutes ∧ hours ≤ 23 ∧ minutes ≤ 59 ∧
        offset = sign * (hours * 60 + minutes) ∧ rest = h ++ ':' :: m := by
  simp only [Option.bind_eq_bind, Option.bind_eq_some_iff, Prod.exists, digits_eq_some_iff,
    lit_eq_some_iff]
  constructor
  · rintro ⟨_, _, ⟨h, hours, hh, rfl, rfl⟩, _, rfl, _, _, ⟨m, minutes, hm, rfl, rfl⟩, hr⟩
    split_ifs at hr with hbad
    simp only [ne_eq, not_or, not_not, not_lt] at hbad
    cases hr
    exact ⟨h, m, hours, minutes, hh, hm, by omega, by omega, rfl, by rw [hbad.1, List.append_nil]⟩
  · rintro ⟨h, m, hours, minutes, hh, hm, hhours, hminutes, rfl, rfl⟩
    refine ⟨_, _, ⟨h, _, hh, rfl, rfl⟩, _, rfl, _, [], ⟨m, _, hm, rfl, (List.append_nil _).symm⟩, ?_⟩
    rw [if_neg]
    simp only [ne_eq, not_true_eq_false, false_or, not_or, not_lt]
    omega

theorem readOffset_eq_some_iff {s : List Char} {offset : ℤ} :
    readOffset s = some offset ↔ SpellsOffset s offset := by
  unfold readOffset SpellsOffset
  split_ifs with hz
  · simp only [Option.some.injEq, hz, true_and, eq_comm (a := offset)]
    refine (or_iff_left ?_).symm
    rintro ⟨sign, factor, h, m, hours, minutes, hsign, -, -, -, -, -, rfl⟩
    rcases hz with hz | hz <;> rcases hsign with ⟨rfl, -⟩ | ⟨rfl, -⟩ <;> simp at hz
  · simp only [hz, false_and, false_or]
    constructor
    · intro hread
      split at hread
      · rename_i rest
        obtain ⟨h, m, hours, minutes, hh, hm, hhours, hminutes, rfl, rfl⟩ :=
          readHoursMinutes_eq_some_iff.mp hread
        exact ⟨'+', 1, h, m, hours, minutes, .inl ⟨rfl, rfl⟩, hh, hm, hhours, hminutes, rfl, rfl⟩
      · rename_i rest
        obtain ⟨h, m, hours, minutes, hh, hm, hhours, hminutes, rfl, rfl⟩ :=
          readHoursMinutes_eq_some_iff.mp hread
        exact ⟨'-', -1, h, m, hours, minutes, .inr ⟨rfl, rfl⟩, hh, hm, hhours, hminutes, rfl, rfl⟩
      · cases hread
    · rintro ⟨sign, factor, h, m, hours, minutes, ⟨rfl, rfl⟩ | ⟨rfl, rfl⟩, hh, hm, hhours, hminutes,
        rfl, rfl⟩
      · exact readHoursMinutes_eq_some_iff.mpr
          ⟨h, m, hours, minutes, hh, hm, hhours, hminutes, rfl, rfl⟩
      · exact readHoursMinutes_eq_some_iff.mpr
          ⟨h, m, hours, minutes, hh, hm, hhours, hminutes, rfl, rfl⟩

/-- An offset starts with neither a digit nor a dot. -/
theorem SpellsOffset.head {l : List Char} {offset : ℤ} (h : SpellsOffset l offset) :
    ∀ c ∈ l.head?, c.isDigit = false ∧ c ≠ '.' := by
  rcases h with ⟨rfl | rfl, -⟩ | ⟨sign, factor, h, m, hours, minutes, hsign, -, -, -, -, -, rfl⟩
  · simp
  · simp
  · rcases hsign with ⟨rfl, -⟩ | ⟨rfl, -⟩ <;> simp

/-- The fields that are read of a date-time. -/
def DateTime.fields (t : DateTime) : Fields where
  year := t.date.year
  month := t.date.month
  day := t.date.day
  hour := t.hour
  minute := t.minute
  second := if t.second = 60 then 59 else t.second
  millis := if t.second = 60 then 999 else t.fractionMs
  offsetMinutes := t.offset

/-- A date and a time of day that are in range. -/
theorem inRange_iff {year hour minute second lastSecond : ℤ} {month day : ℕ} :
    inRange year month day hour minute second lastSecond = true ↔
      (1 ≤ month ∧ month ≤ 12) ∧ (1 ≤ day ∧ day ≤ daysInMonth year month) ∧ hour ≤ 23 ∧
        minute ≤ 59 ∧ second ≤ lastSecond := by
  simp only [inRange, decide_eq_true_eq]
  by_cases h : month ≤ 12
  · rw [daysIn_eq year h]
    omega
  · omega

theorem readRfc3339_eq_some_iff {s : List Char} {f : Fields} :
    readRfc3339 s = some f ↔
      ∃ t : DateTime, t.IsRfc3339 s ∧ t.fraction.length ≤ 9 ∧ f = t.fields := by
  simp only [readRfc3339, Option.bind_eq_bind, Option.bind_eq_some_iff, Prod.exists,
    digits_eq_some_iff, lit_eq_some_iff, stripPrefix_eq_some_iff, readClock_eq_some_iff]
  constructor
  · rintro ⟨_, _, ⟨y, year, hy, rfl, rfl⟩, _, rfl, _, _, ⟨m, month, hm, rfl, rfl⟩, _, rfl, _, _,
      ⟨d, day, hd, rfl, rfl⟩, tail, ⟨sep, hsep, rfl⟩, _, _, _, tail',
      ⟨clock, hour, minute, second, hclock, rfl, rfl, rfl, rfl⟩, hr⟩
    by_cases hrange : inRange year month day hour minute second 60 = true
    swap
    · rw [if_pos hrange] at hr
      cases hr
    rw [if_neg (not_not.mpr hrange)] at hr
    obtain ⟨⟨millis, rest⟩, hfraction, hr⟩ := Option.bind_eq_some_iff.mp hr
    obtain ⟨offset, hoffset, hr⟩ := Option.bind_eq_some_iff.mp hr
    obtain ⟨hmonth, hday, hhour, hminute, hsecond⟩ := inRange_iff.mp hrange
    obtain ⟨l, digits, hl, hlen, rfl, rfl⟩ := readFraction_eq_some hfraction
    refine ⟨⟨⟨year, month, day, hmonth, hday⟩, hour, minute, second, digits, offset⟩,
      ⟨y, year, m, d, sep, clock, l, rest, hy, rfl, hm, hd, hsep, hclock, Int.ofNat_le.mp hhour,
        Int.ofNat_le.mp hminute, Int.ofNat_le.mp hsecond, hl, readOffset_eq_some_iff.mp hoffset,
        rfl⟩, hlen, ?_⟩
    have hsixty : ((second : ℤ) = 60) ↔ second = 60 := by omega
    rw [← Option.some.inj hr]
    simp only [DateTime.fields, hsixty, DateTime.fractionMs]
    split_ifs <;> rfl
  · rintro ⟨t, ⟨y, year, m, d, sep, clock, l, offset, hy, hyear, hm, hd, hsep, hclock, hhour,
      hminute, hsecond, hl, hoffset, rfl⟩, hlen, rfl⟩
    refine ⟨_, _, ⟨y, year, hy, rfl, rfl⟩, _, rfl, _, _, ⟨m, _, hm, rfl, rfl⟩, _, rfl, _, _,
      ⟨d, _, hd, rfl, rfl⟩, _, ⟨sep, hsep, rfl⟩, _, _, _, _,
      ⟨clock, _, _, _, hclock, rfl, rfl, rfl, rfl⟩, ?_⟩
    have hrange : inRange year t.date.month t.date.day t.hour t.minute t.second 60 = true := by
      rw [← hyear]
      exact inRange_iff.mpr ⟨t.date.month_mem, t.date.day_mem, by omega, by omega, by omega⟩
    rw [if_neg (not_not.mpr hrange), readFraction_append hl hlen hoffset.head]
    have hsixty : ((t.second : ℤ) = 60) ↔ t.second = 60 := by omega
    simp only [Option.bind_some, readOffset_eq_some_iff.mpr hoffset, DateTime.fields, hyear,
      hsixty, DateTime.fractionMs]
    split_ifs <;> rfl

theorem readUsDatetime_eq_some_iff {s : List Char} {f : Fields} :
    readUsDatetime s = some f ↔ ∃ t : DateTime, t.IsUsDatetime s ∧ f = t.fields := by
  simp only [readUsDatetime, Option.bind_eq_bind, Option.bind_eq_some_iff, Prod.exists,
    digits_eq_some_iff, lit_eq_some_iff, readClock_eq_some_iff]
  constructor
  · rintro ⟨_, _, ⟨m, month, hm, rfl, rfl⟩, _, rfl, _, _, ⟨d, day, hd, rfl, rfl⟩, _, rfl, _, _,
      ⟨y, year, hy, rfl, rfl⟩, _, rfl, _, _, _, rest,
      ⟨clock, hour, minute, second, hclock, rfl, rfl, rfl, rfl⟩, hr⟩
    split_ifs at hr with hbad
    · cases hr
    simp only [ne_eq, not_or, not_not] at hbad
    obtain ⟨rfl, hrange⟩ := hbad
    obtain ⟨hmonth, hday, hhour, hminute, hsecond⟩ := inRange_iff.mp hrange
    refine ⟨⟨⟨year, month, day, hmonth, hday⟩, hour, minute, second, [], 0⟩,
      ⟨y, year, m, d, clock, hy, rfl, hm, hd, hclock, Int.ofNat_le.mp hhour,
        Int.ofNat_le.mp hminute, Int.ofNat_le.mp hsecond, rfl, rfl, by rw [List.append_nil]⟩, ?_⟩
    have hsixty : second ≠ 60 := by omega
    rw [← Option.some.inj hr]
    simp [DateTime.fields, hsixty, DateTime.fractionMs, decimal]
  · rintro ⟨t, ⟨y, year, m, d, clock, hy, hyear, hm, hd, hclock, hhour, hminute, hsecond, hfraction,
      hoffset, rfl⟩, rfl⟩
    refine ⟨_, _, ⟨m, _, hm, rfl, rfl⟩, _, rfl, _, _, ⟨d, _, hd, rfl, rfl⟩, _, rfl, _, _,
      ⟨y, year, hy, rfl, rfl⟩, _, rfl, _, _, _, [],
      ⟨clock, _, _, _, hclock, rfl, rfl, rfl, (List.append_nil _).symm⟩, ?_⟩
    have hrange : inRange year t.date.month t.date.day t.hour t.minute t.second 59 = true := by
      rw [← hyear]
      exact inRange_iff.mpr ⟨t.date.month_mem, t.date.day_mem, by omega, by omega, by omega⟩
    have hsixty : t.second ≠ 60 := by omega
    rw [if_neg (by simp [hrange])]
    simp [DateTime.fields, hyear, hsixty, DateTime.fractionMs, hfraction, hoffset, decimal]

/-! ### Milliseconds of a text -/

/-- The bounds of what a text can spell. -/
structure DateTime.Bounded (t : DateTime) : Prop where
  year : 0 ≤ t.date.year ∧ t.date.year ≤ 9999
  hour : t.hour ≤ 23
  minute : t.minute ≤ 59
  second : t.second ≤ 60
  fraction : t.fractionMs ≤ 999
  offset : -1439 ≤ t.offset ∧ t.offset ≤ 1439

theorem SpellsFraction.ms_le {l fraction : List Char} (h : SpellsFraction l fraction) :
    decimal fraction * 1000 / 10 ^ fraction.length ≤ 999 := by
  have hdigit : ∀ c ∈ fraction, c.isDigit = true := by
    rcases h with ⟨-, rfl⟩ | ⟨-, -, h⟩
    · simp
    · exact h
  have hlt := decimal_lt hdigit
  refine Nat.le_of_lt_succ ((Nat.div_lt_iff_lt_mul (by positivity)).mpr ?_)
  omega

theorem SpellsOffset.bounds {l : List Char} {offset : ℤ} (h : SpellsOffset l offset) :
    -1439 ≤ offset ∧ offset ≤ 1439 := by
  rcases h with ⟨-, rfl⟩ | ⟨sign, factor, h, m, hours, minutes, hsign, -, -, hh, hm, rfl, -⟩
  · omega
  · rcases hsign with ⟨-, rfl⟩ | ⟨-, rfl⟩ <;> omega

namespace DateTime

variable {t : DateTime} {l : List Char}

theorem IsRfc3339.bounded (h : t.IsRfc3339 l) : t.Bounded := by
  obtain ⟨y, year, m, d, sep, clock, fraction, offset, hy, hyear, -, -, -, -, hhour, hminute,
    hsecond, hfraction, hoffset, -⟩ := h
  have hlt := hy.lt
  exact ⟨by omega, hhour, hminute, hsecond, hfraction.ms_le, hoffset.bounds⟩

theorem IsUsDatetime.bounded (h : t.IsUsDatetime l) : t.Bounded := by
  obtain ⟨y, year, m, d, clock, hy, hyear, -, -, -, hhour, hminute, hsecond, hfraction, hoffset, -⟩ :=
    h
  have hlt := hy.lt
  have hms : t.fractionMs = 0 := by simp [fractionMs, hfraction, decimal]
  exact ⟨by omega, hhour, hminute, by omega, by omega, by omega⟩

/-- The days before a date of the years 0 to 9999. -/
theorem Bounded.number_mem (h : t.Bounded) : -719528 ≤ t.date.number ∧ t.date.number < 2932897 := by
  obtain ⟨hlow, hhigh⟩ := t.date.number_mem
  have hfirst := yearStart_mono.monotone h.year.1
  have hlast := yearStart_mono.monotone (show t.date.year + 1 ≤ 10000 by have := h.year.2; omega)
  have hzero : yearStart 0 = -719528 := by norm_num [yearStart]
  have hend : yearStart 10000 = 2932897 := by norm_num [yearStart]
  omega

theorem Bounded.daysFromCivil_eq (h : t.Bounded) :
    daysFromCivil t.date.year t.date.month t.date.day = .ok t.date.number := by
  have hnum := h.number_mem
  have hyear := h.year
  refine (daysFromCivil_eq_ok_iff ⟨by omega, by omega⟩).mpr ⟨rfl, by omega, by omega⟩

end DateTime

theorem i64_of {n : ℤ} (h : I64 n) : i64 n = .ok n := if_pos h

theorem orRefuseI64_of {n : ℤ} (h : I64 n) : orRefuseI64 n = .ok n := if_pos h

theorem ok_bind {α γ : Type} (x : α) (f : α → Checked γ) : ((.ok x : Checked α) >>= f) = f x := rfl

/-- The seconds and milliseconds that are read. -/
theorem DateTime.Bounded.fields {t : DateTime} (h : t.Bounded) :
    t.fields.second * 1000 + t.fields.millis = t.secondMs ∧ 0 ≤ t.fields.second ∧
      t.fields.second ≤ 59 ∧ 0 ≤ t.fields.millis ∧ t.fields.millis ≤ 999 := by
  have hsecond := h.second
  have hfraction := h.fraction
  simp only [DateTime.fields, secondMs]
  split_ifs <;> omega

theorem DateTime.Bounded.daysFromCivil_fields {t : DateTime} (h : t.Bounded) :
    daysFromCivil t.fields.year t.fields.month t.fields.day = .ok t.date.number :=
  h.daysFromCivil_eq

/-- No number on the way leaves 64 bits. -/
theorem rfc3339Ms_of_fields {s : String} {t : DateTime} (h : t.Bounded)
    (hread : readRfc3339 (trim s.toList) = some t.fields) :
    rfc3339Ms s = kept (t.instant t.date.number) := by
  have hnum := h.number_mem
  have hdays := h.daysFromCivil_fields
  have hfields := h.fields
  obtain ⟨-, hhour, hminute, -, -, hoffset⟩ := h
  have hhour' : t.fields.hour = t.hour := rfl
  have hminute' : t.fields.minute = t.minute := rfl
  have hoffset' : t.fields.offsetMinutes = t.offset := rfl
  have hinstant : t.instant t.date.number = (t.date.number * 86400 + t.hour * 3600 + t.minute * 60 +
      t.fields.second + -(t.offset * 60)) * 1000 + t.fields.millis := by
    rw [DateTime.instant]
    omega
  rw [hinstant]
  simp (disch := (simp only [I64]; omega)) only [rfc3339Ms, hread, orRefuse, ok_bind, pure_bind,
    hdays, hhour', hminute', hoffset', i64Sum, List.foldlM_cons, List.foldlM_nil, i64_of,
    orRefuseI64_of, zero_add]

theorem usDatetimeMs_of_fields {s : String} {t : DateTime} (h : t.Bounded) (hsecond : t.second ≤ 59)
    (hfraction : t.fraction = []) (hoffset : t.offset = 0)
    (hread : readUsDatetime (trim s.toList) = some t.fields) :
    usDatetimeMs s = kept (t.instant t.date.number) := by
  have hnum := h.number_mem
  have hdays := h.daysFromCivil_fields
  obtain ⟨-, hhour, hminute, -, -, -⟩ := h
  have hhour' : t.fields.hour = t.hour := rfl
  have hminute' : t.fields.minute = t.minute := rfl
  have hsecond' : t.fields.second = t.second := if_neg (by omega)
  have hinstant : t.instant t.date.number =
      (t.date.number * 86400 + t.hour * 3600 + t.minute * 60 + t.second) * 1000 := by
    have hms : t.secondMs = t.second * 1000 := by
      simp [DateTime.secondMs, DateTime.fractionMs, hfraction, decimal, show t.second ≠ 60 by omega]
    rw [DateTime.instant]
    omega
  rw [hinstant]
  simp (disch := (simp only [I64]; omega)) only [usDatetimeMs, hread, orRefuse, ok_bind, pure_bind,
    hdays, hhour', hminute', hsecond', i64Sum, List.foldlM_cons, List.foldlM_nil, i64_of,
    orRefuseI64_of, zero_add]

theorem kept_eq_ok_iff {n : ℤ} {ms : ℕ} : kept n = .ok ms ↔ n = ms ∧ ms ≤ maxTimeMs := by
  rw [kept]
  split_ifs with h
  · rw [Except.ok.injEq]
    omega
  · refine iff_of_false (by simp) ?_
    omega

theorem kept_ne_overflow {n : ℤ} : kept n ≠ .error .overflow := by
  rw [kept]
  split_ifs <;> simp

/-- What is read of an RFC 3339 text. -/
theorem rfc3339Ms_eq_ok_iff {s : String} {ms : ℕ} : rfc3339Ms s = .ok ms ↔
    ∃ t : DateTime, t.IsRfc3339 (trim s.toList) ∧ t.fraction.length ≤ 9 ∧
      t.instant t.date.number = ms ∧ ms ≤ maxTimeMs := by
  constructor
  · intro h
    have hread : ∃ f, readRfc3339 (trim s.toList) = some f := by
      rw [rfc3339Ms] at h
      cases hread : readRfc3339 (trim s.toList) with
      | none =>
        rw [hread] at h
        cases h
      | some f => exact ⟨f, rfl⟩
    obtain ⟨f, hread⟩ := hread
    obtain ⟨t, ht, hlen, rfl⟩ := readRfc3339_eq_some_iff.mp hread
    rw [rfc3339Ms_of_fields ht.bounded hread] at h
    exact ⟨t, ht, hlen, kept_eq_ok_iff.mp h⟩
  · rintro ⟨t, ht, hlen, hms⟩
    rw [rfc3339Ms_of_fields ht.bounded (readRfc3339_eq_some_iff.mpr ⟨t, ht, hlen, rfl⟩)]
    exact kept_eq_ok_iff.mpr hms

theorem usDatetimeMs_of_text {s : String} {t : DateTime} (h : t.IsUsDatetime (trim s.toList)) :
    usDatetimeMs s = kept (t.instant t.date.number) := by
  have hread := readUsDatetime_eq_some_iff.mpr ⟨t, h, rfl⟩
  have hbounded := h.bounded
  obtain ⟨y, year, m, d, clock, -, -, -, -, -, -, -, hsecond, hfraction, hoffset, -⟩ := h
  exact usDatetimeMs_of_fields hbounded hsecond hfraction hoffset hread

/-- What is read of a `MM/dd/yyyy HH:mm:ss` text. -/
theorem usDatetimeMs_eq_ok_iff {s : String} {ms : ℕ} : usDatetimeMs s = .ok ms ↔
    ∃ t : DateTime, t.IsUsDatetime (trim s.toList) ∧ t.instant t.date.number = ms ∧
      ms ≤ maxTimeMs := by
  constructor
  · intro h
    have hread : ∃ f, readUsDatetime (trim s.toList) = some f := by
      rw [usDatetimeMs] at h
      cases hread : readUsDatetime (trim s.toList) with
      | none =>
        rw [hread] at h
        cases h
      | some f => exact ⟨f, rfl⟩
    obtain ⟨f, hread⟩ := hread
    obtain ⟨t, ht, rfl⟩ := readUsDatetime_eq_some_iff.mp hread
    rw [usDatetimeMs_of_text ht] at h
    exact ⟨t, ht, kept_eq_ok_iff.mp h⟩
  · rintro ⟨t, ht, hms⟩
    rw [usDatetimeMs_of_text ht]
    exact kept_eq_ok_iff.mpr hms

theorem no_overflow (s : String) :
    rfc3339Ms s ≠ .error .overflow ∧ usDatetimeMs s ≠ .error .overflow := by
  constructor
  · cases hread : readRfc3339 (trim s.toList) with
    | none => simp [rfc3339Ms, hread, orRefuse, bind, Except.bind]
    | some f =>
      obtain ⟨t, ht, hlen, rfl⟩ := readRfc3339_eq_some_iff.mp hread
      rw [rfc3339Ms_of_fields ht.bounded hread]
      exact kept_ne_overflow
  · cases hread : readUsDatetime (trim s.toList) with
    | none => simp [usDatetimeMs, hread, orRefuse, bind, Except.bind]
    | some f =>
      obtain ⟨t, ht, rfl⟩ := readUsDatetime_eq_some_iff.mp hread
      rw [usDatetimeMs_of_text ht]
      exact kept_ne_overflow

/-! ### Calendar arithmetic -/

/-- A date that 64 bits count has a year of 64 bits. -/
theorem year_of_number {a : Date} (h : I64 a.number) : I64 a.year := by
  obtain ⟨hlow, hhigh⟩ := a.number_mem
  simp only [I64, yearStart] at *
  omega

/-- Dates and day counts: the conversions undo each other and keep the order, as far as 64 bits
hold the shifted count, and the count is the one day by day. A text is read exactly if, without the
white space around it, it is a date-time of at most nine digits of a fraction in the years that are
kept; the result is the number of its milliseconds, and nothing overflows. -/
theorem calendar_exact :
    (∀ date : Date, I64 date.year → ∀ days, I64 days →
      (daysFromCivil date.year date.month date.day = .ok days ↔
        DayCount date days ∧ days + 719468 < 2 ^ 63) ∧
      (civilFromDays days = .ok (date.year, date.month, date.day) ↔
        DayCount date days ∧ days + 719468 < 2 ^ 63)) ∧
    (∀ days r, I64 days → civilFromDays days = .ok r →
      ∃ date : Date, I64 date.year ∧ r = (date.year, date.month, date.day)) ∧
    (∀ a b : Date, ∀ m n, DayCount a m → DayCount b n → (m < n ↔ a.Before b)) ∧
    (∀ s ms, rfc3339Ms s = .ok ms ↔ ∃ (t : DateTime) (days : ℤ), t.IsRfc3339 (trim s.toList) ∧
      t.fraction.length ≤ 9 ∧ DayCount t.date days ∧ t.instant days = ms ∧ ms ≤ maxTimeMs) ∧
    (∀ s ms, usDatetimeMs s = .ok ms ↔ ∃ (t : DateTime) (days : ℤ),
      t.IsUsDatetime (trim s.toList) ∧ DayCount t.date days ∧ t.instant days = ms ∧
        ms ≤ maxTimeMs) ∧
    ∀ s, rfc3339Ms s ≠ .error .overflow ∧ usDatetimeMs s ≠ .error .overflow := by
  simp only [dayCount_iff]
  refine ⟨fun date hyear days hdays => ⟨?_, ?_⟩, fun days r hdays h => ?_, ?_, fun s ms => ?_,
    fun s ms => ?_, no_overflow⟩
  · rw [daysFromCivil_eq_ok_iff hyear]
    exact and_congr_right fun _ => and_iff_right hdays.1
  · rw [civilFromDays_eq_ok_iff hdays, and_comm]
    refine and_congr_left fun _ => ?_
    constructor
    · rintro ⟨a, rfl, ha⟩
      rw [Prod.mk.injEq, Prod.mk.injEq] at ha
      rw [Date.ext ha.1 ha.2.1 ha.2.2]
    · intro h
      exact ⟨date, h, rfl⟩
  · obtain ⟨-, date, rfl, rfl⟩ := (civilFromDays_eq_ok_iff hdays).mp h
    exact ⟨date, year_of_number hdays, rfl⟩
  · rintro a b m n rfl rfl
    exact Date.number_lt_number
  · rw [rfc3339Ms_eq_ok_iff]
    simp
  · rw [usDatetimeMs_eq_ok_iff]
    simp

theorem calendar_exact_leap_day : ∃ (t : DateTime) (days : ℤ),
    t.IsRfc3339 (trim "2024-02-29T12:34:56.789Z".toList) ∧ t.fraction.length ≤ 9 ∧
      DayCount t.date days ∧ t.instant days = (1709210096789 : ℕ) ∧ 1709210096789 ≤ maxTimeMs := by
  have hread : (rfc3339Ms "2024-02-29T12:34:56.789Z").toOption = some 1709210096789 := by
    decide +kernel
  exact (calendar_exact.2.2.2.1 _ _).mp (toOption_eq_some.mp hread)

/-- Ten digits of a fraction, on the first day of 2024. -/
def longFraction : DateTime where
  date := ⟨2024, 1, 1, Date.epoch.month_mem, by decide⟩
  hour := 0
  minute := 0
  second := 0
  fraction := ['1', '2', '3', '4', '5', '6', '7', '8', '9', '0']
  offset := 0

/-- A date-time whose fraction has ten digits is refused. -/
theorem long_fraction_refused : ¬ ∀ (s : String) (t : DateTime) (days : ℤ) (ms : ℕ),
    t.IsRfc3339 s.toList → DayCount t.date days → t.instant days = ms → ms ≤ maxTimeMs →
      rfc3339Ms s = .ok ms := by
  intro h
  have hone : Spells 2 ['0', '1'] 1 := ⟨rfl, by simp, rfl⟩
  have hzero : Spells 2 ['0', '0'] 0 := ⟨rfl, by simp, rfl⟩
  have htext : longFraction.IsRfc3339 "2024-01-01T00:00:00.1234567890Z".toList :=
    ⟨['2', '0', '2', '4'], 2024, ['0', '1'], ['0', '1'], 'T',
      ['0', '0', ':', '0', '0', ':', '0', '0'], '.' :: longFraction.fraction, ['Z'],
      ⟨rfl, by simp, rfl⟩, rfl, hone, hone, by simp, ⟨_, _, _, hzero, hzero, hzero, rfl⟩,
      by decide, by decide, by decide, .inr ⟨rfl, by decide, by simp [longFraction]⟩,
      .inl ⟨.inl rfl, rfl⟩, by decide +kernel⟩
  have hdays : longFraction.date.number = 19723 := by decide +kernel
  have hinstant : longFraction.instant 19723 = (1704067200123 : ℕ) := by decide +kernel
  have hrefused : (rfc3339Ms "2024-01-01T00:00:00.1234567890Z").toOption = none := by
    decide +kernel
  rw [h _ _ _ _ htext (dayCount_iff.mpr hdays) hinstant (by decide +kernel)] at hrefused
  cases hrefused

end RizzyVault.Import.Time
