import Mathlib

/-!
# Digit strings as fractions

A string of digits in base `n` whose last digit is not zero names the fraction `0.d₁d₂…`, and the
lexicographic order of such strings is the order of the fractions. Between two of them there is
another one; without its trailing zeros a string keeps its place.

## Main definitions

* `digitsBetween`: the digits of a fraction between two bounds, within a number of digits.
* `dropZeros`: a string without its trailing zeros.

## Main results

* `digitsBetween_spec`: the digits found lie strictly between the bounds.
* `not_between_of_digitsBetween_eq_none`: where none are found there are none, unless the bounds are
  crowded (`IsCrowded`).
* `dropZeros_lt_dropZeros`: strings of one length keep their order without trailing zeros.
-/

namespace RizzyVault.Lib

variable {n : ℕ}

/-- The first digit, zero past the end. -/
def headDigit (l : List (Fin n)) : ℕ := (l.head?.map Fin.val).getD 0

/-- The digits of a fraction above `lower` and, if there is one, below `upper`: copies `lower` until
the upper bound leaves room for a digit strictly between, and puts the middle one there. -/
def digitsBetween [NeZero n] (lower : List (Fin n)) (upper : Option (List (Fin n))) :
    ℕ → Option (List (Fin n))
  | 0 => none
  | room + 1 =>
    let lo := headDigit lower
    let hi := upper.elim n headDigit
    if lo + 2 ≤ hi then some [Fin.ofNat n ((lo + hi) / 2)]
    else
      -- Once a digit is below the upper bound's, whatever follows stays below it.
      let upper := if lo < hi then none else upper.map List.tail
      (digitsBetween lower.tail upper room).map (Fin.ofNat n lo :: ·)

/-- What the digits found satisfy. -/
structure IsBetween (lower : List (Fin n)) (upper : Option (List (Fin n))) (room : ℕ)
    (out : List (Fin n)) : Prop where
  lower : lower < out
  upper : ∀ u ∈ upper, out < u
  length : out.length ≤ room
  last : ∀ d ∈ out.getLast?, d.val ≠ 0

theorem headDigit_cons (d : Fin n) (l : List (Fin n)) : headDigit (d :: l) = d := rfl

theorem headDigit_lt [NeZero n] (l : List (Fin n)) : headDigit l < n := by
  cases l with
  | nil => exact Nat.pos_of_neZero n
  | cons d l => exact d.isLt

theorem lt_cons_of_headDigit_lt {l m : List (Fin n)} {d : Fin n} (h : headDigit l < d) :
    l < d :: m := by
  cases l with
  | nil => exact List.nil_lt_cons d m
  | cons e l => exact List.cons_lt_cons_iff.mpr (.inl h)

theorem lt_cons_headDigit [NeZero n] {l m : List (Fin n)} (h : l.tail < m) :
    l < Fin.ofNat n (headDigit l) :: m := by
  cases l with
  | nil => exact List.nil_lt_cons _ m
  | cons e l =>
    rw [headDigit_cons, Fin.ofNat_val_eq_self]
    exact List.cons_lt_cons_iff.mpr (.inr ⟨rfl, h⟩)

theorem cons_lt_of_lt_headDigit {u m : List (Fin n)} {d : Fin n} (h : d.val < headDigit u) :
    d :: m < u := by
  cases u with
  | nil => exact absurd h (Nat.not_lt_zero _)
  | cons e u => exact List.cons_lt_cons_iff.mpr (.inl h)

/-- Below an upper bound with the same first digit, the rest is below the rest of the bound. -/
theorem tail_lt_tail {l u : List (Fin n)} (h : l < u) (hlast : ∀ d ∈ u.getLast?, d.val ≠ 0)
    (heq : ¬ headDigit l < headDigit u) : l.tail < u.tail := by
  cases u with
  | nil => exact absurd h (List.not_lt_nil _)
  | cons e u =>
    cases l with
    | nil =>
      cases u with
      | nil =>
        have he : e.val ≠ 0 := hlast e rfl
        exact absurd (Nat.pos_of_ne_zero he) heq
      | cons f u => exact List.nil_lt_cons f u
    | cons d l =>
      rcases List.cons_lt_cons_iff.mp h with hlt | ⟨-, hlt⟩
      · exact absurd hlt heq
      · exact hlt

theorem getLast?_tail_of_mem {u : List (Fin n)} {d : Fin n} (h : d ∈ u.tail.getLast?) :
    d ∈ u.getLast? := by
  cases u with
  | nil => exact h
  | cons e u =>
    cases u with
    | nil => cases h
    | cons f u => exact h

/-- The digits found lie strictly between the bounds and end in a digit that is not zero. -/
theorem digitsBetween_spec [NeZero n] {lower out : List (Fin n)} {upper : Option (List (Fin n))}
    {room : ℕ} (hbounds : ∀ u ∈ upper, lower < u) (hlast : ∀ u ∈ upper, ∀ d ∈ u.getLast?, d.val ≠ 0)
    (h : digitsBetween lower upper room = some out) : IsBetween lower upper room out := by
  induction room generalizing lower upper out with
  | zero => cases h
  | succ room ih =>
    rw [digitsBetween] at h
    have hlo := headDigit_lt lower
    have hhi : upper.elim n headDigit ≤ n := by
      cases upper with
      | none => exact le_rfl
      | some u => exact (headDigit_lt u).le
    by_cases hroom : headDigit lower + 2 ≤ upper.elim n headDigit
    · simp only [if_pos hroom, Option.some.injEq] at h
      subst h
      set mid := (headDigit lower + upper.elim n headDigit) / 2 with hmid
      have hval : (Fin.ofNat n mid).val = mid := Nat.mod_eq_of_lt (by omega)
      refine ⟨lt_cons_of_headDigit_lt (by omega), fun u hu => ?_, Nat.succ_le_succ (Nat.zero_le _),
        fun d hd => ?_⟩
      · obtain rfl : upper = some u := hu
        refine cons_lt_of_lt_headDigit ?_
        have : mid < headDigit u := by
          simp only [Option.elim_some] at hmid hroom
          omega
        omega
      · obtain rfl : Fin.ofNat n mid = d := Option.some.inj hd
        omega
    · simp only [if_neg hroom, Option.map_eq_some_iff] at h
      obtain ⟨rest, hrest, rfl⟩ := h
      have hval : (Fin.ofNat n (headDigit lower)).val = headDigit lower := Nat.mod_eq_of_lt hlo
      by_cases hlt : headDigit lower < upper.elim n headDigit
      · rw [if_pos hlt] at hrest
        have hspec := ih (by simp) (by simp) hrest
        refine ⟨lt_cons_headDigit hspec.lower, fun u hu => ?_, Nat.succ_le_succ hspec.length, ?_⟩
        · obtain rfl : upper = some u := hu
          exact cons_lt_of_lt_headDigit (by rwa [hval])
        · cases rest with
          | nil => exact absurd hspec.lower (List.not_lt_nil _)
          | cons d rest => exact hspec.last
      · rw [if_neg hlt] at hrest
        cases upper with
        | none => exact absurd hlo hlt
        | some u =>
          have hlu : lower < u := hbounds u rfl
          have hu : ∀ d ∈ u.getLast?, d.val ≠ 0 := hlast u rfl
          have htail := tail_lt_tail hlu hu hlt
          have hspec := ih (fun v hv => by cases hv; exact htail)
            (fun v hv d hd => by cases hv; exact hu d (getLast?_tail_of_mem hd)) hrest
          refine ⟨lt_cons_headDigit hspec.lower, fun v hv => ?_, Nat.succ_le_succ hspec.length, ?_⟩
          · cases hv
            cases u with
            | nil => exact absurd hlu (List.not_lt_nil _)
            | cons e u =>
              have hle : headDigit lower = e.val ∨ headDigit lower < e.val := by
                rcases lower with - | ⟨d, lower⟩
                · exact Nat.eq_or_lt_of_le (Nat.zero_le _)
                · rcases List.cons_lt_cons_iff.mp hlu with h' | ⟨rfl, -⟩
                  · exact .inr h'
                  · exact .inl rfl
              refine List.cons_lt_cons_iff.mpr (.inr ⟨Fin.ext ?_, hspec.upper u rfl⟩)
              rw [hval]
              exact hle.resolve_right hlt
          · cases rest with
            | nil => exact absurd hspec.lower (List.not_lt_nil _)
            | cons d rest => exact hspec.last

/-! ### Where no digits are found -/

/-- The greatest digit. -/
def topDigit (n : ℕ) [NeZero n] : Fin n := Fin.ofNat n (n - 1)

theorem val_topDigit [NeZero n] : (topDigit n).val = n - 1 :=
  Nat.mod_eq_of_lt (Nat.sub_lt (Nat.pos_of_neZero n) Nat.one_pos)

/-- Without an upper bound no digits are found exactly above a run of greatest digits. -/
theorem digitsBetween_none_eq_none [NeZero n] (hn : 1 < n) {lower : List (Fin n)} {room : ℕ} :
    digitsBetween lower none room = none ↔ List.replicate room (topDigit n) <+: lower := by
  induction room generalizing lower with
  | zero => exact iff_of_true rfl lower.nil_prefix
  | succ room ih =>
    rw [digitsBetween, Option.elim_none]
    have hlo := headDigit_lt lower
    by_cases hroom : headDigit lower + 2 ≤ n
    · rw [if_pos hroom]
      refine iff_of_false (Option.some_ne_none _) fun htop => ?_
      obtain ⟨rest, rfl⟩ := htop
      rw [List.replicate_succ, List.cons_append, headDigit_cons, val_topDigit] at hroom
      omega
    · rw [if_neg hroom, Option.map_none, ite_self, Option.map_eq_none_iff, ih]
      cases lower with
      | nil =>
        have hzero : headDigit ([] : List (Fin n)) = 0 := rfl
        omega
      | cons d lower =>
        have hd : topDigit n = d := by
          rw [headDigit_cons] at hroom hlo
          refine Fin.ext ?_
          rw [val_topDigit]
          omega
        rw [List.replicate_succ, List.cons_prefix_cons, List.tail_cons, and_iff_right hd]

/-- Nothing of at most `room` digits is above a run of `room` greatest digits. -/
theorem not_lt_of_replicate_topDigit [NeZero n] {lower key : List (Fin n)} {room : ℕ}
    (htop : List.replicate room (topDigit n) <+: lower) (hlen : key.length ≤ room) :
    ¬ lower < key := by
  induction room generalizing lower key with
  | zero =>
    obtain rfl := List.eq_nil_of_length_eq_zero (Nat.le_zero.mp hlen)
    exact List.not_lt_nil lower
  | succ room ih =>
    obtain ⟨rest, rfl⟩ := htop
    rw [List.replicate_succ, List.cons_append]
    intro hlt
    cases key with
    | nil => exact absurd hlt (List.not_lt_nil _)
    | cons d key =>
      rcases List.cons_lt_cons_iff.mp hlt with htop | ⟨-, htail⟩
      · have hval : n - 1 < d.val := by
          rw [← val_topDigit]
          exact htop
        omega
      · exact ih (List.prefix_append _ rest) (Nat.le_of_succ_le_succ hlen) htail

/-- Bounds that part at digits one apart, where the lower one goes on with greatest digits up to
`room` of them and the upper one goes on at all. -/
def IsCrowded [NeZero n] (lower upper : List (Fin n)) (room : ℕ) : Prop :=
  ∃ (p : List (Fin n)) (d e : Fin n) (k : ℕ) (r : List (Fin n)),
    lower = p ++ d :: List.replicate k (topDigit n) ∧ p.length + 1 + k = room ∧
      upper = p ++ e :: r ∧ e.val = d.val + 1 ∧ r ≠ []

theorem IsCrowded.cons [NeZero n] {lower upper : List (Fin n)} {room : ℕ} (d : Fin n)
    (h : IsCrowded lower upper room) : IsCrowded (d :: lower) (d :: upper) (room + 1) := by
  obtain ⟨p, a, b, k, r, rfl, hroom, rfl, hab, hr⟩ := h
  exact ⟨d :: p, a, b, k, r, rfl, by rw [List.length_cons]; omega, rfl, hab, hr⟩

/-- Between crowded bounds no digits are found. -/
theorem IsCrowded.digitsBetween_eq_none [NeZero n] (hn : 1 < n) {lower upper : List (Fin n)}
    {room : ℕ} (h : IsCrowded lower upper room) : digitsBetween lower (some upper) room = none := by
  obtain ⟨p, d, e, k, r, rfl, rfl, rfl, hde, -⟩ := h
  induction p with
  | nil =>
    rw [List.length_nil, Nat.zero_add, Nat.add_comm, digitsBetween]
    have hlo : headDigit ([] ++ d :: List.replicate k (topDigit n)) = d.val := rfl
    have hhi : (some ([] ++ e :: r)).elim n headDigit = e.val := rfl
    rw [hlo, hhi, if_neg (by omega), if_pos (by omega), Option.map_eq_none_iff,
      digitsBetween_none_eq_none hn]
    exact List.prefix_refl _
  | cons c p ih =>
    rw [List.length_cons, Nat.add_right_comm p.length 1 1, Nat.add_right_comm (p.length + 1) 1 k,
      digitsBetween]
    have hlo : headDigit (c :: p ++ d :: List.replicate k (topDigit n)) = c.val := rfl
    have hhi : (some (c :: p ++ e :: r)).elim n headDigit = c.val := rfl
    rw [hlo, hhi, if_neg (by omega), if_neg (lt_irrefl _), Option.map_eq_none_iff]
    exact ih

/-- Crowded bounds leave room for the digits up to the one they part at, raised by one. -/
theorem IsCrowded.exists_between [NeZero n] {lower upper : List (Fin n)} {room : ℕ}
    (h : IsCrowded lower upper room) :
    ∃ key : List (Fin n), lower < key ∧ key < upper ∧ key.length ≤ room ∧
      ∀ d ∈ key.getLast?, d.val ≠ 0 := by
  obtain ⟨p, d, e, k, r, rfl, rfl, rfl, hde, hr⟩ := h
  refine ⟨p ++ [e], ?_, ?_, ?_, ?_⟩
  · exact List.append_left_lt (List.cons_lt_cons_iff.mpr (.inl (Fin.lt_def.mpr (by omega))))
  · refine List.append_left_lt (List.cons_lt_cons_iff.mpr (.inr ⟨rfl, ?_⟩))
    obtain ⟨f, r, rfl⟩ := List.exists_cons_of_ne_nil hr
    exact List.nil_lt_cons f r
  · rw [List.length_append, List.length_singleton]
    omega
  · intro c hc
    rw [List.getLast?_concat, Option.mem_some_iff] at hc
    omega

theorem headDigit_le_of_lt {l u : List (Fin n)} (h : l < u) : headDigit l ≤ headDigit u := by
  cases l with
  | nil => exact Nat.zero_le _
  | cons d l =>
    cases u with
    | nil => exact absurd h (List.not_lt_nil _)
    | cons e u =>
      rcases List.cons_lt_cons_iff.mp h with hlt | ⟨rfl, -⟩
      · exact (Fin.lt_def.mp hlt).le
      · exact le_rfl

theorem length_tail_le {l : List (Fin n)} {room : ℕ} (h : l.length ≤ room + 1) :
    l.tail.length ≤ room := by
  rw [List.length_tail]
  omega

/-- Bounds that part at their first digits, one apart, are crowded where the lower one goes on with
greatest digits. -/
theorem IsCrowded.of_replicate [NeZero n] {lower upper : List (Fin n)} {room : ℕ}
    (h : List.replicate room (topDigit n) <+: lower.tail) (hlower : lower.length ≤ room + 1)
    (hupper : upper.length ≤ room + 1) (hstep : headDigit lower + 1 = headDigit upper)
    (hne : upper.tail ≠ []) : IsCrowded lower upper (room + 1) := by
  have htail : lower.tail = List.replicate room (topDigit n) := by
    refine (h.eq_of_length_le ?_).symm
    rw [List.length_replicate]
    exact length_tail_le hlower
  obtain ⟨e, upper, rfl⟩ : ∃ e rest, upper = e :: rest :=
    List.exists_cons_of_ne_nil fun hnil => hne (by rw [hnil, List.tail_nil])
  have hroom : room ≠ 0 := by
    have hpos := List.length_pos_iff.mpr hne
    have hle := length_tail_le hupper
    omega
  cases lower with
  | nil =>
    have hzero := congrArg List.length htail
    rw [List.length_replicate] at hzero
    exact absurd hzero.symm hroom
  | cons d lower =>
    rw [List.tail_cons] at htail
    subst htail
    exact ⟨[], d, e, room, upper, rfl, by rw [List.length_nil]; omega, rfl, hstep.symm, hne⟩

/-- Bounds with the same first digit are crowded where their rests are. -/
theorem IsCrowded.of_tail [NeZero n] {lower upper : List (Fin n)} {room : ℕ}
    (h : IsCrowded lower.tail upper.tail room) (hhead : headDigit lower = headDigit upper) :
    IsCrowded lower upper (room + 1) := by
  have hlower : lower ≠ [] := by
    rintro rfl
    obtain ⟨p, d, e, k, r, hnil, -⟩ := h
    exact List.append_ne_nil_of_right_ne_nil p (List.cons_ne_nil _ _) hnil.symm
  have hupper : upper ≠ [] := by
    rintro rfl
    obtain ⟨p, d, e, k, r, -, -, hnil, -⟩ := h
    exact List.append_ne_nil_of_right_ne_nil p (List.cons_ne_nil _ _) hnil.symm
  obtain ⟨d, lower, rfl⟩ := List.exists_cons_of_ne_nil hlower
  obtain ⟨e, upper, rfl⟩ := List.exists_cons_of_ne_nil hupper
  obtain rfl : d = e := Fin.ext hhead
  exact h.cons d

/-- Where no digits are found there are none, unless the bounds are crowded. -/
theorem not_between_of_digitsBetween_eq_none [NeZero n] (hn : 1 < n) {lower upper : List (Fin n)}
    {room : ℕ} (hbounds : lower < upper) (hlast : ∀ d ∈ upper.getLast?, d.val ≠ 0)
    (hlower : lower.length ≤ room) (hupper : upper.length ≤ room)
    (h : digitsBetween lower (some upper) room = none) (hcrowded : ¬ IsCrowded lower upper room)
    {key : List (Fin n)} (hkey : ∀ d ∈ key.getLast?, d.val ≠ 0) (hlen : key.length ≤ room)
    (hlo : lower < key) : ¬ key < upper := by
  intro hhi
  induction room generalizing lower upper key with
  | zero =>
    obtain rfl := List.eq_nil_of_length_eq_zero (Nat.le_zero.mp hupper)
    exact absurd hbounds (List.not_lt_nil _)
  | succ room ih =>
    rw [digitsBetween, Option.elim_some] at h
    have hle := headDigit_le_of_lt hbounds
    have hkl := headDigit_le_of_lt hlo
    have hku := headDigit_le_of_lt hhi
    split_ifs at h with hroom hlt
    · -- The bounds part here at digits one apart.
      rw [Option.map_eq_none_iff, digitsBetween_none_eq_none hn] at h
      by_cases hkey' : headDigit lower < headDigit key
      · -- The key starts like the upper bound, which then goes on: the bounds are crowded.
        have htail : key.tail < upper.tail := tail_lt_tail hhi hlast (by omega)
        have hne : upper.tail ≠ [] := fun hnil => absurd (hnil ▸ htail) (List.not_lt_nil _)
        refine hcrowded (.of_replicate h hlower hupper ?_ hne)
        omega
      · exact not_lt_of_replicate_topDigit h (length_tail_le hlen) (tail_lt_tail hlo hkey hkey')
    · rw [Option.map_some, Option.map_eq_none_iff] at h
      have hkey' : ¬ headDigit lower < headDigit key := by omega
      have hkey'' : ¬ headDigit key < headDigit upper := by omega
      refine ih (tail_lt_tail hbounds hlast hlt) (fun d hd => hlast d (getLast?_tail_of_mem hd))
        (length_tail_le hlower) (length_tail_le hupper) h ?_
        (fun d hd => hkey d (getLast?_tail_of_mem hd)) (length_tail_le hlen)
        (tail_lt_tail hlo hkey hkey') (tail_lt_tail hhi hlast hkey'')
      exact fun hc => hcrowded (hc.of_tail (by omega))

/-! ### Trailing zeros -/

/-- A string without its trailing zeros. -/
def dropZeros (l : List (Fin n)) : List (Fin n) := l.rdropWhile fun d => d.val = 0

theorem dropZeros_cons (d : Fin n) (l : List (Fin n)) :
    dropZeros (d :: l) = if d.val = 0 ∧ dropZeros l = [] then [] else d :: dropZeros l := by
  unfold dropZeros List.rdropWhile
  rw [List.reverse_cons, List.dropWhile_append]
  by_cases hnil : (l.reverse.dropWhile fun d => d.val = 0) = []
  · by_cases hd : d.val = 0
    · simp [hnil, hd]
    · simp [hnil, hd]
  · have hne : (l.reverse.dropWhile fun d => decide (d.val = 0)).isEmpty = false := by
      simpa using hnil
    simp [hne, hnil]

/-- Strings of one length keep their order without their trailing zeros. -/
theorem dropZeros_lt_dropZeros {a b : List (Fin n)} (hlen : a.length = b.length) (h : a < b) :
    dropZeros a < dropZeros b := by
  induction a generalizing b with
  | nil =>
    cases b with
    | nil => exact absurd h (List.not_lt_nil _)
    | cons e b => cases hlen
  | cons d a ih =>
    cases b with
    | nil => cases hlen
    | cons e b =>
      rw [dropZeros_cons, dropZeros_cons]
      rcases List.cons_lt_cons_iff.mp h with hlt | ⟨rfl, hlt⟩
      · have he : e.val ≠ 0 := Nat.ne_zero_of_lt hlt
        have hkeep : ¬ (e.val = 0 ∧ dropZeros b = []) := fun h' => he h'.1
        rw [if_neg hkeep]
        split_ifs
        · exact List.nil_lt_cons e _
        · exact List.cons_lt_cons_iff.mpr (.inl hlt)
      · have hab := ih (Nat.succ.inj hlen) hlt
        have hb : dropZeros b ≠ [] := fun hnil => absurd (hnil ▸ hab) (List.not_lt_nil _)
        have hkeep : ¬ (d.val = 0 ∧ dropZeros b = []) := fun h' => hb h'.2
        rw [if_neg hkeep]
        split_ifs
        · exact List.nil_lt_cons d _
        · exact List.cons_lt_cons_iff.mpr (.inr ⟨rfl, hab⟩)

theorem getLast?_dropZeros {l : List (Fin n)} {d : Fin n} (h : d ∈ (dropZeros l).getLast?) :
    d.val ≠ 0 := by
  obtain ⟨hne, rfl⟩ := List.mem_getLast?_eq_getLast h
  exact fun hzero => List.rdropWhile_last_not (fun d : Fin n => decide (d.val = 0)) l hne
    (decide_eq_true hzero)

theorem length_dropZeros_le (l : List (Fin n)) : (dropZeros l).length ≤ l.length :=
  (List.rdropWhile_prefix _ _).length_le

end RizzyVault.Lib
