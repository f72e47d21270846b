import Mathlib.Computability.Language

/-!
# Grammars of texts as languages

The operators of a grammar in Backus–Naur form are those of languages: concatenation is the product,
alternatives are the sum, `lo*hi l` is a union of powers and `1*l` is `l * l∗`. A run of letters of
one class is decided letter by letter, and a run of words joined by a separator that none of them
holds is decided by splitting at it.

## Main definitions

* `oneOf`, `repeats`: one letter of a class, a number of words between two bounds.

## Main results

* `mem_repeats_oneOf`, `mem_repeats_pair`: runs of letters and of pairs of letters.
* `mem_joined_iff`: words joined by a separator.
-/

open scoped Computability

namespace RizzyVault.Lib

variable {α : Type} {p q : α → Bool} {l : Language α} {w : List α}

/-- One letter of a class. -/
def oneOf (p : α → Bool) : Language α := {w | ∃ a, p a ∧ w = [a]}

/-- Between `lo` and `hi` words of a language. -/
def repeats (lo hi : ℕ) (l : Language α) : Language α := {w | ∃ n, lo ≤ n ∧ n ≤ hi ∧ w ∈ l ^ n}

theorem mem_oneOf : w ∈ oneOf p ↔ ∃ a, p a ∧ w = [a] := Iff.rfl

theorem mem_repeats {lo hi : ℕ} : w ∈ repeats lo hi l ↔ ∃ n, lo ≤ n ∧ n ≤ hi ∧ w ∈ l ^ n := Iff.rfl

theorem oneOf_add : oneOf p + oneOf q = oneOf fun a => p a || q a := by
  ext w
  simp only [Language.mem_add, mem_oneOf, Bool.or_eq_true, or_and_right, exists_or]

theorem singleton_eq_oneOf [DecidableEq α] (s : α) :
    ({[s]} : Language α) = oneOf fun a => decide (a = s) := by
  ext w
  simp only [mem_oneOf, decide_eq_true_eq, exists_eq_left]
  rfl

theorem mem_oneOf_pow {n : ℕ} : w ∈ oneOf p ^ n ↔ w.length = n ∧ ∀ a ∈ w, p a := by
  induction n generalizing w with
  | zero =>
    rw [pow_zero, Language.mem_one]
    constructor
    · rintro rfl
      exact ⟨rfl, fun a ha => absurd ha List.not_mem_nil⟩
    · exact fun h => List.eq_nil_of_length_eq_zero h.1
  | succ n ih =>
    rw [pow_succ', Language.mem_mul]
    constructor
    · rintro ⟨_, ⟨a, ha, rfl⟩, b, hb, rfl⟩
      obtain ⟨hlen, hall⟩ := ih.mp hb
      refine ⟨?_, fun c hc => ?_⟩
      · rw [List.singleton_append, List.length_cons, hlen]
      · rcases List.mem_cons.mp hc with rfl | hc
        · exact ha
        · exact hall c hc
    · rintro ⟨hlen, hall⟩
      obtain ⟨a, w, rfl⟩ := List.exists_cons_of_length_eq_add_one hlen
      refine ⟨[a], ⟨a, hall a List.mem_cons_self, rfl⟩, w, ih.mpr ⟨?_, fun c hc => ?_⟩, rfl⟩
      · exact Nat.succ.inj hlen
      · exact hall c (List.mem_cons_of_mem a hc)

/-- A run of letters of one class. -/
theorem mem_repeats_oneOf {lo hi : ℕ} :
    w ∈ repeats lo hi (oneOf p) ↔ (lo ≤ w.length ∧ w.length ≤ hi) ∧ ∀ a ∈ w, p a := by
  simp only [mem_repeats, mem_oneOf_pow]
  constructor
  · rintro ⟨n, hlo, hhi, rfl, hall⟩
    exact ⟨⟨hlo, hhi⟩, hall⟩
  · rintro ⟨⟨hlo, hhi⟩, hall⟩
    exact ⟨w.length, hlo, hhi, rfl, hall⟩

/-- A run of pairs of letters of one class. -/
theorem mem_repeats_pair {lo hi : ℕ} :
    w ∈ repeats lo hi (oneOf p * oneOf p) ↔
      (2 * lo ≤ w.length ∧ w.length ≤ 2 * hi ∧ w.length % 2 = 0) ∧ ∀ a ∈ w, p a := by
  simp only [mem_repeats, ← pow_two, ← pow_mul, mem_oneOf_pow]
  constructor
  · rintro ⟨n, hlo, hhi, hlen, hall⟩
    exact ⟨by omega, hall⟩
  · rintro ⟨⟨hlo, hhi, heven⟩, hall⟩
    exact ⟨w.length / 2, by omega, by omega, by omega, hall⟩

/-! ### Words joined by a separator -/

variable {s : α}

theorem intercalate_cons_eq (a : List α) (ls : List (List α)) :
    [s].intercalate (a :: ls) = a ++ (ls.map (s :: ·)).flatten := by
  induction ls generalizing a with
  | nil => simp
  | cons b ls ih => rw [List.intercalate_cons_cons, ih b, List.map_cons, List.flatten_cons,
      List.append_assoc, List.singleton_append, List.cons_append]

/-- Words that go on with the separator, each. -/
theorem mem_kstar_separated :
    w ∈ ({[s]} * l)∗ ↔ ∃ ls : List (List α), w = (ls.map (s :: ·)).flatten ∧ ∀ a ∈ ls, a ∈ l := by
  rw [Language.mem_kstar]
  constructor
  · rintro ⟨L, rfl, hL⟩
    have htail : ∀ x ∈ L, x = s :: x.tail ∧ x.tail ∈ l := by
      intro x hx
      obtain ⟨_, rfl, b, hb, rfl⟩ := Language.mem_mul.mp (hL x hx)
      exact ⟨rfl, hb⟩
    have hmap : L.map ((s :: ·) ∘ List.tail) = L :=
      (List.map_congr_left fun x hx => (htail x hx).1.symm).trans L.map_id'
    refine ⟨L.map List.tail, ?_, ?_⟩
    · rw [List.map_map, hmap]
    · intro a ha
      obtain ⟨x, hx, rfl⟩ := List.mem_map.mp ha
      exact (htail x hx).2
  · rintro ⟨ls, rfl, hls⟩
    refine ⟨ls.map (s :: ·), rfl, fun y hy => ?_⟩
    obtain ⟨a, ha, rfl⟩ := List.mem_map.mp hy
    exact Language.append_mem_mul (a := [s]) rfl (hls a ha)

/-- At least two words joined by a separator that none of them holds: the parts the separator cuts
out. -/
theorem mem_joined_iff [BEq α] [LawfulBEq α] (hsep : ∀ a ∈ l, s ∉ a) :
    w ∈ l * (({[s]} * l) * ({[s]} * l)∗) ↔
      (∀ part ∈ w.splitOn s, part ∈ l) ∧ 2 ≤ (w.splitOn s).length := by
  constructor
  · intro hw
    obtain ⟨a, ha, x, hx, rfl⟩ := Language.mem_mul.mp hw
    obtain ⟨y, hy, z, hz, rfl⟩ := Language.mem_mul.mp hx
    obtain ⟨_, rfl, b, hb, rfl⟩ := Language.mem_mul.mp hy
    obtain ⟨ls, rfl, hls⟩ := mem_kstar_separated.mp hz
    have hall : ∀ part ∈ a :: b :: ls, part ∈ l := by
      intro part hpart
      rcases List.mem_cons.mp hpart with rfl | hpart
      · exact ha
      rcases List.mem_cons.mp hpart with rfl | hpart
      · exact hb
      · exact hls part hpart
    have hsplit : (a ++ ([s] ++ b ++ (ls.map (s :: ·)).flatten)).splitOn s = a :: b :: ls := by
      have hjoin := intercalate_cons_eq (s := s) a (b :: ls)
      rw [List.map_cons, List.flatten_cons, List.cons_append] at hjoin
      rw [List.singleton_append, List.cons_append, ← hjoin]
      exact List.splitOn_intercalate s (fun part hpart => hsep part (hall part hpart))
        (List.cons_ne_nil _ _)
    rw [hsplit]
    exact ⟨hall, by simp⟩
  · rintro ⟨hall, hlen⟩
    have hjoin : [s].intercalate (w.splitOn s) = w := List.intercalate_splitOn s
    match hsplit : w.splitOn s with
    | [] | [_] =>
      rw [hsplit] at hlen
      simp at hlen
    | a :: b :: ls =>
      rw [hsplit] at hall hjoin
      rw [intercalate_cons_eq, List.map_cons, List.flatten_cons] at hjoin
      rw [← hjoin]
      refine Language.append_mem_mul (hall a List.mem_cons_self) (Language.append_mem_mul ?_ ?_)
      · exact Language.append_mem_mul (a := [s]) rfl
          (hall b (List.mem_cons_of_mem a List.mem_cons_self))
      · exact mem_kstar_separated.mpr ⟨ls, rfl, fun c hc =>
          hall c (List.mem_cons_of_mem a (List.mem_cons_of_mem b hc))⟩

end RizzyVault.Lib
