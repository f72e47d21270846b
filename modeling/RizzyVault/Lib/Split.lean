import Mathlib

/-!
# Splitting a text at a separator

`splitOnce` cuts at the first occurrence of a separator. When the separator's first letter does not
occur before it, what is cut apart is what was put together.

## Main definitions

* `splitOnce`.

## Main results

* `splitOnce_eq_some`, `splitOnce_append`, `splitOnce_singleton_iff`, `splitOnce_singleton_none`.
* `mem_intercalate_singleton`: a letter of parts put together.
* `takeWhile_append_of_stop`, `dropWhile_append_of_stop`: a prefix of letters of one kind.
-/

namespace RizzyVault.Lib

variable {α : Type*} [DecidableEq α]

/-- The parts before and after the first occurrence of `sep`, which is not empty. -/
def splitOnce (sep : List α) : List α → Option (List α × List α)
  | [] => none
  | c :: text =>
    if sep <+: c :: text then some ([], (c :: text).drop sep.length)
    else (splitOnce sep text).map fun (a, b) => (c :: a, b)

variable {s : α} {sep text a b : List α}

theorem splitOnce_eq_some (h : splitOnce sep text = some (a, b)) : text = a ++ sep ++ b := by
  induction text generalizing a with
  | nil => cases h
  | cons c text ih =>
    unfold splitOnce at h
    split_ifs at h with hprefix
    · cases h
      obtain ⟨rest, hrest⟩ := hprefix
      rw [← hrest, List.drop_left, List.nil_append]
    · obtain ⟨⟨a', b'⟩, hsplit, heq⟩ := Option.map_eq_some_iff.mp h
      cases heq
      rw [ih hsplit]
      rfl

theorem splitOnce_append (h : s ∉ a) : splitOnce (s :: sep) (a ++ s :: sep ++ b) = some (a, b) := by
  induction a with
  | nil =>
    have hprefix : s :: sep <+: s :: (sep ++ b) := List.prefix_append (s :: sep) b
    rw [List.nil_append, List.cons_append, splitOnce, if_pos hprefix, ← List.cons_append,
      List.drop_left]
  | cons c a ih =>
    obtain ⟨hc, ha⟩ := List.ne_and_not_mem_of_not_mem_cons h
    have hprefix : ¬ s :: sep <+: c :: (a ++ s :: sep ++ b) := fun hp =>
      hc (List.cons_prefix_cons.mp hp).1
    rw [List.cons_append, List.cons_append, splitOnce, if_neg hprefix, ih ha]
    rfl

theorem splitOnce_singleton_none : splitOnce [s] text = none ↔ s ∉ text := by
  induction text with
  | nil => simp [splitOnce]
  | cons c text ih =>
    unfold splitOnce
    split_ifs with hprefix
    · obtain ⟨rfl, -⟩ := List.cons_prefix_cons.mp hprefix
      simp
    · rw [Option.map_eq_none_iff, ih, List.mem_cons, not_or]
      have hne : s ≠ c := fun heq =>
        hprefix (List.cons_prefix_cons.mpr ⟨heq, List.nil_prefix⟩)
      exact (and_iff_right hne).symm

theorem splitOnce_singleton_iff :
    splitOnce [s] text = some (a, b) ↔ text = a ++ s :: b ∧ s ∉ a := by
  constructor
  · intro h
    have htext := splitOnce_eq_some h
    rw [List.append_assoc, List.singleton_append] at htext
    refine ⟨htext, ?_⟩
    induction text generalizing a with
    | nil => cases h
    | cons c text ih =>
      unfold splitOnce at h
      split_ifs at h with hprefix
      · cases h
        exact List.not_mem_nil
      · obtain ⟨⟨a', b'⟩, hsplit, heq⟩ := Option.map_eq_some_iff.mp h
        cases heq
        rw [List.mem_cons, not_or]
        refine ⟨fun heq => hprefix (List.cons_prefix_cons.mpr ⟨heq, List.nil_prefix⟩),
          ih hsplit (List.cons.inj htext).2⟩
  · rintro ⟨rfl, ha⟩
    have h : splitOnce [s] (a ++ [s] ++ b) = some (a, b) := splitOnce_append ha
    rwa [List.append_assoc, List.singleton_append] at h

omit [DecidableEq α] in
theorem mem_intercalate_singleton {x : α} {parts : List (List α)}
    (h : x ∈ [s].intercalate parts) : x = s ∨ ∃ part ∈ parts, x ∈ part := by
  induction parts with
  | nil => cases h
  | cons part parts ih =>
    cases parts with
    | nil =>
      rw [List.intercalate_singleton] at h
      exact .inr ⟨part, by simp, h⟩
    | cons part' parts =>
      rw [List.intercalate_cons_cons, List.mem_append, List.mem_append, List.mem_singleton] at h
      rcases h with (h | h) | h
      · exact .inr ⟨part, by simp, h⟩
      · exact .inl h
      · exact (ih h).imp_right fun ⟨p, hp, hx⟩ => ⟨p, List.mem_cons_of_mem _ hp, hx⟩

/-! ### A prefix of letters of one kind -/

variable {p : α → Bool}

omit [DecidableEq α] in
theorem takeWhile_append_of_stop (ha : ∀ c ∈ a, p c = true) (hb : ∀ c ∈ b.head?, p c = false) :
    (a ++ b).takeWhile p = a := by
  rw [List.takeWhile_append_of_pos ha]
  cases b with
  | nil => rw [List.takeWhile_nil, List.append_nil]
  | cons c b =>
    rw [List.takeWhile_cons_of_neg (by rw [hb c rfl]; exact Bool.false_ne_true), List.append_nil]

omit [DecidableEq α] in
theorem dropWhile_append_of_stop (ha : ∀ c ∈ a, p c = true) (hb : ∀ c ∈ b.head?, p c = false) :
    (a ++ b).dropWhile p = b := by
  rw [List.dropWhile_append_of_pos ha]
  cases b with
  | nil => rfl
  | cons c b => rw [List.dropWhile_cons_of_neg (by rw [hb c rfl]; exact Bool.false_ne_true)]

end RizzyVault.Lib
