import Mathlib

/-!
# Sorting by a key

A list sorted by a key, with no two equal neighbours, ascends strictly.

## Main results

* `pairwise_le_insertionSort`, `pairwise_lt_of_neighbours`, `isChain_of_zip_tail`.
-/

namespace RizzyVault.Lib

variable {α β : Type*}

theorem pairwise_le_insertionSort [LinearOrder β] (key : α → β) (l : List α) :
    (l.insertionSort fun a b => key a ≤ key b).Pairwise fun a b => key a ≤ key b := by
  have : Std.Total fun a b : α => key a ≤ key b := ⟨fun a b => le_total _ _⟩
  have : IsTrans α fun a b => key a ≤ key b := ⟨fun a b c => le_trans⟩
  exact List.pairwise_insertionSort _ _

/-- Sorted with no two equal neighbours, a list ascends strictly. -/
theorem pairwise_lt_of_neighbours [LinearOrder β] (key : α → β) {l : List α}
    (h : l.Pairwise fun a b => key a ≤ key b) (hne : l.IsChain fun a b => key a ≠ key b) :
    l.Pairwise fun a b => key a < key b := by
  induction l with
  | nil => exact .nil
  | cons a l ih =>
    obtain ⟨ha, h⟩ := List.pairwise_cons.mp h
    cases l with
    | nil => exact List.pairwise_singleton _ _
    | cons b l =>
      obtain ⟨hab, hne⟩ := List.isChain_cons_cons.mp hne
      have hrest := ih h hne
      have hlt : key a < key b := lt_of_le_of_ne (ha b List.mem_cons_self) hab
      refine List.pairwise_cons.mpr ⟨fun c hc => ?_, hrest⟩
      rcases List.mem_cons.mp hc with rfl | hc
      · exact hlt
      · exact hlt.trans ((List.pairwise_cons.mp hrest).1 c hc)

/-- What a scan of the neighbours finds nowhere. -/
theorem isChain_of_zip_tail {p : α × α → Bool} {l : List α} (h : (l.zip l.tail).any p = false) :
    l.IsChain fun a b => p (a, b) = false := by
  induction l with
  | nil => exact .nil
  | cons a l ih =>
    cases l with
    | nil => exact .singleton _
    | cons b l =>
      rw [List.tail_cons, List.zip_cons_cons, List.any_cons, Bool.or_eq_false_iff] at h
      exact List.isChain_cons_cons.mpr ⟨h.1, ih h.2⟩

end RizzyVault.Lib
