import Mathlib

/-!
# Pruning a list

Elements of a list are dropped, first ones first, as long as those left do not need them. The rule
starts again from the first element after every drop. Where an element that is needed stays needed
as others go, one pass over the list drops the same elements.

## Main definitions

* `restartDrops`: the elements dropped by the rule.
* `passDrops`: the elements dropped in one pass.

## Main results

* `restartDrops_eq_passDrops`: one pass drops what the rule drops.
* `restartDrops_diff`: what the rule leaves, it prunes no further.
-/

namespace RizzyVault.Lib

variable {α : Type*} [DecidableEq α] (needed : List α → α → Bool)

/-- The elements that are dropped, in order: the first one that the elements left do not need, and
then again from the first. -/
def restartDrops (l : List α) : List α :=
  match _hfind : l.find? fun x => !needed l x with
  | none => []
  | some x => x :: restartDrops (l.erase x)
termination_by l.length
decreasing_by
  rw [List.length_erase_of_mem (List.mem_of_find?_eq_some _hfind)]
  exact Nat.sub_lt (List.length_pos_of_mem (List.mem_of_find?_eq_some _hfind)) Nat.one_pos

/-- The elements that one pass drops, where `kept` are the elements it has passed and kept. -/
def passDrops : List α → List α → List α
  | _, [] => []
  | kept, x :: todo =>
    if needed (kept ++ x :: todo) x then passDrops (kept ++ [x]) todo else x :: passDrops kept todo

variable {needed}

theorem restartDrops_eq_nil {l : List α} (h : ∀ x ∈ l, needed l x = true) :
    restartDrops needed l = [] := by
  have hfind : (l.find? fun x => !needed l x) = none :=
    List.find?_eq_none.mpr fun x hx => by simp [h x hx]
  rw [restartDrops]
  split
  · rfl
  · rename_i x hx
    rw [hfind] at hx
    cases hx

theorem restartDrops_eq_cons {l : List α} {x : α}
    (h : (l.find? fun x => !needed l x) = some x) :
    restartDrops needed l = x :: restartDrops needed (l.erase x) := by
  rw [restartDrops]
  split
  · rename_i hnone
    rw [h] at hnone
    cases hnone
  · rename_i y hy
    rw [h] at hy
    cases hy
    rfl

theorem restartDrops_subset (l : List α) : restartDrops needed l ⊆ l := by
  induction hn : l.length generalizing l with
  | zero =>
    rw [List.length_eq_zero_iff.mp hn, restartDrops_eq_nil fun x hx => absurd hx List.not_mem_nil]
    exact List.nil_subset _
  | succ n ih =>
    cases hfind : l.find? fun x => !needed l x with
    | none =>
      rw [restartDrops_eq_nil (by simpa using List.find?_eq_none.mp hfind)]
      exact List.nil_subset l
    | some x =>
      have hx := List.mem_of_find?_eq_some hfind
      rw [restartDrops_eq_cons hfind]
      have hlen : (l.erase x).length = n := by rw [List.length_erase_of_mem hx, hn]; rfl
      exact List.cons_subset.mpr ⟨hx, List.Subset.trans (ih _ hlen) List.erase_subset⟩

/-- What the rule leaves, it prunes no further. -/
theorem restartDrops_diff (l : List α) :
    restartDrops needed (l.diff (restartDrops needed l)) = [] := by
  induction hn : l.length generalizing l with
  | zero =>
    rw [List.length_eq_zero_iff.mp hn, List.nil_diff]
    exact restartDrops_eq_nil fun x hx => absurd hx (List.not_mem_nil)
  | succ n ih =>
    cases hfind : l.find? fun x => !needed l x with
    | none =>
      have hall : ∀ x ∈ l, needed l x = true := by simpa using List.find?_eq_none.mp hfind
      rw [restartDrops_eq_nil hall, List.diff_nil]
      exact restartDrops_eq_nil hall
    | some x =>
      rw [restartDrops_eq_cons hfind, List.diff_cons]
      refine ih _ ?_
      rw [List.length_erase_of_mem (List.mem_of_find?_eq_some hfind), hn]
      rfl

/-- One pass drops what the rule drops: the elements it has kept were needed, and still are. -/
theorem restartDrops_eq_passDrops
    (hmono : ∀ {l l' : List α} {y : α}, l'.Sublist l → y ∈ l' → needed l y → needed l' y)
    {kept todo : List α} (hkept : ∀ y ∈ kept, needed (kept ++ todo) y) :
    restartDrops needed (kept ++ todo) = passDrops needed kept todo := by
  induction todo generalizing kept with
  | nil => exact restartDrops_eq_nil fun y hy => hkept y (List.append_nil kept ▸ hy)
  | cons x todo ih =>
    rw [passDrops]
    split_ifs with hx
    · rw [← ih]
      · rw [List.append_assoc, List.singleton_append]
      · intro y hy
        rw [List.append_assoc, List.singleton_append]
        obtain hy | hy := List.mem_append.mp hy
        · exact hkept y hy
        · rwa [List.mem_singleton.mp hy]
    · have hnot : x ∉ kept := fun hmem => hx (hkept x hmem)
      have hfind : ((kept ++ x :: todo).find? fun y => !needed (kept ++ x :: todo) y) = some x := by
        rw [List.find?_append, List.find?_eq_none.mpr fun y hy => by simp [hkept y hy]]
        simp [hx]
      rw [restartDrops_eq_cons hfind, List.erase_append_right _ hnot, List.erase_cons_head, ih]
      intro y hy
      have hsub : (kept ++ todo).Sublist (kept ++ x :: todo) :=
        (List.Sublist.refl kept).append (List.sublist_cons_self x todo)
      exact hmono hsub (List.mem_append_left _ hy) (hkept y hy)

end RizzyVault.Lib
