import RizzyVault.Lib.Words

/-!
# Ordered maps over a linear order

The extensional tree maps of the standard library, keyed by a linear order. The key order is
lawful for equality, so a map is determined by its lookups and its entries are listed once each,
in strictly ascending key order.

## Main results

* `Std.LawfulEqOrd.ofLinearOrder`: the comparison of a linear order is lawful for equality.
* `Std.ExtTreeMap.pairwise_keys`, `Std.ExtTreeMap.pairwise_fst_toList`,
  `Std.ExtTreeSet.pairwise_toList`: the keys ascend strictly.
-/

namespace Std

variable {κ ν : Type*} [LinearOrder κ]

instance LawfulEqOrd.ofLinearOrder : LawfulEqOrd κ where
  eq_of_compare h := compare_eq_iff_eq.mp h

namespace ExtTreeMap

theorem getElem?_insert_iff (m : ExtTreeMap κ ν) (k a : κ) (v : ν) :
    (m.insert k v)[a]? = if k = a then some v else m[a]? := by
  simp only [getElem?_insert, compare_eq_iff_eq]

theorem getElem?_erase_iff (m : ExtTreeMap κ ν) (k a : κ) :
    (m.erase k)[a]? = if k = a then none else m[a]? := by
  simp only [getElem?_erase, compare_eq_iff_eq]

theorem getElem?_alter_iff (m : ExtTreeMap κ ν) (k a : κ) (f : Option ν → Option ν) :
    (m.alter k f)[a]? = if k = a then f m[k]? else m[a]? := by
  simp only [getElem?_alter, compare_eq_iff_eq]

theorem getElem?_modify_iff (m : ExtTreeMap κ ν) (k a : κ) (f : ν → ν) :
    (m.modify k f)[a]? = if k = a then m[k]?.map f else m[a]? := by
  simp only [getElem?_modify, compare_eq_iff_eq]

/-- A map kept only if it is not empty, and read as empty otherwise. -/
theorem getD_keepNonempty (m : ExtTreeMap κ ν) :
    (if m.isEmpty then none else some m).getD ∅ = m := by
  split_ifs with h
  · exact (isEmpty_iff.mp h).symm
  · rfl

theorem pairwise_fst_toList (m : ExtTreeMap κ ν) : m.toList.Pairwise fun a b => a.1 < b.1 := by
  simpa only [compare_lt_iff_lt] using m.ordered_keys_toList

theorem pairwise_keys (m : ExtTreeMap κ ν) : m.keys.Pairwise (· < ·) := by
  simpa only [compare_lt_iff_lt] using m.ordered_keys

theorem mem_keys_iff (m : ExtTreeMap κ ν) (k : κ) : k ∈ m.keys ↔ ∃ v, m[k]? = some v := by
  rw [mem_keys, mem_iff_isSome_getElem?, Option.isSome_iff_exists]

end ExtTreeMap

namespace ExtTreeSet

theorem mem_toList_ofList (l : List κ) (k : κ) : k ∈ (ofList l).toList ↔ k ∈ l := by
  rw [mem_toList, mem_ofList, List.contains_iff_mem]

/-- A set kept only if it is not empty, and read as empty otherwise. -/
theorem getD_keepNonempty (s : ExtTreeSet κ) :
    (if s.isEmpty then none else some s).getD ∅ = s := by
  split_ifs with h
  · exact (isEmpty_iff.mp h).symm
  · rfl

theorem pairwise_toList (s : ExtTreeSet κ) : s.toList.Pairwise (· < ·) := by
  simpa only [compare_lt_iff_lt] using s.ordered_toList

end ExtTreeSet

end Std
