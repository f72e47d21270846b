import RizzyVault.Lib.TreeMap

/-!
# Tallies

A map that counts: it holds, for every key, how often the key occurs, and no entry where it does
not occur. Its size is then the number of distinct keys.

## Main definitions

* `Tallies m f`: the map `m` holds the counts `f`.

## Main results

* `Tallies.insert_succ`, `Tallies.alter_pred`: one more and one less of a key.
* `Tallies.size_eq`: the size of the map is the number of keys that occur.
-/

namespace RizzyVault.Lib

open Std (ExtTreeMap)

variable {κ : Type*} [LinearOrder κ] {m : ExtTreeMap κ ℕ} {f : κ → ℕ}

/-- The map holds the counts `f`, without entries for zero. -/
def Tallies (m : ExtTreeMap κ ℕ) (f : κ → ℕ) : Prop :=
  ∀ a, m[a]? = if f a = 0 then none else some (f a)

theorem tallies_empty : Tallies (∅ : ExtTreeMap κ ℕ) fun _ => 0 := by
  intro a
  simp

namespace Tallies

theorem getD_eq (h : Tallies m f) (a : κ) : m.getD a 0 = f a := by
  rw [ExtTreeMap.getD_eq_getD_getElem?, h a]
  split_ifs with hf
  · exact hf.symm
  · rfl

theorem congr {g : κ → ℕ} (h : Tallies m f) (hfg : ∀ a, f a = g a) : Tallies m g := by
  intro a
  rw [h a, hfg]

/-- One more of a key. -/
theorem insert_succ (h : Tallies m f) (k : κ) :
    Tallies (m.insert k (m.getD k 0 + 1)) fun a => f a + if a = k then 1 else 0 := by
  intro a
  rw [ExtTreeMap.getElem?_insert_iff, h.getD_eq]
  by_cases hk : a = k
  · subst hk
    simp
  · have hk' : k ≠ a := fun h' => hk h'.symm
    simpa only [if_neg hk', if_neg hk, Nat.add_zero, Nat.sub_zero] using h a

/-- One less of a key, and no entry when none is left. -/
theorem alter_pred (h : Tallies m f) (k : κ) :
    Tallies (m.alter k fun
      | some n => if n - 1 = 0 then none else some (n - 1)
      | none => none) fun a => f a - if a = k then 1 else 0 := by
  intro a
  rw [ExtTreeMap.getElem?_alter_iff]
  by_cases hk : a = k
  · subst hk
    rw [if_pos rfl, h a]
    by_cases hf : f a = 0
    · simp [hf]
    · simp [hf]
  · have hk' : k ≠ a := fun h' => hk h'.symm
    simpa only [if_neg hk', if_neg hk, Nat.add_zero, Nat.sub_zero] using h a

/-- The size of the map is the number of keys that occur. -/
theorem size_eq (h : Tallies m f) {s : Finset κ} (hs : ∀ a, a ∈ s ↔ f a ≠ 0) :
    m.size = s.card := by
  have hmem (a : κ) : a ∈ m.keys.toFinset ↔ a ∈ s := by
    rw [List.mem_toFinset, ExtTreeMap.mem_keys_iff, hs, h a]
    by_cases hf : f a = 0
    · simp [hf]
    · simp [hf]
  have hnodup : m.keys.Nodup := (ExtTreeMap.pairwise_keys m).imp ne_of_lt
  rw [← Finset.ext hmem, List.toFinset_card_of_nodup hnodup, ExtTreeMap.length_keys]

end Tallies

end RizzyVault.Lib
