import Mathlib

/-!
# Hash chains

A list in which every element after the first names the hash of the one before. When equal hashes
name equal predecessors, two chains whose hashes agree at a position agree at every earlier one.

## Main definitions

* `Linked`: every element names its predecessor.
* `NoCollision`: equal hashes across two lists name equal predecessors.

## Main results

* `hash_eq_of_le`: agreement extends to earlier positions.
* `getElem_of_succ`: what grows by one along a chain counts positions.
-/

namespace RizzyVault.Lib

variable {β η : Type*} (hash prev : β → η)

/-- Every element but the first names the hash of the one before. -/
def Linked (l : List β) : Prop := l.IsChain fun p n => prev n = hash p

/-- Equal hashes of elements of the two lists name equal predecessors. -/
def NoCollision (l l' : List β) : Prop := ∀ a ∈ l, ∀ b ∈ l', hash a = hash b → prev a = prev b

variable {hash prev} {l l' : List β}

theorem Linked.prev_eq (h : Linked hash prev l) {i : ℕ} (hi : i + 1 < l.length) :
    prev l[i + 1] = hash l[i] :=
  List.isChain_iff_getElem.mp h i hi

/-- Two chains that agree at a position agree at every earlier one. -/
theorem hash_eq_of_le (hl : Linked hash prev l) (hl' : Linked hash prev l')
    (hcol : NoCollision hash prev l l') {i : ℕ} (hi : i < l.length) (hi' : i < l'.length)
    (h : hash l[i] = hash l'[i]) {j : ℕ} (hj : j ≤ i) : hash l[j] = hash l'[j] := by
  induction i with
  | zero =>
    obtain rfl : j = 0 := by omega
    exact h
  | succ i ih =>
    rcases Nat.lt_or_eq_of_le hj with hlt | rfl
    · refine ih (by omega) (by omega) ?_ (by omega)
      calc hash l[i] = prev l[i + 1] := (hl.prev_eq hi).symm
        _ = prev l'[i + 1] := hcol _ (List.getElem_mem hi) _ (List.getElem_mem hi') h
        _ = hash l'[i] := hl'.prev_eq hi'
    · exact h

/-- What grows by one along a list counts its positions. -/
theorem getElem_of_succ (seq : β → ℕ) (h : l.IsChain fun p n => seq n = seq p + 1) {i : ℕ}
    (hi : i < l.length) : seq l[i] = seq (l.get ⟨0, by omega⟩) + i := by
  induction i with
  | zero => rfl
  | succ i ih =>
    rw [List.isChain_iff_getElem.mp h i hi, ih (by omega)]
    omega

end RizzyVault.Lib
