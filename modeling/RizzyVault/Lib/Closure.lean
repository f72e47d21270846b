import Mathlib

/-!
# Lists that follow from what came before

A list is justified when every element is allowed by the set of what is known before it. Where what
is allowed is a monotone operator, a justified list that the operator adds nothing to is its least
fixed point: every order of adding what follows, one element at a time or in rounds, ends in the
same set.

## Main definitions

* `Justified`.

## Main results

* `justified_append`, `Justified.mono`, `Justified.map`.
* `Justified.subset_lfp`, `Justified.eq_lfp`: a closed justified list is the least fixed point.
-/

namespace RizzyVault.Lib

variable {α β : Type*}

/-- Every element is allowed by what is known before it. -/
def Justified (allows : Set α → α → Prop) : Set α → List α → Prop
  | _, [] => True
  | known, a :: l => allows known a ∧ Justified allows (insert a known) l

variable {allows allows' : Set α → α → Prop} {known known' : Set α} {l l' : List α}

@[simp]
theorem justified_nil : Justified allows known [] := trivial

@[simp]
theorem justified_cons {a : α} :
    Justified allows known (a :: l) ↔ allows known a ∧ Justified allows (insert a known) l := Iff.rfl

/-- A list is justified in two parts, the second by what the first adds. -/
theorem justified_append :
    Justified allows known (l ++ l') ↔
      Justified allows known l ∧ Justified allows (known ∪ {a | a ∈ l}) l' := by
  induction l generalizing known with
  | nil => simp
  | cons a l ih =>
    have hset : insert a known ∪ {b | b ∈ l} = known ∪ {b | b ∈ a :: l} := by
      ext b
      simp only [Set.mem_union, Set.mem_insert_iff, Set.mem_setOf_eq, List.mem_cons]
      tauto
    rw [List.cons_append, justified_cons, justified_cons, ih, hset, and_assoc]

/-- What allows more, of more, justifies the same lists. -/
theorem Justified.mono (h : Justified allows known l)
    (hallows : ∀ K K' a, a ∈ l → K ⊆ K' → known' ⊆ K' → allows K a → allows' K' a)
    (hknown : known ⊆ known') : Justified allows' known' l := by
  induction l generalizing known known' with
  | nil => trivial
  | cons a l ih =>
    refine ⟨hallows _ _ _ List.mem_cons_self hknown subset_rfl h.1, ih h.2 (fun K K' b hb hK hK' =>
      hallows K K' b (List.mem_cons_of_mem _ hb) hK ((Set.subset_insert _ _).trans hK')) ?_⟩
    exact Set.insert_subset_insert hknown

/-- What is allowed of the images justifies the images. -/
theorem Justified.map {allows' : Set β → β → Prop} (f : α → β) (h : Justified allows known l)
    (hallows : ∀ K a, a ∈ l → allows K a → allows' (f '' K) (f a)) :
    Justified allows' (f '' known) (l.map f) := by
  induction l generalizing known with
  | nil => trivial
  | cons a l ih =>
    refine ⟨hallows _ _ List.mem_cons_self h.1, ?_⟩
    rw [← Set.image_insert_eq]
    exact ih h.2 fun K b hb => hallows K b (List.mem_cons_of_mem _ hb)

/-- Each element of a justified list is allowed by what is known and stands before it. -/
theorem Justified.allowed (h : Justified allows known l) {i : ℕ} (hi : i < l.length) :
    allows (known ∪ {a | a ∈ l.take i}) l[i] := by
  have hsplit : l = l.take i ++ l[i] :: l.drop (i + 1) := by
    rw [List.getElem_cons_drop, List.take_append_drop]
  rw [hsplit, justified_append, justified_cons] at h
  exact h.2.1

/-! ### The least fixed point -/

section Lfp

variable {F : Set α →o Set α}

theorem Justified.subset_lfp (h : Justified (fun K a => a ∈ F K) known l)
    (hknown : known ⊆ F.lfp) : {a | a ∈ l} ⊆ F.lfp := by
  induction l generalizing known with
  | nil => simp
  | cons a l ih =>
    have ha : a ∈ F.lfp := F.map_lfp ▸ F.mono hknown h.1
    have hrest := ih h.2 (Set.insert_subset ha hknown)
    intro b hb
    rcases List.mem_cons.mp hb with rfl | hb
    · exact ha
    · exact hrest hb

/-- A justified list to which the operator adds nothing is its least fixed point. -/
theorem Justified.eq_lfp (h : Justified (fun K a => a ∈ F K) known l) (hknown : known ⊆ F.lfp)
    (hclosed : F (known ∪ {a | a ∈ l}) ⊆ known ∪ {a | a ∈ l}) :
    known ∪ {a | a ∈ l} = F.lfp :=
  Set.Subset.antisymm (Set.union_subset hknown (h.subset_lfp hknown)) (F.lfp_le hclosed)

end Lfp

end RizzyVault.Lib
