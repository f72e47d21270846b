import Mathlib

/-!
# The highest ranked elements of a finite set

`topRank rank n s` keeps the elements of `s` below which at least all but `n` elements lie: those
with fewer than `n` elements of `s` ranked above them. Pruning to the top of a growing set
commutes with the growth, because an element left out has `n` kept elements above it.

## Main definitions

* `topRank`: the `n` highest ranked elements of a finite set.

## Main results

* `le_card_topRank_above`: an element left out has `n` kept elements above it.
* `topRank_eq_of_subset`: dropping elements that have `n` remaining elements above them does not
  change the top.
* `mem_take_iff`: a prefix of a strictly descending list is its top.
-/

namespace RizzyVault.Lib

variable {α ρ : Type*} [LinearOrder ρ] (rank : α → ρ)

/-- The elements of `s` with fewer than `n` elements of `s` ranked above them. -/
def topRank (n : ℕ) (s : Finset α) : Finset α :=
  s.filter fun v => (s.filter fun u => rank v < rank u).card < n

variable {rank} {n : ℕ} {s t : Finset α}

@[simp]
theorem mem_topRank {v : α} :
    v ∈ topRank rank n s ↔ v ∈ s ∧ (s.filter fun u => rank v < rank u).card < n :=
  Finset.mem_filter

theorem topRank_subset : topRank rank n s ⊆ s := Finset.filter_subset _ _

theorem card_above_lt_of_mem {v : α} {A : Finset α} (hv : v ∈ A) :
    (A.filter fun w => rank v < rank w).card < A.card := by
  refine Finset.card_lt_card ⟨Finset.filter_subset _ _, fun h => ?_⟩
  exact lt_irrefl _ (Finset.mem_filter.mp (h hv)).2

/-- The number of elements above takes every value below the size of the set. -/
theorem image_card_above (A : Finset α) (hA : Set.InjOn rank A) :
    A.image (fun v => (A.filter fun w => rank v < rank w).card) = Finset.range A.card := by
  have hlt : ∀ u ∈ A, ∀ v ∈ A, rank u < rank v →
      (A.filter fun w => rank v < rank w).card < (A.filter fun w => rank u < rank w).card := by
    intro u _ v hv huv
    refine Finset.card_lt_card ⟨fun w hw => ?_, fun h => ?_⟩
    · obtain ⟨hw, hvw⟩ := Finset.mem_filter.mp hw
      exact Finset.mem_filter.mpr ⟨hw, huv.trans hvw⟩
    · exact lt_irrefl _ (Finset.mem_filter.mp (h (Finset.mem_filter.mpr ⟨hv, huv⟩))).2
  have hinj : Set.InjOn (fun v => (A.filter fun w => rank v < rank w).card) A := by
    intro u hu v hv huv
    rcases lt_trichotomy (rank u) (rank v) with h | h | h
    · exact absurd huv (hlt u hu v hv h).ne'
    · exact hA hu hv h
    · exact absurd huv (hlt v hv u hu h).ne
  refine Finset.eq_of_subset_of_card_le (fun i hi => ?_) ?_
  · obtain ⟨v, hv, rfl⟩ := Finset.mem_image.mp hi
    exact Finset.mem_range.mpr (card_above_lt_of_mem hv)
  · rw [Finset.card_range, Finset.card_image_of_injOn hinj]

/-- An element left out of the top has `n` elements of the top above it. -/
theorem le_card_topRank_above (hs : Set.InjOn rank s) {v : α} (hv : v ∈ s)
    (hout : v ∉ topRank rank n s) :
    n ≤ ((topRank rank n s).filter fun u => rank v < rank u).card := by
  let A := s.filter fun u => rank v < rank u
  have hcard : n ≤ A.card := by
    by_contra h
    exact hout (mem_topRank.mpr ⟨hv, not_le.mp h⟩)
  have habove : ∀ u ∈ A, (s.filter fun w => rank u < rank w) = A.filter fun w => rank u < rank w := by
    intro u hu
    ext w
    simp only [A, Finset.mem_filter]
    refine ⟨fun h => ⟨⟨h.1, (Finset.mem_filter.mp hu).2.trans h.2⟩, h.2⟩, fun h => ⟨h.1.1, h.2⟩⟩
  have himage := image_card_above A (hs.mono (Finset.coe_subset.mpr (Finset.filter_subset _ s)))
  have hsub : Finset.range n ⊆ ((topRank rank n s).filter fun u => rank v < rank u).image
      (fun u => (A.filter fun w => rank u < rank w).card) := by
    intro i hi
    have hi' : i ∈ Finset.range A.card :=
      Finset.mem_range.mpr ((Finset.mem_range.mp hi).trans_le hcard)
    rw [← himage] at hi'
    obtain ⟨u, hu, rfl⟩ := Finset.mem_image.mp hi'
    obtain ⟨hus, hvu⟩ := Finset.mem_filter.mp hu
    refine Finset.mem_image.mpr ⟨u, Finset.mem_filter.mpr ⟨mem_topRank.mpr ⟨hus, ?_⟩, hvu⟩, rfl⟩
    rw [habove u hu]
    exact Finset.mem_range.mp hi
  calc n = (Finset.range n).card := (Finset.card_range n).symm
    _ ≤ _ := Finset.card_le_card hsub
    _ ≤ _ := Finset.card_image_le

/-- Dropping elements that have `n` remaining elements above them does not change the top. -/
theorem topRank_eq_of_subset (hst : s ⊆ t)
    (h : ∀ v ∈ t, v ∉ s → n ≤ (s.filter fun u => rank v < rank u).card) :
    topRank rank n s = topRank rank n t := by
  have hmono (v : α) : (s.filter fun u => rank v < rank u).card ≤
      (t.filter fun u => rank v < rank u).card :=
    Finset.card_le_card (Finset.filter_subset_filter _ hst)
  ext v
  rw [mem_topRank, mem_topRank]
  constructor
  · rintro ⟨hv, hn⟩
    refine ⟨hst hv, ?_⟩
    -- An element of `t` above `v` but outside `s` would put `n` elements of `s` above `v`.
    have hsub : (t.filter fun u => rank v < rank u) ⊆ s.filter fun u => rank v < rank u := by
      intro u hu
      obtain ⟨hut, hvu⟩ := Finset.mem_filter.mp hu
      by_contra hus
      have hus' : u ∉ s := fun h' => hus (Finset.mem_filter.mpr ⟨h', hvu⟩)
      have hle : (s.filter fun w => rank u < rank w).card ≤
          (s.filter fun w => rank v < rank w).card :=
        Finset.card_le_card (Finset.monotone_filter_right s fun w _ hw => hvu.trans hw)
      have := h u hut hus'
      omega
    exact (Finset.card_le_card hsub).trans_lt hn
  · rintro ⟨hv, hn⟩
    refine ⟨?_, (hmono v).trans_lt hn⟩
    by_contra hvs
    have := h v hv hvs
    have := hmono v
    omega

/-- A prefix of a strictly descending list holds its top. -/
theorem mem_take_iff {l : List α} (hl : l.Pairwise fun a b => rank b < rank a) {v : α} :
    v ∈ l.take n ↔ v ∈ l ∧ l.countP (fun u => rank v < rank u) < n := by
  induction l generalizing n with
  | nil => simp
  | cons a l ih =>
    obtain ⟨ha, hl⟩ := List.pairwise_cons.mp hl
    have hcount : l.countP (fun u => rank a < rank u) = 0 :=
      List.countP_eq_zero.mpr fun u hu => by simpa using (ha u hu).le
    cases n with
    | zero => simp
    | succ n =>
      rw [List.take_succ_cons, List.mem_cons, ih hl, List.mem_cons, List.countP_cons]
      by_cases hva : v = a
      · subst hva
        simp [hcount]
      · constructor
        · rintro (h | ⟨hv, hn⟩)
          · exact absurd h hva
          · refine ⟨.inr hv, ?_⟩
            split_ifs <;> omega
        · rintro ⟨h | hv, hn⟩
          · exact absurd h hva
          · refine .inr ⟨hv, ?_⟩
            rw [if_pos (by simpa using ha v hv)] at hn
            omega

end RizzyVault.Lib
