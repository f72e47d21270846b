import RizzyVault.Lib.TopRank

/-!
# Current and superseded elements

Among a finite set of versions, `sup u v` says that `u` was written with knowledge of `v`. The
current versions are those no other version supersedes; the others are history, of which only the
`n` highest ranked are kept. What is held of a union is determined by what is held of its parts:
a superseded version is superseded by a current one, and a version pruned from a part has `n`
kept history versions of that part above it.

## Main definitions

* `current`, `superseded`: the two halves of a finite set.
* `held`: the current elements and the top of the superseded ones.

## Main results

* `exists_current_of_superseded`: every superseded element is below a current one.
* `current_held_union`, `topRank_superseded_held_union`: what is held of a union.
-/

namespace RizzyVault.Lib

variable {α ρ : Type*} [LinearOrder ρ] (sup : α → α → Prop)

/-- `sup` is a strict order on `s`. -/
structure StrictOn (s : Finset α) : Prop where
  irrefl : ∀ u ∈ s, ¬ sup u u
  trans : ∀ u ∈ s, ∀ v ∈ s, ∀ w ∈ s, sup u v → sup v w → sup u w

theorem StrictOn.mono {sup : α → α → Prop} {s t : Finset α} (h : StrictOn sup t) (hst : s ⊆ t) :
    StrictOn sup s where
  irrefl u hu := h.irrefl u (hst hu)
  trans u hu v hv w hw := h.trans u (hst hu) v (hst hv) w (hst hw)

variable [DecidableRel sup]

/-- The elements no element of the set supersedes. -/
def current (s : Finset α) : Finset α := s.filter fun v => ∀ u ∈ s, ¬ sup u v

/-- The elements some element of the set supersedes. -/
def superseded (s : Finset α) : Finset α := s.filter fun v => ∃ u ∈ s, sup u v

variable [DecidableEq α] (rank : α → ρ) (n : ℕ)

/-- The current elements and the `n` highest ranked superseded ones. -/
def held (s : Finset α) : Finset α := current sup s ∪ topRank rank n (superseded sup s)

variable {sup rank n} {s t : Finset α}

omit [DecidableEq α] in
@[simp]
theorem mem_current {v : α} : v ∈ current sup s ↔ v ∈ s ∧ ∀ u ∈ s, ¬ sup u v := Finset.mem_filter

omit [DecidableEq α] in
@[simp]
theorem mem_superseded {v : α} : v ∈ superseded sup s ↔ v ∈ s ∧ ∃ u ∈ s, sup u v :=
  Finset.mem_filter

omit [DecidableEq α] in
variable (sup) in
theorem mem_current_or_mem_superseded {v : α} (hv : v ∈ s) :
    v ∈ current sup s ∨ v ∈ superseded sup s := by
  by_cases h : ∃ u ∈ s, sup u v
  · exact .inr (mem_superseded.mpr ⟨hv, h⟩)
  · exact .inl (mem_current.mpr ⟨hv, fun u hu huv => h ⟨u, hu, huv⟩⟩)

theorem held_subset : held sup rank n s ⊆ s :=
  Finset.union_subset (Finset.filter_subset _ _)
    (topRank_subset.trans (Finset.filter_subset _ _))

omit [DecidableEq α] in
theorem superseded_mono (hst : s ⊆ t) : superseded sup s ⊆ superseded sup t := by
  intro v hv
  obtain ⟨hv, u, hu, huv⟩ := mem_superseded.mp hv
  exact mem_superseded.mpr ⟨hst hv, u, hst hu, huv⟩

omit [DecidableEq α] in
/-- Every superseded element is superseded by a current one. -/
theorem exists_current_of_superseded (hs : StrictOn sup s) {v : α} (hv : v ∈ superseded sup s) :
    ∃ w ∈ current sup s, sup w v := by
  -- The set of elements above shrinks strictly from `v` to an element above it.
  induction hc : (s.filter fun u => sup u v).card using Nat.strong_induction_on generalizing v with
  | _ k ih =>
    obtain ⟨hvs, u, hus, huv⟩ := mem_superseded.mp hv
    rcases mem_current_or_mem_superseded sup hus with hu | hu
    · exact ⟨u, hu, huv⟩
    · have hlt : (s.filter fun w => sup w u).card < (s.filter fun w => sup w v).card := by
        refine Finset.card_lt_card ⟨fun w hw => ?_, fun h => ?_⟩
        · obtain ⟨hws, hwu⟩ := Finset.mem_filter.mp hw
          exact Finset.mem_filter.mpr ⟨hws, hs.trans w hws u hus v hvs hwu huv⟩
        · exact hs.irrefl u hus
            (Finset.mem_filter.mp (h (Finset.mem_filter.mpr ⟨hus, huv⟩))).2
      obtain ⟨w, hw, hwu⟩ := ih _ (hc ▸ hlt) hu rfl
      exact ⟨w, hw, hs.trans w (mem_current.mp hw).1 u hus v hvs hwu huv⟩

/-- An element of a part that is held of the whole is held of the part. -/
theorem mem_held_of_mem_held (hrank : Set.InjOn rank t) (hst : s ⊆ t) {v : α} (hv : v ∈ s)
    (hheld : v ∈ held sup rank n t) : v ∈ held sup rank n s := by
  rcases mem_current_or_mem_superseded sup hv with h | h
  · exact Finset.mem_union_left _ h
  · refine Finset.mem_union_right _ ?_
    have hvt : v ∈ superseded sup t := superseded_mono hst h
    have htop : v ∈ topRank rank n (superseded sup t) := by
      rcases Finset.mem_union.mp hheld with hc | ht
      · obtain ⟨-, u, hu, huv⟩ := mem_superseded.mp hvt
        exact absurd huv ((mem_current.mp hc).2 u hu)
      · exact ht
    by_contra hout
    have hinj : Set.InjOn rank (superseded sup s) :=
      hrank.mono fun u hu => hst (mem_superseded.mp hu).1
    have hle := le_card_topRank_above hinj h hout
    have hmono : ((topRank rank n (superseded sup s)).filter fun u => rank v < rank u).card ≤
        ((superseded sup t).filter fun u => rank v < rank u).card :=
      Finset.card_le_card (Finset.filter_subset_filter _
        (topRank_subset.trans (superseded_mono hst)))
    have := (mem_topRank.mp htop).2
    omega

section Union

variable (hsup : StrictOn sup (s ∪ t)) (hrank : Set.InjOn rank (↑(s ∪ t) : Set α))

variable (rank n) in
include hsup in
/-- A version superseded in the union is superseded by a held version. -/
theorem exists_held_of_superseded {v : α} (hv : v ∈ superseded sup (s ∪ t)) :
    ∃ w ∈ held sup rank n s ∪ held sup rank n t, sup w v := by
  obtain ⟨w, hw, hwv⟩ := exists_current_of_superseded hsup hv
  obtain ⟨hw, hmax⟩ := mem_current.mp hw
  refine ⟨w, ?_, hwv⟩
  rcases Finset.mem_union.mp hw with h | h
  · refine Finset.mem_union_left _ (Finset.mem_union_left _ (mem_current.mpr ⟨h, fun u hu => ?_⟩))
    exact hmax u (Finset.mem_union_left _ hu)
  · refine Finset.mem_union_right _ (Finset.mem_union_left _ (mem_current.mpr ⟨h, fun u hu => ?_⟩))
    exact hmax u (Finset.mem_union_right _ hu)

theorem held_union_subset : held sup rank n s ∪ held sup rank n t ⊆ s ∪ t :=
  Finset.union_subset_union held_subset held_subset

include hsup in
/-- The current elements of what is held of two parts are the current elements of the union. -/
theorem current_held_union :
    current sup (held sup rank n s ∪ held sup rank n t) = current sup (s ∪ t) := by
  ext v
  constructor
  · intro hv
    obtain ⟨hv, hmax⟩ := mem_current.mp hv
    have hvst := held_union_subset hv
    rcases mem_current_or_mem_superseded sup hvst with h | h
    · exact h
    · obtain ⟨w, hw, hwv⟩ := exists_held_of_superseded rank n hsup h
      exact absurd hwv (hmax w hw)
  · intro hv
    obtain ⟨hv, hmax⟩ := mem_current.mp hv
    refine mem_current.mpr ⟨?_, fun u hu => hmax u (held_union_subset hu)⟩
    rcases Finset.mem_union.mp hv with h | h
    · exact Finset.mem_union_left _ (Finset.mem_union_left _
        (mem_current.mpr ⟨h, fun u hu => hmax u (Finset.mem_union_left _ hu)⟩))
    · exact Finset.mem_union_right _ (Finset.mem_union_left _
        (mem_current.mpr ⟨h, fun u hu => hmax u (Finset.mem_union_right _ hu)⟩))

include hsup in
theorem mem_superseded_held_union {v : α} :
    v ∈ superseded sup (held sup rank n s ∪ held sup rank n t) ↔
      v ∈ held sup rank n s ∪ held sup rank n t ∧ v ∈ superseded sup (s ∪ t) := by
  constructor
  · intro h
    exact ⟨(mem_superseded.mp h).1, superseded_mono held_union_subset h⟩
  · rintro ⟨hv, h⟩
    obtain ⟨w, hw, hwv⟩ := exists_held_of_superseded rank n hsup h
    exact mem_superseded.mpr ⟨hv, w, hw, hwv⟩

/-- A superseded element of a part that is not held has `n` superseded held elements above it. -/
theorem le_card_superseded_above (hsup : StrictOn sup (s ∪ t))
    (hrank : Set.InjOn rank (↑(s ∪ t) : Set α)) {p : Finset α} (hp : p = s ∨ p = t) {v : α}
    (hv : v ∈ p) (hout : v ∉ held sup rank n p) :
    n ≤ ((superseded sup (held sup rank n s ∪ held sup rank n t)).filter
      fun u => rank v < rank u).card := by
  have hpst : p ⊆ s ∪ t := by
    rcases hp with rfl | rfl
    · exact Finset.subset_union_left
    · exact Finset.subset_union_right
  have hpheld : held sup rank n p ⊆ held sup rank n s ∪ held sup rank n t := by
    rcases hp with rfl | rfl
    · exact Finset.subset_union_left
    · exact Finset.subset_union_right
  have hsuper : v ∈ superseded sup p := by
    rcases mem_current_or_mem_superseded sup hv with h | h
    · exact absurd (Finset.mem_union_left _ h) hout
    · exact h
  have htop : v ∉ topRank rank n (superseded sup p) :=
    fun h => hout (Finset.mem_union_right _ h)
  have hinj : Set.InjOn rank (superseded sup p) :=
    hrank.mono fun u hu => hpst (mem_superseded.mp hu).1
  refine (le_card_topRank_above hinj hsuper htop).trans (Finset.card_le_card ?_)
  refine Finset.filter_subset_filter _ fun u hu => ?_
  rw [mem_superseded_held_union hsup]
  exact ⟨hpheld (Finset.mem_union_right _ hu), superseded_mono hpst (topRank_subset hu)⟩

include hsup hrank in
/-- The kept history of what is held of two parts is the kept history of the union. -/
theorem topRank_superseded_held_union :
    topRank rank n (superseded sup (held sup rank n s ∪ held sup rank n t)) =
      topRank rank n (superseded sup (s ∪ t)) := by
  refine topRank_eq_of_subset (superseded_mono held_union_subset) fun v hv hout => ?_
  have hheld : v ∉ held sup rank n s ∪ held sup rank n t := by
    intro h
    exact hout ((mem_superseded_held_union hsup).mpr ⟨h, hv⟩)
  rw [Finset.mem_union, not_or] at hheld
  rcases Finset.mem_union.mp (mem_superseded.mp hv).1 with h | h
  · exact le_card_superseded_above hsup hrank (.inl rfl) h hheld.1
  · exact le_card_superseded_above hsup hrank (.inr rfl) h hheld.2

end Union

end RizzyVault.Lib
