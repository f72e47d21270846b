import RizzyVault.Lib.TreeMap

/-!
# Chained maps

A map from numbers in which every entry names the key of the entry before it, zero before the
first, and a head that is the last key, zero if there is none. Its entries in key order then form
one unbroken chain from zero to the head. Entries are only added past the head, and an entry may
change in whatever does not change the key it names.

## Main definitions

* `ChainMap`.

## Main results

* `ChainMap.insert`, `ChainMap.congr`: what keeps a map linked.
* `ChainMap.map_prev`, `ChainMap.head_eq`: the chain that the entries form.
* `ChainMap.toList_eq_append`: a linked map that keeps the entries of another has the others past
  its head.
-/

namespace RizzyVault.Lib

open Std (ExtTreeMap)

variable {α : Type*} {prev : α → ℕ} {m : ExtTreeMap ℕ α} {head : ℕ}

/-- Every entry names, by `prev`, the key of the entry before it; `head` is the last key. -/
structure ChainMap (prev : α → ℕ) (m : ExtTreeMap ℕ α) (head : ℕ) : Prop where
  le_head : ∀ (k : ℕ) a, m[k]? = some a → k ≤ head
  head_mem : head ≠ 0 → ∃ a, m[head]? = some a
  prev_lt : ∀ (k : ℕ) a, m[k]? = some a → prev a < k
  prev_mem : ∀ (k : ℕ) a, m[k]? = some a → prev a ≠ 0 → ∃ b, m[prev a]? = some b
  le_prev : ∀ (k : ℕ) a (j : ℕ) b, m[k]? = some a → m[j]? = some b → j < k → j ≤ prev a

namespace ChainMap

theorem empty : ChainMap prev (∅ : ExtTreeMap ℕ α) 0 where
  le_head k a h := by simp at h
  head_mem h := absurd rfl h
  prev_lt k a h := by simp at h
  prev_mem k a h := by simp at h
  le_prev k a j b h := by simp at h

/-- The keys and what the entries name decide whether a map is linked. -/
theorem congr (h : ChainMap prev m head) {m' : ExtTreeMap ℕ α}
    (hm : ∀ k : ℕ, m'[k]?.map prev = m[k]?.map prev) : ChainMap prev m' head := by
  have back : ∀ {k : ℕ} {a}, m'[k]? = some a → ∃ b, m[k]? = some b ∧ prev b = prev a := by
    intro k a hk
    have := hm k
    rw [hk, Option.map_some] at this
    exact Option.map_eq_some_iff.mp this.symm
  have forth : ∀ {k : ℕ} {a}, m[k]? = some a → ∃ b, m'[k]? = some b := by
    intro k a hk
    have := hm k
    rw [hk, Option.map_some] at this
    obtain ⟨b, hb, -⟩ := Option.map_eq_some_iff.mp this
    exact ⟨b, hb⟩
  refine ⟨fun k a hk => ?_, fun h0 => ?_, fun k a hk => ?_, fun k a hk h0 => ?_,
    fun k a j b hk hj hjk => ?_⟩
  · obtain ⟨b, hb, -⟩ := back hk
    exact h.le_head k b hb
  · obtain ⟨a, ha⟩ := h.head_mem h0
    exact forth ha
  · obtain ⟨b, hb, hp⟩ := back hk
    exact hp ▸ h.prev_lt k b hb
  · obtain ⟨b, hb, hp⟩ := back hk
    rw [← hp] at h0 ⊢
    obtain ⟨c, hc⟩ := h.prev_mem k b hb h0
    exact forth hc
  · obtain ⟨c, hc, hp⟩ := back hk
    obtain ⟨d, hd, -⟩ := back hj
    exact hp ▸ h.le_prev k c j d hc hd hjk

/-- An entry past the head that names it is the new head. -/
theorem insert (h : ChainMap prev m head) {k : ℕ} {a : α} (hk : head < k) (ha : prev a = head) :
    ChainMap prev (m.insert k a) k := by
  have old : ∀ {j : ℕ} {b}, (m.insert k a)[j]? = some b →
      (j = k ∧ b = a) ∨ (j ≤ head ∧ m[j]? = some b) := by
    intro j b hj
    rw [ExtTreeMap.getElem?_insert_iff] at hj
    split_ifs at hj with hjk
    · exact .inl ⟨hjk.symm, (Option.some.inj hj).symm⟩
    · exact .inr ⟨h.le_head j b hj, hj⟩
  have kept : ∀ {j : ℕ} {b}, m[j]? = some b → (m.insert k a)[j]? = some b := by
    intro j b hj
    have hle := h.le_head j b hj
    rw [ExtTreeMap.getElem?_insert_iff, if_neg (by omega), hj]
  refine ⟨fun j b hj => ?_, fun _ => ⟨a, by simp⟩, fun j b hj => ?_, fun j b hj h0 => ?_,
    fun j b i c hj hi hij => ?_⟩
  · rcases old hj with ⟨rfl, -⟩ | ⟨hle, -⟩ <;> omega
  · rcases old hj with ⟨rfl, rfl⟩ | ⟨-, hj⟩
    · omega
    · exact h.prev_lt j b hj
  · rcases old hj with ⟨rfl, rfl⟩ | ⟨-, hj⟩
    · rw [ha] at h0 ⊢
      obtain ⟨c, hc⟩ := h.head_mem h0
      exact ⟨c, kept hc⟩
    · obtain ⟨c, hc⟩ := h.prev_mem j b hj h0
      exact ⟨c, kept hc⟩
  · rcases old hi with ⟨rfl, -⟩ | ⟨hle, hi⟩
    · rcases old hj with ⟨rfl, -⟩ | ⟨hle, -⟩ <;> omega
    · rcases old hj with ⟨rfl, rfl⟩ | ⟨-, hj⟩
      · exact ha ▸ hle
      · exact h.le_prev j b i c hj hi hij

/-! ### The chain -/

/-- A list in strictly ascending key order, in which every entry names the key before it. -/
theorem map_prev_of_pairwise {l : List (ℕ × α)} (hsorted : l.Pairwise fun a b => a.1 < b.1)
    (hlt : ∀ e ∈ l, prev e.2 < e.1) (hmem : ∀ e ∈ l, prev e.2 ≠ 0 → ∃ f ∈ l, f.1 = prev e.2)
    (hle : ∀ e ∈ l, ∀ f ∈ l, f.1 < e.1 → f.1 ≤ prev e.2) :
    l.map (fun e => prev e.2) = (0 :: l.map Prod.fst).dropLast := by
  induction l using List.reverseRecOn with
  | nil => rfl
  | append_singleton l e ih =>
    obtain ⟨hl, -, hbelow⟩ := List.pairwise_append.mp hsorted
    have hbelow : ∀ f ∈ l, f.1 < e.1 := fun f hf => hbelow f hf e (List.mem_singleton_self e)
    have hin : ∀ f ∈ l, f ∈ l ++ [e] := fun f hf => List.mem_append_left _ hf
    have hlast : e ∈ l ++ [e] := List.mem_append_right _ (List.mem_singleton_self e)
    have hl' := ih hl (fun f hf => hlt f (hin f hf))
      (fun f hf h0 => by
        obtain ⟨g, hg, hgf⟩ := hmem f (hin f hf) h0
        rcases List.mem_append.mp hg with hg | hg
        · exact ⟨g, hg, hgf⟩
        · have h1 := hlt f (hin f hf)
          have h2 := hbelow f hf
          rw [List.mem_singleton.mp hg] at hgf
          omega)
      fun f hf g hg => hle f (hin f hf) g (hin g hg)
    rw [List.map_append, hl', List.map_append, ← List.cons_append, List.map_singleton,
      List.map_singleton, List.dropLast_concat]
    -- what remains is that the last entry names the last key before it
    have hne : (0 :: l.map Prod.fst) ≠ [] := List.cons_ne_nil _ _
    suffices h : prev e.2 = (0 :: l.map Prod.fst).getLast hne by
      rw [h, List.dropLast_append_getLast]
    rcases List.eq_nil_or_concat l with rfl | ⟨l, f, rfl⟩
    · by_contra h0
      obtain ⟨g, hg, hge⟩ := hmem e hlast h0
      have := hlt e hlast
      rw [List.mem_singleton.mp hg] at hge
      omega
    · have hf := hle e hlast f (by simp) (hbelow f (by simp))
      have hfpos := hlt f (by simp)
      obtain ⟨g, hg, hge⟩ := hmem e hlast (by omega)
      have hlte := hlt e hlast
      have hgf : g.1 ≤ f.1 := by
        rcases List.mem_append.mp hg with hg | hg
        · rw [List.concat_eq_append] at hg hl
          rcases List.mem_append.mp hg with hg | hg
          · exact ((List.pairwise_append.mp hl).2.2 g hg f (by simp)).le
          · rw [List.mem_singleton.mp hg]
        · rw [List.mem_singleton.mp hg] at hge
          omega
      simp only [List.concat_eq_append, List.map_append, List.map_singleton]
      rw [List.getLast_cons (by simp), List.getLast_append_singleton]
      omega

/-- In key order, every entry names the key before it, the first one zero. -/
theorem map_prev (h : ChainMap prev m head) :
    m.toList.map (fun e => prev e.2) = (0 :: m.toList.map Prod.fst).dropLast := by
  have mem : ∀ {e : ℕ × α}, e ∈ m.toList ↔ m[e.1]? = some e.2 :=
    ExtTreeMap.mem_toList_iff_getElem?_eq_some
  refine map_prev_of_pairwise m.pairwise_fst_toList (fun e he => h.prev_lt _ _ (mem.mp he))
    (fun e he h0 => ?_) fun e he f hf => h.le_prev _ _ _ _ (mem.mp he) (mem.mp hf)
  obtain ⟨b, hb⟩ := h.prev_mem _ _ (mem.mp he) h0
  exact ⟨(prev e.2, b), mem.mpr hb, rfl⟩

/-- The head is the last key, zero if there is none. -/
theorem head_eq (h : ChainMap prev m head) :
    head = (0 :: m.toList.map Prod.fst).getLast (List.cons_ne_nil _ _) := by
  have mem : ∀ {e : ℕ × α}, e ∈ m.toList ↔ m[e.1]? = some e.2 :=
    ExtTreeMap.mem_toList_iff_getElem?_eq_some
  have hsorted := m.pairwise_fst_toList
  rcases List.eq_nil_or_concat m.toList with hnil | ⟨l, e, hl⟩
  · rw [List.getLast_congr _ (List.cons_ne_nil 0 []) (by rw [hnil, List.map_nil])]
    by_contra h0
    obtain ⟨a, ha⟩ := h.head_mem h0
    have : (head, a) ∈ m.toList := mem.mpr ha
    rw [hnil] at this
    exact List.not_mem_nil this
  · rw [List.concat_eq_append] at hl
    have he : e ∈ m.toList := by simp [hl]
    have hle := h.le_head _ _ (mem.mp he)
    have hlt := h.prev_lt _ _ (mem.mp he)
    obtain ⟨a, ha⟩ := h.head_mem (by omega)
    have hmem : (head, a) ∈ m.toList := mem.mpr ha
    have hge : head ≤ e.1 := by
      rw [hl] at hmem hsorted
      rcases List.mem_append.mp hmem with hm | hm
      · exact ((List.pairwise_append.mp hsorted).2.2 _ hm e (by simp)).le
      · exact (congrArg Prod.fst (List.mem_singleton.mp hm)).le
    rw [List.getLast_congr _ (by simp) (show 0 :: m.toList.map Prod.fst =
      (0 :: l.map Prod.fst) ++ [e.1] by simp [hl]), List.getLast_append_singleton]
    omega

/-! ### Keeping entries -/

section Keep

variable {m' : ExtTreeMap ℕ α} {head' : ℕ}

/-- A linked map that keeps the entries of another has no other entry at or below its head. -/
theorem mem_of_le_head (h : ChainMap prev m head) (h' : ChainMap prev m' head')
    (hkept : ∀ (k : ℕ) a, m[k]? = some a → ∃ b, m'[k]? = some b ∧ prev b = prev a)
    {j : ℕ} {b : α} (hj : m'[j]? = some b) (hle : j ≤ head) : ∃ a, m[j]? = some a := by
  have hpos := h'.prev_lt j b hj
  -- down the chain from the head: no key of the map is the first one past `j`
  have hfirst : ∀ k a, m[k]? = some a → j ≤ k → ∃ a, m[j]? = some a := by
    intro k
    induction k using Nat.strong_induction_on with
    | _ k ih =>
      intro a hk hjk
      rcases hjk.eq_or_lt with rfl | hjk
      · exact ⟨a, hk⟩
      · obtain ⟨c, hc, hp⟩ := hkept k a hk
        have hprev := h'.le_prev k c j b hc hj hjk
        rw [hp] at hprev
        obtain ⟨e, he⟩ := h.prev_mem k a hk (by omega)
        exact ih (prev a) (h.prev_lt k a hk) e he hprev
  obtain ⟨a, ha⟩ := h.head_mem (by omega)
  exact hfirst head a ha hle

/-- A linked map that keeps the entries of another lists them first, and the others after them. -/
theorem toList_eq_append (h : ChainMap prev m head) (h' : ChainMap prev m' head')
    (hkept : ∀ (k : ℕ) a, m[k]? = some a → ∃ b, m'[k]? = some b ∧ prev b = prev a) :
    m'.toList = (m.toList.map fun e => (e.1, (m'[e.1]?).getD e.2)) ++
      m'.toList.filter fun e => head < e.1 := by
  have mem : ∀ {m : ExtTreeMap ℕ α} {e : ℕ × α}, e ∈ m.toList ↔ m[e.1]? = some e.2 :=
    ExtTreeMap.mem_toList_iff_getElem?_eq_some
  have hsorted : ((m.toList.map fun e => (e.1, (m'[e.1]?).getD e.2)) ++
      m'.toList.filter fun e => head < e.1).Pairwise fun a b => a.1 < b.1 := by
    refine List.pairwise_append.mpr ⟨List.pairwise_map.mpr m.pairwise_fst_toList,
      m'.pairwise_fst_toList.filter _, fun a ha b hb => ?_⟩
    obtain ⟨e, he, rfl⟩ := List.mem_map.mp ha
    have hle := h.le_head _ _ (mem.mp he)
    have hlt := of_decide_eq_true (List.mem_filter.mp hb).2
    exact hle.trans_lt hlt
  have hnodup : ∀ {l : List (ℕ × α)}, (l.Pairwise fun a b => a.1 < b.1) → l.Nodup :=
    fun hl => hl.imp fun hab heq => hab.ne (congrArg Prod.fst heq)
  refine List.Perm.eq_of_pairwise (fun a b _ _ hab hba => absurd hba hab.asymm)
    m'.pairwise_fst_toList hsorted ?_
  refine (List.perm_ext_iff_of_nodup (hnodup m'.pairwise_fst_toList) (hnodup hsorted)).mpr
    fun e => ?_
  simp only [List.mem_append, List.mem_map, List.mem_filter, decide_eq_true_eq]
  constructor
  · intro he
    by_cases hlt : head < e.1
    · exact .inr ⟨he, hlt⟩
    · obtain ⟨a, ha⟩ := h.mem_of_le_head h' hkept (mem.mp he) (not_lt.mp hlt)
      exact .inl ⟨(e.1, a), mem.mpr ha, Prod.ext rfl (by rw [mem.mp he, Option.getD_some])⟩
  · rintro (⟨f, hf, rfl⟩ | ⟨he, -⟩)
    · obtain ⟨b, hb, -⟩ := hkept _ _ (mem.mp hf)
      rw [hb, Option.getD_some]
      exact mem.mpr hb
    · exact he

end Keep

end ChainMap

end RizzyVault.Lib
