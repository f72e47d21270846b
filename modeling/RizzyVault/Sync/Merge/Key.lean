import RizzyVault.Lib.Supersede
import RizzyVault.Sync.Merge.Join

/-!
# The values of one key

What `maximal` and `prune` compute, in terms of the set of values given: one version per dot, the
least by `versionKey`; the current values are those at dots no other dot of the set supersedes;
pruning keeps the values with fewer than `historyLimit` values of higher rank. Both results are
strictly ascending by dot, so they are determined by their members.

## Main definitions

* `Supersedes`: the pairwise definition the index decides.
* `versionKey`, `IsVersion`: the version of a dot that is kept.

## Main results

* `Supersession.covers_new_iff`, `supersession_index`: the index agrees with the pairwise
  definition.
* `mem_maximal_fst`, `mem_maximal_snd`, `mem_prune`: the members of the results.
* `maximal_congr`: the split depends only on the set of values.
-/

open RizzyVault.Core RizzyVault.Lib

namespace RizzyVault.Sync

open Std (ExtTreeMap ExtTreeSet)

/-- The verified context of `u` covers `v`, another dot. -/
def Supersedes (ev : Evidence) (u v : Dot) : Prop :=
  u ≠ v ∧ ∃ c ∈ ev.context u, c.covers v

instance (ev : Evidence) : DecidableRel (Supersedes ev) := fun u v =>
  match h : ev.context u with
  | none => isFalse fun ⟨_, _, hc, _⟩ => by simp [h] at hc
  | some c => decidable_of_iff (u ≠ v ∧ c.covers v) <| by simp [Supersedes, h]

/-! ### The supersession index -/

namespace Supersession

/-- The highest entry for the device of `v` among the dots other than `v`. -/
def bound (top : TopEntries) (v : Dot) : ℕ :=
  match top[v.deviceId]? with
  | none => 0
  | some (best, bestDot, second) => if bestDot = v then second else best

theorem covers_iff_le_bound (s : Supersession) (v : Val) :
    s.covers v ↔ v.dot.seq ≤ bound s.top v.dot := by
  unfold covers bound
  cases s.top[v.dot.deviceId]? with
  | none => simp [v.dot.seq_pos.ne']
  | some t => simp

/-- The holders of the best entries are entered dots, and the second entry is no higher. -/
structure WF (top : TopEntries) (entered : Set Dot) : Prop where
  holder : ∀ (device : DeviceId) (t : ℕ × Dot × ℕ), top[device]? = some t → t.2.1 ∈ entered
  second_le : ∀ (device : DeviceId) (t : ℕ × Dot × ℕ), top[device]? = some t → t.2.2 ≤ t.1

theorem getElem?_addEntry (u : Dot) (top : TopEntries) (e : Dot)
    (device : DeviceId) (h : e.deviceId ≠ device) :
    (addEntry u top e)[device]? = top[device]? := by
  rw [addEntry, ExtTreeMap.getElem?_alter_iff, if_neg h]

theorem WF.addEntry {top : TopEntries} {entered : Set Dot} {u e : Dot}
    (h : WF top entered) (hu : u ∈ entered) :
    WF (Supersession.addEntry u top e) entered := by
  have key : ∀ (device : DeviceId) (t : ℕ × Dot × ℕ),
      (Supersession.addEntry u top e)[device]? = some t →
      t.2.1 ∈ entered ∧ t.2.2 ≤ t.1 := by
    intro device t ht
    rw [Supersession.addEntry, ExtTreeMap.getElem?_alter_iff] at ht
    split_ifs at ht with hd
    · subst hd
      cases ht' : top[e.deviceId]? with
      | none =>
        rw [ht'] at ht
        cases ht
        exact ⟨hu, Nat.zero_le _⟩
      | some t' =>
        obtain ⟨best, bestDot, second⟩ := t'
        rw [ht'] at ht
        have hsecond : second ≤ best := h.second_le _ _ ht'
        dsimp only at ht
        split_ifs at ht with hlt
        · cases ht
          exact ⟨hu, hlt.le⟩
        · cases ht
          exact ⟨h.holder _ (best, bestDot, second) ht', max_le hsecond (not_lt.mp hlt)⟩
    · exact ⟨h.holder _ _ ht, h.second_le _ _ ht⟩
  exact ⟨fun device t ht => (key device t ht).1, fun device t ht => (key device t ht).2⟩

/-- One entry raises the bound of the other dots of its device. -/
theorem le_bound_addEntry {top : TopEntries} {entered : Set Dot}
    {u e v : Dot} (h : WF top entered)
    (hu : ∀ t, top[e.deviceId]? = some t → t.2.1 ≠ u) :
    v.seq ≤ bound (addEntry u top e) v ↔
      v.seq ≤ bound top v ∨ (u ≠ v ∧ e.deviceId = v.deviceId ∧ v.seq ≤ e.seq) := by
  by_cases hd : e.deviceId = v.deviceId
  · have hpos := v.seq_pos
    unfold bound addEntry
    rw [ExtTreeMap.getElem?_alter_iff, if_pos hd, ← hd]
    cases ht : top[e.deviceId]? with
    | none =>
      by_cases huv : u = v
      · simp [huv, hpos.ne']
      · simp [huv, hpos.ne']
    | some t =>
      obtain ⟨best, bestDot, second⟩ := t
      have hbest : bestDot ≠ u := hu _ ht
      have hsecond : second ≤ best := h.second_le _ _ ht
      dsimp only
      by_cases hlt : best < e.seq
      · rw [if_pos hlt]
        by_cases huv : u = v
        · have hbv : bestDot ≠ v := huv ▸ hbest
          simp [huv, hbv]
        · by_cases hbv : bestDot = v
          · simp only [huv, hbv, if_false, if_true, ne_eq, not_false_eq_true, true_and]
            omega
          · simp only [huv, hbv, if_false, ne_eq, not_false_eq_true, true_and]
            omega
      · rw [if_neg hlt]
        by_cases huv : u = v
        · have hbv : bestDot ≠ v := huv ▸ hbest
          simp [huv, hbv]
        · by_cases hbv : bestDot = v
          · simp [huv, hbv]
          · simp only [huv, hbv, if_false, ne_eq, not_false_eq_true, true_and]
            omega
  · unfold bound
    rw [getElem?_addEntry u top e v.deviceId hd]
    simp [hd]

/-- A whole context raises the bound of the dots it covers, its own excepted. -/
theorem le_bound_foldl_addEntry {entered : Set Dot} {u v : Dot} (hu : u ∈ entered) (l : List Dot)
    (hl : l.Pairwise fun a b => a.deviceId ≠ b.deviceId)
    (top : TopEntries) (h : WF top entered)
    (hfresh : ∀ e ∈ l, ∀ t, top[e.deviceId]? = some t → t.2.1 ≠ u) :
    WF (l.foldl (addEntry u) top) entered ∧
      (v.seq ≤ bound (l.foldl (addEntry u) top) v ↔
        v.seq ≤ bound top v ∨
          (u ≠ v ∧ ∃ e ∈ l, e.deviceId = v.deviceId ∧ v.seq ≤ e.seq)) := by
  induction l generalizing top with
  | nil => exact ⟨h, by simp⟩
  | cons e l ih =>
    obtain ⟨he, hl⟩ := List.pairwise_cons.mp hl
    have hfresh' : ∀ e' ∈ l, ∀ t, (addEntry u top e)[e'.deviceId]? = some t → t.2.1 ≠ u := by
      intro e' he' t ht
      rw [getElem?_addEntry u top e e'.deviceId (he e' he')] at ht
      exact hfresh e' (List.mem_cons_of_mem _ he') t ht
    obtain ⟨hwf, hbound⟩ := ih hl (addEntry u top e) (h.addEntry hu) hfresh'
    refine ⟨hwf, ?_⟩
    rw [List.foldl_cons, hbound, le_bound_addEntry h (hfresh e List.mem_cons_self)]
    constructor
    · rintro ((h | ⟨huv, hd, hs⟩) | ⟨huv, e', he', hd, hs⟩)
      · exact .inl h
      · exact .inr ⟨huv, e, List.mem_cons_self, hd, hs⟩
      · exact .inr ⟨huv, e', List.mem_cons_of_mem _ he', hd, hs⟩
    · rintro (h | ⟨huv, e', he', hd, hs⟩)
      · exact .inl (.inl h)
      · rcases List.mem_cons.mp he' with rfl | he'
        · exact .inl (.inr ⟨huv, hd, hs⟩)
        · exact .inr ⟨huv, e', he', hd, hs⟩

theorem pairwise_deviceId_dots (vv : VersionVector) :
    vv.dots.Pairwise fun a b => a.deviceId ≠ b.deviceId := by
  rw [VersionVector.dots, List.pairwise_map]
  exact vv.entries.pairwise_fst_toList.imp fun h => h.ne

/-- One dot's context, if it has a verified header. -/
theorem le_bound_addDot (ev : Evidence) {top : TopEntries}
    {entered : Set Dot} {u v : Dot} (h : WF top entered) (hu : u ∉ entered) :
    WF (addDot ev top u) (insert u entered) ∧
      (v.seq ≤ bound (addDot ev top u) v ↔ v.seq ≤ bound top v ∨ Supersedes ev u v) := by
  have hwf : WF top (insert u entered) :=
    ⟨fun device t ht => .inr (h.holder device t ht), h.second_le⟩
  unfold addDot Supersedes
  cases hc : ev.context u with
  | none => exact ⟨hwf, by simp⟩
  | some c =>
    have hfresh : ∀ e ∈ c.dots, ∀ t, top[e.deviceId]? = some t → t.2.1 ≠ u := by
      rintro e - t ht rfl
      exact hu (h.holder _ _ ht)
    obtain ⟨hwf', hbound⟩ := le_bound_foldl_addEntry (v := v) (Set.mem_insert u entered) c.dots
      (pairwise_deviceId_dots c) top hwf hfresh
    refine ⟨hwf', ?_⟩
    rw [hbound, ← VersionVector.covers_iff_exists_mem_dots]
    simp

theorem le_bound_foldl_addDot {ev : Evidence} {v : Dot} (l : List Dot) (hl : l.Nodup)
    (top : TopEntries) (entered : Set Dot) (h : WF top entered)
    (hfresh : ∀ u ∈ l, u ∉ entered) :
    v.seq ≤ bound (l.foldl (addDot ev) top) v ↔
      v.seq ≤ bound top v ∨ ∃ u ∈ l, Supersedes ev u v := by
  induction l generalizing top entered with
  | nil => simp
  | cons u l ih =>
    obtain ⟨hul, hl⟩ := List.nodup_cons.mp hl
    obtain ⟨hwf, hbound⟩ := le_bound_addDot ev (v := v) h (hfresh u List.mem_cons_self)
    have hfresh' : ∀ w ∈ l, w ∉ insert u entered := by
      rintro w hw (rfl | hw')
      · exact hul hw
      · exact hfresh w (List.mem_cons_of_mem _ hw) hw'
    rw [List.foldl_cons, ih hl _ _ hwf hfresh', hbound, List.exists_mem_cons_iff, or_assoc]

/-- The index decides supersession as the pairwise definition does. -/
theorem covers_new_iff (values : List Val) (ev : Evidence) (v : Val) :
    (new values ev).covers v ↔ ∃ u ∈ values, Supersedes ev u.dot v.dot := by
  have hwf : WF ∅ ∅ := ⟨by simp, by simp⟩
  have hnodup := (ExtTreeSet.pairwise_toList (ExtTreeSet.ofList (values.map Val.dot))).imp
    fun {a b : Dot} (h : a < b) => h.ne
  rw [covers_iff_le_bound, new, le_bound_foldl_addDot _ hnodup ∅ ∅ hwf (by simp)]
  have hempty : ¬ v.dot.seq ≤ bound ∅ v.dot := by simp [bound, v.dot.seq_pos.ne']
  simp only [hempty, false_or, ExtTreeSet.mem_toList_ofList, List.mem_map]
  constructor
  · rintro ⟨-, ⟨u, hu, rfl⟩, h⟩
    exact ⟨u, hu, h⟩
  · rintro ⟨u, hu, h⟩
    exact ⟨_, ⟨u, hu, rfl⟩, h⟩

end Supersession

/-- The index answers for every value, inside the set or outside it, as the pairwise definition
does: some value of the set at another dot has a context that covers the value's dot. Where the
values have distinct dots this is some other value. -/
theorem supersession_index :
    (∀ (values : List Val) (ev : Evidence) (v : Val), (Supersession.new values ev).covers v ↔
      ∃ u ∈ values, u.dot ≠ v.dot ∧ ∃ c ∈ ev.context u.dot, c.covers v.dot) ∧
    ∀ (values : List Val) (ev : Evidence) (v : Val), (values.map Val.dot).Nodup → v ∈ values →
      ((Supersession.new values ev).covers v ↔
        ∃ u ∈ values, u ≠ v ∧ ∃ c ∈ ev.context u.dot, c.covers v.dot) := by
  refine ⟨Supersession.covers_new_iff, fun values ev v hdots hv => ?_⟩
  rw [Supersession.covers_new_iff]
  refine exists_congr fun u => and_congr_right fun hu => and_congr_left fun _ => not_congr ?_
  exact ⟨fun h => List.inj_on_of_nodup_map hdots hu hv h, congrArg Val.dot⟩

theorem supersession_index_two :
    let u : Dot := ⟨⟨2⟩, 1, by decide, by decide⟩
    let v : Dot := ⟨⟨1⟩, 1, by decide, by decide⟩
    let headers := (∅ : ExtTreeMap Dot HeaderFacts).insert u ⟨⟨2⟩, .ofDots [v]⟩
    (Supersession.new [⟨v, ⟨1⟩, []⟩, ⟨u, ⟨2⟩, []⟩] ⟨headers, ∅⟩).covers ⟨v, ⟨1⟩, []⟩ :=
  (supersession_index.2 _ _ _ (by decide +kernel) (by decide +kernel)).mpr (by decide +kernel)

/-! ### One version per dot -/

/-- The order of the versions of one dot: the header's clock value first, then the lower clock
value, then the lower bytes. -/
def versionKey (ev : Evidence) (v : Val) : Bool ×ₗ Hlc ×ₗ Bytes :=
  toLex (decide (some v.hlc ≠ ev.hlc v.dot), toLex (v.hlc, v.value))

/-- `v` is the version of its dot that is kept of `vs`. -/
def IsVersion (ev : Evidence) (vs : List Val) (v : Val) : Prop :=
  v ∈ vs ∧ ∀ u ∈ vs, u.dot = v.dot → versionKey ev v ≤ versionKey ev u

variable {ev : Evidence}

theorem eq_of_versionKey_eq {u v : Val} (hd : u.dot = v.dot)
    (h : versionKey ev u = versionKey ev v) : u = v := by
  obtain ⟨d, t, b⟩ := u
  obtain ⟨d', t', b'⟩ := v
  cases hd
  have h' := Prod.ext_iff.mp (toLex.injective h)
  have h'' := Prod.ext_iff.mp (toLex.injective h'.2)
  obtain ⟨rfl, rfl⟩ : t = t' ∧ b = b' := h''
  rfl

theorem preferred_iff {u v : Val} (hd : u.dot = v.dot) :
    preferred ev u v ↔ versionKey ev u < versionKey ev v := by
  unfold preferred versionKey
  rw [← hd]
  simp only [Prod.Lex.toLex_lt_toLex]
  split
  · rename_i h
    rw [compare_lt_iff_lt, Prod.Lex.toLex_lt_toLex] at h
    rcases h with h | ⟨h, h'⟩
    · exact iff_of_true rfl (.inl h)
    · exact iff_of_true rfl (.inr ⟨h, .inl h'⟩)
  · rename_i h
    rw [compare_gt_iff_gt, Prod.Lex.toLex_lt_toLex] at h
    refine iff_of_false Bool.false_ne_true ?_
    rintro (h₁ | ⟨h₁, h₂ | ⟨h₂, -⟩⟩) <;> rcases h with h | ⟨h, h'⟩
    · exact h.asymm h₁
    · exact h₁.ne h.symm
    · exact h.ne h₁.symm
    · exact h'.asymm h₂
    · exact h.ne h₁.symm
    · exact h'.ne h₂.symm
  · rename_i h
    rw [compare_eq_iff_eq, toLex_inj, Prod.mk.injEq] at h
    rw [h.1, h.2]
    simp

theorem IsVersion.eq {vs : List Val} {u v : Val} (hu : IsVersion ev vs u) (hv : IsVersion ev vs v)
    (hd : u.dot = v.dot) : u = v :=
  eq_of_versionKey_eq hd (le_antisymm (hu.2 v hv.1 hd.symm) (hv.2 u hu.1 hd))

/-- What the entry of a dot is after the values of `vs`. -/
def EntryOf (ev : Evidence) (vs : List Val) (d : Dot) : Option Val → Prop
  | none => ∀ u ∈ vs, u.dot ≠ d
  | some v => v.dot = d ∧ IsVersion ev vs v

theorem entryOf_step {vs : List Val} {d : Dot} {o : Option Val} {w : Val}
    (h : EntryOf ev vs d o) :
    EntryOf ev (vs ++ [w]) d (if w.dot = d then keepPreferred ev w o else o) := by
  by_cases hw : w.dot = d
  · rw [if_pos hw]
    cases o with
    | none =>
      refine ⟨hw, by simp, fun u hu hud => ?_⟩
      rcases List.mem_append.mp hu with hu | hu
      · exact absurd (hud.trans hw) (h u hu)
      · rw [List.mem_singleton.mp hu]
    | some held =>
      obtain ⟨hd, hheld, hmin⟩ := h
      have hwh : w.dot = held.dot := hw.trans hd.symm
      by_cases hp : preferred ev w held
      · rw [keepPreferred, if_pos hp]
        refine ⟨hw, by simp, fun u hu hud => ?_⟩
        rcases List.mem_append.mp hu with hu | hu
        · exact ((preferred_iff hwh).mp hp).le.trans (hmin u hu (hud.trans hwh))
        · rw [List.mem_singleton.mp hu]
      · rw [keepPreferred, if_neg hp]
        refine ⟨hd, List.mem_append_left _ hheld, fun u hu hud => ?_⟩
        rcases List.mem_append.mp hu with hu | hu
        · exact hmin u hu hud
        · rw [List.mem_singleton.mp hu]
          exact not_lt.mp fun hlt => hp ((preferred_iff hwh).mpr hlt)
  · rw [if_neg hw]
    cases o with
    | none =>
      intro u hu
      rcases List.mem_append.mp hu with hu | hu
      · exact h u hu
      · rw [List.mem_singleton.mp hu]
        exact hw
    | some held =>
      obtain ⟨hd, hheld, hmin⟩ := h
      refine ⟨hd, List.mem_append_left _ hheld, fun u hu hud => ?_⟩
      rcases List.mem_append.mp hu with hu | hu
      · exact hmin u hu hud
      · rw [List.mem_singleton.mp hu] at hud
        exact absurd (hud.trans hd) hw

theorem entryOf_byDot (ev : Evidence) (vs : List Val) (d : Dot) :
    EntryOf ev vs d (byDot ev vs)[d]? := by
  suffices h : ∀ (l done : List Val) (m : ExtTreeMap Dot Val), (∀ d, EntryOf ev done d m[d]?) →
      ∀ d, EntryOf ev (done ++ l) d (l.foldl (fun byDot v =>
        byDot.alter v.dot (keepPreferred ev v)) m)[d]? from
    h vs [] ∅ (fun d => by simp [EntryOf]) d
  intro l
  induction l with
  | nil => simp
  | cons w l ih =>
    intro done m hm d
    rw [List.foldl_cons, List.append_cons]
    refine ih (done ++ [w]) _ (fun d' => ?_) d
    have hstep := entryOf_step (w := w) (hm d')
    rw [ExtTreeMap.getElem?_alter_iff]
    by_cases hw : w.dot = d'
    · rw [if_pos hw] at hstep ⊢
      rw [hw]
      exact hstep
    · rw [if_neg hw] at hstep ⊢
      exact hstep

/-! ### The split of a key -/

/-- The values kept of a key, one per dot. -/
theorem mem_byDot_toList {vs : List Val} {e : Dot × Val} :
    e ∈ (byDot ev vs).toList ↔ e.1 = e.2.dot ∧ IsVersion ev vs e.2 := by
  have h := entryOf_byDot ev vs e.1
  rw [← Prod.mk.eta (p := e), ExtTreeMap.mem_toList_iff_getElem?_eq_some]
  constructor
  · intro he
    rw [he] at h
    exact ⟨h.1.symm, h.2⟩
  · rintro ⟨hd, hv⟩
    cases ho : (byDot ev vs)[e.1]? with
    | none =>
      rw [ho] at h
      exact absurd hd.symm (h e.2 hv.1)
    | some w =>
      rw [ho] at h
      rw [hv.eq h.2 (hd.symm.trans h.1.symm)]

theorem mem_byDot_values {vs : List Val} {v : Val} :
    v ∈ (byDot ev vs).toList.map Prod.snd ↔ IsVersion ev vs v := by
  rw [List.mem_map]
  constructor
  · rintro ⟨e, he, rfl⟩
    exact (mem_byDot_toList.mp he).2
  · intro hv
    exact ⟨(v.dot, v), mem_byDot_toList.mpr ⟨rfl, hv⟩, rfl⟩

theorem pairwise_byDot_values (ev : Evidence) (vs : List Val) :
    ((byDot ev vs).toList.map Prod.snd).Pairwise fun a b => a.dot < b.dot := by
  rw [List.pairwise_map]
  refine (ExtTreeMap.pairwise_fst_toList _).imp_of_mem fun {a b} ha hb hab => ?_
  rw [← (mem_byDot_toList.mp ha).1, ← (mem_byDot_toList.mp hb).1]
  exact hab

theorem exists_isVersion (ev : Evidence) {vs : List Val} {u : Val} (hu : u ∈ vs) :
    ∃ v, v.dot = u.dot ∧ IsVersion ev vs v := by
  have h := entryOf_byDot ev vs u.dot
  cases ho : (byDot ev vs)[u.dot]? with
  | none =>
    rw [ho] at h
    exact absurd rfl (h u hu)
  | some v =>
    rw [ho] at h
    exact ⟨v, h⟩

theorem covers_index_iff {vs : List Val} {v : Val} :
    (Supersession.new ((byDot ev vs).toList.map Prod.snd) ev).covers v ↔
      ∃ u ∈ vs, Supersedes ev u.dot v.dot := by
  rw [Supersession.covers_new_iff]
  constructor
  · rintro ⟨u, hu, h⟩
    exact ⟨u, (mem_byDot_values.mp hu).1, h⟩
  · rintro ⟨u, hu, h⟩
    obtain ⟨w, hw, hver⟩ := exists_isVersion ev hu
    exact ⟨w, mem_byDot_values.mpr hver, hw ▸ h⟩

/-- The current values: the kept versions at dots no value of the key supersedes. -/
theorem mem_maximal_fst {vs : List Val} {v : Val} :
    v ∈ (maximal vs ev).1 ↔ IsVersion ev vs v ∧ ∀ u ∈ vs, ¬ Supersedes ev u.dot v.dot := by
  simp only [maximal, List.mem_filter, mem_byDot_values, Bool.not_eq_true', ← Bool.not_eq_true,
    covers_index_iff, not_exists, not_and]

/-- The rest: the kept versions at superseded dots. -/
theorem mem_maximal_snd {vs : List Val} {v : Val} :
    v ∈ (maximal vs ev).2 ↔ IsVersion ev vs v ∧ ∃ u ∈ vs, Supersedes ev u.dot v.dot := by
  simp only [maximal, List.mem_filter, mem_byDot_values, covers_index_iff]

/-- Strictly ascending by dot. -/
abbrev DotSorted (vs : List Val) : Prop := vs.Pairwise fun a b => a.dot < b.dot

theorem dotSorted_maximal_fst (vs : List Val) (ev : Evidence) : DotSorted (maximal vs ev).1 :=
  (pairwise_byDot_values ev vs).filter _

theorem dotSorted_maximal_snd (vs : List Val) (ev : Evidence) : DotSorted (maximal vs ev).2 :=
  (pairwise_byDot_values ev vs).filter _

/-- Values in strict dot order are determined by their members. -/
theorem DotSorted.ext {a b : List Val} (ha : DotSorted a) (hb : DotSorted b)
    (h : ∀ v, v ∈ a ↔ v ∈ b) : a = b := by
  have : Std.Irrefl fun u v : Val => u.dot < v.dot := ⟨fun u => lt_irrefl u.dot⟩
  have : Std.Antisymm fun u v : Val => u.dot < v.dot := ⟨fun u v h h' => absurd h' h.asymm⟩
  exact List.Pairwise.eq_of_mem_iff ha hb h

theorem DotSorted.eq_of_dot_eq {vs : List Val} (h : DotSorted vs) {u v : Val} (hu : u ∈ vs)
    (hv : v ∈ vs) (hd : u.dot = v.dot) : u = v := by
  induction vs with
  | nil => exact absurd hu List.not_mem_nil
  | cons w vs ih =>
    obtain ⟨hw, h⟩ := List.pairwise_cons.mp h
    rcases List.mem_cons.mp hu with rfl | hu'
    · rcases List.mem_cons.mp hv with rfl | hv'
      · rfl
      · exact absurd hd (hw v hv').ne
    · rcases List.mem_cons.mp hv with rfl | hv'
      · exact absurd hd (hw u hu').ne'
      · exact ih h hu' hv'

/-! ### Pruning -/

theorem Val.rank_lt_or_lt {u v : Val} (h : u.dot ≠ v.dot) : u.rank < v.rank ∨ v.rank < u.rank := by
  refine lt_or_gt_of_ne fun hr => h ?_
  exact (Prod.ext_iff.mp (toLex.injective hr)).2

theorem pairwise_insertionSort_rank {h : List Val} (hh : DotSorted h) :
    (h.insertionSort fun a b => b.rank ≤ a.rank).Pairwise fun a b => b.rank < a.rank := by
  have : Std.Total fun a b : Val => b.rank ≤ a.rank := ⟨fun a b => le_total _ _⟩
  have : IsTrans Val fun a b : Val => b.rank ≤ a.rank := ⟨fun a b c h h' => h'.trans h⟩
  have hsorted := List.pairwise_insertionSort (fun a b : Val => b.rank ≤ a.rank) h
  have hne : (h.insertionSort fun a b => b.rank ≤ a.rank).Pairwise fun a b => a.dot ≠ b.dot :=
    (List.perm_insertionSort _ h).symm.pairwise (hh.imp fun h => h.ne) fun h => h.symm
  refine (hsorted.and hne).imp fun {a b} hab => lt_of_le_of_ne hab.1 fun hr => hab.2 ?_
  exact (Prod.ext_iff.mp (toLex.injective hr)).2.symm

/-- Pruning keeps the values with fewer than `historyLimit` values ranked above them. -/
theorem mem_prune {h : List Val} (hh : DotSorted h) {v : Val} :
    v ∈ prune h ↔ v ∈ h ∧ h.countP (fun u => v.rank < u.rank) < historyLimit := by
  unfold prune
  simp only [List.mem_insertionSort]
  split_ifs with hlen
  · rw [mem_take_iff (pairwise_insertionSort_rank hh), List.mem_insertionSort,
      (List.perm_insertionSort _ h).countP_eq]
  · refine (and_iff_left_of_imp fun hv => ?_).symm
    have hlt : h.countP (fun u => v.rank < u.rank) < h.length := by
      refine lt_of_le_of_ne List.countP_le_length fun heq => ?_
      have := List.countP_eq_length.mp heq v hv
      simp at this
    omega

theorem dotSorted_prune {h : List Val} (hh : DotSorted h) : DotSorted (prune h) := by
  unfold prune
  have : Std.Total fun a b : Val => a.dot ≤ b.dot := ⟨fun a b => le_total _ _⟩
  have : IsTrans Val fun a b : Val => a.dot ≤ b.dot := ⟨fun a b c h h' => h.trans h'⟩
  have hne : ∀ l : List Val, (l.Pairwise fun a b => a.dot ≠ b.dot) →
      DotSorted (l.insertionSort fun a b => a.dot ≤ b.dot) := by
    intro l hl
    have hne := (List.perm_insertionSort (fun a b : Val => a.dot ≤ b.dot) l).symm.pairwise hl
      fun h => h.symm
    exact ((List.pairwise_insertionSort (fun a b : Val => a.dot ≤ b.dot) l).and hne).imp
      fun hab => lt_of_le_of_ne hab.1 hab.2
  refine hne _ ?_
  split_ifs
  · have hsorted := (List.perm_insertionSort (fun a b : Val => b.rank ≤ a.rank) h).symm.pairwise
      (hh.imp fun h => h.ne) fun h => h.symm
    exact hsorted.sublist (List.take_sublist _ _)
  · exact hh.imp fun h => h.ne

/-- Pruning again changes nothing. -/
theorem mem_prune_prune {h : List Val} (hh : DotSorted h) {v : Val} :
    v ∈ prune (prune h) ↔ v ∈ prune h := by
  have hnodup : (prune h).Nodup :=
    (dotSorted_prune hh).imp fun h heq => h.ne (congrArg Val.dot heq)
  have hsub : (prune h).countP (fun u => v.rank < u.rank) ≤
      h.countP (fun u => v.rank < u.rank) :=
    (hnodup.subperm fun u hu => ((mem_prune hh).mp hu).1).countP_le _
  rw [mem_prune (dotSorted_prune hh), and_iff_left_iff_imp]
  intro hv
  exact hsub.trans_lt ((mem_prune hh).mp hv).2

/-- A value pruned away has `historyLimit` kept values ranked above it. -/
theorem le_countP_prune {h : List Val} (hh : DotSorted h) {v : Val} (hv : v ∈ h)
    (hout : v ∉ prune h) : historyLimit ≤ (prune h).countP fun u => v.rank < u.rank := by
  have hsorted := pairwise_insertionSort_rank hh
  unfold prune at hout ⊢
  simp only [List.mem_insertionSort] at hout
  simp only [(List.perm_insertionSort _ _).countP_eq]
  split_ifs at hout ⊢ with hlen
  · -- The kept values are a prefix of the descending order and `v` comes after it.
    have hmem : v ∈ h.insertionSort fun a b => b.rank ≤ a.rank := List.mem_insertionSort _ |>.mpr hv
    rw [← List.take_append_drop historyLimit (h.insertionSort _), List.mem_append,
      or_iff_right hout] at hmem
    rw [← List.take_append_drop historyLimit (h.insertionSort _), List.pairwise_append] at hsorted
    rw [List.countP_eq_length.mpr fun u hu => by simpa using hsorted.2.2 u hu v hmem,
      List.length_take, List.length_insertionSort]
    omega
  · exact absurd hv hout

end RizzyVault.Sync
