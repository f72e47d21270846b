import RizzyVault.Sync.Merge.HonestSnapshot

/-!
# Normal form under any evidence

The join of two states in normal form, over any verified contexts. The order of the two states
never matters, and a tombstone that is joined into is in normal form again. A join of live items
prunes the superseded values of each key, and the pruning may drop the only value that supersedes a
kept one when the contexts are not transitive: then the result is not in normal form.

## Main definitions

* `Normal`: a state in normal form.
* `SupersededIn`, `Recent`, `SupersedersKept`: what the pruning of a key must keep.

## Main results

* `Normal.joinInto_comm`: the order of the two states never matters.
* `normal_joinInto_iff`: when the join is in normal form and independent of the order.
-/

open RizzyVault.Core RizzyVault.Lib

namespace RizzyVault.Sync

open Std (ExtTreeMap ExtTreeSet)

variable {ev : Evidence} {a b : State} {vs : List Val} {u v : Val} {vv : VersionVector}

/-- The state is its own normal form. -/
def Normal (ev : Evidence) (s : State) : Prop := normalize s ev = s

instance (ev : Evidence) (s : State) : Decidable (Normal ev s) :=
  inferInstanceAs (Decidable (normalize s ev = s))

/-! ### Keys in normal form -/

theorem normal_live_iff {l : Live} :
    Normal ev ⟨vv, .live l⟩ ↔
      l.Kept ∧ ∀ k, liveKey (l.valuesAt k) ev = (lookup l.regs k, lookup l.hist k) := by
  have hkept := kept_foldl_setLiveKey (fun _ key => valuesOf key [l.regs, l.hist]) ev
    (keysOf [l.regs, l.hist]) (x := ⟨∅, ∅⟩) ⟨noEmpty_empty, noEmpty_empty⟩
  have hlook := lookup_normalize_live l ev
  simp only [Normal, normalize, State.mk.injEq, Shape.live.injEq, true_and]
  constructor
  · intro h
    rw [h] at hkept
    refine ⟨hkept, fun k => ?_⟩
    have hk := hlook k
    simp only [h] at hk
    exact Prod.ext hk.1.symm hk.2.symm
  · rintro ⟨hl, hkey⟩
    have hregs := hkept.regs.ext hl.regs fun k => by rw [(hlook k).1, hkey k]
    have hhist := hkept.hist.ext hl.hist fun k => by rw [(hlook k).2, hkey k]
    exact congrArg₂ Live.mk hregs hhist

theorem normal_tomb_iff {t : Tomb} :
    Normal ev ⟨vv, .tomb t⟩ ↔
      NoEmpty t.late ∧ lookup t.late lifecycleKey = [] ∧ ∀ k, k ≠ lifecycleKey →
        (maximal (lookup t.late k) ev).1.filter (fun v => ¬ t.c.covers v.dot) =
          lookup t.late k := by
  obtain ⟨hc, hp, hkept, hlook⟩ := lookup_normalize_tomb t ev
  simp only [Normal, normalize, State.mk.injEq, Shape.tomb.injEq, true_and]
  constructor
  · intro h
    rw [h] at hkept
    simp only [h] at hlook
    refine ⟨hkept, ?_, fun k hk => ?_⟩
    · rw [hlook lifecycleKey, if_neg (not_not.mpr rfl)]
    · have hkey := hlook k
      rw [if_pos hk] at hkey
      exact hkey.symm
  · rintro ⟨hne, hlife, hkey⟩
    refine Tomb.ext hp hc (hkept.ext hne fun k => ?_)
    rw [hlook k]
    split_ifs with hk
    · exact hkey k hk
    · rw [not_not.mp hk, hlife]

/-- The late values of a key in normal form: sorted, none superseded, none covered. -/
theorem lateKey_eq_self_iff {c : VersionVector} {l : List Val} :
    (maximal l ev).1.filter (fun v => ¬ c.covers v.dot) = l ↔
      DotSorted l ∧ Independent ev l ∧ ∀ v ∈ l, ¬ c.covers v.dot := by
  constructor
  · intro h
    refine ⟨h ▸ (dotSorted_maximal_fst l ev).filter _, fun u hu v hv => ?_, fun v hv => ?_⟩
    · rw [← h] at hu hv
      exact independent_maximal_fst l ev u (List.mem_filter.mp hu).1 v (List.mem_filter.mp hv).1
    · rw [← h] at hv
      simpa using (List.mem_filter.mp hv).2
  · rintro ⟨hs, hi, hc⟩
    rw [maximal_fst_eq_self hs hi, List.filter_eq_self]
    intro v hv
    simpa using hc v hv

/-! ### The order of the states -/

theorem maxPurge_comm (ev : Evidence) (p q : Option PurgeRec) :
    maxPurge ev p q = maxPurge ev q p := by
  cases p with
  | none => cases q <;> rfl
  | some p =>
    cases q with
    | none => rfl
    | some q =>
      simp only [maxPurge, higherPurge]
      rcases lt_trichotomy (purgeOrder p ev) (purgeOrder q ev) with h | h | h
      · rw [if_pos h, if_neg h.asymm]
      · rw [purgeOrder_injective ev h]
      · rw [if_neg h.asymm, if_pos h]

/-- Every key of a join of live items in normal form is recomputed from both sides. -/
theorem lookup_joinLiveInto_normal {x y : Live} (hx : Normal ev ⟨vv, .live x⟩) (k : Bytes) :
    lookup (joinLiveInto x y ev).regs k = (liveKey (x.valuesAt k ++ y.valuesAt k) ev).1 ∧
      lookup (joinLiveInto x y ev).hist k = (liveKey (x.valuesAt k ++ y.valuesAt k) ev).2 := by
  obtain ⟨hr, hh⟩ := lookup_joinLiveInto x y ev k
  rw [hr, hh]
  by_cases hk : k ∈ keysOf [y.regs, y.hist]
  · rw [if_pos hk, if_pos hk]
    exact ⟨rfl, rfl⟩
  · have hnil : y.valuesAt k = [] := by rw [← valuesOf_two, valuesOf_eq_nil hk]
    rw [if_neg hk, if_neg hk, hnil, List.append_nil, (normal_live_iff.mp hx).2 k]
    exact ⟨rfl, rfl⟩

theorem joinLiveInto_comm {x y : Live} {vv' : VersionVector} (hx : Normal ev ⟨vv, .live x⟩)
    (hy : Normal ev ⟨vv', .live y⟩) : joinLiveInto x y ev = joinLiveInto y x ev := by
  have hxy := kept_joinLiveInto (normal_live_iff.mp hx).1 y ev
  have hyx := kept_joinLiveInto (normal_live_iff.mp hy).1 x ev
  have hswap : ∀ k, liveKey (x.valuesAt k ++ y.valuesAt k) ev =
      liveKey (y.valuesAt k ++ x.valuesAt k) ev := fun k =>
    liveKey_congr ev fun v => by rw [List.mem_append, List.mem_append, or_comm]
  have hregs := hxy.regs.ext hyx.regs fun k => by
    rw [(lookup_joinLiveInto_normal hx k).1, (lookup_joinLiveInto_normal hy k).1, hswap]
  have hhist := hxy.hist.ext hyx.hist fun k => by
    rw [(lookup_joinLiveInto_normal hx k).2, (lookup_joinLiveInto_normal hy k).2, hswap]
  exact congrArg₂ Live.mk hregs hhist

/-- Every late register of a tombstone in normal form is recomputed from both sides. -/
theorem lookup_joinTombInto_normal {t : Tomb} (ht : Normal ev ⟨vv, .tomb t⟩) (other : Shape)
    {k : Bytes} (hk : k ≠ lifecycleKey) :
    lookup (joinTombInto t other ev).late k =
      (maximal (lookup t.late k ++ other.valuesAt k) ev).1.filter fun v =>
        ¬ (t.c ⊔ other.c).covers v.dot := by
  obtain ⟨hs, hi, -⟩ := lateKey_eq_self_iff.mp ((normal_tomb_iff.mp ht).2.2 k hk)
  exact lookup_joinTombInto other hk hs hi

theorem joinTombInto_comm {t t' : Tomb} {vv' : VersionVector} (ht : Normal ev ⟨vv, .tomb t⟩)
    (ht' : Normal ev ⟨vv', .tomb t'⟩) :
    joinTombInto t (.tomb t') ev = joinTombInto t' (.tomb t) ev := by
  obtain ⟨hp, hc, hne, -⟩ := joinTombInto_spec t (.tomb t') ev
  obtain ⟨hp', hc', hne', -⟩ := joinTombInto_spec t' (.tomb t) ev
  have hpurge := Option.some.inj (maxPurge_comm ev (some t.purge) (some t'.purge))
  have hsup : t.c ⊔ t'.c = t'.c ⊔ t.c := sup_comm _ _
  refine Tomb.ext (hp.trans (hpurge.trans hp'.symm)) (hc.trans (hsup.trans hc'.symm))
    (hne.ext hne' fun k => ?_)
  by_cases hk : k = lifecycleKey
  · rw [hk, lookup_joinTombInto_lifecycle _ _ (normal_tomb_iff.mp ht).2.1,
      lookup_joinTombInto_lifecycle _ _ (normal_tomb_iff.mp ht').2.1]
  · have hswap : maximal (lookup t.late k ++ lookup t'.late k) ev =
        maximal (lookup t'.late k ++ lookup t.late k) ev :=
      maximal_congr ev fun v => by rw [List.mem_append, List.mem_append, or_comm]
    rw [lookup_joinTombInto_normal ht _ hk, lookup_joinTombInto_normal ht' _ hk]
    simp only [Shape.valuesAt, Shape.c]
    rw [hswap]
    exact List.filter_congr fun v _ => decide_eq_decide.mpr (not_congr (by rw [hsup]))

/-- The order of two states in normal form never matters to their join. -/
theorem Normal.joinInto_comm (ha : Normal ev a) (hb : Normal ev b) :
    joinInto a b ev = joinInto b a ev := by
  have hvv : a.vv ⊔ b.vv = b.vv ⊔ a.vv := sup_comm _ _
  rcases a with ⟨va, x | x⟩ <;> rcases b with ⟨vb, y | y⟩
  · exact congrArg₂ State.mk hvv (congrArg Shape.live (joinLiveInto_comm ha hb))
  · exact congrArg₂ State.mk hvv rfl
  · exact congrArg₂ State.mk hvv rfl
  · exact congrArg₂ State.mk hvv (congrArg Shape.tomb (joinTombInto_comm ha hb))

/-! ### Tombstones -/

/-- A tombstone in normal form that is joined into is in normal form again. -/
theorem Normal.joinTombInto {t : Tomb} (ht : Normal ev ⟨vv, .tomb t⟩) (other : Shape)
    (vv' : VersionVector) : Normal ev ⟨vv', .tomb (joinTombInto t other ev)⟩ := by
  obtain ⟨-, hc, hne, -⟩ := joinTombInto_spec t other ev
  refine normal_tomb_iff.mpr ⟨hne, ?_, fun k hk => lateKey_eq_self_iff.mpr ?_⟩
  · exact lookup_joinTombInto_lifecycle other ev (normal_tomb_iff.mp ht).2.1
  · rw [lookup_joinTombInto_normal ht other hk, hc]
    refine ⟨(dotSorted_maximal_fst _ ev).filter _, fun u hu v hv => ?_, fun v hv => ?_⟩
    · exact independent_maximal_fst _ ev u (List.mem_filter.mp hu).1 v (List.mem_filter.mp hv).1
    · simpa using (List.mem_filter.mp hv).2

/-! ### Pruning a key -/

/-- `v` is the version of its dot that is kept of `vs`, and some value of `vs` supersedes it. -/
def SupersededIn (ev : Evidence) (vs : List Val) (v : Val) : Prop :=
  IsVersion ev vs v ∧ ∃ u ∈ vs, Supersedes ev u.dot v.dot

instance (ev : Evidence) (vs : List Val) : DecidablePred (SupersededIn ev vs) := fun v =>
  inferInstanceAs (Decidable
    ((v ∈ vs ∧ ∀ u ∈ vs, u.dot = v.dot → versionKey ev v ≤ versionKey ev u) ∧
      ∃ u ∈ vs, Supersedes ev u.dot v.dot))

/-- `v` is superseded, and fewer than `historyLimit` superseded values rank above it. -/
def Recent (ev : Evidence) (vs : List Val) (v : Val) : Prop :=
  SupersededIn ev vs v ∧
    (vs.toFinset.filter fun u => SupersededIn ev vs u ∧ v.rank < u.rank).card < historyLimit

/-- Every recent superseded value is superseded by a value that is recent too, or that nothing
supersedes. -/
def SupersedersKept (ev : Evidence) (vs : List Val) : Prop :=
  ∀ v, Recent ev vs v → ∃ u, IsVersion ev vs u ∧ Supersedes ev u.dot v.dot ∧
    (SupersededIn ev vs u → Recent ev vs u)

theorem mem_maximal_snd_iff : v ∈ (maximal vs ev).2 ↔ SupersededIn ev vs v := mem_maximal_snd

/-- The history of a key is its recent superseded values. -/
theorem mem_liveKey_snd_iff_recent : v ∈ (liveKey vs ev).2 ↔ Recent ev vs v := by
  have hs := dotSorted_maximal_snd vs ev
  have hcount : (maximal vs ev).2.countP (fun u => v.rank < u.rank) =
      (vs.toFinset.filter fun u => SupersededIn ev vs u ∧ v.rank < u.rank).card := by
    have hnodup : (maximal vs ev).2.Nodup := hs.imp fun h heq => h.ne (congrArg Val.dot heq)
    rw [List.countP_eq_length_filter, ← List.toFinset_card_of_nodup (hnodup.filter _)]
    congr 1
    ext u
    simp only [List.mem_toFinset, List.mem_filter, mem_maximal_snd_iff, decide_eq_true_eq,
      Finset.mem_filter]
    exact ⟨fun h => ⟨h.1.1.1, h⟩, fun h => h.2⟩
  rw [liveKey, mem_prune hs, mem_maximal_snd_iff, hcount, Recent]

/-- What a live item holds of a key has one value per dot. -/
theorem isVersion_heldVals (hv : v ∈ heldVals vs ev) : IsVersion ev (heldVals vs ev) v := by
  have hver : ∀ u ∈ heldVals vs ev, IsVersion ev vs u := by
    intro u hu
    rcases List.mem_append.mp hu with hu | hu
    · exact (mem_maximal_fst.mp hu).1
    · exact (mem_liveKey_snd_iff_recent.mp hu).1.1
  exact ⟨hv, fun u hu hud => (hver u hu).eq (hver v hv) hud ▸ le_rfl⟩

/-- What a live item holds of a key is in normal form exactly when every kept superseded value has
a kept value that supersedes it. -/
theorem liveKey_heldVals_iff :
    liveKey (heldVals vs ev) ev = liveKey vs ev ↔ SupersedersKept ev vs := by
  constructor
  · intro h v hv
    have hmem : v ∈ (liveKey (heldVals vs ev) ev).2 := h ▸ mem_liveKey_snd_iff_recent.mpr hv
    obtain ⟨-, u, hu, huv⟩ := (mem_liveKey_snd_iff_recent.mp hmem).1
    rcases List.mem_append.mp hu with hu | hu
    · have hcur := mem_maximal_fst.mp hu
      refine ⟨u, hcur.1, huv, ?_⟩
      rintro ⟨-, w, hw, hwu⟩
      exact absurd hwu (hcur.2 w hw)
    · have hrec := mem_liveKey_snd_iff_recent.mp hu
      exact ⟨u, hrec.1.1, huv, fun _ => hrec⟩
  · intro h
    -- Within what is held, the same values are superseded as within all values.
    have hsup : ∀ v ∈ heldVals vs ev,
        (∃ u ∈ heldVals vs ev, Supersedes ev u.dot v.dot) ↔ v ∈ (liveKey vs ev).2 := by
      intro v hv
      constructor
      · rintro ⟨u, hu, huv⟩
        rcases List.mem_append.mp hv with hcur | hhist
        · exact absurd huv ((mem_maximal_fst.mp hcur).2 u (mem_of_mem_heldVals hu))
        · exact hhist
      · intro hhist
        obtain ⟨u, hver, huv, hrec⟩ := h v (mem_liveKey_snd_iff_recent.mp hhist)
        refine ⟨u, List.mem_append.mpr ?_, huv⟩
        by_cases hu : SupersededIn ev vs u
        · exact .inr (mem_liveKey_snd_iff_recent.mpr (hrec hu))
        · exact .inl (mem_maximal_fst.mpr ⟨hver, fun w hw hwu => hu ⟨hver, w, hw, hwu⟩⟩)
    have hfst : (maximal (heldVals vs ev) ev).1 = (liveKey vs ev).1 := by
      refine (dotSorted_maximal_fst _ ev).ext (dotSorted_maximal_fst vs ev) fun v => ?_
      rw [mem_maximal_fst]
      constructor
      · rintro ⟨hver, hmax⟩
        rcases List.mem_append.mp hver.1 with hcur | hhist
        · exact hcur
        · obtain ⟨u, hu, huv⟩ := (hsup v hver.1).mpr hhist
          exact absurd huv (hmax u hu)
      · intro hcur
        refine ⟨isVersion_heldVals (List.mem_append_left _ hcur), fun u hu => ?_⟩
        exact (mem_maximal_fst.mp hcur).2 u (mem_of_mem_heldVals hu)
    have hsnd : (maximal (heldVals vs ev) ev).2 = (liveKey vs ev).2 := by
      refine (dotSorted_maximal_snd _ ev).ext (dotSorted_prune (dotSorted_maximal_snd vs ev))
        fun v => ?_
      rw [mem_maximal_snd]
      constructor
      · rintro ⟨hver, hv⟩
        exact (hsup v hver.1).mp hv
      · intro hhist
        have hv : v ∈ heldVals vs ev := List.mem_append_right _ hhist
        exact ⟨isVersion_heldVals hv, (hsup v hv).mpr hhist⟩
    have hprune : prune (liveKey vs ev).2 = (liveKey vs ev).2 := by
      refine (dotSorted_prune (dotSorted_prune (dotSorted_maximal_snd vs ev))).ext
        (dotSorted_prune (dotSorted_maximal_snd vs ev)) fun v => ?_
      exact mem_prune_prune (dotSorted_maximal_snd vs ev)
    exact Prod.ext hfst ((congrArg prune hsnd).trans hprune)

/-! ### The join -/

/-- The pruning of every key of two live items keeps what supersedes a kept value. -/
def PruningKeeps (ev : Evidence) (a b : State) : Prop :=
  a.isTomb = false → b.isTomb = false →
    ∀ k, SupersedersKept ev (a.shape.valuesAt k ++ b.shape.valuesAt k)

/-- The join of two live items in normal form holds of a key what is held of both sides. -/
theorem normal_joinLiveInto_iff {x y : Live} (hx : Normal ev ⟨vv, .live x⟩)
    (vv' : VersionVector) :
    Normal ev ⟨vv', .live (joinLiveInto x y ev)⟩ ↔
      ∀ k, SupersedersKept ev (x.valuesAt k ++ y.valuesAt k) := by
  have hkey : ∀ k, (lookup (joinLiveInto x y ev).regs k, lookup (joinLiveInto x y ev).hist k) =
      liveKey (x.valuesAt k ++ y.valuesAt k) ev := fun k =>
    Prod.ext (lookup_joinLiveInto_normal hx k).1 (lookup_joinLiveInto_normal hx k).2
  have hvals : ∀ k, (joinLiveInto x y ev).valuesAt k =
      heldVals (x.valuesAt k ++ y.valuesAt k) ev := by
    intro k
    rw [Live.valuesAt, heldVals, ← hkey k]
  rw [normal_live_iff, and_iff_right (kept_joinLiveInto (normal_live_iff.mp hx).1 y ev)]
  refine forall_congr' fun k => ?_
  rw [hkey k, hvals k, liveKey_heldVals_iff]

/-- The join of two states in normal form is in normal form, and the same in either order, exactly
when the pruning keeps what supersedes a kept value. -/
theorem normal_joinInto_iff (ha : Normal ev a) (hb : Normal ev b) :
    Normal ev (joinInto a b ev) ∧ joinInto a b ev = joinInto b a ev ↔ PruningKeeps ev a b := by
  rw [and_iff_left (ha.joinInto_comm hb)]
  rcases a with ⟨va, x | x⟩ <;> rcases b with ⟨vb, y | y⟩
  · refine (normal_joinLiveInto_iff ha _).trans ?_
    exact ⟨fun h _ _ => h, fun h => h rfl rfl⟩
  · exact iff_of_true (hb.joinTombInto (.live x) _) fun _ h => absurd h.symm Bool.false_ne_true
  · exact iff_of_true (ha.joinTombInto (.live y) _) fun h => absurd h.symm Bool.false_ne_true
  · exact iff_of_true (ha.joinTombInto (.tomb y) _) fun h => absurd h.symm Bool.false_ne_true

/-- Two states over contexts that are not transitive. Device 3 covers the operation of device 1,
which covers that of device 2, but not the latter, and device 1 has the lowest clock value of all.
With the 49 earlier operations of device 4 that device 3 covers, the operation of device 1 is the
one superseded value too many. -/
def nonTransitive : Evidence × State × State :=
  let v : Val := ⟨.sample 2 1, ⟨100⟩, [2]⟩
  let w : Val := ⟨.sample 1 1, ⟨1⟩, [1]⟩
  let u : Val := ⟨.sample 3 1, ⟨200⟩, [3]⟩
  let xs : List Val := (List.finRange 49).map fun i =>
    ⟨.sample 4 (i.val + 1) (by omega) (by omega), ⟨Fin.ofNat _ (i.val + 2)⟩, [4]⟩
  let facts (v : Val) (context : List Val) : Dot × HeaderFacts :=
    (v.dot, ⟨v.hlc, .ofDots (context.map Val.dot)⟩)
  let headers := [facts v [], facts w [v], facts u (w :: xs)] ++
    xs.map fun x => facts x (xs.filter fun y => y.dot < x.dot)
  let regs (vs : List Val) : Regs := (∅ : Regs).insert OpInput.sampleKey.bytes vs
  (⟨.ofList headers, ∅⟩,
    ⟨.ofDots [v.dot, w.dot], .live ⟨regs [w], regs [v]⟩⟩,
    ⟨.ofDots (u.dot :: xs.map Val.dot), .live ⟨regs [u], regs xs⟩⟩)

theorem normal_nonTransitive :
    Normal nonTransitive.1 nonTransitive.2.1 ∧ Normal nonTransitive.1 nonTransitive.2.2 := by
  decide +kernel

theorem not_normal_joinInto_nonTransitive :
    ¬ ∀ (ev : Evidence) (a b : State), Normal ev a → Normal ev b →
      Normal ev (joinInto a b ev) ∧ joinInto a b ev = joinInto b a ev := by
  intro h
  obtain ⟨ha, hb⟩ := normal_nonTransitive
  have hjoin : ¬ Normal nonTransitive.1
      (joinInto nonTransitive.2.1 nonTransitive.2.2 nonTransitive.1) := by decide +kernel
  exact hjoin (h _ _ _ ha hb).1

theorem normal_joinInto_iff_nonTransitive :
    Normal nonTransitive.1 (joinInto nonTransitive.2.1 nonTransitive.2.2 nonTransitive.1) ∧
        joinInto nonTransitive.2.1 nonTransitive.2.2 nonTransitive.1 =
          joinInto nonTransitive.2.2 nonTransitive.2.1 nonTransitive.1 ↔
      PruningKeeps nonTransitive.1 nonTransitive.2.1 nonTransitive.2.2 :=
  normal_joinInto_iff normal_nonTransitive.1 normal_nonTransitive.2

end RizzyVault.Sync
