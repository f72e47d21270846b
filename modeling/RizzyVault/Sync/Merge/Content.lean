import RizzyVault.Sync.Merge.StateJoin

/-!
# What an item has taken

The abstract state of an item: the covered version vector, every value ever taken per key, the
ranks of the purges taken and the join of their contexts. It is a join semilattice, so it depends
neither on the order nor on the multiplicity of what is taken. A state in normal form represents
a content when every key holds what the merge keeps of the content's values; the evidence join is
the join of contents.

## Main definitions

* `Content`, `Content.ofOp`, `Content.ofState`.
* `Represents`: the state the merge keeps of a content.

## Main results

* `Represents.joinInto`: the evidence join represents the join of contents.
* `Represents.normalize`, `Represents.singleton`: what is joined represents its own content.
* `Represents.unique`: a content has one state, up to the key of the recorded purge.
-/

open RizzyVault.Core RizzyVault.Lib

namespace RizzyVault.Sync

open Std (ExtTreeMap ExtTreeSet)

/-- What an item has taken. -/
@[ext]
structure Content where
  vv : VersionVector
  vals : Bytes → Finset Val
  purges : Finset Rank
  c : VersionVector

namespace Content

instance : SemilatticeSup Content where
  le a b := a.vv ≤ b.vv ∧ (∀ k, a.vals k ⊆ b.vals k) ∧ a.purges ⊆ b.purges ∧ a.c ≤ b.c
  le_refl a := ⟨le_rfl, fun _ => subset_rfl, subset_rfl, le_rfl⟩
  le_trans a b d h h' := ⟨h.1.trans h'.1, fun k => (h.2.1 k).trans (h'.2.1 k),
    h.2.2.1.trans h'.2.2.1, h.2.2.2.trans h'.2.2.2⟩
  le_antisymm a b h h' := Content.ext (le_antisymm h.1 h'.1)
    (funext fun k => subset_antisymm (h.2.1 k) (h'.2.1 k))
    (subset_antisymm h.2.2.1 h'.2.2.1) (le_antisymm h.2.2.2 h'.2.2.2)
  sup a b := ⟨a.vv ⊔ b.vv, fun k => a.vals k ∪ b.vals k, a.purges ∪ b.purges, a.c ⊔ b.c⟩
  le_sup_left a b := ⟨le_sup_left, fun _ => Finset.subset_union_left, Finset.subset_union_left,
    le_sup_left⟩
  le_sup_right a b := ⟨le_sup_right, fun _ => Finset.subset_union_right,
    Finset.subset_union_right, le_sup_right⟩
  sup_le a b d h h' := ⟨sup_le h.1 h'.1, fun k => Finset.union_subset (h.2.1 k) (h'.2.1 k),
    Finset.union_subset h.2.2.1 h'.2.2.1, sup_le h.2.2.2 h'.2.2.2⟩

/-- Nothing taken. -/
instance : OrderBot Content where
  bot := ⟨VersionVector.new, fun _ => ∅, ∅, VersionVector.new⟩
  bot_le _ := ⟨VersionVector.new_le _, fun _ => Finset.empty_subset _, Finset.empty_subset _,
    VersionVector.new_le _⟩

@[simp] theorem sup_vv (a b : Content) : (a ⊔ b).vv = a.vv ⊔ b.vv := rfl
@[simp] theorem sup_vals (a b : Content) (k : Bytes) : (a ⊔ b).vals k = a.vals k ∪ b.vals k := rfl
@[simp] theorem sup_purges (a b : Content) : (a ⊔ b).purges = a.purges ∪ b.purges := rfl
@[simp] theorem sup_c (a b : Content) : (a ⊔ b).c = a.c ⊔ b.c := rfl
@[simp] theorem bot_vv : (⊥ : Content).vv = VersionVector.new := rfl
@[simp] theorem bot_vals (k : Bytes) : (⊥ : Content).vals k = ∅ := rfl
@[simp] theorem bot_purges : (⊥ : Content).purges = ∅ := rfl
@[simp] theorem bot_c : (⊥ : Content).c = VersionVector.new := rfl

/-- The values of a key, in some order. -/
noncomputable def valList (a : Content) (k : Bytes) : List Val := (a.vals k).toList

@[simp]
theorem mem_valList {a : Content} {k : Bytes} {v : Val} : v ∈ a.valList k ↔ v ∈ a.vals k :=
  Finset.mem_toList

/-- Every value taken carries its header's clock value. -/
def Vouched (ev : Evidence) (a : Content) : Prop :=
  ∀ k, ∀ v ∈ a.vals k, ev.hlc v.dot = some v.hlc

theorem Vouched.list {ev : Evidence} {a : Content} (h : a.Vouched ev) (k : Bytes) :
    Sync.Vouched ev (a.valList k) :=
  fun v hv => h k v (mem_valList.mp hv)

/-- The content of one operation. -/
def ofOp (op : HeldOp) : Content where
  vv := VersionVector.new.add op.dot
  vals k :=
    match op.lifecycle with
    | .purge => ∅
    | .active | .trashed =>
      ((op.writesWithLifecycle.filter fun w => w.1 = k).map fun w =>
        (⟨op.dot, op.hlc, w.2⟩ : Val)).toFinset
  purges :=
    match op.lifecycle with
    | .purge => {toLex (op.hlc, op.dot)}
    | .active | .trashed => ∅
  c :=
    match op.lifecycle with
    | .purge => op.context
    | .active | .trashed => VersionVector.new

/-- A purge contributes its context; any other operation no context. -/
theorem covers_ofOp_c {op : HeldOp} {d : Dot} :
    (ofOp op).c.covers d ↔ op.lifecycle = .purge ∧ op.context.covers d := by
  unfold ofOp
  cases op.lifecycle <;> simp

/-- A purge contributes its rank; any other operation none. -/
theorem mem_ofOp_purges {op : HeldOp} {r : Rank} :
    r ∈ (ofOp op).purges ↔ op.lifecycle = .purge ∧ r = toLex (op.hlc, op.dot) := by
  unfold ofOp
  cases op.lifecycle <;> simp

/-- An operation other than a purge contributes its writes and its marker. -/
theorem mem_ofOp_vals {op : HeldOp} {k : Bytes} {v : Val} :
    v ∈ (ofOp op).vals k ↔ op.lifecycle ≠ .purge ∧ v.dot = op.dot ∧ v.hlc = op.hlc ∧
      (k, v.value) ∈ op.writesWithLifecycle := by
  have hmem : v ∈ ((op.writesWithLifecycle.filter fun w => w.1 = k).map fun w =>
      (⟨op.dot, op.hlc, w.2⟩ : Val)).toFinset ↔ v.dot = op.dot ∧ v.hlc = op.hlc ∧
      (k, v.value) ∈ op.writesWithLifecycle := by
    rw [List.mem_toFinset, List.mem_map]
    constructor
    · rintro ⟨w, hw, rfl⟩
      obtain ⟨hw, hk⟩ := List.mem_filter.mp hw
      rw [decide_eq_true_eq] at hk
      exact ⟨rfl, rfl, hk ▸ hw⟩
    · rintro ⟨hd, hh, hw⟩
      refine ⟨(k, v.value), List.mem_filter.mpr ⟨hw, by simp⟩, ?_⟩
      rw [← hd, ← hh]
  unfold ofOp
  cases hl : op.lifecycle with
  | active => simpa using hmem
  | trashed => simpa using hmem
  | purge => simp

/-- The content a state claims. -/
def ofState (s : State) : Content where
  vv := s.vv
  vals k := (s.shape.valuesAt k).toFinset
  purges := (s.shape.purge?.map PurgeRec.rank).toFinset
  c := s.shape.c

end Content

/-- A live item that keeps what the merge keeps of the values taken. -/
structure LiveRep (ev : Evidence) (l : Live) (a : Content) : Prop where
  kept : l.Kept
  purges : a.purges = ∅
  c : a.c = VersionVector.new
  regs : ∀ k, lookup l.regs k = (liveKey (a.valList k) ev).1
  hist : ∀ k, lookup l.hist k = (liveKey (a.valList k) ev).2

/-- A tombstone that keeps the highest purge, the joined context and the late values. -/
structure TombRep (ev : Evidence) (t : Tomb) (a : Content) : Prop where
  kept : NoEmpty t.late
  purge_mem : t.purge.rank ∈ a.purges
  le_purge : ∀ r ∈ a.purges, r ≤ t.purge.rank
  c : t.c = a.c
  lifecycle : lookup t.late lifecycleKey = []
  late : ∀ k, k ≠ lifecycleKey → LateOf ev a.c (a.valList k) (lookup t.late k)

/-- The state the merge keeps of a content. -/
structure Represents (ev : Evidence) (s : State) (a : Content) : Prop where
  vv : s.vv = a.vv
  vouched : a.Vouched ev
  shape :
    match s.shape with
    | .live l => LiveRep ev l a
    | .tomb t => TombRep ev t a

variable {ev : Evidence} {s s' : State} {a b : Content}

/-! ### The join -/

theorem LiveRep.valuesAt {l : Live} (h : LiveRep ev l a) (k : Bytes) :
    l.valuesAt k = heldVals (a.valList k) ev := by
  rw [Live.valuesAt, h.regs, h.hist, heldVals]

theorem mem_valList_sup {k : Bytes} {v : Val} :
    v ∈ a.valList k ++ b.valList k ↔ v ∈ (a ⊔ b).valList k := by
  simp

theorem liveKey_valList_sup (hc : Causal ev) (ha : a.Vouched ev) (hb : b.Vouched ev) (k : Bytes) :
    liveKey (heldVals (a.valList k) ev ++ heldVals (b.valList k) ev) ev =
      liveKey ((a ⊔ b).valList k) ev := by
  rw [liveKey_heldVals_append hc (ha.list k) (hb.list k)]
  exact liveKey_congr ev fun v => mem_valList_sup

theorem heldVals_nil (ev : Evidence) : heldVals [] ev = [] :=
  List.eq_nil_iff_forall_not_mem.mpr fun _ hv => List.not_mem_nil (mem_of_mem_heldVals hv)

theorem liveKey_heldVals (hc : Causal ev) {vs : List Val} (hv : Vouched ev vs) :
    liveKey (heldVals vs ev) ev = liveKey vs ev := by
  have hnil : Vouched ev [] := fun v hv => absurd hv List.not_mem_nil
  have h := liveKey_heldVals_append hc hv hnil
  rwa [heldVals_nil, List.append_nil, List.append_nil] at h

theorem LiveRep.join {x y : Live} (hc : Causal ev) (ha : a.Vouched ev) (hb : b.Vouched ev)
    (hx : LiveRep ev x a) (hy : LiveRep ev y b) : LiveRep ev (joinLiveInto x y ev) (a ⊔ b) := by
  have hkey : ∀ k, lookup (joinLiveInto x y ev).regs k = (liveKey ((a ⊔ b).valList k) ev).1 ∧
      lookup (joinLiveInto x y ev).hist k = (liveKey ((a ⊔ b).valList k) ev).2 := by
    intro k
    obtain ⟨hr, hh⟩ := lookup_joinLiveInto x y ev k
    rw [hr, hh, hx.valuesAt, hy.valuesAt, liveKey_valList_sup hc ha hb]
    by_cases hk : k ∈ keysOf [y.regs, y.hist]
    · rw [if_pos hk, if_pos hk]
      exact ⟨rfl, rfl⟩
    · -- A key the other side lacks adds no value, and the key is in normal form already.
      have hnil : heldVals (b.valList k) ev = [] := by
        rw [← hy.valuesAt, ← valuesOf_two, valuesOf_eq_nil hk]
      rw [if_neg hk, if_neg hk, ← liveKey_valList_sup hc ha hb, hnil, List.append_nil,
        liveKey_heldVals hc (ha.list k)]
      exact ⟨hx.regs k, hx.hist k⟩
  exact
    { kept := kept_joinLiveInto hx.kept y ev
      purges := by rw [Content.sup_purges, hx.purges, hy.purges, Finset.empty_union]
      c := by rw [Content.sup_c, hx.c, hy.c, VersionVector.sup_new]
      regs := fun k => (hkey k).1
      hist := fun k => (hkey k).2 }

theorem purgeOrder_lt_of_rank_lt {p q : PurgeRec} (h : p.rank < q.rank) :
    purgeOrder p ev < purgeOrder q ev :=
  Prod.Lex.toLex_lt_toLex.mpr (.inl h)

theorem rank_le_of_purgeOrder_le {p q : PurgeRec} (h : purgeOrder p ev ≤ purgeOrder q ev) :
    p.rank ≤ q.rank := by
  by_contra hlt
  exact not_lt.mpr h (purgeOrder_lt_of_rank_lt (not_le.mp hlt))

theorem higherPurge_spec (ev : Evidence) (p : PurgeRec) (q : Option PurgeRec) :
    (higherPurge ev p q = p ∨ q = some (higherPurge ev p q)) ∧
      p.rank ≤ (higherPurge ev p q).rank ∧
      ∀ r ∈ q, r.rank ≤ (higherPurge ev p q).rank := by
  cases q with
  | none => simp [higherPurge]
  | some q =>
    simp only [higherPurge]
    split_ifs with h
    · exact ⟨.inr rfl, rank_le_of_purgeOrder_le h.le, fun r hr => by cases hr; exact le_rfl⟩
    · exact ⟨.inl rfl, le_rfl, fun r hr => by
        cases hr; exact rank_le_of_purgeOrder_le (not_lt.mp h)⟩

/-- The shape of a representing state, as the tombstone join reads it. -/
structure ShapeRep (ev : Evidence) (s : Shape) (a : Content) : Prop where
  c : s.c = a.c
  purges : ∀ r, r ∈ a.purges → ∃ p ∈ s.purge?, r ≤ p.rank
  purge_mem : ∀ p ∈ s.purge?, p.rank ∈ a.purges
  keeps : ∀ k, k ≠ lifecycleKey → Keeps ev a.c (a.valList k) (s.valuesAt k)

theorem LiveRep.shapeRep {l : Live} (h : LiveRep ev l a) : ShapeRep ev (.live l) a where
  c := h.c.symm
  purges r hr := by simp [h.purges] at hr
  purge_mem p hp := by cases hp
  keeps k _ := by
    rw [Shape.valuesAt, h.valuesAt]
    exact keeps_heldVals ev _ _

theorem TombRep.shapeRep {t : Tomb} (h : TombRep ev t a) : ShapeRep ev (.tomb t) a where
  c := h.c
  purges r hr := ⟨t.purge, rfl, h.le_purge r hr⟩
  purge_mem p hp := by
    cases hp
    exact h.purge_mem
  keeps k hk := (h.late k hk).keeps le_rfl

theorem Represents.shapeRep (h : Represents ev s a) : ShapeRep ev s.shape a := by
  have hs := h.shape
  cases hshape : s.shape with
  | live l =>
    rw [hshape] at hs
    exact hs.shapeRep
  | tomb t =>
    rw [hshape] at hs
    exact hs.shapeRep

theorem Keeps.mono {c c' : VersionVector} {vs l : List Val} (h : Keeps ev c vs l) (hle : c ≤ c') :
    Keeps ev c' vs l where
  mem := h.mem
  keeps v hv hout := h.keeps v hv fun hcl => hout (hcl.mono hle)

theorem TombRep.join {t : Tomb} {other : Shape} (hc : Causal ev) (ht : TombRep ev t a)
    (ho : ShapeRep ev other b) : TombRep ev (joinTombInto t other ev) (a ⊔ b) := by
  obtain ⟨hp, hcc, hkept, -⟩ := joinTombInto_spec t other ev
  obtain ⟨hmem, hle, hle'⟩ := higherPurge_spec ev t.purge other.purge?
  refine
    { kept := hkept
      purge_mem := ?_
      le_purge := fun r hr => ?_
      c := by rw [hcc, ht.c, ho.c, Content.sup_c]
      lifecycle := lookup_joinTombInto_lifecycle other ev ht.lifecycle
      late := fun k hk => ?_ }
  · rw [hp]
    rcases hmem with h | h
    · rw [h]
      exact Finset.mem_union_left _ ht.purge_mem
    · exact Finset.mem_union_right _ (ho.purge_mem _ h)
  · rw [hp]
    rcases Finset.mem_union.mp hr with hr | hr
    · exact (ht.le_purge r hr).trans hle
    · obtain ⟨p, hp, hrp⟩ := ho.purges r hr
      exact hrp.trans (hle' p hp)
  · have hlate := ht.late k hk
    rw [lookup_joinTombInto other hk hlate.sorted hlate.independent, ht.c, ho.c]
    refine (lateOf_append hc (hlate.keeps le_sup_left)
      ((ho.keeps k hk).mono le_sup_right)).congr fun v => mem_valList_sup

theorem Content.Vouched.sup (ha : a.Vouched ev) (hb : b.Vouched ev) : (a ⊔ b).Vouched ev := by
  intro k v hv
  rcases Finset.mem_union.mp hv with hv | hv
  · exact ha k v hv
  · exact hb k v hv

theorem TombRep.of_eq {t : Tomb} (h : TombRep ev t a) (hab : a = b) : TombRep ev t b := hab ▸ h

/-- The evidence join represents the join of contents. -/
theorem Represents.joinInto (hc : Causal ev) (hs : Represents ev s a) (hs' : Represents ev s' b) :
    Represents ev (joinInto s s' ev) (a ⊔ b) where
  vv := by
    rw [Content.sup_vv, ← hs.vv, ← hs'.vv]
    rfl
  vouched := hs.vouched.sup hs'.vouched
  shape := by
    have hx := hs.shape
    have hy := hs'.shape
    have hxr := hs.shapeRep
    have hyr := hs'.shapeRep
    unfold Sync.joinInto
    rcases s with ⟨vv, x | x⟩ <;> rcases s' with ⟨vv', y | y⟩
    · exact LiveRep.join hc hs.vouched hs'.vouched hx hy
    · exact (TombRep.join hc hy hxr).of_eq (sup_comm b a)
    · exact TombRep.join hc hx hyr
    · exact TombRep.join hc hx hyr

/-! ### What is joined -/

theorem represents_default (ev : Evidence) : Represents ev State.default ⊥ where
  vv := rfl
  vouched k v hv := by simp at hv
  shape :=
    { kept := ⟨noEmpty_empty, noEmpty_empty⟩
      purges := rfl
      c := rfl
      regs := fun k => by
        have : (⊥ : Content).valList k = [] := by simp [Content.valList]
        rw [this, lookup_empty]
        rfl
      hist := fun k => by
        have : (⊥ : Content).valList k = [] := by simp [Content.valList]
        rw [this, lookup_empty]
        rfl }

/-- A state in normal form represents the content it claims. -/
theorem Represents.normalize (hc : Causal ev) (hv : (Content.ofState s).Vouched ev) :
    Represents ev (normalize s ev) (Content.ofState s) where
  vv := rfl
  vouched := hv
  shape := by
    rcases s with ⟨vv, l | t⟩
    · have hmem : ∀ k v, v ∈ l.valuesAt k ↔ v ∈ (Content.ofState ⟨vv, .live l⟩).valList k := by
        intro k v
        rw [Content.mem_valList]
        exact List.mem_toFinset.symm
      refine
        { kept := kept_foldl_setLiveKey (fun _ key => valuesOf key [l.regs, l.hist]) ev _
            ⟨noEmpty_empty, noEmpty_empty⟩
          purges := rfl
          c := rfl
          regs := fun k => ?_
          hist := fun k => ?_ }
      · rw [← liveKey_congr ev (hmem k)]
        exact (lookup_normalize_live l ev k).1
      · rw [← liveKey_congr ev (hmem k)]
        exact (lookup_normalize_live l ev k).2
    · have hmem : ∀ k v, v ∈ lookup t.late k ↔
          v ∈ (Content.ofState ⟨vv, .tomb t⟩).valList k := by
        intro k v
        rw [Content.mem_valList]
        exact List.mem_toFinset.symm
      obtain ⟨htc, hp, hkept, hl⟩ := lookup_normalize_tomb t ev
      refine
        { kept := hkept
          purge_mem := ?_
          le_purge := fun r hr => ?_
          c := htc
          lifecycle := (hl lifecycleKey).trans (if_neg fun h => h rfl)
          late := fun k hk => ?_ }
      · simp only [hp]
        exact Option.mem_toFinset.mpr rfl
      · simp only [hp]
        cases Option.mem_toFinset.mp hr
        exact le_rfl
      · have h := lateOf_append hc (keeps_self ev t.c (lookup t.late k)) (keeps_self ev t.c [])
        rw [List.append_nil] at h
        have hlk := (hl k).trans (if_pos hk)
        simp only
        rw [hlk]
        exact h.congr (hmem k)

/-- No key is written twice. -/
def HeldOp.WellFormed (op : HeldOp) : Prop := (op.writesWithLifecycle.map Prod.fst).Nodup

theorem lookup_foldl_insert (f : Bytes → Val) (l : List (Bytes × Bytes))
    (hl : (l.map Prod.fst).Nodup) (regs : Regs) (k : Bytes) :
    lookup (l.foldl (fun regs w => regs.insert w.1 [f w.2]) regs) k =
      match l.find? fun w => w.1 = k with
      | some w => [f w.2]
      | none => lookup regs k := by
  induction l generalizing regs with
  | nil => rfl
  | cons w l ih =>
    rw [List.map_cons, List.nodup_cons] at hl
    rw [List.foldl_cons, ih hl.2, List.find?_cons]
    by_cases hk : w.1 = k
    · have hnone : l.find? (fun w => w.1 = k) = none := by
        rw [List.find?_eq_none]
        intro x hx hxk
        exact hl.1 (List.mem_map.mpr ⟨x, hx, (of_decide_eq_true hxk).trans hk.symm⟩)
      rw [hnone]
      simp only [hk, decide_true]
      rw [lookup_eq_getD, ExtTreeMap.getElem?_insert_iff, if_pos rfl]
      rfl
    · simp only [hk, decide_false]
      cases l.find? (fun w => w.1 = k) with
      | some x => rfl
      | none => simp only [lookup_eq_getD, ExtTreeMap.getElem?_insert_iff, if_neg hk]

theorem noEmpty_foldl_insert (f : Bytes → Val) (l : List (Bytes × Bytes)) {regs : Regs}
    (h : NoEmpty regs) : NoEmpty (l.foldl (fun regs w => regs.insert w.1 [f w.2]) regs) := by
  induction l generalizing regs with
  | nil => exact h
  | cons w l ih =>
    refine ih fun k => ?_
    rw [ExtTreeMap.getElem?_insert_iff]
    split_ifs
    · simp
    · exact h k

theorem liveKey_of_independent {vs l : List Val} (hs : DotSorted l) (hi : Independent ev l)
    (h : ∀ v, v ∈ vs ↔ v ∈ l) : liveKey vs ev = (l, []) := by
  rw [liveKey_congr ev h, liveKey, maximal_fst_eq_self hs hi]
  have hnil : (maximal l ev).2 = [] := by
    refine List.eq_nil_iff_forall_not_mem.mpr fun v hv => ?_
    obtain ⟨hver, u, hu, huv⟩ := mem_maximal_snd.mp hv
    exact hi u hu v hver.1 huv
  rw [hnil]
  rfl

theorem independent_singleton (v : Val) : Independent ev [v] := by
  intro u hu w hw h
  rw [List.mem_singleton.mp hu, List.mem_singleton.mp hw] at h
  exact h.1 rfl

/-- A one-operation live item represents the operation's writes. -/
theorem liveRep_singleton {op : HeldOp} (hwf : op.WellFormed) (hp : op.lifecycle ≠ .purge) :
    LiveRep ev ⟨op.writesWithLifecycle.foldl (fun regs (key, value) =>
      regs.insert key [⟨op.dot, op.hlc, value⟩]) ∅, ∅⟩ (Content.ofOp op) := by
  have hmem : ∀ k v, v ∈ (Content.ofOp op).valList k ↔
      ∃ w ∈ op.writesWithLifecycle, w.1 = k ∧ (⟨op.dot, op.hlc, w.2⟩ : Val) = v := by
    intro k v
    rw [Content.mem_valList, Content.ofOp]
    split
    · rename_i h
      exact absurd h hp
    · simp [and_assoc]
    · simp [and_assoc]
  have hkey : ∀ k, lookup (op.writesWithLifecycle.foldl (fun regs (key, value) =>
      regs.insert key [⟨op.dot, op.hlc, value⟩]) ∅) k =
        (liveKey ((Content.ofOp op).valList k) ev).1 ∧
      [] = (liveKey ((Content.ofOp op).valList k) ev).2 := by
    intro k
    have hlookup := lookup_foldl_insert (fun value => ⟨op.dot, op.hlc, value⟩)
      op.writesWithLifecycle hwf ∅ k
    rw [hlookup]
    cases hfind : op.writesWithLifecycle.find? fun w => w.1 = k with
    | none =>
      rw [List.find?_eq_none] at hfind
      have hnil : ∀ v, v ∈ (Content.ofOp op).valList k ↔ v ∈ ([] : List Val) := by
        intro v
        rw [hmem]
        refine iff_of_false ?_ List.not_mem_nil
        rintro ⟨w, hw, hwk, -⟩
        exact hfind w hw (by simpa using hwk)
      rw [liveKey_of_independent List.Pairwise.nil (by simp [Independent]) hnil]
      exact ⟨lookup_empty k, rfl⟩
    | some w =>
      have hw := List.mem_of_find?_eq_some hfind
      have hwk : w.1 = k := by simpa using List.find?_some hfind
      have hsingle : ∀ v, v ∈ (Content.ofOp op).valList k ↔
          v ∈ [(⟨op.dot, op.hlc, w.2⟩ : Val)] := by
        intro v
        rw [hmem, List.mem_singleton]
        constructor
        · rintro ⟨x, hx, hxk, rfl⟩
          have : x = w := List.inj_on_of_nodup_map hwf hx hw (hxk.trans hwk.symm)
          rw [this]
        · rintro rfl
          exact ⟨w, hw, hwk, rfl⟩
      rw [liveKey_of_independent (List.pairwise_singleton _ _) (independent_singleton _) hsingle]
      exact ⟨rfl, rfl⟩
  exact
    { kept := ⟨noEmpty_foldl_insert (fun value => ⟨op.dot, op.hlc, value⟩) _ noEmpty_empty,
        noEmpty_empty⟩
      purges := by
        rw [Content.ofOp]
        split
        · rename_i h
          exact absurd h hp
        · rfl
        · rfl
      c := by
        rw [Content.ofOp]
        split
        · rename_i h
          exact absurd h hp
        · rfl
        · rfl
      regs := fun k => (hkey k).1
      hist := fun k => (lookup_empty k).trans (hkey k).2 }

/-- An operation whose header is recorded, as a state, represents its content. -/
theorem Represents.singleton {op : HeldOp} (hwf : op.WellFormed)
    (hh : ev.hlc op.dot = some op.hlc) : Represents ev (singleton op) (Content.ofOp op) where
  vv := rfl
  vouched k v hv := by
    have hv' : v.dot = op.dot ∧ v.hlc = op.hlc := by
      rw [Content.ofOp] at hv
      split at hv
      · simp at hv
      all_goals
        rw [List.mem_toFinset, List.mem_map] at hv
        obtain ⟨w, -, rfl⟩ := hv
        exact ⟨rfl, rfl⟩
    rw [hv'.1, hv'.2, hh]
  shape := by
    unfold Sync.singleton
    cases hl : op.lifecycle with
    | purge =>
      have hvals : ∀ k, (Content.ofOp op).valList k = [] := by
        intro k
        simp [Content.valList, Content.ofOp, hl]
      exact
        { kept := noEmpty_empty
          purge_mem := by simp [Content.ofOp, hl, PurgeRec.rank]
          le_purge := fun r hr => by
            simp only [Content.ofOp, hl, Finset.mem_singleton] at hr
            exact hr.le
          c := by simp [Content.ofOp, hl]
          lifecycle := lookup_empty _
          late := fun k _ => by
            rw [hvals, lookup_empty]
            exact lateOf_nil ev _ }
    | active => exact liveRep_singleton hwf (by simp [hl])
    | trashed => exact liveRep_singleton hwf (by simp [hl])

/-! ### Stability and uniqueness -/

/-- Every header of `ev` is a header of `ev'`. -/
def Evidence.HeadersLE (ev ev' : Evidence) : Prop :=
  ∀ (d : Dot) (f : HeaderFacts), ev.headers[d]? = some f → ev'.headers[d]? = some f

theorem Evidence.HeadersLE.hlc {ev' : Evidence} (h : ev.HeadersLE ev') {d : Dot} {t : Hlc}
    (ht : ev.hlc d = some t) : ev'.hlc d = some t := by
  obtain ⟨f, hf, rfl⟩ := Option.map_eq_some_iff.mp ht
  exact Option.map_eq_some_iff.mpr ⟨f, h d f hf, rfl⟩

/-- A state stays in normal form as more headers are recorded. -/
theorem Represents.evidence_mono {ev' : Evidence} (h : Represents ev s a)
    (hle : ev.HeadersLE ev') : Represents ev' s a where
  vv := h.vv
  vouched k v hv := hle.hlc (h.vouched k v hv)
  shape := by
    have hkey : ∀ k, liveKey (a.valList k) ev' = liveKey (a.valList k) ev := by
      intro k
      rw [liveKey, maximal_evidence_congr (headers_eq_of_vouched (h.vouched.list k) hle), liveKey]
    have hs := h.shape
    rcases s with ⟨vv, l | t⟩
    · exact
        { kept := hs.kept
          purges := hs.purges
          c := hs.c
          regs := fun k => (hs.regs k).trans (by rw [hkey])
          hist := fun k => (hs.hist k).trans (by rw [hkey]) }
    · exact
        { kept := hs.kept
          purge_mem := hs.purge_mem
          le_purge := hs.le_purge
          c := hs.c
          lifecycle := hs.lifecycle
          late := fun k hk => (hs.late k hk).evidence_mono (h.vouched.list k) hle }

/-- The purge context is causally closed over the recorded headers: it covers every recorded
operation the context of a recorded operation it covers covers. -/
def CausallyClosed (ev : Evidence) (c : VersionVector) : Prop :=
  ∀ x, c.covers x → ∀ cx ∈ ev.context x, ∀ d ∈ ev.headers, cx.covers d → c.covers d

theorem causallyClosed_iff {c : VersionVector} :
    CausallyClosed ev c ↔ ∀ e ∈ ev.headers.toList, c.covers e.1 → ∀ d ∈ ev.headers.keys,
      e.2.context.covers d → c.covers d := by
  simp only [CausallyClosed, Prod.forall, ExtTreeMap.mem_toList_iff_getElem?_eq_some,
    ExtTreeMap.mem_keys]
  constructor
  · intro h x f hf hx
    exact h x hx f.context (Option.map_eq_some_iff.mpr ⟨f, hf, rfl⟩)
  · intro h x hx cx hcx
    obtain ⟨f, hf, rfl⟩ := Option.map_eq_some_iff.mp hcx
    exact h x f hf hx

instance (ev : Evidence) (c : VersionVector) : Decidable (CausallyClosed ev c) :=
  decidable_of_iff' _ causallyClosed_iff

theorem CausallyClosed.covers_of_closure {c : VersionVector} (h : CausallyClosed ev c) {v : Val}
    (hv : ev.hlc v.dot = some v.hlc) (hd : Closure ev c v.dot) : c.covers v.dot := by
  rcases hd with hd | ⟨x, hx, cx, hcx, hd⟩
  · exact hd
  · obtain ⟨f, hf, -⟩ := Option.map_eq_some_iff.mp hv
    exact h x hx cx hcx v.dot (ExtTreeMap.mem_iff_isSome_getElem?.mpr (by rw [hf]; rfl)) hd

theorem PurgeRec.eq_of_rank_eq {p q : PurgeRec} (h : p.rank = q.rank) (hk : p.keyId = q.keyId) :
    p = q := by
  obtain ⟨d, t, key⟩ := p
  obtain ⟨d', t', key'⟩ := q
  obtain ⟨rfl, rfl⟩ : t = t' ∧ d = d' := Prod.ext_iff.mp (toLex.injective h)
  cases hk
  rfl

theorem purgeOrder_injective (ev : Evidence) : Function.Injective (purgeOrder · ev) := by
  intro p q h
  obtain ⟨hrank, hkey⟩ := Prod.ext_iff.mp (toLex.injective h)
  exact PurgeRec.eq_of_rank_eq hrank (Prod.ext_iff.mp (toLex.injective hkey)).2

/-- A content has one state, up to the key of the recorded purge, whatever headers are recorded
beyond those of its values. -/
theorem Represents.unique {ev' : Evidence} (hs : Represents ev s a) (hs' : Represents ev' s' a)
    (hsame : ∀ k, ∀ v ∈ a.valList k, ev'.headers[v.dot]? = ev.headers[v.dot]?)
    (hclosed : CausallyClosed ev a.c) (hclosed' : CausallyClosed ev' a.c)
    (hkey : ∀ p ∈ s.shape.purge?, ∀ q ∈ s'.shape.purge?, p.rank = q.rank → p.keyId = q.keyId) :
    s = s' := by
  have hx := hs.shape
  have hy := hs'.shape
  have hvv : s.vv = s'.vv := hs.vv.trans hs'.vv.symm
  have hlive : ∀ k, liveKey (a.valList k) ev' = liveKey (a.valList k) ev := by
    intro k
    rw [liveKey, maximal_evidence_congr (hsame k), liveKey]
  rcases s with ⟨vv, x | x⟩ <;> rcases s' with ⟨vv', y | y⟩
  · have hregs : x.regs = y.regs :=
      hx.kept.regs.ext hy.kept.regs fun k => by
        rw [hx.regs k, hy.regs k, hlive]
    have hhist : x.hist = y.hist :=
      hx.kept.hist.ext hy.kept.hist fun k => by
        rw [hx.hist k, hy.hist k, hlive]
    cases x
    cases y
    cases hvv
    cases hregs
    cases hhist
    rfl
  · have := hy.purge_mem
    simp [hx.purges] at this
  · have := hx.purge_mem
    simp [hy.purges] at this
  · have hrank : x.purge.rank = y.purge.rank :=
      le_antisymm (hy.le_purge _ hx.purge_mem) (hx.le_purge _ hy.purge_mem)
    have hpurge : x.purge = y.purge :=
      PurgeRec.eq_of_rank_eq hrank (hkey _ rfl _ rfl hrank)
    have hlate : x.late = y.late := by
      refine hx.kept.ext hy.kept fun k => ?_
      by_cases hk : k = lifecycleKey
      · rw [hk, hx.lifecycle, hy.lifecycle]
      · exact (hx.late k hk).eq (hsame k)
          (fun v hv => hclosed.covers_of_closure (hs.vouched.list k v hv))
          (fun v hv => hclosed'.covers_of_closure (hs'.vouched.list k v hv)) (hy.late k hk)
    have hc : x.c = y.c := hx.c.trans hy.c.symm
    cases x
    cases y
    cases hvv
    cases hpurge
    cases hlate
    cases hc
    rfl

end RizzyVault.Sync
