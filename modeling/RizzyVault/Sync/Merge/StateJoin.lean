import RizzyVault.Sync.Merge.KeyJoin

/-!
# Joining states, key by key

The effect of each operation of the evidence join on the registers, one key at a time. States in
normal form are joined key by key: a live key is recomputed from the values both sides hold, and a
late register from the values both sides hold, filtered by the joined context.

## Main definitions

* `NoEmpty`: no register is empty; such registers are determined by their lookups.
* `State.valuesAt`: the values a state holds of a key.

## Main results

* `lookup_joinLiveInto_regs`, `lookup_joinLiveInto_hist`, `lookup_joinTombInto`: the registers of
  a join.
-/

open RizzyVault.Core RizzyVault.Lib

namespace RizzyVault.Sync

open Std (ExtTreeMap ExtTreeSet)

/-- No register is empty. -/
def NoEmpty (regs : Regs) : Prop := ∀ key : Bytes, regs[key]? ≠ some []

variable {ev : Evidence} {regs : Regs} {key k : Bytes} {vs : List Val}

theorem lookup_eq_getD (regs : Regs) (key : Bytes) : lookup regs key = regs[key]?.getD [] :=
  ExtTreeMap.getD_eq_getD_getElem?

@[simp]
theorem lookup_empty (key : Bytes) : lookup ∅ key = [] := ExtTreeMap.getD_empty

theorem noEmpty_empty : NoEmpty ∅ := by
  intro key
  simp

/-- Registers without empty ones are determined by their lookups. -/
theorem NoEmpty.ext {a b : Regs} (ha : NoEmpty a) (hb : NoEmpty b)
    (h : ∀ key, lookup a key = lookup b key) : a = b := by
  refine ExtTreeMap.ext_getElem? fun key => ?_
  have hkey := h key
  rw [lookup_eq_getD, lookup_eq_getD] at hkey
  have hak := ha key
  have hbk := hb key
  cases hx : a[key]? with
  | none =>
    rw [hx] at hkey
    cases hy : b[key]? with
    | none => rfl
    | some ys =>
      rw [hy] at hkey hbk
      exact absurd (congrArg some hkey.symm) hbk
  | some xs =>
    rw [hx] at hkey hak
    cases hy : b[key]? with
    | none =>
      rw [hy] at hkey
      exact absurd (congrArg some hkey) hak
    | some ys =>
      rw [hy] at hkey
      exact congrArg some hkey

theorem mem_keys_of_mem_lookup {v : Val} (h : v ∈ lookup regs key) : key ∈ regs.keys := by
  rw [ExtTreeMap.mem_keys_iff]
  rw [lookup_eq_getD] at h
  cases hx : regs[key]? with
  | none => simp [hx] at h
  | some xs => exact ⟨xs, rfl⟩

theorem lookup_setOrRemove (regs : Regs) (key k : Bytes) (vs : List Val) :
    lookup (setOrRemove regs key vs) k = if key = k then vs else lookup regs k := by
  rw [lookup_eq_getD, lookup_eq_getD, setOrRemove]
  split_ifs with h hk hk
  · rw [ExtTreeMap.getElem?_erase_iff, if_pos hk]
    exact (List.isEmpty_iff.mp h).symm
  · rw [ExtTreeMap.getElem?_erase_iff, if_neg hk]
  · rw [ExtTreeMap.getElem?_insert_iff, if_pos hk]
    rfl
  · rw [ExtTreeMap.getElem?_insert_iff, if_neg hk]

theorem NoEmpty.setOrRemove (h : NoEmpty regs) (key : Bytes) (vs : List Val) :
    NoEmpty (setOrRemove regs key vs) := by
  intro k
  unfold Sync.setOrRemove
  split_ifs with hvs
  · rw [ExtTreeMap.getElem?_erase_iff]
    split_ifs with hk
    · simp
    · exact h k
  · rw [ExtTreeMap.getElem?_insert_iff]
    split_ifs with hk
    · rw [List.isEmpty_iff] at hvs
      exact fun heq => hvs (Option.some.inj heq)
    · exact h k

theorem lookup_retainValues (regs : Regs) (p : Val → Bool) (k : Bytes) :
    lookup (retainValues regs p) k = (lookup regs k).filter p := by
  rw [lookup_eq_getD, lookup_eq_getD, retainValues, ExtTreeMap.getElem?_filter',
    ExtTreeMap.getElem?_map]
  cases regs[k]? with
  | none => simp
  | some xs =>
    cases hx : xs.filter p with
    | nil => simp [hx, Option.filter]
    | cons x l => simp [hx, Option.filter]

theorem noEmpty_retainValues (regs : Regs) (p : Val → Bool) : NoEmpty (retainValues regs p) := by
  intro k
  rw [retainValues, ExtTreeMap.getElem?_filter']
  intro h
  have := (Option.filter_eq_some_iff.mp h).2
  simp at this

theorem mem_valuesOf {regs : List Regs} {v : Val} :
    v ∈ valuesOf key regs ↔ ∃ r ∈ regs, v ∈ lookup r key := List.mem_flatMap

theorem mem_keysOf {regs : List Regs} : key ∈ keysOf regs ↔ ∃ r ∈ regs, key ∈ r.keys := by
  rw [keysOf, ExtTreeSet.mem_toList_ofList, List.mem_flatMap]

theorem nodup_keysOf (regs : List Regs) : (keysOf regs).Nodup :=
  (ExtTreeSet.pairwise_toList _).imp fun h => h.ne

/-- A key none of the registers have has no value in them. -/
theorem valuesOf_eq_nil {regs : List Regs} (h : key ∉ keysOf regs) : valuesOf key regs = [] := by
  refine List.eq_nil_iff_forall_not_mem.mpr fun v hv => h ?_
  obtain ⟨r, hr, hv⟩ := mem_valuesOf.mp hv
  exact mem_keysOf.mpr ⟨r, hr, mem_keys_of_mem_lookup hv⟩

/-! ### Live items -/

theorem lookup_setLiveKey_regs (out : Live) (key k : Bytes) (vs : List Val) (ev : Evidence) :
    lookup (setLiveKey out key vs ev).regs k =
      if key = k then (liveKey vs ev).1 else lookup out.regs k :=
  lookup_setOrRemove _ _ _ _

theorem lookup_setLiveKey_hist (out : Live) (key k : Bytes) (vs : List Val) (ev : Evidence) :
    lookup (setLiveKey out key vs ev).hist k =
      if key = k then (liveKey vs ev).2 else lookup out.hist k :=
  lookup_setOrRemove _ _ _ _

/-- Neither map of a live item has an empty register. -/
structure Live.Kept (l : Live) : Prop where
  regs : NoEmpty l.regs
  hist : NoEmpty l.hist

theorem Live.Kept.setLiveKey {out : Live} (h : out.Kept) (key : Bytes) (vs : List Val)
    (ev : Evidence) : (setLiveKey out key vs ev).Kept :=
  ⟨h.regs.setOrRemove _ _, h.hist.setOrRemove _ _⟩

/-- Recomputing some keys, each once and from its own values: `vals` reads only the key it is
asked for. -/
theorem lookup_foldl_setLiveKey (vals : Live → Bytes → List Val) (ev : Evidence)
    (hvals : ∀ x y k, lookup x.regs k = lookup y.regs k → lookup x.hist k = lookup y.hist k →
      vals x k = vals y k)
    (keys : List Bytes) (hkeys : keys.Nodup) (x : Live) (k : Bytes) :
    let out := keys.foldl (fun x key => setLiveKey x key (vals x key) ev) x
    lookup out.regs k = (if k ∈ keys then (liveKey (vals x k) ev).1 else lookup x.regs k) ∧
      lookup out.hist k = (if k ∈ keys then (liveKey (vals x k) ev).2 else lookup x.hist k) := by
  induction keys generalizing x with
  | nil => simp
  | cons key keys ih =>
    obtain ⟨hkey, hkeys⟩ := List.nodup_cons.mp hkeys
    have h := ih hkeys (setLiveKey x key (vals x key) ev)
    simp only [List.foldl_cons] at h ⊢
    rw [h.1, h.2, lookup_setLiveKey_regs, lookup_setLiveKey_hist]
    by_cases hk : key = k
    · subst hk
      simp [hkey]
    · have hrecomputed : vals (setLiveKey x key (vals x key) ev) k = vals x k := by
        refine hvals _ _ _ ?_ ?_
        · rw [lookup_setLiveKey_regs, if_neg hk]
        · rw [lookup_setLiveKey_hist, if_neg hk]
      have hmem : k ∈ key :: keys ↔ k ∈ keys := by simp [Ne.symm hk]
      simp only [hrecomputed, hmem, if_neg hk, and_self]

theorem kept_foldl_setLiveKey (vals : Live → Bytes → List Val) (ev : Evidence)
    (keys : List Bytes) {x : Live} (h : x.Kept) :
    (keys.foldl (fun x key => setLiveKey x key (vals x key) ev) x).Kept := by
  induction keys generalizing x with
  | nil => exact h
  | cons key keys ih => exact ih (h.setLiveKey key _ ev)

/-- The values a live item holds of a key. -/
def Live.valuesAt (l : Live) (k : Bytes) : List Val := lookup l.regs k ++ lookup l.hist k

theorem valuesOf_four (x y : Live) (k : Bytes) :
    valuesOf k [x.regs, x.hist, y.regs, y.hist] = x.valuesAt k ++ y.valuesAt k := by
  simp [valuesOf, Live.valuesAt]

theorem valuesOf_two (x : Live) (k : Bytes) :
    valuesOf k [x.regs, x.hist] = x.valuesAt k := by
  simp [valuesOf, Live.valuesAt]

theorem lookup_joinLiveInto (x y : Live) (ev : Evidence) (k : Bytes) :
    lookup (joinLiveInto x y ev).regs k =
        (if k ∈ keysOf [y.regs, y.hist] then (liveKey (x.valuesAt k ++ y.valuesAt k) ev).1
          else lookup x.regs k) ∧
      lookup (joinLiveInto x y ev).hist k =
        (if k ∈ keysOf [y.regs, y.hist] then (liveKey (x.valuesAt k ++ y.valuesAt k) ev).2
          else lookup x.hist k) := by
  have h := lookup_foldl_setLiveKey
    (fun x key => valuesOf key [x.regs, x.hist, y.regs, y.hist]) ev
    (fun x x' k hr hh => by simp only [valuesOf_four, Live.valuesAt, hr, hh])
    (keysOf [y.regs, y.hist]) (nodup_keysOf _) x k
  simp only [valuesOf_four] at h
  unfold joinLiveInto
  simp only [valuesOf_four]
  exact h

theorem kept_joinLiveInto {x : Live} (h : x.Kept) (y : Live) (ev : Evidence) :
    (joinLiveInto x y ev).Kept :=
  kept_foldl_setLiveKey (fun x key => valuesOf key [x.regs, x.hist, y.regs, y.hist]) ev _ h

/-! ### Tombstones -/

theorem setLateKey_c (t : Tomb) (key : Bytes) (vs : List Val) (ev : Evidence) :
    (setLateKey t key vs ev).c = t.c ∧ (setLateKey t key vs ev).purge = t.purge := by
  unfold setLateKey
  split_ifs <;> exact ⟨rfl, rfl⟩

theorem lookup_setLateKey (t : Tomb) (key k : Bytes) (vs : List Val) (ev : Evidence) :
    lookup (setLateKey t key vs ev).late k =
      if key = k ∧ k ≠ lifecycleKey then
        (maximal vs ev).1.filter fun v => ¬ t.c.covers v.dot
      else lookup t.late k := by
  unfold setLateKey
  split_ifs with h h' h'
  · exact absurd (h'.1.symm.trans h) h'.2
  · rfl
  · rw [lookup_setOrRemove, if_pos h'.1]
  · rw [lookup_setOrRemove, if_neg fun hk => h' ⟨hk, hk ▸ h⟩]

theorem noEmpty_setLateKey {t : Tomb} (h : NoEmpty t.late) (key : Bytes) (vs : List Val)
    (ev : Evidence) : NoEmpty (setLateKey t key vs ev).late := by
  unfold setLateKey
  split_ifs
  · exact h
  · exact h.setOrRemove _ _

/-- Recomputing the late values of some keys, each once and from its own values. -/
theorem lookup_foldl_setLateKey (vals : Tomb → Bytes → List Val) (ev : Evidence)
    (hvals : ∀ x y k, lookup x.late k = lookup y.late k → vals x k = vals y k)
    (keys : List Bytes) (hkeys : keys.Nodup) (t : Tomb) :
    let out := keys.foldl (fun t key => setLateKey t key (vals t key) ev) t
    out.c = t.c ∧ out.purge = t.purge ∧ (NoEmpty t.late → NoEmpty out.late) ∧
      ∀ k, lookup out.late k =
        if k ∈ keys ∧ k ≠ lifecycleKey then
          (maximal (vals t k) ev).1.filter fun v => ¬ t.c.covers v.dot
        else lookup t.late k := by
  induction keys generalizing t with
  | nil => simp
  | cons key keys ih =>
    obtain ⟨hkey, hkeys⟩ := List.nodup_cons.mp hkeys
    obtain ⟨hc, hp, hne, hl⟩ := ih hkeys (setLateKey t key (vals t key) ev)
    have hset := setLateKey_c t key (vals t key) ev
    simp only [List.foldl_cons]
    refine ⟨hc.trans hset.1, hp.trans hset.2, fun h => hne (noEmpty_setLateKey h _ _ _),
      fun k => ?_⟩
    rw [hl k, lookup_setLateKey, hset.1]
    by_cases hk : key = k
    · subst hk
      simp [hkey]
    · have hrecomputed : vals (setLateKey t key (vals t key) ev) k = vals t k := by
        refine hvals _ _ _ ?_
        rw [lookup_setLateKey, if_neg fun h => hk h.1]
      have hmem : k ∈ key :: keys ↔ k ∈ keys := by simp [Ne.symm hk]
      simp only [hrecomputed, hmem, hk, false_and, if_false]

/-- The values a shape holds of a key. -/
def Shape.valuesAt (s : Shape) (k : Bytes) : List Val :=
  match s with
  | .live l => l.valuesAt k
  | .tomb t => lookup t.late k

/-- The purge context of a shape, empty for a live item. -/
def Shape.c (s : Shape) : VersionVector :=
  match s with
  | .live _ => VersionVector.new
  | .tomb t => t.c

/-- The recorded purge of a shape. -/
def Shape.purge? (s : Shape) : Option PurgeRec :=
  match s with
  | .live _ => none
  | .tomb t => some t.purge

/-- The purge recorded by a join. -/
def higherPurge (ev : Evidence) (p : PurgeRec) : Option PurgeRec → PurgeRec
  | none => p
  | some q => if purgeOrder p ev < purgeOrder q ev then q else p

/-- The registers of a shape, as `joinTombInto` reads them. -/
def Shape.sources (s : Shape) : List Regs :=
  match s with
  | .live l => [l.regs, l.hist]
  | .tomb t => [t.late]

theorem valuesOf_sources (s : Shape) (k : Bytes) : valuesOf k s.sources = s.valuesAt k := by
  cases s with
  | live l => exact valuesOf_two l k
  | tomb t => simp [Shape.sources, valuesOf, Shape.valuesAt]

theorem joinTombInto_eq (t : Tomb) (other : Shape) (ev : Evidence) :
    joinTombInto t other ev =
      let t' : Tomb := ⟨higherPurge ev t.purge other.purge?, t.c ⊔ other.c, t.late⟩
      let out := (keysOf other.sources).foldl (fun t key =>
        setLateKey t key (lookup t.late key ++ valuesOf key other.sources) ev) t'
      { out with late := retainValues out.late fun v => ¬ out.c.covers v.dot } := by
  cases other with
  | live l =>
    simp only [joinTombInto, Shape.sources, Shape.purge?, Shape.c, higherPurge,
      VersionVector.sup_new]
  | tomb u => rfl

/-- What a tombstone becomes when another shape is joined into it. -/
theorem joinTombInto_spec (t : Tomb) (other : Shape) (ev : Evidence) :
    let out := joinTombInto t other ev
    out.purge = higherPurge ev t.purge other.purge? ∧ out.c = t.c ⊔ other.c ∧
      NoEmpty out.late ∧
      ∀ k, lookup out.late k =
        if k ∈ keysOf other.sources ∧ k ≠ lifecycleKey then
          (maximal (lookup t.late k ++ other.valuesAt k) ev).1.filter fun v =>
            ¬ (t.c ⊔ other.c).covers v.dot
        else (lookup t.late k).filter fun v => ¬ (t.c ⊔ other.c).covers v.dot := by
  have h := lookup_foldl_setLateKey
    (fun t key => lookup t.late key ++ valuesOf key other.sources) ev
    (fun x y k hxy => by simp only [hxy]) (keysOf other.sources) (nodup_keysOf _)
    ⟨higherPurge ev t.purge other.purge?, t.c ⊔ other.c, t.late⟩
  generalize hout : (keysOf other.sources).foldl (fun t key =>
    setLateKey t key (lookup t.late key ++ valuesOf key other.sources) ev)
    ⟨higherPurge ev t.purge other.purge?, t.c ⊔ other.c, t.late⟩ = out at h
  obtain ⟨hc, hp, -, hl⟩ := h
  rw [joinTombInto_eq]
  simp only [hout]
  refine ⟨hp, hc, noEmpty_retainValues _ _, fun k => ?_⟩
  rw [lookup_retainValues, hl k, hc, valuesOf_sources]
  split_ifs with hk
  · rw [List.filter_filter]
    simp only [Bool.and_self]
  · rfl

/-- Joined key by key: every late register is recomputed from both sides. -/
theorem lookup_joinTombInto {t : Tomb} (other : Shape) {ev : Evidence} {k : Bytes}
    (hk : k ≠ lifecycleKey) (hs : DotSorted (lookup t.late k))
    (hi : Independent ev (lookup t.late k)) :
    lookup (joinTombInto t other ev).late k =
      (maximal (lookup t.late k ++ other.valuesAt k) ev).1.filter fun v =>
        ¬ (t.c ⊔ other.c).covers v.dot := by
  rw [(joinTombInto_spec t other ev).2.2.2 k]
  by_cases hmem : k ∈ keysOf other.sources
  · rw [if_pos ⟨hmem, hk⟩]
  · rw [if_neg fun h => hmem h.1, ← valuesOf_sources, valuesOf_eq_nil hmem, List.append_nil,
      maximal_fst_eq_self hs hi]

theorem lookup_joinTombInto_lifecycle {t : Tomb} (other : Shape) (ev : Evidence)
    (h : lookup t.late lifecycleKey = []) :
    lookup (joinTombInto t other ev).late lifecycleKey = [] := by
  rw [(joinTombInto_spec t other ev).2.2.2 lifecycleKey, if_neg fun h => h.2 rfl, h]
  rfl

/-- The purge recorded by a join of two shapes. -/
def maxPurge (ev : Evidence) : Option PurgeRec → Option PurgeRec → Option PurgeRec
  | none, q => q
  | some p, q => some (higherPurge ev p q)

theorem purge?_joinInto (a b : State) (ev : Evidence) :
    (joinInto a b ev).shape.purge? = maxPurge ev a.shape.purge? b.shape.purge? := by
  rcases a with ⟨va, x | x⟩ <;> rcases b with ⟨vb, y | y⟩
  · rfl
  · exact congrArg some (joinTombInto_spec y (.live x) ev).1
  · exact congrArg some (joinTombInto_spec x (.live y) ev).1
  · exact congrArg some (joinTombInto_spec x (.tomb y) ev).1

theorem mem_maxPurge {p q : Option PurgeRec} {r : PurgeRec} (h : r ∈ maxPurge ev p q) :
    r ∈ p ∨ r ∈ q := by
  cases p with
  | none => exact .inr h
  | some p =>
    cases q with
    | none => exact .inl h
    | some q =>
      cases h
      simp only [higherPurge]
      split_ifs
      · exact .inr rfl
      · exact .inl rfl

/-! ### Normal forms -/

/-- A live item in normal form: every key holds what `liveKey` keeps of its values. -/
theorem lookup_normalize_live (l : Live) (ev : Evidence) (k : Bytes) :
    let out := (keysOf [l.regs, l.hist]).foldl (fun out key =>
      setLiveKey out key (valuesOf key [l.regs, l.hist]) ev) (⟨∅, ∅⟩ : Live)
    lookup out.regs k = (liveKey (l.valuesAt k) ev).1 ∧
      lookup out.hist k = (liveKey (l.valuesAt k) ev).2 := by
  have h := lookup_foldl_setLiveKey (fun _ key => valuesOf key [l.regs, l.hist]) ev
    (fun _ _ _ _ _ => rfl) (keysOf [l.regs, l.hist]) (nodup_keysOf _) ⟨∅, ∅⟩ k
  refine ⟨h.1.trans ?_, h.2.trans ?_⟩ <;>
  · by_cases hk : k ∈ keysOf [l.regs, l.hist]
    · rw [if_pos hk, valuesOf_two]
    · rw [if_neg hk, ← valuesOf_two, valuesOf_eq_nil hk]
      rfl

theorem lookup_normalize_tomb (t : Tomb) (ev : Evidence) :
    let out := t.late.toList.foldl (fun out (key, values) => setLateKey out key values ev)
      { t with late := ∅ }
    out.c = t.c ∧ out.purge = t.purge ∧ NoEmpty out.late ∧
      ∀ k, lookup out.late k =
        if k ≠ lifecycleKey then
          (maximal (lookup t.late k) ev).1.filter fun v => ¬ t.c.covers v.dot
        else [] := by
  have hentry : ∀ e ∈ t.late.toList, e.2 = lookup t.late e.1 := by
    rintro ⟨key, values⟩ he
    rw [lookup_eq_getD, ExtTreeMap.mem_toList_iff_getElem?_eq_some.mp he]
    rfl
  have hfold : t.late.toList.foldl (fun out (key, values) => setLateKey out key values ev)
      { t with late := ∅ } =
      (t.late.toList.map Prod.fst).foldl (fun out key =>
        setLateKey out key (lookup t.late key) ev) { t with late := ∅ } := by
    rw [List.foldl_map]
    refine List.foldl_ext _ _ _ fun out e he => ?_
    exact congrArg (fun values => setLateKey out e.1 values ev) (hentry e he)
  have hnodup : (t.late.toList.map Prod.fst).Nodup := by
    rw [List.Nodup, List.pairwise_map]
    exact (ExtTreeMap.pairwise_fst_toList _).imp fun h => h.ne
  have h := lookup_foldl_setLateKey (fun _ key => lookup t.late key) ev (fun _ _ _ _ => rfl)
    (t.late.toList.map Prod.fst) hnodup { t with late := ∅ }
  simp only [hfold]
  refine ⟨h.1, h.2.1, h.2.2.1 noEmpty_empty, fun k => (h.2.2.2 k).trans ?_⟩
  by_cases hk : k = lifecycleKey
  · simp [hk]
  · by_cases hmem : k ∈ t.late.toList.map Prod.fst
    · rw [if_pos ⟨hmem, hk⟩, if_pos hk]
    · have hnil : lookup t.late k = [] := by
        refine List.eq_nil_iff_forall_not_mem.mpr fun v hv => hmem ?_
        obtain ⟨xs, hxs⟩ := (ExtTreeMap.mem_keys_iff _ _).mp (mem_keys_of_mem_lookup hv)
        exact List.mem_map.mpr ⟨(k, xs), ExtTreeMap.mem_toList_iff_getElem?_eq_some.mpr hxs, rfl⟩
      rw [if_neg fun h => hmem h.1, if_pos hk, hnil]
      rfl

theorem purge?_normalize (s : State) (ev : Evidence) :
    (normalize s ev).shape.purge? = s.shape.purge? := by
  rcases s with ⟨vv, l | t⟩
  · rfl
  · exact congrArg some (lookup_normalize_tomb t ev).2.1

end RizzyVault.Sync
