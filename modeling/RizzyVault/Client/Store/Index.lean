import RizzyVault.Client.Store.Moves

/-!
# The index holds what the rows hold

The check moves an index, the executor moves the rows. The index of the floors holds, key by key,
the columns that the rules read; every move of an admitted write keeps it so.

## Main definitions

* `CacheRows.Counts`: a counter of `cache_meta`, zero before its first write.
* `ObjectIndex`, `Index`: what the index holds of the rows.

## Main results

* `index_empty`, `Index.step`: the index holds what the rows hold, from an empty cache on.

## References

* `crates/rizzy-client/src/store/floors.rs`, `crates/rizzy-client/src/store/rows.rs`.
-/

open RizzyVault.Core RizzyVault.Lib

namespace RizzyVault.Client.Store

open Std (ExtTreeMap)

/-! ### Objects -/

/-- What the index holds of the `account_objects` rows: the state's bytes and the bundle and
settings rows. -/
structure ObjectIndex (state : Option StateFloor) (m : ExtTreeMap ObjectKey Bytes)
    (objects : List ObjectRow) : Prop where
  keyed : Keyed ObjectRow.primaryKey objects
  stateKey : ∀ o ∈ objects, o.kind = kindAccountState → o.key = []
  state : state.map (·.wire) =
    (rowAt ObjectRow.primaryKey objects (kindAccountState, [])).map (·.bytes)
  held : ∀ kind key, kind = kindBundle ∨ kind = kindSettings →
    m[(toLex (kind, key) : ObjectKey)]? =
      (rowAt ObjectRow.primaryKey objects (kind, key)).map (·.bytes)
  kinds : ∀ (key : ObjectKey) (bytes : Bytes), m[key]? = some bytes → immutableKind (ofLex key).1

section Objects

variable {state : Option StateFloor} {m : ExtTreeMap ObjectKey Bytes} {objects : List ObjectRow}
  {row : ObjectRow}

theorem keyed_putObject (h : Keyed ObjectRow.primaryKey objects) (row : ObjectRow) :
    Keyed ObjectRow.primaryKey (putObject objects row) :=
  h.upsert (fun _ => rfl) rfl

theorem rowAt_putObject (h : Keyed ObjectRow.primaryKey objects) (row : ObjectRow)
    (k : ℤ × Bytes) :
    rowAt ObjectRow.primaryKey (putObject objects row) k =
      if k = row.primaryKey then
        some ((rowAt ObjectRow.primaryKey objects row.primaryKey).elim row
          fun o => { o with bytes := row.bytes })
      else rowAt ObjectRow.primaryKey objects k :=
  rowAt_upsert (f := fun o : ObjectRow => { o with bytes := row.bytes }) (fun _ => rfl) h rfl k

theorem bytes_putObject (h : Keyed ObjectRow.primaryKey objects) (row : ObjectRow)
    (k : ℤ × Bytes) :
    (rowAt ObjectRow.primaryKey (putObject objects row) k).map (·.bytes) =
      if k = row.primaryKey then some row.bytes
      else (rowAt ObjectRow.primaryKey objects k).map (·.bytes) := by
  rw [rowAt_putObject h]
  split_ifs
  · cases rowAt ObjectRow.primaryKey objects row.primaryKey with
    | none => rfl
    | some o => rfl
  · rfl

theorem mem_putObject (h : Keyed ObjectRow.primaryKey objects) {o : ObjectRow}
    (ho : o ∈ putObject objects row) : o.primaryKey = row.primaryKey ∨ o ∈ objects := by
  have hat := (keyed_putObject h row).rowAt_eq_some.mpr ⟨ho, rfl⟩
  rw [rowAt_putObject h] at hat
  split_ifs at hat with hk
  · exact .inl hk
  · exact .inr (mem_of_rowAt hat)

namespace ObjectIndex

variable (h : ObjectIndex state m objects)
include h

/-- Rows of the kinds that no rule reads. -/
theorem putObject_other (hstate : row.kind ≠ kindAccountState) (hbundle : row.kind ≠ kindBundle)
    (hsettings : row.kind ≠ kindSettings) : ObjectIndex state m (putObject objects row) := by
  refine ⟨keyed_putObject h.keyed row, fun o ho hkind => ?_, ?_, fun kind key hkind => ?_, h.kinds⟩
  · rcases mem_putObject h.keyed ho with hk | ho
    · exact absurd ((congrArg Prod.fst hk).symm.trans hkind) hstate
    · exact h.stateKey o ho hkind
  · rw [bytes_putObject h.keyed, if_neg fun hk => hstate (congrArg Prod.fst hk).symm]
    exact h.state
  · rw [bytes_putObject h.keyed, if_neg, h.held kind key hkind]
    intro hk
    rcases hkind with rfl | rfl
    · exact hbundle (congrArg Prod.fst hk).symm
    · exact hsettings (congrArg Prod.fst hk).symm

theorem putState (stateSeq settingsSeq : U64) (wire : Bytes) :
    ObjectIndex (some ⟨stateSeq, settingsSeq, wire⟩) m
      (putObject objects ⟨kindAccountState, [], wire⟩) := by
  refine ⟨keyed_putObject h.keyed _, fun o ho hkind => ?_, ?_, fun kind key hkind => ?_, h.kinds⟩
  · rcases mem_putObject h.keyed ho with hk | ho
    · exact congrArg Prod.snd hk
    · exact h.stateKey o ho hkind
  · rw [bytes_putObject h.keyed]
    rfl
  · rw [bytes_putObject h.keyed, if_neg, h.held kind key hkind]
    intro hk
    have hk : kind = kindAccountState := congrArg Prod.fst hk
    subst hk
    rcases hkind with hkind | hkind
    all_goals cases hkind

theorem putImmutable (hkind : immutableKind row.kind) :
    ObjectIndex state (m.insert (toLex (row.kind, row.key)) row.bytes) (putObject objects row) := by
  have hstate : row.kind ≠ kindAccountState := by
    intro hk
    rw [hk] at hkind
    cases hkind
  refine ⟨keyed_putObject h.keyed row, fun o ho hk => ?_, ?_, fun kind key hk => ?_,
    fun key bytes hkey => ?_⟩
  · rcases mem_putObject h.keyed ho with hkey | ho
    · exact absurd ((congrArg Prod.fst hkey).symm.trans hk) hstate
    · exact h.stateKey o ho hk
  · rw [bytes_putObject h.keyed, if_neg fun hk => hstate (congrArg Prod.fst hk).symm]
    exact h.state
  · rw [bytes_putObject h.keyed, ExtTreeMap.getElem?_insert_iff, h.held kind key hk]
    by_cases heq : (kind, key) = row.primaryKey
    · have hkeys : (toLex (row.kind, row.key) : ObjectKey) = toLex (kind, key) :=
        congrArg toLex heq.symm
      rw [if_pos heq, if_pos hkeys]
    · have hkeys : (toLex (row.kind, row.key) : ObjectKey) ≠ toLex (kind, key) :=
        fun h' => heq (toLex.injective h').symm
      rw [if_neg heq, if_neg hkeys]
  · rw [ExtTreeMap.getElem?_insert_iff] at hkey
    split_ifs at hkey with heq
    · rw [← heq]
      exact hkind
    · exact h.kinds key bytes hkey

/-- Deleting rows of the kinds that no rule reads. -/
theorem filter (p : ObjectRow → Bool)
    (hp : ∀ o, o.kind = kindAccountState ∨ o.kind = kindBundle ∨ o.kind = kindSettings → p o) :
    ObjectIndex state m (objects.filter p) := by
  refine ⟨h.keyed.filter p, fun o ho => h.stateKey o (List.mem_of_mem_filter ho), ?_,
    fun kind key hkind => ?_, h.kinds⟩
  · rw [rowAt_filter_of fun o _ hk => hp o (.inl (congrArg Prod.fst hk))]
    exact h.state
  · rw [rowAt_filter_of fun o _ hk => hp o ?_]
    · exact h.held kind key hkind
    · have hk : o.kind = kind := congrArg Prod.fst hk
      rw [hk]
      exact .inr hkind

end ObjectIndex

end Objects

/-! ### The index of a file -/

/-- A counter of `cache_meta`: zero before its first write. -/
def CacheRows.Counts (rows : CacheRows) (key : String) (n : U64) : Prop :=
  rows.cacheMeta[key]? = some n.toBe ∨ rows.cacheMeta[key]? = none ∧ n = 0

/-- The columns of an op and of a snapshot that the index holds. -/
def OpRow.indexed (row : OpRow) : Bytes × ℤ × Option Bytes :=
  (row.statement, row.own, row.sentGeneration)

def OpFloor.indexed (floor : OpFloor) : Bytes × ℤ × Option Bytes :=
  (floor.statement, floor.own, floor.sentGeneration.map Id16.bytes)

def SnapshotRow.indexed (row : SnapshotRow) : Bytes × ℤ := (row.statement, row.own)

def SnapshotFloor.indexed (floor : SnapshotFloor) : Bytes × ℤ := (floor.statement, floor.own)

/-- The index `f` holds what the rules read of the rows. -/
structure Index (f : Floors) (rows : CacheRows) : Prop where
  fixed : ∀ key ∈ fixedKeys, f.fixed[key]? = rows.cacheMeta[key]?
  fixed_keys : ∀ key value, f.fixed[key]? = some value → key ∈ fixedKeys
  nextDeviceSeq : rows.Counts metaNextDeviceSeq f.nextDeviceSeq
  hlc : rows.Counts metaHlc f.hlc
  objects : ObjectIndex f.state f.objects rows.objects
  vaults : Indexes VaultRow.vaultId Id16.bytes (·.selfGrant.vaultKeyEpoch) Prod.fst f.vaults
    rows.vaults
  ops : Indexes OpRow.primaryKey OpKey.columns OpRow.indexed OpFloor.indexed f.ops rows.ops
  snapshots : Indexes SnapshotRow.primaryKey SnapshotKey.columns SnapshotRow.indexed
    SnapshotFloor.indexed f.snapshots rows.snapshots

theorem index_empty : Index Floors.empty CacheRows.empty where
  fixed := fun _ _ => rfl
  fixed_keys := fun key value h => by cases h
  nextDeviceSeq := .inr ⟨rfl, rfl⟩
  hlc := .inr ⟨rfl, rfl⟩
  objects :=
    { keyed := List.nodup_nil
      stateKey := fun o ho => absurd ho List.not_mem_nil
      state := rfl
      held := fun _ _ _ => rfl
      kinds := fun key bytes h => by cases h }
  vaults := .nil
  ops := .nil
  snapshots := .nil

namespace Index

variable {f f' : Floors} {rows : CacheRows} {w : Write} {counter : U64}

theorem putMeta (h : Index f rows) {key : String} {value : Bytes} (hkey : key ∈ fixedKeys) :
    Index { f with fixed := f.fixed.insert key value }
      { rows with cacheMeta := rows.cacheMeta.insert key value } := by
  have hcounts : ∀ counter n, counter ∉ fixedKeys → rows.Counts counter n →
      { rows with cacheMeta := rows.cacheMeta.insert key value }.Counts counter n := by
    intro counter n hcounter hn
    have hne : key ≠ counter := fun heq => hcounter (heq ▸ hkey)
    rw [CacheRows.Counts, ExtTreeMap.getElem?_insert_iff, if_neg hne]
    exact hn
  refine { h with
    fixed := fun k hk => ?_
    fixed_keys := fun k v hkv => ?_
    nextDeviceSeq := hcounts _ _ (by decide) h.nextDeviceSeq
    hlc := hcounts _ _ (by decide) h.hlc }
  · rw [ExtTreeMap.getElem?_insert_iff, ExtTreeMap.getElem?_insert_iff, h.fixed k hk]
  · rw [ExtTreeMap.getElem?_insert_iff] at hkv
    split_ifs at hkv with heq
    · exact heq ▸ hkey
    · exact h.fixed_keys k v hkv

theorem fixed_putCounter (h : Index f rows) {counter : String} (hcounter : counter ∉ fixedKeys)
    (value : Bytes) : ∀ key ∈ fixedKeys,
      f.fixed[key]? = (rows.cacheMeta.insert counter value)[key]? := by
  intro key hkey
  have hne : counter ≠ key := fun heq => hcounter (heq ▸ hkey)
  rw [ExtTreeMap.getElem?_insert_iff, if_neg hne]
  exact h.fixed key hkey

theorem deviceSet (h : Index f rows) (certificates revocations : List (Id16 × Bytes)) :
    Index f (rows.applyOne (.deviceSet certificates revocations)) := by
  have hput : ∀ (kind : ℤ), kind = kindCertificate ∨ kind = kindRevocation →
      ∀ (entries : List (Id16 × Bytes)) (objects : List ObjectRow),
        ObjectIndex f.state f.objects objects →
        ObjectIndex f.state f.objects
          (entries.foldl (fun objects entry => putObject objects ⟨kind, entry.1.bytes, entry.2⟩)
            objects) := by
    intro kind hkind entries
    induction entries with
    | nil => exact fun _ hobjects => hobjects
    | cons entry entries ih =>
      intro objects hobjects
      have hnot : kind ≠ kindAccountState ∧ kind ≠ kindBundle ∧ kind ≠ kindSettings := by
        rcases hkind with rfl | rfl
        all_goals decide
      exact ih _ (hobjects.putObject_other hnot.1 hnot.2.1 hnot.2.2)
  have hkept : ObjectIndex f.state f.objects
      (rows.objects.filter fun o => o.kind ≠ kindCertificate ∧ o.kind ≠ kindRevocation) := by
    refine h.objects.filter _ fun o hkind => ?_
    rcases hkind with hkind | hkind | hkind
    all_goals
      rw [hkind]
      decide
  exact { h with objects := hput _ (.inr rfl) _ _ (hput _ (.inl rfl) _ _ hkept) }

theorem rowAt_op (h : Index f rows) {key : OpKey} {held : OpFloor}
    (hheld : f.ops[key]? = some held) :
    ∃ r, rowAt OpRow.primaryKey rows.ops key.columns = some r ∧ r.statement = held.statement ∧
      r.own = held.own ∧ r.sentGeneration = held.sentGeneration.map Id16.bytes := by
  obtain ⟨r, hr, hcol⟩ := h.ops.rowAt_of_getElem? hheld
  obtain ⟨hstatement, hcol⟩ := Prod.mk.inj hcol
  obtain ⟨hown, hsent⟩ := Prod.mk.inj hcol
  exact ⟨r, hr, hstatement, hown, hsent⟩

/-- **The index stays in step with the rows.** -/
theorem step (hw : Moves counter f w f') (h : Index f rows) : Index f' (rows.applyOne w) := by
  cases hw with
  | fixed hkey => exact h.putMeta hkey
  | @nextDeviceSeq n =>
    refine { h with
      fixed := h.fixed_putCounter (by decide) _
      nextDeviceSeq := .inl ?_
      hlc := ?_ }
    · exact (ExtTreeMap.getElem?_insert_iff _ _ _ _).trans (if_pos rfl)
    · have hhlc : (rows.cacheMeta.insert metaNextDeviceSeq n.toBe)[metaHlc]? =
          rows.cacheMeta[metaHlc]? :=
        (ExtTreeMap.getElem?_insert_iff _ _ _ _).trans (if_neg (by decide))
      simp only [CacheRows.Counts, CacheRows.applyOne, hhlc]
      exact h.hlc
  | @hlc n =>
    refine { h with
      fixed := h.fixed_putCounter (by decide) _
      nextDeviceSeq := ?_
      hlc := .inl ?_ }
    · have hseq : (rows.cacheMeta.insert metaHlc n.toBe)[metaNextDeviceSeq]? =
          rows.cacheMeta[metaNextDeviceSeq]? :=
        (ExtTreeMap.getElem?_insert_iff _ _ _ _).trans (if_neg (by decide))
      simp only [CacheRows.Counts, CacheRows.applyOne, hseq]
      exact h.nextDeviceSeq
    · exact (ExtTreeMap.getElem?_insert_iff _ _ _ _).trans (if_pos rfl)
  | deviceState => exact { h with }
  | pendingCommit => exact { h with }
  | accountState => exact { h with objects := h.objects.putState _ _ _ }
  | identityKeys hkind =>
    refine { h with objects := h.objects.putObject_other ?_ ?_ ?_ }
    all_goals
      rw [hkind]
      decide
  | putObject hkind => exact { h with objects := h.objects.putImmutable hkind }
  | clearAlarm =>
    refine { h with objects := h.objects.filter _ fun o hkind => ?_ }
    rcases hkind with hkind | hkind | hkind
    all_goals
      rw [hkind]
      rfl
  | deviceSet certificates revocations => exact h.deviceSet certificates revocations
  | vaultGrant =>
    exact { h with
      vaults := h.vaults.upsert Id16.bytes_injective (fun _ => rfl) rfl (fun _ => rfl) rfl }
  | vaultGeneration =>
    exact { h with vaults := h.vaults.touch _ (fun _ => rfl) fun _ => rfl }
  | wraps => exact { h with }
  | putOpAgain hkey hheld =>
    obtain ⟨r, hr, -⟩ := h.rowAt_op hheld
    refine { h with ops := ?_ }
    simp only [CacheRows.applyOne, hkey]
    rw [upsert_of_some hr]
    refine h.ops.touch _ (fun o => ?_) fun o => ?_
    all_goals
      unfold OpRow.fill
      split_ifs
      all_goals rfl
  | @putOp row key hkey hnew _ hsent =>
    refine { h with ops := ?_ }
    simp only [CacheRows.applyOne, hkey]
    rw [upsert_of_none (h.ops.rowAt_eq_none_iff.mpr hnew)]
    refine h.ops.append OpKey.columns_injective hnew hkey ?_
    simp only [OpRow.indexed, OpFloor.indexed, hsent, Option.map_none]
  | reissueOp hkey hheld =>
    refine { h with ops := ?_ }
    simp only [CacheRows.applyOne, hkey]
    exact h.ops.modify OpKey.columns_injective (fun _ => rfl) (by rw [hheld]; rfl) fun _ _ => rfl
  | @opOwn _ _ _ own sentGeneration key held hkey hheld =>
    subst hkey
    refine { h with
      ops := h.ops.modify OpKey.columns_injective (fun _ => rfl) (by rw [hheld]; rfl) ?_ }
    intro r hr
    obtain ⟨r', hr', hstatement, -, hsent⟩ := h.rowAt_op hheld
    obtain rfl := Option.some.inj (hr.symm.trans hr')
    simp only [OpRow.indexed, OpRow.moved, OpFloor.indexed, hstatement, hsent, Option.map_or]
  | pruneOpBody =>
    exact { h with ops := h.ops.touch _ (fun _ => rfl) fun _ => rfl }
  | @putSnapshotAgain row key held hkey hheld =>
    obtain ⟨r, hr, -⟩ := h.snapshots.rowAt_of_getElem? hheld
    have hany : (rows.snapshots.any fun s => s.primaryKey = key.columns) = true := by
      rw [any_key, hr]
      rfl
    simp only [CacheRows.applyOne, hkey, hany, if_true]
    exact h
  | @putSnapshot row key hkey hnew =>
    have hany : (rows.snapshots.any fun s => s.primaryKey = key.columns) = false := by
      rw [any_key, h.snapshots.rowAt_eq_none_iff.mpr hnew]
      rfl
    simp only [CacheRows.applyOne, hkey, hany, Bool.false_eq_true, if_false]
    exact { h with
      snapshots := h.snapshots.append SnapshotKey.columns_injective hnew hkey rfl }
  | @snapshotOwn _ _ own sentGeneration key held hkey hheld =>
    subst hkey
    refine { h with
      snapshots := h.snapshots.modify SnapshotKey.columns_injective (fun _ => rfl)
        (by rw [hheld]; rfl) ?_ }
    intro r hr
    obtain ⟨r', hr', hcol⟩ := h.snapshots.rowAt_of_getElem? hheld
    obtain rfl := Option.some.inj (hr.symm.trans hr')
    obtain ⟨hstatement, -⟩ := Prod.mk.inj hcol
    exact Prod.ext hstatement rfl
  | deleteSnapshot hkey =>
    subst hkey
    exact { h with snapshots := h.snapshots.erase SnapshotKey.columns_injective _ }
  | @deleteGone vaultId snapshotId hgone =>
    have herase : f.snapshots.erase (toLex (vaultId, snapshotId)) = f.snapshots := by
      refine ExtTreeMap.ext_getElem? fun a => ?_
      rw [ExtTreeMap.getElem?_erase_iff]
      split_ifs with ha
      · rw [← ha, hgone]
      · rfl
    have hsnapshots := h.snapshots.erase SnapshotKey.columns_injective (toLex (vaultId, snapshotId))
    rw [herase] at hsnapshots
    exact { h with snapshots := hsnapshots }

end Index

end RizzyVault.Client.Store
