import RizzyVault.Client.Store.Monotone

/-!
# The floors after a restart

A load builds the floors anew from the rows. They differ from the floors kept along the run in the
alarm rows alone, which no rule reads: both answer every further sequence of changesets alike.

## Main definitions

* `Floors.Same`: two indexes equal off the alarm rows.
* `Floors.answers`: the answers to a sequence of changesets.
* `Cache.heldState`, `Cache.heldVaultKey`: the account state and the vault keys a run wrote last.

## Main results

* `Floors.Same.answers`: indexes equal off the alarm rows answer alike.
* `Index.ofRows`: the floors of the rows are the index kept along the run, off the alarm rows.
* `Cache.answers_ofRows`: the floors admit the same changesets before and after a restart.

## References

* `crates/rizzy-client/src/store/floors.rs`.
-/

open RizzyVault.Core RizzyVault.Lib

namespace RizzyVault.Client.Store

open Std (ExtTreeMap)

/-! ### Indexes equal off the alarm rows -/

/-- Two maps of objects that agree on every kind but the alarms. -/
def AgreeOffAlarms (m m' : ExtTreeMap ObjectKey Bytes) : Prop :=
  ∀ key : ObjectKey, (ofLex key).1 ≠ kindAlarm → m[key]? = m'[key]?

/-- Two indexes equal off the alarm rows. -/
structure Floors.Same (f f' : Floors) : Prop where
  eq : f' = { f with objects := f'.objects }
  objects : AgreeOffAlarms f.objects f'.objects

variable {deviceRecord : Bytes → Option (Id16 × Id16)}

namespace Pending

/-- The same changeset over an index with other object rows. -/
def rebase (m : ExtTreeMap ObjectKey Bytes) (p : Pending) : Pending :=
  { p with base := { p.base with objects := m } }

variable {m : ExtTreeMap ObjectKey Bytes} {p : Pending}

theorem fixedAt_rebase (key : String) : (p.rebase m).fixedAt key = p.fixedAt key := rfl

theorem op_rebase (key : OpKey) : (p.rebase m).op key = p.op key := rfl

theorem vault_rebase (vaultId : Id16) : (p.rebase m).vault vaultId = p.vault vaultId := rfl

theorem snapshot_rebase (key : SnapshotKey) : (p.rebase m).snapshot key = p.snapshot key := rfl

private theorem checkMeta_rebase (key : String) (value : Bytes) :
    (p.rebase m).checkMeta key value = (p.checkMeta key value).map (rebase m) := by
  simp only [checkMeta, fixedAt_rebase, show (p.rebase m).nextDeviceSeq = p.nextDeviceSeq from rfl,
    show (p.rebase m).hlc = p.hlc from rfl]
  cases fixedKey key with
  | some fixed =>
    simp only
    split_ifs <;> rfl
  | none =>
    simp only
    cases u64Be value with
    | error e => rfl
    | ok number =>
      simp only
      split_ifs <;> rfl

private theorem checkState_rebase (wire : Bytes) (stateSeq settingsSeq : U64) :
    (p.rebase m).checkState wire stateSeq settingsSeq =
      (p.checkState wire stateSeq settingsSeq).map (rebase m) := by
  simp only [checkState, show (p.rebase m).state.or (p.rebase m).base.state =
    p.state.or p.base.state from rfl]
  split_ifs <;> rfl

private theorem checkObject_rebase (hm : AgreeOffAlarms p.base.objects m) (row : ObjectRow) :
    (p.rebase m).checkObject row = (p.checkObject row).map (rebase m) := by
  simp only [checkObject]
  cases objectKeyLen row.kind with
  | none => rfl
  | some keyLen =>
    simp only
    by_cases halarm : row.kind = kindAlarm
    · simp only [halarm, ne_eq, not_true_eq_false, false_and, and_false, if_false]
      split_ifs <;> rfl
    · have hheld : (p.rebase m).base.objects[(toLex (row.kind, row.key) : ObjectKey)]? =
          p.base.objects[(toLex (row.kind, row.key) : ObjectKey)]? :=
        (hm (toLex (row.kind, row.key)) halarm).symm
      simp only [hheld, show (p.rebase m).objects = p.objects from rfl]
      split_ifs <;> rfl

private theorem putOp_rebase (row : OpRow) :
    (p.rebase m).putOp row = (p.putOp row).map (rebase m) := by
  simp only [putOp, op_rebase, vault_rebase, fixedAt_rebase,
    show (p.rebase m).base.nextDeviceSeq = p.base.nextDeviceSeq from rfl]
  cases opKey row with
  | error e => rfl
  | ok key =>
    simp only
    cases p.op key with
    | some held =>
      simp only
      split_ifs <;> rfl
    | none =>
      simp only
      split_ifs <;> rfl

private theorem reissueOp_rebase (row : OpRow) (staleGeneration : Option Id16) :
    (p.rebase m).reissueOp row staleGeneration =
      (p.reissueOp row staleGeneration).map (rebase m) := by
  simp only [reissueOp, op_rebase]
  cases opKey row with
  | error e => rfl
  | ok key =>
    simp only
    cases p.op key with
    | none => rfl
    | some held =>
      simp only
      split_ifs <;> rfl

private theorem putSnapshot_rebase (row : SnapshotRow) :
    (p.rebase m).putSnapshot row = (p.putSnapshot row).map (rebase m) := by
  simp only [putSnapshot, snapshot_rebase]
  cases snapshotKey row with
  | error e => rfl
  | ok key =>
    simp only
    cases p.snapshot key with
    | some held =>
      simp only
      split_ifs <;> rfl
    | none =>
      simp only
      cases hvault : p.vault (ofLex key).1 with
      | none =>
        simp only [(vault_rebase _).trans hvault, Option.isNone_none, Bool.or_true, if_true]
        rfl
      | some held =>
        simp only [(vault_rebase _).trans hvault, Option.isNone_some, Bool.or_false]
        split_ifs <;> rfl

/-- A check reads no alarm row of the index. -/
theorem check_rebase (hm : AgreeOffAlarms p.base.objects m) (w : Write) :
    (p.rebase m).check deviceRecord w = (p.check deviceRecord w).map (rebase m) := by
  cases w with
  | cacheMeta key value => exact checkMeta_rebase key value
  | deviceState record =>
    simp only [check]
    cases deviceRecord record with
    | none => rfl
    | some ids => rfl
  | pendingCommit request =>
    simp only [check]
    split_ifs <;> rfl
  | accountState wire stateSeq settingsSeq => exact checkState_rebase wire stateSeq settingsSeq
  | putObject row => exact checkObject_rebase hm row
  | clearAlarm alarm =>
    cases alarm
    all_goals rfl
  | deviceSet certificates revocations =>
    simp only [check]
    split_ifs <;> rfl
  | vaultGrant grant vaultKeyId =>
    simp only [check]
    cases hheld : p.vault grant.vaultId with
    | none =>
      simp only [(vault_rebase _).trans hheld, Option.any_none, Bool.false_eq_true, if_false]
      rfl
    | some held =>
      simp only [(vault_rebase _).trans hheld, Option.any_some]
      split_ifs <;> rfl
  | vaultGeneration vaultId generation =>
    simp only [check]
    cases hheld : p.vault vaultId with
    | none => simp only [(vault_rebase _).trans hheld, Option.isSome_none]; rfl
    | some held => simp only [(vault_rebase _).trans hheld, Option.isSome_some]; rfl
  | wraps vaultId epoch wraps =>
    simp only [check, vault_rebase]
    cases p.vault vaultId with
    | none => rfl
    | some held =>
      simp only
      split_ifs <;> rfl
  | putOp row => exact putOp_rebase row
  | reissueOp row staleGeneration => exact reissueOp_rebase row staleGeneration
  | opOwn vaultId deviceId deviceSeq own sentGeneration =>
    simp only [check, op_rebase]
    cases p.op (toLex (vaultId, toLex (deviceId, deviceSeq))) with
    | none => rfl
    | some held =>
      simp only
      cases advanceOwn held.own own sentGeneration.isSome with
      | error e => rfl
      | ok u => rfl
  | putSnapshot row => exact putSnapshot_rebase row
  | snapshotOwn vaultId snapshotId own sentGeneration =>
    simp only [check, snapshot_rebase]
    cases p.snapshot (toLex (vaultId, snapshotId)) with
    | none => rfl
    | some held =>
      simp only
      cases advanceOwn held.own own sentGeneration.isSome with
      | error e => rfl
      | ok u => rfl
  | pruneOpBody vaultId deviceId deviceSeq =>
    simp only [check, op_rebase]
    cases p.op (toLex (vaultId, toLex (deviceId, deviceSeq))) with
    | none => rfl
    | some held =>
      simp only
      split_ifs <;> rfl
  | deleteSnapshot vaultId snapshotId =>
    simp only [check, snapshot_rebase]
    cases p.snapshot (toLex (vaultId, snapshotId)) with
    | none => rfl
    | some held =>
      simp only
      split_ifs <;> rfl

theorem checks_rebase (changeset : Changeset) {p : Pending}
    (hm : AgreeOffAlarms p.base.objects m) :
    changeset.foldlM (check deviceRecord) (p.rebase m) =
      (changeset.foldlM (check deviceRecord) p).map (rebase m) := by
  induction changeset generalizing p with
  | nil => rfl
  | cons w changeset ih =>
    rw [List.foldlM_cons, List.foldlM_cons, check_rebase hm]
    cases hw : p.check deviceRecord w with
    | error e => rfl
    | ok p' =>
      have hbase : p'.base = p.base := (check_moves hw).2
      exact ih (by rw [hbase]; exact hm)

end Pending

namespace Floors

variable {f f' : Floors}

theorem pass_same (h : f.Same f') (changeset : Changeset) :
    f'.pass deviceRecord changeset =
      (f.pass deviceRecord changeset).map (Pending.rebase f'.objects) := by
  have hstart : Pending.start f' = (Pending.start f).rebase f'.objects := by
    rw [h.eq]
    rfl
  rw [pass, pass, hstart, Pending.checks_rebase changeset h.objects]
  cases changeset.foldlM (Pending.check deviceRecord) (Pending.start f) with
  | error e => rfl
  | ok next =>
    change ((next.rebase f'.objects).finish >>= fun _ => .ok (next.rebase f'.objects)) =
      (next.finish >>= fun _ => .ok next).map (Pending.rebase f'.objects)
    rw [show (next.rebase f'.objects).finish = next.finish from rfl]
    cases next.finish with
    | error e => rfl
    | ok u => rfl

/-- The answers to a sequence of changesets. -/
def answers (deviceRecord : Bytes → Option (Id16 × Id16)) (floors : Floors) :
    List Changeset → List (Except ClientError Unit)
  | [] => []
  | changeset :: changesets =>
    match floors.admit deviceRecord changeset with
    | (answer, next) => answer :: answers deviceRecord next changesets

theorem commit_rebase (p : Pending) (m : ExtTreeMap ObjectKey Bytes)
    (hm : AgreeOffAlarms p.base.objects m) : p.commit.Same (p.rebase m).commit := by
  refine ⟨rfl, fun key hkey => ?_⟩
  rw [Pending.commit_objects, Pending.commit_objects, hm key hkey]
  rfl

/-- Indexes equal off the alarm rows admit the same changesets and stay equal off them. -/
theorem Same.step (h : f.Same f') (changeset : Changeset) :
    ( f.admit deviceRecord changeset).1 = ( f'.admit deviceRecord changeset).1 ∧
      ( f.admit deviceRecord changeset).2.Same ( f'.admit deviceRecord changeset).2 := by
  unfold Floors.admit
  rw [pass_same h changeset]
  cases hpass : f.pass deviceRecord changeset with
  | error e => exact ⟨rfl, h⟩
  | ok next =>
    refine ⟨rfl, commit_rebase next f'.objects ?_⟩
    rw [(pass_eq_ok hpass).2.1]
    exact h.objects

/-- Indexes equal off the alarm rows answer every sequence of changesets alike. -/
theorem Same.answers (h : f.Same f') (changesets : List Changeset) :
    f.answers deviceRecord changesets = f'.answers deviceRecord changesets := by
  induction changesets generalizing f f' with
  | nil => rfl
  | cons changeset changesets ih =>
    obtain ⟨hanswer, hnext⟩ := h.step changeset
    exact congrArg₂ List.cons hanswer (ih hnext)

end Floors

/-! ### The index of the rows -/

namespace Floors

theorem foldl_addMeta {l : List (String × Bytes)} (hl : Keyed Prod.fst l) :
    l.foldl addMeta empty = { empty with fixed := (l.foldl addMeta empty).fixed } ∧
      ∀ key, (l.foldl addMeta empty).fixed[key]? =
        if key ∈ fixedKeys then (rowAt Prod.fst l key).map Prod.snd else none := by
  induction l using List.reverseRecOn with
  | nil =>
    refine ⟨rfl, fun key => ?_⟩
    split_ifs <;> rfl
  | append_singleton l entry ih =>
    obtain ⟨hframe, hfixed⟩ := ih hl.of_append
    rw [List.foldl_append, List.foldl_cons, List.foldl_nil, addMeta]
    cases hkey : fixedKey entry.1 with
    | none =>
      refine ⟨hframe, fun key => (hfixed key).trans ?_⟩
      split_ifs with hmem
      · have hne : entry.1 ≠ key := by
          rintro rfl
          rw [fixedKey_eq_some.mpr ⟨hmem, rfl⟩] at hkey
          cases hkey
        rw [rowAt_append, rowAt_singleton, if_neg hne, Option.or_none]
      · rfl
    | some fixed =>
      obtain ⟨hmem, rfl⟩ := fixedKey_eq_some.mp hkey
      refine ⟨by simp only; rw [hframe], fun key => ?_⟩
      simp only
      rw [ExtTreeMap.getElem?_insert_iff, hfixed, rowAt_append, rowAt_singleton]
      by_cases heq : entry.1 = key
      · subst heq
        rw [if_pos rfl, if_pos hmem, if_pos rfl, hl.rowAt_of_append]
        rfl
      · rw [if_neg heq, if_neg heq, Option.or_none]

theorem foldl_addObject (state : U64 × U64) {floors : Floors} (hstate : floors.state = none)
    (hobjects : floors.objects = ∅) {objects : List ObjectRow}
    (hkeyed : Keyed ObjectRow.primaryKey objects)
    (hkey : ∀ o ∈ objects, o.kind = kindAccountState → o.key = []) :
    objects.foldl (addObject state) floors =
        { floors with
          state := (objects.foldl (addObject state) floors).state
          objects := (objects.foldl (addObject state) floors).objects } ∧
      (objects.foldl (addObject state) floors).state =
        (rowAt ObjectRow.primaryKey objects (kindAccountState, [])).map
          (fun o => ⟨state.1, state.2, o.bytes⟩) ∧
      ∀ key : ObjectKey, (objects.foldl (addObject state) floors).objects[key]? =
        if immutableKind (ofLex key).1 then
          (rowAt ObjectRow.primaryKey objects (ofLex key)).map (·.bytes)
        else none := by
  induction objects using List.reverseRecOn with
  | nil =>
    refine ⟨rfl, hstate, fun key => ?_⟩
    rw [List.foldl_nil, hobjects, ExtTreeMap.getElem?_empty]
    split_ifs <;> rfl
  | append_singleton objects o ih =>
    obtain ⟨hframe, hst, hobj⟩ :=
      ih hkeyed.of_append fun r hr => hkey r (List.mem_append_left _ hr)
    have hnone : rowAt ObjectRow.primaryKey objects o.primaryKey = none := hkeyed.rowAt_of_append
    rw [List.foldl_append, List.foldl_cons, List.foldl_nil, addObject]
    by_cases hkind : o.kind = kindAccountState
    · have hpk : o.primaryKey = (kindAccountState, []) :=
        Prod.ext hkind (hkey o (List.mem_append_right _ (List.mem_singleton.mpr rfl)) hkind)
      rw [if_pos hkind]
      refine ⟨by simp only; rw [hframe], ?_, fun key => (hobj key).trans ?_⟩
      · rw [rowAt_append, rowAt_singleton, hpk, if_pos rfl, ← hpk, hnone]
        rfl
      · split_ifs with himm
        · have hne : o.primaryKey ≠ ofLex key := by
            intro heq
            rw [← heq, hpk] at himm
            cases himm
          rw [rowAt_append, rowAt_singleton, if_neg hne, Option.or_none]
        · rfl
    · have hne : o.primaryKey ≠ (kindAccountState, []) := fun heq => hkind (congrArg Prod.fst heq)
      rw [if_neg hkind]
      split_ifs with himm
      · refine ⟨by simp only; rw [hframe], ?_, fun key => ?_⟩
        · simp only
          rw [hst, rowAt_append, rowAt_singleton, if_neg hne, Option.or_none]
        · simp only
          rw [ExtTreeMap.getElem?_insert_iff, hobj, rowAt_append, rowAt_singleton]
          by_cases heq : o.primaryKey = ofLex key
          · have hlex : (toLex (o.kind, o.key) : ObjectKey) = key := congrArg toLex heq
            have himm' : immutableKind o.primaryKey.1 := himm
            rw [if_pos hlex, if_pos heq, ← heq, if_pos himm', hnone]
            rfl
          · have hlex : (toLex (o.kind, o.key) : ObjectKey) ≠ key :=
              fun h => heq (congrArg ofLex h)
            rw [if_neg hlex, if_neg heq, Option.or_none]
      · refine ⟨hframe, ?_, fun key => (hobj key).trans ?_⟩
        · rw [hst, rowAt_append, rowAt_singleton, if_neg hne, Option.or_none]
        · split_ifs with himm'
          · have hne' : o.primaryKey ≠ ofLex key := by
              intro heq
              rw [← heq] at himm'
              exact himm himm'
            rw [rowAt_append, rowAt_singleton, if_neg hne', Option.or_none]
          · rfl

/-- A vault row read with the key id that the load found for it. -/
def vaultColumns (vaultKeys : List (Id16 × Id16)) (r : VaultRow) : ℕ × Option Id16 :=
  (r.selfGrant.vaultKeyEpoch,
    (vaultKeys.find? fun entry => entry.1.bytes = r.vaultId).map Prod.snd)

theorem vaultColumns_eq {vaultKeys : List (Id16 × Id16)} {r : VaultRow} {id : Id16}
    (hid : r.vaultId = id.bytes) : vaultColumns vaultKeys r =
      (r.selfGrant.vaultKeyEpoch, (vaultKeys.find? fun entry => entry.1 = id).map Prod.snd) := by
  have hpred : (fun entry : Id16 × Id16 => decide (entry.1.bytes = id.bytes)) =
      fun entry => decide (entry.1 = id) := by
    funext entry
    exact decide_eq_decide.mpr Id16.bytes_injective.eq_iff
  rw [vaultColumns, hid, hpred]

theorem foldlM_addVault {vaultKeys : List (Id16 × Id16)} {vaults : List VaultRow}
    (hkeyed : Keyed VaultRow.vaultId vaults)
    (hrows : ∀ r ∈ vaults, ∃ id : Id16, r.vaultId = id.bytes ∧
      (vaultKeys.find? fun entry => entry.1 = id).isSome) {floors : Floors}
    (hvaults : floors.vaults = ∅) :
    ∃ floors', vaults.foldlM (addVault vaultKeys) floors = .ok floors' ∧
      Indexes VaultRow.vaultId Id16.bytes (vaultColumns vaultKeys) (fun v => (v.1, some v.2))
        floors'.vaults vaults ∧
      floors' = { floors with vaults := floors'.vaults } := by
  refine foldlM_indexes (fun f f' => f' = { f with vaults := f'.vaults })
    (fun _ => rfl) (fun f g h hfg hgh => ?_) Id16.bytes_injective hkeyed (fun f r hr => ?_) floors
    hvaults
  · rw [hgh, hfg]
  · obtain ⟨id, hid, hfind⟩ := hrows r hr
    obtain ⟨entry, hentry⟩ := Option.isSome_iff_exists.mp hfind
    refine ⟨{ f with vaults := f.vaults.insert id (r.selfGrant.vaultKeyEpoch, entry.2) }, id, _, ?_,
      rfl, hid, ?_, rfl⟩
    · simp only [addVault, id16_eq_ok.mpr hid, bind, Except.bind, hentry]
      rfl
    · rw [vaultColumns_eq hid, hentry]
      rfl

theorem foldlM_addOp {ops : List OpRow} (hkeyed : Keyed OpRow.primaryKey ops)
    (hrows : ∀ r ∈ ops, (∃ key : OpKey, r.primaryKey = key.columns) ∧
      ∃ g : Option Id16, r.sentGeneration = g.map Id16.bytes) {floors : Floors}
    (hops : floors.ops = ∅) :
    ∃ floors', ops.foldlM addOp floors = .ok floors' ∧
      Indexes OpRow.primaryKey OpKey.columns OpRow.indexed OpFloor.indexed floors'.ops ops ∧
      floors' = { floors with ops := floors'.ops } := by
  refine foldlM_indexes (fun f f' => f' = { f with ops := f'.ops }) (fun _ => rfl)
    (fun f g h hfg hgh => ?_) OpKey.columns_injective hkeyed (fun f r hr => ?_) floors hops
  · rw [hgh, hfg]
  · obtain ⟨⟨key, hkey⟩, g, hg⟩ := hrows r hr
    refine ⟨{ f with ops := f.ops.insert key ⟨r.statement, r.own, g⟩ }, key, _, ?_, rfl, hkey, ?_,
      rfl⟩
    · have hgen : generation r.sentGeneration = .ok g := by
        rw [hg]
        cases g with
        | none => rfl
        | some id => rw [Option.map_some, generation, id16_eq_ok.mpr rfl]; rfl
      rw [addOp, opKey_eq_ok.mpr hkey, hgen]
      rfl
    · rw [OpRow.indexed, OpFloor.indexed, hg]

theorem foldlM_addSnapshot {snapshots : List SnapshotRow}
    (hkeyed : Keyed SnapshotRow.primaryKey snapshots)
    (hrows : ∀ r ∈ snapshots, ∃ key : SnapshotKey, r.primaryKey = key.columns) {floors : Floors}
    (hsnapshots : floors.snapshots = ∅) :
    ∃ floors', snapshots.foldlM addSnapshot floors = .ok floors' ∧
      Indexes SnapshotRow.primaryKey SnapshotKey.columns SnapshotRow.indexed SnapshotFloor.indexed
        floors'.snapshots snapshots ∧
      floors' = { floors with snapshots := floors'.snapshots } := by
  refine foldlM_indexes (fun f f' => f' = { f with snapshots := f'.snapshots })
    (fun _ => rfl) (fun f g h hfg hgh => ?_) SnapshotKey.columns_injective hkeyed (fun f r hr => ?_)
    floors hsnapshots
  · rw [hgh, hfg]
  · obtain ⟨key, hkey⟩ := hrows r hr
    refine ⟨{ f with snapshots := f.snapshots.insert key ⟨r.statement, r.own⟩ }, key, _, ?_, rfl,
      hkey, rfl, rfl⟩
    rw [addSnapshot, snapshotKey_eq_ok.mpr hkey]
    rfl

end Floors

theorem OpFloor.indexed_injective : Function.Injective OpFloor.indexed := by
  rintro ⟨statement, own, g⟩ ⟨statement', own', g'⟩ h
  obtain ⟨hstatement, h⟩ := Prod.mk.inj h
  obtain ⟨hown, hg⟩ := Prod.mk.inj h
  cases hstatement
  cases hown
  have hsent : g = g' := Option.map_injective Id16.bytes_injective hg
  rw [hsent]

theorem SnapshotFloor.indexed_injective : Function.Injective SnapshotFloor.indexed := by
  rintro ⟨statement, own⟩ ⟨statement', own'⟩ h
  obtain ⟨hstatement, hown⟩ := Prod.mk.inj h
  cases hstatement
  cases hown
  rfl

theorem counter_of_counts {rows : CacheRows} {key : String} {n : U64} (h : rows.Counts key n)
    (hsome : (rows.cacheMeta[key]?).isSome) : rows.counter key = .ok n := by
  rcases h with h | ⟨h, -⟩
  · rw [CacheRows.counter, h]
    exact u64Be_eq_ok.mpr rfl
  · rw [h] at hsome
    cases hsome

namespace ObjectIndex

variable {held : Option StateFloor} {m : ExtTreeMap ObjectKey Bytes} {objects : List ObjectRow}

theorem state_eq (h : ObjectIndex held m objects) {state : U64 × U64}
    (hstate : ∀ s, held = some s → state = (s.stateSeq, s.settingsSeq)) :
    (rowAt ObjectRow.primaryKey objects (kindAccountState, [])).map
      (fun o => (⟨state.1, state.2, o.bytes⟩ : StateFloor)) = held := by
  have hrow := h.state
  cases held with
  | none =>
    rw [Option.map_none] at hrow
    rw [Option.map_eq_none_iff.mp hrow.symm]
    rfl
  | some s =>
    obtain ⟨o, ho, hwire⟩ := Option.map_eq_some_iff.mp hrow.symm
    rw [ho, hstate s rfl, Option.map_some, hwire]

theorem objects_eq (h : ObjectIndex held m objects) {key : ObjectKey}
    (hkind : (ofLex key).1 ≠ kindAlarm) :
    m[key]? = if immutableKind (ofLex key).1 then
      (rowAt ObjectRow.primaryKey objects (ofLex key)).map (·.bytes) else none := by
  split_ifs with himm
  · refine h.held (ofLex key).1 (ofLex key).2 ?_
    simp only [immutableKind, Bool.or_eq_true, decide_eq_true_eq, hkind, or_false] at himm
    exact himm
  · by_contra hsome
    obtain ⟨bytes, hbytes⟩ := Option.ne_none_iff_exists'.mp hsome
    exact himm (h.kinds key bytes hbytes)

end ObjectIndex

namespace Index

variable {f : Floors} {rows : CacheRows} {state : U64 × U64} {vaultKeys : List (Id16 × Id16)}

theorem fixed_eq (h : Index f rows) (key : String) :
    f.fixed[key]? = if key ∈ fixedKeys then rows.cacheMeta[key]? else none := by
  split_ifs with hmem
  · exact h.fixed key hmem
  · by_contra hsome
    obtain ⟨value, hvalue⟩ := Option.ne_none_iff_exists'.mp hsome
    exact hmem (h.fixed_keys key value hvalue)

private theorem vaults_keyed (h : Index f rows)
    (hkeys : ∀ (v : Id16) (held : ℕ × Id16), f.vaults[v]? = some held →
      (vaultKeys.find? fun entry => entry.1 = v).map Prod.snd = some held.2) :
    Indexes VaultRow.vaultId Id16.bytes (Floors.vaultColumns vaultKeys) (fun v => (v.1, some v.2))
      f.vaults rows.vaults := by
  refine ⟨h.vaults.keyed, h.vaults.covered, fun id => ?_⟩
  cases hheld : f.vaults[id]? with
  | none =>
    rw [h.vaults.rowAt_eq_none_iff.mpr hheld]
    rfl
  | some held =>
    obtain ⟨r, hr, hepoch⟩ := h.vaults.rowAt_of_getElem? hheld
    rw [hr, Option.map_some, Option.map_some, Floors.vaultColumns_eq (key_of_rowAt hr),
      hkeys id held hheld, hepoch]

/-- **The floors of the rows are the index kept along the run**, off the alarm rows. -/
theorem ofRows (h : Index f rows) (hseq : (rows.cacheMeta[metaNextDeviceSeq]?).isSome)
    (hhlc : (rows.cacheMeta[metaHlc]?).isSome)
    (hstate : ∀ held, f.state = some held → state = (held.stateSeq, held.settingsSeq))
    (hkeys : ∀ (v : Id16) (held : ℕ × Id16), f.vaults[v]? = some held →
      (vaultKeys.find? fun entry => entry.1 = v).map Prod.snd = some held.2) :
    ∃ f', Floors.ofRows rows state vaultKeys = .ok f' ∧ f.Same f' := by
  obtain ⟨hmetaFrame, hmeta⟩ := Floors.foldl_addMeta (nodup_keys_toList rows.cacheMeta)
  set f₁ : Floors := { rows.cacheMeta.toList.foldl Floors.addMeta Floors.empty with
    nextDeviceSeq := f.nextDeviceSeq, hlc := f.hlc } with hf₁
  have hf₁state : f₁.state = none := by rw [hf₁, hmetaFrame]; rfl
  have hf₁objects : f₁.objects = ∅ := by rw [hf₁, hmetaFrame]; rfl
  obtain ⟨hobjFrame, hobjState, hobj⟩ :=
    Floors.foldl_addObject state hf₁state hf₁objects h.objects.keyed h.objects.stateKey
  set f₂ := rows.objects.foldl (Floors.addObject state) f₁ with hf₂
  have hf₂vaults : f₂.vaults = ∅ := by rw [hobjFrame, hf₁, hmetaFrame]; rfl
  obtain ⟨f₃, hfold₃, hvaults, hf₃⟩ := Floors.foldlM_addVault h.vaults.keyed (fun r hr => by
    obtain ⟨id, hid⟩ := h.vaults.covered r hr
    obtain ⟨held, hheld, -⟩ :=
      h.vaults.getElem?_of_rowAt (h.vaults.keyed.rowAt_eq_some.mpr ⟨hr, hid⟩)
    have hfind := congrArg Option.isSome (hkeys id held hheld)
    rw [Option.isSome_map] at hfind
    exact ⟨id, hid, hfind⟩) hf₂vaults
  have hf₃ops : f₃.ops = ∅ := by rw [hf₃, hobjFrame, hf₁, hmetaFrame]; rfl
  obtain ⟨f₄, hfold₄, hops, hf₄⟩ := Floors.foldlM_addOp h.ops.keyed (fun r hr => by
    obtain ⟨key, hkey⟩ := h.ops.covered r hr
    obtain ⟨floor, -, hcol⟩ :=
      h.ops.getElem?_of_rowAt (h.ops.keyed.rowAt_eq_some.mpr ⟨hr, hkey⟩)
    exact ⟨⟨key, hkey⟩, floor.sentGeneration, congrArg (fun c => c.2.2) hcol⟩) hf₃ops
  have hf₄snapshots : f₄.snapshots = ∅ := by rw [hf₄, hf₃, hobjFrame, hf₁, hmetaFrame]; rfl
  obtain ⟨f₅, hfold₅, hsnapshots, hf₅⟩ :=
    Floors.foldlM_addSnapshot h.snapshots.keyed h.snapshots.covered hf₄snapshots
  refine ⟨f₅, ?_, ?_⟩
  · rw [Floors.ofRows, counter_of_counts h.nextDeviceSeq hseq, counter_of_counts h.hlc hhlc]
    change (rows.vaults.foldlM (Floors.addVault vaultKeys) f₂ >>= fun f =>
      rows.ops.foldlM Floors.addOp f >>= fun f =>
        rows.snapshots.foldlM Floors.addSnapshot f) = _
    rw [hfold₃]
    change (rows.ops.foldlM Floors.addOp f₃ >>= fun f =>
      rows.snapshots.foldlM Floors.addSnapshot f) = _
    rw [hfold₄]
    exact hfold₅
  · have hfixed : f₅.fixed = f.fixed := by
      refine ExtTreeMap.ext_getElem? fun key => ?_
      rw [hf₅, hf₄, hf₃, hobjFrame, h.fixed_eq]
      refine (hmeta key).trans ?_
      rw [rowAt, find?_toList, Option.map_map]
      cases rows.cacheMeta[key]? with
      | none => rfl
      | some value => rfl
    have hstate₅ : f₅.state = f.state := by
      rw [hf₅, hf₄, hf₃]
      exact hobjState.trans (h.objects.state_eq hstate)
    have hvaults₅ : f₅.vaults = f.vaults := by
      rw [hf₅, hf₄]
      refine hvaults.unique (h.vaults_keyed hkeys) fun a b hab => ?_
      exact Prod.ext (Prod.mk.inj hab).1 (Option.some.inj (Prod.mk.inj hab).2)
    have hops₅ : f₅.ops = f.ops := by
      rw [hf₅]
      exact hops.unique h.ops OpFloor.indexed_injective
    have hsnapshots₅ : f₅.snapshots = f.snapshots :=
      hsnapshots.unique h.snapshots SnapshotFloor.indexed_injective
    have hcounters : f₅.nextDeviceSeq = f.nextDeviceSeq ∧ f₅.hlc = f.hlc := by
      rw [hf₅, hf₄, hf₃, hobjFrame]
      exact ⟨rfl, rfl⟩
    refine ⟨?_, fun key hkind => ?_⟩
    · calc f₅
          = ⟨f₅.fixed, f₅.nextDeviceSeq, f₅.hlc, f₅.state, f₅.objects, f₅.vaults, f₅.ops,
              f₅.snapshots⟩ := rfl
        _ = { f with objects := f₅.objects } := by
            rw [hfixed, hcounters.1, hcounters.2, hstate₅, hvaults₅, hops₅, hsnapshots₅]
    · rw [hf₅, hf₄, hf₃]
      exact (h.objects.objects_eq hkind).trans (hobj key).symm

end Index

/-! ### Runs -/

/-- The vault key a write puts for `vaultId`. -/
def vaultKeyWritten (vaultId : Id16) : Write → Option Id16
  | .vaultGrant grant vaultKeyId => if grant.vaultId = vaultId then some vaultKeyId else none
  | _ => none

theorem Moves.vaultKey_cases {counter : U64} {f f' : Floors} {w : Write}
    (hw : Moves counter f w f') (vaultId : Id16) :
    (f'.vaults[vaultId]?).map Prod.snd =
      (vaultKeyWritten vaultId w).or ((f.vaults[vaultId]?).map Prod.snd) := by
  cases hw with
  | @vaultGrant grant =>
    rw [ExtTreeMap.getElem?_insert_iff, vaultKeyWritten]
    split_ifs <;> rfl
  | _ => rfl

theorem Walk.vaultKey {C : Set U64} {f f' : Floors} {ws : List Write} (h : Walk C f ws f')
    (vaultId : Id16) : (f'.vaults[vaultId]?).map Prod.snd =
      ((ws.filterMap (vaultKeyWritten vaultId)).getLast?).or
        ((f.vaults[vaultId]?).map Prod.snd) := by
  induction h with
  | nil => rfl
  | @cons _ _ _ _ w ws _ hw _ ih =>
    rw [ih, hw.vaultKey_cases vaultId]
    cases hkey : vaultKeyWritten vaultId w with
    | none => rw [List.filterMap_cons_none hkey, Option.none_or]
    | some vaultKeyId =>
      rw [List.filterMap_cons_some hkey, List.getLast?_cons, Option.some_or]
      cases (ws.filterMap (vaultKeyWritten vaultId)).getLast? with
      | none => rfl
      | some last => rfl

namespace Cache

/-- The account state a run wrote last. -/
def heldState (deviceRecord : Bytes → Option (Id16 × Id16)) (changesets : List Changeset) :
    Option StateFloor := ((written deviceRecord changesets).filterMap stateWritten).getLast?

/-- The vault key a run wrote last for a vault. -/
def heldVaultKey (deviceRecord : Bytes → Option (Id16 × Id16)) (changesets : List Changeset)
    (vaultId : Id16) : Option Id16 :=
  ((written deviceRecord changesets).filterMap (vaultKeyWritten vaultId)).getLast?

/-- **The floors answer alike before and after a restart.** After a run that set both counters,
the floors of the rows, given the sequence numbers of the held account state and the id of each
vault's key, admit exactly the changesets that the floors kept along the run admit. -/
theorem answers_ofRows (changesets : List Changeset) (state : U64 × U64)
    (vaultKeys : List (Id16 × Id16))
    (hseq : ((run deviceRecord changesets).rows.cacheMeta[metaNextDeviceSeq]?).isSome)
    (hhlc : ((run deviceRecord changesets).rows.cacheMeta[metaHlc]?).isSome)
    (hstate : ∀ held, heldState deviceRecord changesets = some held →
      state = (held.stateSeq, held.settingsSeq))
    (hkeys : ∀ vaultId vaultKeyId, heldVaultKey deviceRecord changesets vaultId = some vaultKeyId →
      vaultKeys.find? (fun entry => entry.1 = vaultId) = some (vaultId, vaultKeyId)) :
    ∃ floors, Floors.ofRows (run deviceRecord changesets).rows state vaultKeys = .ok floors ∧
      ∀ further, floors.answers deviceRecord further =
        (run deviceRecord changesets).floors.answers deviceRecord further := by
  have hwalk := walk_run deviceRecord changesets
  have hheldState : ∀ held, (run deviceRecord changesets).floors.state = some held →
      state = (held.stateSeq, held.settingsSeq) := by
    intro held hheld
    have hlast := hwalk.states.2.2
    rw [hheld] at hlast
    exact hstate held (hlast.trans Option.or_none).symm
  have hheldKeys : ∀ (vaultId : Id16) (held : ℕ × Id16),
      (run deviceRecord changesets).floors.vaults[vaultId]? = some held →
      (vaultKeys.find? fun entry => entry.1 = vaultId).map Prod.snd = some held.2 := by
    intro vaultId held hheld
    have hlast := hwalk.vaultKey vaultId
    rw [hheld, Option.map_some] at hlast
    rw [hkeys vaultId held.2 (hlast.trans Option.or_none).symm]
    rfl
  obtain ⟨floors, hfloors, hsame⟩ :=
    (index_run deviceRecord changesets).ofRows hseq hhlc hheldState hheldKeys
  exact ⟨floors, hfloors, fun further => (hsame.answers further).symm⟩

def sampleVault : Id16 := ⟨List.replicate 16 1, List.length_replicate⟩

def sampleVaultKey : Id16 := ⟨List.replicate 16 9, List.length_replicate⟩

/-- Both counters, an account state and a vault. -/
def sampleFile : Changeset :=
  [.cacheMeta metaNextDeviceSeq (1 : U64).toBe, .cacheMeta metaHlc (0 : U64).toBe,
    .accountState [1] 5 6, .vaultGrant ⟨sampleVault, 1, 1, []⟩ sampleVaultKey]

theorem written_sampleFile : written (fun _ => none) [sampleFile] = sampleFile := by
  decide +kernel

theorem answers_ofRows_sampleFile :
    ∃ floors, Floors.ofRows (run (fun _ => none) [sampleFile]).rows (5, 6)
        [(sampleVault, sampleVaultKey)] = .ok floors ∧
      ∀ further, floors.answers (fun _ => none) further =
        (run (fun _ => none) [sampleFile]).floors.answers (fun _ => none) further := by
  refine answers_ofRows [sampleFile] (5, 6) [(sampleVault, sampleVaultKey)] (by decide +kernel)
    (by decide +kernel) (fun held hheld => ?_) fun vaultId vaultKeyId hkey => ?_
  · rw [heldState, written_sampleFile] at hheld
    cases hheld
    rfl
  · rw [heldVaultKey, written_sampleFile] at hkey
    by_cases hvault : sampleVault = vaultId
    · subst hvault
      cases hkey
      rfl
    · have hnone : sampleFile.filterMap (vaultKeyWritten vaultId) = [] := by
        simp [sampleFile, vaultKeyWritten, hvault]
      rw [hnone] at hkey
      cases hkey

end Cache

end RizzyVault.Client.Store
