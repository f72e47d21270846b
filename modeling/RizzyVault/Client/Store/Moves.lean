import RizzyVault.Client.Store.Floors
import RizzyVault.Lib.Result

/-!
# What an admitted write does

The index a changeset leads to after some of its writes is the index that `commit` would leave
there. Read at that index, an admitted write does one of the moves listed here, with the guards
the check put on it; what holds of the index is proved from the moves.

## Main definitions

* `Moves`: an admitted write, with its guards and what it does to the index.

## Main results

* `Pending.check_moves`: what a check admits.
* `Pending.commit_ops`, `Pending.commit_snapshots` and so on: the index after the writes so far.

## References

* `crates/rizzy-client/src/store/floors.rs`.
-/

open RizzyVault.Core RizzyVault.Lib

namespace RizzyVault.Client.Store

open Std (ExtTreeMap)

/-! ### Keys -/

/-- The key columns of a row at `key`. -/
def OpKey.columns (key : OpKey) : Bytes × Bytes × Bytes :=
  opColumns key.vaultId key.deviceId key.deviceSeq

def SnapshotKey.columns (key : SnapshotKey) : Bytes × Bytes :=
  ((ofLex key).1.bytes, (ofLex key).2.bytes)

theorem OpKey.columns_injective : Function.Injective OpKey.columns := by
  intro a b h
  obtain ⟨hv, h⟩ := Prod.mk.inj h
  obtain ⟨hd, hs⟩ := Prod.mk.inj h
  have hvault : a.vaultId = b.vaultId := Id16.bytes_injective hv
  have hdevice : a.deviceId = b.deviceId := Id16.bytes_injective hd
  have hseq : a.deviceSeq = b.deviceSeq := U64.toBe_injective hs
  exact Prod.ext hvault (Prod.ext hdevice hseq)

theorem SnapshotKey.columns_injective : Function.Injective SnapshotKey.columns := by
  intro a b h
  obtain ⟨hv, hs⟩ := Prod.mk.inj h
  exact Prod.ext (Id16.bytes_injective hv) (Id16.bytes_injective hs)

theorem opKey_eq_ok {row : OpRow} {key : OpKey} :
    opKey row = .ok key ↔ row.primaryKey = key.columns := by
  unfold opKey
  constructor
  · intro h
    obtain ⟨v, hv, h⟩ := except_bind_eq_ok.mp h
    obtain ⟨d, hd, h⟩ := except_bind_eq_ok.mp h
    obtain ⟨s, hs, h⟩ := except_bind_eq_ok.mp h
    cases h
    rw [id16_eq_ok] at hv hd
    rw [u64Be_eq_ok] at hs
    exact Prod.ext hv (Prod.ext hd hs)
  · intro h
    obtain ⟨hv, h⟩ := Prod.mk.inj h
    obtain ⟨hd, hs⟩ := Prod.mk.inj h
    rw [id16_eq_ok.mpr hv, id16_eq_ok.mpr hd, u64Be_eq_ok.mpr hs]
    rfl

theorem snapshotKey_eq_ok {row : SnapshotRow} {key : SnapshotKey} :
    snapshotKey row = .ok key ↔ row.primaryKey = key.columns := by
  unfold snapshotKey
  constructor
  · intro h
    obtain ⟨v, hv, h⟩ := except_bind_eq_ok.mp h
    obtain ⟨s, hs, h⟩ := except_bind_eq_ok.mp h
    cases h
    rw [id16_eq_ok] at hv hs
    exact Prod.ext hv hs
  · intro h
    obtain ⟨hv, hs⟩ := Prod.mk.inj h
    rw [id16_eq_ok.mpr hv, id16_eq_ok.mpr hs]
    rfl

theorem fixedKey_eq_some {key k : String} : fixedKey key = some k ↔ key ∈ fixedKeys ∧ k = key := by
  constructor
  · intro h
    have hk : k = key := by simpa using List.find?_some h
    subst hk
    exact ⟨List.mem_of_find?_eq_some h, rfl⟩
  · rintro ⟨hmem, rfl⟩
    simp only [fixedKeys, List.mem_cons, List.not_mem_nil, or_false] at hmem
    rcases hmem with rfl | rfl | rfl | rfl
    all_goals rfl

/-! ### The index after the writes so far -/

namespace Pending

variable (p : Pending)

theorem commit_fixed (key : String) : p.commit.fixed[key]? = p.fixedAt key :=
  ExtTreeMap.getElem?_union

theorem commit_ops (key : OpKey) : p.commit.ops[key]? = p.op key := ExtTreeMap.getElem?_union

theorem commit_vaults (vaultId : Id16) : p.commit.vaults[vaultId]? = p.vault vaultId :=
  ExtTreeMap.getElem?_union

theorem commit_objects (key : ObjectKey) :
    p.commit.objects[key]? = p.objects[key]?.or p.base.objects[key]? := ExtTreeMap.getElem?_union

theorem commit_snapshots (key : SnapshotKey) : p.commit.snapshots[key]? = p.snapshot key := by
  unfold snapshot
  rw [show p.commit.snapshots[key]? = _ from
    getElem?_foldl_overlay (nodup_keys_toList p.snapshots) p.base.snapshots key, find?_toList]
  cases p.snapshots[key]? with
  | none => rfl
  | some changed => rfl

theorem commit_start (floors : Floors) : (start floors).commit = floors := by
  have hsnapshots : (start floors).commit.snapshots = floors.snapshots := by
    refine ExtTreeMap.ext_getElem? fun key => ?_
    rw [commit_snapshots]
    simp [snapshot, start]
  have hfixed : (start floors).commit.fixed = floors.fixed :=
    ExtTreeMap.ext_getElem? fun key => by rw [commit_fixed]; simp [fixedAt, start]
  have hobjects : (start floors).commit.objects = floors.objects :=
    ExtTreeMap.ext_getElem? fun key => by rw [commit_objects]; simp [start]
  have hvaults : (start floors).commit.vaults = floors.vaults :=
    ExtTreeMap.ext_getElem? fun key => by rw [commit_vaults]; simp [vault, start]
  have hops : (start floors).commit.ops = floors.ops :=
    ExtTreeMap.ext_getElem? fun key => by rw [commit_ops]; simp [op, start]
  calc (start floors).commit
      = ⟨(start floors).commit.fixed, floors.nextDeviceSeq, floors.hlc, floors.state,
          (start floors).commit.objects, (start floors).commit.vaults,
          (start floors).commit.ops, (start floors).commit.snapshots⟩ := rfl
    _ = floors := by rw [hfixed, hobjects, hvaults, hops, hsnapshots]

private theorem union_insert {K V : Type} [LinearOrder K] (m o : ExtTreeMap K V) (k : K) (v : V) :
    m ∪ o.insert k v = (m ∪ o).insert k v := by
  refine ExtTreeMap.ext_getElem? fun a => ?_
  simp only [ExtTreeMap.getElem?_union, ExtTreeMap.getElem?_insert_iff]
  split_ifs <;> rfl

theorem commit_insertFixed (key : String) (value : Bytes) :
    { p with fixed := p.fixed.insert key value }.commit =
      { p.commit with fixed := p.commit.fixed.insert key value } := by
  simp only [commit, union_insert]

theorem commit_insertObject (key : ObjectKey) (bytes : Bytes) :
    { p with objects := p.objects.insert key bytes }.commit =
      { p.commit with objects := p.commit.objects.insert key bytes } := by
  simp only [commit, union_insert]

theorem commit_insertVault (vaultId : Id16) (held : ℕ × Id16) :
    { p with vaults := p.vaults.insert vaultId held }.commit =
      { p.commit with vaults := p.commit.vaults.insert vaultId held } := by
  simp only [commit, union_insert]

theorem commit_insertOp (key : OpKey) (floor : OpFloor) :
    { p with ops := p.ops.insert key floor }.commit =
      { p.commit with ops := p.commit.ops.insert key floor } := by
  simp only [commit, union_insert]

theorem commit_insertSnapshot (key : SnapshotKey) (floor : SnapshotFloor) :
    { p with snapshots := p.snapshots.insert key (some floor) }.commit =
      { p.commit with snapshots := p.commit.snapshots.insert key floor } := by
  have hsnapshots : { p with snapshots := p.snapshots.insert key (some floor) }.commit.snapshots =
      p.commit.snapshots.insert key floor := by
    refine ExtTreeMap.ext_getElem? fun a => ?_
    rw [commit_snapshots, ExtTreeMap.getElem?_insert_iff, commit_snapshots]
    simp only [snapshot, ExtTreeMap.getElem?_insert_iff]
    split_ifs <;> rfl
  rw [← hsnapshots]
  rfl

theorem commit_eraseSnapshot (key : SnapshotKey) :
    { p with snapshots := p.snapshots.insert key none }.commit =
      { p.commit with snapshots := p.commit.snapshots.erase key } := by
  have hsnapshots : { p with snapshots := p.snapshots.insert key none }.commit.snapshots =
      p.commit.snapshots.erase key := by
    refine ExtTreeMap.ext_getElem? fun a => ?_
    rw [commit_snapshots, ExtTreeMap.getElem?_erase_iff, commit_snapshots]
    simp only [snapshot, ExtTreeMap.getElem?_insert_iff]
    split_ifs <;> rfl
  rw [← hsnapshots]
  rfl

end Pending

/-! ### The moves -/

/-- An admitted write, read at the index `f` after the writes before it, and the index after it.
`counter` is the `next_device_seq` stored before the changeset. -/
inductive Moves (counter : U64) (f : Floors) : Write → Floors → Prop
  | fixed {key : String} {value : Bytes} (hkey : key ∈ fixedKeys) (hvalid : validFixed key value)
      (hheld : ∀ held, f.fixed[key]? = some held → held = value) :
      Moves counter f (.cacheMeta key value) { f with fixed := f.fixed.insert key value }
  | nextDeviceSeq {n : U64} (hpos : n ≠ 0) (hle : f.nextDeviceSeq ≤ n) :
      Moves counter f (.cacheMeta metaNextDeviceSeq n.toBe) { f with nextDeviceSeq := n }
  | hlc {n : U64} (hle : f.hlc ≤ n) :
      Moves counter f (.cacheMeta metaHlc n.toBe) { f with hlc := n }
  | deviceState (record : Bytes) : Moves counter f (.deviceState record) f
  | pendingCommit (request : Option Bytes) : Moves counter f (.pendingCommit request) f
  | accountState {wire : Bytes} {stateSeq settingsSeq : U64}
      (hheld : ∀ held, f.state = some held → held.stateSeq ≤ stateSeq ∧
        held.settingsSeq ≤ settingsSeq ∧ (held.stateSeq = stateSeq → held.wire = wire)) :
      Moves counter f (.accountState wire stateSeq settingsSeq)
        { f with state := some ⟨stateSeq, settingsSeq, wire⟩ }
  | identityKeys {row : ObjectRow} (hkind : row.kind = kindIdentityKeys) :
      Moves counter f (.putObject row) f
  | putObject {row : ObjectRow} (hkind : immutableKind row.kind)
      (hheld : row.kind ≠ kindAlarm → ∀ held,
        f.objects[(toLex (row.kind, row.key) : ObjectKey)]? = some held → held = row.bytes) :
      Moves counter f (.putObject row)
        { f with objects := f.objects.insert (toLex (row.kind, row.key)) row.bytes }
  | clearAlarm (alarm : Alarm) : Moves counter f (.clearAlarm alarm) f
  | deviceSet (certificates revocations : List (Id16 × Bytes)) :
      Moves counter f (.deviceSet certificates revocations) f
  | vaultGrant {grant : VaultSelfGrant} {vaultKeyId : Id16}
      (hheld : ∀ held, f.vaults[grant.vaultId]? = some held → held.1 ≤ grant.vaultKeyEpoch ∧
        (held.1 = grant.vaultKeyEpoch → held.2 = vaultKeyId)) :
      Moves counter f (.vaultGrant grant vaultKeyId)
        { f with vaults := f.vaults.insert grant.vaultId (grant.vaultKeyEpoch, vaultKeyId) }
  | vaultGeneration (vaultId generation : Id16) :
      Moves counter f (.vaultGeneration vaultId generation) f
  | wraps (vaultId : Id16) (epoch : ℕ) (wraps : List WrapRow) :
      Moves counter f (.wraps vaultId epoch wraps) f
  | putOpAgain {row : OpRow} {key : OpKey} {held : OpFloor} (hkey : row.primaryKey = key.columns)
      (hheld : f.ops[key]? = some held) (hstatement : held.statement = row.statement) :
      Moves counter f (.putOp row) f
  | putOp {row : OpRow} {key : OpKey} (hkey : row.primaryKey = key.columns)
      (hnew : f.ops[key]? = none) (hvault : (f.vaults[key.vaultId]?).isSome)
      (hsent : row.sentGeneration = none)
      (hown : row.own = ownServed ∧ f.fixed[metaDeviceId]? ≠ some key.deviceId.bytes ∨
        row.own = ownUnsent ∧ f.fixed[metaDeviceId]? = some key.deviceId.bytes ∧
          max counter 1 ≤ key.deviceSeq) :
      Moves counter f (.putOp row)
        { f with ops := f.ops.insert key ⟨row.statement, row.own, none⟩ }
  | reissueOp {row : OpRow} {staleGeneration : Option Id16} {key : OpKey} {held : OpFloor}
      (hkey : row.primaryKey = key.columns) (hheld : f.ops[key]? = some held)
      (hown : held.own = ownUnsent ∨ held.own = ownSent ∧ staleGeneration.isSome ∧
        held.sentGeneration = staleGeneration) :
      Moves counter f (.reissueOp row staleGeneration)
        { f with ops := f.ops.insert key ⟨row.statement, ownUnsent, none⟩ }
  | opOwn {vaultId deviceId : Id16} {deviceSeq : U64} {own : ℤ} {sentGeneration : Option Id16}
      {key : OpKey} {held : OpFloor} (hkey : key = toLex (vaultId, toLex (deviceId, deviceSeq)))
      (hheld : f.ops[key]? = some held)
      (hown : advanceOwn held.own own sentGeneration.isSome = .ok ()) :
      Moves counter f (.opOwn vaultId deviceId deviceSeq own sentGeneration)
        { f with
          ops := f.ops.insert key ⟨held.statement, own, held.sentGeneration.or sentGeneration⟩ }
  | pruneOpBody {vaultId deviceId : Id16} {deviceSeq : U64} {held : OpFloor}
      (hheld : f.ops[(toLex (vaultId, toLex (deviceId, deviceSeq)) : OpKey)]? = some held)
      (hown : held.own = ownServed) :
      Moves counter f (.pruneOpBody vaultId deviceId deviceSeq) f
  | putSnapshotAgain {row : SnapshotRow} {key : SnapshotKey} {held : SnapshotFloor}
      (hkey : row.primaryKey = key.columns) (hheld : f.snapshots[key]? = some held)
      (hstatement : held.statement = row.statement) : Moves counter f (.putSnapshot row) f
  | putSnapshot {row : SnapshotRow} {key : SnapshotKey} (hkey : row.primaryKey = key.columns)
      (hnew : f.snapshots[key]? = none) (hown : row.own = ownServed ∨ row.own = ownUnsent)
      (hsent : row.sentGeneration = none) (hvault : (f.vaults[(ofLex key).1]?).isSome) :
      Moves counter f (.putSnapshot row)
        { f with snapshots := f.snapshots.insert key ⟨row.statement, row.own⟩ }
  | snapshotOwn {vaultId snapshotId : Id16} {own : ℤ} {sentGeneration : Option Id16}
      {key : SnapshotKey} {held : SnapshotFloor} (hkey : key = toLex (vaultId, snapshotId))
      (hheld : f.snapshots[key]? = some held)
      (hown : advanceOwn held.own own sentGeneration.isSome = .ok ()) :
      Moves counter f (.snapshotOwn vaultId snapshotId own sentGeneration)
        { f with snapshots := f.snapshots.insert key ⟨held.statement, own⟩ }
  | deleteSnapshot {vaultId snapshotId : Id16} {key : SnapshotKey} {held : SnapshotFloor}
      (hkey : key = toLex (vaultId, snapshotId)) (hheld : f.snapshots[key]? = some held)
      (hown : held.own = ownUnsent ∨ held.own = ownSent) :
      Moves counter f (.deleteSnapshot vaultId snapshotId)
        { f with snapshots := f.snapshots.erase key }
  | deleteGone {vaultId snapshotId : Id16}
      (hgone : f.snapshots[(toLex (vaultId, snapshotId) : SnapshotKey)]? = none) :
      Moves counter f (.deleteSnapshot vaultId snapshotId) f

/-! ### What a check admits -/

namespace Pending

variable {p p' : Pending} {deviceRecord : Bytes → Option (Id16 × Id16)}

private theorem ite_error_eq_ok {c : Prop} [Decidable c] {x : Except Refused Pending} :
    (if c then .error ⟨⟩ else x) = .ok p' ↔ ¬ c ∧ x = .ok p' := by
  by_cases h : c
  · rw [if_pos h]
    exact ⟨fun h' => (by cases h'), fun h' => absurd h h'.1⟩
  · rw [if_neg h]
    exact ⟨fun h' => ⟨h, h'⟩, fun h' => h'.2⟩

private theorem eq_of_any_ne {o : Option Bytes} {value : Bytes} (h : ¬ o.any (· ≠ value)) :
    ∀ held, o = some held → held = value := by
  rintro held rfl
  simpa using h

private theorem checkMeta_moves {key : String} {value : Bytes}
    (h : p.checkMeta key value = .ok p') :
    Moves p.base.nextDeviceSeq p.commit (.cacheMeta key value) p'.commit ∧ p'.base = p.base := by
  unfold checkMeta at h
  cases hkey : fixedKey key with
  | some fixed =>
    obtain ⟨hmem, rfl⟩ := fixedKey_eq_some.mp hkey
    rw [hkey] at h
    obtain ⟨hno, h⟩ := ite_error_eq_ok.mp h
    cases h
    rw [commit_insertFixed]
    simp only [Bool.or_eq_true, Bool.not_eq_true', not_or, Bool.not_eq_false] at hno
    refine ⟨.fixed hmem hno.1 (fun held hheld => ?_), rfl⟩
    rw [commit_fixed] at hheld
    exact eq_of_any_ne hno.2 held hheld
  | none =>
    rw [hkey] at h
    cases hvalue : u64Be value with
    | error e => simp [hvalue] at h
    | ok number =>
      obtain rfl := u64Be_eq_ok.mp hvalue
      simp only [hvalue] at h
      by_cases hseq : key = metaNextDeviceSeq
      · subst hseq
        rw [if_pos rfl] at h
        obtain ⟨hno, h⟩ := ite_error_eq_ok.mp h
        cases h
        rw [not_or, not_lt] at hno
        exact ⟨.nextDeviceSeq hno.1 hno.2, rfl⟩
      · rw [if_neg hseq] at h
        by_cases hhlc : key = metaHlc
        · subst hhlc
          rw [if_pos rfl] at h
          obtain ⟨hno, h⟩ := ite_error_eq_ok.mp h
          cases h
          exact ⟨.hlc (not_lt.mp hno), rfl⟩
        · rw [if_neg hhlc] at h
          cases h

private theorem checkState_moves {wire : Bytes} {stateSeq settingsSeq : U64}
    (h : p.checkState wire stateSeq settingsSeq = .ok p') :
    Moves p.base.nextDeviceSeq p.commit (.accountState wire stateSeq settingsSeq) p'.commit ∧
      p'.base = p.base := by
  unfold checkState at h
  obtain ⟨hno, h⟩ := ite_error_eq_ok.mp h
  cases h
  refine ⟨.accountState (fun held hheld => ?_), rfl⟩
  rw [show p.state.or p.base.state = some held from hheld] at hno
  simp only [Option.any_some, Bool.or_eq_true, decide_eq_true_eq, Bool.and_eq_true, not_or,
    not_lt, not_and, not_not] at hno
  exact ⟨hno.1.1, hno.1.2, fun hseq => (hno.2 hseq.symm).symm⟩

private theorem checkObject_moves {row : ObjectRow} (h : p.checkObject row = .ok p') :
    Moves p.base.nextDeviceSeq p.commit (.putObject row) p'.commit ∧ p'.base = p.base := by
  unfold checkObject at h
  cases hlen : objectKeyLen row.kind with
  | none => simp [hlen] at h
  | some keyLen =>
    simp only [hlen] at h
    obtain ⟨-, h⟩ := ite_error_eq_ok.mp h
    by_cases hkind : immutableKind row.kind
    · rw [if_pos hkind] at h
      obtain ⟨hno, h⟩ := ite_error_eq_ok.mp h
      cases h
      rw [commit_insertObject]
      refine ⟨.putObject hkind (fun halarm held hheld => ?_), rfl⟩
      rw [commit_objects] at hheld
      exact eq_of_any_ne (fun hany => hno ⟨halarm, hany⟩) held hheld
    · rw [if_neg hkind] at h
      cases h
      refine ⟨.identityKeys ?_, rfl⟩
      simp only [immutableKind, Bool.or_eq_true, decide_eq_true_eq, not_or] at hkind
      simp only [objectKeyLen, hkind, or_self, if_false] at hlen
      by_contra hne
      rw [if_neg hne] at hlen
      cases hlen

private theorem putOp_moves {row : OpRow} (h : p.putOp row = .ok p') :
    Moves p.base.nextDeviceSeq p.commit (.putOp row) p'.commit ∧ p'.base = p.base := by
  unfold putOp at h
  cases hkey : opKey row with
  | error e => simp [hkey] at h
  | ok key =>
    have hcolumns := opKey_eq_ok.mp hkey
    simp only [hkey] at h
    cases hheld : p.op key with
    | some held =>
      simp only [hheld] at h
      by_cases hstatement : held.statement = row.statement
      · rw [if_pos hstatement] at h
        cases h
        exact ⟨.putOpAgain hcolumns ((p.commit_ops key).trans hheld) hstatement, rfl⟩
      · rw [if_neg hstatement] at h
        cases h
    | none =>
      simp only [hheld] at h
      obtain ⟨hno, h⟩ := ite_error_eq_ok.mp h
      simp only [Bool.or_eq_true, not_or, Option.isNone_iff_eq_none, Option.not_isSome_iff_eq_none]
        at hno
      split_ifs at h with hown
      cases h
      rw [commit_insertOp]
      refine ⟨.putOp hcolumns ((p.commit_ops key).trans hheld) ?_ hno.2 ?_, rfl⟩
      · rw [commit_vaults]
        exact Option.isSome_iff_ne_none.mpr hno.1
      · have hdevice : (p.fixedAt metaDeviceId).any (· = key.deviceId.bytes) ↔
            p.commit.fixed[metaDeviceId]? = some key.deviceId.bytes := by
          rw [commit_fixed]
          cases p.fixedAt metaDeviceId with
          | none => simp
          | some id => simp
        rcases hown with ⟨hserved, hother⟩ | ⟨hunsent, hdev, hseq⟩
        · refine .inl ⟨hserved, fun hdev => ?_⟩
          rw [hdevice.mpr hdev] at hother
          cases hother
        · exact .inr ⟨hunsent, hdevice.mp hdev, hseq⟩

private theorem reissueOp_moves {row : OpRow} {staleGeneration : Option Id16}
    (h : p.reissueOp row staleGeneration = .ok p') :
    Moves p.base.nextDeviceSeq p.commit (.reissueOp row staleGeneration) p'.commit ∧
      p'.base = p.base := by
  unfold reissueOp at h
  cases hkey : opKey row with
  | error e => simp [hkey] at h
  | ok key =>
    have hcolumns := opKey_eq_ok.mp hkey
    simp only [hkey] at h
    cases hheld : p.op key with
    | none => simp [hheld] at h
    | some held =>
      simp only [hheld] at h
      obtain ⟨hno, h⟩ := ite_error_eq_ok.mp h
      cases h
      rw [commit_insertOp]
      refine ⟨.reissueOp hcolumns ((p.commit_ops key).trans hheld) ?_, rfl⟩
      simp only [Bool.or_eq_true, Bool.not_eq_true', Bool.or_eq_false_iff, decide_eq_true_eq,
        not_or, not_not] at hno
      by_cases hunsent : held.own = ownUnsent
      · exact .inl hunsent
      · refine .inr ?_
        have hstale := hno.1
        simp only [hunsent, decide_false, true_and, Bool.not_eq_false, Bool.and_eq_true,
          decide_eq_true_eq] at hstale
        exact ⟨hstale.1.1, hstale.1.2, hstale.2⟩

private theorem putSnapshot_moves {row : SnapshotRow} (h : p.putSnapshot row = .ok p') :
    Moves p.base.nextDeviceSeq p.commit (.putSnapshot row) p'.commit ∧ p'.base = p.base := by
  unfold putSnapshot at h
  cases hkey : snapshotKey row with
  | error e => simp [hkey] at h
  | ok key =>
    have hcolumns := snapshotKey_eq_ok.mp hkey
    simp only [hkey] at h
    cases hheld : p.snapshot key with
    | some held =>
      simp only [hheld] at h
      obtain ⟨hsame, h⟩ := ite_error_eq_ok.mp h
      cases h
      refine ⟨.putSnapshotAgain hcolumns ((p.commit_snapshots key).trans hheld) ?_, rfl⟩
      exact not_not.mp hsame
    | none =>
      simp only [hheld] at h
      obtain ⟨hno, h⟩ := ite_error_eq_ok.mp h
      cases h
      rw [commit_insertSnapshot]
      simp only [Bool.or_eq_true, Bool.not_eq_true', not_or, Bool.not_eq_false, decide_eq_true_eq,
        Option.not_isSome_iff_eq_none, Option.isNone_iff_eq_none] at hno
      refine ⟨.putSnapshot hcolumns ((p.commit_snapshots key).trans hheld) hno.1.1 hno.1.2 ?_, rfl⟩
      rw [commit_vaults]
      exact Option.isSome_iff_ne_none.mpr hno.2

/-- **What a check admits.** An admitted write does one of the moves on the index after the
writes before it, and the index before the changeset stays at hand. -/
theorem check_moves {w : Write} (h : p.check deviceRecord w = .ok p') :
    Moves p.base.nextDeviceSeq p.commit w p'.commit ∧ p'.base = p.base := by
  cases w with
  | cacheMeta key value => exact checkMeta_moves h
  | deviceState record =>
    simp only [check] at h
    cases hids : deviceRecord record with
    | none => simp [hids] at h
    | some ids =>
      simp only [hids] at h
      cases h
      exact ⟨.deviceState record, rfl⟩
  | pendingCommit request =>
    obtain ⟨-, h⟩ := ite_error_eq_ok.mp h
    cases h
    exact ⟨.pendingCommit request, rfl⟩
  | accountState wire stateSeq settingsSeq => exact checkState_moves h
  | putObject row => exact checkObject_moves h
  | clearAlarm alarm =>
    cases alarm
    all_goals cases h
    all_goals exact ⟨.clearAlarm _, rfl⟩
  | deviceSet certificates revocations =>
    obtain ⟨-, h⟩ := ite_error_eq_ok.mp h
    cases h
    exact ⟨.deviceSet certificates revocations, rfl⟩
  | vaultGrant grant vaultKeyId =>
    obtain ⟨hno, h⟩ := ite_error_eq_ok.mp h
    cases h
    rw [commit_insertVault]
    refine ⟨.vaultGrant (fun held hheld => ?_), rfl⟩
    rw [commit_vaults] at hheld
    rw [hheld] at hno
    simp only [Option.any_some, Bool.or_eq_true, decide_eq_true_eq, Bool.and_eq_true, not_or,
      not_lt, not_and, not_not] at hno
    exact ⟨hno.1, fun hepoch => hno.2 hepoch.symm⟩
  | vaultGeneration vaultId generation =>
    simp only [check] at h
    split_ifs at h
    cases h
    exact ⟨.vaultGeneration vaultId generation, rfl⟩
  | wraps vaultId epoch wraps =>
    simp only [check] at h
    cases hheld : p.vault vaultId with
    | none => simp [hheld] at h
    | some held =>
      simp only [hheld] at h
      obtain ⟨-, h⟩ := ite_error_eq_ok.mp h
      cases h
      exact ⟨.wraps vaultId epoch wraps, rfl⟩
  | putOp row => exact putOp_moves h
  | reissueOp row staleGeneration => exact reissueOp_moves h
  | opOwn vaultId deviceId deviceSeq own sentGeneration =>
    simp only [check] at h
    cases hheld : p.op (toLex (vaultId, toLex (deviceId, deviceSeq))) with
    | none => simp [hheld] at h
    | some held =>
      simp only [hheld] at h
      obtain ⟨⟨⟩, hown, h⟩ := except_bind_eq_ok.mp h
      cases h
      rw [commit_insertOp]
      exact ⟨.opOwn rfl ((p.commit_ops _).trans hheld) hown, rfl⟩
  | putSnapshot row => exact putSnapshot_moves h
  | snapshotOwn vaultId snapshotId own sentGeneration =>
    simp only [check] at h
    cases hheld : p.snapshot (toLex (vaultId, snapshotId)) with
    | none => simp [hheld] at h
    | some held =>
      simp only [hheld] at h
      obtain ⟨⟨⟩, hown, h⟩ := except_bind_eq_ok.mp h
      cases h
      rw [commit_insertSnapshot]
      exact ⟨.snapshotOwn rfl ((p.commit_snapshots _).trans hheld) hown, rfl⟩
  | pruneOpBody vaultId deviceId deviceSeq =>
    simp only [check] at h
    cases hheld : p.op (toLex (vaultId, toLex (deviceId, deviceSeq))) with
    | none => simp [hheld] at h
    | some held =>
      simp only [hheld] at h
      split_ifs at h with hown
      cases h
      exact ⟨.pruneOpBody ((p.commit_ops _).trans hheld) hown, rfl⟩
  | deleteSnapshot vaultId snapshotId =>
    simp only [check] at h
    cases hheld : p.snapshot (toLex (vaultId, snapshotId)) with
    | none =>
      simp only [hheld] at h
      cases h
      exact ⟨.deleteGone ((p.commit_snapshots _).trans hheld), rfl⟩
    | some held =>
      simp only [hheld] at h
      split_ifs at h with hown
      cases h
      rw [commit_eraseSnapshot]
      exact ⟨.deleteSnapshot rfl ((p.commit_snapshots _).trans hheld) hown, rfl⟩

end Pending

end RizzyVault.Client.Store
