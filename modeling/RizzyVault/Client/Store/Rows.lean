import RizzyVault.Core.FieldKey
import RizzyVault.Lib.Grammar
import RizzyVault.Lib.Rows

/-!
# The rows of a cache file

The cache schema's row model, the writes of a changeset and the executor that says what a write
means. An id column is 16 bytes and a number column is its 8-byte big-endian blob, as bytes: what
a column holds is checked where it is read.

## Main definitions

* `Id16`, `U64`: a 16-byte id and a 64-bit number, as the code reads them from a column.
* `ObjectRow`, `VaultRow`, `WrapRow`, `OpRow`, `SnapshotRow`, `CacheRows`: the tables.
* `Write`, `Changeset`: the writes of one step, in order.
* `CacheRows.applyOne`, `CacheRows.apply`: the reference executor.

## Main results

* `id16_eq_ok`, `u64Be_eq_ok`: a column is read exactly when it spells a value.

## References

* `crates/rizzy-client/src/store/rows.rs`, `crates/rizzy-client/src/store/floors.rs`,
  `crates/rizzy-proto/src/objects.rs`.
-/

open RizzyVault.Core RizzyVault.Lib

namespace RizzyVault.Client.Store

open Std (ExtTreeMap)

/-- The errors of the cache store that the rows and the floors report. -/
inductive ClientError
  | cacheCorrupt
  | internal
  deriving DecidableEq

/-! ### Columns -/

/-- A 16-byte id. -/
structure Id16 where
  bytes : Bytes
  length : bytes.length = 16
  deriving DecidableEq

theorem Id16.bytes_injective : Function.Injective Id16.bytes := by
  rintro ⟨a, ha⟩ ⟨b, hb⟩ h
  cases h
  rfl

instance : LinearOrder Id16 := LinearOrder.lift' Id16.bytes Id16.bytes_injective

/-- A 64-bit number. -/
abbrev U64 := Fin (2 ^ 64)

/-- The 8-byte big-endian blob of a number. -/
def U64.toBe (n : U64) : Bytes := beBytes 8 n

/-- A row's id column. -/
def id16 (bytes : Bytes) : Except ClientError Id16 :=
  if h : bytes.length = 16 then .ok ⟨bytes, h⟩ else .error .cacheCorrupt

/-- A row's number column. -/
def u64Be (bytes : Bytes) : Except ClientError U64 :=
  if h : bytes.length = 8 then
    .ok ⟨ofBe bytes, by have := ofBe_lt bytes; rw [h] at this; exact this⟩
  else .error .cacheCorrupt

theorem id16_eq_ok {bytes : Bytes} {id : Id16} : id16 bytes = .ok id ↔ bytes = id.bytes := by
  constructor
  · intro h
    by_cases hlen : bytes.length = 16
    · rw [id16, dif_pos hlen] at h
      cases h
      rfl
    · rw [id16, dif_neg hlen] at h
      cases h
  · rintro rfl
    rw [id16, dif_pos id.length]

theorem U64.length_toBe (n : U64) : n.toBe.length = 8 := length_beBytes 8 n

theorem U64.ofBe_toBe (n : U64) : ofBe n.toBe = n := ofBe_beBytes n.isLt

theorem U64.toBe_injective : Function.Injective U64.toBe := by
  intro a b h
  have hval := congrArg ofBe h
  rw [U64.ofBe_toBe, U64.ofBe_toBe] at hval
  exact Fin.ext hval

theorem u64Be_eq_ok {bytes : Bytes} {n : U64} : u64Be bytes = .ok n ↔ bytes = n.toBe := by
  constructor
  · intro h
    by_cases hlen : bytes.length = 8
    · rw [u64Be, dif_pos hlen] at h
      cases h
      have hback := beBytes_ofBe bytes
      rw [hlen] at hback
      exact hback.symm
    · rw [u64Be, dif_neg hlen] at h
      cases h
  · rintro rfl
    rw [u64Be, dif_pos n.length_toBe]
    exact congrArg Except.ok (Fin.ext n.ofBe_toBe)

/-! ### Keys and kinds -/

/-- The keys of `cache_meta`. -/
def metaFormat : String := "format"
def metaServerOrigin : String := "server_origin"
def metaAccountId : String := "account_id"
def metaDeviceId : String := "device_id"
def metaNextDeviceSeq : String := "next_device_seq"
def metaHlc : String := "hlc"

/-- The values of `account_objects.kind`. -/
def kindBundle : ℤ := 1
def kindAccountState : ℤ := 2
def kindSettings : ℤ := 3
def kindCertificate : ℤ := 4
def kindRevocation : ℤ := 5
def kindIdentityKeys : ℤ := 6
def kindAlarm : ℤ := 7

/-- The values of the `own` column: served, own and never sent, own and acknowledged, own, sent
and unanswered. -/
def ownServed : ℤ := 0
def ownUnsent : ℤ := 1
def ownAcknowledged : ℤ := 2
def ownSent : ℤ := 3

/-- The cache format of this build. -/
def cacheFormat : ℕ := 1

/-- The most bytes of an upload's body. -/
def maxUploadBodyLen : ℕ := 256 * 1024 * 1024

/-- An alarm that keeps the device read-only. -/
inductive Alarm
  | rollback
  | fork
  | unconfirmedIdentityChange
  | deviceStateOutdated
  deriving DecidableEq

/-- The alarm's key byte. -/
def Alarm.toU8 : Alarm → Byte
  | rollback => 1
  | fork => 2
  | unconfirmedIdentityChange => 3
  | deviceStateOutdated => 4

/-! ### Rows -/

/-- One row of `account_objects`. -/
structure ObjectRow where
  kind : ℤ
  key : Bytes
  bytes : Bytes
  deriving DecidableEq

def ObjectRow.primaryKey (row : ObjectRow) : ℤ × Bytes := (row.kind, row.key)

/-- A vault self-grant with its locator. -/
structure VaultSelfGrant where
  vaultId : Id16
  accountKeyEpoch : ℕ
  vaultKeyEpoch : ℕ
  envelope : Bytes
  deriving DecidableEq

/-- One row of `vaults`. -/
structure VaultRow where
  vaultId : Bytes
  selfGrant : VaultSelfGrant
  wrapsAfterEpoch : Option ℤ
  restoreGeneration : Option Bytes
  deriving DecidableEq

/-- One row of `wraps`. -/
structure WrapRow where
  vaultId : Bytes
  itemId : Bytes
  itemKeyId : Bytes
  vaultKeyEpoch : ℤ
  envelope : Bytes
  deriving DecidableEq

/-- One row of `ops`. -/
structure OpRow where
  vaultId : Bytes
  deviceId : Bytes
  deviceSeq : Bytes
  itemId : Bytes
  statement : Bytes
  body : Option Bytes
  keyWrap : Option Bytes
  own : ℤ
  sentGeneration : Option Bytes
  deriving DecidableEq

def OpRow.primaryKey (row : OpRow) : Bytes × Bytes × Bytes :=
  (row.vaultId, row.deviceId, row.deviceSeq)

/-- One row of `snapshots`. -/
structure SnapshotRow where
  vaultId : Bytes
  snapshotId : Bytes
  itemId : Bytes
  statement : Bytes
  envelope : Bytes
  keyWrap : Option Bytes
  own : ℤ
  sentGeneration : Option Bytes
  deriving DecidableEq

def SnapshotRow.primaryKey (row : SnapshotRow) : Bytes × Bytes := (row.vaultId, row.snapshotId)

/-- Everything a cache file holds. -/
structure CacheRows where
  cacheMeta : ExtTreeMap String Bytes
  deviceState : Option Bytes
  pendingCommit : Option Bytes
  objects : List ObjectRow
  vaults : List VaultRow
  wraps : List WrapRow
  ops : List OpRow
  snapshots : List SnapshotRow
  deriving DecidableEq

/-- The rows of a new file. -/
def CacheRows.empty : CacheRows := ⟨∅, none, none, [], [], [], [], []⟩

/-! ### Writes -/

/-- One write of a changeset. -/
inductive Write
  | cacheMeta (key : String) (value : Bytes)
  | deviceState (record : Bytes)
  | pendingCommit (request : Option Bytes)
  | accountState (wire : Bytes) (stateSeq settingsSeq : U64)
  | putObject (row : ObjectRow)
  | clearAlarm (alarm : Alarm)
  | deviceSet (certificates revocations : List (Id16 × Bytes))
  | vaultGrant (grant : VaultSelfGrant) (vaultKeyId : Id16)
  | vaultGeneration (vaultId generation : Id16)
  | wraps (vaultId : Id16) (epoch : ℕ) (wraps : List WrapRow)
  | putOp (row : OpRow)
  | reissueOp (row : OpRow) (staleGeneration : Option Id16)
  | opOwn (vaultId deviceId : Id16) (deviceSeq : U64) (own : ℤ) (sentGeneration : Option Id16)
  | putSnapshot (row : SnapshotRow)
  | snapshotOwn (vaultId snapshotId : Id16) (own : ℤ) (sentGeneration : Option Id16)
  | pruneOpBody (vaultId deviceId : Id16) (deviceSeq : U64)
  | deleteSnapshot (vaultId snapshotId : Id16)
  deriving DecidableEq

/-- The writes of one step, run as one transaction. -/
abbrev Changeset := List Write

/-! ### The executor -/

/-- Inserts or replaces one `account_objects` row. -/
def putObject (objects : List ObjectRow) (row : ObjectRow) : List ObjectRow :=
  upsert (fun o => o.primaryKey = row.primaryKey) (fun o => { o with bytes := row.bytes }) row
    objects

/-- What a repeated op fills in a held row of the same statement. -/
def OpRow.fill (held row : OpRow) : OpRow :=
  if held.statement = row.statement then
    { held with body := held.body.or row.body, keyWrap := held.keyWrap.or row.keyWrap }
  else held

/-- What a re-issue leaves of a row. -/
def OpRow.reissued (held row : OpRow) : OpRow :=
  { held with
    statement := row.statement
    body := row.body
    keyWrap := row.keyWrap
    own := ownUnsent
    sentGeneration := none }

/-- Moves an op row along 1 → 3 → 2. -/
def OpRow.moved (held : OpRow) (own : ℤ) (sentGeneration : Option Id16) : OpRow :=
  { held with
    own := own
    sentGeneration := held.sentGeneration.or (sentGeneration.map Id16.bytes) }

/-- Moves a snapshot row along 1 → 3 → 2. -/
def SnapshotRow.moved (held : SnapshotRow) (own : ℤ) (sentGeneration : Option Id16) : SnapshotRow :=
  { held with
    own := own
    sentGeneration := held.sentGeneration.or (sentGeneration.map Id16.bytes) }

/-- The key columns of an op. -/
def opColumns (vaultId deviceId : Id16) (deviceSeq : U64) : Bytes × Bytes × Bytes :=
  (vaultId.bytes, deviceId.bytes, deviceSeq.toBe)

/-- The row of a vault whose first grant arrives. -/
def VaultRow.new (grant : VaultSelfGrant) : VaultRow := ⟨grant.vaultId.bytes, grant, none, none⟩

/-- The wrap rows after a served wrap set of a vault key epoch. -/
def storeWraps (vaultId : Id16) (epoch : ℕ) (served held : List WrapRow) : List WrapRow :=
  (held.filter fun w =>
    w.vaultId ≠ vaultId.bytes ∨
      (w.vaultKeyEpoch ≥ (epoch : ℤ) ∧
        ¬ served.any fun n => n.itemId = w.itemId ∧ n.itemKeyId = w.itemKeyId)) ++ served

/-- Applies one write. -/
def CacheRows.applyOne (rows : CacheRows) : Write → CacheRows
  | .cacheMeta key value => { rows with cacheMeta := rows.cacheMeta.insert key value }
  | .deviceState record => { rows with deviceState := some record }
  | .pendingCommit request => { rows with pendingCommit := request }
  | .accountState wire _ _ =>
    { rows with objects := putObject rows.objects ⟨kindAccountState, [], wire⟩ }
  | .putObject row => { rows with objects := putObject rows.objects row }
  | .clearAlarm alarm =>
    { rows with
      objects := rows.objects.filter fun o => o.kind ≠ kindAlarm ∨ o.key ≠ [alarm.toU8] }
  | .deviceSet certificates revocations =>
    let kept := rows.objects.filter fun o => o.kind ≠ kindCertificate ∧ o.kind ≠ kindRevocation
    let put (kind : ℤ) (objects : List ObjectRow) (entry : Id16 × Bytes) : List ObjectRow :=
      putObject objects ⟨kind, entry.1.bytes, entry.2⟩
    { rows with
      objects := revocations.foldl (put kindRevocation)
        (certificates.foldl (put kindCertificate) kept) }
  | .vaultGrant grant _ =>
    { rows with
      vaults := upsert (fun v => v.vaultId = grant.vaultId.bytes)
        (fun v => { v with selfGrant := grant }) (.new grant) rows.vaults }
  | .vaultGeneration vaultId generation =>
    { rows with
      vaults := modifyFirst (fun v => v.vaultId = vaultId.bytes)
        (fun v => { v with restoreGeneration := some generation.bytes }) rows.vaults }
  | .wraps vaultId epoch wraps =>
    { rows with wraps := storeWraps vaultId epoch wraps rows.wraps }
  | .putOp row =>
    { rows with
      ops := upsert (fun o => o.primaryKey = row.primaryKey) (fun o => o.fill row) row rows.ops }
  | .reissueOp row _ =>
    { rows with
      ops := modifyFirst (fun o => o.primaryKey = row.primaryKey) (fun o => o.reissued row)
        rows.ops }
  | .opOwn vaultId deviceId deviceSeq own sentGeneration =>
    { rows with
      ops := modifyFirst (fun o => o.primaryKey = opColumns vaultId deviceId deviceSeq)
        (fun o => o.moved own sentGeneration) rows.ops }
  | .pruneOpBody vaultId deviceId deviceSeq =>
    { rows with
      ops := modifyFirst
        (fun o => o.primaryKey = opColumns vaultId deviceId deviceSeq && o.own = ownServed)
        (fun o => { o with body := none }) rows.ops }
  | .putSnapshot row =>
    if rows.snapshots.any fun s => s.primaryKey = row.primaryKey then rows
    else { rows with snapshots := rows.snapshots ++ [row] }
  | .snapshotOwn vaultId snapshotId own sentGeneration =>
    { rows with
      snapshots := modifyFirst (fun s => s.primaryKey = (vaultId.bytes, snapshotId.bytes))
        (fun s => s.moved own sentGeneration) rows.snapshots }
  | .deleteSnapshot vaultId snapshotId =>
    { rows with
      snapshots := rows.snapshots.filter fun s =>
        s.primaryKey ≠ (vaultId.bytes, snapshotId.bytes) }

/-- Applies the writes in order. -/
def CacheRows.apply (rows : CacheRows) (changeset : Changeset) : CacheRows :=
  changeset.foldl CacheRows.applyOne rows

end RizzyVault.Client.Store
