import RizzyVault.Vault.Intake

/-!
# The rows of a vault

The server's tables for one vault and the queries over them. A table is a map by its primary key,
so an insert at a key in use fails and a dot or a snapshot id has one row.

## Main definitions

* `OpRow`, `SnapshotRow`, `WrapRow`, `SelfGrantRow`, `VaultRows`.
* `VaultRows.heads`, `VaultRows.insertOp`, `VaultRows.insertSnapshot`, `VaultRows.putWrap`,
  `VaultRows.itemSnapshots`, `VaultRows.itemOpDots` and the other queries.

## References

* `crates/rizzy-domain-vault/src/repo.rs`, `crates/rizzy-domain-vault/queries`,
  `crates/rizzy-storage/migrations`.
-/

open RizzyVault.Core RizzyVault.Lib RizzyVault.Sync

namespace RizzyVault.Vault

open Std (ExtTreeMap)

/-- A request the vault domain could not serve. -/
inductive VaultError
  | notFound
  | invalid
  | stateConflict
  | storage
  | corrupt (what : String)
  | wrapSetTooLarge
  deriving DecidableEq

/-! ### Rows -/

/-- A stored operation. -/
structure OpRow where
  header : OpHeader
  signed : Signed
  body : Option Bytes
  keyWrap : Option Bytes
  deriving DecidableEq

/-- A stored snapshot. The hash of its envelope is not stored. -/
structure SnapshotRow where
  header : SnapshotHeader
  headerBytes : Bytes
  envelope : Bytes
  wrapHash : Bytes
  signature : Bytes
  keyWrap : Option Bytes
  clamped : VersionVector
  storeSeq : ℕ
  deriving DecidableEq

/-- The item and the id of the wrapped item key. -/
abbrev Locator := ItemId ×ₗ SymmetricKeyId

instance transOrd_locator : Std.TransOrd Locator := inferInstance

instance lawfulBEq_locator : LawfulBEq Locator := inferInstance

/-- The columns of a wrap-set row beside its locator. -/
structure WrapColumns where
  vaultKeyEpoch : ℕ
  envelope : Bytes
  deriving DecidableEq

/-- One wrap-set row. -/
structure WrapRow where
  itemId : ItemId
  itemKeyId : SymmetricKeyId
  vaultKeyEpoch : ℕ
  envelope : Bytes
  deriving DecidableEq

def WrapRow.locator (row : WrapRow) : Locator := toLex (row.itemId, row.itemKeyId)

def WrapRow.columns (row : WrapRow) : WrapColumns := ⟨row.vaultKeyEpoch, row.envelope⟩

/-- A vault self-grant row. -/
structure SelfGrantRow where
  accountKeyEpoch : ℕ
  vaultKeyEpoch : ℕ
  envelope : Bytes
  deriving DecidableEq

/-- The rows of one vault. -/
structure VaultRows where
  accountId : AccountId
  vaultKeyEpoch : ℕ
  nextStoreSeq : ℕ
  selfGrant : Option SelfGrantRow
  ops : ExtTreeMap Dot OpRow
  snapshots : ExtTreeMap SnapshotId SnapshotRow
  wraps : ExtTreeMap Locator WrapColumns

/-- A stored operation or snapshot, with the attachments still held. -/
structure StoredRecord where
  signed : Signed
  body : Option Bytes
  keyWrap : Option Bytes
  deriving DecidableEq

/-- Whether a number fits a column. -/
def fitsColumn (n : ℕ) : Bool := n < 2 ^ 63

namespace VaultRows

variable (prim : Primitives) (v : VaultRows)

/-! ### Operations -/

/-- Every head of the vault: per device the highest stored sequence number. -/
def heads : VersionVector := VersionVector.ofDots v.ops.keys

/-- The operation stored at `dot`. -/
def getOp (dot : Dot) : Option StoredRecord :=
  v.ops[dot]?.map fun row => ⟨row.signed, row.body, row.keyWrap⟩

/-- Stores a verified operation. -/
def insertOp (op : VerifiedOp) : Except VaultError VaultRows :=
  if ¬ [op.header.dot.seq, op.header.vaultPrevSeq, op.header.hlc.raw.val].all fitsColumn then
    .error .storage
  else if op.header.dot ∈ v.ops then .error .storage
  else
    let row : OpRow := ⟨op.header, op.signed, op.body, op.keyWrap.map CarriedWrap.envelope⟩
    .ok { v with ops := v.ops.insert op.header.dot row }

/-- The operations of the item with their body flags. -/
def itemOpDots (itemId : ItemId) : List OpDot :=
  (v.ops.toList.filter fun e => e.2.header.itemId = itemId).map fun e =>
    ⟨e.1, if e.2.body.isSome then .held else .absent⟩

/-- Deletes the body of the item's operation at `dot`. -/
def deleteBody (itemId : ItemId) (dot : Dot) : VaultRows :=
  { v with ops := v.ops.alter dot fun
    | some row => some (if row.header.itemId = itemId then { row with body := none } else row)
    | none => none }

/-! ### Snapshots -/

/-- A stored snapshot as a record; the hash of its envelope is computed again. -/
def storedSnapshot (row : SnapshotRow) : StoredRecord :=
  ⟨⟨row.headerBytes, prim.sha256 row.envelope, row.wrapHash, row.signature⟩, some row.envelope,
    row.keyWrap⟩

/-- The snapshot stored under `snapshotId`. -/
def getSnapshot (snapshotId : SnapshotId) : Option StoredRecord :=
  v.snapshots[snapshotId]?.map (storedSnapshot prim)

/-- Stores a verified snapshot with its clamped vector and store sequence. -/
def insertSnapshot (snapshot : VerifiedSnapshot) (clamped : VersionVector) (storeSeq : ℕ) :
    Except VaultError VaultRows :=
  if ¬ fitsColumn storeSeq then .error .storage
  else if snapshot.header.snapshotId ∈ v.snapshots then .error .storage
  else if v.snapshots.toList.any fun e => e.2.storeSeq = storeSeq then .error .storage
  else
    let row : SnapshotRow :=
      ⟨snapshot.header, snapshot.signed.header, snapshot.envelope, snapshot.signed.wrapHash,
        snapshot.signed.container, snapshot.keyWrap.map CarriedWrap.envelope, clamped, storeSeq⟩
    .ok { v with snapshots := v.snapshots.insert snapshot.header.snapshotId row }

/-- Advances the store-sequence counter by one. -/
def advanceStoreSeq : VaultRows := { v with nextStoreSeq := v.nextStoreSeq + 1 }

/-- The snapshots of the item. -/
def snapshotsOf (itemId : ItemId) : List SnapshotRow :=
  (v.snapshots.toList.map Prod.snd).filter fun row => row.header.itemId = itemId

/-- A stored snapshot as the compaction rules see it. -/
def retained (row : SnapshotRow) : RetainedSnapshot :=
  ⟨row.storeSeq, row.clamped, row.header.author⟩

/-- The item's retained snapshots, oldest first. -/
def itemSnapshots (itemId : ItemId) : List RetainedSnapshot :=
  ((v.snapshotsOf itemId).map retained).mergeSort fun a b => a.storeSeq ≤ b.storeSeq

/-- Drops the item's snapshot with `storeSeq`. -/
def deleteSnapshot (itemId : ItemId) (storeSeq : ℕ) : VaultRows :=
  { v with snapshots := v.snapshots.filter fun _ row =>
      ¬ (row.header.itemId = itemId ∧ row.storeSeq = storeSeq) }

/-- The clamped vector of every retained snapshot. -/
def clampedVvs : List VersionVector := v.snapshots.toList.map fun e => e.2.clamped

/-- The highest epoch among the stored headers. -/
def maxRecordEpoch : Option ℕ :=
  (v.ops.toList.map (fun e => e.2.header.vaultKeyEpoch) ++
    v.snapshots.toList.map fun e => e.2.header.vaultKeyEpoch).max?

/-! ### Wraps and the self-grant -/

/-- Fills a wrap-set row: inserts a missing one, replaces one at a lower epoch, keeps any other. -/
def putWrap (wrap : WrapRow) : VaultRows :=
  match v.wraps[wrap.locator]? with
  | none => { v with wraps := v.wraps.insert wrap.locator wrap.columns }
  | some stored =>
    if stored.vaultKeyEpoch < wrap.vaultKeyEpoch then
      { v with wraps := v.wraps.insert wrap.locator wrap.columns }
    else v

/-- The item key id of the row that holds exactly `envelope`. -/
def wrapByEnvelope (itemId : ItemId) (envelope : Bytes) : Option SymmetricKeyId :=
  (v.wraps.toList.find? fun e =>
    (ofLex e.1).1 = itemId ∧ e.2.envelope = envelope).map fun e => (ofLex e.1).2

/-- The rows with an epoch above `after`, all of them if there is none, at most `limit`. -/
def wrapsAfter (after : Option ℕ) (limit : ℕ) : List WrapRow :=
  ((v.wraps.toList.filter fun e => after.all fun a => a < e.2.vaultKeyEpoch).map fun e =>
    ⟨(ofLex e.1).1, (ofLex e.1).2, e.2.vaultKeyEpoch, e.2.envelope⟩).take limit

/-- Overwrites the row at the wrap's locator, and the number of rows changed. -/
def overwriteWrap (wrap : WrapRow) : VaultRows × ℕ :=
  if wrap.locator ∈ v.wraps then
    ({ v with wraps := v.wraps.insert wrap.locator wrap.columns }, 1)
  else (v, 0)

/-- Deletes the row at a locator, and the number of rows deleted. -/
def deleteWrap (at_ : Locator) : VaultRows × ℕ :=
  if at_ ∈ v.wraps then ({ v with wraps := v.wraps.erase at_ }, 1) else (v, 0)

/-- Drops the wrap carried with every operation and snapshot. -/
def clearRecordWraps : VaultRows :=
  { v with
    ops := v.ops.map fun _ row => { row with keyWrap := none }
    snapshots := v.snapshots.map fun _ row => { row with keyWrap := none } }

/-- Drops the wrap carried with every operation and snapshot below `epoch`. -/
def clearRecordWrapsBelow (epoch : ℕ) : VaultRows :=
  { v with
    ops := v.ops.map fun _ row =>
      if row.header.vaultKeyEpoch < epoch then { row with keyWrap := none } else row
    snapshots := v.snapshots.map fun _ row =>
      if row.header.vaultKeyEpoch < epoch then { row with keyWrap := none } else row }

/-- Sets the vault's current epoch. -/
def setVaultEpoch (epoch : ℕ) : VaultRows := { v with vaultKeyEpoch := epoch }

/-- Inserts the self-grant, or replaces it. -/
def writeSelfGrant (grant : SelfGrantRow) (replace : Bool) : Except VaultError VaultRows :=
  match v.selfGrant, replace with
  | none, false => .ok { v with selfGrant := some grant }
  | some _, false => .error .storage
  | some _, true => .ok { v with selfGrant := some grant }
  | none, true => .ok v

end VaultRows

end RizzyVault.Vault
