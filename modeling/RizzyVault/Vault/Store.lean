import RizzyVault.Vault.Repo

/-!
# The store transaction

The rules shared by uploads and healing requests, on a session loaded at the start of one write
transaction: the vault row, the heads and the account's certificates. Storing an operation advances
the session's heads, so a later record of the same request sees them.

## Main definitions

* `Refusal`, `Session`, `Tx`, `Existing`.
* `sameRecord`, `existingOp`, `existingSnapshot`, `opAuthorAllows`, `opStaleExempt`, `chainCheck`,
  `snapshotAllowed`, `fillWrap`, `currentWrap`, `storeOp`, `storeSnapshot`.

## References

* `crates/rizzy-domain-vault/src/store.rs`.
-/

open RizzyVault.Core RizzyVault.Sync

namespace RizzyVault.Vault

/-- The wire codes of refusals. -/
inductive ErrorCode
  | invalidRequest
  | recordConflict
  | prevSeqMismatch
  | staleEpoch
  | unauthorized
  deriving DecidableEq

/-- Why one record is refused. -/
inductive Refusal
  | invalid
  | conflict
  | prevSeq
  | stale
  | unauthorized
  deriving DecidableEq

def Refusal.code : Refusal → ErrorCode
  | invalid => .invalidRequest
  | conflict => .recordConflict
  | prevSeq => .prevSeqMismatch
  | stale => .staleEpoch
  | unauthorized => .unauthorized

/-- The vault's row, as a transaction read it. -/
structure VaultRow where
  accountId : AccountId
  vaultKeyEpoch : ℕ
  nextStoreSeq : ℕ

/-- What one store transaction works on. -/
structure Session where
  vaultId : VaultId
  vault : VaultRow
  heads : VersionVector
  authors : Authors
  nowMs : ℕ

/-- An open write transaction: the rows as written so far, and the session. -/
structure Tx where
  rows : VaultRows
  session : Session

/-- The answer of "already stored". -/
inductive Existing
  | new
  | same
  | different
  deriving DecidableEq

/-- An attachment held on both sides agrees if it is equal; held on one side only, it is no
difference. -/
def attachmentsAgree (a b : Option Bytes) : Bool :=
  match a, b with
  | some a, some b => a = b
  | _, _ => true

/-- Whether an uploaded record is the stored one. -/
def sameRecord (stored : StoredRecord) (signed : Signed) (body wrap : Option Bytes) : Bool :=
  stored.signed = signed ∧ attachmentsAgree stored.body body ∧ attachmentsAgree stored.keyWrap wrap

/-- "Already stored" for an operation. -/
def existingOp (tx : Tx) (op : VerifiedOp) : Existing :=
  match tx.rows.getOp op.header.dot with
  | none => .new
  | some stored =>
    if sameRecord stored op.signed op.body (op.keyWrap.map CarriedWrap.envelope) then .same
    else .different

/-- "Already stored" for a snapshot. -/
def existingSnapshot (prim : Primitives) (tx : Tx) (snapshot : VerifiedSnapshot) : Existing :=
  match tx.rows.getSnapshot prim snapshot.header.snapshotId with
  | none => .new
  | some stored =>
    if sameRecord stored snapshot.signed (some snapshot.envelope)
        (snapshot.keyWrap.map CarriedWrap.envelope) then .same
    else .different

/-- The author rules for an operation. -/
def opAuthorAllows (op : VerifiedOp) : Bool :=
  let statusAllows : Bool := match op.author.status with
    | .active => true
    | .suspended => false
    | .revoked lastAcceptedDeviceSeq => op.header.dot.seq ≤ lastAcceptedDeviceSeq
  statusAllows && op.author.permitsHlc op.header.hlc

/-- A revoked device's operation up to its cut-off is exempt from the stale-epoch check. -/
def opStaleExempt (op : VerifiedOp) : Bool :=
  match op.author.status with
  | .revoked lastAcceptedDeviceSeq => op.header.dot.seq ≤ lastAcceptedDeviceSeq
  | _ => false

/-- The chain check: the operation follows the last one stored from its device. -/
def chainCheck (session : Session) (op : VerifiedOp) : Except Refusal Unit :=
  if op.header.dot.seq ≤ op.header.vaultPrevSeq then .error .invalid
  else if op.header.vaultPrevSeq ≠ session.heads.get op.header.dot.deviceId then .error .prevSeq
  else .ok ()

/-- Whether a snapshot is accepted against the session's heads. -/
def snapshotAllowed (session : Session) (snapshot : VerifiedSnapshot) : Bool :=
  if snapshot.author.status = .suspended then false
  else
    let expiry : CertificateExpiry :=
      if snapshot.author.expiredAt session.nowMs then .expired else .unexpired
    match checkSnapshot snapshot.header.author snapshot.header.covered
        ⟨session.heads, session.authors.cutoffs⟩ expiry with
    | .ok () => true
    | .error _ => false

/-- Fills the wrap-set row of a record's carried wrap, at the record's epoch. -/
def fillWrap (rows : VaultRows) (itemId : ItemId) (epoch : ℕ) (wrap : Option CarriedWrap) :
    VaultRows :=
  match wrap with
  | some w => rows.putWrap ⟨itemId, w.itemKeyId, epoch, w.envelope⟩
  | none => rows

/-- Whether a record at `epoch` may keep its carried wrap. -/
def currentWrap (session : Session) (epoch : ℕ) : Bool := session.vault.vaultKeyEpoch ≤ epoch

/-- Stores an operation that passed every check, without a wrap below the current epoch. -/
def storeOp (tx : Tx) (op : VerifiedOp) : Except VaultError Tx := do
  let op := if op.keyWrap.isSome ∧ ¬ currentWrap tx.session op.header.vaultKeyEpoch then
      { op with keyWrap := none } else op
  let rows ← tx.rows.insertOp op
  let session := { tx.session with heads := tx.session.heads.add op.header.dot }
  return ⟨fillWrap rows op.header.itemId op.header.vaultKeyEpoch op.keyWrap, session⟩

/-- Stores a snapshot that passed every check, clamped to the heads at this point and under the
next store sequence, without a wrap below the current epoch. -/
def storeSnapshot (tx : Tx) (snapshot : VerifiedSnapshot) : Except VaultError Tx := do
  let snapshot :=
    if snapshot.keyWrap.isSome ∧ ¬ currentWrap tx.session snapshot.header.vaultKeyEpoch then
      { snapshot with keyWrap := none } else snapshot
  let clamped := clamp snapshot.header.covered tx.session.heads
  let storeSeq := tx.session.vault.nextStoreSeq
  let rows ← tx.rows.insertSnapshot snapshot clamped storeSeq
  let rows := rows.advanceStoreSeq
  if 2 ^ 64 ≤ storeSeq + 1 then throw (.corrupt "vault_vaults.next_store_seq overflows")
  let session :=
    { tx.session with vault := { tx.session.vault with nextStoreSeq := storeSeq + 1 } }
  return ⟨fillWrap rows snapshot.header.itemId snapshot.header.vaultKeyEpoch snapshot.keyWrap,
    session⟩

end RizzyVault.Vault
