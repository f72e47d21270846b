import RizzyVault.Core.Envelope
import RizzyVault.Vault.Store

/-!
# Uploads and healing requests

An upload handles its records in request order and answers each; after the first rejected record
nothing more is stored and the rest are not processed. A healing request is stored whole or refused
whole: its wraps, then its operations, whose bodies may be missing, then its snapshots against the
heads after these operations, and last the check that every header stored without a body has a
cover. A request that carries a self-grant repairs a self-grant that lags instead.

## Main definitions

* `UploadRequest`, `UploadResult`, `HealingRequest`, `VaultSelfGrant`, `Environment`.
* `Served`: an answer, a refusal or an error.
* `uploadOp`, `uploadSnapshot`, `upload`, `healIn`, `healSelfGrant`, `heal`.

## References

* `crates/rizzy-domain-vault/src/upload.rs`, `crates/rizzy-domain-vault/src/keys.rs`.
-/

open RizzyVault.Core RizzyVault.Sync

namespace RizzyVault.Vault

open Std (ExtTreeMap ExtTreeSet)

/-! ### Requests -/

structure UploadRequest where
  vaultId : VaultId
  records : List Record

/-- The answer to one uploaded record. -/
inductive UploadResult
  | stored
  | alreadyStored
  | rejected (error : ErrorCode)
  | notProcessed
  deriving DecidableEq

/-- A vault self-grant with its locator. -/
structure VaultSelfGrant where
  vaultId : VaultId
  accountKeyEpoch : ℕ
  vaultKeyEpoch : ℕ
  envelope : Bytes
  deriving DecidableEq

structure HealingRequest where
  vaultId : VaultId
  itemKeyWraps : List WrapRow
  records : List Record
  selfGrant : Option VaultSelfGrant

/-- The account key the held account state names. -/
structure AccountKeyState where
  accountKeyEpoch : ℕ
  accountKeyId : Bytes

/-- What the directory and the clock say when a request is served. -/
structure Environment where
  authors : Authors
  accountKey : Option AccountKeyState
  nowMs : ℕ

/-- An answer, a refusal by a rule, or an error. -/
abbrev Served := ExceptT Refusal (Except VaultError)

namespace Served

variable {α ε : Type}

def refuse (refusal : Refusal) : Served α := ExceptT.mk (.ok (.error refusal))

def ofStore (x : Except VaultError α) : Served α :=
  ExceptT.mk (match x with
    | .ok a => .ok (.ok a)
    | .error e => .error e)

/-- A failed check refuses with `refusal`. -/
def orRefuse (x : Except ε α) (refusal : Refusal) : Served α :=
  match x with
  | .ok a => pure a
  | .error _ => refuse refusal

/-- A failed check refuses with its own reason. -/
def ofCheck (x : Except Refusal α) : Served α := ExceptT.mk (.ok x)

/-- Refuses unless `ok` holds. -/
def require (ok : Bool) (refusal : Refusal) : Served Unit :=
  if ok then pure () else refuse refusal

end Served

/-- Opens the store session of the vault for `accountId`. -/
def openSession (env : Environment) (accountId : AccountId) (vaultId : VaultId)
    (rows : VaultRows) : Except VaultError Tx :=
  if rows.accountId = accountId then
    .ok ⟨rows, vaultId, ⟨rows.accountId, rows.vaultKeyEpoch, rows.nextStoreSeq⟩, rows.heads,
      env.authors, env.nowMs⟩
  else .error .notFound

variable (prim : Primitives)

/-! ### Upload -/

/-- The checks of one operation record, in order: none if it is already stored, else the verified
operation to store. -/
def admitOp (tx : Tx) (record : OpRecord) (bodyRequired : Bool) (rule : WrapRule)
    (checkEpoch : Bool) : Served (Option VerifiedOp) := do
  let op ← Served.orRefuse
    (verifyOp prim record tx.session.vaultId tx.session.authors bodyRequired rule) .invalid
  match existingOp tx op with
  | .same => return none
  | .different => Served.refuse .conflict
  | .new =>
    Served.require (opAuthorAllows op) .invalid
    Served.ofCheck (chainCheck tx.session op)
    Served.require (!checkEpoch || tx.session.vault.vaultKeyEpoch ≤ op.header.vaultKeyEpoch ||
      opStaleExempt op) .stale
    return some op

/-- The checks of one snapshot record, in order. -/
def admitSnapshot (tx : Tx) (record : SnapshotRecord) (rule : WrapRule) (checkEpoch : Bool) :
    Served (Option VerifiedSnapshot) := do
  let snapshot ← Served.orRefuse
    (verifySnapshot prim record tx.session.vaultId tx.session.authors rule) .invalid
  match existingSnapshot prim tx snapshot with
  | .same => return none
  | .different => Served.refuse .conflict
  | .new =>
    Served.require (snapshotAllowed tx.session snapshot) .invalid
    Served.require (!checkEpoch ||
      tx.session.vault.vaultKeyEpoch ≤ snapshot.header.vaultKeyEpoch) .stale
    return some snapshot

/-- One operation of an upload: its body and its signed wrap must be carried. -/
def uploadOp (tx : Tx) (record : OpRecord) : Served (UploadResult × Tx) := do
  match ← admitOp prim tx record true .required true with
  | none => return (.alreadyStored, tx)
  | some op => return (.stored, ← Served.ofStore (storeOp tx op))

/-- One snapshot of an upload. -/
def uploadSnapshot (tx : Tx) (record : SnapshotRecord) : Served (UploadResult × Tx) := do
  match ← admitSnapshot prim tx record .required true with
  | none => return (.alreadyStored, tx)
  | some snapshot => return (.stored, ← Served.ofStore (storeSnapshot tx snapshot))

def uploadRecord (tx : Tx) : Record → Served (UploadResult × Tx)
  | .op record => uploadOp prim tx record
  | .snapshot record => uploadSnapshot prim tx record

/-- The records of an upload in order; after a rejected one the rest are not processed. -/
def uploadRecords : List Record → Tx → Except VaultError (List UploadResult × Tx)
  | [], tx => .ok ([], tx)
  | record :: rest, tx => do
    match ← (uploadRecord prim tx record).run with
    | .ok (result, tx) =>
      let (results, tx) ← uploadRecords rest tx
      return (result :: results, tx)
    | .error refusal =>
      return (.rejected refusal.code :: rest.map fun _ => .notProcessed, tx)

/-- Stores an upload, and answers each record. -/
def upload (env : Environment) (accountId : AccountId) (request : UploadRequest)
    (rows : VaultRows) : Except VaultError (List UploadResult × VaultRows) := do
  let tx ← openSession env accountId request.vaultId rows
  let (results, tx) ← uploadRecords prim request.records tx
  return (results, tx.rows)

/-! ### Healing -/

/-- The item-key wraps of a healing request; a wrap below the current epoch is left out. -/
def healWraps (tx : Tx) (wraps : List WrapRow) : Tx :=
  wraps.foldl (fun tx wrap =>
    if wrap.vaultKeyEpoch < tx.session.vault.vaultKeyEpoch then tx
    else { tx with rows := tx.rows.putWrap wrap }) tx

/-- The operations of a healing request in order, with the dots stored without a body per item. -/
def healOps : List Record → Tx → ExtTreeMap ItemId (List Dot) →
    Served (Tx × ExtTreeMap ItemId (List Dot))
  | [], tx, bodiless => return (tx, bodiless)
  | .snapshot _ :: rest, tx, bodiless => healOps rest tx bodiless
  | .op record :: rest, tx, bodiless => do
    match ← admitOp prim tx record false .optional false with
    | none => healOps rest tx bodiless
    | some op =>
      let tx ← Served.ofStore (storeOp tx op)
      let bodiless := if op.body.isNone then
        bodiless.insert op.header.itemId (bodiless.getD op.header.itemId [] ++ [op.header.dot])
        else bodiless
      healOps rest tx bodiless

/-- The snapshots of a healing request in order. -/
def healSnapshots : List Record → Tx → Served Tx
  | [], tx => return tx
  | .op _ :: rest, tx => healSnapshots rest tx
  | .snapshot record :: rest, tx => do
    match ← admitSnapshot prim tx record .optional false with
    | none => healSnapshots rest tx
    | some snapshot => healSnapshots rest (← Served.ofStore (storeSnapshot tx snapshot))

/-- Whether every header stored without a body has a cover. -/
def bodilessCovered (rows : VaultRows) (bodiless : ExtTreeMap ItemId (List Dot)) : Bool :=
  bodiless.toList.all fun e =>
    match checkHealingRequest (rows.itemSnapshots e.1) e.2 with
    | .ok () => true
    | .error _ => false

/-- The steps of a healing request in its transaction. -/
def healIn (tx : Tx) (request : HealingRequest) : Served Tx := do
  let tx := healWraps tx request.itemKeyWraps
  let (tx, bodiless) ← healOps prim request.records tx ∅
  let tx ← healSnapshots prim request.records tx
  Served.require (bodilessCovered tx.rows bodiless) .invalid
  return tx

/-! ### Repairing a self-grant -/

def maxItemKeyWraps : ℕ := 65536

/-- The length of a wrap envelope. -/
def itemKeyWrapEnvelopeLen : ℕ := 127

/-- The length of a vault key. -/
def vaultKeyLen : ℕ := 32

/-- The wraps of a repair, one after another: the rows to overwrite, the key they share and the
locators seen. -/
def checkHealWrap (rows : List WrapRow) (newEpoch : ℕ)
    (acc : Option Bytes × List Locator × List WrapRow) (wrap : WrapRow) :
    Option (Option Bytes × List Locator × List WrapRow) :=
  let (key, seen, replaced) := acc
  if wrap.vaultKeyEpoch ≠ newEpoch ∨ wrap.envelope.length ≠ itemKeyWrapEnvelopeLen then none
  else
    match symmetricKeyId wrap.envelope with
    | none => none
    | some wrapKey =>
      if key.getD wrapKey ≠ wrapKey ∨ wrap.locator ∈ seen then none
      else
        let replaced := if rows.any fun r => r.locator = wrap.locator then
          replaced ++ [{ wrap with vaultKeyEpoch := newEpoch }] else replaced
        some (some (key.getD wrapKey), seen ++ [wrap.locator], replaced)

/-- The wraps of a repair against the stored rows: the rows to overwrite. -/
def checkHealWraps (rows wraps : List WrapRow) (newEpoch : ℕ) : Option (List WrapRow) :=
  match wraps.foldlM (checkHealWrap rows newEpoch) (none, [], []) with
  | none => none
  | some (none, _, replaced) => some replaced
  | some (some key, _, replaced) =>
    let fits := rows.all fun row =>
      if row.vaultKeyEpoch < newEpoch then symmetricKeyId row.envelope ≠ some key
      else symmetricKeyId row.envelope = some key
    if fits then some replaced else none

/-- Overwrites each row; every wrap changes exactly one. -/
def overwriteWraps (rows : VaultRows) (wraps : List WrapRow) (what : String) :
    Except VaultError VaultRows :=
  wraps.foldlM (fun rows wrap =>
    let (rows, changed) := rows.overwriteWrap wrap
    if changed ≠ 1 then .error (.corrupt what) else .ok rows) rows

/-- Whether the session is one of an active durable device. -/
def mayRepair (session : Session) (healer : Option DeviceId) : Bool :=
  match healer.bind session.authors.get with
  | some a => a.deviceKind.isDurable ∧ a.status = .active ∧ ¬ a.expiredAt session.nowMs
  | none => false

/-- The writes of a repair. -/
def repairWrites (rows : VaultRows) (grant : VaultSelfGrant) (stored : List WrapRow)
    (replaced : List WrapRow) : Except VaultError VaultRows := do
  let hasGrant := rows.selfGrant.isSome
  let rows := rows.setVaultEpoch grant.vaultKeyEpoch
  let rows ← rows.writeSelfGrant
    ⟨grant.accountKeyEpoch, grant.vaultKeyEpoch, grant.envelope⟩ hasGrant
  let rows ← overwriteWraps rows replaced
    "a healed wrap did not overwrite exactly one wrap-set row"
  let kept := replaced.map WrapRow.locator
  let stale := stored.filter fun r => r.vaultKeyEpoch < grant.vaultKeyEpoch ∧ r.locator ∉ kept
  let rows := stale.foldl (fun rows r => (rows.deleteWrap r.locator).1) rows
  return rows.clearRecordWrapsBelow grant.vaultKeyEpoch

/-- The repair of a self-grant that lags the held account state. -/
def healSelfGrant (tx : Tx) (healer : Option DeviceId) (key : Option AccountKeyState)
    (grant : VaultSelfGrant) (request : HealingRequest) : Served Tx :=
  match key with
  | none => Served.refuse .invalid
  | some key => do
    Served.require (request.records.isEmpty ∧ grant.vaultId = tx.session.vaultId ∧
      grant.accountKeyEpoch = key.accountKeyEpoch ∧
      symmetricUnder grant.envelope vaultKeyLen key.accountKeyId) .invalid
    let stored := tx.rows.selfGrant
    let lags : Bool := stored.all fun s => s.accountKeyEpoch < key.accountKeyEpoch
    if ¬ lags then
      Served.require (stored.any fun s => s.accountKeyEpoch = grant.accountKeyEpoch ∧
        s.vaultKeyEpoch = grant.vaultKeyEpoch) .invalid
      return tx
    else
      Served.require (mayRepair tx.session healer) .unauthorized
      let newEpoch := grant.vaultKeyEpoch
      Served.require (tx.session.vault.vaultKeyEpoch < newEpoch) .invalid
      Served.require (tx.rows.maxRecordEpoch.all fun e => e ≤ newEpoch) .invalid
      let rows := tx.rows.wrapsAfter none (maxItemKeyWraps + 1)
      Served.require (rows.length ≤ maxItemKeyWraps ∧
        rows.all fun r => r.vaultKeyEpoch ≤ newEpoch) .invalid
      match checkHealWraps rows request.itemKeyWraps newEpoch with
      | none => Served.refuse .invalid
      | some replaced =>
        let rows ← Served.ofStore (repairWrites tx.rows grant rows replaced)
        return { tx with rows }

/-- Stores a healing request whole, or refuses it whole. -/
def heal (env : Environment) (accountId : AccountId) (healer : Option DeviceId)
    (request : HealingRequest) (rows : VaultRows) :
    Except VaultError (Except Refusal VaultRows) := do
  let tx ← openSession env accountId request.vaultId rows
  let outcome ← match request.selfGrant with
    | some grant => (healSelfGrant tx healer env.accountKey grant request).run
    | none => (healIn prim tx request).run
  return outcome.map Tx.rows

end RizzyVault.Vault
