import RizzyVault.Vault.Upload

/-!
# The vault half of a key rotation

A rotation names every vault of the account: its new self-grant, the re-wrapped rows of its wrap
set, the rows it drops, and the cursor the rotating device had. Every vault is checked before any
is written.

## Main definitions

* `VaultRotation`, `VaultPlan`.
* `checkWraps`, `checkCutoff`, `checkVault`, `writeVault`, `applyRotation`.

## References

* `crates/rizzy-domain-vault/src/rotation.rs`.
-/

open RizzyVault.Core RizzyVault.Sync

namespace RizzyVault.Vault

open Std (ExtTreeMap)

/-- The vaults of the server. -/
abbrev Database := ExtTreeMap VaultId VaultRows

/-- The vault half of a rotation for one vault. -/
structure VaultRotation where
  selfGrant : VaultSelfGrant
  cursor : VersionVector
  itemKeyWraps : List WrapRow
  dropped : List Locator

/-- The checked writes of one vault. -/
structure VaultPlan where
  hasGrant : Bool
  grant : SelfGrantRow
  rewrapped : List WrapRow
  dropped : List Locator

/-- The re-wraps of a rotation, one after another: the key they share, their locators and the rows
to overwrite. -/
def checkRewrap (stored : List WrapRow) (newEpoch : ℕ)
    (acc : Option Bytes × List Locator × List WrapRow) (wrap : WrapRow) :
    Except VaultError (Option Bytes × List Locator × List WrapRow) :=
  let (key, rewrappedAt, rewrapped) := acc
  if wrap.vaultKeyEpoch ≠ newEpoch ∨ wrap.envelope.length ≠ itemKeyWrapEnvelopeLen then
    .error .invalid
  else
    match symmetricKeyId wrap.envelope with
    | none => .error .invalid
    | some keyId =>
      if key.getD keyId ≠ keyId ∨
          (stored.any fun row => (parseEnvelope row.envelope).map EnvelopeRef.keyId = some keyId) then
        .error .invalid
      else if (¬ stored.any fun row => row.locator = wrap.locator) ∨ wrap.locator ∈ rewrappedAt then
        .error .invalid
      else
        .ok (some (key.getD keyId), rewrappedAt ++ [wrap.locator],
          rewrapped ++ [{ wrap with vaultKeyEpoch := newEpoch }])

/-- The dropped locators, one after another. -/
def checkDropped (stored : List WrapRow) (rewrappedAt : List Locator) (droppedAt : List Locator)
    (at_ : Locator) : Except VaultError (List Locator) :=
  if (¬ stored.any fun row => row.locator = at_) ∨ at_ ∈ rewrappedAt ∨ at_ ∈ droppedAt then
    .error .invalid
  else .ok (droppedAt ++ [at_])

/-- The wraps of a rotation against the stored rows: the rows to overwrite and to delete. A stored
row in neither list is a conflict. -/
def checkWraps (stored : List WrapRow) (rotation : VaultRotation) (newEpoch : ℕ) :
    Except VaultError (List WrapRow × List Locator) := do
  if maxItemKeyWraps < stored.length then throw .invalid
  let (_, rewrappedAt, rewrapped) ←
    rotation.itemKeyWraps.foldlM (checkRewrap stored newEpoch) (none, [], [])
  let droppedAt ← rotation.dropped.foldlM (checkDropped stored rewrappedAt) []
  if stored.any fun row => row.locator ∉ rewrappedAt ∧ row.locator ∉ droppedAt then
    throw .stateConflict
  return (rewrapped, droppedAt.mergeSort)

/-- The cursor equals the heads, and every retained snapshot's clamped vector is at most it. -/
def checkCutoff (rows : VaultRows) (rotation : VaultRotation) : Except VaultError Unit :=
  let cursor := rotation.cursor
  let exact := (rows.heads.dots.all fun h => cursor.get h.deviceId = h.seq) &&
    cursor.dots.all fun e => rows.heads.get e.deviceId = e.seq
  if ¬ exact then .error .stateConflict
  else if rows.clampedVvs.any fun clamped =>
      clamped.dots.any fun dot => cursor.get dot.deviceId < dot.seq then .error .stateConflict
  else .ok ()

/-- The checks of one vault, and the writes they allow. -/
def checkVault (rows : VaultRows) (newAccountKeyEpoch : ℕ) (newAccountKeyId : Bytes)
    (rotation : VaultRotation) : Except VaultError VaultPlan := do
  let grant := rotation.selfGrant
  let newEpoch := grant.vaultKeyEpoch
  if grant.accountKeyEpoch ≠ newAccountKeyEpoch ∨ newEpoch ≤ rows.vaultKeyEpoch then throw .invalid
  if symmetricKeyId grant.envelope ≠ some newAccountKeyId then throw .invalid
  let stored := rows.wrapsAfter none (maxItemKeyWraps + 1)
  let (rewrapped, dropped) ← checkWraps stored rotation newEpoch
  checkCutoff rows rotation
  return ⟨rows.selfGrant.isSome, ⟨grant.accountKeyEpoch, newEpoch, grant.envelope⟩, rewrapped,
    dropped⟩

/-- Deletes each row; every locator deletes exactly one. -/
def deleteWraps (rows : VaultRows) (dropped : List Locator) : Except VaultError VaultRows :=
  dropped.foldlM (fun rows at_ =>
    let (rows, deleted) := rows.deleteWrap at_
    if deleted ≠ 1 then
      .error (.corrupt "a dropped row did not delete exactly one wrap-set row")
    else .ok rows) rows

/-- The writes of one checked vault. -/
def writeVault (rows : VaultRows) (plan : VaultPlan) : Except VaultError VaultRows := do
  let rows := rows.setVaultEpoch plan.grant.vaultKeyEpoch
  let rows ← rows.writeSelfGrant plan.grant plan.hasGrant
  let rows ← overwriteWraps rows plan.rewrapped
    "a re-wrap did not overwrite exactly one wrap-set row"
  let rows ← deleteWraps rows plan.dropped
  return rows.clearRecordWraps

/-- The vaults of an account, by id. -/
def listVaults (db : Database) (accountId : AccountId) : List (VaultId × VaultRows) :=
  db.toList.filter fun e => e.2.accountId = accountId

/-- The vault half of a rotation: every vault is checked, then every vault is written. -/
def applyRotation (db : Database) (accountId : AccountId) (newAccountKeyEpoch : ℕ)
    (newAccountKeyId : Bytes) (entries : List VaultRotation) : Except VaultError Database := do
  let vaults := listVaults db accountId
  if vaults.map Prod.fst ≠ entries.map (fun e => e.selfGrant.vaultId) then throw .invalid
  let plans ← (vaults.zip entries).mapM fun e => do
    return (e.1, ← checkVault e.1.2 newAccountKeyEpoch newAccountKeyId e.2)
  plans.foldlM (fun db e => do
    return db.insert e.1.1 (← writeVault e.1.2 e.2)) db

end RizzyVault.Vault
