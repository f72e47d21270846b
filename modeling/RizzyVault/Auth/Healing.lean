import RizzyVault.Auth.Change

/-!
# Healing a server rollback

A restore opens a reconciliation epoch. While it is open, a device that finds the server behind its
own state publishes again: the bundle chain, then its newest state with every certificate and
revocation it holds, then the grants it holds. Outside the epoch only what the server already holds
is accepted.

## Main definitions

* `publishBundles`, `publishAccountState`, `publishGrants`: the steps of healing.
* `adoptState`: a strictly newer state replaces the held one.
* `repairLagging`: `E_id` and the settings where they lag the held state.

## References

* `crates/rizzy-domain-auth/src/healing.rs`.
-/

open RizzyVault.Core RizzyVault.Lib

namespace RizzyVault.Auth

variable {c : Crypto} {R : Type}

/-- What a call commits: the rows, with the answer. A refusal may leave rows behind. -/
abbrev Committed := Account × Except AuthError Unit

structure PublishAccountStateRequest where
  accountState : Bytes
  deviceCertificates : List Bytes
  deviceRevocations : List Bytes
  identitySecretKeys : Option IdentitySecretKeys
  accountSettings : Option AccountSettings

structure PublishGrantsRequest where
  deviceGrants : List DeviceGrant
  vaultSelfGrants : List VaultSelfGrant

/-- A healing call under the account lock: the session, the verified rows, whether the
reconciliation epoch is open, and the rows after its check. -/
structure Healing (c : Crypto) where
  session : Session
  trust : AccountTrust c
  devices : Devices c
  openedAtMs : Option ℕ
  account : Account

def beginHealing (c : Crypto) (env : Environment R) (account : Account) (session : Session) :
    Except AuthError (Healing c) := do
  let session ← account.reload session env.nowMs
  let trust ← AccountTrust.load c account
  let devices ← trust.devices account
  let (openedAtMs, account) := account.openEpoch env.config.reconciliationLimitMs env.nowMs
  return ⟨session, trust, devices, openedAtMs, account⟩

/-- A device session of a durable device stored before the epoch opened, that no stored revocation
and none of `revoking` names. -/
def isRestoredDevice (session : Session) (devices : Devices c) (revoking : List Bytes)
    (openedAtMs : ℕ) : Bool :=
  session.kind = .device ∧ session.deviceId.any fun d =>
    ((devices.cert d).any fun stored =>
      stored.cert.statement.inDeviceSet && decide (stored.storedAtMs ≤ openedAtMs)) &&
      !devices.isRevoked d && !revoking.contains d

def Account.endReconciliation (account : Account) : Account := { account with reconciliation := none }

/-! ### Bundles -/

/-- Stores bundles, oldest first. -/
def putBundles (account : Account) (bundles : List (VerifiedBundle c × Bytes)) :
    Except AuthError Account :=
  bundles.foldlM (fun account e => account.putBundle e.1.bundleSeq e.2) account

/-- Stores the bundles that extend the stored chain, during the epoch. -/
def publishBundles (c : Crypto) (env : Environment R) (account : Account) (session : Session)
    (bundles : List Bytes) : Except AuthError Account := do
  let healing ← beginHealing c env account session
  match extendChain healing.trust.chain bundles with
  | .error .fork => throw .stateFork
  | .error .invalid => throw .invalidRequest
  | .ok new =>
    if new.isEmpty then return account
    else if healing.openedAtMs = none then throw .invalidRequest
    else putBundles healing.account new

/-! ### States -/

/-- Verifies every statement of a list, no two of one device. -/
def verifyAll {α : Type} (device : α → Bytes) (verify : Bytes → Except AuthError α)
    (wires : List Bytes) : Except AuthError (List (α × Bytes)) :=
  wires.foldlM (fun out wire => do
    let statement ← verify wire
    if out.any fun e => device e.1 = device statement then throw .invalidRequest
    return out ++ [(statement, wire)]) []

/-- Certificates and revocations under a head. -/
structure Supplied (c : Crypto) where
  certs : List (VerifiedCert c × Bytes)
  revocations : List (VerifiedRevocation c × Bytes)

def verifySupplied (head : VerifiedBundle c) (accountId : Bytes) (certs revocations : List Bytes) :
    Except AuthError (Supplied c) := do
  let certs ← verifyAll (fun cert : VerifiedCert c => cert.statement.deviceId)
    (fun wire => verifyCertificate wire head accountId) certs
  let revocations ← verifyAll (fun revocation : VerifiedRevocation c => revocation.statement.deviceId)
    (fun wire => verifyRevocation wire head accountId) revocations
  return ⟨certs, revocations⟩

namespace Supplied

/-- The device-set hash of the supplied statements alone. -/
def alone (supplied : Supplied c) (accountId : Bytes) : Except AuthError Bytes :=
  deviceSet accountId (supplied.certs.map (·.1)) (supplied.revocations.map (·.1))

/-- The device-set hash of the supplied statements over the stored ones. -/
def withStored (supplied : Supplied c) (devices : Devices c) (accountId : Bytes) :
    Except AuthError Bytes :=
  devices.deviceSetWith accountId (supplied.certs.map (·.1)) (supplied.revocations.map (·.1))

def revoking (supplied : Supplied c) : List Bytes :=
  supplied.revocations.map fun e => e.1.statement.deviceId

end Supplied

/-- Whether an adopted certificate is stored: one of the device set, or one with the device keys of
the stored certificate. -/
def isAdopted (trust : AccountTrust c) (devices : Devices c) (revoking : List Bytes)
    (account : Account) (cert : VerifiedCert c) : Bool :=
  let id := cert.statement.deviceId
  (cert.statement.inDeviceSet && !revoking.contains id && !devices.isRevoked id) ||
    (trust.storedCertificate account id).any fun stored =>
      stored.statement.deviceEd25519 = cert.statement.deviceEd25519 ∧
        stored.statement.deviceX25519 = cert.statement.deviceX25519 ∧
        stored.statement.deviceKind = cert.statement.deviceKind

/-- Stores the adopted certificates, one after another. -/
def adoptCerts (trust : AccountTrust c) (devices : Devices c) (revoking : List Bytes) (nowMs : ℕ)
    (account : Account) (certs : List (VerifiedCert c × Bytes)) : Except AuthError Account :=
  certs.foldlM (fun account e =>
    if isAdopted trust devices revoking account e.1 then account.putCert e.1 e.2 nowMs
    else .ok account) account

/-- Adopts a newer state with the statements that reproduce its device set, alone and with the
stored ones. -/
def adoptState (env : Environment R) (healing : Healing c) (state : VerifiedState c)
    (req : PublishAccountStateRequest) (openedAtMs : ℕ) : Except AuthError Account := do
  let accountId := healing.trust.accountId
  let head ← healing.trust.head
  let supplied ← verifySupplied head accountId req.deviceCertificates req.deviceRevocations
  if (← supplied.alone accountId) ≠ state.statement.deviceSetHash then throw .invalidRequest
  if (← supplied.withStored healing.devices accountId) ≠ state.statement.deviceSetHash then
    throw .invalidRequest
  let account ← adoptCerts healing.trust healing.devices supplied.revoking env.nowMs
    healing.account supplied.certs
  let account ← putRevocations account supplied.revocations
  let account ← account.replaceState state.statement req.accountState env.nowMs
  if isRestoredDevice healing.session healing.devices supplied.revoking openedAtMs then
    return account.endReconciliation
  return account

/-- The length of the identity secret keys. -/
def identitySecretKeysLen : ℕ := 64

/-- The repair of `E_id` where it lags the held state. The first valid one wins. -/
def repairIdentity (account : Account) (state : AccountState) (mayRepair : Bool)
    (keys : IdentitySecretKeys) : Except AuthError Account :=
  if keys.identityEpoch ≠ state.identityEpoch ∨
      symmetricUnder keys.envelope identitySecretKeysLen state.accountKeyId = false then
    .error .invalidRequest
  else if account.identity.all fun stored =>
      !symmetricUnder stored.2 identitySecretKeysLen state.accountKeyId then
    if mayRepair then .ok { account with identity := some (state.identityEpoch, keys.envelope) }
    else .error .unauthorized
  else .ok account

/-- The repair of the settings where they lag the held state. -/
def repairSettings (c : Crypto) (account : Account) (state : AccountState) (mayRepair : Bool)
    (settings : AccountSettings) : Except AuthError Account :=
  if state.settingsSeq = 0 ∨ settings.settingsSeq ≠ state.settingsSeq ∨
      state.matchesSettings c (some settings.envelope) = false then .error .invalidRequest
  else if account.settings.all fun stored =>
      stored.1 ≠ state.settingsSeq ∨ state.matchesSettings c (some stored.2) = false then
    if mayRepair then do
      let settingsSeq ← u64Sql state.settingsSeq
      return { account with settings := some (settingsSeq, settings.envelope) }
    else .error .unauthorized
  else .ok account

/-- The repairs a request carries, over a device session of a device that may act. -/
def repairLagging (env : Environment R) (session : Session) (held : AccountTrust c)
    (devices : Devices c) (req : PublishAccountStateRequest) (account : Account) :
    Except AuthError Account := do
  let mayRepair : Bool := session.kind = .device ∧
    session.deviceId.any fun d => (devices.usableDurable d env.nowMs).isSome
  let account ← match req.identitySecretKeys with
    | none => .ok account
    | some keys => repairIdentity account held.state.statement mayRepair keys
  match req.accountSettings with
  | none => return account
  | some settings => repairSettings c account held.state.statement mayRepair settings

/-- The held state published again: it ends the epoch for a restored device, where the state was
stored after the epoch opened. -/
def publishAgain (healing : Healing c) : Except AuthError Account :=
  match healing.openedAtMs with
  | none => .ok healing.account
  | some openedAtMs =>
    match healing.account.state with
    | none => .error .notFound
    | some row =>
      if openedAtMs ≤ row.updatedAtMs ∧
          isRestoredDevice healing.session healing.devices [] openedAtMs then
        .ok healing.account.endReconciliation
      else .ok healing.account

/-- Publishes a state: adopts a strictly newer one during the epoch, and repairs what lags. -/
def publishAccountState (c : Crypto) (env : Environment R) (account : Account) (session : Session)
    (req : PublishAccountStateRequest) : Except AuthError Committed := do
  let healing ← beginHealing c env account session
  let head ← healing.trust.head
  let state ← verifyStateAtHead req.accountState head healing.trust.accountId
  let finish (account : Account) : Except AuthError Committed := do
    let current ← AccountTrust.load c account
    let devices ← current.devices account
    let account ← repairLagging env healing.session current devices req account
    return (account, .ok ())
  if req.accountState = healing.trust.stateWire then
    finish (← publishAgain healing)
  else
    match healing.openedAtMs with
    | none => return (healing.account, .error .stateConflict)
    | some openedAtMs =>
      if state.statement.stateSeq ≤ healing.trust.state.statement.stateSeq then
        throw .stateConflict
      else finish (← adoptState env healing state req openedAtMs)

/-! ### Grants -/

/-- Every self-grant of the request is among the stored ones. -/
def selfGrantsHeld (env : Environment R) : List VaultSelfGrant → Except AuthError Bool
  | [] => .ok true
  | grant :: grants => do
    let stored ← env.selfGrants grant.accountKeyEpoch
    if grant ∈ stored then selfGrantsHeld env grants else return false

/-- Whether the server holds every grant of the request. -/
def heldAlready (env : Environment R) (account : Account) (req : PublishGrantsRequest) :
    Except AuthError Bool :=
  if req.deviceGrants.all fun grant =>
      account.grants[toLex (grant.recipientDeviceId, grant.accountKeyEpoch)]? =
        some ⟨grant.senderDeviceId, grant.keyGrant⟩ then selfGrantsHeld env req.vaultSelfGrants
  else .ok false

/-- One published grant: to a durable device, at no epoch above the state's. -/
def publishGrant (trust : AccountTrust c) (head : VerifiedBundle c) (devices : Devices c)
    (account : Account) (grant : DeviceGrant) : Except AuthError Account :=
  match (devices.cert grant.recipientDeviceId).filter fun s => s.cert.statement.inDeviceSet with
  | none => .error .invalidRequest
  | some recipient =>
    match verifyGrant head devices .empty grant with
    | .error _ => .error .invalidRequest
    | .ok verified =>
      if verified.statement.recipientKeyId ≠
            keyId c .deviceX25519 recipient.cert.statement.deviceX25519 ∨
          trust.state.statement.accountKeyEpoch < grant.accountKeyEpoch then .error .invalidRequest
      else .ok (putGrants account [grant])

/-- Publishes grants: during the epoch they are stored, outside it they must be held. -/
def publishGrants (c : Crypto) (env : Environment R) (account : Account) (session : Session)
    (req : PublishGrantsRequest) : Except AuthError Account := do
  let healing ← beginHealing c env account session
  if healing.openedAtMs = none then
    if ← heldAlready env healing.account req then return healing.account
    else throw .invalidRequest
  else
    let head ← healing.trust.head
    let account ← req.deviceGrants.foldlM (publishGrant healing.trust head healing.devices)
      healing.account
    if ← selfGrantsHeld env req.vaultSelfGrants then return account else throw .invalidRequest

end RizzyVault.Auth
