import RizzyVault.Auth.Trust

/-!
# Changes of an account

One entry point commits any change of the signed state together with the objects the change needs.
The step from the held state to the new one is classified; it decides which objects must come, and
which sessions may bring them. Certificates and revocations are sorted against the stored ones, and
a rotation brings a grant for every device that stays.

## Main definitions

* `AccountChange`: the uploaded objects.
* `DevicePlan`, `planDevices`: the certificates and revocations of a change.
* `checkObjects`, `authorize`, `checkGrants`: the checks.
* `writeChange`, `commitChange`: the whole call.

## References

* `crates/rizzy-domain-auth/src/change.rs`.
-/

open RizzyVault.Core RizzyVault.Lib

namespace RizzyVault.Auth

open Std (ExtTreeMap)

/-! ### Uploads -/

structure AccountKeyServerWrap where
  accountKeyEpoch : ℕ
  passwordEpoch : ℕ
  kdfId : ℕ
  envelope : Bytes

structure IdentitySecretKeys where
  identityEpoch : ℕ
  envelope : Bytes

structure AccountKeyRecoveryWrap where
  accountKeyEpoch : ℕ
  recoveryEpoch : ℕ
  envelope : Bytes

structure RecoveryRegistration where
  recoveryWrap : AccountKeyRecoveryWrap
  recoveryTokenHash : Bytes

structure AccountSettings where
  settingsSeq : ℕ
  envelope : Bytes

structure RetiredSecretKey where
  retiredKeyId : Bytes
  envelope : Bytes

structure DeviceGrant where
  accountKeyEpoch : ℕ
  senderDeviceId : Bytes
  recipientDeviceId : Bytes
  keyGrant : Bytes

/-- The recovery objects of a change. -/
inductive RecoveryUpload
  | none
  | register (registration : RecoveryRegistration)
  | rewrap (wrap : AccountKeyRecoveryWrap)

/-- One change of the account, with the vault half of a rotation in `R`. -/
structure AccountChange (R : Type) where
  accountState : Bytes
  bundle : Option Bytes
  registrationUpload : Option Bytes
  setupId : Option ℕ
  accountKeyServerWrap : Option AccountKeyServerWrap
  identitySecretKeys : Option IdentitySecretKeys
  recovery : RecoveryUpload
  accountSettings : Option AccountSettings
  retiredSecretKeys : List RetiredSecretKey
  deviceCertificates : List Bytes
  deviceRevocations : List Bytes
  deviceGrants : List DeviceGrant
  vaultRotation : Option R

def maxRetiredKeys : ℕ := 16

structure VaultSelfGrant where
  vaultId : Bytes
  accountKeyEpoch : ℕ
  vaultKeyEpoch : ℕ
  envelope : Bytes
  deriving DecidableEq

/-- The settings of the service. -/
structure AuthConfig where
  serverOrigin : Bytes
  recoveryWaitMs : ℕ
  deviceSessionTtlMs : ℕ
  reconciliationLimitMs : ℕ
  maxWebCertificates : ℕ

/-- What a call reads besides the account's rows: the clock, the OPAQUE setups, and the vault domain
through its port. -/
structure Environment (R : Type) where
  config : AuthConfig
  nowMs : ℕ
  /-- Whether the secrets file holds the setup. -/
  setupLoaded : ℕ → Bool
  /-- The setup's row: when it was retired. -/
  setupRetiredAt : ℕ → Option (Option ℕ)
  /-- The record of an OPAQUE registration upload. -/
  serverRegistrationFinish : Bytes → Option Bytes
  /-- The highest sequence number the server holds from a device. -/
  deviceHead : Bytes → Except AuthError ℕ
  /-- The vault half of a rotation to an account-key epoch and id. -/
  applyRotation : ℕ → Bytes → R → Except AuthError Unit
  /-- The vault self-grants under an account-key epoch. -/
  selfGrants : ℕ → Except AuthError (List VaultSelfGrant)

variable {c : Crypto} {R : Type}

/-- The echoed setup of a registration is loaded and not retired. -/
def Environment.checkEchoedSetup (env : Environment R) (setupId : ℕ) : Except AuthError Unit :=
  if env.setupLoaded setupId = false then .error .setupRetired
  else if env.setupRetiredAt setupId = some none then .ok ()
  else .error .setupRetired

/-! ### Certificates and revocations -/

/-- The device side of a change, each statement with its wire. -/
structure DevicePlan (c : Crypto) where
  newCerts : List (VerifiedCert c × Bytes)
  reissuedCerts : List (VerifiedCert c × Bytes)
  newRevocations : List (VerifiedRevocation c × Bytes)
  reissuedRevocations : List (VerifiedRevocation c × Bytes)

namespace DevicePlan

def empty : DevicePlan c := ⟨[], [], [], []⟩

def allCerts (plan : DevicePlan c) : List (VerifiedCert c) :=
  (plan.newCerts ++ plan.reissuedCerts).map (·.1)

def allRevocations (plan : DevicePlan c) : List (VerifiedRevocation c) :=
  (plan.newRevocations ++ plan.reissuedRevocations).map (·.1)

/-- Whether the change enrols the device. -/
def enrols (plan : DevicePlan c) (deviceId : Bytes) : Bool :=
  plan.newCerts.any fun e => e.1.statement.deviceId = deviceId

/-- Whether the change revokes the device, which was not. -/
def revokes (plan : DevicePlan c) (deviceId : Bytes) : Bool :=
  plan.newRevocations.any fun e => e.1.statement.deviceId = deviceId

/-- One new durable device and one revoked durable device. -/
def isSelfRevocation (plan : DevicePlan c) (devices : Devices c) : Bool :=
  plan.newCerts.length = 1 && plan.newRevocations.length = 1 &&
    plan.newRevocations.all fun e =>
      (devices.cert e.1.statement.deviceId).any fun stored => stored.cert.statement.inDeviceSet

end DevicePlan

section Plan

variable (devices : Devices c) (head : VerifiedBundle c) (accountId : Bytes) (step : Transition)
  (env : Environment R)

/-- One certificate of a change: a stored one again under a new identity, or a new durable one. -/
def planCert (acc : List Bytes × DevicePlan c) (wire : Bytes) :
    Except AuthError (List Bytes × DevicePlan c) := do
  let (seen, plan) := acc
  let cert ← verifyCertificate wire head accountId
  let id := cert.statement.deviceId
  if id ∈ seen then throw .invalidRequest
  match devices.cert id with
  | some stored =>
    if step.identityChanged && isReissue stored.cert.statement cert.statement then
      return (seen ++ [id], { plan with reissuedCerts := plan.reissuedCerts ++ [(cert, wire)] })
    else throw .invalidRequest
  | none =>
    if devices.isRevoked id then throw .invalidRequest
    else if ¬ (cert.statement.inDeviceSet = true ∧
        (cert.statement.expiresAtMs = 0 ∨ env.nowMs < cert.statement.expiresAtMs)) then
      throw .invalidRequest
    else return (seen ++ [id], { plan with newCerts := plan.newCerts ++ [(cert, wire)] })

/-- One revocation of a change: a held one again under a new identity, or a new one whose cut is
still the head of the device. -/
def planRevocation (acc : List Bytes × DevicePlan c) (wire : Bytes) :
    Except AuthError (List Bytes × DevicePlan c) := do
  let (seen, plan) := acc
  let revocation ← verifyRevocation wire head accountId
  let id := revocation.statement.deviceId
  if id ∈ seen then throw .invalidRequest
  match devices.revocation id with
  | some held =>
    if step.identityChanged = false ∨ held.revocation.statement ≠ revocation.statement then
      throw .invalidRequest
    else
      return (seen ++ [id],
        { plan with reissuedRevocations := plan.reissuedRevocations ++ [(revocation, wire)] })
  | none =>
    match devices.cert id with
    | none => throw .invalidRequest
    | some target =>
      if devices.isRevoked id ∨
          (target.cert.statement.inDeviceSet = false ∧ step.identityChanged = false) then
        throw .invalidRequest
      else
        let headSeq ← env.deviceHead id
        if revocation.statement.lastAcceptedDeviceSeq ≠ headSeq then throw .stateConflict
        else if step.accountKeyRotated = true ∧ target.cert.statement.inDeviceSet = true ∧
            target.suspended = false then throw .invalidRequest
        else
          return (seen ++ [id],
            { plan with newRevocations := plan.newRevocations ++ [(revocation, wire)] })

/-- Checks the certificates and revocations of a change against the stored ones and sorts them. A
new identity issues every stored statement again. -/
def planDevices (change : AccountChange R) : Except AuthError (DevicePlan c) := do
  let (_, plan) ← change.deviceCertificates.foldlM (planCert devices head accountId step env)
    ([], .empty)
  if step.identityChanged = true ∧
      ((¬ devices.certs.all fun stored => plan.reissuedCerts.any fun e =>
        e.1.statement.deviceId = stored.deviceId) ∨ 1 < plan.newCerts.length) then
    throw .invalidRequest
  let (_, plan) ← change.deviceRevocations.foldlM
    (planRevocation devices head accountId step env) ([], plan)
  if step.identityChanged = true ∧
      (¬ devices.revocations.all fun stored => plan.reissuedRevocations.any fun e =>
        e.1.statement.deviceId = stored.deviceId) then throw .invalidRequest
  -- A revocation without a rotation only retires a device for the one it enrols.
  if step.accountKeyRotated = false ∧ plan.newRevocations ≠ [] ∧
      plan.isSelfRevocation devices = false then throw .invalidRequest
  return plan

end Plan

/-! ### Objects and sessions -/

/-- The recovery objects fit how recovery moves. -/
def recoveryOk (step : Transition) (new : AccountState) (change : AccountChange R) : Bool :=
  match change.recovery, step.recovery with
  | .register r, .newCode =>
    r.recoveryWrap.accountKeyEpoch = new.accountKeyEpoch ∧
      r.recoveryWrap.recoveryEpoch = new.recoveryEpoch
  -- The current code typed again, nothing else moving.
  | .register r, .unchanged =>
    !step.accountKeyRotated && change.registrationUpload.isNone && !step.passwordBumped &&
      !step.kdfChanged && !step.settingsChanged && !step.deviceSetChanged && new.recoveryEnabled &&
      (r.recoveryWrap.accountKeyEpoch = new.accountKeyEpoch ∧
        r.recoveryWrap.recoveryEpoch = new.recoveryEpoch)
  | .rewrap w, .unchanged =>
    step.accountKeyRotated && new.recoveryEnabled &&
      (w.accountKeyEpoch = new.accountKeyEpoch ∧ w.recoveryEpoch = new.recoveryEpoch)
  | .none, .unchanged => !(step.accountKeyRotated && new.recoveryEnabled)
  | .none, .disabled => true
  | _, _ => false

/-- The settings come exactly if they move, as the new state names them. -/
def settingsOk (c : Crypto) (step : Transition) (new : AccountState)
    (change : AccountChange R) : Bool :=
  match change.accountSettings with
  | some s =>
    step.settingsChanged && decide (s.settingsSeq = new.settingsSeq) &&
      new.matchesSettings c (some s.envelope)
  | none => !step.settingsChanged

/-- `E_srv` comes exactly with a record or a rotation, as the new state names it. -/
def serverWrapOk (step : Transition) (new : AccountState) (change : AccountChange R) : Bool :=
  match change.accountKeyServerWrap with
  | some w =>
    (change.registrationUpload.isSome || step.accountKeyRotated) &&
      (w.accountKeyEpoch = new.accountKeyEpoch ∧ w.passwordEpoch = new.passwordEpoch ∧
        w.kdfId = new.kdfId)
  | none => change.registrationUpload.isNone && !step.accountKeyRotated

/-- `E_id` comes exactly with a rotation, at the new identity epoch. -/
def identityKeysOk (step : Transition) (new : AccountState) (change : AccountChange R) : Bool :=
  match change.identitySecretKeys with
  | some k => step.accountKeyRotated && decide (k.identityEpoch = new.identityEpoch)
  | none => !step.accountKeyRotated

/-- The objects a step needs, and no others. -/
def checkObjects (c : Crypto) (step : Transition) (new : AccountState) (change : AccountChange R) :
    Except AuthError Unit :=
  if (step.passwordBumped || step.kdfChanged) && change.registrationUpload.isNone then
    .error .invalidRequest
  else if serverWrapOk step new change = false then .error .invalidRequest
  else if identityKeysOk step new change = false then .error .invalidRequest
  else
    let rotationOnlyOk := step.accountKeyRotated || (change.retiredSecretKeys.isEmpty &&
      change.deviceGrants.isEmpty && change.vaultRotation.isNone)
    if recoveryOk step new change = false ∨ settingsOk c step new change = false ∨
        rotationOnlyOk = false ∨
        (step.accountKeyRotated = true ∧ change.vaultRotation.isNone) ∨
        maxRetiredKeys < change.retiredSecretKeys.length then .error .invalidRequest
    else .ok ()

/-- The current code typed again repairs a recovery row that lags the state, and only with the
stored code. -/
def checkRecoveryRepair (account : Account) (held : AccountState) (reg : RecoveryRegistration) :
    Except AuthError Unit :=
  match account.recovery with
  | none => .error .invalidRequest
  | some stored =>
    if stored.lags held ∧ stored.recoveryEpoch = held.recoveryEpoch ∧
        stored.hRec = reg.recoveryTokenHash then .ok ()
    else .error .invalidRequest

/-- Whether a change brings recovery objects. -/
def RecoveryUpload.isNone : RecoveryUpload → Bool
  | .none => true
  | _ => false

/-- Whether the session may make the change. -/
def authorize (session : Session) (step : Transition) (change : AccountChange R)
    (plan : DevicePlan c) (devices : Devices c) (nowMs : ℕ) : Except AuthError Unit :=
  let credentials := change.registrationUpload.isSome || step.accountKeyRotated ||
    step.recovery ≠ .unchanged || !change.recovery.isNone
  let heavy := credentials || step.passwordBumped || !plan.newCerts.isEmpty ||
    !plan.newRevocations.isEmpty
  let samePasswordReregistration := change.registrationUpload.isSome && !step.passwordBumped &&
    !step.accountKeyRotated && step.recovery = .unchanged && change.recovery.isNone &&
    plan.newCerts.isEmpty && plan.newRevocations.isEmpty
  let own := session.deviceId.bind fun d => (devices.usableDurable d nowMs).map fun _ => d
  match session.kind with
  | .recovery =>
    if step.passwordBumped && step.recovery = .newCode && plan.newRevocations.isEmpty then .ok ()
    else .error .freshSessionRequired
  | .opaque_ =>
    if session.isFreshOpaque nowMs = false then .error .freshSessionRequired
    else if step.accountKeyRotated && !plan.newRevocations.isEmpty then
      -- The revoker is another durable device.
      match own with
      | none => .error .freshSessionRequired
      | some d => if plan.revokes d then .error .invalidRequest else .ok ()
    else .ok ()
  | .device =>
    if own.isSome && (!heavy || samePasswordReregistration) then .ok ()
    else .error .freshSessionRequired

/-! ### Grants -/

section Grants

variable (session : Session) (new : AccountState) (head : VerifiedBundle c) (devices : Devices c)
  (plan : DevicePlan c)

/-- The certificate of a device after the change. -/
def finalCert (id : Bytes) : Option (VerifiedCert c) :=
  match (plan.newCerts ++ plan.reissuedCerts).find? fun e => e.1.statement.deviceId = id with
  | some e => some e.1
  | none => (devices.cert id).map (·.cert)

/-- The devices a rotation must bring a grant for. -/
def grantRecipients : List (VerifiedCert c) :=
  let ids := devices.certs.map StoredCert.deviceId ++
    plan.newCerts.map fun e => e.1.statement.deviceId
  (ids.filterMap (finalCert devices plan)).filter fun cert =>
    let id := cert.statement.deviceId
    cert.statement.inDeviceSet && !(devices.isRevoked id || plan.revokes id) &&
      !(session.deviceId = some id || plan.enrols id)

/-- A grant under the key of its sender: the device key of a durable device, or the identity key. -/
def verifyGrant (grant : DeviceGrant) : Except VerifyError (Verified c keyGrant) :=
  match (finalCert devices plan grant.senderDeviceId).filter fun s => s.statement.inDeviceSet with
  | some sender => KeyGrant.verify c grant.keyGrant .deviceEd25519 sender.statement.deviceEd25519
  | none => KeyGrant.verify c grant.keyGrant .identityEd25519 head.identityEd25519

/-- One grant, for a recipient that has none yet. -/
def checkGrant (recipients : List (VerifiedCert c)) (covered : List Bytes) (grant : DeviceGrant) :
    Except AuthError (List Bytes) :=
  let recipientId := grant.recipientDeviceId
  match recipients.find? fun cert => cert.statement.deviceId = recipientId with
  | none => .error .invalidRequest
  | some recipient =>
    if grant.accountKeyEpoch ≠ new.accountKeyEpoch ∨ recipientId ∈ covered then
      .error .invalidRequest
    else
      match verifyGrant head devices plan grant with
      | .error _ => .error .invalidRequest
      | .ok verified =>
        if verified.statement.purpose ≠ .accountKeyDevice ∨
            verified.statement.recipientKeyId ≠
              keyId c .deviceX25519 recipient.statement.deviceX25519 then .error .invalidRequest
        else .ok (covered ++ [recipientId])

/-- The grants of a rotation: one for each recipient. -/
def checkGrants (change : AccountChange R) : Except AuthError Unit := do
  let recipients := grantRecipients session devices plan
  if change.deviceGrants.length ≠ recipients.length then throw .invalidRequest
  let _ ← change.deviceGrants.foldlM (checkGrant new head devices plan recipients) []
  return ()

end Grants

/-! ### The writes -/

/-- The credential after the change, if it changes: a new record, or the held one with a new
`E_srv`. -/
def replacedCredential (env : Environment R) (account : Account) (new : AccountState)
    (change : AccountChange R) : Except AuthError (Option Credential) :=
  match change.accountKeyServerWrap with
  | none => .ok none
  | some wrap =>
    match change.registrationUpload with
    | some upload =>
      match env.serverRegistrationFinish upload, change.setupId with
      | some record, some setupId =>
        .ok (some ⟨setupId, record, new.kdfId, new.passwordEpoch, wrap.envelope,
          some new.accountKeyEpoch⟩)
      | _, _ => .error .invalidRequest
    | none =>
      match account.credential with
      | none => .error .internal
      | some held =>
        .ok (some { held with
          eSrv := wrap.envelope, accountKeyEpoch := some new.accountKeyEpoch })

/-- The recovery row after the change. -/
def writtenRecovery (account : Account) (new : AccountState) (step : Transition)
    (change : AccountChange R) : Except AuthError (Option RecoveryRow) :=
  match change.recovery with
  | .register reg =>
    .ok (some ⟨reg.recoveryWrap.recoveryEpoch, reg.recoveryWrap.envelope, reg.recoveryTokenHash,
      some new.accountKeyEpoch⟩)
  | .rewrap wrap =>
    match account.recovery with
    | none => .error .invalidRequest
    | some held =>
      if held.recoveryEpoch ≠ wrap.recoveryEpoch then .error .invalidRequest
      else
        .ok (some { held with
          eRec := wrap.envelope, accountKeyEpoch := some new.accountKeyEpoch })
  | .none => .ok (if step.recovery = .disabled then none else account.recovery)

/-- Stores the certificates of a plan. -/
def putCerts (account : Account) (certs : List (VerifiedCert c × Bytes)) (nowMs : ℕ) :
    Except AuthError Account :=
  certs.foldlM (fun account e => account.putCert e.1 e.2 nowMs) account

/-- Stores revocations, and ends the sessions of their devices. -/
def putRevocations (account : Account) (revocations : List (VerifiedRevocation c × Bytes)) :
    Except AuthError Account :=
  revocations.foldlM (fun account e => do
    let account ← account.putRevocation e.1 e.2
    return account.endDevice e.1.statement.deviceId) account

def putGrants (account : Account) (grants : List DeviceGrant) : Account :=
  grants.foldl (fun account grant => account.putGrant grant.recipientDeviceId grant.accountKeyEpoch
    ⟨grant.senderDeviceId, grant.keyGrant⟩) account

/-- The sessions after the change. -/
def endSessions (account : Account) (session : Session) (step : Transition) : Account :=
  if session.kind = .recovery then account.endAll
  else if step.passwordBumped then (account.endKind .opaque_).endKind .recovery
  else if step.identityChanged then account.endKindExcept .opaque_ session
  else account

/-- Writes every object of a checked change. -/
def writeChange (env : Environment R) (account : Account) (session : Session)
    (trust : AccountTrust c) (new : AccountState) (step : Transition) (change : AccountChange R)
    (plan : DevicePlan c) (credential : Option Credential)
    (newBundle : Option (VerifiedBundle c)) : Except AuthError Account := do
  let recovery ← writtenRecovery account new step change
  if let some s := change.accountSettings then
    let _ ← u64Sql s.settingsSeq
  let account : Account := { account with
    credential := credential.or account.credential
    identity := (change.identitySecretKeys.map fun k => (k.identityEpoch, k.envelope)).or
      account.identity
    recovery
    pending := if step.recovery = .unchanged then account.pending else none
    settings := (change.accountSettings.map fun s => (s.settingsSeq, s.envelope)).or
      account.settings
    retiredKeys := change.retiredSecretKeys.foldl
      (fun keys retired => keys.insert retired.retiredKeyId retired.envelope) account.retiredKeys }
  let account ← match newBundle, change.bundle with
    | some bundle, some wire => account.putBundle bundle.bundleSeq wire
    | _, _ => .ok account
  let account ← putCerts account (plan.newCerts ++ plan.reissuedCerts) env.nowMs
  let account ← putRevocations account (plan.newRevocations ++ plan.reissuedRevocations)
  let account := putGrants account change.deviceGrants
  match step.accountKeyRotated, change.vaultRotation with
  | true, some rotation => env.applyRotation new.accountKeyEpoch new.accountKeyId rotation
  | _, _ => .ok ()
  let account ← account.casState trust.state.statement.stateSeq new change.accountState env.nowMs
  return endSessions account session step

/-! ### The call -/

/-- The head after the change, and the new bundle of a full rotation. -/
def newHead (trust : AccountTrust c) (change : AccountChange R) :
    Except AuthError (VerifiedBundle c × Option (VerifiedBundle c)) := do
  let head ← trust.head
  match change.bundle with
  | none => return (head, none)
  | some wire =>
    match verifySuccessor head wire with
    | .ok (next, .identityChanged) => return (next, some next)
    | _ => throw .invalidRequest

/-- Whether the change is the applied one again. -/
def isRepeat (trust : AccountTrust c) (change : AccountChange R) : Except AuthError Bool := do
  if change.accountState ≠ trust.stateWire then return false
  match change.bundle with
  | none => return true
  | some bundle => return decide (bundle = (← trust.headWire))

/-- A change that passed every check, before its writes. -/
structure CheckedChange (c : Crypto) where
  session : Session
  trust : AccountTrust c
  devices : Devices c
  new : VerifiedState c
  newHead : VerifiedBundle c
  newBundle : Option (VerifiedBundle c)
  step : Transition
  plan : DevicePlan c
  credential : Option Credential

/-- The echoed setup travels exactly with a registration. -/
def checkSetup (env : Environment R) (change : AccountChange R) : Except AuthError Unit :=
  match change.registrationUpload, change.setupId with
  | some _, some setupId => env.checkEchoedSetup setupId
  | none, none => .ok ()
  | _, _ => .error .invalidRequest

/-- The checks of a change, or `none` for a repeat of the applied one. -/
def checkChange (c : Crypto) (env : Environment R) (account : Account) (session : Session)
    (change : AccountChange R) : Except AuthError (Option (CheckedChange c)) := do
  let session ← account.reload session env.nowMs
  let trust ← AccountTrust.load c account
  let devices ← trust.devices account
  if ← isRepeat trust change then return none
  let (head, newBundle) ← newHead trust change
  let new ← verifyStateAtHead change.accountState head account.accountId
  let offered ← placeOffered trust.state.statement trust.stateWire new.statement change.accountState
  if offered = .repeated then return none
  checkSetup env change
  let step ← classify trust.state.statement new.statement
  if step.identityChanged ≠ newBundle.isSome then throw .invalidRequest
  checkObjects c step new.statement change
  match change.recovery, step.recovery with
  | .register reg, .unchanged => checkRecoveryRepair account trust.state.statement reg
  | _, _ => .ok ()
  let plan ← planDevices devices head account.accountId step env change
  let expected ← devices.deviceSetWith account.accountId plan.allCerts plan.allRevocations
  if expected ≠ new.statement.deviceSetHash then throw .invalidRequest
  authorize session step change plan devices env.nowMs
  -- A recovery that was cancelled after its release commits nothing.
  if session.kind = .recovery ∧ account.pending = none then throw .unauthorized
  if step.accountKeyRotated then checkGrants session new.statement head devices plan change
  let credential ← replacedCredential env account new.statement change
  return some ⟨session, trust, devices, new, head, newBundle, step, plan, credential⟩

/-- Commits one change: the rows after it. -/
def commitChange (c : Crypto) (env : Environment R) (account : Account) (session : Session)
    (change : AccountChange R) : Except AuthError Account := do
  match ← checkChange c env account session change with
  | none => return account
  | some checked =>
    writeChange env account checked.session checked.trust checked.new.statement checked.step change
      checked.plan checked.credential checked.newBundle

end RizzyVault.Auth
