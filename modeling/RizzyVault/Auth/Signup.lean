import RizzyVault.Auth.Device

/-!
# Signups, logins and recoveries

The calls that start an account, and the two other ways to a session: the login over OPAQUE, of
which the model keeps what follows the client's last message, and the recovery with a code, which
opens a waiting period and then releases a session that may only commit the recovery.

## Main definitions

* `checkSignup`, `registerFinish`: the first objects of an account.
* `loginFinish`: the session of a login.
* `recoveryStart`, `recoveryCancel`, `recoveryComplete`: the pending recovery and its session.

## References

* `crates/rizzy-domain-auth/src/rules.rs`, `crates/rizzy-domain-auth/src/signup.rs`,
  `crates/rizzy-domain-auth/src/login.rs`, `crates/rizzy-domain-auth/src/recovery.rs`.
-/

open RizzyVault.Core RizzyVault.Lib

namespace RizzyVault.Auth

variable {c : Crypto} {R : Type}

/-! ### Signup -/

structure RegisterFinishRequest where
  registrationUpload : Bytes
  setupId : ℕ
  accountKeyServerWrap : AccountKeyServerWrap
  identitySecretKeys : IdentitySecretKeys
  bundle : Bytes
  accountState : Bytes
  vaultSelfGrant : VaultSelfGrant
  deviceCertificate : Bytes
  recovery : Option RecoveryRegistration

/-- The verified objects of a signup. -/
structure CheckedSignup (c : Crypto) where
  accountId : Bytes
  bundle : VerifiedBundle c
  state : VerifiedState c
  certificate : VerifiedCert c

/-- Whether the first state is one of a new account. -/
def isFirstState (state : AccountState) (bundle : VerifiedBundle c) (withRecovery : Bool) : Bool :=
  state.stateSeq = 1 ∧ bundle.accountId = state.accountId ∧ state.matchesBundle bundle ∧
    state.accountKeyEpoch = 0 ∧ state.passwordEpoch = 0 ∧ state.kdfId = kdfDefault ∧
    state.recoveryEnabled = withRecovery ∧ state.recoveryEpoch = (if withRecovery then 1 else 0) ∧
    state.syncMode = .server ∧ state.mailKeyEpoch = 0 ∧ state.settingsSeq = 0

/-- Whether every object names the epochs of the first state. -/
def locatorsOk (state : AccountState) (req : RegisterFinishRequest) : Bool :=
  req.accountKeyServerWrap.accountKeyEpoch = 0 ∧ req.accountKeyServerWrap.passwordEpoch = 0 ∧
    req.accountKeyServerWrap.kdfId = state.kdfId ∧ req.identitySecretKeys.identityEpoch = 0 ∧
    req.vaultSelfGrant.accountKeyEpoch = 0 ∧ req.vaultSelfGrant.vaultKeyEpoch = 0 ∧
    req.recovery.all fun r => r.recoveryWrap.accountKeyEpoch = 0 ∧
      r.recoveryWrap.recoveryEpoch = state.recoveryEpoch

/-- The checks of a signup's objects against each other. -/
def checkSignup (c : Crypto) (req : RegisterFinishRequest) (nowMs : ℕ) :
    Except AuthError (CheckedSignup c) :=
  match verifySelfSigned c req.bundle with
  | .error _ => .error .invalidRequest
  | .ok bundle =>
    if bundle.bundleSeq ≠ 1 ∨ bundle.identityEpoch ≠ 0 then .error .invalidRequest
    else
      match AccountState.verify c req.accountState bundle.identityEd25519 0 with
      | .error _ => .error .invalidRequest
      | .ok state =>
        if isFirstState state.statement bundle req.recovery.isSome = false then
          .error .invalidRequest
        else do
          let accountId := state.statement.accountId
          let certificate ← verifyCertificate req.deviceCertificate bundle accountId
          if certificate.statement.inDeviceSet = false ∧
              certificate.statement.expiresAtMs ≤ nowMs then throw .invalidRequest
          let set ← deviceSet accountId [certificate] []
          if set ≠ state.statement.deviceSetHash then throw .invalidRequest
          if locatorsOk state.statement req = false then throw .invalidRequest
          return ⟨accountId, bundle, state, certificate⟩

/-- The recovery row of a registration in a signup. -/
def signupRecovery (accountKeyEpoch : ℕ) (r : RecoveryRegistration) : RecoveryRow :=
  ⟨r.recoveryWrap.recoveryEpoch, r.recoveryWrap.envelope, r.recoveryTokenHash, some accountKeyEpoch⟩

/-- The rows of a name that was reserved for the account, before anything else is stored. -/
def reserved (accountId : Bytes) : Account :=
  ⟨accountId, [], none, none, none, none, none, ∅, ∅, ∅, ∅, ∅, ∅, none, none⟩

/-- Commits a signup over a reserved name: the first rows of the account. -/
def registerFinish (c : Crypto) (env : Environment R) (req : RegisterFinishRequest) :
    Except AuthError Account := do
  let checked ← checkSignup c req env.nowMs
  match env.serverRegistrationFinish req.registrationUpload with
  | none => throw .invalidRequest
  | some record =>
    env.checkEchoedSetup req.setupId
    let state := checked.state.statement
    let account : Account := { reserved checked.accountId with
      credential := some ⟨req.setupId, record, state.kdfId, state.passwordEpoch,
        req.accountKeyServerWrap.envelope, some state.accountKeyEpoch⟩
      identity := some (req.identitySecretKeys.identityEpoch, req.identitySecretKeys.envelope)
      state := some ⟨state.stateSeq, req.accountState, env.nowMs⟩
      recovery := req.recovery.map (signupRecovery state.accountKeyEpoch) }
    let account ← account.putBundle 1 req.bundle
    account.putCert checked.certificate req.deviceCertificate env.nowMs

/-! ### Logins -/

/-- The session of a login whose OPAQUE exchange and second factor verified. A record that lags the
signed state gives none. A login from a device session is bound to its device. -/
def loginFinish (c : Crypto) (env : Environment R) (account : Account) (reauth : Option Session)
    (ttlMs : ℕ) (draw : SessionDraw) : Except AuthError (Account × Session) :=
  match account.credential with
  | none => .error .unauthorized
  | some credential => do
    let trust ← AccountTrust.load c account
    if credential.passwordEpoch < trust.state.statement.passwordEpoch then throw .unauthorized
    if credential.lags trust.state.statement then throw .credentialsStale
    let device := reauth.bind fun s => if s.kind = .device then s.deviceId else none
    let session := newSession c draw device .opaque_ env.nowMs ttlMs
    let account ← account.createSession session
    let _ ← trust.devices account
    return (account, session)

/-! ### Recoveries -/

/-- The recovery row a code opens now. -/
def checkRecoveryCode (c : Crypto) (account : Account) (token : Bytes) :
    Except AuthError (Option RecoveryRow) :=
  match account.recovery with
  | none => .ok none
  | some row =>
    if c.sha256 token ≠ row.hRec then .ok none
    else do
      let trust ← AccountTrust.load c account
      if trust.state.statement.recoveryEnabled = false ∨ row.lags trust.state.statement then
        return none
      return some row

/-- Opens a pending recovery, or finds the one for this code already pending. -/
def recoveryStart (c : Crypto) (env : Environment R) (account : Account) (token : Bytes) :
    Except AuthError Account := do
  match ← checkRecoveryCode c account token with
  | none => throw .unauthorized
  | some row =>
    if account.pending.any fun p => p.recoveryEpoch = row.recoveryEpoch then return account
    else
      let openedAtMs ← u64Sql env.nowMs
      let availableAtMs ← u64Sql (saturatingAdd env.nowMs env.config.recoveryWaitMs)
      return { account with pending := some ⟨row.recoveryEpoch, openedAtMs, availableAtMs⟩ }

/-- Cancels the pending recovery over the session of a device that may act, and ends the sessions
released for it. -/
def recoveryCancel (c : Crypto) (env : Environment R) (account : Account) (session : Session) :
    Except AuthError (Account × Bool) := do
  let session ← account.reload session env.nowMs
  let trust ← AccountTrust.load c account
  let devices ← trust.devices account
  if ¬ (session.kind = .device ∧ session.deviceId.any fun d =>
      (devices.usableDurable d env.nowMs).isSome) then throw .unauthorized
  return ({ account with pending := none }.endKind .recovery, account.pending.isSome)

def recoverySessionTtlMs : ℕ := 600000

/-- Releases a recovery-only session after the waiting period of the pending recovery of this
code. -/
def recoveryComplete (c : Crypto) (env : Environment R) (account : Account) (token : Bytes)
    (draw : SessionDraw) : Except AuthError (Account × Session) := do
  match ← checkRecoveryCode c account token, account.pending with
  | some row, some pending =>
    if pending.recoveryEpoch ≠ row.recoveryEpoch then throw .unauthorized
    else if env.nowMs < pending.availableAtMs then
      throw (.recoveryWaiting (pending.availableAtMs - env.nowMs))
    else
      let trust ← AccountTrust.load c account
      let _ ← trust.devices account
      let session := newSession c draw none .recovery env.nowMs recoverySessionTtlMs
      return (← account.createSession session, session)
  | _, _ => throw .unauthorized

end RizzyVault.Auth
