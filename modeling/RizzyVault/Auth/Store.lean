import RizzyVault.Auth.RateLimit
import RizzyVault.Auth.RequestWindow
import RizzyVault.Lib.TreeMap

/-!
# The rows of an account

The auth tables of one account, and the reads and writes that the flows share. A flow runs under the
account's lock in one transaction: it reads the rows, and its writes are kept or dropped together.
Nothing here verifies a signature.

## Main definitions

* `Session`, `Credential`, `RecoveryRow`, `CertRow`, `GrantRow`: rows.
* `Account`: the rows of an account, and their writers.
* `Account.reload`: a session as stored now.
* `placeOffered`: an offered state against the held one.

## References

* `crates/rizzy-domain-auth/src/store.rs`, `crates/rizzy-domain-auth/src/session.rs`,
  `crates/rizzy-domain-auth/queries`.
-/

open RizzyVault.Core

namespace RizzyVault.Auth

open Std (ExtTreeMap)

/-! ### Rows -/

/-- What a session was authenticated by. -/
inductive SessionKind
  | opaque_
  | device
  | recovery
  deriving DecidableEq

structure Session where
  /-- The hash of the bearer token, the key of the row. -/
  tokenHash : Bytes
  sessionId : Bytes
  /-- The device of a device session, or the one a login came from. -/
  deviceId : Option Bytes
  kind : SessionKind
  createdAtMs : ℕ
  expiresAtMs : ℕ
  window : RequestWindow

/-- How long a session of a login counts as fresh. -/
def freshSessionMs : ℕ := 300000

def Session.isFreshOpaque (session : Session) (nowMs : ℕ) : Bool :=
  session.kind = .opaque_ ∧ session.createdAtMs ≤ nowMs ∧
    nowMs - session.createdAtMs ≤ freshSessionMs

/-- The OPAQUE record with `E_srv`. -/
structure Credential where
  setupId : ℕ
  record : Bytes
  kdfId : ℕ
  passwordEpoch : ℕ
  eSrv : Bytes
  /-- `none` in a row from before the column. -/
  accountKeyEpoch : Option ℕ
  deriving DecidableEq

def Credential.lags (credential : Credential) (state : AccountState) : Bool :=
  credential.passwordEpoch ≠ state.passwordEpoch ∨ credential.kdfId ≠ state.kdfId ∨
    credential.accountKeyEpoch ≠ some state.accountKeyEpoch

/-- `E_rec` with the hash of the code. -/
structure RecoveryRow where
  recoveryEpoch : ℕ
  eRec : Bytes
  hRec : Bytes
  accountKeyEpoch : Option ℕ
  deriving DecidableEq

def RecoveryRow.lags (row : RecoveryRow) (state : AccountState) : Bool :=
  row.recoveryEpoch ≠ state.recoveryEpoch ∨ row.accountKeyEpoch ≠ some state.accountKeyEpoch

structure StateRow where
  stateSeq : ℕ
  statement : Bytes
  updatedAtMs : ℕ
  deriving DecidableEq

structure CertRow where
  certificate : Bytes
  suspendedAtMs : Option ℕ
  storedAtMs : ℕ
  deriving DecidableEq

structure GrantRow where
  senderDeviceId : Bytes
  grantRecord : Bytes
  deriving DecidableEq

structure PendingRecovery where
  recoveryEpoch : ℕ
  openedAtMs : ℕ
  availableAtMs : ℕ
  deriving DecidableEq

/-- A challenge of device authentication. -/
structure ChallengeRow where
  deviceId : Bytes
  expiresAtMs : ℕ
  deriving DecidableEq

instance transOrd_grantKey : Std.TransOrd (Bytes ×ₗ ℕ) := inferInstance

/-- The rows of one account. -/
structure Account where
  accountId : Bytes
  /-- The bundles in the order of their numbers: one is stored only as the successor of the last. -/
  bundles : List Bytes
  state : Option StateRow
  credential : Option Credential
  /-- `E_id` with its identity epoch. -/
  identity : Option (ℕ × Bytes)
  recovery : Option RecoveryRow
  /-- `ACCOUNT_SETTINGS` with their number. -/
  settings : Option (ℕ × Bytes)
  retiredKeys : ExtTreeMap Bytes Bytes
  certs : ExtTreeMap Bytes CertRow
  revocations : ExtTreeMap Bytes Bytes
  /-- Grants by recipient and account-key epoch. -/
  grants : ExtTreeMap (Bytes ×ₗ ℕ) GrantRow
  sessions : ExtTreeMap Bytes Session
  challenges : ExtTreeMap Bytes ChallengeRow
  pending : Option PendingRecovery
  /-- When the reconciliation epoch was opened, while it is. -/
  reconciliation : Option ℕ

namespace Account

/-! ### Sessions -/

/-- The unexpired session whose token has the hash. -/
def loadByHash (account : Account) (hash : Bytes) (nowMs : ℕ) : Except AuthError Session :=
  match account.sessions[hash]? with
  | none => .error .unauthorized
  | some stored =>
    if stored.expiresAtMs ≤ nowMs then .error .unauthorized
    else .ok { stored with tokenHash := hash }

/-- A session as stored now. -/
def reload (account : Account) (session : Session) (nowMs : ℕ) : Except AuthError Session :=
  account.loadByHash session.tokenHash nowMs

/-- A new session. Its token hashes to no stored one. -/
def createSession (account : Account) (session : Session) : Except AuthError Account :=
  if session.tokenHash ∈ account.sessions then .error .storage
  else .ok { account with sessions := account.sessions.insert session.tokenHash session }

def endAll (account : Account) : Account := { account with sessions := ∅ }

/-- Ends the sessions that satisfy a condition. -/
def endWhere (account : Account) (p : Session → Bool) : Account :=
  { account with sessions := account.sessions.filter fun _ s => !p s }

def endDevice (account : Account) (deviceId : Bytes) : Account :=
  account.endWhere fun s => s.deviceId = some deviceId

def endKind (account : Account) (kind : SessionKind) : Account :=
  account.endWhere fun s => s.kind = kind

def endKindExcept (account : Account) (kind : SessionKind) (keep : Session) : Account :=
  account.endWhere fun s => s.kind = kind ∧ s.tokenHash ≠ keep.tokenHash

/-! ### The reconciliation epoch -/

/-- When the reconciliation epoch was opened, if it is open. One past its limit is ended here. -/
def openEpoch (account : Account) (limitMs nowMs : ℕ) : Option ℕ × Account :=
  match account.reconciliation with
  | none => (none, account)
  | some openedAtMs =>
    if limitMs ≤ nowMs - openedAtMs then (none, { account with reconciliation := none })
    else (some openedAtMs, account)

/-! ### Statements -/

def putBundle (account : Account) (bundleSeq : ℕ) (wire : Bytes) : Except AuthError Account := do
  let _ ← u64Sql bundleSeq
  return { account with bundles := account.bundles ++ [wire] }

/-- The row of a certificate over the one stored: a suspension is kept, and the storage time where
the bytes are the same. -/
def upsertCert (wire : Bytes) (nowMs : ℕ) : Option CertRow → CertRow
  | none => ⟨wire, none, nowMs⟩
  | some row => ⟨wire, row.suspendedAtMs, if row.certificate = wire then row.storedAtMs else nowMs⟩

def putCert {c : Crypto} (account : Account) (cert : VerifiedCert c) (wire : Bytes) (nowMs : ℕ) :
    Except AuthError Account := do
  let _ ← u64Sql cert.statement.expiresAtMs
  let id := cert.statement.deviceId
  return { account with certs := account.certs.insert id (upsertCert wire nowMs account.certs[id]?) }

def putRevocation {c : Crypto} (account : Account) (revocation : VerifiedRevocation c)
    (wire : Bytes) : Except AuthError Account := do
  let _ ← u64Sql revocation.statement.lastAcceptedDeviceSeq
  return { account with
    revocations := account.revocations.insert revocation.statement.deviceId wire }

def putGrant (account : Account) (recipient : Bytes) (accountKeyEpoch : ℕ) (row : GrantRow) :
    Account :=
  { account with grants := account.grants.insert (toLex (recipient, accountKeyEpoch)) row }

/-- Replaces the state if the stored one still has the expected number. -/
def casState (account : Account) (expectedSeq : ℕ) (new : AccountState) (wire : Bytes)
    (nowMs : ℕ) : Except AuthError Account := do
  let stateSeq ← u64Sql new.stateSeq
  match account.state with
  | none => throw .stateConflict
  | some row =>
    if row.stateSeq ≠ expectedSeq then throw .stateConflict
    else return { account with state := some ⟨stateSeq, wire, nowMs⟩ }

/-- Replaces the state by one of a higher number. -/
def replaceState (account : Account) (new : AccountState) (wire : Bytes) (nowMs : ℕ) :
    Except AuthError Account := do
  let stateSeq ← u64Sql new.stateSeq
  match account.state with
  | none => throw .stateConflict
  | some row =>
    if stateSeq ≤ row.stateSeq then throw .stateConflict
    else return { account with state := some ⟨stateSeq, wire, nowMs⟩ }

end Account

/-! ### Offered states -/

/-- How an offered state relates to the held one. -/
inductive Offered
  | repeated
  | next
  deriving DecidableEq

/-- Places an offered state: the held one again, the next one, or a refusal. -/
def placeOffered (held : AccountState) (heldWire : Bytes) (offered : AccountState)
    (offeredWire : Bytes) : Except AuthError Offered :=
  if offered.stateSeq = held.stateSeq then
    if offeredWire = heldWire then .ok .repeated else .error .stateFork
  else if held.stateSeq + 1 = offered.stateSeq ∧ offered.stateSeq < 2 ^ 64 then .ok .next
  else .error .stateConflict

end RizzyVault.Auth
