import RizzyVault.Auth.Healing

/-!
# Devices

Device authentication and request signing, enrolment, the certificate of a web login, the
acknowledgement of grants, and suspension. During a reconciliation epoch a device that the restored
database lacks may bring its own certificate, with the chain and the state that list it.

## Main definitions

* `deviceKey`, `deviceAuthStart`, `deviceAuthFinish`: device authentication.
* `authenticateRequest`: a signed request over a device session.
* `enrolDevice`, `uploadWebCertificate`: new certificates.
* `suspendDevice`, `unsuspendDevice`, `ackDeviceGrants`.

## References

* `crates/rizzy-domain-auth/src/device.rs`.
-/

open RizzyVault.Core RizzyVault.Lib

namespace RizzyVault.Auth

open Std (ExtTreeMap)

variable {c : Crypto} {R : Type}

/-! ### Device authentication -/

/-- What a device the restored database lacks brings. -/
structure Reconciliation where
  deviceCertificate : Bytes
  accountState : Bytes
  bundles : List Bytes
  deviceCertificates : List Bytes
  deviceRevocations : List Bytes

/-- A device whose brought objects verified. -/
structure Reconciled (c : Crypto) where
  newBundles : List (VerifiedBundle c × Bytes)
  cert : VerifiedCert c
  certWire : Bytes

/-- Whether a hash was computed and is the expected one. -/
def reproduces (expected : Bytes) : Except AuthError Bytes → Bool
  | .ok hash => hash = expected
  | .error _ => false

/-- Whether a certificate of a durable device is unexpired. -/
def isUsable (cert : DeviceCertificate) (nowMs : ℕ) : Bool :=
  cert.inDeviceSet ∧ (cert.expiresAtMs = 0 ∨ nowMs < cert.expiresAtMs)

/-- Verifies what a device brings: the chain extends the stored one, and a state that is not older
than the held one lists the certificate. -/
def verifyReconciliation (trust : AccountTrust c) (devices : Devices c) (rec_ : Reconciliation)
    (device : Bytes) (nowMs : ℕ) : Except AuthError (Reconciled c) :=
  if devices.isRevoked device then .error .unauthorized
  else
    match extendChain trust.chain rec_.bundles with
    | .error _ => .error .unauthorized
    | .ok new => do
      let head ← match new.getLast? with
        | some e => .ok e.1
        | none => trust.head
      match verifyCertificate rec_.deviceCertificate head trust.accountId,
          verifyStateAtHead rec_.accountState head trust.accountId,
          verifySupplied head trust.accountId rec_.deviceCertificates rec_.deviceRevocations with
      | .ok cert, .ok state, .ok supplied =>
        let newer := trust.state.statement.stateSeq < state.statement.stateSeq ∨
          rec_.accountState = trust.stateWire
        let listed := supplied.certs.any fun e =>
          e.1.statement.deviceId = device ∧ e.2 = rec_.deviceCertificate
        if ¬ newer ∨ cert.statement.deviceId ≠ device ∨ isUsable cert.statement nowMs = false then
          throw .unauthorized
        else if listed = false ∨ device ∈ supplied.revoking then throw .unauthorized
        else if reproduces state.statement.deviceSetHash (supplied.alone trust.accountId) = false ∨
            reproduces state.statement.deviceSetHash
              (supplied.withStored devices trust.accountId) = false then throw .unauthorized
        else return ⟨new, cert, rec_.deviceCertificate⟩
      | _, _, _ => throw .unauthorized

/-- The key a device authenticates with: its stored certificate, or the one it brought. -/
inductive DeviceKey (c : Crypto)
  | stored (cert : VerifiedCert c)
  | reconciled (reconciled : Reconciled c)

def DeviceKey.cert : DeviceKey c → VerifiedCert c
  | stored cert => cert
  | reconciled r => r.cert

/-- The key of a device, with the rows after the check of the epoch. Only a device without a stored
certificate may bring one. -/
def deviceKey (env : Environment R) (account : Account) (trust : AccountTrust c) (device : Bytes)
    (reconciliation : Option Reconciliation) :
    Except AuthError (Account × Except AuthError (DeviceKey c)) := do
  let devices ← trust.devices account
  match devices.usableDurable device env.nowMs, reconciliation with
  | some stored, _ => return (account, .ok (.stored stored.cert))
  | none, none => return (account, .error .unauthorized)
  | none, some rec_ =>
    if (devices.cert device).isSome then return (account, .error .unauthorized)
    else
      let (openedAtMs, account) := account.openEpoch env.config.reconciliationLimitMs env.nowMs
      if openedAtMs = none then return (account, .error .unauthorized)
      else
        return (account, (verifyReconciliation trust devices rec_ device env.nowMs).map .reconciled)

/-- An unknown account answers like any other failure. -/
def notFoundIsUnauthorized : AuthError → AuthError
  | .notFound => .unauthorized
  | e => e

/-- Whether the transaction of a refused call is kept. -/
def AuthError.isRefusal : AuthError → Bool
  | .unauthorized | .invalidRequest | .secondFactorRequired | .credentialsStale
  | .rateLimited _ => true
  | _ => false

def challengeTtlMs : ℕ := 60000

/-- Issues a fresh challenge. -/
def deviceAuthStart (c : Crypto) (env : Environment R) (account : Account) (device : Bytes)
    (reconciliation : Option Reconciliation) (challenge : Bytes) : Except AuthError Account := do
  let trust ← (AccountTrust.load c account).mapError notFoundIsUnauthorized
  let (account, key) ← deviceKey env account trust device reconciliation
  let _ ← key
  let expiresAtMs ← u64Sql (saturatingAdd env.nowMs challengeTtlMs)
  if challenge ∈ account.challenges then throw .storage
  return { account with challenges := account.challenges.insert challenge ⟨device, expiresAtMs⟩ }

structure DeviceAuthFinishRequest where
  deviceId : Bytes
  challenge : Bytes
  signature : Bytes
  reconciliation : Option Reconciliation

/-- What the server draws for a session. -/
structure SessionDraw where
  token : Bytes
  sessionId : Bytes

/-- A new session of a kind. -/
def newSession (c : Crypto) (draw : SessionDraw) (deviceId : Option Bytes) (kind : SessionKind)
    (nowMs ttlMs : ℕ) : Session :=
  ⟨c.sha256 draw.token, draw.sessionId, deviceId, kind, nowMs, saturatingAdd nowMs ttlMs, .default⟩

/-- The rows of a device that authenticated: what it brought, and its session. -/
def issueDeviceSession (env : Environment R) (account : Account) (key : DeviceKey c)
    (session : Session) : Except AuthError Account := do
  let account ← match key with
    | .stored _ => .ok account
    | .reconciled r => do
      let account ← putBundles account r.newBundles
      account.putCert r.cert r.certWire env.nowMs
  account.createSession session

/-- The answer to a challenge, which is taken, whatever follows. -/
def deviceAuthFinish (c : Crypto) (env : Environment R) (account : Account)
    (req : DeviceAuthFinishRequest) (draw : SessionDraw) : Account × Except AuthError Session :=
  let row := account.challenges[req.challenge]?
  let account : Account := { account with challenges := account.challenges.erase req.challenge }
  if ¬ row.any fun r => r.deviceId = req.deviceId ∧ env.nowMs < r.expiresAtMs then
    (account, .error .unauthorized)
  else
    let checked : Except AuthError (Account × Except AuthError (DeviceKey c)) := do
      let trust ← (AccountTrust.load c account).mapError notFoundIsUnauthorized
      deviceKey env account trust req.deviceId req.reconciliation
    match checked with
    | .error e => (account, .error e)
    | .ok (checkedAccount, .error e) =>
      (if e.isRefusal then checkedAccount else account, .error e)
    | .ok (checkedAccount, .ok key) =>
      let auth : DeviceAuth := ⟨env.config.serverOrigin, account.accountId, req.deviceId,
        req.challenge⟩
      match auth.verify c req.signature key.cert.statement.deviceEd25519 with
      | .error _ => (checkedAccount, .error .unauthorized)
      | .ok () =>
        let session := newSession c draw (some req.deviceId) .device env.nowMs
          env.config.deviceSessionTtlMs
        match issueDeviceSession env checkedAccount key session with
        | .error e => (account, .error e)
        | .ok account => (account, .ok session)

/-! ### Requests -/

structure RequestSignature where
  requestCounter : ℕ
  signature : Bytes

structure RequestParts where
  method : Bytes
  pathAndQuery : Bytes
  body : Bytes

def maxRequestCounter : ℕ := i64Max

def Account.storeWindow (account : Account) (session : Session) (window : RequestWindow) : Account :=
  { account with sessions :=
    account.sessions.modify session.tokenHash fun stored => { stored with window } }

/-- Authenticates a request: the session of its token, and over a device session its signature with
a counter the session has not accepted. -/
def authenticateRequest (c : Crypto) (env : Environment R) (account : Account) (token : Bytes)
    (signature : Option RequestSignature) (request : RequestParts) :
    Except AuthError (Account × Session) :=
  match signature with
  | none => do
    let session ← account.loadByHash (c.sha256 token) env.nowMs
    if session.kind = .device then throw .unauthorized
    return (account, session)
  | some signature =>
    if maxRequestCounter < signature.requestCounter then .error .unauthorized
    else do
      let session ← account.loadByHash (c.sha256 token) env.nowMs
      match session.kind, session.deviceId with
      | .device, some device => do
        let trust ← AccountTrust.load c account
        let devices ← trust.devices account
        match devices.usableDurable device env.nowMs with
        | none => throw .unauthorized
        | some stored =>
          let message : DeviceRequest := ⟨env.config.serverOrigin, account.accountId, device,
            session.sessionId, signature.requestCounter, request.method, request.pathAndQuery,
            c.sha256 request.body⟩
          match message.verify c signature.signature stored.cert.statement.deviceEd25519,
              session.window.accept signature.requestCounter with
          | .ok (), some window => return (account.storeWindow session window, session)
          | _, _ => throw .unauthorized
      | _, _ => throw .unauthorized

/-! ### New certificates -/

structure EnrolDeviceRequest where
  deviceCertificate : Bytes
  accountState : Bytes

/-- Enrols a durable device over a fresh login: its certificate, and the state in which only the
device set moves, over exactly the stored set and this device. -/
def enrolDevice (c : Crypto) (env : Environment R) (account : Account) (session : Session)
    (req : EnrolDeviceRequest) : Except AuthError Account := do
  let session ← account.reload session env.nowMs
  if session.isFreshOpaque env.nowMs = false then throw .freshSessionRequired
  let trust ← AccountTrust.load c account
  let devices ← trust.devices account
  let head ← trust.head
  let cert ← verifyCertificate req.deviceCertificate head account.accountId
  let state ← verifyStateAtHead req.accountState head account.accountId
  let id := cert.statement.deviceId
  if (devices.cert id).isSome || devices.isRevoked id then
    if ((devices.cert id).any fun stored => stored.wire = req.deviceCertificate) &&
        trust.stateWire = req.accountState then return account
    else throw .conflict
  else if cert.statement.inDeviceSet = false ∨
      (cert.statement.expiresAtMs ≠ 0 ∧ cert.statement.expiresAtMs ≤ env.nowMs) then
    throw .invalidRequest
  else
    let offered ← placeOffered trust.state.statement trust.stateWire state.statement
      req.accountState
    if offered = .repeated then throw .conflict
    let expected ← devices.deviceSetWith account.accountId [cert] []
    if onlyDeviceSetAdvances trust.state.statement state.statement = false ∨
        expected ≠ state.statement.deviceSetHash then throw .invalidRequest
    let account ← account.putCert cert req.deviceCertificate env.nowMs
    account.casState trust.state.statement.stateSeq state.statement req.accountState env.nowMs

/-- Whether the certificate of a web login may be deleted: expired, unrevoked, and without anything
authored. -/
def isDeletable (env : Environment R) (devices : Devices c) (stored : StoredCert c) :
    Except AuthError Bool :=
  let cert := stored.cert.statement
  if (cert.expiresAtMs ≠ 0 ∧ cert.expiresAtMs ≤ env.nowMs) ∧
      devices.isRevoked cert.deviceId = false then do
    return decide ((← env.deviceHead cert.deviceId) = 0)
  else .ok false

/-- Deletes the certificates of web logins that may be, and counts the others. -/
def pruneWebCertificates (env : Environment R) (devices : Devices c) (account : Account) :
    Except AuthError (Account × ℕ) :=
  (devices.certs.filter fun stored => !stored.cert.statement.inDeviceSet).foldlM
    (fun acc stored => do
      if ← isDeletable env devices stored then
        return ({ acc.1 with certs := acc.1.certs.erase stored.deviceId }, acc.2)
      else return (acc.1, acc.2 + 1)) (account, 0)

/-- Stores the certificate of a web login, over its session. -/
def uploadWebCertificate (c : Crypto) (env : Environment R) (account : Account) (session : Session)
    (wire : Bytes) : Except AuthError Committed := do
  let session ← account.reload session env.nowMs
  if session.kind ≠ .opaque_ then throw .unauthorized
  let trust ← AccountTrust.load c account
  let devices ← trust.devices account
  let head ← trust.head
  let cert ← verifyCertificate wire head account.accountId
  if cert.statement.inDeviceSet = true ∨ cert.statement.expiresAtMs ≤ env.nowMs then
    throw .invalidRequest
  match devices.cert cert.statement.deviceId with
  | some held => if held.wire = wire then return (account, .ok ()) else throw .conflict
  | none =>
    if devices.isRevoked cert.statement.deviceId then throw .conflict
    else
      let (account, kept) ← pruneWebCertificates env devices account
      if env.config.maxWebCertificates ≤ kept then return (account, .error (.rateLimited none))
      else return (← account.putCert cert wire env.nowMs, .ok ())

/-! ### Grants and suspension -/

/-- Deletes the grants a device persisted. -/
def ackDeviceGrants (env : Environment R) (account : Account) (session : Session)
    (accountKeyEpoch : ℕ) : Except AuthError Account := do
  let session ← account.reload session env.nowMs
  match session.kind, session.deviceId with
  | .device, some device =>
    return { account with grants := account.grants.filter fun key _ =>
      ¬ ((ofLex key).1 = device ∧ (ofLex key).2 ≤ accountKeyEpoch) }
  | _, _ => throw .unauthorized

/-- A fresh login bound to a usable device, over another durable device that is not revoked. -/
def revoker (c : Crypto) (env : Environment R) (account : Account) (session : Session)
    (target : Bytes) : Except AuthError (StoredCert c) := do
  let session ← account.reload session env.nowMs
  if session.isFreshOpaque env.nowMs = false then throw .freshSessionRequired
  let trust ← AccountTrust.load c account
  let devices ← trust.devices account
  match session.deviceId with
  | none => throw .freshSessionRequired
  | some own =>
    if (devices.usableDurable own env.nowMs).isNone then throw .freshSessionRequired
    else if own = target then throw .invalidRequest
    else
      match devices.cert target with
      | none => throw .notFound
      | some held =>
        if held.cert.statement.inDeviceSet = false ∨ devices.isRevoked target then throw .notFound
        else return held

/-- Suspends a device and ends its sessions: the highest sequence number held from it. -/
def suspendDevice (c : Crypto) (env : Environment R) (account : Account) (session : Session)
    (target : Bytes) : Except AuthError (Account × ℕ) := do
  let held ← revoker c env account session target
  let account := if held.suspended then account else
    { account with certs := account.certs.modify target fun row =>
        { row with suspendedAtMs := some (row.suspendedAtMs.getD env.nowMs) } }.endDevice target
  return (account, ← env.deviceHead target)

def unsuspendDevice (c : Crypto) (env : Environment R) (account : Account) (session : Session)
    (target : Bytes) : Except AuthError Account := do
  let _ ← revoker c env account session target
  return { account with certs := account.certs.modify target fun row =>
    { row with suspendedAtMs := none } }

end RizzyVault.Auth
