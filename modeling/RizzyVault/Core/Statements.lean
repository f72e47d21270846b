import RizzyVault.Core.Envelope
import RizzyVault.Core.Sign
import RizzyVault.Lib.Result

/-!
# Signed statements about an account

The statements one key signs: the certificate and the revocation of a device, the state of the
account, a grant of a key, and the two statements a device signs without sending their bodies. Each
is verified from its wire under a key the caller picks.

## Main definitions

* `StatementKind`, `Verified`, `verifySingle`: a statement with its layout, and one that verified.
* `DeviceCertificate`, `DeviceRevocation`, `AccountState`, `KeyGrant`: the statements.
* `verifyDeviceAuth`, `verifyDeviceRequest`: the statements whose bodies the verifier rebuilds.

## Main results

* `verifySingle_eq_ok`, `verifySingle_inj`: what verified is what the wire decodes to, whatever the
  key.

## References

* `crates/rizzy-core/src/sign/statements.rs`, `crates/rizzy-core/src/sign/mod.rs`.
-/

open RizzyVault.Lib

namespace RizzyVault.Core

/-! ### Statements with one signature -/

/-- The label and the layout of a type of statement. -/
structure StatementKind (σ : Type) where
  label : Bytes
  maxBodyLen : ℕ
  decodeBody : Bytes → Except ParseError σ

/-- A statement with the hash of its signed message. -/
structure Verified {σ : Type} (c : Crypto) (kind : StatementKind σ) where
  statement : σ
  messageHash : Bytes
  /-- Some key signed the message, and it decodes to the statement. -/
  verified : ∃ body keyType key container, kind.decodeBody body = .ok statement ∧
    messageHash = c.sha256 (signedMessage kind.label body) ∧
    verifyContainer c keyType key (signedMessage kind.label body) container = .ok ()

section Single

variable {σ : Type} (c : Crypto) (kind : StatementKind σ)

/-- Verifies a wire of one signature under a key. -/
def verifySingle (keyType : KeyType) (key wire : Bytes) : Except VerifyError (Verified c kind) :=
  match splitWire wire kind.maxBodyLen with
  | .error e => .error e
  | .ok (body, containers) =>
    match SignatureContainer.fromBytes containers with
    | .error e => .error e
    | .ok container =>
      match hbody : kind.decodeBody body with
      | .error e => .error (.malformed e)
      | .ok statement =>
        match hsig : verifyContainer c keyType key (signedMessage kind.label body) container with
        | .error e => .error e
        | .ok () =>
          .ok ⟨statement, c.sha256 (signedMessage kind.label body), body, keyType, key, container,
            hbody, rfl, hsig⟩

/-- The statement a wire carries, whoever signed it. -/
def statementOf (wire : Bytes) : Option σ :=
  match splitWire wire kind.maxBodyLen with
  | .error _ => none
  | .ok (body, _) => (kind.decodeBody body).toOption

variable {c kind}

theorem verifySingle_eq_ok {keyType : KeyType} {key wire : Bytes} {v : Verified c kind}
    (h : verifySingle c kind keyType key wire = .ok v) :
    statementOf kind wire = some v.statement := by
  rw [verifySingle] at h
  rw [statementOf]
  split at h
  · cases h
  · rename_i body containers hsplit
    split at h
    · cases h
    · split at h
      · cases h
      · rename_i statement hbody
        split at h
        · cases h
        · cases h
          simp [hbody, Except.toOption]

/-- What verified is determined by the wire, whatever the key. -/
theorem verifySingle_inj {keyType keyType' : KeyType} {key key' wire : Bytes} {v v' : Verified c kind}
    (h : verifySingle c kind keyType key wire = .ok v)
    (h' : verifySingle c kind keyType' key' wire = .ok v') : v = v' := by
  have hstatement : v.statement = v'.statement :=
    Option.some.inj ((verifySingle_eq_ok h).symm.trans (verifySingle_eq_ok h'))
  have hhash : v.messageHash = v'.messageHash := by
    rw [verifySingle] at h h'
    cases hsplit : splitWire wire kind.maxBodyLen with
    | error e => simp [hsplit] at h
    | ok r =>
      simp only [hsplit] at h h'
      split at h
      · cases h
      · split at h
        · cases h
        · split at h
          · cases h
          · cases h
            split at h'
            · cases h'
            · split at h'
              · cases h'
              · split at h'
                · cases h'
                · cases h'
                  rfl
  cases v
  cases v'
  cases hstatement
  cases hhash
  rfl

end Single

/-! ### Device certificates -/

/-- The web vault is the one kind of device that is never in the device set. -/
inductive DeviceKind
  | desktopCli
  | extension
  | mobile
  | webEphemeral
  deriving DecidableEq

namespace DeviceKind

def toU8 : DeviceKind → ℕ
  | desktopCli => 1
  | extension => 2
  | mobile => 3
  | webEphemeral => 4

def fromU8 (value : ℕ) : Option DeviceKind :=
  [desktopCli, extension, mobile, webEphemeral].find? fun kind => kind.toU8 = value

def isDurable : DeviceKind → Bool
  | webEphemeral => false
  | _ => true

end DeviceKind

/-- The longest lifetime of a certificate of the web vault: 12 h. -/
def webCertMaxLifetimeMs : ℕ := 12 * 60 * 60 * 1000

structure DeviceCertificate where
  accountId : Bytes
  deviceId : Bytes
  identityEpoch : ℕ
  deviceEd25519 : Bytes
  deviceX25519 : Bytes
  deviceKind : DeviceKind
  createdAtMs : ℕ
  expiresAtMs : ℕ
  deriving DecidableEq

namespace DeviceCertificate

def bodyLen : ℕ := 2 * idLen + 4 + 2 * publicKeyLen + 1 + 8 + 8

/-- The rules for the times: the one of expiry is `0` if there is none. -/
def validate (cert : DeviceCertificate) : Except ParseError Unit :=
  if cert.expiresAtMs ≠ 0 ∧ cert.expiresAtMs ≤ cert.createdAtMs then .error .invalidValue
  else if cert.deviceKind = .webEphemeral ∧
      (2 ^ 64 ≤ cert.createdAtMs + webCertMaxLifetimeMs ∨ cert.expiresAtMs = 0 ∨
        cert.createdAtMs + webCertMaxLifetimeMs < cert.expiresAtMs) then .error .invalidValue
  else .ok ()

def inDeviceSet (cert : DeviceCertificate) : Bool := cert.deviceKind.isDurable

def encodeBody (cert : DeviceCertificate) : Option Bytes :=
  match cert.validate with
  | .error _ => none
  | .ok () =>
    some (cert.accountId ++ cert.deviceId ++ beBytes 4 cert.identityEpoch ++ cert.deviceEd25519 ++
      cert.deviceX25519 ++ beBytes 1 cert.deviceKind.toU8 ++ beBytes 8 cert.createdAtMs ++
      beBytes 8 cert.expiresAtMs)

def readBody (c : Crypto) : Reader DeviceCertificate := do
  let accountId ← Reader.take idLen
  let deviceId ← Reader.take idLen
  let identityEpoch ← Reader.u32
  let deviceEd25519 ← Reader.take publicKeyLen
  Parser.require (c.isVerifyingKey deviceEd25519) .invalidValue
  let deviceX25519 ← Reader.take publicKeyLen
  let deviceKind ← Parser.ofOption (DeviceKind.fromU8 (← Reader.u8)) .invalidValue
  let createdAtMs ← Reader.u64
  let expiresAtMs ← Reader.u64
  Reader.finish
  return ⟨accountId, deviceId, identityEpoch, deviceEd25519, deviceX25519, deviceKind, createdAtMs,
    expiresAtMs⟩

def decodeBody (c : Crypto) (body : Bytes) : Except ParseError DeviceCertificate := do
  let (cert, _) ← (readBody c).run body
  cert.validate
  return cert

end DeviceCertificate

def deviceCertificate (c : Crypto) : StatementKind DeviceCertificate where
  label := label "sig/device-certificate".toList
  maxBodyLen := DeviceCertificate.bodyLen
  decodeBody := DeviceCertificate.decodeBody c

abbrev VerifiedCert (c : Crypto) := Verified c (deviceCertificate c)

/-- Verifies a certificate under the identity key of an epoch. -/
def DeviceCertificate.verify (c : Crypto) (wire identity : Bytes) (identityEpoch : ℕ) :
    Except VerifyError (VerifiedCert c) := do
  let cert ← verifySingle c (deviceCertificate c) .identityEd25519 identity wire
  if cert.statement.identityEpoch ≠ identityEpoch then throw .mismatch
  return cert

/-! ### Device revocations -/

structure DeviceRevocation where
  accountId : Bytes
  deviceId : Bytes
  lastAcceptedDeviceSeq : ℕ
  revokedAtMs : ℕ
  deriving DecidableEq

namespace DeviceRevocation

def bodyLen : ℕ := 2 * idLen + 8 + 8

def encodeBody (revocation : DeviceRevocation) : Bytes :=
  revocation.accountId ++ revocation.deviceId ++ beBytes 8 revocation.lastAcceptedDeviceSeq ++
    beBytes 8 revocation.revokedAtMs

def readBody : Reader DeviceRevocation := do
  let accountId ← Reader.take idLen
  let deviceId ← Reader.take idLen
  let lastAcceptedDeviceSeq ← Reader.u64
  let revokedAtMs ← Reader.u64
  Reader.finish
  return ⟨accountId, deviceId, lastAcceptedDeviceSeq, revokedAtMs⟩

def decodeBody (body : Bytes) : Except ParseError DeviceRevocation := do
  let (revocation, _) ← readBody.run body
  return revocation

end DeviceRevocation

def deviceRevocation : StatementKind DeviceRevocation where
  label := label "sig/device-revocation".toList
  maxBodyLen := DeviceRevocation.bodyLen
  decodeBody := DeviceRevocation.decodeBody

abbrev VerifiedRevocation (c : Crypto) := Verified c deviceRevocation

/-- Verifies a revocation under an identity key. Its body names no epoch. -/
def DeviceRevocation.verify (c : Crypto) (wire identity : Bytes) :
    Except VerifyError (VerifiedRevocation c) :=
  verifySingle c deviceRevocation .identityEd25519 identity wire

/-! ### Account states -/

/-- The kdf ids a client accepts, all of them enabled. -/
def kdfAllowList : List ℕ := [1]

def kdfDefault : ℕ := 1

inductive SyncMode
  | server
  | onDevice
  deriving DecidableEq

namespace SyncMode

def toU8 : SyncMode → ℕ
  | server => 1
  | onDevice => 2

def fromU8 (value : ℕ) : Option SyncMode := [server, onDevice].find? fun mode => mode.toU8 = value

end SyncMode

/-- `0` and `1`. -/
def boolFromU8 : ℕ → Option Bool
  | 0 => some false
  | 1 => some true
  | _ => none

def stateHashLen : ℕ := 32

structure AccountState where
  accountId : Bytes
  stateSeq : ℕ
  identityEpoch : ℕ
  accountKeyEpoch : ℕ
  accountKeyId : Bytes
  passwordEpoch : ℕ
  kdfId : ℕ
  recoveryEpoch : ℕ
  recoveryEnabled : Bool
  syncMode : SyncMode
  mailKeyEpoch : ℕ
  bundleHash : Bytes
  deviceSetHash : Bytes
  settingsSeq : ℕ
  settingsHash : Bytes
  deriving DecidableEq

namespace AccountState

def bodyLen : ℕ :=
  idLen + 8 + 4 + 4 + idLen + 4 + 2 + 4 + 1 + 1 + 4 + stateHashLen + stateHashLen + 8 + stateHashLen

/-- The hash of settings that do not exist. -/
def noSettingsHash : Bytes := List.replicate stateHashLen 0

def validate (state : AccountState) : Except ParseError Unit :=
  if state.stateSeq = 0 ∨ (state.recoveryEnabled ∧ state.recoveryEpoch = 0) ∨
      ¬ (state.settingsSeq = 0 ↔ state.settingsHash = noSettingsHash) then .error .invalidValue
  else .ok ()

def encodeBody (state : AccountState) : Option Bytes :=
  match state.validate with
  | .error _ => none
  | .ok () =>
    some (state.accountId ++ beBytes 8 state.stateSeq ++ beBytes 4 state.identityEpoch ++
      beBytes 4 state.accountKeyEpoch ++ state.accountKeyId ++ beBytes 4 state.passwordEpoch ++
      beBytes 2 state.kdfId ++ beBytes 4 state.recoveryEpoch ++
      beBytes 1 (if state.recoveryEnabled then 1 else 0) ++ beBytes 1 state.syncMode.toU8 ++
      beBytes 4 state.mailKeyEpoch ++ state.bundleHash ++ state.deviceSetHash ++
      beBytes 8 state.settingsSeq ++ state.settingsHash)

def readBody : Reader AccountState := do
  let accountId ← Reader.take idLen
  let stateSeq ← Reader.u64
  let identityEpoch ← Reader.u32
  let accountKeyEpoch ← Reader.u32
  let accountKeyId ← Reader.take idLen
  let passwordEpoch ← Reader.u32
  let kdfId ← Reader.u16
  Parser.require (kdfAllowList.contains kdfId) .invalidValue
  let recoveryEpoch ← Reader.u32
  let recoveryEnabled ← Parser.ofOption (boolFromU8 (← Reader.u8)) .invalidValue
  let syncMode ← Parser.ofOption (SyncMode.fromU8 (← Reader.u8)) .invalidValue
  let mailKeyEpoch ← Reader.u32
  let bundleHash ← Reader.take stateHashLen
  let deviceSetHash ← Reader.take stateHashLen
  let settingsSeq ← Reader.u64
  let settingsHash ← Reader.take stateHashLen
  Reader.finish
  return ⟨accountId, stateSeq, identityEpoch, accountKeyEpoch, accountKeyId, passwordEpoch, kdfId,
    recoveryEpoch, recoveryEnabled, syncMode, mailKeyEpoch, bundleHash, deviceSetHash, settingsSeq,
    settingsHash⟩

def decodeBody (body : Bytes) : Except ParseError AccountState := do
  let (state, _) ← readBody.run body
  state.validate
  return state

end AccountState

def accountState : StatementKind AccountState where
  label := label "sig/account-state".toList
  maxBodyLen := AccountState.bodyLen
  decodeBody := AccountState.decodeBody

abbrev VerifiedState (c : Crypto) := Verified c accountState

/-- Verifies a state under the identity key of an epoch. -/
def AccountState.verify (c : Crypto) (wire identity : Bytes) (identityEpoch : ℕ) :
    Except VerifyError (VerifiedState c) := do
  let state ← verifySingle c accountState .identityEd25519 identity wire
  if state.statement.identityEpoch ≠ identityEpoch then throw .mismatch
  return state

/-! ### Key grants -/

/-- The purposes of signed grants. -/
inductive GrantPurpose
  | accountKeyDevice
  | passwordVerifier
  | vaultKeyMember
  deriving DecidableEq

namespace GrantPurpose

def toU16 : GrantPurpose → ℕ
  | accountKeyDevice => 0x0004
  | passwordVerifier => 0x0005
  | vaultKeyMember => 0x0021

def fromU16 (value : ℕ) : Option GrantPurpose :=
  [accountKeyDevice, passwordVerifier, vaultKeyMember].find? fun purpose => purpose.toU16 = value

/-- The algorithm of the purpose's envelopes. -/
def alg : GrantPurpose → AlgId
  | accountKeyDevice | passwordVerifier => .hpkePskX25519
  | vaultKeyMember => .hpkeBaseX25519

/-- Whether a key of this type may sign a grant of the purpose. -/
def signerAllowed : GrantPurpose → KeyType → Bool
  | accountKeyDevice, .deviceEd25519 | passwordVerifier, .deviceEd25519
  | accountKeyDevice, .identityEd25519 | vaultKeyMember, .identityEd25519 => true
  | _, _ => false

end GrantPurpose

def maxGrantEnvelopeLen : ℕ := 16 * 1024 * 1024 + hpkeOverhead

structure KeyGrant where
  purpose : GrantPurpose
  senderKeyId : Bytes
  recipientKeyId : Bytes
  envelope : Bytes
  deriving DecidableEq

namespace KeyGrant

/-- The recipient's key id in the header of an envelope that fits the purpose. -/
def checkEnvelope (purpose : GrantPurpose) (envelope : Bytes) : Option Bytes :=
  if maxGrantEnvelopeLen < envelope.length then none
  else
    match parseEnvelope envelope with
    | some env => if env.alg = purpose.alg then some env.keyId else none
    | none => none

def readBody : Reader KeyGrant := do
  let purpose ← Parser.ofOption (GrantPurpose.fromU16 (← Reader.u16)) .invalidValue
  let senderKeyId ← Reader.take idLen
  let recipientKeyId ← Reader.take idLen
  let envelope ← Reader.bytesMax maxGrantEnvelopeLen
  Reader.finish
  Parser.require (decide (checkEnvelope purpose envelope = some recipientKeyId)) .invalidValue
  return ⟨purpose, senderKeyId, recipientKeyId, envelope⟩

def decodeBody (body : Bytes) : Except ParseError KeyGrant := do
  let (grant, _) ← readBody.run body
  return grant

end KeyGrant

def keyGrant : StatementKind KeyGrant where
  label := label "sig/key-grant".toList
  maxBodyLen := 2 + 2 * idLen + 4 + maxGrantEnvelopeLen
  decodeBody := KeyGrant.decodeBody

/-- Verifies a grant under the key of its sender. -/
def KeyGrant.verify (c : Crypto) (wire : Bytes) (keyType : KeyType) (sender : Bytes) :
    Except VerifyError (Verified c keyGrant) := do
  let grant ← verifySingle c keyGrant keyType sender wire
  if grant.statement.senderKeyId ≠ keyId c keyType sender ∨
      grant.statement.purpose.signerAllowed keyType = false then throw .wrongSigner
  return grant

/-! ### Statements whose bodies do not travel -/

/-- Verifies a container over a body the verifier rebuilt. -/
def verifyDetached (c : Crypto) (label body container device : Bytes) : Except VerifyError Unit := do
  let container ← SignatureContainer.fromBytes container
  verifyContainer c .deviceEd25519 device (signedMessage label body) container

/-- The answer to a challenge of device authentication. -/
structure DeviceAuth where
  serverOrigin : Bytes
  accountId : Bytes
  deviceId : Bytes
  challenge : Bytes

def DeviceAuth.verify (c : Crypto) (auth : DeviceAuth) (container device : Bytes) :
    Except VerifyError Unit :=
  verifyDetached c (label "sig/device-auth".toList)
    (putBytes auth.serverOrigin ++ auth.accountId ++ auth.deviceId ++ auth.challenge)
    container device

/-- A request over a device session, as the server received it. -/
structure DeviceRequest where
  serverOrigin : Bytes
  accountId : Bytes
  deviceId : Bytes
  sessionId : Bytes
  requestCounter : ℕ
  method : Bytes
  pathAndQuery : Bytes
  bodyHash : Bytes

def DeviceRequest.verify (c : Crypto) (request : DeviceRequest) (container device : Bytes) :
    Except VerifyError Unit :=
  if request.method = [] then .error (.malformed .invalidValue)
  else
    verifyDetached c (label "sig/device-request".toList)
      (putBytes request.serverOrigin ++ request.accountId ++ request.deviceId ++
        request.sessionId ++ beBytes 8 request.requestCounter ++ putBytes request.method ++
        putBytes request.pathAndQuery ++ request.bodyHash)
      container device

end RizzyVault.Core
