import RizzyVault.Core.DeviceSet

/-!
# The rules of the auth domain

The checks on statements a client sent or the server stored, and on how a new state of the account
may differ from the current one.

## Main definitions

* `AuthError`: why a call was refused.
* `verifyChainFromStart`, `extendChain`: the two verifications of a bundle chain.
* `verifyStateAtHead`, `verifyCertificate`, `verifyRevocation`: statements under the head of a chain.
* `Transition`, `classify`: what a new state changes.
* `isReissue`: a certificate under another identity epoch.

## References

* `crates/rizzy-domain-auth/src/rules.rs`, `crates/rizzy-domain-auth/src/error.rs`.
-/

open RizzyVault.Core

namespace RizzyVault.Auth

/-- Why the server refused a call. -/
inductive AuthError
  | invalidRequest
  | unauthorized
  | secondFactorRequired
  | freshSessionRequired
  | rateLimited (retryAfterMs : Option ℕ)
  | notFound
  | stateConflict
  | stateFork
  | conflict
  | signupRefused
  | setupRetired
  | credentialsStale
  | recoveryWaiting (retryAfterMs : ℕ)
  | storage
  | internal
  deriving DecidableEq

/-! ### Bundle chains -/

/-- Why an uploaded chain does not extend the stored one. -/
inductive ChainExtendError
  | invalid
  | fork
  deriving DecidableEq

variable {c : Crypto}

/-- The successors of `last` in order, none of them a repeat. -/
def verifySuccessors (last : VerifiedBundle c) :
    List Bytes → Except AuthError (List (VerifiedBundle c))
  | [] => .ok []
  | wire :: rest =>
    match verifySuccessor last wire with
    | .error _ | .ok (_, .unchanged) => .error .invalidRequest
    | .ok (next, .silent) | .ok (next, .identityChanged) =>
      match verifySuccessors next rest with
      | .error e => .error e
      | .ok chain => .ok (next :: chain)

/-- Verifies a whole chain from its first bundle. -/
def verifyChainFromStart (c : Crypto) (wires : List Bytes) :
    Except AuthError (List (VerifiedBundle c)) :=
  match wires with
  | [] => .error .invalidRequest
  | wire :: rest =>
    match verifySelfSigned c wire with
    | .error _ => .error .invalidRequest
    | .ok first =>
      if first.bundleSeq ≠ 1 then .error .invalidRequest
      else
        match verifySuccessors first rest with
        | .error e => .error e
        | .ok chain => .ok (first :: chain)

/-- The uploaded bundles that extend the stored chain past `head`, from the wires after the one with
the number `lastSeq`. -/
def extendFrom (stored : List (VerifiedBundle c)) (head : VerifiedBundle c) (lastSeq : ℕ) :
    List Bytes → Except ChainExtendError (List (VerifiedBundle c × Bytes))
  | [] => .ok []
  | wire :: rest =>
    match verifySelfSigned c wire with
    | .error _ => .error .invalid
    | .ok bundle =>
      if bundle.bundleSeq ≤ lastSeq then .error .invalid
      else if bundle.bundleSeq ≤ head.bundleSeq then
        match stored[bundle.bundleSeq - 1]? with
        | none => .error .invalid
        | some storedBundle =>
          if storedBundle.bundleSeq ≠ bundle.bundleSeq ∨ storedBundle.hash ≠ bundle.hash then
            .error .fork
          else extendFrom stored head bundle.bundleSeq rest
      else
        match verifySuccessor head wire with
        | .ok (next, .silent) | .ok (next, .identityChanged) =>
          match extendFrom stored next bundle.bundleSeq rest with
          | .error e => .error e
          | .ok new => .ok ((next, wire) :: new)
        | .error .fork | .error .rollback => .error .fork
        | .ok (_, .unchanged) | .error _ => .error .invalid

/-- The uploaded bundles that extend the stored chain. -/
def extendChain (stored : List (VerifiedBundle c)) (wires : List Bytes) :
    Except ChainExtendError (List (VerifiedBundle c × Bytes)) :=
  match stored.getLast? with
  | none => .error .invalid
  | some head => extendFrom stored head 0 wires

/-! ### Statements against the head -/

/-- The newest bundle of a chain that a state commits to. -/
def bundleForState (chain : List (VerifiedBundle c)) (state : AccountState) :
    Option (VerifiedBundle c) :=
  chain.reverse.find? fun bundle => state.matchesBundle bundle

/-- A state under the identity key of the head, of the account, committing to the head. -/
def verifyStateAtHead (wire : Bytes) (head : VerifiedBundle c) (accountId : Bytes) :
    Except AuthError (VerifiedState c) :=
  match AccountState.verify c wire head.identityEd25519 head.identityEpoch with
  | .error _ => .error .invalidRequest
  | .ok state =>
    if state.statement.accountId ≠ accountId ∨ state.statement.matchesBundle head = false then
      .error .invalidRequest
    else .ok state

/-- A certificate under the identity key and the epoch of the head, of the account. -/
def verifyCertificate (wire : Bytes) (head : VerifiedBundle c) (accountId : Bytes) :
    Except AuthError (VerifiedCert c) :=
  match DeviceCertificate.verify c wire head.identityEd25519 head.identityEpoch with
  | .error _ => .error .invalidRequest
  | .ok cert =>
    if cert.statement.accountId ≠ accountId then .error .invalidRequest else .ok cert

/-- A revocation under the identity key of the head, of the account. -/
def verifyRevocation (wire : Bytes) (head : VerifiedBundle c) (accountId : Bytes) :
    Except AuthError (VerifiedRevocation c) :=
  match DeviceRevocation.verify c wire head.identityEd25519 with
  | .error _ => .error .invalidRequest
  | .ok revocation =>
    if revocation.statement.accountId ≠ accountId then .error .invalidRequest else .ok revocation

/-- The device-set hash of certificates without those a revocation names. -/
def deviceSet (accountId : Bytes) (certs : List (VerifiedCert c))
    (revocations : List (VerifiedRevocation c)) : Except AuthError Bytes :=
  (deviceSetHash accountId certs revocations).mapError fun _ => .invalidRequest

/-! ### How a state may differ from the current one -/

/-- Only the sequence number and the device-set hash move. -/
def onlyDeviceSetAdvances (current new : AccountState) : Bool :=
  current.stateSeq + 1 = new.stateSeq ∧ new.stateSeq < 2 ^ 64 ∧
    { new with stateSeq := current.stateSeq, deviceSetHash := current.deviceSetHash } = current

/-- How the recovery epoch and its flag move. -/
inductive RecoveryTransition
  | unchanged
  | newCode
  | disabled
  deriving DecidableEq

/-- What a new state changes against the current one. -/
structure Transition where
  passwordBumped : Bool
  kdfChanged : Bool
  accountKeyRotated : Bool
  identityChanged : Bool
  recovery : RecoveryTransition
  settingsChanged : Bool
  deviceSetChanged : Bool
  deriving DecidableEq

/-- Whether an epoch moves: by one, if it does. -/
def epochStep (a b : ℕ) : Except AuthError Bool :=
  if a = b then .ok false
  else if a + 1 = b ∧ b < 2 ^ 32 then .ok true
  else .error .invalidRequest

/-- How recovery moves, from whether its epoch does and the flags before and after. -/
def recoveryStep : Bool → Bool → Bool → Except AuthError RecoveryTransition
  | true, _, true => .ok .newCode
  | false, true, true | false, false, false => .ok .unchanged
  | false, true, false => .ok .disabled
  | _, _, _ => .error .invalidRequest

/-- Whether the settings move. The hash is kept where their number is. -/
def settingsStep (current new : AccountState) : Except AuthError Bool :=
  if new.settingsSeq = current.settingsSeq then
    if new.settingsHash ≠ current.settingsHash then .error .invalidRequest else .ok false
  else if current.settingsSeq + 1 = new.settingsSeq ∧ new.settingsSeq < 2 ^ 64 then .ok true
  else .error .invalidRequest

/-- The step from the current state to a new one, if it is one a flow makes. -/
def classify (current new : AccountState) : Except AuthError Transition := do
  if ¬ (current.stateSeq + 1 = new.stateSeq ∧ new.stateSeq < 2 ^ 64) ∨
      current.accountId ≠ new.accountId ∨ current.syncMode ≠ new.syncMode ∨
      current.mailKeyEpoch ≠ new.mailKeyEpoch then throw .invalidRequest
  let passwordBumped ← epochStep current.passwordEpoch new.passwordEpoch
  let accountKeyRotated ← epochStep current.accountKeyEpoch new.accountKeyEpoch
  if accountKeyRotated = decide (current.accountKeyId = new.accountKeyId) then throw .invalidRequest
  let identityChanged ← epochStep current.identityEpoch new.identityEpoch
  -- An identity changes only in a rotation, and a bundle only with an identity.
  if (identityChanged = true ∧ accountKeyRotated = false) ∨
      (identityChanged = false ∧ current.bundleHash ≠ new.bundleHash) then throw .invalidRequest
  let recoveryMoved ← epochStep current.recoveryEpoch new.recoveryEpoch
  let recovery ← recoveryStep recoveryMoved current.recoveryEnabled new.recoveryEnabled
  let settingsChanged ← settingsStep current new
  -- A rotation encrypts existing settings again.
  if accountKeyRotated = true ∧ 0 < current.settingsSeq ∧ settingsChanged = false then
    throw .invalidRequest
  return {
    passwordBumped, kdfChanged := current.kdfId ≠ new.kdfId, accountKeyRotated, identityChanged,
    recovery, settingsChanged, deviceSetChanged := current.deviceSetHash ≠ new.deviceSetHash }

/-- The certificate again, under another identity epoch. -/
def isReissue (original reissue : DeviceCertificate) : Bool :=
  { reissue with identityEpoch := original.identityEpoch } = original ∧
    reissue.identityEpoch ≠ original.identityEpoch

end RizzyVault.Auth
