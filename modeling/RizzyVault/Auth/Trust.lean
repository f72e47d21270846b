import RizzyVault.Auth.BundleChain
import RizzyVault.Auth.Store
import RizzyVault.Lib.Rows

/-!
# What the server believes about an account

The stored bundle chain, verified from its first bundle, is the root of everything else: the state,
the certificates and the revocations are verified again under its keys each time they are used. A
certificate the head does not vouch for is left out; a revocation it does not vouch for still
revokes.

## Main definitions

* `AccountTrust`, `AccountTrust.load`: the verified chain and state.
* `Devices`, `AccountTrust.devices`: the certificates and revocations under the head.
* `Devices.usableDurable`, `Devices.deviceSetWith`.

## Main results

* `cert_eq`, `revocation_eq`, `isRevoked_eq`: the devices, row by row.
* `exists_devices`: when the rows load.

## References

* `crates/rizzy-domain-auth/src/trust.rs`.
-/

open RizzyVault.Core RizzyVault.Lib

namespace RizzyVault.Auth

variable {c : Crypto}

/-! ### The chain and the state -/

/-- The account's verified keys and state. -/
structure AccountTrust (c : Crypto) where
  accountId : Bytes
  /-- Oldest first. -/
  chain : List (VerifiedBundle c)
  chainWires : List Bytes
  state : VerifiedState c
  stateWire : Bytes

/-- A stored state, under the key of the newest bundle it verifies under. -/
def verifyStoredState (chain : List (VerifiedBundle c)) (wire accountId : Bytes) :
    Except AuthError (VerifiedState c) :=
  match chain.reverse.findSome? fun bundle =>
      (AccountState.verify c wire bundle.identityEd25519 bundle.identityEpoch).toOption with
  | none => .error .internal
  | some state =>
    if state.statement.accountId ≠ accountId ∨ (bundleForState chain state.statement).isNone then
      .error .internal
    else .ok state

namespace AccountTrust

/-- Loads and verifies the chain and the state. -/
def load (c : Crypto) (account : Account) : Except AuthError (AccountTrust c) :=
  if account.bundles = [] then .error .notFound
  else
    match verifyChainFromStart c account.bundles with
    | .error _ => .error .internal
    | .ok chain =>
      if chain.any fun bundle => bundle.accountId ≠ account.accountId then .error .internal
      else
        match account.state with
        | none => .error .notFound
        | some row =>
          match verifyStoredState chain row.statement account.accountId with
          | .error e => .error e
          | .ok state => .ok ⟨account.accountId, chain, account.bundles, state, row.statement⟩

/-- The current identity keys. -/
def head (trust : AccountTrust c) : Except AuthError (VerifiedBundle c) :=
  match trust.chain.getLast? with
  | none => .error .internal
  | some head => .ok head

def headWire (trust : AccountTrust c) : Except AuthError Bytes :=
  match trust.chainWires.getLast? with
  | none => .error .internal
  | some wire => .ok wire

end AccountTrust

/-! ### Devices -/

/-- A stored certificate, verified. -/
structure StoredCert (c : Crypto) where
  cert : VerifiedCert c
  wire : Bytes
  suspended : Bool
  storedAtMs : ℕ

/-- A stored revocation, verified. -/
structure StoredRevocation (c : Crypto) where
  revocation : VerifiedRevocation c
  wire : Bytes

/-- The certificates and revocations of an account that its head vouches for. -/
structure Devices (c : Crypto) where
  certs : List (StoredCert c)
  revocations : List (StoredRevocation c)
  /-- Devices with a stored revocation that does not verify: still revoked. -/
  revokedUnverified : List Bytes

def StoredCert.deviceId (stored : StoredCert c) : Bytes := stored.cert.statement.deviceId

def StoredRevocation.deviceId (stored : StoredRevocation c) : Bytes :=
  stored.revocation.statement.deviceId

/-- A certificate row, if the head vouches for it. -/
def StoredCert.ofRow (head : VerifiedBundle c) (accountId : Bytes) (row : CertRow) :
    Option (StoredCert c) :=
  match verifyCertificate row.certificate head accountId with
  | .error _ => none
  | .ok cert => some ⟨cert, row.certificate, row.suspendedAtMs.isSome, row.storedAtMs⟩

/-- A revocation row, if the head vouches for it. -/
def StoredRevocation.ofRow (head : VerifiedBundle c) (accountId wire : Bytes) :
    Option (StoredRevocation c) :=
  match verifyRevocation wire head accountId with
  | .error _ => none
  | .ok revocation => some ⟨revocation, wire⟩

/-- The certificate rows the head vouches for. One under another device is a tampered row. -/
def storedCerts (head : VerifiedBundle c) (accountId : Bytes) :
    List (Bytes × CertRow) → Except AuthError (List (StoredCert c))
  | [] => .ok []
  | (deviceId, row) :: rows =>
    match StoredCert.ofRow head accountId row with
    | none => storedCerts head accountId rows
    | some stored =>
      if stored.deviceId ≠ deviceId then .error .internal
      else do return stored :: (← storedCerts head accountId rows)

/-- The revocation rows the head vouches for, and the devices of the others. -/
def storedRevocations (head : VerifiedBundle c) (accountId : Bytes) :
    List (Bytes × Bytes) → Except AuthError (List (StoredRevocation c) × List Bytes)
  | [] => .ok ([], [])
  | (deviceId, wire) :: rows =>
    match StoredRevocation.ofRow head accountId wire with
    | none => do
      let (revocations, unverified) ← storedRevocations head accountId rows
      return (revocations, deviceId :: unverified)
    | some stored =>
      if stored.deviceId ≠ deviceId then .error .internal
      else do
        let (revocations, unverified) ← storedRevocations head accountId rows
        return (stored :: revocations, unverified)

/-- The stored certificates and revocations, verified under the head. -/
def AccountTrust.devices (trust : AccountTrust c) (account : Account) :
    Except AuthError (Devices c) := do
  let head ← trust.head
  let certs ← storedCerts head trust.accountId account.certs.toList
  let (revocations, unverified) ←
    storedRevocations head trust.accountId account.revocations.toList
  return ⟨certs, revocations, unverified⟩

/-- The stored certificate of a device under the newest bundle that vouches for it. -/
def AccountTrust.storedCertificate (trust : AccountTrust c) (account : Account)
    (deviceId : Bytes) : Option (VerifiedCert c) :=
  match account.certs[deviceId]? with
  | none => none
  | some row =>
    trust.chain.reverse.findSome? fun bundle =>
      match verifyCertificate row.certificate bundle trust.accountId with
      | .error _ => none
      | .ok cert => if cert.statement.deviceId = deviceId then some cert else none

namespace Devices

def cert (devices : Devices c) (deviceId : Bytes) : Option (StoredCert c) :=
  devices.certs.find? fun stored => stored.deviceId = deviceId

def revocation (devices : Devices c) (deviceId : Bytes) : Option (StoredRevocation c) :=
  devices.revocations.find? fun stored => stored.deviceId = deviceId

/-- Whether any stored revocation names the device, verified or not. -/
def isRevoked (devices : Devices c) (deviceId : Bytes) : Bool :=
  (devices.revocation deviceId).isSome || devices.revokedUnverified.contains deviceId

/-- The certificate of a device that may act now. -/
def usableDurable (devices : Devices c) (deviceId : Bytes) (nowMs : ℕ) : Option (StoredCert c) :=
  (devices.cert deviceId).filter fun stored =>
    stored.cert.statement.inDeviceSet && !stored.suspended && !devices.isRevoked deviceId &&
      (stored.cert.statement.expiresAtMs = 0 ∨ nowMs < stored.cert.statement.expiresAtMs)

/-- The device-set hash after these statements replace those of their devices or join them. -/
def deviceSetWith (devices : Devices c) (accountId : Bytes) (newCerts : List (VerifiedCert c))
    (newRevocations : List (VerifiedRevocation c)) : Except AuthError Bytes :=
  let certs := (devices.certs.filter fun stored =>
    !newCerts.any fun n => n.statement.deviceId = stored.deviceId).map (·.cert) ++ newCerts
  let revocations := (devices.revocations.filter fun stored =>
    !newRevocations.any fun n => n.statement.deviceId = stored.deviceId).map (·.revocation) ++
      newRevocations
  deviceSet accountId certs revocations

end Devices

/-! ### The devices, row by row -/

section Rows

variable {head : VerifiedBundle c} {accountId : Bytes}

theorem storedCerts_eq_ok_iff {rows : List (Bytes × CertRow)} {certs : List (StoredCert c)} :
    storedCerts head accountId rows = .ok certs ↔
      (∀ r ∈ rows, ∀ stored ∈ StoredCert.ofRow head accountId r.2, stored.deviceId = r.1) ∧
        certs = rows.filterMap fun r => StoredCert.ofRow head accountId r.2 := by
  induction rows generalizing certs with
  | nil => simp [storedCerts, eq_comm]
  | cons r rows ih =>
    obtain ⟨deviceId, row⟩ := r
    rw [storedCerts, List.forall_mem_cons, List.filterMap_cons]
    cases hrow : StoredCert.ofRow head accountId row with
    | none => simpa using ih
    | some stored =>
      by_cases hid : stored.deviceId = deviceId
      · simp only [hid, ne_eq, not_true_eq_false, if_false, except_bind_eq_ok, ih]
        constructor
        · rintro ⟨rest, ⟨hall, rfl⟩, h⟩
          cases h
          exact ⟨⟨by simpa using hid, hall⟩, rfl⟩
        · rintro ⟨⟨-, hall⟩, rfl⟩
          exact ⟨_, ⟨hall, rfl⟩, rfl⟩
      · simp [hid]

theorem storedRevocations_eq_ok_iff {rows : List (Bytes × Bytes)}
    {revocations : List (StoredRevocation c)} {unverified : List Bytes} :
    storedRevocations head accountId rows = .ok (revocations, unverified) ↔
      (∀ r ∈ rows, ∀ stored ∈ StoredRevocation.ofRow head accountId r.2, stored.deviceId = r.1) ∧
        revocations = rows.filterMap (fun r => StoredRevocation.ofRow head accountId r.2) ∧
        unverified =
          (rows.filter fun r => (StoredRevocation.ofRow head accountId r.2).isNone).map (·.1) := by
  induction rows generalizing revocations unverified with
  | nil => simp [storedRevocations, eq_comm]
  | cons r rows ih =>
    obtain ⟨deviceId, wire⟩ := r
    rw [storedRevocations, List.forall_mem_cons, List.filterMap_cons, List.filter_cons]
    cases hrow : StoredRevocation.ofRow head accountId wire with
    | none =>
      simp only [except_bind_eq_ok, Prod.exists, ih]
      constructor
      · rintro ⟨_, _, ⟨hall, rfl, rfl⟩, h⟩
        cases h
        exact ⟨⟨by simp, hall⟩, rfl, rfl⟩
      · rintro ⟨⟨-, hall⟩, rfl, rfl⟩
        exact ⟨_, _, ⟨hall, rfl, rfl⟩, rfl⟩
    | some stored =>
      by_cases hid : stored.deviceId = deviceId
      · simp only [hid, ne_eq, not_true_eq_false, if_false, except_bind_eq_ok, Prod.exists, ih]
        constructor
        · rintro ⟨_, _, ⟨hall, rfl, rfl⟩, h⟩
          cases h
          exact ⟨⟨by simpa using hid, hall⟩, rfl, rfl⟩
        · rintro ⟨⟨-, hall⟩, rfl, rfl⟩
          exact ⟨_, _, ⟨hall, rfl, rfl⟩, rfl⟩
      · simp [hid]

variable {trust : AccountTrust c} {account : Account} {devices : Devices c}

theorem devices_eq_ok (h : trust.devices account = .ok devices) :
    ∃ head, trust.head = .ok head ∧
      storedCerts head trust.accountId account.certs.toList = .ok devices.certs ∧
      storedRevocations head trust.accountId account.revocations.toList =
        .ok (devices.revocations, devices.revokedUnverified) := by
  obtain ⟨head, hhead, h⟩ := except_bind_eq_ok.mp h
  obtain ⟨certs, hcerts, h⟩ := except_bind_eq_ok.mp h
  obtain ⟨revs, hrevs, h⟩ := except_bind_eq_ok.mp h
  cases h
  exact ⟨head, hhead, hcerts, hrevs⟩

theorem devices_keyed (h : trust.devices account = .ok devices) :
    Keyed StoredCert.deviceId devices.certs := by
  obtain ⟨head, -, hcerts, -⟩ := devices_eq_ok h
  obtain ⟨hkeys, hcerts⟩ := storedCerts_eq_ok_iff.mp hcerts
  rw [hcerts]
  exact Keyed.filterMap (nodup_keys_toList account.certs) hkeys

/-- The certificate of a device is its row, if the head vouches for it. -/
theorem cert_eq (h : trust.devices account = .ok devices) (hhead : trust.head = .ok head)
    (deviceId : Bytes) :
    devices.cert deviceId =
      (account.certs[deviceId]?).bind (StoredCert.ofRow head trust.accountId) := by
  obtain ⟨head', hhead', hcerts, -⟩ := devices_eq_ok h
  obtain rfl := Except.ok.inj (hhead.symm.trans hhead')
  obtain ⟨hkeys, hcerts⟩ := storedCerts_eq_ok_iff.mp hcerts
  have hrow := rowAt_filterMap (nodup_keys_toList account.certs) hkeys deviceId
  rw [← hcerts] at hrow
  rw [Devices.cert, ← rowAt, hrow, rowAt_toList]
  cases account.certs[deviceId]? with
  | none => rfl
  | some row => rfl

theorem revocation_eq (h : trust.devices account = .ok devices) (hhead : trust.head = .ok head)
    (deviceId : Bytes) :
    devices.revocation deviceId =
      (account.revocations[deviceId]?).bind (StoredRevocation.ofRow head trust.accountId) := by
  obtain ⟨head', hhead', -, hrevs⟩ := devices_eq_ok h
  obtain rfl := Except.ok.inj (hhead.symm.trans hhead')
  obtain ⟨hkeys, hrevs, -⟩ := storedRevocations_eq_ok_iff.mp hrevs
  have hrow := rowAt_filterMap (nodup_keys_toList account.revocations) hkeys deviceId
  rw [← hrevs] at hrow
  rw [Devices.revocation, ← rowAt, hrow, rowAt_toList]
  cases account.revocations[deviceId]? with
  | none => rfl
  | some row => rfl

/-- A device is revoked exactly if a row names it. -/
theorem isRevoked_eq (h : trust.devices account = .ok devices) (deviceId : Bytes) :
    devices.isRevoked deviceId = (account.revocations[deviceId]?).isSome := by
  obtain ⟨head, hhead, -, hrevs⟩ := devices_eq_ok h
  obtain ⟨-, -, hunverified⟩ := storedRevocations_eq_ok_iff.mp hrevs
  have hmem : deviceId ∈ devices.revokedUnverified ↔ ∃ wire,
      account.revocations[deviceId]? = some wire ∧
        StoredRevocation.ofRow head trust.accountId wire = none := by
    simp [hunverified, Std.ExtTreeMap.mem_toList_iff_getElem?_eq_some]
  rw [Devices.isRevoked, revocation_eq h hhead, Bool.eq_iff_iff, Bool.or_eq_true,
    List.contains_iff_mem, hmem]
  cases hrow : account.revocations[deviceId]? with
  | none => simp
  | some wire =>
    cases hstored : StoredRevocation.ofRow head trust.accountId wire <;> simp [hstored]

/-- The devices load when every row the head vouches for is under its own device. -/
theorem exists_devices (hhead : trust.head = .ok head)
    (hcerts : ∀ deviceId row, account.certs[deviceId]? = some row →
      ∀ stored ∈ StoredCert.ofRow head trust.accountId row, stored.deviceId = deviceId)
    (hrevocations : ∀ deviceId wire, account.revocations[deviceId]? = some wire →
      ∀ stored ∈ StoredRevocation.ofRow head trust.accountId wire, stored.deviceId = deviceId) :
    ∃ devices, trust.devices account = .ok devices := by
  have hc := storedCerts_eq_ok_iff.mpr ⟨fun r hr =>
    hcerts r.1 r.2 (Std.ExtTreeMap.mem_toList_iff_getElem?_eq_some.mp hr), rfl⟩
  have hr := storedRevocations_eq_ok_iff.mpr ⟨fun r hr =>
    hrevocations r.1 r.2 (Std.ExtTreeMap.mem_toList_iff_getElem?_eq_some.mp hr), rfl, rfl⟩
  exact ⟨_, except_bind_eq_ok.mpr ⟨head, hhead, except_bind_eq_ok.mpr ⟨_, hc,
    except_bind_eq_ok.mpr ⟨_, hr, rfl⟩⟩⟩⟩

end Rows

end RizzyVault.Auth
