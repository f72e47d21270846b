import RizzyVault.Core.Bundle
import RizzyVault.Core.Statements

/-!
# Hashes a signed state commits to

The device-set hash is over the certificates of the durable devices that no revocation names, and
it does not depend on the order of the certificates or of the revocations.

## Main definitions

* `deviceSetHash`, `settingsHash`.
* `AccountState.matchesBundle`, `AccountState.matchesSettings`: the commitments of a state.

## Main results

* `deviceSetHash_congr`: certificates in another order and the same revoked devices give the same
  hash.

## References

* `crates/rizzy-core/src/keys/derive.rs`, `crates/rizzy-core/src/sign/statements.rs`.
-/

namespace RizzyVault.Core

variable {c : Crypto}

inductive DeviceSetError
  | accountMismatch
  | duplicateDevice
  deriving DecidableEq

def labelDeviceSet : Bytes := label "device-set".toList

/-- The certificates of durable devices that are not among `revoked`. -/
def deviceSetMembers (revoked : List Bytes) (certs : List (VerifiedCert c)) :
    List (VerifiedCert c) :=
  certs.filter fun cert => cert.statement.inDeviceSet && !revoked.contains cert.statement.deviceId

/-- The hash of the certificates of durable devices, without those a revocation names. -/
def deviceSetHash (accountId : Bytes) (certs : List (VerifiedCert c))
    (revocations : List (VerifiedRevocation c)) : Except DeviceSetError Bytes :=
  if revocations.any fun r => r.statement.accountId ≠ accountId then .error .accountMismatch
  else if certs.any fun cert => cert.statement.accountId ≠ accountId then .error .accountMismatch
  else
    let members := deviceSetMembers (revocations.map fun r => r.statement.deviceId) certs
    if ¬ (members.map fun cert => cert.statement.deviceId).Nodup then .error .duplicateDevice
    else
      .ok (c.sha256 (labelDeviceSet ++ [0x00] ++
        ((members.map fun cert => cert.messageHash).mergeSort (· ≤ ·)).flatten))

/-- The hash of settings at a sequence number: none exist at `0`, and only there. -/
def settingsHash (c : Crypto) (settingsSeq : ℕ) (envelope : Option Bytes) : Option Bytes :=
  match settingsSeq, envelope with
  | 0, none => some AccountState.noSettingsHash
  | _ + 1, some envelope => some (c.sha256 envelope)
  | _, _ => none

namespace AccountState

/-- Whether the state commits to the bundle. -/
def matchesBundle (state : AccountState) (bundle : VerifiedBundle c) : Bool :=
  state.accountId = bundle.accountId ∧ state.identityEpoch = bundle.identityEpoch ∧
    state.bundleHash = bundle.hash

/-- Whether the state commits to the settings, or to their absence. -/
def matchesSettings (c : Crypto) (state : AccountState) (envelope : Option Bytes) : Bool :=
  Core.settingsHash c state.settingsSeq envelope = some state.settingsHash

end AccountState

/-! ### The order of the certificates -/

theorem mergeSort_eq_of_perm {l l' : List Bytes} (h : l.Perm l') :
    l.mergeSort (· ≤ ·) = l'.mergeSort (· ≤ ·) := by
  have hperm : (l.mergeSort (· ≤ ·)).Perm (l'.mergeSort (· ≤ ·)) :=
    ((List.mergeSort_perm l _).trans h).trans (List.mergeSort_perm l' _).symm
  have hsorted (m : List Bytes) : (m.mergeSort (· ≤ ·)).Pairwise (· ≤ ·) := by
    have htrans (a b c : Bytes) (hab : decide (a ≤ b) = true) (hbc : decide (b ≤ c) = true) :
        decide (a ≤ c) = true :=
      decide_eq_true (le_trans (of_decide_eq_true hab) (of_decide_eq_true hbc))
    have htotal (a b : Bytes) : (decide (a ≤ b) || decide (b ≤ a)) = true := by
      simpa using le_total a b
    have hle := List.pairwise_mergeSort htrans htotal m
    exact hle.imp of_decide_eq_true
  exact hperm.eq_of_pairwise (fun _ _ _ _ hab hba => le_antisymm hab hba) (hsorted l) (hsorted l')

theorem deviceSetMembers_congr {revoked revoked' : List Bytes} (certs : List (VerifiedCert c))
    (h : ∀ d, d ∈ revoked ↔ d ∈ revoked') :
    deviceSetMembers revoked certs = deviceSetMembers revoked' certs := by
  have hcontains (d : Bytes) : revoked.contains d = revoked'.contains d := by
    rw [Bool.eq_iff_iff, List.contains_iff_mem, List.contains_iff_mem]
    exact h d
  simp only [deviceSetMembers, hcontains]

/-- The hash depends on the certificates up to their order, and on which devices are revoked. -/
theorem deviceSetHash_congr {accountId : Bytes} {certs certs' : List (VerifiedCert c)}
    {revocations revocations' : List (VerifiedRevocation c)} (hcerts : certs.Perm certs')
    (hrevoked : ∀ d, d ∈ revocations.map (fun r => r.statement.deviceId) ↔
      d ∈ revocations'.map fun r => r.statement.deviceId)
    (haccount : revocations.any (fun r => r.statement.accountId ≠ accountId) =
      revocations'.any fun r => r.statement.accountId ≠ accountId) :
    deviceSetHash accountId certs revocations = deviceSetHash accountId certs' revocations' := by
  have hmembers : (deviceSetMembers (revocations.map fun r => r.statement.deviceId) certs).Perm
      (deviceSetMembers (revocations'.map fun r => r.statement.deviceId) certs') := by
    rw [deviceSetMembers_congr certs hrevoked]
    exact hcerts.filter _
  have hany : certs.any (fun cert => cert.statement.accountId ≠ accountId) =
      certs'.any fun cert => cert.statement.accountId ≠ accountId := hcerts.any_eq
  have hnodup := (hmembers.map fun cert => cert.statement.deviceId).nodup_iff
  have hhashes := mergeSort_eq_of_perm (hmembers.map fun cert => cert.messageHash)
  simp only [deviceSetHash, haccount, hany, hnodup, hhashes]

end RizzyVault.Core
