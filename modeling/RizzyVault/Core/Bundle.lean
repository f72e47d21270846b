import RizzyVault.Core.Sign
import RizzyVault.Lib.Result

/-!
# Public key bundles

The statement that publishes an account's public keys, and the two verifications of it: on its own,
under the identity key inside it, and as the successor of a pinned bundle. A verified bundle carries
the body it was decoded from, so its hash and its message belong to its fields.

## Main definitions

* `PublicKeyBundle`, `encodeBody`, `decodeBody`.
* `VerifiedBundle`, `verifySelfSigned`, `verifySuccessor`.
* `Link`: what a successor has in common with its predecessor.

## Main results

* `VerifiedBundle.eq_of_message_eq`: a message determines the fields of its bundle.
* `verifySuccessor_eq_ok`: a successor is the pinned bundle again or is linked to it.

## References

* `crates/rizzy-core/src/sign/bundle.rs`.
-/

open RizzyVault.Lib

namespace RizzyVault.Core

def hashLen : ℕ := 32

def flagPqRequired : ℕ := 1

/-- The longest body: three keys. -/
def maxBundleBodyLen : ℕ :=
  idLen + 4 + 8 + 1 + 3 * (1 + 4 + publicKeyLen) + 1 + 8 + hashLen

structure PublicKeyBundle where
  accountId : Bytes
  identityEpoch : ℕ
  bundleSeq : ℕ
  identityEd25519 : Bytes
  identityX25519 : Bytes
  mailX25519 : Option Bytes
  pqRequired : Bool
  createdAtMs : ℕ
  prevBundleHash : Bytes
  deriving DecidableEq

namespace PublicKeyBundle

/-- The rules for a bundle on its own: the first one, and only it, has no predecessor, and it is of
epoch 0. -/
def validate (b : PublicKeyBundle) : Except ParseError Unit :=
  let first := b.bundleSeq = 1
  let noPrev := b.prevBundleHash = List.replicate hashLen 0
  if b.bundleSeq = 0 ∨ ¬ (first ↔ noPrev) ∨ (first ∧ b.identityEpoch ≠ 0) then .error .invalidValue
  else .ok ()

/-- The identity keys, as two bundles compare them. -/
def identityPublicKeys (b : PublicKeyBundle) : Bytes × Bytes :=
  (b.identityEd25519, b.identityX25519)

/-- The canonical body. -/
def encodeBody (b : PublicKeyBundle) : Option Bytes :=
  match b.validate with
  | .error _ => none
  | .ok _ =>
    let entries := [(KeyType.identityEd25519, b.identityEd25519),
      (KeyType.identityX25519, b.identityX25519)] ++
        (b.mailX25519.map fun mail => (KeyType.mailX25519, mail)).toList
    some (b.accountId ++ beBytes 4 b.identityEpoch ++ beBytes 8 b.bundleSeq ++
      beBytes 1 entries.length ++
      (entries.flatMap fun (keyType, key) => beBytes 1 keyType.toU8 ++ putBytes key) ++
      beBytes 1 (if b.pqRequired then flagPqRequired else 0) ++ beBytes 8 b.createdAtMs ++
      b.prevBundleHash)

/-! ### Decoding -/

/-- The keys of the entries read so far. -/
structure Entries where
  ed25519 : Option Bytes
  x25519 : Option Bytes
  mail : Option Bytes
  previousType : Option KeyType

/-- Reads one entry, of a key type above the previous one. -/
def readEntry (c : Crypto) (entries : Entries) : Reader Entries := do
  let keyType ← Parser.ofOption (KeyType.fromU8 (← Reader.u8)) .invalidValue
  Parser.require (entries.previousType.all fun p => p.toU8 < keyType.toU8) .invalidValue
  let entries := { entries with previousType := some keyType }
  let key ← readKeyBytes
  match keyType with
  | .identityEd25519 => do
    Parser.require (c.isVerifyingKey key) .invalidValue
    return { entries with ed25519 := some key }
  | .identityX25519 => return { entries with x25519 := some key }
  | .mailX25519 => return { entries with mail := some key }
  | .deviceEd25519 | .deviceX25519 => throw .invalidValue

def readEntries (c : Crypto) : ℕ → Entries → Reader Entries
  | 0, entries => return entries
  | n + 1, entries => do readEntries c n (← readEntry c entries)

/-- Reads a body up to its last field. -/
def readBody (c : Crypto) : Reader PublicKeyBundle := do
  let accountId ← Reader.take idLen
  let identityEpoch ← Reader.u32
  let bundleSeq ← Reader.u64
  let n ← Reader.u8
  let entries ← readEntries c n ⟨none, none, none, none⟩
  let flags ← Reader.u8
  Parser.require (decide (flags ≤ flagPqRequired)) .invalidValue
  let identityEd25519 ← Parser.ofOption entries.ed25519 .invalidValue
  let identityX25519 ← Parser.ofOption entries.x25519 .invalidValue
  let createdAtMs ← Reader.u64
  let prevBundleHash ← Reader.take hashLen
  Reader.finish
  return ⟨accountId, identityEpoch, bundleSeq, identityEd25519, identityX25519, entries.mail,
    decide (flags = flagPqRequired), createdAtMs, prevBundleHash⟩

def decodeBody (c : Crypto) (body : Bytes) : Except ParseError PublicKeyBundle := do
  let (b, _) ← (readBody c).run body
  b.validate
  return b

end PublicKeyBundle

/-! ### Verified bundles -/

/-- A bundle whose self-signature verified. The second container is unverified. -/
structure VerifiedBundle (c : Crypto) extends PublicKeyBundle where
  hash : Bytes
  message : Bytes
  predecessorSignature : Option SignatureContainer
  /-- The message is signed by the identity key inside the bundle and decodes to it. -/
  verified : ∃ body container, PublicKeyBundle.decodeBody c body = .ok toPublicKeyBundle ∧
    message = signedMessage labelPublicKeyBundle body ∧ hash = c.sha256 message ∧
    verifyContainer c .identityEd25519 identityEd25519 message container = .ok ()

inductive BundleStep
  | unchanged
  | silent
  | identityChanged
  deriving DecidableEq

inductive BundleChainError
  | invalid (error : VerifyError)
  | accountMismatch
  | rollback
  | fork
  | gap
  | identityChangeNotSigned
  | identityEpochMismatch
  | identityKeyKept
  deriving DecidableEq

variable {c : Crypto}

/-- The one or two containers of a bundle. -/
def bundleContainers (containers : Bytes) :
    Except VerifyError (SignatureContainer × Option SignatureContainer) := do
  if containers.length = containerLen then
    return (← SignatureContainer.fromBytes containers, none)
  else if containers.length = 2 * containerLen then
    let a ← SignatureContainer.fromBytes (containers.take containerLen)
    let b ← SignatureContainer.fromBytes (containers.drop containerLen)
    return (a, some b)
  else
    throw (.malformed (if containers.length < containerLen then .truncated else .invalidLength))

/-- Verifies a bundle on its own. -/
def verifySelfSigned (c : Crypto) (wire : Bytes) : Except VerifyError (VerifiedBundle c) :=
  match splitWire wire maxBundleBodyLen with
  | .error e => .error e
  | .ok (body, containers) =>
    match bundleContainers containers with
    | .error e => .error e
    | .ok (first, second) =>
      match hbundle : PublicKeyBundle.decodeBody c body with
      | .error e => .error (.malformed e)
      | .ok bundle =>
        let message := signedMessage labelPublicKeyBundle body
        match hsig : verifyContainer c .identityEd25519 bundle.identityEd25519 message first with
        | .error e => .error e
        | .ok () =>
          if second.isSome ∧ (bundle.bundleSeq < 2 ∨ bundle.identityEpoch = 0) then .error .mismatch
          else
            .ok { bundle with
              hash := c.sha256 message
              message := message
              predecessorSignature := second
              verified := ⟨body, first, hbundle, rfl, rfl, hsig⟩ }

/-- Verifies `wire` as the bundle that follows `pinned`. -/
def verifySuccessor (pinned : VerifiedBundle c) (wire : Bytes) :
    Except BundleChainError (VerifiedBundle c × BundleStep) :=
  match verifySelfSigned c wire with
  | .error e => .error (.invalid e)
  | .ok next =>
    if next.accountId ≠ pinned.accountId then .error .accountMismatch
    else if next.bundleSeq < pinned.bundleSeq then .error .rollback
    else if next.bundleSeq = pinned.bundleSeq then
      if next.hash = pinned.hash then .ok (next, .unchanged) else .error .fork
    else if 1 < next.bundleSeq - pinned.bundleSeq then .error .gap
    else if next.prevBundleHash ≠ pinned.hash then .error .fork
    else if next.identityPublicKeys ≠ pinned.identityPublicKeys then
      if ¬ (pinned.identityEpoch + 1 < 2 ^ 32 ∧ pinned.identityEpoch + 1 = next.identityEpoch) then
        .error .identityEpochMismatch
      else if next.identityEd25519 = pinned.identityEd25519 ∨
          next.identityX25519 = pinned.identityX25519 then .error .identityKeyKept
      else
        match next.predecessorSignature with
        | none => .error .identityChangeNotSigned
        | some signature =>
          -- The old key vouches for the new one, over the same message.
          match verifyContainer c .identityEd25519 pinned.identityEd25519 next.message signature with
          | .error _ => .error .identityChangeNotSigned
          | .ok () => .ok (next, .identityChanged)
    else if next.identityEpoch ≠ pinned.identityEpoch ∨ next.predecessorSignature.isSome then
      .error .identityEpochMismatch
    else .ok (next, .silent)

/-! ### Links -/

/-- Both identity keys are kept, with the epoch and without a second signature. -/
structure KeepsKeys (p n : VerifiedBundle c) : Prop where
  ed25519 : n.identityEd25519 = p.identityEd25519
  x25519 : n.identityX25519 = p.identityX25519
  epoch : n.identityEpoch = p.identityEpoch
  unsigned : n.predecessorSignature = none

/-- Both identity keys are replaced, in the next epoch and signed by the old key. -/
structure ReplacesKeys (p n : VerifiedBundle c) : Prop where
  ed25519 : n.identityEd25519 ≠ p.identityEd25519
  x25519 : n.identityX25519 ≠ p.identityX25519
  epoch : n.identityEpoch = p.identityEpoch + 1
  signed : ∃ signature ∈ n.predecessorSignature,
    verifyContainer c .identityEd25519 p.identityEd25519 n.message signature = .ok ()

/-- `n` is the next bundle of the account after `p`. -/
structure Link (p n : VerifiedBundle c) : Prop where
  accountId : n.accountId = p.accountId
  seq : n.bundleSeq = p.bundleSeq + 1
  prev : n.prevBundleHash = p.hash
  keys : KeepsKeys p n ∨ ReplacesKeys p n

namespace VerifiedBundle

/-- The fields of a verified bundle are those of its message. -/
theorem eq_of_message_eq {a b : VerifiedBundle c} (h : a.message = b.message) :
    a.toPublicKeyBundle = b.toPublicKeyBundle := by
  obtain ⟨body, -, hbody, hmessage, -⟩ := a.verified
  obtain ⟨body', -, hbody', hmessage', -⟩ := b.verified
  obtain rfl : body = body' := by
    rw [hmessage, hmessage'] at h
    exact List.append_cancel_left h
  rw [hbody] at hbody'
  exact Except.ok.inj hbody'

theorem hash_eq (a : VerifiedBundle c) : a.hash = c.sha256 a.message := by
  obtain ⟨-, -, -, -, h, -⟩ := a.verified
  exact h

theorem validate_eq (a : VerifiedBundle c) : a.toPublicKeyBundle.validate = .ok () := by
  obtain ⟨body, -, hbody, -⟩ := a.verified
  rw [PublicKeyBundle.decodeBody] at hbody
  obtain ⟨⟨b, rest⟩, -, hbody⟩ := except_bind_eq_ok.mp hbody
  obtain ⟨u, hvalid, hbody⟩ := except_bind_eq_ok.mp hbody
  cases hbody
  exact hvalid

theorem bundleSeq_pos (a : VerifiedBundle c) : 0 < a.bundleSeq := by
  have h := a.validate_eq
  simp only [PublicKeyBundle.validate] at h
  split_ifs at h with hbad
  rw [not_or] at hbad
  exact Nat.pos_of_ne_zero hbad.1

theorem identityEpoch_of_first (a : VerifiedBundle c) (hseq : a.bundleSeq = 1) :
    a.identityEpoch = 0 := by
  have h := a.validate_eq
  simp only [PublicKeyBundle.validate] at h
  split_ifs at h with hbad
  by_contra hne
  exact hbad (.inr (.inr ⟨hseq, hne⟩))

end VerifiedBundle

/-- A successor is the pinned bundle again or is linked to it. -/
theorem verifySuccessor_eq_ok {pinned next : VerifiedBundle c} {wire : Bytes} {step : BundleStep}
    (h : verifySuccessor pinned wire = .ok (next, step)) :
    verifySelfSigned c wire = .ok next ∧
      (step = .unchanged ∨ (step ≠ .unchanged ∧ Link pinned next)) := by
  unfold verifySuccessor at h
  cases hverify : verifySelfSigned c wire with
  | error e =>
    rw [hverify] at h
    cases h
  | ok candidate =>
    rw [hverify] at h
    simp only at h
    split_ifs at h with haccount hlow heq hhash hgap hprev hkeys hepoch hkept hsilent
    · cases h
      exact ⟨rfl, .inl rfl⟩
    · rw [not_or] at hkept
      split at h
      · cases h
      · rename_i signature hsig
        split at h
        · cases h
        · rename_i hverified
          cases h
          have hreplaces : ReplacesKeys pinned next :=
            ⟨hkept.1, hkept.2, hepoch.2.symm, signature, hsig, hverified⟩
          exact ⟨rfl, .inr ⟨nofun, not_not.mp haccount, by omega, not_not.mp hprev, .inr hreplaces⟩⟩
    · rw [not_or, not_not] at hsilent
      rw [not_not] at hkeys
      cases h
      obtain ⟨hed, hx⟩ := Prod.ext_iff.mp hkeys
      have hkeeps : KeepsKeys pinned next :=
        ⟨hed, hx, hsilent.1, Option.not_isSome_iff_eq_none.mp hsilent.2⟩
      exact ⟨rfl, .inr ⟨nofun, not_not.mp haccount, by omega, not_not.mp hprev, .inl hkeeps⟩⟩

end RizzyVault.Core
