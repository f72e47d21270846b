import RizzyVault.Core.FieldKey

/-!
# Envelope layouts

The layout of an envelope as the server reads it, without opening it: the format version, the
algorithm, the id of the key it is under and the length of its ciphertext.

## Main definitions

* `AlgId`, `EnvelopeRef`, `parseEnvelope`, `symmetricUnder`.

## References

* `crates/rizzy-core/src/envelope`, `crates/rizzy-domain-vault/src/keys.rs`.
-/

namespace RizzyVault.Core

/-- The implemented algorithms. -/
inductive AlgId
  | xChaCha20Poly1305Committed
  | hpkeBaseX25519
  | hpkePskX25519
  deriving DecidableEq

/-- The implemented algorithm a byte names. -/
def AlgId.fromU8 (b : Byte) : Option AlgId :=
  if b = 0x01 then some xChaCha20Poly1305Committed
  else if b = 0x10 then some hpkeBaseX25519
  else if b = 0x12 then some hpkePskX25519
  else none

def formatVersion : Byte := 1

def envelopeHeaderLen : ℕ := 18

/-- The bytes a symmetric envelope adds to its plaintext. -/
def symmetricOverhead : ℕ := 90

/-- The bytes an HPKE envelope adds to its plaintext. -/
def hpkeOverhead : ℕ := 66

def maxSymmetricEnvelopeLen : ℕ := 16 * 1024 * 1024 + symmetricOverhead

/-- A parsed envelope. -/
structure EnvelopeRef where
  alg : AlgId
  keyId : Bytes
  ciphertextLen : ℕ
  deriving DecidableEq

/-- Parses an envelope's layout. -/
def parseEnvelope (input : Bytes) : Option EnvelopeRef :=
  match input with
  | version :: alg :: rest =>
    if input.length < envelopeHeaderLen ∨ version ≠ formatVersion then none
    else
      match AlgId.fromU8 alg with
      | none => none
      | some .xChaCha20Poly1305Committed =>
        if input.length < symmetricOverhead ∨ maxSymmetricEnvelopeLen < input.length then none
        else
          some ⟨.xChaCha20Poly1305Committed, rest.take 16, input.length - symmetricOverhead⟩
      | some alg =>
        if input.length < hpkeOverhead then none
        else some ⟨alg, rest.take 16, input.length - hpkeOverhead⟩
  | _ => none

/-- The key id of a symmetric envelope. -/
def symmetricKeyId (envelope : Bytes) : Option Bytes :=
  match parseEnvelope envelope with
  | some e => if e.alg = .xChaCha20Poly1305Committed then some e.keyId else none
  | none => none

/-- Whether `envelope` is a symmetric envelope under `keyId` of a plaintext of `len` bytes. -/
def symmetricUnder (envelope : Bytes) (len : ℕ) (keyId : Bytes) : Bool :=
  match parseEnvelope envelope with
  | some e => e.alg = .xChaCha20Poly1305Committed ∧ e.ciphertextLen = len ∧ e.keyId = keyId
  | none => false

end RizzyVault.Core
