import RizzyVault.Core.Reader

/-!
# Signed statements

A signed statement travels as its versioned body, length-prefixed, and one or two signature
containers. What is signed is the statement's label, a zero byte, the version and the body. The
hash and the curve are parameters: a container verifies when it names the key id of the verifying
key and the strict verification of its signature accepts.

## Main definitions

* `Crypto`: the hash and the signature scheme.
* `KeyType`, `keyId`: key types and the ids of public keys.
* `SignatureContainer`, `verifyContainer`.
* `signedMessage`, `splitWire`, `encodeWire`: the framing.

## References

* `crates/rizzy-core/src/sign/mod.rs`, `crates/rizzy-core/src/ids.rs`,
  `crates/rizzy-core/src/labels.rs`.
-/

open RizzyVault.Lib

namespace RizzyVault.Core

/-- The primitives of other packages. -/
structure Crypto where
  /-- SHA-256. -/
  sha256 : Bytes → Bytes
  /-- Whether 32 bytes are the canonical encoding of an Ed25519 point that is not weak. -/
  isVerifyingKey : Bytes → Bool
  /-- Strict Ed25519 verification of a message under a key. -/
  verifyStrict : Bytes → Bytes → Bytes → Bool

/-- Why a signed statement was refused. -/
inductive VerifyError
  | malformed (error : ParseError)
  | unsupportedVersion
  | wrongSigner
  | badSignature
  | mismatch
  deriving DecidableEq

def malformed {α : Type} : Except ParseError α → Except VerifyError α :=
  Except.mapError .malformed

/-! ### Labels -/

/-- The label of a name. -/
def label (name : List Char) : Bytes :=
  asciiBytes (['r', 'i', 'z', 'z', 'y', '-', 'v', 'a', 'u', 'l', 't', '/', 'v', '1', '/'] ++ name)

def labelKeyId : Bytes := label ['k', 'e', 'y', '-', 'i', 'd']

def labelPublicKeyBundle : Bytes :=
  label ['s', 'i', 'g', '/', 'p', 'u', 'b', 'l', 'i', 'c', '-', 'k', 'e', 'y', '-',
    'b', 'u', 'n', 'd', 'l', 'e']

/-! ### Keys -/

inductive KeyType
  | identityEd25519
  | identityX25519
  | mailX25519
  | deviceEd25519
  | deviceX25519
  deriving DecidableEq

namespace KeyType

def toU8 : KeyType → ℕ
  | identityEd25519 => 1
  | identityX25519 => 2
  | mailX25519 => 3
  | deviceEd25519 => 4
  | deviceX25519 => 5

def fromU8 (value : ℕ) : Option KeyType :=
  [identityEd25519, identityX25519, mailX25519, deviceEd25519, deviceX25519].find?
    fun t => t.toU8 = value

end KeyType

def idLen : ℕ := 16

def publicKeyLen : ℕ := 32

/-- The id of a public key. -/
def keyId (c : Crypto) (keyType : KeyType) (publicKey : Bytes) : Bytes :=
  (c.sha256 (labelKeyId ++ [0x00, Fin.ofNat _ keyType.toU8] ++ publicKey)).take idLen

/-- Reads the 32 bytes of a public key. -/
def readKeyBytes : Reader Bytes := do
  let key ← Reader.bytesMax publicKeyLen
  Parser.require (decide (key.length = publicKeyLen)) .invalidLength
  return key

/-! ### Containers -/

/-- A signature with the id of the key that made it. -/
structure SignatureContainer where
  signer : Bytes
  signature : Bytes
  deriving DecidableEq

def sigFormatVersion : ℕ := 1

def sigAlgEd25519 : ℕ := 1

def signatureLen : ℕ := 64

def containerLen : ℕ := 2 + idLen + signatureLen

namespace SignatureContainer

def fromBytes (bytes : Bytes) : Except VerifyError SignatureContainer := do
  if bytes.length ≠ containerLen then
    throw (.malformed (if bytes.length < containerLen then .truncated else .trailingBytes))
  let ((version, alg), rest) ← malformed <| Reader.run (do return (← Reader.u8, ← Reader.u8)) bytes
  if version ≠ sigFormatVersion ∨ alg ≠ sigAlgEd25519 then throw .unsupportedVersion
  let (container, _) ← malformed <| Reader.run (do
    let signer ← Reader.take idLen
    let signature ← Reader.take signatureLen
    Reader.finish
    return ⟨signer, signature⟩) rest
  return container

def toBytes (container : SignatureContainer) : Bytes :=
  [Fin.ofNat _ sigFormatVersion, Fin.ofNat _ sigAlgEd25519] ++ container.signer ++
    container.signature

end SignatureContainer

/-- Whether `container` is a signature of `message` by `publicKey`, a key of type `keyType`. -/
def verifyContainer (c : Crypto) (keyType : KeyType) (publicKey message : Bytes)
    (container : SignatureContainer) : Except VerifyError Unit :=
  if container.signer ≠ keyId c keyType publicKey then .error .wrongSigner
  else if c.verifyStrict publicKey message container.signature then .ok ()
  else .error .badSignature

/-! ### Framing -/

def statementVersion : ℕ := 1

/-- What is signed for a body. -/
def signedMessage (label body : Bytes) : Bytes :=
  label ++ [0x00] ++ beBytes 2 statementVersion ++ body

/-- The body and the containers of a wire. -/
def splitWire (wire : Bytes) (maxBodyLen : ℕ) : Except VerifyError (Bytes × Bytes) := do
  let (versioned, containers) ← malformed <| (Reader.bytesMax (maxBodyLen + 2)).run wire
  let (version, body) ← malformed <| Reader.u16.run versioned
  if version ≠ statementVersion then throw .unsupportedVersion
  return (body, containers)

/-- The wire of a body and its containers. -/
def encodeWire (body : Bytes) (containers : List SignatureContainer) : Bytes :=
  putBytes (beBytes 2 statementVersion ++ body) ++ containers.flatMap SignatureContainer.toBytes

end RizzyVault.Core
