import RizzyVault.Core.FieldKey
import RizzyVault.Lib.Codec
import RizzyVault.Lib.Result
import RizzyVault.Sync.Compaction
import RizzyVault.Sync.Header

/-!
# Records and their intake

The records of an upload, the account's device certificates, and the verification of a record
before anything about it is trusted. What a record holds is read by the signature and header
parsers, which are parameters here: a record is accepted or refused as a function of its bytes and
the account's certificates.

## Main definitions

* `AuthorStatus`, `AuthorCertificate`, `Authors`: the account's certificates.
* `OpRecord`, `SnapshotRecord`, `Record`: what is uploaded.
* `Signed`, `VerifiedOp`, `VerifiedSnapshot`, `verifyOp`, `verifySnapshot`: the intake.

## References

* `crates/rizzy-domain-vault/src/authors.rs`, `crates/rizzy-domain-vault/src/intake.rs`,
  `crates/rizzy-proto/src/vault.rs`.
-/

open RizzyVault.Core RizzyVault.Lib RizzyVault.Sync

namespace RizzyVault.Vault

open Std (ExtTreeMap)

/-! ### Certificates -/

abbrev PublicKeyId := Bytes

abbrev VerifyingKey := Bytes

/-- The kinds of device. -/
inductive DeviceKind
  | desktopCli
  | extension
  | mobile
  | webEphemeral
  deriving DecidableEq

/-- Durable devices are in the signed device set; the web vault never is. -/
def DeviceKind.isDurable (kind : DeviceKind) : Bool := kind ≠ .webEphemeral

/-- Where a device stands in revocation. -/
inductive AuthorStatus
  | active
  | suspended
  | revoked (lastAcceptedDeviceSeq : ℕ)
  deriving DecidableEq

/-- One device's certificate. -/
structure AuthorCertificate where
  deviceId : DeviceId
  verifyingKey : VerifyingKey
  deviceKind : DeviceKind
  expiresAtMs : ℕ
  status : AuthorStatus
  deriving DecidableEq

namespace AuthorCertificate

/-- Whether the certificate has expired at the clock `nowMs`. -/
def expiredAt (cert : AuthorCertificate) (nowMs : ℕ) : Bool :=
  cert.expiresAtMs ≠ 0 ∧ cert.expiresAtMs < nowMs

/-- Whether an operation with this clock value falls within the certificate's validity. -/
def permitsHlc (cert : AuthorCertificate) (hlc : Hlc) : Bool :=
  cert.expiresAtMs = 0 ∨ hlc.raw.val / 2 ^ 16 ≤ cert.expiresAtMs

end AuthorCertificate

/-- Every certificate of one account, by device and by signing key. -/
structure Authors where
  byDevice : ExtTreeMap DeviceId AuthorCertificate
  byKey : ExtTreeMap PublicKeyId DeviceId

namespace Authors

def get (authors : Authors) (device : DeviceId) : Option AuthorCertificate :=
  authors.byDevice[device]?

/-- The certificate whose key has the signer key id `keyId`. -/
def byKeyId (authors : Authors) (keyId : PublicKeyId) : Option AuthorCertificate :=
  match authors.byKey[keyId]? with
  | some device => authors.byDevice[device]?
  | none => none

/-- The cut-off of every revoked device. -/
def cutoffs (authors : Authors) : ExtTreeMap DeviceId ℕ :=
  authors.byDevice.toList.foldl (fun m e =>
    match e.2.status with
    | .revoked lastAcceptedDeviceSeq => m.insert e.2.deviceId lastAcceptedDeviceSeq
    | _ => m) ∅

end Authors

/-! ### Records -/

/-- A key wrap carried with a record, and the id of the wrapped item key. -/
structure RecordKeyWrap where
  itemKeyId : SymmetricKeyId
  envelope : Bytes
  deriving DecidableEq

/-- An operation record; without a body it is a bodiless header. -/
structure OpRecord where
  statement : Bytes
  body : Option Bytes
  keyWrap : Option RecordKeyWrap
  deriving DecidableEq

/-- A snapshot record. -/
structure SnapshotRecord where
  statement : Bytes
  envelope : Bytes
  keyWrap : Option RecordKeyWrap
  deriving DecidableEq

/-- One record of an upload or healing request. -/
inductive Record
  | op (record : OpRecord)
  | snapshot (record : SnapshotRecord)
  deriving DecidableEq

/-! ### Intake -/

/-- The signed parts of a statement, as the server stores them. -/
structure Signed where
  header : Bytes
  envelopeHash : Bytes
  wrapHash : Bytes
  container : Bytes
  deriving DecidableEq

def hashLen : ℕ := 32

def containerLen : ℕ := 82

def statementVersion : ℕ := 1

/-- A length-prefixed byte string, none if its length does not fit the prefix. -/
def putBytes (x : Bytes) : Option Bytes :=
  if x.length < 2 ^ 32 then some (beBytes 4 x.length ++ x) else none

/-- The wire form of a statement. -/
def Signed.wire (signed : Signed) : Option Bytes := do
  let header ← putBytes signed.header
  let versioned ← putBytes
    (beBytes 2 statementVersion ++ header ++ signed.envelopeHash ++ signed.wrapHash)
  return versioned ++ signed.container

/-- What a verified statement signs. -/
structure VerifiedStatement where
  header : Bytes
  envelopeHash : Bytes
  wrapHash : Option Bytes
  deriving DecidableEq

/-- The signature and header code a record is verified with: the signer key id of a container, the
strict verification of an operation's and of a snapshot's statement under a key, the parsers of the
two headers, and the hash. -/
structure Primitives where
  signerKeyId : Bytes → Option PublicKeyId
  verifyOpStatement : Bytes → VerifyingKey → Option VerifiedStatement
  verifySnapshotStatement : Bytes → VerifyingKey → Option VerifiedStatement
  parseOpHeader : Bytes → Option OpHeader
  parseSnapshotHeader : Bytes → Option SnapshotHeader
  sha256 : Bytes → Bytes

/-- Why a record is refused before any database rule runs. -/
inductive IntakeError
  | unknownSigner
  | badStatement
  | wrongOwner
  | badAttachment
  | outOfRange
  deriving DecidableEq

/-- A carried key wrap that matches the signed hash. -/
structure CarriedWrap where
  itemKeyId : SymmetricKeyId
  envelope : Bytes
  deriving DecidableEq

/-- A verified operation record. -/
structure VerifiedOp where
  header : OpHeader
  signed : Signed
  body : Option Bytes
  keyWrap : Option CarriedWrap
  author : AuthorCertificate
  deriving DecidableEq

/-- A verified snapshot record. -/
structure VerifiedSnapshot where
  header : SnapshotHeader
  signed : Signed
  envelope : Bytes
  keyWrap : Option CarriedWrap
  author : AuthorCertificate
  deriving DecidableEq

/-- Whether a signed key wrap must be carried. -/
inductive WrapRule
  | required
  | optional
  deriving DecidableEq

variable (prim : Primitives)

/-- The certificate that the container at the end of `wire` names, and the container. -/
def signer (wire : Bytes) (authors : Authors) :
    Except IntakeError (AuthorCertificate × Bytes) :=
  if wire.length < containerLen then .error .unknownSigner
  else
    let container := wire.drop (wire.length - containerLen)
    match (prim.signerKeyId container).bind authors.byKeyId with
    | some author => .ok (author, container)
    | none => .error .unknownSigner

/-- Checks a carried wrap against the signed hash. -/
def carriedWrap (wrap : Option RecordKeyWrap) (signedHash : Option Bytes) (rule : WrapRule) :
    Except IntakeError (Option CarriedWrap) :=
  match wrap with
  | some w =>
    if some (prim.sha256 w.envelope) = signedHash then .ok (some ⟨w.itemKeyId, w.envelope⟩)
    else .error .badAttachment
  | none =>
    if signedHash.isSome ∧ rule = .required then .error .badAttachment else .ok none

/-- Whether every number fits the columns of the database. -/
def fitsSql (values : List ℕ) : Except IntakeError Unit :=
  if values.all (· < 2 ^ 63) then .ok () else .error .outOfRange

/-- The signed parts of a verified statement; no wrap is 32 zero bytes. -/
def VerifiedStatement.signed (v : VerifiedStatement) (container : Bytes) : Signed :=
  ⟨v.header, v.envelopeHash, v.wrapHash.getD (List.replicate hashLen 0), container⟩

/-- Verifies one operation record against the account's certificates. -/
def verifyOp (record : OpRecord) (vaultId : VaultId) (authors : Authors) (bodyRequired : Bool)
    (wrapRule : WrapRule) : Except IntakeError VerifiedOp := do
  let wire := record.statement
  let (author, container) ← signer prim wire authors
  let some verified := prim.verifyOpStatement wire author.verifyingKey | throw .badStatement
  let some header := prim.parseOpHeader verified.header | throw .badStatement
  if header.dot.deviceId ≠ author.deviceId then throw .wrongOwner
  if header.vaultId ≠ vaultId then throw .wrongOwner
  fitsSql [header.dot.seq, header.vaultPrevSeq, header.hlc.raw.val]
  let body ← match record.body with
    | some body =>
      if prim.sha256 body = verified.envelopeHash then pure (some body) else throw .badAttachment
    | none => if bodyRequired then throw .badAttachment else pure none
  let keyWrap ← carriedWrap prim record.keyWrap verified.wrapHash wrapRule
  let signed := verified.signed container
  if signed.wire ≠ some wire then throw .badStatement
  return ⟨header, signed, body, keyWrap, author⟩

/-- Verifies one snapshot record against the account's certificates. -/
def verifySnapshot (record : SnapshotRecord) (vaultId : VaultId) (authors : Authors)
    (wrapRule : WrapRule) : Except IntakeError VerifiedSnapshot := do
  let wire := record.statement
  let (author, container) ← signer prim wire authors
  let some verified := prim.verifySnapshotStatement wire author.verifyingKey | throw .badStatement
  let some header := prim.parseSnapshotHeader verified.header | throw .badStatement
  if header.author ≠ author.deviceId then throw .wrongOwner
  if header.vaultId ≠ vaultId then throw .wrongOwner
  if prim.sha256 record.envelope ≠ verified.envelopeHash then throw .badAttachment
  let keyWrap ← carriedWrap prim record.keyWrap verified.wrapHash wrapRule
  let signed := verified.signed container
  if signed.wire ≠ some wire then throw .badStatement
  return ⟨header, signed, record.envelope, keyWrap, author⟩

/-! ### What is accepted -/

variable {prim : Primitives} {vaultId : VaultId} {authors authors' : Authors} {rule : WrapRule}

/-- The body of an operation record, checked against the signed hash. -/
def checkedBody (prim : Primitives) (record : OpRecord) (envelopeHash : Bytes) (bodyRequired : Bool) : Prop :=
  (∀ body ∈ record.body, prim.sha256 body = envelopeHash) ∧ (bodyRequired → record.body.isSome)

theorem checkedBody_bind_eq_ok_iff {α : Type} {record : OpRecord} {hash : Bytes}
    {bodyRequired : Bool} {f : Option Bytes → Except IntakeError α} {y : α} :
    (match record.body with
      | some body =>
        if prim.sha256 body = hash then do
          let body ← pure (some body)
          f body
        else do
          let body ← throw IntakeError.badAttachment
          f body
      | none =>
        if bodyRequired = true then do
          let body ← throw IntakeError.badAttachment
          f body
        else do
          let body ← pure none
          f body) = .ok y ↔
      checkedBody prim record hash bodyRequired ∧ f record.body = .ok y := by
  unfold checkedBody
  cases record.body with
  | some body =>
    by_cases h : prim.sha256 body = hash
    · simp [h]
    · simp only [h, if_false, Option.mem_some_iff, forall_eq', false_and, iff_false]
      intro h'
      cases h'
  | none =>
    cases bodyRequired with
    | false => simp
    | true =>
      simp only [if_true, Option.isSome_none, true_imp_iff, Bool.false_eq_true, and_false,
        false_and, iff_false]
      intro h'
      cases h'

/-- An operation record is accepted exactly when its signer is known, its statement verifies under
the signer's key and its attachments match the signed hashes. -/
theorem verifyOp_eq_ok_iff {record : OpRecord} {bodyRequired : Bool} {op : VerifiedOp} :
    verifyOp prim record vaultId authors bodyRequired rule = .ok op ↔
      ∃ container verified, signer prim record.statement authors = .ok (op.author, container) ∧
        prim.verifyOpStatement record.statement op.author.verifyingKey = some verified ∧
        prim.parseOpHeader verified.header = some op.header ∧
        op.header.dot.deviceId = op.author.deviceId ∧ op.header.vaultId = vaultId ∧
        fitsSql [op.header.dot.seq, op.header.vaultPrevSeq, op.header.hlc.raw.val] = .ok () ∧
        checkedBody prim record verified.envelopeHash bodyRequired ∧ op.body = record.body ∧
        carriedWrap prim record.keyWrap verified.wrapHash rule = .ok op.keyWrap ∧
        op.signed = verified.signed container ∧ op.signed.wire = some record.statement := by
  unfold verifyOp
  constructor
  · intro h
    obtain ⟨⟨author, container⟩, hsigner, h⟩ := except_bind_eq_ok.mp h
    dsimp only at h
    cases hv : prim.verifyOpStatement record.statement author.verifyingKey with
    | none => simp [hv] at h
    | some verified =>
      cases hp : prim.parseOpHeader verified.header with
      | none => simp [hv, hp] at h
      | some header =>
        simp only [hv, hp, ite_throw_eq_ok, except_bind_eq_ok, ne_eq, not_not] at h
        obtain ⟨howner, hvault, _, hfits, h⟩ := h
        rw [checkedBody_bind_eq_ok_iff] at h
        simp only [except_bind_eq_ok, ite_throw_eq_ok, not_not] at h
        obtain ⟨hbody, keyWrap, hwrap, hwire, h⟩ := h
        cases h
        exact ⟨container, verified, hsigner, hv, hp, howner, hvault, hfits, hbody, rfl, hwrap, rfl,
          hwire⟩
  · rintro ⟨container, verified, hsigner, hv, hp, howner, hvault, hfits, hbody, hb, hwrap, hsigned,
      hwire⟩
    obtain ⟨header, signed, body, keyWrap, author⟩ := op
    cases hb
    cases hsigned
    dsimp only at *
    rw [hsigner]
    refine except_bind_eq_ok.mpr ⟨(author, container), rfl, ?_⟩
    simp only [hv, hp, ite_throw_eq_ok, except_bind_eq_ok, ne_eq, not_not]
    refine ⟨howner, hvault, (), hfits, ?_⟩
    rw [checkedBody_bind_eq_ok_iff]
    simp only [except_bind_eq_ok, ite_throw_eq_ok, not_not]
    exact ⟨hbody, keyWrap, hwrap, hwire, rfl⟩

/-- A snapshot record is accepted exactly when its signer is known, its statement verifies under
the signer's key and its attachments match the signed hashes. -/
theorem verifySnapshot_eq_ok_iff {record : SnapshotRecord} {snapshot : VerifiedSnapshot} :
    verifySnapshot prim record vaultId authors rule = .ok snapshot ↔
      ∃ container verified,
        signer prim record.statement authors = .ok (snapshot.author, container) ∧
        prim.verifySnapshotStatement record.statement snapshot.author.verifyingKey =
          some verified ∧
        prim.parseSnapshotHeader verified.header = some snapshot.header ∧
        snapshot.header.author = snapshot.author.deviceId ∧ snapshot.header.vaultId = vaultId ∧
        prim.sha256 record.envelope = verified.envelopeHash ∧
        snapshot.envelope = record.envelope ∧
        carriedWrap prim record.keyWrap verified.wrapHash rule = .ok snapshot.keyWrap ∧
        snapshot.signed = verified.signed container ∧
        snapshot.signed.wire = some record.statement := by
  unfold verifySnapshot
  constructor
  · intro h
    obtain ⟨⟨author, container⟩, hsigner, h⟩ := except_bind_eq_ok.mp h
    dsimp only at h
    cases hv : prim.verifySnapshotStatement record.statement author.verifyingKey with
    | none => simp [hv] at h
    | some verified =>
      cases hp : prim.parseSnapshotHeader verified.header with
      | none => simp [hv, hp] at h
      | some header =>
        simp only [hv, hp, ite_throw_eq_ok, except_bind_eq_ok, ne_eq, not_not] at h
        obtain ⟨howner, hvault, hhash, keyWrap, hwrap, hwire, h⟩ := h
        cases h
        exact ⟨container, verified, hsigner, hv, hp, howner, hvault, hhash, rfl, hwrap, rfl, hwire⟩
  · rintro ⟨container, verified, hsigner, hv, hp, howner, hvault, hhash, he, hwrap, hsigned, hwire⟩
    obtain ⟨header, signed, envelope, keyWrap, author⟩ := snapshot
    cases he
    cases hsigned
    dsimp only at *
    rw [hsigner]
    refine except_bind_eq_ok.mpr ⟨(author, container), rfl, ?_⟩
    simp only [hv, hp, ite_throw_eq_ok, except_bind_eq_ok, ne_eq, not_not]
    exact ⟨howner, hvault, hhash, keyWrap, hwrap, hwire, rfl⟩

theorem verifySnapshot_envelopeHash {record : SnapshotRecord} {snapshot : VerifiedSnapshot}
    (h : verifySnapshot prim record vaultId authors rule = .ok snapshot) :
    snapshot.signed.envelopeHash = prim.sha256 snapshot.envelope := by
  obtain ⟨container, verified, -, -, -, -, -, hhash, he, -, hsigned, -⟩ :=
    verifySnapshot_eq_ok_iff.mp h
  rw [hsigned, he]
  exact hhash.symm

/-! ### Later certificates -/

/-- Every certificate is still held for the same device and key; its status may be another. -/
def Authors.Kept (authors authors' : Authors) : Prop :=
  ∀ keyId cert, authors.byKeyId keyId = some cert → ∃ cert', authors'.byKeyId keyId = some cert' ∧
    cert'.deviceId = cert.deviceId ∧ cert'.verifyingKey = cert.verifyingKey

theorem Authors.Kept.signer (hk : authors.Kept authors') {wire container : Bytes}
    {author : AuthorCertificate} (h : signer prim wire authors = .ok (author, container)) :
    ∃ author', signer prim wire authors' = .ok (author', container) ∧
      author'.deviceId = author.deviceId ∧ author'.verifyingKey = author.verifyingKey := by
  unfold Vault.signer at h ⊢
  split_ifs at h ⊢ with hlen
  dsimp only at h ⊢
  cases hid : prim.signerKeyId (wire.drop (wire.length - containerLen)) with
  | none => simp [hid] at h
  | some keyId =>
    simp only [hid, Option.bind_some] at h ⊢
    cases hc : authors.byKeyId keyId with
    | none => simp [hc] at h
    | some cert =>
      simp only [hc, Except.ok.injEq, Prod.mk.injEq] at h
      obtain ⟨rfl, rfl⟩ := h
      obtain ⟨cert', hc', hdevice, hkey⟩ := hk keyId cert hc
      exact ⟨cert', by simp [hc'], hdevice, hkey⟩

/-- A record accepted before is accepted with the same content. -/
theorem Authors.Kept.verifyOp (hk : authors.Kept authors') {record : OpRecord}
    {bodyRequired : Bool} {op : VerifiedOp}
    (h : verifyOp prim record vaultId authors bodyRequired rule = .ok op) :
    ∃ author', Vault.verifyOp prim record vaultId authors' bodyRequired rule =
      .ok { op with author := author' } := by
  obtain ⟨container, verified, hsigner, hv, hp, howner, hrest⟩ := verifyOp_eq_ok_iff.mp h
  obtain ⟨author', hsigner', hdevice, hkey⟩ := hk.signer hsigner
  exact ⟨author', verifyOp_eq_ok_iff.mpr
    ⟨container, verified, hsigner', hkey ▸ hv, hp, howner.trans hdevice.symm, hrest⟩⟩

theorem Authors.Kept.verifySnapshot (hk : authors.Kept authors') {record : SnapshotRecord}
    {snapshot : VerifiedSnapshot}
    (h : verifySnapshot prim record vaultId authors rule = .ok snapshot) :
    ∃ author', Vault.verifySnapshot prim record vaultId authors' rule =
      .ok { snapshot with author := author' } := by
  obtain ⟨container, verified, hsigner, hv, hp, howner, hrest⟩ := verifySnapshot_eq_ok_iff.mp h
  obtain ⟨author', hsigner', hdevice, hkey⟩ := hk.signer hsigner
  exact ⟨author', verifySnapshot_eq_ok_iff.mpr
    ⟨container, verified, hsigner', hkey ▸ hv, hp, howner.trans hdevice.symm, hrest⟩⟩

end RizzyVault.Vault
