import RizzyVault.Core.Envelope
import RizzyVault.Core.Normalize
import RizzyVault.Core.ReaderGrammar
import RizzyVault.Core.Statements
import RizzyVault.Lib.Text

/-!
# The device-state record

The one byte string a durable device keeps for its enrolment. It is read back from a file that
anyone with the user's rights can change, and one state has one encoding.

## Main definitions

* `DeviceRecord`, `DeviceRecord.parse`, `DeviceRecord.encode`.
* `putRecord`: the layout of a record; `Readable`: the rules of the parser.

## Main results

* `parse_eq_ok_iff`, `encode_eq_ok_iff`: what is read and what is written is the layout.
* `device_record_codec`: the two undo each other.

## References

* `crates/rizzy-client/src/store/record.rs`, `crates/rizzy-core/src/kdf.rs`.
-/

open RizzyVault.Core RizzyVault.Lib

namespace RizzyVault.Client.Device

/-- Why a record was not read or not written. -/
inductive ClientError
  | cacheUpdateRequired
  | cacheCorrupt
  | internal
  deriving DecidableEq

def recordVersion : ℕ := 1

def maxDeviceStateLen : ℕ := 4096

def maxKeyEnvelopeLen : ℕ := 256

/-- A byte string of one length. -/
abbrev FixedBytes (n : ℕ) := {bs : Bytes // bs.length = n}

inductive Stage
  | committed
  | signupPending
  deriving DecidableEq

namespace Stage

def toU8 : Stage → ℕ
  | committed => 1
  | signupPending => 2

def fromU8 (value : ℕ) : Option Stage :=
  if value = 1 then some committed else if value = 2 then some signupPending else none

end Stage

/-! ### Key derivation ids -/

inductive KdfStatus
  | invalid
  | enabled
  | reserved
  deriving DecidableEq

structure Argon2Params where
  mKib : ℕ
  t : ℕ
  p : ℕ
  deriving DecidableEq

structure KdfEntry where
  kdfId : ℕ
  status : KdfStatus
  params : Option Argon2Params

def kdfTable : List KdfEntry :=
  [⟨0, .invalid, none⟩, ⟨1, .enabled, some ⟨65536, 3, 4⟩⟩, ⟨2, .reserved, some ⟨262144, 3, 4⟩⟩]

def clientAllowList : List ℕ := [1]

/-- The parameters of an id that this client accepts. -/
def kdfParams (id : ℕ) : Option Argon2Params :=
  if id ∉ clientAllowList then none
  else
    match kdfTable.find? fun e => e.kdfId = id with
    | some ⟨_, .enabled, some params⟩ => some params
    | _ => none

/-- An id on the allow-list, with its compiled parameters. -/
structure KdfId where
  id : ℕ
  params : Argon2Params
  allowed : kdfParams id = some params
  deriving DecidableEq

def KdfId.fromU16 (id : ℕ) : Option KdfId :=
  match h : kdfParams id with
  | some params => some ⟨id, params, h⟩
  | none => none

/-! ### Records -/

/-- A wrapped account key with the epochs of its context. -/
structure LocalWrap where
  envelope : Bytes
  accountKeyEpoch : Fin (2 ^ 32)
  passwordEpoch : Fin (2 ^ 32)
  deriving DecidableEq

/-- What the device state becomes once the outstanding commit is acknowledged. -/
structure PendingRecord where
  secretKey : FixedBytes 16
  deviceSalt : FixedBytes 16
  kdfId : KdfId
  localWrap : LocalWrap
  deviceKeysWrap : Option Bytes
  deriving DecidableEq

structure DeviceRecord where
  stage : Stage
  serverOrigin : ServerOrigin
  accountId : FixedBytes 16
  deviceId : FixedBytes 16
  deviceKind : DeviceKind
  secretKey : FixedBytes 16
  deviceSalt : FixedBytes 16
  kdfId : KdfId
  deviceKeysWrap : Bytes
  localWrap : Option LocalWrap
  pending : Option PendingRecord
  deriving DecidableEq

/-- A record of a signup that is not acknowledged has a local wrap and no pending record. -/
def stageAllows (stage : Stage) (localWrap : Option LocalWrap) (pending : Option PendingRecord) :
    Bool :=
  !(stage = .signupPending && (localWrap.isNone || pending.isSome))

/-! ### Reading -/

abbrev RecordParser := Parser Byte ClientError

/-- A read whose every failure is a corrupt cache. -/
def orCorrupt {α : Type} (r : Reader α) : RecordParser α := r.mapError fun _ => .cacheCorrupt

/-- The next `n` bytes. -/
def array (n : ℕ) : RecordParser (FixedBytes n) := fun cur =>
  if h : n ≤ cur.rest.length then
    .ok (⟨cur.rest.take n, List.length_take_of_le h⟩, { cur with rest := cur.rest.drop n })
  else .error .cacheCorrupt

def u32 : RecordParser (Fin (2 ^ 32)) := do return Fin.ofNat (2 ^ 32) (← orCorrupt Reader.u32)

/-- A length-prefixed text. -/
def str : RecordParser Bytes := do
  let text ← orCorrupt do Reader.take (← Reader.u32)
  Parser.require (fromUtf8 text).isSome .cacheCorrupt
  return text

def isSymmetricEnvelope (bytes : Bytes) : Bool := (symmetricKeyId bytes).isSome

/-- A key envelope, or nothing for the empty string. -/
def optionalKeyEnvelope : RecordParser (Option Bytes) := do
  let bytes ← orCorrupt (Reader.bytesMax maxKeyEnvelopeLen)
  if bytes = [] then return none
  else do
    Parser.require (isSymmetricEnvelope bytes) .cacheCorrupt
    return some bytes

def keyEnvelope : RecordParser Bytes := do Parser.ofOption (← optionalKeyEnvelope) .cacheCorrupt

def flag : RecordParser Bool := do
  let value ← orCorrupt Reader.u8
  Parser.ofOption (if value = 0 then some false else if value = 1 then some true else none)
    .cacheCorrupt

def kdfId : RecordParser KdfId := do
  Parser.ofOption (KdfId.fromU16 (← orCorrupt Reader.u16)) .cacheCorrupt

def durableKind : RecordParser DeviceKind := do
  let value ← orCorrupt Reader.u8
  Parser.ofOption ((DeviceKind.fromU8 value).filter DeviceKind.isDurable) .cacheCorrupt

/-- The origin, in its canonical spelling only. -/
def serverOrigin (ip : IpText) : RecordParser ServerOrigin := do
  let text ← str
  let origin ← Parser.ofOption (ServerOrigin.parse ip text).toOption .cacheCorrupt
  Parser.require (origin.text = text) .cacheCorrupt
  return origin

/-- The epochs and the envelope of a local wrap. -/
def localWrap : RecordParser LocalWrap := do
  let accountKeyEpoch ← u32
  let passwordEpoch ← u32
  let envelope ← keyEnvelope
  return ⟨envelope, accountKeyEpoch, passwordEpoch⟩

def pendingRecord : RecordParser PendingRecord := do
  let secretKey ← array 16
  let deviceSalt ← array 16
  let kdf ← kdfId
  let wrap ← localWrap
  let deviceKeysWrap ← optionalKeyEnvelope
  return ⟨secretKey, deviceSalt, kdf, wrap, deviceKeysWrap⟩

/-- What a flag announces. -/
def optional {α : Type} (p : RecordParser α) : RecordParser (Option α) := do
  if ← flag then return some (← p) else return none

def deviceRecord (ip : IpText) : RecordParser DeviceRecord := do
  let version ← orCorrupt Reader.u16
  Parser.require (version ≠ 0) .cacheCorrupt
  Parser.require (version = recordVersion) .cacheUpdateRequired
  let stage ← Parser.ofOption (Stage.fromU8 (← orCorrupt Reader.u8)) .cacheCorrupt
  let origin ← serverOrigin ip
  let accountId ← array 16
  let deviceId ← array 16
  let deviceKind ← durableKind
  let secretKey ← array 16
  let deviceSalt ← array 16
  let kdf ← kdfId
  let deviceKeysWrap ← keyEnvelope
  let wrap ← optional localWrap
  let pending ← optional pendingRecord
  orCorrupt Reader.finish
  Parser.require (stageAllows stage wrap pending) .cacheCorrupt
  return ⟨stage, origin, accountId, deviceId, deviceKind, secretKey, deviceSalt, kdf,
    deviceKeysWrap, wrap, pending⟩

def DeviceRecord.parse (ip : IpText) (bytes : Bytes) : Except ClientError DeviceRecord :=
  if maxDeviceStateLen < bytes.length then .error .cacheCorrupt
  else (deviceRecord ip ⟨bytes, bytes.length⟩).map Prod.fst

/-! ### Writing -/

def putBytesOrFail (out x : Bytes) : Except ClientError Bytes :=
  if x.length < 2 ^ 32 then .ok (out ++ putBytes x) else .error .internal

/-- Appends an envelope that is not too long. -/
def putEnvelope (out bytes : Bytes) : Except ClientError Bytes :=
  if maxKeyEnvelopeLen < bytes.length then .error .internal else putBytesOrFail out bytes

def putLocal (out : Bytes) : Option LocalWrap → Except ClientError Bytes
  | none => .ok (out ++ beBytes 1 0)
  | some wrap =>
    putEnvelope (out ++ beBytes 1 1 ++ beBytes 4 wrap.accountKeyEpoch.val ++
      beBytes 4 wrap.passwordEpoch.val) wrap.envelope

/-- Appends the device keys of a pending record; the empty string means that they stay. -/
def putDeviceKeys (out : Bytes) : Option Bytes → Except ClientError Bytes
  | some wrap => if wrap ≠ [] then putEnvelope out wrap else .error .internal
  | none => putBytesOrFail out []

def putPending (out : Bytes) : Option PendingRecord → Except ClientError Bytes
  | none => .ok (out ++ beBytes 1 0)
  | some pending => do
    let out ← putEnvelope (out ++ beBytes 1 1 ++ pending.secretKey.val ++ pending.deviceSalt.val ++
      beBytes 2 pending.kdfId.id ++ beBytes 4 pending.localWrap.accountKeyEpoch.val ++
      beBytes 4 pending.localWrap.passwordEpoch.val) pending.localWrap.envelope
    putDeviceKeys out pending.deviceKeysWrap

def DeviceRecord.encode (r : DeviceRecord) : Except ClientError Bytes :=
  if !stageAllows r.stage r.localWrap r.pending then .error .internal
  else do
    let out ← putBytesOrFail (beBytes 2 recordVersion ++ beBytes 1 r.stage.toU8) r.serverOrigin.text
    let out ← putEnvelope (out ++ r.accountId.val ++ r.deviceId.val ++
      beBytes 1 r.deviceKind.toU8 ++ r.secretKey.val ++ r.deviceSalt.val ++
      beBytes 2 r.kdfId.id) r.deviceKeysWrap
    let out ← putLocal out r.localWrap
    let out ← putPending out r.pending
    if maxDeviceStateLen < out.length then .error .internal else .ok out

/-! ### The fields -/

theorem parses_array (n : ℕ) : Parses Set.univ (array n) fun bs x => bs = x.val := by
  intro input len x cur
  unfold array
  split_ifs with h
  · constructor
    · intro heq
      cases heq
      exact ⟨_, rfl, (List.take_append_drop n input).symm, rfl, trivial⟩
    · rintro ⟨_, rfl, rfl, rfl, -⟩
      obtain ⟨bs, rfl⟩ := x
      simp
  · constructor
    · intro heq
      cases heq
    · rintro ⟨_, rfl, rfl, -⟩
      refine absurd ?_ h
      rw [List.length_append, x.property]
      exact Nat.le_add_right _ _

theorem parses_u32 : Parses Set.univ u32 fun bs x => bs = beBytes 4 x.val := by
  refine (parses_map (Fin.ofNat (2 ^ 32)) (parses_mapError _ (Reader.parses_number 4))).congr
    fun bs x => ?_
  constructor
  · rintro ⟨n, ⟨hn, rfl⟩, rfl⟩
    rw [show (Fin.ofNat (2 ^ 32) n).val = n from Nat.mod_eq_of_lt hn]
  · rintro rfl
    refine ⟨x.val, ⟨x.isLt, rfl⟩, Fin.ext ?_⟩
    exact (Nat.mod_eq_of_lt x.isLt).symm

/-- The rules of an envelope: it is short, and a symmetric envelope. -/
def EnvelopeRules (envelope : Bytes) : Prop :=
  envelope.length ≤ maxKeyEnvelopeLen ∧ isSymmetricEnvelope envelope = true

theorem ne_nil_of_isSymmetric {envelope : Bytes} (h : isSymmetricEnvelope envelope = true) :
    envelope ≠ [] := by
  rintro rfl
  cases h

theorem parses_optionalKeyEnvelope : Parses Set.univ optionalKeyEnvelope fun bs o =>
    (∀ e ∈ o, EnvelopeRules e) ∧ bs = putBytes (o.getD []) := by
  have hrest : ∀ bytes : Bytes, Parses Set.univ
      (if bytes = [] then return none
        else do
          Parser.require (isSymmetricEnvelope bytes) ClientError.cacheCorrupt
          return some bytes : RecordParser (Option Bytes))
      fun bs o => (∀ e ∈ o, isSymmetricEnvelope e = true) ∧ bytes = o.getD [] ∧ bs = [] := by
    intro bytes
    split_ifs with hnil
    · refine (parses_pure none).congr fun bs o => ?_
      constructor
      · rintro ⟨rfl, rfl⟩
        exact ⟨fun e he => (by cases he), hnil, rfl⟩
      · rintro ⟨hsym, hbytes, rfl⟩
        cases o with
        | none => exact ⟨rfl, rfl⟩
        | some e =>
          rw [hnil] at hbytes
          exact absurd hbytes.symm (ne_nil_of_isSymmetric (hsym e rfl))
    · refine (parses_require (parses_pure (some bytes))).congr fun bs o => ?_
      constructor
      · rintro ⟨hsym, rfl, rfl⟩
        exact ⟨fun e he => (by cases he; exact hsym), rfl, rfl⟩
      · rintro ⟨hsym, rfl, rfl⟩
        cases o with
        | none => exact absurd rfl hnil
        | some e => exact ⟨hsym e rfl, rfl, rfl⟩
  refine (parses_bind (parses_mapError _ (Reader.parses_bytesMax (by decide))) hrest).congr
    fun bs o => ?_
  constructor
  · rintro ⟨_, _, bytes, ⟨hlen, rfl⟩, ⟨hsym, rfl, rfl⟩, rfl⟩
    refine ⟨fun e he => ⟨?_, hsym e he⟩, List.append_nil _⟩
    cases he
    exact hlen
  · rintro ⟨hrules, rfl⟩
    refine ⟨_, [], o.getD [], ⟨?_, rfl⟩, ⟨fun e he => (hrules e he).2, rfl, rfl⟩,
      (List.append_nil _).symm⟩
    cases o with
    | none => exact Nat.zero_le _
    | some e => exact (hrules e rfl).1

theorem parses_some {α : Type} (o : Option α) (e : ClientError) :
    Parses Set.univ (Parser.ofOption o e : RecordParser α) fun bs y => o = some y ∧ bs = [] := by
  rw [← bind_pure (Parser.ofOption o e : RecordParser α)]
  refine (parses_ofOption fun y => parses_pure y).congr fun bs y => ?_
  constructor
  · rintro ⟨y', hy, rfl, rfl⟩
    exact ⟨hy, rfl⟩
  · rintro ⟨hy, rfl⟩
    exact ⟨y, hy, rfl, rfl⟩

theorem parses_keyEnvelope : Parses Set.univ keyEnvelope fun bs e =>
    EnvelopeRules e ∧ bs = putBytes e := by
  refine (parses_bind parses_optionalKeyEnvelope fun o => parses_some o _).congr fun bs e => ?_
  constructor
  · rintro ⟨_, _, o, ⟨hrules, rfl⟩, ⟨rfl, rfl⟩, rfl⟩
    exact ⟨hrules e rfl, List.append_nil _⟩
  · rintro ⟨hrules, rfl⟩
    exact ⟨_, [], some e, ⟨fun e' he => (by cases he; exact hrules), rfl⟩, ⟨rfl, rfl⟩,
      (List.append_nil _).symm⟩

/-- The byte of a flag. -/
def flagByte (b : Bool) : Bytes := beBytes 1 (if b then 1 else 0)

theorem parses_flag : Parses Set.univ flag fun bs b => bs = flagByte b := by
  refine (parses_bind (parses_mapError _ (Reader.parses_number 1)) fun n =>
    parses_some _ _).congr fun bs b => ?_
  constructor
  · rintro ⟨_, _, n, ⟨hn, rfl⟩, ⟨hb, rfl⟩, rfl⟩
    split_ifs at hb with hzero hone
    · cases hb
      rw [hzero]
      rfl
    · cases hb
      rw [hone]
      rfl
  · rintro rfl
    cases b with
    | false => exact ⟨_, [], 0, ⟨by decide, rfl⟩, ⟨rfl, rfl⟩, rfl⟩
    | true => exact ⟨_, [], 1, ⟨by decide, rfl⟩, ⟨rfl, rfl⟩, rfl⟩

theorem KdfId.fromU16_eq_some {id : ℕ} {kdf : KdfId} : KdfId.fromU16 id = some kdf ↔ kdf.id = id := by
  unfold KdfId.fromU16
  constructor
  · intro h
    split at h
    · cases h
      rfl
    · cases h
  · rintro rfl
    split
    · rename_i params h
      have hparams := h.symm.trans kdf.allowed
      obtain ⟨id, params', hallowed⟩ := kdf
      cases hparams
      rfl
    · rename_i h
      rw [kdf.allowed] at h
      cases h

theorem KdfId.id_lt (kdf : KdfId) : kdf.id < 256 ^ 2 := by
  have h := kdf.allowed
  unfold kdfParams at h
  split_ifs at h with hlist
  have hid : kdf.id = 1 := List.mem_singleton.mp hlist
  omega

theorem parses_kdfId : Parses Set.univ kdfId fun bs kdf => bs = beBytes 2 kdf.id := by
  refine (parses_bind (parses_mapError _ (Reader.parses_number 2)) fun n =>
    parses_some _ _).congr fun bs kdf => ?_
  constructor
  · rintro ⟨_, _, n, ⟨hn, rfl⟩, ⟨hkdf, rfl⟩, rfl⟩
    rw [KdfId.fromU16_eq_some.mp hkdf, List.append_nil]
  · rintro rfl
    exact ⟨_, [], kdf.id, ⟨kdf.id_lt, rfl⟩, ⟨KdfId.fromU16_eq_some.mpr rfl, rfl⟩,
      (List.append_nil _).symm⟩

theorem fromU8_toU8 (kind : DeviceKind) : DeviceKind.fromU8 kind.toU8 = some kind := by
  cases kind <;> rfl

theorem toU8_of_fromU8 {value : ℕ} {kind : DeviceKind} (h : DeviceKind.fromU8 value = some kind) :
    kind.toU8 = value := by
  have h' := List.find?_some h
  exact of_decide_eq_true h'

theorem parses_durableKind : Parses Set.univ durableKind fun bs kind =>
    kind.isDurable = true ∧ bs = beBytes 1 kind.toU8 := by
  refine (parses_bind (parses_mapError _ (Reader.parses_number 1)) fun n =>
    parses_some _ _).congr fun bs kind => ?_
  constructor
  · rintro ⟨_, _, n, ⟨hn, rfl⟩, ⟨hkind, rfl⟩, rfl⟩
    obtain ⟨hkind, hdurable⟩ := Option.filter_eq_some_iff.mp hkind
    rw [toU8_of_fromU8 hkind, List.append_nil]
    exact ⟨hdurable, rfl⟩
  · rintro ⟨hdurable, rfl⟩
    have hlt : kind.toU8 < 256 ^ 1 := by cases kind <;> decide
    exact ⟨_, [], kind.toU8, ⟨hlt, rfl⟩,
      ⟨Option.filter_eq_some_iff.mpr ⟨fromU8_toU8 kind, hdurable⟩, rfl⟩, (List.append_nil _).symm⟩

variable (ip : IpText)

theorem parses_serverOrigin : Parses Set.univ (serverOrigin ip) fun bs o =>
    ServerOrigin.parse ip o.text = .ok o ∧ bs = putBytes o.text := by
  have hstr : Parses Set.univ str fun bs text =>
      ((fromUtf8 text).isSome = true ∧ text.length < 256 ^ 4) ∧ bs = putBytes text := by
    refine (parses_bind (parses_mapError _ Reader.parses_prefixed) fun text =>
      parses_require (parses_pure text)).congr fun bs text => ?_
    constructor
    · rintro ⟨_, _, text', ⟨hlen, rfl⟩, ⟨hutf8, rfl, rfl⟩, rfl⟩
      exact ⟨⟨hutf8, hlen⟩, List.append_nil _⟩
    · rintro ⟨⟨hutf8, hlen⟩, rfl⟩
      exact ⟨_, [], text, ⟨hlen, rfl⟩, ⟨hutf8, rfl, rfl⟩, (List.append_nil _).symm⟩
  have hcanonical : ∀ (text : Bytes) (o : ServerOrigin), Parses Set.univ
      (do Parser.require (o.text = text) .cacheCorrupt; return o : RecordParser ServerOrigin)
      fun bs o' => decide (o.text = text) = true ∧ bs = [] ∧ o' = o :=
    fun text o => parses_require (parses_pure o)
  refine (parses_bind hstr fun text => parses_ofOption (hcanonical text)).congr fun bs o => ?_
  constructor
  · rintro ⟨_, _, text, ⟨-, rfl⟩, ⟨o', ho, htext, rfl, rfl⟩, rfl⟩
    have htext' := of_decide_eq_true htext
    rw [htext', List.append_nil]
    exact ⟨toOption_eq_some.mp ho, rfl⟩
  · rintro ⟨hparse, rfl⟩
    obtain ⟨hlen, hascii, -⟩ := parse_eq_ok_iff.mp hparse
    refine ⟨_, [], o.text, ⟨⟨fromUtf8_isSome_of_ascii hascii, ?_⟩, rfl⟩,
      ⟨o, toOption_eq_some.mpr hparse, decide_eq_true rfl, rfl, rfl⟩, (List.append_nil _).symm⟩
    exact hlen.trans_lt (by decide)

/-! ### The layout -/

/-- The layout of a local wrap. -/
def putLocalWrap (wrap : LocalWrap) : Bytes :=
  beBytes 4 wrap.accountKeyEpoch.val ++ (beBytes 4 wrap.passwordEpoch.val ++ putBytes wrap.envelope)

/-- The layout of a pending record. -/
def putPendingRecord (pending : PendingRecord) : Bytes :=
  pending.secretKey.val ++ (pending.deviceSalt.val ++ (beBytes 2 pending.kdfId.id ++
    (putLocalWrap pending.localWrap ++ putBytes (pending.deviceKeysWrap.getD []))))

/-- What a flag announces. -/
def putOptional {α : Type} (put : α → Bytes) : Option α → Bytes
  | none => flagByte false
  | some x => flagByte true ++ put x

/-- The layout of a record. -/
def putRecord (r : DeviceRecord) : Bytes :=
  beBytes 2 recordVersion ++ (beBytes 1 r.stage.toU8 ++ (putBytes r.serverOrigin.text ++
    (r.accountId.val ++ (r.deviceId.val ++ (beBytes 1 r.deviceKind.toU8 ++ (r.secretKey.val ++
      (r.deviceSalt.val ++ (beBytes 2 r.kdfId.id ++ (putBytes r.deviceKeysWrap ++
        (putOptional putLocalWrap r.localWrap ++ putOptional putPendingRecord r.pending))))))))))

/-- The rules of a pending record's envelopes. -/
def PendingRules (pending : PendingRecord) : Prop :=
  EnvelopeRules pending.localWrap.envelope ∧ ∀ e ∈ pending.deviceKeysWrap, EnvelopeRules e

/-- The rules of the parser. -/
structure Readable (ip : IpText) (r : DeviceRecord) : Prop where
  origin : ServerOrigin.parse ip r.serverOrigin.text = .ok r.serverOrigin
  kind : r.deviceKind.isDurable = true
  keys : EnvelopeRules r.deviceKeysWrap
  localWrap : ∀ wrap ∈ r.localWrap, EnvelopeRules wrap.envelope
  pending : ∀ pending ∈ r.pending, PendingRules pending
  stage : stageAllows r.stage r.localWrap r.pending = true

theorem parses_localWrap : Parses Set.univ localWrap fun bs wrap =>
    EnvelopeRules wrap.envelope ∧ bs = putLocalWrap wrap := by
  refine (parses_then parses_u32 fun a => parses_then parses_u32 fun p =>
    parses_map (fun e => (⟨e, a, p⟩ : LocalWrap)) parses_keyEnvelope).congr fun bs wrap => ?_
  constructor
  · rintro ⟨a, _, ⟨p, _, ⟨e, ⟨hrules, rfl⟩, rfl⟩, rfl⟩, rfl⟩
    exact ⟨hrules, rfl⟩
  · rintro ⟨hrules, rfl⟩
    exact ⟨_, _, ⟨_, _, ⟨_, ⟨hrules, rfl⟩, rfl⟩, rfl⟩, rfl⟩

theorem parses_pendingRecord : Parses Set.univ pendingRecord fun bs pending =>
    PendingRules pending ∧ bs = putPendingRecord pending := by
  refine (parses_then (parses_array 16) fun k => parses_then (parses_array 16) fun s =>
    parses_then parses_kdfId fun kdf => parses_bind parses_localWrap fun w =>
      parses_map (fun d => (⟨k, s, kdf, w, d⟩ : PendingRecord))
        parses_optionalKeyEnvelope).congr fun bs pending => ?_
  constructor
  · rintro ⟨k, _, ⟨s, _, ⟨kdf, _, ⟨_, _, w, ⟨hw, rfl⟩, ⟨d, ⟨hd, rfl⟩, rfl⟩, rfl⟩, rfl⟩, rfl⟩, rfl⟩
    exact ⟨⟨hw, hd⟩, rfl⟩
  · rintro ⟨⟨hw, hd⟩, rfl⟩
    exact ⟨_, _, ⟨_, _, ⟨_, _, ⟨_, _, _, ⟨hw, rfl⟩, ⟨_, ⟨hd, rfl⟩, rfl⟩, rfl⟩, rfl⟩, rfl⟩, rfl⟩

theorem parses_optional {α : Type} {p : RecordParser α} {Q : α → Prop} {put : α → Bytes}
    (hp : Parses Set.univ p fun bs x => Q x ∧ bs = put x) :
    Parses Set.univ (optional p) fun bs o => (∀ x ∈ o, Q x) ∧ bs = putOptional put o := by
  have hbody : ∀ b : Bool, Parses Set.univ
      (if b then return some (← p) else return none : RecordParser (Option α)) fun bs o =>
        (∀ x ∈ o, Q x) ∧ flagByte b ++ bs = putOptional put o := by
    intro b
    cases b with
    | false =>
      refine (parses_pure none).congr fun bs o => ?_
      constructor
      · rintro ⟨rfl, rfl⟩
        exact ⟨fun x hx => (by cases hx), rfl⟩
      · rintro ⟨-, hbs⟩
        cases o with
        | none => exact ⟨List.append_right_eq_self.mp hbs, rfl⟩
        | some x =>
          have hhead : some (0 : Byte) = some 1 := congrArg List.head? hbs
          exact absurd hhead (by decide)
    | true =>
      refine (parses_map some hp).congr fun bs o => ?_
      constructor
      · rintro ⟨x, ⟨hx, rfl⟩, rfl⟩
        exact ⟨fun y hy => (by cases hy; exact hx), rfl⟩
      · rintro ⟨hQ, hbs⟩
        cases o with
        | none =>
          have hhead : some (1 : Byte) = some 0 := congrArg List.head? hbs
          exact absurd hhead (by decide)
        | some x => exact ⟨x, ⟨hQ x rfl, List.append_cancel_left hbs⟩, rfl⟩
  refine (parses_then parses_flag hbody).congr fun bs o => ?_
  constructor
  · rintro ⟨b, bs', ⟨hQ, hbs⟩, rfl⟩
    exact ⟨hQ, hbs⟩
  · rintro ⟨hQ, rfl⟩
    cases o with
    | none => exact ⟨false, [], ⟨hQ, rfl⟩, rfl⟩
    | some x => exact ⟨true, put x, ⟨hQ, rfl⟩, rfl⟩

/-- The end of a record, and the check of its stage. -/
theorem parses_finish_check {α : Type} (ok : Bool) (x : α) :
    Parses {[]} (do
        orCorrupt Reader.finish
        Parser.require ok .cacheCorrupt
        return x : RecordParser α) fun bs y => ok = true ∧ bs = [] ∧ y = x := by
  intro input len y cur
  cases ok with
  | false =>
    constructor
    · intro h
      cases input <;> cases h
    · rintro ⟨bs, ⟨h, -⟩, -⟩
      cases h
  | true =>
    simp only [true_and]
    exact Reader.parses_finish (fun _ => ClientError.cacheCorrupt) x input len y cur

theorem Stage.fromU8_eq_some {value : ℕ} {stage : Stage} :
    Stage.fromU8 value = some stage ↔ value = stage.toU8 := by
  unfold Stage.fromU8
  cases stage with
  | committed => split_ifs <;> simp_all [Stage.toU8]
  | signupPending => split_ifs <;> simp_all [Stage.toU8]

variable {ip}

theorem parses_deviceRecord : Parses {[]} (deviceRecord ip) fun bs r =>
    Readable ip r ∧ bs = putRecord r := by
  unfold deviceRecord
  apply Parses.congr
  · apply parses_bind (parses_mapError _ (Reader.parses_number 2))
    intro version
    apply parses_require
    apply parses_require
    apply parses_bind (parses_mapError _ (Reader.parses_number 1))
    intro value
    apply parses_ofOption
    intro stage
    apply parses_bind (parses_serverOrigin ip)
    intro origin
    apply parses_then (parses_array 16)
    intro accountId
    apply parses_then (parses_array 16)
    intro deviceId
    apply parses_bind parses_durableKind
    intro deviceKind
    apply parses_then (parses_array 16)
    intro secretKey
    apply parses_then (parses_array 16)
    intro deviceSalt
    apply parses_then parses_kdfId
    intro kdf
    apply parses_bind parses_keyEnvelope
    intro deviceKeysWrap
    apply parses_bind (parses_optional parses_localWrap)
    intro wrap
    apply parses_bind (parses_optional parses_pendingRecord)
    intro pending
    exact parses_finish_check _ _
  intro bs r
  simp only [decide_eq_true_eq]
  constructor
  · rintro ⟨_, _, version, ⟨-, rfl⟩, h, rfl⟩
    obtain ⟨-, rfl, _, _, value, ⟨-, rfl⟩, h, rfl⟩ := h
    obtain ⟨stage, hstage, _, _, origin, ⟨horigin, rfl⟩, h, rfl⟩ := h
    obtain ⟨accountId, _, h, rfl⟩ := h
    obtain ⟨deviceId, _, h, rfl⟩ := h
    obtain ⟨_, _, deviceKind, ⟨hkind, rfl⟩, h, rfl⟩ := h
    obtain ⟨secretKey, _, h, rfl⟩ := h
    obtain ⟨deviceSalt, _, h, rfl⟩ := h
    obtain ⟨kdf, _, h, rfl⟩ := h
    obtain ⟨_, _, deviceKeysWrap, ⟨hkeys, rfl⟩, h, rfl⟩ := h
    obtain ⟨_, _, wrap, ⟨hwrap, rfl⟩, h, rfl⟩ := h
    obtain ⟨_, _, pending, ⟨hpending, rfl⟩, ⟨hcheck, rfl, rfl⟩, rfl⟩ := h
    rw [Stage.fromU8_eq_some.mp hstage, List.append_nil]
    exact ⟨⟨horigin, hkind, hkeys, hwrap, hpending, hcheck⟩, rfl⟩
  · rintro ⟨⟨horigin, hkind, hkeys, hwrap, hpending, hcheck⟩, rfl⟩
    have hstage : r.stage.toU8 < 256 ^ 1 := by cases r.stage <;> decide
    refine ⟨_, _, recordVersion, ⟨by decide, rfl⟩, ⟨by decide, rfl, _, _, _, ⟨hstage, rfl⟩,
      ⟨r.stage, Stage.fromU8_eq_some.mpr rfl, _, _, _, ⟨horigin, rfl⟩, ⟨r.accountId, _,
        ⟨r.deviceId, _, ⟨_, _, _, ⟨hkind, rfl⟩, ⟨r.secretKey, _, ⟨r.deviceSalt, _, ⟨r.kdfId, _,
          ⟨_, _, _, ⟨hkeys, rfl⟩, ⟨_, _, _, ⟨hwrap, rfl⟩, ⟨_, _, _, ⟨hpending, rfl⟩,
            ⟨hcheck, rfl, rfl⟩, rfl⟩, rfl⟩, rfl⟩, rfl⟩, rfl⟩, rfl⟩, rfl⟩, rfl⟩, rfl⟩, rfl⟩, rfl⟩, ?_⟩
    rw [List.append_nil]
    rfl

theorem parse_eq_ok_iff {bytes : Bytes} {r : DeviceRecord} : DeviceRecord.parse ip bytes = .ok r ↔
    bytes.length ≤ maxDeviceStateLen ∧ Readable ip r ∧ bytes = putRecord r := by
  unfold DeviceRecord.parse
  split_ifs with hlen
  · constructor
    · intro h
      cases h
    · rintro ⟨hle, -⟩
      omega
  · rw [parses_deviceRecord.run_eq_ok_iff]
    exact (and_iff_right (Nat.le_of_not_lt hlen)).symm

/-! ### What is written -/

theorem putBytesOrFail_eq_ok_iff {out x out' : Bytes} :
    putBytesOrFail out x = .ok out' ↔ x.length < 2 ^ 32 ∧ out' = out ++ putBytes x := by
  unfold putBytesOrFail
  split_ifs with h
  · rw [Except.ok.injEq, eq_comm]
    exact (and_iff_right h).symm
  · exact ⟨fun h' => (by cases h'), fun h' => absurd h'.1 h⟩

theorem putEnvelope_eq_ok_iff {out bytes out' : Bytes} : putEnvelope out bytes = .ok out' ↔
    bytes.length ≤ maxKeyEnvelopeLen ∧ out' = out ++ putBytes bytes := by
  unfold putEnvelope
  split_ifs with h
  · constructor
    · intro h'
      cases h'
    · rintro ⟨hle, -⟩
      omega
  · rw [putBytesOrFail_eq_ok_iff]
    have hle := Nat.le_of_not_lt h
    have hlt : bytes.length < 2 ^ 32 := hle.trans_lt (by decide)
    rw [and_iff_right hlt, and_iff_right hle]

theorem putLocal_eq_ok_iff {out out' : Bytes} {wrap : Option LocalWrap} :
    putLocal out wrap = .ok out' ↔ (∀ w ∈ wrap, w.envelope.length ≤ maxKeyEnvelopeLen) ∧
      out' = out ++ putOptional putLocalWrap wrap := by
  cases wrap with
  | none =>
    rw [putLocal, Except.ok.injEq, eq_comm]
    exact (and_iff_right fun w hw => (by cases hw)).symm
  | some w =>
    rw [putLocal, putEnvelope_eq_ok_iff]
    simp [putOptional, putLocalWrap, flagByte]

/-- The rules of the writer for a pending record. -/
def PendingFits (pending : PendingRecord) : Prop :=
  pending.localWrap.envelope.length ≤ maxKeyEnvelopeLen ∧
    ∀ e ∈ pending.deviceKeysWrap, e ≠ [] ∧ e.length ≤ maxKeyEnvelopeLen

theorem putDeviceKeys_eq_ok_iff {out out' : Bytes} {wrap : Option Bytes} :
    putDeviceKeys out wrap = .ok out' ↔ (∀ e ∈ wrap, e ≠ [] ∧ e.length ≤ maxKeyEnvelopeLen) ∧
      out' = out ++ putBytes (wrap.getD []) := by
  cases wrap with
  | none =>
    rw [putDeviceKeys, putBytesOrFail_eq_ok_iff]
    simp
  | some e =>
    rw [putDeviceKeys]
    split_ifs with h
    · rw [putEnvelope_eq_ok_iff]
      simp [h]
    · simp_all

theorem putPending_eq_ok_iff {out out' : Bytes} {pending : Option PendingRecord} :
    putPending out pending = .ok out' ↔ (∀ p ∈ pending, PendingFits p) ∧
      out' = out ++ putOptional putPendingRecord pending := by
  cases pending with
  | none =>
    rw [putPending, Except.ok.injEq, eq_comm]
    exact (and_iff_right fun w hw => (by cases hw)).symm
  | some p =>
    rw [putPending, except_bind_eq_ok]
    simp only [putEnvelope_eq_ok_iff, putDeviceKeys_eq_ok_iff]
    constructor
    · rintro ⟨_, ⟨hlen, rfl⟩, hkeys, rfl⟩
      refine ⟨fun q hq => (by cases hq; exact ⟨hlen, hkeys⟩), ?_⟩
      simp [putOptional, putPendingRecord, putLocalWrap, flagByte]
    · rintro ⟨hfits, rfl⟩
      refine ⟨_, ⟨(hfits p rfl).1, rfl⟩, (hfits p rfl).2, ?_⟩
      simp [putOptional, putPendingRecord, putLocalWrap, flagByte]

/-- The rules of the writer. -/
structure Writable (r : DeviceRecord) : Prop where
  origin : r.serverOrigin.text.length < 2 ^ 32
  keys : r.deviceKeysWrap.length ≤ maxKeyEnvelopeLen
  localWrap : ∀ wrap ∈ r.localWrap, wrap.envelope.length ≤ maxKeyEnvelopeLen
  pending : ∀ pending ∈ r.pending, PendingFits pending
  stage : stageAllows r.stage r.localWrap r.pending = true

theorem encode_eq_ok_iff {r : DeviceRecord} {bytes : Bytes} : r.encode = .ok bytes ↔
    bytes.length ≤ maxDeviceStateLen ∧ Writable r ∧ bytes = putRecord r := by
  have hlayout : putRecord r = beBytes 2 recordVersion ++ beBytes 1 r.stage.toU8 ++
      putBytes r.serverOrigin.text ++ r.accountId.val ++ r.deviceId.val ++
      beBytes 1 r.deviceKind.toU8 ++ r.secretKey.val ++ r.deviceSalt.val ++ beBytes 2 r.kdfId.id ++
      putBytes r.deviceKeysWrap ++ putOptional putLocalWrap r.localWrap ++
      putOptional putPendingRecord r.pending := by
    simp only [putRecord, List.append_assoc]
  unfold DeviceRecord.encode
  split_ifs with hstage
  · refine ⟨fun h => (by cases h), fun ⟨_, h, _⟩ => ?_⟩
    rw [h.stage] at hstage
    cases hstage
  · have hallows : stageAllows r.stage r.localWrap r.pending = true := by simpa using hstage
    simp only [except_bind_eq_ok, putBytesOrFail_eq_ok_iff, putEnvelope_eq_ok_iff,
      putLocal_eq_ok_iff, putPending_eq_ok_iff]
    rw [hlayout]
    constructor
    · rintro ⟨_, ⟨horigin, rfl⟩, _, ⟨hkeys, rfl⟩, _, ⟨hlocal, rfl⟩, _, ⟨hpending, rfl⟩, h⟩
      split_ifs at h with hlen
      cases h
      exact ⟨Nat.le_of_not_lt hlen, ⟨horigin, hkeys, hlocal, hpending, hallows⟩, rfl⟩
    · rintro ⟨hlen, ⟨horigin, hkeys, hlocal, hpending, -⟩, rfl⟩
      exact ⟨_, ⟨horigin, rfl⟩, _, ⟨hkeys, rfl⟩, _, ⟨hlocal, rfl⟩, _, ⟨hpending, rfl⟩,
        if_neg (Nat.not_lt.mpr hlen)⟩

/-- A record whose envelopes are well-formed symmetric envelopes. -/
structure WellFormedEnvelopes (r : DeviceRecord) : Prop where
  keys : isSymmetricEnvelope r.deviceKeysWrap = true
  localWrap : ∀ wrap ∈ r.localWrap, isSymmetricEnvelope wrap.envelope = true
  pending : ∀ pending ∈ r.pending, isSymmetricEnvelope pending.localWrap.envelope = true ∧
    ∀ e ∈ pending.deviceKeysWrap, isSymmetricEnvelope e = true

theorem Readable.writable {r : DeviceRecord} (h : Readable ip r) : Writable r where
  origin := by
    obtain ⟨hlen, -⟩ := Core.parse_eq_ok_iff.mp h.origin
    exact hlen.trans_lt (by decide)
  keys := h.keys.1
  localWrap wrap hwrap := (h.localWrap wrap hwrap).1
  pending pending hpending :=
    have hrules := h.pending pending hpending
    ⟨hrules.1.1, fun e he => ⟨ne_nil_of_isSymmetric (hrules.2 e he).2, (hrules.2 e he).1⟩⟩
  stage := h.stage

theorem Writable.readable {r : DeviceRecord} (h : Writable r) (hsym : WellFormedEnvelopes r)
    (horigin : ServerOrigin.parse ip r.serverOrigin.text = .ok r.serverOrigin)
    (hkind : r.deviceKind.isDurable = true) : Readable ip r where
  origin := horigin
  kind := hkind
  keys := ⟨h.keys, hsym.keys⟩
  localWrap wrap hwrap := ⟨h.localWrap wrap hwrap, hsym.localWrap wrap hwrap⟩
  pending pending hpending :=
    have hfits := h.pending pending hpending
    have hrules := hsym.pending pending hpending
    ⟨⟨hfits.1, hrules.1⟩, fun e he => ⟨(hfits.2 e he).2, hrules.2 e he⟩⟩
  stage := h.stage

/-- What is read is encoded back to the same bytes, and what is encoded is read back if the device
kind is a durable one. -/
theorem device_record_codec (ip : IpText) :
    (∀ bytes r, DeviceRecord.parse ip bytes = .ok r → r.encode = .ok bytes) ∧
    ∀ r bytes, WellFormedEnvelopes r →
      ServerOrigin.parse ip r.serverOrigin.text = .ok r.serverOrigin → r.encode = .ok bytes →
      (DeviceRecord.parse ip bytes = .ok r ↔ r.deviceKind.isDurable = true) := by
  refine ⟨fun bytes r h => ?_, fun r bytes hsym horigin h => ?_⟩
  · obtain ⟨hlen, hreadable, hbytes⟩ := parse_eq_ok_iff.mp h
    exact encode_eq_ok_iff.mpr ⟨hlen, hreadable.writable, hbytes⟩
  · obtain ⟨hlen, hwritable, hbytes⟩ := encode_eq_ok_iff.mp h
    rw [parse_eq_ok_iff]
    constructor
    · rintro ⟨-, hreadable, -⟩
      exact hreadable.kind
    · intro hkind
      exact ⟨hlen, hwritable.readable hsym horigin hkind, hbytes⟩

/-- A record at the loopback address, of a device of this kind. -/
def loopbackRecord (kind : DeviceKind) : DeviceRecord where
  stage := .signupPending
  serverOrigin := ⟨loopbackText, .http⟩
  accountId := ⟨List.replicate 16 1, rfl⟩
  deviceId := ⟨List.replicate 16 2, rfl⟩
  deviceKind := kind
  secretKey := ⟨List.replicate 16 3, rfl⟩
  deviceSalt := ⟨List.replicate 16 4, rfl⟩
  kdfId := ⟨1, ⟨65536, 3, 4⟩, rfl⟩
  deviceKeysWrap := [1, 1] ++ List.replicate 88 0
  localWrap := some ⟨[1, 1] ++ List.replicate 90 7, 1, 1⟩
  pending := none

theorem loopbackRecord_envelopes (kind : DeviceKind) :
    WellFormedEnvelopes (loopbackRecord kind) where
  keys := by
    show isSymmetricEnvelope ([1, 1] ++ List.replicate 88 0) = true
    decide +kernel
  localWrap wrap hwrap := by
    cases hwrap
    decide +kernel
  pending pending hpending := by cases hpending

theorem encode_loopbackRecord (kind : DeviceKind) :
    (loopbackRecord kind).encode = .ok (putRecord (loopbackRecord kind)) := by
  cases kind <;> decide +kernel

theorem device_record_codec_loopback :
    (loopbackRecord .mobile).encode = .ok (putRecord (loopbackRecord .mobile)) ∧
    (DeviceRecord.parse loopback (putRecord (loopbackRecord .mobile)) =
      .ok (loopbackRecord .mobile) ↔ true = true) :=
  ⟨(device_record_codec loopback).1 (putRecord (loopbackRecord .mobile)) _ (by decide +kernel),
    (device_record_codec loopback).2 _ _ (loopbackRecord_envelopes .mobile) (by decide +kernel)
      (encode_loopbackRecord .mobile)⟩

/-- A record of a web vault device is written and not read back. -/
theorem web_record_unread : ∃ r bytes, WellFormedEnvelopes r ∧
    ServerOrigin.parse loopback r.serverOrigin.text = .ok r.serverOrigin ∧
    r.encode = .ok bytes ∧ DeviceRecord.parse loopback bytes ≠ .ok r :=
  ⟨loopbackRecord .webEphemeral, _, loopbackRecord_envelopes .webEphemeral, by decide +kernel,
    encode_loopbackRecord .webEphemeral, by decide +kernel⟩

end RizzyVault.Client.Device
