import RizzyVault.Lib.Result
import RizzyVault.Sync.Header
import RizzyVault.Sync.Record.Grammar

/-!
# The header codec

The canonical encodings of the two headers, and the strict parsers of them. A header has one
encoding if its version vector has at most 65 535 entries and none otherwise, and a byte string is
accepted exactly when it is the encoding of the header the parser returns.

## Main definitions

* `OpHeader.encode`, `OpHeader.parse`, `SnapshotHeader.encode`, `SnapshotHeader.parse`.

## Main results

* `OpHeader.parse_eq_ok_iff`, `SnapshotHeader.parse_eq_ok_iff`: what the parsers accept.
* `header_codec_bijective`: the codecs are bijections.

## References

* `crates/rizzy-sync/src/header.rs`, `crates/rizzy-sync/src/vv.rs`.
-/

open RizzyVault.Core RizzyVault.Lib

namespace RizzyVault.Sync

open Record (putDot putHlc putVv idBytes)

/-- What is wrong with a header: the cursor failed, or a field is not one of a header. -/
inductive HeaderErrorKind
  | decode (kind : RecordErrorKind)
  | unknownHeaderVersion
  | invalidSchemaVersion
  deriving DecidableEq

/-- A failure and the byte where the failing field starts. -/
structure HeaderError where
  kind : HeaderErrorKind
  offset : ℕ
  deriving DecidableEq

inductive EncodeError
  | tooManyEntries
  deriving DecidableEq

abbrev HeaderParser := Parser Byte HeaderError

/-- A read of the cursor, with its failure as one of a header. -/
def onCursor {α : Type} (p : Record.RecordParser α) : HeaderParser α :=
  p.mapError fun e => ⟨.decode e.kind, e.offset⟩

namespace VersionVector

def maxEntries : ℕ := 65535

/-- The canonical encoding. -/
def encode (vv : VersionVector) : Except EncodeError Bytes :=
  if maxEntries < vv.dots.length then .error .tooManyEntries else .ok (putVv vv)

end VersionVector

/-- The schema version of a number. -/
def ItemSchemaVersion.new (n : ℕ) : Option ItemSchemaVersion :=
  if h : n ≠ 0 ∧ n < 0xFFFF then some ⟨n, h.1, h.2⟩ else none

/-! ### Fields -/

def headerVersion : ℕ := 1

def readVersion : HeaderParser Unit := do
  let version ← onCursor Record.u8
  Parser.require (decide (version = headerVersion)) ⟨.unknownHeaderVersion, 0⟩

def readId (κ : IdKind) : HeaderParser (Id κ) := do
  return Record.idOfBytes κ (← onCursor (Record.takeAt 16 0))

def readSchema : HeaderParser ItemSchemaVersion := do
  let at_ ← Parser.offset
  let version ← onCursor Record.u16
  Parser.ofOption (ItemSchemaVersion.new version) ⟨.invalidSchemaVersion, at_⟩

/-- A number of 32 bits. -/
def readU32 : HeaderParser (Fin (2 ^ 32)) := do return Fin.ofNat _ (← onCursor Record.u32)

/-- A number of 64 bits. -/
def readU64 : HeaderParser (Fin (2 ^ 64)) := do return Fin.ofNat _ (← onCursor (Record.number 8))

/-! ### Headers -/

namespace OpHeader

/-- The layout of the header around the bytes of its causal context. -/
def layout (h : OpHeader) (vv : Bytes) : Bytes :=
  beBytes 1 headerVersion ++ (idBytes h.vaultId ++ (idBytes h.itemId ++ (idBytes h.opId ++
    (putDot h.dot ++ (beBytes 8 h.vaultPrevSeq ++ (putHlc h.hlc ++
      (beBytes 2 h.itemSchemaVersion.val ++ (beBytes 4 h.vaultKeyEpoch ++
        vv))))))))

/-- The canonical encoding. -/
def encode (h : OpHeader) : Except EncodeError Bytes :=
  if VersionVector.maxEntries < h.causalContext.dots.length then .error .tooManyEntries
  else h.causalContext.encode.map h.layout

def read : HeaderParser OpHeader := do
  readVersion
  let vaultId ← readId .vault
  let itemId ← readId .item
  let opId ← readId .op
  let dot ← onCursor Record.dot
  let vaultPrevSeq ← readU64
  let hlc ← onCursor Record.hlc
  let itemSchemaVersion ← readSchema
  let vaultKeyEpoch ← readU32
  let causalContext ← onCursor Record.vv
  onCursor Record.finish
  return ⟨vaultId, itemId, opId, dot, vaultPrevSeq, hlc, itemSchemaVersion, vaultKeyEpoch,
    causalContext, vaultPrevSeq.isLt, vaultKeyEpoch.isLt⟩

/-- Parses a header that fills all of `bytes`. -/
def parse (bytes : Bytes) : Except HeaderError OpHeader := (read ⟨bytes, bytes.length⟩).map Prod.fst

end OpHeader

namespace SnapshotHeader

/-- The layout of the header around the bytes of its covered vector. -/
def layout (h : SnapshotHeader) (vv : Bytes) : Bytes :=
  beBytes 1 headerVersion ++ (idBytes h.vaultId ++ (idBytes h.itemId ++ (idBytes h.snapshotId ++
    (idBytes h.author ++ (beBytes 2 h.itemSchemaVersion.val ++ (beBytes 4 h.vaultKeyEpoch ++
      vv))))))

/-- The canonical encoding. -/
def encode (h : SnapshotHeader) : Except EncodeError Bytes :=
  if VersionVector.maxEntries < h.covered.dots.length then .error .tooManyEntries
  else h.covered.encode.map h.layout

def read : HeaderParser SnapshotHeader := do
  readVersion
  let vaultId ← readId .vault
  let itemId ← readId .item
  let snapshotId ← readId .snapshot
  let author ← readId .device
  let itemSchemaVersion ← readSchema
  let vaultKeyEpoch ← readU32
  let covered ← onCursor Record.vv
  onCursor Record.finish
  return ⟨vaultId, itemId, snapshotId, author, itemSchemaVersion, vaultKeyEpoch, covered,
    vaultKeyEpoch.isLt⟩

/-- Parses a header that fills all of `bytes`. -/
def parse (bytes : Bytes) : Except HeaderError SnapshotHeader :=
  (read ⟨bytes, bytes.length⟩).map Prod.fst

end SnapshotHeader

/-! ### What the fields accept -/

theorem parses_onCursor {α : Type} {tail : Set Bytes} {p : Record.RecordParser α}
    {R : Bytes → α → Prop} (hp : Parses tail p R) : Parses tail (onCursor p) R :=
  parses_mapError _ hp

theorem parses_readVersion :
    Parses Set.univ readVersion fun bs _ => bs = beBytes 1 headerVersion := by
  refine (parses_bind (parses_onCursor (Record.parses_number 1)) fun version =>
    parses_check (decide (version = headerVersion)) _).congr fun bs u => ?_
  simp only [decide_eq_true_eq]
  constructor
  · rintro ⟨_, _, _, ⟨-, rfl⟩, ⟨rfl, rfl⟩, rfl⟩
    exact List.append_nil _
  · rintro rfl
    exact ⟨_, [], headerVersion, ⟨by decide, rfl⟩, ⟨rfl, rfl⟩, (List.append_nil _).symm⟩

theorem parses_readId (κ : IdKind) : Parses Set.univ (readId κ) fun bs id => bs = idBytes id := by
  refine (parses_map (Record.idOfBytes κ) (parses_onCursor (Record.parses_takeAt 16 0))).congr
    fun bs id => ?_
  constructor
  · rintro ⟨_, ⟨hlen, rfl⟩, rfl⟩
    exact (Record.idBytes_idOfBytes hlen).symm
  · rintro rfl
    exact ⟨_, ⟨Record.length_idBytes id, rfl⟩, (Record.idOfBytes_idBytes id).symm⟩

/-- A number read into the type of its width. -/
theorem parses_fin {w n : ℕ} [NeZero n] (hn : n = 256 ^ w) :
    Parses Set.univ (do return Fin.ofNat n (← onCursor (Record.number w)) : HeaderParser (Fin n))
      fun bs x => bs = beBytes w x.val := by
  refine (parses_map (Fin.ofNat n) (parses_onCursor (Record.parses_number w))).congr fun bs x => ?_
  constructor
  · rintro ⟨k, ⟨hk, rfl⟩, rfl⟩
    rw [Fin.val_ofNat, Nat.mod_eq_of_lt (by omega)]
  · rintro rfl
    exact ⟨x.val, ⟨hn ▸ x.isLt, rfl⟩, by simp⟩

theorem ItemSchemaVersion.new_eq_some {n : ℕ} {version : ItemSchemaVersion} :
    ItemSchemaVersion.new n = some version ↔ n = version.val := by
  rw [ItemSchemaVersion.new]
  split_ifs with h
  · rw [Option.some.injEq]
    constructor
    · rintro rfl
      rfl
    · rintro rfl
      rfl
  · simp only [false_iff]
    rintro rfl
    exact h ⟨version.ne_zero, version.lt⟩

theorem parses_readSchema :
    Parses Set.univ readSchema fun bs version => bs = beBytes 2 version.val := by
  have hread : Parses Set.univ readSchema fun bs version => ∃ b₁ b₂ n,
      (n < 256 ^ 2 ∧ b₁ = beBytes 2 n) ∧
        (∃ v, ItemSchemaVersion.new n = some v ∧ b₂ = [] ∧ version = v) ∧ bs = b₁ ++ b₂ := by
    refine parses_offset fun at_ =>
      parses_bind (parses_onCursor (Record.parses_number 2)) fun n => ?_
    have hpure := parses_ofOption (β := Byte) (ε := HeaderError) (e := ⟨.invalidSchemaVersion, at_⟩)
      (o := ItemSchemaVersion.new n) fun v => parses_pure v
    rwa [bind_pure] at hpure
  refine hread.congr fun bs version => ?_
  simp only [ItemSchemaVersion.new_eq_some]
  constructor
  · rintro ⟨_, _, _, ⟨-, rfl⟩, ⟨v, rfl, rfl, rfl⟩, rfl⟩
    exact List.append_nil _
  · rintro rfl
    have hlt : version.val < 256 ^ 2 := version.lt.trans (by norm_num)
    exact ⟨_, [], _, ⟨hlt, rfl⟩, ⟨version, rfl, rfl, rfl⟩, (List.append_nil _).symm⟩

/-- The version vector and the end of the header. -/
theorem parses_lastVv {α : Type} (make : VersionVector → α) :
    Parses {[]} (do
        let vv ← onCursor Record.vv
        onCursor Record.finish
        return make vv : HeaderParser α)
      fun bs x => ∃ vv, vv.dots.length < 2 ^ 16 ∧ bs = putVv vv ∧ x = make vv := by
  have hfinish (vv : VersionVector) : Parses {[]} (onCursor Record.finish >>= fun _ =>
      (pure (make vv) : HeaderParser α)) fun bs x => bs = [] ∧ x = make vv := by
    have h := parses_onCursor (Record.parses_finish (make vv))
    refine Eq.mp (congrArg (fun p => Parses {[]} p _) ?_) h
    funext cur
    simp only [onCursor, Parser.mapError, bind, StateT.bind, Except.bind]
    cases Record.finish cur with
    | error e => rfl
    | ok r => rfl
  refine (parses_bind (parses_onCursor Record.parses_vv) hfinish).congr fun bs x => ?_
  constructor
  · rintro ⟨_, _, vv, ⟨hlen, rfl⟩, ⟨rfl, rfl⟩, rfl⟩
    exact ⟨vv, hlen, List.append_nil _, rfl⟩
  · rintro ⟨vv, hlen, rfl, rfl⟩
    exact ⟨_, [], vv, ⟨hlen, rfl⟩, ⟨rfl, rfl⟩, (List.append_nil _).symm⟩

/-! ### What the parsers accept -/

theorem OpHeader.parses_read :
    Parses {[]} OpHeader.read fun bs h =>
      h.causalContext.dots.length < 2 ^ 16 ∧ bs = h.layout (putVv h.causalContext) := by
  have hread := parses_then parses_readVersion fun _ => parses_then (parses_readId .vault)
    fun vaultId => parses_then (parses_readId .item) fun itemId => parses_then (parses_readId .op)
    fun opId => parses_then (parses_onCursor Record.parses_dot) fun dot =>
    parses_then (parses_fin (w := 8) (n := 2 ^ 64) (by norm_num)) fun vaultPrevSeq =>
    parses_then (parses_onCursor Record.parses_hlc) fun hlc => parses_then parses_readSchema
    fun itemSchemaVersion => parses_then (parses_fin (w := 4) (n := 2 ^ 32) (by norm_num))
    fun vaultKeyEpoch => parses_lastVv fun causalContext =>
      (⟨vaultId, itemId, opId, dot, vaultPrevSeq, hlc, itemSchemaVersion, vaultKeyEpoch,
        causalContext, vaultPrevSeq.isLt, vaultKeyEpoch.isLt⟩ : OpHeader)
  refine hread.congr fun bs h => ?_
  constructor
  · rintro ⟨_, _, ⟨_, _, ⟨_, _, ⟨_, _, ⟨_, _, ⟨_, _, ⟨_, _, ⟨_, _, ⟨_, _, ⟨vv, hlen, rfl, rfl⟩,
      rfl⟩, rfl⟩, rfl⟩, rfl⟩, rfl⟩, rfl⟩, rfl⟩, rfl⟩, rfl⟩
    exact ⟨hlen, rfl⟩
  · rintro ⟨hlen, rfl⟩
    exact ⟨(), _, ⟨_, _, ⟨_, _, ⟨_, _, ⟨_, _, ⟨⟨h.vaultPrevSeq, h.vaultPrevSeq_lt⟩, _, ⟨_, _, ⟨_, _,
      ⟨⟨h.vaultKeyEpoch, h.vaultKeyEpoch_lt⟩, _, ⟨_, hlen, rfl, rfl⟩, rfl⟩, rfl⟩, rfl⟩, rfl⟩, rfl⟩,
      rfl⟩, rfl⟩, rfl⟩, rfl⟩

theorem SnapshotHeader.parses_read :
    Parses {[]} SnapshotHeader.read fun bs h =>
      h.covered.dots.length < 2 ^ 16 ∧ bs = h.layout (putVv h.covered) := by
  have hread := parses_then parses_readVersion fun _ => parses_then (parses_readId .vault)
    fun vaultId => parses_then (parses_readId .item) fun itemId =>
    parses_then (parses_readId .snapshot) fun snapshotId => parses_then (parses_readId .device)
    fun author => parses_then parses_readSchema fun itemSchemaVersion =>
    parses_then (parses_fin (w := 4) (n := 2 ^ 32) (by norm_num)) fun vaultKeyEpoch =>
    parses_lastVv fun covered =>
      (⟨vaultId, itemId, snapshotId, author, itemSchemaVersion, vaultKeyEpoch, covered,
        vaultKeyEpoch.isLt⟩ : SnapshotHeader)
  refine hread.congr fun bs h => ?_
  constructor
  · rintro ⟨_, _, ⟨_, _, ⟨_, _, ⟨_, _, ⟨_, _, ⟨_, _, ⟨_, _, ⟨vv, hlen, rfl, rfl⟩, rfl⟩, rfl⟩, rfl⟩,
      rfl⟩, rfl⟩, rfl⟩, rfl⟩
    exact ⟨hlen, rfl⟩
  · rintro ⟨hlen, rfl⟩
    exact ⟨(), _, ⟨_, _, ⟨_, _, ⟨_, _, ⟨_, _, ⟨_, _, ⟨⟨h.vaultKeyEpoch, h.vaultKeyEpoch_lt⟩, _,
      ⟨_, hlen, rfl, rfl⟩, rfl⟩, rfl⟩, rfl⟩, rfl⟩, rfl⟩, rfl⟩, rfl⟩

/-- A vector is encoded exactly when its count fits 16 bits. -/
theorem VersionVector.encode_eq_ok_iff {vv : VersionVector} {bytes : Bytes} :
    vv.encode = .ok bytes ↔ vv.dots.length < 2 ^ 16 ∧ bytes = putVv vv := by
  rw [VersionVector.encode, VersionVector.maxEntries]
  split_ifs with hlen
  · simp only [false_iff, not_and]
    omega
  · rw [Except.ok.injEq, eq_comm, and_iff_right (by omega)]

theorem OpHeader.encode_eq_ok_iff {h : OpHeader} {bytes : Bytes} :
    h.encode = .ok bytes ↔
      h.causalContext.dots.length < 2 ^ 16 ∧ bytes = h.layout (putVv h.causalContext) := by
  rw [OpHeader.encode]
  split_ifs with hlen
  · rw [VersionVector.maxEntries] at hlen
    simp only [false_iff, not_and]
    omega
  · simp only [except_map_eq_ok, VersionVector.encode_eq_ok_iff]
    constructor
    · rintro ⟨_, ⟨hn, rfl⟩, rfl⟩
      exact ⟨hn, rfl⟩
    · rintro ⟨hn, rfl⟩
      exact ⟨_, ⟨hn, rfl⟩, rfl⟩

theorem SnapshotHeader.encode_eq_ok_iff {h : SnapshotHeader} {bytes : Bytes} :
    h.encode = .ok bytes ↔ h.covered.dots.length < 2 ^ 16 ∧ bytes = h.layout (putVv h.covered) := by
  rw [SnapshotHeader.encode]
  split_ifs with hlen
  · rw [VersionVector.maxEntries] at hlen
    simp only [false_iff, not_and]
    omega
  · simp only [except_map_eq_ok, VersionVector.encode_eq_ok_iff]
    constructor
    · rintro ⟨_, ⟨hn, rfl⟩, rfl⟩
      exact ⟨hn, rfl⟩
    · rintro ⟨hn, rfl⟩
      exact ⟨_, ⟨hn, rfl⟩, rfl⟩

/-- The parser accepts a byte string exactly when it is the encoding of the header it returns. -/
theorem OpHeader.parse_eq_ok_iff {bytes : Bytes} {h : OpHeader} :
    OpHeader.parse bytes = .ok h ↔ h.encode = .ok bytes := by
  rw [OpHeader.parse, OpHeader.parses_read.run_eq_ok_iff, OpHeader.encode_eq_ok_iff]

/-- The parser accepts a byte string exactly when it is the encoding of the header it returns. -/
theorem SnapshotHeader.parse_eq_ok_iff {bytes : Bytes} {h : SnapshotHeader} :
    SnapshotHeader.parse bytes = .ok h ↔ h.encode = .ok bytes := by
  rw [SnapshotHeader.parse, SnapshotHeader.parses_read.run_eq_ok_iff,
    SnapshotHeader.encode_eq_ok_iff]

theorem eq_error_iff_forall_ne_ok {ε α : Type} {x : Except ε α} :
    (∃ e, x = .error e) ↔ ∀ a, x ≠ .ok a := by
  cases x with
  | error e => simp
  | ok a => simp

/-- A header of at most 65 535 entries has an encoding, which parses back to it; what a parser
accepts is the encoding of what it returns; and every byte string that is not the encoding of a
header is refused. -/
theorem header_codec_bijective :
    ((∀ h : OpHeader, (∃ bytes, h.encode = .ok bytes) ↔ h.causalContext.dots.length ≤ 65535) ∧
        (∀ (h : OpHeader) (bytes : Bytes), h.encode = .ok bytes ↔ OpHeader.parse bytes = .ok h) ∧
        ∀ bytes, (∃ e, OpHeader.parse bytes = .error e) ↔ ∀ h : OpHeader, h.encode ≠ .ok bytes) ∧
      (∀ h : SnapshotHeader, (∃ bytes, h.encode = .ok bytes) ↔ h.covered.dots.length ≤ 65535) ∧
        (∀ (h : SnapshotHeader) (bytes : Bytes),
          h.encode = .ok bytes ↔ SnapshotHeader.parse bytes = .ok h) ∧
        ∀ bytes, (∃ e, SnapshotHeader.parse bytes = .error e) ↔
          ∀ h : SnapshotHeader, h.encode ≠ .ok bytes := by
  refine ⟨⟨fun h => ?_, fun h bytes => OpHeader.parse_eq_ok_iff.symm, fun bytes => ?_⟩,
    fun h => ?_, fun h bytes => SnapshotHeader.parse_eq_ok_iff.symm, fun bytes => ?_⟩
  · simp only [OpHeader.encode_eq_ok_iff, exists_and_left, exists_eq, and_true]
    omega
  · simp only [eq_error_iff_forall_ne_ok, ne_eq, OpHeader.parse_eq_ok_iff]
  · simp only [SnapshotHeader.encode_eq_ok_iff, exists_and_left, exists_eq, and_true]
    omega
  · simp only [eq_error_iff_forall_ne_ok, ne_eq, SnapshotHeader.parse_eq_ok_iff]

end RizzyVault.Sync
