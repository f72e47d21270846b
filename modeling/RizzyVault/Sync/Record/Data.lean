import RizzyVault.Core.FieldKey
import RizzyVault.Sync.Header

/-!
# Record data

What an operation's body and a snapshot hold once parsed: lifecycle markers, field writes,
registers of values tagged with the dot and clock value of the operation that wrote them, live
snapshots and tombstones, with the errors and limits of the record format.

## Main definitions

* `Lifecycle`, `FieldKey`, `Write`, `OpData`.
* `Entry`, `Register`, `LiveSnapshot`, `Tombstone`, `SnapshotData`.
* `RecordErrorKind`, `RecordError`, `Limits`.

## References

* `crates/rizzy-sync/src/record.rs`.
-/

open RizzyVault.Core

namespace RizzyVault.Sync

/-- The reserved key of the lifecycle register. -/
def lifecycleKey : Bytes :=
  asciiBytes ['@', 'l', 'i', 'f', 'e', 'c', 'y', 'c', 'l', 'e']

/-- An operation's lifecycle marker. -/
inductive Lifecycle
  | active
  | trashed
  | purge
  deriving DecidableEq

namespace Lifecycle

def toU8 : Lifecycle → Byte
  | active => 1
  | trashed => 2
  | purge => 3

def fromU8 (b : Byte) : Option Lifecycle :=
  if b = 1 then some active else if b = 2 then some trashed else if b = 3 then some purge else none

/-- The value a marker writes to the lifecycle register; a purge writes none. -/
def registerValue : Lifecycle → Option Bytes
  | active => some [1]
  | trashed => some [2]
  | purge => none

def fromRegisterValue (value : Bytes) : Option Lifecycle :=
  if value = [1] then some active else if value = [2] then some trashed else none

end Lifecycle

/-! ### Errors and limits -/

/-- The rule of the record format an encoding breaks. -/
inductive RecordErrorKind
  | wrongKind
  | dataTooLong
  | truncated
  | trailingBytes
  | countTooLarge
  | noRegister
  | valueTooLong
  | keyLength
  | keyGrammar
  | notAscending
  | duplicateDot
  | invalidLifecycle
  | writesWithoutActive
  | missingLifecycle
  | invalidLifecycleValue
  | misplacedLifecycle
  | emptyRegister
  | zeroSeq
  | notCovered
  | orphanHistory
  | lateValueCovered
  deriving DecidableEq

/-- A broken rule and the byte where the offending field starts. -/
structure RecordError where
  kind : RecordErrorKind
  offset : ℕ
  deriving DecidableEq

/-- The limits an encoding or a parse respects. -/
structure Limits where
  opData : ℕ
  snapshotData : ℕ
  value : ℕ
  writes : ℕ
  groups : ℕ
  values : ℕ

/-- The limits of stored records. -/
def Limits.v1 : Limits where
  opData := 2 ^ 20
  snapshotData := 12 * 2 ^ 20
  value := 65536
  writes := 1024
  groups := 4096
  values := 256

/-- The bounds of the layout alone: 16-bit counts, 32-bit lengths, 64-bit sizes. -/
def Limits.unbounded : Limits where
  opData := 2 ^ 64 - 1
  snapshotData := 2 ^ 64 - 1
  value := 2 ^ 32 - 1
  writes := 2 ^ 16 - 1
  groups := 2 ^ 16 - 1
  values := 2 ^ 16 - 1

/-! ### Keys, writes and operations -/

/-- Whether the record layer takes `bytes` as a key of the grammar, and the rule broken if not. -/
def grammarKey (bytes : Bytes) : Except RecordErrorKind Unit :=
  match parseKey bytes with
  | .ok _ => .ok ()
  | .error .length => .error .keyLength
  | .error _ => .error .keyGrammar

/-- The lifecycle key or a key of the grammar. -/
structure FieldKey where
  bytes : Bytes
  valid : bytes = lifecycleKey ∨ grammarKey bytes = .ok ()
  deriving DecidableEq

namespace FieldKey

def lifecycle : FieldKey := ⟨lifecycleKey, .inl rfl⟩

def isLifecycle (key : FieldKey) : Bool := key.bytes = lifecycleKey

/-- The key of the grammar spelled by `bytes`. -/
def new (bytes : Bytes) : Except RecordError FieldKey :=
  match h : grammarKey bytes with
  | .ok () => .ok ⟨bytes, .inr h⟩
  | .error kind => .error ⟨kind, 0⟩

end FieldKey

/-- One field write of an operation; the empty value clears the field. -/
structure Write where
  key : FieldKey
  value : Bytes
  deriving DecidableEq

/-- The data of an operation. -/
structure OpData where
  lifecycle : Lifecycle
  writes : List Write
  deriving DecidableEq

/-- What a parsed operation satisfies: its keys ascend strictly, none is the lifecycle key, and
only an active marker comes with writes. -/
@[mk_iff]
structure OpData.WellFormed (data : OpData) : Prop where
  ascending : data.writes.Pairwise fun a b => a.key.bytes < b.key.bytes
  not_lifecycle : ∀ w ∈ data.writes, w.key.bytes ≠ lifecycleKey
  active : data.writes ≠ [] → data.lifecycle = .active

instance (data : OpData) : Decidable data.WellFormed := decidable_of_iff' _ data.wellFormed_iff

/-! ### Snapshots -/

/-- One value of a register with the dot and clock value of the operation that wrote it. -/
structure Entry where
  dot : Dot
  hlc : Hlc
  value : Bytes
  deriving DecidableEq

/-- A key with its values, ascending by dot. -/
structure Register where
  key : FieldKey
  entries : List Entry
  deriving DecidableEq

/-- A live item: its current registers and its history groups, each ascending by key. -/
structure LiveSnapshot where
  registers : List Register
  history : List Register
  deriving DecidableEq

/-- A purged item: the recorded purge, the joined purge context and the late registers. -/
structure Tombstone where
  purgeDot : Dot
  purgeHlc : Hlc
  context : VersionVector
  itemKeyId : SymmetricKeyId
  late : List Register
  deriving DecidableEq

/-- The data of a snapshot. -/
inductive SnapshotData
  | live (live : LiveSnapshot)
  | tombstone (tombstone : Tombstone)
  deriving DecidableEq

end RizzyVault.Sync
