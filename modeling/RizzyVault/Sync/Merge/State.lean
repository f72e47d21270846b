import RizzyVault.Sync.Record.Data

/-!
# The item state

What a live snapshot or a tombstone encodes: the covered version vector and either the current
registers and history groups of a live item, or the recorded purge, its context and the late
registers of a purged one. The empty live state is the absent item.

## Main definitions

* `Val`, `Regs`, `Live`, `PurgeRec`, `Tomb`, `Shape`, `State`.
* `State.fromSnapshot`, `State.snapshotData`: the conversions from and to the record layer.
* `HeldOp`, `BodyKind`: an operation the merge holds.

## References

* `crates/rizzy-sync/src/merge/state.rs`.
-/

open RizzyVault.Core

namespace RizzyVault.Sync

open Std (ExtTreeMap ExtTreeSet)

/-- One value of a register, with the dot and clock value of the operation that wrote it. -/
structure Val where
  dot : Dot
  hlc : Hlc
  value : Bytes
  deriving DecidableEq

/-- The order of pruning, display and the recorded purge: the clock value, then the dot. -/
abbrev Rank := Hlc ×ₗ Dot

def Val.rank (v : Val) : Rank := toLex (v.hlc, v.dot)

/-- The record layer's view of a value. -/
def Val.entry (v : Val) : Entry := ⟨v.dot, v.hlc, v.value⟩

/-- Registers by key, each with its values strictly ascending by dot. -/
abbrev Regs := ExtTreeMap Bytes (List Val)

/-- A live item: its current registers and its history groups. -/
structure Live where
  regs : Regs
  hist : Regs
  deriving DecidableEq

/-- The recorded purge of a tombstone. -/
structure PurgeRec where
  dot : Dot
  hlc : Hlc
  keyId : SymmetricKeyId
  deriving DecidableEq

def PurgeRec.rank (p : PurgeRec) : Rank := toLex (p.hlc, p.dot)

/-- A purged item: the recorded purge, the join `c` of the purge contexts and the late
registers. -/
structure Tomb where
  purge : PurgeRec
  c : VersionVector
  late : Regs
  deriving DecidableEq

inductive Shape
  | live (live : Live)
  | tomb (tomb : Tomb)
  deriving DecidableEq

/-- One item's state: the covered version vector and its shape. -/
structure State where
  vv : VersionVector
  shape : Shape
  deriving DecidableEq

/-- Why the merge refused a call. -/
inductive MergeError
  | wrongItem
  | unsupportedSchema
  | headerConflict (dot : Dot)
  | notReady (dot : Dot)
  | notCurrent (dot : Dot)
  | writerRule
  | unknownOp (dot : Dot)
  | invalidKey
  | record (error : RecordError)
  deriving DecidableEq

/-! ### Conversions -/

/-- Registers out of the record layer; the last register of a repeated key stands. -/
def regsFrom (registers : List Register) : Regs :=
  registers.foldl (fun regs reg =>
    regs.insert reg.key.bytes (reg.entries.map fun e => ⟨e.dot, e.hlc, e.value⟩)) ∅

/-- The record layer's key for held key bytes. -/
def fieldKey (bytes : Bytes) : Except MergeError FieldKey :=
  if bytes = lifecycleKey then .ok FieldKey.lifecycle
  else
    match FieldKey.new bytes with
    | .ok key => .ok key
    | .error _ => .error .invalidKey

/-- The record layer's registers for held ones, in key order. -/
def regsTo (regs : Regs) : Except MergeError (List Register) :=
  regs.toList.mapM fun (key, values) => do
    let key ← fieldKey key
    return ⟨key, values.map Val.entry⟩

namespace State

/-- The absent item. -/
def default : State := ⟨VersionVector.new, .live ⟨∅, ∅⟩⟩

instance : Inhabited State := ⟨default⟩

/-- The state a snapshot encodes. -/
def fromSnapshot (covered : VersionVector) : SnapshotData → State
  | .live live => ⟨covered, .live ⟨regsFrom live.registers, regsFrom live.history⟩⟩
  | .tombstone t =>
    ⟨covered, .tomb ⟨⟨t.purgeDot, t.purgeHlc, t.itemKeyId⟩, t.context, regsFrom t.late⟩⟩

def isAbsent (s : State) : Bool :=
  match s.shape with
  | .live l => l.regs.isEmpty && l.hist.isEmpty
  | .tomb _ => false

def isTomb (s : State) : Bool :=
  match s.shape with
  | .live _ => false
  | .tomb _ => true

/-- The record layer's view of the state, none for the absent item. -/
def snapshotData (s : State) : Except MergeError (Option SnapshotData) :=
  if s.isAbsent then .ok none
  else
    match s.shape with
    | .live l => do
      let registers ← regsTo l.regs
      let history ← regsTo l.hist
      return some (.live ⟨registers, history⟩)
    | .tomb t => do
      let late ← regsTo t.late
      return some (.tombstone ⟨t.purge.dot, t.purge.hlc, t.c, t.purge.keyId, late⟩)

/-- The values of registers, each with its key. -/
def regsValues (regs : Regs) : List (Bytes × Val) :=
  regs.toList.flatMap fun (key, values) => values.map fun v => (key, v)

/-- Every value of the state with its key. -/
def values (s : State) : List (Bytes × Val) :=
  match s.shape with
  | .live l => regsValues l.regs ++ regsValues l.hist
  | .tomb t => regsValues t.late

/-- The highest clock value the state carries. -/
def maxHlc (s : State) : Option Hlc :=
  let values := s.values.map fun (_, v) => v.hlc
  match s.shape with
  | .live _ => values.max?
  | .tomb t => (values ++ [t.purge.hlc]).max?

end State

/-! ### Held operations -/

/-- What a verified body is. -/
inductive BodyKind
  | write
  | purge (keyId : SymmetricKeyId)
  deriving DecidableEq

/-- One operation the merge holds: its data with its header's dot, clock value and context and
its envelope's key. -/
structure HeldOp where
  dot : Dot
  hlc : Hlc
  context : VersionVector
  keyId : SymmetricKeyId
  lifecycle : Lifecycle
  writes : List (Bytes × Bytes)
  deriving DecidableEq

namespace HeldOp

def new (header : OpHeader) (keyId : SymmetricKeyId) (data : OpData) : HeldOp where
  dot := header.dot
  hlc := header.hlc
  context := header.causalContext
  keyId := keyId
  lifecycle := data.lifecycle
  writes := data.writes.map fun w => (w.key.bytes, w.value)

def kind (op : HeldOp) : BodyKind :=
  match op.lifecycle with
  | .purge => .purge op.keyId
  | .active | .trashed => .write

/-- The operation's writes with its marker as a write to the lifecycle key. -/
def writesWithLifecycle (op : HeldOp) : List (Bytes × Bytes) :=
  let marker := op.lifecycle.registerValue.map fun v => (lifecycleKey, v)
  marker.toList ++ op.writes

end HeldOp

end RizzyVault.Sync
