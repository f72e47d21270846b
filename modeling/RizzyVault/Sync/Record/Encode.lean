import RizzyVault.Sync.Record.Parse

/-!
# Encoding records

Each writer runs in three passes: it computes the exact length and checks every count and length
against the limits, writes the bytes, and parses its own output with the reader's code. A writer
neither sorts nor deduplicates: what is not canonical is refused by the third pass.

## Main definitions

* `Sizer`, `opLen`, `snapshotLen`: the first pass.
* `putOp`, `putSnapshot`: the second pass.
* `encodeOp`, `encodeSnapshot`, `canonicalState`.

## References

* `crates/rizzy-sync/src/record/encode.rs`.
-/

open RizzyVault.Core RizzyVault.Lib

namespace RizzyVault.Sync.Record

/-! ### Sizes -/

/-- The bytes counted so far, with the errors of the limits. -/
abbrev Sizer := StateT ℕ (Except RecordError)

namespace Sizer

/-- Adds `n` bytes. -/
def add (n : ℕ) : Sizer Unit := fun len =>
  if len + n < 2 ^ 64 then .ok ((), len + n) else .error ⟨.dataTooLong, 0⟩

/-- Checks a count against `max` and adds its two bytes. -/
def count (n max : ℕ) : Sizer Unit := fun len =>
  if max < n then .error ⟨.countTooLarge, len⟩ else add 2 len

/-- Adds a key with its length. -/
def key (k : FieldKey) : Sizer Unit := do
  add 4
  add k.bytes.length

/-- Checks a value against the value limit and adds it with its length. -/
def value (limits : Limits) (v : Bytes) : Sizer Unit := fun len =>
  if limits.value < v.length then .error ⟨.valueTooLong, len⟩
  else (do add 4; add v.length : Sizer Unit) len

/-- Adds one register. -/
def register (limits : Limits) (reg : Register) : Sizer Unit := do
  key reg.key
  count reg.entries.length limits.values
  reg.entries.forM fun e => do
    add (dotLen + 8)
    value limits e.value

/-- Adds a list of registers with its count. -/
def registers (limits : Limits) (regs : List Register) : Sizer Unit := do
  count regs.length limits.groups
  regs.forM (register limits)

/-- Most entries a version vector's count can express. -/
def maxEntries : ℕ := 65535

/-- Adds a version vector. -/
def vv (v : VersionVector) : Sizer Unit := fun len =>
  if maxEntries < v.dots.length then .error ⟨.countTooLarge, len⟩
  else add (v.dots.length * dotLen + 2) len

end Sizer

/-- The size of operation data, checked against `limits`. -/
def opLen (op : OpData) (limits : Limits) : Except RecordError ℕ := do
  let ((), len) ← (do
    Sizer.count op.writes.length limits.writes
    op.writes.forM fun w => do
      Sizer.key w.key
      Sizer.value limits w.value : Sizer Unit) 2
  if limits.opData < len then throw ⟨.dataTooLong, 0⟩ else return len

/-- The size of snapshot data, checked against `limits`. -/
def snapshotLen (snapshot : SnapshotData) (limits : Limits) : Except RecordError ℕ := do
  let ((), len) ← (match snapshot with
    | .live live => do
      Sizer.registers limits live.registers
      Sizer.registers limits live.history
    | .tombstone t => do
      Sizer.add (dotLen + 8)
      Sizer.vv t.context
      Sizer.add 16
      Sizer.registers limits t.late : Sizer Unit) 1
  if limits.snapshotData < len then throw ⟨.dataTooLong, 0⟩ else return len

/-! ### Bytes -/

/-- A count the sizer has checked to fit 16 bits. -/
def putCount (n : ℕ) : Bytes := beBytes 2 (min n 65535)

/-- Bytes the sizer has checked to fit a 32-bit length. -/
def putBytes (x : Bytes) : Bytes := beBytes 4 (min x.length (2 ^ 32 - 1)) ++ x

/-- The 16 bytes of an identifier. -/
def idBytes {κ : IdKind} (id : Id κ) : Bytes := beBytes 16 id.raw.val

def putDot (d : Dot) : Bytes := idBytes d.deviceId ++ beBytes 8 d.seq

def putHlc (t : Hlc) : Bytes := beBytes 8 t.raw.val

/-- A canonical version vector. -/
def putVv (v : VersionVector) : Bytes := putCount v.dots.length ++ v.dots.flatMap putDot

def putEntry (e : Entry) : Bytes := putDot e.dot ++ (putHlc e.hlc ++ putBytes e.value)

def putRegister (reg : Register) : Bytes :=
  putBytes reg.key.bytes ++ (putCount reg.entries.length ++ reg.entries.flatMap putEntry)

/-- A list of registers with its count. -/
def putRegisters (regs : List Register) : Bytes :=
  putCount regs.length ++ regs.flatMap putRegister

def putWrite (w : Write) : Bytes := putBytes w.key.bytes ++ putBytes w.value

def putOp (op : OpData) : Bytes :=
  beBytes 1 kindOp ++ (beBytes 1 op.lifecycle.toU8.val ++
    (putCount op.writes.length ++ op.writes.flatMap putWrite))

def putSnapshot : SnapshotData → Bytes
  | .live live =>
    beBytes 1 kindLiveSnapshot ++ (putRegisters live.registers ++ putRegisters live.history)
  | .tombstone t =>
    beBytes 1 kindTombstone ++ (putDot t.purgeDot ++ (putHlc t.purgeHlc ++ (putVv t.context ++
      (idBytes t.itemKeyId ++ putRegisters t.late))))

/-! ### Whole records -/

/-- Encodes the data of an operation. -/
def encodeOp (op : OpData) : Except RecordError Bytes := do
  let _ ← opLen op Limits.v1
  let out := putOp op
  let _ ← opWith out Limits.v1
  return out

/-- Encodes the data of a snapshot whose header will cover `covered`. -/
def encodeSnapshot (covered : VersionVector) (snapshot : SnapshotData) :
    Except RecordError Bytes := do
  let _ ← snapshotLen snapshot Limits.v1
  let out := putSnapshot snapshot
  let _ ← snapshotWith covered out Limits.v1
  return out

/-- The input of the state hash: the schema version, the covered vector and the data, encoded
without the limits of stored records. -/
def canonicalState (covered : VersionVector) (snapshot : SnapshotData) :
    Except RecordError Bytes := do
  let limits := Limits.unbounded
  let dataLen ← snapshotLen snapshot limits
  let ((), front) ← Sizer.vv covered 2
  if 2 ^ 64 ≤ front + dataLen then throw ⟨.dataTooLong, 0⟩
  if Sizer.maxEntries < covered.dots.length then throw ⟨.countTooLarge, 2⟩
  let out := beBytes 2 ItemSchemaVersion.v1.val ++ (putVv covered ++ putSnapshot snapshot)
  let _ ← snapshotWith covered (out.drop front) limits
  return out

end RizzyVault.Sync.Record
