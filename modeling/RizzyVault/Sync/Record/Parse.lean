import RizzyVault.Lib.Codec
import RizzyVault.Sync.Record.Data

/-!
# Parsing records

Strict parsing of operation and snapshot data under limits. Each function reads one production and
applies the rules that concern it where it reads it; an error names the rule and the offset of the
field.

## Main definitions

* `RecordParser`, with `u8`, `u16`, `u32`, `dot`, `hlc`, `vv`: the cursor.
* `count`, `key`, `orderedKey`, `value`, `register`, `op`, `live`, `tombstone`: the productions.
* `parseOp`, `parseSnapshot`.

## References

* `crates/rizzy-sync/src/record/parse.rs`, `crates/rizzy-sync/src/cursor.rs`.
-/

open RizzyVault.Core RizzyVault.Lib

namespace RizzyVault.Sync.Record

open Std (ExtTreeMap)

abbrev RecordParser := Parser Byte RecordError

/-! ### The cursor -/

/-- Reads `n` bytes; a short input is `truncated` at the current offset, moved by `shift`. -/
def takeAt (n : ℕ) (shift : ℕ) : RecordParser Bytes := do
  let at_ ← Parser.offset
  Parser.take n ⟨.truncated, at_ + shift⟩

/-- Reads a big-endian number of `w` bytes. -/
def number (w : ℕ) : RecordParser ℕ := do return ofBe (← takeAt w 0)

def u8 : RecordParser ℕ := number 1

def u16 : RecordParser ℕ := number 2

def u32 : RecordParser ℕ := number 4

/-- The identifier 16 bytes spell. -/
def idOfBytes (κ : IdKind) (bytes : Bytes) : Id κ := ⟨Fin.ofNat _ (ofBe bytes)⟩

/-- Reads a dot: the device, then a sequence number other than zero. Errors past the device are
counted from the dot's start. -/
def dot : RecordParser Dot := do
  let at_ ← Parser.offset
  let device ← takeAt 16 0
  let seq ← Parser.take 8 ⟨.truncated, at_ + 16⟩
  Parser.ofOption (Dot.new (idOfBytes .device device) (ofBe seq)) ⟨.zeroSeq, at_ + 16⟩

def hlc : RecordParser Hlc := do return ⟨Fin.ofNat _ (← number 8)⟩

/-- Reads `n` entries of a version vector, strictly ascending by device. -/
def vvEntries : ℕ → Option DeviceId → RecordParser (List Dot)
  | 0, _ => return []
  | n + 1, previous => do
    let at_ ← Parser.offset
    let d ← dot
    Parser.require (previous.all fun p => p < d.deviceId) ⟨.notAscending, at_⟩
    let rest ← vvEntries n (some d.deviceId)
    return d :: rest

/-- The length of a dot, and of a version-vector entry. -/
def dotLen : ℕ := 24

/-- Reads a canonical version vector. -/
def vv : RecordParser VersionVector := do
  let at_ ← Parser.offset
  let n ← u16
  let remaining ← Parser.remaining
  Parser.require (n * dotLen ≤ remaining) ⟨.truncated, at_⟩
  let entries ← vvEntries n none
  return ⟨entries.foldl (fun m d => m.insert d.deviceId d.seqNonzero) ∅⟩

/-- Ends the structure: no byte may remain. -/
def finish : RecordParser Unit := do
  let at_ ← Parser.offset
  let remaining ← Parser.remaining
  Parser.require (remaining = 0) ⟨.trailingBytes, at_⟩

/-! ### Productions -/

def minWriteLen : ℕ := 8

def minEntryLen : ℕ := dotLen + 8 + 4

def minRegisterLen : ℕ := 6

/-- What a register production is. -/
inductive Group
  | current
  | history
  | late
  deriving DecidableEq

/-- Reads a count, at most `max` and no more than the remaining input can hold. -/
def count (max minLen : ℕ) : RecordParser ℕ := do
  let at_ ← Parser.offset
  let n ← u16
  Parser.require (n ≤ max) ⟨.countTooLarge, at_⟩
  let remaining ← Parser.remaining
  Parser.require (n * minLen ≤ remaining) ⟨.truncated, at_⟩
  return n

/-- The key bytes spell, or the rule of the key grammar they break. -/
def keyOfBytes (bytes : Bytes) : Except RecordErrorKind FieldKey :=
  if bytes = lifecycleKey then .ok FieldKey.lifecycle
  else
    match FieldKey.new bytes with
    | .ok key => .ok key
    | .error e => .error e.kind

/-- Reads a field key: its length, then the key grammar unless it is the lifecycle key. -/
def key : RecordParser FieldKey := do
  let at_ ← Parser.offset
  let len ← u32
  Parser.require (0 < len ∧ len ≤ maxKeyLen) ⟨.keyLength, at_⟩
  let bytes ← Parser.take len ⟨.truncated, at_⟩
  match keyOfBytes bytes with
  | .ok key => return key
  | .error kind => throw ⟨kind, at_⟩

/-- Reads a key strictly above `previous`, refusing the lifecycle key where it is not allowed. -/
def orderedKey (previous : Option FieldKey) (lifecycleAllowed : Bool) : RecordParser FieldKey := do
  let at_ ← Parser.offset
  let k ← key
  Parser.require (!k.isLifecycle || lifecycleAllowed) ⟨.misplacedLifecycle, at_⟩
  Parser.require (previous.all fun p => p.bytes < k.bytes) ⟨.notAscending, at_⟩
  return k

/-- Reads a value of at most the limit. -/
def value (limits : Limits) : RecordParser Bytes := do
  let at_ ← Parser.offset
  let len ← u32
  Parser.require (len ≤ limits.value) ⟨.valueTooLong, at_⟩
  Parser.take len ⟨.truncated, at_⟩

/-- Reads the `m` entries of a register, strictly ascending by dot, covered, not covered by the
context of a tombstone, and with lifecycle values under the lifecycle key. -/
def entries (limits : Limits) (key : FieldKey) (covered : VersionVector)
    (context : Option VersionVector) : ℕ → Option Dot → RecordParser (List Entry)
  | 0, _ => return []
  | m + 1, previous => do
    let at_ ← Parser.offset
    let d ← dot
    Parser.require (previous.all fun p => p < d) ⟨.notAscending, at_⟩
    Parser.require (covered.covers d) ⟨.notCovered, at_⟩
    Parser.require (context.all fun c => ¬ c.covers d) ⟨.lateValueCovered, at_⟩
    let t ← hlc
    let valueAt ← Parser.offset
    let v ← value limits
    Parser.require (!key.isLifecycle || (Lifecycle.fromRegisterValue v).isSome)
      ⟨.invalidLifecycleValue, valueAt⟩
    let rest ← entries limits key covered context m (some d)
    return ⟨d, t, v⟩ :: rest

/-- Reads one register of `group`. -/
def register (limits : Limits) (group : Group) (previous : Option FieldKey)
    (covered : VersionVector) (context : Option VersionVector) : RecordParser Register := do
  let k ← orderedKey previous (group ≠ .late)
  let at_ ← Parser.offset
  let m ← count limits.values minEntryLen
  Parser.require (m ≠ 0) ⟨.emptyRegister, at_⟩
  let es ← entries limits k covered context m none
  return ⟨k, es⟩

/-- Reads the `n` writes of an operation. -/
def writes (limits : Limits) : ℕ → Option FieldKey → RecordParser (List Write)
  | 0, _ => return []
  | n + 1, previous => do
    let k ← orderedKey previous false
    let v ← value limits
    let rest ← writes limits n (some k)
    return ⟨k, v⟩ :: rest

/-- Reads operation data after its kind byte. -/
def op (limits : Limits) : RecordParser OpData := do
  let at_ ← Parser.offset
  let marker ← u8
  let lifecycle ← Parser.ofOption (Lifecycle.fromU8 (Fin.ofNat _ marker)) ⟨.invalidLifecycle, at_⟩
  let at_ ← Parser.offset
  let n ← count limits.writes minWriteLen
  Parser.require (n = 0 ∨ lifecycle = .active) ⟨.writesWithoutActive, at_⟩
  let ws ← writes limits n none
  finish
  return ⟨lifecycle, ws⟩

/-- Whether two lists of entries, each strictly ascending by dot, share a dot: a merge walk. -/
def sharesADot : List Entry → List Entry → Bool
  | x :: xs, y :: ys =>
    match compare x.dot y.dot with
    | .lt => sharesADot xs (y :: ys)
    | .gt => sharesADot (x :: xs) ys
    | .eq => true
  | _, _ => false
termination_by a b => a.length + b.length

/-- Reads the current registers of a live snapshot; the first one is the lifecycle register. -/
def currentRegisters (limits : Limits) (covered : VersionVector) :
    ℕ → Option FieldKey → RecordParser (List Register)
  | 0, _ => return []
  | r + 1, previous => do
    let at_ ← Parser.offset
    let reg ← register limits .current previous covered none
    Parser.require (previous.isSome || reg.key.isLifecycle) ⟨.missingLifecycle, at_⟩
    let rest ← currentRegisters limits covered r (some reg.key)
    return reg :: rest

/-- Reads the history groups of a live snapshot, each of a current register's key and without a
dot of it. -/
def historyGroups (limits : Limits) (covered : VersionVector) (registers : List Register) :
    ℕ → Option FieldKey → RecordParser (List Register)
  | 0, _ => return []
  | h + 1, previous => do
    let at_ ← Parser.offset
    let group ← register limits .history previous covered none
    let current ← Parser.ofOption (registers.find? fun g => g.key = group.key) ⟨.orphanHistory, at_⟩
    Parser.require (!sharesADot current.entries group.entries) ⟨.duplicateDot, at_⟩
    let rest ← historyGroups limits covered registers h (some group.key)
    return group :: rest

/-- Reads live snapshot data after its kind byte. -/
def live (limits : Limits) (covered : VersionVector) : RecordParser LiveSnapshot := do
  let at_ ← Parser.offset
  let r ← count limits.groups minRegisterLen
  Parser.require (r ≠ 0) ⟨.noRegister, at_⟩
  let registers ← currentRegisters limits covered r none
  let h ← count limits.groups minRegisterLen
  let history ← historyGroups limits covered registers h none
  finish
  return ⟨registers, history⟩

/-- Reads the late registers of a tombstone. -/
def lateRegisters (limits : Limits) (covered context : VersionVector) :
    ℕ → Option FieldKey → RecordParser (List Register)
  | 0, _ => return []
  | l + 1, previous => do
    let reg ← register limits .late previous covered (some context)
    let rest ← lateRegisters limits covered context l (some reg.key)
    return reg :: rest

/-- Reads tombstone data after its kind byte. -/
def tombstone (limits : Limits) (covered : VersionVector) : RecordParser Tombstone := do
  let at_ ← Parser.offset
  let purgeDot ← dot
  Parser.require (covered.covers purgeDot) ⟨.notCovered, at_⟩
  let purgeHlc ← hlc
  let at_ ← Parser.offset
  let context ← vv
  match context.dots.findIdx? fun d => ¬ covered.covers d with
  | some i => throw ⟨.notCovered, at_ + 2 + i * dotLen⟩
  | none =>
    let itemKeyId ← takeAt 16 0
    let l ← count limits.groups minRegisterLen
    let late ← lateRegisters limits covered context l none
    finish
    return ⟨purgeDot, purgeHlc, context, idOfBytes .symmetricKey itemKeyId, late⟩

/-! ### Whole records -/

def kindOp : ℕ := 1

def kindLiveSnapshot : ℕ := 2

def kindTombstone : ℕ := 3

/-- Parses operation data under `limits`. -/
def opWith (data : Bytes) (limits : Limits) : Except RecordError OpData :=
  if limits.opData < data.length then .error ⟨.dataTooLong, 0⟩
  else
    let p : RecordParser OpData := do
      let kind ← u8
      Parser.require (kind = kindOp) ⟨.wrongKind, 0⟩
      op limits
    (p ⟨data, data.length⟩).map Prod.fst

/-- Parses snapshot data under `limits`. -/
def snapshotWith (covered : VersionVector) (data : Bytes) (limits : Limits) :
    Except RecordError SnapshotData :=
  if limits.snapshotData < data.length then .error ⟨.dataTooLong, 0⟩
  else
    let p : RecordParser SnapshotData := do
      let kind ← u8
      if kind = kindLiveSnapshot then return .live (← live limits covered)
      else if kind = kindTombstone then return .tombstone (← tombstone limits covered)
      else throw ⟨.wrongKind, 0⟩
    (p ⟨data, data.length⟩).map Prod.fst

/-- Parses the data of an operation. -/
def parseOp (data : Bytes) : Except RecordError OpData := opWith data Limits.v1

/-- Parses the data of a snapshot whose header covers `covered`. -/
def parseSnapshot (covered : VersionVector) (data : Bytes) : Except RecordError SnapshotData :=
  snapshotWith covered data Limits.v1

end RizzyVault.Sync.Record
