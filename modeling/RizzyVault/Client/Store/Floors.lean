import RizzyVault.Client.Store.Rows

/-!
# What never goes backwards

The index of what a cache file holds and the check every changeset passes before the host writes
it. A changeset is checked write by write against the index and the writes before it, all or
nothing; the index moves only when every write passed.

The parser of the device-state record is a parameter: of the record, the check reads the account
and the device it names.

## Main definitions

* `Floors`: the index.
* `Floors.ofRows`: the index of the rows a load verified.
* `Pending`, `Pending.check`, `Pending.finish`: the state a changeset leads to, one write and the
  checks that need the whole changeset.
* `Floors.admit`: checks a changeset and moves the index.

## References

* `crates/rizzy-client/src/store/floors.rs`.
-/

open RizzyVault.Core RizzyVault.Lib

namespace RizzyVault.Client.Store

open Std (ExtTreeMap)

/-! ### The index -/

/-- What the index keeps of an `ops` row. -/
structure OpFloor where
  statement : Bytes
  own : ℤ
  sentGeneration : Option Id16
  deriving DecidableEq

/-- What the index keeps of a `snapshots` row. -/
structure SnapshotFloor where
  statement : Bytes
  own : ℤ
  deriving DecidableEq

/-- The `account-state` row. -/
structure StateFloor where
  stateSeq : U64
  settingsSeq : U64
  wire : Bytes
  deriving DecidableEq

abbrev ObjectKey := ℤ ×ₗ Bytes

abbrev OpKey := Id16 ×ₗ Id16 ×ₗ U64

abbrev SnapshotKey := Id16 ×ₗ Id16

instance transOrd_objectKey : Std.TransOrd ObjectKey := inferInstance

instance transOrd_opKey : Std.TransOrd OpKey := inferInstance

instance transOrd_snapshotKey : Std.TransOrd SnapshotKey := inferInstance

/-- The vault, the device and the sequence number of an op key. -/
def OpKey.vaultId (key : OpKey) : Id16 := (ofLex key).1
def OpKey.deviceId (key : OpKey) : Id16 := (ofLex (ofLex key).2).1
def OpKey.deviceSeq (key : OpKey) : U64 := (ofLex (ofLex key).2).2

/-- The index of what a cache file holds. -/
structure Floors where
  fixed : ExtTreeMap String Bytes
  nextDeviceSeq : U64
  hlc : U64
  state : Option StateFloor
  objects : ExtTreeMap ObjectKey Bytes
  vaults : ExtTreeMap Id16 (ℕ × Id16)
  ops : ExtTreeMap OpKey OpFloor
  snapshots : ExtTreeMap SnapshotKey SnapshotFloor
  deriving DecidableEq

/-- The floors of an empty cache. -/
def Floors.empty : Floors := ⟨∅, 0, 0, none, ∅, ∅, ∅, ∅⟩

/-- The set-once keys of `cache_meta`. -/
def fixedKeys : List String := [metaFormat, metaServerOrigin, metaAccountId, metaDeviceId]

/-- The set-once key equal to `key`, if it is one. -/
def fixedKey (key : String) : Option String := fixedKeys.find? fun k => k = key

/-- Whether the rows of `kind` are in the index. -/
def immutableKind (kind : ℤ) : Bool :=
  kind = kindBundle || kind = kindSettings || kind = kindAlarm

def opKey (row : OpRow) : Except ClientError OpKey := do
  let vaultId ← id16 row.vaultId
  let deviceId ← id16 row.deviceId
  let deviceSeq ← u64Be row.deviceSeq
  return toLex (vaultId, toLex (deviceId, deviceSeq))

def snapshotKey (row : SnapshotRow) : Except ClientError SnapshotKey := do
  let vaultId ← id16 row.vaultId
  let snapshotId ← id16 row.snapshotId
  return toLex (vaultId, snapshotId)

/-- An optional generation column as 16 bytes. -/
def generation : Option Bytes → Except ClientError (Option Id16)
  | none => .ok none
  | some column => do return some (← id16 column)

/-! ### The index of the rows -/

/-- A counter of `cache_meta`. -/
def CacheRows.counter (rows : CacheRows) (key : String) : Except ClientError U64 :=
  match rows.cacheMeta[key]? with
  | some value => u64Be value
  | none => .error .cacheCorrupt

namespace Floors

def addMeta (floors : Floors) (entry : String × Bytes) : Floors :=
  match fixedKey entry.1 with
  | some fixed => { floors with fixed := floors.fixed.insert fixed entry.2 }
  | none => floors

def addObject (state : U64 × U64) (floors : Floors) (object : ObjectRow) : Floors :=
  if object.kind = kindAccountState then
    { floors with state := some ⟨state.1, state.2, object.bytes⟩ }
  else if immutableKind object.kind then
    { floors with objects := floors.objects.insert (toLex (object.kind, object.key)) object.bytes }
  else floors

def addVault (vaultKeys : List (Id16 × Id16)) (floors : Floors) (vault : VaultRow) :
    Except ClientError Floors := do
  let vaultId ← id16 vault.vaultId
  match vaultKeys.find? fun entry => entry.1 = vaultId with
  | none => .error .cacheCorrupt
  | some entry =>
    return { floors with
      vaults := floors.vaults.insert vaultId (vault.selfGrant.vaultKeyEpoch, entry.2) }

def addOp (floors : Floors) (op : OpRow) : Except ClientError Floors := do
  let key ← opKey op
  let sentGeneration ← generation op.sentGeneration
  return { floors with ops := floors.ops.insert key ⟨op.statement, op.own, sentGeneration⟩ }

def addSnapshot (floors : Floors) (snapshot : SnapshotRow) : Except ClientError Floors := do
  let key ← snapshotKey snapshot
  return { floors with
    snapshots := floors.snapshots.insert key ⟨snapshot.statement, snapshot.own⟩ }

/-- The floors of the rows a load verified, given the account state's sequence numbers and the id
of the key that each vault's self-grant opened to. -/
def ofRows (rows : CacheRows) (state : U64 × U64) (vaultKeys : List (Id16 × Id16)) :
    Except ClientError Floors := do
  let floors := rows.cacheMeta.toList.foldl addMeta empty
  let nextDeviceSeq ← rows.counter metaNextDeviceSeq
  let hlc ← rows.counter metaHlc
  let floors := { floors with nextDeviceSeq := nextDeviceSeq, hlc := hlc }
  let floors := rows.objects.foldl (addObject state) floors
  let floors ← rows.vaults.foldlM (addVault vaultKeys) floors
  let floors ← rows.ops.foldlM addOp floors
  rows.snapshots.foldlM addSnapshot floors

end Floors

/-! ### One changeset -/

/-- A broken rule. -/
structure Refused

/-- The state a changeset leads to, kept apart from the index until every write passed. -/
structure Pending where
  base : Floors
  fixed : ExtTreeMap String Bytes
  nextDeviceSeq : U64
  hlc : U64
  state : Option StateFloor
  objects : ExtTreeMap ObjectKey Bytes
  vaults : ExtTreeMap Id16 (ℕ × Id16)
  ops : ExtTreeMap OpKey OpFloor
  snapshots : ExtTreeMap SnapshotKey (Option SnapshotFloor)
  record : Option (Id16 × Id16)
  clearedRollback : Bool

/-- The `own` column moves only 1 → 3 → 2; a resend leaves 3 at 3. A move to 3 carries the restore
generation of the last response. -/
def advanceOwn (held next : ℤ) (hasGeneration : Bool) : Except Refused Unit :=
  if (held = ownUnsent ∨ held = ownSent) ∧ next = ownSent ∧ hasGeneration then .ok ()
  else if (held = ownSent ∨ held = ownAcknowledged) ∧ next = ownAcknowledged then .ok ()
  else .error ⟨⟩

/-- Whether a set-once row may hold `value`. -/
def validFixed (fixed : String) (value : Bytes) : Bool :=
  if fixed = metaFormat then value = beBytes 2 cacheFormat
  else if fixed = metaServerOrigin then !value.isEmpty
  else value.length = 16

/-- The length of an object's key within its kind, of the kinds that a put may write. -/
def objectKeyLen (kind : ℤ) : Option ℕ :=
  if kind = kindBundle ∨ kind = kindSettings then some 8
  else if kind = kindIdentityKeys then some 4
  else if kind = kindAlarm then some 1
  else none

namespace Pending

/-- The state before the first write. -/
def start (base : Floors) : Pending :=
  ⟨base, ∅, base.nextDeviceSeq, base.hlc, none, ∅, ∅, ∅, ∅, none, false⟩

variable (p : Pending)

/-- The rows after the writes so far. -/
def fixedAt (key : String) : Option Bytes := p.fixed[key]?.or p.base.fixed[key]?

def op (key : OpKey) : Option OpFloor := p.ops[key]?.or p.base.ops[key]?

def snapshot (key : SnapshotKey) : Option SnapshotFloor :=
  match p.snapshots[key]? with
  | some changed => changed
  | none => p.base.snapshots[key]?

def vault (vaultId : Id16) : Option (ℕ × Id16) := p.vaults[vaultId]?.or p.base.vaults[vaultId]?

/-- A write of one `cache_meta` row. -/
def checkMeta (key : String) (value : Bytes) : Except Refused Pending :=
  match fixedKey key with
  | some fixed =>
    if !validFixed fixed value || (p.fixedAt fixed).any (· ≠ value) then .error ⟨⟩
    else .ok { p with fixed := p.fixed.insert fixed value }
  | none =>
    match u64Be value with
    | .error _ => .error ⟨⟩
    | .ok number =>
      if key = metaNextDeviceSeq then
        if number = 0 ∨ number < p.nextDeviceSeq then .error ⟨⟩
        else .ok { p with nextDeviceSeq := number }
      else if key = metaHlc then
        if number < p.hlc then .error ⟨⟩ else .ok { p with hlc := number }
      else .error ⟨⟩

/-- A write of the `account-state` row. -/
def checkState (wire : Bytes) (stateSeq settingsSeq : U64) : Except Refused Pending :=
  let held := p.state.or p.base.state
  let rollback (h : StateFloor) : Bool := stateSeq < h.stateSeq || settingsSeq < h.settingsSeq
  let fork (h : StateFloor) : Bool := stateSeq = h.stateSeq && wire ≠ h.wire
  if held.any fun h => rollback h || fork h then .error ⟨⟩
  else .ok { p with state := some ⟨stateSeq, settingsSeq, wire⟩ }

/-- A put of an object row. An alarm row may gain evidence; a bundle or settings row never
changes. -/
def checkObject (row : ObjectRow) : Except Refused Pending :=
  match objectKeyLen row.kind with
  | none => .error ⟨⟩
  | some keyLen =>
    if row.key.length ≠ keyLen ∨ (row.bytes = [] ∧ row.kind ≠ kindAlarm) then .error ⟨⟩
    else if immutableKind row.kind then
      let key : ObjectKey := toLex (row.kind, row.key)
      let held := p.objects[key]?.or p.base.objects[key]?
      if row.kind ≠ kindAlarm ∧ held.any (· ≠ row.bytes) then .error ⟨⟩
      else .ok { p with objects := p.objects.insert key row.bytes }
    else .ok p

/-- A put of an op row. A row at a held key is the same record again. A new own op takes a
sequence number at or above the counter stored before the changeset. -/
def putOp (row : OpRow) : Except Refused Pending :=
  match opKey row with
  | .error _ => .error ⟨⟩
  | .ok key =>
    match p.op key with
    | some held => if held.statement = row.statement then .ok p else .error ⟨⟩
    | none =>
      if (p.vault key.vaultId).isNone || row.sentGeneration.isSome then .error ⟨⟩
      else
        let ownDevice : Bool := (p.fixedAt metaDeviceId).any (· = key.deviceId.bytes)
        if (row.own = ownServed ∧ !ownDevice) ∨
            (row.own = ownUnsent ∧ ownDevice ∧ key.deviceSeq ≥ max p.base.nextDeviceSeq 1) then
          .ok { p with ops := p.ops.insert key ⟨row.statement, row.own, none⟩ }
        else .error ⟨⟩

/-- A re-issue of an op that was not sent, or whose answer was stale. -/
def reissueOp (row : OpRow) (staleGeneration : Option Id16) : Except Refused Pending :=
  match opKey row with
  | .error _ => .error ⟨⟩
  | .ok key =>
    match p.op key with
    | none => .error ⟨⟩
    | some held =>
      let unsent : Bool := held.own = ownUnsent
      let answeredStale : Bool :=
        held.own = ownSent && staleGeneration.isSome && held.sentGeneration = staleGeneration
      if !(unsent || answeredStale) || row.own ≠ ownUnsent then .error ⟨⟩
      else .ok { p with ops := p.ops.insert key ⟨row.statement, ownUnsent, none⟩ }

/-- A put of a snapshot row. -/
def putSnapshot (row : SnapshotRow) : Except Refused Pending :=
  match snapshotKey row with
  | .error _ => .error ⟨⟩
  | .ok key =>
    match p.snapshot key with
    | some held => if held.statement ≠ row.statement then .error ⟨⟩ else .ok p
    | none =>
      if !(row.own = ownServed || row.own = ownUnsent) || row.sentGeneration.isSome ||
          (p.vault (ofLex key).1).isNone then .error ⟨⟩
      else .ok { p with snapshots := p.snapshots.insert key (some ⟨row.statement, row.own⟩) }

variable (deviceRecord : Bytes → Option (Id16 × Id16))

/-- Checks one write and records its effect. -/
def check (p : Pending) : Write → Except Refused Pending
  | .cacheMeta key value => p.checkMeta key value
  | .deviceState record =>
    match deviceRecord record with
    | none => .error ⟨⟩
    | some ids => .ok { p with record := some ids }
  | .pendingCommit request =>
    if request.any fun r => r.isEmpty || r.length > maxUploadBodyLen then .error ⟨⟩ else .ok p
  | .accountState wire stateSeq settingsSeq => p.checkState wire stateSeq settingsSeq
  | .putObject row => p.checkObject row
  | .clearAlarm alarm =>
    match alarm with
    | .unconfirmedIdentityChange => .ok p
    | .rollback => .ok { p with clearedRollback := true }
    | _ => .error ⟨⟩
  | .deviceSet certificates revocations =>
    if (certificates ++ revocations).any fun entry => entry.2.isEmpty then .error ⟨⟩ else .ok p
  | .vaultGrant grant vaultKeyId =>
    let lower (held : ℕ × Id16) : Bool := grant.vaultKeyEpoch < held.1
    let fork (held : ℕ × Id16) : Bool := grant.vaultKeyEpoch = held.1 && held.2 ≠ vaultKeyId
    if (p.vault grant.vaultId).any fun held => lower held || fork held then .error ⟨⟩
    else .ok { p with vaults := p.vaults.insert grant.vaultId (grant.vaultKeyEpoch, vaultKeyId) }
  | .vaultGeneration vaultId _ => if (p.vault vaultId).isSome then .ok p else .error ⟨⟩
  | .wraps vaultId epoch wraps =>
    match p.vault vaultId with
    | none => .error ⟨⟩
    | some held =>
      if held.1 ≠ epoch ∨
          wraps.any fun w => w.vaultId ≠ vaultId.bytes || w.vaultKeyEpoch ≠ (epoch : ℤ) then
        .error ⟨⟩
      else .ok p
  | .putOp row => p.putOp row
  | .reissueOp row staleGeneration => p.reissueOp row staleGeneration
  | .opOwn vaultId deviceId deviceSeq own sentGeneration =>
    let key : OpKey := toLex (vaultId, toLex (deviceId, deviceSeq))
    match p.op key with
    | none => .error ⟨⟩
    | some held => do
      advanceOwn held.own own sentGeneration.isSome
      return { p with
        ops := p.ops.insert key
          { held with own := own, sentGeneration := held.sentGeneration.or sentGeneration } }
  | .pruneOpBody vaultId deviceId deviceSeq =>
    match p.op (toLex (vaultId, toLex (deviceId, deviceSeq))) with
    | some held => if held.own = ownServed then .ok p else .error ⟨⟩
    | none => .error ⟨⟩
  | .putSnapshot row => p.putSnapshot row
  | .snapshotOwn vaultId snapshotId own sentGeneration =>
    let key : SnapshotKey := toLex (vaultId, snapshotId)
    match p.snapshot key with
    | none => .error ⟨⟩
    | some held => do
      advanceOwn held.own own sentGeneration.isSome
      return { p with snapshots := p.snapshots.insert key (some { held with own := own }) }
  | .deleteSnapshot vaultId snapshotId =>
    let key : SnapshotKey := toLex (vaultId, snapshotId)
    match p.snapshot key with
    | some held =>
      if held.own = ownUnsent ∨ held.own = ownSent then
        .ok { p with snapshots := p.snapshots.insert key none }
      else .error ⟨⟩
    | none => .ok p

/-- The checks that need the whole changeset. -/
def finish : Except Refused Unit :=
  let ownWritten :=
    ((p.ops.toList.filter fun entry => entry.2.own ≠ ownServed).map
      fun entry => entry.1.deviceSeq).max?
  let named (key : String) (id : Id16) : Bool := (p.fixedAt key).any (· = id.bytes)
  if p.clearedRollback && p.state.isNone then .error ⟨⟩
  else if ownWritten.any (· ≥ p.nextDeviceSeq) then .error ⟨⟩
  else if p.record.any fun ids => !named metaAccountId ids.1 || !named metaDeviceId ids.2 then
    .error ⟨⟩
  else .ok ()

/-- The index after the changeset. -/
def commit : Floors where
  fixed := p.base.fixed ∪ p.fixed
  nextDeviceSeq := p.nextDeviceSeq
  hlc := p.hlc
  state := p.state.or p.base.state
  objects := p.base.objects ∪ p.objects
  vaults := p.base.vaults ∪ p.vaults
  ops := p.base.ops ∪ p.ops
  snapshots := p.snapshots.toList.foldl setEntry p.base.snapshots

end Pending

variable (deviceRecord : Bytes → Option (Id16 × Id16))

/-- The writes and the checks of the whole changeset, in order. -/
def Floors.pass (floors : Floors) (changeset : Changeset) : Except Refused Pending := do
  let next ← changeset.foldlM (Pending.check deviceRecord) (Pending.start floors)
  next.finish
  return next

/-- Checks a changeset and, if every write passes, moves the index to the state after it. -/
def Floors.admit (floors : Floors) (changeset : Changeset) : Except ClientError Unit × Floors :=
  match floors.pass deviceRecord changeset with
  | .error _ => (.error .internal, floors)
  | .ok next => (.ok (), next.commit)

end RizzyVault.Client.Store
