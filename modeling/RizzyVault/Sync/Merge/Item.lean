import RizzyVault.Sync.Record.Encode
import RizzyVault.Sync.Merge.Evidence

/-!
# The merge of one item

One item's merge state on one replica and the calls that change it. A call returns the merge it
leaves and its answer, since a call that fails may have recorded headers.

## Main definitions

* `ItemMerge`, `OpInput`, `SnapshotInput`.
* `ItemMerge.recordHeader`, `ItemMerge.applyOp`, `ItemMerge.applyOwnOp`,
  `ItemMerge.absorbSnapshot`, `ItemMerge.writeSnapshot`, `ItemMerge.reissueOwnOp`.
* `ItemMerge.canonicalState`, `ItemMerge.basisData`.

## References

* `crates/rizzy-sync/src/merge.rs`.
-/

open RizzyVault.Core

namespace RizzyVault.Sync

open Std (ExtTreeMap ExtTreeSet)

/-- More operations than this since the last snapshot call for one. -/
def snapshotAfterOps : ℕ := 32

/-- A verified operation. -/
structure OpInput where
  header : OpHeader
  keyId : SymmetricKeyId
  data : OpData
  deriving DecidableEq

/-- A verified snapshot. -/
structure SnapshotInput where
  header : SnapshotHeader
  data : SnapshotData
  deriving DecidableEq

/-- What a write of this device is, beyond its operation. -/
structure OwnWrite where
  freshItemKey : Bool
  holdsUnappliedRecord : Bool

/-- How a body met the state. -/
inductive ApplyKind
  | applied
  | coveredMerged
  | duplicate
  deriving DecidableEq

/-- Why a snapshot of the item is due. -/
inductive SnapshotTrigger
  | opCount
  | freshItemKey
  | afterPurge
  | mergedAfterConcurrentAbsorption
  | replacesDiscarded
  deriving DecidableEq

/-- What a re-issue did beyond the operation. -/
structure Reissue where
  freshItemKey : Bool
  discardedUnsentSnapshot : Bool

/-- The result of merging one body. -/
structure Applied where
  kind : ApplyKind
  receiveHlc : Option Hlc
  snapshotDue : Option SnapshotTrigger
  deriving DecidableEq

/-- What absorbing a snapshot took and found. -/
structure Absorbed where
  relation : VvOrdering
  receiveHlc : Option Hlc
  disagreements : List Dot
  ignoredValues : List Dot
  deriving DecidableEq

inductive AbsorbOutcome
  | absorbed (absorbed : Absorbed)
  | refused (refusal : Refusal)
  deriving DecidableEq

/-- The result of absorbing a snapshot. -/
structure Absorption where
  outcome : AbsorbOutcome
  claimCuts : List ClaimCut
  deriving DecidableEq

/-- Why no snapshot is written. -/
inductive NoSnapshot
  | absent
  | unresolved
  | oversize
  | unencodable
  deriving DecidableEq

/-- A snapshot the client encrypts and signs. -/
structure WrittenSnapshot where
  covered : VersionVector
  data : Bytes
  deriving DecidableEq

/-- What the item shows. -/
inductive ItemLifecycle
  | absent
  | active
  | trashed
  | purged
  deriving DecidableEq

/-- Whether a record error is a limit of stored records. -/
def isLimit : RecordErrorKind → Bool
  | .dataTooLong | .countTooLarge | .valueTooLong | .keyLength => true
  | _ => false

/-- One item's merge state on one replica. -/
structure ItemMerge where
  itemId : ItemId
  state : State
  headers : ExtTreeMap Dot HeaderFacts
  bodies : Bodies
  merged : ExtTreeSet Dot
  retained : Bodies
  base : State
  opsSinceSnapshot : ℕ
  mergeDue : Bool
  unresolved : ExtTreeSet Dot
  surfaced : ExtTreeSet Dot
  wrapKeys : ExtTreeSet SymmetricKeyId
  deriving DecidableEq

namespace ItemMerge

/-- The merge of an item no operation has reached. -/
def new (itemId : ItemId) : ItemMerge where
  itemId := itemId
  state := State.default
  headers := ∅
  bodies := ∅
  merged := ∅
  retained := ∅
  base := State.default
  opsSinceSnapshot := 0
  mergeDue := false
  unresolved := ∅
  surfaced := ∅
  wrapKeys := ∅

/-- The evidence the joins read. -/
def evidence (m : ItemMerge) : Evidence := ⟨m.headers, m.wrapKeys⟩

/-- Refuses a record of another item or schema version. -/
def checkRecord (m : ItemMerge) (itemId : ItemId) (version : ItemSchemaVersion) :
    Except MergeError Unit :=
  if itemId ≠ m.itemId then .error .wrongItem
  else if version ≠ ItemSchemaVersion.v1 then .error .unsupportedSchema
  else .ok ()

/-- Records a verified header. -/
def recordHeader (m : ItemMerge) (header : OpHeader) : ItemMerge × Except MergeError Unit :=
  match m.checkRecord header.itemId header.itemSchemaVersion with
  | .error e => (m, .error e)
  | .ok () =>
    let facts : HeaderFacts := ⟨header.hlc, header.causalContext⟩
    match m.headers[header.dot]? with
    | none => ({ m with headers := m.headers.insert header.dot facts }, .ok ())
    | some held => if held = facts then (m, .ok ()) else (m, .error (.headerConflict header.dot))

/-- Adds an item key of the item's wrap set. -/
def addItemKey (m : ItemMerge) (keyId : SymmetricKeyId) : ItemMerge :=
  { m with wrapKeys := m.wrapKeys.insert keyId }

/-- Whether the operation can merge now: it is covered, or its context is applied. -/
def isReady (m : ItemMerge) (header : OpHeader) : Bool :=
  m.state.vv.covers header.dot ||
    match header.causalContext.compare m.state.vv with
    | .less | .equal => true
    | .greater | .concurrent => false

/-- Joins a body into the state and keeps it. -/
def joinBody (m : ItemMerge) (held : HeldOp) : ItemMerge :=
  { m with
    state := joinInto m.state (singleton held) m.evidence
    merged := m.merged.insert held.dot
    bodies := m.bodies.insert held.dot held
    retained := m.retained.insert held.dot held }

/-- Counts an operation applied fresh. -/
def countOp (m : ItemMerge) : ItemMerge :=
  { m with opsSinceSnapshot := min (m.opsSinceSnapshot + 1) (2 ^ 64 - 1) }

/-- Merges one verified body, once its header is recorded. -/
def mergeRecorded (m : ItemMerge) (op : OpInput) : ItemMerge × Except MergeError ApplyKind :=
  let dot := op.header.dot
  if dot ∈ m.merged then (m, .ok .duplicate)
  else if !m.isReady op.header then (m, .error (.notReady dot))
  else
    let held := HeldOp.new op.header op.keyId op.data
    let fresh := !m.state.vv.covers dot
    if fresh then ((m.joinBody held).countOp, .ok .applied)
    else (m.joinBody held, .ok .coveredMerged)

/-- Merges one verified body. -/
def mergeBody (m : ItemMerge) (op : OpInput) : ItemMerge × Except MergeError ApplyKind :=
  match m.recordHeader op.header with
  | (m, .error e) => (m, .error e)
  | (m, .ok ()) => m.mergeRecorded op

/-- Applies a verified operation, delivered in causal order. -/
def applyOp (m : ItemMerge) (op : OpInput) : ItemMerge × Except MergeError Applied :=
  match m.mergeBody op with
  | (m, .error e) => (m, .error e)
  | (m, .ok kind) =>
    (m, .ok ⟨kind, if kind = .applied then some op.header.hlc else none, none⟩)

/-- The current values of the lifecycle register. -/
def lifecycleValues (m : ItemMerge) : List Val :=
  match m.state.shape with
  | .live l => lookup l.regs lifecycleKey
  | .tomb _ => []

/-- What the item is; an active value wins over a concurrent trashed one. -/
def lifecycle (m : ItemMerge) : ItemLifecycle :=
  if m.state.isTomb then .purged
  else if m.lifecycleValues.any fun v => v.value = [1] then .active
  else if m.lifecycleValues.any fun v => v.value = [2] then .trashed
  else .absent

/-- Whether this device may purge the item. -/
def mayPurge (m : ItemMerge) (holdsUnappliedRecord : Bool) : Bool :=
  !holdsUnappliedRecord && m.lifecycle = .trashed

/-- Applies an operation this device just wrote. -/
def applyOwnOp (m : ItemMerge) (op : OpInput) (own : OwnWrite) :
    ItemMerge × Except MergeError Applied :=
  match m.checkRecord op.header.itemId op.header.itemSchemaVersion with
  | .error e => (m, .error e)
  | .ok () =>
    let dot := op.header.dot
    if op.header.causalContext ≠ m.state.vv ∨ m.state.vv.covers dot then
      (m, .error (.notCurrent dot))
    else
      let purge : Bool := op.data.lifecycle = .purge
      if purge && !m.mayPurge own.holdsUnappliedRecord then (m, .error .writerRule)
      else
        match m.mergeBody op with
        | (m, .error e) => (m, .error e)
        | (m, .ok kind) =>
          let snapshotDue :=
            if own.freshItemKey then some .freshItemKey
            else if purge then some .afterPurge
            else if snapshotAfterOps < m.opsSinceSnapshot then some .opCount
            else none
          (m, .ok ⟨kind, none, snapshotDue⟩)

/-! ### Absorbing a snapshot -/

/-- Records the headers of the bodies that came with a snapshot, and keeps the bodies. -/
def recordWith (m : ItemMerge) : List OpInput → ItemMerge × Except MergeError Unit
  | [] => (m, .ok ())
  | op :: ops =>
    match m.recordHeader op.header with
    | (m, .error e) => (m, .error e)
    | (m, .ok ()) =>
      let held := HeldOp.new op.header op.keyId op.data
      recordWith { m with bodies := m.bodies.insert held.dot held } ops

/-- Folds the retained operations the basis covers into it, in dot order, and drops them. -/
def foldRetained (retained : Bodies) (base : State) (ev : Evidence) : Bodies × State :=
  let folded := retained.keys.filter fun dot => base.vv.covers dot
  folded.foldl (fun (retained, base) dot =>
    match retained[dot]? with
    | some op => (retained.erase dot, joinInto base (singleton op) ev)
    | none => (retained, base)) (retained, base)

/-- Joins the cut part of a snapshot into the state and the basis. -/
def absorbCut (m : ItemMerge) (cut : Cut) (disagreements : List Dot) : ItemMerge :=
  let ev := m.evidence
  let relation := cut.state.vv.compare m.state.vv
  let taken := normalize cut.state ev
  let (retained, base) := foldRetained m.retained (joinInto m.base taken ev) ev
  { m with
    state := joinInto m.state taken ev
    base := base
    retained := retained
    unresolved := disagreements.foldl (fun s dot => s.insert dot) m.unresolved
    mergeDue := m.mergeDue || relation = .concurrent }

/-- Absorbs a verified snapshot once the bodies that came with it are recorded. -/
def absorbRecorded (m : ItemMerge) (snapshot : SnapshotInput) : ItemMerge × Absorption :=
  let header := snapshot.header
  let ev := m.evidence
  let heads := heads ev
  let claimCuts := claimCuts header.covered heads header.author
  let offered := State.fromSnapshot header.covered snapshot.data
  match cut offered heads ev with
  | .error refusal => (m, ⟨.refused refusal, claimCuts⟩)
  | .ok cut =>
    match contradiction cut.state m.bodies ev with
    | some refusal => (m, ⟨.refused refusal, claimCuts⟩)
    | none =>
      let disagreements := disagreements m.state cut.state m.bodies ev
      (m.absorbCut cut disagreements,
        ⟨.absorbed ⟨cut.state.vv.compare m.state.vv, cut.state.maxHlc, disagreements,
          cut.ignored⟩, claimCuts⟩)

/-- Absorbs a verified snapshot with the bodies of the same response. -/
def absorbSnapshot (m : ItemMerge) (snapshot : SnapshotInput) (withOps : List OpInput) :
    ItemMerge × Except MergeError Absorption :=
  match m.checkRecord snapshot.header.itemId snapshot.header.itemSchemaVersion with
  | .error e => (m, .error e)
  | .ok () =>
    match m.recordWith withOps with
    | (m, .error e) => (m, .error e)
    | (m, .ok ()) =>
      let (m, absorption) := m.absorbRecorded snapshot
      (m, .ok absorption)

/-- Ends a fetch of the item. -/
def endFetch (m : ItemMerge) : ItemMerge × Option SnapshotTrigger :=
  ({ m with mergeDue := false },
    if m.mergeDue then some .mergedAfterConcurrentAbsorption else none)

/-! ### Writing snapshots -/

/-- The snapshot data of the state, encoded. -/
def encode (m : ItemMerge) : Except NoSnapshot Bytes :=
  match m.state.snapshotData with
  | .error _ => .error .unencodable
  | .ok none => .error .absent
  | .ok (some data) =>
    match Record.encodeSnapshot m.state.vv data with
    | .ok out => .ok out
    | .error e => if isLimit e.kind then .error .oversize else .error .unencodable

/-- Writes a snapshot of the state, which becomes the newest one. -/
def writeSnapshot (m : ItemMerge) : ItemMerge × Except NoSnapshot WrittenSnapshot :=
  if m.state.isAbsent then (m, .error .absent)
  else if !m.unresolved.isEmpty then (m, .error .unresolved)
  else
    match m.encode with
    | .error e => (m, .error e)
    | .ok data =>
      ({ m with base := m.state, retained := ∅, opsSinceSnapshot := 0 },
        .ok ⟨m.state.vv, data⟩)

/-- Records `keyId` as the key of the purge at `dot`, if it is the recorded one. -/
def rekeyPurge (s : State) (dot : Dot) (keyId : SymmetricKeyId) : State :=
  match s.shape with
  | .tomb t =>
    if t.purge.dot = dot then { s with shape := .tomb { t with purge := { t.purge with keyId } } }
    else s
  | .live _ => s

/-- Records `keyId` as the key of the body at `dot`. -/
def rekeyBody (bodies : Bodies) (dot : Dot) (keyId : SymmetricKeyId) : Bodies :=
  bodies.modify dot fun op => { op with keyId := keyId }

/-- Holds a re-issued own operation in place of the original. -/
def reissueOwnOp (m : ItemMerge) (header : OpHeader) (keyId : SymmetricKeyId)
    (reissue : Reissue) : ItemMerge × Except MergeError (Option SnapshotTrigger) :=
  match m.checkRecord header.itemId header.itemSchemaVersion with
  | .error e => (m, .error e)
  | .ok () =>
    let dot := header.dot
    let same := m.headers[dot]? = some ⟨header.hlc, header.causalContext⟩
    if ¬ same ∨ dot ∉ m.merged then (m, .error (.unknownOp dot))
    else
      let due :=
        if reissue.freshItemKey then some .freshItemKey
        else if reissue.discardedUnsentSnapshot then some .replacesDiscarded
        else none
      ({ m with
        bodies := rekeyBody m.bodies dot keyId
        retained := rekeyBody m.retained dot keyId
        state := rekeyPurge m.state dot keyId
        base := rekeyPurge m.base dot keyId }, .ok due)

/-! ### Reading -/

/-- The state as record data. -/
def snapshotData (m : ItemMerge) : Except MergeError (Option SnapshotData) := m.state.snapshotData

/-- The input of the state hash, none for an absent item. -/
def canonicalState (m : ItemMerge) : Except MergeError (Option Bytes) :=
  match m.state.snapshotData with
  | .error e => .error e
  | .ok none => .ok none
  | .ok (some data) =>
    match Record.canonicalState m.state.vv data with
    | .ok out => .ok (some out)
    | .error e => .error (.record e)

/-- The operations the client keeps, ascending by dot. -/
def retainedOps (m : ItemMerge) : List Dot := m.retained.keys

/-- The covered vector of the newest snapshot. -/
def basisCovered (m : ItemMerge) : VersionVector := m.base.vv

/-- The newest snapshot as record data. -/
def basisData (m : ItemMerge) : Except MergeError (Option SnapshotData) := m.base.snapshotData

/-- The dots of late values not surfaced yet, ascending, each once. -/
def lateValuesToSurface (m : ItemMerge) : List Dot :=
  match m.state.shape with
  | .live _ => []
  | .tomb t =>
    sortDedup (((State.regsValues t.late).map fun (_, v) => v.dot).filter fun dot =>
      dot ∉ m.surfaced)

/-- Marks every late value as surfaced. -/
def markSurfaced (m : ItemMerge) : ItemMerge :=
  { m with surfaced := m.lateValuesToSurface.foldl (fun s dot => s.insert dot) m.surfaced }

end ItemMerge

end RizzyVault.Sync
