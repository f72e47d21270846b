import RizzyVault.Sync.Header

/-!
# The causal log of one vault

The chains of one vault as one device sees them: per authoring device the operation headers it
accepted, in chain order, and per item the version vector of what is settled. The first part of
the chain check is here: which served headers extend a chain, and what is reported on the way.

## Main definitions

* `BodyStatus`, `ServedOp`, `Report`, `GapCause`.
* `Link`, `Chain`, `Uploads`, `VaultLog`.
* `VaultLog.head`, `VaultLog.cursor`, `VaultLog.link`, `VaultLog.chain`, `VaultLog.settled`.
* `covered`, `settled`, `missingContext`.
* `VaultLog.group`, `VaultLog.walk`.

## References

* `crates/rizzy-sync/src/causal.rs`, `crates/rizzy-sync/src/causal/author.rs`.
-/

namespace RizzyVault.Sync.Causal

open Std (ExtTreeMap ExtTreeSet)

/-- The highest 64-bit number. -/
def maxU64 : ℕ := 2 ^ 64 - 1

/-! ### What is served and reported -/

/-- What the client knows about the body of a served operation after verifying it. -/
inductive BodyStatus
  | verified
  | waiting
  | rejected
  | bodiless
  deriving DecidableEq

/-- One served operation: its verified header and the verdict on its body. -/
structure ServedOp where
  header : OpHeader
  body : BodyStatus
  deriving DecidableEq

/-- Why a chain has a gap. -/
inductive GapCause
  | unlinked (next : Dot) (vaultPrevSeq : ℕ)
  | uncovered (dot : Dot)
  | belowCutoff (lastAccepted : ℕ)
  deriving DecidableEq

/-- Something the client reports. -/
inductive Report
  | duplicate (dot : Dot)
  | equivocation (dot : Dot)
  | unknownOwnOp (dot : Dot)
  | foreignVault (dot : Dot)
  | pastCutoff (dot : Dot) (lastAccepted : ℕ)
  | rejectedBody (dot : Dot)
  | gap (device : DeviceId) (after : ℕ) (cause : GapCause)
  | missingPredecessor (waiting missing : Dot)
  | unverifiable (dot : Dot)
  | settledPastHead (itemId : ItemId) (device : DeviceId) (settled head : ℕ)
  deriving DecidableEq

/-- Why a snapshot or an operation is rejected for its author. -/
inductive AuthorRefusal
  | otherDevice
  | pastCutoff (lastAccepted : ℕ)
  | pastExpiry (expiresAtMs : ℕ)
  | claimsPastBound (bound : ℕ)
  deriving DecidableEq

/-- Whether a snapshot's entry for its own author stays at or below a bound. -/
def checkSnapshotAuthor (header : SnapshotHeader) (bound : Option ℕ) :
    Except AuthorRefusal Unit :=
  match bound with
  | some bound =>
    if header.covered.get header.author > bound then .error (.claimsPastBound bound) else .ok ()
  | none => .ok ()

/-! ### The log -/

/-- Where an accepted link's body stands. -/
inductive LinkState
  | ready
  | waiting
  | rejected
  | bodiless
  | delivered
  | revoked
  deriving DecidableEq

/-- The state of a newly accepted link. -/
def LinkState.fromBody : BodyStatus → LinkState
  | .verified => .ready
  | .waiting => .waiting
  | .rejected => .rejected
  | .bodiless => .bodiless

/-- Whether a header with this verdict on its body counts only behind a snapshot. -/
def needsCover : BodyStatus → Bool
  | .bodiless | .rejected => true
  | .verified | .waiting => false

/-- One accepted header and the state of its body. -/
structure Link where
  header : OpHeader
  state : LinkState
  deriving DecidableEq

/-- One device's accepted links, by sequence number. No link below the frontier is unsettled. -/
structure Chain where
  links : ExtTreeMap ℕ Link := ∅
  head : ℕ := 0
  frontier : ℕ := 0

/-- The own chain's upload state: the highest acknowledged sequence number, and the operations
sent without an answer, each with the restore generation before its first send. -/
structure Uploads where
  acked : ℕ := 0
  unanswered : ExtTreeMap ℕ RestoreGeneration := ∅
  lastGeneration : Option RestoreGeneration := none

/-- Verified, undelivered bodies: per item, per authoring device, their sequence numbers. -/
abbrev ReadyIndex := ExtTreeMap ItemId (ExtTreeMap DeviceId (ExtTreeSet ℕ))

/-- The chains of one vault as the device `own` sees them. -/
structure VaultLog where
  vaultId : VaultId
  own : DeviceId
  chains : ExtTreeMap DeviceId Chain := ∅
  items : ExtTreeMap ItemId VersionVector := ∅
  ready : ReadyIndex := ∅
  dirty : ExtTreeSet ItemId := ∅
  absorbed : ExtTreeSet ItemId := ∅
  cutoffs : ExtTreeMap DeviceId ℕ := ∅
  uploads : Uploads := {}

/-- Whether the item's settled vector covers the header's dot. -/
def covered (items : ExtTreeMap ItemId VersionVector) (header : OpHeader) : Prop :=
  ∃ vv ∈ items[header.itemId]?, vv.covers header.dot

instance (items : ExtTreeMap ItemId VersionVector) : DecidablePred (covered items) :=
  fun header => inferInstanceAs (Decidable (∃ vv ∈ items[header.itemId]?, vv.covers header.dot))

/-- Whether a link is delivered, or covered by its item's settled vector. -/
def settled (items : ExtTreeMap ItemId VersionVector) (link : Link) : Prop :=
  link.state = .delivered ∨ covered items link.header

instance (items : ExtTreeMap ItemId VersionVector) : DecidablePred (settled items) :=
  fun link => inferInstanceAs (Decidable (link.state = .delivered ∨ covered items link.header))

/-- The first entry of the header's causal context that its item's settled vector does not
cover. -/
def missingContext (items : ExtTreeMap ItemId VersionVector) (header : OpHeader) : Option Dot :=
  header.causalContext.dots.find? fun entry => ¬ ∃ vv ∈ items[header.itemId]?, vv.covers entry

namespace VaultLog

/-- An empty log. -/
def new (vaultId : VaultId) (own : DeviceId) : VaultLog := { vaultId, own }

/-- The sequence number of the last link of a device's chain, zero if none. -/
def head (log : VaultLog) (device : DeviceId) : ℕ := (log.chains[device]?).elim 0 Chain.head

/-- The link of a device at a sequence number. -/
def linkAt (log : VaultLog) (device : DeviceId) (seq : ℕ) : Option Link :=
  (log.chains[device]?).bind fun chain => chain.links[seq]?

/-- The accepted link at a dot. -/
def link (log : VaultLog) (dot : Dot) : Option Link := log.linkAt dot.deviceId dot.seq

/-- The kept header at a dot. -/
def header (log : VaultLog) (dot : Dot) : Option OpHeader := (log.link dot).map Link.header

/-- A device's links from a sequence number on, ascending. -/
def linksFrom (log : VaultLog) (device : DeviceId) (seq : ℕ) : List (ℕ × Link) :=
  (log.chains[device]?).elim [] fun chain => chain.links.toList.filter fun entry => seq ≤ entry.1

/-- The kept headers of a device's chain, in chain order. -/
def chain (log : VaultLog) (device : DeviceId) : List OpHeader :=
  (log.linksFrom device 0).map fun entry => entry.2.header

/-- The settled vector of an item. -/
def settled (log : VaultLog) (itemId : ItemId) : VersionVector := (log.items[itemId]?).getD .new

/-- The known revocation cut-off of a device. -/
def cutoff (log : VaultLog) (device : DeviceId) : Option ℕ := log.cutoffs[device]?

/-- Every chain's head, as a vector. -/
def heads (log : VaultLog) : VersionVector :=
  .ofDots (log.chains.toList.filterMap fun entry => Dot.new entry.1 entry.2.head)

/-- A chain's entry of the cursor: its head, or what comes before its first rejected link that no
snapshot covers. -/
def cursorEntry (log : VaultLog) (chain : Chain) : ℕ :=
  let fromFrontier := chain.links.toList.filter fun entry => chain.frontier ≤ entry.1
  match fromFrontier.find? fun entry =>
      entry.2.state = .rejected ∧ ¬ covered log.items entry.2.header with
  | some entry => entry.2.header.vaultPrevSeq
  | none => chain.head

/-- What the next fetch asks from. -/
def cursor (log : VaultLog) : VersionVector :=
  .ofDots (log.chains.toList.filterMap fun entry => Dot.new entry.1 (log.cursorEntry entry.2))

/-! ### The chain check -/

/-- What is reported of a served header of the own device: the own chain is never taken from a
response. -/
def ownReport (log : VaultLog) (op : ServedOp) : Report :=
  if log.header op.header.dot = some op.header then .duplicate op.header.dot
  else if op.header.dot.seq ≤ log.head log.own then .equivocation op.header.dot
  else .unknownOwnOp op.header.dot

/-- Sorts one served operation into the groups of its response. -/
def groupOne (log : VaultLog) (acc : ExtTreeMap DeviceId (List ServedOp) × List Report)
    (op : ServedOp) : ExtTreeMap DeviceId (List ServedOp) × List Report :=
  if op.header.vaultId ≠ log.vaultId then (acc.1, acc.2 ++ [.foreignVault op.header.dot])
  else if op.header.dot.deviceId = log.own then (acc.1, acc.2 ++ [log.ownReport op])
  else (acc.1.alter op.header.dot.deviceId fun served => some (served.getD [] ++ [op]), acc.2)

/-- Splits a response into the operations of each device, each sorted by sequence number. Headers
of another vault and of the own device are reported and left out. -/
def group (log : VaultLog) (ops : List ServedOp) :
    ExtTreeMap DeviceId (List ServedOp) × List Report :=
  let (groups, reports) := ops.foldl log.groupOne (∅, [])
  (groups.map fun _ served => served.insertionSort fun a b => a.header.dot.seq ≤ b.header.dot.seq,
    reports)

/-- One device's served headers after one walk from its head: those that extend the chain, the
rejected held links served again, and what was reported on the way. -/
structure Walk where
  accepted : List ServedOp := []
  reserved : List ServedOp := []
  reports : List Report := []

/-- Walks one device's served headers on from the link at `prev`. `counts` says whether a snapshot
covers a header without a usable body. -/
def walkFrom (log : VaultLog) (device : DeviceId) (counts : OpHeader → Bool) :
    ℕ → Walk → List ServedOp → Walk
  | _, walk, [] => walk
  | prev, walk, op :: served =>
    let h := op.header
    let dot := h.dot
    if dot.seq ≤ prev then
      let heldLink := log.linkAt device dot.seq
      if ∃ link ∈ heldLink, link.header = h ∧ link.state = .rejected ∧ ¬ covered log.items h then
        log.walkFrom device counts prev { walk with reserved := walk.reserved ++ [op] } served
      else
        -- the links accepted in this walk ascend, so a binary search finds the same one
        let held := (heldLink.map Link.header).or
          ((walk.accepted.find? fun a => a.header.dot.seq = dot.seq).map ServedOp.header)
        let report := if held = some h then Report.duplicate dot else .equivocation dot
        log.walkFrom device counts prev { walk with reports := walk.reports ++ [report] } served
    else
      let pastCutoff := (log.cutoff device).filter fun lastAccepted => lastAccepted < dot.seq
      match pastCutoff with
      | some lastAccepted =>
        { walk with reports := walk.reports ++ [.pastCutoff dot lastAccepted] }
      | none =>
        if h.vaultPrevSeq ≠ prev then
          { walk with reports := walk.reports ++ [.gap device prev (.unlinked dot h.vaultPrevSeq)] }
        else
          let reports :=
            if op.body = .rejected then walk.reports ++ [.rejectedBody dot] else walk.reports
          if needsCover op.body ∧ ¬ counts h then
            { walk with reports := reports ++ [.gap device prev (.uncovered dot)] }
          else
            log.walkFrom device counts dot.seq
              { walk with accepted := walk.accepted ++ [op], reports } served

/-- Walks one device's served headers, sorted by sequence number, on from the chain's head. -/
def walk (log : VaultLog) (device : DeviceId) (served : List ServedOp)
    (counts : OpHeader → Bool) : Walk :=
  log.walkFrom device counts (log.head device) {} served

end VaultLog

end RizzyVault.Sync.Causal
