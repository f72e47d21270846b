import RizzyVault.Sync.Causal.Log

/-!
# The calls on the causal log

What each call on a log of served operations leaves, and its answer: the plan over the covers of
a response, what an absorption settles, the commit, the verdicts on waiting bodies, the deliveries,
what still waits, and a revocation.

## Main definitions

* `CoverPlan`, `Commit`, `Delivery`, `WaitReason`, `Waiting`, `Revocation`, `BodyError`.
* `VaultLog.planCovers`, `VaultLog.recordAbsorbed`, `VaultLog.commit`, `VaultLog.bodyVerified`,
  `VaultLog.bodyRejected`, `VaultLog.takeDeliveries`, `VaultLog.waiting`,
  `VaultLog.learnRevocation`, `VaultLog.completeFetchReports`.

## References

* `crates/rizzy-sync/src/causal.rs`.
-/

namespace RizzyVault.Sync.Causal

open Std (ExtTreeMap ExtTreeSet)

/-- The first pass of the chain check over one response: the covers to absorb, the new headers that
passed, the most a merge takes of a cover, and the covers refused for their author. -/
structure CoverPlan where
  absorb : List ℕ
  links : List Dot
  cut : VersionVector
  refused : List ℕ
  deriving DecidableEq

/-- The most the merge may take of a cover. -/
def CoverPlan.cutOf (plan : CoverPlan) (covered : VersionVector) : VersionVector :=
  covered.meet plan.cut

/-- The outcome of committing one response. -/
structure Commit where
  accepted : List Dot
  reports : List Report
  deriving DecidableEq

/-- One operation to apply. -/
structure Delivery where
  dot : Dot
  itemId : ItemId
  hlc : Hlc
  covered : Bool
  deriving DecidableEq

/-- Why a held operation is not deliverable. -/
inductive WaitReason
  | body
  | rejected
  | uncovered
  | chain (firstUnsettled : Dot)
  | context (missing : Dot)
  deriving DecidableEq

/-- A held operation that is not deliverable yet. -/
structure Waiting where
  dot : Dot
  itemId : ItemId
  reason : WaitReason
  deriving DecidableEq

/-- What learning a revocation changed. -/
structure Revocation where
  rejected : List Dot
  heldPastCutoff : List ItemId
  deriving DecidableEq

/-- Why a verdict on a body is refused. -/
inductive BodyError
  | unknownOp
  | notWaiting
  deriving DecidableEq

/-- A chain with one more link at its end. -/
def Chain.push (chain : Chain) (link : Link) : Chain :=
  { chain with
    links := chain.links.insert link.header.dot.seq link
    head := link.header.dot.seq }

namespace VaultLog

/-! ### The parts of the state -/

/-- Changes the link of a device at a sequence number. -/
def modifyLink (log : VaultLog) (device : DeviceId) (seq : ℕ) (f : Link → Link) : VaultLog :=
  { log with
    chains := log.chains.modify device fun chain =>
      { chain with links := chain.links.modify seq f } }

/-- Moves a chain's frontier. -/
def setFrontier (log : VaultLog) (device : DeviceId) (frontier : ℕ) : VaultLog :=
  { log with chains := log.chains.modify device fun chain => { chain with frontier } }

/-- Adds a verified, undelivered body to the ready index and marks its item dirty. -/
def readyInsert (log : VaultLog) (itemId : ItemId) (dot : Dot) : VaultLog :=
  { log with
    ready := log.ready.alter itemId fun perDevice =>
      some ((perDevice.getD ∅).alter dot.deviceId fun seqs => some ((seqs.getD ∅).insert dot.seq))
    dirty := log.dirty.insert itemId }

/-- Removes a body from the ready index, dropping emptied sets. -/
def readyRemove (log : VaultLog) (itemId : ItemId) (dot : Dot) : VaultLog :=
  { log with
    ready := log.ready.alter itemId fun perDevice =>
      let left := (perDevice.getD ∅).alter dot.deviceId fun seqs =>
        let left := (seqs.getD ∅).erase dot.seq
        if left.isEmpty then none else some left
      if left.isEmpty then none else some left }

/-- Joins a dot into the settled vector of an item. -/
def addSettled (log : VaultLog) (itemId : ItemId) (dot : Dot) : VaultLog :=
  { log with items := log.items.alter itemId fun vv => some ((vv.getD .new).add dot) }

/-- Accepts a header as the next link of its chain. -/
def acceptLink (log : VaultLog) (header : OpHeader) (state : LinkState) : VaultLog :=
  let log := if state = .ready then log.readyInsert header.itemId header.dot else log
  { log with
    chains := log.chains.alter header.dot.deviceId fun chain =>
      some ((chain.getD {}).push ⟨header, state⟩) }

/-! ### Planning and absorbing -/

/-- Whether a cover's author is above its known cut-off. -/
def overCutoff (log : VaultLog) (cover : SnapshotHeader) : Bool :=
  match checkSnapshotAuthor cover (log.cutoff cover.author) with
  | .ok () => false
  | .error _ => true

/-- Whether a cover counts in the first pass. -/
def countsCover (log : VaultLog) (cover : SnapshotHeader) : Bool :=
  cover.vaultId = log.vaultId ∧ ¬ log.overCutoff cover

/-- Whether a header counts as covered in the first pass. -/
def planCounts (log : VaultLog) (covers : List SnapshotHeader) (h : OpHeader) : Bool :=
  covered log.items h ∨ covers.any fun cover =>
    log.countsCover cover ∧ cover.itemId = h.itemId ∧ cover.covered.covers h.dot

/-- The positions of the covers that pass a test. -/
def indices (covers : List SnapshotHeader) (keep : SnapshotHeader → Bool) : List ℕ :=
  (covers.zipIdx.filter fun entry => keep entry.1).map Prod.snd

/-- The first pass of the chain check over one response. -/
def planCovers (log : VaultLog) (ops : List ServedOp) (covers : List SnapshotHeader) : CoverPlan :=
  let counts := log.planCounts covers
  let walks := (log.group ops).1.toList.map fun entry => log.walk entry.1 entry.2 counts
  let links := walks.flatMap fun walk => walk.accepted.map fun op => op.header.dot
  let bodiless := walks.flatMap fun walk =>
    (walk.accepted.filter fun op => needsCover op.body).map ServedOp.header ++
      (walk.reserved.filter fun op => needsCover op.body && counts op.header).map ServedOp.header
  { absorb := indices covers fun cover => log.countsCover cover ∧
      bodiless.any fun h => h.itemId = cover.itemId ∧ cover.covered.covers h.dot
    links
    cut := links.foldl VersionVector.add log.heads
    refused := indices covers fun cover => cover.vaultId = log.vaultId ∧ log.overCutoff cover }

/-- Records what the merge of an item took of a cover. -/
def recordAbsorbed (log : VaultLog) (plan : CoverPlan) (itemId : ItemId) (taken : VersionVector) :
    VaultLog × VersionVector :=
  let recorded := plan.cutOf taken
  ({ log with
    items := log.items.alter itemId fun vv => some ((vv.getD .new).join recorded)
    dirty := log.dirty.insert itemId
    absorbed := log.absorbed.insert itemId }, recorded)

/-! ### The commit -/

/-- A rejected held link, served again. -/
def serveAgain (log : VaultLog) (op : ServedOp) : VaultLog × List Report :=
  let header := op.header
  let dot := header.dot
  match log.link dot with
  | none => (log, [])
  | some link =>
    if link.state ≠ .rejected then (log, [])
    else
      match op.body with
      | .verified =>
        ((log.modifyLink dot.deviceId dot.seq fun link => { link with state := .ready }).readyInsert
          header.itemId dot, [])
      | .waiting =>
        (log.modifyLink dot.deviceId dot.seq fun link => { link with state := .waiting }, [])
      | .rejected | .bodiless =>
        (log, (if op.body = .rejected then [.rejectedBody dot] else []) ++
          if covered log.items header then []
          else [.gap dot.deviceId header.vaultPrevSeq (.uncovered dot)])

/-- Serves again one after the other. -/
def serveAgainAll (log : VaultLog) : List ServedOp → VaultLog × List Report
  | [] => (log, [])
  | op :: ops =>
    let (log, reports) := log.serveAgain op
    let (log, more) := log.serveAgainAll ops
    (log, reports ++ more)

/-- Commits the served headers of one device. -/
def commitDevice (log : VaultLog) (device : DeviceId) (served : List ServedOp) :
    VaultLog × Commit :=
  let walk := log.walk device served fun h => covered log.items h
  let (log, reports) := log.serveAgainAll walk.reserved
  (walk.accepted.foldl (fun log op => log.acceptLink op.header (.fromBody op.body)) log,
    ⟨walk.accepted.map fun op => op.header.dot, walk.reports ++ reports⟩)

/-- Commits device by device. -/
def commitDevices (log : VaultLog) : List (DeviceId × List ServedOp) → VaultLog × Commit
  | [] => (log, ⟨[], []⟩)
  | (device, served) :: groups =>
    let (log, one) := log.commitDevice device served
    let (log, rest) := log.commitDevices groups
    (log, ⟨one.accepted ++ rest.accepted, one.reports ++ rest.reports⟩)

/-- The items that absorbed a cover since the last commit and hold a device past its head. -/
def checkAbsorbed (log : VaultLog) : VaultLog × List Report :=
  ({ log with absorbed := ∅ }, log.absorbed.toList.flatMap fun itemId =>
    match log.items[itemId]? with
    | none => []
    | some vv => (vv.dots.filter fun entry => entry.seq > log.head entry.deviceId).map fun entry =>
        .settledPastHead itemId entry.deviceId entry.seq (log.head entry.deviceId))

/-- The second pass of the chain check over one response, which accepts its links. -/
def commit (log : VaultLog) (ops : List ServedOp) : VaultLog × Commit :=
  let (groups, reports) := log.group ops
  let (log, out) := log.commitDevices groups.toList
  let (log, past) := log.checkAbsorbed
  (log, ⟨out.accepted, reports ++ out.reports ++ past⟩)

/-! ### Verdicts on waiting bodies -/

/-- Moves a waiting link's body to a state. -/
def resolveWaiting (log : VaultLog) (dot : Dot) (state : LinkState) :
    Except BodyError (VaultLog × ItemId) :=
  match log.link dot with
  | none => .error .unknownOp
  | some link =>
    if link.state ≠ .waiting then .error .notWaiting
    else .ok (log.modifyLink dot.deviceId dot.seq fun link => { link with state },
      link.header.itemId)

/-- A waiting body became verifiable and verified. -/
def bodyVerified (log : VaultLog) (dot : Dot) : Except BodyError VaultLog :=
  match log.resolveWaiting dot .ready with
  | .ok (log, itemId) => .ok (log.readyInsert itemId dot)
  | .error e => .error e

/-- A waiting body failed verification. -/
def bodyRejected (log : VaultLog) (dot : Dot) : Except BodyError VaultLog :=
  match log.resolveWaiting dot .rejected with
  | .ok (log, _) => .ok log
  | .error e => .error e

/-! ### Deliveries -/

/-- Hands out the due bodies of an item, whose links the log still holds. -/
def deliverDue (itemId : ItemId) : VaultLog → List Dot → VaultLog × List Delivery
  | log, [] => (log, [])
  | log, dot :: due =>
    match log.link dot with
    | none => deliverDue itemId log due
    | some link =>
      let (log, out) := deliverDue itemId
        (log.modifyLink dot.deviceId dot.seq fun link => { link with state := .delivered }) due
      (log, ⟨dot, itemId, link.header.hlc, true⟩ :: out)

/-- The ready bodies of a device that a vector covers. -/
def coveredSeqs (vv : VersionVector) (device : DeviceId) (seqs : ExtTreeSet ℕ) : List ℕ :=
  seqs.toList.filter fun seq => seq ≤ vv.get device

/-- Delivers the covered ready bodies of one item. -/
def deliverCoveredItem (log : VaultLog) (itemId : ItemId) : VaultLog × List Delivery :=
  match log.items[itemId]?, log.ready[itemId]? with
  | some vv, some perDevice =>
    let due := perDevice.toList.flatMap fun entry =>
      (coveredSeqs vv entry.1 entry.2).filterMap fun seq => Dot.new entry.1 seq
    let left := perDevice.filterMap fun device seqs =>
      let left := (coveredSeqs vv device seqs).foldl ExtTreeSet.erase seqs
      if left.isEmpty then none else some left
    let ready := if left.isEmpty then log.ready.erase itemId else log.ready.insert itemId left
    deliverDue itemId { log with ready } due
  | _, _ => (log, [])

/-- Delivers the covered ready bodies of items, one after the other. -/
def deliverCoveredItems (log : VaultLog) : List ItemId → VaultLog × List Delivery
  | [] => (log, [])
  | itemId :: itemIds =>
    let (log, out) := log.deliverCoveredItem itemId
    let (log, more) := log.deliverCoveredItems itemIds
    (log, out ++ more)

/-- Delivers every verified body whose item's settled vector covers its dot, looking only at the
dirty items. -/
def deliverCovered (log : VaultLog) : VaultLog × List Delivery :=
  deliverCoveredItems { log with dirty := ∅ } log.dirty.toList

/-- Delivers one frontier link as a fresh operation. -/
def deliverFresh (log : VaultLog) (device : DeviceId) (seq : ℕ) (header : OpHeader) : VaultLog :=
  let log := log.modifyLink device seq fun link => { link with state := .delivered }
  let log := log.readyRemove header.itemId header.dot
  let log := log.addSettled header.itemId header.dot
  { log with dirty := log.dirty.insert header.itemId }

/-- Advances a chain's frontier past its settled links, delivering each frontier link whose body is
verified and whose causal context is settled. The argument lists the links from the frontier on.
The source looks for the next unsettled link from the delivered one on, which is settled by then:
that is the search of the links after it. -/
def advance (device : DeviceId) : VaultLog → List (ℕ × Link) → VaultLog × List Delivery
  | log, [] => (log.setFrontier device (min (log.head device + 1) maxU64), [])
  | log, (seq, link) :: links =>
    if Causal.settled log.items link then advance device log links
    else
      let log := log.setFrontier device seq
      if link.state ≠ .ready ∨ (missingContext log.items link.header).isSome then (log, [])
      else
        let (log, out) := advance device (log.deliverFresh device seq link.header) links
        (log, ⟨link.header.dot, link.header.itemId, link.header.hlc, false⟩ :: out)

/-- The frontier of a device's chain. -/
def frontier (log : VaultLog) (device : DeviceId) : ℕ :=
  (log.chains[device]?).elim 0 Chain.frontier

/-- Advances the frontiers of devices, one after the other. -/
def advanceAll (log : VaultLog) : List DeviceId → VaultLog × List Delivery
  | [] => (log, [])
  | device :: devices =>
    let (log, out) := advance device log (log.linksFrom device (log.frontier device))
    let (log, more) := log.advanceAll devices
    (log, out ++ more)

/-- Advances every chain's frontier. -/
def deliverFrontiers (log : VaultLog) : VaultLog × List Delivery := log.advanceAll log.chains.keys

/-- One round: the covered bodies, then the frontiers. -/
def deliverRound (log : VaultLog) : VaultLog × List Delivery :=
  let (log, covered) := log.deliverCovered
  let (log, fresh) := log.deliverFrontiers
  (log, covered ++ fresh)

/-- Repeats rounds until one delivers nothing, at most the given number. -/
def deliverRounds : ℕ → VaultLog → VaultLog × List Delivery
  | 0, log => (log, [])
  | rounds + 1, log =>
    let (log, out) := log.deliverRound
    if out = [] then (log, [])
    else
      let (log, more) := deliverRounds rounds log
      (log, out ++ more)

/-- Every accepted link. -/
def allLinks (log : VaultLog) : List Link :=
  log.chains.toList.flatMap fun entry => entry.2.links.toList.map Prod.snd

/-- The operations to apply now, in order. Every round but the last delivers a link, so the source's
loop ends within one round more than there are links. -/
def takeDeliveries (log : VaultLog) : VaultLog × List Delivery :=
  deliverRounds (log.allLinks.length + 1) log

/-! ### What waits -/

/-- The held links that are not deliverable, on from a chain's first unsettled one. -/
def waitingFrom (items : ExtTreeMap ItemId VersionVector) :
    Option Dot → List Link → List Waiting
  | _, [] => []
  | firstUnsettled, link :: links =>
    if Causal.settled items link ∨ link.state = .revoked then
      waitingFrom items firstUnsettled links
    else
      let dot := link.header.dot
      let reason := match link.state, firstUnsettled with
        | .waiting, _ => some .body
        | .rejected, _ => some .rejected
        | .bodiless, _ => some .uncovered
        | _, some first => some (.chain first)
        | _, none => (missingContext items link.header).map .context
      let rest := waitingFrom items (firstUnsettled.or (some dot)) links
      match reason with
      | some reason => ⟨dot, link.header.itemId, reason⟩ :: rest
      | none => rest

/-- Every held operation that is not deliverable, and why, per device in chain order. -/
def waiting (log : VaultLog) : List Waiting :=
  log.chains.toList.flatMap fun entry => waitingFrom log.items none
    ((entry.2.links.toList.filter fun e => entry.2.frontier ≤ e.1).map Prod.snd)

/-! ### Revocations and reports -/

/-- Rejects an undelivered link past its device's cut-off. -/
def revokeLink (log : VaultLog) (device : DeviceId) (seq : ℕ) (link : Link) : VaultLog :=
  (log.modifyLink device seq fun link => { link with state := .revoked }).readyRemove
    link.header.itemId link.header.dot

/-- Learns that a device is revoked with a cut-off. The lowest cut-off is kept. -/
def learnRevocation (log : VaultLog) (device : DeviceId) (lastAccepted : ℕ) :
    VaultLog × Revocation :=
  let cut := (log.cutoffs[device]?).elim lastAccepted fun c => min c lastAccepted
  let past := (log.linksFrom device (cut + 1)).filter fun entry =>
    entry.2.state ≠ .delivered ∧ entry.2.state ≠ .revoked
  let log := past.foldl (fun log entry => log.revokeLink device entry.1 entry.2)
    { log with cutoffs := log.cutoffs.insert device cut }
  (log, ⟨past.map fun entry => entry.2.header.dot,
    (log.items.toList.filter fun entry => entry.2.get device > cut).map Prod.fst⟩)

/-- Whether an entry of a causal context can still be settled from what arrived. -/
def canSettle (log : VaultLog) (itemId : ItemId) (missing : Dot) : Bool :=
  missing.seq ≤ log.head missing.deviceId ∧
    (log.linksFrom missing.deviceId missing.seq).any fun entry =>
      entry.2.header.itemId = itemId ∧ (entry.2.state = .ready ∨ entry.2.state = .waiting)

/-- What is reported of a waiting operation after a complete fetch. -/
def waitingReport (log : VaultLog) (w : Waiting) : List Report :=
  match w.reason with
  | .body => [.unverifiable w.dot]
  | .rejected | .uncovered =>
    [.gap w.dot.deviceId ((log.header w.dot).elim 0 OpHeader.vaultPrevSeq) (.uncovered w.dot)]
  | .context missing =>
    if log.canSettle w.itemId missing then [] else [.missingPredecessor w.dot missing]
  | .chain _ => []

/-- What a complete fetch leaves missing or held. -/
def completeFetchReports (log : VaultLog) : List Report :=
  ((log.cutoffs.toList.filter fun entry => entry.1 ≠ log.own ∧ log.head entry.1 < entry.2).map
    fun entry => .gap entry.1 (log.head entry.1) (.belowCutoff entry.2)) ++
    log.waiting.flatMap log.waitingReport

end VaultLog

end RizzyVault.Sync.Causal
