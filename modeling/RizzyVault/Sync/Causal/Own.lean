import RizzyVault.Sync.Causal.Calls

/-!
# The own chain of the causal log

Writing, uploading and acknowledging this device's operations in one vault, what a stale-epoch
answer re-issues, and whether the server is behind this device.

## Main definitions

* `OwnError`, `StalePlan`, `Behind`, `ServerView`.
* `VaultLog.recordOwnOp`, `VaultLog.observeGeneration`, `VaultLog.recordSent`,
  `VaultLog.acknowledge`, `VaultLog.recordAnswered`, `VaultLog.mayHaveBeenServed`,
  `VaultLog.stalePlan`, `VaultLog.reissueOwnOp`, `VaultLog.serverBehind`.
* `VaultLog.Call`, `VaultLog.call`, `VaultLog.run`: every call that changes a log, and runs of them.

## References

* `crates/rizzy-sync/src/causal/own.rs`, `crates/rizzy-sync/src/causal/behind.rs`.
-/

namespace RizzyVault.Sync.Causal

open Std (ExtTreeMap ExtTreeSet)

/-- Why a call on the own chain is refused. -/
inductive OwnError
  | wrongVault
  | notOwnDevice
  | brokenChain (head : ℕ)
  | contextNotSettled
  | unknownOp
  | acknowledged
  | mayHaveBeenServed
  | notAReissue
  | noGeneration
  | notStale
  deriving DecidableEq

/-- The own operations a stale-epoch answer re-issues and those it re-publishes. -/
structure StalePlan where
  reissue : List Dot
  republish : List Dot
  deriving DecidableEq

namespace VaultLog

/-! ### Writing -/

/-- What comes before the next own operation. -/
def ownVaultPrevSeq (log : VaultLog) : ℕ := log.head log.own

/-- The held header of an own link. -/
def ownLink (log : VaultLog) (seq : ℕ) : Option OpHeader :=
  (Dot.new log.own seq).bind log.header

/-- Refuses a header of another vault or device. -/
def checkOwn (log : VaultLog) (header : OpHeader) : Except OwnError Unit :=
  if header.vaultId ≠ log.vaultId then .error .wrongVault
  else if header.dot.deviceId ≠ log.own then .error .notOwnDevice
  else .ok ()

/-- Records an operation this device wrote, settled at once. -/
def recordOwnOp (log : VaultLog) (header : OpHeader) : Except OwnError VaultLog :=
  match log.checkOwn header with
  | .error e => .error e
  | .ok () =>
    let head := log.ownVaultPrevSeq
    if header.vaultPrevSeq ≠ head ∨ header.dot.seq ≤ head then .error (.brokenChain head)
    else if (missingContext log.items header).isSome then .error .contextNotSettled
    else .ok ((log.addSettled header.itemId header.dot).acceptLink header .delivered)

/-! ### Uploading -/

/-- The own operations not yet acknowledged. -/
def unacknowledged (log : VaultLog) : List OpHeader :=
  (log.chain log.own).filter fun h => h.dot.seq > log.uploads.acked

/-- Notes the restore generation an answer carried. -/
def observeGeneration (log : VaultLog) (generation : RestoreGeneration) : VaultLog :=
  { log with uploads := { log.uploads with lastGeneration := some generation } }

/-- Notes that an own operation is being sent. -/
def recordSent (log : VaultLog) (seq : ℕ) : Except OwnError VaultLog :=
  match log.ownLink seq with
  | none => .error .unknownOp
  | some _ =>
    if seq ≤ log.uploads.acked then .ok log
    else
      match log.uploads.lastGeneration with
      | none => .error .noGeneration
      | some generation => .ok { log with uploads := { log.uploads with
          unanswered := log.uploads.unanswered.insertIfNew seq generation } }

/-- The server stored an own operation, and so every own link before it. -/
def acknowledge (log : VaultLog) (seq : ℕ) : Except OwnError VaultLog :=
  match log.ownLink seq with
  | none => .error .unknownOp
  | some _ =>
    let acked := max log.uploads.acked seq
    .ok { log with uploads := { log.uploads with
      acked
      unanswered := log.uploads.unanswered.filterMap fun s g => if acked < s then some g else none } }

/-- The server answered a send without storing the operation. -/
def recordAnswered (log : VaultLog) (seq : ℕ) (generation : RestoreGeneration) :
    Except OwnError VaultLog :=
  match log.ownLink seq with
  | none => .error .unknownOp
  | some _ =>
    if log.uploads.unanswered[seq]? = some generation then
      .ok { log with uploads := { log.uploads with
        unanswered := log.uploads.unanswered.erase seq } }
    else .ok log

/-- Whether the server may have stored, and served, an own operation. -/
def mayHaveBeenServed (log : VaultLog) (seq : ℕ) : Prop :=
  seq ≤ log.uploads.acked ∨
    ∃ g ∈ log.uploads.unanswered[seq]?, some g ≠ log.uploads.lastGeneration

instance (log : VaultLog) : DecidablePred log.mayHaveBeenServed :=
  fun seq => inferInstanceAs (Decidable (seq ≤ log.uploads.acked ∨
    ∃ g ∈ log.uploads.unanswered[seq]?, some g ≠ log.uploads.lastGeneration))

/-- What a stale-epoch answer to an own operation re-issues and re-publishes. -/
def stalePlan (log : VaultLog) (rejected currentEpoch : ℕ) : Except OwnError StalePlan :=
  match log.ownLink rejected with
  | none => .error .unknownOp
  | some link =>
    if link.vaultKeyEpoch ≥ currentEpoch then .error .notStale
    else
      let stale := (log.chain log.own).filter fun h =>
        h.dot.seq ≥ rejected ∧ h.vaultKeyEpoch < currentEpoch
      .ok {
        reissue := (stale.filter fun h => ¬ log.mayHaveBeenServed h.dot.seq).map OpHeader.dot
        republish := (stale.filter fun h => log.mayHaveBeenServed h.dot.seq).map OpHeader.dot }

/-- Holds a re-issued own operation in place of the original. -/
def reissueOwnOp (log : VaultLog) (header : OpHeader) : Except OwnError VaultLog :=
  match log.checkOwn header with
  | .error e => .error e
  | .ok () =>
    let seq := header.dot.seq
    match log.ownLink seq with
    | none => .error .unknownOp
    | some original =>
      if seq ≤ log.uploads.acked then .error .acknowledged
      else if log.mayHaveBeenServed seq then .error .mayHaveBeenServed
      else
        let expected := { original with
          vaultKeyEpoch := header.vaultKeyEpoch, vaultKeyEpoch_lt := header.vaultKeyEpoch_lt }
        if expected ≠ header ∨ header.vaultKeyEpoch ≤ original.vaultKeyEpoch then
          .error .notAReissue
        else
          let log := log.modifyLink log.own seq fun link => { link with header }
          .ok { log with uploads := { log.uploads with
            unanswered := log.uploads.unanswered.erase seq } }

/-! ### Runs -/

/-- The calls that change a log. -/
inductive Call
  | recordAbsorbed (plan : CoverPlan) (itemId : ItemId) (taken : VersionVector)
  | commit (ops : List ServedOp)
  | bodyVerified (dot : Dot)
  | bodyRejected (dot : Dot)
  | takeDeliveries
  | learnRevocation (device : DeviceId) (lastAccepted : ℕ)
  | recordOwnOp (header : OpHeader)
  | observeGeneration (generation : RestoreGeneration)
  | recordSent (seq : ℕ)
  | acknowledge (seq : ℕ)
  | recordAnswered (seq : ℕ) (generation : RestoreGeneration)
  | reissueOwnOp (header : OpHeader)

/-- What a call that can be refused leaves. -/
def orSame {ε : Type} (log : VaultLog) : Except ε VaultLog → VaultLog
  | .ok log' => log'
  | .error _ => log

/-- What a call leaves, and what it hands out. -/
def call (log : VaultLog) : Call → VaultLog × List Delivery
  | .recordAbsorbed plan itemId taken => ((log.recordAbsorbed plan itemId taken).1, [])
  | .commit ops => ((log.commit ops).1, [])
  | .bodyVerified dot => (log.orSame (log.bodyVerified dot), [])
  | .bodyRejected dot => (log.orSame (log.bodyRejected dot), [])
  | .takeDeliveries => log.takeDeliveries
  | .learnRevocation device lastAccepted => ((log.learnRevocation device lastAccepted).1, [])
  | .recordOwnOp header => (log.orSame (log.recordOwnOp header), [])
  | .observeGeneration generation => (log.observeGeneration generation, [])
  | .recordSent seq => (log.orSame (log.recordSent seq), [])
  | .acknowledge seq => (log.orSame (log.acknowledge seq), [])
  | .recordAnswered seq generation => (log.orSame (log.recordAnswered seq generation), [])
  | .reissueOwnOp header => (log.orSame (log.reissueOwnOp header), [])

/-- What calls leave one after the other, and everything they hand out. -/
def run (log : VaultLog) : List Call → VaultLog × List Delivery
  | [] => (log, [])
  | c :: calls =>
    let (log, out) := log.call c
    let (log, more) := log.run calls
    (log, out ++ more)

end VaultLog

/-! ### A server behind this device -/

/-- What the server serves. -/
structure ServerView where
  stateSeq : ℕ
  heads : VersionVector
  lacksWrap : Bool

/-- One condition under which the server is behind this device. -/
inductive Behind
  | stateSeq (server accepted : ℕ)
  | head (device : DeviceId) (server localSeq : ℕ)
  | ownHead (server acknowledged : ℕ)
  | wrap
  deriving DecidableEq

namespace VaultLog

/-- A sequence number, capped at the known cut-off of its device. -/
def capped (log : VaultLog) (device : DeviceId) (seq : ℕ) : ℕ :=
  (log.cutoff device).elim seq fun c => min seq c

/-- The devices with a chain or a settled operation, but for the own one. -/
def otherDevices (log : VaultLog) : ExtTreeSet DeviceId :=
  .ofList ((log.chains.keys ++ log.items.values.flatMap fun vv => vv.dots.map Dot.deviceId).filter
    fun d => d ≠ log.own)

/-- How far this device knows another device's operations, capped at its cut-off. -/
def localSeq (log : VaultLog) (device : DeviceId) : ℕ :=
  log.capped device
    (max (log.head device) ((log.items.values.map fun vv => vv.get device).foldr max 0))

/-- Every condition under which the server is behind this device. -/
def serverBehind (log : VaultLog) (acceptedStateSeq : ℕ) (view : ServerView) : List Behind :=
  (if view.stateSeq < acceptedStateSeq then [.stateSeq view.stateSeq acceptedStateSeq] else []) ++
    ((log.otherDevices.toList.filter fun d => view.heads.get d < log.localSeq d).map fun d =>
      .head d (view.heads.get d) (log.localSeq d)) ++
    (let acknowledged := log.capped log.own log.uploads.acked
    if view.heads.get log.own < acknowledged then
      [.ownHead (view.heads.get log.own) acknowledged]
    else []) ++
    if view.lacksWrap then [.wrap] else []

end VaultLog

end RizzyVault.Sync.Causal
