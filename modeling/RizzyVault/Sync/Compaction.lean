import RizzyVault.Sync.VersionVector

/-!
# Server compaction

The rules the server runs on one item's stored records: the clamp of a snapshot to the stored
heads, the bodies a worker run deletes (R1) and the snapshots it drops (R3), the covers a fetch
serves, and the checks a snapshot and a healing request pass before they are stored.

## Main definitions

* `RetainedSnapshot`, `Body`, `OpDot`, `WorkerPlan`, `CoverSelection`.
* `clamp`, `planWorker`, `selectCovers`, `checkSnapshot`, `checkHealingRequest`.

## References

* `crates/rizzy-sync/src/compaction.rs`.
-/

namespace RizzyVault.Sync

open Std (ExtTreeMap)

/-- One retained snapshot of the item, as the rules see it. -/
structure RetainedSnapshot where
  storeSeq : ℕ
  clamped : VersionVector
  author : DeviceId
  deriving DecidableEq

namespace RetainedSnapshot

/-- Whether the snapshot covers the operation at `dot`. -/
def covers (s : RetainedSnapshot) (dot : Dot) : Prop := s.clamped.covers dot

instance (s : RetainedSnapshot) : DecidablePred s.covers :=
  inferInstanceAs (DecidablePred s.clamped.covers)

end RetainedSnapshot

/-- Whether the server holds an operation's body. -/
inductive Body
  | held
  | absent
  deriving DecidableEq

/-- One operation of the item: its dot and whether its body is held. -/
structure OpDot where
  dot : Dot
  body : Body
  deriving DecidableEq

/-- What one worker run does to one item. -/
structure WorkerPlan where
  deleteBodies : List Dot
  dropSnapshots : List ℕ
  deriving DecidableEq

/-- The covers of one item for one page, and the headers no retained snapshot covers. -/
structure CoverSelection where
  covers : List ℕ
  uncovered : List Dot
  deriving DecidableEq

/-- The input rows are inconsistent. -/
inductive InputError
  | duplicateStoreSeq (seq : ℕ)
  | duplicateOp (dot : Dot)
  deriving DecidableEq

/-- Whether the author's certificate has expired at the server's clock. -/
inductive CertificateExpiry
  | unexpired
  | expired
  deriving DecidableEq

/-- The vault's chains when a snapshot is stored: every head, and the cut-off of every revoked
device. -/
structure VaultChains where
  heads : VersionVector
  cutoffs : ExtTreeMap DeviceId ℕ

/-- Why the server refuses a snapshot. -/
inductive SnapshotRefusal
  | authorRevoked
  | authorExpired
  | authorEntryAboveHead
  | claimsUnheldDots (deviceId : DeviceId)
  deriving DecidableEq

/-- The lowest bodiless header of a healing request that no snapshot covers. -/
structure UncoveredHeader where
  dot : Dot
  deriving DecidableEq

/-- The clamped vector of a snapshot: the covered vector, at most the heads. -/
def clamp (covered heads : VersionVector) : VersionVector := covered.meet heads

/-! ### The worker -/

/-- The first store sequence that two neighbours share. -/
def repeatedStoreSeq : List RetainedSnapshot → Option ℕ
  | a :: b :: rest => if a.storeSeq = b.storeSeq then some a.storeSeq else repeatedStoreSeq (b :: rest)
  | _ => none

/-- The snapshots by store sequence, oldest first. -/
def byStoreSeq (snapshots : List RetainedSnapshot) : Except InputError (List RetainedSnapshot) :=
  let ordered := snapshots.mergeSort fun a b => a.storeSeq ≤ b.storeSeq
  match repeatedStoreSeq ordered with
  | some seq => .error (.duplicateStoreSeq seq)
  | none => .ok ordered

/-- The operations keyed by dot. -/
def indexOps (ops : List OpDot) : Except InputError (ExtTreeMap Dot Body) :=
  ops.foldlM (fun indexed op =>
    if op.dot ∈ indexed then .error (.duplicateOp op.dot)
    else .ok (indexed.insert op.dot op.body)) ∅

/-- The distinct authors of the snapshots that cover `dot`. -/
def coverAuthors (ordered : List RetainedSnapshot) (dot : Dot) : Finset DeviceId :=
  ((ordered.filter fun s => s.covers dot).map RetainedSnapshot.author).toFinset

/-- R1: the held bodies that the older of the two newest snapshots covers and that snapshots by two
authors cover, ascending by dot. -/
def r1Deletions (ordered : List RetainedSnapshot) (ops : ExtTreeMap Dot Body) : List Dot :=
  match ordered.reverse[1]? with
  | none => []
  | some older =>
    (ops.toList.filter fun e =>
      e.2 = .held ∧ older.covers e.1 ∧ 2 ≤ (coverAuthors ordered e.1).card).map Prod.fst

/-- Per author, how many retained snapshots cover a header. -/
abbrev CoverCounts := ExtTreeMap DeviceId ℕ

/-- Counts one more cover by `author`. -/
def CoverCounts.count (byAuthor : CoverCounts) (author : DeviceId) : CoverCounts :=
  byAuthor.insert author (byAuthor.getD author 0 + 1)

/-- Counts one cover by `author` less; an author without covers has no entry. -/
def CoverCounts.uncount (byAuthor : CoverCounts) (author : DeviceId) : CoverCounts :=
  byAuthor.alter author fun
    | some n => if n - 1 = 0 then none else some (n - 1)
    | none => none

/-- Whether dropping one covering snapshot by `author` would lower the number of authors that cover
a header to fewer than two. -/
def lowersBelowTwo (byAuthor : CoverCounts) (author : DeviceId) : Bool :=
  let held := byAuthor.size
  let without := if byAuthor[author]? = some 1 then held - 1 else held
  without < 2 ∧ without < held

/-- The covers of every bodiless header that some retained snapshot covers. -/
def countCovers (ordered : List RetainedSnapshot) (bodiless : List Dot) :
    ExtTreeMap Dot CoverCounts :=
  bodiless.foldl (fun covers dot =>
    (ordered.filter fun s => s.covers dot).foldl (fun covers s =>
      covers.insert dot ((covers.getD dot ∅).count s.author)) covers) ∅

/-- One step of R3: the snapshot is dropped unless a bodiless header needs it. -/
def r3Step (acc : ExtTreeMap Dot CoverCounts × List ℕ) (s : RetainedSnapshot) :
    ExtTreeMap Dot CoverCounts × List ℕ :=
  if acc.1.toList.any fun e => s.covers e.1 && lowersBelowTwo e.2 s.author then acc
  else
    (acc.1.map fun dot byAuthor => if s.covers dot then byAuthor.uncount s.author else byAuthor,
      acc.2 ++ [s.storeSeq])

/-- R3: the store sequences of the snapshots to drop, oldest first. The two newest stay. -/
def r3Drops (ordered : List RetainedSnapshot) (bodiless : List Dot) : List ℕ :=
  if ordered.length < 2 then []
  else
    ((ordered.take (ordered.length - 2)).foldl r3Step (countCovers ordered bodiless, [])).2

/-- R1 then R3 for one item; R3 counts the bodies R1 deletes in this run as bodiless. -/
def planWorker (snapshots : List RetainedSnapshot) (ops : List OpDot) :
    Except InputError WorkerPlan := do
  let ordered ← byStoreSeq snapshots
  let ops ← indexOps ops
  let deleteBodies := r1Deletions ordered ops
  let absent := (ops.toList.filter fun e => e.2 = .absent).map Prod.fst
  let bodiless := Std.ExtTreeSet.ofList (absent ++ deleteBodies)
  return ⟨deleteBodies, r3Drops ordered bodiless.toList⟩

/-! ### Covers of a fetch -/

/-- One step of the selection: the snapshot is added when it covers a header that the snapshots
added so far cover by no author, or by one author other than its own. -/
def selectStep (headers : List Dot)
    (acc : ExtTreeMap Dot (Finset DeviceId) × List ℕ) (s : RetainedSnapshot) :
    ExtTreeMap Dot (Finset DeviceId) × List ℕ :=
  let adds := headers.any fun dot => s.covers dot &&
    match acc.1[dot]? with
    | none => true
    | some authors => authors.card = 1 && s.author ∉ authors
  if adds then
    ((headers.filter fun dot => s.covers dot).foldl (fun authors dot =>
      authors.insert dot (insert s.author (authors.getD dot ∅))) acc.1, acc.2 ++ [s.storeSeq])
  else acc

/-- The covers of one item for one page, newest first. -/
def selectCovers (snapshots : List RetainedSnapshot) (bodiless : List Dot) :
    Except InputError CoverSelection := do
  let ordered ← byStoreSeq snapshots
  let headers := (Std.ExtTreeSet.ofList bodiless).toList
  let (authors, covers) := ordered.reverse.foldl (selectStep headers) (∅, [])
  return ⟨covers, headers.filter fun dot => dot ∉ authors⟩

/-! ### What is accepted -/

/-- Whether the server accepts a snapshot, before storing it. -/
def checkSnapshot (author : DeviceId) (covered : VersionVector) (chains : VaultChains)
    (expiry : CertificateExpiry) : Except SnapshotRefusal Unit :=
  if author ∈ chains.cutoffs then .error .authorRevoked
  else if expiry = .expired then .error .authorExpired
  else if chains.heads.get author < covered.get author then .error .authorEntryAboveHead
  else
    let counted : Dot → ℕ := fun entry =>
      match chains.cutoffs[entry.deviceId]? with
      | some cutoff => min entry.seq cutoff
      | none => entry.seq
    match covered.dots.find? fun entry => chains.heads.get entry.deviceId < counted entry with
    | some entry => .error (.claimsUnheldDots entry.deviceId)
    | none => .ok ()

/-- Whether every bodiless header a healing request stores of one item has a cover. -/
def checkHealingRequest (snapshots : List RetainedSnapshot) (storedBodiless : List Dot) :
    Except UncoveredHeader Unit :=
  let uncovered := storedBodiless.filter fun dot => ¬ snapshots.any fun s => s.covers dot
  match uncovered.min? with
  | some dot => .error ⟨dot⟩
  | none => .ok ()

theorem checkHealingRequest_eq_ok_iff {snapshots : List RetainedSnapshot} {dots : List Dot}
    {u : Unit} : checkHealingRequest snapshots dots = .ok u ↔
      ∀ dot ∈ dots, ∃ s ∈ snapshots, s.covers dot := by
  unfold checkHealingRequest
  dsimp only
  split
  · rename_i dot hmin
    have hmem := List.mem_filter.mp (List.min?_mem hmin)
    simp only [reduceCtorEq, false_iff, not_forall]
    exact ⟨dot, hmem.1, by simpa using hmem.2⟩
  · rename_i hmin
    rw [List.min?_eq_none_iff, List.filter_eq_nil_iff] at hmin
    simp only [true_iff]
    simpa using hmin

end RizzyVault.Sync
