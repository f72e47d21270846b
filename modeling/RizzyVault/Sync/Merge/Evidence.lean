import RizzyVault.Sync.Merge.Join

/-!
# Snapshots are claims

What a replica takes from a verified snapshot, when it refuses one and what it reports. The
covered vector is cut to the recorded headers; a snapshot that contradicts a known body is refused;
what neither side can be shown wrong about is reported as a disagreement.

## Main definitions

* `heads`, `claimCuts`, `cut`: the cut to the recorded headers.
* `contradiction`: the first contradiction with a known body.
* `accountsFor`, `otherVersion`, `disagreements`: the reported disagreements.

## References

* `crates/rizzy-sync/src/merge/evidence.rs`, `crates/rizzy-sync/src/merge.rs`.
-/

open RizzyVault.Core

namespace RizzyVault.Sync

open Std (ExtTreeMap ExtTreeSet)

/-- A covered entry a snapshot claims above the recorded headers. -/
structure ClaimCut where
  deviceId : DeviceId
  verifiedTo : ℕ
  claimedTo : ℕ
  author : DeviceId
  deriving DecidableEq

/-- Why a verified snapshot was refused. -/
inductive Refusal
  | purgeAboveCut
  | valueNotInBody (dot : Dot)
  | valueAtPurgeDot (dot : Dot)
  | writeRecordedAsPurge (dot : Dot)
  | purgeKeyContradicts (dot : Dot)
  | contextNotFromPurges
  deriving DecidableEq

/-- Per device, the highest recorded header. -/
def heads (ev : Evidence) : VersionVector := VersionVector.ofDots ev.headers.keys

/-- The entries of `covered` above `heads`. -/
def claimCuts (covered heads : VersionVector) (author : DeviceId) : List ClaimCut :=
  (covered.dots.filter fun claim => ¬ heads.covers claim).map fun claim =>
    ⟨claim.deviceId, heads.get claim.deviceId, claim.seq, author⟩

/-! ### The cut -/

/-- What the cut leaves of a snapshot. -/
structure Cut where
  state : State
  ignored : List Dot
  deriving DecidableEq

/-- Whether the value carries its recorded header's clock value. -/
def vouched (ev : Evidence) (v : Val) : Bool := ev.hlc v.dot = some v.hlc

/-- The values of `regs` that `vv` covers and a header vouches for. -/
def takeRegs (vv : VersionVector) (ev : Evidence) (regs : Regs) : Regs :=
  retainValues regs fun v => vv.covers v.dot && vouched ev v

/-- The dots of values `vv` covers that no header vouches for. -/
def ignoredDots (vv : VersionVector) (ev : Evidence) (regs : Regs) : List Dot :=
  regs.toList.flatMap fun (_, values) =>
    (values.filter fun v => vv.covers v.dot && !vouched ev v).map Val.dot

/-- Sorted, each once. -/
def sortDedup (dots : List Dot) : List Dot := (ExtTreeSet.ofList dots).toList

/-- Cuts snapshot state `s` to the recorded headers. -/
def cut (s : State) (heads : VersionVector) (ev : Evidence) : Except Refusal Cut :=
  let vv := s.vv.meet heads
  match s.shape with
  | .live l =>
    .ok ⟨⟨vv, .live ⟨takeRegs vv ev l.regs, takeRegs vv ev l.hist⟩⟩,
      sortDedup (ignoredDots vv ev l.regs ++ ignoredDots vv ev l.hist)⟩
  | .tomb t =>
    if ¬ vv.covers t.purge.dot ∨ ev.hlc t.purge.dot ≠ some t.purge.hlc then .error .purgeAboveCut
    else
      let c := t.c.meet vv
      let late := retainValues (takeRegs vv ev t.late) fun v =>
        ¬ c.covers v.dot && v.dot ≠ t.purge.dot
      .ok ⟨⟨vv, .tomb ⟨t.purge, c, late⟩⟩, sortDedup (ignoredDots vv ev t.late)⟩

/-! ### Contradictions -/

/-- Whether `op` wrote `value` to `key`. -/
def wrote (op : HeldOp) (key value : Bytes) : Bool :=
  if key = lifecycleKey then
    match op.lifecycle.registerValue with
    | some marker => value = marker
    | none => false
  else op.writes.any fun (k, v) => k = key && v = value

abbrev Bodies := ExtTreeMap Dot HeldOp

/-- Whether the body at `dot` is known to be a write. -/
def knownWrite (bodies : Bodies) (dot : Dot) : Bool :=
  bodies[dot]?.map HeldOp.kind = some .write

/-- The contradiction of one value with the body at its dot. -/
def contradictionAt (bodies : Bodies) (key : Bytes) (v : Val) : Option Refusal :=
  match bodies[v.dot]? with
  | none => none
  | some op =>
    match op.kind with
    | .purge _ => some (.valueAtPurgeDot v.dot)
    | .write => if wrote op key v.value then none else some (.valueNotInBody v.dot)

/-- The join of the contexts of the recorded headers that satisfy `p`. -/
def joinContexts (ev : Evidence) (p : Dot → Bool) : VersionVector :=
  ev.headers.toList.foldl (fun bound (dot, header) =>
    if p dot then bound.join header.context else bound) VersionVector.new

/-- The first contradiction between the cut snapshot and the known bodies. -/
def contradiction (taken : State) (bodies : Bodies) (ev : Evidence) : Option Refusal :=
  match taken.values.findSome? fun (key, v) => contradictionAt bodies key v with
  | some refusal => some refusal
  | none =>
    match taken.shape with
    | .live _ => none
    | .tomb t =>
      match bodies[t.purge.dot]?.map HeldOp.kind with
      | some .write => some (.writeRecordedAsPurge t.purge.dot)
      | kind =>
        if kind.any fun
            | .purge keyId => keyId ≠ t.purge.keyId
            | .write => false
        then some (.purgeKeyContradicts t.purge.dot)
        else
          -- Each entry of `c` must be reached by the context of a covered operation that is not
          -- known to be a write.
          let bound := joinContexts ev fun dot => taken.vv.covers dot && !knownWrite bodies dot
          match t.c.compare bound with
          | .less | .equal => none
          | .greater | .concurrent => some .contextNotFromPurges

/-! ### Disagreements -/

/-- What a state holds of one key: every version by dot, supersession among the current values,
and the lowest rank of a full history group. -/
structure KeyIndex where
  held : ExtTreeMap Dot (List Val)
  current : Supersession
  prunedBelow : Option Rank

/-- The index of one key from its current values and its history. -/
def keyIndex (cur hist : List Val) (ev : Evidence) : KeyIndex where
  held := (cur ++ hist).foldl (fun held v =>
    held.alter v.dot fun versions => some (versions.getD [] ++ [v])) ∅
  current := Supersession.new cur ev
  prunedBelow := if historyLimit ≤ hist.length then (hist.map Val.rank).min? else none

/-- The index of every key of `s`. -/
def index (s : State) (ev : Evidence) : ExtTreeMap Bytes KeyIndex :=
  let (current, history) : Regs × Regs :=
    match s.shape with
    | .live l => (l.regs, l.hist)
    | .tomb t => (t.late, ∅)
  (keysOf [current, history]).foldl (fun out key =>
    out.insert key (keyIndex (lookup current key) (lookup history key) ev)) ∅

/-- Whether `s`, indexed as `idx`, accounts for value `v` of `key`: held, superseded by a held
current value, pruned below a full history group, or discarded by a purge. -/
def accountsFor (s : State) (idx : ExtTreeMap Bytes KeyIndex) (key : Bytes) (v : Val) : Bool :=
  let entry := idx[key]?
  let held := entry.any fun e => e.held.contains v.dot || e.current.covers v
  match s.shape with
  | .live _ => held || (entry.bind KeyIndex.prunedBelow).any fun floor => v.rank < floor
  | .tomb t => held || key = lifecycleKey || t.c.covers v.dot || v.dot = t.purge.dot

/-- Whether the indexed state holds another version of `v` at its dot. -/
def otherVersion (idx : ExtTreeMap Bytes KeyIndex) (key : Bytes) (v : Val) : Bool :=
  (idx[key]?.bind fun e => e.held[v.dot]?).any fun versions =>
    versions.any fun u => u.hlc ≠ v.hlc || u.value ≠ v.value

/-- The purge context of a tombstone, empty for a live item. -/
def purgeContext (s : State) : VersionVector :=
  match s.shape with
  | .tomb t => t.c
  | .live _ => VersionVector.new

/-- The disagreements on one side: values of `x` that `y` does not account for, other versions,
and values of `y` that the context of `x` discards without a purge to explain it. -/
def disagreementsOf (x y : State) (yIdx : ExtTreeMap Bytes KeyIndex) (bodies : Bodies)
    (ev : Evidence) : List Dot :=
  let omitted := x.values.flatMap fun (key, v) =>
    (if y.vv.covers v.dot && !accountsFor y yIdx key v then [v.dot] else []) ++
      if otherVersion yIdx key v then [v.dot] else []
  let explain := joinContexts ev fun dot =>
    x.vv.covers dot && !y.vv.covers dot && !knownWrite bodies dot
  let discarded := y.values.filter fun (key, v) =>
    !(key = lifecycleKey || !(purgeContext x).covers v.dot || (purgeContext y).covers v.dot) &&
      !explain.covers v.dot
  omitted ++ discarded.map fun (_, v) => v.dot

/-- The disagreement about the purges themselves. -/
def purgeDisagreement (sLocal taken : State) : List Dot :=
  match sLocal.shape, taken.shape with
  | .live l, .tomb t =>
    if sLocal.vv.covers t.purge.dot && !l.regs.isEmpty then [t.purge.dot] else []
  | .tomb t, .live l =>
    if taken.vv.covers t.purge.dot && !l.regs.isEmpty then [t.purge.dot] else []
  | .tomb a, .tomb b =>
    if a.purge.dot = b.purge.dot && a.purge ≠ b.purge then [a.purge.dot] else []
  | .live _, .live _ => []

/-- The dots on which the replica and the cut snapshot disagree, ascending, each once. -/
def disagreements (sLocal taken : State) (bodies : Bodies) (ev : Evidence) : List Dot :=
  sortDedup (disagreementsOf sLocal taken (index taken ev) bodies ev ++
    disagreementsOf taken sLocal (index sLocal ev) bodies ev ++ purgeDisagreement sLocal taken)

end RizzyVault.Sync
