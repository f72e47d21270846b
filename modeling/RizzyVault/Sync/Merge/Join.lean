import RizzyVault.Sync.Merge.State

/-!
# The evidence join

The one merge function behind applying an operation and absorbing a snapshot. A key's current
values are the held values of the key that no other held value supersedes: `u` supersedes `v` when
the verified context of `u` covers the dot of `v`. Every other value is history, pruned to
`historyLimit` by rank. A tombstone keeps, per key other than the lifecycle key, the current
values its context does not cover.

## Main definitions

* `HeaderFacts`, `Evidence`: the verified headers and the wrap set a join reads.
* `Supersession`: the per-device index that decides supersession.
* `maximal`, `prune`, `joinInto`, `normalize`, `singleton`.

## References

* `crates/rizzy-sync/src/merge/join.rs`.
-/

open RizzyVault.Core

namespace RizzyVault.Sync

open Std (ExtTreeMap ExtTreeSet)

/-- History kept per field. -/
def historyLimit : ℕ := 50

/-- What the merge keeps of one verified header. -/
structure HeaderFacts where
  hlc : Hlc
  context : VersionVector
  deriving DecidableEq

/-- The local evidence a join reads: the verified header of each dot the replica holds one for,
and the keys of the item's wrap set. -/
structure Evidence where
  headers : ExtTreeMap Dot HeaderFacts
  wrapKeys : ExtTreeSet SymmetricKeyId
  deriving DecidableEq

namespace Evidence

def context (ev : Evidence) (dot : Dot) : Option VersionVector :=
  ev.headers[dot]?.map HeaderFacts.context

def hlc (ev : Evidence) (dot : Dot) : Option Hlc := ev.headers[dot]?.map HeaderFacts.hlc

end Evidence

/-! ### Supersession -/

/-- Per device: the highest context entry among the indexed dots, the dot whose context holds it,
and the highest entry among the other dots. -/
abbrev TopEntries := ExtTreeMap DeviceId (ℕ × Dot × ℕ)

structure Supersession where
  top : TopEntries

namespace Supersession

/-- Enters one context entry of `u`. -/
def addEntry (u : Dot) (top : TopEntries) (entry : Dot) : TopEntries :=
  top.alter entry.deviceId fun
    | none => some (entry.seq, u, 0)
    | some (best, bestDot, second) =>
      if best < entry.seq then some (entry.seq, u, best)
      else some (best, bestDot, max second entry.seq)

/-- Enters the verified context of `u`, if there is one. -/
def addDot (ev : Evidence) (top : TopEntries) (u : Dot) : TopEntries :=
  match ev.context u with
  | none => top
  | some context => context.dots.foldl (addEntry u) top

/-- The index of `values`; values sharing a dot count once. -/
def new (values : List Val) (ev : Evidence) : Supersession :=
  let dots := (ExtTreeSet.ofList (values.map Val.dot)).toList
  ⟨dots.foldl (addDot ev) ∅⟩

/-- Whether some indexed value at another dot supersedes `v`. -/
def covers (s : Supersession) (v : Val) : Bool :=
  match s.top[v.dot.deviceId]? with
  | none => false
  | some (best, bestDot, second) =>
    let bound := if bestDot = v.dot then second else best
    v.dot.seq ≤ bound

end Supersession

/-! ### One key -/

/-- Whether `candidate` is preferred over `held`, two versions of one dot: the version with the
header's clock value first, then the lower clock value, then the lower bytes. -/
def preferred (ev : Evidence) (candidate held : Val) : Bool :=
  let header := ev.hlc candidate.dot
  let key := fun v : Val => toLex (decide (some v.hlc ≠ header), v.hlc)
  match compare (key candidate) (key held) with
  | .lt => true
  | .gt => false
  | .eq => candidate.value < held.value

/-- The entry of a dot once `v`, a version of it, is seen. -/
def keepPreferred (ev : Evidence) (v : Val) : Option Val → Option Val
  | none => some v
  | some held => if preferred ev v held then some v else some held

/-- One version per dot. -/
def byDot (ev : Evidence) (candidates : List Val) : ExtTreeMap Dot Val :=
  candidates.foldl (fun byDot v => byDot.alter v.dot (keepPreferred ev v)) ∅

/-- The values of one key, split into the current values and the rest, each strictly ascending by
dot. -/
def maximal (candidates : List Val) (ev : Evidence) : List Val × List Val :=
  let values := (byDot ev candidates).toList.map Prod.snd
  let index := Supersession.new values ev
  (values.filter fun v => !index.covers v, values.filter fun v => index.covers v)

/-- The newest `historyLimit` entries by rank, in dot order. -/
def prune (history : List Val) : List Val :=
  let kept :=
    if historyLimit < history.length then
      (history.insertionSort fun a b => b.rank ≤ a.rank).take historyLimit
    else history
  kept.insertionSort fun a b => a.dot ≤ b.dot

/-- The values of `key`, none if the register is missing. -/
def lookup (regs : Regs) (key : Bytes) : List Val := regs.getD key []

/-- The values of `key` in each of `regs`. -/
def valuesOf (key : Bytes) (regs : List Regs) : List Val := regs.flatMap fun r => lookup r key

/-- Sets a key, or removes it for an empty list. -/
def setOrRemove (regs : Regs) (key : Bytes) (values : List Val) : Regs :=
  if values.isEmpty then regs.erase key else regs.insert key values

/-! ### Joins -/

/-- Recomputes `key` of a live item from `values`. -/
def setLiveKey (out : Live) (key : Bytes) (values : List Val) (ev : Evidence) : Live :=
  let (current, history) := maximal values ev
  let history := prune history
  ⟨setOrRemove out.regs key current, setOrRemove out.hist key history⟩

/-- The keys of some registers, ascending, each once. -/
def keysOf (regs : List Regs) : List Bytes :=
  (ExtTreeSet.ofList (regs.flatMap fun r => r.keys)).toList

/-- Joins live item `y` into `x`: each key `y` holds is recomputed from both sides. -/
def joinLiveInto (x y : Live) (ev : Evidence) : Live :=
  (keysOf [y.regs, y.hist]).foldl (fun x key =>
    setLiveKey x key (valuesOf key [x.regs, x.hist, y.regs, y.hist]) ev) x

/-- The order that picks the recorded purge: the rank, then a key of the wrap set first, then the
higher key. -/
def purgeOrder (p : PurgeRec) (ev : Evidence) : Rank ×ₗ Bool ×ₗ SymmetricKeyId :=
  toLex (p.rank, toLex (ev.wrapKeys.contains p.keyId, p.keyId))

/-- Recomputes the late values of `key` from `values`; the lifecycle key holds none. -/
def setLateKey (t : Tomb) (key : Bytes) (values : List Val) (ev : Evidence) : Tomb :=
  if key = lifecycleKey then t
  else
    let current := (maximal values ev).1.filter fun v => ¬ t.c.covers v.dot
    { t with late := setOrRemove t.late key current }

/-- Drops the values of each register that fail `p`, and the registers left empty. -/
def retainValues (regs : Regs) (p : Val → Bool) : Regs :=
  (regs.map fun _ values => values.filter p).filter fun _ values => !values.isEmpty

/-- Joins `other` into tombstone `t`. -/
def joinTombInto (t : Tomb) (other : Shape) (ev : Evidence) : Tomb :=
  let (t, sources) : Tomb × List Regs :=
    match other with
    | .live l => (t, [l.regs, l.hist])
    | .tomb u =>
      let purge := if purgeOrder t.purge ev < purgeOrder u.purge ev then u.purge else t.purge
      ({ t with purge := purge, c := t.c.join u.c }, [u.late])
  let t := (keysOf sources).foldl (fun t key =>
    setLateKey t key (lookup t.late key ++ valuesOf key sources) ev) t
  -- A grown `c` also filters the late values of the keys `other` does not hold.
  { t with late := retainValues t.late fun v => ¬ t.c.covers v.dot }

/-- Joins `b` into `a`. -/
def joinInto (a b : State) (ev : Evidence) : State where
  vv := a.vv.join b.vv
  shape :=
    match a.shape, b.shape with
    | .live mine, .live theirs => .live (joinLiveInto mine theirs ev)
    | .tomb tomb, other => .tomb (joinTombInto tomb other ev)
    -- A purge never resurrects: the result is the tombstone with every live value joined in.
    | .live mine, .tomb theirs => .tomb (joinTombInto theirs (.live mine) ev)

/-- The state with every key recomputed from its own values. -/
def normalize (s : State) (ev : Evidence) : State where
  vv := s.vv
  shape :=
    match s.shape with
    | .live l =>
      .live ((keysOf [l.regs, l.hist]).foldl (fun out key =>
        setLiveKey out key (valuesOf key [l.regs, l.hist]) ev) ⟨∅, ∅⟩)
    | .tomb t =>
      .tomb (t.late.toList.foldl (fun out (key, values) => setLateKey out key values ev)
        { t with late := ∅ })

/-- An operation as a one-operation state. -/
def singleton (op : HeldOp) : State where
  vv := VersionVector.new.add op.dot
  shape :=
    match op.lifecycle with
    | .purge => .tomb ⟨⟨op.dot, op.hlc, op.keyId⟩, op.context, ∅⟩
    | .active | .trashed =>
      .live ⟨op.writesWithLifecycle.foldl (fun regs (key, value) =>
        regs.insert key [⟨op.dot, op.hlc, value⟩]) ∅, ∅⟩

end RizzyVault.Sync
