import RizzyVault.Client.Store.Index

/-!
# Runs of a cache file

The host passes every changeset to the floors and writes it when they admit it; a changeset they
refuse is not written. A run is a sequence of changesets from an empty cache, and what it writes is
the sequence of the writes of the admitted ones.

## Main definitions

* `Cache`, `Cache.step`, `Cache.run`: a file with its index, and what the host does.
* `Cache.written`: the writes of a run.
* `Walk`: a sequence of moves.
* `OwnDots`: what the index holds of the device's own ops.

## Main results

* `Cache.step_cases`: what a changeset does.
* `Cache.walk_run`, `Cache.rows_run`: a run is the walk of its writes, and its rows are what the
  executor makes of them.
* `Cache.index_run`, `Cache.ownDots_run`: what holds in every state of a run.

## References

* `crates/rizzy-client/src/store/floors.rs`, `crates/rizzy-client/src/store/rows.rs`.
-/

open RizzyVault.Core RizzyVault.Lib

namespace RizzyVault.Client.Store

open Std (ExtTreeMap)

/-! ### What a host does -/

/-- A cache file and the index kept beside it. -/
structure Cache where
  floors : Floors
  rows : CacheRows

variable (deviceRecord : Bytes → Option (Id16 × Id16))

namespace Cache

def empty : Cache := ⟨.empty, .empty⟩

/-- Writes the changeset if the floors admit it. -/
def step (cache : Cache) (changeset : Changeset) : Cache :=
  match cache.floors.admit deviceRecord changeset with
  | (.ok (), floors) => ⟨floors, cache.rows.apply changeset⟩
  | (.error _, floors) => ⟨floors, cache.rows⟩

/-- Whether the floors admit the changeset. -/
def admits (cache : Cache) (changeset : Changeset) : Bool :=
  match Prod.fst <| cache.floors.admit deviceRecord changeset with
  | .ok () => true
  | .error _ => false

def runFrom (cache : Cache) (changesets : List Changeset) : Cache :=
  changesets.foldl (step deviceRecord) cache

/-- The cache after a sequence of changesets. -/
def run (changesets : List Changeset) : Cache := runFrom deviceRecord empty changesets

/-- The writes of the admitted changesets, in order. -/
def writtenFrom (cache : Cache) : List Changeset → List Write
  | [] => []
  | changeset :: changesets =>
    (if cache.admits deviceRecord changeset then changeset else []) ++
      writtenFrom (cache.step deviceRecord changeset) changesets

def written (changesets : List Changeset) : List Write := writtenFrom deviceRecord empty changesets

variable {deviceRecord} {cache : Cache} {changeset : Changeset}

/-- A refused changeset changes nothing; an admitted one leads to what its writes commit. -/
theorem step_cases (deviceRecord : Bytes → Option (Id16 × Id16)) (cache : Cache)
    (changeset : Changeset) :
    (cache.admits deviceRecord changeset = false ∧ cache.step deviceRecord changeset = cache) ∨
      ∃ next, cache.admits deviceRecord changeset = true ∧
        cache.floors.pass deviceRecord changeset = .ok next ∧
        cache.step deviceRecord changeset = ⟨next.commit, cache.rows.apply changeset⟩ := by
  unfold admits step Floors.admit
  cases cache.floors.pass deviceRecord changeset with
  | error e => exact .inl ⟨rfl, rfl⟩
  | ok next => exact .inr ⟨next, rfl, rfl, rfl⟩

theorem runFrom_append (cache : Cache) (changesets more : List Changeset) :
    runFrom deviceRecord cache (changesets ++ more) =
      runFrom deviceRecord (runFrom deviceRecord cache changesets) more := List.foldl_append

end Cache

/-! ### Walks -/

/-- The moves of a sequence of writes, each under a counter of `C`. -/
inductive Walk (C : Set U64) : Floors → List Write → Floors → Prop
  | nil (f : Floors) : Walk C f [] f
  | cons {counter : U64} {f f' f'' : Floors} {w : Write} {ws : List Write} (hcounter : counter ∈ C)
      (hw : Moves counter f w f') (hws : Walk C f' ws f'') : Walk C f (w :: ws) f''

namespace Walk

variable {C D : Set U64} {f f' f'' : Floors} {ws ws' : List Write} {rows : CacheRows}

theorem mono (hCD : C ⊆ D) (h : Walk C f ws f') : Walk D f ws f' := by
  induction h with
  | nil f => exact .nil f
  | cons hcounter hw _ ih => exact .cons (hCD hcounter) hw ih

theorem append (h : Walk C f ws f') (h' : Walk C f' ws' f'') : Walk C f (ws ++ ws') f'' := by
  induction h with
  | nil => exact h'
  | cons hcounter hw _ ih => exact .cons hcounter hw (ih h')

/-- The state before a write of the walk. -/
theorem split {pre post : List Write} {w : Write} (h : Walk C f (pre ++ w :: post) f') :
    ∃ counter ∈ C, ∃ g g', Walk C f pre g ∧ Moves counter g w g' ∧ Walk C g' post f' := by
  induction pre generalizing f with
  | nil =>
    cases h with
    | cons hcounter hw hws => exact ⟨_, hcounter, f, _, .nil f, hw, hws⟩
  | cons v pre ih =>
    cases h with
    | cons hv hmove hws =>
      obtain ⟨counter, hcounter, g, g', hpre, hw, hpost⟩ := ih hws
      exact ⟨counter, hcounter, g, g', .cons hv hmove hpre, hw, hpost⟩

theorem index (h : Walk C f ws f') (hf : Index f rows) : Index f' (rows.apply ws) := by
  induction h generalizing rows with
  | nil => exact hf
  | cons _ hw _ ih => exact ih (hf.step hw)

end Walk

theorem CacheRows.apply_append (rows : CacheRows) (ws ws' : List Write) :
    rows.apply (ws ++ ws') = (rows.apply ws).apply ws' := List.foldl_append

/-- The writes of an admitted changeset are a walk under the counter stored before it. -/
theorem walk_of_checks {deviceRecord : Bytes → Option (Id16 × Id16)} {changeset : Changeset}
    {p p' : Pending} (h : changeset.foldlM (Pending.check deviceRecord) p = .ok p') :
    Walk {p.base.nextDeviceSeq} p.commit changeset p'.commit ∧ p'.base = p.base := by
  induction changeset generalizing p with
  | nil =>
    cases h
    exact ⟨.nil _, rfl⟩
  | cons w changeset ih =>
    rw [List.foldlM_cons] at h
    obtain ⟨q, hq, h⟩ := except_bind_eq_ok.mp h
    obtain ⟨hw, hbase⟩ := Pending.check_moves hq
    obtain ⟨hws, hbase'⟩ := ih h
    rw [hbase] at hws
    exact ⟨.cons rfl hw hws, hbase'.trans hbase⟩

/-- What a passed changeset leads to. -/
theorem Floors.pass_eq_ok {deviceRecord : Bytes → Option (Id16 × Id16)} {floors : Floors}
    {changeset : Changeset} {next : Pending} (h : floors.pass deviceRecord changeset = .ok next) :
    Walk {floors.nextDeviceSeq} floors changeset next.commit ∧ next.base = floors ∧
      next.finish = .ok () := by
  obtain ⟨q, hq, h⟩ := except_bind_eq_ok.mp h
  obtain ⟨⟨⟩, hfinish, h⟩ := except_bind_eq_ok.mp h
  cases h
  obtain ⟨hwalk, hbase⟩ := walk_of_checks hq
  rw [Pending.commit_start] at hwalk
  exact ⟨hwalk, hbase, hfinish⟩

namespace Cache

variable {deviceRecord}

theorem walk_runFrom (cache : Cache) (changesets : List Changeset) :
    Walk Set.univ cache.floors (writtenFrom deviceRecord cache changesets)
      (runFrom deviceRecord cache changesets).floors := by
  induction changesets generalizing cache with
  | nil => exact .nil _
  | cons changeset changesets ih =>
    rw [writtenFrom, runFrom, List.foldl_cons]
    have hrest := ih (cache.step deviceRecord changeset)
    rcases step_cases deviceRecord cache changeset with ⟨hno, hstep⟩ | ⟨next, hyes, hpass, hstep⟩
    · rw [hno, hstep]
      rw [hstep] at hrest
      exact hrest
    · rw [hyes, hstep]
      rw [hstep] at hrest
      exact ((Floors.pass_eq_ok hpass).1.mono (Set.subset_univ _)).append hrest

theorem rows_runFrom (cache : Cache) (changesets : List Changeset) :
    (runFrom deviceRecord cache changesets).rows =
      cache.rows.apply (writtenFrom deviceRecord cache changesets) := by
  induction changesets generalizing cache with
  | nil => rfl
  | cons changeset changesets ih =>
    have hrest := ih (cache.step deviceRecord changeset)
    rw [writtenFrom, runFrom, List.foldl_cons, CacheRows.apply_append]
    refine hrest.trans ?_
    rcases step_cases deviceRecord cache changeset with ⟨hno, hstep⟩ | ⟨next, hyes, hpass, hstep⟩
    · rw [hno, hstep]
      rfl
    · rw [hyes, hstep]
      rfl

theorem walk_run (deviceRecord : Bytes → Option (Id16 × Id16)) (changesets : List Changeset) :
    Walk Set.univ .empty (written deviceRecord changesets) (run deviceRecord changesets).floors :=
  walk_runFrom empty changesets

theorem rows_run (changesets : List Changeset) :
    (run deviceRecord changesets).rows =
      CacheRows.empty.apply (written deviceRecord changesets) := rows_runFrom empty changesets

/-- In every state of a run the index holds what the rules read of the rows. -/
theorem index_run (deviceRecord : Bytes → Option (Id16 × Id16)) (changesets : List Changeset) :
    Index (run deviceRecord changesets).floors (run deviceRecord changesets).rows := by
  rw [rows_run]
  exact (walk_run deviceRecord changesets).index index_empty

end Cache

/-! ### Own ops -/

theorem advanceOwn_eq_ok {held next : ℤ} {hasGeneration : Bool}
    (h : advanceOwn held next hasGeneration = .ok ()) :
    (held = ownUnsent ∨ held = ownSent) ∧ next = ownSent ∨
      (held = ownSent ∨ held = ownAcknowledged) ∧ next = ownAcknowledged := by
  unfold advanceOwn at h
  split_ifs at h with h₁ h₂
  · exact .inl ⟨h₁.1, h₁.2.1⟩
  · exact .inr h₂

theorem unsent_ne_served : ownUnsent ≠ ownServed := by decide

/-- Only an own row moves, and it stays one. -/
theorem ne_served_of_advanceOwn {held next : ℤ} {hasGeneration : Bool}
    (h : advanceOwn held next hasGeneration = .ok ()) : held ≠ ownServed ∧ next ≠ ownServed := by
  rcases advanceOwn_eq_ok h with ⟨rfl | rfl, rfl⟩ | ⟨rfl | rfl, rfl⟩
  all_goals exact ⟨by decide, by decide⟩

namespace Moves

variable {counter : U64} {f f' : Floors} {w : Write}

/-- An op after a move was held before it, own or not alike, or is new. -/
theorem op_cases (hw : Moves counter f w f') {key : OpKey} {floor' : OpFloor}
    (h : f'.ops[key]? = some floor') :
    (∃ floor, f.ops[key]? = some floor ∧ (floor.own = ownServed ↔ floor'.own = ownServed)) ∨
      f.ops[key]? = none ∧ ∃ row, w = .putOp row ∧ row.primaryKey = key.columns ∧
        floor'.own = row.own ∧ (row.own ≠ ownServed → row.own = ownUnsent ∧
          f.fixed[metaDeviceId]? = some key.deviceId.bytes ∧ max counter 1 ≤ key.deviceSeq) := by
  cases hw with
  | @putOp row key₀ hkey hnew _ _ hown =>
    rw [ExtTreeMap.getElem?_insert_iff] at h
    split_ifs at h with heq
    · subst heq
      cases h
      refine .inr ⟨hnew, row, rfl, hkey, rfl, fun hne => ?_⟩
      rcases hown with ⟨hserved, -⟩ | hunsent
      · exact absurd hserved hne
      · exact hunsent
    · exact .inl ⟨floor', h, Iff.rfl⟩
  | @reissueOp row stale key₀ held hkey hheld hown =>
    rw [ExtTreeMap.getElem?_insert_iff] at h
    split_ifs at h with heq
    · subst heq
      cases h
      have hne : held.own ≠ ownServed := by
        rcases hown with hown | ⟨hown, -⟩
        all_goals
          rw [hown]
          decide
      exact .inl ⟨held, hheld, iff_of_false hne unsent_ne_served⟩
    · exact .inl ⟨floor', h, Iff.rfl⟩
  | @opOwn _ _ _ own _ key₀ held hkey hheld hown =>
    rw [ExtTreeMap.getElem?_insert_iff] at h
    split_ifs at h with heq
    · subst heq
      cases h
      obtain ⟨hheldOwn, hnext⟩ := ne_served_of_advanceOwn hown
      exact .inl ⟨held, hheld, iff_of_false hheldOwn hnext⟩
    · exact .inl ⟨floor', h, Iff.rfl⟩
  | _ => exact .inl ⟨floor', h, Iff.rfl⟩

theorem nextDeviceSeq_le (hw : Moves counter f w f') : f.nextDeviceSeq ≤ f'.nextDeviceSeq := by
  cases hw with
  | nextDeviceSeq _ hle => exact hle
  | _ => exact le_rfl

theorem fixed_kept (hw : Moves counter f w f') {key : String} {value : Bytes}
    (h : f.fixed[key]? = some value) : f'.fixed[key]? = some value := by
  cases hw with
  | @fixed key₀ value₀ _ _ hheld =>
    rw [ExtTreeMap.getElem?_insert_iff]
    split_ifs with heq
    · subst heq
      rw [hheld value h]
    · exact h
  | _ => exact h

/-- The device of an own op is the file's. -/
def OwnDevice (f : Floors) : Prop :=
  ∀ (key : OpKey) (floor : OpFloor), f.ops[key]? = some floor → floor.own ≠ ownServed →
    f.fixed[metaDeviceId]? = some key.deviceId.bytes

theorem ownDevice (hw : Moves counter f w f') (h : OwnDevice f) : OwnDevice f' := by
  intro key floor' hfloor hown
  rcases hw.op_cases hfloor with ⟨floor, hheld, hserved⟩ | ⟨-, row, -, -, hrow, hnew⟩
  · exact hw.fixed_kept (h key floor hheld fun hs => hown (hserved.mp hs))
  · rw [hrow] at hown
    exact hw.fixed_kept (hnew hown).2.1

end Moves

namespace Walk

variable {C : Set U64} {f f' : Floors} {ws : List Write}

theorem nextDeviceSeq_le (h : Walk C f ws f') : f.nextDeviceSeq ≤ f'.nextDeviceSeq := by
  induction h with
  | nil => exact le_rfl
  | cons _ hw _ ih => exact hw.nextDeviceSeq_le.trans ih

theorem fixed_kept (h : Walk C f ws f') {key : String} {value : Bytes}
    (hkey : f.fixed[key]? = some value) : f'.fixed[key]? = some value := by
  induction h with
  | nil => exact hkey
  | cons _ hw _ ih => exact ih (hw.fixed_kept hkey)

theorem ownDevice (h : Walk C f ws f') (hf : Moves.OwnDevice f) : Moves.OwnDevice f' := by
  induction h with
  | nil => exact hf
  | cons _ hw _ ih => exact ih (hw.ownDevice hf)

end Walk

/-- Every own op is of the file's device and below the counter. -/
structure OwnDots (f : Floors) : Prop where
  device : Moves.OwnDevice f
  below : ∀ (key : OpKey) (floor : OpFloor), f.ops[key]? = some floor → floor.own ≠ ownServed →
    key.deviceSeq < f.nextDeviceSeq

/-- A finished changeset leaves the counter above every own dot it wrote. -/
theorem Pending.lt_of_finish {p : Pending} (h : p.finish = .ok ()) {key : OpKey} {floor : OpFloor}
    (hkey : p.ops[key]? = some floor) (hown : floor.own ≠ ownServed) :
    key.deviceSeq < p.nextDeviceSeq := by
  unfold finish at h
  simp only at h
  split_ifs at h with h₁ h₂
  have hmem : key.deviceSeq ∈
      (p.ops.toList.filter fun entry => entry.2.own ≠ ownServed).map fun e => e.1.deviceSeq := by
    refine List.mem_map.mpr ⟨(key, floor), List.mem_filter.mpr ⟨?_, decide_eq_true hown⟩, rfl⟩
    exact ExtTreeMap.mem_toList_iff_getElem?_eq_some.mpr hkey
  obtain ⟨top, htop⟩ := Option.isSome_iff_exists.mp (List.isSome_max?_of_mem hmem)
  rw [htop, Option.any_some, decide_eq_true_eq, not_le] at h₂
  exact lt_of_le_of_lt ((List.max?_le_iff htop).mp le_rfl _ hmem) h₂

namespace Cache

variable {deviceRecord}

theorem ownDots_step {cache : Cache} (h : OwnDots cache.floors) (changeset : Changeset) :
    OwnDots (cache.step deviceRecord changeset).floors := by
  rcases step_cases deviceRecord cache changeset with ⟨-, hstep⟩ | ⟨next, -, hpass, hstep⟩
  · rw [hstep]
    exact h
  · rw [hstep]
    obtain ⟨hwalk, hbase, hfinish⟩ := Floors.pass_eq_ok hpass
    refine ⟨hwalk.ownDevice h.device, fun key floor hkey hown => ?_⟩
    rw [Pending.commit_ops, Pending.op] at hkey
    cases hover : next.ops[key]? with
    | some changed =>
      rw [hover] at hkey
      cases hkey
      exact Pending.lt_of_finish hfinish hover hown
    | none =>
      rw [hover, Option.none_or, hbase] at hkey
      exact lt_of_lt_of_le (h.below key floor hkey hown) hwalk.nextDeviceSeq_le

theorem ownDots_empty : OwnDots Floors.empty where
  device := fun key floor h => by cases h
  below := fun key floor h => by cases h

theorem ownDots_run (deviceRecord : Bytes → Option (Id16 × Id16)) (changesets : List Changeset) :
    OwnDots (run deviceRecord changesets).floors := by
  induction changesets using List.reverseRecOn with
  | nil => exact ownDots_empty
  | append_singleton changesets changeset ih =>
    rw [run, runFrom_append]
    exact ownDots_step ih changeset

end Cache

end RizzyVault.Client.Store
