import RizzyVault.Client.Store.Run

/-!
# The floors never go backwards

Over every run of changesets, refused or admitted, and at every single write of it: what the rows
hold after a write keeps what they held before it, as the rules of the floors say.

## Main definitions

* `Reissued`, `OpKept`, `SnapshotKept`, `Kept`: what one write keeps of a row and of the file.
* `StateFloor.Le`, `stateWritten`: the account states a run writes, in order.
* `NeverBackwards`: what holds of a run.

## Main results

* `Moves.kept`: a move keeps what the file held.
* `Cache.neverBackwards`: every run keeps it.

## References

* `crates/rizzy-client/src/store/floors.rs`, `crates/rizzy-client/src/store/rows.rs`.
-/

open RizzyVault.Core RizzyVault.Lib

namespace RizzyVault.Client.Store

open Std (ExtTreeMap)

/-! ### What one write keeps -/

/-- The write re-issues an unsent op, or a sent one whose answer was stale. -/
def Reissued (w : Write) (row : OpRow) : Prop :=
  ∃ new staleGeneration, w = .reissueOp new staleGeneration ∧ new.primaryKey = row.primaryKey ∧
    (row.own = ownUnsent ∨ row.own = ownSent ∧
      ∃ g, staleGeneration = some g ∧ row.sentGeneration = some g.bytes)

/-- One step of `own` along 1 → 3 → 2. -/
def OwnStep (own own' : ℤ) : Prop :=
  own' = own ∨ own = ownUnsent ∧ own' = ownSent ∨ own = ownSent ∧ own' = ownAcknowledged

/-- What a write keeps of an op row. -/
structure OpKept (w : Write) (row row' : OpRow) : Prop where
  key : row'.primaryKey = row.primaryKey
  statement : row'.statement = row.statement ∨ Reissued w row
  own : OwnStep row.own row'.own ∨ Reissued w row ∧ row'.own = ownUnsent
  sentGeneration : ∀ g, row.sentGeneration = some g →
    row'.sentGeneration = some g ∨ Reissued w row
  body : row.own ≠ ownServed → ∀ b, row.body = some b → row'.body = some b ∨ Reissued w row

/-- What a write keeps of a snapshot row that stays. -/
structure SnapshotKept (row row' : SnapshotRow) : Prop where
  key : row'.primaryKey = row.primaryKey
  statement : row'.statement = row.statement
  own : OwnStep row.own row'.own
  sentGeneration : ∀ g, row.sentGeneration = some g → row'.sentGeneration = some g

/-- What a write keeps of the file. -/
structure Kept (w : Write) (rows rows' : CacheRows) : Prop where
  fixed : ∀ key ∈ fixedKeys, ∀ value, rows.cacheMeta[key]? = some value →
    rows'.cacheMeta[key]? = some value
  counters : ∀ key, key = metaNextDeviceSeq ∨ key = metaHlc → ∀ n, rows.Counts key n →
    ∃ n', rows'.Counts key n' ∧ n ≤ n'
  objects : ∀ row ∈ rows.objects, row.kind = kindBundle ∨ row.kind = kindSettings →
    row ∈ rows'.objects
  vaults : ∀ row ∈ rows.vaults, ∃ row' ∈ rows'.vaults, row'.vaultId = row.vaultId ∧
    row.selfGrant.vaultKeyEpoch ≤ row'.selfGrant.vaultKeyEpoch
  ops : ∀ row ∈ rows.ops, ∃ row' ∈ rows'.ops, OpKept w row row'
  snapshots : ∀ row ∈ rows.snapshots, (∃ row' ∈ rows'.snapshots, SnapshotKept row row') ∨
    row.own = ownUnsent ∨ row.own = ownSent

theorem OpKept.refl (w : Write) (row : OpRow) : OpKept w row row where
  key := rfl
  statement := .inl rfl
  own := .inl (.inl rfl)
  sentGeneration := fun _ h => .inl h
  body := fun _ _ h => .inl h

theorem SnapshotKept.refl (row : SnapshotRow) : SnapshotKept row row :=
  ⟨rfl, rfl, .inl rfl, fun _ h => h⟩

theorem Kept.refl (w : Write) (rows : CacheRows) : Kept w rows rows where
  fixed := fun _ _ _ h => h
  counters := fun _ _ n h => ⟨n, h, le_rfl⟩
  objects := fun _ h _ => h
  vaults := fun row h => ⟨row, h, rfl, le_rfl⟩
  ops := fun row h => ⟨row, h, .refl w row⟩
  snapshots := fun row h => .inl ⟨row, h, .refl row⟩

theorem CacheRows.Counts.eq {rows : CacheRows} {key : String} {n n' : U64}
    (h : rows.Counts key n) (h' : rows.Counts key n') : n = n' := by
  rcases h with h | ⟨h, rfl⟩
  all_goals rcases h' with h' | ⟨h', rfl⟩
  · exact U64.toBe_injective (Option.some.inj (h.symm.trans h'))
  · cases h.symm.trans h'
  · cases h.symm.trans h'
  · rfl

theorem ownStep_of_advanceOwn {held next : ℤ} {hasGeneration : Bool}
    (h : advanceOwn held next hasGeneration = .ok ()) : OwnStep held next := by
  rcases advanceOwn_eq_ok h with ⟨rfl | rfl, rfl⟩ | ⟨rfl | rfl, rfl⟩
  · exact .inr (.inl ⟨rfl, rfl⟩)
  · exact .inl rfl
  · exact .inr (.inr ⟨rfl, rfl⟩)
  · exact .inl rfl

/-! ### Tables -/

variable {counter : U64} {f f' : Floors} {rows : CacheRows} {w : Write}

/-- A put of an object keeps the rows at other keys and a row of the same bytes. -/
private theorem mem_putObject_of_mem {objects : List ObjectRow} {row o : ObjectRow}
    (h : Keyed ObjectRow.primaryKey objects) (ho : o ∈ objects)
    (hsame : o.primaryKey = row.primaryKey → o.bytes = row.bytes) : o ∈ putObject objects row := by
  have hat := h.rowAt_eq_some.mpr ⟨ho, rfl⟩
  have hput := rowAt_putObject h row o.primaryKey
  split_ifs at hput with hkey
  · rw [← hkey, hat, ← hsame hkey] at hput
    exact mem_of_rowAt hput
  · exact mem_of_rowAt (hput.trans hat)

private theorem mem_foldl_putObject {kind : ℤ} {o : ObjectRow} (hkind : o.kind ≠ kind)
    (entries : List (Id16 × Bytes)) :
    ∀ objects : List ObjectRow, Keyed ObjectRow.primaryKey objects → o ∈ objects →
      o ∈ entries.foldl (fun objects entry => putObject objects ⟨kind, entry.1.bytes, entry.2⟩)
        objects ∧
      Keyed ObjectRow.primaryKey
        (entries.foldl (fun objects entry => putObject objects ⟨kind, entry.1.bytes, entry.2⟩)
          objects) := by
  induction entries with
  | nil => exact fun objects h ho => ⟨ho, h⟩
  | cons entry entries ih =>
    intro objects h ho
    refine ih _ (keyed_putObject h _) (mem_putObject_of_mem h ho fun hkey => ?_)
    exact absurd (congrArg Prod.fst hkey) hkind

private theorem objects_deviceSet (h : Index f rows)
    (certificates revocations : List (Id16 × Bytes)) :
    ∀ row ∈ rows.objects, row.kind = kindBundle ∨ row.kind = kindSettings →
      row ∈ (rows.applyOne (.deviceSet certificates revocations)).objects := by
  intro row hrow hkind
  have hnot : row.kind ≠ kindCertificate ∧ row.kind ≠ kindRevocation := by
    rcases hkind with hkind | hkind
    all_goals
      rw [hkind]
      decide
  have hkept : row ∈ rows.objects.filter
      fun o => o.kind ≠ kindCertificate ∧ o.kind ≠ kindRevocation :=
    List.mem_filter.mpr ⟨hrow, decide_eq_true hnot⟩
  obtain ⟨hcert, hkeyed⟩ :=
    mem_foldl_putObject hnot.1 certificates _ (h.objects.keyed.filter _) hkept
  exact (mem_foldl_putObject hnot.2 revocations _ hkeyed hcert).1

/-- What a change of the row at a key keeps of the ops. -/
private theorem ops_modify {q : OpRow → Bool} {k : Bytes × Bytes × Bytes} {g : OpRow → OpRow}
    (hg : ∀ row ∈ rows.ops, row.primaryKey = k → q row → OpKept w row (g row)) :
    ∀ row ∈ rows.ops,
      ∃ row' ∈ modifyFirst (fun o => o.primaryKey = k && q o) g rows.ops, OpKept w row row' := by
  intro row hrow
  obtain ⟨row', hrow', rfl | ⟨hp, rfl⟩⟩ :=
    exists_mem_modifyFirst (fun o : OpRow => o.primaryKey = k && q o) g hrow
  · exact ⟨row', hrow', .refl w row'⟩
  · rw [Bool.and_eq_true, decide_eq_true_eq] at hp
    exact ⟨g row, hrow', hg row hrow hp.1 hp.2⟩

private theorem ops_modifyKey {k : Bytes × Bytes × Bytes} {g : OpRow → OpRow}
    (hg : ∀ row ∈ rows.ops, row.primaryKey = k → OpKept w row (g row)) :
    ∀ row ∈ rows.ops,
      ∃ row' ∈ modifyFirst (fun o => o.primaryKey = k) g rows.ops, OpKept w row row' := by
  have hops := ops_modify (q := fun _ => true) fun row hrow hk _ => hg row hrow hk
  simpa only [Bool.and_true] using hops

private theorem ops_putOp (new : OpRow) :
    ∀ row ∈ rows.ops, ∃ row' ∈ (rows.applyOne (.putOp new)).ops, OpKept w row row' := by
  intro row hrow
  obtain ⟨row', hrow', rfl | ⟨-, rfl⟩⟩ := exists_mem_upsert
    (fun o : OpRow => o.primaryKey = new.primaryKey) (fun o => o.fill new) new hrow
  · exact ⟨row', hrow', .refl w row'⟩
  · refine ⟨_, hrow', ?_⟩
    unfold OpRow.fill
    split_ifs
    · exact { OpKept.refl w row with
        body := fun _ b hb => .inl (by rw [hb, Option.some_or]) }
    · exact .refl w row

private theorem kept_putSnapshot (w : Write) (new : SnapshotRow) :
    Kept w rows (rows.applyOne (.putSnapshot new)) := by
  rw [CacheRows.applyOne]
  split_ifs
  · exact .refl w rows
  · exact { Kept.refl w rows with
      snapshots := fun row hrow => .inl ⟨row, List.mem_append_left _ hrow, .refl row⟩ }

theorem Index.snapshotOwn_eq (h : Index f rows) {key : SnapshotKey} {held : SnapshotFloor}
    (hheld : f.snapshots[key]? = some held) {row : SnapshotRow} (hrow : row ∈ rows.snapshots)
    (hk : row.primaryKey = key.columns) : row.own = held.own := by
  obtain ⟨r, hr, hcol⟩ := h.snapshots.rowAt_of_getElem? hheld
  have hat := h.snapshots.keyed.rowAt_eq_some.mpr ⟨hrow, hk⟩
  rw [Option.some.inj (hat.symm.trans hr)]
  exact congrArg Prod.snd hcol

/-- A counter that does not go down. -/
private theorem counters_put {key : String} {n : U64}
    (hkey : rows.Counts key n) {number : U64} (hle : n ≤ number) :
    ∀ k, k = metaNextDeviceSeq ∨ k = metaHlc → ∀ m, rows.Counts k m →
      ∃ m', { rows with cacheMeta := rows.cacheMeta.insert key number.toBe }.Counts k m' ∧
        m ≤ m' := by
  intro k _ m hm
  by_cases hk : key = k
  · subst hk
    refine ⟨number, .inl ?_, (hm.eq hkey).trans_le hle⟩
    exact (ExtTreeMap.getElem?_insert_iff _ _ _ _).trans (if_pos rfl)
  · refine ⟨m, ?_, le_rfl⟩
    rw [CacheRows.Counts, ExtTreeMap.getElem?_insert_iff, if_neg hk]
    exact hm

/-! ### Every move -/

namespace Moves

/-- **A move keeps what the file held.** -/
theorem kept (hw : Moves counter f w f') (h : Index f rows) : Kept w rows (rows.applyOne w) := by
  cases hw with
  | @fixed key value hkey _ hheld =>
    refine { Kept.refl _ rows with
      fixed := fun k hk v hv => ?_
      counters := fun k hk n hn => ⟨n, ?_, le_rfl⟩ }
    · rw [CacheRows.applyOne, ExtTreeMap.getElem?_insert_iff]
      split_ifs with heq
      · subst heq
        rw [hheld v ((h.fixed key hk).trans hv)]
      · exact hv
    · have hne : key ≠ k := by
        rintro rfl
        rcases hk with rfl | rfl
        all_goals exact absurd hkey (by decide)
      rw [CacheRows.applyOne, CacheRows.Counts, ExtTreeMap.getElem?_insert_iff, if_neg hne]
      exact hn
  | nextDeviceSeq _ hle =>
    exact { Kept.refl _ rows with
      fixed := fun k hk v hv =>
        (h.fixed_putCounter (by decide) _ k hk).symm.trans ((h.fixed k hk).trans hv)
      counters := counters_put h.nextDeviceSeq hle }
  | hlc hle =>
    exact { Kept.refl _ rows with
      fixed := fun k hk v hv =>
        (h.fixed_putCounter (by decide) _ k hk).symm.trans ((h.fixed k hk).trans hv)
      counters := counters_put h.hlc hle }
  | deviceState => exact { Kept.refl _ rows with }
  | pendingCommit => exact { Kept.refl _ rows with }
  | accountState =>
    refine { Kept.refl _ rows with
      objects := fun row hrow hkind => mem_putObject_of_mem h.objects.keyed hrow fun hk => ?_ }
    have hk : row.kind = kindAccountState := congrArg Prod.fst hk
    rw [hk] at hkind
    exact absurd hkind (by decide)
  | @identityKeys new hnew =>
    refine { Kept.refl _ rows with
      objects := fun row hrow hkind => mem_putObject_of_mem h.objects.keyed hrow fun hk => ?_ }
    have hk : row.kind = kindIdentityKeys := (congrArg Prod.fst hk).trans hnew
    rw [hk] at hkind
    exact absurd hkind (by decide)
  | @putObject new _ hheld =>
    refine { Kept.refl _ rows with
      objects := fun row hrow hkind => mem_putObject_of_mem h.objects.keyed hrow fun hk => ?_ }
    have hat := h.objects.keyed.rowAt_eq_some.mpr ⟨hrow, rfl⟩
    have hmap := h.objects.held row.kind row.key hkind
    rw [show (row.kind, row.key) = row.primaryKey from rfl, hat, Option.map_some] at hmap
    have hnew : row.kind = new.kind ∧ row.key = new.key := Prod.mk.inj hk
    refine hheld ?_ row.bytes ?_
    · rw [← hnew.1]
      rcases hkind with hkind | hkind
      all_goals
        rw [hkind]
        decide
    · rw [← hnew.1, ← hnew.2]
      exact hmap
  | clearAlarm alarm =>
    refine { Kept.refl _ rows with
      objects := fun row hrow hkind => List.mem_filter.mpr ⟨hrow, decide_eq_true (.inl ?_)⟩ }
    rcases hkind with hkind | hkind
    all_goals
      rw [hkind]
      decide
  | deviceSet certificates revocations =>
    exact { Kept.refl _ rows with objects := objects_deviceSet h certificates revocations }
  | @vaultGrant grant _ hheld =>
    refine { Kept.refl _ rows with vaults := fun row hrow => ?_ }
    obtain ⟨row', hrow', rfl | ⟨hp, rfl⟩⟩ := exists_mem_upsert
      (fun v : VaultRow => v.vaultId = grant.vaultId.bytes) (fun v => { v with selfGrant := grant })
      (.new grant) hrow
    · exact ⟨row', hrow', rfl, le_rfl⟩
    · have hat := h.vaults.keyed.rowAt_eq_some.mpr ⟨hrow, of_decide_eq_true hp⟩
      obtain ⟨held, hmap, hepoch⟩ := h.vaults.getElem?_of_rowAt hat
      exact ⟨_, hrow', rfl, hepoch.trans_le (hheld held hmap).1⟩
  | vaultGeneration =>
    refine { Kept.refl _ rows with vaults := fun row hrow => ?_ }
    obtain ⟨row', hrow', rfl | ⟨-, rfl⟩⟩ := exists_mem_modifyFirst _ _ hrow
    · exact ⟨row', hrow', rfl, le_rfl⟩
    · exact ⟨_, hrow', rfl, le_rfl⟩
  | wraps => exact { Kept.refl _ rows with }
  | @putOpAgain new => exact { Kept.refl (.putOp new) rows with ops := ops_putOp new }
  | @putOp new => exact { Kept.refl (.putOp new) rows with ops := ops_putOp new }
  | @reissueOp new staleGeneration key held hkey hheld hown =>
    refine { Kept.refl (.reissueOp new staleGeneration) rows with
      ops := ops_modifyKey fun row hrow hk => ?_ }
    obtain ⟨r, hr, -, hrown, hrsent⟩ := h.rowAt_op hheld
    obtain rfl := Option.some.inj
      (hr.symm.trans (h.ops.keyed.rowAt_eq_some.mpr ⟨hrow, hk.trans hkey⟩))
    have hre : Reissued (.reissueOp new staleGeneration) r := by
      refine ⟨new, staleGeneration, rfl, hk.symm, ?_⟩
      rw [hrown, hrsent]
      refine hown.imp_right ?_
      rintro ⟨hsent, hsome, hstale⟩
      refine ⟨hsent, ?_⟩
      obtain ⟨g, hg⟩ := Option.isSome_iff_exists.mp hsome
      exact ⟨g, hg, by rw [hstale, hg, Option.map_some]⟩
    exact
      { key := rfl
        statement := .inr hre
        own := .inr ⟨hre, rfl⟩
        sentGeneration := fun _ _ => .inr hre
        body := fun _ _ _ => .inr hre }
  | @opOwn vaultId deviceId deviceSeq own sentGeneration key held hkey hheld hown =>
    subst hkey
    refine { Kept.refl (.opOwn vaultId deviceId deviceSeq own sentGeneration) rows with
      ops := ops_modifyKey fun row hrow hk => ?_ }
    obtain ⟨r, hr, -, hrown, -⟩ := h.rowAt_op hheld
    obtain rfl := Option.some.inj (hr.symm.trans (h.ops.keyed.rowAt_eq_some.mpr ⟨hrow, hk⟩))
    rw [← hrown] at hown
    exact
      { OpKept.refl _ r with
        own := .inl (ownStep_of_advanceOwn hown)
        sentGeneration := fun g hg => .inl (by rw [OpRow.moved, hg, Option.some_or]) }
  | @pruneOpBody vaultId deviceId deviceSeq =>
    refine { Kept.refl (.pruneOpBody vaultId deviceId deviceSeq) rows with
      ops := ops_modify fun row _ _ hserved => ?_ }
    exact { OpKept.refl _ row with body := fun hown => absurd (of_decide_eq_true hserved) hown }
  | putSnapshotAgain => exact kept_putSnapshot _ _
  | putSnapshot => exact kept_putSnapshot _ _
  | @snapshotOwn _ _ own sentGeneration key held hkey hheld hown =>
    subst hkey
    refine { Kept.refl _ rows with snapshots := fun row hrow => .inl ?_ }
    obtain ⟨row', hrow', rfl | ⟨hk, rfl⟩⟩ := exists_mem_modifyFirst _ _ hrow
    · exact ⟨row', hrow', .refl row'⟩
    · have hrown := h.snapshotOwn_eq hheld hrow (of_decide_eq_true hk)
      rw [← hrown] at hown
      exact ⟨_, hrow',
        { SnapshotKept.refl row with
          own := ownStep_of_advanceOwn hown
          sentGeneration := fun g hg => by rw [SnapshotRow.moved, hg, Option.some_or] }⟩
  | @deleteSnapshot vaultId snapshotId key held hkey hheld hown =>
    subst hkey
    refine { Kept.refl _ rows with snapshots := fun row hrow => ?_ }
    by_cases hk : row.primaryKey = (vaultId.bytes, snapshotId.bytes)
    · rw [h.snapshotOwn_eq hheld hrow hk]
      exact .inr hown
    · exact .inl ⟨row, List.mem_filter.mpr ⟨hrow, decide_eq_true hk⟩, .refl row⟩
  | @deleteGone vaultId snapshotId hgone =>
    refine { Kept.refl _ rows with snapshots := fun row hrow => .inl ?_ }
    have hk : row.primaryKey ≠ (vaultId.bytes, snapshotId.bytes) :=
      rowAt_eq_none.mp (h.snapshots.rowAt_eq_none_iff.mpr hgone) row hrow
    exact ⟨row, List.mem_filter.mpr ⟨hrow, decide_eq_true hk⟩, .refl row⟩

end Moves

/-! ### The account states of a run -/

/-- A later account state: no sequence number is lower, and one `state_seq` has one wire form. -/
def StateFloor.Le (held next : StateFloor) : Prop :=
  held.stateSeq ≤ next.stateSeq ∧ held.settingsSeq ≤ next.settingsSeq ∧
    (held.stateSeq = next.stateSeq → held.wire = next.wire)

theorem StateFloor.Le.trans {a b c : StateFloor} (hab : a.Le b) (hbc : b.Le c) : a.Le c := by
  refine ⟨hab.1.trans hbc.1, hab.2.1.trans hbc.2.1, fun hac => ?_⟩
  have hab' : a.stateSeq = b.stateSeq := le_antisymm hab.1 (hac ▸ hbc.1)
  exact (hab.2.2 hab').trans (hbc.2.2 (hab'.symm.trans hac))

/-- The account state a write puts. -/
def stateWritten : Write → Option StateFloor
  | .accountState wire stateSeq settingsSeq => some ⟨stateSeq, settingsSeq, wire⟩
  | _ => none

/-- A move puts an account state above the held one, or leaves the state as it is. -/
theorem Moves.state_cases (hw : Moves counter f w f') :
    (∃ state, stateWritten w = some state ∧ f'.state = some state ∧
      ∀ held, f.state = some held → held.Le state) ∨
    stateWritten w = none ∧ f'.state = f.state := by
  cases hw with
  | accountState hheld => exact .inl ⟨_, rfl, rfl, fun held h => hheld held h⟩
  | _ => exact .inr ⟨rfl, rfl⟩

theorem Walk.states {C : Set U64} {ws : List Write} (h : Walk C f ws f') :
    (∀ held, f.state = some held → ∀ state ∈ ws.filterMap stateWritten, held.Le state) ∧
      (ws.filterMap stateWritten).Pairwise StateFloor.Le ∧
      f'.state = (ws.filterMap stateWritten).getLast?.or f.state := by
  induction h with
  | nil => exact ⟨fun _ _ _ h => absurd h List.not_mem_nil, .nil, rfl⟩
  | cons _ hw _ ih =>
    obtain ⟨habove, hpair, hlast⟩ := ih
    rcases hw.state_cases with ⟨state, hwritten, hstate, hheld⟩ | ⟨hwritten, hstate⟩
    · rw [List.filterMap_cons_some hwritten]
      refine ⟨fun held h s hs => ?_, List.pairwise_cons.mpr ⟨habove state hstate, hpair⟩, ?_⟩
      · rcases List.mem_cons.mp hs with rfl | hs
        · exact hheld held h
        · exact (hheld held h).trans (habove state hstate s hs)
      · rw [hlast, hstate, List.getLast?_cons]
        cases (List.filterMap stateWritten _).getLast? with
        | none => rfl
        | some last => rfl
    · rw [List.filterMap_cons_none hwritten, ← hstate]
      exact ⟨habove, hpair, hlast⟩

/-! ### Every run -/

/-- What never goes backwards in a run. -/
structure NeverBackwards (deviceRecord : Bytes → Option (Id16 × Id16))
    (changesets : List Changeset) : Prop where
  /-- A refused changeset leaves the index and the file as they were. -/
  refused : ∀ changeset, (Cache.run deviceRecord changesets).admits deviceRecord changeset = false →
    Floors.admit deviceRecord (Cache.run deviceRecord changesets).floors changeset =
        (.error .internal, (Cache.run deviceRecord changesets).floors) ∧
      (Cache.run deviceRecord changesets).step deviceRecord changeset =
        Cache.run deviceRecord changesets
  /-- The file is what the writes of the admitted changesets make of an empty one. -/
  rows : (Cache.run deviceRecord changesets).rows =
    CacheRows.empty.apply (Cache.written deviceRecord changesets)
  /-- Every write keeps what the file held before it. -/
  writes : ∀ pre w post, Cache.written deviceRecord changesets = pre ++ w :: post →
    Kept w (CacheRows.empty.apply pre) (CacheRows.empty.apply (pre ++ [w]))
  /-- The account states only move up, and the row is the last one. -/
  states : ((Cache.written deviceRecord changesets).filterMap stateWritten).Pairwise StateFloor.Le
  stateRow : (((Cache.written deviceRecord changesets).filterMap stateWritten).getLast?).map
      (·.wire) =
    (rowAt ObjectRow.primaryKey (Cache.run deviceRecord changesets).rows.objects
      (kindAccountState, [])).map (·.bytes)
  /-- The stored counter is above every own op. -/
  counter : ∃ n, (Cache.run deviceRecord changesets).rows.Counts metaNextDeviceSeq n ∧
    ∀ row ∈ (Cache.run deviceRecord changesets).rows.ops, row.own ≠ ownServed →
      ofBe row.deviceSeq < n
  /-- Every key has one row. -/
  keyed : Keyed ObjectRow.primaryKey (Cache.run deviceRecord changesets).rows.objects ∧
    Keyed VaultRow.vaultId (Cache.run deviceRecord changesets).rows.vaults ∧
    Keyed OpRow.primaryKey (Cache.run deviceRecord changesets).rows.ops ∧
    Keyed SnapshotRow.primaryKey (Cache.run deviceRecord changesets).rows.snapshots

namespace Cache

variable {deviceRecord : Bytes → Option (Id16 × Id16)}

theorem kept_written {changesets : List Changeset} {pre post : List Write} {w : Write}
    (h : written deviceRecord changesets = pre ++ w :: post) :
    Kept w (CacheRows.empty.apply pre) (CacheRows.empty.apply (pre ++ [w])) := by
  have hwalk := walk_run deviceRecord changesets
  rw [h] at hwalk
  obtain ⟨_, -, g, g', hpre, hw, -⟩ := hwalk.split
  rw [CacheRows.apply_append]
  exact hw.kept (hpre.index index_empty)

theorem lt_counter_of_own {cache : Cache} (hindex : Index cache.floors cache.rows)
    (hown : OwnDots cache.floors) {row : OpRow} (hrow : row ∈ cache.rows.ops)
    (hne : row.own ≠ ownServed) : ofBe row.deviceSeq < cache.floors.nextDeviceSeq := by
  obtain ⟨key, hkey⟩ := hindex.ops.covered row hrow
  have hat := hindex.ops.keyed.rowAt_eq_some.mpr ⟨hrow, hkey⟩
  obtain ⟨floor, hfloor, hcol⟩ := hindex.ops.getElem?_of_rowAt hat
  have hfloorOwn : row.own = floor.own := congrArg (fun c => c.2.1) hcol
  rw [hfloorOwn] at hne
  have hseq : row.deviceSeq = key.deviceSeq.toBe := congrArg (fun c => c.2.2) hkey
  rw [hseq, U64.ofBe_toBe]
  exact hown.below key floor hfloor hne

/-- **The floors never go backwards**, over every run from an empty cache. -/
theorem neverBackwards (deviceRecord : Bytes → Option (Id16 × Id16))
    (changesets : List Changeset) : NeverBackwards deviceRecord changesets := by
  have hindex := index_run deviceRecord changesets
  obtain ⟨-, hpair, hlast⟩ := (walk_run deviceRecord changesets).states
  refine
    { refused := fun changeset hno => ?_
      rows := rows_run changesets
      writes := fun _ _ _ h => kept_written h
      states := hpair
      stateRow := ?_
      counter := ⟨_, hindex.nextDeviceSeq,
        fun row hrow => lt_counter_of_own hindex (ownDots_run deviceRecord changesets) hrow⟩
      keyed := ⟨hindex.objects.keyed, hindex.vaults.keyed, hindex.ops.keyed,
        hindex.snapshots.keyed⟩ }
  · rcases step_cases deviceRecord (run deviceRecord changesets) changeset with
      ⟨-, hstep⟩ | ⟨next, hyes, -⟩
    · refine ⟨?_, hstep⟩
      unfold admits at hno
      rw [ Floors.admit] at hno ⊢
      cases hpass : (run deviceRecord changesets).floors.pass deviceRecord changeset with
      | error e => rfl
      | ok next =>
        rw [hpass] at hno
        cases hno
    · rw [hno] at hyes
      cases hyes
  · rw [← hindex.objects.state, hlast]
    simp [Floors.empty]

end Cache

end RizzyVault.Client.Store
