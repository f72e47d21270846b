import RizzyVault.Sync.Worker
import RizzyVault.Vault.Chains

/-!
# Compaction never loses the last evidence

The server may delete the body of an operation, but the header stays, and some retained snapshot
of the item covers it. A snapshot counts only for what was stored when it was: it is clamped to the
heads, and a later operation is above them.

## Main definitions

* `BodilessCovered`: every header without a body has a retained snapshot that covers it.
* `VaultRows.coverAuthors`: the authors of the item's snapshots that cover a dot.

## Main results

* `VaultReachable.bodilessCovered`, `VaultStep.not_covers_of_new`.
* `compaction_keeps_evidence`: over all runs of the server's writes.

## References

* `crates/rizzy-sync/src/compaction.rs`, `crates/rizzy-domain-vault/src/store.rs`.
-/

open RizzyVault.Core RizzyVault.Lib RizzyVault.Sync

namespace RizzyVault.Vault

open Std (ExtTreeMap)
open Relation (ReflTransGen)

variable {v v' : VaultRows} {prim : Primitives}

/-- Every header without a body has a retained snapshot of its item that covers it. -/
def BodilessCovered (v : VaultRows) : Prop :=
  ∀ (dot : Dot) (row : OpRow), v.ops[dot]? = some row → row.body = none →
    ∃ s ∈ v.itemSnapshots row.header.itemId, s.covers dot

/-- The authors of the item's retained snapshots that cover `dot`. -/
def VaultRows.coverAuthors (v : VaultRows) (itemId : ItemId) (dot : Dot) : Finset DeviceId :=
  Sync.coverAuthors (v.itemSnapshots itemId) dot

theorem mem_itemSnapshots {itemId : ItemId} {s : RetainedSnapshot} :
    s ∈ v.itemSnapshots itemId ↔ ∃ (id : SnapshotId) (row : SnapshotRow),
      v.snapshots[id]? = some row ∧ row.header.itemId = itemId ∧ VaultRows.retained row = s := by
  simp only [VaultRows.itemSnapshots, (List.mergeSort_perm _ _).mem_iff, List.mem_map,
    VaultRows.snapshotsOf, List.mem_filter, Prod.exists, decide_eq_true_eq,
    ExtTreeMap.mem_toList_iff_getElem?_eq_some]
  constructor
  · rintro ⟨row, ⟨⟨id, stored, hrow, hstored⟩, hitem⟩, rfl⟩
    exact ⟨id, row, hstored ▸ hrow, hitem, rfl⟩
  · rintro ⟨id, row, hrow, hitem, rfl⟩
    exact ⟨row, ⟨⟨id, row, hrow, rfl⟩, hitem⟩, rfl⟩

theorem itemSnapshots_mono (h : v.KeepsSnapshots v') {itemId : ItemId} {s : RetainedSnapshot}
    (hs : s ∈ v.itemSnapshots itemId) : s ∈ v'.itemSnapshots itemId := by
  obtain ⟨id, row, hrow, hitem, rfl⟩ := mem_itemSnapshots.mp hs
  obtain ⟨row', hrow', hf⟩ := h id row hrow
  refine mem_itemSnapshots.mpr ⟨id, row', hrow', ?_⟩
  obtain rfl | rfl := hf
  · exact ⟨hitem, rfl⟩
  · exact ⟨hitem, rfl⟩

/-! ### What is stored later -/

/-- A new operation is above the heads before it. -/
theorem Stored.not_covers_of_new (h : Stored v v') {dot : Dot} (hnew : dot ∈ v'.ops)
    (hold : dot ∉ v.ops) : ¬ v.heads.covers dot := by
  cases h with
  | op op hfresh hprev hseq =>
    rw [VaultRows.addOp_ops, ExtTreeMap.mem_insert, compare_eq_iff_eq] at hnew
    obtain rfl := hnew.resolve_right hold
    unfold VersionVector.covers
    omega
  | snapshot => exact absurd (by rwa [VaultRows.addSnapshot_ops] at hnew) hold
  | wrap => exact absurd (by rwa [VaultRows.putWrap_ops] at hnew) hold

theorem Stored.run_not_covers_of_new (h : ReflTransGen Stored v v') {dot : Dot}
    (hnew : dot ∈ v'.ops) (hold : dot ∉ v.ops) : ¬ v.heads.covers dot := by
  induction h with
  | refl => exact absurd hnew hold
  | @tail b c hrun hstep ih =>
    by_cases hb : dot ∈ b.ops
    · exact ih hb
    · have := hstep.not_covers_of_new hnew hb
      exact fun hcov => this ((Stored.run_keepsOps hrun).heads_le dot hcov)

theorem VaultStep.not_covers_of_new (h : VaultStep prim v v') {dot : Dot} (hnew : dot ∈ v'.ops)
    (hold : dot ∉ v.ops) : ¬ v.heads.covers dot := by
  obtain hrun | ⟨grant, wraps, hrepair⟩ | ⟨itemId, hcompact⟩ |
    ⟨newAccountKeyEpoch, newAccountKeyId, rotation, plan, hcheck, hwrite⟩ := h.cases
  · exact Stored.run_not_covers_of_new hrun hnew hold
  · exact absurd (hrepair.fadesOps.2 dot hnew) hold
  · exact absurd ((compactItem_fadesOps hcompact).2 dot hnew) hold
  · exact absurd ((writeVault_fadesOps (checkVault_eq_ok hcheck).2.1 hwrite).2 dot hnew) hold

theorem VaultStep.run_not_covers_of_new (h : ReflTransGen (VaultStep prim) v v') {dot : Dot}
    (hnew : dot ∈ v'.ops) (hold : dot ∉ v.ops) : ¬ v.heads.covers dot := by
  induction h with
  | refl => exact absurd hnew hold
  | @tail b c hrun hstep ih =>
    by_cases hb : dot ∈ b.ops
    · exact ih hb
    · have := hstep.not_covers_of_new hnew hb
      exact fun hcov => this ((VaultStep.run_keepsOps hrun).heads_le dot hcov)

/-! ### Clamped vectors -/

/-- Every retained snapshot's clamped vector is at most the heads. -/
def ClampedToHeads (v : VaultRows) : Prop :=
  ∀ (id : SnapshotId) (row : SnapshotRow), v.snapshots[id]? = some row → row.clamped ≤ v.heads

theorem ClampedToHeads.of_snapshotsFrom (h : ClampedToHeads v) (hops : v.KeepsOps v')
    (hsnaps : v.SnapshotsFrom v') : ClampedToHeads v' := by
  intro id row' hrow'
  obtain ⟨row, hrow, hf⟩ := hsnaps id row' hrow'
  have hclamped : row'.clamped = row.clamped := by
    obtain rfl | rfl := hf
    · rfl
    · rfl
  rw [hclamped]
  exact (h id row hrow).trans hops.heads_le

theorem Stored.clampedToHeads (h : Stored v v') (hv : ClampedToHeads v) : ClampedToHeads v' := by
  have hheads := h.keepsOps.heads_le
  intro id row hrow
  cases h with
  | op op =>
    rw [VaultRows.addOp_snapshots] at hrow
    exact (hv id row hrow).trans hheads
  | snapshot snapshot =>
    rw [VaultRows.addSnapshot_snapshots, ExtTreeMap.getElem?_insert_iff] at hrow
    split_ifs at hrow with hid
    · cases hrow
      exact le_trans inf_le_right hheads
    · exact (hv id row hrow).trans hheads
  | wrap wrap =>
    rw [VaultRows.putWrap_snapshots] at hrow
    exact (hv id row hrow).trans hheads

theorem VaultStep.clampedToHeads (h : VaultStep prim v v') (hv : ClampedToHeads v) :
    ClampedToHeads v' := by
  have hops := h.keepsOps
  obtain hrun | ⟨grant, wraps, hrepair⟩ | ⟨itemId, hcompact⟩ |
    ⟨newAccountKeyEpoch, newAccountKeyId, rotation, plan, hcheck, hwrite⟩ := h.cases
  · clear hops h
    induction hrun with
    | refl => exact hv
    | tail _ hstep ih => exact hstep.clampedToHeads ih
  · exact hv.of_snapshotsFrom hops hrepair.snapshots.2
  · exact hv.of_snapshotsFrom hops (compactItem_snapshotsFrom hcompact)
  · exact hv.of_snapshotsFrom hops (writeVault_snapshots (checkVault_eq_ok hcheck).2.1 hwrite).2

theorem VaultReachable.clampedToHeads (h : VaultReachable prim v) : ClampedToHeads v := by
  refine h.rec_on (fun accountId accountKeyEpoch envelope id row hrow => ?_)
    fun v v' _ hstep => hstep.clampedToHeads
  simp at hrow

/-! ### Headers without a body -/

/-- The bodies are as they were and no snapshot is lost. -/
theorem BodilessCovered.of_keeps (h : BodilessCovered v)
    (hops : ∀ (dot : Dot) (row' : OpRow), v'.ops[dot]? = some row' →
      ∃ row, v.ops[dot]? = some row ∧ row'.header = row.header ∧ row'.body = row.body)
    (hsnaps : v.KeepsSnapshots v') : BodilessCovered v' := by
  intro dot row' hrow' hbody
  obtain ⟨row, hrow, hheader, hsame⟩ := hops dot row' hrow'
  obtain ⟨s, hs, hcov⟩ := h dot row hrow (hsame ▸ hbody)
  rw [hheader]
  exact ⟨s, itemSnapshots_mono hsnaps hs, hcov⟩

theorem Repair.bodilessCovered {grant : VaultSelfGrant} {wraps : List WrapRow}
    (h : Repair v grant wraps v') (hv : BodilessCovered v) : BodilessCovered v' := by
  refine hv.of_keeps (fun dot row' hrow' => ?_) h.snapshots.1
  obtain ⟨replaced, -, hwrites⟩ := h.writes
  rw [(repairWrites_eq_ok hwrites).1] at hrow'
  simp only [VaultRows.clearRecordWrapsBelow, ExtTreeMap.getElem?_map] at hrow'
  obtain ⟨row, hrow, rfl⟩ := Option.map_eq_some_iff.mp hrow'
  refine ⟨row, hrow, ?_⟩
  split_ifs <;> exact ⟨rfl, rfl⟩

theorem writeVault_bodilessCovered {plan : VaultPlan}
    (hgrant : plan.hasGrant = v.selfGrant.isSome) (h : writeVault v plan = .ok v')
    (hv : BodilessCovered v) : BodilessCovered v' := by
  refine hv.of_keeps (fun dot row' hrow' => ?_) (writeVault_snapshots hgrant h).1
  rw [(writeVault_eq_ok hgrant h).1] at hrow'
  simp only [VaultRows.clearRecordWraps, ExtTreeMap.getElem?_map] at hrow'
  obtain ⟨row, hrow, rfl⟩ := Option.map_eq_some_iff.mp hrow'
  exact ⟨row, hrow, rfl, rfl⟩

theorem Adds.bodilessCovered {authors : Authors} {vaultId : VaultId} {rule : WrapRule}
    {record : Record} (hadds : Adds prim authors vaultId true rule record v v')
    (hstored : Stored v v') (h : BodilessCovered v) : BodilessCovered v' := by
  cases record with
  | op record =>
    obtain ⟨op, hop, rfl⟩ := hadds
    obtain ⟨_, _, -, -, -, -, -, -, hbody, hsame, -⟩ := verifyOp_eq_ok_iff.mp hop
    intro dot row hrow hnone
    rw [VaultRows.addOp_ops, ExtTreeMap.getElem?_insert_iff] at hrow
    split_ifs at hrow with hdot
    · cases hrow
      have hsome := hbody.2 rfl
      rw [← hsame, show op.body = none from hnone] at hsome
      cases hsome
    · obtain ⟨s, hs, hcov⟩ := h dot row hrow hnone
      exact ⟨s, itemSnapshots_mono hstored.keepsSnapshots hs, hcov⟩
  | snapshot record =>
    obtain ⟨snapshot, -, rfl⟩ := hadds
    refine h.of_keeps (fun dot row hrow => ⟨row, ?_, rfl, rfl⟩) hstored.keepsSnapshots
    rwa [VaultRows.addSnapshot_ops] at hrow

theorem Uploads.bodilessCovered {env : Environment} {vaultId : VaultId} {records : List Record}
    {results : List UploadResult} (h : Uploads prim env vaultId v records results v')
    (hv : BodilessCovered v) : BodilessCovered v' := by
  induction h with
  | nil => exact hv
  | held _ _ ih => exact ih hv
  | added hstored _ hadds _ ih => exact ih (hadds.bodilessCovered hstored hv)

/-! ### Compactions -/

/-- The rows after the item's bodies are deleted and the first `k` snapshots are dropped. -/
def VaultRows.compacting (v : VaultRows) (itemId : ItemId) (plan : WorkerPlan) (k : ℕ) : VaultRows :=
  (v.deleteBodies itemId plan.deleteBodies).dropSnapshots itemId (plan.dropSnapshots.take k)

theorem coverAuthors_compacting (itemId : ItemId) (plan : WorkerPlan) (k : ℕ) (dot : Dot) :
    (v.compacting itemId plan k).coverAuthors itemId dot =
      Sync.coverAuthors (without (v.itemSnapshots itemId) (plan.dropSnapshots.take k)) dot := by
  refine coverAuthors_congr (fun s => ?_) dot
  rw [mem_without, mem_itemSnapshots, mem_itemSnapshots]
  unfold VaultRows.compacting
  simp only [getElem?_dropSnapshots]
  rw [deleteBodies_eq]
  constructor
  · rintro ⟨id, row, ⟨hrow, hkept⟩, hitem, rfl⟩
    exact ⟨⟨id, row, hrow, hitem, rfl⟩, fun h => hkept ⟨hitem, h⟩⟩
  · rintro ⟨⟨id, row, hrow, hitem, rfl⟩, hkept⟩
    exact ⟨id, row, ⟨hrow, fun h => hkept h.2⟩, hitem, rfl⟩

theorem mem_itemOpDots {itemId : ItemId} {dot : Dot} {body : Body} :
    ⟨dot, body⟩ ∈ v.itemOpDots itemId ↔ ∃ row, v.ops[dot]? = some row ∧
      row.header.itemId = itemId ∧ body = if row.body.isSome then .held else .absent := by
  simp only [VaultRows.itemOpDots, List.mem_map, List.mem_filter, Prod.exists, OpDot.mk.injEq,
    ExtTreeMap.mem_toList_iff_getElem?_eq_some, decide_eq_true_eq]
  constructor
  · rintro ⟨d, row, ⟨hrow, hitem⟩, rfl, rfl⟩
    exact ⟨row, hrow, hitem, rfl⟩
  · rintro ⟨row, hrow, hitem, rfl⟩
    exact ⟨dot, row, ⟨hrow, hitem⟩, rfl, rfl⟩

/-- A header without a body had none before the run, or the run deletes its body. -/
theorem absent_or_deleted {itemId : ItemId} {dots : List Dot} {dot : Dot} {row : OpRow}
    (hrow : (v.deleteBodies itemId dots).ops[dot]? = some row) (hitem : row.header.itemId = itemId)
    (hbody : row.body = none) : ⟨dot, .absent⟩ ∈ v.itemOpDots itemId ∨ dot ∈ dots := by
  rw [getElem?_deleteBodies] at hrow
  obtain ⟨old, hold, hnew⟩ := Option.map_eq_some_iff.mp hrow
  by_cases hdot : dot ∈ dots
  · exact .inr hdot
  · simp only [hdot, and_false, if_false] at hnew
    subst hnew
    exact .inl (mem_itemOpDots.mpr ⟨old, hold, hitem, by simp [hbody]⟩)

section Plan

variable {itemId : ItemId} {plan : WorkerPlan}
  (hplan : planWorker (v.itemSnapshots itemId) (v.itemOpDots itemId) = .ok plan)

include hplan

/-- Each drop leaves every header without a body two authors, or all it had. -/
theorem min_two_le_coverAuthors {k : ℕ} (hk : k < plan.dropSnapshots.length) {dot : Dot}
    {row : OpRow} (hrow : (v.deleteBodies itemId plan.deleteBodies).ops[dot]? = some row)
    (hitem : row.header.itemId = itemId) (hbody : row.body = none) :
    min 2 ((v.compacting itemId plan k).coverAuthors itemId dot).card ≤
      ((v.compacting itemId plan (k + 1)).coverAuthors itemId dot).card := by
  rw [coverAuthors_compacting, coverAuthors_compacting]
  have hkeep := planWorker_dropSnapshots hplan [dot] (by
    simpa using absent_or_deleted hrow hitem hbody)
  exact hkeep k hk dot List.mem_cons_self

/-- A whole run leaves every header without a body two authors, or all it had. -/
theorem min_two_le_coverAuthors_of_le {dot : Dot} {row : OpRow}
    (hrow : (v.deleteBodies itemId plan.deleteBodies).ops[dot]? = some row)
    (hitem : row.header.itemId = itemId) (hbody : row.body = none) (k : ℕ)
    (hk : k ≤ plan.dropSnapshots.length) :
    min 2 (v.coverAuthors itemId dot).card ≤
      ((v.compacting itemId plan k).coverAuthors itemId dot).card := by
  induction k with
  | zero =>
    rw [coverAuthors_compacting]
    have hnone : without (v.itemSnapshots itemId) (plan.dropSnapshots.take 0) =
        v.itemSnapshots itemId := by simp [without]
    rw [hnone]
    exact min_le_right _ _
  | succ k ih =>
    have hstep := min_two_le_coverAuthors hplan hk hrow hitem hbody
    have := ih (by omega)
    omega

end Plan

theorem coverAuthors_nonempty {itemId : ItemId} {dot : Dot} :
    (v.coverAuthors itemId dot).Nonempty ↔ ∃ s ∈ v.itemSnapshots itemId, s.covers dot := by
  constructor
  · rintro ⟨author, hauthor⟩
    obtain ⟨s, hs, hcov, -⟩ := mem_coverAuthors.mp hauthor
    exact ⟨s, hs, hcov⟩
  · rintro ⟨s, hs, hcov⟩
    exact ⟨s.author, mem_coverAuthors.mpr ⟨s, hs, hcov, rfl⟩⟩

theorem compactItem_bodilessCovered {itemId : ItemId} (h : compactItem v itemId = .ok v')
    (hv : BodilessCovered v) : BodilessCovered v' := by
  obtain ⟨plan, hplan, rfl⟩ := compactItem_eq_ok h
  have hwhole : v.compacting itemId plan plan.dropSnapshots.length =
      (v.deleteBodies itemId plan.deleteBodies).dropSnapshots itemId plan.dropSnapshots := by
    rw [VaultRows.compacting, List.take_length]
  intro dot row hrow hbody
  rw [dropSnapshots_eq] at hrow
  have hrow' : (v.deleteBodies itemId plan.deleteBodies).ops[dot]? = some row := hrow
  by_cases hitem : row.header.itemId = itemId
  · have hpos : 0 < (v.coverAuthors itemId dot).card := by
      obtain habsent | hdeleted := absent_or_deleted hrow' hitem hbody
      · obtain ⟨old, hold, holditem, hflag⟩ := mem_itemOpDots.mp habsent
        have hnone : old.body = none := by
          cases hb : old.body with
          | none => rfl
          | some b => simp [hb] at hflag
        have hcov := hv dot old hold hnone
        rw [holditem] at hcov
        exact Finset.card_pos.mpr (coverAuthors_nonempty.mpr hcov)
      · have := (planWorker_deleteBodies hplan hdeleted).2
        exact lt_of_lt_of_le (by omega) this
    have hle := min_two_le_coverAuthors_of_le hplan hrow' hitem hbody _ le_rfl
    rw [hitem, ← hwhole]
    exact coverAuthors_nonempty.mp (Finset.card_pos.mp (by omega))
  · -- An operation of another item keeps its body, and the other item keeps its snapshots.
    rw [getElem?_deleteBodies] at hrow'
    obtain ⟨old, hold, hnew⟩ := Option.map_eq_some_iff.mp hrow'
    have hsame : old = row := by
      by_cases hold' : old.header.itemId = itemId ∧ dot ∈ plan.deleteBodies
      · rw [if_pos hold'] at hnew
        subst hnew
        exact absurd hold'.1 hitem
      · rwa [if_neg hold'] at hnew
    subst hsame
    obtain ⟨s, hs, hcov⟩ := hv dot old hold hbody
    obtain ⟨id, srow, hsrow, hsitem, rfl⟩ := mem_itemSnapshots.mp hs
    refine ⟨_, mem_itemSnapshots.mpr ⟨id, srow, ?_, hsitem, rfl⟩, hcov⟩
    rw [getElem?_dropSnapshots, deleteBodies_eq]
    exact ⟨hsrow, fun h => hitem (hsitem ▸ h.1)⟩

/-! ### Every write -/

theorem VaultStep.bodilessCovered (h : VaultStep prim v v') (hv : BodilessCovered v) :
    BodilessCovered v' := by
  cases h with
  | upload env accountId request results h =>
    obtain ⟨done, rest, accepted, -, hrun, -⟩ := upload_uploads h
    exact hrun.bodilessCovered hv
  | heal env accountId healer request h =>
    obtain ⟨-, ⟨-, tx, hheal, rfl⟩ | ⟨grant, tx, -, hheal, rfl⟩⟩ := heal_eq_ok h
    · obtain ⟨rows₁, rfl, hrun, -, -, hnew⟩ := healIn_eq_pure prim hheal
      intro dot row hrow hbody
      obtain hold | hcov := hnew dot row hrow
      · obtain ⟨s, hs, hcov⟩ := hv dot row hold hbody
        exact ⟨s, itemSnapshots_mono (Stored.run_keepsSnapshots hrun) hs, hcov⟩
      · exact hcov hbody
    · obtain ⟨-, k, -, -, ⟨hsame, -⟩ | hrepair⟩ := healSelfGrant_eq_pure hheal
      · rwa [hsame]
      · exact hrepair.bodilessCovered hv
  | compact itemId h => exact compactItem_bodilessCovered h hv
  | rotate newAccountKeyEpoch newAccountKeyId rotation plan hplan h =>
    exact writeVault_bodilessCovered (checkVault_eq_ok hplan).2.1 h hv

/-- In every vault, some retained snapshot covers each header without a body. -/
theorem VaultReachable.bodilessCovered (h : VaultReachable prim v) : BodilessCovered v := by
  refine h.rec_on (fun accountId accountKeyEpoch envelope dot row hrow => ?_)
    fun v v' _ hstep => hstep.bodilessCovered
  simp at hrow

/-- An upload is a run of uploads of its records one by one. -/
theorem upload_run {env : Environment} {accountId : AccountId} {request : UploadRequest}
    {results : List UploadResult} (h : upload prim env accountId request v = .ok (results, v')) :
    ReflTransGen (fun v v' => ∃ record ∈ request.records, ∃ result,
      upload prim env accountId { request with records := [record] } v = .ok ([result], v')) v v' := by
  obtain ⟨haccount, -⟩ := upload_eq_ok h
  obtain ⟨done, rest, accepted, hsplit, hrun, -⟩ := upload_uploads h
  have hmem : ∀ record ∈ done, record ∈ request.records := by
    intro record hrecord
    rw [hsplit]
    exact List.mem_append_left _ hrecord
  clear hsplit h
  induction hrun with
  | nil => exact .refl
  | held hholds _ ih =>
    obtain ⟨hrecord, hrest⟩ := List.forall_mem_cons.mp hmem
    refine .head ⟨_, hrecord, .alreadyStored, ?_⟩ (ih haccount hrest)
    exact upload_singleton haccount (uploadRecord_of_holds prim hholds)
  | added hstored hupload _ _ ih =>
    obtain ⟨hrecord, hrest⟩ := List.forall_mem_cons.mp hmem
    refine .head ⟨_, hrecord, .stored, upload_singleton haccount hupload⟩ (ih ?_ hrest)
    exact hstored.fixed.1.trans haccount

variable (prim) in
/-- Compaction never loses the last evidence. In every vault, some retained snapshot covers each
header without a body. A snapshot never covers an operation stored after it; the records of an
upload are stored one after another, as if uploaded one by one. Every body a worker run deletes is
covered by snapshots of two authors, and no snapshot it drops, in turn, lowers the number of
authors that cover a header without a body below two, or below what it was. -/
theorem compaction_keeps_evidence :
    (∀ v, VaultReachable prim v → BodilessCovered v) ∧
    (∀ v v', VaultReachable prim v → ReflTransGen (VaultStep prim) v v' →
      ∀ (id : SnapshotId) (row : SnapshotRow) (dot : Dot), v.snapshots[id]? = some row →
        dot ∈ v'.ops → dot ∉ v.ops → ¬ row.clamped.covers dot) ∧
    (∀ env accountId request v results v',
      upload prim env accountId request v = .ok (results, v') →
      ReflTransGen (fun v v' => ∃ record ∈ request.records, ∃ result,
        upload prim env accountId { request with records := [record] } v = .ok ([result], v'))
        v v') ∧
    ∀ v itemId v', compactItem v itemId = .ok v' →
      ∃ plan, planWorker (v.itemSnapshots itemId) (v.itemOpDots itemId) = .ok plan ∧
        v' = v.compacting itemId plan plan.dropSnapshots.length ∧
        (∀ dot ∈ plan.deleteBodies, 2 ≤ (v.coverAuthors itemId dot).card) ∧
        ∀ k < plan.dropSnapshots.length, ∀ (dot : Dot) (row : OpRow),
          (v.compacting itemId plan k).ops[dot]? = some row → row.header.itemId = itemId →
          row.body = none →
          min 2 ((v.compacting itemId plan k).coverAuthors itemId dot).card ≤
            ((v.compacting itemId plan (k + 1)).coverAuthors itemId dot).card := by
  refine ⟨fun v h => h.bodilessCovered, ?_, ?_, ?_⟩
  · intro v v' hv hrun id row dot hrow hnew hold hcov
    exact VaultStep.run_not_covers_of_new hrun hnew hold (hv.clampedToHeads id row hrow dot hcov)
  · intro env accountId request v results v' h
    exact upload_run h
  · intro v itemId v' h
    obtain ⟨plan, hplan, rfl⟩ := compactItem_eq_ok h
    refine ⟨plan, hplan, ?_, fun dot hdot => (planWorker_deleteBodies hplan hdot).2, ?_⟩
    · rw [VaultRows.compacting, List.take_length]
    · intro k hk dot row hrow hitem hbody
      rw [VaultRows.compacting, dropSnapshots_eq] at hrow
      exact min_two_le_coverAuthors hplan hk hrow hitem hbody

end RizzyVault.Vault
