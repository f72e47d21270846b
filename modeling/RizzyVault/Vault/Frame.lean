import RizzyVault.Vault.Writes

/-!
# What repairs, rotations and compactions write

A repair and a rotation change the epoch, the self-grant and the wrap set, and drop wraps that
records carry; a compaction drops bodies and snapshots of one item. Nothing else changes.

## Main results

* `overwriteWraps_eq_ok`, `deleteWraps_eq_ok`: the wrap set after its rows are replaced or deleted.
* `repairWrites_eq_ok`, `writeVault_eq_ok`: the rows after a repair and after a rotation.
* `compactItem_eq_ok`: the rows after a compaction.
* `VaultStep.cases`: every write of a vault is a run of single stores or one of these.
-/

open RizzyVault.Core RizzyVault.Lib RizzyVault.Sync

namespace RizzyVault.Vault

open Std (ExtTreeMap)
open Relation (ReflTransGen)

variable {rows rows' : VaultRows}

/-! ### The wrap set -/

theorem overwriteWrap_spec {wrap : WrapRow} (h : (rows.overwriteWrap wrap).2 = 1) :
    wrap.locator ∈ rows.wraps ∧ (rows.overwriteWrap wrap).1 =
      { rows with wraps := rows.wraps.insert wrap.locator wrap.columns } := by
  unfold VaultRows.overwriteWrap at h ⊢
  split_ifs at h ⊢ with hmem
  exact ⟨hmem, rfl⟩

/-- The rows after each wrap replaced the row at its locator. -/
theorem overwriteWraps_eq_ok {wraps : List WrapRow} {what : String}
    (h : overwriteWraps rows wraps what = .ok rows') :
    rows' = { rows with wraps := rows'.wraps } ∧
      (∀ loc, loc ∈ rows'.wraps ↔ loc ∈ rows.wraps) ∧
      ∀ (loc : Locator) (c : WrapColumns), rows'.wraps[loc]? = some c →
        loc ∉ wraps.map WrapRow.locator ∧ rows.wraps[loc]? = some c ∨
          ∃ wrap ∈ wraps, wrap.locator = loc ∧ c = wrap.columns := by
  unfold overwriteWraps at h
  induction wraps generalizing rows with
  | nil =>
    cases h
    exact ⟨rfl, fun _ => Iff.rfl, fun _ _ h => .inl ⟨by simp, h⟩⟩
  | cons wrap wraps ih =>
    rw [List.foldlM_cons] at h
    obtain ⟨rows₁, hstep, h⟩ := except_bind_eq_ok.mp h
    dsimp only at hstep
    split_ifs at hstep with hone
    obtain ⟨hmem, heq⟩ := overwriteWrap_spec (not_not.mp hone)
    have hrows₁ := Except.ok.inj hstep
    rw [heq] at hrows₁
    subst hrows₁
    obtain ⟨hframe, hdom, hfrom⟩ := ih h
    refine ⟨hframe, fun loc => ?_, fun loc c hc => ?_⟩
    · rw [hdom, ExtTreeMap.mem_insert, compare_eq_iff_eq]
      exact ⟨fun h => h.elim (fun h => h ▸ hmem) id, .inr⟩
    · obtain ⟨hnot, hold⟩ | ⟨w, hw, hloc, hcol⟩ := hfrom loc c hc
      · rw [ExtTreeMap.getElem?_insert_iff] at hold
        split_ifs at hold with hloc
        · exact .inr ⟨wrap, List.mem_cons_self, hloc, (Option.some.inj hold).symm⟩
        · refine .inl ⟨?_, hold⟩
          rw [List.map_cons, List.mem_cons, not_or]
          exact ⟨fun h => hloc h.symm, hnot⟩
      · exact .inr ⟨w, List.mem_cons_of_mem _ hw, hloc, hcol⟩

theorem deleteWrap_fst (at_ : Locator) :
    (rows.deleteWrap at_).1 = { rows with wraps := rows.wraps.erase at_ } := by
  unfold VaultRows.deleteWrap
  split_ifs with hmem
  · rfl
  · have hself : rows.wraps.erase at_ = rows.wraps := by
      refine ExtTreeMap.ext_getElem? fun loc => ?_
      rw [ExtTreeMap.getElem?_erase_iff]
      split_ifs with hloc
      · subst hloc
        exact (ExtTreeMap.getElem?_eq_none hmem).symm
      · rfl
    rw [hself]

theorem foldl_deleteWrap (locators : List Locator) :
    locators.foldl (fun rows at_ => (rows.deleteWrap at_).1) rows =
      { rows with wraps := locators.foldl ExtTreeMap.erase rows.wraps } := by
  induction locators generalizing rows with
  | nil => rfl
  | cons at_ locators ih =>
    rw [List.foldl_cons, ih, deleteWrap_fst]
    rfl

theorem getElem?_foldl_erase (m : ExtTreeMap Locator WrapColumns) (locators : List Locator)
    (loc : Locator) :
    (locators.foldl ExtTreeMap.erase m)[loc]? = if loc ∈ locators then none else m[loc]? := by
  induction locators generalizing m with
  | nil => simp
  | cons at_ locators ih =>
    simp only [List.foldl_cons, ih, ExtTreeMap.getElem?_erase_iff, List.mem_cons]
    by_cases hmem : loc ∈ locators
    · simp [hmem]
    · by_cases hloc : loc = at_
      · simp [hloc]
      · have hloc' : at_ ≠ loc := fun h => hloc h.symm
        simp [hmem, hloc, hloc']

theorem deleteWraps_eq_ok {dropped : List Locator} (h : deleteWraps rows dropped = .ok rows') :
    rows' = { rows with wraps := dropped.foldl ExtTreeMap.erase rows.wraps } := by
  unfold deleteWraps at h
  induction dropped generalizing rows with
  | nil =>
    cases h
    rfl
  | cons at_ dropped ih =>
    rw [List.foldlM_cons] at h
    obtain ⟨rows₁, hstep, h⟩ := except_bind_eq_ok.mp h
    dsimp only at hstep
    split_ifs at hstep with hone
    have hrows₁ := Except.ok.inj hstep
    rw [deleteWrap_fst] at hrows₁
    subst hrows₁
    exact ih h

theorem writeSelfGrant_eq_ok {grant : SelfGrantRow}
    (h : rows.writeSelfGrant grant rows.selfGrant.isSome = .ok rows') :
    rows' = { rows with selfGrant := some grant } := by
  unfold VaultRows.writeSelfGrant at h
  cases hg : rows.selfGrant with
  | none =>
    rw [hg] at h
    cases h
    rfl
  | some g =>
    rw [hg] at h
    cases h
    rfl

/-! ### Repairs and rotations -/

/-- The rows after a repair. -/
theorem repairWrites_eq_ok {grant : VaultSelfGrant} {stored replaced : List WrapRow}
    (h : repairWrites rows grant stored replaced = .ok rows') :
    rows' = { rows.clearRecordWrapsBelow grant.vaultKeyEpoch with
      vaultKeyEpoch := grant.vaultKeyEpoch
      selfGrant := some ⟨grant.accountKeyEpoch, grant.vaultKeyEpoch, grant.envelope⟩
      wraps := rows'.wraps } ∧
      (∀ loc, loc ∈ rows'.wraps ↔ loc ∈ rows.wraps ∧ ¬ ∃ r ∈ stored,
        (r.vaultKeyEpoch < grant.vaultKeyEpoch ∧ r.locator ∉ replaced.map WrapRow.locator) ∧
          r.locator = loc) ∧
      ∀ (loc : Locator) (c : WrapColumns), rows'.wraps[loc]? = some c →
        loc ∉ replaced.map WrapRow.locator ∧ rows.wraps[loc]? = some c ∨
          ∃ wrap ∈ replaced, wrap.locator = loc ∧ c = wrap.columns := by
  unfold repairWrites at h
  obtain ⟨rows₁, hgrant, h⟩ := except_bind_eq_ok.mp h
  obtain ⟨rows₂, hover, h⟩ := except_bind_eq_ok.mp h
  have hrows₁ : rows₁ = { rows with
      vaultKeyEpoch := grant.vaultKeyEpoch
      selfGrant := some ⟨grant.accountKeyEpoch, grant.vaultKeyEpoch, grant.envelope⟩ } :=
    writeSelfGrant_eq_ok hgrant
  obtain ⟨hframe, hdom, hfrom⟩ := overwriteWraps_eq_ok hover
  let stale := stored.filter fun r =>
    r.vaultKeyEpoch < grant.vaultKeyEpoch ∧ r.locator ∉ replaced.map WrapRow.locator
  have hdel : stale.foldl (fun rows r => (rows.deleteWrap r.locator).1) rows₂ =
      { rows₂ with wraps := (stale.map WrapRow.locator).foldl ExtTreeMap.erase rows₂.wraps } := by
    rw [← foldl_deleteWrap, List.foldl_map]
  have hrows' : rows' = { rows.clearRecordWrapsBelow grant.vaultKeyEpoch with
      vaultKeyEpoch := grant.vaultKeyEpoch
      selfGrant := some ⟨grant.accountKeyEpoch, grant.vaultKeyEpoch, grant.envelope⟩
      wraps := (stale.map WrapRow.locator).foldl ExtTreeMap.erase rows₂.wraps } := by
    rw [← Except.ok.inj h]
    change (stale.foldl (fun rows r => (rows.deleteWrap r.locator).1) rows₂).clearRecordWrapsBelow
      grant.vaultKeyEpoch = _
    rw [hdel, hframe, hrows₁]
    rfl
  have hwraps : rows'.wraps = (stale.map WrapRow.locator).foldl ExtTreeMap.erase rows₂.wraps := by
    rw [hrows']
  have hold : rows₁.wraps = rows.wraps := by rw [hrows₁]
  have hstale (loc : Locator) : loc ∈ stale.map WrapRow.locator ↔ ∃ r ∈ stored,
      (r.vaultKeyEpoch < grant.vaultKeyEpoch ∧ r.locator ∉ replaced.map WrapRow.locator) ∧
        r.locator = loc := by
    simp only [stale, List.mem_map, List.mem_filter, decide_eq_true_eq, and_assoc]
  refine ⟨by rw [hwraps]; exact hrows', fun loc => ?_, fun loc c hc => ?_⟩
  · rw [ExtTreeMap.mem_iff_isSome_getElem?, hwraps, getElem?_foldl_erase, ← hstale, ← hold, ← hdom,
      ExtTreeMap.mem_iff_isSome_getElem?]
    split_ifs with hmem
    · simp [hmem]
    · simp [hmem]
  · rw [hwraps, getElem?_foldl_erase] at hc
    split_ifs at hc
    rw [← hold]
    exact hfrom loc c hc

/-- The rows after a rotation. -/
theorem writeVault_eq_ok {plan : VaultPlan} (hgrant : plan.hasGrant = rows.selfGrant.isSome)
    (h : writeVault rows plan = .ok rows') :
    rows' = { rows.clearRecordWraps with
      vaultKeyEpoch := plan.grant.vaultKeyEpoch
      selfGrant := some plan.grant
      wraps := rows'.wraps } ∧
      (∀ loc, loc ∈ rows'.wraps ↔ loc ∈ rows.wraps ∧ loc ∉ plan.dropped) ∧
      ∀ (loc : Locator) (c : WrapColumns), rows'.wraps[loc]? = some c →
        loc ∉ plan.rewrapped.map WrapRow.locator ∧ rows.wraps[loc]? = some c ∨
          ∃ wrap ∈ plan.rewrapped, wrap.locator = loc ∧ c = wrap.columns := by
  unfold writeVault at h
  obtain ⟨rows₁, hwrite, h⟩ := except_bind_eq_ok.mp h
  obtain ⟨rows₂, hover, h⟩ := except_bind_eq_ok.mp h
  obtain ⟨rows₃, hdel, h⟩ := except_bind_eq_ok.mp h
  rw [hgrant] at hwrite
  have hrows₁ : rows₁ = { rows with
      vaultKeyEpoch := plan.grant.vaultKeyEpoch
      selfGrant := some plan.grant } := writeSelfGrant_eq_ok hwrite
  obtain ⟨hframe, hdom, hfrom⟩ := overwriteWraps_eq_ok hover
  have hrows' : rows' = { rows.clearRecordWraps with
      vaultKeyEpoch := plan.grant.vaultKeyEpoch
      selfGrant := some plan.grant
      wraps := plan.dropped.foldl ExtTreeMap.erase rows₂.wraps } := by
    rw [← Except.ok.inj h, deleteWraps_eq_ok hdel, hframe, hrows₁]
    rfl
  have hwraps : rows'.wraps = plan.dropped.foldl ExtTreeMap.erase rows₂.wraps := by rw [hrows']
  have hold : rows₁.wraps = rows.wraps := by rw [hrows₁]
  refine ⟨by rw [hwraps]; exact hrows', fun loc => ?_, fun loc c hc => ?_⟩
  · rw [ExtTreeMap.mem_iff_isSome_getElem?, hwraps, getElem?_foldl_erase, ← hold, ← hdom,
      ExtTreeMap.mem_iff_isSome_getElem?]
    split_ifs with hmem
    · simp [hmem]
    · simp [hmem]
  · rw [hwraps, getElem?_foldl_erase] at hc
    split_ifs at hc
    rw [← hold]
    exact hfrom loc c hc

theorem checkVault_eq_ok {newAccountKeyEpoch : ℕ} {newAccountKeyId : Bytes}
    {rotation : VaultRotation} {plan : VaultPlan}
    (h : checkVault rows newAccountKeyEpoch newAccountKeyId rotation = .ok plan) :
    rows.vaultKeyEpoch < rotation.selfGrant.vaultKeyEpoch ∧
      plan.hasGrant = rows.selfGrant.isSome ∧
      plan.grant = ⟨rotation.selfGrant.accountKeyEpoch, rotation.selfGrant.vaultKeyEpoch,
        rotation.selfGrant.envelope⟩ ∧
      checkWraps (rows.wrapsAfter none (maxItemKeyWraps + 1)) rotation
        rotation.selfGrant.vaultKeyEpoch = .ok (plan.rewrapped, plan.dropped) := by
  unfold checkVault at h
  obtain ⟨hepoch, h⟩ := ite_throw_eq_ok.mp h
  obtain ⟨-, h⟩ := ite_throw_eq_ok.mp h
  obtain ⟨⟨rewrapped, dropped⟩, hwraps, h⟩ := except_bind_eq_ok.mp h
  obtain ⟨-, -, h⟩ := except_bind_eq_ok.mp h
  cases h
  exact ⟨not_le.mp (not_or.mp hepoch).2, rfl, rfl, hwraps⟩

/-- A repair that is carried out: the stored self-grant lags, the new epoch is above the vault's
and at or above that of every record and every row. -/
structure Repair (rows : VaultRows) (grant : VaultSelfGrant) (wraps : List WrapRow)
    (rows' : VaultRows) : Prop where
  lags : ∀ s ∈ rows.selfGrant, s.accountKeyEpoch < grant.accountKeyEpoch
  epoch : rows.vaultKeyEpoch < grant.vaultKeyEpoch
  records : ∀ e ∈ rows.maxRecordEpoch, e ≤ grant.vaultKeyEpoch
  count : (rows.wrapsAfter none (maxItemKeyWraps + 1)).length ≤ maxItemKeyWraps
  rows_le : ∀ r ∈ rows.wrapsAfter none (maxItemKeyWraps + 1), r.vaultKeyEpoch ≤ grant.vaultKeyEpoch
  writes : ∃ replaced, checkHealWraps (rows.wrapsAfter none (maxItemKeyWraps + 1)) wraps
      grant.vaultKeyEpoch = some replaced ∧
    repairWrites rows grant (rows.wrapsAfter none (maxItemKeyWraps + 1)) replaced = .ok rows'

/-- What a request with a self-grant did: nothing, where the stored self-grant is the one it
carries, or the repair. -/
theorem healSelfGrant_eq_pure {env : Environment} {vaultId : VaultId} {healer : Option DeviceId}
    {key : Option AccountKeyState} {grant : VaultSelfGrant} {request : HealingRequest} {tx : Tx}
    (h : healSelfGrant (openTx env vaultId rows) healer key grant request = pure tx) :
    request.records = [] ∧ ∃ k, key = some k ∧ grant.accountKeyEpoch = k.accountKeyEpoch ∧
      (tx.rows = rows ∧ (∃ s, rows.selfGrant = some s ∧
          s.accountKeyEpoch = grant.accountKeyEpoch ∧ s.vaultKeyEpoch = grant.vaultKeyEpoch) ∨
        Repair rows grant request.itemKeyWraps tx.rows) := by
  unfold healSelfGrant at h
  cases key with
  | none => simp at h
  | some k =>
    simp only [Served.bind_eq_pure_iff, Served.require_eq_pure_iff, decide_eq_true_eq] at h
    obtain ⟨-, ⟨hrecords, -, hkey, -⟩, h⟩ := h
    refine ⟨List.isEmpty_iff.mp hrecords, k, rfl, hkey, ?_⟩
    split_ifs at h with hlags
    · simp only [Served.bind_eq_pure_iff, Served.require_eq_pure_iff, decide_eq_true_eq] at h
      obtain ⟨-, -, -, hepoch, -, hrecs, -, ⟨hcount, hle⟩, h⟩ := h
      cases hcheck : checkHealWraps (rows.wrapsAfter none (maxItemKeyWraps + 1))
          request.itemKeyWraps grant.vaultKeyEpoch with
      | none =>
        have hcheck' : checkHealWraps ((openTx env vaultId rows).rows.wrapsAfter none
          (maxItemKeyWraps + 1)) request.itemKeyWraps grant.vaultKeyEpoch = none := hcheck
        simp [hcheck'] at h
      | some replaced =>
        have hcheck' : checkHealWraps ((openTx env vaultId rows).rows.wrapsAfter none
          (maxItemKeyWraps + 1)) request.itemKeyWraps grant.vaultKeyEpoch = some replaced := hcheck
        simp only [hcheck', Served.bind_eq_pure_iff, Served.ofStore_eq_pure_iff,
          Served.pure_eq_pure_iff] at h
        obtain ⟨rows', hwrites, rfl⟩ := h
        refine .inr ⟨?_, hepoch, ?_, hcount, ?_, replaced, hcheck, hwrites⟩
        · intro s hs
          rw [hkey]
          exact of_decide_eq_true ((Option.all_eq_true _ _).mp hlags s hs)
        · intro e he
          exact of_decide_eq_true ((Option.all_eq_true _ _).mp hrecs e he)
        · intro r hr
          exact of_decide_eq_true (List.all_eq_true.mp hle r hr)
    · simp only [Served.bind_eq_pure_iff, Served.require_eq_pure_iff, Served.pure_eq_pure_iff] at h
      obtain ⟨-, hany, rfl⟩ := h
      obtain ⟨s, hs, heq⟩ := (Option.any_eq_true _ _).mp hany
      exact .inl ⟨rfl, s, hs, of_decide_eq_true heq⟩

theorem mem_wrapsAfter_none {limit : ℕ} {r : WrapRow} (h : r ∈ rows.wrapsAfter none limit) :
    rows.wraps[r.locator]? = some r.columns := by
  have hmem := List.mem_of_mem_take h
  obtain ⟨e, he, rfl⟩ := List.mem_map.mp hmem
  exact ExtTreeMap.mem_toList_iff_getElem?_eq_some.mp (List.mem_filter.mp he).1

/-- A wrap set within the limit is listed whole. -/
theorem exists_mem_wrapsAfter_none {limit : ℕ} (hcount : (rows.wrapsAfter none (limit + 1)).length ≤ limit)
    {loc : Locator} {c : WrapColumns} (h : rows.wraps[loc]? = some c) :
    ∃ r ∈ rows.wrapsAfter none (limit + 1), r.locator = loc ∧ r.columns = c := by
  unfold VaultRows.wrapsAfter at hcount ⊢
  rw [List.length_take] at hcount
  rw [List.take_of_length_le (by omega)]
  have he : (loc, c) ∈ rows.wraps.toList := ExtTreeMap.mem_toList_iff_getElem?_eq_some.mpr h
  exact ⟨⟨(ofLex loc).1, (ofLex loc).2, c.vaultKeyEpoch, c.envelope⟩,
    List.mem_map.mpr ⟨(loc, c), List.mem_filter.mpr ⟨he, rfl⟩, rfl⟩, rfl, rfl⟩

theorem checkHealWrap_epoch {stored : List WrapRow} {newEpoch : ℕ} {wrap : WrapRow}
    {acc acc' : Option Bytes × List Locator × List WrapRow}
    (h : checkHealWrap stored newEpoch acc wrap = some acc')
    (hacc : ∀ w ∈ acc.2.2, w.vaultKeyEpoch = newEpoch) :
    ∀ w ∈ acc'.2.2, w.vaultKeyEpoch = newEpoch := by
  obtain ⟨key, seen, replaced⟩ := acc
  unfold checkHealWrap at h
  dsimp only at h hacc
  split at h
  · cases h
  · split at h
    · cases h
    · split at h
      · cases h
      · cases h
        split_ifs with hrow
        · intro w hw
          obtain hw | hw := List.mem_append.mp hw
          · exact hacc w hw
          · rw [List.mem_singleton.mp hw]
        · exact hacc

theorem checkHealWraps_epoch {stored wraps replaced : List WrapRow} {newEpoch : ℕ}
    (h : checkHealWraps stored wraps newEpoch = some replaced) :
    ∀ w ∈ replaced, w.vaultKeyEpoch = newEpoch := by
  have hfold (wraps : List WrapRow) (acc out : Option Bytes × List Locator × List WrapRow)
      (hout : wraps.foldlM (checkHealWrap stored newEpoch) acc = some out)
      (hacc : ∀ w ∈ acc.2.2, w.vaultKeyEpoch = newEpoch) :
      ∀ w ∈ out.2.2, w.vaultKeyEpoch = newEpoch := by
    induction wraps generalizing acc with
    | nil =>
      cases hout
      exact hacc
    | cons wrap wraps ih =>
      rw [List.foldlM_cons] at hout
      obtain ⟨acc', hstep, hout⟩ := Option.bind_eq_some_iff.mp hout
      exact ih acc' hout (checkHealWrap_epoch hstep hacc)
  unfold checkHealWraps at h
  split at h
  · cases h
  · rename_i seen replaced' hout
    cases h
    exact hfold wraps _ _ hout (by simp)
  · rename_i key seen replaced' hout
    dsimp only at h
    split_ifs at h
    cases h
    exact hfold wraps _ _ hout (by simp)

/-! ### Compactions -/

/-- The rows after the bodies at `dots` of the item are deleted. -/
def VaultRows.deleteBodies (v : VaultRows) (itemId : ItemId) (dots : List Dot) : VaultRows :=
  dots.foldl (fun rows dot => rows.deleteBody itemId dot) v

/-- The rows after the item's snapshots with these store sequences are dropped. -/
def VaultRows.dropSnapshots (v : VaultRows) (itemId : ItemId) (storeSeqs : List ℕ) : VaultRows :=
  storeSeqs.foldl (fun rows storeSeq => rows.deleteSnapshot itemId storeSeq) v

theorem deleteBodies_eq (itemId : ItemId) (dots : List Dot) :
    rows.deleteBodies itemId dots =
      { rows with ops := (rows.deleteBodies itemId dots).ops } := by
  unfold VaultRows.deleteBodies
  induction dots generalizing rows with
  | nil => rfl
  | cons dot dots ih =>
    rw [List.foldl_cons, ih]
    rfl

theorem getElem?_deleteBodies (itemId : ItemId) (dots : List Dot) (dot : Dot) :
    (rows.deleteBodies itemId dots).ops[dot]? = rows.ops[dot]?.map fun row =>
      if row.header.itemId = itemId ∧ dot ∈ dots then { row with body := none } else row := by
  unfold VaultRows.deleteBodies
  induction dots generalizing rows with
  | nil => simp
  | cons d dots ih =>
    rw [List.foldl_cons, ih]
    unfold VaultRows.deleteBody
    rw [ExtTreeMap.getElem?_alter_iff]
    split_ifs with hd
    · subst hd
      cases rows.ops[d]? with
      | none => rfl
      | some row =>
        by_cases hitem : row.header.itemId = itemId
        · simp [hitem]
        · simp [hitem]
    · have hd' : dot ≠ d := fun h => hd h.symm
      simp [hd']

theorem dropSnapshots_eq (itemId : ItemId) (storeSeqs : List ℕ) :
    rows.dropSnapshots itemId storeSeqs =
      { rows with snapshots := (rows.dropSnapshots itemId storeSeqs).snapshots } := by
  unfold VaultRows.dropSnapshots
  induction storeSeqs generalizing rows with
  | nil => rfl
  | cons storeSeq storeSeqs ih =>
    rw [List.foldl_cons, ih]
    rfl

theorem getElem?_dropSnapshots (itemId : ItemId) (storeSeqs : List ℕ) (id : SnapshotId)
    (row : SnapshotRow) :
    (rows.dropSnapshots itemId storeSeqs).snapshots[id]? = some row ↔
      rows.snapshots[id]? = some row ∧
        ¬ (row.header.itemId = itemId ∧ row.storeSeq ∈ storeSeqs) := by
  unfold VaultRows.dropSnapshots
  induction storeSeqs generalizing rows with
  | nil => simp
  | cons storeSeq storeSeqs ih =>
    rw [List.foldl_cons, ih]
    unfold VaultRows.deleteSnapshot
    simp only [ExtTreeMap.getElem?_filter', List.mem_cons, Option.filter_eq_some_iff,
      decide_eq_true_eq]
    tauto

theorem compactItem_eq_ok {itemId : ItemId} (h : compactItem rows itemId = .ok rows') :
    ∃ plan, planWorker (rows.itemSnapshots itemId) (rows.itemOpDots itemId) = .ok plan ∧
      rows' = (rows.deleteBodies itemId plan.deleteBodies).dropSnapshots itemId
        plan.dropSnapshots := by
  unfold compactItem at h
  split at h
  · cases h
  · rename_i plan hplan
    exact ⟨plan, hplan, (Except.ok.inj h).symm⟩

/-! ### What stays -/

/-- No operation is added, lost or changed. -/
def VaultRows.FadesOps (v v' : VaultRows) : Prop := v.KeepsOps v' ∧ ∀ dot ∈ v'.ops, dot ∈ v.ops

theorem fadesOps_of_getElem? {f : Dot → OpRow → OpRow} (hf : ∀ dot (row : OpRow), row.Fades (f dot row))
    (h : ∀ dot : Dot, rows'.ops[dot]? = rows.ops[dot]?.map (f dot)) : rows.FadesOps rows' := by
  refine ⟨fun dot row hrow => ⟨f dot row, ?_, hf dot row⟩, fun dot hdot => ?_⟩
  · rw [h, hrow]
    rfl
  · rw [ExtTreeMap.mem_iff_isSome_getElem?] at hdot ⊢
    rwa [h, Option.isSome_map] at hdot

theorem keepsSnapshots_of_getElem? {f : SnapshotRow → SnapshotRow}
    (hf : ∀ row : SnapshotRow, row.Fades (f row))
    (h : ∀ id : SnapshotId, rows'.snapshots[id]? = rows.snapshots[id]?.map f) : rows.KeepsSnapshots rows' := by
  refine fun id row hrow => ⟨f row, ?_, hf row⟩
  rw [h, hrow]
  rfl

/-- No snapshot is added or changed. -/
def VaultRows.SnapshotsFrom (v v' : VaultRows) : Prop :=
  ∀ (id : SnapshotId) (row' : SnapshotRow), v'.snapshots[id]? = some row' →
    ∃ row, v.snapshots[id]? = some row ∧ row.Fades row'

theorem snapshotsFrom_of_getElem? {f : SnapshotRow → SnapshotRow}
    (hf : ∀ row : SnapshotRow, row.Fades (f row))
    (h : ∀ id : SnapshotId, rows'.snapshots[id]? = rows.snapshots[id]?.map f) :
    rows.SnapshotsFrom rows' := by
  intro id row' hrow'
  rw [h] at hrow'
  obtain ⟨row, hrow, rfl⟩ := Option.map_eq_some_iff.mp hrow'
  exact ⟨row, hrow, hf row⟩

theorem Repair.fadesOps {grant : VaultSelfGrant} {wraps : List WrapRow}
    (h : Repair rows grant wraps rows') : rows.FadesOps rows' := by
  obtain ⟨replaced, -, hwrites⟩ := h.writes
  obtain ⟨hrows', -⟩ := repairWrites_eq_ok hwrites
  rw [hrows']
  refine fadesOps_of_getElem? (f := fun _ row => if row.header.vaultKeyEpoch < grant.vaultKeyEpoch
    then { row with keyWrap := none } else row) (fun dot row => ?_) fun dot => ?_
  · split_ifs
    · exact ⟨rfl, rfl, .inl rfl, .inr rfl⟩
    · exact .refl row
  · simp [VaultRows.clearRecordWrapsBelow]

theorem Repair.snapshots {grant : VaultSelfGrant} {wraps : List WrapRow}
    (h : Repair rows grant wraps rows') :
    rows.KeepsSnapshots rows' ∧ rows.SnapshotsFrom rows' := by
  obtain ⟨replaced, -, hwrites⟩ := h.writes
  obtain ⟨hrows', -⟩ := repairWrites_eq_ok hwrites
  let f (row : SnapshotRow) : SnapshotRow :=
    if row.header.vaultKeyEpoch < grant.vaultKeyEpoch then { row with keyWrap := none } else row
  have hf (row : SnapshotRow) : row.Fades (f row) := by
    simp only [f]
    split_ifs
    · exact .inr rfl
    · exact .refl row
  have hmap (id : SnapshotId) : rows'.snapshots[id]? = rows.snapshots[id]?.map f := by
    rw [hrows']
    simp [VaultRows.clearRecordWrapsBelow, f]
  exact ⟨keepsSnapshots_of_getElem? hf hmap, snapshotsFrom_of_getElem? hf hmap⟩

theorem writeVault_fadesOps {plan : VaultPlan} (hgrant : plan.hasGrant = rows.selfGrant.isSome)
    (h : writeVault rows plan = .ok rows') : rows.FadesOps rows' := by
  obtain ⟨hrows', -⟩ := writeVault_eq_ok hgrant h
  rw [hrows']
  refine fadesOps_of_getElem? (f := fun _ row => { row with keyWrap := none })
    (fun dot row => ⟨rfl, rfl, .inl rfl, .inr rfl⟩) fun dot => ?_
  simp [VaultRows.clearRecordWraps]

theorem writeVault_snapshots {plan : VaultPlan} (hgrant : plan.hasGrant = rows.selfGrant.isSome)
    (h : writeVault rows plan = .ok rows') :
    rows.KeepsSnapshots rows' ∧ rows.SnapshotsFrom rows' := by
  obtain ⟨hrows', -⟩ := writeVault_eq_ok hgrant h
  have hf (row : SnapshotRow) : row.Fades { row with keyWrap := none } := .inr rfl
  have hmap (id : SnapshotId) : rows'.snapshots[id]? =
      rows.snapshots[id]?.map fun row => { row with keyWrap := none } := by
    rw [hrows']
    simp [VaultRows.clearRecordWraps]
  exact ⟨keepsSnapshots_of_getElem? hf hmap, snapshotsFrom_of_getElem? hf hmap⟩

theorem compactItem_snapshotsFrom {itemId : ItemId} (h : compactItem rows itemId = .ok rows') :
    rows.SnapshotsFrom rows' := by
  obtain ⟨plan, -, rfl⟩ := compactItem_eq_ok h
  intro id row hrow
  have hold := ((getElem?_dropSnapshots itemId plan.dropSnapshots id row).mp hrow).1
  rw [deleteBodies_eq] at hold
  exact ⟨row, hold, .refl row⟩

theorem compactItem_fadesOps {itemId : ItemId} (h : compactItem rows itemId = .ok rows') :
    rows.FadesOps rows' := by
  obtain ⟨plan, -, rfl⟩ := compactItem_eq_ok h
  refine fadesOps_of_getElem? (f := fun dot row =>
    if row.header.itemId = itemId ∧ dot ∈ plan.deleteBodies then { row with body := none } else row)
    (fun dot row => ?_) fun dot => ?_
  · split_ifs
    · exact ⟨rfl, rfl, .inr rfl, .inl rfl⟩
    · exact .refl row
  · rw [dropSnapshots_eq]
    exact getElem?_deleteBodies itemId plan.deleteBodies dot

/-! ### Every write -/

variable {prim : Primitives}

theorem upload_eq_ok {env : Environment} {accountId : AccountId} {request : UploadRequest}
    {results : List UploadResult}
    (h : upload prim env accountId request rows = .ok (results, rows')) :
    rows.accountId = accountId ∧ uploadRecords prim request.records
      (openTx env request.vaultId rows) = .ok (results, openTx env request.vaultId rows') := by
  unfold upload at h
  obtain ⟨tx, hopen, h⟩ := except_bind_eq_ok.mp h
  obtain ⟨⟨results', tx'⟩, hrecords, h⟩ := except_bind_eq_ok.mp h
  cases h
  obtain ⟨haccount, rfl⟩ := openSession_eq_ok_iff.mp hopen
  obtain ⟨done, rest, accepted, rows₁, -, rfl, -⟩ := uploadRecords_eq_ok prim hrecords
  exact ⟨haccount, hrecords⟩

/-- What an upload did to the vault. -/
theorem upload_uploads {env : Environment} {accountId : AccountId} {request : UploadRequest}
    {results : List UploadResult} (h : upload prim env accountId request rows = .ok (results, rows')) :
    ∃ done rest accepted, request.records = done ++ rest ∧
      Uploads prim env request.vaultId rows done accepted rows' ∧
      (rest = [] ∧ results = accepted ∨ ∃ error, rest ≠ [] ∧
        results = accepted ++ .rejected error :: rest.tail.map fun _ => .notProcessed) := by
  obtain ⟨-, hrecords⟩ := upload_eq_ok h
  obtain ⟨done, rest, accepted, rows₁, hsplit, htx, hrun, hres⟩ :=
    uploadRecords_eq_ok prim hrecords
  obtain rfl : rows' = rows₁ := congrArg Tx.rows htx
  exact ⟨done, rest, accepted, hsplit, hrun, hres⟩

/-- Records the vault holds are answered as already stored. -/
theorem upload_of_holds {env : Environment} {accountId : AccountId} {request : UploadRequest}
    (haccount : rows.accountId = accountId) (h : ∀ record ∈ request.records,
      Holds prim env.authors request.vaultId true .required rows record) :
    upload prim env accountId request rows =
      .ok (request.records.map fun _ => .alreadyStored, rows) := by
  refine except_bind_eq_ok.mpr ⟨_, openSession_eq_ok_iff.mpr ⟨haccount, rfl⟩, ?_⟩
  rw [uploadRecords_of_holds prim h]
  rfl

theorem upload_singleton {env : Environment} {accountId : AccountId} {vaultId : VaultId}
    {record : Record} {result : UploadResult} (haccount : rows.accountId = accountId)
    (h : uploadRecord prim (openTx env vaultId rows) record =
      pure (result, openTx env vaultId rows')) :
    upload prim env accountId ⟨vaultId, [record]⟩ rows = .ok ([result], rows') := by
  refine except_bind_eq_ok.mpr ⟨_, openSession_eq_ok_iff.mpr ⟨haccount, rfl⟩, ?_⟩
  unfold uploadRecords
  rw [h]
  rfl

theorem heal_eq_ok {env : Environment} {accountId : AccountId} {healer : Option DeviceId}
    {request : HealingRequest}
    (h : heal prim env accountId healer request rows = .ok (.ok rows')) :
    rows.accountId = accountId ∧
      ((request.selfGrant = none ∧ ∃ tx, healIn prim (openTx env request.vaultId rows) request =
          pure tx ∧ tx.rows = rows') ∨
        ∃ grant tx, request.selfGrant = some grant ∧
          healSelfGrant (openTx env request.vaultId rows) healer env.accountKey grant request =
            pure tx ∧ tx.rows = rows') := by
  unfold heal at h
  obtain ⟨tx, hopen, h⟩ := except_bind_eq_ok.mp h
  obtain ⟨haccount, rfl⟩ := openSession_eq_ok_iff.mp hopen
  refine ⟨haccount, ?_⟩
  cases hgrant : request.selfGrant with
  | none =>
    simp only [hgrant] at h
    obtain ⟨outcome, houtcome, h⟩ := except_bind_eq_ok.mp h
    cases outcome with
    | error refusal => cases h
    | ok tx' =>
      cases h
      exact .inl ⟨rfl, tx', houtcome, rfl⟩
  | some grant =>
    simp only [hgrant] at h
    obtain ⟨outcome, houtcome, h⟩ := except_bind_eq_ok.mp h
    cases outcome with
    | error refusal => cases h
    | ok tx' =>
      cases h
      exact .inr ⟨grant, tx', rfl, houtcome, rfl⟩

/-- Every write of a vault is a run of single stores, a repair, a compaction or a rotation. -/
theorem VaultStep.cases (h : VaultStep prim rows rows') :
    ReflTransGen Stored rows rows' ∨
      (∃ grant wraps, Repair rows grant wraps rows') ∨
      (∃ itemId, compactItem rows itemId = .ok rows') ∨
      ∃ newAccountKeyEpoch newAccountKeyId rotation plan,
        checkVault rows newAccountKeyEpoch newAccountKeyId rotation = .ok plan ∧
          writeVault rows plan = .ok rows' := by
  cases h with
  | upload env accountId request results h =>
    obtain ⟨done, rest, accepted, -, hrun, -⟩ := upload_uploads h
    exact .inl hrun.stored
  | heal env accountId healer request h =>
    obtain ⟨-, ⟨-, tx, hheal, rfl⟩ | ⟨grant, tx, -, hheal, rfl⟩⟩ := heal_eq_ok h
    · obtain ⟨rows₁, rfl, hrun, -⟩ := healIn_eq_pure prim hheal
      exact .inl hrun
    · obtain ⟨-, k, -, -, ⟨hsame, -⟩ | hrepair⟩ := healSelfGrant_eq_pure hheal
      · exact .inl (hsame ▸ .refl)
      · exact .inr (.inl ⟨grant, request.itemKeyWraps, hrepair⟩)
  | compact itemId h => exact .inr (.inr (.inl ⟨itemId, h⟩))
  | rotate newAccountKeyEpoch newAccountKeyId rotation plan hplan h =>
    exact .inr (.inr (.inr ⟨newAccountKeyEpoch, newAccountKeyId, rotation, plan, hplan, h⟩))

theorem VaultStep.keepsOps (h : VaultStep prim rows rows') : rows.KeepsOps rows' := by
  obtain hrun | ⟨grant, wraps, hrepair⟩ | ⟨itemId, hcompact⟩ |
    ⟨newAccountKeyEpoch, newAccountKeyId, rotation, plan, hcheck, hwrite⟩ := h.cases
  · exact Stored.run_keepsOps hrun
  · exact hrepair.fadesOps.1
  · exact (compactItem_fadesOps hcompact).1
  · exact (writeVault_fadesOps (checkVault_eq_ok hcheck).2.1 hwrite).1

/-- Nothing stored at a dot is ever lost or changed, but for its body and its carried wrap. -/
theorem VaultStep.run_keepsOps (h : ReflTransGen (VaultStep prim) rows rows') :
    rows.KeepsOps rows' := by
  induction h with
  | refl => exact .refl rows
  | tail _ hstep ih => exact ih.trans hstep.keepsOps

end RizzyVault.Vault
