import RizzyVault.Vault.Frame

/-!
# No superseded wrap survives

A vault key is superseded when the vault's epoch rises. From then on the server holds no wrap
under it: neither in the wrap set nor with a record. The epoch rises at a rotation and at a repair
of a lagging self-grant, and never falls.

## Main definitions

* `Current`: every wrap that is held, and the self-grant, is at the vault's epoch or above.
* `Rewrapped`: what a rotation leaves of the wrap set.

## Main results

* `VaultReachable.current`, `VaultStep.vaultKeyEpoch_le`.
* `superseded_wraps_gone`: over all runs of the server.

## References

* `crates/rizzy-domain-vault/src/store.rs`, `crates/rizzy-domain-vault/src/rotation.rs`,
  `crates/rizzy-domain-vault/src/keys.rs`.
-/

open RizzyVault.Core RizzyVault.Lib RizzyVault.Sync

namespace RizzyVault.Vault

open Std (ExtTreeMap)
open Relation (ReflTransGen)

variable {v v' : VaultRows} {prim : Primitives}

/-- The self-grant is at the vault's epoch, and every wrap that is held is at it or above. -/
structure Current (v : VaultRows) : Prop where
  selfGrant : ∃ grant, v.selfGrant = some grant ∧ grant.vaultKeyEpoch = v.vaultKeyEpoch
  wraps : ∀ (loc : Locator) (c : WrapColumns), v.wraps[loc]? = some c →
    v.vaultKeyEpoch ≤ c.vaultKeyEpoch
  ops : ∀ (dot : Dot) (row : OpRow), v.ops[dot]? = some row → row.keyWrap.isSome →
    v.vaultKeyEpoch ≤ row.header.vaultKeyEpoch
  snapshots : ∀ (id : SnapshotId) (row : SnapshotRow), v.snapshots[id]? = some row →
    row.keyWrap.isSome → v.vaultKeyEpoch ≤ row.header.vaultKeyEpoch

/-! ### Stores -/

theorem Current.putWrap (h : Current v) {wrap : WrapRow}
    (hepoch : v.vaultKeyEpoch ≤ wrap.vaultKeyEpoch) : Current (v.putWrap wrap) := by
  have hwraps : ∀ (loc : Locator) (c : WrapColumns), (v.putWrap wrap).wraps[loc]? = some c →
      v.vaultKeyEpoch ≤ c.vaultKeyEpoch := by
    intro loc c hc
    rw [getElem?_putWrap] at hc
    split_ifs at hc with hput
    · cases hc
      exact hepoch
    · exact h.wraps loc c hc
  rw [VaultRows.putWrap_eq]
  exact ⟨h.selfGrant, hwraps, h.ops, h.snapshots⟩

theorem Current.fillWrap (h : Current v) {itemId : ItemId} {epoch : ℕ} {wrap : Option CarriedWrap}
    (hepoch : wrap.isSome → v.vaultKeyEpoch ≤ epoch) : Current (fillWrap v itemId epoch wrap) := by
  cases wrap with
  | none => exact h
  | some w => exact h.putWrap (hepoch rfl)

theorem le_of_keptWrap {epoch : ℕ} {wrap : Option CarriedWrap}
    (h : (v.keptWrap epoch wrap).isSome) : v.vaultKeyEpoch ≤ epoch := by
  unfold VaultRows.keptWrap at h
  split_ifs at h with hle
  · exact hle
  · cases h

theorem Stored.current (h : Stored v v') (hv : Current v) : Current v' := by
  cases h with
  | op op =>
    unfold VaultRows.addOp
    refine Current.fillWrap ?_ fun hkept => le_of_keptWrap hkept
    refine ⟨hv.selfGrant, hv.wraps, fun dot row hrow hwrap => ?_, hv.snapshots⟩
    rw [ExtTreeMap.getElem?_insert_iff] at hrow
    split_ifs at hrow with hdot
    · cases hrow
      have hkept : (v.keptWrap op.header.vaultKeyEpoch op.keyWrap).isSome := by simpa using hwrap
      exact le_of_keptWrap hkept
    · exact hv.ops dot row hrow hwrap
  | snapshot snapshot =>
    unfold VaultRows.addSnapshot
    refine Current.fillWrap ?_ fun hkept => le_of_keptWrap hkept
    refine ⟨hv.selfGrant, hv.wraps, hv.ops, fun id row hrow hwrap => ?_⟩
    rw [ExtTreeMap.getElem?_insert_iff] at hrow
    split_ifs at hrow with hid
    · cases hrow
      have hkept : (v.keptWrap snapshot.header.vaultKeyEpoch snapshot.keyWrap).isSome := by
        simpa [VaultRows.snapshotRow] using hwrap
      exact le_of_keptWrap hkept
    · exact hv.snapshots id row hrow hwrap
  | wrap wrap hepoch => exact hv.putWrap hepoch

/-! ### Repairs -/

theorem Repair.vaultKeyEpoch_eq {grant : VaultSelfGrant} {wraps : List WrapRow}
    (h : Repair v grant wraps v') : v'.vaultKeyEpoch = grant.vaultKeyEpoch := by
  obtain ⟨replaced, -, hwrites⟩ := h.writes
  rw [(repairWrites_eq_ok hwrites).1]

theorem Repair.current {grant : VaultSelfGrant} {wraps : List WrapRow}
    (h : Repair v grant wraps v') : Current v' := by
  obtain ⟨replaced, hcheck, hwrites⟩ := h.writes
  obtain ⟨hrows', hdom, hfrom⟩ := repairWrites_eq_ok hwrites
  have hwraps : ∀ (loc : Locator) (c : WrapColumns), v'.wraps[loc]? = some c →
      grant.vaultKeyEpoch ≤ c.vaultKeyEpoch := by
    intro loc c hc
    obtain ⟨hnot, hold⟩ | ⟨wrap, hwrap, -, rfl⟩ := hfrom loc c hc
    · -- A row that was not replaced is not stale: a stale one was deleted.
      obtain ⟨r, hr, hloc, rfl⟩ := exists_mem_wrapsAfter_none h.count hold
      have hmem : loc ∈ v'.wraps := ExtTreeMap.mem_iff_isSome_getElem?.mpr (by rw [hc]; rfl)
      by_contra hlow
      exact ((hdom loc).mp hmem).2 ⟨r, hr, ⟨not_le.mp hlow, hloc ▸ hnot⟩, hloc⟩
    · exact (checkHealWraps_epoch hcheck wrap hwrap).ge
  rw [hrows']
  refine ⟨⟨_, rfl, rfl⟩, hwraps, fun dot row hrow hwrap => ?_, fun id row hrow hwrap => ?_⟩
  · simp only [VaultRows.clearRecordWrapsBelow, ExtTreeMap.getElem?_map] at hrow
    obtain ⟨old, hold, rfl⟩ := Option.map_eq_some_iff.mp hrow
    split_ifs at hwrap ⊢ with hlow
    · cases hwrap
    · exact not_lt.mp hlow
  · simp only [VaultRows.clearRecordWrapsBelow, ExtTreeMap.getElem?_map] at hrow
    obtain ⟨old, hold, rfl⟩ := Option.map_eq_some_iff.mp hrow
    split_ifs at hwrap ⊢ with hlow
    · cases hwrap
    · exact not_lt.mp hlow

/-! ### Rotations -/

/-- What the re-wraps checked so far have in common. -/
structure RewrapsChecked (stored : List WrapRow) (newEpoch : ℕ)
    (acc : Option Bytes × List Locator × List WrapRow) : Prop where
  locators : acc.2.1 = acc.2.2.map WrapRow.locator
  epoch : ∀ w ∈ acc.2.2, w.vaultKeyEpoch = newEpoch
  key : ∀ w ∈ acc.2.2, ∃ key, acc.1 = some key ∧ symmetricKeyId w.envelope = some key
  fresh : ∀ key ∈ acc.1, ∀ row ∈ stored,
    (parseEnvelope row.envelope).map EnvelopeRef.keyId ≠ some key

theorem checkRewrap_checked {stored : List WrapRow} {newEpoch : ℕ} {wrap : WrapRow}
    {acc acc' : Option Bytes × List Locator × List WrapRow}
    (hacc : RewrapsChecked stored newEpoch acc)
    (h : checkRewrap stored newEpoch acc wrap = .ok acc') :
    RewrapsChecked stored newEpoch acc' := by
  obtain ⟨key, rewrappedAt, rewrapped⟩ := acc
  unfold checkRewrap at h
  dsimp only at h
  split at h
  · cases h
  · split at h
    · cases h
    · rename_i keyId hkeyId
      split at h
      · cases h
      · rename_i hkey
        split at h
        · cases h
        · cases h
          obtain ⟨hsame, hfresh⟩ := not_or.mp hkey
          have hshared : key.getD keyId = keyId := not_not.mp hsame
          refine ⟨?_, fun w hw => ?_, fun w hw => ?_, fun k hk row hrow => ?_⟩
          · have := hacc.locators
            dsimp only at this ⊢
            rw [this, List.map_append]
            rfl
          · obtain hw | hw := List.mem_append.mp hw
            · exact hacc.epoch w hw
            · rw [List.mem_singleton.mp hw]
          · refine ⟨keyId, by rw [hshared], ?_⟩
            obtain hw | hw := List.mem_append.mp hw
            · obtain ⟨key', hkey', hw'⟩ := hacc.key w hw
              dsimp only at hkey'
              rw [hkey', Option.getD_some] at hshared
              rw [← hshared]
              exact hw'
            · rw [List.mem_singleton.mp hw]
              exact hkeyId
          · rw [hshared] at hk
            cases hk
            intro hparse
            exact hfresh (List.any_eq_true.mpr ⟨row, hrow, decide_eq_true hparse⟩)

theorem foldlM_checkDropped {stored : List WrapRow} {rewrappedAt acc dropped out : List Locator}
    (h : dropped.foldlM (checkDropped stored rewrappedAt) acc = .ok out) : out = acc ++ dropped := by
  induction dropped generalizing acc with
  | nil =>
    cases h
    rw [List.append_nil]
  | cons at_ dropped ih =>
    rw [List.foldlM_cons] at h
    obtain ⟨acc', hstep, h⟩ := except_bind_eq_ok.mp h
    unfold checkDropped at hstep
    split_ifs at hstep
    cases hstep
    rw [ih h, List.append_assoc]
    rfl

/-- A checked rotation re-wraps rows at the new epoch, under one key that no stored row is under,
and names every stored row, either to re-wrap or to drop it. -/
theorem checkWraps_eq_ok {stored rewrapped : List WrapRow} {rotation : VaultRotation}
    {newEpoch : ℕ} {dropped : List Locator}
    (h : checkWraps stored rotation newEpoch = .ok (rewrapped, dropped)) :
    stored.length ≤ maxItemKeyWraps ∧
      (∀ w ∈ rewrapped, w.vaultKeyEpoch = newEpoch) ∧
      (∃ key, ∀ w ∈ rewrapped, symmetricKeyId w.envelope = some key ∧ ∀ row ∈ stored,
        (parseEnvelope row.envelope).map EnvelopeRef.keyId ≠ some key) ∧
      (∀ loc, loc ∈ dropped ↔ loc ∈ rotation.dropped) ∧
      ∀ row ∈ stored, row.locator ∈ rewrapped.map WrapRow.locator ∨ row.locator ∈ dropped := by
  unfold checkWraps at h
  obtain ⟨hlen, h⟩ := ite_throw_eq_ok.mp h
  obtain ⟨⟨key, rewrappedAt, rewrapped'⟩, hfold, h⟩ := except_bind_eq_ok.mp h
  obtain ⟨droppedAt, hdrop, h⟩ := except_bind_eq_ok.mp h
  obtain ⟨hall, h⟩ := ite_throw_eq_ok.mp h
  cases h
  have hchecked : RewrapsChecked stored newEpoch (key, rewrappedAt, rewrapped) :=
    foldlM_rec hfold ⟨rfl, by simp, by simp, by simp⟩
      fun wrap _ a b ha hb => checkRewrap_checked ha hb
  have hdropped : droppedAt = rotation.dropped := foldlM_checkDropped hdrop
  have hsorted (loc : Locator) : loc ∈ droppedAt.mergeSort ↔ loc ∈ droppedAt :=
    (List.mergeSort_perm _ _).mem_iff
  refine ⟨not_lt.mp hlen, hchecked.epoch, ?_, fun loc => by rw [hsorted, hdropped], ?_⟩
  · cases key with
    | none =>
      refine ⟨[], fun w hw => ?_⟩
      obtain ⟨key, hkey, -⟩ := hchecked.key w hw
      cases hkey
    | some key =>
      refine ⟨key, fun w hw => ⟨?_, hchecked.fresh key rfl⟩⟩
      obtain ⟨key', hkey', hw'⟩ := hchecked.key w hw
      cases hkey'
      exact hw'
  · intro row hrow
    rw [hsorted, ← hchecked.locators]
    by_contra hneither
    refine hall (List.any_eq_true.mpr ⟨row, hrow, decide_eq_true ?_⟩)
    exact not_or.mp hneither

/-- What a rotation leaves of the wrap set: the previous locators but the dropped ones, all at the
new epoch and under one key that no previous row was under. -/
structure Rewrapped (v : VaultRows) (rotation : VaultRotation) (v' : VaultRows) : Prop where
  vaultKeyEpoch : v'.vaultKeyEpoch = rotation.selfGrant.vaultKeyEpoch
  locators : ∀ loc, loc ∈ v'.wraps ↔ loc ∈ v.wraps ∧ loc ∉ rotation.dropped
  epoch : ∀ (loc : Locator) (c : WrapColumns), v'.wraps[loc]? = some c →
    c.vaultKeyEpoch = v'.vaultKeyEpoch
  key : ∃ key, ∀ (loc : Locator) (c : WrapColumns), v'.wraps[loc]? = some c →
    symmetricKeyId c.envelope = some key ∧
      ∀ (loc' : Locator) (c' : WrapColumns), v.wraps[loc']? = some c' →
        (parseEnvelope c'.envelope).map EnvelopeRef.keyId ≠ some key

section Rotate

variable {newAccountKeyEpoch : ℕ} {newAccountKeyId : Bytes} {rotation : VaultRotation}
  {plan : VaultPlan} (hcheck : checkVault v newAccountKeyEpoch newAccountKeyId rotation = .ok plan)
  (hwrite : writeVault v plan = .ok v')

include hcheck hwrite

theorem rewrapped_of_writeVault : Rewrapped v rotation v' := by
  obtain ⟨-, hgrant, hplan, hwraps⟩ := checkVault_eq_ok hcheck
  obtain ⟨hrows', hdom, hfrom⟩ := writeVault_eq_ok hgrant hwrite
  obtain ⟨hcount, hepoch, ⟨key, hkey⟩, hdropped, hnamed⟩ := checkWraps_eq_ok hwraps
  have hvault : v'.vaultKeyEpoch = rotation.selfGrant.vaultKeyEpoch := by rw [hrows', hplan]
  -- Every row that is left was re-wrapped: one that is not was dropped.
  have hrewrapped : ∀ (loc : Locator) (c : WrapColumns), v'.wraps[loc]? = some c →
      ∃ wrap ∈ plan.rewrapped, c = wrap.columns := by
    intro loc c hc
    obtain ⟨hnot, hold⟩ | ⟨wrap, hwrap, -, hcol⟩ := hfrom loc c hc
    · obtain ⟨r, hr, hloc, -⟩ := exists_mem_wrapsAfter_none hcount hold
      have hmem : loc ∈ v'.wraps := ExtTreeMap.mem_iff_isSome_getElem?.mpr (by rw [hc]; rfl)
      have hkept := ((hdom loc).mp hmem).2
      obtain hin | hin := hnamed r hr
      · exact absurd (hloc ▸ hin) hnot
      · exact absurd (hloc ▸ hin) hkept
    · exact ⟨wrap, hwrap, hcol⟩
  refine ⟨hvault, fun loc => ?_, fun loc c hc => ?_, key, fun loc c hc => ?_⟩
  · rw [hdom, hdropped]
  · obtain ⟨wrap, hwrap, rfl⟩ := hrewrapped loc c hc
    rw [hvault]
    exact hepoch wrap hwrap
  · obtain ⟨wrap, hwrap, rfl⟩ := hrewrapped loc c hc
    refine ⟨(hkey wrap hwrap).1, fun loc' c' hc' => ?_⟩
    obtain ⟨r, hr, -, rfl⟩ := exists_mem_wrapsAfter_none hcount hc'
    exact (hkey wrap hwrap).2 r hr

theorem current_of_writeVault : Current v' := by
  have hrewrapped := rewrapped_of_writeVault hcheck hwrite
  obtain ⟨-, hgrant, -, -⟩ := checkVault_eq_ok hcheck
  obtain ⟨hrows', -⟩ := writeVault_eq_ok hgrant hwrite
  refine ⟨?_, fun loc c hc => (hrewrapped.epoch loc c hc).ge, ?_, ?_⟩
  · rw [hrows']
    exact ⟨_, rfl, rfl⟩
  · intro dot row hrow hwrap
    rw [hrows'] at hrow
    simp only [VaultRows.clearRecordWraps, ExtTreeMap.getElem?_map] at hrow
    obtain ⟨old, -, rfl⟩ := Option.map_eq_some_iff.mp hrow
    cases hwrap
  · intro id row hrow hwrap
    rw [hrows'] at hrow
    simp only [VaultRows.clearRecordWraps, ExtTreeMap.getElem?_map] at hrow
    obtain ⟨old, -, rfl⟩ := Option.map_eq_some_iff.mp hrow
    cases hwrap

theorem vaultKeyEpoch_lt_of_writeVault : v.vaultKeyEpoch < v'.vaultKeyEpoch := by
  rw [(rewrapped_of_writeVault hcheck hwrite).vaultKeyEpoch]
  exact (checkVault_eq_ok hcheck).1

end Rotate

/-! ### Every write -/

theorem compactItem_current {itemId : ItemId} (h : compactItem v itemId = .ok v')
    (hv : Current v) : Current v' := by
  obtain ⟨plan, -, rfl⟩ := compactItem_eq_ok h
  refine ⟨?_, ?_, fun dot row hrow hwrap => ?_, fun id row hrow hwrap => ?_⟩
  · rw [dropSnapshots_eq, deleteBodies_eq]
    exact hv.selfGrant
  · rw [dropSnapshots_eq, deleteBodies_eq]
    exact hv.wraps
  · rw [dropSnapshots_eq] at hrow ⊢
    have hrow' := (getElem?_deleteBodies itemId plan.deleteBodies dot).symm.trans hrow
    obtain ⟨old, hold, rfl⟩ := Option.map_eq_some_iff.mp hrow'
    rw [deleteBodies_eq]
    have hkept : old.keyWrap.isSome := by split_ifs at hwrap <;> exact hwrap
    have hle := hv.ops dot old hold hkept
    split_ifs <;> exact hle
  · have hold := ((getElem?_dropSnapshots itemId plan.dropSnapshots id row).mp hrow).1
    rw [deleteBodies_eq] at hold
    rw [dropSnapshots_eq, deleteBodies_eq]
    exact hv.snapshots id row hold hwrap

theorem VaultStep.current (h : VaultStep prim v v') (hv : Current v) : Current v' := by
  obtain hrun | ⟨grant, wraps, hrepair⟩ | ⟨itemId, hcompact⟩ |
    ⟨newAccountKeyEpoch, newAccountKeyId, rotation, plan, hcheck, hwrite⟩ := h.cases
  · clear h
    induction hrun with
    | refl => exact hv
    | tail _ hstep ih => exact hstep.current ih
  · exact hrepair.current
  · exact compactItem_current hcompact hv
  · exact current_of_writeVault hcheck hwrite

/-- The epoch never falls. -/
theorem VaultStep.vaultKeyEpoch_le (h : VaultStep prim v v') :
    v.vaultKeyEpoch ≤ v'.vaultKeyEpoch := by
  obtain hrun | ⟨grant, wraps, hrepair⟩ | ⟨itemId, hcompact⟩ |
    ⟨newAccountKeyEpoch, newAccountKeyId, rotation, plan, hcheck, hwrite⟩ := h.cases
  · exact (Stored.run_fixed hrun).2.1.ge
  · rw [hrepair.vaultKeyEpoch_eq]
    exact hrepair.epoch.le
  · obtain ⟨plan, -, rfl⟩ := compactItem_eq_ok hcompact
    rw [dropSnapshots_eq, deleteBodies_eq]
  · exact (vaultKeyEpoch_lt_of_writeVault hcheck hwrite).le

/-- In every vault, every wrap that is held is at the current epoch or above. -/
theorem VaultReachable.current (h : VaultReachable prim v) : Current v := by
  refine h.rec_on (fun accountId accountKeyEpoch envelope => ?_) fun v v' _ hstep => hstep.current
  refine ⟨⟨_, rfl, rfl⟩, fun loc c hc => ?_, fun dot row hrow => ?_, fun id row hrow => ?_⟩
  · exact Nat.zero_le _
  · exact fun _ => Nat.zero_le _
  · exact fun _ => Nat.zero_le _

/-! ### The server -/

/-- The writes of a rotation leave each vault as its own plan wrote it. -/
theorem foldlM_writeVault {plans : List ((VaultId × VaultRows) × VaultPlan)} {db db' : Database}
    (hnodup : (plans.map fun p => p.1.1).Nodup)
    (h : plans.foldlM (fun (db : Database) e => do
      return db.insert e.1.1 (← writeVault e.1.2 e.2)) db = .ok db') :
    (∀ vaultId ∉ plans.map fun p => p.1.1, db'[vaultId]? = db[vaultId]?) ∧
      ∀ p ∈ plans, ∃ v', writeVault p.1.2 p.2 = .ok v' ∧ db'[p.1.1]? = some v' := by
  induction plans generalizing db with
  | nil =>
    cases h
    simp
  | cons p plans ih =>
    rw [List.map_cons, List.nodup_cons] at hnodup
    rw [List.foldlM_cons] at h
    obtain ⟨db₁, hstep, h⟩ := except_bind_eq_ok.mp h
    obtain ⟨written, hwrite, hstep⟩ := except_bind_eq_ok.mp hstep
    cases hstep
    obtain ⟨hother, hplans⟩ := ih hnodup.2 h
    refine ⟨fun vaultId hid => ?_, List.forall_mem_cons.mpr ⟨⟨written, hwrite, ?_⟩, hplans⟩⟩
    · rw [List.map_cons, List.mem_cons, not_or] at hid
      rw [hother vaultId hid.2, ExtTreeMap.getElem?_insert_iff, if_neg fun h => hid.1 h.symm]
    · rw [hother _ hnodup.1, ExtTreeMap.getElem?_insert_iff, if_pos rfl]

/-- A rotation checks and writes every vault of the account, each against the entry that names
it. -/
theorem applyRotation_rotates {db db' : Database} {accountId : AccountId} {newAccountKeyEpoch : ℕ}
    {newAccountKeyId : Bytes} {entries : List VaultRotation}
    (h : applyRotation db accountId newAccountKeyEpoch newAccountKeyId entries = .ok db')
    {vaultId : VaultId} (hv : db[vaultId]? = some v) (haccount : v.accountId = accountId) :
    ∃ rotation ∈ entries, rotation.selfGrant.vaultId = vaultId ∧ ∃ plan v',
      checkVault v newAccountKeyEpoch newAccountKeyId rotation = .ok plan ∧
        writeVault v plan = .ok v' ∧ db'[vaultId]? = some v' := by
  unfold applyRotation at h
  obtain ⟨hids, h⟩ := ite_throw_eq_ok.mp h
  have hids := not_not.mp hids
  obtain ⟨plans, hplans, h⟩ := except_bind_eq_ok.mp h
  have hmem : (vaultId, v) ∈ listVaults db accountId :=
    List.mem_filter.mpr ⟨ExtTreeMap.mem_toList_iff_getElem?_eq_some.mpr hv,
      decide_eq_true haccount⟩
  -- The entry at the vault's place names it.
  obtain ⟨i, hi, hvault⟩ := List.getElem_of_mem hmem
  have hlen : i < entries.length := by
    have := congrArg List.length hids
    simp only [List.length_map] at this
    omega
  have hname : entries[i].selfGrant.vaultId = vaultId := by
    have hget := List.getElem_of_eq hids (i := i) (by simpa using hi)
    simp only [List.getElem_map, hvault] at hget
    exact hget.symm
  have hzip : ((vaultId, v), entries[i]) ∈ (listVaults db accountId).zip entries := by
    rw [← hvault]
    refine List.mem_iff_getElem.mpr ⟨i, by simp [hi, hlen], by simp⟩
  obtain ⟨p, hp, hpe⟩ := mapM_eq_ok_exists hplans _ hzip
  obtain ⟨plan, hplan, hpe⟩ := except_bind_eq_ok.mp hpe
  cases hpe
  have hmap : plans.map (fun p => p.1.1) =
      ((listVaults db accountId).zip entries).map fun e => e.1.1 := by
    have hall : List.Forall₂ (fun e p => e.1.1 = p.1.1)
        ((listVaults db accountId).zip entries) plans := by
      refine (mapM_eq_ok_forall₂ hplans).imp fun e p hep => ?_
      obtain ⟨plan, -, hep⟩ := except_bind_eq_ok.mp hep
      cases hep
      rfl
    rw [← List.forall₂_eq_eq_eq, List.forall₂_map_left_iff, List.forall₂_map_right_iff]
    exact hall.flip.imp fun _ _ h => h.symm
  have hnodup : (plans.map fun p => p.1.1).Nodup := by
    have hvaults : ((listVaults db accountId).map Prod.fst).Nodup :=
      List.pairwise_map.mpr
        (((ExtTreeMap.pairwise_fst_toList db).filter _).imp fun h => h.ne)
    have hzips : ((listVaults db accountId).zip entries).map (fun e => e.1.1) =
        (((listVaults db accountId).zip entries).map Prod.fst).map Prod.fst := by
      rw [List.map_map]
      rfl
    have hlens : (listVaults db accountId).length ≤ entries.length := by
      have := congrArg List.length hids
      simp only [List.length_map] at this
      omega
    rw [hmap, hzips, List.map_fst_zip hlens]
    exact hvaults
  obtain ⟨v', hwrite, hv'⟩ := (foldlM_writeVault hnodup h).2 _ hp
  exact ⟨entries[i], List.getElem_mem hlen, hname, plan, v', hplan, hwrite, hv'⟩

variable (prim) in
/-- No superseded wrap survives. In every vault of every reachable database the self-grant is at
the vault's epoch, and every wrap, in the wrap set or with a record, is at it or above. No write
lowers the epoch; a rotation raises it and leaves a wrap set of the previous locators but the
dropped ones, at the new epoch and under one new key; a self-grant request that changes anything
raises it. -/
theorem superseded_wraps_gone :
    (∀ (db : Database) (vaultId : VaultId) (v : VaultRows), Reachable prim db →
      db[vaultId]? = some v → Current v) ∧
    (∀ (db db' : Database) (vaultId : VaultId) (v : VaultRows), Step prim db db' →
      db[vaultId]? = some v → ∃ v', db'[vaultId]? = some v' ∧ v.vaultKeyEpoch ≤ v'.vaultKeyEpoch) ∧
    (∀ db db' accountId newAccountKeyEpoch newAccountKeyId entries,
      applyRotation db accountId newAccountKeyEpoch newAccountKeyId entries = .ok db' →
      ∀ (vaultId : VaultId) (v : VaultRows), db[vaultId]? = some v → v.accountId = accountId →
        ∃ rotation ∈ entries, rotation.selfGrant.vaultId = vaultId ∧
          ∃ v', db'[vaultId]? = some v' ∧ v.vaultKeyEpoch < v'.vaultKeyEpoch ∧
            Rewrapped v rotation v') ∧
    ∀ env accountId healer request grant v v', request.selfGrant = some grant →
      heal prim env accountId healer request v = .ok (.ok v') →
      v' = v ∨ v.vaultKeyEpoch < v'.vaultKeyEpoch := by
  refine ⟨fun db vaultId v hdb hv => (hdb.vault hv).current, ?_, ?_, ?_⟩
  · intro db db' vaultId v hstep hv
    obtain ⟨v', hv', rfl | hwrite⟩ := hstep.exists_vault hv
    · exact ⟨v', hv', le_rfl⟩
    · exact ⟨v', hv', hwrite.vaultKeyEpoch_le⟩
  · intro db db' accountId newAccountKeyEpoch newAccountKeyId entries h vaultId v hv haccount
    obtain ⟨rotation, hrotation, hid, plan, v', hcheck, hwrite, hv'⟩ :=
      applyRotation_rotates h hv haccount
    exact ⟨rotation, hrotation, hid, v', hv', vaultKeyEpoch_lt_of_writeVault hcheck hwrite,
      rewrapped_of_writeVault hcheck hwrite⟩
  · intro env accountId healer request grant v v' hgrant h
    obtain ⟨-, ⟨hnone, -⟩ | ⟨grant', tx, -, hheal, rfl⟩⟩ := heal_eq_ok h
    · rw [hgrant] at hnone
      cases hnone
    · obtain ⟨-, k, -, -, ⟨hsame, -⟩ | hrepair⟩ := healSelfGrant_eq_pure hheal
      · exact .inl hsame
      · rw [hrepair.vaultKeyEpoch_eq]
        exact .inr hrepair.epoch

end RizzyVault.Vault
