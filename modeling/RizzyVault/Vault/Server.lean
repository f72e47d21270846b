import RizzyVault.Vault.Rotation

/-!
# The server

The server's vaults under every write: the creation of a vault, uploads, healing requests, the
worker's compaction of one item, and rotations. A request that is refused or fails changes
nothing.

## Main definitions

* `createVault`, `compactItem`.
* `VaultStep`, `Step`, `Reachable`: the writes of one vault, of the server, and the databases they
  reach.

## Main results

* `Reachable.vault`: every vault of a reachable database was created and changed by its own writes.
* `VaultReachable.rec_on`: what every write keeps holds of every vault.

## References

* `crates/rizzy-domain-vault/src/keys.rs`, `crates/rizzy-domain-vault/src/compact.rs`.
-/

open RizzyVault.Core RizzyVault.Lib RizzyVault.Sync

namespace RizzyVault.Vault

open Std (ExtTreeMap)
open Relation (ReflTransGen)

/-- The rows of a vault created with its first self-grant. -/
def createVault (accountId : AccountId) (grant : VaultSelfGrant) : Except VaultError VaultRows :=
  if grant.vaultKeyEpoch ≠ 0 then .error .invalid
  else .ok ⟨accountId, 0, 1, some ⟨grant.accountKeyEpoch, 0, grant.envelope⟩, ∅, ∅, ∅⟩

/-- The bodies and snapshots one worker run removes from the item, in one transaction. -/
def compactItem (rows : VaultRows) (itemId : ItemId) : Except VaultError VaultRows :=
  match planWorker (rows.itemSnapshots itemId) (rows.itemOpDots itemId) with
  | .error _ => .error (.corrupt "an item's retained snapshots or ops repeat a key")
  | .ok plan =>
    let rows := plan.deleteBodies.foldl (fun rows dot => rows.deleteBody itemId dot) rows
    .ok (plan.dropSnapshots.foldl (fun rows storeSeq => rows.deleteSnapshot itemId storeSeq) rows)

variable (prim : Primitives)

/-- One write of one vault. -/
inductive VaultStep : VaultRows → VaultRows → Prop
  | upload {rows rows' : VaultRows} (env : Environment) (accountId : AccountId)
      (request : UploadRequest) (results : List UploadResult)
      (h : upload prim env accountId request rows = .ok (results, rows')) : VaultStep rows rows'
  | heal {rows rows' : VaultRows} (env : Environment) (accountId : AccountId)
      (healer : Option DeviceId) (request : HealingRequest)
      (h : heal prim env accountId healer request rows = .ok (.ok rows')) : VaultStep rows rows'
  | compact {rows rows' : VaultRows} (itemId : ItemId)
      (h : compactItem rows itemId = .ok rows') : VaultStep rows rows'
  | rotate {rows rows' : VaultRows} (newAccountKeyEpoch : ℕ) (newAccountKeyId : Bytes)
      (rotation : VaultRotation) (plan : VaultPlan)
      (hplan : checkVault rows newAccountKeyEpoch newAccountKeyId rotation = .ok plan)
      (h : writeVault rows plan = .ok rows') : VaultStep rows rows'

/-- One write of the server. -/
inductive Step : Database → Database → Prop
  | create {db : Database} {rows : VaultRows} (accountId : AccountId) (grant : VaultSelfGrant)
      (hnew : grant.vaultId ∉ db) (h : createVault accountId grant = .ok rows) :
      Step db (db.insert grant.vaultId rows)
  | upload {db : Database} {rows rows' : VaultRows} (env : Environment) (accountId : AccountId)
      (request : UploadRequest) (results : List UploadResult)
      (hrows : db[request.vaultId]? = some rows)
      (h : upload prim env accountId request rows = .ok (results, rows')) :
      Step db (db.insert request.vaultId rows')
  | heal {db : Database} {rows rows' : VaultRows} (env : Environment) (accountId : AccountId)
      (healer : Option DeviceId) (request : HealingRequest)
      (hrows : db[request.vaultId]? = some rows)
      (h : heal prim env accountId healer request rows = .ok (.ok rows')) :
      Step db (db.insert request.vaultId rows')
  | compact {db : Database} {rows rows' : VaultRows} (vaultId : VaultId) (itemId : ItemId)
      (hrows : db[vaultId]? = some rows) (h : compactItem rows itemId = .ok rows') :
      Step db (db.insert vaultId rows')
  | rotate {db db' : Database} (accountId : AccountId) (newAccountKeyEpoch : ℕ)
      (newAccountKeyId : Bytes) (entries : List VaultRotation)
      (h : applyRotation db accountId newAccountKeyEpoch newAccountKeyId entries = .ok db') :
      Step db db'

/-- The databases the server reaches. -/
def Reachable (db : Database) : Prop := ReflTransGen (Step prim) ∅ db

/-- The rows a vault reaches from its creation. -/
def VaultReachable (rows : VaultRows) : Prop :=
  ∃ (accountId : AccountId) (grant : VaultSelfGrant) (created : VaultRows),
    createVault accountId grant = .ok created ∧ ReflTransGen (VaultStep prim) created rows

variable {prim}

/-- A rotation writes each vault of the account from its own checked plan. -/
theorem applyRotation_vault {db db' : Database} {accountId : AccountId} {newAccountKeyEpoch : ℕ}
    {newAccountKeyId : Bytes} {entries : List VaultRotation}
    (h : applyRotation db accountId newAccountKeyEpoch newAccountKeyId entries = .ok db')
    {vaultId : VaultId} {rows' : VaultRows} (hrows' : db'[vaultId]? = some rows') :
    db[vaultId]? = some rows' ∨
      ∃ rows, db[vaultId]? = some rows ∧ VaultStep prim rows rows' := by
  unfold applyRotation at h
  obtain ⟨-, h⟩ := ite_throw_eq_ok.mp h
  obtain ⟨plans, hplans, h⟩ := except_bind_eq_ok.mp h
  refine foldlM_rec (motive := fun db' => ∀ vaultId rows', db'[vaultId]? = some rows' →
    db[vaultId]? = some rows' ∨ ∃ rows, db[vaultId]? = some rows ∧ VaultStep prim rows rows')
    h (fun _ _ h => .inl h) ?_ vaultId rows' hrows'
  intro e he a b ha hb id rows' hid
  obtain ⟨written, hwrite, hb⟩ := except_bind_eq_ok.mp hb
  cases hb
  rw [ExtTreeMap.getElem?_insert_iff] at hid
  split_ifs at hid with hkey
  · cases hid
    obtain ⟨x, hx, hxe⟩ := mapM_eq_ok_mem hplans e he
    obtain ⟨plan, hplan, hxe⟩ := except_bind_eq_ok.mp hxe
    cases hxe
    have hmem := (List.mem_filter.mp (List.of_mem_zip hx).1).1
    have hrows := ExtTreeMap.mem_toList_iff_getElem?_eq_some.mp hmem
    exact .inr ⟨_, hkey ▸ hrows, .rotate newAccountKeyEpoch newAccountKeyId _ plan hplan hwrite⟩
  · exact ha id rows' hid

theorem Step.vault {db db' : Database} (h : Step prim db db') {vaultId : VaultId}
    {rows' : VaultRows} (hrows' : db'[vaultId]? = some rows') :
    db[vaultId]? = some rows' ∨
      (∃ rows, db[vaultId]? = some rows ∧ VaultStep prim rows rows') ∨
      (vaultId ∉ db ∧ ∃ accountId grant, createVault accountId grant = .ok rows') := by
  cases h with
  | create accountId grant hnew h =>
    rw [ExtTreeMap.getElem?_insert_iff] at hrows'
    split_ifs at hrows' with hid
    · cases hrows'
      exact .inr (.inr ⟨hid ▸ hnew, accountId, grant, h⟩)
    · exact .inl hrows'
  | upload env accountId request results hrows h =>
    rw [ExtTreeMap.getElem?_insert_iff] at hrows'
    split_ifs at hrows' with hid
    · cases hrows'
      exact .inr (.inl ⟨_, hid ▸ hrows, .upload env accountId request results h⟩)
    · exact .inl hrows'
  | heal env accountId healer request hrows h =>
    rw [ExtTreeMap.getElem?_insert_iff] at hrows'
    split_ifs at hrows' with hid
    · cases hrows'
      exact .inr (.inl ⟨_, hid ▸ hrows, .heal env accountId healer request h⟩)
    · exact .inl hrows'
  | compact vaultId itemId hrows h =>
    rw [ExtTreeMap.getElem?_insert_iff] at hrows'
    split_ifs at hrows' with hid
    · cases hrows'
      exact .inr (.inl ⟨_, hid ▸ hrows, .compact itemId h⟩)
    · exact .inl hrows'
  | rotate accountId newAccountKeyEpoch newAccountKeyId entries h =>
    obtain h | h := applyRotation_vault h hrows'
    · exact .inl h
    · exact .inr (.inl h)

theorem Step.mem {db db' : Database} (h : Step prim db db') {vaultId : VaultId}
    (hmem : vaultId ∈ db) : vaultId ∈ db' := by
  cases h with
  | create => exact ExtTreeMap.mem_insert.mpr (.inr hmem)
  | upload => exact ExtTreeMap.mem_insert.mpr (.inr hmem)
  | heal => exact ExtTreeMap.mem_insert.mpr (.inr hmem)
  | compact => exact ExtTreeMap.mem_insert.mpr (.inr hmem)
  | rotate accountId newAccountKeyEpoch newAccountKeyId entries h =>
    unfold applyRotation at h
    obtain ⟨-, h⟩ := ite_throw_eq_ok.mp h
    obtain ⟨plans, -, h⟩ := except_bind_eq_ok.mp h
    refine foldlM_rec (motive := fun db => vaultId ∈ db) h hmem fun e _ a b ha hb => ?_
    obtain ⟨written, -, hb⟩ := except_bind_eq_ok.mp hb
    cases hb
    exact ExtTreeMap.mem_insert.mpr (.inr ha)

/-- A vault stays, as it is or changed by one of its own writes. -/
theorem Step.exists_vault {db db' : Database} (h : Step prim db db') {vaultId : VaultId}
    {rows : VaultRows} (hrows : db[vaultId]? = some rows) :
    ∃ rows', db'[vaultId]? = some rows' ∧ (rows' = rows ∨ VaultStep prim rows rows') := by
  have hmem : vaultId ∈ db := ExtTreeMap.mem_iff_isSome_getElem?.mpr (by rw [hrows]; rfl)
  have hmem' := h.mem hmem
  rw [ExtTreeMap.mem_iff_isSome_getElem?, Option.isSome_iff_exists] at hmem'
  obtain ⟨rows', hrows'⟩ := hmem'
  refine ⟨rows', hrows', ?_⟩
  obtain hsame | ⟨before, hbefore, hwrite⟩ | ⟨hnew, -⟩ := h.vault hrows'
  · exact .inl (Option.some.inj (hsame.symm.trans hrows))
  · obtain rfl := Option.some.inj (hbefore.symm.trans hrows)
    exact .inr hwrite
  · exact absurd hmem hnew

/-- Every vault of a reachable database was created and changed by its own writes. -/
theorem Reachable.vault {db : Database} (h : Reachable prim db) {vaultId : VaultId}
    {rows : VaultRows} (hrows : db[vaultId]? = some rows) : VaultReachable prim rows := by
  induction h generalizing rows with
  | refl => simp at hrows
  | tail _ hstep ih =>
    obtain hold | ⟨before, hbefore, hwrite⟩ | ⟨-, accountId, grant, hcreate⟩ := hstep.vault hrows
    · exact ih hold
    · obtain ⟨accountId, grant, created, hcreate, hrun⟩ := ih hbefore
      exact ⟨accountId, grant, created, hcreate, hrun.tail hwrite⟩
    · exact ⟨accountId, grant, rows, hcreate, .refl⟩

theorem createVault_eq_ok {rows : VaultRows} {accountId : AccountId} {grant : VaultSelfGrant}
    (h : createVault accountId grant = .ok rows) : rows =
      ⟨accountId, 0, 1, some ⟨grant.accountKeyEpoch, 0, grant.envelope⟩, ∅, ∅, ∅⟩ := by
  unfold createVault at h
  split_ifs at h
  exact (Except.ok.inj h).symm

/-- What holds of every created vault and is kept by every write holds of every vault. -/
theorem VaultReachable.rec_on {rows : VaultRows} {motive : VaultRows → Prop} (h : VaultReachable prim rows)
    (hcreate : ∀ accountId accountKeyEpoch envelope,
      motive ⟨accountId, 0, 1, some ⟨accountKeyEpoch, 0, envelope⟩, ∅, ∅, ∅⟩)
    (hstep : ∀ v v', VaultReachable prim v → VaultStep prim v v' → motive v → motive v') :
    motive rows := by
  obtain ⟨accountId, grant, created, hcreated, hrun⟩ := h
  induction hrun with
  | refl =>
    rw [createVault_eq_ok hcreated]
    exact hcreate accountId grant.accountKeyEpoch grant.envelope
  | tail hrun hwrite ih =>
    exact hstep _ _ ⟨accountId, grant, created, hcreated, hrun⟩ hwrite ih

end RizzyVault.Vault
