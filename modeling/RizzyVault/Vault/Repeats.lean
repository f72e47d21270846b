import RizzyVault.Vault.Chains

/-!
# Repeated requests

A request that was processed may be sent again, at any later time. The vault still holds every
record of it, whatever bodies and carried wraps have gone since, so its records are answered as
already stored and nothing changes.

## Main definitions

* `Exchange`: an upload, a healing request, or a compaction that drops no snapshot.

## Main results

* `store_invariant`: chains stay linked, records stay what they are, a batch stores what comes
  before its first rejected record, a healing request is stored whole, and a request that was
  processed changes nothing when it is repeated.
-/

open RizzyVault.Core RizzyVault.Lib RizzyVault.Sync

namespace RizzyVault.Vault

open Std (ExtTreeMap)
open Relation (ReflTransGen)

variable (prim : Primitives)

/-- An upload, a healing request under the account key `key`, or a compaction that drops no
snapshot. -/
inductive Exchange (key : Option AccountKeyState) : VaultRows → VaultRows → Prop
  | upload {rows rows' : VaultRows} (env : Environment) (accountId : AccountId)
      (request : UploadRequest) (results : List UploadResult)
      (h : upload prim env accountId request rows = .ok (results, rows')) : Exchange key rows rows'
  | heal {rows rows' : VaultRows} (env : Environment) (hkey : env.accountKey = key)
      (accountId : AccountId) (healer : Option DeviceId) (request : HealingRequest)
      (h : heal prim env accountId healer request rows = .ok (.ok rows')) : Exchange key rows rows'
  | compact {rows rows' : VaultRows} (itemId : ItemId) (h : compactItem rows itemId = .ok rows')
      (hkeep : ∀ id ∈ rows.snapshots, id ∈ rows'.snapshots) : Exchange key rows rows'

variable {prim} {key : Option AccountKeyState} {v v' : VaultRows}

theorem Exchange.vaultStep (h : Exchange prim key v v') : VaultStep prim v v' := by
  cases h with
  | upload env accountId request results h => exact .upload env accountId request results h
  | heal env hkey accountId healer request h => exact .heal env accountId healer request h
  | compact itemId h hkeep => exact .compact itemId h

/-- What one exchange writes. -/
theorem Exchange.cases (h : Exchange prim key v v') :
    ReflTransGen Stored v v' ∨
      (∃ k grant wraps, key = some k ∧ grant.accountKeyEpoch = k.accountKeyEpoch ∧
        Repair v grant wraps v') ∨
      ∃ itemId, compactItem v itemId = .ok v' ∧ ∀ id ∈ v.snapshots, id ∈ v'.snapshots := by
  cases h with
  | upload env accountId request results h =>
    obtain ⟨done, rest, accepted, -, hrun, -⟩ := upload_uploads h
    exact .inl hrun.stored
  | heal env hkey accountId healer request h =>
    obtain ⟨-, ⟨-, tx, hheal, rfl⟩ | ⟨grant, tx, -, hheal, rfl⟩⟩ := heal_eq_ok h
    · obtain ⟨rows₁, rfl, hrun, -⟩ := healIn_eq_pure prim hheal
      exact .inl hrun
    · obtain ⟨-, k, hk, hepoch, ⟨hsame, -⟩ | hrepair⟩ := healSelfGrant_eq_pure hheal
      · exact .inl (hsame ▸ .refl)
      · exact .inr (.inl ⟨k, grant, _, hkey ▸ hk, hepoch, hrepair⟩)
  | compact itemId h hkeep => exact .inr (.inr ⟨itemId, h, hkeep⟩)

theorem Exchange.keepsSnapshots (h : Exchange prim key v v') : v.KeepsSnapshots v' := by
  obtain hrun | ⟨k, grant, wraps, -, -, hrepair⟩ | ⟨itemId, hcompact, hkeep⟩ := h.cases
  · exact Stored.run_keepsSnapshots hrun
  · exact hrepair.snapshots.1
  · intro id row hrow
    have hmem := hkeep id (ExtTreeMap.mem_iff_isSome_getElem?.mpr (by rw [hrow]; rfl))
    rw [ExtTreeMap.mem_iff_isSome_getElem?, Option.isSome_iff_exists] at hmem
    obtain ⟨row', hrow'⟩ := hmem
    obtain ⟨old, hold, hf⟩ := compactItem_snapshotsFrom hcompact id row' hrow'
    obtain rfl := Option.some.inj (hold.symm.trans hrow)
    exact ⟨row', hrow', hf⟩

theorem Exchange.run_keeps (h : ReflTransGen (Exchange prim key) v v') :
    v.KeepsOps v' ∧ v.KeepsSnapshots v' := by
  induction h with
  | refl => exact ⟨.refl v, .refl v⟩
  | tail _ hstep ih =>
    exact ⟨ih.1.trans hstep.vaultStep.keepsOps, ih.2.trans hstep.keepsSnapshots⟩

/-! ### Wraps and the self-grant -/

theorem Repair.settled {grant : VaultSelfGrant} {wraps : List WrapRow}
    (h : Repair v grant wraps v') {wrap : WrapRow} (hs : Settled v wrap) : Settled v' wrap := by
  obtain ⟨replaced, hcheck, hwrites⟩ := h.writes
  obtain ⟨hrows', hdom, hfrom⟩ := repairWrites_eq_ok hwrites
  have hepoch : v'.vaultKeyEpoch = grant.vaultKeyEpoch := by rw [hrows']
  unfold Settled
  rw [hepoch]
  obtain hlt | ⟨c, hc, hle⟩ := hs
  · exact .inl (hlt.trans h.epoch)
  · obtain ⟨r, hr, hloc, hcol⟩ := exists_mem_wrapsAfter_none h.count hc
    have hrle : c.vaultKeyEpoch ≤ grant.vaultKeyEpoch := hcol ▸ h.rows_le r hr
    -- A row at the new epoch is not stale, and a replaced one is at the new epoch too.
    obtain hlt | heq := (hle.trans hrle).lt_or_eq
    · exact .inl hlt
    · have hmem : wrap.locator ∈ v'.wraps := by
        refine (hdom wrap.locator).mpr
          ⟨ExtTreeMap.mem_iff_isSome_getElem?.mpr (by rw [hc]; rfl), ?_⟩
        rintro ⟨r', hr', ⟨hstale, -⟩, hloc'⟩
        have hcol' := mem_wrapsAfter_none hr'
        rw [hloc', hc] at hcol'
        have : c.vaultKeyEpoch = r'.vaultKeyEpoch := by rw [Option.some.inj hcol']; rfl
        omega
      rw [ExtTreeMap.mem_iff_isSome_getElem?, Option.isSome_iff_exists] at hmem
      obtain ⟨c', hc'⟩ := hmem
      refine .inr ⟨c', hc', ?_⟩
      obtain ⟨-, hsame⟩ | ⟨w, hw, -, rfl⟩ := hfrom _ c' hc'
      · rwa [← Option.some.inj (hc.symm.trans hsame)]
      · have := checkHealWraps_epoch hcheck w hw
        exact heq.trans_le this.ge

theorem Exchange.settled (h : Exchange prim key v v') {wrap : WrapRow} (hs : Settled v wrap) :
    Settled v' wrap := by
  obtain hrun | ⟨k, grant, wraps, -, -, hrepair⟩ | ⟨itemId, hcompact, -⟩ := h.cases
  · exact Stored.run_settled hrun hs
  · exact hrepair.settled hs
  · obtain ⟨plan, -, rfl⟩ := compactItem_eq_ok hcompact
    rw [dropSnapshots_eq, deleteBodies_eq]
    exact hs

/-- A self-grant under the account key stays. -/
theorem Exchange.selfGrant_eq (h : Exchange prim key v v') {k : AccountKeyState}
    (hkey : key = some k) {s : SelfGrantRow} (hs : v.selfGrant = some s)
    (hcurrent : s.accountKeyEpoch = k.accountKeyEpoch) : v'.selfGrant = some s := by
  obtain hrun | ⟨k', grant, wraps, hk', hepoch, hrepair⟩ | ⟨itemId, hcompact, -⟩ := h.cases
  · exact (Stored.run_fixed hrun).2.2.trans hs
  · obtain rfl := Option.some.inj (hkey.symm.trans hk')
    have := hrepair.lags s hs
    omega
  · obtain ⟨plan, -, rfl⟩ := compactItem_eq_ok hcompact
    rw [dropSnapshots_eq, deleteBodies_eq]
    exact hs

theorem Exchange.accountId_eq (h : Exchange prim key v v') : v'.accountId = v.accountId := by
  obtain hrun | ⟨k, grant, wraps, -, -, hrepair⟩ | ⟨itemId, hcompact, -⟩ := h.cases
  · exact (Stored.run_fixed hrun).1
  · obtain ⟨replaced, -, hwrites⟩ := hrepair.writes
    rw [(repairWrites_eq_ok hwrites).1]
    rfl
  · obtain ⟨plan, -, rfl⟩ := compactItem_eq_ok hcompact
    rw [dropSnapshots_eq, deleteBodies_eq]

theorem Exchange.run_accountId_eq (h : ReflTransGen (Exchange prim key) v v') :
    v'.accountId = v.accountId := by
  induction h with
  | refl => rfl
  | tail _ hstep ih => exact hstep.accountId_eq.trans ih

theorem Exchange.run_settled (h : ReflTransGen (Exchange prim key) v v') {wrap : WrapRow}
    (hs : Settled v wrap) : Settled v' wrap := by
  induction h with
  | refl => exact hs
  | tail _ hstep ih => exact hstep.settled ih

theorem Exchange.run_selfGrant_eq (h : ReflTransGen (Exchange prim key) v v')
    {k : AccountKeyState} (hkey : key = some k) {s : SelfGrantRow} (hs : v.selfGrant = some s)
    (hcurrent : s.accountKeyEpoch = k.accountKeyEpoch) : v'.selfGrant = some s := by
  induction h with
  | refl => exact hs
  | tail _ hstep ih => exact hstep.selfGrant_eq hkey ih hcurrent

/-! ### Repeats -/

/-- The vault holds every record of a healing request it stored. -/
theorem heal_holds {env : Environment} {accountId : AccountId} {healer : Option DeviceId}
    {request : HealingRequest} (h : heal prim env accountId healer request v = .ok (.ok v')) :
    ∀ record ∈ request.records,
      Holds prim env.authors request.vaultId false .optional v' record := by
  obtain ⟨-, ⟨-, tx, hheal, rfl⟩ | ⟨grant, tx, -, hheal, rfl⟩⟩ := heal_eq_ok h
  · obtain ⟨rows₁, rfl, -, hholds, -⟩ := healIn_eq_pure prim hheal
    exact hholds
  · obtain ⟨hempty, -⟩ := healSelfGrant_eq_pure hheal
    simp [hempty]

/-- Records that were not rejected are answered as already stored when they are sent again. -/
theorem upload_repeat {env env' : Environment} {accountId : AccountId} {request : UploadRequest}
    {results : List UploadResult} {v₀ : VaultRows} {done : List Record}
    (h : upload prim env accountId request v₀ = .ok (results, v))
    (hinit : done <+: request.records)
    (haccepted : ∀ result ∈ results.take done.length, result = .stored ∨ result = .alreadyStored)
    (hrun : ReflTransGen (Exchange prim key) v v') (hk : env.authors.Kept env'.authors) :
    upload prim env' accountId { request with records := done } v' =
      .ok (done.map fun _ => .alreadyStored, v') := by
  have hstep : Exchange prim key v₀ v := .upload env accountId request results h
  have haccount : v'.accountId = v₀.accountId :=
    (Exchange.run_accountId_eq hrun).trans hstep.accountId_eq
  obtain ⟨hops, hsnaps⟩ := Exchange.run_keeps hrun
  obtain ⟨haccount₀, -⟩ := upload_eq_ok h
  obtain ⟨processed, rest, accepted, hsplit, hup, hres⟩ := upload_uploads h
  refine upload_of_holds (haccount.trans haccount₀) fun record hrecord => ?_
  have hlength : done.length ≤ processed.length := by
    obtain ⟨rfl, -⟩ | ⟨error, -, rfl⟩ := hres
    · rw [hsplit, List.append_nil] at hinit
      exact hinit.length_le
    · -- The first rejected answer comes right after the processed records.
      by_contra hlong
      have hrejected : UploadResult.rejected error ∈ (accepted ++ UploadResult.rejected error ::
          rest.tail.map fun _ => UploadResult.notProcessed).take done.length := by
        rw [List.take_append, List.mem_append, hup.length_eq]
        obtain ⟨n, hn⟩ : ∃ n, done.length - processed.length = n + 1 :=
          ⟨done.length - processed.length - 1, by omega⟩
        rw [hn]
        exact .inr List.mem_cons_self
      simpa using haccepted _ hrejected
  have hdone : done <+: processed :=
    List.prefix_of_prefix_length_le (hsplit ▸ hinit) (List.prefix_append _ _) hlength
  exact (hup.holds record (hdone.subset hrecord)).mono prim hk hops hsnaps

theorem Repair.selfGrant_eq {grant : VaultSelfGrant} {wraps : List WrapRow}
    (h : Repair v grant wraps v') :
    v'.selfGrant = some ⟨grant.accountKeyEpoch, grant.vaultKeyEpoch, grant.envelope⟩ := by
  obtain ⟨replaced, -, hwrites⟩ := h.writes
  rw [(repairWrites_eq_ok hwrites).1]

/-- A self-grant request that was served is served again, without a change, while its epochs are
the stored ones. -/
theorem healSelfGrant_repeat {env : Environment} (env' : Environment) {vaultId : VaultId}
    {healer : Option DeviceId} {grant : VaultSelfGrant} {request : HealingRequest} {tx : Tx}
    (h : healSelfGrant (openTx env vaultId v) healer key grant request = pure tx)
    {s : SelfGrantRow} (hs : v'.selfGrant = some s)
    (hs₁ : s.accountKeyEpoch = grant.accountKeyEpoch) (hs₂ : s.vaultKeyEpoch = grant.vaultKeyEpoch) :
    healSelfGrant (openTx env' vaultId v') healer key grant request =
      pure (openTx env' vaultId v') := by
  unfold healSelfGrant at h ⊢
  cases key with
  | none => simp at h
  | some k =>
    simp only [Served.bind_eq_pure_iff, Served.require_eq_pure_iff] at h ⊢
    obtain ⟨-, hchecks, -⟩ := h
    have hepoch : grant.accountKeyEpoch = k.accountKeyEpoch := (of_decide_eq_true hchecks).2.2.1
    refine ⟨(), hchecks, ?_⟩
    have hgrant : (openTx env' vaultId v').rows.selfGrant = some s := hs
    have hlags : ¬ s.accountKeyEpoch < k.accountKeyEpoch := by omega
    simp only [hgrant, Option.all_some, decide_eq_false hlags, Bool.false_eq_true,
      not_false_eq_true, if_true, Served.bind_eq_pure_iff, Served.require_eq_pure_iff,
      Option.any_some]
    exact ⟨(), decide_eq_true ⟨hs₁, hs₂⟩, trivial⟩

/-- A healing request that was stored changes nothing when it is repeated. -/
theorem heal_repeat {env env' : Environment} {accountId : AccountId} {healer : Option DeviceId}
    {request : HealingRequest} {v₀ : VaultRows}
    (h : heal prim env accountId healer request v₀ = .ok (.ok v))
    (hrun : ReflTransGen (Exchange prim env.accountKey) v v') (hk : env.authors.Kept env'.authors)
    (hkey : env'.accountKey = env.accountKey) :
    heal prim env' accountId healer request v' = .ok (.ok v') := by
  have hstep : Exchange prim env.accountKey v₀ v := .heal env rfl accountId healer request h
  have haccount : v'.accountId = v₀.accountId :=
    (Exchange.run_accountId_eq hrun).trans hstep.accountId_eq
  obtain ⟨hops, hsnaps⟩ := Exchange.run_keeps hrun
  have hholds : ∀ record ∈ request.records,
      Holds prim env'.authors request.vaultId false .optional v' record :=
    fun record hrecord => (heal_holds h record hrecord).mono prim hk hops hsnaps
  unfold heal
  obtain ⟨haccount₀, ⟨hgrant, tx, hheal, rfl⟩ | ⟨grant, tx, hgrant, hheal, rfl⟩⟩ := heal_eq_ok h
  · obtain ⟨rows₁, rfl, -, -, hsettled, -⟩ := healIn_eq_pure prim hheal
    have hagain := healIn_of_holds prim (fun wrap hwrap =>
      Exchange.run_settled hrun (hsettled wrap hwrap)) hholds
    refine except_bind_eq_ok.mpr
      ⟨_, openSession_eq_ok_iff.mpr ⟨haccount.trans haccount₀, rfl⟩, ?_⟩
    simp only [hgrant, hagain]
    rfl
  · obtain ⟨-, k, hk', hepoch, hdone⟩ := healSelfGrant_eq_pure hheal
    have hstored : ∃ s, tx.rows.selfGrant = some s ∧ s.accountKeyEpoch = grant.accountKeyEpoch ∧
        s.vaultKeyEpoch = grant.vaultKeyEpoch := by
      obtain ⟨hsame, s, hs⟩ | hrepair := hdone
      · exact ⟨s, hsame ▸ hs.1, hs.2⟩
      · exact ⟨_, hrepair.selfGrant_eq, rfl, rfl⟩
    obtain ⟨s, hs, hs₁, hs₂⟩ := hstored
    have hs' := Exchange.run_selfGrant_eq hrun hk' hs (hs₁.trans hepoch)
    have hagain := healSelfGrant_repeat env' hheal hs' hs₁ hs₂
    refine except_bind_eq_ok.mpr
      ⟨_, openSession_eq_ok_iff.mpr ⟨haccount.trans haccount₀, rfl⟩, ?_⟩
    simp only [hgrant, hkey, hagain]
    rfl

variable (prim) in
/-- The store invariant. The chains of every vault are linked, and along every run nothing stored
at a dot is lost or changed but for its body and its carried wrap. An upload stores the records
before its first rejected one, in order, and answers the rest as not processed. After a healing
request that is stored the vault holds all of its records; a refused one leaves no rows. Records
that were processed are answered as already stored when they are sent again, and a healing request
that was stored is answered again; neither changes anything. -/
theorem store_invariant :
    (∀ v, VaultReachable prim v → Chained v) ∧
    (∀ v v', ReflTransGen (VaultStep prim) v v' → v.KeepsOps v') ∧
    (∀ env accountId request v results v',
      upload prim env accountId request v = .ok (results, v') →
      ∃ done rest accepted, request.records = done ++ rest ∧
        Uploads prim env request.vaultId v done accepted v' ∧
        (∀ record ∈ done, Holds prim env.authors request.vaultId true .required v' record) ∧
        (rest = [] ∧ results = accepted ∨ ∃ error, rest ≠ [] ∧
          results = accepted ++ .rejected error :: rest.tail.map fun _ => .notProcessed)) ∧
    (∀ env accountId healer request v v',
      heal prim env accountId healer request v = .ok (.ok v') →
      ∀ record ∈ request.records,
        Holds prim env.authors request.vaultId false .optional v' record) ∧
    (∀ env env' key accountId request v results v₁ v₂ done,
      upload prim env accountId request v = .ok (results, v₁) →
      done <+: request.records →
      (∀ result ∈ results.take done.length, result = .stored ∨ result = .alreadyStored) →
      ReflTransGen (Exchange prim key) v₁ v₂ → env.authors.Kept env'.authors →
      upload prim env' accountId { request with records := done } v₂ =
        .ok (done.map fun _ => .alreadyStored, v₂)) ∧
    ∀ env env' accountId healer request v v₁ v₂,
      heal prim env accountId healer request v = .ok (.ok v₁) →
      ReflTransGen (Exchange prim env.accountKey) v₁ v₂ → env.authors.Kept env'.authors →
      env'.accountKey = env.accountKey →
      heal prim env' accountId healer request v₂ = .ok (.ok v₂) := by
  refine ⟨fun v h => h.chained, fun v v' h => VaultStep.run_keepsOps h, ?_, ?_, ?_, ?_⟩
  · intro env accountId request v results v' h
    obtain ⟨done, rest, accepted, hsplit, hrun, hres⟩ := upload_uploads h
    exact ⟨done, rest, accepted, hsplit, hrun, hrun.holds, hres⟩
  · intro env accountId healer request v v' h
    exact heal_holds h
  · intro env env' key accountId request v results v₁ v₂ done h hinit haccepted hrun hk
    exact upload_repeat h hinit haccepted hrun hk
  · intro env env' accountId healer request v v₁ v₂ h hrun hk hkey
    exact heal_repeat h hrun hk hkey

end RizzyVault.Vault
