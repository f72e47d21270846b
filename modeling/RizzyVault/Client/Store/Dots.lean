import RizzyVault.Client.Store.Monotone

/-!
# Own dots

One counter per device numbers the device's own ops of all vaults. A new own op is checked against
the counter stored before its changeset, and a row is looked up by its vault: two new own ops of
one changeset, in two vaults, may take one number. Nothing else reuses a dot.

## Main definitions

* `UniqueDots`: no two own ops have one `device_seq`.
* `Creates`, `Spreads`: a changeset creates an own op; it spreads one number over two vaults.
* `OwnDotsKept`: what the floors promise of own dots over a run.

## Main results

* `uniqueDots_apply`: what an admitted changeset does to the own dots.
* `Cache.ownDotsKept_iff`: exactly the runs that keep own dots unique.

## References

* `crates/rizzy-client/src/store/floors.rs`.
-/

open RizzyVault.Core RizzyVault.Lib

namespace RizzyVault.Client.Store

open Std (ExtTreeMap)

/-- No two own ops, in whatever vaults, have one `device_seq`. -/
def UniqueDots (rows : CacheRows) : Prop :=
  rows.ops.Pairwise fun a b => a.own ≠ ownServed → b.own ≠ ownServed → a.deviceSeq ≠ b.deviceSeq

/-- The changeset creates the own op `row`: it puts it unsent, first at its key, where the file
holds no row. -/
def Creates (rows : CacheRows) (changeset : Changeset) (row : OpRow) : Prop :=
  row.own = ownUnsent ∧ (∀ held ∈ rows.ops, held.primaryKey ≠ row.primaryKey) ∧
    ∃ pre post, changeset = pre ++ .putOp row :: post ∧
      ∀ earlier, .putOp earlier ∈ pre → earlier.primaryKey ≠ row.primaryKey

/-- The changeset creates own ops of one `device_seq` in two vaults. -/
def Spreads (rows : CacheRows) (changeset : Changeset) : Prop :=
  ∃ row row', Creates rows changeset row ∧ Creates rows changeset row' ∧
    row.deviceSeq = row'.deviceSeq ∧ row.vaultId ≠ row'.vaultId

/-! ### Own ops along a walk -/

variable {counter : U64} {f f' : Floors} {rows : CacheRows} {w : Write} {ws : List Write}

namespace Moves

theorem op_kept (hw : Moves counter f w f') {key : OpKey} {floor : OpFloor}
    (h : f.ops[key]? = some floor) :
    ∃ floor', f'.ops[key]? = some floor' ∧ (floor.own = ownServed ↔ floor'.own = ownServed) := by
  have hheld : (f'.ops[key]?).isSome := by
    cases hw with
    | putOp | reissueOp | opOwn =>
      rw [ExtTreeMap.getElem?_insert_iff]
      split_ifs
      · rfl
      · rw [h]
        rfl
    | _ =>
      rw [h]
      rfl
  obtain ⟨floor', hfloor'⟩ := Option.isSome_iff_exists.mp hheld
  rcases hw.op_cases hfloor' with ⟨held, hheld, hserved⟩ | ⟨hnone, -⟩
  · rw [h] at hheld
    cases hheld
    exact ⟨floor', hfloor', hserved⟩
  · rw [h] at hnone
    cases hnone

theorem putOp_held {row : OpRow} (hw : Moves counter f (.putOp row) f') {key : OpKey}
    (hkey : row.primaryKey = key.columns) : ∃ floor, f'.ops[key]? = some floor := by
  cases hw with
  | putOpAgain hkey' hheld =>
    rw [← OpKey.columns_injective (hkey'.symm.trans hkey)]
    exact ⟨_, hheld⟩
  | putOp hkey' =>
    rw [← OpKey.columns_injective (hkey'.symm.trans hkey)]
    exact ⟨_, (ExtTreeMap.getElem?_insert_iff _ _ _ _).trans (if_pos rfl)⟩

end Moves

namespace Walk

/-- An own op after a walk was one before it, or was created by the walk at or above the
counter. -/
theorem own_cases (h : Walk {counter} f ws f') {key : OpKey} {floor' : OpFloor}
    (hfloor' : f'.ops[key]? = some floor') (hown : floor'.own ≠ ownServed) :
    (∃ floor, f.ops[key]? = some floor ∧ floor.own ≠ ownServed) ∨
      f.ops[key]? = none ∧ counter ≤ key.deviceSeq ∧
        ∃ row pre post, ws = pre ++ .putOp row :: post ∧ row.primaryKey = key.columns ∧
          row.own = ownUnsent ∧
          ∀ earlier, .putOp earlier ∈ pre → earlier.primaryKey ≠ row.primaryKey := by
  induction h with
  | nil => exact .inl ⟨floor', hfloor', hown⟩
  | @cons c f f₁ f' w ws hcounter hw _ ih =>
    rcases ih hfloor' with ⟨floor₁, hfloor₁, hown₁⟩ | ⟨hnone, hle, row, pre, post, hws, hkey, hrow⟩
    · rcases hw.op_cases hfloor₁ with ⟨floor, hheld, hserved⟩ | ⟨hnone, row, rfl, hkey, hrow, hnew⟩
      · exact .inl ⟨floor, hheld, fun hs => hown₁ (hserved.mp hs)⟩
      · rw [hrow] at hown₁
        obtain ⟨hunsent, -, hle⟩ := hnew hown₁
        rw [Set.mem_singleton_iff.mp hcounter] at hle
        exact .inr ⟨hnone, le_of_max_le_left hle, row, [], ws, rfl, hkey, hunsent,
          fun _ h => absurd h List.not_mem_nil⟩
    · have hnone₀ : f.ops[key]? = none := by
        by_contra hsome
        obtain ⟨floor, hfloor⟩ := Option.ne_none_iff_exists'.mp hsome
        obtain ⟨floor₁, hfloor₁, -⟩ := hw.op_kept hfloor
        rw [hnone] at hfloor₁
        cases hfloor₁
      refine .inr ⟨hnone₀, hle, row, w :: pre, post, by rw [hws]; rfl, hkey, hrow.1, ?_⟩
      intro earlier hearlier heq
      rcases List.mem_cons.mp hearlier with rfl | hearlier
      · obtain ⟨floor₁, hfloor₁⟩ := hw.putOp_held (heq.trans hkey)
        rw [hnone] at hfloor₁
        cases hfloor₁
      · exact hrow.2 earlier hearlier heq

theorem op_kept {C : Set U64} (h : Walk C f ws f') {key : OpKey} {floor : OpFloor}
    (hfloor : f.ops[key]? = some floor) :
    ∃ floor', f'.ops[key]? = some floor' ∧ (floor.own = ownServed ↔ floor'.own = ownServed) := by
  induction h generalizing floor with
  | nil => exact ⟨floor, hfloor, Iff.rfl⟩
  | cons _ hw _ ih =>
    obtain ⟨floor₁, hfloor₁, hserved₁⟩ := hw.op_kept hfloor
    obtain ⟨floor', hfloor', hserved'⟩ := ih hfloor₁
    exact ⟨floor', hfloor', hserved₁.trans hserved'⟩

/-- A key that no write puts stays without a row. -/
theorem op_none {C : Set U64} (h : Walk C f ws f') {key : OpKey} (hnone : f.ops[key]? = none)
    (hput : ∀ row, .putOp row ∈ ws → row.primaryKey ≠ key.columns) : f'.ops[key]? = none := by
  induction h with
  | nil => exact hnone
  | @cons _ _ f₁ _ w _ _ hw _ ih =>
    refine ih ?_ fun row hrow => hput row (List.mem_cons_of_mem _ hrow)
    by_contra hsome
    obtain ⟨floor₁, hfloor₁⟩ := Option.ne_none_iff_exists'.mp hsome
    rcases hw.op_cases hfloor₁ with ⟨floor, hheld, -⟩ | ⟨-, row, rfl, hkey, -⟩
    · rw [hnone] at hheld
      cases hheld
    · exact hput row List.mem_cons_self hkey

/-- A created op is in the index after the walk, as an own one. -/
theorem own_of_creates {C : Set U64} (h : Walk C f ws f') (hindex : Index f rows) {row : OpRow}
    (hrow : Creates rows ws row) :
    ∃ key floor, row.primaryKey = OpKey.columns key ∧ f'.ops[key]? = some floor ∧
      floor.own ≠ ownServed := by
  obtain ⟨hunsent, hnew, pre, post, rfl, hfirst⟩ := hrow
  obtain ⟨c, -, g, g', hpre, hw, hpost⟩ := h.split
  have hnone : ∀ key : OpKey, row.primaryKey = key.columns → g.ops[key]? = none := by
    intro key hkey
    refine hpre.op_none (hindex.ops.rowAt_eq_none_iff.mp (rowAt_eq_none.mpr fun r hr => ?_))
      fun earlier hearlier => ?_
    · rw [← hkey]
      exact hnew r hr
    · rw [← hkey]
      exact hfirst earlier hearlier
  cases hw with
  | putOpAgain hkey hheld =>
    rw [hnone _ hkey] at hheld
    cases hheld
  | @putOp _ key hkey =>
    obtain ⟨floor, hfloor, hserved⟩ :=
      hpost.op_kept ((ExtTreeMap.getElem?_insert_iff g.ops key key _).trans (if_pos rfl))
    refine ⟨key, floor, hkey, hfloor, fun hs => ?_⟩
    have hzero := hserved.mpr hs
    rw [hunsent] at hzero
    exact unsent_ne_served hzero

end Walk

/-! ### Unique dots -/

/-- Unique own dots, read at the index. -/
theorem uniqueDots_iff (h : Index f rows) :
    UniqueDots rows ↔ ∀ (k k' : OpKey) (floor floor' : OpFloor), f.ops[k]? = some floor →
      floor.own ≠ ownServed → f.ops[k']? = some floor' → floor'.own ≠ ownServed →
      k.deviceSeq = k'.deviceSeq → k = k' := by
  have hsymm : Std.Symm fun a b : OpRow =>
      a.own ≠ ownServed → b.own ≠ ownServed → a.deviceSeq ≠ b.deviceSeq :=
    ⟨fun _ _ hab hb ha => (hab ha hb).symm⟩
  constructor
  · intro hunique k k' floor floor' hk hown hk' hown' hseq
    obtain ⟨r, hr, -, hrown, -⟩ := h.rowAt_op hk
    obtain ⟨r', hr', -, hrown', -⟩ := h.rowAt_op hk'
    by_contra hne
    have hrne : r ≠ r' := by
      rintro rfl
      exact hne (OpKey.columns_injective ((key_of_rowAt hr).symm.trans (key_of_rowAt hr')))
    rw [← hrown] at hown
    rw [← hrown'] at hown'
    refine hunique.forall (mem_of_rowAt hr) (mem_of_rowAt hr') hrne hown hown' ?_
    have hcol : r.deviceSeq = k.deviceSeq.toBe := congrArg (fun c => c.2.2) (key_of_rowAt hr)
    have hcol' : r'.deviceSeq = k'.deviceSeq.toBe := congrArg (fun c => c.2.2) (key_of_rowAt hr')
    rw [hcol, hcol', hseq]
  · intro hkeys
    have hkeyed : rows.ops.Pairwise fun a b => a.primaryKey ≠ b.primaryKey :=
      List.pairwise_map.mp (List.nodup_iff_pairwise_ne.mp h.ops.keyed)
    refine hkeyed.imp_of_mem fun {a b} ha hb hab hown hown' hseq => hab ?_
    obtain ⟨k, hk⟩ := h.ops.covered a ha
    obtain ⟨k', hk'⟩ := h.ops.covered b hb
    obtain ⟨floor, hfloor, hcol⟩ :=
      h.ops.getElem?_of_rowAt (h.ops.keyed.rowAt_eq_some.mpr ⟨ha, hk⟩)
    obtain ⟨floor', hfloor', hcol'⟩ :=
      h.ops.getElem?_of_rowAt (h.ops.keyed.rowAt_eq_some.mpr ⟨hb, hk'⟩)
    have hfloorOwn : a.own = floor.own := congrArg (fun c => c.2.1) hcol
    have hfloorOwn' : b.own = floor'.own := congrArg (fun c => c.2.1) hcol'
    have hkseq : a.deviceSeq = k.deviceSeq.toBe := congrArg (fun c => c.2.2) hk
    have hkseq' : b.deviceSeq = k'.deviceSeq.toBe := congrArg (fun c => c.2.2) hk'
    rw [hfloorOwn] at hown
    rw [hfloorOwn'] at hown'
    rw [hkseq, hkseq'] at hseq
    rw [hk, hk', hkeys k k' floor floor' hfloor hown hfloor' hown' (U64.toBe_injective hseq)]

/-- **What an admitted changeset does to own dots.** From a file with unique own dots it leads to
one exactly when it does not spread a number over two vaults. -/
theorem uniqueDots_apply {changeset : Changeset} (hindex : Index f rows) (hown : OwnDots f)
    (hwalk : Walk {f.nextDeviceSeq} f changeset f') (hunique : UniqueDots rows) :
    UniqueDots (rows.apply changeset) ↔ ¬ Spreads rows changeset := by
  have hindex' : Index f' (rows.apply changeset) := hwalk.index hindex
  rw [uniqueDots_iff hindex] at hunique
  rw [uniqueDots_iff hindex']
  constructor
  · rintro hkeys ⟨row, row', hrow, hrow', hseq, hvault⟩
    obtain ⟨k, floor, hk, hfloor, hne⟩ := hwalk.own_of_creates hindex hrow
    obtain ⟨k', floor', hk', hfloor', hne'⟩ := hwalk.own_of_creates hindex hrow'
    have hkseq : row.deviceSeq = k.deviceSeq.toBe := congrArg (fun c => c.2.2) hk
    have hkseq' : row'.deviceSeq = k'.deviceSeq.toBe := congrArg (fun c => c.2.2) hk'
    rw [hkseq, hkseq'] at hseq
    have heq := hkeys k k' floor floor' hfloor hne hfloor' hne' (U64.toBe_injective hseq)
    have hv : row.vaultId = k.vaultId.bytes := congrArg Prod.fst hk
    have hv' : row'.vaultId = k'.vaultId.bytes := congrArg Prod.fst hk'
    exact hvault (by rw [hv, hv', heq])
  · intro hspread k k' floor floor' hfloor hne hfloor' hne' hseq
    rcases hwalk.own_cases hfloor hne with ⟨held, hheld, hheldOwn⟩ | ⟨hnone, hle, hcreated⟩
    · rcases hwalk.own_cases hfloor' hne' with ⟨held', hheld', hheldOwn'⟩ | ⟨-, hle', -⟩
      · exact hunique k k' held held' hheld hheldOwn hheld' hheldOwn' hseq
      · have hlt := hown.below k held hheld hheldOwn
        rw [hseq] at hlt
        exact absurd hle' (not_le.mpr hlt)
    · rcases hwalk.own_cases hfloor' hne' with ⟨held', hheld', hheldOwn'⟩ | ⟨hnone', -, hcreated'⟩
      · have hlt := hown.below k' held' hheld' hheldOwn'
        rw [← hseq] at hlt
        exact absurd hle (not_le.mpr hlt)
      · obtain ⟨row, pre, post, hws, hk, hunsent, hfirst⟩ := hcreated
        obtain ⟨row', pre', post', hws', hk', hunsent', hfirst'⟩ := hcreated'
        have hdevice := hwalk.ownDevice hown.device
        have hdev : k.deviceId.bytes = k'.deviceId.bytes :=
          Option.some.inj ((hdevice k floor hfloor hne).symm.trans (hdevice k' floor' hfloor' hne'))
        -- Two created ops of one number are in one vault, so at one key.
        by_contra hkne
        refine hspread ⟨row, row', ⟨hunsent, fun held hheld => ?_, pre, post, hws, hfirst⟩,
          ⟨hunsent', fun held hheld => ?_, pre', post', hws', hfirst'⟩, ?_, fun hv => hkne ?_⟩
        · rw [hk]
          exact rowAt_eq_none.mp (hindex.ops.rowAt_eq_none_iff.mpr hnone) held hheld
        · rw [hk']
          exact rowAt_eq_none.mp (hindex.ops.rowAt_eq_none_iff.mpr hnone') held hheld
        · have hkseq : row.deviceSeq = k.deviceSeq.toBe := congrArg (fun c => c.2.2) hk
          have hkseq' : row'.deviceSeq = k'.deviceSeq.toBe := congrArg (fun c => c.2.2) hk'
          rw [hkseq, hkseq', hseq]
        · have hkv : row.vaultId = k.vaultId.bytes := congrArg Prod.fst hk
          have hkv' : row'.vaultId = k'.vaultId.bytes := congrArg Prod.fst hk'
          rw [hkv, hkv'] at hv
          refine OpKey.columns_injective ?_
          rw [OpKey.columns, OpKey.columns, opColumns, opColumns, hv, hdev, hseq]

/-! ### Runs -/

/-- What the floors promise of own dots: in every state of the run they are unique, and at every
write an own op keeps its statement but for an allowed re-issue. -/
structure OwnDotsKept (deviceRecord : Bytes → Option (Id16 × Id16))
    (changesets : List Changeset) : Prop where
  unique : ∀ pre post, changesets = pre ++ post → UniqueDots (Cache.run deviceRecord pre).rows
  statement : ∀ pre w post, Cache.written deviceRecord changesets = pre ++ w :: post →
    ∀ row ∈ (CacheRows.empty.apply pre).ops, row.own ≠ ownServed →
      ∃ row' ∈ (CacheRows.empty.apply (pre ++ [w])).ops, row'.primaryKey = row.primaryKey ∧
        (row'.statement = row.statement ∨ Reissued w row)

namespace Cache

variable {deviceRecord : Bytes → Option (Id16 × Id16)}

theorem run_append_singleton (changesets : List Changeset) (changeset : Changeset) :
    run deviceRecord (changesets ++ [changeset]) =
      (run deviceRecord changesets).step deviceRecord changeset := runFrom_append _ _ _

theorem uniqueDots_step {changesets : List Changeset} {changeset : Changeset}
    (hunique : UniqueDots (run deviceRecord changesets).rows) :
    UniqueDots (run deviceRecord (changesets ++ [changeset])).rows ↔
      ((run deviceRecord changesets).admits deviceRecord changeset →
        ¬ Spreads (run deviceRecord changesets).rows changeset) := by
  rw [run_append_singleton]
  rcases step_cases deviceRecord (run deviceRecord changesets) changeset with
    ⟨hno, hstep⟩ | ⟨next, hyes, hpass, hstep⟩
  · rw [hstep, hno]
    exact iff_of_true hunique fun h => by cases h
  · rw [hstep, hyes]
    have hstepDots := uniqueDots_apply (index_run deviceRecord changesets)
      (ownDots_run deviceRecord changesets) (Floors.pass_eq_ok hpass).1 hunique
    exact hstepDots.trans ⟨fun h _ => h, fun h => h rfl⟩

/-- **Exactly the runs that keep own dots**: those none of whose admitted changesets creates own
ops of one number in two vaults. -/
theorem ownDotsKept_iff (deviceRecord : Bytes → Option (Id16 × Id16))
    (changesets : List Changeset) :
    OwnDotsKept deviceRecord changesets ↔
      ∀ pre changeset post, changesets = pre ++ changeset :: post →
        (run deviceRecord pre).admits deviceRecord changeset →
        ¬ Spreads (run deviceRecord pre).rows changeset := by
  constructor
  · intro hkept pre changeset post hsplit
    have hbefore := hkept.unique pre (changeset :: post) hsplit
    have hafter := hkept.unique (pre ++ [changeset]) post (by rw [hsplit, List.append_assoc]; rfl)
    exact (uniqueDots_step hbefore).mp hafter
  · intro hspread
    refine ⟨fun pre post hsplit => ?_, fun pre w post hsplit row hrow _ => ?_⟩
    · induction pre using List.reverseRecOn generalizing post with
      | nil => exact List.Pairwise.nil
      | append_singleton pre changeset ih =>
        rw [List.append_assoc] at hsplit
        exact (uniqueDots_step (ih (changeset :: post) hsplit)).mpr
          (hspread pre changeset post hsplit)
    · obtain ⟨row', hrow', hops⟩ := (kept_written hsplit).ops row hrow
      exact ⟨row', hrow', hops.key, hops.statement⟩

/-! ### A number in two vaults -/

def sampleId (b : Byte) : Id16 := ⟨List.replicate 16 b, List.length_replicate⟩

def sampleGrant (vaultId : Id16) : Write := .vaultGrant ⟨vaultId, 1, 1, []⟩ (sampleId 9)

/-- A file of device 3 with two vaults and its counter at 1. -/
def sampleSetup : Changeset :=
  [.cacheMeta metaDeviceId (sampleId 3).bytes, .cacheMeta metaNextDeviceSeq (1 : U64).toBe,
    .cacheMeta metaHlc (0 : U64).toBe, sampleGrant (sampleId 1), sampleGrant (sampleId 2)]

/-- The first own op of a vault. -/
def sampleOp (vaultId : Id16) : OpRow :=
  ⟨vaultId.bytes, (sampleId 3).bytes, (1 : U64).toBe, (sampleId 7).bytes, vaultId.bytes, none, none,
    ownUnsent, none⟩

/-- Two own ops of number 1, in two vaults, and the counter moved past them. -/
def sampleSpread : Changeset :=
  [.putOp (sampleOp (sampleId 1)), .putOp (sampleOp (sampleId 2)),
    .cacheMeta metaNextDeviceSeq (2 : U64).toBe]

theorem ops_sampleSpread :
    (run (fun _ => none) [sampleSetup, sampleSpread]).rows.ops =
      [sampleOp (sampleId 1), sampleOp (sampleId 2)] := by
  decide +kernel

/-- The floors admit two own ops of one number in one changeset. -/
theorem not_ownDotsKept_sampleSpread :
    ¬ OwnDotsKept (fun _ => none) [sampleSetup, sampleSpread] := by
  intro h
  have hunique := h.unique [sampleSetup, sampleSpread] [] rfl
  rw [UniqueDots, ops_sampleSpread, List.pairwise_pair] at hunique
  exact hunique unsent_ne_served unsent_ne_served rfl

end Cache

end RizzyVault.Client.Store
