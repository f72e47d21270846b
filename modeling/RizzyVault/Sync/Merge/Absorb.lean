import RizzyVault.Sync.Merge.Convergence
import RizzyVault.Sync.Merge.HonestSnapshot
import RizzyVault.Sync.Merge.Snapshot

/-!
# Absorbing is applying

Replicas of one item that exchange honest operations and the snapshots they write. A replica that
recorded the headers of what a snapshot covers absorbs it whole, and whatever it applied and
absorbed, its state is that of applying the same operations in a causal order.

## Main definitions

* `SnapshotOf`: a snapshot as read back from what a replica wrote.
* `HonestReplica`: a replica and the operations it applied or absorbed.

## Main results

* `HonestReplica.inv`: the replica has taken exactly those operations.
* `exists_causalDelivery`: a causally closed set of operations has a causal order.
* `absorbSnapshot_eq_applying`: absorbing a snapshot is applying the operations it covers.
-/

open RizzyVault.Core RizzyVault.Lib

namespace RizzyVault.Sync

open Std (ExtTreeMap ExtTreeSet)

/-- A snapshot as read back from what a replica wrote. -/
structure SnapshotOf (w : ItemMerge) (snapshot : SnapshotInput) : Prop where
  item : snapshot.header.itemId = w.itemId
  schema : snapshot.header.itemSchemaVersion = ItemSchemaVersion.v1
  written : ∃ written, w.writeSnapshot.2 = .ok written ∧
    snapshot.header.covered = written.covered ∧
    Record.parseSnapshot written.covered written.data = .ok snapshot.data

/-- A replica that receives honest operations, their headers and the snapshots of other such
replicas, with the operations it applied or absorbed. -/
inductive HonestReplica (itemId : ItemId) (ops : Finset OpInput) :
    Finset OpInput → ItemMerge → Prop
  | new : HonestReplica itemId ops ∅ (ItemMerge.new itemId)
  | recordHeader {taken m o} (h : HonestReplica itemId ops taken m) (ho : o ∈ ops) :
    HonestReplica itemId ops taken (m.recordHeader o.header).1
  | addItemKey {taken m} (h : HonestReplica itemId ops taken m) (keyId : SymmetricKeyId) :
    HonestReplica itemId ops taken (m.addItemKey keyId)
  | applyOp {taken m o} (h : HonestReplica itemId ops taken m) (ho : o ∈ ops)
      (hok : (m.applyOp o).2.isOk) : HonestReplica itemId ops (insert o taken) (m.applyOp o).1
  | notReady {taken m o} (h : HonestReplica itemId ops taken m) (ho : o ∈ ops)
      (herr : ¬ (m.applyOp o).2.isOk) : HonestReplica itemId ops taken (m.applyOp o).1
  | applyOwnOp {taken m o} (h : HonestReplica itemId ops taken m) (ho : o ∈ ops) (own : OwnWrite)
      (hok : (m.applyOwnOp o own).2.isOk) :
    HonestReplica itemId ops (insert o taken) (m.applyOwnOp o own).1
  | absorbSnapshot {taken taken' m w snapshot withOps} (h : HonestReplica itemId ops taken m)
      (hw : HonestReplica itemId ops taken' w) (hs : SnapshotOf w snapshot)
      (hwith : ∀ o ∈ withOps, o ∈ ops)
      (hrec : ∀ o ∈ ops, snapshot.header.covered.covers o.dot → o.dot ∈ m.headers ∨ o ∈ withOps) :
    HonestReplica itemId ops (taken ∪ ops.filter fun o => snapshot.header.covered.covers o.dot)
      (m.absorbSnapshot snapshot withOps).1
  | writeSnapshot {taken m} (h : HonestReplica itemId ops taken m) :
    HonestReplica itemId ops taken m.writeSnapshot.1
  | endFetch {taken m} (h : HonestReplica itemId ops taken m) :
    HonestReplica itemId ops taken m.endFetch.1
  | markSurfaced {taken m} (h : HonestReplica itemId ops taken m) :
    HonestReplica itemId ops taken m.markSurfaced

variable {itemId : ItemId} {ops taken taken' : Finset OpInput} {m w : ItemMerge} {o : OpInput}
  {snapshot : SnapshotInput} {withOps : List OpInput}

/-! ### The calls keep the invariant -/

theorem HonestInv.know (h : HonestInv itemId ops taken m) (ho : o ∈ ops) :
    HonestInv itemId ops taken { m with bodies := m.bodies.insert o.dot o.held } :=
  { h with
    bodies := fun d b hb => by
      simp only [ExtTreeMap.getElem?_insert_iff] at hb
      split_ifs at hb with hd
      · cases hb
        exact ⟨o, ho, hd, rfl⟩
      · exact h.bodies d b hb }

theorem KeyInv.know (h : KeyInv ops m) (ho : o ∈ ops) :
    KeyInv ops { m with bodies := m.bodies.insert o.dot o.held } where
  bodies d b hb := by
    simp only [ExtTreeMap.getElem?_insert_iff] at hb
    split_ifs at hb with hd
    · cases hb
      exact ⟨o, ho, hd, rfl⟩
    · exact h.bodies d b hb
  purge := h.purge

/-- Recording the honest operations of a response succeeds and keeps what is taken. -/
theorem HonestInv.recordWith (hops : HonestOps itemId ops) (h : HonestInv itemId ops taken m)
    (hk : KeyInv ops m) (hwith : ∀ o ∈ withOps, o ∈ ops) :
    ∃ m', m.recordWith withOps = (m', .ok ()) ∧ HonestInv itemId ops taken m' ∧ KeyInv ops m' := by
  induction withOps generalizing m with
  | nil => exact ⟨m, rfl, h, hk⟩
  | cons o withOps ih =>
    have ho := hwith o List.mem_cons_self
    obtain ⟨headers, he, -, h', -⟩ := h.recordHeader hops ho
    obtain ⟨m', hm', h'', hk''⟩ := ih (h'.know ho) ((hk.recordHeader headers).know ho)
      fun p hp => hwith p (List.mem_cons_of_mem o hp)
    refine ⟨m', ?_, h'', hk''⟩
    rw [ItemMerge.recordWith, he]
    exact hm'

/-- A snapshot reads back as the state it was written of. -/
theorem SnapshotOf.fromSnapshot_eq (hs : SnapshotOf w snapshot) :
    State.fromSnapshot snapshot.header.covered snapshot.data = w.state := by
  obtain ⟨written, hw, hcov, hdata⟩ := hs.written
  have hw' : w.writeSnapshot = (w.writeSnapshot.1, .ok written) := by rw [← hw]
  obtain ⟨-, data, hparse, hstate⟩ := ItemMerge.fromSnapshot_of_writeSnapshot hw'
  rw [hparse] at hdata
  cases hdata
  rw [hcov, hstate]

/-- A snapshot of an honest replica is an honest state. -/
theorem SnapshotOf.honestState (hops : HonestOps itemId ops) (h : HonestInv itemId ops taken w)
    (hk : KeyInv ops w) (hs : SnapshotOf w snapshot) :
    HonestState ops taken (State.fromSnapshot snapshot.header.covered snapshot.data) := by
  rw [hs.fromSnapshot_eq]
  exact h.honestState hops hk

theorem HonestInv.filter_covers (hops : HonestOps itemId ops) (h : HonestInv itemId ops taken m) :
    (ops.filter fun o => m.state.vv.covers o.dot) = taken := by
  ext o
  rw [Finset.mem_filter, h.represents.vv]
  constructor
  · rintro ⟨ho, hcov⟩
    exact (hops.covers_iff h.subset h.closed ho).mp hcov
  · intro ho
    exact ⟨h.subset ho, (hops.covers_iff h.subset h.closed (h.subset ho)).mpr ho⟩

/-- Absorbing a snapshot of an honest replica takes what it covers, and nothing is refused, cut,
ignored or reported. -/
theorem HonestInv.absorbSnapshot (hops : HonestOps itemId ops) (h : HonestInv itemId ops taken m)
    (hk : KeyInv ops m) (hw : HonestInv itemId ops taken' w) (hkw : KeyInv ops w)
    (hs : SnapshotOf w snapshot) (hwith : ∀ o ∈ withOps, o ∈ ops)
    (hrec : ∀ o ∈ ops, snapshot.header.covered.covers o.dot → o.dot ∈ m.headers ∨ o ∈ withOps) :
    (∃ relation hlc, (m.absorbSnapshot snapshot withOps).2 =
        .ok ⟨.absorbed ⟨relation, hlc, [], []⟩, []⟩) ∧
      HonestInv itemId ops (taken ∪ ops.filter fun o => snapshot.header.covered.covers o.dot)
        (m.absorbSnapshot snapshot withOps).1 ∧
      KeyInv ops (m.absorbSnapshot snapshot withOps).1 := by
  have hcovered : (ops.filter fun o => snapshot.header.covered.covers o.dot) = taken' := by
    obtain ⟨written, hwrite, hcov, -⟩ := hs.written
    have hwrite' : w.writeSnapshot = (w.writeSnapshot.1, .ok written) := by rw [← hwrite]
    obtain ⟨hvv, -⟩ := ItemMerge.fromSnapshot_of_writeSnapshot hwrite'
    rw [hcov, hvv, hw.filter_covers hops]
  rw [hcovered]
  obtain ⟨m', hm', h', hk'⟩ := h.recordWith hops hk hwith
  have hrec' : ∀ o ∈ taken', m'.headers[o.dot]? = some o.facts := by
    intro o ho
    have ho' : o ∈ ops.filter fun o => snapshot.header.covered.covers o.dot := hcovered ▸ ho
    obtain ⟨hop, hcov⟩ := Finset.mem_filter.mp ho'
    refine ((ItemMerge.recordWith_ok hm').1 o.dot o.facts).mpr ?_
    rcases hrec o hop hcov with hd | hin
    · obtain ⟨f, hf⟩ := Option.isSome_iff_exists.mp (ExtTreeMap.mem_iff_isSome_getElem?.mp hd)
      obtain ⟨p, hp, hpd, rfl⟩ := h.headers _ f hf
      have : p = o := hops.unique p hp o hop hpd
      exact .inl (this ▸ hf)
    · exact .inr ⟨o, hin, rfl, rfl⟩
  obtain ⟨relation, hlc, hans, h'', hk''⟩ :=
    h'.absorbRecorded hops hk' (hs.honestState hops hw hkw) hrec'
  have hcheck : m.checkRecord snapshot.header.itemId snapshot.header.itemSchemaVersion = .ok () := by
    simp [ItemMerge.checkRecord, hs.item, hs.schema, h.item, hw.item]
  have heq : m.absorbSnapshot snapshot withOps =
      ((m'.absorbRecorded snapshot).1, .ok (m'.absorbRecorded snapshot).2) := by
    rw [ItemMerge.absorbSnapshot, hcheck, hm']
  rw [heq, hans]
  exact ⟨⟨relation, hlc, rfl⟩, h'', hk''⟩

theorem HonestInv.applyOp (hops : HonestOps itemId ops) (h : HonestInv itemId ops taken m)
    (hk : KeyInv ops m) (ho : o ∈ ops) :
    HonestInv itemId ops (if (m.applyOp o).2.isOk then insert o taken else taken) (m.applyOp o).1 ∧
      KeyInv ops (m.applyOp o).1 := by
  rw [ItemMerge.applyOp_eq]
  rcases h.mergeBody hops hk ho with ⟨kind, hok, h', hk'⟩ | ⟨-, herr, h', hk'⟩
  · rw [hok]
    exact ⟨h', hk'⟩
  · rw [herr]
    exact ⟨h', hk'⟩

/-- The replica has taken exactly the operations it applied or absorbed. -/
theorem HonestReplica.inv (hops : HonestOps itemId ops) (h : HonestReplica itemId ops taken m) :
    HonestInv itemId ops taken m ∧ KeyInv ops m := by
  induction h with
  | new => exact ⟨honestInv_new itemId ops, keyInv_new itemId ops⟩
  | recordHeader _ ho ih =>
    obtain ⟨headers, he, -, h', -⟩ := ih.1.recordHeader hops ho
    rw [he]
    exact ⟨h', ih.2.recordHeader headers⟩
  | addItemKey _ keyId ih =>
    exact ⟨{ ih.1 with represents := ih.1.represents.evidence_mono fun _ _ h => h },
      { ih.2 with }⟩
  | applyOp _ ho hok ih =>
    have h := ih.1.applyOp hops ih.2 ho
    rwa [if_pos hok] at h
  | notReady _ ho herr ih =>
    have h := ih.1.applyOp hops ih.2 ho
    rwa [if_neg herr] at h
  | @applyOwnOp taken m o _ ho own hok ih =>
    rcases m.applyOwnOp_cases o own with ⟨e, he⟩ | ⟨-, -, -, kind, due, hkind, he⟩
    · rw [he] at hok
      cases hok
    · rw [he]
      rcases ih.1.mergeBody hops ih.2 ho with ⟨_, -, h', hk'⟩ | ⟨-, herr, -⟩
      · exact ⟨h', hk'⟩
      · rw [hkind] at herr
        cases herr
  | absorbSnapshot _ _ hs hwith hrec ih ihw =>
    exact (ih.1.absorbSnapshot hops ih.2 ihw.1 ihw.2 hs hwith hrec).2
  | @writeSnapshot taken m _ ih =>
    rcases m.writeSnapshot_cases with ⟨e, he⟩ | ⟨data, -, -, -, he⟩
    · rw [he]
      exact ih
    · rw [he]
      exact ⟨{ ih.1 with }, { ih.2 with }⟩
  | endFetch _ ih => exact ⟨{ ih.1 with }, { ih.2 with }⟩
  | markSurfaced _ ih => exact ⟨{ ih.1 with }, { ih.2 with }⟩

/-! ### Causal orders -/

/-- A causally closed part of honest operations is a set of honest operations. -/
theorem HonestOps.restrict (hops : HonestOps itemId ops) (ht : taken ⊆ ops)
    (hc : HonestOps.Closed ops taken) : HonestOps itemId taken where
  item o ho := hops.item o (ht ho)
  schema o ho := hops.schema o (ht ho)
  wellFormed o ho := hops.wellFormed o (ht ho)
  unique o ho p hp := hops.unique o (ht ho) p (ht hp)
  known o ho d hd := by
    obtain ⟨p, hp, rfl⟩ := hops.known o (ht ho) d hd
    exact ⟨p, hc o ho p hp (VersionVector.covers_of_mem_dots hd), rfl⟩
  closed o ho p hp := hops.closed o (ht ho) p (ht hp)
  previous o ho p hp := hops.previous o (ht ho) p (ht hp)
  notSelf o ho := hops.notSelf o (ht ho)

theorem HonestInv.mono (h : HonestInv itemId taken taken m) (ht : taken ⊆ ops)
    (hc : HonestOps.Closed ops taken) : HonestInv itemId ops taken m :=
  { h with
    headers := fun d f hf => by
      obtain ⟨o, ho, hof⟩ := h.headers d f hf
      exact ⟨o, ht ho, hof⟩
    subset := ht
    closed := hc
    bodies := fun d b hb => by
      obtain ⟨o, ho, hob⟩ := h.bodies d b hb
      exact ⟨o, ht ho, hob⟩ }

theorem KeyInv.mono (h : KeyInv taken m) (ht : taken ⊆ ops) : KeyInv ops m where
  bodies d b hb := by
    obtain ⟨o, ho, hob⟩ := h.bodies d b hb
    exact ⟨o, ht ho, hob⟩
  purge p hp := by
    obtain ⟨o, ho, hop⟩ := h.purge p hp
    exact ⟨o, ht ho, hop⟩

/-- Some operation of a nonempty honest set is in no context of the set. -/
theorem HonestOps.exists_last (hops : HonestOps itemId ops) (hne : ops.Nonempty) :
    ∃ o ∈ ops, ∀ p ∈ ops, ¬ p.context.covers o.dot := by
  -- The operation whose context covers the most operations.
  obtain ⟨o, ho, hmax⟩ := ops.exists_max_image
    (fun o => (ops.filter fun p => o.context.covers p.dot).card) hne
  refine ⟨o, ho, fun p hp hcov => ?_⟩
  have hlt : (ops.filter fun q => o.context.covers q.dot).card <
      (ops.filter fun q => p.context.covers q.dot).card := by
    refine Finset.card_lt_card ⟨fun q hq => ?_, fun hsub => ?_⟩
    · obtain ⟨hq, hoq⟩ := Finset.mem_filter.mp hq
      exact Finset.mem_filter.mpr ⟨hq, hops.closed p hp o ho hcov q.dot hoq⟩
    · have hself := (Finset.mem_filter.mp (hsub (Finset.mem_filter.mpr ⟨ho, hcov⟩))).2
      exact hops.notSelf o ho hself
  exact absurd (hmax p hp) (not_le.mpr hlt)

/-- A set of honest operations has a causal order. -/
theorem exists_causalDelivery (hops : HonestOps itemId ops) : ∃ l, CausalDelivery ops l := by
  induction hn : ops.card generalizing ops with
  | zero =>
    refine ⟨[], ⟨fun d hd => absurd hd List.not_mem_nil, fun o ho => ?_, fun i hi => ?_⟩⟩
    · rw [Finset.card_eq_zero.mp hn] at ho
      exact absurd ho (Finset.notMem_empty o)
    · exact absurd hi (Nat.not_lt_zero i)
  | succ n ih =>
    obtain ⟨o, ho, hlast⟩ := hops.exists_last (Finset.card_pos.mp (by omega))
    have hsub : ops.erase o ⊆ ops := Finset.erase_subset o ops
    have hclosed : HonestOps.Closed ops (ops.erase o) := by
      intro p hp q hq hcov
      refine Finset.mem_erase.mpr ⟨?_, hq⟩
      rintro rfl
      exact hlast p (hsub hp) hcov
    obtain ⟨l, hl⟩ := ih (hops.restrict hsub hclosed) (by rw [Finset.card_erase_of_mem ho]; omega)
    have hbody : ∀ p ∈ ops, p ≠ o → .body p ∈ l := fun p hp hne =>
      hl.complete p (Finset.mem_erase.mpr ⟨hne, hp⟩)
    refine ⟨l ++ [.body o], ⟨fun d hd => ?_, fun p hp => ?_, fun i hi p hp hip q hq hcov => ?_⟩⟩
    · rcases List.mem_append.mp hd with hd | hd
      · exact hsub (hl.mem d hd)
      · rw [List.mem_singleton.mp hd]
        exact ho
    · by_cases hpo : p = o
      · exact List.mem_append_right _ (by rw [hpo]; exact List.mem_singleton_self _)
      · exact List.mem_append_left _ (hbody p hp hpo)
    · have hqo : q ≠ o := by
        rintro rfl
        exact hlast p hp hcov
      by_cases hlt : i < l.length
      · rw [List.getElem?_append_left hlt] at hip
        have hpl : Delivery.body p ∈ l := List.mem_of_getElem? hip
        rw [List.take_append_of_le_length hlt.le]
        exact hl.causal i hlt p (hl.mem _ hpl) hip q (Finset.mem_erase.mpr ⟨hqo, hq⟩) hcov
      · have hi' : i = l.length := by
          rw [List.length_append, List.length_singleton] at hi
          omega
        rw [hi', List.take_left]
        exact hbody q hq hqo

/-- Honest replicas that apply operations and absorb each other's snapshots, in any interleaving:
a snapshot whose headers are recorded is absorbed whole, with nothing refused, cut, ignored or
disagreed on, and a replica's state is that of applying, in any causal order, exactly the
operations it applied or absorbed. -/
theorem absorbSnapshot_eq_applying (hops : HonestOps itemId ops)
    (h : HonestReplica itemId ops taken m) :
    (∃ l, CausalDelivery taken l) ∧
    (∀ l, CausalDelivery taken l →
      ∃ r, (ItemMerge.new itemId).deliverAll l = .ok r ∧ r.state = m.state) ∧
    ∀ (taken' : Finset OpInput) (w : ItemMerge) (snapshot : SnapshotInput)
      (withOps : List OpInput), HonestReplica itemId ops taken' w → SnapshotOf w snapshot →
      (∀ o ∈ withOps, o ∈ ops) →
      (∀ o ∈ ops, snapshot.header.covered.covers o.dot → o.dot ∈ m.headers ∨ o ∈ withOps) →
      ∃ relation hlc, (m.absorbSnapshot snapshot withOps).2 =
        .ok ⟨.absorbed ⟨relation, hlc, [], []⟩, []⟩ := by
  obtain ⟨hinv, hkey⟩ := h.inv hops
  have htaken := hops.restrict hinv.subset hinv.closed
  refine ⟨exists_causalDelivery htaken, fun l hl => ?_, ?_⟩
  · obtain ⟨r, hr, hinv', hkey'⟩ := honestInv_deliverAll htaken l hl.mem hl.causal
    have hall : delivered taken l = taken := Finset.filter_true_of_mem hl.complete
    rw [hall] at hinv'
    exact ⟨r, hr, (hinv'.mono hinv.subset hinv.closed).state_eq hops hinv
      (hkey'.mono hinv.subset) hkey⟩
  · intro taken' w snapshot withOps hw hs hwith hrec
    obtain ⟨hinvw, hkeyw⟩ := hw.inv hops
    exact (hinv.absorbSnapshot hops hkey hinvw hkeyw hs hwith hrec).1

/-- A replica that applied the sample operations, among them a purge. -/
def sampleWriter : ItemMerge :=
  sampleOps.foldl (fun m o => (m.applyOp o).1) (ItemMerge.new ⟨0⟩)

/-- A replica that knows the headers of the sample operations and none of the bodies. -/
def sampleReader : ItemMerge :=
  sampleOps.foldl (fun m o => (m.recordHeader o.header).1) (ItemMerge.new ⟨0⟩)

/-- The tombstone the writer writes, with the value of the other device as a late one. -/
def sampleTombstone : SnapshotInput :=
  let b : Dot := .sample 2 1
  let t : Dot := .sample 1 2
  let p : Dot := .sample 1 3
  .sample [p, b] (.tombstone
    ⟨p, ⟨8⟩, .ofDots [t], ⟨0⟩, [⟨OpInput.sampleKey, [⟨b, ⟨6⟩, [2]⟩]⟩]⟩)

theorem honestReplica_sampleWriter :
    HonestReplica ⟨0⟩ sampleOps.toFinset (sampleOps.foldl (fun s o => insert o s) ∅)
      sampleWriter :=
  .applyOp (.applyOp (.applyOp (.applyOp .new (by decide) (by decide))
    (by decide) (by decide)) (by decide) (by decide))
    (by decide) (by decide)

theorem honestReplica_sampleReader :
    HonestReplica ⟨0⟩ sampleOps.toFinset ∅ sampleReader :=
  .recordHeader (.recordHeader (.recordHeader (.recordHeader .new (by decide))
    (by decide)) (by decide)) (by decide)

theorem snapshotOf_sampleTombstone : SnapshotOf sampleWriter sampleTombstone where
  item := by decide
  schema := by decide
  written := by
    refine ⟨sampleWriter.writeSnapshot.2.toOption.get (by decide +kernel), ?_, ?_, ?_⟩
    · decide +kernel
    · decide +kernel
    · decide +kernel

theorem absorbSnapshot_eq_applying_sampleTombstone :
    (∃ relation hlc, (sampleReader.absorbSnapshot sampleTombstone []).2 =
      .ok ⟨.absorbed ⟨relation, hlc, [], []⟩, []⟩) ∧
    ∃ r, (ItemMerge.new ⟨0⟩).deliverAll (sampleOps.map .body) = .ok r ∧
      r.state = (sampleReader.absorbSnapshot sampleTombstone []).1.state := by
  have hops : HonestOps ⟨0⟩ sampleOps.toFinset := by decide
  have hrec : ∀ o ∈ sampleOps.toFinset, sampleTombstone.header.covered.covers o.dot →
      o.dot ∈ sampleReader.headers ∨ o ∈ ([] : List OpInput) := by decide
  refine ⟨(absorbSnapshot_eq_applying hops honestReplica_sampleReader).2.2 _ sampleWriter
    sampleTombstone [] honestReplica_sampleWriter snapshotOf_sampleTombstone (by simp) hrec, ?_⟩
  exact (absorbSnapshot_eq_applying hops (honestReplica_sampleReader.absorbSnapshot
    honestReplica_sampleWriter snapshotOf_sampleTombstone (by simp) hrec)).2.1 _
    (by decide)

end RizzyVault.Sync
