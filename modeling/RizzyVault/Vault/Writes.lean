import RizzyVault.Vault.Server

/-!
# What a request writes

A request opens a transaction on the vault's rows and stores records one after another. Between two
records the session is the one a new transaction would open on the rows written so far, so each
record is judged against the rows alone, and a request that is answered is a run of single stores.

## Main definitions

* `openTx`: the transaction opened on a vault's rows.
* `VaultRows.addOp`, `VaultRows.addSnapshot`: the rows after one record.
* `Stored`: one operation, snapshot or wrap is written.

## Main results

* `uploadRecord_eq_pure`: what an accepted record did.
* `uploadRecords_stores`, `healIn_stores`: an answered request is a run of single stores.
* `VaultStep.cases`: every write of a vault is such a run, a repair, a compaction or a rotation.
-/

open RizzyVault.Core RizzyVault.Lib RizzyVault.Sync

namespace RizzyVault.Vault

open Std (ExtTreeMap)
open Relation (ReflTransGen)

/-! ### Answers -/

namespace Served

variable {α β ε : Type}

@[simp]
theorem bind_eq_pure_iff {x : Served α} {f : α → Served β} {b : β} :
    x >>= f = pure b ↔ ∃ a, x = pure a ∧ f a = pure b := by
  constructor
  · intro h
    match x, h with
    | .ok (.ok a), h => exact ⟨a, rfl, h⟩
  · rintro ⟨a, rfl, h⟩
    exact h

@[simp]
theorem pure_eq_pure_iff {a b : α} : (pure a : Served α) = pure b ↔ a = b := by
  constructor
  · intro h
    exact Except.ok.inj (Except.ok.inj h)
  · rintro rfl
    rfl

@[simp]
theorem refuse_ne_pure {r : Refusal} {a : α} : (refuse r : Served α) ≠ pure a := by
  intro h
  have h' : (Except.ok (Except.error r) : Except VaultError (Except Refusal α)) = .ok (.ok a) := h
  cases h'

@[simp]
theorem require_eq_pure_iff {ok : Bool} {r : Refusal} {u : Unit} :
    require ok r = pure u ↔ ok = true := by
  unfold require
  split_ifs with h
  · simp [h]
  · simp [h]

@[simp]
theorem ofStore_eq_pure_iff {x : Except VaultError α} {a : α} :
    ofStore x = pure a ↔ x = .ok a := by
  cases x with
  | error e =>
    constructor
    · intro h
      have h' : (Except.error e : Except VaultError (Except Refusal α)) = .ok (.ok a) := h
      cases h'
    · intro h
      cases h
  | ok b =>
    constructor
    · intro h
      exact congrArg _ (Except.ok.inj (Except.ok.inj h))
    · rintro ⟨rfl⟩
      rfl

@[simp]
theorem ofCheck_eq_pure_iff {x : Except Refusal α} {a : α} : ofCheck x = pure a ↔ x = .ok a := by
  constructor
  · intro h
    exact Except.ok.inj h
  · rintro rfl
    rfl

@[simp]
theorem orRefuse_eq_pure_iff {x : Except ε α} {r : Refusal} {a : α} :
    orRefuse x r = pure a ↔ x = .ok a := by
  cases x with
  | error e => simp [orRefuse]
  | ok b => simp [orRefuse]

end Served

/-! ### The open transaction -/

/-- The transaction opened on a vault's rows. -/
def openTx (env : Environment) (vaultId : VaultId) (rows : VaultRows) : Tx :=
  ⟨rows, vaultId, ⟨rows.accountId, rows.vaultKeyEpoch, rows.nextStoreSeq⟩, rows.heads,
    env.authors, env.nowMs⟩

variable {env : Environment} {vaultId : VaultId} {rows : VaultRows}

theorem openSession_eq_ok_iff {accountId : AccountId} {tx : Tx} :
    openSession env accountId vaultId rows = .ok tx ↔
      rows.accountId = accountId ∧ tx = openTx env vaultId rows := by
  unfold openSession openTx
  split_ifs with h
  · simp [h, eq_comm]
  · simp [h]

namespace VaultRows

/-! ### The heads -/

theorem covers_heads {v : VaultRows} {dot : Dot} :
    v.heads.covers dot ↔ ∃ e ∈ v.ops, e.deviceId = dot.deviceId ∧ dot.seq ≤ e.seq := by
  simp only [heads, VersionVector.covers_ofDots, ExtTreeMap.mem_keys]

theorem covers_heads_of_mem {v : VaultRows} {dot : Dot} (h : dot ∈ v.ops) : v.heads.covers dot :=
  covers_heads.mpr ⟨dot, h, rfl, le_rfl⟩

theorem heads_congr {v v' : VaultRows} (h : ∀ dot, dot ∈ v'.ops ↔ dot ∈ v.ops) :
    v'.heads = v.heads :=
  VersionVector.ext_covers fun dot => by simp only [covers_heads, h]

theorem heads_insert {v : VaultRows} (dot : Dot) (row : OpRow) :
    ({ v with ops := v.ops.insert dot row } : VaultRows).heads = v.heads.add dot := by
  refine VersionVector.ext_covers fun d => ?_
  simp only [covers_heads, VersionVector.covers_add, ExtTreeMap.mem_insert, compare_eq_iff_eq]
  constructor
  · rintro ⟨e, rfl | he, h⟩
    · exact .inr h
    · exact .inl ⟨e, he, h⟩
  · rintro (⟨e, he, h⟩ | h)
    · exact ⟨e, .inr he, h⟩
    · exact ⟨dot, .inl rfl, h⟩

/-! ### Wraps -/

theorem putWrap_eq (v : VaultRows) (wrap : WrapRow) :
    v.putWrap wrap = { v with wraps := (v.putWrap wrap).wraps } := by
  unfold putWrap
  split
  · rfl
  · split_ifs <;> rfl

@[simp]
theorem putWrap_ops (v : VaultRows) (wrap : WrapRow) : (v.putWrap wrap).ops = v.ops := by
  rw [putWrap_eq]

@[simp]
theorem putWrap_snapshots (v : VaultRows) (wrap : WrapRow) :
    (v.putWrap wrap).snapshots = v.snapshots := by
  rw [putWrap_eq]

@[simp]
theorem putWrap_vaultKeyEpoch (v : VaultRows) (wrap : WrapRow) :
    (v.putWrap wrap).vaultKeyEpoch = v.vaultKeyEpoch := by
  rw [putWrap_eq]

theorem fillWrap_eq (v : VaultRows) (itemId : ItemId) (epoch : ℕ) (wrap : Option CarriedWrap) :
    fillWrap v itemId epoch wrap =
      { v with wraps := (fillWrap v itemId epoch wrap).wraps } := by
  unfold fillWrap
  split
  · exact putWrap_eq v _
  · rfl

/-! ### One record -/

/-- The wrap a record at `epoch` keeps: none below the vault's epoch. -/
def keptWrap (v : VaultRows) (epoch : ℕ) (wrap : Option CarriedWrap) : Option CarriedWrap :=
  if v.vaultKeyEpoch ≤ epoch then wrap else none

/-- The rows after one operation. -/
def addOp (v : VaultRows) (op : VerifiedOp) : VaultRows :=
  let kept := v.keptWrap op.header.vaultKeyEpoch op.keyWrap
  let row : OpRow := ⟨op.header, op.signed, op.body, kept.map CarriedWrap.envelope⟩
  fillWrap { v with ops := v.ops.insert op.header.dot row } op.header.itemId
    op.header.vaultKeyEpoch kept

/-- The row of a snapshot stored now. -/
def snapshotRow (v : VaultRows) (snapshot : VerifiedSnapshot) : SnapshotRow :=
  ⟨snapshot.header, snapshot.signed.header, snapshot.envelope, snapshot.signed.wrapHash,
    snapshot.signed.container,
    (v.keptWrap snapshot.header.vaultKeyEpoch snapshot.keyWrap).map CarriedWrap.envelope,
    clamp snapshot.header.covered v.heads, v.nextStoreSeq⟩

/-- The rows after one snapshot. -/
def addSnapshot (v : VaultRows) (snapshot : VerifiedSnapshot) : VaultRows :=
  fillWrap
    { v with
      snapshots := v.snapshots.insert snapshot.header.snapshotId (v.snapshotRow snapshot)
      nextStoreSeq := v.nextStoreSeq + 1 }
    snapshot.header.itemId snapshot.header.vaultKeyEpoch
    (v.keptWrap snapshot.header.vaultKeyEpoch snapshot.keyWrap)

section Fields

variable (v : VaultRows) (op : VerifiedOp) (snapshot : VerifiedSnapshot)

@[simp]
theorem addOp_ops : (v.addOp op).ops = v.ops.insert op.header.dot
    ⟨op.header, op.signed, op.body,
      (v.keptWrap op.header.vaultKeyEpoch op.keyWrap).map CarriedWrap.envelope⟩ := by
  rw [addOp, fillWrap_eq]

@[simp]
theorem addOp_snapshots : (v.addOp op).snapshots = v.snapshots := by rw [addOp, fillWrap_eq]

@[simp]
theorem addOp_accountId : (v.addOp op).accountId = v.accountId := by rw [addOp, fillWrap_eq]

@[simp]
theorem addOp_vaultKeyEpoch : (v.addOp op).vaultKeyEpoch = v.vaultKeyEpoch := by
  rw [addOp, fillWrap_eq]

@[simp]
theorem addOp_nextStoreSeq : (v.addOp op).nextStoreSeq = v.nextStoreSeq := by
  rw [addOp, fillWrap_eq]

@[simp]
theorem addOp_selfGrant : (v.addOp op).selfGrant = v.selfGrant := by rw [addOp, fillWrap_eq]

@[simp]
theorem addSnapshot_ops : (v.addSnapshot snapshot).ops = v.ops := by rw [addSnapshot, fillWrap_eq]

@[simp]
theorem addSnapshot_snapshots : (v.addSnapshot snapshot).snapshots =
    v.snapshots.insert snapshot.header.snapshotId (v.snapshotRow snapshot) := by
  rw [addSnapshot, fillWrap_eq]

@[simp]
theorem addSnapshot_accountId : (v.addSnapshot snapshot).accountId = v.accountId := by
  rw [addSnapshot, fillWrap_eq]

@[simp]
theorem addSnapshot_vaultKeyEpoch : (v.addSnapshot snapshot).vaultKeyEpoch = v.vaultKeyEpoch := by
  rw [addSnapshot, fillWrap_eq]

@[simp]
theorem addSnapshot_nextStoreSeq : (v.addSnapshot snapshot).nextStoreSeq = v.nextStoreSeq + 1 := by
  rw [addSnapshot, fillWrap_eq]

@[simp]
theorem addSnapshot_selfGrant : (v.addSnapshot snapshot).selfGrant = v.selfGrant := by
  rw [addSnapshot, fillWrap_eq]

theorem heads_addOp : (v.addOp op).heads = v.heads.add op.header.dot := by
  rw [← heads_insert]
  exact heads_congr fun dot => by rw [addOp_ops]

theorem heads_addSnapshot : (v.addSnapshot snapshot).heads = v.heads :=
  heads_congr fun dot => by rw [addSnapshot_ops]

end Fields

end VaultRows

/-! ### Single stores -/

theorem ite_currentWrap_op (op : VerifiedOp) :
    (if op.keyWrap.isSome ∧
        ¬ currentWrap (openTx env vaultId rows).session op.header.vaultKeyEpoch then
      { op with keyWrap := none } else op) =
      { op with keyWrap := rows.keptWrap op.header.vaultKeyEpoch op.keyWrap } := by
  simp only [currentWrap, openTx, VaultRows.keptWrap]
  by_cases he : rows.vaultKeyEpoch ≤ op.header.vaultKeyEpoch
  · simp [he]
  · cases hw : op.keyWrap with
    | none => simp [he, ← hw]
    | some w => simp [he]

theorem ite_currentWrap_snapshot (snapshot : VerifiedSnapshot) :
    (if snapshot.keyWrap.isSome ∧
        ¬ currentWrap (openTx env vaultId rows).session snapshot.header.vaultKeyEpoch then
      { snapshot with keyWrap := none } else snapshot) =
      { snapshot with
        keyWrap := rows.keptWrap snapshot.header.vaultKeyEpoch snapshot.keyWrap } := by
  simp only [currentWrap, openTx, VaultRows.keptWrap]
  by_cases he : rows.vaultKeyEpoch ≤ snapshot.header.vaultKeyEpoch
  · simp [he]
  · cases hw : snapshot.keyWrap with
    | none => simp [he, ← hw]
    | some w => simp [he]

theorem storeOp_eq_ok {op : VerifiedOp} {tx : Tx}
    (h : storeOp (openTx env vaultId rows) op = .ok tx) :
    op.header.dot ∉ rows.ops ∧ tx = openTx env vaultId (rows.addOp op) := by
  unfold storeOp at h
  rw [ite_currentWrap_op] at h
  obtain ⟨inserted, hins, h⟩ := except_bind_eq_ok.mp h
  cases h
  unfold VaultRows.insertOp at hins
  split_ifs at hins with hfit hnew
  cases hins
  refine ⟨hnew, ?_⟩
  have hrows : openTx env vaultId (rows.addOp op) =
      ⟨rows.addOp op, vaultId, ⟨rows.accountId, rows.vaultKeyEpoch, rows.nextStoreSeq⟩,
        rows.heads.add op.header.dot, env.authors, env.nowMs⟩ := by
    simp [openTx, VaultRows.heads_addOp]
  rw [hrows]
  rfl

theorem storeSnapshot_eq_ok {snapshot : VerifiedSnapshot} {tx : Tx}
    (h : storeSnapshot (openTx env vaultId rows) snapshot = .ok tx) :
    snapshot.header.snapshotId ∉ rows.snapshots ∧
      (∀ e ∈ rows.snapshots.toList, e.2.storeSeq ≠ rows.nextStoreSeq) ∧
      tx = openTx env vaultId (rows.addSnapshot snapshot) := by
  unfold storeSnapshot at h
  rw [ite_currentWrap_snapshot] at h
  obtain ⟨inserted, hins, h⟩ := except_bind_eq_ok.mp h
  unfold VaultRows.insertSnapshot at hins
  split_ifs at hins with hfit hnew hseq
  cases hins
  dsimp only at h
  split_ifs at h with hover
  · cases h
  have htx := Except.ok.inj h
  refine ⟨hnew, fun e he heq => hseq (List.any_eq_true.mpr ⟨e, he, decide_eq_true heq⟩), ?_⟩
  have hrows : openTx env vaultId (rows.addSnapshot snapshot) =
      ⟨rows.addSnapshot snapshot, vaultId,
        ⟨rows.accountId, rows.vaultKeyEpoch, rows.nextStoreSeq + 1⟩, rows.heads, env.authors,
        env.nowMs⟩ := by
    simp [openTx, VaultRows.heads_addSnapshot]
  rw [hrows, ← htx]
  rfl

/-- One operation, snapshot or wrap is written. -/
inductive Stored : VaultRows → VaultRows → Prop
  | op {v : VaultRows} (op : VerifiedOp) (hnew : op.header.dot ∉ v.ops)
      (hprev : op.header.vaultPrevSeq = v.heads.get op.header.dot.deviceId)
      (hseq : op.header.vaultPrevSeq < op.header.dot.seq) : Stored v (v.addOp op)
  | snapshot {v : VaultRows} (snapshot : VerifiedSnapshot)
      (hnew : snapshot.header.snapshotId ∉ v.snapshots)
      (hseq : ∀ e ∈ v.snapshots.toList, e.2.storeSeq ≠ v.nextStoreSeq) :
      Stored v (v.addSnapshot snapshot)
  | wrap {v : VaultRows} (wrap : WrapRow) (h : v.vaultKeyEpoch ≤ wrap.vaultKeyEpoch) :
      Stored v (v.putWrap wrap)

/-! ### What is admitted -/

/-- Whether the vault holds the operation. -/
def HoldsOp (v : VaultRows) (op : VerifiedOp) : Prop :=
  ∃ stored, v.getOp op.header.dot = some stored ∧
    sameRecord stored op.signed op.body (op.keyWrap.map CarriedWrap.envelope)

/-- Whether the vault holds the snapshot. -/
def HoldsSnapshot (prim : Primitives) (v : VaultRows) (snapshot : VerifiedSnapshot) : Prop :=
  ∃ stored, v.getSnapshot prim snapshot.header.snapshotId = some stored ∧
    sameRecord stored snapshot.signed (some snapshot.envelope)
      (snapshot.keyWrap.map CarriedWrap.envelope)

theorem existingOp_eq_same_iff {tx : Tx} {op : VerifiedOp} :
    existingOp tx op = .same ↔ HoldsOp tx.rows op := by
  unfold existingOp HoldsOp
  cases tx.rows.getOp op.header.dot with
  | none => simp
  | some stored => simp

theorem existingOp_eq_new_iff {tx : Tx} {op : VerifiedOp} :
    existingOp tx op = .new ↔ op.header.dot ∉ tx.rows.ops := by
  unfold existingOp VaultRows.getOp
  rw [ExtTreeMap.mem_iff_isSome_getElem?]
  cases tx.rows.ops[op.header.dot]? with
  | none => simp
  | some row =>
    simp only [Option.map_some, Option.isSome_some, not_true_eq_false, iff_false]
    split_ifs <;> simp

variable (prim : Primitives)

theorem existingSnapshot_eq_same_iff {tx : Tx} {snapshot : VerifiedSnapshot} :
    existingSnapshot prim tx snapshot = .same ↔ HoldsSnapshot prim tx.rows snapshot := by
  unfold existingSnapshot HoldsSnapshot
  cases tx.rows.getSnapshot prim snapshot.header.snapshotId with
  | none => simp
  | some stored => simp

theorem chainCheck_eq_ok_iff {session : Session} {op : VerifiedOp} {u : Unit} :
    chainCheck session op = .ok u ↔ op.header.vaultPrevSeq < op.header.dot.seq ∧
      op.header.vaultPrevSeq = session.heads.get op.header.dot.deviceId := by
  unfold chainCheck
  split_ifs with hle hne
  · simp [hle]
  · simp [hne]
  · simp only [true_iff]
    exact ⟨not_le.mp hle, not_not.mp hne⟩

/-- What an operation record comes to that is not refused: the verified operation is held, or it
is new and extends its device's chain. -/
theorem admitOp_eq_pure {tx : Tx} {record : OpRecord} {bodyRequired checkEpoch : Bool}
    {rule : WrapRule} {result : Option VerifiedOp}
    (h : admitOp prim tx record bodyRequired rule checkEpoch = pure result) :
    ∃ op, verifyOp prim record tx.session.vaultId tx.session.authors bodyRequired rule = .ok op ∧
      (result = none ∧ HoldsOp tx.rows op ∨
        result = some op ∧ op.header.dot ∉ tx.rows.ops ∧
          op.header.vaultPrevSeq < op.header.dot.seq ∧
          op.header.vaultPrevSeq = tx.session.heads.get op.header.dot.deviceId) := by
  simp only [admitOp, Served.bind_eq_pure_iff, Served.orRefuse_eq_pure_iff] at h
  obtain ⟨op, hop, h⟩ := h
  refine ⟨op, hop, ?_⟩
  cases he : existingOp tx op with
  | same =>
    simp only [he, Served.pure_eq_pure_iff] at h
    exact .inl ⟨h.symm, existingOp_eq_same_iff.mp he⟩
  | different => simp [he] at h
  | new =>
    simp only [he, Served.bind_eq_pure_iff, Served.require_eq_pure_iff, Served.ofCheck_eq_pure_iff,
      chainCheck_eq_ok_iff, Served.pure_eq_pure_iff] at h
    obtain ⟨-, -, -, hchain, -, -, hres⟩ := h
    exact .inr ⟨hres.symm, existingOp_eq_new_iff.mp he, hchain.1, hchain.2⟩

theorem admitSnapshot_eq_pure {tx : Tx} {record : SnapshotRecord} {checkEpoch : Bool}
    {rule : WrapRule} {result : Option VerifiedSnapshot}
    (h : admitSnapshot prim tx record rule checkEpoch = pure result) :
    ∃ snapshot, verifySnapshot prim record tx.session.vaultId tx.session.authors rule =
        .ok snapshot ∧
      (result = none ∧ HoldsSnapshot prim tx.rows snapshot ∨ result = some snapshot) := by
  simp only [admitSnapshot, Served.bind_eq_pure_iff, Served.orRefuse_eq_pure_iff] at h
  obtain ⟨snapshot, hsnap, h⟩ := h
  refine ⟨snapshot, hsnap, ?_⟩
  cases he : existingSnapshot prim tx snapshot with
  | same =>
    simp only [he, Served.pure_eq_pure_iff] at h
    exact .inl ⟨h.symm, (existingSnapshot_eq_same_iff prim).mp he⟩
  | different => simp [he] at h
  | new =>
    simp only [he, Served.bind_eq_pure_iff, Served.require_eq_pure_iff,
      Served.pure_eq_pure_iff] at h
    obtain ⟨-, -, -, -, hres⟩ := h
    exact .inr hres.symm

theorem holdsOp_addOp (v : VaultRows) (op : VerifiedOp) : HoldsOp (v.addOp op) op := by
  refine ⟨⟨op.signed, op.body,
    (v.keptWrap op.header.vaultKeyEpoch op.keyWrap).map CarriedWrap.envelope⟩, ?_, ?_⟩
  · simp [VaultRows.getOp]
  · unfold VaultRows.keptWrap sameRecord attachmentsAgree
    split_ifs <;> cases op.body <;> cases op.keyWrap <;> simp

theorem holdsSnapshot_addSnapshot (v : VaultRows) {snapshot : VerifiedSnapshot}
    (hhash : snapshot.signed.envelopeHash = prim.sha256 snapshot.envelope) :
    HoldsSnapshot prim (v.addSnapshot snapshot) snapshot := by
  refine ⟨VaultRows.storedSnapshot prim (v.snapshotRow snapshot), ?_, ?_⟩
  · simp [VaultRows.getSnapshot]
  · have hsigned : (VaultRows.storedSnapshot prim (v.snapshotRow snapshot)).signed =
        snapshot.signed := by
      simp only [VaultRows.storedSnapshot, VaultRows.snapshotRow, ← hhash]
    unfold sameRecord
    rw [hsigned]
    simp only [VaultRows.storedSnapshot, VaultRows.snapshotRow, VaultRows.keptWrap, attachmentsAgree]
    split_ifs <;> cases snapshot.keyWrap <;> simp

/-- Whether the vault holds the record, as verified against the certificates. -/
def Holds (authors : Authors) (vaultId : VaultId) (bodyRequired : Bool) (rule : WrapRule)
    (v : VaultRows) : Record → Prop
  | .op record => ∃ op,
      verifyOp prim record vaultId authors bodyRequired rule = .ok op ∧ HoldsOp v op
  | .snapshot record => ∃ snapshot,
      verifySnapshot prim record vaultId authors rule = .ok snapshot ∧
        HoldsSnapshot prim v snapshot

/-! ### What stays -/

/-- A stored operation keeps its signed record; its body and its wrap may be gone. -/
structure OpRow.Fades (row row' : OpRow) : Prop where
  header : row'.header = row.header
  signed : row'.signed = row.signed
  body : row'.body = row.body ∨ row'.body = none
  keyWrap : row'.keyWrap = row.keyWrap ∨ row'.keyWrap = none

/-- A stored snapshot keeps all but its wrap. -/
def SnapshotRow.Fades (row row' : SnapshotRow) : Prop :=
  row' = row ∨ row' = { row with keyWrap := none }

theorem OpRow.Fades.refl (row : OpRow) : row.Fades row := ⟨rfl, rfl, .inl rfl, .inl rfl⟩

theorem OpRow.Fades.trans {a b c : OpRow} (hab : a.Fades b) (hbc : b.Fades c) : a.Fades c := by
  refine ⟨hbc.header.trans hab.header, hbc.signed.trans hab.signed, ?_, ?_⟩
  · obtain h | h := hbc.body
    · rw [h]
      exact hab.body
    · exact .inr h
  · obtain h | h := hbc.keyWrap
    · rw [h]
      exact hab.keyWrap
    · exact .inr h

theorem SnapshotRow.Fades.refl (row : SnapshotRow) : row.Fades row := .inl rfl

theorem SnapshotRow.Fades.trans {a b c : SnapshotRow} (hab : a.Fades b) (hbc : b.Fades c) :
    a.Fades c := by
  obtain rfl | rfl := hbc
  · exact hab
  · obtain rfl | rfl := hab
    · exact .inr rfl
    · exact .inr rfl

namespace VaultRows

/-- No operation is lost or changed. -/
def KeepsOps (v v' : VaultRows) : Prop :=
  ∀ (dot : Dot) (row : OpRow), v.ops[dot]? = some row →
    ∃ row', v'.ops[dot]? = some row' ∧ row.Fades row'

/-- No snapshot is lost or changed. -/
def KeepsSnapshots (v v' : VaultRows) : Prop :=
  ∀ (id : SnapshotId) (row : SnapshotRow), v.snapshots[id]? = some row →
    ∃ row', v'.snapshots[id]? = some row' ∧ row.Fades row'

theorem KeepsOps.refl (v : VaultRows) : v.KeepsOps v := fun _ row h => ⟨row, h, .refl row⟩

theorem KeepsOps.trans {a b c : VaultRows} (hab : a.KeepsOps b) (hbc : b.KeepsOps c) :
    a.KeepsOps c := by
  intro dot row h
  obtain ⟨row', h', hf⟩ := hab dot row h
  obtain ⟨row'', h'', hf'⟩ := hbc dot row' h'
  exact ⟨row'', h'', hf.trans hf'⟩

theorem KeepsOps.mem {v v' : VaultRows} (h : v.KeepsOps v') {dot : Dot} (hdot : dot ∈ v.ops) :
    dot ∈ v'.ops := by
  rw [ExtTreeMap.mem_iff_isSome_getElem?, Option.isSome_iff_exists] at hdot ⊢
  obtain ⟨row, hrow⟩ := hdot
  obtain ⟨row', hrow', -⟩ := h dot row hrow
  exact ⟨row', hrow'⟩

theorem KeepsOps.heads_le {v v' : VaultRows} (h : v.KeepsOps v') : v.heads ≤ v'.heads := by
  intro dot hdot
  obtain ⟨e, he, hle⟩ := covers_heads.mp hdot
  exact covers_heads.mpr ⟨e, h.mem he, hle⟩

theorem KeepsSnapshots.refl (v : VaultRows) : v.KeepsSnapshots v :=
  fun _ row h => ⟨row, h, .refl row⟩

theorem KeepsSnapshots.trans {a b c : VaultRows} (hab : a.KeepsSnapshots b)
    (hbc : b.KeepsSnapshots c) : a.KeepsSnapshots c := by
  intro id row h
  obtain ⟨row', h', hf⟩ := hab id row h
  obtain ⟨row'', h'', hf'⟩ := hbc id row' h'
  exact ⟨row'', h'', hf.trans hf'⟩

end VaultRows

theorem Stored.keepsOps {v v' : VaultRows} (h : Stored v v') : v.KeepsOps v' := by
  intro dot row hrow
  refine ⟨row, ?_, .refl row⟩
  cases h with
  | op op hnew =>
    have hne : op.header.dot ≠ dot := by
      rintro rfl
      exact hnew (ExtTreeMap.mem_iff_isSome_getElem?.mpr (by rw [hrow]; rfl))
    rw [VaultRows.addOp_ops, ExtTreeMap.getElem?_insert_iff, if_neg hne]
    exact hrow
  | snapshot => rwa [VaultRows.addSnapshot_ops]
  | wrap => rwa [VaultRows.putWrap_eq]

theorem Stored.keepsSnapshots {v v' : VaultRows} (h : Stored v v') : v.KeepsSnapshots v' := by
  intro id row hrow
  refine ⟨row, ?_, .refl row⟩
  cases h with
  | op => rwa [VaultRows.addOp_snapshots]
  | snapshot snapshot hnew =>
    have hne : snapshot.header.snapshotId ≠ id := by
      rintro rfl
      exact hnew (ExtTreeMap.mem_iff_isSome_getElem?.mpr (by rw [hrow]; rfl))
    rw [VaultRows.addSnapshot_snapshots, ExtTreeMap.getElem?_insert_iff, if_neg hne]
    exact hrow
  | wrap => rwa [VaultRows.putWrap_eq]

theorem Stored.run_keepsOps {v v' : VaultRows} (h : ReflTransGen Stored v v') : v.KeepsOps v' := by
  induction h with
  | refl => exact .refl v
  | tail _ hstep ih => exact ih.trans hstep.keepsOps

theorem Stored.run_keepsSnapshots {v v' : VaultRows} (h : ReflTransGen Stored v v') :
    v.KeepsSnapshots v' := by
  induction h with
  | refl => exact .refl v
  | tail _ hstep ih => exact ih.trans hstep.keepsSnapshots

/-- A store leaves the account, the epoch and the self-grant alone. -/
theorem Stored.fixed {v v' : VaultRows} (h : Stored v v') :
    v'.accountId = v.accountId ∧ v'.vaultKeyEpoch = v.vaultKeyEpoch ∧
      v'.selfGrant = v.selfGrant := by
  cases h with
  | op op => simp
  | snapshot snapshot => simp
  | wrap wrap =>
    rw [VaultRows.putWrap_eq]
    exact ⟨rfl, rfl, rfl⟩

theorem Stored.run_fixed {v v' : VaultRows} (h : ReflTransGen Stored v v') :
    v'.accountId = v.accountId ∧ v'.vaultKeyEpoch = v.vaultKeyEpoch ∧
      v'.selfGrant = v.selfGrant := by
  induction h with
  | refl => exact ⟨rfl, rfl, rfl⟩
  | tail _ hstep ih =>
    obtain ⟨haccount, hepoch, hgrant⟩ := hstep.fixed
    exact ⟨haccount.trans ih.1, hepoch.trans ih.2.1, hgrant.trans ih.2.2⟩

theorem sameRecord_iff {stored : StoredRecord} {signed : Signed} {body wrap : Option Bytes} :
    sameRecord stored signed body wrap ↔ stored.signed = signed ∧
      attachmentsAgree stored.body body ∧ attachmentsAgree stored.keyWrap wrap := by
  simp [sameRecord]

theorem attachmentsAgree_of_faded {a a' b : Option Bytes} (h : attachmentsAgree a b)
    (ha : a' = a ∨ a' = none) : attachmentsAgree a' b := by
  obtain rfl | rfl := ha
  · exact h
  · rfl

theorem HoldsOp.mono {v v' : VaultRows} (hv : v.KeepsOps v') {op : VerifiedOp}
    (h : HoldsOp v op) : HoldsOp v' op := by
  obtain ⟨stored, hget, hsame⟩ := h
  obtain ⟨row, hrow, rfl⟩ := Option.map_eq_some_iff.mp hget
  obtain ⟨row', hrow', hf⟩ := hv _ row hrow
  refine ⟨_, by rw [VaultRows.getOp, hrow']; rfl, ?_⟩
  rw [sameRecord_iff] at hsame ⊢
  exact ⟨hf.signed.trans hsame.1, attachmentsAgree_of_faded hsame.2.1 hf.body,
    attachmentsAgree_of_faded hsame.2.2 hf.keyWrap⟩

theorem HoldsSnapshot.mono {v v' : VaultRows} (hv : v.KeepsSnapshots v')
    {snapshot : VerifiedSnapshot} (h : HoldsSnapshot prim v snapshot) :
    HoldsSnapshot prim v' snapshot := by
  obtain ⟨stored, hget, hsame⟩ := h
  obtain ⟨row, hrow, rfl⟩ := Option.map_eq_some_iff.mp hget
  obtain ⟨row', hrow', hf⟩ := hv _ row hrow
  refine ⟨_, by rw [VaultRows.getSnapshot, hrow']; rfl, ?_⟩
  rw [sameRecord_iff] at hsame ⊢
  obtain rfl | rfl := hf
  · exact hsame
  · exact ⟨hsame.1, hsame.2.1, rfl⟩

theorem Authors.Kept.refl (authors : Authors) : authors.Kept authors :=
  fun _ cert h => ⟨cert, h, rfl, rfl⟩

theorem Holds.mono {authors authors' : Authors} (hk : authors.Kept authors') {v v' : VaultRows}
    (hops : v.KeepsOps v') (hsnaps : v.KeepsSnapshots v') {bodyRequired : Bool} {rule : WrapRule}
    {record : Record} (h : Holds prim authors vaultId bodyRequired rule v record) :
    Holds prim authors' vaultId bodyRequired rule v' record := by
  cases record with
  | op record =>
    obtain ⟨op, hop, hholds⟩ := h
    obtain ⟨author', hop'⟩ := hk.verifyOp hop
    exact ⟨_, hop', hholds.mono hops⟩
  | snapshot record =>
    obtain ⟨snapshot, hsnap, hholds⟩ := h
    obtain ⟨author', hsnap'⟩ := hk.verifySnapshot hsnap
    exact ⟨_, hsnap', hholds.mono prim hsnaps⟩

/-! ### Uploads -/

/-- The record is stored: the rows after it are those before it with its verified content. -/
def Adds (authors : Authors) (vaultId : VaultId) (bodyRequired : Bool) (rule : WrapRule) :
    Record → VaultRows → VaultRows → Prop
  | .op record, v, v' => ∃ op, verifyOp prim record vaultId authors bodyRequired rule = .ok op ∧
      v' = v.addOp op
  | .snapshot record, v, v' => ∃ snapshot,
      verifySnapshot prim record vaultId authors rule = .ok snapshot ∧ v' = v.addSnapshot snapshot

theorem Adds.holds {authors : Authors} {bodyRequired : Bool} {rule : WrapRule} {record : Record}
    {v v' : VaultRows} (h : Adds prim authors vaultId bodyRequired rule record v v') :
    Holds prim authors vaultId bodyRequired rule v' record := by
  cases record with
  | op record =>
    obtain ⟨op, hop, rfl⟩ := h
    exact ⟨op, hop, holdsOp_addOp v op⟩
  | snapshot record =>
    obtain ⟨snapshot, hsnap, rfl⟩ := h
    exact ⟨snapshot, hsnap,
      holdsSnapshot_addSnapshot prim v (verifySnapshot_envelopeHash hsnap)⟩

/-- What an accepted record did: it was held already and nothing changed, or it is stored. -/
theorem uploadRecord_eq_pure {record : Record} {result : UploadResult} {tx : Tx}
    (h : uploadRecord prim (openTx env vaultId rows) record = pure (result, tx)) :
    (result = .alreadyStored ∧ tx = openTx env vaultId rows ∧
        Holds prim env.authors vaultId true .required rows record) ∨
      (result = .stored ∧ ∃ rows', tx = openTx env vaultId rows' ∧ Stored rows rows' ∧
        Adds prim env.authors vaultId true .required record rows rows') := by
  cases record with
  | op record =>
    simp only [uploadRecord, uploadOp, Served.bind_eq_pure_iff] at h
    obtain ⟨admitted, hadmit, h⟩ := h
    obtain ⟨op, hop, ⟨rfl, hholds⟩ | ⟨rfl, hnew, hseq, hprev⟩⟩ := admitOp_eq_pure prim hadmit
    · simp only [Served.pure_eq_pure_iff, Prod.mk.injEq] at h
      exact .inl ⟨h.1.symm, h.2.symm, op, hop, hholds⟩
    · simp only [Served.bind_eq_pure_iff, Served.ofStore_eq_pure_iff, Served.pure_eq_pure_iff,
        Prod.mk.injEq] at h
      obtain ⟨tx', hstore, hres, rfl⟩ := h
      obtain ⟨-, htx⟩ := storeOp_eq_ok hstore
      exact .inr ⟨hres.symm, rows.addOp op, htx, .op op hnew hprev hseq, op, hop, rfl⟩
  | snapshot record =>
    simp only [uploadRecord, uploadSnapshot, Served.bind_eq_pure_iff] at h
    obtain ⟨admitted, hadmit, h⟩ := h
    obtain ⟨snapshot, hsnap, ⟨rfl, hholds⟩ | rfl⟩ := admitSnapshot_eq_pure prim hadmit
    · simp only [Served.pure_eq_pure_iff, Prod.mk.injEq] at h
      exact .inl ⟨h.1.symm, h.2.symm, snapshot, hsnap, hholds⟩
    · simp only [Served.bind_eq_pure_iff, Served.ofStore_eq_pure_iff, Served.pure_eq_pure_iff,
        Prod.mk.injEq] at h
      obtain ⟨tx', hstore, hres, rfl⟩ := h
      obtain ⟨hnew, hseq, htx⟩ := storeSnapshot_eq_ok hstore
      exact .inr ⟨hres.symm, rows.addSnapshot snapshot, htx, .snapshot snapshot hnew hseq,
        snapshot, hsnap, rfl⟩

theorem admitOp_of_holds {tx : Tx} {record : OpRecord} {bodyRequired checkEpoch : Bool}
    {rule : WrapRule} {op : VerifiedOp}
    (hop : verifyOp prim record tx.session.vaultId tx.session.authors bodyRequired rule = .ok op)
    (h : HoldsOp tx.rows op) :
    admitOp prim tx record bodyRequired rule checkEpoch = pure none := by
  simp only [admitOp, Served.bind_eq_pure_iff, Served.orRefuse_eq_pure_iff]
  exact ⟨op, hop, by rw [existingOp_eq_same_iff.mpr h]⟩

theorem admitSnapshot_of_holds {tx : Tx} {record : SnapshotRecord} {checkEpoch : Bool}
    {rule : WrapRule} {snapshot : VerifiedSnapshot}
    (hsnap : verifySnapshot prim record tx.session.vaultId tx.session.authors rule = .ok snapshot)
    (h : HoldsSnapshot prim tx.rows snapshot) :
    admitSnapshot prim tx record rule checkEpoch = pure none := by
  simp only [admitSnapshot, Served.bind_eq_pure_iff, Served.orRefuse_eq_pure_iff]
  exact ⟨snapshot, hsnap, by rw [(existingSnapshot_eq_same_iff prim).mpr h]⟩

/-- A record the vault holds is answered as already stored. -/
theorem uploadRecord_of_holds {record : Record}
    (h : Holds prim env.authors vaultId true .required rows record) :
    uploadRecord prim (openTx env vaultId rows) record =
      pure (.alreadyStored, openTx env vaultId rows) := by
  cases record with
  | op record =>
    obtain ⟨op, hop, hholds⟩ := h
    simp only [uploadRecord, uploadOp, Served.bind_eq_pure_iff]
    exact ⟨none, admitOp_of_holds prim hop hholds, rfl⟩
  | snapshot record =>
    obtain ⟨snapshot, hsnap, hholds⟩ := h
    simp only [uploadRecord, uploadSnapshot, Served.bind_eq_pure_iff]
    exact ⟨none, admitSnapshot_of_holds prim hsnap hholds, rfl⟩

/-- The records stored one after another, each answered. -/
inductive Uploads (env : Environment) (vaultId : VaultId) :
    VaultRows → List Record → List UploadResult → VaultRows → Prop
  | nil {v : VaultRows} : Uploads env vaultId v [] [] v
  | held {v v' : VaultRows} {record : Record} {records : List Record} {results : List UploadResult}
      (h : Holds prim env.authors vaultId true .required v record)
      (rest : Uploads env vaultId v records results v') :
      Uploads env vaultId v (record :: records) (.alreadyStored :: results) v'
  | added {v v₁ v' : VaultRows} {record : Record} {records : List Record}
      {results : List UploadResult} (hstored : Stored v v₁)
      (hupload : uploadRecord prim (openTx env vaultId v) record =
        pure (.stored, openTx env vaultId v₁))
      (h : Adds prim env.authors vaultId true .required record v v₁)
      (rest : Uploads env vaultId v₁ records results v') :
      Uploads env vaultId v (record :: records) (.stored :: results) v'

/-- What an upload did: the records before the first rejected one are stored or held, the rest are
not processed. -/
theorem uploadRecords_eq_ok {records : List Record} {results : List UploadResult} {tx : Tx}
    (h : uploadRecords prim records (openTx env vaultId rows) = .ok (results, tx)) :
    ∃ done rest accepted rows', records = done ++ rest ∧ tx = openTx env vaultId rows' ∧
      Uploads prim env vaultId rows done accepted rows' ∧
      (rest = [] ∧ results = accepted ∨ ∃ error, rest ≠ [] ∧
        results = accepted ++ .rejected error :: rest.tail.map fun _ => .notProcessed) := by
  induction records generalizing rows results tx with
  | nil =>
    cases h
    exact ⟨[], [], [], rows, rfl, rfl, .nil, .inl ⟨rfl, rfl⟩⟩
  | cons record records ih =>
    unfold uploadRecords at h
    obtain ⟨answer, hanswer, h⟩ := except_bind_eq_ok.mp h
    cases answer with
    | error refusal =>
      cases h
      exact ⟨[], record :: records, [], rows, rfl, rfl, .nil,
        .inr ⟨refusal.code, List.cons_ne_nil _ _, rfl⟩⟩
    | ok answered =>
      obtain ⟨result, tx₁⟩ := answered
      obtain ⟨⟨results', tx'⟩, hrest, h⟩ := except_bind_eq_ok.mp h
      cases h
      obtain ⟨rfl, rfl, hholds⟩ | ⟨rfl, rows₁, rfl, hstored, hadds⟩ :=
        uploadRecord_eq_pure prim hanswer
      · obtain ⟨done, rest, accepted, rows', rfl, rfl, hrun, hres⟩ := ih hrest
        refine ⟨record :: done, rest, .alreadyStored :: accepted, rows', rfl, rfl,
          .held hholds hrun, ?_⟩
        obtain ⟨hnil, rfl⟩ | ⟨error, hne, rfl⟩ := hres
        · exact .inl ⟨hnil, rfl⟩
        · exact .inr ⟨error, hne, rfl⟩
      · obtain ⟨done, rest, accepted, rows', rfl, rfl, hrun, hres⟩ := ih hrest
        refine ⟨record :: done, rest, .stored :: accepted, rows', rfl, rfl,
          .added hstored hanswer hadds hrun, ?_⟩
        obtain ⟨hnil, rfl⟩ | ⟨error, hne, rfl⟩ := hres
        · exact .inl ⟨hnil, rfl⟩
        · exact .inr ⟨error, hne, rfl⟩

namespace Uploads

variable {prim} {v v' : VaultRows} {records : List Record} {results : List UploadResult}

theorem stored (h : Uploads prim env vaultId v records results v') :
    ReflTransGen Stored v v' := by
  induction h with
  | nil => exact .refl
  | held _ _ ih => exact ih
  | added hstored _ _ _ ih => exact .head hstored ih

theorem length_eq (h : Uploads prim env vaultId v records results v') :
    results.length = records.length := by
  induction h with
  | nil => rfl
  | held _ _ ih => simp [ih]
  | added _ _ _ _ ih => simp [ih]

/-- The vault holds every record that was not rejected. -/
theorem holds (h : Uploads prim env vaultId v records results v') :
    ∀ record ∈ records, Holds prim env.authors vaultId true .required v' record := by
  induction h with
  | nil => simp
  | held hholds rest ih =>
    refine List.forall_mem_cons.mpr ⟨?_, ih⟩
    exact hholds.mono prim (.refl _) (Stored.run_keepsOps rest.stored)
      (Stored.run_keepsSnapshots rest.stored)
  | added _ _ hadds rest ih =>
    refine List.forall_mem_cons.mpr ⟨?_, ih⟩
    exact (hadds.holds prim).mono prim (.refl _) (Stored.run_keepsOps rest.stored)
      (Stored.run_keepsSnapshots rest.stored)

end Uploads

/-- Records the vault holds are answered as already stored, and nothing changes. -/
theorem uploadRecords_of_holds {records : List Record}
    (h : ∀ record ∈ records, Holds prim env.authors vaultId true .required rows record) :
    uploadRecords prim records (openTx env vaultId rows) =
      .ok (records.map fun _ => .alreadyStored, openTx env vaultId rows) := by
  induction records with
  | nil => rfl
  | cons record records ih =>
    obtain ⟨hrecord, hrest⟩ := List.forall_mem_cons.mp h
    unfold uploadRecords
    rw [uploadRecord_of_holds prim hrecord]
    refine except_bind_eq_ok.mpr ⟨.ok (.alreadyStored, openTx env vaultId rows), rfl, ?_⟩
    dsimp only
    rw [ih hrest]
    rfl

/-! ### Healing requests -/

/-- The wrap is below the vault's epoch, or the row at its locator is at its epoch or above: a
healing request leaves it out or finds the row. -/
def Settled (v : VaultRows) (wrap : WrapRow) : Prop :=
  wrap.vaultKeyEpoch < v.vaultKeyEpoch ∨
    ∃ c, v.wraps[wrap.locator]? = some c ∧ wrap.vaultKeyEpoch ≤ c.vaultKeyEpoch

/-- The row at a locator after a wrap is filled in. -/
theorem getElem?_putWrap (v : VaultRows) (wrap : WrapRow) (loc : Locator) :
    (v.putWrap wrap).wraps[loc]? = if wrap.locator = loc ∧ ∀ c ∈ v.wraps[loc]?,
      c.vaultKeyEpoch < wrap.vaultKeyEpoch then some wrap.columns else v.wraps[loc]? := by
  unfold VaultRows.putWrap
  by_cases hloc : wrap.locator = loc
  · subst hloc
    cases hget : v.wraps[wrap.locator]? with
    | none => simp
    | some c =>
      by_cases hlt : c.vaultKeyEpoch < wrap.vaultKeyEpoch
      · simp [hlt]
      · simp [hlt, hget]
  · split
    · simp [ExtTreeMap.getElem?_insert_iff, hloc]
    · split_ifs <;> simp_all [ExtTreeMap.getElem?_insert_iff]

theorem settled_putWrap (v : VaultRows) (wrap : WrapRow) : Settled (v.putWrap wrap) wrap := by
  refine .inr ?_
  rw [getElem?_putWrap]
  split_ifs with h
  · exact ⟨_, rfl, le_rfl⟩
  · simp only [true_and, not_forall, not_lt] at h
    obtain ⟨c, hc, hle⟩ := h
    exact ⟨c, hc, hle⟩

theorem Settled.putWrap {v : VaultRows} {wrap : WrapRow} (h : Settled v wrap) (other : WrapRow) :
    Settled (v.putWrap other) wrap := by
  obtain h | ⟨c, hc, hle⟩ := h
  · exact .inl (by rwa [VaultRows.putWrap_vaultKeyEpoch])
  · refine .inr ?_
    rw [getElem?_putWrap]
    split_ifs with hput
    · exact ⟨_, rfl, hle.trans (hput.2 c hc).le⟩
    · exact ⟨c, hc, hle⟩

theorem Settled.fillWrap {v : VaultRows} {wrap : WrapRow} (h : Settled v wrap) (itemId : ItemId)
    (epoch : ℕ) (carried : Option CarriedWrap) : Settled (fillWrap v itemId epoch carried) wrap := by
  unfold Vault.fillWrap
  split
  · exact h.putWrap _
  · exact h

theorem Stored.settled {v v' : VaultRows} (h : Stored v v') {wrap : WrapRow}
    (hs : Settled v wrap) : Settled v' wrap := by
  cases h with
  | op op =>
    unfold VaultRows.addOp
    refine Settled.fillWrap ?_ _ _ _
    exact hs
  | snapshot snapshot =>
    unfold VaultRows.addSnapshot
    refine Settled.fillWrap ?_ _ _ _
    exact hs
  | wrap other => exact hs.putWrap other

theorem Stored.run_settled {v v' : VaultRows} (h : ReflTransGen Stored v v') {wrap : WrapRow}
    (hs : Settled v wrap) : Settled v' wrap := by
  induction h with
  | refl => exact hs
  | tail _ hstep ih => exact hstep.settled ih

theorem putWrap_of_settled {v : VaultRows} {wrap : WrapRow} (h : Settled v wrap)
    (hepoch : ¬ wrap.vaultKeyEpoch < v.vaultKeyEpoch) : v.putWrap wrap = v := by
  obtain ⟨c, hc, hle⟩ := h.resolve_left hepoch
  unfold VaultRows.putWrap
  rw [hc]
  exact if_neg (not_lt.mpr hle)

theorem openTx_putWrap (wrap : WrapRow) :
    (⟨rows.putWrap wrap, (openTx env vaultId rows).session⟩ : Tx) =
      openTx env vaultId (rows.putWrap wrap) := by
  have hheads : (rows.putWrap wrap).heads = rows.heads :=
    VaultRows.heads_congr fun dot => by rw [VaultRows.putWrap_ops]
  have hput := rows.putWrap_eq wrap
  unfold openTx
  rw [hheads, hput]

theorem healWraps_eq (env : Environment) (vaultId : VaultId) (rows : VaultRows)
    (wraps : List WrapRow) :
    ∃ rows', healWraps (openTx env vaultId rows) wraps = openTx env vaultId rows' ∧
      ReflTransGen Stored rows rows' ∧ rows'.ops = rows.ops ∧ rows'.snapshots = rows.snapshots ∧
      ∀ wrap ∈ wraps, Settled rows' wrap := by
  unfold healWraps
  induction wraps generalizing rows with
  | nil => exact ⟨rows, rfl, .refl, rfl, rfl, by simp⟩
  | cons wrap wraps ih =>
    rw [List.foldl_cons]
    split_ifs with hepoch
    · obtain ⟨rows', heq, hrun, hops, hsnaps, hsettled⟩ := ih rows
      refine ⟨rows', heq, hrun, hops, hsnaps, List.forall_mem_cons.mpr ⟨?_, hsettled⟩⟩
      exact Stored.run_settled hrun (.inl hepoch)
    · obtain ⟨rows', heq, hrun, hops, hsnaps, hsettled⟩ := ih (rows.putWrap wrap)
      refine ⟨rows', ?_, .head (.wrap wrap (not_lt.mp hepoch)) hrun, ?_, ?_,
        List.forall_mem_cons.mpr ⟨Stored.run_settled hrun (settled_putWrap rows wrap), hsettled⟩⟩
      · rw [← heq, ← openTx_putWrap]
        rfl
      · rw [hops, VaultRows.putWrap_ops]
      · rw [hsnaps, VaultRows.putWrap_snapshots]

theorem mem_getD_insert_append {bodiless : ExtTreeMap ItemId (List Dot)} {item itemId : ItemId}
    {d dot : Dot} :
    dot ∈ (bodiless.insert item (bodiless.getD item [] ++ [d])).getD itemId [] ↔
      dot ∈ bodiless.getD itemId [] ∨ item = itemId ∧ dot = d := by
  simp only [ExtTreeMap.getD_insert, compare_eq_iff_eq]
  split_ifs with h
  · simp [h]
  · simp [h]

theorem healOps_eq_pure {records : List Record} {bodiless bodiless' : ExtTreeMap ItemId (List Dot)}
    {tx : Tx} (h : healOps prim records (openTx env vaultId rows) bodiless = pure (tx, bodiless')) :
    ∃ rows', tx = openTx env vaultId rows' ∧ ReflTransGen Stored rows rows' ∧
      rows'.snapshots = rows.snapshots ∧
      (∀ record, Record.op record ∈ records →
        Holds prim env.authors vaultId false .optional rows' (.op record)) ∧
      (∀ itemId dot, dot ∈ bodiless.getD itemId [] → dot ∈ bodiless'.getD itemId []) ∧
      ∀ (dot : Dot) (row : OpRow), rows'.ops[dot]? = some row → rows.ops[dot]? = some row ∨
        (row.body = none → dot ∈ bodiless'.getD row.header.itemId []) := by
  induction records generalizing rows bodiless with
  | nil =>
    simp only [healOps, Served.pure_eq_pure_iff, Prod.mk.injEq] at h
    obtain ⟨rfl, rfl⟩ := h
    exact ⟨rows, rfl, .refl, rfl, by simp, fun _ _ h => h, fun _ _ h => .inl h⟩
  | cons record records ih =>
    cases record with
    | snapshot record =>
      obtain ⟨rows', htx, hrun, hsnaps, hholds, hmono, hnew⟩ := ih h
      exact ⟨rows', htx, hrun, hsnaps, fun r hr => hholds r (by simpa using hr), hmono, hnew⟩
    | op record =>
      simp only [healOps, Served.bind_eq_pure_iff] at h
      obtain ⟨admitted, hadmit, h⟩ := h
      obtain ⟨op, hop, ⟨rfl, hheld⟩ | ⟨rfl, hfresh, hseq, hprev⟩⟩ := admitOp_eq_pure prim hadmit
      · obtain ⟨rows', htx, hrun, hsnaps, hholds, hmono, hnew⟩ := ih h
        refine ⟨rows', htx, hrun, hsnaps, fun r hr => ?_, hmono, hnew⟩
        obtain hr | hr := List.mem_cons.mp hr
        · cases hr
          exact ⟨op, hop, hheld.mono (Stored.run_keepsOps hrun)⟩
        · exact hholds r hr
      · simp only [Served.bind_eq_pure_iff, Served.ofStore_eq_pure_iff] at h
        obtain ⟨tx₁, hstore, h⟩ := h
        obtain ⟨-, rfl⟩ := storeOp_eq_ok hstore
        obtain ⟨rows', htx, hrun, hsnaps, hholds, hmono, hnew⟩ := ih h
        refine ⟨rows', htx, .head (.op op hfresh hprev hseq) hrun, ?_, fun r hr => ?_, ?_, ?_⟩
        · rw [hsnaps, VaultRows.addOp_snapshots]
        · obtain hr | hr := List.mem_cons.mp hr
          · cases hr
            exact ⟨op, hop, (holdsOp_addOp rows op).mono (Stored.run_keepsOps hrun)⟩
          · exact hholds r hr
        · intro itemId dot hdot
          refine hmono itemId dot ?_
          split_ifs with hbody
          · exact mem_getD_insert_append.mpr (.inl hdot)
          · exact hdot
        · intro dot row hrow
          obtain hrow | hbodiless := hnew dot row hrow
          · rw [VaultRows.addOp_ops, ExtTreeMap.getElem?_insert_iff] at hrow
            split_ifs at hrow with hdot
            · cases hrow
              refine .inr fun hnone => hmono _ _ ?_
              rw [if_pos (Option.isNone_iff_eq_none.mpr hnone)]
              exact mem_getD_insert_append.mpr (.inr ⟨rfl, hdot.symm⟩)
            · exact .inl hrow
          · exact .inr hbodiless

theorem healSnapshots_eq_pure {records : List Record} {tx : Tx}
    (h : healSnapshots prim records (openTx env vaultId rows) = pure tx) :
    ∃ rows', tx = openTx env vaultId rows' ∧ ReflTransGen Stored rows rows' ∧
      rows'.ops = rows.ops ∧
      ∀ record, Record.snapshot record ∈ records →
        Holds prim env.authors vaultId false .optional rows' (.snapshot record) := by
  induction records generalizing rows with
  | nil =>
    simp only [healSnapshots, Served.pure_eq_pure_iff] at h
    exact ⟨rows, h.symm, .refl, rfl, by simp⟩
  | cons record records ih =>
    cases record with
    | op record =>
      obtain ⟨rows', htx, hrun, hops, hholds⟩ := ih h
      exact ⟨rows', htx, hrun, hops, fun r hr => hholds r (by simpa using hr)⟩
    | snapshot record =>
      simp only [healSnapshots, Served.bind_eq_pure_iff] at h
      obtain ⟨admitted, hadmit, h⟩ := h
      obtain ⟨snapshot, hsnap, ⟨rfl, hheld⟩ | rfl⟩ := admitSnapshot_eq_pure prim hadmit
      · obtain ⟨rows', htx, hrun, hops, hholds⟩ := ih h
        refine ⟨rows', htx, hrun, hops, fun r hr => ?_⟩
        obtain hr | hr := List.mem_cons.mp hr
        · cases hr
          exact ⟨snapshot, hsnap, hheld.mono prim (Stored.run_keepsSnapshots hrun)⟩
        · exact hholds r hr
      · simp only [Served.bind_eq_pure_iff, Served.ofStore_eq_pure_iff] at h
        obtain ⟨tx₁, hstore, h⟩ := h
        obtain ⟨hnew, hseq, rfl⟩ := storeSnapshot_eq_ok hstore
        obtain ⟨rows', htx, hrun, hops, hholds⟩ := ih h
        refine ⟨rows', htx, .head (.snapshot snapshot hnew hseq) hrun, ?_, fun r hr => ?_⟩
        · rw [hops, VaultRows.addSnapshot_ops]
        · obtain hr | hr := List.mem_cons.mp hr
          · cases hr
            have hholds := holdsSnapshot_addSnapshot prim rows (verifySnapshot_envelopeHash hsnap)
            exact ⟨snapshot, hsnap, hholds.mono prim (Stored.run_keepsSnapshots hrun)⟩
          · exact hholds r hr

theorem exists_covers_of_bodilessCovered {bodiless : ExtTreeMap ItemId (List Dot)}
    (h : bodilessCovered rows bodiless) {itemId : ItemId} {dot : Dot}
    (hdot : dot ∈ bodiless.getD itemId []) : ∃ s ∈ rows.itemSnapshots itemId, s.covers dot := by
  cases hget : bodiless[itemId]? with
  | none => simp [ExtTreeMap.getD_eq_getD_getElem?, hget] at hdot
  | some dots =>
    rw [ExtTreeMap.getD_eq_getD_getElem?, hget] at hdot
    have hcheck := List.all_eq_true.mp h (itemId, dots)
      (ExtTreeMap.mem_toList_iff_getElem?_eq_some.mpr hget)
    split at hcheck
    · rename_i u hu
      exact checkHealingRequest_eq_ok_iff.mp hu dot hdot
    · cases hcheck

/-- What a healing request that carries no self-grant did: it is a run of single stores after which
the vault holds every record, and every operation that it stored without a body is covered. -/
theorem healIn_eq_pure {request : HealingRequest} {tx : Tx}
    (h : healIn prim (openTx env vaultId rows) request = pure tx) :
    ∃ rows', tx = openTx env vaultId rows' ∧ ReflTransGen Stored rows rows' ∧
      (∀ record ∈ request.records,
        Holds prim env.authors vaultId false .optional rows' record) ∧
      (∀ wrap ∈ request.itemKeyWraps, Settled rows' wrap) ∧
      ∀ (dot : Dot) (row : OpRow), rows'.ops[dot]? = some row → rows.ops[dot]? = some row ∨
        (row.body = none → ∃ s ∈ rows'.itemSnapshots row.header.itemId, s.covers dot) := by
  obtain ⟨rows₁, hwraps, hrun₁, hops₁, -, hsettled⟩ :=
    healWraps_eq env vaultId rows request.itemKeyWraps
  simp only [healIn, hwraps, Served.bind_eq_pure_iff, Served.require_eq_pure_iff,
    Served.pure_eq_pure_iff, Prod.exists] at h
  obtain ⟨tx₂, bodiless, hheal, tx₃, hsnap, -, hcovered, rfl⟩ := h
  obtain ⟨rows₂, rfl, hrun₂, -, hholds₂, -, hnew⟩ := healOps_eq_pure prim hheal
  obtain ⟨rows₃, rfl, hrun₃, hops₃, hholds₃⟩ := healSnapshots_eq_pure prim hsnap
  refine ⟨rows₃, rfl, hrun₁.trans (hrun₂.trans hrun₃), fun record hrecord => ?_,
    fun wrap hwrap => Stored.run_settled (hrun₂.trans hrun₃) (hsettled wrap hwrap), ?_⟩
  · cases record with
    | op record =>
      exact (hholds₂ record hrecord).mono prim (.refl _) (Stored.run_keepsOps hrun₃)
        (Stored.run_keepsSnapshots hrun₃)
    | snapshot record => exact hholds₃ record hrecord
  · intro dot row hrow
    rw [hops₃] at hrow
    obtain hold | hbodiless := hnew dot row hrow
    · exact .inl (hops₁ ▸ hold)
    · refine .inr fun hnone => exists_covers_of_bodilessCovered hcovered (hbodiless hnone)

/-! ### Requests the vault already holds -/

theorem healWraps_of_settled {wraps : List WrapRow} (h : ∀ wrap ∈ wraps, Settled rows wrap) :
    healWraps (openTx env vaultId rows) wraps = openTx env vaultId rows := by
  unfold healWraps
  induction wraps with
  | nil => rfl
  | cons wrap wraps ih =>
    obtain ⟨hwrap, hrest⟩ := List.forall_mem_cons.mp h
    rw [List.foldl_cons]
    split_ifs with hepoch
    · exact ih hrest
    · have hput : (openTx env vaultId rows).rows.putWrap wrap = rows :=
        putWrap_of_settled hwrap hepoch
      rw [hput]
      exact ih hrest

theorem healOps_of_holds {records : List Record} {bodiless : ExtTreeMap ItemId (List Dot)}
    (h : ∀ record ∈ records, Holds prim env.authors vaultId false .optional rows record) :
    healOps prim records (openTx env vaultId rows) bodiless =
      pure (openTx env vaultId rows, bodiless) := by
  induction records with
  | nil => rfl
  | cons record records ih =>
    obtain ⟨hrecord, hrest⟩ := List.forall_mem_cons.mp h
    cases record with
    | snapshot record => exact ih hrest
    | op record =>
      obtain ⟨op, hop, hholds⟩ := hrecord
      simp only [healOps, Served.bind_eq_pure_iff]
      exact ⟨none, admitOp_of_holds prim hop hholds, ih hrest⟩

theorem healSnapshots_of_holds {records : List Record}
    (h : ∀ record ∈ records, Holds prim env.authors vaultId false .optional rows record) :
    healSnapshots prim records (openTx env vaultId rows) = pure (openTx env vaultId rows) := by
  induction records with
  | nil => rfl
  | cons record records ih =>
    obtain ⟨hrecord, hrest⟩ := List.forall_mem_cons.mp h
    cases record with
    | op record => exact ih hrest
    | snapshot record =>
      obtain ⟨snapshot, hsnap, hholds⟩ := hrecord
      simp only [healSnapshots, Served.bind_eq_pure_iff]
      exact ⟨none, admitSnapshot_of_holds prim hsnap hholds, ih hrest⟩

/-- A healing request whose records the vault holds and whose wraps are settled changes nothing. -/
theorem healIn_of_holds {request : HealingRequest}
    (hwraps : ∀ wrap ∈ request.itemKeyWraps, Settled rows wrap)
    (h : ∀ record ∈ request.records, Holds prim env.authors vaultId false .optional rows record) :
    healIn prim (openTx env vaultId rows) request = pure (openTx env vaultId rows) := by
  simp only [healIn, healWraps_of_settled hwraps, Served.bind_eq_pure_iff,
    Served.require_eq_pure_iff, Prod.exists]
  exact ⟨_, _, healOps_of_holds prim h, _, healSnapshots_of_holds prim h, (), by
    simp [bodilessCovered], rfl⟩

end RizzyVault.Vault
