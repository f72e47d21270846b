import RizzyVault.Vault.Frame

/-!
# The stored chains

Every device's operations in a vault form a chain: each names the one stored before it, the first
names none, and the head is the last. Writes only extend chains, and what is stored at a dot is
signed once and for all; only its body and its carried wrap may be removed.

## Main definitions

* `VaultRows.chain`, `Linked`, `Chained`: a device's stored headers and how they are linked.

## Main results

* `VaultReachable.chained`: the chains of every vault are linked.
-/

open RizzyVault.Core RizzyVault.Lib RizzyVault.Sync

namespace RizzyVault.Vault

open Std (ExtTreeMap)
open Relation (ReflTransGen)

variable {v v' : VaultRows} {prim : Primitives}

/-! ### Chains -/

/-- The headers stored from a device, in the order of their sequence numbers. -/
def VaultRows.chain (v : VaultRows) (device : DeviceId) : List OpHeader :=
  (v.ops.toList.filter fun e => e.1.deviceId = device).map fun e => e.2.header

/-- Each header follows the one before it in the list, the first follows `prev`. -/
def Linked : ℕ → List OpHeader → Prop
  | _, [] => True
  | prev, header :: rest =>
    header.vaultPrevSeq = prev ∧ prev < header.dot.seq ∧ Linked header.dot.seq rest

/-- The sequence number of the last header, `prev` if there is none. -/
def lastSeq (prev : ℕ) (headers : List OpHeader) : ℕ :=
  (headers.getLast?.map fun header => header.dot.seq).getD prev

/-- Every operation is stored at its dot, every device's operations are linked from zero, and its
head is its last operation. -/
structure Chained (v : VaultRows) : Prop where
  dot : ∀ (dot : Dot) (row : OpRow), v.ops[dot]? = some row → row.header.dot = dot
  linked : ∀ device, Linked 0 (v.chain device)
  head : ∀ device, v.heads.get device = lastSeq 0 (v.chain device)

theorem linked_append_singleton {prev : ℕ} {headers : List OpHeader} {header : OpHeader} :
    Linked prev (headers ++ [header]) ↔ Linked prev headers ∧
      header.vaultPrevSeq = lastSeq prev headers ∧ lastSeq prev headers < header.dot.seq := by
  induction headers generalizing prev with
  | nil => simp [Linked, lastSeq]
  | cons h t ih =>
    have hlast : lastSeq prev (h :: t) = lastSeq h.dot.seq t := by
      cases ht : t.getLast? with
      | none => simp [lastSeq, List.getLast?_cons, ht]
      | some x => simp [lastSeq, List.getLast?_cons, ht]
    simp only [List.cons_append, Linked, ih, hlast, and_assoc]

theorem mem_chain {device : DeviceId} {header : OpHeader} :
    header ∈ v.chain device ↔ ∃ (dot : Dot) (row : OpRow),
      v.ops[dot]? = some row ∧ dot.deviceId = device ∧ row.header = header := by
  simp only [VaultRows.chain, List.mem_map, List.mem_filter, decide_eq_true_eq, Prod.exists,
    ExtTreeMap.mem_toList_iff_getElem?_eq_some, and_assoc]

theorem pairwise_chain (hdot : ∀ (dot : Dot) (row : OpRow), v.ops[dot]? = some row →
    row.header.dot = dot) (device : DeviceId) :
    (v.chain device).Pairwise fun a b => a.dot < b.dot := by
  unfold VaultRows.chain
  rw [List.pairwise_map]
  refine ((ExtTreeMap.pairwise_fst_toList v.ops).filter _).imp_of_mem ?_
  intro a b ha hb hab
  have hrow {e : Dot × OpRow} (he : e ∈ v.ops.toList.filter fun e => e.1.deviceId = device) :
      e.2.header.dot = e.1 :=
    hdot e.1 e.2 (ExtTreeMap.mem_toList_iff_getElem?_eq_some.mp (List.mem_filter.mp he).1)
  rw [hrow ha, hrow hb]
  exact hab

/-- A chain is determined by its headers. -/
theorem chain_eq_of_mem_iff {device : DeviceId} {headers : List OpHeader}
    (hdot : ∀ (dot : Dot) (row : OpRow), v.ops[dot]? = some row → row.header.dot = dot)
    (hsorted : headers.Pairwise fun a b => a.dot < b.dot)
    (h : ∀ header, header ∈ v.chain device ↔ header ∈ headers) : v.chain device = headers := by
  have : Std.Asymm fun a b : OpHeader => a.dot < b.dot := ⟨fun a b hab hba => lt_asymm hab hba⟩
  exact List.Pairwise.eq_of_mem_iff (pairwise_chain hdot device) hsorted (fun {a} => h a)

theorem get_add (vv : VersionVector) (e : Dot) (device : DeviceId) :
    (vv.add e).get device =
      if e.deviceId = device then max (vv.get device) e.seq else vv.get device := by
  unfold VersionVector.get VersionVector.add
  simp only [ExtTreeMap.getElem?_alter_iff]
  split_ifs with h
  · subst h
    cases vv.entries[e.deviceId]? with
    | none => simp [Dot.seq]
    | some s => simp [Dot.seq]
  · rfl

theorem seq_le_heads {dot : Dot} (h : dot ∈ v.ops) : dot.seq ≤ v.heads.get dot.deviceId :=
  VaultRows.covers_heads_of_mem h

theorem dot_lt_of_seq_lt {a b : Dot} (hdevice : a.deviceId = b.deviceId) (hseq : a.seq < b.seq) :
    a < b :=
  Prod.Lex.lt_iff.mpr (.inr ⟨hdevice, hseq⟩)

/-- An operation that follows the head extends its device's chain. -/
theorem chain_addOp (hdot : ∀ (dot : Dot) (row : OpRow), v.ops[dot]? = some row →
    row.header.dot = dot) {op : VerifiedOp} (hnew : op.header.dot ∉ v.ops)
    (hseq : v.heads.get op.header.dot.deviceId < op.header.dot.seq) (device : DeviceId) :
    (v.addOp op).chain device =
      if op.header.dot.deviceId = device then v.chain device ++ [op.header]
      else v.chain device := by
  have hdot' : ∀ (dot : Dot) (row : OpRow), (v.addOp op).ops[dot]? = some row →
      row.header.dot = dot := by
    intro dot row hrow
    rw [VaultRows.addOp_ops, ExtTreeMap.getElem?_insert_iff] at hrow
    split_ifs at hrow with hd
    · cases hrow
      exact hd
    · exact hdot dot row hrow
  have hmem (header : OpHeader) : header ∈ (v.addOp op).chain device ↔
      op.header.dot.deviceId = device ∧ header = op.header ∨ header ∈ v.chain device := by
    simp only [mem_chain, VaultRows.addOp_ops, ExtTreeMap.getElem?_insert_iff]
    constructor
    · rintro ⟨dot, row, hrow, hdev, rfl⟩
      split_ifs at hrow with hd
      · cases hrow
        exact .inl ⟨hd ▸ hdev, rfl⟩
      · exact .inr ⟨dot, row, hrow, hdev, rfl⟩
    · rintro (⟨hdev, rfl⟩ | ⟨dot, row, hrow, hdev, rfl⟩)
      · exact ⟨op.header.dot, _, if_pos rfl, hdev, rfl⟩
      · refine ⟨dot, row, ?_, hdev, rfl⟩
        rw [if_neg]
        · exact hrow
        · rintro rfl
          exact hnew (ExtTreeMap.mem_iff_isSome_getElem?.mpr (by rw [hrow]; rfl))
  refine chain_eq_of_mem_iff hdot' ?_ fun header => ?_
  · split_ifs with hdev
    · refine List.pairwise_append.mpr ⟨pairwise_chain hdot device, List.pairwise_singleton _ _, ?_⟩
      intro a ha b hb
      rw [List.mem_singleton.mp hb]
      obtain ⟨dot, row, hrow, hd, rfl⟩ := mem_chain.mp ha
      have hmem : dot ∈ v.ops := ExtTreeMap.mem_iff_isSome_getElem?.mpr (by rw [hrow]; rfl)
      have hle := seq_le_heads hmem
      rw [hdot dot row hrow]
      rw [← hdev] at hd
      rw [hd] at hle
      exact dot_lt_of_seq_lt hd (hle.trans_lt hseq)
    · exact pairwise_chain hdot device
  · rw [hmem]
    split_ifs with hdev
    · simp [hdev, or_comm]
    · simp [hdev]

theorem Chained.addOp (h : Chained v) {op : VerifiedOp} (hnew : op.header.dot ∉ v.ops)
    (hprev : op.header.vaultPrevSeq = v.heads.get op.header.dot.deviceId)
    (hseq : op.header.vaultPrevSeq < op.header.dot.seq) : Chained (v.addOp op) := by
  have hchain := chain_addOp h.dot hnew (hprev ▸ hseq)
  refine ⟨fun dot row hrow => ?_, fun device => ?_, fun device => ?_⟩
  · rw [VaultRows.addOp_ops, ExtTreeMap.getElem?_insert_iff] at hrow
    split_ifs at hrow with hd
    · cases hrow
      exact hd
    · exact h.dot dot row hrow
  · rw [hchain]
    split_ifs with hdev
    · subst hdev
      rw [linked_append_singleton, ← h.head, ← hprev]
      exact ⟨h.linked _, rfl, hseq⟩
    · exact h.linked device
  · rw [hchain, VaultRows.heads_addOp, get_add]
    split_ifs with hdev
    · subst hdev
      rw [max_eq_right (hprev ▸ hseq.le)]
      simp [lastSeq]
    · exact h.head device

/-- The chains do not depend on bodies, carried wraps, snapshots and wraps. -/
theorem Chained.of_keepsOps (h : Chained v) (hkeep : v.KeepsOps v')
    (hmem : ∀ dot ∈ v'.ops, dot ∈ v.ops) : Chained v' := by
  have hback : ∀ (dot : Dot) (row' : OpRow), v'.ops[dot]? = some row' →
      ∃ row, v.ops[dot]? = some row ∧ row.Fades row' := by
    intro dot row' hrow'
    have hdot := hmem dot (ExtTreeMap.mem_iff_isSome_getElem?.mpr (by rw [hrow']; rfl))
    rw [ExtTreeMap.mem_iff_isSome_getElem?, Option.isSome_iff_exists] at hdot
    obtain ⟨row, hrow⟩ := hdot
    obtain ⟨row'', hrow'', hf⟩ := hkeep dot row hrow
    obtain rfl := Option.some.inj (hrow''.symm.trans hrow')
    exact ⟨row, hrow, hf⟩
  have hdot : ∀ (dot : Dot) (row : OpRow), v'.ops[dot]? = some row → row.header.dot = dot := by
    intro dot row' hrow'
    obtain ⟨row, hrow, hf⟩ := hback dot row' hrow'
    rw [hf.header]
    exact h.dot dot row hrow
  have hchain (device : DeviceId) : v'.chain device = v.chain device := by
    refine chain_eq_of_mem_iff hdot (pairwise_chain h.dot device) fun header => ?_
    rw [mem_chain, mem_chain]
    constructor
    · rintro ⟨dot, row', hrow', hdev, rfl⟩
      obtain ⟨row, hrow, hf⟩ := hback dot row' hrow'
      exact ⟨dot, row, hrow, hdev, hf.header.symm⟩
    · rintro ⟨dot, row, hrow, hdev, rfl⟩
      obtain ⟨row', hrow', hf⟩ := hkeep dot row hrow
      exact ⟨dot, row', hrow', hdev, hf.header⟩
  have hheads : v'.heads = v.heads := VaultRows.heads_congr fun dot => ⟨hmem dot, hkeep.mem⟩
  refine ⟨hdot, fun device => ?_, fun device => ?_⟩
  · rw [hchain]
    exact h.linked device
  · rw [hchain, hheads]
    exact h.head device

theorem Stored.chained (h : Stored v v') (hv : Chained v) : Chained v' := by
  cases h with
  | op op hnew hprev hseq => exact hv.addOp hnew hprev hseq
  | snapshot snapshot hnew hseq =>
    exact hv.of_keepsOps (Stored.snapshot snapshot hnew hseq).keepsOps fun dot hdot => by
      rwa [VaultRows.addSnapshot_ops] at hdot
  | wrap wrap hepoch =>
    exact hv.of_keepsOps (Stored.wrap wrap hepoch).keepsOps fun dot hdot => by
      rwa [VaultRows.putWrap_ops] at hdot

theorem Stored.run_chained (h : ReflTransGen Stored v v') (hv : Chained v) : Chained v' := by
  induction h with
  | refl => exact hv
  | tail _ hstep ih => exact hstep.chained ih

theorem VaultStep.chained (h : VaultStep prim v v') (hv : Chained v) : Chained v' := by
  obtain hrun | ⟨grant, wraps, hrepair⟩ | ⟨itemId, hcompact⟩ |
    ⟨newAccountKeyEpoch, newAccountKeyId, rotation, plan, hcheck, hwrite⟩ := h.cases
  · exact Stored.run_chained hrun hv
  · exact hv.of_keepsOps hrepair.fadesOps.1 hrepair.fadesOps.2
  · obtain ⟨hkeep, hmem⟩ := compactItem_fadesOps hcompact
    exact hv.of_keepsOps hkeep hmem
  · obtain ⟨hkeep, hmem⟩ := writeVault_fadesOps (checkVault_eq_ok hcheck).2.1 hwrite
    exact hv.of_keepsOps hkeep hmem

/-- The chains of every vault are linked. -/
theorem VaultReachable.chained (h : VaultReachable prim v) : Chained v := by
  refine h.rec_on (fun accountId accountKeyEpoch envelope => ?_) fun v v' _ hstep => hstep.chained
  refine ⟨fun dot row hrow => ?_, fun device => trivial, fun device => ?_⟩
  · simp at hrow
  · rfl

end RizzyVault.Vault
