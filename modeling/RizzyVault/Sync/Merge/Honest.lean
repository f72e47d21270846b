import RizzyVault.Sync.Merge.Claims

/-!
# Honest operations

A set of honest operations on one item: contexts name operations of the set and are causally
closed, dots are unique, and a device's operation covers the ones it wrote before. What a set of
such operations contributes to the item is the join of the contents of its members.

## Main definitions

* `HonestOps`: a set of honest operations on one item.
* `OpInput.content`, `contentOf`: what operations contribute.

## Main results

* `HonestOps.causal`: supersession among recorded honest headers is transitive.
* `HonestOps.causallyClosed`: the purge context of honest operations is causally closed.
* `HonestOps.covers_iff`: the vector of a causally closed part covers exactly its members.
-/

open RizzyVault.Core RizzyVault.Lib

namespace RizzyVault.Sync

open Std (ExtTreeMap ExtTreeSet)

/-- What the operation contributes to its item. -/
def OpInput.content (o : OpInput) : Content := Content.ofOp o.held

/-- Honest operations on one item. An author's context is the item's vector before its operation,
so it names operations of the item, is causally closed, covers the author's earlier operations and
not the operation itself. -/
@[mk_iff]
structure HonestOps (itemId : ItemId) (ops : Finset OpInput) : Prop where
  item : ∀ o ∈ ops, o.header.itemId = itemId
  schema : ∀ o ∈ ops, o.header.itemSchemaVersion = ItemSchemaVersion.v1
  wellFormed : ∀ o ∈ ops, o.data.WellFormed
  unique : ∀ o ∈ ops, ∀ p ∈ ops, o.dot = p.dot → o = p
  known : ∀ o ∈ ops, ∀ d ∈ o.context.dots, ∃ p ∈ ops, p.dot = d
  closed : ∀ o ∈ ops, ∀ p ∈ ops, o.context.covers p.dot → p.context ≤ o.context
  previous : ∀ o ∈ ops, ∀ p ∈ ops, o.dot.deviceId = p.dot.deviceId → p.dot.seq < o.dot.seq →
    o.context.covers p.dot
  notSelf : ∀ o ∈ ops, ¬ o.context.covers o.dot

instance (itemId : ItemId) (ops : Finset OpInput) : Decidable (HonestOps itemId ops) :=
  decidable_of_iff' _ (honestOps_iff itemId ops)

/-- Every recorded header is the header of an operation of the set. -/
def HeadersOf (ops : Finset OpInput) (headers : ExtTreeMap Dot HeaderFacts) : Prop :=
  ∀ (d : Dot) (f : HeaderFacts), headers[d]? = some f → ∃ o ∈ ops, o.dot = d ∧ f = o.facts

namespace HonestOps

variable {itemId : ItemId} {ops : Finset OpInput} {headers : ExtTreeMap Dot HeaderFacts}
  {wrapKeys : ExtTreeSet SymmetricKeyId}

theorem context_of_headers (hh : HeadersOf ops headers) {d : Dot} {c : VersionVector}
    (hc : c ∈ (⟨headers, wrapKeys⟩ : Evidence).context d) :
    ∃ o ∈ ops, o.dot = d ∧ o.context = c := by
  obtain ⟨f, hf, rfl⟩ := Option.map_eq_some_iff.mp hc
  obtain ⟨o, ho, hd, rfl⟩ := hh d f hf
  exact ⟨o, ho, hd, rfl⟩

/-- Supersession among recorded honest headers is transitive. -/
theorem causal (h : HonestOps itemId ops) (hh : HeadersOf ops headers) :
    Causal ⟨headers, wrapKeys⟩ := by
  rintro u v w ⟨-, cu, hcu, huv⟩ ⟨-, cv, hcv, hvw⟩
  obtain ⟨o, ho, rfl, rfl⟩ := context_of_headers hh hcu
  obtain ⟨p, hp, rfl, rfl⟩ := context_of_headers hh hcv
  have hcov : o.context.covers w := h.closed o ho p hp huv w hvw
  refine ⟨?_, _, hcu, hcov⟩
  rintro rfl
  exact h.notSelf o ho hcov

end HonestOps

/-! ### What operations contribute -/

/-- The join of the contents of operations. -/
def contentOf (taken : Finset OpInput) : Content := taken.sup OpInput.content

section contentOf

variable {taken : Finset OpInput} {d : Dot} {k : Bytes} {v : Val}

theorem contentOf_insert [DecidableEq OpInput] (o : OpInput) :
    contentOf (insert o taken) = contentOf taken ⊔ o.content := by
  rw [contentOf, Finset.sup_insert, sup_comm, contentOf]

theorem contentOf_union [DecidableEq OpInput] (a b : Finset OpInput) :
    contentOf (a ∪ b) = contentOf a ⊔ contentOf b := Finset.sup_union

theorem covers_contentOf :
    (contentOf taken).vv.covers d ↔
      ∃ o ∈ taken, o.dot.deviceId = d.deviceId ∧ d.seq ≤ o.dot.seq := by
  classical
  induction taken using Finset.induction_on with
  | empty => simp [contentOf]
  | insert o s _ ih =>
    have ho : o.content.vv.covers d ↔ o.dot.deviceId = d.deviceId ∧ d.seq ≤ o.dot.seq := by
      simp [OpInput.content, Content.ofOp]
    rw [contentOf_insert, Content.sup_vv, VersionVector.covers_sup, ih, ho,
      Finset.exists_mem_insert, or_comm]

theorem mem_vals_contentOf :
    v ∈ (contentOf taken).vals k ↔ ∃ o ∈ taken, v ∈ o.content.vals k := by
  classical
  induction taken using Finset.induction_on with
  | empty => simp [contentOf]
  | insert o s _ ih =>
    rw [contentOf_insert, Content.sup_vals, Finset.mem_union, ih, Finset.exists_mem_insert,
      or_comm]

theorem mem_purges_contentOf {r : Rank} :
    r ∈ (contentOf taken).purges ↔ ∃ o ∈ taken, r ∈ o.content.purges := by
  classical
  induction taken using Finset.induction_on with
  | empty => simp [contentOf]
  | insert o s _ ih =>
    rw [contentOf_insert, Content.sup_purges, Finset.mem_union, ih, Finset.exists_mem_insert,
      or_comm]

theorem covers_c_contentOf :
    (contentOf taken).c.covers d ↔ ∃ o ∈ taken, o.content.c.covers d := by
  classical
  induction taken using Finset.induction_on with
  | empty => simp [contentOf]
  | insert o s _ ih =>
    rw [contentOf_insert, Content.sup_c, VersionVector.covers_sup, ih, Finset.exists_mem_insert,
      or_comm]

end contentOf

namespace OpInput

variable {o : OpInput} {d : Dot} {k : Bytes} {v : Val}

/-- A purge contributes its context; any other operation no context. -/
theorem covers_content_c :
    o.content.c.covers d ↔ o.data.lifecycle = .purge ∧ o.context.covers d :=
  Content.covers_ofOp_c

/-- An operation other than a purge contributes its writes and its marker. -/
theorem mem_content_vals :
    v ∈ o.content.vals k ↔ o.data.lifecycle ≠ .purge ∧ v.dot = o.dot ∧ v.hlc = o.header.hlc ∧
      (k, v.value) ∈ o.held.writesWithLifecycle :=
  Content.mem_ofOp_vals

end OpInput

namespace HonestOps

variable {itemId : ItemId} {ops taken : Finset OpInput} {headers : ExtTreeMap Dot HeaderFacts}
  {wrapKeys : ExtTreeSet SymmetricKeyId}

/-- The purge context of honest operations is causally closed. -/
theorem causallyClosed (h : HonestOps itemId ops) (hh : HeadersOf ops headers)
    (ht : taken ⊆ ops) : CausallyClosed ⟨headers, wrapKeys⟩ (contentOf taken).c := by
  intro x hx cx hcx d _ hd
  obtain ⟨p, hp, rfl, rfl⟩ := context_of_headers hh hcx
  obtain ⟨o, ho, hcov⟩ := covers_c_contentOf.mp hx
  obtain ⟨hpurge, hcov⟩ := OpInput.covers_content_c.mp hcov
  refine covers_c_contentOf.mpr ⟨o, ho, OpInput.covers_content_c.mpr ⟨hpurge, ?_⟩⟩
  exact h.closed o (ht ho) p hp hcov d hd

/-- A part of the operations that holds, with each, every operation its context covers. -/
def Closed (ops taken : Finset OpInput) : Prop :=
  ∀ o ∈ taken, ∀ p ∈ ops, o.context.covers p.dot → p ∈ taken

/-- The vector of a causally closed part covers exactly its members. -/
theorem covers_iff (h : HonestOps itemId ops) (ht : taken ⊆ ops) (hc : Closed ops taken)
    {p : OpInput} (hp : p ∈ ops) : (contentOf taken).vv.covers p.dot ↔ p ∈ taken := by
  rw [covers_contentOf]
  constructor
  · rintro ⟨o, ho, hd, hs⟩
    rcases hs.lt_or_eq with hs | hs
    · exact hc o ho p hp (h.previous o (ht ho) p hp hd hs)
    · rwa [h.unique p hp o (ht ho) (Dot.ext hd.symm hs)]
  · intro hp
    exact ⟨p, hp, rfl, le_rfl⟩

/-- The context of an operation whose predecessors are taken is covered. -/
theorem context_le (h : HonestOps itemId ops) {o : OpInput} (ho : o ∈ ops)
    (hpred : ∀ p ∈ ops, o.context.covers p.dot → p ∈ taken) :
    o.context ≤ (contentOf taken).vv := by
  rw [VersionVector.le_iff_forall_mem_dots]
  intro d hd
  obtain ⟨p, hp, rfl⟩ := h.known o ho d hd
  exact covers_contentOf.mpr
    ⟨p, hpred p hp (VersionVector.covers_of_mem_dots hd), rfl, le_rfl⟩

end HonestOps

end RizzyVault.Sync
