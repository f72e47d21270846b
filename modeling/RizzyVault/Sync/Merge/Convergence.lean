import RizzyVault.Sync.Merge.HonestRun

/-!
# Convergence

Fresh replicas of one item that receive the same honest operations end in the same state, in
whatever causal order the operations come and however often each is delivered.

## Main definitions

* `Delivery`, `ItemMerge.deliver`, `ItemMerge.deliverAll`: what reaches a replica.
* `CausalDelivery`: a delivery of every operation of a set in causal order.

## Main results

* `HonestInv.deliver`: one delivery takes its operation.
* `deliverAll_converges`: replicas that got the same operations agree.
-/

open RizzyVault.Core RizzyVault.Lib

namespace RizzyVault.Sync

open Std (ExtTreeMap ExtTreeSet)

/-- What reaches a replica: a header ahead of its body, or a whole operation. -/
inductive Delivery
  | header (op : OpInput)
  | body (op : OpInput)
  deriving DecidableEq

/-- The operation a delivery is about. -/
def Delivery.op : Delivery → OpInput
  | .header op => op
  | .body op => op

namespace ItemMerge

/-- Hands one delivery to the merge. -/
def deliver (m : ItemMerge) : Delivery → Except MergeError ItemMerge
  | .header op =>
    match m.recordHeader op.header with
    | (_, .error e) => .error e
    | (m, .ok ()) => .ok m
  | .body op =>
    match m.applyOp op with
    | (_, .error e) => .error e
    | (m, .ok _) => .ok m

/-- Hands deliveries to the merge one after the other. -/
def deliverAll (m : ItemMerge) (l : List Delivery) : Except MergeError ItemMerge :=
  l.foldlM deliver m

end ItemMerge

/-- Every operation of the set reaches the replica, none before the operations its context covers;
headers may come early and anything may come more than once. -/
@[mk_iff]
structure CausalDelivery (ops : Finset OpInput) (l : List Delivery) : Prop where
  mem : ∀ d ∈ l, d.op ∈ ops
  complete : ∀ o ∈ ops, .body o ∈ l
  causal : ∀ i < l.length, ∀ o ∈ ops, l[i]? = some (.body o) →
    ∀ p ∈ ops, o.context.covers p.dot → .body p ∈ l.take i

instance (ops : Finset OpInput) (l : List Delivery) : Decidable (CausalDelivery ops l) :=
  decidable_of_iff' _ (causalDelivery_iff ops l)

variable {itemId : ItemId} {ops taken : Finset OpInput} {m : ItemMerge} {o : OpInput}

/-- The operations whose bodies are among the deliveries. -/
def delivered (ops : Finset OpInput) (l : List Delivery) : Finset OpInput :=
  ops.filter fun o => .body o ∈ l

theorem delivered_append_header (l : List Delivery) (o : OpInput) :
    delivered ops (l ++ [.header o]) = delivered ops l := by
  simp [delivered]

theorem delivered_append_body (l : List Delivery) (ho : o ∈ ops) :
    delivered ops (l ++ [.body o]) = insert o (delivered ops l) := by
  ext p
  simp only [delivered, List.mem_append, List.mem_singleton, Delivery.body.injEq,
    Finset.mem_filter, Finset.mem_insert]
  constructor
  · rintro ⟨hp, hl | rfl⟩
    · exact .inr ⟨hp, hl⟩
    · exact .inl rfl
  · rintro (rfl | ⟨hp, hl⟩)
    · exact ⟨ho, .inr rfl⟩
    · exact ⟨hp, .inl hl⟩

/-- A header leaves what is taken as it is. -/
theorem HonestInv.deliver_header (hops : HonestOps itemId ops) (h : HonestInv itemId ops taken m)
    (hk : KeyInv ops m) (ho : o ∈ ops) :
    ∃ m', m.deliver (.header o) = .ok m' ∧ HonestInv itemId ops taken m' ∧ KeyInv ops m' := by
  obtain ⟨headers, he, -, h', -⟩ := h.recordHeader hops ho
  exact ⟨_, by rw [ItemMerge.deliver, he], h', hk.recordHeader headers⟩

/-- A body whose predecessors are taken is taken. -/
theorem HonestInv.deliver_body (hops : HonestOps itemId ops) (h : HonestInv itemId ops taken m)
    (hk : KeyInv ops m) (ho : o ∈ ops) (hpred : ∀ p ∈ ops, o.context.covers p.dot → p ∈ taken) :
    ∃ m', m.deliver (.body o) = .ok m' ∧ HonestInv itemId ops (insert o taken) m' ∧
      KeyInv ops m' := by
  have hready : m.isReady o.header := by
    rw [ItemMerge.isReady_iff, h.represents.vv]
    exact .inr (hops.context_le ho hpred)
  rcases h.mergeBody hops hk ho with ⟨kind, hok, h', hk'⟩ | ⟨hnot, -⟩
  · refine ⟨(m.mergeBody o).1, ?_, h', hk'⟩
    have hpair : m.mergeBody o = ((m.mergeBody o).1, .ok kind) := by rw [← hok]
    rw [ItemMerge.deliver, ItemMerge.applyOp, hpair]
  · exact absurd hready hnot

/-- A causal delivery succeeds, and its replica has taken what was delivered. -/
theorem honestInv_deliverAll (hops : HonestOps itemId ops) (l : List Delivery)
    (hmem : ∀ d ∈ l, d.op ∈ ops)
    (hcausal : ∀ i < l.length, ∀ o ∈ ops, l[i]? = some (.body o) →
      ∀ p ∈ ops, o.context.covers p.dot → .body p ∈ l.take i) :
    ∃ m, (ItemMerge.new itemId).deliverAll l = .ok m ∧
      HonestInv itemId ops (delivered ops l) m ∧ KeyInv ops m := by
  -- The order of delivery matters from the first element on, so the last one is taken off.
  induction l using List.reverseRecOn with
  | nil =>
    refine ⟨_, rfl, ?_, keyInv_new itemId ops⟩
    have hnone : delivered ops [] = ∅ := by simp [delivered]
    rw [hnone]
    exact honestInv_new itemId ops
  | append_singleton l d ih =>
    obtain ⟨m, he, h, hk⟩ := ih (fun d hd => hmem d (List.mem_append_left _ hd)) (by
      intro i hi o ho hio p hp hcov
      have hbody := hcausal i (by simp; omega) o ho (by rw [List.getElem?_append_left hi, hio])
        p hp hcov
      rwa [List.take_append_of_le_length hi.le] at hbody)
    have hd : d.op ∈ ops := hmem d (by simp)
    have hstep : (ItemMerge.new itemId).deliverAll (l ++ [d]) = m.deliver d := by
      rw [ItemMerge.deliverAll, List.foldlM_append]
      change ((ItemMerge.new itemId).deliverAll l >>= fun m => List.foldlM _ m [d]) = _
      rw [he]
      exact bind_pure (m.deliver d)
    rw [hstep]
    cases d with
    | header o =>
      rw [delivered_append_header]
      exact h.deliver_header hops hk hd
    | body o =>
      have ho : o ∈ ops := hd
      rw [delivered_append_body l ho]
      refine h.deliver_body hops hk ho fun p hp hcov => ?_
      have hbody := hcausal l.length (by simp) o ho (by simp) p hp hcov
      rw [List.take_left] at hbody
      exact Finset.mem_filter.mpr ⟨hp, hbody⟩

/-- Fresh replicas that receive the same honest operations, each in a causal order of its own and
with any duplicates, end in the same state. -/
theorem deliverAll_converges (hops : HonestOps itemId ops) {l l' : List Delivery}
    (hl : CausalDelivery ops l) (hl' : CausalDelivery ops l') :
    ∃ m m', (ItemMerge.new itemId).deliverAll l = .ok m ∧
      (ItemMerge.new itemId).deliverAll l' = .ok m' ∧ m.state = m'.state ∧
      m.canonicalState = m'.canonicalState := by
  obtain ⟨m, he, h, hk⟩ := honestInv_deliverAll hops l hl.mem hl.causal
  obtain ⟨m', he', h', hk'⟩ := honestInv_deliverAll hops l' hl'.mem hl'.causal
  have hall : ∀ {l : List Delivery}, CausalDelivery ops l → delivered ops l = ops := fun hl =>
    Finset.filter_true_of_mem hl.complete
  rw [hall hl] at h
  rw [hall hl'] at h'
  have hstate : m.state = m'.state := h.state_eq hops h' hk hk'
  exact ⟨m, m', he, he', hstate, by rw [ItemMerge.canonicalState, ItemMerge.canonicalState, hstate]⟩

/-- Two devices write one field concurrently, and one of them trashes and purges the item. -/
def sampleOps : List OpInput :=
  let a : Dot := .sample 1 1
  let b : Dot := .sample 2 1
  let t : Dot := .sample 1 2
  let p : Dot := .sample 1 3
  [.sample a ⟨5⟩ [] (OpInput.sampleWrite [1]), .sample b ⟨6⟩ [] (OpInput.sampleWrite [2]),
    .sample t ⟨7⟩ [a] ⟨.trashed, []⟩, .sample p ⟨8⟩ [t] ⟨.purge, []⟩]

theorem deliverAll_converges_sampleOps :
    ∃ m m', (ItemMerge.new ⟨0⟩).deliverAll (sampleOps.map .body) = .ok m ∧
      (ItemMerge.new ⟨0⟩).deliverAll (sampleOps.map .header ++
        [0, 2, 0, 3, 1].flatMap fun i => (sampleOps[i]?.map .body).toList) = .ok m' ∧
      m.state = m'.state ∧ m.canonicalState = m'.canonicalState :=
  deliverAll_converges (show HonestOps ⟨0⟩ sampleOps.toFinset by decide +kernel)
    (by decide +kernel) (by decide +kernel)

end RizzyVault.Sync
