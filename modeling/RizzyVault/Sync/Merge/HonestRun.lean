import RizzyVault.Sync.Merge.Honest

/-!
# Replicas of honest operations

A replica that takes only honest operations represents, at every moment, the content of the
operations it has taken: those whose bodies it merged and those covered by snapshots it absorbed.

## Main definitions

* `HonestInv`: the replica has taken exactly `taken`.
* `KeyInv`: bodies and the recorded purge carry the keys of their operations.

## Main results

* `HonestInv.recordHeader`, `HonestInv.mergeRecorded`, `HonestInv.applyOp`: the calls on honest
  operations keep the invariant.
* `HonestInv.state_eq`: the state is determined by the operations taken.
-/

open RizzyVault.Core RizzyVault.Lib

namespace RizzyVault.Sync

open Std (ExtTreeMap ExtTreeSet)

/-- The replica has taken the operations `taken` of the honest set `ops`. -/
structure HonestInv (itemId : ItemId) (ops taken : Finset OpInput) (m : ItemMerge) : Prop where
  item : m.itemId = itemId
  headers : HeadersOf ops m.headers
  subset : taken ⊆ ops
  recorded : ∀ o ∈ taken, m.headers[o.dot]? = some o.facts
  closed : HonestOps.Closed ops taken
  merged : ∀ d ∈ m.merged, ∃ o ∈ taken, o.dot = d
  bodies : ∀ (d : Dot) (b : HeldOp), m.bodies[d]? = some b →
    ∃ o ∈ ops, o.dot = d ∧ b = { o.held with keyId := b.keyId }
  represents : Represents m.evidence m.state (contentOf taken)

/-- Bodies and the recorded purge carry the keys of their operations. -/
structure KeyInv (ops : Finset OpInput) (m : ItemMerge) : Prop where
  bodies : ∀ (d : Dot) (b : HeldOp), m.bodies[d]? = some b → ∃ o ∈ ops, o.dot = d ∧ b = o.held
  purge : ∀ p ∈ m.state.shape.purge?, ∃ o ∈ ops, o.dot = p.dot ∧ o.keyId = p.keyId

variable {itemId : ItemId} {ops taken : Finset OpInput} {m : ItemMerge} {o : OpInput}

theorem honestInv_new (itemId : ItemId) (ops : Finset OpInput) :
    HonestInv itemId ops ∅ (ItemMerge.new itemId) where
  item := rfl
  headers d f h := by simp [ItemMerge.new] at h
  subset := Finset.empty_subset _
  recorded o ho := absurd ho (Finset.notMem_empty o)
  closed o ho := absurd ho (Finset.notMem_empty o)
  merged d hd := absurd hd (by simp [ItemMerge.new])
  bodies d b h := by simp [ItemMerge.new] at h
  represents := represents_default _

theorem keyInv_new (itemId : ItemId) (ops : Finset OpInput) :
    KeyInv ops (ItemMerge.new itemId) where
  bodies d b h := by simp [ItemMerge.new] at h
  purge p hp := by cases hp

theorem HonestInv.facts_of_val (h : HonestInv itemId ops taken m) {k : Bytes} {v : Val}
    (hv : v ∈ (contentOf taken).valList k) :
    ∃ o ∈ taken, o.dot = v.dot ∧ m.headers[v.dot]? = some o.facts := by
  rw [Content.mem_valList, mem_vals_contentOf] at hv
  obtain ⟨o, ho, hv⟩ := hv
  have hd := (OpInput.mem_content_vals.mp hv).2.1
  exact ⟨o, ho, hd.symm, hd ▸ h.recorded o ho⟩

theorem HonestInv.causal (hops : HonestOps itemId ops) (h : HonestInv itemId ops taken m) :
    Causal m.evidence :=
  hops.causal h.headers

theorem HonestInv.causallyClosed (hops : HonestOps itemId ops) (h : HonestInv itemId ops taken m) :
    CausallyClosed m.evidence (contentOf taken).c :=
  hops.causallyClosed h.headers h.subset

/-- The state is determined by the operations taken. -/
theorem HonestInv.state_eq {m' : ItemMerge} (hops : HonestOps itemId ops)
    (h : HonestInv itemId ops taken m) (h' : HonestInv itemId ops taken m')
    (hk : KeyInv ops m) (hk' : KeyInv ops m') : m.state = m'.state := by
  refine h.represents.unique h'.represents (fun k v hv => ?_) (h.causallyClosed hops)
    (h'.causallyClosed hops) fun p hp q hq hpq => ?_
  · obtain ⟨o, ho, hd, hf⟩ := h.facts_of_val hv
    exact (hd ▸ h'.recorded o ho).trans hf.symm
  · obtain ⟨o, ho, hop, hkey⟩ := hk.purge p hp
    obtain ⟨o', ho', hoq, hkey'⟩ := hk'.purge q hq
    have hdot : p.dot = q.dot := (Prod.ext_iff.mp (toLex.injective hpq)).2
    have : o = o' := hops.unique o ho o' ho' (by rw [hop, hoq, hdot])
    rw [← hkey, ← hkey', this]

/-! ### The calls -/

/-- Recording an honest header succeeds and only adds the header. -/
theorem HonestInv.recordHeader (hops : HonestOps itemId ops) (h : HonestInv itemId ops taken m)
    (ho : o ∈ ops) :
    ∃ headers, m.recordHeader o.header = ({ m with headers := headers }, .ok ()) ∧
      headers[o.dot]? = some o.facts ∧ HonestInv itemId ops taken { m with headers := headers } ∧
      ∀ (d : Dot) (f : HeaderFacts), m.headers[d]? = some f → headers[d]? = some f := by
  have hcheck : m.checkRecord o.header.itemId o.header.itemSchemaVersion = .ok () := by
    simp [ItemMerge.checkRecord, hops.item o ho, h.item, hops.schema o ho]
  have hfacts : (⟨o.header.hlc, o.header.causalContext⟩ : HeaderFacts) = o.facts := rfl
  unfold ItemMerge.recordHeader
  simp only [hcheck, hfacts]
  cases hheld : m.headers[o.header.dot]? with
  | none =>
    have hnew : ∀ (d : Dot) (f : HeaderFacts), m.headers[d]? = some f →
        (m.headers.insert o.dot o.facts)[d]? = some f := by
      intro d f hf
      rw [ExtTreeMap.getElem?_insert_iff, if_neg, hf]
      rintro rfl
      exact absurd (hheld.symm.trans hf) (by simp)
    refine ⟨m.headers.insert o.dot o.facts, rfl, ?_, ?_, hnew⟩
    · rw [ExtTreeMap.getElem?_insert_iff, if_pos rfl]
    · refine { h with headers := fun d f hf => ?_, recorded := fun p hp => ?_, represents := ?_ }
      · rw [ExtTreeMap.getElem?_insert_iff] at hf
        split_ifs at hf with hd
        · exact ⟨o, ho, hd, (Option.some.inj hf).symm⟩
        · exact h.headers d f hf
      · exact hnew _ _ (h.recorded p hp)
      · exact h.represents.evidence_mono hnew
  | some held =>
    obtain ⟨p, hp, hd, rfl⟩ := h.headers _ _ hheld
    have : p = o := hops.unique p hp o ho hd
    subst this
    simp only [if_true]
    exact ⟨m.headers, rfl, hheld, h, fun _ _ hf => hf⟩

theorem HonestInv.countOp (h : HonestInv itemId ops taken m) :
    HonestInv itemId ops taken m.countOp :=
  { h with }

/-- Joining an honest body that is ready takes the operation. -/
theorem HonestInv.joinBody (hops : HonestOps itemId ops) (h : HonestInv itemId ops taken m)
    (ho : o ∈ ops) (hrec : m.headers[o.dot]? = some o.facts) (hready : m.isReady o.header) :
    HonestInv itemId ops (insert o taken) (m.joinBody o.held) where
  item := h.item
  headers := h.headers
  subset := Finset.insert_subset ho h.subset
  recorded p hp := by
    rcases Finset.mem_insert.mp hp with rfl | hp
    · exact hrec
    · exact h.recorded p hp
  closed := by
    have hvv : m.state.vv = (contentOf taken).vv := h.represents.vv
    intro p hp q hq hcov
    rcases Finset.mem_insert.mp hp with rfl | hp
    · rw [ItemMerge.isReady_iff, hvv] at hready
      rcases hready with hc | hle
      · have hpt : p ∈ taken := (hops.covers_iff h.subset h.closed ho).mp hc
        exact Finset.mem_insert_of_mem (h.closed p hpt q hq hcov)
      · exact Finset.mem_insert_of_mem
          ((hops.covers_iff h.subset h.closed hq).mp (hle q.dot hcov))
    · exact Finset.mem_insert_of_mem (h.closed p hp q hq hcov)
  merged d hd := by
    rcases ExtTreeSet.mem_insert.mp hd with hd | hd
    · exact ⟨o, Finset.mem_insert_self _ _, compare_eq_iff_eq.mp hd⟩
    · obtain ⟨p, hp, hpd⟩ := h.merged d hd
      exact ⟨p, Finset.mem_insert_of_mem hp, hpd⟩
  bodies d b hb := by
    change (m.bodies.insert o.dot o.held)[d]? = some b at hb
    rw [ExtTreeMap.getElem?_insert_iff] at hb
    split_ifs at hb with hd
    · cases hb
      exact ⟨o, ho, hd, rfl⟩
    · exact h.bodies d b hb
  represents := by
    have hc : Causal m.evidence := HonestInv.causal hops h
    rw [contentOf_insert]
    change Represents m.evidence (joinInto m.state (singleton o.held) m.evidence) _
    refine h.represents.joinInto hc (Represents.singleton ?_ ?_)
    · exact (hops.wellFormed o ho).held
    · simp only [ItemMerge.evidence, Evidence.hlc, OpInput.held_dot, hrec]
      rfl

theorem KeyInv.countOp (h : KeyInv ops m) : KeyInv ops m.countOp := { h with }

theorem KeyInv.joinBody (h : KeyInv ops m) (ho : o ∈ ops) : KeyInv ops (m.joinBody o.held) where
  bodies d b hb := by
    change (m.bodies.insert o.dot o.held)[d]? = some b at hb
    rw [ExtTreeMap.getElem?_insert_iff] at hb
    split_ifs at hb with hd
    · cases hb
      exact ⟨o, ho, hd, rfl⟩
    · exact h.bodies d b hb
  purge p hp := by
    change p ∈ (joinInto m.state (singleton o.held) m.evidence).shape.purge? at hp
    rw [purge?_joinInto] at hp
    rcases mem_maxPurge hp with hp | hp
    · exact h.purge p hp
    · unfold singleton at hp
      cases hl : o.held.lifecycle with
      | purge =>
        rw [hl] at hp
        cases hp
        exact ⟨o, ho, rfl, rfl⟩
      | active =>
        rw [hl] at hp
        cases hp
      | trashed =>
        rw [hl] at hp
        cases hp

theorem KeyInv.recordHeader (h : KeyInv ops m) (headers : ExtTreeMap Dot HeaderFacts) :
    KeyInv ops { m with headers := headers } := { h with }

/-- Merging an honest body: the operation is taken, or it is not ready and nothing changes. -/
theorem HonestInv.mergeRecorded (hops : HonestOps itemId ops) (h : HonestInv itemId ops taken m)
    (hk : KeyInv ops m) (ho : o ∈ ops) (hrec : m.headers[o.dot]? = some o.facts) :
    (∃ kind, (m.mergeRecorded o).2 = .ok kind ∧
        HonestInv itemId ops (insert o taken) (m.mergeRecorded o).1 ∧
        KeyInv ops (m.mergeRecorded o).1) ∨
      (¬ m.isReady o.header ∧ m.mergeRecorded o = (m, .error (.notReady o.dot))) := by
  rcases m.mergeRecorded_cases o with ⟨hd, he⟩ | ⟨-, hr, he⟩ | ⟨-, hr, -, he⟩ | ⟨-, hr, -, he⟩
  · obtain ⟨p, hp, hpd⟩ := h.merged _ hd
    have : p = o := hops.unique p (h.subset hp) o ho hpd
    subst this
    rw [he, Finset.insert_eq_of_mem hp]
    exact .inl ⟨_, rfl, h, hk⟩
  · exact .inr ⟨hr, he⟩
  · rw [he]
    exact .inl ⟨_, rfl, (h.joinBody hops ho hrec hr).countOp, (hk.joinBody ho).countOp⟩
  · rw [he]
    exact .inl ⟨_, rfl, h.joinBody hops ho hrec hr, hk.joinBody ho⟩

/-- Applying an honest operation: it is taken, or it is not ready and only its header is
recorded. -/
theorem HonestInv.mergeBody (hops : HonestOps itemId ops) (h : HonestInv itemId ops taken m)
    (hk : KeyInv ops m) (ho : o ∈ ops) :
    (∃ kind, (m.mergeBody o).2 = .ok kind ∧
        HonestInv itemId ops (insert o taken) (m.mergeBody o).1 ∧ KeyInv ops (m.mergeBody o).1) ∨
      (¬ m.isReady o.header ∧ (m.mergeBody o).2 = .error (.notReady o.dot) ∧
        HonestInv itemId ops taken (m.mergeBody o).1 ∧ KeyInv ops (m.mergeBody o).1) := by
  obtain ⟨headers, he, hrec, h', -⟩ := h.recordHeader hops ho
  have hk' : KeyInv ops { m with headers := headers } := hk.recordHeader headers
  have hbody : m.mergeBody o = ItemMerge.mergeRecorded { m with headers := headers } o := by
    rw [ItemMerge.mergeBody, he]
  rw [hbody]
  rcases h'.mergeRecorded hops hk' ho hrec with h' | ⟨hr, he'⟩
  · exact .inl h'
  · exact .inr ⟨hr, by rw [he'], by rw [he']; exact h', by rw [he']; exact hk'⟩

end RizzyVault.Sync
