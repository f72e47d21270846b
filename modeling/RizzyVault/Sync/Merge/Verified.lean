import RizzyVault.Sync.Merge.Honest
import RizzyVault.Sync.Merge.Steps

/-!
# Verified history beats claims

A replica that has merged the body of every header it recorded takes nothing new from a snapshot:
whatever the snapshot claims, its cut and the check against the known bodies leave a part of what
the bodies wrote.

## Main definitions

* `TakenInv`: the state represents what was taken, and what was taken includes the merged bodies.

## Main results

* `TakenInv.step`, `exists_takenInv_callAll`: the invariant along runs.
* `absorbSnapshot_changes_nothing`: no snapshot changes a replica of verified history.
* `absorbSnapshot_after_open_context`: a purge context claimed earlier that is not causally closed
  breaks this.
-/

open RizzyVault.Core RizzyVault.Lib

namespace RizzyVault.Sync

open Std (ExtTreeMap ExtTreeSet)
open Relation (ReflTransGen)

variable {ops : Set OpInput} {absorbs : ItemMerge → SnapshotInput → Prop} {m m' : ItemMerge}
  {a b : Content} {ev : Evidence} {s : State}

/-! ### Re-keying -/

theorem getElem?_rekeyBody (bodies : Bodies) (d x : Dot) (keyId : SymmetricKeyId) :
    (ItemMerge.rekeyBody bodies d keyId)[x]? =
      if d = x then bodies[x]?.map fun op => { op with keyId := keyId } else bodies[x]? := by
  rw [ItemMerge.rekeyBody, ExtTreeMap.getElem?_modify]
  simp only [compare_eq_iff_eq]
  split_ifs with h
  · rw [h]
  · rfl

/-- The content of an operation does not depend on its key. -/
theorem Content.ofOp_rekey (op : HeldOp) (keyId : SymmetricKeyId) :
    Content.ofOp { op with keyId := keyId } = Content.ofOp op := rfl

/-- A state represents the same content whatever key it records for its purge. -/
theorem Represents.rekeyPurge (h : Represents ev s a) (d : Dot) (keyId : SymmetricKeyId) :
    Represents ev (ItemMerge.rekeyPurge s d keyId) a := by
  have hs := h.shape
  rcases s with ⟨vv, l | t⟩
  · exact h
  · unfold ItemMerge.rekeyPurge
    simp only
    split_ifs with hd
    · exact
        { vv := h.vv
          vouched := h.vouched
          shape :=
            { kept := hs.kept
              purge_mem := hs.purge_mem
              le_purge := hs.le_purge
              c := hs.c
              lifecycle := hs.lifecycle
              late := hs.late } }
    · exact h

/-! ### The invariant -/

/-- The state represents what was taken; every known body is the body of an operation of the run
whose header is recorded; and what was taken includes the merged bodies. -/
structure TakenInv (ops : Set OpInput) (a : Content) (m : ItemMerge) : Prop where
  represents : Represents m.evidence m.state a
  bodies : ∀ (d : Dot) (op : HeldOp), m.bodies[d]? = some op → ∃ o ∈ ops, o.dot = d ∧
    op = { o.held with keyId := op.keyId } ∧ m.headers[d]? = some o.facts
  merged : ∀ d ∈ m.merged, ∃ op : HeldOp, m.bodies[d]? = some op ∧ Content.ofOp op ≤ a

theorem takenInv_new (ops : Set OpInput) (itemId : ItemId) :
    TakenInv ops ⊥ (ItemMerge.new itemId) where
  represents := represents_default _
  bodies d op h := by simp [ItemMerge.new] at h
  merged d hd := absurd hd (by simp [ItemMerge.new])

theorem OpInput.held_eq {o p : OpInput} (hd : o.dot = p.dot) (hf : o.facts = p.facts)
    (hdata : o.data = p.data) (keyId : SymmetricKeyId) :
    { o.held with keyId := keyId } = { p.held with keyId := keyId } := by
  obtain ⟨hhlc, hctx⟩ := HeaderFacts.mk.inj hf
  have hd' : o.header.dot = p.header.dot := hd
  simp only [OpInput.held, HeldOp.new, hd', hhlc, hctx, hdata]

/-- A body known again is the body known before, up to its key. -/
theorem TakenInv.content_eq (h : TakenInv ops a m)
    (hone : ∀ o ∈ ops, ∀ p ∈ ops, o.dot = p.dot → o.data = p.data) {o : OpInput} (ho : o ∈ ops)
    (hrec : m.headers[o.dot]? = some o.facts) {op : HeldOp} (hop : m.bodies[o.dot]? = some op) :
    Content.ofOp o.held = Content.ofOp op := by
  obtain ⟨p, hp, hd, hop', hf⟩ := h.bodies o.dot op hop
  have hfacts : o.facts = p.facts := Option.some.inj (hrec.symm.trans hf)
  rw [hop', ← OpInput.held_eq hd.symm hfacts (hone o ho p hp hd.symm)]
  exact (Content.ofOp_rekey o.held op.keyId).symm

/-- The cut of a snapshot, in normal form, represents what it claims. -/
theorem CutSpec.represents {cut : State} (hc : Causal ev) (h : CutSpec ev s cut) :
    Represents ev (normalize cut ev) (Content.ofState cut) :=
  Represents.normalize hc fun k v hv => h.vouched k v (Content.mem_ofState_vals.mp hv)

theorem Represents.merge {o : OpInput} (hc : Causal m.evidence) (hwf : o.data.WellFormed)
    (h : Represents m.evidence m.state a) (hrec : m.headers[o.dot]? = some o.facts) :
    Represents m.evidence (m.joinBody o.held).state (a ⊔ Content.ofOp o.held) := by
  refine h.joinInto hc (Represents.singleton hwf.held ?_)
  change (m.headers[o.dot]?).map HeaderFacts.hlc = _
  rw [hrec]
  rfl

/-- What a step takes is added to what was taken. -/
theorem TakenInv.step (hwf : ∀ o ∈ ops, o.data.WellFormed)
    (hone : ∀ o ∈ ops, ∀ p ∈ ops, o.dot = p.dot → o.data = p.data)
    (hc : Causal m'.evidence) (h : TakenInv ops a m) (hs : Step ops absorbs m m') :
    ∃ a', TakenInv ops a' m' := by
  have hle := hs.headersLE
  have hc₀ : Causal m.evidence := hc.anti hle
  cases hs with
  | record header hnew =>
    refine ⟨a, ⟨h.represents.evidence_mono hle, fun d op hop => ?_, h.merged⟩⟩
    obtain ⟨o, ho, hd, hop', hf⟩ := h.bodies d op hop
    exact ⟨o, ho, hd, hop', hle d _ hf⟩
  | know o ho hrec =>
    refine ⟨a, ⟨h.represents, fun d op hop => ?_, fun d hd => ?_⟩⟩
    · simp only [ExtTreeMap.getElem?_insert_iff] at hop
      split_ifs at hop with hd
      · cases hop
        exact ⟨o, ho, hd, rfl, hd ▸ hrec⟩
      · exact h.bodies d op hop
    · obtain ⟨op, hop, hle⟩ := h.merged d hd
      simp only [ExtTreeMap.getElem?_insert_iff]
      split_ifs with hdo
      · subst hdo
        exact ⟨o.held, rfl, (h.content_eq hone ho hrec hop).le.trans hle⟩
      · exact ⟨op, hop, hle⟩
  | merge o ho hrec hnew hready =>
    refine ⟨a ⊔ Content.ofOp o.held, ⟨h.represents.merge hc₀ (hwf o ho) hrec, ?_, ?_⟩⟩
    · intro d op hop
      change (m.bodies.insert o.dot o.held)[d]? = some op at hop
      rw [ExtTreeMap.getElem?_insert_iff] at hop
      split_ifs at hop with hd
      · cases hop
        exact ⟨o, ho, hd, rfl, hd ▸ hrec⟩
      · exact h.bodies d op hop
    · intro d hd
      change ∃ op, (m.bodies.insert o.dot o.held)[d]? = some op ∧ _
      rw [ExtTreeMap.getElem?_insert_iff]
      split_ifs with hdo
      · exact ⟨o.held, rfl, le_sup_right⟩
      · rcases ExtTreeSet.mem_insert.mp hd with hd | hd
        · exact absurd (compare_eq_iff_eq.mp hd) hdo
        · obtain ⟨op, hop, hle⟩ := h.merged d hd
          exact ⟨op, hop, hle.trans le_sup_left⟩
  | absorb snapshot c hok hcut hcon =>
    refine ⟨a ⊔ Content.ofState c.state, ⟨?_, h.bodies, fun d hd => ?_⟩⟩
    · exact h.represents.joinInto hc₀ ((cut_spec hcut).represents hc₀)
    · obtain ⟨op, hop, hle⟩ := h.merged d hd
      exact ⟨op, hop, hle.trans le_sup_left⟩
  | write hresolved => exact ⟨a, ⟨h.represents, h.bodies, h.merged⟩⟩
  | reissue d keyId hmerged =>
    refine ⟨a, ⟨h.represents.rekeyPurge d keyId, fun x op hop => ?_, fun x hx => ?_⟩⟩
    · simp only [getElem?_rekeyBody] at hop
      split_ifs at hop with hdx
      · obtain ⟨op', hop', rfl⟩ := Option.map_eq_some_iff.mp hop
        obtain ⟨o, ho, hd, heq, hf⟩ := h.bodies x op' hop'
        exact ⟨o, ho, hd, by rw [heq], hf⟩
      · exact h.bodies x op hop
    · obtain ⟨op, hop, hle⟩ := h.merged x hx
      simp only [getElem?_rekeyBody]
      split_ifs
      · exact ⟨{ op with keyId := keyId }, by rw [hop]; rfl, hle⟩
      · exact ⟨op, hop, hle⟩
  | addKey keyId => exact ⟨a, ⟨h.represents.evidence_mono hle, h.bodies, h.merged⟩⟩
  | note count due surfaced => exact ⟨a, ⟨h.represents, h.bodies, h.merged⟩⟩

theorem TakenInv.steps (hwf : ∀ o ∈ ops, o.data.WellFormed)
    (hone : ∀ o ∈ ops, ∀ p ∈ ops, o.dot = p.dot → o.data = p.data)
    (h : TakenInv ops a m) (hs : ReflTransGen (Step ops absorbs) m m')
    (hc : Causal m'.evidence) : ∃ a', TakenInv ops a' m' := by
  induction hs with
  | refl => exact ⟨a, h⟩
  | tail _ hstep ih =>
    obtain ⟨a', h'⟩ := ih (hc.anti hstep.headersLE)
    exact h'.step hwf hone hc hstep

/-! ### What a snapshot can add -/

/-- The values a consistent cut carries at the dots of merged bodies are the bodies' own. -/
theorem TakenInv.ofState_le (hwf : ∀ o ∈ ops, o.data.WellFormed) (h : TakenInv ops a m)
    (hall : ∀ d ∈ m.headers, d ∈ m.merged) {cut : State} (hcut : CutSpec m.evidence s cut)
    (hcon : ConsistentWith m.evidence m.bodies cut) : Content.ofState cut ≤ a := by
  have hbody : ∀ {d : Dot} {t : Hlc}, m.evidence.hlc d = some t → ∃ op : HeldOp,
      m.bodies[d]? = some op ∧ Content.ofOp op ≤ a ∧ op.dot = d ∧ op.hlc = t ∧
        ∀ w ∈ op.writes, w.1 ≠ lifecycleKey := by
    intro d t ht
    obtain ⟨f, hf, rfl⟩ := Option.map_eq_some_iff.mp ht
    have hf : m.headers[d]? = some f := hf
    obtain ⟨op, hop, hle⟩ := h.merged d
      (hall d (ExtTreeMap.mem_iff_isSome_getElem?.mpr (by rw [hf]; rfl)))
    obtain ⟨o, ho, hd, heq, hf'⟩ := h.bodies d op hop
    have hfo : f = o.facts := Option.some.inj (hf.symm.trans hf')
    refine ⟨op, hop, hle, by rw [heq]; exact hd, by rw [heq, hfo]; rfl, fun w hw => ?_⟩
    rw [heq] at hw
    obtain ⟨w', hw', rfl⟩ := List.mem_map.mp hw
    exact (hwf o ho).not_lifecycle w' hw'
  refine ⟨?_, fun k v hv => ?_, fun r hr => ?_, ?_⟩
  · -- The cut vector is within the recorded headers, whose bodies are all merged.
    intro d hd
    have hheads : (heads m.evidence).covers d := by
      change cut.vv.covers d at hd
      rw [hcut.vv, VersionVector.covers_inf] at hd
      exact hd.2
    obtain ⟨x, hx, hdev, hseq⟩ := covers_heads.mp hheads
    obtain ⟨op, hop, hle⟩ := h.merged x (hall x hx)
    obtain ⟨o, -, hox, heq, -⟩ := h.bodies x op hop
    have hdot : op.dot = x := by rw [heq]; exact hox
    refine hle.1 d ?_
    change (VersionVector.new.add op.dot).covers d
    rw [VersionVector.covers_add, hdot]
    exact .inr ⟨hdev, hseq⟩
  · rw [Content.mem_ofState_vals] at hv
    obtain ⟨op, hop, hle, hd, ht, hmarker⟩ := hbody (hcut.vouched k v hv)
    obtain ⟨hlife, hwrote⟩ := hcon.value k v hv op hop
    refine hle.2.1 k ?_
    exact Content.mem_ofOp_vals.mpr ⟨hlife, hd.symm, ht.symm, (wrote_iff hmarker).mp hwrote⟩
  · obtain ⟨p, hp, rfl⟩ := Option.map_eq_some_iff.mp (Option.mem_toFinset.mp hr)
    obtain ⟨op, hop, hle, hd, ht, -⟩ := hbody (hcut.purge_covered p hp).2
    refine hle.2.2.1 (Content.mem_ofOp_purges.mpr ⟨(hcon.purge p hp op hop).1, ?_⟩)
    rw [hd, ht]
    rfl
  · intro d hd
    obtain ⟨x, f, hf, -, hpurge, hcov⟩ := hcon.c d hd
    have ht : m.evidence.hlc x = some f.hlc := Option.map_eq_some_iff.mpr ⟨f, hf, rfl⟩
    obtain ⟨op, hop, hle, -⟩ := hbody ht
    obtain ⟨o, -, -, heq, hf'⟩ := h.bodies x op hop
    have hctx : op.context = f.context := by
      rw [heq, Option.some.inj (hf.symm.trans hf')]
      rfl
    exact hle.2.2.2 d (Content.covers_ofOp_c.mpr ⟨hpurge op hop, hctx ▸ hcov⟩)

/-- The key a tombstone records for its purge does not rank below the key of the purge's body. -/
def PurgeKeyStands (m : ItemMerge) : Prop :=
  ∀ p ∈ m.state.shape.purge?, ∀ op ∈ m.bodies[p.dot]?,
    purgeOrder { p with keyId := op.keyId } m.evidence ≤ purgeOrder p m.evidence

instance (m : ItemMerge) : Decidable (PurgeKeyStands m) :=
  inferInstanceAs (Decidable (∀ p ∈ m.state.shape.purge?, ∀ op ∈ m.bodies[p.dot]?, _))

/-- A replica of verified history with a causally closed purge context takes nothing. -/
theorem TakenInv.absorbRecorded (hwf : ∀ o ∈ ops, o.data.WellFormed) (h : TakenInv ops a m)
    (hc : Causal m.evidence) (hall : ∀ d ∈ m.headers, d ∈ m.merged)
    (hclosed : CausallyClosed m.evidence m.state.shape.c) (hkey : PurgeKeyStands m)
    (snapshot : SnapshotInput) : (m.absorbRecorded snapshot).1.state = m.state := by
  rcases m.absorbRecorded_cases snapshot with ⟨r, cuts, he⟩ | ⟨c, hcut, hcon, he⟩
  · rw [he]
  · have hcon := contradiction_eq_none_iff.mp hcon
    have hspec := cut_spec hcut
    have hjoin := h.represents.joinInto hc (hspec.represents hc)
    rw [sup_eq_left.mpr (h.ofState_le hwf hall hspec hcon)] at hjoin
    have hclosed : CausallyClosed m.evidence a.c := h.represents.shapeRep.c ▸ hclosed
    rw [he]
    refine (h.represents.unique hjoin (fun _ _ _ => rfl) hclosed hclosed ?_).symm
    intro p hp q hq hrank
    -- The recorded purge changes only to one of the same rank, whose key is its body's.
    rw [purge?_joinInto, hp] at hq
    have hpurge : (normalize c.state m.evidence).shape.purge? = c.state.shape.purge? :=
      purge?_normalize c.state m.evidence
    rw [hpurge] at hq
    cases hu : c.state.shape.purge? with
    | none =>
      rw [hu] at hq
      cases hq
      rfl
    | some u =>
      rw [hu] at hq
      cases hq
      simp only [higherPurge] at hrank ⊢
      split_ifs at hrank ⊢ with hlt
      · obtain ⟨hhlc, hdot⟩ := Prod.ext_iff.mp (toLex.injective hrank)
        have hdot : p.dot = u.dot := hdot
        have hhlc : p.hlc = u.hlc := hhlc
        obtain ⟨f, hf, -⟩ := Option.map_eq_some_iff.mp (hspec.purge_covered u hu).2
        have hf : m.headers[u.dot]? = some f := hf
        obtain ⟨op, hop, -⟩ := h.merged u.dot
          (hall u.dot (ExtTreeMap.mem_iff_isSome_getElem?.mpr (by rw [hf]; rfl)))
        have hbody : op.keyId = u.keyId := (hcon.purge u hu op hop).2
        have hstands := hkey p hp op (hdot ▸ hop)
        have hsame : { p with keyId := op.keyId } = u := by
          rw [hbody, hdot, hhlc]
        rw [hsame] at hstands
        exact absurd hlt (not_lt.mpr hstands)
      · rfl

/-- On a replica that merged the body of every header it recorded, no snapshot changes the state,
whatever calls and snapshots led there: the contexts are causal, each dot has one body, the purge
context of a tombstone is causally closed and the key it records stands. -/
theorem absorbSnapshot_changes_nothing {itemId : ItemId} {calls : List Call} {m : ItemMerge}
    (hm : m = (ItemMerge.new itemId).callAll calls)
    (hwf : ∀ o ∈ opsOf calls, o.data.WellFormed)
    (hone : ∀ o ∈ opsOf calls, ∀ p ∈ opsOf calls, o.dot = p.dot → o.data = p.data)
    (hc : Causal m.evidence) (hall : ∀ d ∈ m.headers, d ∈ m.merged)
    (hclosed : CausallyClosed m.evidence m.state.shape.c) (hkey : PurgeKeyStands m)
    (snapshot : SnapshotInput) : (m.absorbSnapshot snapshot []).1.state = m.state := by
  have hsteps : ReflTransGen (Step {o | o ∈ opsOf calls} fun _ _ => True)
      (ItemMerge.new itemId) m := by
    rw [hm]
    refine ItemMerge.callAll_steps (fun c hcall o ho => ?_) fun _ _ => trivial
    exact List.mem_flatMap.mpr ⟨c, hcall, ho⟩
  obtain ⟨a, h⟩ := (takenInv_new _ itemId).steps hwf hone hsteps hc
  rcases m.absorbSnapshot_cases snapshot [] with ⟨e, he⟩ | ⟨m', e, hw, he⟩ | ⟨m', hw, he⟩
  · rw [he]
  · cases hw
  · cases hw
    rw [he]
    exact h.absorbRecorded hwf hc hall hclosed hkey snapshot

/-- A field is written twice, the item trashed and purged, and everything merged. -/
def verifiedCalls : List Call :=
  let a : Dot := .sample 1 1
  let b : Dot := .sample 2 1
  let t : Dot := .sample 1 2
  let p : Dot := .sample 1 3
  [.applyOp (.sample a ⟨5⟩ [] (OpInput.sampleWrite [1])),
    .applyOp (.sample b ⟨6⟩ [] (OpInput.sampleWrite [2])),
    .applyOp (.sample t ⟨7⟩ [a] ⟨.trashed, []⟩), .writeSnapshot,
    .applyOp (.sample p ⟨8⟩ [t] ⟨.purge, []⟩)]

/-- A live snapshot that ignores the purge and claims another value. -/
def falseSnapshot : SnapshotInput :=
  let t : Dot := .sample 1 3
  .sample [t] (.live ⟨[⟨.lifecycle, [⟨t, ⟨8⟩, [1]⟩]⟩], []⟩)

theorem absorbSnapshot_changes_nothing_falseSnapshot :
    (((ItemMerge.new ⟨0⟩).callAll verifiedCalls).absorbSnapshot falseSnapshot []).1.state =
      ((ItemMerge.new ⟨0⟩).callAll verifiedCalls).state :=
  absorbSnapshot_changes_nothing rfl (by decide +kernel) (by decide +kernel)
    (causal_of_headers (by decide +kernel))
    (fun _ hd => (by decide +kernel : ∀ d ∈ ((ItemMerge.new ⟨0⟩).callAll verifiedCalls).headers.keys,
      d ∈ ((ItemMerge.new ⟨0⟩).callAll verifiedCalls).merged) _ (ExtTreeMap.mem_keys.mpr hd))
    (by decide +kernel) (by decide +kernel) falseSnapshot

/-- A tombstone is absorbed before the bodies come: its purge context claims `u` and leaves out the
write `v` that `u` saw. -/
def openContextCalls : List Call :=
  let p : Dot := .sample 1 1
  let u : Dot := .sample 2 1
  let v : Dot := .sample 3 1
  let q : Dot := .sample 4 1
  let opV : OpInput := .sample v ⟨1⟩ [] (OpInput.sampleWrite [1])
  let opU : OpInput := .sample u ⟨2⟩ [v] (OpInput.sampleWrite [2])
  let opP : OpInput := .sample p ⟨3⟩ [] ⟨.purge, []⟩
  let opQ : OpInput := .sample q ⟨4⟩ [u, v] ⟨.trashed, []⟩
  [opP, opU, opV, opQ].map (fun o => .recordHeader o.header) ++
    .absorbSnapshot (.sample [p, u, q] (.tombstone ⟨p, ⟨3⟩, .ofDots [u], ⟨0⟩, []⟩)) [] ::
    [opV, opU, opP, opQ].map .applyOp

/-- The snapshot of the write `v` alone. -/
def firstSnapshot : SnapshotInput :=
  let v : Dot := .sample 3 1
  .sample [v] (.live ⟨[⟨.lifecycle, [⟨v, ⟨1⟩, [1]⟩]⟩, ⟨OpInput.sampleKey, [⟨v, ⟨1⟩, [1]⟩]⟩], []⟩)

/-- With a purge context that is not causally closed, taken from a snapshot before the bodies came,
a snapshot of verified writes changes a replica that merged every body: `u` superseded `v` and was
discarded, so `v` comes back. -/
theorem absorbSnapshot_after_open_context :
    ¬ ∀ (calls : List Call) (snapshot : SnapshotInput),
      HonestOps ⟨0⟩ (opsOf calls).toFinset →
      (∀ d ∈ ((ItemMerge.new ⟨0⟩).callAll calls).headers,
        d ∈ ((ItemMerge.new ⟨0⟩).callAll calls).merged) →
      (((ItemMerge.new ⟨0⟩).callAll calls).absorbSnapshot snapshot []).1.state =
        ((ItemMerge.new ⟨0⟩).callAll calls).state := by
  intro h
  have hall : ∀ d ∈ ((ItemMerge.new ⟨0⟩).callAll openContextCalls).headers.keys,
      d ∈ ((ItemMerge.new ⟨0⟩).callAll openContextCalls).merged := by
    decide +kernel
  have hsame := h openContextCalls firstSnapshot (by decide +kernel)
    fun d hd => hall d (ExtTreeMap.mem_keys.mpr hd)
  revert hsame
  decide +kernel

end RizzyVault.Sync
