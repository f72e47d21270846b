import RizzyVault.Sync.Merge.Absorb
import RizzyVault.Sync.Merge.Basis

/-!
# Rebuilding from the basis

Over every run about honest operations, the joins of the basis with the retained operations, in
any order, give the state, as long as the purge contexts that snapshots bring in are causally
closed. A cut to the recorded headers can leave one open.

## Main definitions

* `Call.On`, `ClosedCut`, `Along`: the runs the results are about.
* `ItemMerge.rebuild`: a merge loaded from a basis and kept operations.

## Main results

* `exists_rebuildInv_callAll`: the invariant along runs.
* `rebuild_eq`: the state is rebuilt from the basis and the retained operations.
* `rebuild_differs_after_cut`: a purge context the cut leaves open breaks this.
-/

open RizzyVault.Core RizzyVault.Lib

namespace RizzyVault.Sync

open Std (ExtTreeMap ExtTreeSet)
open Relation (ReflTransGen)

variable {a b : Content} {m m' : ItemMerge} {ops : Finset OpInput} {itemId : ItemId}

/-! ### Runs -/

theorem Step.wrapKeys_eq_empty {ops : Set OpInput} {absorbs : ItemMerge → SnapshotInput → Prop}
    (h : Step ops absorbs m m') (hkeys : m'.wrapKeys = ∅) : m.wrapKeys = ∅ := by
  cases h with
  | addKey keyId =>
    have hmem : keyId ∈ (m.addItemKey keyId).wrapKeys :=
      ExtTreeSet.mem_insert.mpr (.inl (compare_eq_iff_eq.mpr rfl))
    rw [hkeys] at hmem
    simp at hmem
  | record | know | merge | absorb | write | reissue | note => exact hkeys

theorem RebuildInv.steps (hops : HonestOps itemId ops) (h : RebuildInv ops a b m)
    (hs : ReflTransGen (Step {o | OfOps ops o} (fun m snapshot => ∀ c,
      cut (State.fromSnapshot snapshot.header.covered snapshot.data) (heads m.evidence)
        m.evidence = .ok c → ClosedOver ops c.state.shape.c)) m m')
    (hh : HeadersOf ops m'.headers) (hkeys : m'.wrapKeys = ∅) :
    ∃ a' b', RebuildInv ops a' b' m' := by
  induction hs with
  | refl => exact ⟨a, b, h⟩
  | tail _ hstep ih =>
    have hle := hstep.headersLE
    obtain ⟨a', b', h'⟩ := ih (fun d f hf => hh d f (hle d f hf)) (hstep.wrapKeys_eq_empty hkeys)
    exact h'.step hops hh hkeys hstep

/-- A call about operations of `ops`; keys of the wrap set are not added. -/
def Call.On (ops : Finset OpInput) : Call → Prop
  | .recordHeader header =>
    ∃ o ∈ ops, header.dot = o.dot ∧ (⟨header.hlc, header.causalContext⟩ : HeaderFacts) = o.facts
  | .addItemKey _ => False
  | .applyOp op | .applyOwnOp op _ => OfOps ops op
  | .absorbSnapshot _ withOps => ∀ o ∈ withOps, OfOps ops o
  | .endFetch | .writeSnapshot | .reissueOwnOp _ _ _ | .markSurfaced => True

instance (ops : Finset OpInput) : DecidablePred (Call.On ops)
  | .recordHeader _ => inferInstanceAs (Decidable (∃ o ∈ ops, _))
  | .addItemKey _ => inferInstanceAs (Decidable False)
  | .applyOp op | .applyOwnOp op _ => inferInstanceAs (Decidable (OfOps ops op))
  | .absorbSnapshot _ withOps => inferInstanceAs (Decidable (∀ o ∈ withOps, OfOps ops o))
  | .endFetch | .writeSnapshot | .reissueOwnOp _ _ _ | .markSurfaced =>
    inferInstanceAs (Decidable True)

/-- The purge context a cut leaves is causally closed over `ops`. -/
def CutClosedOver (ops : Finset OpInput) : Except Refusal Cut → Prop
  | .ok c => ClosedOver ops c.state.shape.c
  | .error _ => True

instance (ops : Finset OpInput) : DecidablePred (CutClosedOver ops)
  | .ok c => inferInstanceAs (Decidable (ClosedOver ops c.state.shape.c))
  | .error _ => inferInstanceAs (Decidable True)

/-- The purge context an absorbed snapshot brings in, cut to the recorded headers, is causally
closed over `ops`. -/
def ClosedCut (ops : Finset OpInput) (m : ItemMerge) : Call → Prop
  | .absorbSnapshot snapshot withOps =>
    CutClosedOver ops (cut (State.fromSnapshot snapshot.header.covered snapshot.data)
      (heads (m.recordWith withOps).1.evidence) (m.recordWith withOps).1.evidence)
  | _ => True

instance (ops : Finset OpInput) (m : ItemMerge) : DecidablePred (ClosedCut ops m)
  | .absorbSnapshot _ _ => inferInstanceAs (Decidable (CutClosedOver ops _))
  | .recordHeader _ | .addItemKey _ | .applyOp _ | .applyOwnOp _ _ | .endFetch | .writeSnapshot
  | .reissueOwnOp _ _ _ | .markSurfaced => inferInstanceAs (Decidable True)

/-- Every call of a run meets a condition on the merge before it. -/
def Along (P : ItemMerge → Call → Prop) : ItemMerge → List Call → Prop
  | _, [] => True
  | m, c :: calls => P m c ∧ Along P (m.call c) calls

instance Along.decidable {P : ItemMerge → Call → Prop} [∀ m, DecidablePred (P m)] :
    (m : ItemMerge) → (calls : List Call) → Decidable (Along P m calls)
  | _, [] => inferInstanceAs (Decidable True)
  | m, c :: calls =>
    have : Decidable (Along P (m.call c) calls) := Along.decidable (m.call c) calls
    inferInstanceAs (Decidable (P m c ∧ Along P (m.call c) calls))

/-- The merge knows headers of `ops` only and no key of the wrap set. -/
structure KnowsOnly (ops : Finset OpInput) (m : ItemMerge) : Prop where
  headers : HeadersOf ops m.headers
  wrapKeys : m.wrapKeys = ∅

namespace KnowsOnly

theorem recordHeader (h : KnowsOnly ops m) {header : OpHeader} (ho : ∃ o ∈ ops,
    header.dot = o.dot ∧ (⟨header.hlc, header.causalContext⟩ : HeaderFacts) = o.facts) :
    KnowsOnly ops (m.recordHeader header).1 := by
  rcases m.recordHeader_cases header with ⟨e, he⟩ | ⟨-, he⟩ | ⟨-, he⟩
  · rw [he]
    exact h
  · rw [he]
    exact h
  · rw [he]
    refine ⟨fun d f hf => ?_, h.wrapKeys⟩
    simp only [ExtTreeMap.getElem?_insert_iff] at hf
    split_ifs at hf with hd
    · obtain ⟨o, ho, hdot, hfacts⟩ := ho
      exact ⟨o, ho, hdot.symm.trans hd, (Option.some.inj hf).symm.trans hfacts⟩
    · exact h.headers d f hf

theorem mergeBody (h : KnowsOnly ops m) {o : OpInput} (ho : OfOps ops o) :
    KnowsOnly ops (m.mergeBody o).1 := by
  obtain ⟨p, hp, hd, hf, -⟩ := ho
  rcases m.mergeBody_cases o with ⟨e, he⟩ | ⟨m', hm', he⟩
  · rw [he]
    exact h
  · have h' := h.recordHeader ⟨p, hp, hd, hf⟩
    rw [hm'] at h'
    rw [he]
    rcases m'.mergeRecorded_cases o with ⟨-, he⟩ | ⟨-, -, he⟩ | ⟨-, -, -, he⟩ | ⟨-, -, -, he⟩
    all_goals
      rw [he]
      exact ⟨h'.headers, h'.wrapKeys⟩

theorem recordWith (h : KnowsOnly ops m) {withOps : List OpInput}
    (hwith : ∀ o ∈ withOps, OfOps ops o) : KnowsOnly ops (m.recordWith withOps).1 := by
  induction withOps generalizing m with
  | nil => exact h
  | cons o withOps ih =>
    obtain ⟨p, hp, hd, hf, -⟩ := hwith o List.mem_cons_self
    have h' := h.recordHeader ⟨p, hp, hd, hf⟩
    unfold ItemMerge.recordWith
    rcases hm : m.recordHeader o.header with ⟨m', e | ⟨⟩⟩
    · rw [hm] at h'
      exact h'
    · rw [hm] at h'
      exact ih ⟨h'.headers, h'.wrapKeys⟩ fun q hq => hwith q (List.mem_cons_of_mem o hq)

theorem absorbRecorded (h : KnowsOnly ops m) (snapshot : SnapshotInput) :
    KnowsOnly ops (m.absorbRecorded snapshot).1 := by
  rcases m.absorbRecorded_cases snapshot with ⟨r, cuts, he⟩ | ⟨c, -, -, he⟩
  · rw [he]
    exact h
  · rw [he]
    exact ⟨h.headers, h.wrapKeys⟩

/-- A call about the operations leaves a merge that knows only them. -/
theorem call (h : KnowsOnly ops m) {c : Call} (hc : c.On ops) : KnowsOnly ops (m.call c) := by
  cases c with
  | recordHeader header => exact h.recordHeader hc
  | addItemKey keyId => exact hc.elim
  | applyOp o =>
    rw [ItemMerge.call, ItemMerge.applyOp_eq]
    exact h.mergeBody hc
  | applyOwnOp o own =>
    rw [ItemMerge.call]
    rcases m.applyOwnOp_cases o own with ⟨e, he⟩ | ⟨-, -, -, kind, due, -, he⟩
    · rw [he]
      exact h
    · rw [he]
      exact h.mergeBody hc
  | absorbSnapshot snapshot withOps =>
    have h' := h.recordWith hc
    rw [ItemMerge.call]
    rcases m.absorbSnapshot_cases snapshot withOps with ⟨e, he⟩ | ⟨m', e, hw, he⟩ | ⟨m', hw, he⟩
    · rw [he]
      exact h
    · rw [hw] at h'
      rw [he]
      exact h'
    · rw [hw] at h'
      rw [he]
      exact h'.absorbRecorded snapshot
  | endFetch => exact ⟨h.headers, h.wrapKeys⟩
  | writeSnapshot =>
    rw [ItemMerge.call]
    rcases m.writeSnapshot_cases with ⟨e, he⟩ | ⟨data, -, -, -, he⟩
    · rw [he]
      exact h
    · rw [he]
      exact ⟨h.headers, h.wrapKeys⟩
  | reissueOwnOp header keyId reissue =>
    rw [ItemMerge.call]
    rcases m.reissueOwnOp_cases header keyId reissue with ⟨e, he⟩ | ⟨due, -, -, he⟩
    · rw [he]
      exact h
    · rw [he]
      exact ⟨h.headers, h.wrapKeys⟩
  | markSurfaced => exact ⟨h.headers, h.wrapKeys⟩

end KnowsOnly

/-- A run about honest operations that absorbs only causally closed purge contexts keeps the
invariant. -/
theorem exists_rebuildInv_callAll (hops : HonestOps itemId ops) {calls : List Call}
    (hcalls : ∀ c ∈ calls, c.On ops) (hclosed : Along (ClosedCut ops) m calls)
    (hk : KnowsOnly ops m) (h : RebuildInv ops a b m) :
    KnowsOnly ops (m.callAll calls) ∧ ∃ a' b', RebuildInv ops a' b' (m.callAll calls) := by
  induction calls generalizing m a b with
  | nil => exact ⟨hk, a, b, h⟩
  | cons c calls ih =>
    have hc := hcalls c List.mem_cons_self
    have hk' := hk.call hc
    have hsteps : ReflTransGen (Step {o | OfOps ops o} (fun m snapshot => ∀ c,
        cut (State.fromSnapshot snapshot.header.covered snapshot.data) (heads m.evidence)
          m.evidence = .ok c → ClosedOver ops c.state.shape.c)) m (m.call c) := by
      refine ItemMerge.call_steps (fun o ho => ?_) fun snapshot withOps heq x hx => ?_
      · cases c with
        | applyOp op | applyOwnOp op own =>
          rw [List.mem_singleton.mp ho]
          exact hc
        | absorbSnapshot snapshot withOps => exact hc o ho
        | recordHeader | addItemKey | endFetch | writeSnapshot | reissueOwnOp | markSurfaced =>
          exact absurd ho List.not_mem_nil
      · subst heq
        have hcut := hclosed.1
        simp only [ClosedCut, hx] at hcut
        exact hcut
    obtain ⟨a', b', h'⟩ := h.steps hops hsteps hk'.headers hk'.wrapKeys
    exact ih (fun c' hc' => hcalls c' (List.mem_cons_of_mem c hc')) hclosed.2 hk' h'

/-! ### Rebuilding -/

/-- The basis read back from its record data; no data is an item without values. -/
def State.ofBasis (covered : VersionVector) : Option SnapshotData → State
  | some data => State.fromSnapshot covered data
  | none => ⟨covered, .live ⟨∅, ∅⟩⟩

namespace ItemMerge

/-- The retained operations, ascending by dot. -/
def retainedBodies (m : ItemMerge) : List HeldOp := m.retained.toList.map Prod.snd

/-- A merge with the headers of `m`, loaded from its basis as read back from record data, that then
merges kept operations. -/
def rebuild (m : ItemMerge) (basis : Option SnapshotData) (kept : List HeldOp) : ItemMerge :=
  let base := State.ofBasis m.basisCovered basis
  kept.foldl joinBody { ItemMerge.new m.itemId with headers := m.headers, state := base, base := base }

theorem mem_retainedBodies {op : HeldOp} :
    op ∈ m.retainedBodies ↔ ∃ d : Dot, m.retained[d]? = some op := by
  simp only [retainedBodies, List.mem_map, Prod.exists,
    ExtTreeMap.mem_toList_iff_getElem?_eq_some, exists_eq_right]

theorem state_foldl_joinBody (m : ItemMerge) (l : List HeldOp) :
    (l.foldl joinBody m).state =
      l.foldl (fun s op => joinInto s (Sync.singleton op) m.evidence) m.state := by
  induction l generalizing m with
  | nil => rfl
  | cons op l ih => exact ih (m.joinBody op)

/-- The basis reads back from its record data. -/
theorem ofBasis_basisData {basis : Option SnapshotData} (h : m.basisData = .ok basis) :
    State.ofBasis m.basisCovered basis = m.base := by
  cases basis with
  | some data => exact State.fromSnapshot_of_snapshotData h
  | none =>
    have hb : m.base.snapshotData = .ok none := h
    unfold State.snapshotData at hb
    split_ifs at hb with ha
    · unfold State.isAbsent at ha
      change (⟨m.base.vv, .live ⟨∅, ∅⟩⟩ : State) = m.base
      rcases hbase : m.base with ⟨vv, l | t⟩
      · rw [hbase] at ha
        simp only [Bool.and_eq_true, ExtTreeMap.isEmpty_iff] at ha
        rcases l with ⟨regs, hist⟩
        obtain ⟨rfl, rfl⟩ := ha
        rfl
      · rw [hbase] at ha
        cases ha
    · rcases hbase : m.base with ⟨vv, l | t⟩
      · rw [hbase] at hb
        simp only at hb
        cases hr : regsTo l.regs with
        | error e =>
          rw [hr] at hb
          cases hb
        | ok registers =>
          cases hh : regsTo l.hist with
          | error e =>
            rw [hr, hh] at hb
            cases hb
          | ok history =>
            rw [hr, hh] at hb
            cases hb
      · rw [hbase] at hb
        simp only at hb
        cases hl : regsTo t.late with
        | error e =>
          rw [hl] at hb
          cases hb
        | ok late =>
          rw [hl] at hb
          cases hb

end ItemMerge

/-- A replica writes a field, absorbs the sample tombstone whole and keeps writing. -/
def rebuildCalls : List Call :=
  sampleOps.map (fun o => .recordHeader o.header) ++
    [.applyOp sampleOps[1], .absorbSnapshot sampleTombstone [], .applyOp sampleOps[0],
      .applyOp sampleOps[3]]

/-- A write of `y`, one of `x` that saw it and a purge that saw both. -/
def cutOps : List OpInput :=
  let x : Dot := .sample 1 1
  let y : Dot := .sample 2 1
  let p : Dot := .sample 3 1
  [.sample y ⟨1⟩ [] (OpInput.sampleWrite [1]), .sample x ⟨2⟩ [y] (OpInput.sampleWrite [2]),
    .sample p ⟨3⟩ [x, y] ⟨.purge, []⟩]

/-- A replica that applied all of them. -/
def cutWriter : ItemMerge := cutOps.foldl (fun m o => (m.applyOp o).1) (ItemMerge.new ⟨0⟩)

/-- The tombstone it writes. -/
def cutTombstone : SnapshotInput :=
  let x : Dot := .sample 1 1
  let y : Dot := .sample 2 1
  let p : Dot := .sample 3 1
  .sample [p, x, y] (.tombstone ⟨p, ⟨3⟩, .ofDots [x, y], ⟨0⟩, []⟩)

/-- The tombstone is absorbed while the header of `y` is missing, and then the bodies come. -/
def cutCalls : List Call :=
  [.recordHeader cutOps[1].header, .recordHeader cutOps[2].header,
    .absorbSnapshot cutTombstone [], .applyOp cutOps[0], .applyOp cutOps[1]]

/-- The calls that load the basis and then the retained operations in dot order. -/
def cutLoad : List Call :=
  let x : Dot := .sample 1 1
  let p : Dot := .sample 3 1
  cutOps.map (fun o => .recordHeader o.header) ++
    [.absorbSnapshot (.sample [p, x] (.tombstone ⟨p, ⟨3⟩, .ofDots [x], ⟨0⟩, []⟩)) [],
      .applyOp cutOps[1], .applyOp cutOps[0]]

end RizzyVault.Sync
