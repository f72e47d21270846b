import RizzyVault.Sync.Merge.Claims

/-!
# Runs of calls

Every call of the merge is a chain of elementary steps: a header is recorded, a body becomes
known, a body merges, the cut of a snapshot is absorbed, a snapshot is written, an operation is
re-issued, a key is added, or only local notes change. What a step keeps, a run of calls keeps.

## Main definitions

* `Call`, `ItemMerge.call`, `ItemMerge.callAll`: runs of calls.
* `Step`: one elementary change of a merge.

## Main results

* `ItemMerge.call_steps`, `ItemMerge.callAll_steps`: a run is a chain of steps.
* `Step.headersLE`: recorded headers stay.
-/

open RizzyVault.Core RizzyVault.Lib

namespace RizzyVault.Sync

open Std (ExtTreeMap ExtTreeSet)
open Relation (ReflTransGen)

/-- The calls that may change a merge. -/
inductive Call
  | recordHeader (header : OpHeader)
  | addItemKey (keyId : SymmetricKeyId)
  | applyOp (op : OpInput)
  | applyOwnOp (op : OpInput) (own : OwnWrite)
  | absorbSnapshot (snapshot : SnapshotInput) (withOps : List OpInput)
  | endFetch
  | writeSnapshot
  | reissueOwnOp (header : OpHeader) (keyId : SymmetricKeyId) (reissue : Reissue)
  | markSurfaced

/-- The operations a call brings with their bodies. -/
def Call.ops : Call → List OpInput
  | .applyOp op | .applyOwnOp op _ => [op]
  | .absorbSnapshot _ withOps => withOps
  | _ => []

/-- The operations a run brings with their bodies. -/
def opsOf (calls : List Call) : List OpInput := calls.flatMap Call.ops

namespace ItemMerge

/-- The merge a call leaves, whatever its answer. -/
def call (m : ItemMerge) : Call → ItemMerge
  | .recordHeader header => (m.recordHeader header).1
  | .addItemKey keyId => m.addItemKey keyId
  | .applyOp op => (m.applyOp op).1
  | .applyOwnOp op own => (m.applyOwnOp op own).1
  | .absorbSnapshot snapshot withOps => (m.absorbSnapshot snapshot withOps).1
  | .endFetch => m.endFetch.1
  | .writeSnapshot => m.writeSnapshot.1
  | .reissueOwnOp header keyId reissue => (m.reissueOwnOp header keyId reissue).1
  | .markSurfaced => m.markSurfaced

/-- The merge a run of calls leaves. -/
def callAll (m : ItemMerge) (calls : List Call) : ItemMerge := calls.foldl call m

end ItemMerge

/-- One elementary change of a merge that receives the operations `ops` and absorbs the snapshots
`absorbs` allows. -/
inductive Step (ops : Set OpInput) (absorbs : ItemMerge → SnapshotInput → Prop) :
    ItemMerge → ItemMerge → Prop
  | record (m : ItemMerge) (header : OpHeader) (hnew : m.headers[header.dot]? = none) :
    Step ops absorbs m { m with
      headers := m.headers.insert header.dot ⟨header.hlc, header.causalContext⟩ }
  | know (m : ItemMerge) (o : OpInput) (ho : o ∈ ops) (hrec : m.headers[o.dot]? = some o.facts) :
    Step ops absorbs m { m with bodies := m.bodies.insert o.dot o.held }
  | merge (m : ItemMerge) (o : OpInput) (ho : o ∈ ops) (hrec : m.headers[o.dot]? = some o.facts)
      (hnew : o.dot ∉ m.merged) (hready : m.isReady o.header) :
    Step ops absorbs m (m.joinBody o.held)
  | absorb (m : ItemMerge) (snapshot : SnapshotInput) (c : Cut) (hok : absorbs m snapshot)
      (hcut : cut (State.fromSnapshot snapshot.header.covered snapshot.data) (heads m.evidence)
        m.evidence = .ok c)
      (hcon : contradiction c.state m.bodies m.evidence = none) :
    Step ops absorbs m
      (m.absorbCut c (disagreements m.state c.state m.bodies m.evidence))
  | write (m : ItemMerge) (hresolved : m.unresolved.isEmpty) :
    Step ops absorbs m { m with base := m.state, retained := ∅, opsSinceSnapshot := 0 }
  | reissue (m : ItemMerge) (d : Dot) (keyId : SymmetricKeyId) (hmerged : d ∈ m.merged) :
    Step ops absorbs m { m with
      bodies := ItemMerge.rekeyBody m.bodies d keyId
      retained := ItemMerge.rekeyBody m.retained d keyId
      state := ItemMerge.rekeyPurge m.state d keyId
      base := ItemMerge.rekeyPurge m.base d keyId }
  | addKey (m : ItemMerge) (keyId : SymmetricKeyId) : Step ops absorbs m (m.addItemKey keyId)
  | note (m : ItemMerge) (count : ℕ) (due : Bool) (surfaced : ExtTreeSet Dot) :
    Step ops absorbs m { m with opsSinceSnapshot := count, mergeDue := due, surfaced := surfaced }

/-! ### Calls are chains of steps -/

namespace ItemMerge

variable {ops : Set OpInput} {absorbs : ItemMerge → SnapshotInput → Prop} {m m' : ItemMerge}

theorem recordHeader_steps (m : ItemMerge) (header : OpHeader) :
    ReflTransGen (Step ops absorbs) m (m.recordHeader header).1 := by
  rcases m.recordHeader_cases header with ⟨e, he⟩ | ⟨-, he⟩ | ⟨hnew, he⟩
  · rw [he]
  · rw [he]
  · rw [he]
    exact .single (.record m header hnew)

/-- A recorded header is the one the merge holds. -/
theorem getElem?_recordHeader {header : OpHeader} (h : m.recordHeader header = (m', .ok ())) :
    m'.headers[header.dot]? = some ⟨header.hlc, header.causalContext⟩ :=
  ((recordHeader_ok h).2 _ _).mpr (.inr ⟨rfl, rfl⟩)

theorem mergeRecorded_steps {o : OpInput} (ho : o ∈ ops)
    (hrec : m.headers[o.dot]? = some o.facts) :
    ReflTransGen (Step ops absorbs) m (m.mergeRecorded o).1 := by
  rcases m.mergeRecorded_cases o with ⟨-, he⟩ | ⟨-, -, he⟩ | ⟨hnew, hr, -, he⟩ | ⟨hnew, hr, -, he⟩
  · rw [he]
  · rw [he]
  · rw [he]
    exact .tail (.single (.merge m o ho hrec hnew hr)) (.note _ _ _ _)
  · rw [he]
    exact .single (.merge m o ho hrec hnew hr)

theorem mergeBody_steps {o : OpInput} (ho : o ∈ ops) :
    ReflTransGen (Step ops absorbs) m (m.mergeBody o).1 := by
  rcases m.mergeBody_cases o with ⟨e, he⟩ | ⟨m', hm', he⟩
  · rw [he]
  · have hrecord : ReflTransGen (Step ops absorbs) m (m.recordHeader o.header).1 :=
      m.recordHeader_steps o.header
    rw [hm'] at hrecord
    rw [he]
    exact hrecord.trans (mergeRecorded_steps ho (getElem?_recordHeader hm'))

theorem recordWith_steps {withOps : List OpInput} (hops : ∀ o ∈ withOps, o ∈ ops) :
    ReflTransGen (Step ops absorbs) m (m.recordWith withOps).1 := by
  induction withOps generalizing m with
  | nil => exact .refl
  | cons o withOps ih =>
    have hrecord : ReflTransGen (Step ops absorbs) m (m.recordHeader o.header).1 :=
      m.recordHeader_steps o.header
    unfold recordWith
    rcases hm : m.recordHeader o.header with ⟨m', e | ⟨⟩⟩
    · rw [hm] at hrecord
      exact hrecord
    · rw [hm] at hrecord
      have hknow : Step ops absorbs m' _ :=
        .know m' o (hops o List.mem_cons_self) (getElem?_recordHeader hm)
      exact (hrecord.tail hknow).trans (ih fun p hp => hops p (List.mem_cons_of_mem o hp))

theorem absorbRecorded_steps {snapshot : SnapshotInput} (hok : absorbs m snapshot) :
    ReflTransGen (Step ops absorbs) m (m.absorbRecorded snapshot).1 := by
  rcases m.absorbRecorded_cases snapshot with ⟨r, cuts, he⟩ | ⟨c, hcut, hcon, he⟩
  · rw [he]
  · rw [he]
    exact .single (.absorb m snapshot c hok hcut hcon)

/-- A call is a chain of steps. -/
theorem call_steps {c : Call} (hops : ∀ o ∈ c.ops, o ∈ ops)
    (habsorbs : ∀ snapshot withOps, c = .absorbSnapshot snapshot withOps →
      absorbs (m.recordWith withOps).1 snapshot) :
    ReflTransGen (Step ops absorbs) m (m.call c) := by
  cases c with
  | recordHeader header => exact m.recordHeader_steps header
  | addItemKey keyId => exact .single (.addKey m keyId)
  | applyOp o =>
    rw [call, applyOp_eq]
    exact mergeBody_steps (hops o (List.mem_singleton_self o))
  | applyOwnOp o own =>
    rw [call]
    rcases m.applyOwnOp_cases o own with ⟨e, he⟩ | ⟨-, -, -, kind, due, -, he⟩
    · rw [he]
    · rw [he]
      exact mergeBody_steps (hops o (List.mem_singleton_self o))
  | absorbSnapshot snapshot withOps =>
    have hrecord : ReflTransGen (Step ops absorbs) m (m.recordWith withOps).1 :=
      recordWith_steps hops
    have hok := habsorbs snapshot withOps rfl
    rw [call]
    rcases m.absorbSnapshot_cases snapshot withOps with ⟨e, he⟩ | ⟨m', e, hw, he⟩ | ⟨m', hw, he⟩
    · rw [he]
    · rw [hw] at hrecord
      rw [he]
      exact hrecord
    · rw [hw] at hrecord hok
      rw [he]
      exact hrecord.trans (absorbRecorded_steps hok)
  | endFetch => exact .single (.note m m.opsSinceSnapshot false m.surfaced)
  | writeSnapshot =>
    rw [call]
    rcases m.writeSnapshot_cases with ⟨e, he⟩ | ⟨data, -, hres, -, he⟩
    · rw [he]
    · rw [he]
      exact .single (.write m hres)
  | reissueOwnOp header keyId reissue =>
    rw [call]
    rcases m.reissueOwnOp_cases header keyId reissue with ⟨e, he⟩ | ⟨due, -, hmerged, he⟩
    · rw [he]
    · rw [he]
      exact .single (.reissue m header.dot keyId hmerged)
  | markSurfaced => exact .single (.note m m.opsSinceSnapshot m.mergeDue _)

/-- A run of calls is a chain of steps. -/
theorem callAll_steps {calls : List Call} (hops : ∀ c ∈ calls, ∀ o ∈ c.ops, o ∈ ops)
    (habsorbs : ∀ m snapshot, absorbs m snapshot) :
    ReflTransGen (Step ops absorbs) m (m.callAll calls) := by
  induction calls generalizing m with
  | nil => exact .refl
  | cons c calls ih =>
    have hcall : ReflTransGen (Step ops absorbs) m (m.call c) :=
      call_steps (hops c List.mem_cons_self) fun _ _ _ => habsorbs _ _
    exact hcall.trans (ih fun c' hc' => hops c' (List.mem_cons_of_mem c hc'))

end ItemMerge

/-! ### Recorded headers stay -/

variable {ops : Set OpInput} {absorbs : ItemMerge → SnapshotInput → Prop} {m m' : ItemMerge}

theorem Evidence.HeadersLE.refl (ev : Evidence) : ev.HeadersLE ev := fun _ _ h => h

theorem Step.headersLE (h : Step ops absorbs m m') : m.evidence.HeadersLE m'.evidence := by
  cases h with
  | record header hnew =>
    intro d f hf
    change (m.headers.insert _ _)[d]? = some f
    rw [ExtTreeMap.getElem?_insert_iff, if_neg]
    · exact hf
    · rintro rfl
      exact absurd (hnew.symm.trans hf) (by simp)
  | know | merge | absorb | write | reissue | addKey | note => exact .refl _

theorem steps_headersLE (h : ReflTransGen (Step ops absorbs) m m') :
    m.evidence.HeadersLE m'.evidence := by
  induction h with
  | refl => exact .refl _
  | tail _ hstep ih => exact fun d f hf => hstep.headersLE d f (ih d f hf)

/-- Supersession that is transitive is so among fewer headers. -/
theorem Causal.anti {ev ev' : Evidence} (hle : ev.HeadersLE ev') (h : Causal ev') : Causal ev := by
  have hup : ∀ {u v : Dot}, Supersedes ev u v → Supersedes ev' u v := by
    rintro u v ⟨hne, c, hc, hv⟩
    obtain ⟨f, hf, rfl⟩ := Option.map_eq_some_iff.mp hc
    exact ⟨hne, f.context, Option.map_eq_some_iff.mpr ⟨f, hle u f hf, rfl⟩, hv⟩
  rintro u v w huv hvw
  obtain ⟨hne, c', hc', hw⟩ := h u v w (hup huv) (hup hvw)
  obtain ⟨-, c, hc, -⟩ := huv
  obtain ⟨f, hf, rfl⟩ := Option.map_eq_some_iff.mp hc
  have hsame : ev'.context u = some f.context :=
    Option.map_eq_some_iff.mpr ⟨f, hle u f hf, rfl⟩
  have : c' = f.context := Option.some.inj (hc'.symm.trans hsame)
  exact ⟨hne, f.context, hc, this ▸ hw⟩

/-- Contexts that cover the contexts of what they cover, and never a successor, supersede
transitively. -/
theorem causal_of_headers {ev : Evidence}
    (h : ∀ e ∈ ev.headers.toList, ∀ e' ∈ ev.headers.toList, e.2.context.covers e'.1 →
      e'.2.context ≤ e.2.context ∧ ¬ e'.2.context.covers e.1) : Causal ev := by
  rintro u v w ⟨-, cu, hcu, huv⟩ ⟨-, cv, hcv, hvw⟩
  obtain ⟨fu, hfu, rfl⟩ := Option.map_eq_some_iff.mp hcu
  obtain ⟨fv, hfv, rfl⟩ := Option.map_eq_some_iff.mp hcv
  obtain ⟨hle, hnot⟩ := h (u, fu) (ExtTreeMap.mem_toList_iff_getElem?_eq_some.mpr hfu) (v, fv)
    (ExtTreeMap.mem_toList_iff_getElem?_eq_some.mpr hfv) huv
  refine ⟨?_, fu.context, hcu, hle w hvw⟩
  rintro rfl
  exact hnot hvw

end RizzyVault.Sync
