import RizzyVault.Sync.Merge.Calls

/-!
# Failed calls

A call that fails leaves the merge as it was, up to the headers and bodies it recorded on the way:
`applyOp` may have recorded the operation's header, and a refused snapshot has recorded the
operations that came with it.

## Main results

* `ItemMerge.failed_calls_change_nothing`: no failed call touches the state.
-/

open RizzyVault.Core RizzyVault.Lib

namespace RizzyVault.Sync

open Std (ExtTreeMap ExtTreeSet)

namespace ItemMerge

theorem recordHeader_error {m : ItemMerge} {header : OpHeader} {e : MergeError}
    (h : (m.recordHeader header).2 = .error e) : (m.recordHeader header).1 = m := by
  rcases m.recordHeader_cases header with ⟨e', he⟩ | ⟨-, he⟩ | ⟨-, he⟩
  · rw [he]
  · rw [he]
  · rw [he] at h
    cases h

/-- A body that does not merge has at most recorded its header. -/
theorem mergeBody_error {m : ItemMerge} {o : OpInput} {e : MergeError}
    (h : (m.mergeBody o).2 = .error e) :
    (m.mergeBody o).1 = m ∨ m.headers[o.dot]? = none ∧
      (m.mergeBody o).1 = { m with headers := m.headers.insert o.dot o.facts } := by
  rcases m.mergeBody_cases o with ⟨e', he⟩ | ⟨m', hm', he⟩
  · rw [he]
    exact .inl rfl
  · have hkeep : (m.mergeBody o).1 = m' := by
      rcases m'.mergeRecorded_cases o with ⟨-, hr⟩ | ⟨-, -, hr⟩ | ⟨-, -, -, hr⟩ | ⟨-, -, -, hr⟩
      · rw [he, hr]
      · rw [he, hr]
      · rw [he, hr] at h
        cases h
      · rw [he, hr] at h
        cases h
    rw [hkeep]
    rcases m.recordHeader_cases o.header with ⟨e', hr⟩ | ⟨-, hr⟩ | ⟨hnone, hr⟩
    · rw [hr] at hm'
      cases hm'
    · rw [hr] at hm'
      cases hm'
      exact .inl rfl
    · rw [hr] at hm'
      cases hm'
      exact .inr ⟨hnone, rfl⟩

theorem applyOp_error {m : ItemMerge} {o : OpInput} {e : MergeError}
    (h : (m.applyOp o).2 = .error e) : (m.mergeBody o).2 = .error e := by
  rw [applyOp_eq] at h
  cases hbody : (m.mergeBody o).2 with
  | error e' =>
    rw [hbody] at h
    cases h
    rfl
  | ok kind =>
    rw [hbody] at h
    cases h

theorem applyOwnOp_error {m : ItemMerge} {o : OpInput} {own : OwnWrite} {e : MergeError}
    (h : (m.applyOwnOp o own).2 = .error e) : (m.applyOwnOp o own).1 = m := by
  rcases m.applyOwnOp_cases o own with ⟨e', he⟩ | ⟨-, -, -, kind, due, -, he⟩
  · rw [he]
  · rw [he] at h
    cases h

theorem reissueOwnOp_error {m : ItemMerge} {header : OpHeader} {keyId : SymmetricKeyId}
    {reissue : Reissue} {e : MergeError} (h : (m.reissueOwnOp header keyId reissue).2 = .error e) :
    (m.reissueOwnOp header keyId reissue).1 = m := by
  rcases m.reissueOwnOp_cases header keyId reissue with ⟨e', he⟩ | ⟨due, -, -, he⟩
  · rw [he]
  · rw [he] at h
    cases h

/-- Whether a call to absorb a snapshot took nothing from it. -/
def AbsorbFailed : Except MergeError Absorption → Prop
  | .error _ => True
  | .ok absorption => ∃ r, absorption.outcome = .refused r

theorem absorbSnapshot_failed {m : ItemMerge} {snapshot : SnapshotInput} {withOps : List OpInput}
    (h : AbsorbFailed (m.absorbSnapshot snapshot withOps).2) :
    ∃ headers bodies, (m.absorbSnapshot snapshot withOps).1 =
      { m with headers := headers, bodies := bodies } := by
  rcases m.absorbSnapshot_cases snapshot withOps with ⟨e, he⟩ | ⟨m', e, hw, he⟩ | ⟨m', hw, he⟩
  · rw [he]
    exact ⟨_, _, rfl⟩
  · rw [he, ← congrArg Prod.fst hw]
    exact m.recordWith_frame withOps
  · rcases m'.absorbRecorded_cases snapshot with ⟨r, cuts, hr⟩ | ⟨c, -, -, hr⟩
    · rw [he, hr, ← congrArg Prod.fst hw]
      exact m.recordWith_frame withOps
    · rw [he, hr] at h
      obtain ⟨r, hr⟩ := h
      cases hr

theorem absorbSnapshot_refused {m : ItemMerge} {snapshot : SnapshotInput} {withOps : List OpInput}
    {r : Refusal} {cuts : List ClaimCut}
    (h : (m.absorbSnapshot snapshot withOps).2 = .ok ⟨.refused r, cuts⟩) :
    m.recordWith withOps = ((m.absorbSnapshot snapshot withOps).1, .ok ()) := by
  rcases m.absorbSnapshot_cases snapshot withOps with ⟨e, he⟩ | ⟨m', e, hw, he⟩ | ⟨m', hw, he⟩
  · rw [he] at h
    cases h
  · rw [he] at h
    cases h
  · rcases m'.absorbRecorded_cases snapshot with ⟨r', cuts', hr⟩ | ⟨c, -, -, hr⟩
    · rw [he, hr, hw]
    · rw [he, hr] at h
      cases h

/-- No failed call touches the state: recording a header, applying or re-issuing an own operation
change nothing at all; applying an operation may have recorded its header; absorbing a snapshot
may have recorded the operations that came with it, and when it is refused it has recorded all of
them and nothing else. -/
theorem failed_calls_change_nothing (m : ItemMerge) :
    (∀ header e, (m.recordHeader header).2 = .error e → (m.recordHeader header).1 = m) ∧
    (∀ op own e, (m.applyOwnOp op own).2 = .error e → (m.applyOwnOp op own).1 = m) ∧
    (∀ header keyId reissue e, (m.reissueOwnOp header keyId reissue).2 = .error e →
      (m.reissueOwnOp header keyId reissue).1 = m) ∧
    (∀ op e, (m.applyOp op).2 = .error e →
      (m.applyOp op).1 = m ∨ m.headers[op.dot]? = none ∧
        (m.applyOp op).1 = { m with headers := m.headers.insert op.dot op.facts }) ∧
    (∀ snapshot withOps, AbsorbFailed (m.absorbSnapshot snapshot withOps).2 →
      ∃ headers bodies, (m.absorbSnapshot snapshot withOps).1 =
        { m with headers := headers, bodies := bodies }) ∧
    (∀ snapshot withOps r cuts, (m.absorbSnapshot snapshot withOps).2 = .ok ⟨.refused r, cuts⟩ →
      (∀ (d : Dot) (f : HeaderFacts),
        (m.absorbSnapshot snapshot withOps).1.headers[d]? = some f ↔
          m.headers[d]? = some f ∨ ∃ op ∈ withOps, op.dot = d ∧ op.facts = f) ∧
      (m.absorbSnapshot snapshot withOps).1.bodies =
        withOps.foldl (fun bodies op => bodies.insert op.dot op.held) m.bodies) := by
  refine ⟨fun _ _ => recordHeader_error, fun _ _ _ => applyOwnOp_error,
    fun _ _ _ _ => reissueOwnOp_error, fun op e h => ?_, fun _ _ => absorbSnapshot_failed,
    fun snapshot withOps r cuts h => recordWith_ok (absorbSnapshot_refused h)⟩
  have hbody := mergeBody_error (applyOp_error h)
  rwa [applyOp_eq]

/-- A snapshot that claims another value for an operation of its response is refused, and the
response's header is recorded. -/
theorem absorbSnapshot_refused_records_header :
    ¬ ∀ (m : ItemMerge) (snapshot : SnapshotInput) (withOps : List OpInput),
      AbsorbFailed (m.absorbSnapshot snapshot withOps).2 →
        (m.absorbSnapshot snapshot withOps).1.headers = m.headers := by
  intro h
  let a : Dot := .sample 1 1
  let snapshot : SnapshotInput := .sample [a] (.live
    ⟨[⟨.lifecycle, [⟨a, ⟨5⟩, [1]⟩]⟩, ⟨OpInput.sampleKey, [⟨a, ⟨5⟩, [9]⟩]⟩], []⟩)
  let op : OpInput := .sample a ⟨5⟩ [] (OpInput.sampleWrite [1])
  have hrefused : ((ItemMerge.new ⟨0⟩).absorbSnapshot snapshot [op]).2 =
      .ok ⟨.refused (.valueNotInBody a), []⟩ := by
    decide +kernel
  have hfailed : AbsorbFailed ((ItemMerge.new ⟨0⟩).absorbSnapshot snapshot [op]).2 := by
    rw [hrefused]
    exact ⟨_, rfl⟩
  have hheader := congrArg (fun headers => headers[a]?) (h _ _ _ hfailed)
  revert hheader
  decide +kernel

end ItemMerge

end RizzyVault.Sync
