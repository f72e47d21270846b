import RizzyVault.Lib.TreeMap
import RizzyVault.Sync.Merge.Item

/-!
# What each call can do

One inversion lemma for every call of the merge: the ways it can end, with what it checked and the
merge it leaves. Invariants and frame results are derived from these.

## Main definitions

* `OpInput.dot`, `OpInput.context`, `OpInput.held`, `OpInput.facts`: an operation as the merge
  reads it.

## Main results

* `ItemMerge.recordHeader_cases`, `ItemMerge.mergeRecorded_cases`, `ItemMerge.mergeBody_cases`,
  `ItemMerge.applyOwnOp_cases`, `ItemMerge.recordWith_cases`, `ItemMerge.absorbRecorded_cases`,
  `ItemMerge.absorbSnapshot_cases`, `ItemMerge.writeSnapshot_cases`,
  `ItemMerge.reissueOwnOp_cases`.
-/

open RizzyVault.Core RizzyVault.Lib

namespace RizzyVault.Sync

open Std (ExtTreeMap ExtTreeSet)

/-- The dot of a device by number. -/
def Dot.sample (device : Fin (2 ^ 128)) (seq : ℕ)
    (pos : 0 < seq := by
      first | exact Nat.one_pos | exact Nat.two_pos | exact Lib.zero_lt_three | decide)
    (lt : seq < 2 ^ 64 := by
      first | exact Lib.one_lt_u64 | exact Lib.two_lt_u64 | exact Lib.three_lt_u64 | decide) :
    Dot := ⟨⟨device⟩, ⟨seq, pos, lt⟩⟩

namespace OpInput

def dot (o : OpInput) : Dot := o.header.dot

def context (o : OpInput) : VersionVector := o.header.causalContext

/-- The operation as the merge holds it. -/
def held (o : OpInput) : HeldOp := HeldOp.new o.header o.keyId o.data

/-- What the merge keeps of the operation's header. -/
def facts (o : OpInput) : HeaderFacts := ⟨o.header.hlc, o.header.causalContext⟩

/-- The key the sample operations write. -/
def sampleKey : FieldKey :=
  ⟨asciiBytes ['i', 't', 'e', 'm', '.', 'n', 'a', 'm', 'e'], by decide +kernel⟩

/-- A write of `value` to the sample key. -/
def sampleWrite (value : Bytes) : OpData := ⟨.active, [⟨sampleKey, value⟩]⟩

/-- An operation of one fixed item and envelope key. -/
def sample (dot : Dot) (hlc : Hlc) (context : List Dot) (data : OpData) : OpInput where
  header :=
    { vaultId := ⟨0⟩, itemId := ⟨0⟩, opId := ⟨0⟩, dot, vaultPrevSeq := 0, hlc,
      itemSchemaVersion := .v1, vaultKeyEpoch := 1, causalContext := .ofDots context,
      vaultPrevSeq_lt := Lib.zero_lt_u64, vaultKeyEpoch_lt := Lib.one_lt_u32 }
  keyId := ⟨0⟩
  data

@[simp] theorem held_dot (o : OpInput) : o.held.dot = o.dot := rfl
@[simp] theorem held_hlc (o : OpInput) : o.held.hlc = o.header.hlc := rfl
@[simp] theorem held_context (o : OpInput) : o.held.context = o.context := rfl
@[simp] theorem held_keyId (o : OpInput) : o.held.keyId = o.keyId := rfl
@[simp] theorem held_lifecycle (o : OpInput) : o.held.lifecycle = o.data.lifecycle := rfl

end OpInput

/-- A snapshot of the same item by one fixed author. -/
def SnapshotInput.sample (covered : List Dot) (data : SnapshotData) : SnapshotInput where
  header :=
    { vaultId := ⟨0⟩, itemId := ⟨0⟩, snapshotId := ⟨0⟩, author := ⟨9⟩, itemSchemaVersion := .v1,
      vaultKeyEpoch := 1, covered := .ofDots covered, vaultKeyEpoch_lt := Lib.one_lt_u32 }
  data

namespace ItemMerge

/-! ### Operations -/

/-- What recording a header can do. -/
theorem recordHeader_cases (m : ItemMerge) (header : OpHeader) :
    (∃ e, m.recordHeader header = (m, .error e)) ∨
    (m.headers[header.dot]? = some ⟨header.hlc, header.causalContext⟩ ∧
      m.recordHeader header = (m, .ok ())) ∨
    (m.headers[header.dot]? = none ∧
      m.recordHeader header = ({ m with
        headers := m.headers.insert header.dot ⟨header.hlc, header.causalContext⟩ }, .ok ())) := by
  unfold recordHeader
  cases m.checkRecord header.itemId header.itemSchemaVersion with
  | error e => exact .inl ⟨e, rfl⟩
  | ok _ =>
    cases hheld : m.headers[header.dot]? with
    | none => exact .inr (.inr ⟨rfl, rfl⟩)
    | some held =>
      by_cases hf : held = ⟨header.hlc, header.causalContext⟩
      · exact .inr (.inl ⟨by rw [hf], if_pos hf⟩)
      · exact .inl ⟨_, if_neg hf⟩

/-- A recorded header is the one held for its dot, and no other header changed. -/
theorem recordHeader_ok {m m' : ItemMerge} {header : OpHeader}
    (h : m.recordHeader header = (m', .ok ())) :
    m' = { m with headers := m'.headers } ∧
      ∀ (d : Dot) (f : HeaderFacts), m'.headers[d]? = some f ↔
        m.headers[d]? = some f ∨ header.dot = d ∧ ⟨header.hlc, header.causalContext⟩ = f := by
  rcases m.recordHeader_cases header with ⟨e, he⟩ | ⟨hf, he⟩ | ⟨hf, he⟩
  · rw [he] at h
    cases h
  · rw [he] at h
    cases h
    refine ⟨rfl, fun d f => ⟨.inl, ?_⟩⟩
    rintro (h | ⟨rfl, rfl⟩)
    · exact h
    · exact hf
  · rw [he] at h
    cases h
    refine ⟨rfl, fun d f => ?_⟩
    simp only [ExtTreeMap.getElem?_insert_iff]
    split_ifs with hd
    · subst hd
      simp [hf]
    · simp [hd]

theorem isReady_iff (m : ItemMerge) (header : OpHeader) :
    m.isReady header ↔
      m.state.vv.covers header.dot ∨ header.causalContext ≤ m.state.vv := by
  rw [← VersionVector.compare_le_iff, isReady]
  cases header.causalContext.compare m.state.vv <;> simp

/-- What merging a recorded body can do. -/
theorem mergeRecorded_cases (m : ItemMerge) (o : OpInput) :
    (o.dot ∈ m.merged ∧ m.mergeRecorded o = (m, .ok .duplicate)) ∨
    (o.dot ∉ m.merged ∧ ¬ m.isReady o.header ∧
      m.mergeRecorded o = (m, .error (.notReady o.dot))) ∨
    (o.dot ∉ m.merged ∧ m.isReady o.header ∧ ¬ m.state.vv.covers o.dot ∧
      m.mergeRecorded o = ((m.joinBody o.held).countOp, .ok .applied)) ∨
    (o.dot ∉ m.merged ∧ m.isReady o.header ∧ m.state.vv.covers o.dot ∧
      m.mergeRecorded o = (m.joinBody o.held, .ok .coveredMerged)) := by
  by_cases hd : o.dot ∈ m.merged
  · exact .inl ⟨hd, if_pos hd⟩
  · have hd' : ¬ o.header.dot ∈ m.merged := hd
    by_cases hr : m.isReady o.header
    · by_cases hc : m.state.vv.covers o.dot
      · refine .inr (.inr (.inr ⟨hd, hr, hc, ?_⟩))
        have hc' : m.state.vv.covers o.header.dot := hc
        simp [mergeRecorded, hd', hr, hc', OpInput.held]
      · refine .inr (.inr (.inl ⟨hd, hr, hc, ?_⟩))
        have hc' : ¬ m.state.vv.covers o.header.dot := hc
        simp [mergeRecorded, hd', hr, hc', OpInput.held]
    · refine .inr (.inl ⟨hd, hr, ?_⟩)
      simp [mergeRecorded, hd', hr, OpInput.dot]

/-- Merging a body fails on its header, or merges it once the header is recorded. -/
theorem mergeBody_cases (m : ItemMerge) (o : OpInput) :
    (∃ e, m.mergeBody o = (m, .error e)) ∨
    ∃ m', m.recordHeader o.header = (m', .ok ()) ∧ m.mergeBody o = m'.mergeRecorded o := by
  unfold mergeBody
  rcases m.recordHeader_cases o.header with ⟨e, he⟩ | ⟨-, he⟩ | ⟨-, he⟩
  · rw [he]
    exact .inl ⟨e, rfl⟩
  · rw [he]
    exact .inr ⟨_, rfl, rfl⟩
  · rw [he]
    exact .inr ⟨_, rfl, rfl⟩

theorem applyOp_eq (m : ItemMerge) (o : OpInput) :
    m.applyOp o = ((m.mergeBody o).1, (m.mergeBody o).2.map fun kind =>
      ⟨kind, if kind = .applied then some o.header.hlc else none, none⟩) := by
  unfold applyOp
  rcases m.mergeBody o with ⟨m', e | kind⟩
  · rfl
  · rfl

theorem isReady_of_context_eq {m : ItemMerge} {header : OpHeader}
    (h : header.causalContext = m.state.vv) : m.isReady header :=
  (m.isReady_iff header).mpr (.inr h.le)

/-- An own operation is ready, so it fails on its header or merges. -/
theorem applyOwnOp_cases (m : ItemMerge) (o : OpInput) (own : OwnWrite) :
    (∃ e, m.applyOwnOp o own = (m, .error e)) ∨
    (o.context = m.state.vv ∧ ¬ m.state.vv.covers o.dot ∧
      (o.data.lifecycle = .purge → m.mayPurge own.holdsUnappliedRecord) ∧
      ∃ kind due, (m.mergeBody o).2 = .ok kind ∧
        m.applyOwnOp o own = ((m.mergeBody o).1, .ok ⟨kind, none, due⟩)) := by
  unfold applyOwnOp
  cases m.checkRecord o.header.itemId o.header.itemSchemaVersion with
  | error e => exact .inl ⟨e, rfl⟩
  | ok _ =>
    simp only
    by_cases hcur : o.header.causalContext ≠ m.state.vv ∨ m.state.vv.covers o.header.dot
    · rw [if_pos hcur]
      exact .inl ⟨_, rfl⟩
    · rw [if_neg hcur]
      obtain ⟨hctx, hcov⟩ := not_or.mp hcur
      have hctx : o.header.causalContext = m.state.vv := not_not.mp hctx
      split_ifs with hpurge
      · exact .inl ⟨_, rfl⟩
      all_goals
        have hmay : o.data.lifecycle = .purge → m.mayPurge own.holdsUnappliedRecord := by
          intro hp
          simpa [hp] using hpurge
        rcases m.mergeBody_cases o with ⟨e, he⟩ | ⟨m', hm', he⟩
        · rw [he]
          exact .inl ⟨e, rfl⟩
        · have hstate : m'.state = m.state := by rw [(recordHeader_ok hm').1]
          have hready : m'.isReady o.header := isReady_of_context_eq (hctx.trans (by rw [hstate]))
          rcases m'.mergeRecorded_cases o with ⟨-, hr⟩ | ⟨-, hr, -⟩ | ⟨-, -, -, hr⟩ | ⟨-, -, -, hr⟩
          · rw [he, hr]
            exact .inr ⟨hctx, hcov, hmay, _, _, rfl, rfl⟩
          · exact absurd hready hr
          · rw [he, hr]
            exact .inr ⟨hctx, hcov, hmay, _, _, rfl, rfl⟩
          · rw [he, hr]
            exact .inr ⟨hctx, hcov, hmay, _, _, rfl, rfl⟩

/-! ### Snapshots -/

/-- Recording the operations of a response touches headers and bodies only. -/
theorem recordWith_frame (m : ItemMerge) (withOps : List OpInput) :
    ∃ headers bodies, (m.recordWith withOps).1 =
      { m with headers := headers, bodies := bodies } := by
  induction withOps generalizing m with
  | nil => exact ⟨_, _, rfl⟩
  | cons op ops ih =>
    unfold recordWith
    rcases m.recordHeader_cases op.header with ⟨e, he⟩ | ⟨-, he⟩ | ⟨-, he⟩
    · rw [he]
      exact ⟨_, _, rfl⟩
    · rw [he]
      exact ih _
    · rw [he]
      exact ih _

/-- Once every operation of a response is recorded, the headers are those before and theirs, and
their bodies are held. -/
theorem recordWith_ok {m m' : ItemMerge} {withOps : List OpInput}
    (h : m.recordWith withOps = (m', .ok ())) :
    (∀ (d : Dot) (f : HeaderFacts), m'.headers[d]? = some f ↔
      m.headers[d]? = some f ∨ ∃ op ∈ withOps, op.dot = d ∧ op.facts = f) ∧
      m'.bodies = withOps.foldl (fun bodies op => bodies.insert op.dot op.held) m.bodies := by
  induction withOps generalizing m with
  | nil =>
    cases h
    simp
  | cons op ops ih =>
    unfold recordWith at h
    rcases hm : m.recordHeader op.header with ⟨m₁, e | ⟨⟩⟩
    · rw [hm] at h
      cases h
    · rw [hm] at h
      obtain ⟨hm₁, hheaders⟩ := recordHeader_ok hm
      obtain ⟨ihh, ihb⟩ := ih h
      refine ⟨fun d f => ?_, ?_⟩
      · rw [ihh, List.exists_mem_cons_iff, ← or_assoc]
        exact or_congr_left (hheaders d f)
      · have hbodies : m₁.bodies = m.bodies := by rw [hm₁]
        rw [ihb, List.foldl_cons, ← hbodies]
        rfl

/-- A snapshot is refused and nothing changes, or its cut is absorbed. -/
theorem absorbRecorded_cases (m : ItemMerge) (snapshot : SnapshotInput) :
    (∃ r cuts, m.absorbRecorded snapshot = (m, ⟨.refused r, cuts⟩)) ∨
    ∃ c, cut (State.fromSnapshot snapshot.header.covered snapshot.data) (heads m.evidence)
        m.evidence = .ok c ∧
      contradiction c.state m.bodies m.evidence = none ∧
      m.absorbRecorded snapshot = (m.absorbCut c (disagreements m.state c.state m.bodies m.evidence),
        ⟨.absorbed ⟨c.state.vv.compare m.state.vv, c.state.maxHlc,
          disagreements m.state c.state m.bodies m.evidence, c.ignored⟩,
          claimCuts snapshot.header.covered (heads m.evidence) snapshot.header.author⟩) := by
  unfold absorbRecorded
  simp only
  cases hcut : cut (State.fromSnapshot snapshot.header.covered snapshot.data) (heads m.evidence)
      m.evidence with
  | error r => exact .inl ⟨r, _, rfl⟩
  | ok c =>
    simp only
    cases hcon : contradiction c.state m.bodies m.evidence with
    | some r => exact .inl ⟨r, _, rfl⟩
    | none => exact .inr ⟨c, rfl, hcon, rfl⟩

/-- Absorbing a snapshot fails on the record, fails on an operation of the response, or takes the
snapshot once they are recorded. -/
theorem absorbSnapshot_cases (m : ItemMerge) (snapshot : SnapshotInput) (withOps : List OpInput) :
    (∃ e, m.absorbSnapshot snapshot withOps = (m, .error e)) ∨
    (∃ m' e, m.recordWith withOps = (m', .error e) ∧
      m.absorbSnapshot snapshot withOps = (m', .error e)) ∨
    ∃ m', m.recordWith withOps = (m', .ok ()) ∧
      m.absorbSnapshot snapshot withOps =
        ((m'.absorbRecorded snapshot).1, .ok (m'.absorbRecorded snapshot).2) := by
  unfold absorbSnapshot
  cases m.checkRecord snapshot.header.itemId snapshot.header.itemSchemaVersion with
  | error e => exact .inl ⟨e, rfl⟩
  | ok _ =>
    rcases m.recordWith withOps with ⟨m', e | ⟨⟩⟩
    · exact .inr (.inl ⟨m', e, rfl, rfl⟩)
    · exact .inr (.inr ⟨m', rfl, rfl⟩)

/-- No snapshot is written and nothing changes, or the state becomes the basis. -/
theorem writeSnapshot_cases (m : ItemMerge) :
    (∃ e, m.writeSnapshot = (m, .error e)) ∨
    ∃ data, m.state.isAbsent = false ∧ m.unresolved.isEmpty ∧ m.encode = .ok data ∧
      m.writeSnapshot = ({ m with base := m.state, retained := ∅, opsSinceSnapshot := 0 },
        .ok ⟨m.state.vv, data⟩) := by
  unfold writeSnapshot
  by_cases ha : m.state.isAbsent
  · exact .inl ⟨_, if_pos ha⟩
  · rw [if_neg ha]
    by_cases hu : m.unresolved.isEmpty
    · rw [if_neg (by simp [hu])]
      cases he : m.encode with
      | error e => exact .inl ⟨e, rfl⟩
      | ok data => exact .inr ⟨data, by simpa using ha, hu, rfl, rfl⟩
    · exact .inl ⟨_, if_pos (by simpa using hu)⟩

/-- A re-issue fails and changes nothing, or re-keys a merged operation. -/
theorem reissueOwnOp_cases (m : ItemMerge) (header : OpHeader) (keyId : SymmetricKeyId)
    (reissue : Reissue) :
    (∃ e, m.reissueOwnOp header keyId reissue = (m, .error e)) ∨
    ∃ due, m.headers[header.dot]? = some ⟨header.hlc, header.causalContext⟩ ∧
      header.dot ∈ m.merged ∧
      m.reissueOwnOp header keyId reissue = ({ m with
        bodies := rekeyBody m.bodies header.dot keyId
        retained := rekeyBody m.retained header.dot keyId
        state := rekeyPurge m.state header.dot keyId
        base := rekeyPurge m.base header.dot keyId }, .ok due) := by
  unfold reissueOwnOp
  cases m.checkRecord header.itemId header.itemSchemaVersion with
  | error e => exact .inl ⟨e, rfl⟩
  | ok _ =>
    simp only
    by_cases hsame : ¬ m.headers[header.dot]? = some ⟨header.hlc, header.causalContext⟩ ∨
        header.dot ∉ m.merged
    · rw [if_pos hsame]
      exact .inl ⟨_, rfl⟩
    · rw [if_neg hsame]
      obtain ⟨hf, hm⟩ := not_or.mp hsame
      exact .inr ⟨_, not_not.mp hf, not_not.mp hm, rfl⟩

end ItemMerge

end RizzyVault.Sync
