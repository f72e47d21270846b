import RizzyVault.Client.Lists
import RizzyVault.Sync.Merge.Encoding

/-!
# One own operation on an item

An edit of this device becomes one operation: its writes sorted by key, each key once, within the
limits of the record format. Applied to the item, its values take the place of every value of the
keys it writes, and no other register changes.

## Main definitions

* `ownOpData`: the data of an own operation.

## Main results

* `ownOpData_eq_ok_iff`: the edits that become an operation, and its data.
* `applyOwnOp_live`: what an own operation does to the registers of an item.

## References

* `crates/rizzy-client/src/sync.rs`.
-/

open RizzyVault.Core RizzyVault.Sync RizzyVault.Lib

namespace RizzyVault.Client.Lists

open Std (ExtTreeMap ExtTreeSet)
open Relation (ReflTransGen)

/-! ### The data of an own operation -/

/-- One write with its key checked. -/
def ownWrite (w : Bytes × Bytes) : Except EditError Write :=
  match FieldKey.new w.1 with
  | .ok key => .ok ⟨key, w.2⟩
  | .error _ => .error .invalidEdit

/-- Whether two neighbours have one key. -/
def repeatsKey (sorted : List (Bytes × Bytes)) : Bool :=
  (sorted.zip sorted.tail).any fun e => e.1.1 = e.2.1

/-- The writes in key order. -/
def sortedWrites (writes : List (Bytes × Bytes)) : List (Bytes × Bytes) :=
  writes.insertionSort fun a b => a.1 ≤ b.1

/-- The data of an own operation: encoded, and parsed back as every reader will. -/
def ownOpData (lifecycle : Lifecycle) (writes : List (Bytes × Bytes)) :
    Except EditError OpData :=
  let sorted := sortedWrites writes
  if repeatsKey sorted then .error .invalidEdit
  else do
    let writes ← sorted.mapM ownWrite
    match Record.encodeOp ⟨lifecycle, writes⟩ with
    | .error _ => .error .invalidEdit
    | .ok plaintext =>
      match Record.parseOp plaintext with
      | .ok data => .ok data
      | .error _ => .error .invalidEdit

/-- The writes of an operation as bytes. -/
def rawWrites (data : OpData) : List (Bytes × Bytes) :=
  data.writes.map fun w => (w.key.bytes, w.value)

theorem fieldKey_new_eq_ok {bytes : Bytes} {key : FieldKey} :
    FieldKey.new bytes = .ok key ↔ key.bytes = bytes ∧ grammarKey bytes = .ok () := by
  unfold FieldKey.new
  split
  · rename_i h
    rw [and_iff_left h, Except.ok.injEq]
    constructor
    · rintro rfl
      rfl
    · exact fun hb => (FieldKey.eq_of_bytes hb).symm
  · rename_i kind h
    refine iff_of_false (by simp) fun h' => ?_
    rw [h] at h'
    cases h'.2

theorem ownWrite_eq_ok {w : Bytes × Bytes} {out : Write} :
    ownWrite w = .ok out ↔ (out.key.bytes, out.value) = w ∧ grammarKey w.1 = .ok () := by
  obtain ⟨key, value⟩ := w
  unfold ownWrite
  cases hk : FieldKey.new key with
  | error e =>
    refine iff_of_false (by simp) ?_
    rintro ⟨heq, hg⟩
    cases heq
    rw [fieldKey_new_eq_ok.mpr ⟨rfl, hg⟩] at hk
    cases hk
  | ok key' =>
    obtain ⟨rfl, hg⟩ := fieldKey_new_eq_ok.mp hk
    simp only [Except.ok.injEq, hg, and_true, Prod.mk.injEq]
    constructor
    · rintro rfl
      exact ⟨rfl, rfl⟩
    · rintro ⟨hb, rfl⟩
      obtain rfl : out.key = key' := FieldKey.eq_of_bytes hb
      rfl

theorem raw_of_mapM {sorted : List (Bytes × Bytes)} {ws : List Write}
    (h : sorted.mapM ownWrite = .ok ws) : ws.map (fun w => (w.key.bytes, w.value)) = sorted := by
  have hall := mapM_eq_ok_forall₂ h
  clear h
  induction hall with
  | nil => rfl
  | cons hw _ ih => rw [List.map_cons, ih, (ownWrite_eq_ok.mp hw).1]

/-- The writes that make an own operation, and its data. -/
theorem ownOpData_eq_ok {lifecycle : Lifecycle} {writes : List (Bytes × Bytes)} {data : OpData}
    (h : ownOpData lifecycle writes = .ok data) :
    data.lifecycle = lifecycle ∧ rawWrites data = sortedWrites writes ∧
      Record.OpRules Limits.v1 data := by
  simp only [ownOpData] at h
  split_ifs at h
  obtain ⟨ws, hws, h⟩ := except_bind_eq_ok.mp h
  have hraw : ws.map (fun w => (w.key.bytes, w.value)) = sortedWrites writes := raw_of_mapM hws
  split at h
  · cases h
  · rename_i plaintext hencode
    split at h
    · rename_i data' hparse
      cases h
      obtain ⟨hrules, rfl⟩ := Record.encodeOp_eq_ok_iff.mp hencode
      have hsame : Record.opWith (Record.putOp ⟨lifecycle, ws⟩) Limits.v1 = .ok ⟨lifecycle, ws⟩ :=
        (Record.opWith_eq_ok_iff Record.fit_v1 (by decide) _ _).mpr ⟨hrules, rfl⟩
      cases hparse.symm.trans hsame
      exact ⟨rfl, hraw, hrules⟩
    · cases h

/-- The writes of an operation are those of the edit. -/
theorem mem_rawWrites {lifecycle : Lifecycle} {writes : List (Bytes × Bytes)} {data : OpData}
    (h : ownOpData lifecycle writes = .ok data) {w : Bytes × Bytes} :
    w ∈ rawWrites data ↔ w ∈ writes := by
  rw [(ownOpData_eq_ok h).2.1, sortedWrites, List.mem_insertionSort]

/-! ### The fields of a live item -/

/-- Every key held is a key of the record layer. -/
def KeysValid (l : Live) : Prop :=
  ∀ k, k ∈ l.regs.keys ∨ k ∈ l.hist.keys → ∃ key : FieldKey, key.bytes = k

theorem exists_key_of_regsTo {regs : Regs} {registers : List Register}
    (h : regsTo regs = .ok registers) {k : Bytes} (hk : k ∈ regs.keys) :
    ∃ key : FieldKey, key.bytes = k := by
  obtain ⟨values, hv⟩ := (ExtTreeMap.mem_keys_iff _ _).mp hk
  rw [regsTo_eq_mapM] at h
  obtain ⟨reg, -, hreg⟩ := mapM_eq_ok_exists h (k, values)
    (ExtTreeMap.mem_toList_iff_getElem?_eq_some.mpr hv)
  exact ⟨reg.key, (registerOf_ok hreg).1⟩

/-- An item that shows a key is live, and all its keys are valid. -/
theorem live_of_mem_fieldKeys {m : ItemMerge} {k : Bytes} (h : k ∈ m.fieldKeys) :
    ∃ l, m.state.shape = .live l ∧ KeysValid l := by
  unfold ItemMerge.fieldKeys ItemMerge.snapshotData State.snapshotData at h
  split at h
  · rename_i live hdata
    split_ifs at hdata
    · cases hdata
    · cases hs : m.state.shape with
      | tomb t =>
        rw [hs] at hdata
        obtain ⟨late, -, hdata⟩ := except_bind_eq_ok.mp hdata
        cases hdata
      | live l =>
        rw [hs] at hdata
        obtain ⟨registers, hregs, hdata⟩ := except_bind_eq_ok.mp hdata
        obtain ⟨history, hhist, -⟩ := except_bind_eq_ok.mp hdata
        exact ⟨l, rfl,
          fun k hk => hk.elim (exists_key_of_regsTo hregs) (exists_key_of_regsTo hhist)⟩
  · cases h

/-- A live item with valid keys shows the keys of its registers. -/
theorem mem_fieldKeys {m : ItemMerge} {l : Live} (hl : m.state.shape = .live l) (hk : KeysValid l)
    {k : Bytes} : k ∈ m.fieldKeys ↔ k ∈ l.regs.keys ∧ k ≠ lifecycleKey := by
  obtain ⟨registers, hregs, -, hof, hall⟩ :
      ∃ registers, regsTo l.regs = .ok registers ∧ RegistersOf l.regs registers :=
    exists_registersOf fun k h => hk k (.inl h)
  obtain ⟨history, hhist, -⟩ :
      ∃ history, regsTo l.hist = .ok history ∧ RegistersOf l.hist history :=
    exists_registersOf fun k h => hk k (.inr h)
  unfold ItemMerge.fieldKeys ItemMerge.snapshotData State.snapshotData
  split_ifs with habsent
  · refine iff_of_false (by simp) fun h => ?_
    rw [State.isAbsent, hl, Bool.and_eq_true, ExtTreeMap.isEmpty_iff] at habsent
    rw [habsent.1] at h
    simp at h
  · simp only [hl, hregs, hhist]
    simp only [bind, Except.bind, pure, Except.pure, List.mem_filter, List.mem_map,
      decide_eq_true_eq]
    refine and_congr_left fun _ => ⟨?_, fun h => ?_⟩
    · rintro ⟨reg, hreg, rfl⟩
      obtain ⟨values, hv, -⟩ := hof reg hreg
      exact (ExtTreeMap.mem_keys_iff _ _).mpr ⟨values, hv⟩
    · obtain ⟨reg, hreg, rfl⟩ := hall k h
      exact ⟨reg, hreg, rfl⟩

/-- What a field of a live item displays. -/
theorem fieldValue_eq {m : ItemMerge} {l : Live} (hl : m.state.shape = .live l) (key : FieldKey) :
    m.fieldValue key.bytes =
      (shownValue (lookup l.regs key.bytes)).bind fun b => (Value.copyFromEncoded b).toOption := by
  unfold ItemMerge.fieldValue ItemMerge.field
  simp only [hl, lookup_eq_getD, fieldKey_bytes]
  cases l.regs[key.bytes]? with
  | none => rfl
  | some current =>
    simp only [Option.bind_eq_bind, Option.bind_some, shownValue, Option.getD_some,
      List.getElem?_map, Option.bind_assoc, Option.bind_map]
    rfl

/-! ### What is held is covered -/

/-- Every value held is of an operation the state covers. -/
def Covered (m : ItemMerge) : Prop :=
  (∀ k, ∀ v ∈ m.state.shape.valuesAt k, m.state.vv.covers v.dot) ∧
    ∀ d ∈ m.merged, m.state.vv.covers d

theorem covered_new (itemId : ItemId) : Covered (ItemMerge.new itemId) := by
  refine ⟨fun k v hv => absurd hv ?_, fun d hd => absurd hd (by simp [ItemMerge.new])⟩
  change v ∉ lookup ∅ k ++ lookup ∅ k
  simp [lookup_empty]

theorem dot_of_mem_singleton {op : HeldOp} {k : Bytes} {v : Val}
    (hv : v ∈ (Sync.singleton op).shape.valuesAt k) : v.dot = op.dot := by
  have hfold : ∀ (ws : List (Bytes × Bytes)) (regs : Regs),
      (∀ u ∈ lookup regs k, u.dot = op.dot) →
      ∀ u ∈ lookup (ws.foldl (fun regs write =>
        regs.insert write.1 [⟨op.dot, op.hlc, write.2⟩]) regs) k, u.dot = op.dot := by
    intro ws
    induction ws with
    | nil => exact fun regs h => h
    | cons w ws ih =>
      refine fun regs h => ih _ fun u hu => ?_
      rw [lookup_eq_getD, ExtTreeMap.getElem?_insert_iff] at hu
      split_ifs at hu
      · obtain rfl := List.mem_singleton.mp hu
        rfl
      · exact h u (by rwa [lookup_eq_getD])
  have hempty : ∀ u ∈ lookup ∅ k, u.dot = op.dot := by simp [lookup_empty]
  have hlive : ∀ u ∈ lookup (op.writesWithLifecycle.foldl (fun regs write =>
      regs.insert write.1 [⟨op.dot, op.hlc, write.2⟩]) ∅) k ++ lookup ∅ k, u.dot = op.dot := by
    rw [lookup_empty, List.append_nil]
    exact hfold _ _ hempty
  unfold Sync.singleton at hv
  cases hl : op.lifecycle with
  | purge =>
    rw [hl] at hv
    exact hempty v hv
  | active =>
    rw [hl] at hv
    exact hlive v hv
  | trashed =>
    rw [hl] at hv
    exact hlive v hv

/-- A call keeps what is held covered. -/
theorem Covered.call {m : ItemMerge} (h : Covered m) (c : Call) : Covered (m.call c) := by
  refine ⟨?_, ItemMerge.covers_of_merged_call h.2 c⟩
  rcases m.call_state c with hs | ⟨d, keyId, hs⟩ | ⟨o, -, -, -, hs⟩ | ⟨taken, htaken, -, hs⟩
  · rw [hs]
    exact h.1
  · rw [hs]
    intro k v hv
    rw [valuesAt_rekeyPurge] at hv
    exact (grows_rekeyPurge _ _ _).vv _ (h.1 k v hv)
  · rw [hs]
    intro k v hv
    change (m.state.vv ⊔ (Sync.singleton o.held).vv).covers v.dot
    rw [VersionVector.covers_sup]
    rcases mem_valuesAt_joinInto hv with hv | hv
    · exact .inl (h.1 k v hv)
    · rw [dot_of_mem_singleton hv]
      exact .inr (VersionVector.covers_add.mpr (.inr ⟨rfl, le_rfl⟩))
  · rw [hs]
    intro k v hv
    obtain ⟨snapshot, withOps, absorbed, cuts, ignored, -, -, hcut⟩ := htaken
    change (m.state.vv ⊔ taken.vv).covers v.dot
    rw [VersionVector.covers_sup]
    rcases mem_valuesAt_joinInto hv with hv | hv
    · exact .inl (h.1 k v hv)
    · exact .inr ((cut_spec hcut).covered k v (mem_valuesAt_normalize hv))

theorem covered_callAll (itemId : ItemId) (calls : List Call) :
    Covered ((ItemMerge.new itemId).callAll calls) := by
  have h : ∀ (calls : List Call) (m : ItemMerge), Covered m → Covered (m.callAll calls) := by
    intro calls
    induction calls with
    | nil => exact fun m hm => hm
    | cons c calls ih => exact fun m hm => ih _ (hm.call c)
  exact h calls _ (covered_new itemId)

/-! ### What an own operation changes -/

/-- The registers of a live item after an own operation. -/
structure Wrote (o : OpInput) (l l' : Live) : Prop where
  /-- A key it does not write keeps its values. -/
  frame : ∀ k, k ∉ o.held.writesWithLifecycle.map Prod.fst →
    lookup l'.regs k = lookup l.regs k ∧ lookup l'.hist k = lookup l.hist k
  /-- A key it writes has no other current value. -/
  current : ∀ k w, (k, w) ∈ o.held.writesWithLifecycle →
    ∀ v ∈ lookup l'.regs k, v = ⟨o.dot, o.header.hlc, w⟩
  keys : ∀ k, k ∈ l'.regs.keys ∨ k ∈ l'.hist.keys →
    k ∈ l.regs.keys ∨ k ∈ l.hist.keys ∨ k ∈ o.held.writesWithLifecycle.map Prod.fst

/-- The registers of an operation that is no purge. -/
def opRegs (op : HeldOp) : Regs :=
  op.writesWithLifecycle.foldl (fun regs w => regs.insert w.1 [⟨op.dot, op.hlc, w.2⟩]) ∅

theorem shape_singleton {op : HeldOp} (hp : op.lifecycle ≠ .purge) :
    (Sync.singleton op).shape = .live ⟨opRegs op, ∅⟩ := by
  unfold Sync.singleton opRegs
  cases hl : op.lifecycle with
  | purge => exact absurd hl hp
  | active => rfl
  | trashed => rfl

theorem mem_keys_opRegs {op : HeldOp} {k : Bytes} :
    k ∈ (opRegs op).keys ↔ k ∈ op.writesWithLifecycle.map Prod.fst := by
  have hfold : ∀ (ws : List (Bytes × Bytes)) (regs : Regs),
      k ∈ (ws.foldl (fun regs w => regs.insert w.1 [(⟨op.dot, op.hlc, w.2⟩ : Val)]) regs).keys ↔
        k ∈ regs.keys ∨ k ∈ ws.map Prod.fst := by
    intro ws
    induction ws with
    | nil => simp
    | cons w ws ih =>
      intro regs
      rw [List.foldl_cons, ih, List.map_cons, List.mem_cons, ExtTreeMap.mem_keys,
        ExtTreeMap.mem_keys, ExtTreeMap.mem_insert, compare_eq_iff_eq, eq_comm]
      tauto
  rw [opRegs, hfold]
  simp

theorem mem_keysOf_opRegs {op : HeldOp} {k : Bytes} :
    k ∈ keysOf [opRegs op, ∅] ↔ k ∈ op.writesWithLifecycle.map Prod.fst := by
  rw [mem_keysOf, ← mem_keys_opRegs]
  simp

theorem valuesAt_opRegs {op : HeldOp} (hwf : op.WellFormed) {k w : Bytes}
    (hw : (k, w) ∈ op.writesWithLifecycle) :
    (⟨opRegs op, ∅⟩ : Live).valuesAt k = [⟨op.dot, op.hlc, w⟩] := by
  rw [Live.valuesAt, lookup_empty, List.append_nil, opRegs,
    lookup_foldl_insert (fun value => ⟨op.dot, op.hlc, value⟩) _ hwf]
  cases hf : op.writesWithLifecycle.find? fun w => w.1 = k with
  | none => exact absurd (decide_eq_true rfl) (List.find?_eq_none.mp hf (k, w) hw)
  | some u =>
    have hk := List.find?_some hf
    have hu : u ∈ op.writesWithLifecycle := List.mem_of_find?_eq_some hf
    cases List.inj_on_of_nodup_map hwf hu hw (of_decide_eq_true hk)
    rfl

/-- A join holds a key only if the live item did or the other one has it. -/
theorem keys_joinLiveInto {x y : Live} {ev : Evidence} {k : Bytes} :
    (k ∈ (joinLiveInto x y ev).regs.keys → k ∈ x.regs.keys ∨ k ∈ keysOf [y.regs, y.hist]) ∧
      (k ∈ (joinLiveInto x y ev).hist.keys → k ∈ x.hist.keys ∨ k ∈ keysOf [y.regs, y.hist]) := by
  have hset : ∀ (regs : Regs) (key : Bytes) (vs : List Val), k ∈ (setOrRemove regs key vs).keys →
      k ∈ regs.keys ∨ k = key := by
    intro regs key vs hk
    unfold setOrRemove at hk
    split_ifs at hk
    · exact .inl (ExtTreeMap.mem_keys.mpr
        (ExtTreeMap.mem_of_mem_erase (ExtTreeMap.mem_keys.mp hk)))
    · rw [ExtTreeMap.mem_keys, ExtTreeMap.mem_insert, compare_eq_iff_eq] at hk
      exact hk.symm.imp ExtTreeMap.mem_keys.mpr Eq.symm
  have hfold : ∀ (keys : List Bytes) (x : Live),
      (k ∈ (keys.foldl (fun x key =>
        setLiveKey x key (valuesOf key [x.regs, x.hist, y.regs, y.hist]) ev) x).regs.keys →
          k ∈ x.regs.keys ∨ k ∈ keys) ∧
      (k ∈ (keys.foldl (fun x key =>
        setLiveKey x key (valuesOf key [x.regs, x.hist, y.regs, y.hist]) ev) x).hist.keys →
          k ∈ x.hist.keys ∨ k ∈ keys) := by
    intro keys
    induction keys with
    | nil => exact fun x => ⟨.inl, .inl⟩
    | cons key keys ih =>
      refine fun x => ⟨fun hk => ?_, fun hk => ?_⟩
      · rcases (ih _).1 hk with hk | hk
        · exact (hset _ _ _ hk).imp_right fun h => List.mem_cons.mpr (.inl h)
        · exact .inr (List.mem_cons_of_mem _ hk)
      · rcases (ih _).2 hk with hk | hk
        · exact (hset _ _ _ hk).imp_right fun h => List.mem_cons.mpr (.inl h)
        · exact .inr (List.mem_cons_of_mem _ hk)
  exact hfold _ x

/-- A key the other item does not have is left as it is. -/
theorem getElem?_joinLiveInto {x y : Live} {ev : Evidence} {k : Bytes}
    (hk : k ∉ keysOf [y.regs, y.hist]) : (joinLiveInto x y ev).regs[k]? = x.regs[k]? := by
  have hset : ∀ (regs : Regs) (key : Bytes) (vs : List Val), key ≠ k →
      (setOrRemove regs key vs)[k]? = regs[k]? := by
    intro regs key vs hne
    unfold setOrRemove
    split_ifs
    · rw [ExtTreeMap.getElem?_erase, if_neg (mt compare_eq_iff_eq.mp hne)]
    · rw [ExtTreeMap.getElem?_insert_iff, if_neg hne]
  have hfold : ∀ (keys : List Bytes) (x : Live), k ∉ keys →
      (keys.foldl (fun x key =>
        setLiveKey x key (valuesOf key [x.regs, x.hist, y.regs, y.hist]) ev) x).regs[k]? =
          x.regs[k]? := by
    intro keys
    induction keys with
    | nil => exact fun x _ => rfl
    | cons key keys ih =>
      intro x hnot
      obtain ⟨hne, hnot⟩ := List.ne_and_not_mem_of_not_mem_cons hnot
      exact (ih _ hnot).trans (hset _ _ _ hne.symm)
  exact hfold _ x hk

/-- An own operation that is applied is joined, with its context the state it was written on. -/
theorem applyOwnOp_joins {m m' : ItemMerge} {o : OpInput} {own : OwnWrite} {applied : Applied}
    (hm : Covered m) (h : m.applyOwnOp o own = (m', .ok applied)) :
    o.context = m.state.vv ∧ ¬ m.state.vv.covers o.dot ∧ m'.headers[o.dot]? = some o.facts ∧
      m'.state = joinInto m.state (Sync.singleton o.held) m'.evidence := by
  rcases m.applyOwnOp_cases o own with ⟨e, he⟩ | ⟨hctx, hnot, -, kind, due, hkind, he⟩
  · rw [he] at h
    cases h
  · rw [he] at h
    obtain ⟨rfl, -⟩ := Prod.mk.inj h
    refine ⟨hctx, hnot, ?_⟩
    rcases m.mergeBody_state o with ⟨hstate, hmerged⟩ | ⟨-, -, hrec, hstate⟩
    · exfalso
      rcases m.mergeBody_cases o with ⟨e, hb⟩ | ⟨m₁, hrecord, hb⟩
      · rw [hb] at hkind
        cases hkind
      · have hsame : m₁.merged = m.merged := by rw [(ItemMerge.recordHeader_ok hrecord).1]
        rcases m₁.mergeRecorded_cases o with ⟨hd, -⟩ | ⟨-, -, hr⟩ | ⟨hd, -, -, hr⟩ |
          ⟨hd, -, -, hr⟩
        · exact hnot (hm.2 _ (hsame ▸ hd))
        · rw [hb, hr] at hkind
          cases hkind
        all_goals
          rw [hb, hr] at hmerged
          rw [hsame, ← hmerged] at hd
          exact hd (ExtTreeSet.mem_insert.mpr (.inl (compare_eq_iff_eq.mpr rfl)))
    · exact ⟨hrec, hstate⟩

theorem applyOwnOp_shape {m m' : ItemMerge} {o : OpInput} {own : OwnWrite} {applied : Applied}
    {l : Live} (hm : Covered m) (hp : o.data.lifecycle ≠ .purge) (hl : m.state.shape = .live l)
    (h : m.applyOwnOp o own = (m', .ok applied)) :
    m'.state.shape = .live (joinLiveInto l ⟨opRegs o.held, ∅⟩ m'.evidence) := by
  have hs : (Sync.singleton o.held).shape = .live ⟨opRegs o.held, ∅⟩ := shape_singleton hp
  rw [(applyOwnOp_joins hm h).2.2.2]
  simp only [joinInto, hl, hs]

/-- An own operation writes its values over all that is held at its keys. -/
theorem applyOwnOp_live {m m' : ItemMerge} {o : OpInput} {own : OwnWrite} {applied : Applied}
    {l : Live} (hm : Covered m) (hwf : o.data.WellFormed) (hp : o.data.lifecycle ≠ .purge)
    (hl : m.state.shape = .live l) (h : m.applyOwnOp o own = (m', .ok applied)) :
    ∃ l', m'.state.shape = .live l' ∧ Wrote o l l' := by
  obtain ⟨hctx, hnot, hrec, -⟩ := applyOwnOp_joins hm h
  refine ⟨_, applyOwnOp_shape hm hp hl h, ⟨fun k hk => ?_, fun k w hw v hv => ?_, fun k hk => ?_⟩⟩
  · obtain ⟨hr, hh⟩ := lookup_joinLiveInto l ⟨opRegs o.held, ∅⟩ m'.evidence k
    have hkeys : k ∉ keysOf [opRegs o.held, ∅] := mt mem_keysOf_opRegs.mp hk
    rw [if_neg hkeys] at hr hh
    exact ⟨hr, hh⟩
  · have hkeys : k ∈ keysOf [opRegs o.held, ∅] :=
      mem_keysOf_opRegs.mpr (List.mem_map.mpr ⟨(k, w), hw, rfl⟩)
    rw [(lookup_joinLiveInto l ⟨opRegs o.held, ∅⟩ m'.evidence k).1, if_pos hkeys,
      valuesAt_opRegs hwf.held hw] at hv
    obtain ⟨hver, hnone⟩ := mem_maximal_fst.mp hv
    rcases List.mem_append.mp hver.1 with hold | hown
    · -- What was held before is covered by the context of the operation.
      have hcov : m.state.vv.covers v.dot := by
        refine hm.1 k v ?_
        rw [hl]
        exact hold
      refine absurd ?_ (hnone ⟨o.dot, o.header.hlc, w⟩ (List.mem_append_right _
        List.mem_cons_self))
      have hne : o.dot ≠ v.dot := by
        rintro heq
        exact hnot (by rwa [heq])
      refine ⟨hne, m.state.vv, ?_, hcov⟩
      rw [Evidence.context]
      change m'.headers[o.dot]?.map HeaderFacts.context = _
      rw [hrec, ← hctx]
      rfl
    · exact List.mem_singleton.mp hown
  · rcases hk with hk | hk
    · exact (keys_joinLiveInto.1 hk).imp_right fun h => .inr (mem_keysOf_opRegs.mp h)
    · exact .inr ((keys_joinLiveInto.2 hk).imp_right mem_keysOf_opRegs.mp)

end RizzyVault.Client.Lists
