import RizzyVault.Sync.Merge.Calls
import RizzyVault.Sync.Merge.Content

/-!
# What the checks on a snapshot establish

The cut leaves values that recorded headers vouch for, and a purge and a purge context within the
cut vector. A cut snapshot without a contradiction carries only what the known bodies wrote.

## Main results

* `CutSpec`, `cut_spec`: what the cut leaves.
* `ConsistentWith`, `consistentWith_of_contradiction`: what the absence of a contradiction says.
-/

open RizzyVault.Core RizzyVault.Lib

namespace RizzyVault.Sync

open Std (ExtTreeMap ExtTreeSet)

variable {ev : Evidence} {s : State} {bodies : Bodies}

/-! ### Values by key -/

theorem mem_regsValues {regs : Regs} {k : Bytes} {v : Val} :
    (k, v) ∈ State.regsValues regs ↔ v ∈ lookup regs k := by
  rw [State.regsValues, List.mem_flatMap, lookup_eq_getD]
  constructor
  · rintro ⟨⟨key, values⟩, hmem, hv⟩
    obtain ⟨u, hu, heq⟩ := List.mem_map.mp hv
    cases heq
    rw [ExtTreeMap.mem_toList_iff_getElem?_eq_some] at hmem
    rw [hmem]
    exact hu
  · intro hv
    cases hx : regs[k]? with
    | none => simp [hx] at hv
    | some values =>
      rw [hx] at hv
      exact ⟨(k, values), ExtTreeMap.mem_toList_iff_getElem?_eq_some.mpr hx,
        List.mem_map.mpr ⟨v, hv, rfl⟩⟩

theorem State.mem_values {k : Bytes} {v : Val} : (k, v) ∈ s.values ↔ v ∈ s.shape.valuesAt k := by
  unfold State.values Shape.valuesAt
  cases s.shape with
  | live l =>
    change _ ↔ v ∈ lookup l.regs k ++ lookup l.hist k
    rw [List.mem_append, mem_regsValues, mem_regsValues, List.mem_append]
  | tomb t => exact mem_regsValues

theorem Content.mem_ofState_vals {k : Bytes} {v : Val} :
    v ∈ (Content.ofState s).vals k ↔ v ∈ s.shape.valuesAt k := List.mem_toFinset

theorem OpData.WellFormed.held {o : OpInput} (h : o.data.WellFormed) : o.held.WellFormed := by
  have hwrites : (o.held.writes.map Prod.fst).Nodup := by
    rw [List.Nodup, List.pairwise_map]
    exact List.pairwise_map.mpr (h.ascending.imp fun hlt => hlt.ne)
  have hmarker : lifecycleKey ∉ o.held.writes.map Prod.fst := by
    intro hmem
    obtain ⟨w, hw, hk⟩ := List.mem_map.mp hmem
    obtain ⟨w', hw', rfl⟩ := List.mem_map.mp hw
    exact h.not_lifecycle w' hw' hk
  unfold HeldOp.WellFormed HeldOp.writesWithLifecycle
  cases o.held.lifecycle.registerValue with
  | none => exact hwrites
  | some v => exact List.nodup_cons.mpr ⟨hmarker, hwrites⟩

/-! ### The cut -/

theorem covers_heads {d : Dot} :
    (heads ev).covers d ↔ ∃ x ∈ ev.headers, x.deviceId = d.deviceId ∧ d.seq ≤ x.seq := by
  simp [heads, VersionVector.covers_ofDots]

/-- What the cut leaves of a snapshot. -/
structure CutSpec (ev : Evidence) (s cut : State) : Prop where
  vv : cut.vv = s.vv ⊓ heads ev
  vouched : ∀ k, ∀ v ∈ cut.shape.valuesAt k, ev.hlc v.dot = some v.hlc
  mem : ∀ k, ∀ v ∈ cut.shape.valuesAt k, v ∈ s.shape.valuesAt k
  covered : ∀ k, ∀ v ∈ cut.shape.valuesAt k, cut.vv.covers v.dot
  purge : cut.shape.purge? = s.shape.purge?
  purge_covered : ∀ p ∈ cut.shape.purge?, cut.vv.covers p.dot ∧ ev.hlc p.dot = some p.hlc
  c : cut.shape.c = s.shape.c ⊓ cut.vv
  not_late : ∀ k, ∀ v ∈ cut.shape.valuesAt k, ¬ cut.shape.c.covers v.dot

theorem mem_lookup_takeRegs {vv : VersionVector} {regs : Regs} {k : Bytes} {v : Val} :
    v ∈ lookup (takeRegs vv ev regs) k ↔
      v ∈ lookup regs k ∧ vv.covers v.dot ∧ ev.hlc v.dot = some v.hlc := by
  rw [takeRegs, lookup_retainValues, List.mem_filter]
  simp [vouched]

theorem VersionVector.new_inf (a : VersionVector) : VersionVector.new ⊓ a = VersionVector.new :=
  inf_eq_left.mpr (VersionVector.new_le a)

/-- What the cut leaves of a snapshot it does not refuse. -/
theorem cut_spec {c : Cut} (h : cut s (heads ev) ev = .ok c) : CutSpec ev s c.state := by
  rcases s with ⟨vv, l | t⟩
  · cases h
    have hmem : ∀ k, ∀ v ∈ (takeRegs (vv.meet (heads ev)) ev l.regs |> (lookup · k)) ++
        (takeRegs (vv.meet (heads ev)) ev l.hist |> (lookup · k)),
        v ∈ l.valuesAt k ∧ (vv ⊓ heads ev).covers v.dot ∧ ev.hlc v.dot = some v.hlc := by
      intro k v hv
      rcases List.mem_append.mp hv with hv | hv
      · obtain ⟨hv, hcov⟩ := mem_lookup_takeRegs.mp hv
        exact ⟨List.mem_append_left _ hv, hcov⟩
      · obtain ⟨hv, hcov⟩ := mem_lookup_takeRegs.mp hv
        exact ⟨List.mem_append_right _ hv, hcov⟩
    exact
      { vv := rfl
        vouched := fun k v hv => (hmem k v hv).2.2
        mem := fun k v hv => (hmem k v hv).1
        covered := fun k v hv => (hmem k v hv).2.1
        purge := rfl
        purge_covered := fun p hp => by cases hp
        c := (VersionVector.new_inf _).symm
        not_late := fun k v _ => VersionVector.not_covers_new _ }
  · simp only [cut] at h
    split_ifs at h with hp
    cases h
    obtain ⟨hcov, hhlc⟩ := not_or.mp hp
    have hmem : ∀ k, ∀ v ∈ lookup (retainValues (takeRegs (vv.meet (heads ev)) ev t.late) fun v =>
        ¬ (t.c.meet (vv.meet (heads ev))).covers v.dot && v.dot ≠ t.purge.dot) k,
        (v ∈ lookup t.late k ∧ (vv ⊓ heads ev).covers v.dot ∧ ev.hlc v.dot = some v.hlc) ∧
          ¬ (t.c ⊓ (vv ⊓ heads ev)).covers v.dot := by
      intro k v hv
      rw [lookup_retainValues, List.mem_filter] at hv
      refine ⟨mem_lookup_takeRegs.mp hv.1, ?_⟩
      have := hv.2
      simp only [Bool.and_eq_true, decide_eq_true_eq] at this
      exact this.1
    exact
      { vv := rfl
        vouched := fun k v hv => (hmem k v hv).1.2.2
        mem := fun k v hv => (hmem k v hv).1.1
        covered := fun k v hv => (hmem k v hv).1.2.1
        purge := rfl
        purge_covered := fun p hp => by
          cases hp
          exact ⟨not_not.mp hcov, not_not.mp hhlc⟩
        c := rfl
        not_late := fun k v hv => (hmem k v hv).2 }

/-! ### Contradictions -/

theorem covers_joinContexts {p : Dot → Bool} {d : Dot} :
    (joinContexts ev p).covers d ↔
      ∃ (x : Dot) (f : HeaderFacts), ev.headers[x]? = some f ∧ p x ∧ f.context.covers d := by
  have hfold : ∀ (l : List (Dot × HeaderFacts)) (bound : VersionVector),
      (l.foldl (fun bound entry =>
        if p entry.1 then bound.join entry.2.context else bound) bound).covers d ↔
        bound.covers d ∨ ∃ e ∈ l, p e.1 ∧ e.2.context.covers d := by
    intro l
    induction l with
    | nil => simp
    | cons e l ih =>
      intro bound
      rw [List.foldl_cons, ih, List.exists_mem_cons_iff]
      by_cases hp : p e.1
      · simp only [hp, if_true, VersionVector.join_eq_sup, VersionVector.covers_sup, true_and,
          or_assoc]
      · simp only [hp, if_false, Bool.false_eq_true, false_and, false_or]
  refine (hfold _ _).trans ?_
  simp only [VersionVector.not_covers_new, false_or, Prod.exists,
    ExtTreeMap.mem_toList_iff_getElem?_eq_some]

theorem kind_eq_write_iff {op : HeldOp} : op.kind = .write ↔ op.lifecycle ≠ .purge := by
  unfold HeldOp.kind
  cases op.lifecycle <;> simp

theorem kind_eq_purge_iff {op : HeldOp} {keyId : SymmetricKeyId} :
    op.kind = .purge keyId ↔ op.lifecycle = .purge ∧ op.keyId = keyId := by
  unfold HeldOp.kind
  cases op.lifecycle <;> simp

theorem knownWrite_iff {d : Dot} :
    knownWrite bodies d ↔ ∃ op, bodies[d]? = some op ∧ op.lifecycle ≠ .purge := by
  rw [knownWrite, decide_eq_true_eq, Option.map_eq_some_iff]
  simp only [kind_eq_write_iff]

theorem wrote_iff {op : HeldOp} {k value : Bytes} (hmarker : ∀ w ∈ op.writes, w.1 ≠ lifecycleKey) :
    wrote op k value ↔ (k, value) ∈ op.writesWithLifecycle := by
  unfold wrote HeldOp.writesWithLifecycle
  by_cases hk : k = lifecycleKey
  · subst hk
    have hnot : (lifecycleKey, value) ∉ op.writes := fun h => hmarker _ h rfl
    rw [if_pos rfl, List.mem_append, or_iff_left hnot]
    cases op.lifecycle.registerValue with
    | none => simp
    | some marker => simp
  · rw [if_neg hk, List.mem_append]
    have hnot : (k, value) ∉ (op.lifecycle.registerValue.map fun v => (lifecycleKey, v)).toList := by
      intro h
      obtain ⟨v, -, heq⟩ := Option.map_eq_some_iff.mp (Option.mem_toList.mp h)
      exact hk (congrArg Prod.fst heq).symm
    rw [or_iff_right hnot, List.any_eq_true]
    constructor
    · rintro ⟨⟨k', v'⟩, hmem, heq⟩
      simp only [Bool.and_eq_true, decide_eq_true_eq] at heq
      rwa [heq.1, heq.2] at hmem
    · intro h
      exact ⟨_, h, by simp⟩

/-- The cut snapshot carries, at the dots of known bodies, only what the bodies wrote, and its
purge context is reached by contexts of covered operations not known to be writes. -/
structure ConsistentWith (ev : Evidence) (bodies : Bodies) (s : State) : Prop where
  value : ∀ k, ∀ v ∈ s.shape.valuesAt k, ∀ op : HeldOp, bodies[v.dot]? = some op →
    op.lifecycle ≠ .purge ∧ wrote op k v.value
  purge : ∀ p ∈ s.shape.purge?, ∀ op : HeldOp, bodies[p.dot]? = some op →
    op.lifecycle = .purge ∧ op.keyId = p.keyId
  c : ∀ d, s.shape.c.covers d → ∃ (x : Dot) (f : HeaderFacts), ev.headers[x]? = some f ∧
    s.vv.covers x ∧ (∀ op : HeldOp, bodies[x]? = some op → op.lifecycle = .purge) ∧
    f.context.covers d

theorem contradictionAt_eq_none {k : Bytes} {v : Val} :
    contradictionAt bodies k v = none ↔ ∀ op : HeldOp, bodies[v.dot]? = some op →
      op.lifecycle ≠ .purge ∧ wrote op k v.value := by
  unfold contradictionAt
  cases bodies[v.dot]? with
  | none => simp
  | some op =>
    simp only [Option.some.injEq, forall_eq']
    cases hk : op.kind with
    | purge keyId => simp [(kind_eq_purge_iff.mp hk).1]
    | write => simp [kind_eq_write_iff.mp hk]

theorem not_knownWrite_iff {d : Dot} :
    (!knownWrite bodies d) = true ↔ ∀ op : HeldOp, bodies[d]? = some op → op.lifecycle = .purge := by
  rw [Bool.not_eq_true', ← Bool.not_eq_true, knownWrite_iff]
  simp

/-- A cut snapshot without a contradiction is consistent with the known bodies, and only such. -/
theorem contradiction_eq_none_iff :
    contradiction s bodies ev = none ↔ ConsistentWith ev bodies s := by
  have hvalues : (s.values.findSome? fun entry => contradictionAt bodies entry.1 entry.2) = none ↔
      ∀ k, ∀ v ∈ s.shape.valuesAt k, ∀ op : HeldOp, bodies[v.dot]? = some op →
        op.lifecycle ≠ .purge ∧ wrote op k v.value := by
    rw [List.findSome?_eq_none_iff]
    simp only [Prod.forall, State.mem_values, contradictionAt_eq_none]
  have hbound : ∀ (vv c : VersionVector), (c ≤ joinContexts ev fun dot =>
      vv.covers dot && !knownWrite bodies dot) ↔
      ∀ d, c.covers d → ∃ (x : Dot) (f : HeaderFacts), ev.headers[x]? = some f ∧ vv.covers x ∧
        (∀ op : HeldOp, bodies[x]? = some op → op.lifecycle = .purge) ∧ f.context.covers d := by
    intro vv c
    rw [VersionVector.le_def]
    simp only [covers_joinContexts, Bool.and_eq_true, decide_eq_true_eq, not_knownWrite_iff,
      and_assoc]
  unfold contradiction
  split
  case h_1 r hf =>
    refine iff_of_false (by simp) fun h => ?_
    cases hf.symm.trans (hvalues.mpr h.value)
  case h_2 hf =>
    have hval := hvalues.mp hf
    rcases s with ⟨vv, l | t⟩
    · refine iff_of_true rfl ⟨hval, ?_, fun d hd => ?_⟩
      · intro p hp
        cases hp
      exact absurd hd (VersionVector.not_covers_new d)
    · have hspec : ConsistentWith ev bodies ⟨vv, .tomb t⟩ ↔
          (∀ op : HeldOp, bodies[t.purge.dot]? = some op →
            op.lifecycle = .purge ∧ op.keyId = t.purge.keyId) ∧
          t.c ≤ joinContexts ev fun dot => vv.covers dot && !knownWrite bodies dot := by
        rw [hbound]
        constructor
        · intro h
          exact ⟨h.purge t.purge rfl, h.c⟩
        · rintro ⟨hp, hc⟩
          refine ⟨hval, ?_, hc⟩
          intro p hp'
          cases hp'
          exact hp
      rw [hspec, ← VersionVector.compare_le_iff]
      simp only
      generalize t.c.compare (joinContexts ev fun dot =>
        vv.covers dot && !knownWrite bodies dot) = order
      cases hb : bodies[t.purge.dot]? with
      | none => cases order <;> simp
      | some op =>
        cases hk : op.kind with
        | write =>
          have := kind_eq_write_iff.mp hk
          simp [hk, this]
        | purge keyId =>
          obtain ⟨hl, rfl⟩ := kind_eq_purge_iff.mp hk
          by_cases hkey : op.keyId = t.purge.keyId
          · cases order <;> simp [hk, hl, hkey]
          · simp [hk, hl, hkey]

end RizzyVault.Sync
