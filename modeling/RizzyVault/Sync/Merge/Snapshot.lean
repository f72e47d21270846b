import RizzyVault.Sync.Record.RoundTrip
import RizzyVault.Sync.Merge.Calls

/-!
# States as snapshots

The record data of a state reads back as the state, and so do the bytes a replica writes.

## Main results

* `State.fromSnapshot_of_snapshotData`: record data reads back.
* `ItemMerge.fromSnapshot_of_writeSnapshot`: written bytes read back.
-/

open RizzyVault.Core RizzyVault.Lib

namespace RizzyVault.Sync

open Std (ExtTreeMap ExtTreeSet)

theorem foldl_insert_toList (regs : Regs) :
    regs.toList.foldl (fun out e => out.insert e.1 e.2) ∅ = regs := by
  have hof : regs.toList.foldl (fun out e => out.insert e.1 e.2) ∅ =
      ExtTreeMap.ofList regs.toList compare := ExtTreeMap.ofList_eq_foldl.symm
  rw [hof]
  refine ExtTreeMap.ext_getElem? fun k => ?_
  cases h : regs[k]? with
  | none =>
    rw [ExtTreeMap.getElem?_ofList_of_contains_eq_false]
    rw [List.contains_eq_mem, decide_eq_false_iff_not, List.mem_map]
    rintro ⟨e, he, rfl⟩
    rw [ExtTreeMap.mem_toList_iff_getElem?_eq_some.mp he] at h
    cases h
  | some vs =>
    exact ExtTreeMap.getElem?_ofList_of_mem (compare_eq_iff_eq.mpr rfl)
      ExtTreeMap.distinct_keys_toList (ExtTreeMap.mem_toList_iff_getElem?_eq_some.mpr h)

theorem bytes_of_fieldKey {bytes : Bytes} {key : FieldKey} (h : fieldKey bytes = .ok key) :
    key.bytes = bytes := by
  unfold fieldKey at h
  split_ifs at h with hl
  · cases h
    exact hl.symm
  · unfold FieldKey.new at h
    split at h
    · rename_i key' hnew
      split at hnew
      · cases hnew
        cases h
        rfl
      · cases hnew
    · cases h

/-- The record form of one register. -/
def registerOf (e : Bytes × List Val) : Except MergeError Register := do
  let key ← fieldKey e.1
  return ⟨key, e.2.map Val.entry⟩

theorem regsTo_eq_mapM (regs : Regs) : regsTo regs = regs.toList.mapM registerOf := rfl

theorem registerOf_ok {e : Bytes × List Val} {reg : Register} (h : registerOf e = .ok reg) :
    reg.key.bytes = e.1 ∧ reg.entries.map (fun e => (⟨e.dot, e.hlc, e.value⟩ : Val)) = e.2 := by
  unfold registerOf at h
  cases hk : fieldKey e.1 with
  | error err =>
    rw [hk] at h
    cases h
  | ok key =>
    rw [hk] at h
    cases h
    refine ⟨bytes_of_fieldKey hk, ?_⟩
    rw [List.map_map]
    exact List.map_id _

/-- Registers read back from their record form. -/
theorem regsFrom_of_regsTo {regs : Regs} {registers : List Register}
    (h : regsTo regs = .ok registers) : regsFrom registers = regs := by
  have hlist : ∀ (l : List (Bytes × List Val)) (rs : List Register),
      l.mapM registerOf = .ok rs → ∀ out : Regs, rs.foldl (fun regs reg =>
        regs.insert reg.key.bytes (reg.entries.map fun e => ⟨e.dot, e.hlc, e.value⟩)) out =
        l.foldl (fun out e => out.insert e.1 e.2) out := by
    intro l
    induction l with
    | nil =>
      intro rs hrs out
      cases hrs
      rfl
    | cons e l ih =>
      intro rs hrs out
      rw [List.mapM_cons] at hrs
      cases hk : registerOf e with
      | error err =>
        rw [hk] at hrs
        cases hrs
      | ok reg =>
        rw [hk] at hrs
        cases hl : l.mapM registerOf with
        | error err =>
          rw [hl] at hrs
          cases hrs
        | ok rest =>
          rw [hl] at hrs
          cases hrs
          obtain ⟨hkey, hvals⟩ := registerOf_ok hk
          rw [List.foldl_cons, List.foldl_cons, ih rest hl, hkey, hvals]
  rw [regsTo_eq_mapM] at h
  rw [regsFrom, hlist _ _ h, foldl_insert_toList]

namespace State

/-- The record data of a state reads back as the state. -/
theorem fromSnapshot_of_snapshotData {s : State} {d : SnapshotData}
    (h : s.snapshotData = .ok (some d)) : fromSnapshot s.vv d = s := by
  unfold snapshotData at h
  split_ifs at h with ha
  · cases h
  rcases s with ⟨vv, l | t⟩
  · simp only at h
    cases hr : regsTo l.regs with
    | error e =>
      rw [hr] at h
      cases h
    | ok registers =>
      cases hh : regsTo l.hist with
      | error e =>
        rw [hr, hh] at h
        cases h
      | ok history =>
        rw [hr, hh] at h
        cases h
        simp only [fromSnapshot, regsFrom_of_regsTo hr, regsFrom_of_regsTo hh]
  · simp only at h
    cases hl : regsTo t.late with
    | error e =>
      rw [hl] at h
      cases h
    | ok late =>
      rw [hl] at h
      cases h
      simp only [fromSnapshot, regsFrom_of_regsTo hl]

end State

/-- The bytes a replica writes parse to data that reads back as its state. -/
theorem ItemMerge.fromSnapshot_of_writeSnapshot {m m' : ItemMerge} {written : WrittenSnapshot}
    (h : m.writeSnapshot = (m', .ok written)) :
    written.covered = m.state.vv ∧ ∃ data,
      Record.parseSnapshot written.covered written.data = .ok data ∧
        State.fromSnapshot written.covered data = m.state := by
  rcases m.writeSnapshot_cases with ⟨e, he⟩ | ⟨out, -, -, henc, he⟩
  · rw [he] at h
    cases h
  · rw [he] at h
    cases h
    unfold encode at henc
    cases hd : m.state.snapshotData with
    | error e =>
      rw [hd] at henc
      cases henc
    | ok d =>
      rw [hd] at henc
      cases d with
      | none => cases henc
      | some data =>
        simp only at henc
        cases hs : Record.encodeSnapshot m.state.vv data with
        | error e =>
          rw [hs] at henc
          simp only at henc
          split_ifs at henc
        | ok bytes =>
          rw [hs] at henc
          cases henc
          exact ⟨rfl, data, Record.parseSnapshot_of_encodeSnapshot hs,
            State.fromSnapshot_of_snapshotData hd⟩

end RizzyVault.Sync
