import RizzyVault.Lib.Sorted
import RizzyVault.Sync.Causal.Invariant

/-!
# The walk along a device's chain

What the chain check accepts of one response. The served headers of a device are those of the
response that name the vault and the device, sorted by sequence number; the walk accepts the
longest run of them that continues the chain, and what it lists as served again is held with a
rejected body.

## Main definitions

* `VaultLog.servedOf`: the served headers of a device.
* `extension`: what a walk accepts.
* `Follows`: the headers continue a chain one after the other.

## Main results

* `VaultLog.getElem?_group`: the groups of a response.
* `VaultLog.walk_accepted`, `VaultLog.mem_walk_reserved`.
* `follows_extension`, `mem_extension`: what is accepted continues the chain and passed the checks.
-/

open RizzyVault.Lib

namespace RizzyVault.Sync.Causal

open Std (ExtTreeMap ExtTreeSet)

/-- The operations continue a chain from `prev` on. -/
def Follows : ℕ → List ServedOp → Prop
  | _, [] => True
  | prev, op :: ops =>
    op.header.vaultPrevSeq = prev ∧ prev < op.header.dot.seq ∧ Follows op.header.dot.seq ops

/-- What a walk from `prev` on accepts: it passes over what is at or below its place, and stops at
the first header past the cut-off, that does not link, or that counts only behind a snapshot and
has none. -/
def extension (cut : Option ℕ) (counts : OpHeader → Bool) : ℕ → List ServedOp → List ServedOp
  | _, [] => []
  | prev, op :: served =>
    if op.header.dot.seq ≤ prev then extension cut counts prev served
    else if (∃ c ∈ cut, c < op.header.dot.seq) ∨ op.header.vaultPrevSeq ≠ prev ∨
        (needsCover op.body ∧ ¬ counts op.header) then []
    else op :: extension cut counts op.header.dot.seq served

variable {cut : Option ℕ} {counts : OpHeader → Bool} {prev : ℕ} {served : List ServedOp}

theorem follows_extension : Follows prev (extension cut counts prev served) := by
  induction served generalizing prev with
  | nil => trivial
  | cons op served ih =>
    unfold extension
    split_ifs with hle hstop
    · exact ih
    · trivial
    · exact ⟨not_not.mp fun h => hstop (.inr (.inl h)), not_le.mp hle, ih⟩

/-- What is accepted was served, is not past the cut-off, and counts. -/
theorem mem_extension {op : ServedOp} (h : op ∈ extension cut counts prev served) :
    op ∈ served ∧ (∀ c ∈ cut, ¬ c < op.header.dot.seq) ∧
      (needsCover op.body → counts op.header) := by
  induction served generalizing prev with
  | nil => exact absurd h List.not_mem_nil
  | cons a served ih =>
    unfold extension at h
    split_ifs at h with hle hstop
    · exact ⟨List.mem_cons_of_mem _ (ih h).1, (ih h).2⟩
    · exact absurd h List.not_mem_nil
    · rcases List.mem_cons.mp h with rfl | h
      · refine ⟨List.mem_cons_self, fun c hc hlt => hstop (.inl ⟨c, hc, hlt⟩), fun hn => ?_⟩
        by_contra hcounts
        exact hstop (.inr (.inr ⟨hn, hcounts⟩))
      · exact ⟨List.mem_cons_of_mem _ (ih h).1, (ih h).2⟩

/-- The sequence numbers of what follows ascend. -/
theorem Follows.lt_seq {ops : List ServedOp} (h : Follows prev ops) :
    ∀ op ∈ ops, prev < op.header.dot.seq := by
  induction ops generalizing prev with
  | nil => simp
  | cons a ops ih =>
    intro op hop
    rcases List.mem_cons.mp hop with rfl | hop
    · exact h.2.1
    · exact h.2.1.trans (ih h.2.2 op hop)

namespace VaultLog

variable {log : VaultLog} {device : DeviceId}

theorem walkFrom_accepted {walk : Walk} :
    (log.walkFrom device counts prev walk served).accepted =
      walk.accepted ++ extension (log.cutoff device) counts prev served := by
  induction served generalizing prev walk with
  | nil => simp [walkFrom, extension]
  | cons op served ih =>
    unfold walkFrom extension
    by_cases hle : op.header.dot.seq ≤ prev
    · rw [if_pos hle, if_pos hle]
      dsimp only
      split_ifs <;> exact ih
    · rw [if_neg hle, if_neg hle]
      have hstop : (∃ c ∈ log.cutoff device, c < op.header.dot.seq) →
          (∃ c ∈ log.cutoff device, c < op.header.dot.seq) ∨ op.header.vaultPrevSeq ≠ prev ∨
            (needsCover op.body ∧ ¬ counts op.header) := .inl
      cases hpast : (log.cutoff device).filter fun c => c < op.header.dot.seq with
      | some c =>
        obtain ⟨hc, hlt⟩ := Option.filter_eq_some_iff.mp hpast
        dsimp only
        rw [if_pos (hstop ⟨c, hc, of_decide_eq_true hlt⟩), List.append_nil]
      | none =>
        have hcut : ¬ ∃ c ∈ log.cutoff device, c < op.header.dot.seq := by
          rintro ⟨c, hc, hlt⟩
          exact absurd (decide_eq_true hlt) (Option.filter_eq_none_iff.mp hpast c hc)
        simp only [hcut, false_or]
        by_cases hprev : op.header.vaultPrevSeq = prev
        · by_cases hcover : needsCover op.body ∧ ¬ counts op.header
          · simp [hprev, hcover]
          · simp only [hprev, ne_eq, not_true_eq_false, if_false, false_or, if_neg hcover, ih,
              List.append_assoc, List.singleton_append]
        · simp [hprev]

/-- What a walk accepts. -/
theorem walk_accepted :
    (log.walk device served counts).accepted =
      extension (log.cutoff device) counts (log.head device) served := by
  rw [walk, walkFrom_accepted, List.nil_append]

/-- What a walk lists as served again is held with a rejected body that nothing covers. -/
theorem mem_walkFrom_reserved {walk : Walk} {op : ServedOp}
    (h : op ∈ (log.walkFrom device counts prev walk served).reserved) :
    op ∈ walk.reserved ∨ op ∈ served ∧ ∃ link, log.linkAt device op.header.dot.seq = some link ∧
      link.header = op.header ∧ link.state = .rejected ∧ ¬ log.holds link := by
  induction served generalizing prev walk with
  | nil => exact .inl h
  | cons a served ih =>
    -- every way on lists the operations so far, and perhaps this one
    have later : ∀ {prev' walk'}, op ∈ (log.walkFrom device counts prev' walk' served).reserved →
        (op ∈ walk'.reserved → op ∈ walk.reserved ∨ op = a ∧ ∃ link,
          log.linkAt device a.header.dot.seq = some link ∧ link.header = a.header ∧
            link.state = .rejected ∧ ¬ log.holds link) →
        op ∈ walk.reserved ∨ op ∈ a :: served ∧ ∃ link,
          log.linkAt device op.header.dot.seq = some link ∧ link.header = op.header ∧
            link.state = .rejected ∧ ¬ log.holds link := by
      intro prev' walk' hop hnow
      rcases ih hop with hwalk | ⟨hmem, hlink⟩
      · rcases hnow hwalk with hold | ⟨rfl, hlink⟩
        · exact .inl hold
        · exact .inr ⟨List.mem_cons_self, hlink⟩
      · exact .inr ⟨List.mem_cons_of_mem _ hmem, hlink⟩
    unfold walkFrom at h
    dsimp only at h
    by_cases hle : a.header.dot.seq ≤ prev
    · rw [if_pos hle] at h
      split_ifs at h with hheld
      · refine later h fun hop => ?_
        rcases List.mem_append.mp hop with hop | hop
        · exact .inl hop
        · obtain ⟨link, hlink, hheader, hstate, hcov⟩ := hheld
          rw [← hheader, covered_iff] at hcov
          exact .inr ⟨List.mem_singleton.mp hop, link, hlink, hheader, hstate, hcov⟩
      all_goals exact later h .inl
    · rw [if_neg hle] at h
      split at h
      · exact .inl h
      · split_ifs at h
        all_goals first
          | exact .inl h
          | exact later h .inl

theorem mem_walk_reserved {op : ServedOp} (h : op ∈ (log.walk device served counts).reserved) :
    op ∈ served ∧ ∃ link, log.linkAt device op.header.dot.seq = some link ∧
      link.header = op.header ∧ link.state = .rejected ∧ ¬ log.holds link :=
  (mem_walkFrom_reserved h).resolve_left List.not_mem_nil

/-! ### The groups of a response -/

/-- The served headers of a device in a response, sorted by sequence number. -/
def servedOf (log : VaultLog) (ops : List ServedOp) (device : DeviceId) : List ServedOp :=
  (ops.filter fun op => op.header.vaultId = log.vaultId ∧ op.header.dot.deviceId = device)
    |>.insertionSort fun a b => a.header.dot.seq ≤ b.header.dot.seq

theorem mem_servedOf {ops : List ServedOp} {op : ServedOp} :
    op ∈ log.servedOf ops device ↔
      op ∈ ops ∧ op.header.vaultId = log.vaultId ∧ op.header.dot.deviceId = device := by
  rw [servedOf, List.mem_insertionSort, List.mem_filter, decide_eq_true_eq]

theorem getD_foldl_groupOne (ops : List ServedOp)
    (acc : ExtTreeMap DeviceId (List ServedOp) × List Report) (hd : device ≠ log.own) :
    ((ops.foldl log.groupOne acc).1[device]?).getD [] = (acc.1[device]?).getD [] ++
      ops.filter fun op => op.header.vaultId = log.vaultId ∧ op.header.dot.deviceId = device := by
  induction ops generalizing acc with
  | nil => simp
  | cons op ops ih =>
    rw [List.foldl_cons, ih, List.filter_cons]
    unfold groupOne
    by_cases hvault : op.header.vaultId = log.vaultId
    · by_cases hdev : op.header.dot.deviceId = device
      · subst hdev
        simp [hvault, hd]
      · simp only [hvault, hdev, and_false, decide_false, Bool.false_eq_true, ne_eq,
          not_true_eq_false, if_false]
        split_ifs
        · rfl
        · rw [ExtTreeMap.getElem?_alter_iff, if_neg hdev]
    · simp [hvault]

theorem getElem?_own_foldl_groupOne (ops : List ServedOp)
    {acc : ExtTreeMap DeviceId (List ServedOp) × List Report} (h : acc.1[log.own]? = none) :
    (ops.foldl log.groupOne acc).1[log.own]? = none := by
  induction ops generalizing acc with
  | nil => exact h
  | cons op ops ih =>
    rw [List.foldl_cons]
    refine ih ?_
    unfold groupOne
    split_ifs with hvault hown
    · exact h
    · exact h
    · rw [ExtTreeMap.getElem?_alter_iff, if_neg hown, h]

/-- The groups of a response: no group of the own device, and of every other device all it
serves. -/
theorem mem_group {ops served : List ServedOp} :
    (device, served) ∈ (log.group ops).1.toList →
      device ≠ log.own ∧ served = log.servedOf ops device := by
  intro h
  have hget := ExtTreeMap.mem_toList_iff_getElem?_eq_some.mp h
  simp only [group, ExtTreeMap.getElem?_map, Option.map_eq_some_iff] at hget
  obtain ⟨l, hl, rfl⟩ := hget
  have hown : device ≠ log.own := by
    rintro rfl
    rw [getElem?_own_foldl_groupOne ops (by simp)] at hl
    exact absurd hl (by simp)
  refine ⟨hown, ?_⟩
  have hfold := getD_foldl_groupOne ops (∅, []) hown
  rw [hl, Option.getD_some] at hfold
  rw [servedOf, hfold]
  simp

/-- What a response serves of another device is in its group. -/
theorem exists_mem_group {ops : List ServedOp} (hown : device ≠ log.own)
    (hne : log.servedOf ops device ≠ []) :
    (device, log.servedOf ops device) ∈ (log.group ops).1.toList := by
  have hfold := getD_foldl_groupOne ops (∅, []) hown
  cases hget : (ops.foldl log.groupOne (∅, [])).1[device]? with
  | none =>
    rw [hget] at hfold
    refine absurd ?_ hne
    rw [servedOf, ← List.nil_append (ops.filter _)]
    simp only [Option.getD_none, ExtTreeMap.getElem?_empty] at hfold
    rw [← hfold]
    rfl
  | some l =>
    have hgroup : (log.group ops).1[device]? =
        some (l.insertionSort fun a b => a.header.dot.seq ≤ b.header.dot.seq) := by
      simp only [group, ExtTreeMap.getElem?_map, hget, Option.map_some]
    have hmem := ExtTreeMap.mem_toList_iff_getElem?_eq_some.mpr hgroup
    rwa [(mem_group hmem).2] at hmem

end VaultLog

end RizzyVault.Sync.Causal
