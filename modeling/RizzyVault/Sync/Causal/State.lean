import RizzyVault.Sync.Causal.Own

/-!
# Reading the causal log

What each change to a part of the log does to what is read of it: the link at a place, the head
and the frontier of a chain, the settled vector of an item, and the ready bodies.

## Main definitions

* `VaultLog.readySeqs`.

## Main results

* `covered_iff`, `missingContext_eq_none`: the code's tests, by the settled vector of an item.
* One lemma for each reading of each change, `VaultLog.linkAt_modifyLink` and the like.
-/

namespace RizzyVault.Sync.Causal

open Std (ExtTreeMap ExtTreeSet)

/-- The settled vector of an item among the vectors of items. -/
theorem exists_covers_iff {items : ExtTreeMap ItemId VersionVector} {itemId : ItemId} {dot : Dot} :
    (∃ vv : VersionVector, vv ∈ items[itemId]? ∧ vv.covers dot) ↔
      ((items[itemId]?).getD VersionVector.new).covers dot := by
  cases items[itemId]? <;> simp

namespace VaultLog

variable {log : VaultLog} {device d : DeviceId} {seq s : ℕ} {itemId i : ItemId} {dot : Dot}

/-- The sequence numbers of a device's ready bodies on an item. -/
def readySeqs (log : VaultLog) (itemId : ItemId) (device : DeviceId) : ExtTreeSet ℕ :=
  (((log.ready[itemId]?).getD ∅)[device]?).getD ∅

/-- A device's links. -/
def links (log : VaultLog) (device : DeviceId) : ExtTreeMap ℕ Link :=
  (log.chains[device]?).elim ∅ Chain.links

/-- Whether the settled vector of a link's item covers the link. -/
def holds (log : VaultLog) (link : Link) : Prop :=
  (log.settled link.header.itemId).covers link.header.dot

theorem getElem?_links : (log.links device)[seq]? = log.linkAt device seq := by
  rw [links, linkAt]
  cases log.chains[device]? <;> simp

theorem covered_iff {header : OpHeader} :
    covered log.items header ↔ (log.settled header.itemId).covers header.dot :=
  exists_covers_iff

theorem missingContext_eq_none {header : OpHeader} :
    missingContext log.items header = none ↔ header.causalContext ≤ log.settled header.itemId := by
  simp only [missingContext, List.find?_eq_none, exists_covers_iff, not_not, decide_not,
    Bool.not_eq_true', decide_eq_false_iff_not, VersionVector.le_iff_forall_mem_dots, settled]

theorem linksFrom_eq :
    log.linksFrom device seq = (log.links device).toList.filter fun entry => seq ≤ entry.1 := by
  rw [linksFrom, links]
  cases log.chains[device]? <;> simp

theorem mem_linksFrom {entry : ℕ × Link} :
    entry ∈ log.linksFrom device seq ↔
      seq ≤ entry.1 ∧ log.linkAt device entry.1 = some entry.2 := by
  rw [linksFrom_eq, List.mem_filter, ExtTreeMap.mem_toList_iff_getElem?_eq_some, getElem?_links,
    decide_eq_true_eq, and_comm]

theorem pairwise_linksFrom : (log.linksFrom device seq).Pairwise fun a b => a.1 < b.1 := by
  rw [linksFrom_eq]
  exact (log.links device).pairwise_fst_toList.filter _

/-! ### Changing links -/

section ModifyLink

variable {f : Link → Link}

theorem chains_modifyLink :
    (log.modifyLink device seq f).chains[d]? = if device = d then
      (log.chains[device]?).map fun chain => { chain with links := chain.links.modify seq f }
      else log.chains[d]? := by
  simp only [modifyLink, ExtTreeMap.getElem?_modify_iff]
  split_ifs <;> rfl

theorem linkAt_modifyLink :
    (log.modifyLink device seq f).linkAt d s =
      if device = d ∧ seq = s then (log.linkAt device seq).map f else log.linkAt d s := by
  unfold linkAt
  rw [chains_modifyLink]
  by_cases hd : device = d
  · subst hd
    cases log.chains[device]? with
    | none => simp
    | some chain => simp [ExtTreeMap.getElem?_modify_iff]
  · simp [hd]

@[simp]
theorem head_modifyLink : (log.modifyLink device seq f).head d = log.head d := by
  unfold head
  rw [chains_modifyLink]
  split_ifs with hd
  · subst hd
    cases log.chains[device]? <;> rfl
  · rfl

@[simp]
theorem frontier_modifyLink : (log.modifyLink device seq f).frontier d = log.frontier d := by
  unfold frontier
  rw [chains_modifyLink]
  split_ifs with hd
  · subst hd
    cases log.chains[device]? <;> rfl
  · rfl

@[simp]
theorem settled_modifyLink : (log.modifyLink device seq f).settled = log.settled := rfl

@[simp]
theorem readySeqs_modifyLink : (log.modifyLink device seq f).readySeqs = log.readySeqs := rfl

end ModifyLink

theorem linkAt_setFrontier {frontier : ℕ} :
    (log.setFrontier device frontier).linkAt d s = log.linkAt d s := by
  simp only [linkAt, setFrontier, ExtTreeMap.getElem?_modify_iff]
  split_ifs with hd
  · subst hd
    cases log.chains[device]? <;> rfl
  · rfl

@[simp]
theorem head_setFrontier {frontier : ℕ} :
    (log.setFrontier device frontier).head d = log.head d := by
  simp only [head, setFrontier, ExtTreeMap.getElem?_modify_iff]
  split_ifs with hd
  · subst hd
    cases log.chains[device]? <;> rfl
  · rfl

theorem frontier_setFrontier_le {frontier : ℕ} :
    (log.setFrontier device frontier).frontier d ≤
      if device = d then frontier else log.frontier d := by
  simp only [VaultLog.frontier, setFrontier, ExtTreeMap.getElem?_modify_iff]
  split_ifs with hd
  · cases log.chains[device]? with
    | none => exact Nat.zero_le _
    | some chain => exact le_rfl
  · exact le_rfl

/-! ### The ready index -/

@[simp]
theorem linkAt_readyInsert : (log.readyInsert itemId dot).linkAt = log.linkAt := rfl

@[simp]
theorem linkAt_readyRemove : (log.readyRemove itemId dot).linkAt = log.linkAt := rfl

theorem readySeqs_readyInsert :
    (log.readyInsert itemId dot).readySeqs i d =
      if itemId = i ∧ dot.deviceId = d then (log.readySeqs i d).insert dot.seq
      else log.readySeqs i d := by
  simp only [readySeqs, readyInsert, ExtTreeMap.getElem?_alter_iff]
  by_cases hi : itemId = i
  · subst hi
    by_cases hd : dot.deviceId = d
    · subst hd
      simp
    · simp [hd, ExtTreeMap.getElem?_alter_iff]
  · simp [hi]

theorem readySeqs_readyRemove :
    (log.readyRemove itemId dot).readySeqs i d =
      if itemId = i ∧ dot.deviceId = d then (log.readySeqs i d).erase dot.seq
      else log.readySeqs i d := by
  simp only [readySeqs, readyRemove, ExtTreeMap.getElem?_alter_iff]
  by_cases hi : itemId = i
  · subst hi
    by_cases hd : dot.deviceId = d
    · subst hd
      simp only [↓reduceIte, and_self, ExtTreeMap.getD_keepNonempty,
        ExtTreeMap.getElem?_alter_iff, ExtTreeSet.getD_keepNonempty]
    · simp only [↓reduceIte, hd, and_false, ExtTreeMap.getD_keepNonempty,
        ExtTreeMap.getElem?_alter_iff]
  · simp [hi]

/-! ### Settled vectors -/

theorem settled_addSettled :
    (log.addSettled itemId dot).settled i =
      if itemId = i then (log.settled i).add dot else log.settled i := by
  simp only [settled, addSettled, ExtTreeMap.getElem?_alter_iff]
  split_ifs with hi
  · rw [hi, Option.getD_some]
  · rfl

@[simp]
theorem linkAt_addSettled : (log.addSettled itemId dot).linkAt = log.linkAt := rfl

@[simp]
theorem settled_recordAbsorbed {plan : CoverPlan} {taken : VersionVector} :
    (log.recordAbsorbed plan itemId taken).1.settled i =
      if itemId = i then log.settled i ⊔ plan.cutOf taken else log.settled i := by
  simp only [settled, recordAbsorbed, ExtTreeMap.getElem?_alter_iff]
  split_ifs with hi
  · rw [hi, Option.getD_some, VersionVector.join_eq_sup]
  · rfl

/-! ### Accepting a link -/

section AcceptLink

variable {header : OpHeader} {state : LinkState}

theorem chains_acceptLink :
    (log.acceptLink header state).chains[d]? = if header.dot.deviceId = d then
      some (((log.chains[d]?).getD {}).push ⟨header, state⟩) else log.chains[d]? := by
  have hchains : (log.acceptLink header state).chains =
      log.chains.alter header.dot.deviceId fun chain =>
        some ((chain.getD {}).push ⟨header, state⟩) := by
    unfold acceptLink
    split_ifs <;> rfl
  rw [hchains, ExtTreeMap.getElem?_alter_iff]
  by_cases hd : header.dot.deviceId = d
  · rw [if_pos hd, if_pos hd, hd]
  · rw [if_neg hd, if_neg hd]

theorem linkAt_acceptLink :
    (log.acceptLink header state).linkAt d s =
      if header.dot.deviceId = d ∧ header.dot.seq = s then some ⟨header, state⟩
      else log.linkAt d s := by
  simp only [linkAt, chains_acceptLink]
  by_cases hd : header.dot.deviceId = d
  · subst hd
    cases log.chains[header.dot.deviceId]? <;>
      simp [Chain.push, ExtTreeMap.getElem?_insert_iff]
  · simp [hd]

theorem head_acceptLink :
    (log.acceptLink header state).head d =
      if header.dot.deviceId = d then header.dot.seq else log.head d := by
  simp only [head, chains_acceptLink]
  split_ifs <;> rfl

theorem frontier_acceptLink :
    (log.acceptLink header state).frontier d = log.frontier d := by
  simp only [frontier, chains_acceptLink]
  split_ifs with hd
  · cases log.chains[d]? <;> rfl
  · rfl

@[simp]
theorem items_acceptLink : (log.acceptLink header state).items = log.items := by
  unfold acceptLink
  split_ifs <;> rfl

@[simp]
theorem settled_acceptLink : (log.acceptLink header state).settled = log.settled := by
  funext i
  simp [settled]

theorem readySeqs_acceptLink :
    (log.acceptLink header state).readySeqs i d =
      if state = .ready ∧ header.itemId = i ∧ header.dot.deviceId = d then
        (log.readySeqs i d).insert header.dot.seq
      else log.readySeqs i d := by
  by_cases hs : state = .ready
  · have hready : (log.acceptLink header state).readySeqs i d =
        (log.readyInsert header.itemId header.dot).readySeqs i d := by
      simp only [acceptLink, if_pos hs]
      rfl
    rw [hready, readySeqs_readyInsert]
    simp [hs]
  · have hready : (log.acceptLink header state).readySeqs i d = log.readySeqs i d := by
      simp only [acceptLink, if_neg hs]
      rfl
    rw [hready, if_neg fun h => hs h.1]

end AcceptLink

end VaultLog

end RizzyVault.Sync.Causal
