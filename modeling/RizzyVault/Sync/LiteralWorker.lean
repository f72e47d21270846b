import RizzyVault.Lib.Pruning
import RizzyVault.Sync.Worker

/-!
# The worker's rules, taken literally

The worker plans one item in one pass, with a count of covers per header and author. Its rules are
stated over the rows themselves: R1 deletes the held bodies that the older of the two newest
snapshots covers and that snapshots by two authors cover; R3 drops the oldest snapshot, the two
newest excepted, that no bodiless header needs, and tests again from the oldest. The plan is the one
of the rules, it does not depend on the order of the rows, and once it is applied nothing is left to
do.

## Main definitions

* `stays`, `literalDrops`, `literalWorker`: the rules.
* `applyPlan`: the rows after a plan.

## Main results

* `planWorker_literal`.

## References

* `crates/rizzy-sync/src/compaction.rs`, `crates/rizzy-sync/src/compaction/sim.rs`,
  `crates/rizzy-sync/src/compaction/tests.rs`.
-/

namespace RizzyVault.Sync

open Std (ExtTreeMap)
open RizzyVault.Lib

/-- The rows of the snapshots, oldest first. -/
def oldestFirst (snapshots : List RetainedSnapshot) : List RetainedSnapshot :=
  snapshots.mergeSort fun a b => a.storeSeq ≤ b.storeSeq

/-- R1: the held bodies that the older of the two newest snapshots covers and that snapshots by two
authors cover, ascending by dot. -/
def literalDeletions (retained : List RetainedSnapshot) (ops : List OpDot) : List Dot :=
  match retained.reverse with
  | _ :: older :: _ =>
    ((ops.filter fun op => op.body = .held ∧ older.covers op.dot ∧
      2 ≤ (coverAuthors retained op.dot).card).map OpDot.dot).mergeSort
  | _ => []

/-- Whether dropping the snapshot would lower the number of authors that cover some bodiless header
to fewer than two. -/
def stays (bodiless : List Dot) (retained : List RetainedSnapshot) (s : RetainedSnapshot) : Bool :=
  bodiless.any fun dot =>
    (coverAuthors (retained.erase s) dot).card < (coverAuthors retained dot).card ∧
      (coverAuthors (retained.erase s) dot).card < 2

/-- R3: the snapshots that are dropped, tested oldest first and again from the oldest after each
drop. The two newest are always retained. -/
def literalDrops (retained : List RetainedSnapshot) (bodiless : List Dot) :
    List RetainedSnapshot :=
  restartDrops (fun older => stays bodiless (older ++ retained.drop (retained.length - 2)))
    (retained.take (retained.length - 2))

/-- The plan of the rules. -/
def literalWorker (snapshots : List RetainedSnapshot) (ops : List OpDot) : WorkerPlan :=
  let retained := oldestFirst snapshots
  let deleteBodies := literalDeletions retained ops
  let bodiless := (ops.filter fun op => op.body = .absent ∨ op.dot ∈ deleteBodies).map OpDot.dot
  ⟨deleteBodies, (literalDrops retained bodiless).map RetainedSnapshot.storeSeq⟩

/-- The operations once the bodies of a plan are deleted. -/
def deleteBodiesOf (plan : WorkerPlan) (ops : List OpDot) : List OpDot :=
  ops.map fun op => ⟨op.dot, if op.dot ∈ plan.deleteBodies then .absent else op.body⟩

/-- The rows after a plan. -/
def applyPlan (snapshots : List RetainedSnapshot) (ops : List OpDot) (plan : WorkerPlan) :
    List RetainedSnapshot × List OpDot :=
  (without snapshots plan.dropSnapshots, deleteBodiesOf plan ops)

/-! ### A snapshot that stays -/

theorem coverAuthors_subset {a b : List RetainedSnapshot} (h : a ⊆ b) (dot : Dot) :
    coverAuthors a dot ⊆ coverAuthors b dot := by
  intro author hauthor
  obtain ⟨s, hs, hcov⟩ := mem_coverAuthors.mp hauthor
  exact mem_coverAuthors.mpr ⟨s, h hs, hcov⟩

theorem stays_eq_true {bodiless : List Dot} {retained : List RetainedSnapshot}
    {s : RetainedSnapshot} : stays bodiless retained s = true ↔ ∃ dot ∈ bodiless,
      (coverAuthors (retained.erase s) dot).card < (coverAuthors retained dot).card ∧
        (coverAuthors (retained.erase s) dot).card < 2 := by
  simp [stays]

/-- A snapshot that stays still does once others are dropped. -/
theorem stays_sublist {bodiless : List Dot} {retained fewer : List RetainedSnapshot}
    {s : RetainedSnapshot} (hsub : fewer.Sublist retained) (hs : s ∈ fewer)
    (h : stays bodiless retained s = true) : stays bodiless fewer s = true := by
  obtain ⟨dot, hdot, hlt, htwo⟩ := stays_eq_true.mp h
  have hle := Finset.card_le_card
    (coverAuthors_subset (hsub.erase s).subset dot)
  refine stays_eq_true.mpr ⟨dot, hdot, ?_, by omega⟩
  -- The author of the snapshot has no other cover.
  have hperm := List.perm_cons_erase (hsub.subset hs)
  have hcov : s.covers dot := by
    by_contra hcov
    rw [coverAuthors_of_not_covers hperm hcov] at hlt
    exact lt_irrefl _ hlt
  have hnot : s.author ∉ coverAuthors (retained.erase s) dot := by
    intro hmem
    refine hlt.not_ge (Finset.card_le_card fun author hauthor => ?_)
    obtain ⟨t, ht, htcov, rfl⟩ := mem_coverAuthors.mp hauthor
    obtain rfl | ht := List.mem_cons.mp (hperm.mem_iff.mp ht)
    · exact hmem
    · exact mem_coverAuthors.mpr ⟨t, ht, htcov, rfl⟩
  refine Finset.card_lt_card ⟨coverAuthors_subset (List.erase_subset) dot, fun hsub' => hnot ?_⟩
  exact coverAuthors_subset (hsub.erase s).subset dot
    (hsub' (mem_coverAuthors.mpr ⟨s, hs, hcov, rfl⟩))

theorem stays_congr {bodiless bodiless' : List Dot} (h : ∀ dot, dot ∈ bodiless ↔ dot ∈ bodiless')
    (retained : List RetainedSnapshot) (s : RetainedSnapshot) :
    stays bodiless retained s = stays bodiless' retained s := by
  rw [Bool.eq_iff_iff, stays_eq_true, stays_eq_true]
  simp only [h]

theorem literalDrops_congr {bodiless bodiless' : List Dot}
    (h : ∀ dot, dot ∈ bodiless ↔ dot ∈ bodiless') (retained : List RetainedSnapshot) :
    literalDrops retained bodiless = literalDrops retained bodiless' := by
  have hstays : stays bodiless = stays bodiless' := by
    funext retained s
    exact stays_congr h retained s
  rw [literalDrops, literalDrops, hstays]

/-! ### One pass -/

theorem mem_foldl_insert {covers : ExtTreeMap Dot CoverCounts} {d dot : Dot}
    {snapshots : List RetainedSnapshot}
    (h : dot ∈ snapshots.foldl (fun covers s =>
      covers.insert d ((covers.getD d ∅).count s.author)) covers) : dot = d ∨ dot ∈ covers := by
  induction snapshots generalizing covers with
  | nil => exact .inr h
  | cons s snapshots ih =>
    obtain hd | hmem := ih h
    · exact .inl hd
    · rw [ExtTreeMap.mem_insert, compare_eq_iff_eq] at hmem
      exact hmem.imp_left Eq.symm

/-- Only headers of the list are counted. -/
theorem mem_of_mem_countCovers {ordered : List RetainedSnapshot} {bodiless : List Dot} {dot : Dot}
    (h : dot ∈ countCovers ordered bodiless) : dot ∈ bodiless := by
  have hfold (covers : ExtTreeMap Dot CoverCounts) (hmem : dot ∈ bodiless.foldl (fun covers dot =>
      (ordered.filter fun s => s.covers dot).foldl (fun covers s =>
        covers.insert dot ((covers.getD dot ∅).count s.author)) covers) covers) :
      dot ∈ bodiless ∨ dot ∈ covers := by
    clear h
    induction bodiless generalizing covers with
    | nil => exact .inr hmem
    | cons d bodiless ih =>
      obtain hrest | hmem := ih _ hmem
      · exact .inl (List.mem_cons_of_mem _ hrest)
      · obtain rfl | hmem := mem_foldl_insert hmem
        · exact .inl List.mem_cons_self
        · exact .inr hmem
  exact (hfold ∅ h).resolve_right ExtTreeMap.not_mem_empty

section Pass

variable {bodiless : List Dot} {covers : ExtTreeMap Dot CoverCounts}
  {retained fewer : List RetainedSnapshot} {s : RetainedSnapshot}

/-- The test on the counts is the test on the snapshots. -/
theorem any_lowersBelowTwo (hcounts : CountsCovers covers retained bodiless)
    (hkeys : ∀ dot ∈ covers, dot ∈ bodiless) (hs : s ∈ retained) :
    (covers.toList.any fun e => s.covers e.1 && lowersBelowTwo e.2 s.author) =
      stays bodiless retained s := by
  have hperm := List.perm_cons_erase hs
  rw [Bool.eq_iff_iff, List.any_eq_true, stays_eq_true]
  simp only [Bool.and_eq_true, decide_eq_true_eq]
  constructor
  · rintro ⟨⟨dot, byAuthor⟩, hmem, hcov, hlow⟩
    have hget := ExtTreeMap.mem_toList_iff_getElem?_eq_some.mp hmem
    have hdot := hkeys dot (ExtTreeMap.mem_iff_isSome_getElem?.mpr (hget ▸ rfl))
    obtain ⟨byAuthor', hentry, hiff⟩ := hcounts.lowersBelowTwo_iff hperm hdot hcov
    cases hget.symm.trans hentry
    exact ⟨dot, hdot, hiff.mp hlow⟩
  · rintro ⟨dot, hdot, hlt, htwo⟩
    have hcov : s.covers dot := by
      by_contra hcov
      rw [coverAuthors_of_not_covers hperm hcov] at hlt
      exact lt_irrefl _ hlt
    obtain ⟨byAuthor, hentry, hiff⟩ := hcounts.lowersBelowTwo_iff hperm hdot hcov
    exact ⟨(dot, byAuthor), ExtTreeMap.mem_toList_iff_getElem?_eq_some.mpr hentry, hcov,
      hiff.mpr ⟨hlt, htwo⟩⟩

/-- The fold over the older snapshots is one pass over them. -/
theorem foldl_r3Step (two : List RetainedSnapshot) {kept todo : List RetainedSnapshot}
    {dropped : List ℕ} (hcounts : CountsCovers covers (kept ++ todo ++ two) bodiless)
    (hkeys : ∀ dot ∈ covers, dot ∈ bodiless) :
    (todo.foldl r3Step (covers, dropped)).2 = dropped ++
      (passDrops (fun older => stays bodiless (older ++ two)) kept todo).map
        RetainedSnapshot.storeSeq := by
  induction todo generalizing kept covers dropped with
  | nil => simp [passDrops]
  | cons s todo ih =>
    have hs : s ∈ kept ++ s :: todo ++ two := by simp
    have hany := any_lowersBelowTwo hcounts hkeys hs
    rw [List.foldl_cons, r3Step, hany, passDrops]
    split_ifs with hstays
    · refine ih ?_ hkeys
      rwa [List.append_assoc kept, List.singleton_append]
    · have hperm : (kept ++ s :: todo ++ two).Perm (s :: (kept ++ todo ++ two)) := by
        simpa only [List.append_assoc, List.cons_append] using List.perm_middle
      rw [ih (hcounts.uncount hperm) fun dot hdot => hkeys dot (ExtTreeMap.mem_map.mp hdot),
        List.map_cons, List.append_assoc, List.singleton_append]

/-- One pass of R3 drops what the rule drops. -/
theorem r3Drops_eq (hnodup : bodiless.Nodup) :
    r3Drops retained bodiless =
      (literalDrops retained bodiless).map RetainedSnapshot.storeSeq := by
  have hpass : literalDrops retained bodiless = passDrops
      (fun older => stays bodiless (older ++ retained.drop (retained.length - 2))) []
        (retained.take (retained.length - 2)) :=
    restartDrops_eq_passDrops (fun hsub hy h => stays_sublist (hsub.append_right _)
      (List.mem_append_left _ hy) h) fun y hy => absurd hy List.not_mem_nil
  rw [r3Drops, hpass]
  split_ifs with hlen
  · rw [Nat.sub_eq_zero_of_le (by omega), List.take_zero, passDrops, List.map_nil]
  · refine foldl_r3Step (retained.drop (retained.length - 2)) ?_
      fun dot hdot => mem_of_mem_countCovers hdot
    rw [List.nil_append, List.take_append_drop]
    exact countCovers_counts hnodup

end Pass

/-! ### The rows in order -/

/-- Whether one snapshot was stored before another. -/
def Older (a b : RetainedSnapshot) : Prop := a.storeSeq < b.storeSeq

instance : Std.Irrefl Older := ⟨fun a => lt_irrefl a.storeSeq⟩

instance : Std.Antisymm Older := ⟨fun _ _ hab hba => absurd hab (lt_asymm hba)⟩

theorem mem_oldestFirst {snapshots : List RetainedSnapshot} {s : RetainedSnapshot} :
    s ∈ oldestFirst snapshots ↔ s ∈ snapshots :=
  (List.mergeSort_perm _ _).mem_iff

theorem pairwise_oldestFirst {snapshots : List RetainedSnapshot}
    (hseqs : (snapshots.map RetainedSnapshot.storeSeq).Nodup) :
    (oldestFirst snapshots).Pairwise Older := by
  have hsorted : (oldestFirst snapshots).Pairwise
      fun a b => decide (a.storeSeq ≤ b.storeSeq) = true := by
    refine List.pairwise_mergeSort (fun a b c hab hbc => ?_) (fun a b => ?_) snapshots
    · simp only [decide_eq_true_eq] at *
      omega
    · simp only [Bool.or_eq_true, decide_eq_true_eq]
      omega
  have hne : (oldestFirst snapshots).Pairwise fun a b => a.storeSeq ≠ b.storeSeq :=
    List.pairwise_map.mp (((List.mergeSort_perm _ _).map _).nodup_iff.mpr hseqs)
  exact hsorted.imp₂ (fun a b hle hne => lt_of_le_of_ne (of_decide_eq_true hle) hne) hne

/-- The rows in order are the only list of them that is in order. -/
theorem oldestFirst_eq {snapshots ordered : List RetainedSnapshot}
    (hseqs : (snapshots.map RetainedSnapshot.storeSeq).Nodup) (hordered : ordered.Pairwise Older)
    (hmem : ∀ s, s ∈ ordered ↔ s ∈ snapshots) : oldestFirst snapshots = ordered :=
  (pairwise_oldestFirst hseqs).eq_of_mem_iff hordered fun s => by rw [mem_oldestFirst, hmem]

theorem repeatedStoreSeq_eq_none {ordered : List RetainedSnapshot} (h : ordered.Pairwise Older) :
    repeatedStoreSeq ordered = none := by
  induction ordered with
  | nil => rfl
  | cons a ordered ih =>
    obtain ⟨ha, hrest⟩ := List.pairwise_cons.mp h
    cases ordered with
    | nil => rfl
    | cons b ordered =>
      rw [repeatedStoreSeq, if_neg (ha b List.mem_cons_self).ne]
      exact ih hrest

theorem byStoreSeq_eq_ok_iff {snapshots ordered : List RetainedSnapshot} :
    byStoreSeq snapshots = .ok ordered ↔
      (snapshots.map RetainedSnapshot.storeSeq).Nodup ∧ ordered = oldestFirst snapshots := by
  constructor
  · intro h
    have hnodup := (byStoreSeq_eq_ok h).2
    rw [byStoreSeq] at h
    split at h
    · cases h
    · cases h
      exact ⟨((List.mergeSort_perm _ _).map _).nodup_iff.mp hnodup, rfl⟩
  · rintro ⟨hseqs, rfl⟩
    have hnone := repeatedStoreSeq_eq_none (pairwise_oldestFirst hseqs)
    rw [oldestFirst] at hnone ⊢
    rw [byStoreSeq]
    simp only [hnone]

/-- The operations are keyed by dot exactly when no dot repeats. -/
theorem indexOps_ok_iff {ops : List OpDot} :
    (∃ indexed, indexOps ops = .ok indexed) ↔ (ops.map OpDot.dot).Nodup := by
  have hfold (m : ExtTreeMap Dot Body) : (∃ indexed, ops.foldlM (fun indexed op =>
      if op.dot ∈ indexed then Except.error (InputError.duplicateOp op.dot)
      else Except.ok (indexed.insert op.dot op.body)) m = Except.ok indexed) ↔
      (ops.map OpDot.dot).Nodup ∧ ∀ op ∈ ops, op.dot ∉ m := by
    induction ops generalizing m with
    | nil => simp [pure, Except.pure]
    | cons op ops ih =>
      simp only [List.foldlM_cons, List.map_cons, List.nodup_cons, List.forall_mem_cons]
      by_cases hmem : op.dot ∈ m
      · simp [bind, Except.bind, hmem]
      · have hnew : (∀ x ∈ ops, x.dot ∉ m.insert op.dot op.body) ↔
            op.dot ∉ ops.map OpDot.dot ∧ ∀ x ∈ ops, x.dot ∉ m := by
          simp only [ExtTreeMap.mem_insert, compare_eq_iff_eq, not_or, List.mem_map, not_exists,
            not_and]
          exact ⟨fun h => ⟨fun x hx heq => (h x hx).1 heq.symm, fun x hx => (h x hx).2⟩,
            fun h x hx => ⟨fun heq => h.1 x hx heq.symm, h.2 x hx⟩⟩
        simp only [if_neg hmem]
        refine (ih (m.insert op.dot op.body)).trans ?_
        rw [hnew]
        tauto
  rw [indexOps, hfold ∅]
  simp

/-! ### The plan -/

section Plan

variable {snapshots : List RetainedSnapshot} {ops : List OpDot}

theorem pairwise_mergeSort_dots {dots : List Dot} (hnodup : dots.Nodup) :
    dots.mergeSort.Pairwise (· < ·) := by
  have hne : dots.mergeSort.Pairwise fun a b => a ≠ b :=
    (List.mergeSort_perm _ _).nodup_iff.mpr hnodup
  exact (List.pairwise_mergeSort' (· ≤ ·) dots).imp₂ (fun _ _ hle hne => lt_of_le_of_ne hle hne) hne

/-- What R1 deletes is what its rule says. -/
theorem r1Deletions_eq {ordered : List RetainedSnapshot} {indexed : ExtTreeMap Dot Body}
    (hindexed : indexOps ops = .ok indexed) :
    r1Deletions ordered indexed = literalDeletions ordered ops := by
  have hnodup := indexOps_ok_iff.mp ⟨indexed, hindexed⟩
  rw [r1Deletions, literalDeletions]
  rcases ordered.reverse with _ | ⟨_, _ | ⟨older, _⟩⟩
  · rfl
  · rfl
  · dsimp only [List.getElem?_cons_succ, List.getElem?_cons_zero]
    refine List.Pairwise.eq_of_mem_iff (r := (· < ·)) ?_ (pairwise_mergeSort_dots ?_) fun dot => ?_
    · exact List.pairwise_map.mpr (indexed.pairwise_fst_toList.filter _)
    · exact hnodup.sublist (List.filter_sublist.map _)
    · rw [(List.mergeSort_perm _ _).mem_iff, List.mem_map, List.mem_map]
      simp only [List.mem_filter, decide_eq_true_eq]
      constructor
      · rintro ⟨⟨d, body⟩, ⟨hmem, hheld⟩, rfl⟩
        have hget := ExtTreeMap.mem_toList_iff_getElem?_eq_some.mp hmem
        exact ⟨⟨d, body⟩, ⟨(indexOps_eq_ok hindexed _ _).mp hget, hheld⟩, rfl⟩
      · rintro ⟨⟨d, body⟩, ⟨hmem, hheld⟩, rfl⟩
        have hget := (indexOps_eq_ok hindexed _ _).mpr hmem
        exact ⟨(d, body), ⟨ExtTreeMap.mem_toList_iff_getElem?_eq_some.mpr hget, hheld⟩, rfl⟩

/-- The plan is the plan of the rules, and it exists exactly when no store sequence and no dot
repeats. -/
theorem planWorker_eq_ok_iff {plan : WorkerPlan} :
    planWorker snapshots ops = .ok plan ↔ (snapshots.map RetainedSnapshot.storeSeq).Nodup ∧
      (ops.map OpDot.dot).Nodup ∧ plan = literalWorker snapshots ops := by
  have hplan {plan : WorkerPlan} (h : planWorker snapshots ops = .ok plan) :
      plan = literalWorker snapshots ops := by
    obtain ⟨ordered, indexed, hordered, hindexed, hdelete, hdrop⟩ := planWorker_eq_ok h
    obtain ⟨-, rfl⟩ := byStoreSeq_eq_ok_iff.mp hordered
    rw [r1Deletions_eq hindexed] at hdelete
    rw [r3Drops_eq ((Std.ExtTreeSet.pairwise_toList _).imp ne_of_lt)] at hdrop
    obtain ⟨deleteBodies, dropSnapshots⟩ := plan
    dsimp only at hdelete hdrop
    rw [hdrop, literalWorker, hdelete, literalDrops_congr fun dot => ?_]
    rw [Std.ExtTreeSet.mem_toList_ofList, List.mem_append, List.mem_map, List.mem_map]
    simp only [List.mem_filter, decide_eq_true_eq]
    constructor
    · rintro (⟨⟨d, body⟩, ⟨hmem, habsent⟩, rfl⟩ | hdot)
      · have hget := ExtTreeMap.mem_toList_iff_getElem?_eq_some.mp hmem
        exact ⟨⟨d, body⟩, ⟨(indexOps_eq_ok hindexed _ _).mp hget, .inl habsent⟩, rfl⟩
      · have hop := (planWorker_deleteBodies h (hdelete ▸ hdot)).1
        exact ⟨⟨dot, .held⟩, ⟨hop, .inr hdot⟩, rfl⟩
    · rintro ⟨⟨d, body⟩, ⟨hmem, habsent | hdot⟩, rfl⟩
      · have hget := (indexOps_eq_ok hindexed _ _).mpr hmem
        exact .inl ⟨(d, body),
          ⟨ExtTreeMap.mem_toList_iff_getElem?_eq_some.mpr hget, habsent⟩, rfl⟩
      · exact .inr hdot
  constructor
  · intro h
    obtain ⟨ordered, indexed, hordered, hindexed, -⟩ := planWorker_eq_ok h
    exact ⟨(byStoreSeq_eq_ok_iff.mp hordered).1, indexOps_ok_iff.mp ⟨indexed, hindexed⟩, hplan h⟩
  · rintro ⟨hseqs, hdots, rfl⟩
    obtain ⟨indexed, hindexed⟩ := indexOps_ok_iff.mpr hdots
    obtain ⟨plan, hok⟩ : ∃ plan, planWorker snapshots ops = .ok plan := by
      rw [planWorker, byStoreSeq_eq_ok_iff.mpr ⟨hseqs, rfl⟩, hindexed]
      exact ⟨_, rfl⟩
    rw [hok, hplan hok]

theorem literalDeletions_perm {retained : List RetainedSnapshot} {ops' : List OpDot}
    (hdots : (ops.map OpDot.dot).Nodup) (hperm : ops'.Perm ops) :
    literalDeletions retained ops' = literalDeletions retained ops := by
  rw [literalDeletions, literalDeletions]
  match retained.reverse with
  | [] => rfl
  | [_] => rfl
  | _ :: older :: _ =>
    have hdots' := (hperm.map OpDot.dot).nodup_iff.mpr hdots
    refine (pairwise_mergeSort_dots (hdots'.sublist (List.filter_sublist.map _))).eq_of_mem_iff
      (pairwise_mergeSort_dots (hdots.sublist (List.filter_sublist.map _))) fun dot => ?_
    rw [(List.mergeSort_perm _ _).mem_iff, (List.mergeSort_perm _ _).mem_iff]
    exact ((hperm.filter _).map _).mem_iff

/-- The rules do not look at the order of the rows. -/
theorem literalWorker_perm {snapshots' : List RetainedSnapshot} {ops' : List OpDot}
    (hseqs : (snapshots.map RetainedSnapshot.storeSeq).Nodup) (hdots : (ops.map OpDot.dot).Nodup)
    (hsnapshots : snapshots'.Perm snapshots) (hops : ops'.Perm ops) :
    literalWorker snapshots' ops' = literalWorker snapshots ops := by
  have hordered : oldestFirst snapshots' = oldestFirst snapshots :=
    oldestFirst_eq ((hsnapshots.map _).nodup_iff.mpr hseqs) (pairwise_oldestFirst hseqs)
      fun s => by rw [mem_oldestFirst, hsnapshots.mem_iff]
  rw [literalWorker, literalWorker, hordered]
  simp only [literalDeletions_perm hdots hops]
  rw [literalDrops_congr fun dot => ((hops.filter _).map _).mem_iff]

/-! ### Once the plan is applied -/

theorem literalDrops_subset (retained : List RetainedSnapshot) (bodiless : List Dot) :
    literalDrops retained bodiless ⊆ retained.take (retained.length - 2) :=
  restartDrops_subset _

/-- The rows a plan leaves, in order: the older ones without the dropped ones, then the two
newest. -/
theorem oldestFirst_without (hseqs : (snapshots.map RetainedSnapshot.storeSeq).Nodup)
    {older two dropped : List RetainedSnapshot} (hsplit : oldestFirst snapshots = older ++ two)
    (hdropped : dropped ⊆ older) :
    oldestFirst (without snapshots (dropped.map RetainedSnapshot.storeSeq)) =
      older.diff dropped ++ two := by
  have hordered := hsplit ▸ pairwise_oldestFirst hseqs
  obtain ⟨holder, -, hlt⟩ := List.pairwise_append.mp hordered
  have hmem (s : RetainedSnapshot) : s ∈ snapshots ↔ s ∈ older ∨ s ∈ two := by
    rw [← mem_oldestFirst, hsplit, List.mem_append]
  have hdrop (s : RetainedSnapshot) (hs : s ∈ snapshots) :
      s.storeSeq ∈ dropped.map RetainedSnapshot.storeSeq ↔ s ∈ dropped := by
    refine ⟨fun h => ?_, List.mem_map_of_mem⟩
    obtain ⟨t, ht, heq⟩ := List.mem_map.mp h
    rwa [← List.inj_on_of_nodup_map hseqs ((hmem t).mpr (.inl (hdropped ht))) hs heq]
  have hfewer : (without snapshots (dropped.map RetainedSnapshot.storeSeq)).Sublist snapshots :=
    List.filter_sublist
  refine oldestFirst_eq (hseqs.sublist (hfewer.map _)) ?_ fun s => ?_
  · exact hordered.sublist ((List.diff_sublist older dropped).append_right two)
  · rw [mem_without, List.mem_append, holder.nodup.mem_sdiff_iff]
    constructor
    · rintro (⟨hs, hnot⟩ | hs)
      · have hmem' := (hmem s).mpr (.inl hs)
        exact ⟨hmem', fun h => hnot ((hdrop s hmem').mp h)⟩
      · have hmem' := (hmem s).mpr (.inr hs)
        exact ⟨hmem', fun h => irrefl s (hlt s (hdropped ((hdrop s hmem').mp h)) s hs)⟩
    · rintro ⟨hs, hnot⟩
      exact ((hmem s).mp hs).imp_left fun h => ⟨h, fun hd => hnot ((hdrop s hs).mpr hd)⟩

theorem mem_literalDeletions {retained : List RetainedSnapshot} {dot : Dot} :
    dot ∈ literalDeletions retained ops ↔ ∃ newest older rest,
      retained.reverse = newest :: older :: rest ∧ older.covers dot ∧
        2 ≤ (coverAuthors retained dot).card ∧ ⟨dot, .held⟩ ∈ ops := by
  rw [literalDeletions]
  match retained.reverse with
  | [] => simp
  | [_] => simp
  | newest :: older :: rest =>
    simp only [(List.mergeSort_perm _ _).mem_iff, List.mem_map, List.mem_filter,
      decide_eq_true_eq]
    constructor
    · rintro ⟨⟨d, body⟩, ⟨hmem, rfl, hcov, htwo⟩, rfl⟩
      exact ⟨newest, older, rest, rfl, hcov, htwo, hmem⟩
    · rintro ⟨_, _, _, ⟨⟩, hcov, htwo, hmem⟩
      exact ⟨_, ⟨hmem, rfl, hcov, htwo⟩, rfl⟩

theorem mem_deleteBodiesOf {plan : WorkerPlan} {op : OpDot} :
    op ∈ deleteBodiesOf plan ops ↔ ∃ op' ∈ ops, op'.dot = op.dot ∧
      (if op'.dot ∈ plan.deleteBodies then .absent else op'.body) = op.body := by
  obtain ⟨dot, body⟩ := op
  simp [deleteBodiesOf]

theorem map_dot_deleteBodiesOf (plan : WorkerPlan) :
    (deleteBodiesOf plan ops).map OpDot.dot = ops.map OpDot.dot := by
  rw [deleteBodiesOf, List.map_map]
  rfl

/-- The two newest snapshots are the two newest of those a plan leaves. -/
theorem reverse_append_of_reverse_append {retained older fewer two : List RetainedSnapshot}
    (hsplit : retained = older ++ two) (htwo : two = retained.drop (retained.length - 2))
    (hfewer : fewer.length ≤ older.length) {newest second : RetainedSnapshot}
    {rest : List RetainedSnapshot} (h : (fewer ++ two).reverse = newest :: second :: rest) :
    ∃ rest', retained.reverse = newest :: second :: rest' := by
  have hlen : two.length = retained.length - (retained.length - 2) := by rw [htwo, List.length_drop]
  have hsum := congrArg List.length hsplit
  rw [List.length_append] at hsum
  by_cases htwo' : two.length = 2
  · obtain ⟨a, b, rfl⟩ := List.length_eq_two.mp htwo'
    rw [List.reverse_append] at h
    obtain ⟨rfl, rfl, -⟩ : b = newest ∧ a = second ∧ _ := by simpa using h
    exact ⟨older.reverse, by rw [hsplit]; simp⟩
  · -- Fewer than two snapshots in all, so none is older.
    have hnil : older = [] := List.length_eq_zero_iff.mp (by omega)
    have hnil' : fewer = [] := List.length_eq_zero_iff.mp (by simpa [hnil] using hfewer)
    exact ⟨rest, by rw [hsplit, hnil, ← h, hnil']⟩

/-- Once a plan of the rules is applied, the rules have nothing left to do. -/
theorem literalWorker_applyPlan (hseqs : (snapshots.map RetainedSnapshot.storeSeq).Nodup) :
    literalWorker (without snapshots (literalWorker snapshots ops).dropSnapshots)
      (deleteBodiesOf (literalWorker snapshots ops) ops) = ⟨[], []⟩ := by
  set plan := literalWorker snapshots ops with hplan
  set retained := oldestFirst snapshots with hretained
  set bodiless := (ops.filter fun op =>
    op.body = .absent ∨ op.dot ∈ literalDeletions retained ops).map OpDot.dot with hbodiless
  set older := retained.take (retained.length - 2) with holder
  set two := retained.drop (retained.length - 2) with htwo
  have hsplit : retained = older ++ two := (List.take_append_drop _ _).symm
  have hleft : oldestFirst (without snapshots plan.dropSnapshots) =
      older.diff (literalDrops retained bodiless) ++ two :=
    oldestFirst_without hseqs hsplit (literalDrops_subset _ _)
  set fewer := older.diff (literalDrops retained bodiless) with hfewer
  have hsub : fewer.Sublist older := List.diff_sublist older _
  have hdelete : literalDeletions (fewer ++ two) (deleteBodiesOf plan ops) = [] := by
    refine List.eq_nil_iff_forall_not_mem.mpr fun dot hdot => ?_
    obtain ⟨newest, second, rest, hrev, hcov, hauthors, hheld⟩ := mem_literalDeletions.mp hdot
    obtain ⟨op, hop, rfl, hbody⟩ := mem_deleteBodiesOf.mp hheld
    obtain ⟨rest', hrev'⟩ := reverse_append_of_reverse_append hsplit htwo hsub.length_le hrev
    have hauthors' : 2 ≤ (coverAuthors retained op.dot).card := by
      rw [hsplit]
      exact hauthors.trans (Finset.card_le_card
        (coverAuthors_subset (hsub.append_right two).subset _))
    -- The body is held, so the first plan did not delete it, though its rule asked for that.
    split_ifs at hbody with hmem
    refine hmem (mem_literalDeletions.mpr ⟨newest, second, rest', hrev', hcov, hauthors', ?_⟩)
    have hop' : (⟨op.dot, op.body⟩ : OpDot) ∈ ops := hop
    rwa [hbody] at hop'
  have hdrops : literalDrops (fewer ++ two) bodiless = [] := by
    have hlen : two.length = retained.length - (retained.length - 2) := by
      rw [htwo, List.length_drop]
    have hlen' := congrArg List.length hsplit
    have hle := hsub.length_le
    rw [List.length_append] at hlen'
    have hcount : (fewer ++ two).length - 2 = fewer.length := by
      rw [List.length_append]
      omega
    rw [literalDrops, hcount, List.take_left, List.drop_left]
    exact restartDrops_diff older
  rw [literalWorker, hleft]
  simp only [hdelete, List.not_mem_nil, or_false]
  rw [literalDrops_congr fun dot => ?_, hdrops]
  · rfl
  · simp only [hbodiless, List.mem_map, List.mem_filter, decide_eq_true_eq, mem_deleteBodiesOf]
    constructor
    · rintro ⟨_, ⟨⟨op, hop, hdot, hbody⟩, habsent⟩, rfl⟩
      refine ⟨op, ⟨hop, ?_⟩, hdot⟩
      split_ifs at hbody with hmem
      · exact .inr hmem
      · exact .inl (hbody.trans habsent)
    · rintro ⟨op, ⟨hop, hbody⟩, rfl⟩
      refine ⟨⟨op.dot, .absent⟩, ⟨⟨op, hop, rfl, ?_⟩, rfl⟩, rfl⟩
      split_ifs with hmem
      · rfl
      · exact hbody.resolve_right hmem

/-- One pass over the counts is the literal rule: the plan exists exactly when no store sequence and
no dot repeats, and then it deletes the bodies of R1 and drops the snapshots of R3 tested again from
the oldest after every drop. It does not depend on the order of the rows, and once it is applied the
next plan is empty. -/
theorem planWorker_literal (snapshots : List RetainedSnapshot) (ops : List OpDot) :
    (∀ plan, planWorker snapshots ops = .ok plan ↔
        (snapshots.map RetainedSnapshot.storeSeq).Nodup ∧ (ops.map OpDot.dot).Nodup ∧
          plan = literalWorker snapshots ops) ∧
      (∀ snapshots' ops', snapshots'.Perm snapshots → ops'.Perm ops →
        ∀ plan, planWorker snapshots' ops' = .ok plan ↔ planWorker snapshots ops = .ok plan) ∧
      ∀ plan, planWorker snapshots ops = .ok plan →
        planWorker (applyPlan snapshots ops plan).1 (applyPlan snapshots ops plan).2 =
          .ok ⟨[], []⟩ := by
  refine ⟨fun plan => planWorker_eq_ok_iff, fun snapshots' ops' hsnapshots hops plan => ?_,
    fun plan h => ?_⟩
  · rw [planWorker_eq_ok_iff, planWorker_eq_ok_iff, (hsnapshots.map _).nodup_iff,
      (hops.map _).nodup_iff]
    constructor
    · rintro ⟨hseqs, hdots, rfl⟩
      exact ⟨hseqs, hdots, literalWorker_perm hseqs hdots hsnapshots hops⟩
    · rintro ⟨hseqs, hdots, rfl⟩
      exact ⟨hseqs, hdots, (literalWorker_perm hseqs hdots hsnapshots hops).symm⟩
  · obtain ⟨hseqs, hdots, rfl⟩ := planWorker_eq_ok_iff.mp h
    refine planWorker_eq_ok_iff.mpr ⟨?_, ?_, (literalWorker_applyPlan hseqs).symm⟩
    · exact hseqs.sublist (List.filter_sublist.map _)
    · rwa [applyPlan, map_dot_deleteBodiesOf]

end Plan

/-- The first operation of a device, and a snapshot of the device that covers it. -/
def firstDot (device : DeviceId) : Dot := ⟨device, 1, Nat.one_pos, Lib.one_lt_u64⟩

def firstCover (storeSeq : ℕ) (device : DeviceId) : RetainedSnapshot :=
  ⟨storeSeq, .ofDots [firstDot device], device⟩

/-- Two snapshots by one author cover a bodiless header and the two newest do not: the older of the
two goes, whatever the order of the rows, and the rows it leaves have an empty plan. -/
theorem planWorker_literal_retested :
    planWorker [firstCover 4 ⟨2⟩, firstCover 1 ⟨1⟩, firstCover 3 ⟨2⟩, firstCover 2 ⟨1⟩]
        [⟨firstDot ⟨1⟩, .absent⟩] = .ok ⟨[], [1]⟩ ∧
      planWorker [firstCover 2 ⟨1⟩, firstCover 3 ⟨2⟩, firstCover 4 ⟨2⟩]
        [⟨firstDot ⟨1⟩, .absent⟩] = .ok ⟨[], []⟩ := by
  have hplan : planWorker [firstCover 1 ⟨1⟩, firstCover 2 ⟨1⟩, firstCover 3 ⟨2⟩, firstCover 4 ⟨2⟩]
      [⟨firstDot ⟨1⟩, .absent⟩] = .ok ⟨[], [1]⟩ := by
    rw [planWorker, byStoreSeq_eq_ok_iff.mpr ⟨by decide, (oldestFirst_eq
      (by decide) (by simp [Older, firstCover]) fun _ => Iff.rfl).symm⟩]
    decide
  have h := planWorker_literal
    [firstCover 1 ⟨1⟩, firstCover 2 ⟨1⟩, firstCover 3 ⟨2⟩, firstCover 4 ⟨2⟩]
    [⟨firstDot ⟨1⟩, .absent⟩]
  exact ⟨(h.2.1 _ _ (by decide) (List.Perm.refl _) _).mpr hplan, h.2.2 ⟨[], [1]⟩ hplan⟩

end RizzyVault.Sync
