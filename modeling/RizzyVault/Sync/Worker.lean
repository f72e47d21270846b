import RizzyVault.Lib.Result
import RizzyVault.Lib.Tally
import RizzyVault.Sync.Compaction

/-!
# The laws of the worker

What the bodies and snapshots a worker run removes leave behind. A body goes only where snapshots
by two authors cover it, and no single drop of a snapshot, in the order in which they are dropped,
leaves a bodiless header with fewer authors than two, or than it had.

## Main definitions

* `without`: the snapshots left after some are dropped.
* `CountsCovers`: a map of cover counts agrees with a list of snapshots.

## Main results

* `planWorker_deleteBodies`, `planWorker_dropSnapshots`.
-/

namespace RizzyVault.Sync

open Std (ExtTreeMap)
open RizzyVault.Lib

/-- The snapshots left after those with the given store sequences are dropped. -/
def without (snapshots : List RetainedSnapshot) (dropped : List ℕ) : List RetainedSnapshot :=
  snapshots.filter fun s => s.storeSeq ∉ dropped

/-- How many of the snapshots by `author` cover `dot`. -/
def coverCount (snapshots : List RetainedSnapshot) (dot : Dot) (author : DeviceId) : ℕ :=
  snapshots.countP fun s => s.covers dot ∧ s.author = author

theorem mem_without {snapshots : List RetainedSnapshot} {dropped : List ℕ} {s : RetainedSnapshot} :
    s ∈ without snapshots dropped ↔ s ∈ snapshots ∧ s.storeSeq ∉ dropped := by
  simp [without]

theorem mem_coverAuthors {snapshots : List RetainedSnapshot} {dot : Dot} {author : DeviceId} :
    author ∈ coverAuthors snapshots dot ↔
      ∃ s ∈ snapshots, s.covers dot ∧ s.author = author := by
  simp [coverAuthors, and_assoc]

theorem coverAuthors_congr {a b : List RetainedSnapshot} (h : ∀ s, s ∈ a ↔ s ∈ b) (dot : Dot) :
    coverAuthors a dot = coverAuthors b dot := by
  ext author
  simp only [mem_coverAuthors, h]

theorem coverCount_ne_zero {snapshots : List RetainedSnapshot} {dot : Dot} {author : DeviceId} :
    coverCount snapshots dot author ≠ 0 ↔ author ∈ coverAuthors snapshots dot := by
  rw [mem_coverAuthors, ← Nat.pos_iff_ne_zero, coverCount, List.countP_pos_iff]
  simp

/-! ### Counting covers -/

/-- The map counts, for every header of `bodiless`, the covers per author among `snapshots`. -/
def CountsCovers (covers : ExtTreeMap Dot CoverCounts) (snapshots : List RetainedSnapshot)
    (bodiless : List Dot) : Prop :=
  ∀ dot ∈ bodiless, Tallies (covers.getD dot ∅) (coverCount snapshots dot)

theorem tallies_foldl_count {m : CoverCounts} {f : DeviceId → ℕ} (h : Tallies m f)
    (snapshots : List RetainedSnapshot) :
    Tallies (snapshots.foldl (fun m s => CoverCounts.count m s.author) m) fun a =>
      f a + snapshots.countP fun s => s.author = a := by
  induction snapshots generalizing m f with
  | nil => exact h
  | cons s snapshots ih =>
    refine (ih (h.insert_succ s.author)).congr fun a => ?_
    rw [List.countP_cons]
    by_cases ha : a = s.author
    · subst ha
      simp
      omega
    · have ha' : s.author ≠ a := fun h => ha h.symm
      simp [ha, ha']

theorem getD_foldl_count (covers : ExtTreeMap Dot CoverCounts) (d dot : Dot)
    (snapshots : List RetainedSnapshot) :
    (snapshots.foldl (fun covers s =>
      covers.insert d ((covers.getD d ∅).count s.author)) covers).getD dot ∅ =
      if d = dot then snapshots.foldl (fun m s => CoverCounts.count m s.author) (covers.getD dot ∅)
      else covers.getD dot ∅ := by
  induction snapshots generalizing covers with
  | nil => simp
  | cons s snapshots ih =>
    rw [List.foldl_cons, ih]
    simp only [ExtTreeMap.getD_insert, compare_eq_iff_eq]
    split_ifs with hd
    · subst hd
      rfl
    · rfl

theorem getD_countCovers (ordered : List RetainedSnapshot) {bodiless : List Dot}
    (hnodup : bodiless.Nodup) (covers : ExtTreeMap Dot CoverCounts) (dot : Dot) :
    (bodiless.foldl (fun covers dot => (ordered.filter fun s => s.covers dot).foldl (fun covers s =>
      covers.insert dot ((covers.getD dot ∅).count s.author)) covers) covers).getD dot ∅ =
      if dot ∈ bodiless then (ordered.filter fun s => s.covers dot).foldl
        (fun m s => CoverCounts.count m s.author) (covers.getD dot ∅)
      else covers.getD dot ∅ := by
  induction bodiless generalizing covers with
  | nil => simp
  | cons d bodiless ih =>
    obtain ⟨hd, hrest⟩ := List.nodup_cons.mp hnodup
    rw [List.foldl_cons, ih hrest, getD_foldl_count]
    by_cases hdot : d = dot
    · subst hdot
      simp [hd]
    · have hdot' : dot ≠ d := fun h => hdot h.symm
      simp [hdot, hdot']

/-- Counting the covers of distinct headers gives the counts of each. -/
theorem countCovers_counts {ordered : List RetainedSnapshot} {bodiless : List Dot}
    (hnodup : bodiless.Nodup) : CountsCovers (countCovers ordered bodiless) ordered bodiless := by
  intro dot hdot
  rw [countCovers, getD_countCovers ordered hnodup, if_pos hdot]
  have hempty : Tallies ((∅ : ExtTreeMap Dot CoverCounts).getD dot ∅) fun _ => 0 := by
    rw [ExtTreeMap.getD_empty]
    exact tallies_empty
  refine (tallies_foldl_count hempty _).congr fun a => ?_
  rw [Nat.zero_add, List.countP_filter, coverCount]
  refine List.countP_congr fun s _ => ?_
  simp [and_comm]

/-! ### One drop -/

/-- A header that a counted snapshot covers has an entry. -/
theorem CountsCovers.entry {covers : ExtTreeMap Dot CoverCounts} {retained : List RetainedSnapshot}
    {bodiless : List Dot} (h : CountsCovers covers retained bodiless) {dot : Dot}
    (hdot : dot ∈ bodiless) {s : RetainedSnapshot} (hs : s ∈ retained) (hcov : s.covers dot) :
    ∃ byAuthor, covers[dot]? = some byAuthor ∧ Tallies byAuthor (coverCount retained dot) := by
  have htally := h dot hdot
  have hne : coverCount retained dot s.author ≠ 0 :=
    coverCount_ne_zero.mpr (mem_coverAuthors.mpr ⟨s, hs, hcov, rfl⟩)
  rw [ExtTreeMap.getD_eq_getD_getElem?] at htally
  cases hentry : covers[dot]? with
  | none =>
    rw [hentry] at htally
    have := htally s.author
    simp [hne] at this
  | some byAuthor => exact ⟨byAuthor, rfl, by simpa [hentry] using htally⟩

theorem coverCount_cons (s : RetainedSnapshot) (retained : List RetainedSnapshot) (dot : Dot)
    (author : DeviceId) : coverCount (s :: retained) dot author =
      coverCount retained dot author + if s.covers dot ∧ s.author = author then 1 else 0 := by
  rw [coverCount, List.countP_cons, coverCount]
  simp

theorem coverCount_perm {a b : List RetainedSnapshot} (h : a.Perm b) (dot : Dot)
    (author : DeviceId) : coverCount a dot author = coverCount b dot author :=
  h.countP_eq _

/-- The counts once a snapshot is dropped. -/
theorem CountsCovers.uncount {covers : ExtTreeMap Dot CoverCounts}
    {before after : List RetainedSnapshot} {bodiless : List Dot} {s : RetainedSnapshot}
    (h : CountsCovers covers before bodiless) (hperm : before.Perm (s :: after)) :
    CountsCovers (covers.map fun dot byAuthor =>
      if s.covers dot then byAuthor.uncount s.author else byAuthor) after bodiless := by
  intro dot hdot
  have hcount (a : DeviceId) : coverCount before dot a =
      coverCount after dot a + if s.covers dot ∧ s.author = a then 1 else 0 := by
    rw [coverCount_perm hperm, coverCount_cons]
  rw [ExtTreeMap.getD_eq_getD_getElem?, ExtTreeMap.getElem?_map]
  by_cases hcov : s.covers dot
  · obtain ⟨byAuthor, hentry, htally⟩ :=
      h.entry hdot (hperm.mem_iff.mpr List.mem_cons_self) hcov
    rw [hentry, Option.map_some, Option.getD_some, if_pos hcov]
    refine (htally.alter_pred s.author).congr fun a => ?_
    rw [hcount]
    by_cases ha : a = s.author
    · simp [hcov, ha]
    · have ha' : s.author ≠ a := fun h => ha h.symm
      simp [ha, ha']
  · have hsame : (covers[dot]?.map fun byAuthor =>
        if s.covers dot then byAuthor.uncount s.author else byAuthor) = covers[dot]? := by
      simp [hcov]
    rw [hsame, ← ExtTreeMap.getD_eq_getD_getElem?]
    refine (h dot hdot).congr fun a => ?_
    rw [hcount]
    simp [hcov]

/-- Whether a drop would lower the authors of a header below two, read off the header's authors
before and after it. -/
theorem lowersBelowTwo_iff {m : CoverCounts} {f : DeviceId → ℕ} (h : Tallies m f)
    {before after : Finset DeviceId} {author : DeviceId} (hbefore : ∀ a, a ∈ before ↔ f a ≠ 0)
    (hafter : ∀ a, a ∈ after ↔ (f a - if a = author then 1 else 0) ≠ 0) :
    lowersBelowTwo m author = true ↔ after.card < before.card ∧ after.card < 2 := by
  have hsize := h.size_eq hbefore
  have hone : m[author]? = some 1 ↔ f author = 1 := by
    rw [h author]
    by_cases hf : f author = 0
    · simp [hf]
    · simp [hf]
  simp only [lowersBelowTwo, hone, hsize, decide_eq_true_eq]
  by_cases hf : f author = 1
  · -- The author loses its only cover.
    have herase : after = before.erase author := by
      ext a
      rw [hafter, Finset.mem_erase, hbefore]
      by_cases ha : a = author
      · simp [ha, hf]
      · simp [ha]
    have hmem : author ∈ before := (hbefore author).mpr (by omega)
    rw [herase, Finset.card_erase_of_mem hmem, if_pos hf]
    omega
  · have hsame : after = before := by
      ext a
      rw [hafter, hbefore]
      by_cases ha : a = author
      · subst ha
        simp
        omega
      · simp [ha]
    rw [hsame, if_neg hf]
    omega

/-- The counts tell what a drop does to the authors of a header that the snapshot covers. -/
theorem CountsCovers.lowersBelowTwo_iff {covers : ExtTreeMap Dot CoverCounts}
    {before after : List RetainedSnapshot} {bodiless : List Dot} {s : RetainedSnapshot}
    (h : CountsCovers covers before bodiless) (hperm : before.Perm (s :: after)) {dot : Dot}
    (hdot : dot ∈ bodiless) (hcov : s.covers dot) :
    ∃ byAuthor, covers[dot]? = some byAuthor ∧ (lowersBelowTwo byAuthor s.author = true ↔
      (coverAuthors after dot).card < (coverAuthors before dot).card ∧
        (coverAuthors after dot).card < 2) := by
  obtain ⟨byAuthor, hentry, htally⟩ :=
    h.entry hdot (hperm.mem_iff.mpr List.mem_cons_self) hcov
  refine ⟨byAuthor, hentry,
    Sync.lowersBelowTwo_iff htally (fun a => coverCount_ne_zero.symm) fun a => ?_⟩
  rw [← coverCount_ne_zero, coverCount_perm hperm, coverCount_cons]
  simp [hcov, eq_comm]

theorem coverAuthors_of_not_covers {before after : List RetainedSnapshot} {s : RetainedSnapshot}
    (hperm : before.Perm (s :: after)) {dot : Dot} (hcov : ¬ s.covers dot) :
    coverAuthors after dot = coverAuthors before dot := by
  ext a
  rw [← coverCount_ne_zero, ← coverCount_ne_zero, coverCount_perm hperm, coverCount_cons]
  simp [hcov]

section Drops

variable {ordered : List RetainedSnapshot} {bodiless : List Dot}
  (hseqs : (ordered.map RetainedSnapshot.storeSeq).Nodup)

include hseqs

theorem perm_cons_without {dropped : List ℕ} {s : RetainedSnapshot}
    (hs : s ∈ without ordered dropped) :
    (without ordered dropped).Perm (s :: without ordered (dropped ++ [s.storeSeq])) := by
  have hnodup : (without ordered dropped).Nodup := (List.Nodup.of_map _ hseqs).filter _
  have herase : without ordered (dropped ++ [s.storeSeq]) = (without ordered dropped).erase s := by
    rw [hnodup.erase_eq_filter]
    unfold without
    rw [List.filter_filter]
    refine List.filter_congr fun t ht => ?_
    have hinj : t.storeSeq = s.storeSeq ↔ t = s :=
      ⟨List.inj_on_of_nodup_map hseqs ht (mem_without.mp hs).1, fun h => h ▸ rfl⟩
    by_cases hts : t = s
    · simp [hts]
    · simp [hinj, hts]
  rw [herase]
  exact List.perm_cons_erase hs

/-- One step of R3 keeps the counts right, and a snapshot it drops leaves every bodiless header two
authors, or all it had. -/
theorem r3Step_counts {acc : ExtTreeMap Dot CoverCounts × List ℕ} {s : RetainedSnapshot}
    (hs : s ∈ without ordered acc.2)
    (hcounts : CountsCovers acc.1 (without ordered acc.2) bodiless) :
    CountsCovers (r3Step acc s).1 (without ordered (r3Step acc s).2) bodiless ∧
      (r3Step acc s = acc ∨ (r3Step acc s).2 = acc.2 ++ [s.storeSeq] ∧
        ∀ dot ∈ bodiless, min 2 (coverAuthors (without ordered acc.2) dot).card ≤
          (coverAuthors (without ordered (acc.2 ++ [s.storeSeq])) dot).card) := by
  have hperm := perm_cons_without hseqs hs
  rw [r3Step]
  split_ifs with hany
  · exact ⟨hcounts, .inl rfl⟩
  · refine ⟨hcounts.uncount hperm, .inr ⟨rfl, fun dot hdot => ?_⟩⟩
    by_cases hcov : s.covers dot
    · obtain ⟨byAuthor, hentry, hiff⟩ := hcounts.lowersBelowTwo_iff hperm hdot hcov
      have hlow : ¬ lowersBelowTwo byAuthor s.author = true := fun htrue =>
        hany (List.any_eq_true.mpr ⟨(dot, byAuthor),
          ExtTreeMap.mem_toList_iff_getElem?_eq_some.mpr hentry, by simp [hcov, htrue]⟩)
      rw [hiff] at hlow
      omega
    · rw [coverAuthors_of_not_covers hperm hcov]
      exact min_le_right _ _

/-- Each drop in turn leaves every bodiless header two authors, or all it had. -/
def DropsKeep (ordered : List RetainedSnapshot) (bodiless : List Dot) (dropped : List ℕ) : Prop :=
  ∀ k < dropped.length, ∀ dot ∈ bodiless,
    min 2 (coverAuthors (without ordered (dropped.take k)) dot).card ≤
      (coverAuthors (without ordered (dropped.take (k + 1))) dot).card

omit hseqs in
theorem DropsKeep.append_singleton {dropped : List ℕ} {storeSeq : ℕ}
    (h : DropsKeep ordered bodiless dropped) (hlast : ∀ dot ∈ bodiless,
      min 2 (coverAuthors (without ordered dropped) dot).card ≤
        (coverAuthors (without ordered (dropped ++ [storeSeq])) dot).card) :
    DropsKeep ordered bodiless (dropped ++ [storeSeq]) := by
  intro k hk dot hdot
  rw [List.length_append, List.length_singleton] at hk
  obtain hlt | heq : k < dropped.length ∨ k = dropped.length := by omega
  · rw [List.take_append_of_le_length hlt.le, List.take_append_of_le_length hlt]
    exact h k hlt dot hdot
  · rw [List.take_append_of_le_length heq.le, List.take_of_length_le heq.ge,
      List.take_of_length_le (by simp [heq])]
    exact hlast dot hdot

/-- The drops of a run of R3 over snapshots not dropped before. -/
theorem foldl_r3Step_keep {todo : List RetainedSnapshot}
    {acc : ExtTreeMap Dot CoverCounts × List ℕ}
    (htodo : ∀ s ∈ todo, s ∈ without ordered acc.2)
    (hnodup : (todo.map RetainedSnapshot.storeSeq).Nodup)
    (hcounts : CountsCovers acc.1 (without ordered acc.2) bodiless)
    (hkeep : DropsKeep ordered bodiless acc.2) :
    DropsKeep ordered bodiless (todo.foldl r3Step acc).2 := by
  induction todo generalizing acc with
  | nil => exact hkeep
  | cons s todo ih =>
    obtain ⟨hs, hrest⟩ := List.forall_mem_cons.mp htodo
    obtain ⟨hnew, hnodup⟩ := List.nodup_cons.mp (List.map_cons ▸ hnodup)
    obtain ⟨hcounts', hstep⟩ := r3Step_counts hseqs hs hcounts
    rw [List.foldl_cons]
    obtain hsame | ⟨hdrop, hlast⟩ := hstep
    · rw [hsame]
      exact ih hrest hnodup hcounts hkeep
    · refine ih (fun t ht => ?_) hnodup hcounts' ?_
      · rw [hdrop, mem_without, List.mem_append, List.mem_singleton, not_or]
        obtain ⟨hmem, hnot⟩ := mem_without.mp (hrest t ht)
        exact ⟨hmem, hnot, fun h => hnew (h ▸ List.mem_map_of_mem ht)⟩
      · rw [hdrop]
        exact hkeep.append_singleton hlast

theorem r3Drops_keep (hnodup : bodiless.Nodup) :
    DropsKeep ordered bodiless (r3Drops ordered bodiless) := by
  unfold r3Drops
  split_ifs with hlen
  · intro k hk
    simp at hk
  · have hempty : without ordered [] = ordered := by simp [without]
    refine foldl_r3Step_keep hseqs (fun s hs => ?_) ?_ ?_ ?_
    · rw [hempty]
      exact List.mem_of_mem_take hs
    · rw [List.map_take]
      exact hseqs.sublist (List.take_sublist _ _)
    · rw [hempty]
      exact countCovers_counts hnodup
    · intro k hk
      simp at hk

end Drops

/-! ### The plan -/

theorem nodup_of_repeatedStoreSeq {l : List RetainedSnapshot}
    (hsorted : l.Pairwise fun a b => a.storeSeq ≤ b.storeSeq) (h : repeatedStoreSeq l = none) :
    (l.map RetainedSnapshot.storeSeq).Nodup := by
  have hlt : l.Pairwise fun a b => a.storeSeq < b.storeSeq := by
    induction l with
    | nil => exact .nil
    | cons a l ih =>
      obtain ⟨ha, hl⟩ := List.pairwise_cons.mp hsorted
      cases l with
      | nil => exact List.pairwise_singleton _ _
      | cons b l =>
        unfold repeatedStoreSeq at h
        split_ifs at h with hab
        have hrest := ih hl h
        refine List.pairwise_cons.mpr ⟨fun c hc => ?_, hrest⟩
        have hlt : a.storeSeq < b.storeSeq := lt_of_le_of_ne (ha b List.mem_cons_self) hab
        obtain rfl | hc := List.mem_cons.mp hc
        · exact hlt
        · exact hlt.trans ((List.pairwise_cons.mp hrest).1 c hc)
  exact List.pairwise_map.mpr (hlt.imp fun h => h.ne)

theorem byStoreSeq_eq_ok {snapshots ordered : List RetainedSnapshot}
    (h : byStoreSeq snapshots = .ok ordered) :
    (∀ s, s ∈ ordered ↔ s ∈ snapshots) ∧ (ordered.map RetainedSnapshot.storeSeq).Nodup := by
  unfold byStoreSeq at h
  dsimp only at h
  split at h
  · cases h
  · rename_i hrep
    cases h
    refine ⟨fun s => (List.mergeSort_perm _ _).mem_iff, nodup_of_repeatedStoreSeq ?_ hrep⟩
    have hsorted : (snapshots.mergeSort fun a b => a.storeSeq ≤ b.storeSeq).Pairwise
        fun a b => decide (a.storeSeq ≤ b.storeSeq) = true := by
      refine List.pairwise_mergeSort (fun a b c hab hbc => ?_) (fun a b => ?_) snapshots
      · simp only [decide_eq_true_eq] at *
        omega
      · simp only [Bool.or_eq_true, decide_eq_true_eq]
        omega
    exact hsorted.imp of_decide_eq_true

theorem indexOps_eq_ok {ops : List OpDot} {indexed : ExtTreeMap Dot Body}
    (h : indexOps ops = .ok indexed) (dot : Dot) (body : Body) :
    indexed[dot]? = some body ↔ ⟨dot, body⟩ ∈ ops := by
  have hfold (m : ExtTreeMap Dot Body) (hm : ops.foldlM (fun indexed op =>
      if op.dot ∈ indexed then Except.error (InputError.duplicateOp op.dot)
      else Except.ok (indexed.insert op.dot op.body)) m = Except.ok indexed) :
      indexed[dot]? = some body ↔ m[dot]? = some body ∨ ⟨dot, body⟩ ∈ ops := by
    clear h
    induction ops generalizing m with
    | nil =>
      cases hm
      simp
    | cons op ops ih =>
      rw [List.foldlM_cons] at hm
      obtain ⟨m', hstep, hm⟩ := except_bind_eq_ok.mp hm
      split_ifs at hstep with hmem
      cases hstep
      rw [ih _ hm, ExtTreeMap.getElem?_insert_iff, List.mem_cons]
      have hnone : m[op.dot]? = none := ExtTreeMap.getElem?_eq_none hmem
      obtain ⟨d, b⟩ := op
      by_cases hd : d = dot
      · subst hd
        simp [hnone, eq_comm]
      · have hd' : dot ≠ d := fun h => hd h.symm
        simp [hd, hd']
  simpa using hfold ∅ h

theorem planWorker_eq_ok {snapshots : List RetainedSnapshot} {ops : List OpDot}
    {plan : WorkerPlan} (h : planWorker snapshots ops = .ok plan) :
    ∃ ordered indexed, byStoreSeq snapshots = .ok ordered ∧ indexOps ops = .ok indexed ∧
      plan.deleteBodies = r1Deletions ordered indexed ∧
      plan.dropSnapshots = r3Drops ordered (Std.ExtTreeSet.ofList
        ((indexed.toList.filter fun e => e.2 = .absent).map Prod.fst ++
          plan.deleteBodies)).toList := by
  unfold planWorker at h
  obtain ⟨ordered, hordered, h⟩ := except_bind_eq_ok.mp h
  obtain ⟨indexed, hindexed, h⟩ := except_bind_eq_ok.mp h
  cases h
  exact ⟨ordered, indexed, hordered, hindexed, rfl, rfl⟩

/-- What a worker run deletes: held bodies of operations that snapshots by two authors cover. -/
theorem planWorker_deleteBodies {snapshots : List RetainedSnapshot} {ops : List OpDot}
    {plan : WorkerPlan} (h : planWorker snapshots ops = .ok plan) {dot : Dot}
    (hdot : dot ∈ plan.deleteBodies) :
    ⟨dot, .held⟩ ∈ ops ∧ 2 ≤ (coverAuthors snapshots dot).card := by
  obtain ⟨ordered, indexed, hordered, hindexed, hdelete, -⟩ := planWorker_eq_ok h
  obtain ⟨hmem, -⟩ := byStoreSeq_eq_ok hordered
  rw [hdelete, r1Deletions] at hdot
  split at hdot
  · simp at hdot
  · obtain ⟨e, he, rfl⟩ := List.mem_map.mp hdot
    obtain ⟨he, hheld⟩ := List.mem_filter.mp he
    obtain ⟨hheld, -, htwo⟩ := of_decide_eq_true hheld
    have hget := ExtTreeMap.mem_toList_iff_getElem?_eq_some.mp he
    rw [coverAuthors_congr hmem] at htwo
    exact ⟨(indexOps_eq_ok hindexed _ _).mp (hheld ▸ hget), htwo⟩

/-- What a worker run drops: each drop in turn leaves every header without a body, the ones it
deletes included, two authors or all it had. -/
theorem planWorker_dropSnapshots {snapshots : List RetainedSnapshot} {ops : List OpDot}
    {plan : WorkerPlan} (h : planWorker snapshots ops = .ok plan) (bodiless : List Dot)
    (hbodiless : ∀ dot ∈ bodiless, ⟨dot, .absent⟩ ∈ ops ∨ dot ∈ plan.deleteBodies) :
    DropsKeep snapshots bodiless plan.dropSnapshots := by
  obtain ⟨ordered, indexed, hordered, hindexed, -, hdrop⟩ := planWorker_eq_ok h
  obtain ⟨hmem, hseqs⟩ := byStoreSeq_eq_ok hordered
  have hnodup (l : List Dot) : (Std.ExtTreeSet.ofList l).toList.Nodup :=
    (Std.ExtTreeSet.pairwise_toList _).imp ne_of_lt
  have hkeep := r3Drops_keep hseqs (hnodup ((indexed.toList.filter fun e => e.2 = .absent).map
    Prod.fst ++ plan.deleteBodies))
  rw [← hdrop] at hkeep
  intro k hk dot hdot
  have hcongr (dropped : List ℕ) : coverAuthors (without ordered dropped) dot =
      coverAuthors (without snapshots dropped) dot :=
    coverAuthors_congr (fun s => by rw [mem_without, mem_without, hmem]) dot
  have hcounted : dot ∈ (Std.ExtTreeSet.ofList
      ((indexed.toList.filter fun e => e.2 = .absent).map Prod.fst ++ plan.deleteBodies)).toList := by
    rw [Std.ExtTreeSet.mem_toList_ofList, List.mem_append]
    obtain habsent | hdeleted := hbodiless dot hdot
    · have hget := (indexOps_eq_ok hindexed _ _).mpr habsent
      exact .inl (List.mem_map.mpr ⟨(dot, .absent), List.mem_filter.mpr
        ⟨ExtTreeMap.mem_toList_iff_getElem?_eq_some.mpr hget, decide_eq_true rfl⟩, rfl⟩)
    · exact .inr hdeleted
  rw [← hcongr, ← hcongr]
  exact hkeep k hk dot hcounted

end RizzyVault.Sync
