import RizzyVault.Sync.Causal.Runs

/-!
# The plan over covers and the commit

The chain check walks a response twice: once counting every cover that may be absorbed, and once,
after the covers are absorbed, counting what is settled then. Where the caller absorbs the planned
covers up to the cut, both walks accept the same links, and no settled vector passes a head.

## Main definitions

* `VaultLog.absorbAll`: absorbing every planned cover up to the cut.
* `VaultLog.Within`: no settled vector passes a head.
* `VaultLog.Turn`, `VaultLog.turn`, `VaultLog.afterTurns`: runs whose fetches absorb as planned.

## Main results

* `VaultLog.Valid.commit_absorbAll`: the commit accepts what the plan announced.
* `VaultLog.afterTurns_fetch`: in such runs settled vectors stay within the heads, and no commit reports
  one that does not.
-/

open RizzyVault.Lib

namespace RizzyVault.Sync.Causal

open Std (ExtTreeMap ExtTreeSet)

/-- Whether a report is about a settled vector past a head. -/
def Report.isPastHead : Report → Bool
  | .settledPastHead .. => true
  | _ => false

/-! ### Two walks -/

section Extension

variable {cut : Option ℕ} {counts counts' : OpHeader → Bool} {prev : ℕ} {served : List ServedOp}

/-- A walk that counts less accepts the same if it counts what was accepted. -/
theorem extension_congr (hle : ∀ h, counts' h → counts h)
    (hcounts : ∀ op ∈ extension cut counts prev served, needsCover op.body → counts' op.header) :
    extension cut counts' prev served = extension cut counts prev served := by
  induction served generalizing prev with
  | nil => rfl
  | cons op served ih =>
    unfold extension at hcounts ⊢
    by_cases hseq : op.header.dot.seq ≤ prev
    · rw [if_pos hseq] at hcounts ⊢
      rw [if_pos hseq]
      exact ih hcounts
    · rw [if_neg hseq] at hcounts ⊢
      rw [if_neg hseq]
      by_cases hstop : (∃ c ∈ cut, c < op.header.dot.seq) ∨ op.header.vaultPrevSeq ≠ prev ∨
          (needsCover op.body ∧ ¬ counts op.header)
      · have hstop' : (∃ c ∈ cut, c < op.header.dot.seq) ∨ op.header.vaultPrevSeq ≠ prev ∨
            (needsCover op.body ∧ ¬ counts' op.header) :=
          hstop.imp id (Or.imp id (And.imp id fun hnot h => hnot (hle _ h)))
        rw [if_pos hstop, if_pos hstop']
      · rw [if_neg hstop] at hcounts ⊢
        have hstop' : ¬ ((∃ c ∈ cut, c < op.header.dot.seq) ∨ op.header.vaultPrevSeq ≠ prev ∨
            (needsCover op.body ∧ ¬ counts' op.header)) := by
          rintro (h | h | ⟨hneeds, hnot⟩)
          · exact hstop (.inl h)
          · exact hstop (.inr (.inl h))
          · exact hnot (hcounts op List.mem_cons_self hneeds)
        rw [if_neg hstop', ih fun op' hop' => hcounts op' (List.mem_cons_of_mem _ hop')]

end Extension

namespace VaultLog

/-- Absorbs every planned cover, up to the cut. -/
def absorbAll (log : VaultLog) (plan : CoverPlan) (covers : List SnapshotHeader) : VaultLog :=
  plan.absorb.foldl (fun log i => match covers[i]? with
    | some cover => (log.recordAbsorbed plan cover.itemId cover.covered).1
    | none => log) log

variable {log log' : VaultLog} {device : DeviceId} {seq : ℕ} {link : Link} {itemId : ItemId}
  {dot : Dot} {plan : CoverPlan} {covers : List SnapshotHeader} {ops : List ServedOp}

theorem mem_indices {keep : SnapshotHeader → Bool} {i : ℕ} :
    i ∈ indices covers keep ↔ ∃ cover, covers[i]? = some cover ∧ keep cover := by
  simp only [indices, List.mem_map, List.mem_filter, Prod.exists, List.mem_zipIdx_iff_getElem?]
  constructor
  · rintro ⟨cover, j, ⟨hget, hkeep⟩, rfl⟩
    exact ⟨cover, hget, hkeep⟩
  · rintro ⟨cover, hget, hkeep⟩
    exact ⟨cover, i, ⟨hget, hkeep⟩, rfl⟩

/-- What absorbing covers changes. -/
structure Absorbs (log : VaultLog) (plan : CoverPlan) (covers : List SnapshotHeader)
    (absorb : List ℕ) (log' : VaultLog) : Prop where
  eq : log' = { log with items := log'.items, dirty := log'.dirty, absorbed := log'.absorbed }
  valid : log.Valid → log'.Valid
  covers_iff : ∀ i dot, (log'.settled i).covers dot ↔ (log.settled i).covers dot ∨
    ∃ k ∈ absorb, ∃ cover, covers[k]? = some cover ∧ cover.itemId = i ∧
      (plan.cutOf cover.covered).covers dot

theorem foldl_absorbs (absorb : List ℕ) :
    log.Absorbs plan covers absorb (absorb.foldl (fun log i => match covers[i]? with
      | some cover => (log.recordAbsorbed plan cover.itemId cover.covered).1
      | none => log) log) := by
  induction absorb generalizing log with
  | nil => exact ⟨rfl, id, by simp⟩
  | cons k absorb ih =>
    rw [List.foldl_cons]
    cases hcover : covers[k]? with
    | none =>
      have h := @ih log
      exact ⟨h.eq, h.valid, fun i dot => by simp [h.covers_iff, hcover]⟩
    | some cover =>
      have h := @ih (log.recordAbsorbed plan cover.itemId cover.covered).1
      refine ⟨h.eq, fun hv => h.valid (hv.call (.recordAbsorbed plan _ _)).1,
        fun i dot => ?_⟩
      rw [h.covers_iff, settled_recordAbsorbed]
      simp only [List.mem_cons, exists_eq_or_imp, hcover, Option.some.injEq, exists_eq_left']
      split_ifs with hi
      · rw [VersionVector.covers_sup, or_assoc]
        simp [hi]
      · simp [hi]

theorem absorbAll_absorbs (log : VaultLog) (plan : CoverPlan) (covers : List SnapshotHeader) :
    log.Absorbs plan covers plan.absorb (log.absorbAll plan covers) := foldl_absorbs _

/-! ### The walks of a response -/

/-- What the first pass accepts of a response, device by device. -/
def planned (log : VaultLog) (ops : List ServedOp) (covers : List SnapshotHeader) : List ServedOp :=
  (log.group ops).1.toList.flatMap fun entry =>
    extension (log.cutoff entry.1) (log.planCounts covers) (log.head entry.1) entry.2

theorem planCovers_links :
    (log.planCovers ops covers).links = (log.planned ops covers).map fun op => op.header.dot := by
  simp only [planCovers, planned, List.flatMap_map, List.map_flatMap, walk_accepted]

/-- The headers of a response without a usable body that count in the first pass. -/
def plannedBodiless (log : VaultLog) (ops : List ServedOp) (covers : List SnapshotHeader) :
    List OpHeader :=
  let walks := (log.group ops).1.toList.map fun entry =>
    log.walk entry.1 entry.2 (log.planCounts covers)
  walks.flatMap fun walk =>
    (walk.accepted.filter fun op => needsCover op.body).map ServedOp.header ++
      (walk.reserved.filter fun op => needsCover op.body && log.planCounts covers op.header).map
        ServedOp.header

theorem mem_planCovers_absorb {k : ℕ} : k ∈ (log.planCovers ops covers).absorb ↔
    ∃ cover, covers[k]? = some cover ∧ log.countsCover cover ∧
      ∃ h ∈ log.plannedBodiless ops covers, h.itemId = cover.itemId ∧
        cover.covered.covers h.dot := by
  have habsorb : (log.planCovers ops covers).absorb = indices covers fun cover =>
      log.countsCover cover ∧ (log.plannedBodiless ops covers).any fun h =>
        h.itemId = cover.itemId ∧ cover.covered.covers h.dot := rfl
  simp only [habsorb, mem_indices, decide_eq_true_eq, List.any_eq_true]

theorem mem_plannedBodiless {op : ServedOp} (hop : op ∈ log.planned ops covers)
    (hneeds : needsCover op.body) : op.header ∈ log.plannedBodiless ops covers := by
  obtain ⟨entry, hentry, hmem⟩ := List.mem_flatMap.mp hop
  refine List.mem_flatMap.mpr ⟨log.walk entry.1 entry.2 (log.planCounts covers),
    List.mem_map_of_mem hentry, List.mem_append_left _ (List.mem_map_of_mem
      (List.mem_filter.mpr ⟨?_, hneeds⟩))⟩
  rw [walk_accepted]
  exact hmem

theorem covers_planCovers_cut :
    (log.planCovers ops covers).cut.covers dot ↔ log.heads.covers dot ∨
      ∃ op ∈ log.planned ops covers, op.header.dot.deviceId = dot.deviceId ∧
        dot.seq ≤ op.header.dot.seq := by
  have hcut : (log.planCovers ops covers).cut =
      (log.planCovers ops covers).links.foldl VersionVector.add log.heads := rfl
  rw [hcut, VersionVector.covers_foldl_add, planCovers_links]
  simp only [List.mem_map, exists_exists_and_eq_and]

theorem planCounts_iff {h : OpHeader} : log.planCounts covers h = true ↔
    (log.settled h.itemId).covers h.dot ∨ ∃ cover ∈ covers, log.countsCover cover ∧
      cover.itemId = h.itemId ∧ cover.covered.covers h.dot := by
  rw [planCounts, decide_eq_true_eq, covered_iff, List.any_eq_true]
  simp only [decide_eq_true_eq]

/-- A planned header without a usable body is covered once the planned covers are absorbed. -/
theorem covered_absorbAll {op : ServedOp} (hop : op ∈ log.planned ops covers)
    (hneeds : needsCover op.body) :
    covered (log.absorbAll (log.planCovers ops covers) covers).items op.header := by
  rw [covered_iff, (absorbAll_absorbs _ _ _).covers_iff]
  obtain ⟨entry, hentry, hmem⟩ := List.mem_flatMap.mp hop
  have hcounts := (mem_extension hmem).2.2 hneeds
  refine (planCounts_iff.mp hcounts).imp id ?_
  rintro ⟨cover, hcover, hcountsCover, hitem, hcov⟩
  obtain ⟨k, hk⟩ := List.mem_iff_getElem?.mp hcover
  refine ⟨k, mem_planCovers_absorb.mpr ⟨cover, hk, hcountsCover, op.header,
    mem_plannedBodiless hop hneeds, hitem.symm, hcov⟩, cover, hk, hitem, ?_⟩
  rw [CoverPlan.cutOf, VersionVector.meet_eq_inf, VersionVector.covers_inf]
  exact ⟨hcov, covers_planCovers_cut.mpr (.inr ⟨op, hop, rfl, le_rfl⟩)⟩

/-- What is covered once the planned covers are absorbed counted in the first pass. -/
theorem planCounts_of_covered_absorbAll {h : OpHeader}
    (hcov : covered (log.absorbAll (log.planCovers ops covers) covers).items h) :
    log.planCounts covers h := by
  rw [covered_iff, (absorbAll_absorbs _ _ _).covers_iff] at hcov
  refine planCounts_iff.mpr (hcov.imp id ?_)
  rintro ⟨k, hk, cover, hget, hitem, hcut⟩
  obtain ⟨cover', hget', hkeep, -⟩ := mem_planCovers_absorb.mp hk
  cases hget.symm.trans hget'
  rw [CoverPlan.cutOf, VersionVector.meet_eq_inf, VersionVector.covers_inf] at hcut
  exact ⟨_, List.mem_of_getElem? hget, hkeep, hitem, hcut.1⟩

/-- The second walk of a device accepts what the first one did. -/
theorem accepts_absorbAll {entry : DeviceId × List ServedOp}
    (hentry : entry ∈ (log.group ops).1.toList) :
    (log.absorbAll (log.planCovers ops covers) covers).accepts entry.1 entry.2 =
      extension (log.cutoff entry.1) (log.planCounts covers) (log.head entry.1) entry.2 := by
  have heq := (absorbAll_absorbs log (log.planCovers ops covers) covers).eq
  have hcutoff : (log.absorbAll (log.planCovers ops covers) covers).cutoff entry.1 =
      log.cutoff entry.1 := by rw [heq]; rfl
  have hhead : (log.absorbAll (log.planCovers ops covers) covers).head entry.1 =
      log.head entry.1 := by rw [heq]; rfl
  rw [accepts, hcutoff, hhead]
  refine extension_congr (fun h hcov => planCounts_of_covered_absorbAll (of_decide_eq_true hcov))
    fun op hop hneeds => decide_eq_true (covered_absorbAll ?_ hneeds)
  exact List.mem_flatMap.mpr ⟨entry, hentry, hop⟩

theorem group_absorbAll : (log.absorbAll plan covers).group ops = log.group ops := by
  rw [(absorbAll_absorbs log plan covers).eq]
  rfl

/-- The commit accepts what the plan announced. -/
theorem Valid.commit_absorbAll (h : log.Valid) (ops : List ServedOp)
    (covers : List SnapshotHeader) :
    ((log.absorbAll (log.planCovers ops covers) covers).commit ops).2.accepted =
      (log.planCovers ops covers).links := by
  have hvalid := (absorbAll_absorbs log (log.planCovers ops covers) covers).valid h
  obtain ⟨-, -, -, -, -, -, hacc⟩ := hvalid.commit ops
  rw [hacc, group_absorbAll, planCovers_links, planned, List.map_flatMap]
  exact List.flatMap_congr fun entry hentry => by rw [accepts_absorbAll hentry]

/-! ### Settled vectors and heads -/

/-- No settled vector covers an operation past its chain's head. -/
def Within (log : VaultLog) : Prop :=
  ∀ i dot, (log.settled i).covers dot → dot.seq ≤ log.head dot.deviceId

/-- The vector of the heads covers what a chain reaches. -/
theorem Coherent.covers_heads (h : log.Coherent) :
    log.heads.covers dot ↔ dot.seq ≤ log.head dot.deviceId := by
  simp only [heads, VersionVector.covers_ofDots, List.mem_filterMap, Dot.new_eq_some, Prod.exists,
    ExtTreeMap.mem_toList_iff_getElem?_eq_some]
  constructor
  · rintro ⟨e, ⟨d, chain, hchain, rfl, hseq⟩, hd, hle⟩
    rw [head, ← hd, hchain, Option.elim_some, ← hseq]
    exact hle
  · intro hle
    have hpos := dot.seq_pos
    obtain ⟨l, hl⟩ := (h.linked dot.deviceId).head_mem (by omega)
    rw [getElem?_links] at hl
    have hok := h.link _ _ _ hl
    obtain ⟨chain, hchain, -⟩ := Option.bind_eq_some_iff.mp hl
    refine ⟨l.header.dot, ⟨dot.deviceId, chain, hchain, hok.deviceId, ?_⟩, hok.deviceId, ?_⟩
    · rw [hok.seq_eq, head, hchain, Option.elim_some]
    · rw [hok.seq_eq]
      exact hle

/-- The sequence numbers of what continues a chain reach up to the last one. -/
theorem Follows.le_lastSeq {prev : ℕ} (h : Follows prev ops) :
    prev ≤ lastSeq prev ops ∧ ∀ op ∈ ops, op.header.dot.seq ≤ lastSeq prev ops := by
  induction ops generalizing prev with
  | nil => exact ⟨le_rfl, fun op hop => absurd hop List.not_mem_nil⟩
  | cons op ops ih =>
    obtain ⟨-, hlt, hrest⟩ := h
    obtain ⟨hle, hall⟩ := ih hrest
    have hlast : lastSeq prev (op :: ops) = lastSeq op.header.dot.seq ops := by
      simp [lastSeq]
    rw [hlast]
    refine ⟨hlt.le.trans hle, fun op' hop' => ?_⟩
    rcases List.mem_cons.mp hop' with rfl | hop'
    · exact hle
    · exact hall op' hop'

/-- What a commit leaves of a head: it is not lowered, and reaches what is accepted. -/
theorem Valid.le_head_commit (h : log.Valid) (ops : List ServedOp) (d : DeviceId) :
    log.head d ≤ (log.commit ops).1.head d := by
  obtain ⟨-, -, -, -, hsame, hhead, -⟩ := h.commit ops
  by_cases hd : d = log.own
  · exact (hsame d (.inl hd)).ge
  · rw [hhead d hd]
    exact (Follows.le_lastSeq follows_extension).1

/-- Absorbing the planned covers and committing keeps settled vectors within the heads. -/
theorem Valid.within_commit_absorbAll (h : log.Valid) (hwithin : log.Within) (ops : List ServedOp)
    (covers : List SnapshotHeader) :
    ((log.absorbAll (log.planCovers ops covers) covers).commit ops).1.Within := by
  have habsorbs := absorbAll_absorbs log (log.planCovers ops covers) covers
  set log₁ := log.absorbAll (log.planCovers ops covers) covers with hlog₁
  have hvalid := habsorbs.valid h
  obtain ⟨-, -, hitems, -, -, hhead, -⟩ := hvalid.commit ops
  have hle : ∀ d, log.head d ≤ (log₁.commit ops).1.head d := fun d => by
    have hsame : log₁.head d = log.head d := by rw [habsorbs.eq]; rfl
    exact hsame ▸ hvalid.le_head_commit ops d
  intro i dot hcov
  rw [settled, hitems] at hcov
  rcases (habsorbs.covers_iff i dot).mp hcov with hcov | ⟨k, -, cover, -, -, hcut⟩
  · exact (hwithin i dot hcov).trans (hle _)
  · rw [CoverPlan.cutOf, VersionVector.meet_eq_inf, VersionVector.covers_inf] at hcut
    rcases covers_planCovers_cut.mp hcut.2 with hcov | ⟨op, hop, hd, hseq⟩
    · exact (h.covers_heads.mp hcov).trans (hle _)
    · obtain ⟨⟨device, served⟩, hentry, hmem⟩ := List.mem_flatMap.mp hop
      obtain ⟨hown, hserved⟩ := mem_group hentry
      have hdev : op.header.dot.deviceId = device := by
        have := (mem_extension hmem).1
        rw [hserved] at this
        exact (mem_servedOf.mp this).2.2
      have hown₁ : device ≠ log₁.own := by rw [habsorbs.eq]; exact hown
      have hserved₁ : log₁.servedOf ops device = served := by
        rw [habsorbs.eq, hserved]
        rfl
      have hmem₁ : op ∈ log₁.accepts device (log₁.servedOf ops device) := by
        rw [hserved₁, hlog₁, accepts_absorbAll hentry]
        exact hmem
      refine hseq.trans ?_
      rw [← hd, hdev, hhead device hown₁]
      exact (Follows.le_lastSeq follows_extension).2 op hmem₁

/-! ### What a commit reports -/

theorem ownReport_isPastHead (log : VaultLog) (op : ServedOp) :
    (log.ownReport op).isPastHead = false := by
  unfold ownReport
  split_ifs <;> rfl

theorem group_isPastHead (log : VaultLog) (ops : List ServedOp) :
    ∀ r ∈ (log.group ops).2, r.isPastHead = false := by
  have hstep : ∀ (ops : List ServedOp) acc, (∀ r ∈ acc.2, r.isPastHead = false) →
      ∀ r ∈ (ops.foldl log.groupOne acc).2, r.isPastHead = false := by
    intro ops
    induction ops with
    | nil => exact fun _ h => h
    | cons op ops ih =>
      intro acc hacc
      refine ih _ fun r hr => ?_
      unfold groupOne at hr
      split_ifs at hr
      · rcases List.mem_append.mp hr with hr | hr
        · exact hacc r hr
        · rw [List.mem_singleton.mp hr]
          rfl
      · rcases List.mem_append.mp hr with hr | hr
        · exact hacc r hr
        · rw [List.mem_singleton.mp hr]
          exact ownReport_isPastHead log op
      · exact hacc r hr
  exact hstep ops (∅, []) fun r hr => absurd hr List.not_mem_nil

theorem walkFrom_isPastHead {counts : OpHeader → Bool} {prev : ℕ} {walk : Walk}
    {served : List ServedOp} (hwalk : ∀ r ∈ walk.reports, r.isPastHead = false) :
    ∀ r ∈ (log.walkFrom device counts prev walk served).reports, r.isPastHead = false := by
  have happend : ∀ {reports : List Report} {r : Report}, r.isPastHead = false →
      (∀ r ∈ reports, r.isPastHead = false) → ∀ r' ∈ reports ++ [r], r'.isPastHead = false := by
    intro reports r hr hall r' hr'
    rcases List.mem_append.mp hr' with hr' | hr'
    · exact hall r' hr'
    · rw [List.mem_singleton.mp hr']
      exact hr
  induction served generalizing prev walk with
  | nil => exact hwalk
  | cons op served ih =>
    unfold walkFrom
    dsimp only
    by_cases hle : op.header.dot.seq ≤ prev
    · rw [if_pos hle]
      split_ifs
      · exact ih hwalk
      all_goals
        refine ih ?_
        exact happend rfl hwalk
    · rw [if_neg hle]
      split
      · exact happend rfl hwalk
      · split_ifs
        · exact happend rfl hwalk
        · exact happend rfl (happend rfl hwalk)
        · exact happend rfl hwalk
        · refine ih ?_
          exact happend rfl hwalk
        · exact ih hwalk

/-- What serving again reports: a body that is rejected again, or that nothing covers. -/
theorem mem_serveAgainAll_reports (log : VaultLog) (ops : List ServedOp) :
    ∀ r ∈ (log.serveAgainAll ops).2, (∃ dot, r = .rejectedBody dot) ∨
      ∃ d n dot, r = .gap d n (.uncovered dot) := by
  have hone : ∀ (log : VaultLog) op, ∀ r ∈ (log.serveAgain op).2, (∃ dot, r = .rejectedBody dot) ∨
      ∃ d n dot, r = .gap d n (.uncovered dot) := by
    intro log op r hr
    cases hlink : log.link op.header.dot with
    | none =>
      simp only [serveAgain, hlink] at hr
      exact absurd hr List.not_mem_nil
    | some link =>
      simp only [serveAgain, hlink] at hr
      by_cases hstate : link.state = .rejected
      · cases hbody : op.body with
        | verified => simp [hstate, hbody] at hr
        | waiting => simp [hstate, hbody] at hr
        | rejected =>
          have hr : r = .rejectedBody op.header.dot ∨ ¬ covered log.items op.header ∧
              r = .gap op.header.dot.deviceId op.header.vaultPrevSeq (.uncovered op.header.dot) := by
            simpa [hstate, hbody] using hr
          exact hr.imp (fun h => ⟨_, h⟩) fun h => ⟨_, _, _, h.2⟩
        | bodiless =>
          have hr : ¬ covered log.items op.header ∧ r = .gap op.header.dot.deviceId
              op.header.vaultPrevSeq (.uncovered op.header.dot) := by
            simpa [hstate, hbody] using hr
          exact .inr ⟨_, _, _, hr.2⟩
      · simp [hstate] at hr
  induction ops generalizing log with
  | nil => exact fun r hr => absurd hr List.not_mem_nil
  | cons op ops ih =>
    intro r hr
    rcases List.mem_append.mp hr with hr | hr
    · exact hone log op r hr
    · exact ih _ r hr

theorem commitDevices_isPastHead (log : VaultLog) (groups : List (DeviceId × List ServedOp)) :
    ∀ r ∈ (log.commitDevices groups).2.reports, r.isPastHead = false := by
  induction groups generalizing log with
  | nil => exact fun r hr => absurd hr List.not_mem_nil
  | cons group groups ih =>
    intro r hr
    rcases List.mem_append.mp hr with hr | hr
    · rcases List.mem_append.mp hr with hr | hr
      · exact walkFrom_isPastHead (fun r hr => absurd hr List.not_mem_nil) r hr
      · obtain ⟨dot, rfl⟩ | ⟨d, n, dot, rfl⟩ := mem_serveAgainAll_reports _ _ r hr <;> rfl
    · exact ih _ r hr

/-- A commit reports a settled vector past a head only where there is one. -/
theorem Within.commit_reports (h : ((log.commit ops).1).Within) :
    ∀ r ∈ (log.commit ops).2.reports, r.isPastHead = false := by
  intro r hr
  rcases List.mem_append.mp hr with hr | hr
  · rcases List.mem_append.mp hr with hr | hr
    · exact group_isPastHead log ops r hr
    · exact commitDevices_isPastHead _ _ r hr
  · obtain ⟨itemId, -, hr⟩ := List.mem_flatMap.mp hr
    set log' := (log.commitDevices (log.group ops).1.toList).1 with hlog'
    split at hr
    case h_1 => exact absurd hr List.not_mem_nil
    case h_2 vv hvv =>
      obtain ⟨entry, hentry, rfl⟩ := List.mem_map.mp hr
      obtain ⟨hentry, hgt⟩ := List.mem_filter.mp hentry
      have hcov : ((log.commit ops).1.settled itemId).covers entry := by
        change (((log'.items)[itemId]?).getD .new).covers entry
        rw [show log'.items[itemId]? = some vv from hvv]
        exact VersionVector.covers_of_mem_dots hentry
      exact absurd (h itemId entry hcov) (not_le.mpr (of_decide_eq_true hgt))

/-! ### Runs that absorb as planned -/

/-- Whether a call is a part of a fetch: an absorption or a commit. -/
def Call.isFetch : Call → Bool
  | .recordAbsorbed .. => true
  | .commit _ => true
  | _ => false

/-- One turn: a fetch that absorbs as planned, or another call. -/
inductive Turn
  | fetch (ops : List ServedOp) (covers : List SnapshotHeader)
  | call (c : Call) (hc : c.isFetch = false)

/-- What a fetch that absorbs as planned leaves, and its commit. -/
def fetch (log : VaultLog) (ops : List ServedOp) (covers : List SnapshotHeader) :
    VaultLog × Commit :=
  (log.absorbAll (log.planCovers ops covers) covers).commit ops

/-- What a turn leaves. -/
def turn (log : VaultLog) : Turn → VaultLog
  | .fetch ops covers => (log.fetch ops covers).1
  | .call c _ => (log.call c).1

/-- Calls that are no part of a fetch keep settled vectors within the heads. -/
theorem Valid.within_call (h : log.Valid) (hwithin : log.Within) {c : Call}
    (hc : c.isFetch = false) : (log.call c).1.Within := by
  have hsame : ∀ log' : VaultLog, (∀ i, log'.settled i = log.settled i) →
      (∀ d, log'.head d = log.head d) → log'.Within := by
    intro log' hsettled hhead i dot hcov
    rw [hhead]
    exact hwithin i dot (hsettled i ▸ hcov)
  have hresolve : ∀ dot state out, log.resolveWaiting dot state = .ok out →
      (∀ i, out.1.settled i = log.settled i) ∧ ∀ d, out.1.head d = log.head d := by
    intro dot state out hout
    obtain ⟨link, -, -, -, heq⟩ := resolveWaiting_eq_ok hout
    rw [heq]
    exact ⟨fun _ => rfl, fun _ => head_modifyLink⟩
  have huploads : ∀ {ε : Type} (r : Except ε VaultLog),
      (∀ log', r = .ok log' → ∃ uploads, log' = { log with uploads }) → (log.orSame r).Within := by
    intro ε r hr
    cases hres : r with
    | error e => exact hwithin
    | ok log' =>
      obtain ⟨uploads, rfl⟩ := hr log' hres
      exact hsame _ (fun _ => rfl) fun _ => rfl
  cases c with
  | recordAbsorbed plan itemId taken => cases hc
  | commit ops => cases hc
  | bodyVerified dot =>
    change (log.orSame (log.bodyVerified dot)).Within
    unfold VaultLog.bodyVerified
    cases hres : log.resolveWaiting dot .ready with
    | error e => exact hwithin
    | ok out => exact hsame _ (hresolve _ _ _ hres).1 (hresolve _ _ _ hres).2
  | bodyRejected dot =>
    change (log.orSame (log.bodyRejected dot)).Within
    unfold VaultLog.bodyRejected
    cases hres : log.resolveWaiting dot .rejected with
    | error e => exact hwithin
    | ok out => exact hsame _ (hresolve _ _ _ hres).1 (hresolve _ _ _ hres).2
  | takeDeliveries =>
    obtain ⟨hbatch, -, -⟩ := h.takeDeliveries
    intro i dot hcov
    change dot.seq ≤ log.takeDeliveries.1.head dot.deviceId
    rw [hbatch.head]
    rcases (hbatch.settled i dot).mp hcov with hcov | ⟨x, hx, -, hd, hle⟩
    · exact hwithin i dot hcov
    · obtain ⟨l, hl, -⟩ := hbatch.link_of_mem hx
      exact hle.trans (hd ▸ h.seq_le_head hl)
  | learnRevocation device lastAccepted =>
    have hspec := learnRevocation_spec log device lastAccepted
    refine hsame _ (fun i => ?_) hspec.head
    change (log.learnRevocation device lastAccepted).1.settled i = _
    rw [settled, hspec.items, settled]
  | recordOwnOp header =>
    change (log.orSame (log.recordOwnOp header)).Within
    cases hres : log.recordOwnOp header with
    | error e => exact hwithin
    | ok log' =>
      obtain ⟨-, hown, -, hseq, -, rfl⟩ := recordOwnOp_eq_ok.mp hres
      intro i dot hcov
      change dot.seq ≤ ((log.addSettled header.itemId header.dot).acceptLink header .delivered).head
        dot.deviceId
      change (((log.addSettled header.itemId header.dot).acceptLink header .delivered).settled
        i).covers dot at hcov
      rw [settled_acceptLink, settled_addSettled] at hcov
      rw [head_acceptLink]
      have hold : (log.settled i).covers dot → dot.seq ≤
          if header.dot.deviceId = dot.deviceId then header.dot.seq
          else log.head dot.deviceId := by
        intro hcov
        have := hwithin i dot hcov
        split_ifs with hd
        · rw [← hd, hown] at this
          exact this.trans hseq.le
        · exact this
      split_ifs at hcov with hi
      · rcases VersionVector.covers_add.mp hcov with hcov | ⟨hd, hle⟩
        · exact hold hcov
        · rw [if_pos hd]
          exact hle
      · exact hold hcov
  | observeGeneration generation => exact hsame _ (fun _ => rfl) fun _ => rfl
  | recordSent seq => exact huploads _ fun log' => recordSent_uploads
  | acknowledge seq => exact huploads _ fun log' => acknowledge_uploads
  | recordAnswered seq generation => exact huploads _ fun log' => recordAnswered_uploads
  | reissueOwnOp header =>
    change (log.orSame (log.reissueOwnOp header)).Within
    cases hres : log.reissueOwnOp header with
    | error e => exact hwithin
    | ok log' =>
      obtain ⟨-, -, -, -, rfl⟩ := reissueOwnOp_eq_ok hres
      exact hsame _ (fun _ => rfl) fun _ => head_modifyLink

theorem Valid.turn (h : log.Valid) (hwithin : log.Within) (t : Turn) :
    (log.turn t).Valid ∧ (log.turn t).Within := by
  cases t with
  | fetch ops covers =>
    have hvalid := (absorbAll_absorbs log (log.planCovers ops covers) covers).valid h
    exact ⟨(hvalid.commit ops).1, h.within_commit_absorbAll hwithin ops covers⟩
  | call c hc => exact ⟨(h.call c).1, h.within_call hwithin hc⟩

/-- The log that turns leave of an empty one. -/
def afterTurns (vaultId : VaultId) (own : DeviceId) (turns : List Turn) : VaultLog :=
  turns.foldl turn (new vaultId own)

theorem valid_afterTurns (vaultId : VaultId) (own : DeviceId) (turns : List Turn) :
    (afterTurns vaultId own turns).Valid ∧ (afterTurns vaultId own turns).Within := by
  have hstep : ∀ (turns : List Turn) (log : VaultLog), log.Valid → log.Within →
      (turns.foldl VaultLog.turn log).Valid ∧ (turns.foldl VaultLog.turn log).Within := by
    intro turns
    induction turns with
    | nil => exact fun _ h hwithin => ⟨h, hwithin⟩
    | cons t turns ih => exact fun _ h hwithin => ih _ (h.turn hwithin t).1 (h.turn hwithin t).2
  refine hstep turns _ (.new vaultId own) fun i dot hcov => absurd hcov ?_
  simp [settled, new]

/-- In a run whose fetches absorb as planned, a commit accepts exactly what the plan announced,
settled vectors stay within the heads, and no commit reports one that does not. -/
theorem afterTurns_fetch (vaultId : VaultId) (own : DeviceId) (turns : List Turn)
    (ops : List ServedOp) (covers : List SnapshotHeader) :
    let log := afterTurns vaultId own turns
    (log.fetch ops covers).2.accepted = (log.planCovers ops covers).links ∧
      (log.fetch ops covers).1.Within ∧
      ∀ r ∈ (log.fetch ops covers).2.reports, r.isPastHead = false := by
  intro log
  obtain ⟨hvalid, hwithin⟩ := valid_afterTurns vaultId own turns
  have hafter := hvalid.within_commit_absorbAll hwithin ops covers
  exact ⟨hvalid.commit_absorbAll ops covers, hafter, hafter.commit_reports⟩

end VaultLog

end RizzyVault.Sync.Causal
