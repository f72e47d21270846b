import RizzyVault.Sync.Causal.Runs

/-!
# What a commit does to a link

A commit accepts links past the heads, and gives a held link whose body was rejected, and that
nothing covers, the state of the body that is served again. Every other link stays as it is.

## Main definitions

* `LinkState.servedAgain`.

## Main results

* `VaultLog.Valid.linkAt_commitDevices`: the state of a link that is served again.
* `VaultLog.Valid.of_linkAt_commit`: what a link after a commit was before it.
-/

open RizzyVault.Lib

namespace RizzyVault.Sync.Causal

open Std (ExtTreeMap ExtTreeSet)

/-- The state of a rejected link whose body is served again. -/
def LinkState.servedAgain : BodyStatus → LinkState
  | .verified => .ready
  | .waiting => .waiting
  | .rejected | .bodiless => .rejected

namespace VaultLog

variable {log log' : VaultLog} {device d : DeviceId} {seq s : ℕ} {link : Link} {dot : Dot}
  {ops served : List ServedOp} {op : ServedOp}

/-- What a walk lists as served again stands in the order of the served headers. -/
theorem walkFrom_reserved (log : VaultLog) (device : DeviceId) (counts : OpHeader → Bool)
    (prev : ℕ) (walk : Walk) (served : List ServedOp) :
    ∃ l, (log.walkFrom device counts prev walk served).reserved = walk.reserved ++ l ∧
      l.Sublist served := by
  induction served generalizing prev walk with
  | nil => exact ⟨[], (List.append_nil _).symm, List.Sublist.refl _⟩
  | cons op served ih =>
    have hnext : ∀ {prev' walk'}, walk'.reserved = walk.reserved →
        ∃ l, (log.walkFrom device counts prev' walk' served).reserved = walk.reserved ++ l ∧
          l.Sublist (op :: served) := by
      intro prev' walk' heq
      obtain ⟨l, hl, hsub⟩ := ih prev' walk'
      exact ⟨l, heq ▸ hl, hsub.cons op⟩
    have hstop : ∀ {walk' : Walk}, walk'.reserved = walk.reserved →
        ∃ l, walk'.reserved = walk.reserved ++ l ∧ l.Sublist (op :: served) :=
      fun heq => ⟨[], heq.trans (List.append_nil _).symm, List.nil_sublist _⟩
    unfold walkFrom
    dsimp only
    by_cases hle : op.header.dot.seq ≤ prev
    · rw [if_pos hle]
      split_ifs
      · obtain ⟨l, hl, hsub⟩ := ih prev { walk with reserved := walk.reserved ++ [op] }
        exact ⟨op :: l, by rw [hl, List.append_assoc]; rfl, hsub.cons_cons op⟩
      all_goals exact hnext rfl
    · rw [if_neg hle]
      split
      · exact hstop rfl
      · split_ifs
        all_goals first
          | exact hnext rfl
          | exact hstop rfl

/-- A held link whose body was rejected and that nothing covers is listed as served again. -/
theorem mem_walkFrom_reserved_of {counts : OpHeader → Bool} {prev : ℕ} {walk : Walk}
    (hsorted : served.Pairwise fun a b => a.header.dot.seq < b.header.dot.seq) (hop : op ∈ served)
    (hle : op.header.dot.seq ≤ prev)
    (hlink : ∃ link, log.linkAt device op.header.dot.seq = some link ∧ link.header = op.header ∧
      link.state = .rejected ∧ ¬ log.holds link) :
    op ∈ (log.walkFrom device counts prev walk served).reserved := by
  induction served generalizing walk with
  | nil => exact absurd hop List.not_mem_nil
  | cons a served ih =>
    obtain ⟨hfirst, hsorted⟩ := List.pairwise_cons.mp hsorted
    unfold walkFrom
    dsimp only
    rcases List.mem_cons.mp hop with rfl | hop
    · obtain ⟨link, hl, hheader, hstate, hholds⟩ := hlink
      rw [if_pos hle, if_pos ⟨link, hl, hheader, hstate, by rwa [← hheader, covered_iff]⟩]
      obtain ⟨l, hreserved, -⟩ := walkFrom_reserved log device counts prev
        { walk with reserved := walk.reserved ++ [op] } served
      rw [hreserved]
      exact List.mem_append_left _ (List.mem_append_right _ (List.mem_singleton_self _))
    · rw [if_pos ((hfirst op hop).le.trans hle)]
      split_ifs
      all_goals exact ih hsorted hop

/-! ### What a commit does to a link it serves again -/

theorem linkAt_serveAgain (log : VaultLog) (op : ServedOp) (d : DeviceId) (s : ℕ) :
    (log.serveAgain op).1.linkAt d s = (log.linkAt d s).map fun l =>
      if op.header.dot.deviceId = d ∧ op.header.dot.seq = s ∧ l.state = .rejected then
        { l with state := .servedAgain op.body } else l := by
  cases hlink : log.link op.header.dot with
  | none =>
    simp only [serveAgain, hlink]
    by_cases hds : op.header.dot.deviceId = d ∧ op.header.dot.seq = s
    · rw [← hds.1, ← hds.2, show log.linkAt _ _ = none from hlink]
      rfl
    · have hnot : ∀ l : Link, ¬ (op.header.dot.deviceId = d ∧ op.header.dot.seq = s ∧
          l.state = .rejected) := fun l h => hds ⟨h.1, h.2.1⟩
      simp only [hnot, if_false, Option.map_id']
  | some link =>
    simp only [serveAgain, hlink]
    by_cases hstate : link.state = .rejected
    · have hmodify : ∀ state, (log.modifyLink op.header.dot.deviceId op.header.dot.seq
          fun link => { link with state }).linkAt d s = (log.linkAt d s).map fun l =>
            if op.header.dot.deviceId = d ∧ op.header.dot.seq = s ∧ l.state = .rejected then
              { l with state } else l := by
        intro state
        rw [linkAt_modifyLink]
        split_ifs with hds
        · obtain ⟨rfl, rfl⟩ := hds
          rw [show log.linkAt _ _ = some link from hlink]
          simp [hstate]
        · have hnot : ∀ l : Link, ¬ (op.header.dot.deviceId = d ∧ op.header.dot.seq = s ∧
              l.state = .rejected) := fun l h => hds ⟨h.1, h.2.1⟩
          simp only [hnot, if_false, Option.map_id']
      have hsame : ∀ state, state = .rejected → log.linkAt d s = (log.linkAt d s).map fun l =>
          if op.header.dot.deviceId = d ∧ op.header.dot.seq = s ∧ l.state = .rejected then
            { l with state } else l := by
        rintro _ rfl
        cases log.linkAt d s with
        | none => rfl
        | some l =>
          obtain ⟨header, state⟩ := l
          rw [Option.map_some]
          split_ifs with h
          · cases (show state = .rejected from h.2.2)
            rfl
          · rfl
      rw [if_neg (not_not.mpr hstate)]
      cases op.body with
      | verified => exact hmodify .ready
      | waiting => exact hmodify .waiting
      | rejected => exact hsame _ rfl
      | bodiless => exact hsame _ rfl
    · rw [if_pos hstate]
      change log.linkAt d s = _
      cases hl : log.linkAt d s with
      | none => rfl
      | some l =>
        rw [Option.map_some, if_neg]
        rintro ⟨rfl, rfl, hr⟩
        cases hl.symm.trans hlink
        exact hstate hr

/-- Serving again headers at other places leaves a link as it is. -/
theorem linkAt_serveAgainAll_of_ne (log : VaultLog) (ops : List ServedOp)
    (hne : ∀ op ∈ ops, ¬ (op.header.dot.deviceId = d ∧ op.header.dot.seq = s)) :
    (log.serveAgainAll ops).1.linkAt d s = log.linkAt d s := by
  induction ops generalizing log with
  | nil => rfl
  | cons op ops ih =>
    refine (ih (log.serveAgain op).1 fun op' hop' => hne op' (List.mem_cons_of_mem _ hop')).trans ?_
    rw [linkAt_serveAgain]
    have hnot : ∀ l : Link, ¬ (op.header.dot.deviceId = d ∧ op.header.dot.seq = s ∧
        l.state = .rejected) := fun l h => hne op List.mem_cons_self ⟨h.1, h.2.1⟩
    simp only [hnot, if_false, Option.map_id']

/-- Serving again ascending headers gives a rejected link among them the state of the body
served. -/
theorem linkAt_serveAgainAll (log : VaultLog) {ops : List ServedOp} (hop : op ∈ ops)
    (hsorted : ops.Pairwise fun a b => a.header.dot.seq < b.header.dot.seq)
    (hd : op.header.dot.deviceId = d) (hs : op.header.dot.seq = s)
    (hlink : log.linkAt d s = some link) (hstate : link.state = .rejected) :
    (log.serveAgainAll ops).1.linkAt d s = some { link with state := .servedAgain op.body } := by
  induction ops generalizing log with
  | nil => exact absurd hop List.not_mem_nil
  | cons a ops ih =>
    obtain ⟨hfirst, hsorted⟩ := List.pairwise_cons.mp hsorted
    rcases List.mem_cons.mp hop with rfl | hop
    · refine (linkAt_serveAgainAll_of_ne (log.serveAgain op).1 ops
        fun op' hop' h => ?_).trans ?_
      · exact absurd (hfirst op' hop') (by omega)
      · rw [linkAt_serveAgain, hlink, Option.map_some, if_pos ⟨hd, hs, hstate⟩]
    · refine ih (log.serveAgain a).1 hop hsorted ?_
      rw [linkAt_serveAgain, hlink, Option.map_some, if_neg]
      rintro ⟨-, has, -⟩
      have := hfirst op hop
      omega

/-- Accepting headers past a place leaves the link there as it is. -/
theorem linkAt_foldl_acceptLink (log : VaultLog) {ops : List ServedOp}
    (hne : ∀ op ∈ ops, ¬ (op.header.dot.deviceId = d ∧ op.header.dot.seq = s)) :
    (ops.foldl (fun log op => log.acceptLink op.header (.fromBody op.body)) log).linkAt d s =
      log.linkAt d s := by
  induction ops generalizing log with
  | nil => rfl
  | cons op ops ih =>
    rw [List.foldl_cons, ih _ fun op' hop' => hne op' (List.mem_cons_of_mem _ hop'),
      linkAt_acceptLink, if_neg (hne op List.mem_cons_self)]

/-- Committing one device's served headers leaves the links of another. -/
theorem linkAt_commitDevice_of_ne (log : VaultLog)
    (hserved : ∀ op ∈ served, op.header.dot.deviceId = device) (hd : d ≠ device) :
    (log.commitDevice device served).1.linkAt d s = log.linkAt d s := by
  have haccepted : ∀ op ∈ (log.walk device served fun h => covered log.items h).accepted,
      op.header.dot.deviceId = device := by
    intro op hop
    rw [walk_accepted] at hop
    exact hserved op (mem_extension hop).1
  refine (linkAt_foldl_acceptLink _ fun op hop h => hd (h.1.symm.trans (haccepted op hop))).trans ?_
  exact linkAt_serveAgainAll_of_ne _ _ fun op hop h =>
    hd (h.1.symm.trans (hserved op (mem_walk_reserved hop).1))

/-- Committing the ascending served headers of a device gives a rejected link among them that
nothing covers the state of the body served. -/
theorem Coherent.linkAt_commitDevice (h : log.Coherent)
    (hserved : ∀ op ∈ served, op.header.dot.deviceId = device)
    (hsorted : served.Pairwise fun a b => a.header.dot.seq < b.header.dot.seq) (hop : op ∈ served)
    (hlink : log.linkAt device op.header.dot.seq = some link) (hheader : link.header = op.header)
    (hstate : link.state = .rejected) (hholds : ¬ log.holds link) :
    (log.commitDevice device served).1.linkAt device op.header.dot.seq =
      some { link with state := .servedAgain op.body } := by
  have hle := h.seq_le_head hlink
  have hreserved : op ∈ (log.walk device served fun h => covered log.items h).reserved :=
    mem_walkFrom_reserved_of hsorted hop hle ⟨link, hlink, hheader, hstate, hholds⟩
  obtain ⟨l, hl, hsub⟩ := walkFrom_reserved log device (fun h => covered log.items h)
    (log.head device) {} served
  rw [List.nil_append] at hl
  refine (linkAt_foldl_acceptLink _ fun a ha hds => ?_).trans ?_
  · rw [walk_accepted] at ha
    have := follows_extension.lt_seq a ha
    omega
  · exact linkAt_serveAgainAll _ hreserved (hl ▸ hsorted.sublist hsub) (hserved op hop) rfl hlink hstate

/-- Committing groups leaves the links of a device without one. -/
theorem linkAt_commitDevices_of_notMem (log : VaultLog) {groups : List (DeviceId × List ServedOp)}
    (hserved : ∀ group ∈ groups, ∀ op ∈ group.2, op.header.dot.deviceId = group.1)
    (hd : d ∉ groups.map Prod.fst) : (log.commitDevices groups).1.linkAt d s = log.linkAt d s := by
  induction groups generalizing log with
  | nil => rfl
  | cons group groups ih =>
    rw [List.map_cons, List.mem_cons, not_or] at hd
    refine (ih (log.commitDevice group.1 group.2).1
      (fun g hg => hserved g (List.mem_cons_of_mem _ hg)) hd.2).trans ?_
    exact linkAt_commitDevice_of_ne log (hserved group List.mem_cons_self) hd.1

/-- Committing the groups of a response gives a rejected link that is served again and that nothing
covers the state of the body served. -/
theorem Valid.linkAt_commitDevices (h : log.Valid) {groups : List (DeviceId × List ServedOp)}
    (hgroups : log.GroupsOk groups) (hmem : (device, served) ∈ groups)
    (hsorted : served.Pairwise fun a b => a.header.dot.seq < b.header.dot.seq) (hop : op ∈ served)
    (hlink : log.linkAt device op.header.dot.seq = some link) (hheader : link.header = op.header)
    (hstate : link.state = .rejected) (hholds : ¬ log.holds link) :
    (log.commitDevices groups).1.linkAt device op.header.dot.seq =
      some { link with state := .servedAgain op.body } := by
  induction groups generalizing log with
  | nil => exact absurd hmem List.not_mem_nil
  | cons group groups ih =>
    obtain ⟨hnodup, hok⟩ := hgroups
    obtain ⟨hnot, hnodup⟩ := List.nodup_cons.mp hnodup
    obtain ⟨hown, hserved⟩ := hok group List.mem_cons_self
    rcases List.mem_cons.mp hmem with rfl | hmem
    · refine (linkAt_commitDevices_of_notMem (log.commitDevice device served).1
        (fun g hg op hop => ((hok g (List.mem_cons_of_mem _ hg)).2 op hop).2) hnot).trans ?_
      exact h.linkAt_commitDevice (fun op hop => (hserved op hop).2) hsorted hop hlink hheader
        hstate hholds
    · obtain ⟨hv, hev, hframe, -⟩ := h.commitDevice hown hserved
        fun _ _ _ => Set.mem_univ _
      have hd : device ≠ group.1 := fun heq => hnot (heq ▸ List.mem_map_of_mem hmem)
      refine @ih (log.commitDevice group.1 group.2).1 hv ⟨hnodup, fun g hg => ?_⟩ hmem ?_ ?_
      · obtain ⟨ho, hs⟩ := hok g (List.mem_cons_of_mem _ hg)
        exact ⟨hev.own ▸ ho, fun op hop => hev.vaultId ▸ hs op hop⟩
      · rw [linkAt_commitDevice_of_ne log (fun op hop => (hserved op hop).2) hd, hlink]
      · rwa [holds, VaultLog.settled, hframe.items]

/-! ### What a link was before a commit -/

/-- What a link was before headers were served again: the same, or rejected, and served again. -/
theorem of_linkAt_serveAgainAll (log : VaultLog) {ops : List ServedOp}
    (hops : ∀ op ∈ ops, ∃ link, log.link op.header.dot = some link ∧ link.header = op.header)
    {l' : Link} (hl' : (log.serveAgainAll ops).1.linkAt d s = some l') :
    ∃ l, log.linkAt d s = some l ∧ (l' = l ∨ l.state = .rejected ∧
      ∃ op ∈ ops, op.header = l.header ∧ l' = { l with state := .servedAgain op.body }) := by
  induction ops generalizing log with
  | nil => exact ⟨l', hl', .inl rfl⟩
  | cons op ops ih =>
    obtain ⟨link, hlink, hheader⟩ := hops op List.mem_cons_self
    obtain ⟨l₁, hl₁, hwhy⟩ := ih (log.serveAgain op).1 (fun op' hop' => by
      obtain ⟨link', hlink', hheader'⟩ := hops op' (List.mem_cons_of_mem _ hop')
      refine ⟨_, by rw [VaultLog.link, linkAt_serveAgain,
        show log.linkAt _ _ = some link' from hlink', Option.map_some], ?_⟩
      split_ifs <;> exact hheader') hl'
    rw [linkAt_serveAgain] at hl₁
    obtain ⟨l, hl, rfl⟩ := Option.map_eq_some_iff.mp hl₁
    refine ⟨l, hl, ?_⟩
    split_ifs at hwhy with hhere
    · obtain ⟨rfl, rfl, hstate⟩ := hhere
      cases hl.symm.trans hlink
      rcases hwhy with rfl | ⟨-, op', hop', hheader', rfl⟩
      · exact .inr ⟨hstate, op, List.mem_cons_self, hheader.symm, rfl⟩
      · exact .inr ⟨hstate, op', List.mem_cons_of_mem _ hop', hheader', rfl⟩
    · refine hwhy.imp id ?_
      rintro ⟨hstate, op', hop', hrest⟩
      exact ⟨hstate, op', List.mem_cons_of_mem _ hop', hrest⟩

/-- What a link was before headers were accepted: the same, or none. -/
theorem of_linkAt_foldl_acceptLink (log : VaultLog) {ops : List ServedOp} {l' : Link}
    (hl' : (ops.foldl (fun log op => log.acceptLink op.header (.fromBody op.body)) log).linkAt d s =
      some l') :
    log.linkAt d s = some l' ∨ ∃ op ∈ ops, op.header.dot.deviceId = d ∧ op.header.dot.seq = s ∧
      l' = ⟨op.header, .fromBody op.body⟩ := by
  induction ops generalizing log with
  | nil => exact .inl hl'
  | cons op ops ih =>
    rcases ih _ hl' with hl' | ⟨op', hop', hrest⟩
    · rw [linkAt_acceptLink] at hl'
      split_ifs at hl' with hds
      · cases hl'
        exact .inr ⟨op, List.mem_cons_self, hds.1, hds.2, rfl⟩
      · exact .inl hl'
    · exact .inr ⟨op', List.mem_cons_of_mem _ hop', hrest⟩

/-- What a link after a commit of served headers may be: one held before, or one of a rejected body
in the state of the body served again, or one of the served headers, past the head, and covered if
its body is not usable. -/
def Committed (log : VaultLog) (ops : List ServedOp) (d : DeviceId) (s : ℕ) (l' : Link) : Prop :=
  (∃ l, log.linkAt d s = some l ∧ (l' = l ∨ l.state = .rejected ∧
    ∃ op ∈ ops, op.header = l.header ∧ l' = { l with state := .servedAgain op.body })) ∨
  (log.head d < s ∧ d ≠ log.own ∧ ∃ op ∈ ops, op.header.dot.deviceId = d ∧
    op.header.dot.seq = s ∧ l' = ⟨op.header, .fromBody op.body⟩ ∧
    (needsCover op.body → covered log.items op.header))

theorem Committed.mono {ops' : List ServedOp} {l' : Link} (h : log.Committed ops d s l')
    (hsub : ops ⊆ ops') : log.Committed ops' d s l' :=
  h.imp (fun ⟨l, hl, hwhy⟩ => ⟨l, hl, hwhy.imp id fun ⟨hstate, op, hop, hrest⟩ =>
    ⟨hstate, op, hsub hop, hrest⟩⟩) fun ⟨hlt, hown, op, hop, hrest⟩ => ⟨hlt, hown, op, hsub hop, hrest⟩

theorem of_linkAt_commitDevice (hown : device ≠ log.own)
    (hserved : ∀ op ∈ served, op.header.dot.deviceId = device) {l' : Link}
    (hl' : (log.commitDevice device served).1.linkAt d s = some l') : log.Committed served d s l' := by
  have hreserved : ∀ op ∈ (log.walk device served fun h => covered log.items h).reserved,
      op ∈ served ∧ ∃ link, log.link op.header.dot = some link ∧ link.header = op.header := by
    intro op hop
    obtain ⟨hmem, link, hlink, hheader, -⟩ := mem_walk_reserved hop
    exact ⟨hmem, link, by rw [VaultLog.link, hserved op hmem, hlink], hheader⟩
  rcases of_linkAt_foldl_acceptLink _ hl' with hl' | ⟨op, hop, hd, hs, rfl⟩
  · obtain ⟨l, hl, hwhy⟩ := of_linkAt_serveAgainAll log (fun op hop => (hreserved op hop).2) hl'
    refine .inl ⟨l, hl, hwhy.imp id ?_⟩
    rintro ⟨hstate, op, hop, hrest⟩
    exact ⟨hstate, op, (hreserved op hop).1, hrest⟩
  · rw [walk_accepted] at hop
    obtain ⟨hmem, -, hcounts⟩ := mem_extension hop
    have hlt := follows_extension.lt_seq op hop
    have hdev := hserved op hmem
    refine .inr ⟨?_, ?_, op, hmem, hd, hs, rfl, fun hneeds => of_decide_eq_true (hcounts hneeds)⟩
    · rwa [← hd, hdev, ← hs]
    · rwa [← hd, hdev]

theorem Valid.of_linkAt_commitDevices (h : log.Valid) {groups : List (DeviceId × List ServedOp)}
    (hgroups : log.GroupsOk groups) {l' : Link}
    (hl' : (log.commitDevices groups).1.linkAt d s = some l') :
    log.Committed (groups.flatMap Prod.snd) d s l' := by
  induction groups generalizing log with
  | nil => exact .inl ⟨l', hl', .inl rfl⟩
  | cons group groups ih =>
    obtain ⟨hnodup, hok⟩ := hgroups
    obtain ⟨hnot, hnodup⟩ := List.nodup_cons.mp hnodup
    obtain ⟨hown, hserved⟩ := hok group List.mem_cons_self
    have hdev : ∀ op ∈ group.2, op.header.dot.deviceId = group.1 := fun op hop => (hserved op hop).2
    change ((log.commitDevice group.1 group.2).1.commitDevices groups).1.linkAt d s = some l' at hl'
    by_cases hd : d = group.1
    · subst hd
      rw [linkAt_commitDevices_of_notMem _
        (fun g hg op hop => ((hok g (List.mem_cons_of_mem _ hg)).2 op hop).2) hnot] at hl'
      exact (of_linkAt_commitDevice hown hdev hl').mono (List.subset_append_left _ _)
    · obtain ⟨hv, hev, hframe, hhead, -⟩ := h.commitDevice hown hserved fun _ _ _ => Set.mem_univ _
      have hcommitted := (@ih (log.commitDevice group.1 group.2).1 hv ⟨hnodup, fun g hg => by
        obtain ⟨ho, hs⟩ := hok g (List.mem_cons_of_mem _ hg)
        exact ⟨hev.own ▸ ho, fun op hop => hev.vaultId ▸ hs op hop⟩⟩ hl').mono
          (List.subset_append_right group.2 _)
      rw [Committed, linkAt_commitDevice_of_ne log hdev hd, hhead d hd, hev.own, hframe.items]
        at hcommitted
      exact hcommitted

theorem Valid.cutoff_commit (h : log.Valid) (ops : List ServedOp) (d : DeviceId) :
    (log.commit ops).1.cutoff d = log.cutoff d := by
  have hframe := (h.commitDevices (log.groupsOk_group ops)
    fun _ _ _ _ _ => Set.mem_univ _).2.2.1
  rw [cutoff, show (log.commit ops).1.cutoffs = log.cutoffs from hframe.cutoffs, cutoff]

/-- What a link after a commit was before it. -/
theorem Valid.of_linkAt_commit (h : log.Valid) {l' : Link}
    (hl' : (log.commit ops).1.linkAt d s = some l') : log.Committed ops d s l' := by
  refine (h.of_linkAt_commitDevices (log.groupsOk_group ops) hl').mono fun op hop => ?_
  obtain ⟨group, hgroup, hop⟩ := List.mem_flatMap.mp hop
  rw [(mem_group hgroup).2] at hop
  exact (mem_servedOf.mp hop).1

end VaultLog

end RizzyVault.Sync.Causal
