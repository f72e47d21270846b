import RizzyVault.Sync.Causal.Walk

/-!
# What a call leaves of the causal log

How a log may change under its calls: settled vectors grow, cut-offs only get lower, and a link
stays in its place with its header, but for an own operation that is re-issued. Every call but the
deliveries keeps the invariant and changes the log only so.

## Main definitions

* `Reissues`: one header re-issues another.
* `VaultLog.Evolves`: how a log may change.

## Main results

* `VaultLog.Valid.commit`, `VaultLog.Valid.recordAbsorbed`, `VaultLog.Valid.learnRevocation` and
  the like: the calls keep the invariant, and the log evolves.
-/

open RizzyVault.Lib

namespace RizzyVault.Sync.Causal

open Std (ExtTreeMap ExtTreeSet)

/-- A header that differs from another only in a higher vault key epoch. -/
structure Reissues (original header : OpHeader) : Prop where
  epoch_lt : original.vaultKeyEpoch < header.vaultKeyEpoch
  eq : header = { original with
    vaultKeyEpoch := header.vaultKeyEpoch, vaultKeyEpoch_lt := header.vaultKeyEpoch_lt }

theorem Reissues.trans {a b c : OpHeader} (hab : Reissues a b) (hbc : Reissues b c) :
    Reissues a c where
  epoch_lt := hab.epoch_lt.trans hbc.epoch_lt
  eq := by
    have h := hbc.eq
    rw [hab.eq] at h
    exact h

namespace VaultLog

/-- How a link may change: a delivered one stays delivered, and the header of an own one may be
re-issued. -/
structure LinkEvolves (own : DeviceId) (device : DeviceId) (link link' : Link) : Prop where
  header : link'.header = link.header ∨
    device = own ∧ Reissues link.header link'.header
  delivered : link.state = .delivered → link'.state = .delivered

/-- How a log may change under its calls, where the bodies of the headers `verified` become
verified. -/
structure Evolves (log : VaultLog) (verified : Set OpHeader) (log' : VaultLog) : Prop where
  vaultId : log'.vaultId = log.vaultId
  own : log'.own = log.own
  settled : ∀ i, log.settled i ≤ log'.settled i
  cutoff : ∀ d c, log.cutoff d = some c → ∃ c', log'.cutoff d = some c' ∧ c' ≤ c
  link : ∀ d s l, log.linkAt d s = some l →
    ∃ l', log'.linkAt d s = some l' ∧ LinkEvolves log.own d l l'
  ready : ∀ d s l', log'.linkAt d s = some l' → l'.state = .ready →
    log.linkAt d s = some l' ∨ l'.header ∈ verified
  accepted : ∀ d s l', log'.linkAt d s = some l' → log.linkAt d s = none →
    d = log.own ∨ ∀ c, log.cutoff d = some c → s ≤ c

variable {log log' log'' : VaultLog} {device : DeviceId} {seq : ℕ} {link : Link}
  {verified verified' : Set OpHeader}

theorem LinkEvolves.refl (own device : DeviceId) (link : Link) : LinkEvolves own device link link :=
  ⟨.inl rfl, id⟩

theorem LinkEvolves.trans {own device : DeviceId} {a b c : Link}
    (hab : LinkEvolves own device a b) (hbc : LinkEvolves own device b c) :
    LinkEvolves own device a c := by
  refine ⟨?_, fun h => hbc.delivered (hab.delivered h)⟩
  rcases hab.header with hb | ⟨hd, hb⟩
  · exact hb ▸ hbc.header
  · rcases hbc.header with hc | ⟨-, hc⟩
    · exact .inr ⟨hd, hc ▸ hb⟩
    · exact .inr ⟨hd, hb.trans hc⟩

theorem Evolves.refl (log : VaultLog) : log.Evolves verified log where
  vaultId := rfl
  own := rfl
  settled _ := le_rfl
  cutoff _ c h := ⟨c, h, le_rfl⟩
  link _ _ l h := ⟨l, h, .refl _ _ l⟩
  ready _ _ _ h _ := .inl h
  accepted _ _ _ h h' := absurd (h'.symm.trans h) (by simp)

theorem Evolves.trans (h : log.Evolves verified log') (h' : log'.Evolves verified log'') :
    log.Evolves verified log'' where
  vaultId := h'.vaultId.trans h.vaultId
  own := h'.own.trans h.own
  settled i := (h.settled i).trans (h'.settled i)
  cutoff d c hc := by
    obtain ⟨c', hc', hle⟩ := h.cutoff d c hc
    obtain ⟨c'', hc'', hle'⟩ := h'.cutoff d c' hc'
    exact ⟨c'', hc'', hle'.trans hle⟩
  link d s l hl := by
    obtain ⟨l', hl', hev⟩ := h.link d s l hl
    obtain ⟨l'', hl'', hev'⟩ := h'.link d s l' hl'
    exact ⟨l'', hl'', hev.trans (h.own ▸ hev')⟩
  ready d s l hl hstate := (h'.ready d s l hl hstate).elim (fun hl' => h.ready d s l hl' hstate) .inr
  accepted d s l hl hnone := by
    cases hl' : log'.linkAt d s with
    | some l' => exact h.accepted d s l' hl' hnone
    | none =>
      rw [← h.own]
      refine (h'.accepted d s l hl hl').imp id fun hle c hc => ?_
      obtain ⟨c', hc', hle'⟩ := h.cutoff d c hc
      exact (hle c' hc').trans hle'

theorem Evolves.mono (h : log.Evolves verified log') (hsub : verified ⊆ verified') :
    log.Evolves verified' log' :=
  { h with ready := fun d s l hl hstate => (h.ready d s l hl hstate).imp id fun hv => hsub hv }

/-- A log whose links and cut-offs stay evolves. -/
theorem Evolves.of_linkAt (hvault : log'.vaultId = log.vaultId) (hown : log'.own = log.own)
    (hcutoffs : log'.cutoffs = log.cutoffs) (hsettled : ∀ i, log.settled i ≤ log'.settled i)
    (hlinkAt : ∀ d s, log'.linkAt d s = log.linkAt d s) : log.Evolves verified log' where
  vaultId := hvault
  own := hown
  settled := hsettled
  cutoff d c h := ⟨c, by rw [VaultLog.cutoff, hcutoffs, ← VaultLog.cutoff, h], le_rfl⟩
  link d s l h := ⟨l, (hlinkAt d s).trans h, .refl _ _ l⟩
  ready d s l h _ := .inl ((hlinkAt d s).symm.trans h)
  accepted d s l h hnone := absurd (hnone.symm.trans ((hlinkAt d s).symm.trans h)) (by simp)

/-- A change of the state of one undelivered link. -/
theorem Evolves.setState (hlink : log.linkAt device seq = some link) {state : LinkState}
    (hstate : link.state = .delivered → state = .delivered)
    (hready : state = .ready → link.header ∈ verified) (hvault : log'.vaultId = log.vaultId)
    (hown : log'.own = log.own) (hcutoffs : log'.cutoffs = log.cutoffs)
    (hsettled : ∀ i, log.settled i ≤ log'.settled i)
    (hlinkAt : ∀ d s, log'.linkAt d s =
      if device = d ∧ seq = s then some { link with state } else log.linkAt d s) :
    log.Evolves verified log' where
  vaultId := hvault
  own := hown
  settled := hsettled
  cutoff d c h := ⟨c, by rw [VaultLog.cutoff, hcutoffs, ← VaultLog.cutoff, h], le_rfl⟩
  link d s l h := by
    rw [hlinkAt]
    split_ifs with hds
    · obtain ⟨rfl, rfl⟩ := hds
      cases hlink.symm.trans h
      exact ⟨_, rfl, .inl rfl, hstate⟩
    · exact ⟨l, h, .refl _ _ l⟩
  ready d s l h hr := by
    rw [hlinkAt] at h
    split_ifs at h with hds
    · cases h
      exact .inr (hready hr)
    · exact .inl h
  accepted d s l h hnone := by
    rw [hlinkAt] at h
    split_ifs at h with hds
    · obtain ⟨rfl, rfl⟩ := hds
      exact absurd (hnone.symm.trans hlink) (by simp)
    · exact absurd (hnone.symm.trans h) (by simp)

/-! ### The parts of a commit -/

/-- A link without a ready body gets one, and its item is marked. -/
theorem Valid.wake (h : log.Valid) (hlink : log.linkAt device seq = some link)
    (hlive : link.state ≠ .delivered ∧ link.state ≠ .revoked ∧ link.state ≠ .ready) {dot : Dot}
    (hd : dot.deviceId = device) (hs : dot.seq = seq) (hverified : link.header ∈ verified)
    {log' : VaultLog} (hlog' : log' = (log.modifyLink device seq fun link => { link with state := .ready }).readyInsert
      link.header.itemId dot) : log'.Valid ∧ log.Evolves verified log' := by
  subst hlog'
  have hlinkAt : ∀ d s, ((log.modifyLink device seq fun link =>
      { link with state := .ready }).readyInsert link.header.itemId dot).linkAt d s =
      if device = d ∧ seq = s then some { link with state := .ready } else log.linkAt d s := by
    intro d s
    rw [linkAt_readyInsert, linkAt_modifyLink, hlink, Option.map_some]
  refine ⟨⟨h.toCoherent.wake hlink hlive hd hs, fun d s l hl hready hholds => ?_⟩,
    .setState hlink (fun h => absurd h hlive.1) (fun _ => hverified) rfl rfl rfl (fun _ => le_rfl)
      hlinkAt⟩
  rw [hlinkAt] at hl
  change l.header.itemId ∈ log.dirty.insert link.header.itemId
  rw [ExtTreeSet.mem_insert, compare_eq_iff_eq]
  split_ifs at hl with hds
  · cases hl
    exact .inl rfl
  · exact .inr (h.marked d s l hl hready hholds)

/-- A link without a ready body takes another state without one. -/
theorem Valid.modifyState (h : log.Valid) (hlink : log.linkAt device seq = some link)
    (hlive : link.state ≠ .delivered ∧ link.state ≠ .revoked ∧ link.state ≠ .ready)
    {state : LinkState} (hstate : state = .waiting ∨ state = .rejected) {log' : VaultLog}
    (hlog' : log' = log.modifyLink device seq fun link => { link with state }) :
    log'.Valid ∧ log.Evolves verified log' := by
  subst hlog'
  have hlinkAt : ∀ d s, (log.modifyLink device seq fun link => { link with state }).linkAt d s =
      if device = d ∧ seq = s then some { link with state } else log.linkAt d s := by
    intro d s
    rw [linkAt_modifyLink, hlink, Option.map_some]
  have hnot : state ≠ .ready := by rcases hstate with rfl | rfl <;> simp
  refine ⟨⟨h.toCoherent.modifyState hlink hlive hstate, fun d s l hl hready hholds => ?_⟩,
    .setState hlink (fun h => absurd h hlive.1) (fun h => absurd h hnot) rfl rfl rfl
      (fun _ => le_rfl) hlinkAt⟩
  rw [hlinkAt] at hl
  split_ifs at hl with hds
  · cases hl
    rcases hstate with rfl | rfl <;> cases hready
  · exact h.marked d s l hl hready hholds

/-- Accepting the next link of another device's chain. -/
theorem Valid.acceptLink (h : log.Valid) {header : OpHeader} {body : BodyStatus}
    (hvault : header.vaultId = log.vaultId) (hown : header.dot.deviceId ≠ log.own)
    (hprev : header.vaultPrevSeq = log.head header.dot.deviceId)
    (hseq : log.head header.dot.deviceId < header.dot.seq)
    (hholds : body = .bodiless → (log.settled header.itemId).covers header.dot)
    (hcutoff : ∀ c ∈ log.cutoff header.dot.deviceId, ¬ c < header.dot.seq)
    (hverified : body = .verified → header ∈ verified) :
    (log.acceptLink header (.fromBody body)).Valid ∧
      log.Evolves verified (log.acceptLink header (.fromBody body)) := by
  have hnew : log.linkAt header.dot.deviceId header.dot.seq = none := by
    rw [Option.eq_none_iff_forall_not_mem]
    intro l hl
    have := h.seq_le_head hl
    omega
  have hcoherent : (log.acceptLink header (.fromBody body)).Coherent := by
    refine h.toCoherent.acceptLink hvault hprev hseq ?_ ?_ (fun c hc hlt => absurd hlt (hcutoff c hc))
      fun h => absurd h hown
    all_goals cases body <;> simp_all [LinkState.fromBody]
  have hdirty : ∀ i, i ∈ log.dirty → i ∈ (log.acceptLink header (.fromBody body)).dirty := by
    intro i hi
    unfold VaultLog.acceptLink
    split_ifs
    · exact ExtTreeSet.mem_insert.mpr (.inr hi)
    · exact hi
  refine ⟨⟨hcoherent, fun d s l hl hready hholds' => ?_⟩, ?_, ?_, ?_, ?_, fun d s l hl => ?_,
    fun d s l hl hready => ?_, fun d s l hl hnone => ?_⟩
  · rw [linkAt_acceptLink] at hl
    split_ifs at hl with hds
    · cases hl
      change header.itemId ∈ (log.acceptLink header (.fromBody body)).dirty
      change LinkState.fromBody body = .ready at hready
      simp only [VaultLog.acceptLink, if_pos hready]
      exact ExtTreeSet.mem_insert_self
    · refine hdirty _ (h.marked d s l hl hready ?_)
      rwa [holds, settled_acceptLink] at hholds'
  · unfold VaultLog.acceptLink
    split_ifs <;> rfl
  · unfold VaultLog.acceptLink
    split_ifs <;> rfl
  · exact fun i => by rw [settled_acceptLink]
  · intro d c hc
    refine ⟨c, ?_, le_rfl⟩
    unfold VaultLog.acceptLink
    split_ifs <;> exact hc
  · refine ⟨l, ?_, .refl _ _ l⟩
    rw [linkAt_acceptLink, if_neg, hl]
    rintro ⟨rfl, rfl⟩
    exact absurd (hnew.symm.trans hl) (by simp)
  · rw [linkAt_acceptLink] at hl
    split_ifs at hl with hds
    · cases hl
      refine .inr (hverified ?_)
      cases body <;> simp_all [LinkState.fromBody]
    · exact .inl hl
  · rw [linkAt_acceptLink] at hl
    split_ifs at hl with hds
    · obtain ⟨rfl, rfl⟩ := hds
      exact .inr fun c hc => not_lt.mp (hcutoff c hc)
    · exact absurd (hnone.symm.trans hl) (by simp)

/-- What a commit keeps apart from the invariant: the settled vectors, the cut-offs, and the
headers held so far. -/
structure CommitFrame (log log' : VaultLog) : Prop where
  items : log'.items = log.items
  cutoffs : log'.cutoffs = log.cutoffs
  uploads : log'.uploads = log.uploads
  absorbed : log'.absorbed = log.absorbed
  header : ∀ d s l, log.linkAt d s = some l → ∃ l', log'.linkAt d s = some l' ∧ l'.header = l.header

theorem CommitFrame.refl (log : VaultLog) : log.CommitFrame log :=
  ⟨rfl, rfl, rfl, rfl, fun _ _ l hl => ⟨l, hl, rfl⟩⟩

theorem CommitFrame.trans (h : log.CommitFrame log') (h' : log'.CommitFrame log'') :
    log.CommitFrame log'' := by
  refine ⟨h'.items.trans h.items, h'.cutoffs.trans h.cutoffs, h'.uploads.trans h.uploads,
    h'.absorbed.trans h.absorbed, fun d s l hl => ?_⟩
  obtain ⟨l', hl', heq⟩ := h.header d s l hl
  obtain ⟨l'', hl'', heq'⟩ := h'.header d s l' hl'
  exact ⟨l'', hl'', heq'.trans heq⟩

/-- Serving a held link again. -/
theorem Valid.serveAgain (h : log.Valid) {op : ServedOp}
    (hop : ∃ link, log.link op.header.dot = some link ∧ link.header = op.header)
    (hverified : op.body = .verified → op.header ∈ verified) :
    (log.serveAgain op).1.Valid ∧ log.Evolves verified (log.serveAgain op).1 ∧
      log.CommitFrame (log.serveAgain op).1 ∧ ∀ d, (log.serveAgain op).1.head d = log.head d := by
  obtain ⟨link, hlink, hheader⟩ := hop
  have hframe : ∀ state log', log'.chains = (log.modifyLink op.header.dot.deviceId
      op.header.dot.seq fun link => { link with state }).chains →
      log'.items = log.items → log'.cutoffs = log.cutoffs → log'.uploads = log.uploads →
      log'.absorbed = log.absorbed → log.CommitFrame log' := by
    refine fun state log' hchains hi hc hu ha => ⟨hi, hc, hu, ha, fun d s l hl => ?_⟩
    have hlinkAt : log'.linkAt d s = (log.modifyLink op.header.dot.deviceId op.header.dot.seq
        fun link => { link with state }).linkAt d s := by
      simp only [linkAt, hchains]
    rw [hlinkAt, linkAt_modifyLink]
    split_ifs with hds
    · obtain ⟨rfl, rfl⟩ := hds
      exact ⟨{ l with state }, by rw [hl, Option.map_some], rfl⟩
    · exact ⟨l, hl, rfl⟩
  unfold VaultLog.serveAgain
  simp only [hlink]
  by_cases hstate : link.state = .rejected
  · have hlive : link.state ≠ .delivered ∧ link.state ≠ .revoked ∧ link.state ≠ .ready := by
      simp [hstate]
    rw [if_neg (not_not.mpr hstate)]
    cases hbody : op.body with
    | verified =>
      have hwake := h.wake hlink hlive rfl rfl (hheader ▸ hverified hbody) rfl
      rw [hheader] at hwake
      exact ⟨hwake.1, hwake.2, hframe .ready _ rfl rfl rfl rfl rfl, fun d => head_modifyLink⟩
    | waiting =>
      have hwait : _ ∧ log.Evolves verified _ := h.modifyState hlink hlive (.inl rfl) rfl
      exact ⟨hwait.1, hwait.2, hframe .waiting _ rfl rfl rfl rfl rfl, fun d => head_modifyLink⟩
    | rejected => exact ⟨h, .refl log, .refl log, fun _ => rfl⟩
    | bodiless => exact ⟨h, .refl log, .refl log, fun _ => rfl⟩
  · rw [if_pos hstate]
    exact ⟨h, .refl log, .refl log, fun _ => rfl⟩

theorem Valid.serveAgainAll (h : log.Valid) {ops : List ServedOp}
    (hops : ∀ op ∈ ops, ∃ link, log.link op.header.dot = some link ∧ link.header = op.header)
    (hverified : ∀ op ∈ ops, op.body = .verified → op.header ∈ verified) :
    (log.serveAgainAll ops).1.Valid ∧ log.Evolves verified (log.serveAgainAll ops).1 ∧
      log.CommitFrame (log.serveAgainAll ops).1 ∧
      ∀ d, (log.serveAgainAll ops).1.head d = log.head d := by
  induction ops generalizing log with
  | nil => exact ⟨h, .refl log, .refl log, fun _ => rfl⟩
  | cons op ops ih =>
    obtain ⟨hvalid, hev, hframe, hhead⟩ := h.serveAgain (hops op List.mem_cons_self)
      (hverified op List.mem_cons_self)
    obtain ⟨hvalid', hev', hframe', hhead'⟩ := ih hvalid (fun op' hop' => by
      obtain ⟨link, hlink, hheader⟩ := hops op' (List.mem_cons_of_mem _ hop')
      obtain ⟨link', hlink', heq⟩ := hframe.header _ _ _ hlink
      exact ⟨link', hlink', heq.trans hheader⟩)
      fun op' hop' => hverified op' (List.mem_cons_of_mem _ hop')
    exact ⟨hvalid', hev.trans hev', hframe.trans hframe', fun d => (hhead' d).trans (hhead d)⟩

/-- Accepting headers that continue a chain. -/
theorem Valid.acceptAll (h : log.Valid) {ops : List ServedOp} (hown : device ≠ log.own)
    (hfollows : Follows (log.head device) ops)
    (hops : ∀ op ∈ ops, op.header.vaultId = log.vaultId ∧ op.header.dot.deviceId = device ∧
      (op.body = .bodiless → (log.settled op.header.itemId).covers op.header.dot) ∧
      ∀ c ∈ log.cutoff device, ¬ c < op.header.dot.seq)
    (hverified : ∀ op ∈ ops, op.body = .verified → op.header ∈ verified) {log' : VaultLog}
    (hlog' : log' = ops.foldl (fun log op => log.acceptLink op.header (.fromBody op.body)) log) :
    log'.Valid ∧ log.Evolves verified log' ∧ log.CommitFrame log' ∧
      (∀ d, d ≠ device → log'.head d = log.head d) ∧
      log'.head device = (log.head device :: ops.map fun op => op.header.dot.seq).getLast
        (List.cons_ne_nil _ _) := by
  subst hlog'
  induction ops generalizing log with
  | nil => exact ⟨h, .refl log, .refl log, fun _ _ => rfl, rfl⟩
  | cons op ops ih =>
    obtain ⟨hvault, hdev, hbody, hcut⟩ := hops op List.mem_cons_self
    subst hdev
    obtain ⟨hprev, hseq, hrest⟩ := hfollows
    obtain ⟨hvalid, hev⟩ := h.acceptLink hvault hown hprev hseq hbody hcut
      (hverified op List.mem_cons_self)
    have hcutoffs : (log.acceptLink op.header (.fromBody op.body)).cutoffs = log.cutoffs := by
      unfold VaultLog.acceptLink
      split_ifs <;> rfl
    have hframe : log.CommitFrame (log.acceptLink op.header (.fromBody op.body)) := by
      refine ⟨items_acceptLink, hcutoffs, ?_, ?_, fun d s l hl => ?_⟩
      · unfold VaultLog.acceptLink
        split_ifs <;> rfl
      · unfold VaultLog.acceptLink
        split_ifs <;> rfl
      · obtain ⟨l', hl', hle⟩ := hev.link d s l hl
        have hne : ¬ (op.header.dot.deviceId = d ∧ op.header.dot.seq = s) := by
          rintro ⟨rfl, rfl⟩
          have := h.seq_le_head hl
          omega
        rw [linkAt_acceptLink, if_neg hne, hl] at hl'
        exact ⟨l, by rw [linkAt_acceptLink, if_neg hne, hl], rfl⟩
    have hhead : ∀ d, (log.acceptLink op.header (.fromBody op.body)).head d =
        if op.header.dot.deviceId = d then op.header.dot.seq else log.head d :=
      fun d => head_acceptLink
    obtain ⟨hv, he, hf, hh, hlast⟩ := ih hvalid (by rw [hev.own]; exact hown)
      (by rw [hhead, if_pos rfl]; exact hrest) (fun op' hop' => by
        obtain ⟨hv', hd', hb', hc'⟩ := hops op' (List.mem_cons_of_mem _ hop')
        refine ⟨hv'.trans hev.vaultId.symm, hd', fun hb => ?_, ?_⟩
        · rw [settled_acceptLink]
          exact hb' hb
        · rw [VaultLog.cutoff, hcutoffs]
          exact hc') fun op' hop' => hverified op' (List.mem_cons_of_mem _ hop')
    refine ⟨hv, hev.trans he, hframe.trans hf, fun d hd => ?_, ?_⟩
    · rw [List.foldl_cons, hh d hd, hhead, if_neg (Ne.symm hd)]
    · rw [List.foldl_cons, hlast, List.getLast_congr _ (List.cons_ne_nil _ _)
        (by rw [hhead, if_pos rfl])]
      simp

/-! ### The commit -/

/-- What a commit accepts of a device's served headers. -/
def accepts (log : VaultLog) (device : DeviceId) (served : List ServedOp) : List ServedOp :=
  extension (log.cutoff device) (fun h => covered log.items h) (log.head device) served

/-- Where a chain ends after more links. -/
def lastSeq (head : ℕ) (ops : List ServedOp) : ℕ :=
  (head :: ops.map fun op => op.header.dot.seq).getLast (List.cons_ne_nil _ _)

theorem accepts_congr (hframe : log.CommitFrame log') (hhead : log'.head device = log.head device)
    (served : List ServedOp) : log'.accepts device served = log.accepts device served := by
  rw [accepts, accepts, hhead, VaultLog.cutoff, hframe.cutoffs, hframe.items, VaultLog.cutoff]

theorem Valid.commitDevice (h : log.Valid) (hown : device ≠ log.own) {served : List ServedOp}
    (hserved : ∀ op ∈ served, op.header.vaultId = log.vaultId ∧ op.header.dot.deviceId = device)
    (hverified : ∀ op ∈ served, op.body = .verified → op.header ∈ verified) :
    (log.commitDevice device served).1.Valid ∧ log.Evolves verified (log.commitDevice device served).1 ∧
      log.CommitFrame (log.commitDevice device served).1 ∧
      (∀ d, d ≠ device → (log.commitDevice device served).1.head d = log.head d) ∧
      (log.commitDevice device served).1.head device =
        lastSeq (log.head device) (log.accepts device served) ∧
      (log.commitDevice device served).2.accepted =
        (log.accepts device served).map fun op => op.header.dot := by
  have hreserved : ∀ op ∈ (log.walk device served fun h => covered log.items h).reserved,
      ∃ link, log.link op.header.dot = some link ∧ link.header = op.header := by
    intro op hop
    obtain ⟨hmem, link, hlink, hheader, -⟩ := mem_walk_reserved hop
    have hdev := (hserved op hmem).2
    exact ⟨link, by rw [VaultLog.link, hdev, hlink], hheader⟩
  obtain ⟨hv, hev, hframe, hhead⟩ := h.serveAgainAll hreserved
    fun op hop => hverified op (mem_walk_reserved hop).1
  have haccepted : (log.walk device served fun h => covered log.items h).accepted =
      log.accepts device served := walk_accepted
  have hlog' : (log.commitDevice device served).1 = (log.accepts device served).foldl
      (fun log op => log.acceptLink op.header (.fromBody op.body))
      (log.serveAgainAll (log.walk device served fun h => covered log.items h).reserved).1 := by
    rw [← haccepted]
    rfl
  have hops : ∀ op ∈ log.accepts device served, op.header.vaultId = log.vaultId ∧
      op.header.dot.deviceId = device ∧
      (op.body = .bodiless → (log.settled op.header.itemId).covers op.header.dot) ∧
      ∀ c ∈ log.cutoff device, ¬ c < op.header.dot.seq := by
    intro op hop
    obtain ⟨hmem, hcut, hcounts⟩ := mem_extension hop
    refine ⟨(hserved op hmem).1, (hserved op hmem).2, fun hb => ?_, hcut⟩
    have := hcounts (by rw [hb]; rfl)
    rwa [decide_eq_true_eq, covered_iff] at this
  obtain ⟨hv', hev', hframe', hother, hlast⟩ := hv.acceptAll (by rw [hev.own]; exact hown)
    (by rw [hhead]; exact follows_extension) (fun op hop => by
      obtain ⟨hvault, hdev, hbody, hcut⟩ := hops op hop
      refine ⟨hvault.trans hev.vaultId.symm, hdev, fun hb => ?_, ?_⟩
      · rw [VaultLog.settled, hframe.items]
        exact hbody hb
      · rw [VaultLog.cutoff, hframe.cutoffs]
        exact hcut) (fun op hop => hverified op (mem_extension hop).1) hlog'
  refine ⟨hv', hev.trans hev', hframe.trans hframe', fun d hd => (hother d hd).trans (hhead d), ?_,
    congrArg (List.map fun op : ServedOp => op.header.dot) haccepted⟩
  rw [hlast, lastSeq]
  exact List.getLast_congr _ _ (by rw [hhead]; rfl)

/-- The groups of a response: one for a device, of another device, in the log's vault. -/
def GroupsOk (log : VaultLog) (groups : List (DeviceId × List ServedOp)) : Prop :=
  (groups.map Prod.fst).Nodup ∧ ∀ group ∈ groups, group.1 ≠ log.own ∧
    ∀ op ∈ group.2, op.header.vaultId = log.vaultId ∧ op.header.dot.deviceId = group.1

theorem groupsOk_group (ops : List ServedOp) : log.GroupsOk (log.group ops).1.toList := by
  refine ⟨?_, fun group hgroup => ?_⟩
  · rw [ExtTreeMap.map_fst_toList_eq_keys]
    exact (log.group ops).1.pairwise_keys.imp fun h => h.ne
  · obtain ⟨hown, hserved⟩ := mem_group hgroup
    rw [hserved]
    exact ⟨hown, fun op hop => (mem_servedOf.mp hop).2⟩

theorem Valid.commitDevices (h : log.Valid) {groups : List (DeviceId × List ServedOp)}
    (hgroups : log.GroupsOk groups)
    (hverified : ∀ group ∈ groups, ∀ op ∈ group.2, op.body = .verified → op.header ∈ verified) :
    (log.commitDevices groups).1.Valid ∧ log.Evolves verified (log.commitDevices groups).1 ∧
      log.CommitFrame (log.commitDevices groups).1 ∧
      (∀ d, d ∉ groups.map Prod.fst → (log.commitDevices groups).1.head d = log.head d) ∧
      (∀ group ∈ groups, (log.commitDevices groups).1.head group.1 =
        lastSeq (log.head group.1) (log.accepts group.1 group.2)) ∧
      (log.commitDevices groups).2.accepted = groups.flatMap fun group =>
        (log.accepts group.1 group.2).map fun op => op.header.dot := by
  induction groups generalizing log with
  | nil => exact ⟨h, .refl log, .refl log, fun _ _ => rfl, by simp, rfl⟩
  | cons group groups ih =>
    obtain ⟨device, served⟩ := group
    obtain ⟨hnodup, hok⟩ := hgroups
    obtain ⟨hnot, hnodup⟩ := List.nodup_cons.mp hnodup
    obtain ⟨hown, hserved⟩ := hok _ List.mem_cons_self
    obtain ⟨hv, hev, hframe, hother, hhead, hacc⟩ := h.commitDevice hown hserved
      (hverified _ List.mem_cons_self)
    obtain ⟨hv', hev', hframe', hother', hhead', hacc'⟩ := ih hv ⟨hnodup, fun g hg => by
      obtain ⟨ho, hs⟩ := hok g (List.mem_cons_of_mem _ hg)
      exact ⟨hev.own ▸ ho, fun op hop => hev.vaultId ▸ hs op hop⟩⟩
      fun g hg => hverified g (List.mem_cons_of_mem _ hg)
    have hsame : ∀ g ∈ groups, (log.commitDevice device served).1.head g.1 = log.head g.1 :=
      fun g hg => hother g.1 fun heq => hnot (heq ▸ List.mem_map_of_mem hg)
    refine ⟨hv', hev.trans hev', hframe.trans hframe', fun d hd => ?_, fun g hg => ?_, ?_⟩
    · rw [List.map_cons, List.mem_cons, not_or] at hd
      exact (hother' d hd.2).trans (hother d hd.1)
    · rcases List.mem_cons.mp hg with rfl | hg
      · exact (hother' device hnot).trans hhead
      · refine (hhead' g hg).trans ?_
        rw [hsame g hg, accepts_congr hframe (hsame g hg)]
    · change (log.commitDevice device served).2.accepted ++
        ((log.commitDevice device served).1.commitDevices groups).2.accepted = _
      rw [hacc, hacc', List.flatMap_cons]
      congr 1
      refine List.flatMap_congr fun g hg => ?_
      rw [accepts_congr hframe (hsame g hg)]

/-- The headers whose bodies a response serves verified. -/
def verifiedIn (ops : List ServedOp) : Set OpHeader := {h | ⟨h, .verified⟩ ∈ ops}

/-- What a commit of a response accepts, heads and settled vectors included. -/
theorem Valid.commit (h : log.Valid) (ops : List ServedOp) :
    (log.commit ops).1.Valid ∧ log.Evolves (verifiedIn ops) (log.commit ops).1 ∧
      (log.commit ops).1.items = log.items ∧ (log.commit ops).1.uploads = log.uploads ∧
      (∀ d, d = log.own ∨ log.servedOf ops d = [] → (log.commit ops).1.head d = log.head d) ∧
      (∀ d, d ≠ log.own → (log.commit ops).1.head d =
        lastSeq (log.head d) (log.accepts d (log.servedOf ops d))) ∧
      (log.commit ops).2.accepted = (log.group ops).1.toList.flatMap fun group =>
        (log.accepts group.1 group.2).map fun op => op.header.dot := by
  have hverified : ∀ group ∈ (log.group ops).1.toList, ∀ op ∈ group.2, op.body = .verified →
      op.header ∈ verifiedIn ops := by
    intro group hgroup op hop hbody
    rw [(mem_group hgroup).2] at hop
    change (⟨op.header, .verified⟩ : ServedOp) ∈ ops
    rw [← hbody]
    exact (mem_servedOf.mp hop).1
  obtain ⟨hv, hev, hframe, hother, hhead, hacc⟩ := h.commitDevices (groupsOk_group ops) hverified
  have hsame : ∀ d, d = log.own ∨ log.servedOf ops d = [] →
      (log.commitDevices (log.group ops).1.toList).1.head d = log.head d := by
    intro d hd
    by_cases hmem : d ∈ (log.group ops).1.toList.map Prod.fst
    · obtain ⟨⟨d', served⟩, hg, rfl⟩ := List.mem_map.mp hmem
      obtain ⟨hown, hserved⟩ := mem_group hg
      have hnil := hd.resolve_left hown
      rw [hhead _ hg, hserved, hnil]
      rfl
    · exact hother d hmem
  refine ⟨⟨hv.toCoherent.settle rfl rfl rfl rfl rfl fun _ => le_rfl, hv.marked⟩,
    hev.trans (.of_linkAt rfl rfl rfl (fun _ => le_rfl) fun _ _ => rfl), hframe.items,
    hframe.uploads, hsame, fun d hd => ?_, hacc⟩
  by_cases hnil : log.servedOf ops d = []
  · rw [hnil]
    exact hsame d (.inr hnil)
  · exact hhead _ (exists_mem_group hd hnil)

/-! ### The other calls -/

theorem Valid.recordAbsorbed (h : log.Valid) (plan : CoverPlan) (itemId : ItemId)
    (taken : VersionVector) :
    (log.recordAbsorbed plan itemId taken).1.Valid ∧
      log.Evolves verified (log.recordAbsorbed plan itemId taken).1 := by
  have hsettled : ∀ i, log.settled i ≤ (log.recordAbsorbed plan itemId taken).1.settled i := by
    intro i
    rw [settled_recordAbsorbed]
    split_ifs
    · exact le_sup_left
    · exact le_rfl
  refine ⟨⟨h.toCoherent.settle rfl rfl rfl rfl rfl hsettled, fun d s l hl hready hholds => ?_⟩,
    .of_linkAt rfl rfl rfl hsettled fun _ _ => rfl⟩
  change l.header.itemId ∈ log.dirty.insert itemId
  rw [ExtTreeSet.mem_insert, compare_eq_iff_eq]
  by_cases hi : itemId = l.header.itemId
  · exact .inl hi
  · rw [holds, settled_recordAbsorbed, if_neg hi] at hholds
    exact .inr (h.marked d s l hl hready hholds)

theorem resolveWaiting_eq_ok {dot : Dot} {state : LinkState} {out : VaultLog × ItemId}
    (h : log.resolveWaiting dot state = .ok out) :
    ∃ link, log.link dot = some link ∧ link.state = .waiting ∧ out.2 = link.header.itemId ∧
      out.1 = log.modifyLink dot.deviceId dot.seq fun link => { link with state } := by
  unfold resolveWaiting at h
  split at h
  · cases h
  · rename_i link hlink
    split_ifs at h with hw
    cases h
    exact ⟨link, hlink, not_not.mp hw, rfl, rfl⟩

/-- A body that becomes verified is that of the header held at its dot. -/
theorem Valid.bodyVerified (h : log.Valid) (dot : Dot) :
    (log.orSame (log.bodyVerified dot)).Valid ∧
      log.Evolves {header | log.header dot = some header} (log.orSame (log.bodyVerified dot)) := by
  unfold VaultLog.bodyVerified
  cases hres : log.resolveWaiting dot .ready with
  | error e => exact ⟨h, .refl log⟩
  | ok out =>
    obtain ⟨link, hlink, hstate, hitem, hlog⟩ := resolveWaiting_eq_ok hres
    refine h.wake hlink (by simp [hstate]) rfl rfl (congrArg (Option.map Link.header) hlink) ?_
    rw [← hlog, ← hitem]
    rfl

theorem Valid.bodyRejected (h : log.Valid) (dot : Dot) :
    (log.orSame (log.bodyRejected dot)).Valid ∧
      log.Evolves verified (log.orSame (log.bodyRejected dot)) := by
  unfold VaultLog.bodyRejected
  cases hres : log.resolveWaiting dot .rejected with
  | error e => exact ⟨h, .refl log⟩
  | ok out =>
    obtain ⟨link, hlink, hstate, -, hlog⟩ := resolveWaiting_eq_ok hres
    exact h.modifyState hlink (by simp [hstate]) (.inr rfl) hlog

/-- A change of the upload state alone. -/
theorem Valid.uploads (h : log.Valid) (uploads : Uploads) :
    ({ log with uploads } : VaultLog).Valid ∧ log.Evolves verified { log with uploads } :=
  ⟨⟨h.toCoherent.settle rfl rfl rfl rfl rfl fun _ => le_rfl, h.marked⟩,
    .of_linkAt rfl rfl rfl (fun _ => le_rfl) fun _ _ => rfl⟩

/-! ### The own chain -/

theorem checkOwn_eq_ok {header : OpHeader} :
    log.checkOwn header = .ok () ↔
      header.vaultId = log.vaultId ∧ header.dot.deviceId = log.own := by
  unfold checkOwn
  split_ifs with hvault hown <;> simp_all

/-- An own operation that is recorded continues the own chain, and its context is settled. -/
theorem recordOwnOp_eq_ok {header : OpHeader} :
    log.recordOwnOp header = .ok log' ↔
      header.vaultId = log.vaultId ∧ header.dot.deviceId = log.own ∧
        header.vaultPrevSeq = log.head log.own ∧ log.head log.own < header.dot.seq ∧
        header.causalContext ≤ log.settled header.itemId ∧
        log' = (log.addSettled header.itemId header.dot).acceptLink header .delivered := by
  unfold recordOwnOp
  cases hcheck : log.checkOwn header with
  | error e =>
    have hno : ¬ (header.vaultId = log.vaultId ∧ header.dot.deviceId = log.own) := by
      rw [← checkOwn_eq_ok, hcheck]
      simp
    simp only [false_iff, reduceCtorEq]
    exact fun h => hno ⟨h.1, h.2.1⟩
  | ok u =>
    obtain ⟨hvault, hown⟩ := checkOwn_eq_ok.mp hcheck
    have hcontext : (missingContext log.items header).isSome = true ↔
        ¬ header.causalContext ≤ log.settled header.itemId := by
      rw [← missingContext_eq_none, Option.isSome_iff_ne_none]
    dsimp only [ownVaultPrevSeq]
    by_cases hbroken : header.vaultPrevSeq ≠ log.head log.own ∨ header.dot.seq ≤ log.head log.own
    · rw [if_pos hbroken]
      refine iff_of_false (by simp) ?_
      rintro ⟨-, -, hprev, hseq, -, -⟩
      rcases hbroken with h | h
      · exact h hprev
      · omega
    · rw [if_neg hbroken]
      rw [not_or, not_not, not_le] at hbroken
      split_ifs with hmissing
      · exact iff_of_false (by simp) fun h => hcontext.mp hmissing h.2.2.2.2.1
      · have hctx : header.causalContext ≤ log.settled header.itemId :=
          not_not.mp fun h => hmissing (hcontext.mpr h)
        rw [Except.ok.injEq]
        exact ⟨fun h => ⟨hvault, hown, hbroken.1, hbroken.2, hctx, h.symm⟩,
          fun h => h.2.2.2.2.2.symm⟩

theorem Valid.recordOwnOp (h : log.Valid) (header : OpHeader) :
    (log.orSame (log.recordOwnOp header)).Valid ∧
      log.Evolves verified (log.orSame (log.recordOwnOp header)) := by
  cases hres : log.recordOwnOp header with
  | error e => exact ⟨h, .refl log⟩
  | ok log' =>
    obtain ⟨hvault, hown, hprev, hseq, -, rfl⟩ := recordOwnOp_eq_ok.mp hres
    have hsettled : ∀ i, log.settled i ≤ (log.addSettled header.itemId header.dot).settled i := by
      intro i
      rw [settled_addSettled]
      split_ifs
      · exact fun dot hdot => VersionVector.covers_add.mpr (.inl hdot)
      · exact le_rfl
    have hadd : (log.addSettled header.itemId header.dot).Coherent :=
      h.toCoherent.settle rfl rfl rfl rfl rfl hsettled
    have hnew : log.linkAt header.dot.deviceId header.dot.seq = none := by
      rw [Option.eq_none_iff_forall_not_mem, hown]
      intro l hl
      have := h.seq_le_head hl
      omega
    have hlinkAt : ∀ d s, ((log.addSettled header.itemId header.dot).acceptLink header
        .delivered).linkAt d s = if header.dot.deviceId = d ∧ header.dot.seq = s then
          some ⟨header, .delivered⟩ else log.linkAt d s := fun d s => linkAt_acceptLink
    change ((log.addSettled header.itemId header.dot).acceptLink header .delivered).Valid ∧
      log.Evolves verified ((log.addSettled header.itemId header.dot).acceptLink header .delivered)
    refine ⟨⟨hadd.acceptLink hvault ?_ ?_ (by simp) (fun _ => ?_) (fun _ _ _ => rfl) fun _ => rfl,
      fun d s l hl hready hholds => ?_⟩, rfl, rfl, fun i => ?_, fun d c hc => ⟨c, hc, le_rfl⟩,
      fun d s l hl => ⟨l, ?_, .refl _ _ l⟩, fun d s l hl hready => ?_, fun d s l hl hnone => ?_⟩
    · exact hown ▸ hprev
    · exact hown ▸ hseq
    · rw [settled_addSettled, if_pos rfl]
      exact VersionVector.covers_add.mpr (.inr ⟨rfl, le_rfl⟩)
    · change l.header.itemId ∈ log.dirty
      rw [hlinkAt] at hl
      split_ifs at hl with hds
      · cases hl
        cases hready
      · -- a ready link is another device's, and its coverage is what it was
        have hok := h.link d s l hl
        refine h.marked d s l hl hready ?_
        rw [holds, settled_acceptLink, settled_addSettled] at hholds
        split_ifs at hholds with hi
        · rcases VersionVector.covers_add.mp hholds with hc | ⟨hd, -⟩
          · exact hc
          · have := hok.own (hok.deviceId.symm.trans (hd.symm.trans hown))
            rw [this] at hready
            cases hready
        · exact hholds
    · rw [settled_acceptLink]
      exact hsettled i
    · rw [hlinkAt, if_neg, hl]
      rintro ⟨rfl, rfl⟩
      exact absurd (hnew.symm.trans hl) (by simp)
    · rw [hlinkAt] at hl
      split_ifs at hl with hds
      · cases hl
        cases hready
      · exact .inl hl
    · rw [hlinkAt] at hl
      split_ifs at hl with hds
      · exact .inl (hds.1.symm.trans hown)
      · exact absurd (hnone.symm.trans hl) (by simp)

theorem ownLink_eq_some {seq : ℕ} {header : OpHeader} :
    log.ownLink seq = some header ↔
      ∃ dot, Dot.new log.own seq = some dot ∧ log.header dot = some header :=
  Option.bind_eq_some_iff

/-- What a re-issue that is accepted found and leaves. -/
theorem reissueOwnOp_eq_ok {header : OpHeader} (h : log.reissueOwnOp header = .ok log') :
    header.vaultId = log.vaultId ∧ header.dot.deviceId = log.own ∧
      ¬ log.mayHaveBeenServed header.dot.seq ∧
      (∃ original, log.ownLink header.dot.seq = some original ∧ Reissues original header) ∧
      log' = { log.modifyLink log.own header.dot.seq fun link => { link with header } with
        uploads := { log.uploads with
          unanswered := log.uploads.unanswered.erase header.dot.seq } } := by
  unfold reissueOwnOp at h
  cases hcheck : log.checkOwn header with
  | error e => simp [hcheck] at h
  | ok u =>
    obtain ⟨hvault, hown⟩ := checkOwn_eq_ok.mp hcheck
    simp only [hcheck] at h
    cases horig : log.ownLink header.dot.seq with
    | none => simp [horig] at h
    | some original =>
      simp only [horig] at h
      split_ifs at h with hacked hserved hno
      rw [not_or, not_not, not_le] at hno
      cases h
      exact ⟨hvault, hown, hserved, ⟨original, rfl, hno.2, hno.1.symm⟩, rfl⟩

/-- Holding a re-issued own operation. -/
theorem Valid.reissueOwnOp (h : log.Valid) (header : OpHeader) :
    (log.orSame (log.reissueOwnOp header)).Valid ∧
      log.Evolves verified (log.orSame (log.reissueOwnOp header)) := by
  cases hres : log.reissueOwnOp header with
  | error e => exact ⟨h, .refl log⟩
  | ok log' =>
    obtain ⟨hvault, hown, -, ⟨original, horig, hre⟩, rfl⟩ := reissueOwnOp_eq_ok hres
    obtain ⟨dot, hdot, hheld⟩ := ownLink_eq_some.mp horig
    obtain ⟨hd, hs⟩ := Dot.new_eq_some.mp hdot
    obtain ⟨link, hlink, rfl⟩ := Option.map_eq_some_iff.mp hheld
    rw [VaultLog.link, hd, hs] at hlink
    have hok := h.link _ _ _ hlink
    -- only the epoch of the header changes, which the invariant never reads
    have hsame : header.vaultId = link.header.vaultId ∧ header.dot = link.header.dot ∧
        header.itemId = link.header.itemId ∧ header.vaultPrevSeq = link.header.vaultPrevSeq := by
      rw [hre.eq]
      exact ⟨rfl, rfl, rfl, rfl⟩
    obtain ⟨hv, hdot', hi, hp⟩ := hsame
    have hstate : link.state = .delivered := hok.own rfl
    have hholds : log.holds ⟨header, link.state⟩ := by
      have := hok.delivered hstate
      rw [holds] at this ⊢
      rw [hdot', hi]
      exact this
    set log' : VaultLog := { log.modifyLink log.own header.dot.seq fun link => { link with header } with
      uploads := { log.uploads with unanswered := log.uploads.unanswered.erase header.dot.seq } }
    have hlinkAt : ∀ d s, log'.linkAt d s = if log.own = d ∧ header.dot.seq = s then
        some ⟨header, link.state⟩ else log.linkAt d s := by
      intro d s
      change (log.modifyLink log.own header.dot.seq fun link => { link with header }).linkAt d s = _
      rw [linkAt_modifyLink, hlink, Option.map_some]
    have hnew : log'.LinkOk log.own header.dot.seq ⟨header, link.state⟩ :=
      ⟨hvault, hown, rfl, fun _ => hholds, fun _ => hholds, fun _ _ _ => .inl hstate,
        fun h => absurd (hstate.symm.trans h) (by simp), fun _ => hstate⟩
    change log'.Valid ∧ log.Evolves verified log'
    refine ⟨⟨⟨h.linked_of_headers (fun d => head_modifyLink) fun d s => ?_, fun d s l hl => ?_,
      fun d => ?_, fun d s l hl hlt => ?_, fun i d s => ?_⟩, fun d s l hl hready hcov => ?_⟩,
      rfl, rfl, fun i => le_rfl, fun d c hc => ⟨c, hc, le_rfl⟩, fun d s l hl => ?_,
      fun d s l hl hready => ?_, fun d s l hl hnone => ?_⟩
    · rw [hlinkAt]
      split_ifs with hds
      · rw [← hds.1, ← hds.2, hlink, Option.map_some, Option.map_some, hp]
      · rfl
    · rw [hlinkAt] at hl
      split_ifs at hl with hds
      · obtain ⟨rfl, rfl⟩ := hds
        cases hl
        exact hnew
      · exact (h.link d s l hl).mono rfl rfl rfl fun _ => le_rfl
    · change (log.modifyLink log.own header.dot.seq fun link => { link with header }).frontier d ≤
        (log.modifyLink log.own header.dot.seq fun link => { link with header }).head d + 1
      rw [frontier_modifyLink, head_modifyLink]
      exact h.frontier_le d
    · rw [hlinkAt] at hl
      split_ifs at hl with hds
      · cases hl
        exact hholds
      · change s < (log.modifyLink log.own header.dot.seq
          fun link => { link with header }).frontier d at hlt
        rw [frontier_modifyLink] at hlt
        exact h.frontier d s l hl hlt
    · change s ∈ log.readySeqs i d ↔ _
      rw [h.ready, hlinkAt]
      split_ifs with hds
      · obtain ⟨rfl, rfl⟩ := hds
        simp [hlink, hstate]
      · rfl
    · rw [hlinkAt] at hl
      split_ifs at hl with hds
      · cases hl
        exact absurd (hstate.symm.trans hready) (by simp)
      · exact h.marked d s l hl hready hcov
    · rw [hlinkAt]
      split_ifs with hds
      · obtain ⟨rfl, rfl⟩ := hds
        cases hlink.symm.trans hl
        exact ⟨_, rfl, .inr ⟨rfl, hre⟩, id⟩
      · exact ⟨l, hl, .refl _ _ l⟩
    · rw [hlinkAt] at hl
      split_ifs at hl with hds
      · cases hl
        exact absurd (hstate.symm.trans hready) (by simp)
      · exact .inl hl
    · rw [hlinkAt] at hl
      split_ifs at hl with hds
      · exact .inl hds.1.symm
      · exact absurd (hnone.symm.trans hl) (by simp)

/-! ### Revocations -/

/-- Rejects links of a device. -/
def revokeAll (log : VaultLog) (device : DeviceId) (entries : List (ℕ × Link)) : VaultLog :=
  entries.foldl (fun log entry => log.revokeLink device entry.1 entry.2) log

/-- What rejecting links changes. -/
structure RevokeFrame (log : VaultLog) (device : DeviceId) (entries : List (ℕ × Link))
    (log' : VaultLog) : Prop where
  vaultId : log'.vaultId = log.vaultId
  own : log'.own = log.own
  items : log'.items = log.items
  cutoffs : log'.cutoffs = log.cutoffs
  dirty : log'.dirty = log.dirty
  head : ∀ d, log'.head d = log.head d
  frontier : ∀ d, log'.frontier d = log.frontier d
  linkAt : ∀ d s, log'.linkAt d s = if device = d ∧ s ∈ entries.map Prod.fst then
    (log.linkAt d s).map fun link => { link with state := .revoked } else log.linkAt d s
  ready : ∀ i d s, s ∈ log'.readySeqs i d ↔ s ∈ log.readySeqs i d ∧
    ∀ entry ∈ entries, ¬ (entry.2.header.itemId = i ∧ entry.2.header.dot.deviceId = d ∧
      entry.2.header.dot.seq = s)

theorem revokeAll_frame (log : VaultLog) (device : DeviceId) (entries : List (ℕ × Link)) :
    log.RevokeFrame device entries (log.revokeAll device entries) := by
  induction entries generalizing log with
  | nil => exact ⟨rfl, rfl, rfl, rfl, rfl, fun _ => rfl, fun _ => rfl, by simp [revokeAll],
      by simp [revokeAll]⟩
  | cons entry entries ih =>
    have h := ih (log.revokeLink device entry.1 entry.2)
    refine ⟨h.vaultId, h.own, h.items, h.cutoffs, h.dirty, fun d => (h.head d).trans head_modifyLink,
      fun d => (h.frontier d).trans frontier_modifyLink, fun d s => ?_, fun i d s => ?_⟩
    · have hone : (log.revokeLink device entry.1 entry.2).linkAt d s =
          if device = d ∧ entry.1 = s then
            (log.linkAt d s).map fun link => { link with state := .revoked }
          else log.linkAt d s := by
        rw [revokeLink, linkAt_readyRemove, linkAt_modifyLink]
        split_ifs with hds
        · rw [hds.1, hds.2]
        · rfl
      refine (h.linkAt d s).trans ?_
      simp only [hone, List.map_cons, List.mem_cons]
      by_cases hd : device = d
      · by_cases hs : entry.1 = s
        · cases log.linkAt d s <;> simp [hd, hs]
        · have hs' : s ∈ entries.map Prod.fst ↔ s = entry.1 ∨ s ∈ entries.map Prod.fst :=
            (or_iff_right fun h => hs h.symm).symm
          simp only [hd, hs, ← hs', and_false, if_false]
      · simp [hd]
    · have hone : s ∈ (log.revokeLink device entry.1 entry.2).readySeqs i d ↔
          s ∈ log.readySeqs i d ∧ ¬ (entry.2.header.itemId = i ∧ entry.2.header.dot.deviceId = d ∧
            entry.2.header.dot.seq = s) := by
        rw [revokeLink, readySeqs_readyRemove, readySeqs_modifyLink]
        split_ifs with hid
        · rw [ExtTreeSet.mem_erase, ne_eq, compare_eq_iff_eq]
          simp [hid.1, hid.2, and_comm]
        · refine (and_iff_left ?_).symm
          exact fun h => hid ⟨h.1, h.2.1⟩
      refine (h.ready i d s).trans ?_
      rw [hone, List.forall_mem_cons, and_assoc]

/-- The cut-off a device has after it is revoked with another. -/
def lowerCutoff (log : VaultLog) (device : DeviceId) (lastAccepted : ℕ) : ℕ :=
  (log.cutoff device).elim lastAccepted fun c => min c lastAccepted

/-- The undelivered links of a device past a cut-off. -/
def pastCutoff (log : VaultLog) (device : DeviceId) (cut : ℕ) : List (ℕ × Link) :=
  (log.linksFrom device (cut + 1)).filter fun entry =>
    entry.2.state ≠ .delivered ∧ entry.2.state ≠ .revoked

theorem mem_pastCutoff {cut : ℕ} {entry : ℕ × Link} :
    entry ∈ log.pastCutoff device cut ↔ cut < entry.1 ∧
      log.linkAt device entry.1 = some entry.2 ∧
      entry.2.state ≠ .delivered ∧ entry.2.state ≠ .revoked := by
  rw [pastCutoff, List.mem_filter, mem_linksFrom, decide_eq_true_eq, Nat.succ_le_iff, and_assoc]

/-- What learning a revocation leaves. -/
structure RevocationSpec (log : VaultLog) (device : DeviceId) (cut : ℕ) (log' : VaultLog) :
    Prop where
  vaultId : log'.vaultId = log.vaultId
  own : log'.own = log.own
  items : log'.items = log.items
  dirty : log'.dirty = log.dirty
  head : ∀ d, log'.head d = log.head d
  frontier : ∀ d, log'.frontier d = log.frontier d
  cutoff : ∀ d, log'.cutoff d = if device = d then some cut else log.cutoff d
  linkAt : ∀ d s, log'.linkAt d s = (log.linkAt d s).map fun link =>
    if device = d ∧ cut < s ∧ link.state ≠ .delivered then { link with state := .revoked } else link
  ready : log.Coherent → ∀ i d s, s ∈ log'.readySeqs i d ↔
    s ∈ log.readySeqs i d ∧ ¬ (device = d ∧ cut < s)

theorem learnRevocation_spec (log : VaultLog) (device : DeviceId) (lastAccepted : ℕ) :
    log.RevocationSpec device (log.lowerCutoff device lastAccepted)
      (log.learnRevocation device lastAccepted).1 := by
  set cut := log.lowerCutoff device lastAccepted
  have hframe := revokeAll_frame { log with cutoffs := log.cutoffs.insert device cut } device
    (log.pastCutoff device cut)
  refine ⟨hframe.vaultId, hframe.own, hframe.items, hframe.dirty, hframe.head, hframe.frontier,
    fun d => ?_, fun d s => (hframe.linkAt d s).trans ?_, fun h i d s => (hframe.ready i d s).trans ?_⟩
  · have hcutoffs : (log.learnRevocation device lastAccepted).1.cutoffs =
        log.cutoffs.insert device cut := hframe.cutoffs
    simp only [VaultLog.cutoff, hcutoffs, ExtTreeMap.getElem?_insert_iff]
    split_ifs <;> rfl
  · change (if device = d ∧ s ∈ (log.pastCutoff device cut).map Prod.fst then
      (log.linkAt d s).map fun link => { link with state := .revoked } else log.linkAt d s) = _
    have hmem : s ∈ (log.pastCutoff device cut).map Prod.fst ↔ ∃ link, cut < s ∧
        log.linkAt device s = some link ∧ link.state ≠ .delivered ∧ link.state ≠ .revoked := by
      simp only [List.mem_map, mem_pastCutoff, Prod.exists, exists_and_right, exists_eq_right]
    by_cases hd : device = d
    · subst hd
      cases hl : log.linkAt device s with
      | none => simp
      | some link =>
        obtain ⟨header, state⟩ := link
        simp only [hl, Option.some.injEq, exists_eq_left', exists_and_left] at hmem
        by_cases hm : s ∈ (log.pastCutoff device cut).map Prod.fst
        · obtain ⟨hs, hdel, -⟩ := hmem.mp hm
          simp [hm, hs, hdel]
        · by_cases hs : cut < s
          · by_cases hdel : state = .delivered
            · simp only [hm, hdel, and_false, if_false, Option.map_some, ne_eq, not_true_eq_false]
            · have hrev : state = .revoked := not_not.mp fun h => hm (hmem.mpr ⟨hs, hdel, h⟩)
              simp [hrev]
          · simp [hm, hs]
    · simp [hd]
  · change s ∈ log.readySeqs i d ∧ _ ↔ _
    refine and_congr_right fun hready => ?_
    obtain ⟨link, hlink, hstate, hitem⟩ := (h.ready i d s).mp hready
    constructor
    · rintro hnone ⟨rfl, hs⟩
      have hok := h.link _ _ _ hlink
      refine hnone (s, link) (mem_pastCutoff.mpr ⟨hs, hlink, ?_, ?_⟩) ⟨hitem, hok.deviceId, hok.seq_eq⟩
      all_goals simp [hstate]
    · rintro hnot entry hentry ⟨-, hd, hs⟩
      obtain ⟨hcut, hl, -, -⟩ := mem_pastCutoff.mp hentry
      have hok := h.link _ _ _ hl
      exact hnot ⟨hok.deviceId.symm.trans hd, hs ▸ hok.seq_eq ▸ hcut⟩

theorem lowerCutoff_le {lastAccepted c : ℕ} (h : log.cutoff device = some c) :
    log.lowerCutoff device lastAccepted ≤ c := by
  rw [lowerCutoff, h]
  exact min_le_left _ _

theorem Valid.learnRevocation (h : log.Valid) (device : DeviceId) (lastAccepted : ℕ) :
    (log.learnRevocation device lastAccepted).1.Valid ∧
      log.Evolves verified (log.learnRevocation device lastAccepted).1 := by
  have hspec := learnRevocation_spec log device lastAccepted
  set cut := log.lowerCutoff device lastAccepted with hcut
  set log' := (log.learnRevocation device lastAccepted).1
  have hholds : ∀ l, log'.holds l ↔ log.holds l := fun l => by
    rw [holds, VaultLog.settled, hspec.items]
    rfl
  have hlower : ∀ d c, log.cutoff d = some c → ∃ c', log'.cutoff d = some c' ∧ c' ≤ c := by
    intro d c hc
    rw [hspec.cutoff]
    split_ifs with hd
    · exact ⟨cut, rfl, lowerCutoff_le (hd ▸ hc)⟩
    · exact ⟨c, hc, le_rfl⟩
  have hback : ∀ {d s l'}, log'.linkAt d s = some l' → ∃ l, log.linkAt d s = some l ∧
      l' = if device = d ∧ cut < s ∧ l.state ≠ .delivered then { l with state := .revoked }
        else l := by
    intro d s l' hl'
    rw [hspec.linkAt] at hl'
    obtain ⟨l, hl, heq⟩ := Option.map_eq_some_iff.mp hl'
    exact ⟨l, hl, heq.symm⟩
  refine ⟨⟨⟨h.linked_of_headers hspec.head fun d s => ?_, fun d s l' hl' => ?_, fun d => ?_,
    fun d s l' hl' hlt => ?_, fun i d s => ?_⟩, fun d s l' hl' hready hcov => ?_⟩,
    hspec.vaultId, hspec.own, fun i => ?_, hlower, fun d s l hl => ?_, fun d s l' hl' hready => ?_,
    fun d s l' hl' hnone => ?_⟩
  · rw [hspec.linkAt]
    cases log.linkAt d s with
    | none => rfl
    | some l =>
      simp only [Option.map_some]
      split_ifs <;> rfl
  · obtain ⟨l, hl, rfl⟩ := hback hl'
    have hok := h.link d s l hl
    split_ifs with hrev
    · obtain ⟨rfl, hs, hdel⟩ := hrev
      refine ⟨hok.vaultId.trans hspec.vaultId.symm, hok.deviceId, hok.seq_eq, ?_, ?_,
        fun _ _ _ => .inr rfl, fun _ => ⟨cut, ?_, hs⟩, fun hown => ?_⟩
      · exact fun h => absurd h (by simp)
      · exact fun h => absurd h (by simp)
      · rw [hspec.cutoff, if_pos rfl]
      · exact absurd (hok.own (hown.trans hspec.own)) hdel
    · refine ⟨hok.vaultId.trans hspec.vaultId.symm, hok.deviceId, hok.seq_eq,
        fun hs => (hholds l).mpr (hok.delivered hs), fun hs => (hholds l).mpr (hok.bodiless hs),
        fun c hc hs => ?_, fun hs => ?_, fun hown => hok.own (hown.trans hspec.own)⟩
      · rw [hspec.cutoff] at hc
        split_ifs at hc with hd
        · cases hc
          by_contra hlive
          exact hrev ⟨hd, hs, fun h => hlive (.inl h)⟩
        · exact hok.cutoff c hc hs
      · obtain ⟨c, hc, hlt⟩ := hok.revoked hs
        obtain ⟨c', hc', hle⟩ := hlower d c hc
        exact ⟨c', hc', hle.trans_lt hlt⟩
  · rw [hspec.frontier, hspec.head]
    exact h.frontier_le d
  · obtain ⟨l, hl, rfl⟩ := hback hl'
    rw [hspec.frontier] at hlt
    have := h.frontier d s l hl hlt
    rw [hholds]
    split_ifs <;> exact this
  · rw [hspec.ready h.toCoherent, h.ready, hspec.linkAt]
    cases hl : log.linkAt d s with
    | none => simp
    | some l =>
      by_cases hrev : device = d ∧ cut < s
      · by_cases hdel : l.state = .delivered <;> simp [hrev, hdel]
      · have hrev' : ¬ (device = d ∧ cut < s ∧ l.state ≠ .delivered) :=
          fun h => hrev ⟨h.1, h.2.1⟩
        simp [hrev, hrev']
  · obtain ⟨l, hl, rfl⟩ := hback hl'
    by_cases hrev : device = d ∧ cut < s ∧ l.state ≠ .delivered
    · rw [if_pos hrev] at hready
      cases hready
    · rw [if_neg hrev] at hready hcov ⊢
      change l.header.itemId ∈ log'.dirty
      rw [hspec.dirty]
      exact h.marked d s l hl hready ((hholds l).mp hcov)
  · rw [VaultLog.settled, VaultLog.settled, hspec.items]
  · refine ⟨_, by rw [hspec.linkAt, hl, Option.map_some], ?_⟩
    split_ifs with hrev
    · exact ⟨.inl rfl, fun hs => absurd hs hrev.2.2⟩
    · exact .refl _ _ l
  · obtain ⟨l, hl, rfl⟩ := hback hl'
    by_cases hrev : device = d ∧ cut < s ∧ l.state ≠ .delivered
    · rw [if_pos hrev] at hready
      cases hready
    · rw [if_neg hrev]
      exact .inl hl
  · obtain ⟨l, hl, -⟩ := hback hl'
    exact absurd (hnone.symm.trans hl) (by simp)

end VaultLog

end RizzyVault.Sync.Causal
