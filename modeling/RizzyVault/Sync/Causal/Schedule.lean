import RizzyVault.Sync.Causal.Cursor
import RizzyVault.Sync.Causal.Rescan

/-!
# Schedule independence

However an honest server's operations reach a log (in partial pages, with duplicates, out of order,
with bodies withheld or rejected, with deliveries in between), once the server has answered the
log's cursor and the bodies are verified, the log holds the server's chains, and what it has
delivered is what follows causally in them. Neither depends on the schedule.

## Main definitions

* `Store.causal`: what may be applied once other operations are.
* `VaultLog.Call.Honest`: the calls of an exchange with an honest server.
* `VaultLog.Honest`: the invariant of such exchanges.

## Main results

* `VaultLog.Honest.run`: every such exchange keeps the invariant.
* `VaultLog.after_schedule`: the chains, the deliveries and the settled vectors at its end.
-/

open RizzyVault.Lib

namespace RizzyVault.Sync.Causal

open Std (ExtTreeMap ExtTreeSet)

/-! ### Chains of which one holds the other -/

section Chained

variable {prev : ℕ} {hs hs' : List OpHeader}

theorem Chained.le_prev (h : Chained prev hs) : ∀ header ∈ hs, prev ≤ header.vaultPrevSeq := by
  induction hs generalizing prev with
  | nil => exact fun header hh => absurd hh List.not_mem_nil
  | cons a hs ih =>
    intro header hh
    rcases List.mem_cons.mp hh with rfl | hh
    · exact h.1.ge
    · exact h.2.1.le.trans (ih h.2.2 header hh)

/-- A chain whose headers are all in another is how the other begins. -/
theorem Chained.prefix_of_subset (h : Chained prev hs) (h' : Chained prev hs') (hsub : hs ⊆ hs') :
    hs <+: hs' := by
  induction hs generalizing prev hs' with
  | nil => exact List.nil_prefix
  | cons a hs ih =>
    cases hs' with
    | nil => exact absurd (hsub List.mem_cons_self) List.not_mem_nil
    | cons b hs' =>
      have hab : a = b := by
        refine (List.mem_cons.mp (hsub List.mem_cons_self)).resolve_right fun ha => ?_
        have hle := h'.2.2.le_prev a ha
        have hlt := h'.2.1
        have heq := h.1
        omega
      subst hab
      refine (List.prefix_cons_inj a).mpr (ih h.2.2 h'.2.2 fun header hheader => ?_)
      refine (List.mem_cons.mp (hsub (List.mem_cons_of_mem _ hheader))).resolve_left fun heq => ?_
      have hlt := h.2.2.lt_seq header hheader
      rw [heq] at hlt
      exact lt_irrefl _ hlt

theorem chainEnd_append : chainEnd prev (hs ++ hs') = chainEnd (chainEnd prev hs) hs' := by
  induction hs generalizing prev with
  | nil => rfl
  | cons a hs ih => rw [List.cons_append, chainEnd_cons, ih, chainEnd_cons]

theorem Chained.le_chainEnd (h : Chained prev hs) : prev ≤ chainEnd prev hs := by
  induction hs generalizing prev with
  | nil => exact le_rfl
  | cons a hs ih =>
    rw [chainEnd_cons]
    exact h.2.1.le.trans (ih h.2.2)

/-- A chain that begins another and ends where it does is the other. -/
theorem Chained.eq_of_chainEnd_eq (h' : Chained prev hs') (hbegins : hs <+: hs')
    (hend : chainEnd prev hs = chainEnd prev hs') : hs = hs' := by
  obtain ⟨rest, rfl⟩ := hbegins
  rw [chained_append] at h'
  cases rest with
  | nil => exact (List.append_nil hs).symm
  | cons a rest =>
    rw [chainEnd_append, chainEnd_cons] at hend
    have hle := h'.2.2.2.le_chainEnd
    have hlt := h'.2.2.1
    omega

end Chained

/-! ### What follows causally -/

namespace Store

variable {store : Store} {known known' : Set Dot} {itemId : ItemId} {dot : Dot}

/-- Whether one of the known operations on an item reaches a dot of its device. -/
def Reached (store : Store) (known : Set Dot) (itemId : ItemId) (dot : Dot) : Prop :=
  ∃ h ∈ store.headers dot.deviceId, h.dot ∈ known ∧ h.itemId = itemId ∧ dot.seq ≤ h.dot.seq

theorem Reached.mono (h : store.Reached known itemId dot) (hsub : known ⊆ known') :
    store.Reached known' itemId dot :=
  h.imp fun _ ⟨hh, hdot, hrest⟩ => ⟨hh, hsub hdot, hrest⟩

/-- The operations that may be applied once others are: all before it in its chain are, and its
causal context is reached on its item. -/
def causal (store : Store) : Set Dot →o Set Dot where
  toFun known := {dot | ∃ h ∈ store.headers dot.deviceId, h.dot = dot ∧
    (∀ h' ∈ store.headers dot.deviceId, h'.dot.seq < dot.seq → h'.dot ∈ known) ∧
    ∀ c ∈ h.causalContext.dots, store.Reached known h.itemId c}
  monotone' _ _ hsub _ := fun ⟨h, hh, hdot, hbefore, hcontext⟩ =>
    ⟨h, hh, hdot, fun h' hh' hlt => hsub (hbefore h' hh' hlt),
      fun c hc => (hcontext c hc).mono hsub⟩

theorem mem_causal : dot ∈ store.causal known ↔ ∃ h ∈ store.headers dot.deviceId, h.dot = dot ∧
    (∀ h' ∈ store.headers dot.deviceId, h'.dot.seq < dot.seq → h'.dot ∈ known) ∧
    ∀ c ∈ h.causalContext.dots, store.Reached known h.itemId c := Iff.rfl

end Store

namespace VaultLog

/-- The calls of an exchange with an honest server, which serves headers it holds, each with any
verdict on its body. -/
def Call.Honest (store : Store) : Call → Prop
  | .commit ops => ∀ op ∈ ops, op.header ∈ store.headers op.header.dot.deviceId
  | .bodyVerified _ | .bodyRejected _ | .takeDeliveries => True
  | _ => False

/-- The dots of the delivered links. -/
def deliveredDots (log : VaultLog) : Set Dot := {dot | ∃ l, log.link dot = some l ∧ l.state = .delivered}

/-- The invariant of an exchange with an honest server: the links are the server's, nothing is
settled but by a delivery, and what is delivered follows causally. -/
structure Honest (log : VaultLog) (store : Store) : Prop where
  vaultId : log.vaultId = store.vaultId
  own : store.headers log.own = []
  cutoff : ∀ d, log.cutoff d = none
  header : ∀ d s l, log.linkAt d s = some l → l.header ∈ store.headers d
  delivered : ∀ d s l, log.linkAt d s = some l → log.holds l → l.state = .delivered
  settled : ∀ i dot, (log.settled i).covers dot → ∃ s l, log.linkAt dot.deviceId s = some l ∧
    l.state = .delivered ∧ l.header.itemId = i ∧ dot.seq ≤ s
  causal : log.deliveredDots ⊆ store.causal.lfp

variable {log log' : VaultLog} {store : Store} {d device : DeviceId} {s seq : ℕ} {link : Link} {dot : Dot}
  {ops : List ServedOp} {out : List Delivery}

theorem Honest.new {own : DeviceId} (hown : store.headers own = []) :
    (new store.vaultId own).Honest store where
  vaultId := rfl
  own := hown
  cutoff d := by simp [VaultLog.cutoff, VaultLog.new]
  header d s l hl := absurd hl (by simp [linkAt_new])
  delivered d s l hl := absurd hl (by simp [linkAt_new])
  settled i dot hcov := absurd hcov (by simp [VaultLog.settled, VaultLog.new])
  causal := by
    rintro dot ⟨l, hl, -⟩
    rw [link, linkAt_new] at hl
    cases hl

namespace Honest

theorem mem_store (h : log.Honest store) (hc : log.Coherent) (hl : log.linkAt device seq = some link) :
    link.header ∈ store.headers link.header.dot.deviceId := by
  rw [(hc.link _ _ _ hl).deviceId]
  exact h.header _ _ _ hl

/-- The chains of the log begin those of the server. -/
theorem chain_isPrefix (h : log.Honest store) (hc : log.Coherent) (device : DeviceId) :
    log.chain device <+: store.headers device := by
  refine (hc.chained device).1.prefix_of_subset (store.chained device) fun header hheader => ?_
  obtain ⟨l, hl, rfl⟩ := hc.mem_chain.mp hheader
  exact h.header _ _ _ hl

/-- What the server holds before a link is held. -/
theorem link_of_lt (h : log.Honest store) (hc : log.Coherent)
    (hl : log.linkAt device seq = some link) {header : OpHeader}
    (hheader : header ∈ store.headers device) (hlt : header.dot.seq ≤ seq) :
    ∃ l, log.linkAt device header.dot.seq = some l ∧ l.header = header := by
  obtain ⟨rest, hrest⟩ := h.chain_isPrefix hc device
  have hchained := store.chained device
  rw [← hrest, chained_append, ← (hc.chained device).2] at hchained
  rw [← hrest] at hheader
  refine hc.mem_chain.mp ((List.mem_append.mp hheader).resolve_right fun hmem => ?_)
  have hpast := hchained.2.lt_seq header hmem
  have hle := hc.seq_le_head hl
  omega

/-- A held link of a header's dot has the header. -/
theorem header_eq (h : log.Honest store) (hc : log.Coherent) (hl : log.linkAt device seq = some link)
    {header : OpHeader} (hheader : header ∈ store.headers device) (hseq : header.dot.seq = seq) :
    link.header = header := by
  obtain ⟨l, hl', rfl⟩ := h.link_of_lt hc hl hheader hseq.le
  rw [hseq] at hl'
  cases hl.symm.trans hl'
  rfl

theorem continues (h : log.Honest store) (hc : log.Coherent) : store.Continues log where
  vaultId := h.vaultId.symm
  chain d _ := h.chain_isPrefix hc d
  own := h.own ▸ List.nil_prefix

/-- A call that settles and delivers nothing, and adds links of the server past the heads. -/
theorem of_quiet (h : log.Honest store) (hc : log.Coherent) (hvault : log'.vaultId = log.vaultId)
    (hown : log'.own = log.own) (hcutoff : ∀ d, log'.cutoff d = log.cutoff d)
    (hsettled : ∀ i, log'.settled i = log.settled i)
    (hkept : ∀ d s l, log.linkAt d s = some l → l.state = .delivered → log'.linkAt d s = some l)
    (hlink : ∀ d s l', log'.linkAt d s = some l' →
      (∃ l, log.linkAt d s = some l ∧ l'.header = l.header ∧
        (l.state ≠ .delivered → l'.state ≠ .delivered)) ∨
      log.head d < s ∧ l'.state ≠ .delivered ∧ l'.header ∈ store.headers d ∧
        l'.header.dot.deviceId = d ∧ l'.header.dot.seq = s) :
    log'.Honest store ∧ log'.deliveredDots = log.deliveredDots := by
  have hdots : log'.deliveredDots = log.deliveredDots := by
    ext dot
    refine ⟨fun ⟨l', hl', hstate⟩ => ?_, fun ⟨l, hl, hstate⟩ => ⟨l, hkept _ _ l hl hstate, hstate⟩⟩
    obtain ⟨l, hl, -, hnot⟩ | ⟨-, hnot, -⟩ := hlink _ _ l' hl'
    · exact ⟨l, hl, not_not.mp fun hdel => hnot hdel hstate⟩
    · exact absurd hstate hnot
  refine ⟨⟨hvault.trans h.vaultId, hown.symm ▸ h.own, fun d => (hcutoff d).trans (h.cutoff d),
    fun d s l' hl' => ?_, fun d s l' hl' hholds => ?_, fun i dot hcov => ?_, hdots ▸ h.causal⟩, hdots⟩
  · obtain ⟨l, hl, heq, -⟩ | ⟨-, -, hheader, -⟩ := hlink d s l' hl'
    · exact heq ▸ h.header d s l hl
    · exact hheader
  · have hholds' : (log.settled l'.header.itemId).covers l'.header.dot := hsettled _ ▸ hholds
    obtain ⟨l, hl, heq, -⟩ | ⟨hlt, -, -, hd, hs⟩ := hlink d s l' hl'
    · have hstate := h.delivered d s l hl (by rwa [holds, ← heq])
      cases hl'.symm.trans (hkept d s l hl hstate)
      exact hstate
    · -- the settled vectors reach no further than the links
      obtain ⟨t, l, hl, -, -, hle⟩ := h.settled _ _ hholds'
      have := hc.seq_le_head hl
      rw [hd] at this
      omega
  · obtain ⟨s, l, hl, hstate, hi, hle⟩ := h.settled i dot (hsettled i ▸ hcov)
    exact ⟨s, l, hkept _ _ _ hl hstate, hstate, hi, hle⟩

/-- A commit of the server's headers. -/
theorem commit (h : log.Honest store) (hv : log.Valid)
    (hops : ∀ op ∈ ops, op.header ∈ store.headers op.header.dot.deviceId) :
    (log.commit ops).1.Honest store ∧ (log.commit ops).1.deliveredDots = log.deliveredDots := by
  obtain ⟨hvalid, hev, hitems, -⟩ := hv.commit ops
  have hlink : ∀ d s l', (log.commit ops).1.linkAt d s = some l' →
      (∃ l, log.linkAt d s = some l ∧ l'.header = l.header ∧
        (l' = l ∨ l.state = .rejected ∧ l'.state ≠ .delivered)) ∨
      log.head d < s ∧ l'.state ≠ .delivered ∧ l'.header ∈ store.headers d ∧
        l'.header.dot.deviceId = d ∧ l'.header.dot.seq = s := by
    intro d s l' hl'
    obtain ⟨l, hl, rfl | ⟨hstate, op, -, -, rfl⟩⟩ | ⟨hlt, -, op, hop, hd, hs, rfl, -⟩ :=
      hv.of_linkAt_commit hl'
    · exact .inl ⟨l', hl, rfl, .inl rfl⟩
    · refine .inl ⟨l, hl, rfl, .inr ⟨hstate, ?_⟩⟩
      cases op.body <;> simp [LinkState.servedAgain]
    · refine .inr ⟨hlt, ?_, hd ▸ hops op hop, hd, hs⟩
      cases op.body <;> simp [LinkState.fromBody]
  refine h.of_quiet hv.toCoherent hev.vaultId hev.own (hv.cutoff_commit ops)
    (fun i => by rw [VaultLog.settled, hitems, VaultLog.settled])
    (fun d s l hl hstate => ?_) fun d s l' hl' => ?_
  · obtain ⟨l', hl', -⟩ := hev.link d s l hl
    obtain ⟨l₀, hl₀, -, heq | ⟨hrejected, -⟩⟩ | ⟨hlt, -⟩ := hlink d s l' hl'
    · cases hl₀.symm.trans hl
      rw [hl', heq]
    · cases hl₀.symm.trans hl
      exact absurd (hrejected.symm.trans hstate) (by simp)
    · have := hv.seq_le_head hl
      omega
  · refine (hlink d s l' hl').imp_left ?_
    rintro ⟨l, hl, heq, hwhy⟩
    refine ⟨l, hl, heq, fun hnot => ?_⟩
    rcases hwhy with rfl | ⟨-, hstate⟩
    · exact hnot
    · exact hstate

/-- A verdict on a waiting body. -/
theorem resolveWaiting (h : log.Honest store) (hc : log.Coherent) {state : LinkState}
    {r : VaultLog × ItemId} (hr : log.resolveWaiting dot state = .ok r)
    (hstate : state ≠ .delivered) (hvault : log'.vaultId = r.1.vaultId)
    (hown : log'.own = r.1.own) (hcutoffs : log'.cutoffs = r.1.cutoffs)
    (hitems : log'.items = r.1.items) (hchains : log'.chains = r.1.chains) :
    log'.Honest store ∧ log'.deliveredDots = log.deliveredDots := by
  obtain ⟨link, hlink, hwaiting, -, hlog⟩ := resolveWaiting_eq_ok hr
  rw [hlog] at hvault hown hcutoffs hitems hchains
  have hlinkAt : ∀ d s, log'.linkAt d s = if dot.deviceId = d ∧ dot.seq = s then
      some { link with state } else log.linkAt d s := by
    intro d s
    have heq : log'.linkAt d s = (log.modifyLink dot.deviceId dot.seq
        fun link => { link with state }).linkAt d s := by rw [linkAt, hchains, linkAt]
    rw [heq, linkAt_modifyLink, show log.linkAt _ _ = some link from hlink, Option.map_some]
  refine h.of_quiet hc hvault hown (fun d => by rw [VaultLog.cutoff, hcutoffs]; rfl)
    (fun i => by rw [VaultLog.settled, hitems]; rfl) (fun d s l hl hdel => ?_) fun d s l' hl' => .inl ?_
  · rw [hlinkAt, if_neg, hl]
    rintro ⟨rfl, rfl⟩
    cases hl.symm.trans hlink
    exact absurd (hwaiting.symm.trans hdel) (by simp)
  · rw [hlinkAt] at hl'
    split_ifs at hl' with hds
    · obtain ⟨rfl, rfl⟩ := hds
      cases hl'
      exact ⟨link, hlink, rfl, fun _ => hstate⟩
    · exact ⟨l', hl', rfl, id⟩

/-! ### Deliveries -/

/-- Deliveries that are allowed one after the other deliver what they settle, and follow
causally. -/
theorem of_justified (h : log.Honest store) (hc : log.Coherent) {known : Set Delivery}
    (hjust : Justified log.Allows known out)
    (hknown : ∀ x ∈ known, ∃ l, log.link x.dot = some l ∧ l.header.dot = x.dot ∧
      l.header.itemId = x.itemId)
    (hdelivered : ∀ d s l, log.linkAt d s = some l →
      log.coversWith known l.header.itemId l.header.dot →
      l.state = .delivered ∨ l.header.dot ∈ Delivery.dot '' known)
    (hcausal : Delivery.dot '' known ⊆ store.causal.lfp) :
    (∀ d s l, log.linkAt d s = some l →
      log.coversWith (known ∪ {x | x ∈ out}) l.header.itemId l.header.dot →
      l.state = .delivered ∨ l.header.dot ∈ Delivery.dot '' (known ∪ {x | x ∈ out})) ∧
    Delivery.dot '' (known ∪ {x | x ∈ out}) ⊆ store.causal.lfp := by
  induction out generalizing known with
  | nil =>
    have hempty : known ∪ {x | x ∈ ([] : List Delivery)} = known := by simp
    rw [hempty]
    exact ⟨hdelivered, hcausal⟩
  | cons x out ih =>
    obtain ⟨⟨link, hlink, hdot, hready, hitem, -, hwhy⟩, hrest⟩ := hjust
    have hset : insert x known ∪ {y | y ∈ out} = known ∪ {y | y ∈ x :: out} := by
      ext y
      simp only [Set.mem_union, Set.mem_insert_iff, Set.mem_ofPred_eq, List.mem_cons]
      tauto
    -- what is settled already is delivered, and what the known operations deliver is causal
    have hheld : ∀ d s l, log.linkAt d s = some l →
        log.coversWith known l.header.itemId l.header.dot → l.header.dot ∈ store.causal.lfp := by
      intro d s l hl hcov
      rcases hdelivered d s l hl hcov with hstate | hmem
      · exact h.causal ⟨l, hc.link_dot hl, hstate⟩
      · exact hcausal hmem
    have hcovered : x.covered → log.coversWith known link.header.itemId link.header.dot := fun hx => by
      rw [if_pos hx] at hwhy
      rwa [hitem, hdot]
    have hx : x.dot ∈ store.causal.lfp := by
      by_cases hx : x.covered
      · exact hdot ▸ hheld _ _ _ hlink (hcovered hx)
      · rw [if_neg hx, Unblocked, hdot] at hwhy
        rw [← store.causal.map_lfp]
        refine Store.mem_causal.mpr ⟨link.header, h.header _ _ _ hlink, hdot,
          fun h' hh' hlt => ?_, fun c hcontext => ?_⟩
        · obtain ⟨l, hl, rfl⟩ := h.link_of_lt hc hlink hh' hlt.le
          exact hheld _ _ l hl (hwhy.1 _ l hl hlt)
        · rcases hwhy.2 c hcontext with hcov | ⟨y, hy, hi, hd, hle⟩
          · obtain ⟨s, l, hl, hstate, hi, hle⟩ := h.settled _ _ hcov
            have hok := hc.link _ _ _ hl
            exact ⟨l.header, h.header _ _ _ hl, h.causal ⟨l, hc.link_dot hl, hstate⟩, hi,
              hok.seq_eq.symm ▸ hle⟩
          · obtain ⟨l, hl, hldot, hli⟩ := hknown y hy
            refine ⟨l.header, hd ▸ h.header _ _ _ hl, ?_, hli.trans hi, hldot.symm ▸ hle⟩
            exact hcausal (hldot ▸ Set.mem_image_of_mem _ hy)
    rw [← hset]
    refine ih hrest (fun y hy => ?_) (fun d s l hl hcov => ?_) ?_
    · rcases hy with rfl | hy
      · exact ⟨link, hlink, hdot, hitem⟩
      · exact hknown y hy
    · rw [Set.image_insert_eq]
      have hgo : log.coversWith known l.header.itemId l.header.dot →
          l.state = .delivered ∨ l.header.dot ∈ insert x.dot (Delivery.dot '' known) := fun hcov =>
        (hdelivered d s l hl hcov).imp id fun hmem => Set.mem_insert_of_mem _ hmem
      rcases hcov with hcov | ⟨y, rfl | hy, hi, hd, hle⟩
      · exact hgo (.inl hcov)
      · -- the link is the one delivered, or one before it, which was settled
        have hok := hc.link _ _ _ hl
        rcases hle.lt_or_eq with hlt | heq
        · by_cases hx : y.covered
          · refine hgo (coversWith_of_le (hitem.trans hi ▸ hcovered hx) (hdot.symm ▸ hd) ?_)
            exact hdot.symm ▸ hle
          · rw [if_neg hx, Unblocked, hdot] at hwhy
            refine hgo (hwhy.1 _ l ?_ hlt)
            rw [hd, hok.deviceId, hok.seq_eq, hl]
        · refine .inr (Set.mem_insert_iff.mpr (.inl ?_))
          exact Dot.ext hd.symm heq
      · exact hgo (.inr ⟨y, hy, hi, hd, hle⟩)
    · rw [Set.image_insert_eq]
      exact Set.insert_subset hx hcausal

theorem batch (h : log.Honest store) (hc : log.Coherent) (hbatch : Batch log log' out) :
    log'.Honest store ∧
      log'.deliveredDots = log.deliveredDots ∪ {dot | dot ∈ out.map Delivery.dot} := by
  have hkept : ∀ l : Link, l.state = .delivered →
      (l.deliver (out.map Delivery.dot)).state = .delivered := by
    intro l hstate
    unfold Link.deliver
    split_ifs <;> first | rfl | exact hstate
  have hdots : log'.deliveredDots = log.deliveredDots ∪ {dot | dot ∈ out.map Delivery.dot} := by
    ext dot
    constructor
    · rintro ⟨l', hl', hstate⟩
      obtain ⟨l, hl, rfl⟩ := hbatch.of_linkAt hl'
      by_cases hmem : l.header.dot ∈ out.map Delivery.dot
      · exact .inr (hc.dot_eq hl rfl rfl ▸ hmem)
      · rw [Link.deliver_of_notMem hmem] at hstate
        exact .inl ⟨l, hl, hstate⟩
    · rintro (⟨l, hl, hstate⟩ | hmem)
      · exact ⟨l.deliver _, by rw [hbatch.link_eq, hl, Option.map_some], hkept l hstate⟩
      · obtain ⟨x, hx, rfl⟩ := List.mem_map.mp hmem
        obtain ⟨l, hl, hstate, -⟩ := hbatch.delivered hx
        exact ⟨l, hl, hstate⟩
  obtain ⟨hheld, hcausal⟩ := h.of_justified hc hbatch.justified (fun x hx => hx.elim)
    (fun d s l hl hcov => .inl (h.delivered d s l hl (coversWith_empty.mp hcov)))
    (by simp)
  have hout : ∅ ∪ {x | x ∈ out} = {x | x ∈ out} := Set.empty_union _
  have himage : Delivery.dot '' {x | x ∈ out} = {dot | dot ∈ out.map Delivery.dot} := by
    ext dot
    simp
  rw [hout] at hheld hcausal
  rw [himage] at hheld hcausal
  refine ⟨⟨hbatch.vaultId.trans h.vaultId, hbatch.own.symm ▸ h.own,
    fun d => (hbatch.cutoff d).trans (h.cutoff d), fun d s l' hl' => ?_, fun d s l' hl' hholds => ?_,
    fun i dot hcov => ?_, hdots ▸ Set.union_subset h.causal hcausal⟩, hdots⟩
  · obtain ⟨l, hl, rfl⟩ := hbatch.of_linkAt hl'
    rw [Link.header_deliver]
    exact h.header d s l hl
  · obtain ⟨l, hl, rfl⟩ := hbatch.of_linkAt hl'
    rw [holds, Link.header_deliver] at hholds
    rcases hheld d s l hl ((hbatch.settled _ _).mp hholds) with hstate | hmem
    · exact hkept l hstate
    · rw [Link.deliver_of_mem hmem]
  · rcases (hbatch.settled i dot).mp hcov with hcov | ⟨x, hx, hi, hd, hle⟩
    · obtain ⟨s, l, hl, hstate, hi, hle⟩ := h.settled i dot hcov
      refine ⟨s, l.deliver _, by rw [hbatch.linkAt, hl, Option.map_some], hkept l hstate, ?_,
        hle⟩
      rw [Link.header_deliver, hi]
    · obtain ⟨l, hl, hstate, -, hitem, -⟩ := hbatch.delivered hx
      exact ⟨x.dot.seq, l, hd ▸ hl, hstate, hitem.trans hi, hle⟩

/-! ### Runs -/

/-- A call of an honest exchange keeps the invariant, and what it hands out is what it delivers. -/
theorem call (h : log.Honest store) (hv : log.Valid) {c : Call} (hc : c.Honest store) :
    (log.call c).1.Honest store ∧ (log.call c).1.deliveredDots =
      log.deliveredDots ∪ {dot | dot ∈ (log.call c).2.map Delivery.dot} := by
  have hnil : log.deliveredDots ∪ {dot | dot ∈ ([] : List Delivery).map Delivery.dot} =
      log.deliveredDots := by simp
  cases c with
  | commit ops =>
    rw [show (log.call (.commit ops)).2 = [] from rfl, hnil]
    exact h.commit hv hc
  | bodyVerified dot =>
    rw [show (log.call (.bodyVerified dot)).2 = [] from rfl, hnil]
    simp only [VaultLog.call, VaultLog.bodyVerified]
    cases hr : log.resolveWaiting dot .ready with
    | error e => exact ⟨h, rfl⟩
    | ok r => exact h.resolveWaiting hv.toCoherent hr (by simp) rfl rfl rfl rfl rfl
  | bodyRejected dot =>
    rw [show (log.call (.bodyRejected dot)).2 = [] from rfl, hnil]
    simp only [VaultLog.call, VaultLog.bodyRejected]
    cases hr : log.resolveWaiting dot .rejected with
    | error e => exact ⟨h, rfl⟩
    | ok r => exact h.resolveWaiting hv.toCoherent hr (by simp) rfl rfl rfl rfl rfl
  | takeDeliveries => exact h.batch hv.toCoherent hv.takeDeliveries.1
  | _ => exact absurd hc id

theorem run (h : log.Honest store) (hv : log.Valid) {calls : List Call}
    (hcalls : ∀ c ∈ calls, c.Honest store) :
    (log.run calls).1.Honest store ∧ (log.run calls).1.deliveredDots =
      log.deliveredDots ∪ {dot | dot ∈ (log.run calls).2.map Delivery.dot} := by
  induction calls generalizing log with
  | nil => exact ⟨h, by simp [VaultLog.run]⟩
  | cons c calls ih =>
    obtain ⟨h', hdots⟩ := h.call hv (hcalls c List.mem_cons_self)
    obtain ⟨h'', hdots'⟩ := ih h' (hv.call c).1 fun c' hc' => hcalls c' (List.mem_cons_of_mem _ hc')
    rw [run_cons]
    refine ⟨h'', hdots'.trans ?_⟩
    rw [hdots, List.map_append, Set.union_assoc]
    congr 1
    ext dot
    simp only [Set.mem_union, Set.mem_ofPred_eq, List.mem_append]

/-! ### The end of an exchange -/

/-- Where the log holds the server's chains and every body is verified, what is delivered is what
follows causally. -/
theorem deliveredDots_takeDeliveries (h : log.Honest store) (hv : log.Valid)
    (hchain : ∀ d, log.chain d = store.headers d)
    (hopen : ∀ d s l, log.linkAt d s = some l → l.state ≠ .waiting ∧ l.state ≠ .rejected) :
    log.takeDeliveries.1.deliveredDots = store.causal.lfp := by
  obtain ⟨hbatch, hvalid, hex⟩ := hv.takeDeliveries
  obtain ⟨h', -⟩ := h.batch hv.toCoherent hbatch
  refine Set.Subset.antisymm h'.causal (store.causal.lfp_le fun dot hdot => ?_)
  obtain ⟨header, hheader, rfl, hbefore, hcontext⟩ := hdot
  rw [← hchain] at hheader
  obtain ⟨l, hl, rfl⟩ := hv.mem_chain.mp hheader
  set l' := l.deliver (log.takeDeliveries.2.map Delivery.dot) with hdeliver
  have hl' : log.takeDeliveries.1.linkAt l.header.dot.deviceId l.header.dot.seq = some l' := by
    rw [hbatch.linkAt, hl, Option.map_some]
  have hheader' : l'.header = l.header := Link.header_deliver
  refine ⟨l', hl', ?_⟩
  have hok := hvalid.link _ _ _ hl'
  cases hstate : l'.state with
  | delivered => rfl
  | bodiless =>
    exact hstate.symm.trans (h'.delivered _ _ _ hl' (hok.bodiless hstate))
  | revoked =>
    obtain ⟨c, hc, -⟩ := hok.revoked hstate
    rw [h'.cutoff] at hc
    cases hc
  | ready =>
    -- nothing that is ready is left unless something before it is missing
    refine absurd (unblocked_empty_iff.mpr ⟨fun s l₀ hl₀ hs => ?_, ?_⟩) (hex _ _ _ hl' hstate).2
    · rw [hheader'] at hl₀ hs
      have hok₀ := hvalid.link _ _ _ hl₀
      obtain ⟨l₁, hl₁, hdel⟩ := hbefore l₀.header (h'.header _ _ _ hl₀) (hok₀.seq_eq.symm ▸ hs)
      cases (hvalid.link_dot hl₀).symm.trans hl₁
      exact hok₀.delivered hdel
    · rw [hheader']
      refine VersionVector.le_iff_forall_mem_dots.mpr fun c hc => ?_
      obtain ⟨h₀, hh₀, ⟨l₀, hl₀, hdel⟩, hi, hle⟩ := hcontext c hc
      have hsame := h'.header_eq hvalid.toCoherent hl₀ ((store.placed _ _ hh₀).2.symm ▸ hh₀) rfl
      have hholds := (hvalid.link _ _ _ hl₀).delivered hdel
      rw [holds, hsame, hi] at hholds
      exact VersionVector.covers_of_le (store.placed _ _ hh₀).2.symm hle hholds
  | _ =>
    have hnot : l.header.dot ∉ log.takeDeliveries.2.map Delivery.dot := fun hmem => by
      rw [hdeliver, Link.deliver_of_mem hmem] at hstate
      cases hstate
    rw [hdeliver, Link.deliver_of_notMem hnot] at hstate
    obtain ⟨hw, hr⟩ := hopen _ _ _ hl
    first
      | exact absurd hstate hw
      | exact absurd hstate hr

end Honest

/-- What a walk along verified bodies that continue the chain accepts: all of them past its place. -/
theorem extension_eq_filter {counts : OpHeader → Bool} {prev : ℕ} {served : List ServedOp}
    (hsorted : served.Pairwise fun a b => a.header.dot.seq < b.header.dot.seq)
    (hbodies : ∀ op ∈ served, op.body = .verified)
    (hfollows : Follows prev (served.filter fun op => prev < op.header.dot.seq)) :
    extension none counts prev served = served.filter fun op => prev < op.header.dot.seq := by
  induction served generalizing prev with
  | nil => rfl
  | cons op served ih =>
    obtain ⟨hfirst, hsorted⟩ := List.pairwise_cons.mp hsorted
    have hrest := fun op' hop' => hbodies op' (List.mem_cons_of_mem op hop')
    unfold extension
    by_cases hle : op.header.dot.seq ≤ prev
    · rw [List.filter_cons_of_neg (by simpa using hle)] at hfollows ⊢
      rw [if_pos hle, ih hsorted hrest hfollows]
    · rw [List.filter_cons_of_pos (by simpa using hle)] at hfollows ⊢
      obtain ⟨hprev, -, hfollows⟩ := hfollows
      have hall : served.filter (fun op => prev < op.header.dot.seq) =
          served.filter fun op' => op.header.dot.seq < op'.header.dot.seq := by
        refine List.filter_congr fun op' hop' => decide_eq_decide.mpr ?_
        have := hfirst op' hop'
        omega
      rw [hall] at hfollows ⊢
      have hgo : ¬ ((∃ c ∈ (none : Option ℕ), c < op.header.dot.seq) ∨
          op.header.vaultPrevSeq ≠ prev ∨ (needsCover op.body ∧ ¬ counts op.header)) := by
        simp [hprev, hbodies op List.mem_cons_self, needsCover]
      rw [if_neg hle, if_neg hgo, ih hsorted hrest hfollows]

theorem lastSeq_eq (head : ℕ) (ops : List ServedOp) :
    lastSeq head ops = chainEnd head (ops.map ServedOp.header) :=
  List.getLast_congr _ _ (by rw [List.map_map]; rfl)

/-- After the server has answered the cursor with verified bodies, the log holds its chains. -/
theorem Honest.chain_commit_answer (h : log.Honest store) (hv : log.Valid)
    (hops : store.Answers log.cursor ops) (hbodies : ∀ op ∈ ops, op.body = .verified)
    (d : DeviceId) : (log.commit ops).1.chain d = store.headers d := by
  have hstore := h.continues hv.toCoherent
  have hans := hv.toCoherent.answered hstore hops
  obtain ⟨hvalid, -, -, -, -, hhead, -⟩ := hv.commit ops
  obtain ⟨h', -⟩ := h.commit hv hans.mem_headers
  have hbegins := h'.chain_isPrefix hvalid.toCoherent d
  by_cases hd : d = log.own
  · rw [hd, h.own] at hbegins ⊢
    exact List.prefix_nil.mp hbegins
  · refine (store.chained d).eq_of_chainEnd_eq hbegins ?_
    obtain ⟨-, hmap, hfollows⟩ := hans.continues hstore hv.toCoherent hd
    obtain ⟨rest, hrest⟩ := hstore.chain d hd
    have hpast := hv.toCoherent.filter_head_lt (hrest.symm ▸ store.chained d)
    rw [← (hvalid.toCoherent.chained d).2, hhead d hd, accepts, h.cutoff, extension_eq_filter
      (hans.sorted d) (fun op hop => hbodies op (mem_servedOf.mp hop).1) hfollows, lastSeq_eq, hmap,
      ← hrest, hpast, chainEnd_append, ← (hv.toCoherent.chained d).2]

/-- However the server's operations arrived, once it has answered the cursor and every body is
verified, the log holds the server's chains, has handed out what follows causally in them, and has
settled exactly that. None of it depends on what came before. -/
theorem after_schedule (store : Store) (own : DeviceId) (hown : store.headers own = [])
    (calls : List Call) (hcalls : ∀ c ∈ calls, c.Honest store) (ops : List ServedOp)
    (hops : store.Answers (after store.vaultId own calls).cursor ops)
    (hbodies : ∀ op ∈ ops, op.body = .verified)
    (hwaiting : ∀ l ∈ (after store.vaultId own calls).allLinks, l.state ≠ .waiting) :
    let r := (new store.vaultId own).run (calls ++ [.commit ops, .takeDeliveries])
    (∀ d, r.1.chain d = store.headers d) ∧
      {dot | dot ∈ r.2.map Delivery.dot} = store.causal.lfp ∧
      ∀ i dot, (r.1.settled i).covers dot ↔ store.Reached store.causal.lfp i dot := by
  intro r
  set log := after store.vaultId own calls with hlog
  have hv : log.Valid := valid_after store.vaultId own calls
  have hnew : (new store.vaultId own).Honest store := Honest.new hown
  have h : log.Honest store := (hnew.run (Valid.new _ _) hcalls).1
  have hserved := (hv.toCoherent.answered (h.continues hv.toCoherent) hops).mem_headers
  have hall : ∀ c ∈ calls ++ [.commit ops, .takeDeliveries], c.Honest store := by
    intro c hc
    rcases List.mem_append.mp hc with hc | hc
    · exact hcalls c hc
    · obtain rfl | rfl : c = _ ∨ c = _ := by simpa using hc
      · exact hserved
      · trivial
  obtain ⟨hr, hdots⟩ := hnew.run (Valid.new _ _) hall
  have hvr := ((Valid.new store.vaultId own).run (calls ++ [.commit ops, .takeDeliveries])).1
  have heq : r.1 = (log.commit ops).1.takeDeliveries.1 := by
    rw [show r.1 = _ from congrArg Prod.fst (run_append _ _)]
    rfl
  have hlfp : r.1.deliveredDots = store.causal.lfp := by
    rw [heq]
    refine (h.commit hv hserved).1.deliveredDots_takeDeliveries (hv.commit ops).1
      (h.chain_commit_answer hv hops hbodies) fun d s l' hl' => ?_
    obtain ⟨l, hl, hwhy⟩ | ⟨-, -, op, hop, -, -, rfl, -⟩ := hv.of_linkAt_commit hl'
    · have hstate := hwaiting l (mem_allLinks.mpr ⟨d, s, hl⟩)
      by_cases hrejected : l.state = .rejected
      · have hholds : ¬ log.holds l := fun hholds =>
          absurd (hrejected.symm.trans (h.delivered d s l hl hholds)) (by simp)
        obtain ⟨op, hop, -, hagain⟩ :=
          (hv.commit_answer (h.continues hv.toCoherent) hops).2 d s l hl hrejected hholds
        cases hl'.symm.trans hagain
        simp [hbodies op hop, LinkState.servedAgain]
      · rcases hwhy with rfl | ⟨hr, -⟩
        · exact ⟨hstate, hrejected⟩
        · exact absurd hr hrejected
    · simp [hbodies op hop, LinkState.fromBody]
  have hempty : (new store.vaultId own).deliveredDots = ∅ := by
    refine Set.eq_empty_of_forall_notMem fun dot => ?_
    rintro ⟨l, hl, -⟩
    exact absurd (linkAt_new.symm.trans hl) (by simp)
  rw [hempty, Set.empty_union] at hdots
  have hchain : ∀ d, r.1.chain d = store.headers d := fun d => by
    refine (store.chained d).eq_of_chainEnd_eq (hr.chain_isPrefix hvr.toCoherent d) ?_
    rw [← (hvr.toCoherent.chained d).2, ← h.chain_commit_answer hv hops hbodies d,
      ← ((hv.commit ops).1.toCoherent.chained d).2, ← (hv.commit ops).1.takeDeliveries.1.head d]
    exact congrArg (fun log => log.head d) heq
  refine ⟨hchain, hdots.symm.trans hlfp, fun i dot => ⟨fun hcov => ?_, fun hreached => ?_⟩⟩
  · obtain ⟨s, l, hl, hstate, hi, hle⟩ := hr.settled i dot hcov
    have hok := hvr.link _ _ _ hl
    refine ⟨l.header, hr.header _ _ _ hl, ?_, hi, hok.seq_eq.symm ▸ hle⟩
    rw [← hlfp]
    exact ⟨l, hvr.link_dot hl, hstate⟩
  · obtain ⟨header, hheader, hmem, hi, hle⟩ := hreached
    rw [← hlfp] at hmem
    obtain ⟨l, hl, hstate⟩ := hmem
    have hplaced := (store.placed _ _ hheader).2
    have hsame := hr.header_eq hvr.toCoherent hl (hplaced.symm ▸ hheader) rfl
    have hholds := (hvr.link _ _ _ hl).delivered hstate
    rw [holds, hsame, hi] at hholds
    exact VersionVector.covers_of_le hplaced.symm hle hholds

theorem after_schedule_rejectedFirst :
    {dot | dot ∈ ((new ⟨0⟩ ⟨1⟩).run (rejectedFirst ++
      [.commit (plainHeaders.map fun header => ⟨header, .verified⟩), .takeDeliveries])).2.map
        Delivery.dot} = plainStore.causal.lfp := by
  refine (after_schedule plainStore ⟨1⟩ rfl rejectedFirst (fun c hc => ?_) _ plainStore_answers
    (fun op hop => ?_) (by decide +kernel)).2.1
  · obtain rfl | rfl : c = _ ∨ c = _ := by simpa [rejectedFirst] using hc
    · intro op hop
      rw [List.mem_singleton.mp hop]
      exact List.mem_cons_self
    · trivial
  · obtain ⟨header, -, rfl⟩ := List.mem_map.mp hop
    rfl

end VaultLog

end RizzyVault.Sync.Causal
