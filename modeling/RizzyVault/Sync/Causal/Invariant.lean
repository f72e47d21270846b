import RizzyVault.Lib.ChainMap
import RizzyVault.Sync.Causal.State

/-!
# The invariant of the causal log

What holds of a log in every state: each chain is unbroken from zero to its head, each link stands
where its header says, delivered and bodiless links are settled, the links past a cut-off are
delivered or rejected, and the ready index lists exactly the links with a ready body. Every part of
a call keeps it.

## Main definitions

* `VaultLog.LinkOk`, `VaultLog.Coherent`: the invariant.
* `VaultLog.Marked`: which items may have a ready body that is covered.

## Main results

* `VaultLog.Coherent.new`, `VaultLog.Coherent.modifyState`, `VaultLog.Coherent.acceptLink` and the
  like: what the parts of calls keep.
-/

open RizzyVault.Lib

namespace RizzyVault.Sync.Causal

open Std (ExtTreeMap ExtTreeSet)

namespace VaultLog

/-- What holds of the link of a device at a sequence number. -/
structure LinkOk (log : VaultLog) (device : DeviceId) (seq : ℕ) (link : Link) : Prop where
  vaultId : link.header.vaultId = log.vaultId
  deviceId : link.header.dot.deviceId = device
  seq_eq : link.header.dot.seq = seq
  delivered : link.state = .delivered → log.holds link
  bodiless : link.state = .bodiless → log.holds link
  cutoff : ∀ c, log.cutoff device = some c → c < seq →
    link.state = .delivered ∨ link.state = .revoked
  revoked : link.state = .revoked → ∃ c, log.cutoff device = some c ∧ c < seq
  own : device = log.own → link.state = .delivered

/-- The invariant of a log. -/
structure Coherent (log : VaultLog) : Prop where
  linked : ∀ device, ChainMap (fun link : Link => link.header.vaultPrevSeq) (log.links device)
    (log.head device)
  link : ∀ device seq link, log.linkAt device seq = some link → log.LinkOk device seq link
  frontier_le : ∀ device, log.frontier device ≤ log.head device + 1
  frontier : ∀ device seq link, log.linkAt device seq = some link → seq < log.frontier device →
    log.holds link
  ready : ∀ itemId device seq, seq ∈ log.readySeqs itemId device ↔
    ∃ link, log.linkAt device seq = some link ∧ link.state = .ready ∧ link.header.itemId = itemId

/-- Every ready link that its item's settled vector covers is on one of the items. -/
def Marked (log : VaultLog) (pending : Set ItemId) : Prop :=
  ∀ device seq link, log.linkAt device seq = some link → link.state = .ready → log.holds link →
    link.header.itemId ∈ pending

/-- The invariant between calls. -/
structure Valid (log : VaultLog) : Prop extends Coherent log where
  marked : log.Marked {itemId | itemId ∈ log.dirty}

variable {log log' : VaultLog} {device : DeviceId} {seq : ℕ} {link : Link}

theorem holds_mono (h : ∀ i, log.settled i ≤ log'.settled i) (hlink : log.holds link) :
    log'.holds link :=
  h _ _ hlink

/-- A link stays as it should while settled vectors grow and the cut-offs stay. -/
theorem LinkOk.mono (hok : log.LinkOk device seq link) (hvault : log'.vaultId = log.vaultId)
    (hown : log'.own = log.own) (hcutoffs : log'.cutoffs = log.cutoffs)
    (hsettled : ∀ i, log.settled i ≤ log'.settled i) : log'.LinkOk device seq link where
  vaultId := hok.vaultId.trans hvault.symm
  deviceId := hok.deviceId
  seq_eq := hok.seq_eq
  delivered h := holds_mono hsettled (hok.delivered h)
  bodiless h := holds_mono hsettled (hok.bodiless h)
  cutoff := by simpa only [VaultLog.cutoff, hcutoffs] using hok.cutoff
  revoked := by simpa only [VaultLog.cutoff, hcutoffs] using hok.revoked
  own h := hok.own (h.trans hown)

theorem linkAt_new {vaultId : VaultId} {own : DeviceId} : (new vaultId own).linkAt device seq = none := by
  simp [linkAt, new]

theorem Valid.new (vaultId : VaultId) (own : DeviceId) : (new vaultId own).Valid where
  linked device := by
    have hlinks : (VaultLog.new vaultId own).links device = ∅ := by simp [links, VaultLog.new]
    have hhead : (VaultLog.new vaultId own).head device = 0 := by simp [head, VaultLog.new]
    rw [hlinks, hhead]
    exact .empty
  link device seq link h := absurd h (by simp [linkAt_new])
  frontier_le device := by simp [VaultLog.frontier, VaultLog.new]
  frontier device seq link h := absurd h (by simp [linkAt_new])
  ready itemId device seq := by simp [readySeqs, VaultLog.new, linkAt]
  marked device seq link h := absurd h (by simp [linkAt_new])

namespace Coherent

/-! ### Reading the invariant -/

theorem dot_eq (h : log.Coherent) (hlink : log.linkAt device seq = some link) {dot : Dot}
    (hd : dot.deviceId = device) (hs : dot.seq = seq) : link.header.dot = dot := by
  have hok := h.link _ _ _ hlink
  exact Dot.ext (hok.deviceId.trans hd.symm) (hok.seq_eq.trans hs.symm)

theorem link_dot (h : log.Coherent) (hlink : log.linkAt device seq = some link) :
    log.link link.header.dot = some link := by
  have hok := h.link _ _ _ hlink
  rw [VaultLog.link, hok.deviceId, hok.seq_eq, hlink]

theorem settled_iff (h : log.Coherent) (hlink : log.linkAt device seq = some link) :
    Causal.settled log.items link ↔ log.holds link := by
  rw [Causal.settled, covered_iff]
  exact ⟨fun hs => hs.elim (h.link _ _ _ hlink).delivered id, .inr⟩

theorem seq_le_head (h : log.Coherent) (hlink : log.linkAt device seq = some link) :
    seq ≤ log.head device :=
  (h.linked device).le_head _ _ (getElem?_links.trans hlink)

/-! ### Changes that keep the headers -/

/-- The headers decide whether the chains are unbroken. -/
theorem linked_of_headers (h : log.Coherent) (hhead : ∀ d, log'.head d = log.head d)
    (hheaders : ∀ d s, (log'.linkAt d s).map (fun l => l.header.vaultPrevSeq) =
      (log.linkAt d s).map fun l => l.header.vaultPrevSeq) (device : DeviceId) :
    ChainMap (fun link : Link => link.header.vaultPrevSeq) (log'.links device)
      (log'.head device) := by
  rw [hhead]
  refine (h.linked device).congr fun s => ?_
  rw [getElem?_links, getElem?_links]
  exact hheaders device s

/-- Growing settled vectors keep the invariant. -/
theorem settle (h : log.Coherent) (hvault : log'.vaultId = log.vaultId)
    (hown : log'.own = log.own) (hchains : log'.chains = log.chains)
    (hready : log'.ready = log.ready) (hcutoffs : log'.cutoffs = log.cutoffs)
    (hsettled : ∀ i, log.settled i ≤ log'.settled i) : log'.Coherent := by
  have hlinkAt : log'.linkAt = log.linkAt := by
    funext d s
    simp only [linkAt, hchains]
  have hhead : log'.head = log.head := by
    funext d
    simp only [head, hchains]
  have hfrontier : log'.frontier = log.frontier := by
    funext d
    simp only [VaultLog.frontier, hchains]
  have hseqs : log'.readySeqs = log.readySeqs := by
    funext i d
    simp only [readySeqs, hready]
  refine ⟨h.linked_of_headers (fun d => by rw [hhead]) fun d s => by rw [hlinkAt], ?_, ?_, ?_, ?_⟩
  · rw [hlinkAt]
    exact fun d s l hl => (h.link d s l hl).mono hvault hown hcutoffs hsettled
  · rw [hfrontier, hhead]
    exact h.frontier_le
  · rw [hlinkAt, hfrontier]
    exact fun d s l hl hs => holds_mono hsettled (h.frontier d s l hl hs)
  · rw [hlinkAt, hseqs]
    exact h.ready

end Coherent

/-- The link at a place is as it should be in a new state. -/
theorem LinkOk.setState (hok : log.LinkOk device seq link) {state : LinkState}
    (hholds : state = .delivered ∨ state = .bodiless → log.holds link)
    (hcutoff : ∀ c, log.cutoff device = some c → c < seq → state = .delivered)
    (hrevoked : state ≠ .revoked) (hown : device = log.own → state = .delivered) :
    log.LinkOk device seq { link with state } where
  vaultId := hok.vaultId
  deviceId := hok.deviceId
  seq_eq := hok.seq_eq
  delivered h := hholds (.inl h)
  bodiless h := hholds (.inr h)
  cutoff c hc hs := .inl (hcutoff c hc hs)
  revoked h := absurd h hrevoked
  own := hown

/-- A link whose body may still come is not past its cut-off, and not an own one. -/
theorem LinkOk.open (hok : log.LinkOk device seq link) (hd : link.state ≠ .delivered)
    (hr : link.state ≠ .revoked) :
    (∀ c, log.cutoff device = some c → ¬ c < seq) ∧ device ≠ log.own :=
  ⟨fun c hc hs => (hok.cutoff c hc hs).elim hd hr, fun h => hd (hok.own h)⟩

namespace Coherent

/-- A change of one link's state keeps the invariant when the link is as it should be in the new
state and the ready index follows it. -/
theorem setState (h : log.Coherent) (hlink : log.linkAt device seq = some link) (state : LinkState)
    (hvault : log'.vaultId = log.vaultId) (hown : log'.own = log.own)
    (hcutoffs : log'.cutoffs = log.cutoffs) (hhead : ∀ d, log'.head d = log.head d)
    (hfrontier : ∀ d, log'.frontier d = log.frontier d)
    (hsettled : ∀ i, log.settled i ≤ log'.settled i)
    (hlinkAt : ∀ d s, log'.linkAt d s =
      if device = d ∧ seq = s then some { link with state } else log.linkAt d s)
    (hok : log'.LinkOk device seq { link with state })
    (hready : ∀ i d s, s ∈ log'.readySeqs i d ↔
      if device = d ∧ seq = s then state = .ready ∧ link.header.itemId = i
      else s ∈ log.readySeqs i d) : log'.Coherent := by
  refine ⟨h.linked_of_headers hhead fun d s => ?_, fun d s l hl => ?_, fun d => ?_,
    fun d s l hl hs => ?_, fun i d s => ?_⟩
  · rw [hlinkAt]
    split_ifs with hds
    · rw [← hds.1, ← hds.2, hlink]
      rfl
    · rfl
  · rw [hlinkAt] at hl
    split_ifs at hl with hds
    · obtain ⟨rfl, rfl⟩ := hds
      cases hl
      exact hok
    · exact (h.link d s l hl).mono hvault hown hcutoffs hsettled
  · rw [hfrontier, hhead]
    exact h.frontier_le d
  · rw [hlinkAt] at hl
    rw [hfrontier] at hs
    split_ifs at hl with hds
    · obtain ⟨rfl, rfl⟩ := hds
      cases hl
      have hholds := h.frontier _ _ _ hlink hs
      exact hsettled _ _ hholds
    · exact holds_mono hsettled (h.frontier d s l hl hs)
  · rw [hready, hlinkAt]
    split_ifs with hds
    · simp
    · exact h.ready i d s

/-- A link that is not ready takes a state without a ready body. -/
theorem modifyState (h : log.Coherent) (hlink : log.linkAt device seq = some link)
    (hlive : link.state ≠ .delivered ∧ link.state ≠ .revoked ∧ link.state ≠ .ready)
    {state : LinkState} (hstate : state = .waiting ∨ state = .rejected) :
    (log.modifyLink device seq fun link => { link with state }).Coherent := by
  have hok := h.link _ _ _ hlink
  obtain ⟨hcut, hown⟩ := hok.open hlive.1 hlive.2.1
  refine h.setState hlink state rfl rfl rfl (fun _ => head_modifyLink)
    (fun _ => frontier_modifyLink) (fun _ => le_rfl) (fun d s => ?_) ?_ fun i d s => ?_
  · rw [linkAt_modifyLink, hlink, Option.map_some]
  · refine ((hok.setState ?_ (fun c hc hs => absurd hs (hcut c hc)) ?_ fun h => absurd h hown).mono
      rfl rfl rfl fun _ => le_rfl)
    all_goals rcases hstate with rfl | rfl <;> simp
  · rw [readySeqs_modifyLink]
    split_ifs with hds
    · obtain ⟨rfl, rfl⟩ := hds
      rw [h.ready, hlink]
      have := hlive.2.2
      rcases hstate with rfl | rfl <;> simp [this]
    · rfl

/-- A link that is not ready gets a ready body. -/
theorem wake (h : log.Coherent) (hlink : log.linkAt device seq = some link)
    (hlive : link.state ≠ .delivered ∧ link.state ≠ .revoked ∧ link.state ≠ .ready) {dot : Dot}
    (hd : dot.deviceId = device) (hs : dot.seq = seq) :
    ((log.modifyLink device seq fun link => { link with state := .ready }).readyInsert
      link.header.itemId dot).Coherent := by
  have hok := h.link _ _ _ hlink
  obtain ⟨hcut, hown⟩ := hok.open hlive.1 hlive.2.1
  refine h.setState hlink .ready rfl rfl rfl (fun _ => head_modifyLink)
    (fun _ => frontier_modifyLink) (fun _ => le_rfl) (fun d s => ?_) ?_ fun i d s => ?_
  · rw [linkAt_readyInsert, linkAt_modifyLink, hlink, Option.map_some]
  · exact ((hok.setState (by simp) (fun c hc hs => absurd hs (hcut c hc)) (by simp)
      fun h => absurd h hown).mono rfl rfl rfl fun _ => le_rfl)
  · rw [readySeqs_readyInsert, readySeqs_modifyLink, hd, hs]
    have hseqs : seq ∉ log.readySeqs i device := by
      rw [h.ready, hlink]
      rintro ⟨l, hl, hstate, -⟩
      cases hl
      exact hlive.2.2 hstate
    split_ifs with hi hds hds
    · rw [ExtTreeSet.mem_insert, compare_eq_iff_eq]
      simp [hi.1, hds.2]
    · rw [ExtTreeSet.mem_insert, compare_eq_iff_eq]
      simp only [or_iff_right_iff_imp]
      exact fun h => absurd ⟨hi.2, h⟩ hds
    · obtain ⟨rfl, rfl⟩ := hds
      simpa [hseqs] using fun h => hi ⟨h, rfl⟩
    · rfl

/-- The next link of a chain. -/
theorem acceptLink (h : log.Coherent) {header : OpHeader} {state : LinkState}
    (hvault : header.vaultId = log.vaultId)
    (hprev : header.vaultPrevSeq = log.head header.dot.deviceId)
    (hseq : log.head header.dot.deviceId < header.dot.seq) (hrevoked : state ≠ .revoked)
    (hholds : state = .delivered ∨ state = .bodiless →
      (log.settled header.itemId).covers header.dot)
    (hcutoff : ∀ c, log.cutoff header.dot.deviceId = some c → c < header.dot.seq →
      state = .delivered)
    (hown : header.dot.deviceId = log.own → state = .delivered) :
    (log.acceptLink header state).Coherent := by
  have hvaultId : (log.acceptLink header state).vaultId = log.vaultId := by
    unfold VaultLog.acceptLink
    split_ifs <;> rfl
  have hownId : (log.acceptLink header state).own = log.own := by
    unfold VaultLog.acceptLink
    split_ifs <;> rfl
  have hcutoffs : (log.acceptLink header state).cutoffs = log.cutoffs := by
    unfold VaultLog.acceptLink
    split_ifs <;> rfl
  have hnone : log.linkAt header.dot.deviceId header.dot.seq = none := by
    rw [Option.eq_none_iff_forall_not_mem]
    intro l hl
    have := h.seq_le_head hl
    omega
  refine ⟨fun d => ?_, fun d s l hl => ?_, fun d => ?_, fun d s l hl hs => ?_, fun i d s => ?_⟩
  · rw [head_acceptLink]
    split_ifs with hd
    · subst hd
      have hinsert : ChainMap (fun link : Link => link.header.vaultPrevSeq)
          ((log.links header.dot.deviceId).insert header.dot.seq ⟨header, state⟩)
          header.dot.seq := (h.linked header.dot.deviceId).insert hseq hprev
      refine hinsert.congr fun s => ?_
      rw [getElem?_links, linkAt_acceptLink, ExtTreeMap.getElem?_insert_iff, getElem?_links]
      simp
    · refine (h.linked d).congr fun s => ?_
      rw [getElem?_links, linkAt_acceptLink, getElem?_links, if_neg fun hds => hd hds.1]
  · rw [linkAt_acceptLink] at hl
    split_ifs at hl with hds
    · obtain ⟨rfl, rfl⟩ := hds
      cases hl
      have hok : log.LinkOk header.dot.deviceId header.dot.seq ⟨header, state⟩ :=
        ⟨hvault, rfl, rfl, fun h => hholds (.inl h), fun h => hholds (.inr h),
          fun c hc hs => .inl (hcutoff c hc hs), fun h => absurd h hrevoked, hown⟩
      exact hok.mono hvaultId hownId hcutoffs fun i => by rw [settled_acceptLink]
    · exact (h.link d s l hl).mono hvaultId hownId hcutoffs fun i => by rw [settled_acceptLink]
  · have hle := h.frontier_le d
    rw [frontier_acceptLink, head_acceptLink]
    split_ifs with hd
    · subst hd
      omega
    · exact hle
  · rw [frontier_acceptLink] at hs
    rw [linkAt_acceptLink] at hl
    rw [holds, settled_acceptLink]
    split_ifs at hl with hds
    · obtain ⟨rfl, rfl⟩ := hds
      have := h.frontier_le header.dot.deviceId
      omega
    · exact h.frontier d s l hl hs
  · rw [readySeqs_acceptLink, linkAt_acceptLink]
    split_ifs with hi hds hds
    · obtain ⟨rfl, rfl, rfl⟩ := hi
      simp [ExtTreeSet.mem_insert, hds.2]
    · obtain ⟨rfl, rfl, rfl⟩ := hi
      have hne : header.dot.seq ≠ s := fun h => hds ⟨rfl, h⟩
      rw [ExtTreeSet.mem_insert, compare_eq_iff_eq, or_iff_right hne]
      exact h.ready _ _ _
    · obtain ⟨rfl, rfl⟩ := hds
      rw [h.ready, hnone]
      simpa using fun h h' => hi ⟨h, h', rfl⟩
    · exact h.ready i d s

end Coherent

end VaultLog

end RizzyVault.Sync.Causal
