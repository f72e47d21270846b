import RizzyVault.Lib.Sorted
import RizzyVault.Sync.Causal.Delivery

/-!
# The rounds of a delivery

Advancing the frontiers hands out the fresh operations, and the rounds end: every round but the
last hands out a link that was not handed out before, and what the last one leaves may not be
delivered.

## Main definitions

* `VaultLog.Idle`: no link of a device may be delivered fresh.

## Main results

* `VaultLog.Valid.advance`, `VaultLog.Valid.deliverFrontiers`: the fresh operations are a batch.
* `VaultLog.Valid.takeDeliveries`: the deliveries are a batch that exhausts the log.
-/

open RizzyVault.Lib

namespace RizzyVault.Sync.Causal

open Std (ExtTreeMap ExtTreeSet)

namespace VaultLog

variable {log log' : VaultLog} {device : DeviceId} {seq : ℕ} {link : Link} {itemId : ItemId}
  {out : List Delivery}

/-- No link of a device may be delivered as a fresh operation. -/
def Idle (log : VaultLog) (device : DeviceId) : Prop :=
  ∀ s l, log.linkAt device s = some l → l.state = .ready → ¬ log.holds l → ¬ log.Unblocked ∅ l

/-! ### The links from a place on -/

/-- The first of a device's links from a place on, and the links after it. -/
theorem of_linksFrom_eq_cons {k s : ℕ} {l : Link} {rest : List (ℕ × Link)}
    (h : log.linksFrom device k = (s, l) :: rest) :
    k ≤ s ∧ log.linkAt device s = some l ∧ rest = log.linksFrom device (s + 1) ∧
      ∀ s' l', log.linkAt device s' = some l' → k ≤ s' → s ≤ s' := by
  have hmem : (s, l) ∈ log.linksFrom device k := h ▸ List.mem_cons_self
  obtain ⟨hk, hl⟩ := mem_linksFrom.mp hmem
  have hsorted : (log.linksFrom device k).Pairwise fun a b => a.1 < b.1 := log.pairwise_linksFrom
  rw [h, List.pairwise_cons] at hsorted
  refine ⟨hk, hl, ?_, fun s' l' hl' hk' => ?_⟩
  · have hfilter : log.linksFrom device (s + 1) =
        (log.linksFrom device k).filter fun entry => s + 1 ≤ entry.1 := by
      rw [linksFrom_eq, linksFrom_eq, List.filter_filter]
      refine List.filter_congr fun entry _ => ?_
      simp only [← Bool.decide_and, decide_eq_decide]
      omega
    have hrest : rest.filter (fun entry => decide (s + 1 ≤ entry.1)) = rest :=
      List.filter_eq_self.mpr fun entry hentry => decide_eq_true (hsorted.1 entry hentry)
    rw [hfilter, h, List.filter_cons_of_neg (by simp), hrest]
  · have hmem' : (s', l') ∈ log.linksFrom device k := mem_linksFrom.mpr ⟨hk', hl'⟩
    rw [h] at hmem'
    rcases List.mem_cons.mp hmem' with heq | hmem'
    · exact (congrArg Prod.fst heq).ge
    · exact (hsorted.1 _ hmem').le

/-- The links from a place on decide the list of them. -/
theorem linksFrom_congr {k : ℕ} (h : ∀ s, k ≤ s → log'.linkAt device s = log.linkAt device s) :
    log'.linksFrom device k = log.linksFrom device k := by
  have hnodup : ∀ log : VaultLog, (log.linksFrom device k).Nodup := fun log =>
    log.pairwise_linksFrom.imp fun hab heq => hab.ne (congrArg Prod.fst heq)
  have hperm : (log'.linksFrom device k).Perm (log.linksFrom device k) := by
    refine (List.perm_ext_iff_of_nodup (hnodup log') (hnodup log)).mpr fun entry => ?_
    rw [mem_linksFrom, mem_linksFrom]
    exact and_congr_right fun hk => by rw [h entry.1 hk]
  exact hperm.eq_of_pairwise (fun a b _ _ hab hba => absurd hba hab.asymm) log'.pairwise_linksFrom
    log.pairwise_linksFrom

/-! ### Delivering a fresh operation -/

/-- Moving a frontier below which every link is settled. -/
theorem Valid.setFrontier (h : log.Valid) (device : DeviceId) (frontier : ℕ)
    (hle : frontier ≤ log.head device + 1)
    (hholds : ∀ s l, log.linkAt device s = some l → s < frontier → log.holds l) :
    Batch log (log.setFrontier device frontier) [] ∧ (log.setFrontier device frontier).Valid := by
  refine ⟨.of_same rfl rfl rfl rfl rfl (fun _ => head_setFrontier) (fun _ _ => linkAt_setFrontier)
    fun _ => rfl, ⟨⟨h.linked_of_headers (fun _ => head_setFrontier) fun d s => ?_,
    fun d s l hl => ?_, fun d => ?_, fun d s l hl hlt => ?_, fun i d s => ?_⟩,
    fun d s l hl hstate hcov => ?_⟩⟩
  · rw [linkAt_setFrontier]
  · rw [linkAt_setFrontier] at hl
    exact (h.link d s l hl).mono rfl rfl rfl fun _ => le_rfl
  · rw [head_setFrontier]
    have hnew : (log.setFrontier device frontier).frontier d ≤
        if device = d then frontier else log.frontier d := frontier_setFrontier_le
    split_ifs at hnew with hd
    · exact hnew.trans (hd ▸ hle)
    · exact hnew.trans (h.frontier_le d)
  · rw [linkAt_setFrontier] at hl
    have hnew : (log.setFrontier device frontier).frontier d ≤
        if device = d then frontier else log.frontier d := frontier_setFrontier_le
    split_ifs at hnew with hd
    · exact hholds s l (hd ▸ hl) (hlt.trans_le hnew)
    · exact h.frontier d s l hl (hlt.trans_le hnew)
  · rw [linkAt_setFrontier]
    exact h.ready i d s
  · rw [linkAt_setFrontier] at hl
    exact h.marked d s l hl hstate hcov

/-- Handing out a fresh operation that nothing blocks. -/
theorem Valid.deliverFresh (h : log.Valid) (hlink : log.linkAt device seq = some link)
    (hstate : link.state = .ready) (hunblocked : log.Unblocked ∅ link) :
    Batch log (log.deliverFresh device seq link.header)
      [⟨link.header.dot, link.header.itemId, link.header.hlc, false⟩] ∧
      (log.deliverFresh device seq link.header).Valid := by
  set log' := log.deliverFresh device seq link.header
  have hok := h.link _ _ _ hlink
  have hlinkAt : ∀ d s, log'.linkAt d s = (log.linkAt d s).map (Link.deliver [link.header.dot]) := by
    intro d s
    change (log.modifyLink device seq fun link => { link with state := .delivered }).linkAt d s = _
    rw [linkAt_modifyLink]
    split_ifs with hds
    · obtain ⟨rfl, rfl⟩ := hds
      rw [hlink, Option.map_some, Option.map_some, Link.deliver_of_mem (List.mem_singleton_self _)]
    · cases hl : log.linkAt d s with
      | none => rfl
      | some l =>
        have hok' := h.link d s l hl
        rw [Option.map_some, Link.deliver_of_notMem]
        intro hmem
        have hdot := List.mem_singleton.mp hmem
        exact hds ⟨hok.deviceId.symm.trans (hdot ▸ hok'.deviceId),
          hok.seq_eq.symm.trans (hdot ▸ hok'.seq_eq)⟩
  have hsettled : ∀ i, log'.settled i =
      if link.header.itemId = i then (log.settled i).add link.header.dot else log.settled i :=
    fun i => settled_addSettled
  have hle : ∀ i, log.settled i ≤ log'.settled i := by
    intro i
    rw [hsettled]
    split_ifs
    · exact fun dot hdot => VersionVector.covers_add.mpr (.inl hdot)
    · exact le_rfl
  have hbatch : Batch log log'
      [⟨link.header.dot, link.header.itemId, link.header.hlc, false⟩] := by
    refine ⟨rfl, rfl, rfl, rfl, rfl, fun d => head_modifyLink, hlinkAt, fun i dot => ?_,
      List.nodup_singleton _, ⟨link, h.link_dot hlink, rfl, hstate, rfl, rfl, ?_⟩, trivial⟩
    · rw [hsettled]
      simp only [coversWith, Set.mem_ofPred_eq, List.mem_singleton, exists_eq_left]
      split_ifs with hi
      · simp [VersionVector.covers_add, hi]
      · simp [hi]
    · exact hunblocked
  refine ⟨hbatch, h.deliverAll rfl rfl rfl (fun d => head_modifyLink)
    (fun d => frontier_modifyLink) hlinkAt hle (fun i d s => ?_) (fun d s l hl hmem => ?_),
    fun d s l' hl' hready hcov => ?_⟩
  · change s ∈ ((log.modifyLink device seq fun link =>
      { link with state := .delivered }).readyRemove link.header.itemId link.header.dot).readySeqs
        i d ↔ _
    rw [readySeqs_readyRemove, readySeqs_modifyLink]
    simp only [List.mem_singleton, forall_eq]
    split_ifs with hid
    · rw [ExtTreeSet.mem_erase, ne_eq, compare_eq_iff_eq, and_comm]
      simp [hid.2]
    · refine (and_iff_left_of_imp ?_).symm
      rintro hs ⟨rfl, rfl⟩
      obtain ⟨l, hl, -, hi⟩ := (h.ready _ _ _).mp hs
      rw [hok.deviceId, hok.seq_eq, hlink] at hl
      cases hl
      exact hid ⟨hi, rfl⟩
  · have hdot := List.mem_singleton.mp hmem
    have hl' := h.link_dot hl
    rw [hdot, h.link_dot hlink] at hl'
    cases hl'
    refine ⟨hstate, ?_⟩
    rw [holds, hsettled, if_pos rfl]
    exact VersionVector.covers_add.mpr (.inr ⟨rfl, le_rfl⟩)
  · obtain ⟨l, hl, rfl⟩ := hbatch.of_linkAt hl'
    obtain ⟨heq, -⟩ := Link.of_deliver_ready hready
    rw [heq] at hready hcov ⊢
    change l.header.itemId ∈ log.dirty.insert link.header.itemId
    rw [ExtTreeSet.mem_insert, compare_eq_iff_eq]
    by_cases hi : link.header.itemId = l.header.itemId
    · exact .inl hi
    · rw [holds, hsettled, if_neg hi] at hcov
      exact .inr (h.marked d s l hl hready hcov)

/-! ### Advancing the frontiers -/

theorem Batch.holds_iff_of_nil (h : Batch log log' []) : log'.holds link ↔ log.holds link := by
  rw [holds, holds, h.settled_of_nil]

theorem Batch.unblocked_iff_of_nil (h : Batch log log' []) :
    log'.Unblocked ∅ link ↔ log.Unblocked ∅ link := by
  simp only [unblocked_empty_iff, h.linkAt_of_nil, h.holds_iff_of_nil, h.settled_of_nil]

theorem Idle.of_batch_nil (hbatch : Batch log log' []) (h : log'.Idle device) : log.Idle device :=
  fun s l hl hstate hholds hunblocked =>
    h s l ((hbatch.linkAt_of_nil _ _).trans hl) hstate
      (fun hh => hholds (hbatch.holds_iff_of_nil.mp hh)) (hbatch.unblocked_iff_of_nil.mpr hunblocked)

/-- Advancing a frontier from a place below which every link is settled. -/
theorem Valid.advance (h : log.Valid) (device : DeviceId) (links : List (ℕ × Link)) {k : ℕ}
    (hlinks : links = log.linksFrom device k)
    (hbelow : ∀ s l, log.linkAt device s = some l → s < k → log.holds l) :
    Batch log (advance device log links).1 (advance device log links).2 ∧
      (VaultLog.advance device log links).1.Valid ∧
      (VaultLog.advance device log links).1.Idle device := by
  induction links generalizing log k with
  | nil =>
    have hall : ∀ s l, log.linkAt device s = some l → log.holds l := by
      intro s l hl
      by_cases hs : s < k
      · exact hbelow s l hl hs
      · have hmem : (s, l) ∈ log.linksFrom device k := mem_linksFrom.mpr ⟨not_lt.mp hs, hl⟩
        rw [← hlinks] at hmem
        exact absurd hmem List.not_mem_nil
    obtain ⟨hbatch, hvalid⟩ := h.setFrontier device _ (min_le_left _ maxU64)
      fun s l hl _ => hall s l hl
    refine ⟨hbatch, hvalid, fun s l hl _ hholds => absurd ?_ hholds⟩
    exact hall s l (linkAt_setFrontier.symm.trans hl)
  | cons entry links ih =>
    obtain ⟨s, link⟩ := entry
    obtain ⟨hk, hlink, hrest, hfirst⟩ := of_linksFrom_eq_cons hlinks.symm
    have hbefore : ∀ s' l', log.linkAt device s' = some l' → s' < s → log.holds l' := by
      intro s' l' hl' hs'
      by_cases hk' : s' < k
      · exact hbelow s' l' hl' hk'
      · have := hfirst s' l' hl' (not_lt.mp hk')
        omega
    have hok := h.link _ _ _ hlink
    have hunsettled := h.settled_iff hlink
    by_cases hsettled : Causal.settled log.items link
    · -- the frontier is past a settled link
      have hstep : VaultLog.advance device log ((s, link) :: links) =
          VaultLog.advance device log links := by
        simp only [VaultLog.advance, if_pos hsettled]
      rw [hstep]
      refine ih h hrest fun s' l' hl' hs' => ?_
      rcases Nat.lt_succ_iff_lt_or_eq.mp hs' with hs' | rfl
      · exact hbefore s' l' hl' hs'
      · cases hl'.symm.trans hlink
        exact hunsettled.mp hsettled
    · have hholds : ¬ log.holds link := fun hh => hsettled (hunsettled.mpr hh)
      set log₁ := log.setFrontier device s with hlog₁
      obtain ⟨hbatch₁, hvalid₁⟩ := h.setFrontier device s
        ((h.seq_le_head hlink).trans (Nat.le_succ _)) hbefore
      rw [← hlog₁] at hbatch₁ hvalid₁
      have hlink₁ : log₁.linkAt device s = some link := linkAt_setFrontier.trans hlink
      have hunblocked : log₁.Unblocked ∅ link ↔ missingContext log₁.items link.header = none := by
        rw [unblocked_empty_iff, missingContext_eq_none, hok.deviceId, hok.seq_eq]
        refine and_iff_right fun s' l' hl' hs' => hbefore s' l' ?_ hs'
        exact linkAt_setFrontier.symm.trans hl'
      by_cases hstuck : link.state ≠ .ready ∨ (missingContext log₁.items link.header).isSome
      · -- the first unsettled link is not due, and every later one waits for it
        have hstep : VaultLog.advance device log ((s, link) :: links) = (log₁, []) := by
          simp only [VaultLog.advance, if_neg hsettled, ← hlog₁]
          rw [if_pos hstuck]
        rw [hstep]
        refine ⟨hbatch₁, hvalid₁, fun s' l' hl' hstate' hholds' hun => ?_⟩
        have hl₁ : log.linkAt device s' = some l' := linkAt_setFrontier.symm.trans hl'
        have hok' := h.link _ _ _ hl₁
        rcases lt_trichotomy s' s with hlt | rfl | hlt
        · exact hholds' (hbefore s' l' hl₁ hlt)
        · cases hl₁.symm.trans hlink
          rcases hstuck with hstate | hmissing
          · exact hstate hstate'
          · rw [hunblocked.mp hun] at hmissing
            cases hmissing
        · refine hholds ((unblocked_empty_iff.mp hun).1 s link ?_ ?_)
          · rw [hok'.deviceId]
            exact hlink₁
          · rw [hok'.seq_eq]
            exact hlt
      · rw [not_or, not_not, Bool.not_eq_true, Option.isSome_eq_false_iff, Option.isNone_iff_eq_none]
          at hstuck
        obtain ⟨hbatch₂, hvalid₂⟩ := hvalid₁.deliverFresh hlink₁ hstuck.1 (hunblocked.mpr hstuck.2)
        set log₂ := log₁.deliverFresh device s link.header with hlog₂
        have hstep : VaultLog.advance device log ((s, link) :: links) =
            ((VaultLog.advance device log₂ links).1,
              ⟨link.header.dot, link.header.itemId, link.header.hlc, false⟩ ::
                (VaultLog.advance device log₂ links).2) := by
          simp only [VaultLog.advance, if_neg hsettled, ← hlog₁, ← hlog₂]
          rw [if_neg]
          simp [hstuck]
        have hlink₂ : ∀ s', log₂.linkAt device s' =
            (log.linkAt device s').map (Link.deliver [link.header.dot]) := fun s' => by
          rw [hbatch₂.linkAt, hbatch₁.linkAt_of_nil]
          rfl
        have hrest₂ : links = log₂.linksFrom device (s + 1) := by
          rw [hrest]
          refine (linksFrom_congr fun s' hs' => ?_).symm
          rw [hlink₂]
          cases hl' : log.linkAt device s' with
          | none => rfl
          | some l' =>
            rw [Option.map_some, Link.deliver_of_notMem]
            intro hmem
            have hseq : l'.header.dot.seq = link.header.dot.seq := by
              rw [List.mem_singleton.mp hmem]
            rw [(h.link _ _ _ hl').seq_eq, hok.seq_eq] at hseq
            omega
        obtain ⟨hbatch, hvalid, hidle⟩ := ih hvalid₂ hrest₂ fun s' l' hl' hs' => by
          rw [hlink₂] at hl'
          obtain ⟨l, hl, rfl⟩ := Option.map_eq_some_iff.mp hl'
          rw [holds, Link.header_deliver]
          rcases Nat.lt_succ_iff_lt_or_eq.mp hs' with hs' | rfl
          · exact hbatch₂.settled_le _ _ (hbatch₁.settled_le _ _ (hbefore s' l hl hs'))
          · cases hl.symm.trans hlink
            exact (hbatch₂.settled _ _).mpr (.inr ⟨_, List.mem_singleton_self _, rfl, rfl, le_rfl⟩)
        rw [hstep]
        exact ⟨(hbatch₁.trans hbatch₂).trans hbatch, hvalid, hidle⟩

/-- Advancing the frontiers of devices, one after the other. -/
theorem Valid.advanceAll (h : log.Valid) (devices : List DeviceId) :
    Batch log (log.advanceAll devices).1 (log.advanceAll devices).2 ∧
      (log.advanceAll devices).1.Valid ∧
      ((log.advanceAll devices).2 = [] → ∀ d ∈ devices, log.Idle d) := by
  induction devices generalizing log with
  | nil => exact ⟨.refl log, h, fun _ d hd => absurd hd List.not_mem_nil⟩
  | cons device devices ih =>
    obtain ⟨hbatch, hvalid, hidle⟩ := h.advance device _ rfl
      fun s l hl hs => h.frontier device s l hl hs
    set r := VaultLog.advance device log (log.linksFrom device (log.frontier device))
    obtain ⟨hbatch', hvalid', hidle'⟩ := ih hvalid
    refine ⟨hbatch.trans hbatch', hvalid', fun hnil d hd => ?_⟩
    obtain ⟨hnil, hnil'⟩ := List.append_eq_nil_iff.mp hnil
    rw [hnil] at hbatch
    rcases List.mem_cons.mp hd with rfl | hd
    · exact hidle.of_batch_nil hbatch
    · exact (hidle' hnil' d hd).of_batch_nil hbatch

/-- Handing out the fresh operations: if there is none, no device has one. -/
theorem Valid.deliverFrontiers (h : log.Valid) :
    Batch log log.deliverFrontiers.1 log.deliverFrontiers.2 ∧ log.deliverFrontiers.1.Valid ∧
      (log.deliverFrontiers.2 = [] → ∀ d, log.Idle d) := by
  obtain ⟨hbatch, hvalid, hidle⟩ := h.advanceAll log.chains.keys
  refine ⟨hbatch, hvalid, fun hnil d s l hl => hidle hnil d ?_ s l hl⟩
  obtain ⟨chain, hchain, -⟩ := Option.bind_eq_some_iff.mp hl
  exact (ExtTreeMap.mem_keys_iff _ _).mpr ⟨chain, hchain⟩

/-! ### Rounds -/

/-- A round that hands out nothing leaves nothing that may be delivered. -/
theorem Valid.deliverRound (h : log.Valid) :
    Batch log log.deliverRound.1 log.deliverRound.2 ∧ log.deliverRound.1.Valid ∧
      (log.deliverRound.2 = [] → log.deliverRound.1.Exhausted) := by
  obtain ⟨hbatch, hcoherent, hmarked, hdirty⟩ := h.deliverCovered
  have hvalid : log.deliverCovered.1.Valid :=
    ⟨hcoherent, fun d s l hl hstate hholds => (hmarked d s l hl hstate hholds).elim⟩
  obtain ⟨hbatch', hvalid', hidle⟩ := hvalid.deliverFrontiers
  refine ⟨hbatch.trans hbatch', hvalid', fun hnil d s l hl hstate => ?_⟩
  obtain ⟨-, hnil⟩ := List.append_eq_nil_iff.mp hnil
  change log.deliverCovered.1.deliverFrontiers.2 = [] at hnil
  rw [hnil] at hbatch'
  have hl := (hbatch'.linkAt_of_nil d s).symm.trans hl
  have hholds : ¬ log.deliverCovered.1.holds l := fun hh => (hmarked d s l hl hstate hh).elim
  exact ⟨fun hh => hholds (hbatch'.holds_iff_of_nil.mp hh),
    fun hun => hidle hnil d s l hl hstate hholds (hbatch'.unblocked_iff_of_nil.mp hun)⟩

/-- Rounds either exhaust the log or hand out one operation each at least. -/
theorem Valid.deliverRounds (h : log.Valid) (rounds : ℕ) :
    Batch log (deliverRounds rounds log).1 (deliverRounds rounds log).2 ∧
      (VaultLog.deliverRounds rounds log).1.Valid ∧
      ((VaultLog.deliverRounds rounds log).1.Exhausted ∨
        rounds ≤ (VaultLog.deliverRounds rounds log).2.length) := by
  induction rounds generalizing log with
  | zero => exact ⟨.refl log, h, .inr (Nat.zero_le _)⟩
  | succ rounds ih =>
    obtain ⟨hbatch, hvalid, hexhausted⟩ := h.deliverRound
    obtain ⟨hbatch', hvalid', hmore⟩ := ih hvalid
    rw [VaultLog.deliverRounds]
    dsimp only
    split_ifs with hnil
    · rw [hnil] at hbatch
      exact ⟨hbatch, hvalid, .inl (hexhausted hnil)⟩
    · refine ⟨hbatch.trans hbatch', hvalid', hmore.imp id fun hle => ?_⟩
      have := List.length_pos_iff.mpr hnil
      rw [List.length_append]
      omega

theorem mem_allLinks : link ∈ log.allLinks ↔ ∃ d s, log.linkAt d s = some link := by
  simp only [allLinks, List.mem_flatMap, Prod.exists, ExtTreeMap.mem_toList_iff_getElem?_eq_some,
    List.mem_map, exists_eq_right, linkAt, Option.bind_eq_some_iff]
  constructor
  · rintro ⟨d, chain, hchain, s, hs⟩
    exact ⟨d, s, chain, hchain, hs⟩
  · rintro ⟨d, s, chain, hchain, hs⟩
    exact ⟨d, chain, hchain, s, hs⟩

/-- A batch hands out no more operations than there are links. -/
theorem Batch.length_le (h : Batch log log' out) : out.length ≤ log.allLinks.length := by
  have hsubset : out.map Delivery.dot ⊆ log.allLinks.map fun l => l.header.dot := by
    intro dot hdot
    obtain ⟨x, hx, rfl⟩ := List.mem_map.mp hdot
    obtain ⟨l, hl, hdot, -⟩ := h.link_of_mem hx
    exact hdot ▸ List.mem_map_of_mem (mem_allLinks.mpr ⟨_, _, hl⟩)
  simpa only [List.length_map] using (h.nodup.subperm hsubset).length_le

/-- The deliveries are one batch, which leaves nothing that may be delivered. -/
theorem Valid.takeDeliveries (h : log.Valid) :
    Batch log log.takeDeliveries.1 log.takeDeliveries.2 ∧ log.takeDeliveries.1.Valid ∧
      log.takeDeliveries.1.Exhausted := by
  obtain ⟨hbatch, hvalid, hmore⟩ := h.deliverRounds (log.allLinks.length + 1)
  refine ⟨hbatch, hvalid, hmore.resolve_right fun hle => ?_⟩
  have := hbatch.length_le
  omega

end VaultLog

end RizzyVault.Sync.Causal
