import RizzyVault.Sync.Causal.Runs

/-!
# Deliveries as a fixed point

The deliveries look only at dirty items, at the ready index and at cached frontiers. They hand out
what a scan of every link of every chain would, repeated until it adds nothing, and what they leave
behind is listed as waiting with a reason that is true of it.

## Main definitions

* `VaultLog.rescan`: one scan of every link.
* `VaultLog.ReasonHolds`: a reason to wait is true of a link.

## Main results

* `VaultLog.after_takeDeliveries_eq_lfp`: the deliveries are the least fixed point of the scan.
* `VaultLog.after_waiting`: what waits after the deliveries.
-/

open RizzyVault.Lib

namespace RizzyVault.Sync.Causal

open Std (ExtTreeMap ExtTreeSet)

namespace VaultLog

variable {log log' : VaultLog} {device : DeviceId} {seq : ℕ} {link : Link} {itemId : ItemId}
  {dot : Dot} {out : List Delivery}

/-! ### The scan -/

/-- Whether the settled vector of an item covers a dot once the links at some dots are settled. -/
def coversAt (log : VaultLog) (known : Set Dot) (itemId : ItemId) (dot : Dot) : Prop :=
  (log.settled itemId).covers dot ∨ ∃ y ∈ known, ∃ l, log.link y = some l ∧
    l.header.itemId = itemId ∧ y.deviceId = dot.deviceId ∧ dot.seq ≤ y.seq

/-- Whether a scan of every link delivers the one at a dot once the links at some dots are settled:
its body is ready, and it is covered, or every earlier link of its chain and its causal context
is. -/
def Scanned (log : VaultLog) (known : Set Dot) (dot : Dot) : Prop :=
  ∃ link, log.link dot = some link ∧ link.state = .ready ∧
    (log.coversAt known link.header.itemId dot ∨
      ((∀ s l, log.linkAt dot.deviceId s = some l → s < dot.seq →
          log.coversAt known l.header.itemId l.header.dot) ∧
        ∀ c ∈ link.header.causalContext.dots, log.coversAt known link.header.itemId c))

theorem coversAt_mono {known known' : Set Dot} (h : known ⊆ known')
    (hcov : log.coversAt known itemId dot) : log.coversAt known' itemId dot :=
  hcov.imp id fun ⟨y, hy, hl⟩ => ⟨y, h hy, hl⟩

/-- One scan of every link. -/
def rescan (log : VaultLog) : Set Dot →o Set Dot where
  toFun known := {dot | log.Scanned known dot}
  monotone' _ _ h _ := fun ⟨link, hl, hready, hwhy⟩ =>
    ⟨link, hl, hready, hwhy.imp (coversAt_mono h) fun ⟨hbefore, hcontext⟩ =>
      ⟨fun s l hl hs => coversAt_mono h (hbefore s l hl hs),
        fun c hc => coversAt_mono h (hcontext c hc)⟩⟩

theorem mem_rescan {known : Set Dot} : dot ∈ log.rescan known ↔ log.Scanned known dot := Iff.rfl

/-- What a batch settles is what its dots settle. -/
theorem Batch.coversAt_iff (h : Batch log log' out) :
    log.coversAt {dot | dot ∈ out.map Delivery.dot} itemId dot ↔
      (log'.settled itemId).covers dot := by
  rw [h.settled]
  refine or_congr_right ?_
  constructor
  · rintro ⟨y, hy, l, hl, hi, hyd⟩
    obtain ⟨x, hx, rfl⟩ := List.mem_map.mp hy
    obtain ⟨l', hl', -, -, hi', -⟩ := h.link_of_mem hx
    cases hl.symm.trans hl'
    exact ⟨x, hx, hi'.symm.trans hi, hyd⟩
  · rintro ⟨x, hx, hi, hxd⟩
    obtain ⟨l, hl, -, -, hi', -⟩ := h.link_of_mem hx
    exact ⟨x.dot, List.mem_map_of_mem hx, l, hl, hi'.trans hi, hxd⟩

theorem Batch.coversAt_of_coversWith (h : Batch log log' out) {known : Set Delivery}
    (hknown : known ⊆ {x | x ∈ out}) (hcov : log.coversWith known itemId dot) :
    log.coversAt (Delivery.dot '' known) itemId dot := by
  refine hcov.imp id fun ⟨y, hy, hi, hyd⟩ => ?_
  obtain ⟨l, hl, -, -, hi', -⟩ := h.link_of_mem (hknown hy)
  exact ⟨y.dot, Set.mem_image_of_mem _ hy, l, hl, hi'.trans hi, hyd⟩

/-- What a batch hands out follows scan by scan. -/
theorem Batch.subset_lfp (h : Batch log log' out) :
    {dot | dot ∈ out.map Delivery.dot} ⊆ log.rescan.lfp := by
  have hstep : ∀ l : List Delivery, l <:+: out → ∀ known : Set Delivery, known ⊆ {x | x ∈ out} →
      Justified log.Allows known l →
      Justified (fun K dot => dot ∈ log.rescan K) (Delivery.dot '' known) (l.map Delivery.dot) := by
    intro l
    induction l with
    | nil => exact fun _ _ _ _ => trivial
    | cons x l ih =>
      rintro hl known hknown ⟨⟨link, hlink, hdot, hready, hi, -, hwhy⟩, hrest⟩
      have hx : x ∈ out := hl.subset List.mem_cons_self
      refine ⟨⟨link, hlink, hready, ?_⟩, ?_⟩
      · split_ifs at hwhy
        · rw [hi]
          exact .inl (h.coversAt_of_coversWith hknown hwhy)
        · rw [Unblocked, hdot] at hwhy
          exact .inr ⟨fun s l hl hs => h.coversAt_of_coversWith hknown (hwhy.1 s l hl hs),
            fun c hc => h.coversAt_of_coversWith hknown (hwhy.2 c hc)⟩
      · rw [← Set.image_insert_eq]
        exact ih ((List.infix_cons (List.infix_refl l)).trans hl) _
          (Set.insert_subset hx hknown) hrest
  have hjust := hstep out (List.infix_refl out) ∅ (Set.empty_subset _) h.justified
  exact hjust.subset_lfp (by simp)

/-- A batch that leaves nothing that may be delivered hands out the least fixed point. -/
theorem Batch.eq_lfp (h : Batch log log' out) (hcoherent : log.Coherent) (hex : log'.Exhausted) :
    {dot | dot ∈ out.map Delivery.dot} = log.rescan.lfp := by
  refine Set.Subset.antisymm h.subset_lfp (log.rescan.lfp_le fun dot hdot => ?_)
  obtain ⟨link, hlink, hready, hwhy⟩ := hdot
  have hldot : link.header.dot = dot := hcoherent.dot_eq hlink rfl rfl
  by_contra hnot
  have hlink' : log'.linkAt dot.deviceId dot.seq = some link := by
    rw [h.linkAt, show log.linkAt dot.deviceId dot.seq = some link from hlink, Option.map_some,
      Link.deliver_of_notMem (hldot ▸ hnot)]
  obtain ⟨hholds, hunblocked⟩ := hex _ _ _ hlink' hready
  rcases hwhy with hcov | ⟨hbefore, hcontext⟩
  · refine hholds ?_
    rw [holds, hldot]
    exact h.coversAt_iff.mp hcov
  · refine hunblocked (unblocked_empty_iff.mpr ⟨fun s l' hl' hs => ?_, ?_⟩)
    · rw [hldot] at hl' hs
      obtain ⟨l, hl, rfl⟩ := h.of_linkAt hl'
      rw [holds, Link.header_deliver]
      exact h.coversAt_iff.mp (hbefore s l hl hs)
    · exact VersionVector.le_iff_forall_mem_dots.mpr fun c hc => h.coversAt_iff.mp (hcontext c hc)

/-- An exhausted log hands out nothing. -/
theorem Batch.eq_nil_of_exhausted (h : Batch log log' out) (hex : log.Exhausted) : out = [] := by
  cases out with
  | nil => rfl
  | cons x out =>
    obtain ⟨link, hlink, hdot, hready, hi, -, hwhy⟩ := h.justified.1
    obtain ⟨hholds, hunblocked⟩ := hex _ _ _ hlink hready
    split_ifs at hwhy
    · rw [coversWith_empty] at hwhy
      rw [holds, hi, hdot] at hholds
      exact absurd hwhy hholds
    · exact absurd hwhy hunblocked

/-- Whatever calls came before, the deliveries are those of a scan of every link repeated until it
adds nothing, the settled vectors grow by exactly them, and a second call hands out nothing. -/
theorem after_takeDeliveries_eq_lfp (vaultId : VaultId) (own : DeviceId) (calls : List Call) :
    let log := after vaultId own calls
    {dot | dot ∈ log.takeDeliveries.2.map Delivery.dot} = log.rescan.lfp ∧
      (∀ i dot, (log.takeDeliveries.1.settled i).covers dot ↔ log.coversAt log.rescan.lfp i dot) ∧
      log.takeDeliveries.1.takeDeliveries.2 = [] := by
  intro log
  have h : log.Valid := valid_after vaultId own calls
  obtain ⟨hbatch, hvalid, hex⟩ := h.takeDeliveries
  have hlfp := hbatch.eq_lfp h.toCoherent hex
  refine ⟨hlfp, fun i dot => ?_, hvalid.takeDeliveries.1.eq_nil_of_exhausted hex⟩
  rw [← hlfp]
  exact hbatch.coversAt_iff.symm

/-! ### What waits -/

/-- Whether a link is held back: neither settled nor rejected by a revocation. -/
def heldBack (items : ExtTreeMap ItemId VersionVector) (link : Link) : Bool :=
  ¬ (Causal.settled items link ∨ link.state = .revoked)

/-- What is said of a link after others of its chain. -/
def reasonFor (items : ExtTreeMap ItemId VersionVector) (before : List Link) (link : Link) :
    Option WaitReason :=
  match link.state, (before.find? (heldBack items)).map fun l => l.header.dot with
  | .waiting, _ => some .body
  | .rejected, _ => some .rejected
  | .bodiless, _ => some .uncovered
  | _, some first => some (.chain first)
  | _, none => (missingContext items link.header).map .context

theorem waitingFrom_cons {items : ExtTreeMap ItemId VersionVector} {before links : List Link}
    {reason : WaitReason} (hheld : heldBack items link)
    (hreason : reasonFor items before link = some reason) :
    waitingFrom items ((before.find? (heldBack items)).map fun l => l.header.dot) (link :: links) =
      ⟨link.header.dot, link.header.itemId, reason⟩ ::
        waitingFrom items (((before ++ [link]).find? (heldBack items)).map fun l => l.header.dot)
          links := by
  have hnot : ¬ (Causal.settled items link ∨ link.state = .revoked) := of_decide_eq_true hheld
  have hfirst : ((before ++ [link]).find? (heldBack items)).map (fun l => l.header.dot) =
      ((before.find? (heldBack items)).map fun l => l.header.dot).or (some link.header.dot) := by
    rw [List.find?_append, List.find?_singleton, if_pos hheld]
    cases before.find? (heldBack items) <;> rfl
  rw [hfirst]
  simp only [waitingFrom, if_neg hnot]
  unfold reasonFor at hreason
  cases hstate : link.state <;> cases hfind : before.find? (heldBack items) <;>
    simp only [hstate, hfind, Option.map_none, Option.map_some] at hreason ⊢ <;>
    first
      | rw [hreason]
      | cases hreason; rfl

/-- Where every link that is held back has a reason, all of them are listed, each with its own. -/
theorem waitingFrom_eq {items : ExtTreeMap ItemId VersionVector} (before links : List Link)
    (hreason : ∀ pre l post, before ++ links = pre ++ l :: post → heldBack items l →
      (reasonFor items pre l).isSome) :
    (waitingFrom items ((before.find? (heldBack items)).map fun l => l.header.dot) links).map
        Waiting.dot = (links.filter (heldBack items)).map (fun l => l.header.dot) ∧
      ∀ w ∈ waitingFrom items ((before.find? (heldBack items)).map fun l => l.header.dot) links,
        ∃ pre l post, before ++ links = pre ++ l :: post ∧ heldBack items l ∧
          w.dot = l.header.dot ∧ w.itemId = l.header.itemId ∧
          reasonFor items pre l = some w.reason := by
  induction links generalizing before with
  | nil => exact ⟨rfl, fun w hw => absurd hw List.not_mem_nil⟩
  | cons link links ih =>
    have happend : before ++ [link] ++ links = before ++ link :: links := by simp
    obtain ⟨hdots, hall⟩ := ih (before ++ [link]) (happend ▸ hreason)
    rw [happend] at hall
    by_cases hheld : heldBack items link
    · obtain ⟨reason, hwhy⟩ := Option.isSome_iff_exists.mp (hreason before link links rfl hheld)
      rw [waitingFrom_cons hheld hwhy]
      refine ⟨?_, fun w hw => ?_⟩
      · rw [List.map_cons, hdots, List.filter_cons_of_pos hheld, List.map_cons]
      · rcases List.mem_cons.mp hw with rfl | hw
        · exact ⟨before, link, links, rfl, hheld, rfl, rfl, hwhy⟩
        · exact hall w hw
    · have hskip : Causal.settled items link ∨ link.state = .revoked := by
        by_contra hnot
        exact hheld (decide_eq_true hnot)
      have hfirst : (before ++ [link]).find? (heldBack items) = before.find? (heldBack items) := by
        rw [List.find?_append, List.find?_singleton, if_neg hheld, Option.or_none]
      have hstep : ∀ first, waitingFrom items first (link :: links) =
          waitingFrom items first links := fun first => by
        simp only [waitingFrom, if_pos hskip]
      rw [hfirst] at hdots hall
      rw [hstep]
      refine ⟨?_, hall⟩
      rw [hdots, List.filter_cons_of_neg hheld]

/-- Whether a reason to wait is true of a link. -/
def ReasonHolds (log : VaultLog) (link : Link) : WaitReason → Prop
  | .body => link.state = .waiting
  | .rejected => link.state = .rejected
  | .uncovered => link.state = .bodiless
  | .chain first => link.state = .ready ∧ first.deviceId = link.header.dot.deviceId ∧
      first.seq < link.header.dot.seq ∧ ∃ l, log.link first = some l ∧ ¬ log.holds l ∧
        ∀ s l', log.linkAt first.deviceId s = some l' → s < first.seq → log.holds l'
  | .context missing => link.state = .ready ∧
      missing ∈ link.header.causalContext.dots ∧
      ¬ (log.settled link.header.itemId).covers missing ∧
      ∀ s l, log.linkAt link.header.dot.deviceId s = some l → s < link.header.dot.seq → log.holds l

/-- The links of a device from its frontier on. -/
def openLinks (log : VaultLog) (device : DeviceId) : List Link :=
  (log.linksFrom device (log.frontier device)).map Prod.snd

theorem Coherent.mem_openLinks (h : log.Coherent) (hl : link ∈ log.openLinks device) :
    log.linkAt device link.header.dot.seq = some link ∧ link.header.dot.deviceId = device := by
  obtain ⟨e, he, rfl⟩ := List.mem_map.mp hl
  obtain ⟨-, hlink⟩ := mem_linksFrom.mp he
  have hok := h.link _ _ _ hlink
  rw [hok.seq_eq]
  exact ⟨hlink, hok.deviceId⟩

/-- A link that a held-back link of its chain comes after is settled, or listed before it. -/
theorem Coherent.before_openLinks (h : log.Coherent) {pre post : List Link}
    (heq : log.openLinks device = pre ++ link :: post) {s : ℕ} {l : Link}
    (hl : log.linkAt device s = some l) (hs : s < link.header.dot.seq) : log.holds l ∨ l ∈ pre := by
  by_cases hfrontier : s < log.frontier device
  · exact .inl (h.frontier device s l hl hfrontier)
  · have hmem : l ∈ log.openLinks device :=
      List.mem_map.mpr ⟨(s, l), mem_linksFrom.mpr ⟨not_lt.mp hfrontier, hl⟩, rfl⟩
    have hsorted : (log.openLinks device).Pairwise fun a b => a.header.dot.seq < b.header.dot.seq := by
      refine List.pairwise_map.mpr (log.pairwise_linksFrom.imp_of_mem fun ha hb hab => ?_)
      rw [(h.link _ _ _ (mem_linksFrom.mp ha).2).seq_eq, (h.link _ _ _ (mem_linksFrom.mp hb).2).seq_eq]
      exact hab
    have hseq := (h.link _ _ _ hl).seq_eq
    rw [heq] at hmem hsorted
    obtain ⟨-, hcons, -⟩ := List.pairwise_append.mp hsorted
    rcases List.mem_append.mp hmem with hmem | hmem
    · exact .inr hmem
    · rcases List.mem_cons.mp hmem with rfl | hmem
      · omega
      · have := (List.pairwise_cons.mp hcons).1 l hmem
        omega

theorem heldBack_iff (h : log.Coherent) (hl : log.linkAt device seq = some link) :
    heldBack log.items link ↔ ¬ log.holds link ∧ link.state ≠ .revoked := by
  rw [heldBack, decide_eq_true_eq, not_or, h.settled_iff hl]

/-- Before a held-back link, a link that is not held back is settled: a revocation that rejects one
rejects every later one. -/
theorem Coherent.holds_of_not_heldBack (h : log.Coherent) (hl : log.linkAt device seq = some link)
    (hheld : heldBack log.items link) {s : ℕ} {l : Link} (hl' : log.linkAt device s = some l)
    (hs : s < seq) (hnot : ¬ heldBack log.items l) : log.holds l := by
  rw [heldBack_iff h hl] at hheld
  rw [heldBack_iff h hl', not_and_or, not_not, not_not] at hnot
  refine hnot.resolve_right fun hrevoked => ?_
  obtain ⟨c, hc, hlt⟩ := (h.link _ _ _ hl').revoked hrevoked
  have hok := h.link _ _ _ hl
  exact (hok.cutoff c hc (hlt.trans hs)).elim (fun hd => hheld.1 (hok.delivered hd)) hheld.2

/-- In an exhausted log every held-back link has a reason, and it is true of the link. -/
theorem Exhausted.reasonFor (h : log.Coherent) (hex : log.Exhausted) {pre post : List Link}
    (heq : log.openLinks device = pre ++ link :: post) (hheld : heldBack log.items link) :
    ∃ reason, reasonFor log.items pre link = some reason ∧ log.ReasonHolds link reason := by
  have hmem : link ∈ log.openLinks device := heq ▸ List.mem_append_right _ List.mem_cons_self
  obtain ⟨hlink, hdev⟩ := h.mem_openLinks hmem
  obtain ⟨hholds, hrevoked⟩ := (heldBack_iff h hlink).mp hheld
  have hpre : ∀ l ∈ pre, log.linkAt device l.header.dot.seq = some l ∧
      l.header.dot.deviceId = device := fun l hl =>
    h.mem_openLinks (heq ▸ List.mem_append_left _ hl)
  unfold VaultLog.reasonFor
  cases hstate : link.state with
  | waiting => exact ⟨.body, rfl, hstate⟩
  | rejected => exact ⟨.rejected, rfl, hstate⟩
  | bodiless => exact ⟨.uncovered, rfl, hstate⟩
  | delivered => exact absurd ((h.link _ _ _ hlink).delivered hstate) hholds
  | revoked => exact absurd hstate hrevoked
  | ready =>
    cases hfind : pre.find? (heldBack log.items) with
    | some first =>
      obtain ⟨hfirst, as, bs, hsplit, has⟩ := List.find?_eq_some_iff_append.mp hfind
      have hfmem : first ∈ pre := hsplit ▸ List.mem_append_right _ List.mem_cons_self
      obtain ⟨hflink, hfdev⟩ := hpre first hfmem
      have hfeq : log.openLinks device = as ++ first :: (bs ++ link :: post) := by
        rw [heq, hsplit]
        simp
      have hlt : first.header.dot.seq < link.header.dot.seq := by
        by_contra hge
        have hsorted : (log.openLinks device).Pairwise
            fun a b => a.header.dot.seq < b.header.dot.seq := by
          refine List.pairwise_map.mpr (log.pairwise_linksFrom.imp_of_mem fun ha hb hab => ?_)
          rw [(h.link _ _ _ (mem_linksFrom.mp ha).2).seq_eq,
            (h.link _ _ _ (mem_linksFrom.mp hb).2).seq_eq]
          exact hab
        rw [heq] at hsorted
        exact hge ((List.pairwise_append.mp hsorted).2.2 _ hfmem _ List.mem_cons_self)
      refine ⟨.chain first.header.dot, rfl, hstate, hfdev.trans hdev.symm, hlt, first, ?_,
        ((heldBack_iff h hflink).mp hfirst).1, fun s l hl hs => ?_⟩
      · rw [VaultLog.link, hfdev, hflink]
      · rw [hfdev] at hl
        refine (h.before_openLinks hfeq hl hs).elim id fun hmem => ?_
        exact h.holds_of_not_heldBack hflink hfirst hl hs (by simpa using has l hmem)
    | none =>
      have hbefore : ∀ s l, log.linkAt device s = some l → s < link.header.dot.seq →
          log.holds l := by
        intro s l hl hs
        refine (h.before_openLinks heq hl hs).elim id fun hmem => ?_
        exact h.holds_of_not_heldBack hlink hheld hl hs (List.find?_eq_none.mp hfind l hmem)
      cases hmissing : missingContext log.items link.header with
      | some missing =>
        have hfound := List.find?_some hmissing
        rw [decide_eq_true_eq, exists_covers_iff] at hfound
        exact ⟨.context missing, rfl, hstate, List.mem_of_find?_eq_some hmissing, hfound,
          hdev.symm ▸ hbefore⟩
      | none =>
        refine absurd ?_ (hex _ _ _ hlink hstate).2
        exact unblocked_empty_iff.mpr ⟨hdev.symm ▸ hbefore, missingContext_eq_none.mp hmissing⟩

/-- Nothing is held back silently: right after the deliveries, what waits is exactly the accepted
links that are neither settled nor rejected by a revocation, in order, each with a reason that is
true of it. -/
theorem after_waiting (vaultId : VaultId) (own : DeviceId) (calls : List Call) :
    let log := (after vaultId own calls).takeDeliveries.1
    log.waiting.map Waiting.dot = (log.allLinks.filter fun l => ¬ (Causal.settled log.items l ∨
        l.state = .revoked)).map (fun l => l.header.dot) ∧
      ∀ w ∈ log.waiting, ∃ l, log.link w.dot = some l ∧ w.itemId = l.header.itemId ∧
        log.ReasonHolds l w.reason := by
  intro log
  obtain ⟨-, hvalid, hex⟩ := (valid_after vaultId own calls).takeDeliveries
  have h : log.Coherent := hvalid.toCoherent
  have hentry : ∀ entry ∈ log.chains.toList,
      (entry.2.links.toList.filter fun e => entry.2.frontier ≤ e.1).map Prod.snd =
        log.openLinks entry.1 ∧ entry.2.links.toList.map Prod.snd =
        (log.linksFrom entry.1 0).map Prod.snd := by
    intro entry hentry
    have hchain := ExtTreeMap.mem_toList_iff_getElem?_eq_some.mp hentry
    simp only [openLinks, linksFrom, VaultLog.frontier, hchain, Option.elim_some, zero_le,
      decide_true, List.filter_true, and_self]
  have hwait : ∀ device, (waitingFrom log.items none (log.openLinks device)).map Waiting.dot =
      ((log.openLinks device).filter (heldBack log.items)).map (fun l => l.header.dot) ∧
      ∀ w ∈ waitingFrom log.items none (log.openLinks device), ∃ pre l post,
        log.openLinks device = pre ++ l :: post ∧ heldBack log.items l ∧ w.dot = l.header.dot ∧
          w.itemId = l.header.itemId ∧ reasonFor log.items pre l = some w.reason :=
    fun device => waitingFrom_eq [] (log.openLinks device) fun pre l post heq hheld => by
      obtain ⟨reason, hreason, -⟩ := hex.reasonFor h heq hheld
      exact Option.isSome_iff_exists.mpr ⟨reason, hreason⟩
  refine ⟨?_, fun w hw => ?_⟩
  · rw [waiting, allLinks, List.map_flatMap, List.filter_flatMap, List.map_flatMap]
    refine List.flatMap_congr fun entry hmem => ?_
    obtain ⟨hopen, hfrom⟩ := hentry entry hmem
    rw [hopen, hfrom, (hwait entry.1).1]
    -- below the frontier every link is settled
    congr 1
    rw [openLinks, List.filter_map, List.filter_map, linksFrom_eq, linksFrom_eq, List.filter_filter,
      List.filter_filter]
    congr 1
    refine List.filter_congr fun e he => ?_
    have hl := getElem?_links.symm.trans (ExtTreeMap.mem_toList_iff_getElem?_eq_some.mp he)
    change (heldBack log.items e.2 && decide (log.frontier entry.1 ≤ e.1)) =
      (heldBack log.items e.2 && decide (0 ≤ e.1))
    by_cases hlt : log.frontier entry.1 ≤ e.1
    · simp [hlt]
    · have hholds := h.frontier _ _ _ hl (not_le.mp hlt)
      have hnot : heldBack log.items e.2 = false := by
        rw [← Bool.not_eq_true, heldBack_iff h hl]
        exact fun hh => hh.1 hholds
      simp [hnot]
  · obtain ⟨entry, hmem, hw⟩ := List.mem_flatMap.mp hw
    rw [(hentry entry hmem).1] at hw
    obtain ⟨pre, l, post, heq, hheld, hdot, hitem, hreason⟩ := (hwait entry.1).2 w hw
    obtain ⟨reason, hreason', hholds⟩ := hex.reasonFor h heq hheld
    cases hreason.symm.trans hreason'
    obtain ⟨hl, hdev⟩ := h.mem_openLinks (heq ▸ List.mem_append_right _ List.mem_cons_self)
    refine ⟨l, ?_, hitem, hholds⟩
    rw [hdot, VaultLog.link, hdev, hl]

end VaultLog

end RizzyVault.Sync.Causal
