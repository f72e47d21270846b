import RizzyVault.Lib.Closure
import RizzyVault.Sync.Causal.Steps

/-!
# What the causal log delivers

Every part of `take_deliveries` is one step: it hands out operations with a ready body, each
allowed by the settled vectors and by what is handed out before it, joins them into the settled
vectors, and keeps the invariant. The rounds end, and what is left with a ready body may not be
delivered.

## Main definitions

* `VaultLog.coversWith`, `VaultLog.Unblocked`, `VaultLog.Allows`: when an operation may be
  delivered.
* `VaultLog.Batch`: what handing out a list of operations changes.
* `VaultLog.Exhausted`: nothing may be delivered.

## Main results

* `VaultLog.Batch.trans`: batches compose.
* `VaultLog.Valid.takeDeliveries`: the deliveries are one batch, and the log is exhausted after it.
-/

open RizzyVault.Lib

namespace RizzyVault.Sync.Causal

open Std (ExtTreeMap ExtTreeSet)

/-- A link, delivered if its dot is among some. -/
def Link.deliver (dots : List Dot) (link : Link) : Link :=
  if link.header.dot ∈ dots then { link with state := .delivered } else link

section Deliver

variable {dots dots' : List Dot} {link : Link}

@[simp]
theorem Link.header_deliver : (link.deliver dots).header = link.header := by
  unfold deliver
  split_ifs <;> rfl

theorem Link.deliver_of_mem (h : link.header.dot ∈ dots) :
    link.deliver dots = { link with state := .delivered } :=
  if_pos h

theorem Link.deliver_of_notMem (h : link.header.dot ∉ dots) : link.deliver dots = link := if_neg h

theorem Link.deliver_deliver : (link.deliver dots).deliver dots' = link.deliver (dots ++ dots') := by
  by_cases h : link.header.dot ∈ dots
  · rw [deliver_of_mem h, deliver_of_mem (List.mem_append_left _ h)]
    unfold deliver
    split_ifs <;> rfl
  · rw [deliver_of_notMem h]
    simp only [deliver, List.mem_append, h, false_or]

/-- A link that is ready after deliveries is not among them. -/
theorem Link.of_deliver_ready (h : (link.deliver dots).state = .ready) :
    link.deliver dots = link ∧ link.header.dot ∉ dots := by
  by_cases hmem : link.header.dot ∈ dots
  · rw [deliver_of_mem hmem] at h
    cases h
  · exact ⟨deliver_of_notMem hmem, hmem⟩

end Deliver

namespace VaultLog

/-! ### When an operation may be delivered -/

/-- Whether the settled vector of an item covers a dot once operations are delivered. -/
def coversWith (log : VaultLog) (known : Set Delivery) (itemId : ItemId) (dot : Dot) : Prop :=
  (log.settled itemId).covers dot ∨
    ∃ y ∈ known, y.itemId = itemId ∧ y.dot.deviceId = dot.deviceId ∧ dot.seq ≤ y.dot.seq

/-- Every earlier link of a link's chain is settled, and its causal context is, once operations are
delivered. -/
def Unblocked (log : VaultLog) (known : Set Delivery) (link : Link) : Prop :=
  (∀ s l, log.linkAt link.header.dot.deviceId s = some l → s < link.header.dot.seq →
    log.coversWith known l.header.itemId l.header.dot) ∧
  ∀ c ∈ link.header.causalContext.dots, log.coversWith known link.header.itemId c

/-- Whether an operation may be delivered once others are: its link has a ready body, and it is
covered, or fresh with nothing before it missing. -/
def Allows (log : VaultLog) (known : Set Delivery) (x : Delivery) : Prop :=
  ∃ link, log.link x.dot = some link ∧ link.header.dot = x.dot ∧ link.state = .ready ∧
    link.header.itemId = x.itemId ∧ link.header.hlc = x.hlc ∧
    if x.covered then log.coversWith known x.itemId x.dot else log.Unblocked known link

/-- What handing out operations changes. -/
structure Batch (log log' : VaultLog) (out : List Delivery) : Prop where
  vaultId : log'.vaultId = log.vaultId
  own : log'.own = log.own
  cutoffs : log'.cutoffs = log.cutoffs
  uploads : log'.uploads = log.uploads
  absorbed : log'.absorbed = log.absorbed
  head : ∀ d, log'.head d = log.head d
  linkAt : ∀ d s, log'.linkAt d s = (log.linkAt d s).map (Link.deliver (out.map Delivery.dot))
  settled : ∀ i dot, (log'.settled i).covers dot ↔ log.coversWith {x | x ∈ out} i dot
  nodup : (out.map Delivery.dot).Nodup
  justified : Justified log.Allows ∅ out

/-- Nothing with a ready body may be delivered. -/
def Exhausted (log : VaultLog) : Prop :=
  ∀ d s l, log.linkAt d s = some l → l.state = .ready → ¬ log.holds l ∧ ¬ log.Unblocked ∅ l

variable {log log' log'' : VaultLog} {device : DeviceId} {seq : ℕ} {link : Link} {itemId : ItemId}
  {dot : Dot} {known known' : Set Delivery} {x : Delivery} {out out' : List Delivery}

@[simp]
theorem coversWith_empty : log.coversWith ∅ itemId dot ↔ (log.settled itemId).covers dot := by
  simp [coversWith]

theorem coversWith_mono (h : known ⊆ known') (hcov : log.coversWith known itemId dot) :
    log.coversWith known' itemId dot :=
  hcov.imp id fun ⟨y, hy, hyd⟩ => ⟨y, h hy, hyd⟩

theorem coversWith_of_le {a b : Dot} (h : log.coversWith known itemId b)
    (hd : b.deviceId = a.deviceId) (hs : a.seq ≤ b.seq) : log.coversWith known itemId a :=
  h.imp (VersionVector.covers_of_le hd.symm hs) fun ⟨y, hy, hi, hyd, hle⟩ =>
    ⟨y, hy, hi, hyd.trans hd, hs.trans hle⟩

theorem unblocked_empty_iff : log.Unblocked ∅ link ↔
    (∀ s l, log.linkAt link.header.dot.deviceId s = some l → s < link.header.dot.seq →
      log.holds l) ∧ link.header.causalContext ≤ log.settled link.header.itemId := by
  simp only [Unblocked, coversWith_empty, VersionVector.le_iff_forall_mem_dots]
  rfl

namespace Batch

theorem link_eq (h : Batch log log' out) (dot : Dot) :
    log'.link dot = (log.link dot).map (Link.deliver (out.map Delivery.dot)) :=
  h.linkAt _ _

theorem cutoff (h : Batch log log' out) (d : DeviceId) : log'.cutoff d = log.cutoff d := by
  rw [VaultLog.cutoff, h.cutoffs, VaultLog.cutoff]

theorem settled_le (h : Batch log log' out) (i : ItemId) : log.settled i ≤ log'.settled i :=
  fun dot hdot => (h.settled i dot).mpr (.inl hdot)

/-- A change that hands out nothing and keeps links and settled vectors. -/
theorem of_same (hvault : log'.vaultId = log.vaultId) (hown : log'.own = log.own)
    (hcutoffs : log'.cutoffs = log.cutoffs) (huploads : log'.uploads = log.uploads)
    (habsorbed : log'.absorbed = log.absorbed) (hhead : ∀ d, log'.head d = log.head d)
    (hlinkAt : ∀ d s, log'.linkAt d s = log.linkAt d s)
    (hsettled : ∀ i, log'.settled i = log.settled i) : Batch log log' [] where
  vaultId := hvault
  own := hown
  cutoffs := hcutoffs
  uploads := huploads
  absorbed := habsorbed
  head := hhead
  linkAt d s := by
    rw [hlinkAt, List.map_nil]
    cases log.linkAt d s with
    | none => rfl
    | some l => rw [Option.map_some, Link.deliver_of_notMem List.not_mem_nil]
  settled i dot := by simp [hsettled, coversWith]
  nodup := List.nodup_nil
  justified := trivial

theorem refl (log : VaultLog) : Batch log log [] :=
  .of_same rfl rfl rfl rfl rfl (fun _ => rfl) (fun _ _ => rfl) fun _ => rfl

theorem linkAt_of_nil (h : Batch log log' []) (d : DeviceId) (s : ℕ) :
    log'.linkAt d s = log.linkAt d s := by
  rw [h.linkAt, List.map_nil]
  cases log.linkAt d s with
  | none => rfl
  | some l => rw [Option.map_some, Link.deliver_of_notMem List.not_mem_nil]

theorem settled_of_nil (h : Batch log log' []) (i : ItemId) : log'.settled i = log.settled i :=
  VersionVector.ext_covers fun dot => by simp [h.settled, coversWith]

/-- What a link was before the operations were handed out. -/
theorem of_linkAt (h : Batch log log' out) {l' : Link} (hl' : log'.linkAt device seq = some l') :
    ∃ l, log.linkAt device seq = some l ∧ l' = l.deliver (out.map Delivery.dot) := by
  rw [h.linkAt] at hl'
  obtain ⟨l, hl, heq⟩ := Option.map_eq_some_iff.mp hl'
  exact ⟨l, hl, heq.symm⟩

theorem coversWith_of (h : Batch log log' out) (hknown : known ⊆ known') (hout : {x | x ∈ out} ⊆ known')
    (hcov : log'.coversWith known itemId dot) : log.coversWith known' itemId dot := by
  rcases hcov with hcov | ⟨y, hy, hyd⟩
  · exact coversWith_mono hout ((h.settled _ _).mp hcov)
  · exact .inr ⟨y, hknown hy, hyd⟩

/-- What may be delivered after a batch may be delivered with it. -/
theorem allows_of (h : Batch log log' out) (hknown : known ⊆ known') (hout : {x | x ∈ out} ⊆ known')
    (hx : log'.Allows known x) : log.Allows known' x := by
  obtain ⟨l', hl', hdot, hready, hitem, hhlc, hwhy⟩ := hx
  obtain ⟨l, hl, rfl⟩ := h.of_linkAt hl'
  obtain ⟨heq, -⟩ := Link.of_deliver_ready hready
  rw [heq] at hdot hready hitem hhlc hwhy
  refine ⟨l, hl, hdot, hready, hitem, hhlc, ?_⟩
  split_ifs at hwhy ⊢
  · exact h.coversWith_of hknown hout hwhy
  · refine ⟨fun s l₁ hl₁ hs => ?_, fun c hc => h.coversWith_of hknown hout (hwhy.2 c hc)⟩
    have := hwhy.1 s _ (by rw [h.linkAt, hl₁, Option.map_some]) hs
    rw [Link.header_deliver] at this
    exact h.coversWith_of hknown hout this

/-- Batches compose. -/
theorem trans (h : Batch log log' out) (h' : Batch log' log'' out') :
    Batch log log'' (out ++ out') where
  vaultId := h'.vaultId.trans h.vaultId
  own := h'.own.trans h.own
  cutoffs := h'.cutoffs.trans h.cutoffs
  uploads := h'.uploads.trans h.uploads
  absorbed := h'.absorbed.trans h.absorbed
  head d := (h'.head d).trans (h.head d)
  linkAt d s := by
    rw [h'.linkAt, h.linkAt, Option.map_map, List.map_append]
    exact congrArg (Option.map · _) (funext fun l => Link.deliver_deliver)
  settled i dot := by
    simp only [h'.settled, coversWith, h.settled, or_assoc, Set.mem_ofPred_eq, List.mem_append,
      or_and_right, exists_or]
  nodup := by
    rw [List.map_append]
    refine List.nodup_append'.mpr ⟨h.nodup, h'.nodup, fun a ha ha' => ?_⟩
    obtain ⟨y, hy, rfl⟩ := List.mem_map.mp ha'
    obtain ⟨i, hi, rfl⟩ := List.mem_iff_getElem.mp hy
    obtain ⟨l', hl', hdot, hready, -⟩ := h'.justified.allowed hi
    obtain ⟨l, -, rfl⟩ := h.of_linkAt hl'
    obtain ⟨heq, hnot⟩ := Link.of_deliver_ready hready
    rw [heq] at hdot
    exact hnot (hdot ▸ ha)
  justified := by
    refine justified_append.mpr ⟨h.justified, h'.justified.mono (fun K K' a _ hK hout hallows =>
      h.allows_of hK ?_ hallows) (Set.empty_subset _)⟩
    rw [Set.empty_union] at hout
    exact hout

/-- The operation is one with a ready body before the batch. -/
theorem link_of_mem (h : Batch log log' out) (hx : x ∈ out) :
    ∃ l, log.link x.dot = some l ∧ l.header.dot = x.dot ∧ l.state = .ready ∧
      l.header.itemId = x.itemId ∧ l.header.hlc = x.hlc := by
  obtain ⟨i, hi, rfl⟩ := List.mem_iff_getElem.mp hx
  obtain ⟨l, hl, hdot, hready, hitem, hhlc, -⟩ := h.justified.allowed hi
  exact ⟨l, hl, hdot, hready, hitem, hhlc⟩

/-- A batch as a change of the log. -/
theorem evolves (h : Batch log log' out) {verified : Set OpHeader} : log.Evolves verified log' where
  vaultId := h.vaultId
  own := h.own
  settled := h.settled_le
  cutoff d c hc := ⟨c, (h.cutoff d).trans hc, le_rfl⟩
  link d s l hl := by
    refine ⟨l.deliver (out.map Delivery.dot), by rw [h.linkAt, hl, Option.map_some],
      .inl Link.header_deliver, fun hdel => ?_⟩
    by_cases hmem : l.header.dot ∈ out.map Delivery.dot
    · rw [Link.deliver_of_mem hmem]
    · rwa [Link.deliver_of_notMem hmem]
  ready d s l' hl' hready := by
    obtain ⟨l, hl, rfl⟩ := h.of_linkAt hl'
    rw [(Link.of_deliver_ready hready).1]
    exact .inl hl
  accepted d s l' hl' hnone := by
    obtain ⟨l, hl, -⟩ := h.of_linkAt hl'
    exact absurd (hnone.symm.trans hl) (by simp)

end Batch

/-! ### Delivering ready links -/

/-- Delivering ready links that are settled then keeps the invariant, if the ready index follows. -/
theorem Coherent.deliverAll (h : log.Coherent) {dots : List Dot}
    (hvault : log'.vaultId = log.vaultId) (hown : log'.own = log.own)
    (hcutoffs : log'.cutoffs = log.cutoffs) (hhead : ∀ d, log'.head d = log.head d)
    (hfrontier : ∀ d, log'.frontier d = log.frontier d)
    (hlinkAt : ∀ d s, log'.linkAt d s = (log.linkAt d s).map (Link.deliver dots))
    (hsettled : ∀ i, log.settled i ≤ log'.settled i)
    (hready : ∀ i d s, s ∈ log'.readySeqs i d ↔
      s ∈ log.readySeqs i d ∧ ∀ dot ∈ dots, ¬ (dot.deviceId = d ∧ dot.seq = s))
    (hdots : ∀ d s l, log.linkAt d s = some l → l.header.dot ∈ dots →
      l.state = .ready ∧ log'.holds l) : log'.Coherent := by
  have hback : ∀ {d s l'}, log'.linkAt d s = some l' →
      ∃ l, log.linkAt d s = some l ∧ l' = l.deliver dots := by
    intro d s l' hl'
    rw [hlinkAt] at hl'
    obtain ⟨l, hl, heq⟩ := Option.map_eq_some_iff.mp hl'
    exact ⟨l, hl, heq.symm⟩
  refine ⟨h.linked_of_headers hhead fun d s => ?_, fun d s l' hl' => ?_, fun d => ?_,
    fun d s l' hl' hlt => ?_, fun i d s => ?_⟩
  · rw [hlinkAt]
    cases log.linkAt d s with
    | none => rfl
    | some l => simp
  · obtain ⟨l, hl, rfl⟩ := hback hl'
    have hok := h.link d s l hl
    by_cases hmem : l.header.dot ∈ dots
    · obtain ⟨hstate, hholds⟩ := hdots d s l hl hmem
      rw [Link.deliver_of_mem hmem]
      exact ⟨hok.vaultId.trans hvault.symm, hok.deviceId, hok.seq_eq, fun _ => hholds,
        fun _ => hholds, fun _ _ _ => .inl rfl, fun h => absurd h (by simp), fun _ => rfl⟩
    · rw [Link.deliver_of_notMem hmem]
      exact hok.mono hvault hown hcutoffs hsettled
  · rw [hfrontier, hhead]
    exact h.frontier_le d
  · obtain ⟨l, hl, rfl⟩ := hback hl'
    rw [hfrontier] at hlt
    rw [holds, Link.header_deliver]
    exact hsettled _ _ (h.frontier d s l hl hlt)
  · rw [hready, h.ready, hlinkAt]
    constructor
    · rintro ⟨⟨l, hl, hstate, hi⟩, hnot⟩
      have hmem : l.header.dot ∉ dots := fun hmem =>
        hnot _ hmem ⟨(h.link d s l hl).deviceId, (h.link d s l hl).seq_eq⟩
      exact ⟨l, by rw [hl, Option.map_some, Link.deliver_of_notMem hmem], hstate, hi⟩
    · rintro ⟨l', hl', hstate, hi⟩
      obtain ⟨l, hl, rfl⟩ := Option.map_eq_some_iff.mp hl'
      obtain ⟨heq, hmem⟩ := Link.of_deliver_ready hstate
      rw [heq] at hstate hi
      refine ⟨⟨l, hl, hstate, hi⟩, fun dot hdot hds => hmem ?_⟩
      rwa [h.dot_eq hl hds.1 hds.2]

/-- What handing out due bodies changes: the links are delivered. -/
structure DueSpec (log : VaultLog) (itemId : ItemId) (due : List Dot) (r : VaultLog × List Delivery) :
    Prop where
  eq : r.1 = { log with chains := r.1.chains }
  head : ∀ d, r.1.head d = log.head d
  frontier : ∀ d, r.1.frontier d = log.frontier d
  linkAt : ∀ d s, r.1.linkAt d s = (log.linkAt d s).map (Link.deliver due)
  out : r.2 = due.filterMap fun dot => (log.link dot).map fun link =>
    ⟨dot, itemId, link.header.hlc, true⟩

theorem deliverDue_spec {due : List Dot}
    (hplaced : ∀ d s l, log.linkAt d s = some l → l.header.dot.deviceId = d ∧ l.header.dot.seq = s) :
    log.DueSpec itemId due (deliverDue itemId log due) := by
  induction due generalizing log with
  | nil =>
    refine ⟨rfl, fun _ => rfl, fun _ => rfl, fun d s => ?_, rfl⟩
    change log.linkAt d s = _
    cases log.linkAt d s with
    | none => rfl
    | some l => rw [Option.map_some, Link.deliver_of_notMem List.not_mem_nil]
  | cons dot due ih =>
    cases hlink : log.link dot with
    | none =>
      have hstep : deliverDue itemId log (dot :: due) = deliverDue itemId log due := by
        simp only [deliverDue, hlink]
      have h := @ih log hplaced
      rw [hstep]
      refine ⟨h.eq, h.head, h.frontier, fun d s => ?_, ?_⟩
      · rw [h.linkAt]
        cases hl : log.linkAt d s with
        | none => rfl
        | some l =>
          -- no link stands at the dot, so no link is delivered for it
          have hne : l.header.dot ≠ dot := by
            rintro rfl
            obtain ⟨hd, hs⟩ := hplaced d s l hl
            rw [VaultLog.link, hd, hs, hl] at hlink
            cases hlink
          simp only [Option.map_some, Link.deliver, List.mem_cons, hne, false_or]
      · rw [h.out, List.filterMap_cons, hlink]
        rfl
    | some link =>
      set log₁ := log.modifyLink dot.deviceId dot.seq fun link => { link with state := .delivered }
        with hlog₁
      have hstep : deliverDue itemId log (dot :: due) = ((deliverDue itemId log₁ due).1,
          ⟨dot, itemId, link.header.hlc, true⟩ :: (deliverDue itemId log₁ due).2) := by
        simp only [deliverDue, hlink]
        rfl
      have hlinkAt : ∀ d s, log₁.linkAt d s = (log.linkAt d s).map (Link.deliver [dot]) := by
        intro d s
        rw [hlog₁, linkAt_modifyLink]
        split_ifs with hds
        · obtain ⟨rfl, rfl⟩ := hds
          rw [show log.linkAt dot.deviceId dot.seq = some link from hlink]
          obtain ⟨hd, hs⟩ := hplaced _ _ _ hlink
          rw [Option.map_some, Option.map_some,
            Link.deliver_of_mem (List.mem_singleton.mpr (Dot.ext hd hs))]
        · cases hl : log.linkAt d s with
          | none => rfl
          | some l =>
            obtain ⟨rfl, rfl⟩ := hplaced d s l hl
            rw [Option.map_some, Link.deliver_of_notMem]
            exact fun hmem => hds (List.mem_singleton.mp hmem ▸ ⟨rfl, rfl⟩)
      have hheader : ∀ d s, (log₁.linkAt d s).map Link.header = (log.linkAt d s).map Link.header := by
        intro d s
        rw [hlinkAt, Option.map_map]
        exact congrArg (Option.map · _) (funext fun l => Link.header_deliver)
      have h := @ih log₁ fun d s l₁ hl₁ => by
        have := hheader d s
        rw [hl₁, Option.map_some] at this
        obtain ⟨l, hl, heq⟩ := Option.map_eq_some_iff.mp this.symm
        rw [← heq]
        exact hplaced d s l hl
      rw [hstep]
      refine ⟨h.eq.trans ?_, fun d => (h.head d).trans head_modifyLink,
        fun d => (h.frontier d).trans frontier_modifyLink, fun d s => ?_, ?_⟩
      · rfl
      · refine (h.linkAt d s).trans ?_
        rw [hlinkAt, Option.map_map]
        exact congrArg (Option.map · _) (funext fun l => Link.deliver_deliver)
      · change _ :: (deliverDue itemId log₁ due).2 = _
        rw [h.out, List.filterMap_cons, hlink, Option.map_some]
        refine congrArg (List.cons _) (List.filterMap_congr fun dot' _ => ?_)
        have := congrArg (Option.map fun header : OpHeader =>
          (⟨dot', itemId, header.hlc, true⟩ : Delivery)) (hheader dot'.deviceId dot'.seq)
        rw [Option.map_map, Option.map_map] at this
        exact this

/-! ### The covered bodies -/

/-- The dots of the ready bodies of an item that its settled vector covers. -/
def due (log : VaultLog) (itemId : ItemId) : List Dot :=
  (((log.ready[itemId]?).getD ∅).toList.flatMap fun entry =>
    (coveredSeqs (log.settled itemId) entry.1 entry.2).filterMap fun seq => Dot.new entry.1 seq)

theorem mem_coveredSeqs {vv : VersionVector} {d : DeviceId} {seqs : ExtTreeSet ℕ} {s : ℕ} :
    s ∈ coveredSeqs vv d seqs ↔ s ∈ seqs ∧ s ≤ vv.get d := by
  rw [coveredSeqs, List.mem_filter, ExtTreeSet.mem_toList, decide_eq_true_eq]

theorem mem_foldl_erase {l : List ℕ} {seqs : ExtTreeSet ℕ} {s : ℕ} :
    s ∈ l.foldl ExtTreeSet.erase seqs ↔ s ∈ seqs ∧ s ∉ l := by
  induction l generalizing seqs with
  | nil => simp
  | cons a l ih =>
    rw [List.foldl_cons, ih, ExtTreeSet.mem_erase, ne_eq, compare_eq_iff_eq, List.mem_cons, not_or]
    constructor
    · rintro ⟨⟨hne, hs⟩, hl⟩
      exact ⟨hs, fun h => hne h.symm, hl⟩
    · rintro ⟨hs, hne, hl⟩
      exact ⟨⟨fun h => hne h.symm, hs⟩, hl⟩

theorem mem_due : dot ∈ log.due itemId ↔
    dot.seq ∈ log.readySeqs itemId dot.deviceId ∧ (log.settled itemId).covers dot := by
  simp only [due, List.mem_flatMap, List.mem_filterMap, mem_coveredSeqs, Dot.new_eq_some,
    ExtTreeMap.mem_toList_iff_getElem?_eq_some, Prod.exists, VersionVector.covers, readySeqs]
  constructor
  · rintro ⟨d, seqs, hget, s, ⟨hs, hle⟩, rfl, rfl⟩
    rw [hget]
    exact ⟨hs, hle⟩
  · rintro ⟨hs, hle⟩
    cases hget : ((log.ready[itemId]?).getD ∅)[dot.deviceId]? with
    | none => simp [hget] at hs
    | some seqs =>
      rw [hget] at hs
      exact ⟨dot.deviceId, seqs, hget, dot.seq, ⟨hs, hle⟩, rfl, rfl⟩

theorem nodup_due : (log.due itemId).Nodup := by
  refine List.nodup_flatMap.mpr ⟨fun entry _ => ?_, ?_⟩
  · refine List.Nodup.filterMap (fun a b dot ha hb => ?_) ?_
    · rw [Option.mem_def, Dot.new_eq_some] at ha hb
      exact ha.2.symm.trans hb.2
    · exact ((ExtTreeSet.pairwise_toList _).imp fun h => h.ne).filter _
  · refine (ExtTreeMap.pairwise_fst_toList _).imp fun {a b} hab dot ha hb => ?_
    obtain ⟨s, -, hs⟩ := List.mem_filterMap.mp ha
    obtain ⟨s', -, hs'⟩ := List.mem_filterMap.mp hb
    exact hab.ne ((Dot.new_eq_some.mp hs).1.symm.trans (Dot.new_eq_some.mp hs').1)

/-- What stays of an item's ready bodies. -/
def leftReady (vv : VersionVector) (perDevice : ExtTreeMap DeviceId (ExtTreeSet ℕ)) :
    ExtTreeMap DeviceId (ExtTreeSet ℕ) :=
  perDevice.filterMap fun device seqs =>
    let left := (coveredSeqs vv device seqs).foldl ExtTreeSet.erase seqs
    if left.isEmpty then none else some left

theorem mem_leftReady {vv : VersionVector} {perDevice : ExtTreeMap DeviceId (ExtTreeSet ℕ)}
    {d : DeviceId} {s : ℕ} :
    s ∈ ((leftReady vv perDevice)[d]?).getD ∅ ↔
      s ∈ (perDevice[d]?).getD ∅ ∧ ¬ s ≤ vv.get d := by
  rw [leftReady, ExtTreeMap.getElem?_filterMap']
  cases perDevice[d]? with
  | none => simp
  | some seqs =>
    rw [Option.bind_some, ExtTreeSet.getD_keepNonempty, mem_foldl_erase, mem_coveredSeqs,
      Option.getD_some]
    exact and_congr_right fun hs => not_congr (and_iff_right hs)

/-- Handing out the covered bodies of an item, by the links that are due. -/
theorem deliverCoveredItem_eq (h : log.Coherent) (itemId : ItemId) :
    ∃ ready, log.deliverCoveredItem itemId =
        deliverDue itemId { log with ready } (log.due itemId) ∧
      ∀ i d s, s ∈ ({ log with ready } : VaultLog).readySeqs i d ↔
        s ∈ log.readySeqs i d ∧ ¬ (i = itemId ∧ s ≤ (log.settled itemId).get d) := by
  have hpos : ∀ i d s, s ∈ log.readySeqs i d → 0 < s := by
    intro i d s hs
    obtain ⟨l, hl, -⟩ := (h.ready i d s).mp hs
    exact (h.link d s l hl).seq_eq ▸ l.header.dot.seq_pos
  have hnone : (∀ d s, s ∈ log.readySeqs itemId d → ¬ s ≤ (log.settled itemId).get d) →
      log.deliverCoveredItem itemId = (log, []) → ∃ ready, log.deliverCoveredItem itemId =
        deliverDue itemId { log with ready } (log.due itemId) ∧
      ∀ i d s, s ∈ ({ log with ready } : VaultLog).readySeqs i d ↔
        s ∈ log.readySeqs i d ∧ ¬ (i = itemId ∧ s ≤ (log.settled itemId).get d) := by
    intro hnone heq
    have hdue : log.due itemId = [] := List.eq_nil_iff_forall_not_mem.mpr fun dot hdot =>
      hnone _ _ (mem_due.mp hdot).1 (mem_due.mp hdot).2
    refine ⟨log.ready, by rw [heq, hdue]; rfl, fun i d s => (and_iff_left_of_imp ?_).symm⟩
    rintro hs ⟨rfl, hle⟩
    exact hnone d s hs hle
  cases hvv : log.items[itemId]? with
  | none =>
    refine hnone (fun d s hs => ?_) (by simp only [deliverCoveredItem, hvv])
    have hzero : (log.settled itemId).get d = 0 := by
      rw [settled, hvv]
      rfl
    have := hpos _ _ _ hs
    omega
  | some vv =>
    cases hper : log.ready[itemId]? with
    | none =>
      refine hnone (fun d s hs => ?_) (by simp only [deliverCoveredItem, hvv, hper])
      simp [readySeqs, hper] at hs
    | some perDevice =>
      have hsettled : log.settled itemId = vv := by rw [settled, hvv, Option.getD_some]
      refine ⟨if (leftReady vv perDevice).isEmpty then log.ready.erase itemId
        else log.ready.insert itemId (leftReady vv perDevice), ?_, fun i d s => ?_⟩
      · simp only [deliverCoveredItem, hvv, hper, due, hsettled, Option.getD_some]
        rfl
      · by_cases hi : i = itemId
        · subst hi
          have hleft : ((if (leftReady vv perDevice).isEmpty then log.ready.erase i
              else log.ready.insert i (leftReady vv perDevice))[i]?).getD ∅ =
              leftReady vv perDevice := by
            split_ifs with hempty
            · simp [ExtTreeMap.isEmpty_iff.mp hempty]
            · simp
          simp only [readySeqs, hleft, mem_leftReady, hper, Option.getD_some, hsettled, true_and]
        · have hother : (if (leftReady vv perDevice).isEmpty then log.ready.erase itemId
              else log.ready.insert itemId (leftReady vv perDevice))[i]? = log.ready[i]? := by
            split_ifs
            · rw [ExtTreeMap.getElem?_erase_iff, if_neg (Ne.symm hi)]
            · rw [ExtTreeMap.getElem?_insert_iff, if_neg (Ne.symm hi)]
          simp only [readySeqs, hother, hi, false_and, not_false_eq_true, and_true]

/-- Handing out the covered bodies of an item is a batch of covered operations of the item, after
which no ready body of it is covered. -/
theorem Coherent.deliverCoveredItem (h : log.Coherent) (itemId : ItemId) :
    Batch log (log.deliverCoveredItem itemId).1 (log.deliverCoveredItem itemId).2 ∧
      (log.deliverCoveredItem itemId).1.Coherent ∧
      (log.deliverCoveredItem itemId).1.dirty = log.dirty ∧
      ∀ pending, log.Marked pending →
        (log.deliverCoveredItem itemId).1.Marked {i | i ∈ pending ∧ i ≠ itemId} := by
  obtain ⟨ready, heq, hready⟩ := deliverCoveredItem_eq h itemId
  have hspec : ({ log with ready } : VaultLog).DueSpec itemId (log.due itemId) _ :=
    deliverDue_spec fun d s l hl => ⟨(h.link d s l hl).deviceId, (h.link d s l hl).seq_eq⟩
  rw [← heq] at hspec
  set r := log.deliverCoveredItem itemId
  -- the due bodies are those of ready links that are covered
  have hdue : ∀ dot ∈ log.due itemId, ∃ l, log.link dot = some l ∧ l.header.dot = dot ∧
      l.state = .ready ∧ l.header.itemId = itemId ∧ (log.settled itemId).covers dot := by
    intro dot hdot
    obtain ⟨hmem, hcov⟩ := mem_due.mp hdot
    obtain ⟨l, hl, hstate, hi⟩ := (h.ready _ _ _).mp hmem
    exact ⟨l, hl, h.dot_eq hl rfl rfl, hstate, hi, hcov⟩
  have hout : r.2.map Delivery.dot = log.due itemId := by
    rw [hspec.out, List.map_filterMap]
    refine (List.filterMap_congr fun dot hdot => ?_).trans List.filterMap_some
    obtain ⟨l, hl, -⟩ := hdue dot hdot
    change ((log.link dot).map _).map _ = _
    rw [hl]
    rfl
  have hlinkAt : ∀ d s, r.1.linkAt d s = (log.linkAt d s).map (Link.deliver (log.due itemId)) :=
    hspec.linkAt
  have hitems : r.1.items = log.items := by rw [hspec.eq]
  have hsettled : ∀ i, r.1.settled i = log.settled i := fun i => by
    rw [VaultLog.settled, hitems]
    rfl
  have hmem : ∀ x ∈ r.2, x.dot ∈ log.due itemId ∧ x.itemId = itemId ∧ x.covered = true ∧
      ∃ l, log.link x.dot = some l ∧ l.header.hlc = x.hlc := by
    intro x hx
    rw [hspec.out] at hx
    obtain ⟨dot, hdot, hx⟩ := List.mem_filterMap.mp hx
    obtain ⟨l, hl, rfl⟩ := Option.map_eq_some_iff.mp hx
    exact ⟨hdot, rfl, rfl, l, hl, rfl⟩
  have hallows : ∀ K, ∀ x ∈ r.2, log.Allows K x := by
    intro K x hx
    obtain ⟨hdot, hi, hcovered, l', hl', hhlc⟩ := hmem x hx
    obtain ⟨l, hl, hld, hstate, hitem, hcov⟩ := hdue _ hdot
    cases hl'.symm.trans hl
    refine ⟨_, hl', hld, hstate, hitem.trans hi.symm, hhlc, ?_⟩
    rw [if_pos hcovered, hi]
    exact .inl hcov
  have hjustified : ∀ (l : List Delivery) K, (∀ x ∈ l, x ∈ r.2) → Justified log.Allows K l := by
    intro l
    induction l with
    | nil => exact fun _ _ => trivial
    | cons x l ih => exact fun K hl => ⟨hallows K x (hl x List.mem_cons_self),
        ih _ fun y hy => hl y (List.mem_cons_of_mem _ hy)⟩
  have hbatch : Batch log r.1 r.2 := by
    refine ⟨by rw [hspec.eq], by rw [hspec.eq], by rw [hspec.eq], by rw [hspec.eq],
      by rw [hspec.eq], hspec.head, fun d s => by rw [hout]; exact hlinkAt d s, fun i dot => ?_,
      by rw [hout]; exact nodup_due, hjustified _ _ fun _ hx => hx⟩
    -- what is handed out was covered before
    rw [hsettled]
    refine ⟨.inl, fun hcov => hcov.elim id ?_⟩
    rintro ⟨x, hx, rfl, hd, hs⟩
    obtain ⟨hdot, hi, -⟩ := hmem x hx
    have hcov := (mem_due.mp hdot).2
    rw [hi]
    exact VersionVector.covers_of_le hd.symm hs hcov
  have hcoherent : r.1.Coherent := by
    refine h.deliverAll (by rw [hspec.eq]) (by rw [hspec.eq]) (by rw [hspec.eq]) hspec.head
      hspec.frontier hlinkAt (fun i => (hsettled i).ge) (fun i d s => ?_) fun d s l hl hdot => ?_
    · have hreadyEq : r.1.readySeqs i d = ({ log with ready } : VaultLog).readySeqs i d := by
        rw [hspec.eq]
        rfl
      rw [hreadyEq, hready]
      refine and_congr_right fun hs => ?_
      obtain ⟨l, hl, hstate, hi⟩ := (h.ready i d s).mp hs
      constructor
      · rintro hnot dot hdot ⟨rfl, rfl⟩
        obtain ⟨l', hl', -, -, hi', hcov⟩ := hdue dot hdot
        cases hl'.symm.trans hl
        exact hnot ⟨hi.symm.trans hi', hcov⟩
      · rintro hnot ⟨rfl, hle⟩
        have hok := h.link d s l hl
        refine hnot l.header.dot (mem_due.mpr ?_) ⟨hok.deviceId, hok.seq_eq⟩
        rw [VersionVector.covers, hok.deviceId, hok.seq_eq]
        exact ⟨hs, hle⟩
    · obtain ⟨l', hl', -, hstate, hi, hcov⟩ := hdue _ hdot
      cases hl'.symm.trans (h.link_dot hl)
      exact ⟨hstate, by rw [holds, hsettled, hi]; exact hcov⟩
  refine ⟨hbatch, hcoherent, by rw [hspec.eq], fun pending hmarked d s l' hl' hstate hholds => ?_⟩
  rw [hlinkAt] at hl'
  obtain ⟨l, hl, rfl⟩ := Option.map_eq_some_iff.mp hl'
  obtain ⟨heq', hnot⟩ := Link.of_deliver_ready hstate
  rw [heq'] at hstate hholds ⊢
  rw [holds, hsettled] at hholds
  refine ⟨hmarked d s l hl hstate hholds, fun hi => hnot (mem_due.mpr ⟨?_, hi ▸ hholds⟩)⟩
  have hok := h.link d s l hl
  rw [hok.deviceId, hok.seq_eq]
  exact (h.ready _ _ _).mpr ⟨l, hl, hstate, hi⟩

/-- Handing out the covered bodies of items, one after the other. -/
theorem Coherent.deliverCoveredItems (h : log.Coherent) (itemIds : List ItemId) :
    Batch log (log.deliverCoveredItems itemIds).1 (log.deliverCoveredItems itemIds).2 ∧
      (log.deliverCoveredItems itemIds).1.Coherent ∧
      (log.deliverCoveredItems itemIds).1.dirty = log.dirty ∧
      ∀ pending, log.Marked pending →
        (log.deliverCoveredItems itemIds).1.Marked {i | i ∈ pending ∧ i ∉ itemIds} := by
  induction itemIds generalizing log with
  | nil =>
    refine ⟨.refl log, h, rfl, fun pending hmarked d s l hl hstate hholds =>
      ⟨hmarked d s l hl hstate hholds, List.not_mem_nil⟩⟩
  | cons itemId itemIds ih =>
    obtain ⟨hbatch, hcoherent, hdirty, hmarked⟩ := h.deliverCoveredItem itemId
    obtain ⟨hbatch', hcoherent', hdirty', hmarked'⟩ := ih hcoherent
    refine ⟨hbatch.trans hbatch', hcoherent', hdirty'.trans hdirty, fun pending hpending => ?_⟩
    intro d s l hl hstate hholds
    obtain ⟨⟨hmem, hne⟩, hnot⟩ := hmarked' _ (hmarked pending hpending) d s l hl hstate hholds
    exact ⟨hmem, fun hmem => (List.mem_cons.mp hmem).elim hne hnot⟩

/-- Handing out every covered body: the dirty items are all that may have one. -/
theorem Valid.deliverCovered (h : log.Valid) :
    Batch log log.deliverCovered.1 log.deliverCovered.2 ∧ log.deliverCovered.1.Coherent ∧
      log.deliverCovered.1.Marked ∅ ∧ ∀ i, i ∉ log.deliverCovered.1.dirty := by
  set log₀ : VaultLog := { log with dirty := ∅ }
  have hcoherent : log₀.Coherent :=
    h.toCoherent.settle rfl rfl rfl rfl rfl fun _ => le_rfl
  obtain ⟨hbatch, hcoherent', hdirty, hmarked⟩ := hcoherent.deliverCoveredItems log.dirty.toList
  have hbatch₀ : Batch log log₀ [] :=
    .of_same rfl rfl rfl rfl rfl (fun _ => rfl) (fun _ _ => rfl) fun _ => rfl
  refine ⟨hbatch₀.trans hbatch, hcoherent', fun d s l hl hstate hholds => ?_, fun i hi => ?_⟩
  · obtain ⟨hmem, hnot⟩ := hmarked _ h.marked d s l hl hstate hholds
    exact hnot (ExtTreeSet.mem_toList.mpr hmem)
  · change i ∈ (log₀.deliverCoveredItems log.dirty.toList).1.dirty at hi
    rw [hdirty] at hi
    exact ExtTreeSet.not_mem_empty hi

end VaultLog

end RizzyVault.Sync.Causal
