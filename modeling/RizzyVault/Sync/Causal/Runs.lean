import RizzyVault.Sync.Causal.Rounds

/-!
# Runs of the causal log

What holds of every log that calls leave, in any order and on any served headers: the chains are
unbroken, what is accepted is kept, nothing is delivered twice or without a verified body, and a
revocation is final.

## Main definitions

* `VaultLog.Call.verifies`, `VaultLog.verifiedBy`: the headers whose bodies calls verify.
* `VaultLog.after`: the log that calls leave.

## Main results

* `VaultLog.after_chain`, `VaultLog.after_keeps`: the chains, and what is kept of them.
* `VaultLog.after_delivers`, `VaultLog.after_takeDeliveries`: what is delivered, and when.
* `VaultLog.after_learnRevocation`: nothing past a cut-off is accepted or delivered after it is
  learned.
-/

open RizzyVault.Lib

namespace RizzyVault.Sync.Causal

open Std (ExtTreeMap ExtTreeSet)

namespace VaultLog

/-- The headers whose bodies a call verifies. -/
def Call.verifies (log : VaultLog) : Call → Set OpHeader
  | .commit ops => verifiedIn ops
  | .bodyVerified dot => {header | log.header dot = some header}
  | _ => ∅

/-- The headers whose bodies calls verify, one after the other. -/
def verifiedBy (log : VaultLog) : List Call → Set OpHeader
  | [] => ∅
  | c :: calls => c.verifies log ∪ (log.call c).1.verifiedBy calls

variable {log log' : VaultLog} {device : DeviceId} {seq : ℕ} {link : Link} {out : List Delivery}

/-! ### One call -/

theorem recordSent_uploads {seq : ℕ} {log' : VaultLog} (h : log.recordSent seq = .ok log') :
    ∃ uploads, log' = { log with uploads } := by
  unfold recordSent at h
  split at h
  · cases h
  · split_ifs at h
    · exact ⟨log.uploads, (Except.ok.inj h).symm⟩
    · split at h
      · cases h
      · exact ⟨_, (Except.ok.inj h).symm⟩

theorem acknowledge_uploads {seq : ℕ} {log' : VaultLog} (h : log.acknowledge seq = .ok log') :
    ∃ uploads, log' = { log with uploads } := by
  unfold acknowledge at h
  split at h
  · cases h
  · exact ⟨_, (Except.ok.inj h).symm⟩

theorem recordAnswered_uploads {seq : ℕ} {generation : RestoreGeneration} {log' : VaultLog}
    (h : log.recordAnswered seq generation = .ok log') :
    ∃ uploads, log' = { log with uploads } := by
  unfold recordAnswered at h
  split at h
  · cases h
  · split_ifs at h
    · exact ⟨_, (Except.ok.inj h).symm⟩
    · exact ⟨log.uploads, (Except.ok.inj h).symm⟩

/-- A call that can only be refused or change the upload state. -/
theorem Valid.orSame_uploads (h : log.Valid) {ε : Type} {r : Except ε VaultLog}
    (hr : ∀ log', r = .ok log' → ∃ uploads, log' = { log with uploads })
    {verified : Set OpHeader} : (log.orSame r).Valid ∧ log.Evolves verified (log.orSame r) := by
  cases hres : r with
  | error e => exact ⟨h, .refl log⟩
  | ok log' =>
    obtain ⟨uploads, rfl⟩ := hr log' hres
    exact h.uploads uploads

/-- Every call keeps the invariant, and the log evolves. -/
theorem Valid.call (h : log.Valid) (c : Call) :
    (log.call c).1.Valid ∧ log.Evolves (c.verifies log) (log.call c).1 := by
  cases c with
  | recordAbsorbed plan itemId taken => exact h.recordAbsorbed plan itemId taken
  | commit ops =>
    obtain ⟨hvalid, hev, -⟩ := h.commit ops
    exact ⟨hvalid, hev⟩
  | bodyVerified dot => exact h.bodyVerified dot
  | bodyRejected dot => exact h.bodyRejected dot
  | takeDeliveries =>
    obtain ⟨hbatch, hvalid, -⟩ := h.takeDeliveries
    exact ⟨hvalid, hbatch.evolves⟩
  | learnRevocation device lastAccepted => exact h.learnRevocation device lastAccepted
  | recordOwnOp header => exact h.recordOwnOp header
  | observeGeneration generation => exact h.uploads _
  | recordSent seq => exact h.orSame_uploads fun log' => recordSent_uploads
  | acknowledge seq => exact h.orSame_uploads fun log' => acknowledge_uploads
  | recordAnswered seq generation => exact h.orSame_uploads fun log' => recordAnswered_uploads
  | reissueOwnOp header => exact h.reissueOwnOp header

/-- Only `take_deliveries` hands anything out. -/
theorem Valid.call_batch (h : log.Valid) (c : Call) :
    (log.call c).2 = [] ∨ Batch log (log.call c).1 (log.call c).2 := by
  cases c with
  | takeDeliveries => exact .inr h.takeDeliveries.1
  | _ => exact .inl rfl

/-! ### Runs -/

theorem run_cons (c : Call) (calls : List Call) :
    log.run (c :: calls) = (((log.call c).1.run calls).1,
      (log.call c).2 ++ ((log.call c).1.run calls).2) := rfl

theorem run_append (calls more : List Call) :
    log.run (calls ++ more) = (((log.run calls).1.run more).1,
      (log.run calls).2 ++ ((log.run calls).1.run more).2) := by
  induction calls generalizing log with
  | nil => rfl
  | cons c calls ih =>
    rw [List.cons_append, run_cons, run_cons, ih]
    simp only [List.append_assoc]

theorem Valid.run (h : log.Valid) (calls : List Call) :
    (log.run calls).1.Valid ∧ log.Evolves (log.verifiedBy calls) (log.run calls).1 := by
  induction calls generalizing log with
  | nil => exact ⟨h, .refl log⟩
  | cons c calls ih =>
    obtain ⟨hvalid, hev⟩ := h.call c
    obtain ⟨hvalid', hev'⟩ := ih hvalid
    exact ⟨hvalid', (hev.mono Set.subset_union_left).trans (hev'.mono Set.subset_union_right)⟩

/-- Whether the links are those of operations that are delivered. -/
def Delivered (log : VaultLog) (x : Delivery) : Prop :=
  ∃ l, log.link x.dot = some l ∧ l.state = .delivered ∧ l.header.dot = x.dot ∧
    l.header.itemId = x.itemId ∧ l.header.hlc = x.hlc

theorem Batch.delivered (h : Batch log log' out) {x : Delivery} (hx : x ∈ out) :
    log'.Delivered x := by
  obtain ⟨l, hl, hdot, -, hi, hhlc⟩ := h.link_of_mem hx
  refine ⟨l.deliver (out.map Delivery.dot), by rw [h.link_eq, hl, Option.map_some], ?_, ?_, ?_, ?_⟩
  · rw [Link.deliver_of_mem (hdot ▸ List.mem_map_of_mem hx)]
  all_goals rwa [Link.header_deliver]

theorem Evolves.delivered {verified : Set OpHeader} (h : log.Evolves verified log') {x : Delivery}
    (hx : log.Delivered x) : log'.Delivered x := by
  obtain ⟨l, hl, hstate, hdot, hi, hhlc⟩ := hx
  obtain ⟨l', hl', hheader, hdelivered⟩ := h.link _ _ _ hl
  have hsame : l'.header.dot = l.header.dot ∧ l'.header.itemId = l.header.itemId ∧
      l'.header.hlc = l.header.hlc := by
    rcases hheader with heq | ⟨-, hre⟩
    · rw [heq]
      exact ⟨rfl, rfl, rfl⟩
    · rw [hre.eq]
      exact ⟨rfl, rfl, rfl⟩
  exact ⟨l', hl', hdelivered hstate, hsame.1.trans hdot, hsame.2.1.trans hi, hsame.2.2.trans hhlc⟩

/-- What a run delivers: each dot once, none that was delivered before, and each with a body that
was ready before or verified on the way. -/
theorem Valid.run_delivers (h : log.Valid) (calls : List Call) :
    ((log.run calls).2.map Delivery.dot).Nodup ∧ ∀ x ∈ (log.run calls).2,
      (log.run calls).1.Delivered x ∧
      (∀ l, log.link x.dot = some l → l.state ≠ .delivered) ∧
      ∃ l, l.header.dot = x.dot ∧ l.header.itemId = x.itemId ∧ l.header.hlc = x.hlc ∧
        (log.link x.dot = some l ∧ l.state = .ready ∨ l.header ∈ log.verifiedBy calls) := by
  induction calls generalizing log with
  | nil => exact ⟨List.nodup_nil, by simp [VaultLog.run]⟩
  | cons c calls ih =>
    obtain ⟨hvalid, hev⟩ := h.call c
    obtain ⟨hnodup, hrest⟩ := ih hvalid
    have hev' := (hvalid.run calls).2
    have hlater : ∀ x ∈ ((log.call c).1.run calls).2,
        (log.run (c :: calls)).1.Delivered x ∧
        (∀ l, log.link x.dot = some l → l.state ≠ .delivered) ∧
        ∃ l, l.header.dot = x.dot ∧ l.header.itemId = x.itemId ∧ l.header.hlc = x.hlc ∧
          (log.link x.dot = some l ∧ l.state = .ready ∨
            l.header ∈ log.verifiedBy (c :: calls)) := by
      intro x hx
      obtain ⟨hdel, hnot, l, hdot, hi, hhlc, hwhy⟩ := hrest x hx
      refine ⟨hdel, fun l₀ hl₀ hstate => ?_, l, hdot, hi, hhlc, ?_⟩
      · obtain ⟨l₁, hl₁, hle⟩ := hev.link _ _ _ hl₀
        exact hnot l₁ hl₁ (hle.delivered hstate)
      · rcases hwhy with ⟨hl, hready⟩ | hv
        · exact (hev.ready _ _ _ hl hready).imp (fun hl => ⟨hl, hready⟩) .inl
        · exact .inr (.inr hv)
    rw [run_cons]
    rcases h.call_batch c with hnil | hbatch
    · rw [hnil]
      exact ⟨hnodup, hlater⟩
    · refine ⟨?_, fun x hx => (List.mem_append.mp hx).elim (fun hx => ?_) (hlater x)⟩
      · rw [List.map_append]
        refine List.nodup_append'.mpr ⟨hbatch.nodup, hnodup, fun dot hdot hdot' => ?_⟩
        obtain ⟨x, hx, rfl⟩ := List.mem_map.mp hdot
        obtain ⟨y, hy, heq⟩ := List.mem_map.mp hdot'
        obtain ⟨l, hl, hstate, -⟩ := hbatch.delivered hx
        exact (hrest y hy).2.1 l (heq ▸ hl) hstate
      · obtain ⟨l, hl, hdot, hready, hi, hhlc⟩ := hbatch.link_of_mem hx
        refine ⟨hev'.delivered (hbatch.delivered hx), fun l' hl' hstate => ?_,
          l, hdot, hi, hhlc, .inl ⟨hl, hready⟩⟩
        cases hl.symm.trans hl'
        exact absurd (hready.symm.trans hstate) (by simp)

/-- The log that calls leave of an empty one. -/
def after (vaultId : VaultId) (own : DeviceId) (calls : List Call) : VaultLog :=
  ((new vaultId own).run calls).1

theorem valid_after (vaultId : VaultId) (own : DeviceId) (calls : List Call) :
    (after vaultId own calls).Valid :=
  ((Valid.new vaultId own).run calls).1

theorem after_append (vaultId : VaultId) (own : DeviceId) (calls more : List Call) :
    after vaultId own (calls ++ more) = ((after vaultId own calls).run more).1 := by
  rw [after, run_append, after]

/-- Over any calls in any order every dot is handed out once at most, as the operation of its link,
and only if its body was verified. -/
theorem after_delivers (vaultId : VaultId) (own : DeviceId) (calls : List Call) :
    (((new vaultId own).run calls).2.map Delivery.dot).Nodup ∧
      ∀ x ∈ ((new vaultId own).run calls).2, (after vaultId own calls).Delivered x ∧
        ∃ header ∈ (new vaultId own).verifiedBy calls, header.dot = x.dot ∧
          header.itemId = x.itemId ∧ header.hlc = x.hlc := by
  obtain ⟨hnodup, hall⟩ := (Valid.new vaultId own).run_delivers calls
  refine ⟨hnodup, fun x hx => ?_⟩
  obtain ⟨hdel, -, l, hdot, hi, hhlc, hwhy⟩ := hall x hx
  refine ⟨hdel, l.header, hwhy.resolve_left fun hl => ?_, hdot, hi, hhlc⟩
  exact absurd (linkAt_new.symm.trans hl.1) (by simp)

theorem chain_eq : log.chain device = (log.links device).toList.map fun e => e.2.header := by
  rw [chain, linksFrom_eq]
  congr 1
  exact List.filter_eq_self.mpr fun e _ => decide_eq_true (Nat.zero_le _)

theorem Coherent.mem_links (h : log.Coherent) {e : ℕ × Link} (he : e ∈ (log.links device).toList) :
    log.LinkOk device e.1 e.2 :=
  h.link _ _ _ (getElem?_links.symm.trans (ExtTreeMap.mem_toList_iff_getElem?_eq_some.mp he))

theorem Coherent.seqs_eq (h : log.Coherent) (device : DeviceId) :
    (log.chain device).map (fun header => header.dot.seq) =
      (log.links device).toList.map Prod.fst := by
  rw [chain_eq, List.map_map]
  exact List.map_congr_left fun e he => (h.mem_links he).seq_eq

/-- Every chain is unbroken: its headers ascend, each names the one before it, and the head is the
last one. -/
theorem after_chain (vaultId : VaultId) (own : DeviceId) (calls : List Call) (device : DeviceId) :
    let log := after vaultId own calls
    let seqs := (log.chain device).map fun header => header.dot.seq
    seqs.Pairwise (· < ·) ∧
      (log.chain device).map OpHeader.vaultPrevSeq = (0 :: seqs).dropLast ∧
      log.head device = (0 :: seqs).getLast (List.cons_ne_nil _ _) ∧
      ∀ header ∈ log.chain device, header.vaultId = vaultId ∧ header.dot.deviceId = device := by
  intro log seqs
  have h : log.Coherent := (valid_after vaultId own calls).toCoherent
  have hev : log.vaultId = vaultId := ((Valid.new vaultId own).run calls).2.vaultId
  have hseqs : seqs = (log.links device).toList.map Prod.fst := h.seqs_eq device
  have hmap := (h.linked device).map_prev
  refine ⟨?_, ?_, ?_, fun header hheader => ?_⟩
  · rw [hseqs, List.pairwise_map]
    exact (log.links device).pairwise_fst_toList
  · rw [hseqs, ← hmap, chain_eq, List.map_map]
    rfl
  · exact (h.linked device).head_eq.trans (List.getLast_congr _ _ (by rw [hseqs]))
  · rw [chain_eq] at hheader
    obtain ⟨e, he, rfl⟩ := List.mem_map.mp hheader
    exact ⟨(h.mem_links he).vaultId.trans hev, (h.mem_links he).deviceId⟩

/-- The chain of a log that evolved: the headers held before, an own one re-issued at most, and
those accepted since. -/
theorem Evolves.chain_eq_append {verified : Set OpHeader} (hev : log.Evolves verified log')
    (h : log.Coherent) (h' : log'.Coherent) (device : DeviceId) :
    ∃ kept, log'.chain device = kept ++
        ((log'.links device).toList.filter fun e => log.head device < e.1).map (fun e => e.2.header) ∧
      List.Forall₂ (fun header header' => header' = header ∨ device = log.own ∧
        Reissues header header') (log.chain device) kept := by
  have hkept : ∀ (k : ℕ) l, (log.links device)[k]? = some l → ∃ l', (log'.links device)[k]? = some l' ∧
      (l'.header = l.header ∨ device = log.own ∧ Reissues l.header l'.header) := by
    intro k l hl
    rw [getElem?_links] at hl
    obtain ⟨l', hl', hle⟩ := hev.link _ _ _ hl
    exact ⟨l', getElem?_links.trans hl', hle.header⟩
  have happend := (h.linked device).toList_eq_append (h'.linked device) fun k l hl => by
    obtain ⟨l', hl', hheader⟩ := hkept k l hl
    refine ⟨l', hl', ?_⟩
    rcases hheader with heq | ⟨-, hre⟩
    · rw [heq]
    · rw [hre.eq]
  refine ⟨((log.links device).toList.map fun e =>
    (e.1, ((log'.links device)[e.1]?).getD e.2)).map fun e => e.2.header, ?_, ?_⟩
  · rw [chain_eq, ← List.map_append, ← happend]
  · rw [chain_eq, List.map_map, List.forall₂_map_left_iff, List.forall₂_map_right_iff,
      List.forall₂_same]
    intro e he
    obtain ⟨l', hl', hheader⟩ := hkept _ _ (ExtTreeMap.mem_toList_iff_getElem?_eq_some.mp he)
    change ((log'.links device)[e.1]?.getD e.2).header = _ ∨ _ ∧
      Reissues _ ((log'.links device)[e.1]?.getD e.2).header
    rw [hl', Option.getD_some]
    exact hheader

/-- What is accepted is kept: later calls leave the headers of a chain, an own one re-issued at
most, and add after them. -/
theorem after_keeps (vaultId : VaultId) (own : DeviceId) (calls more : List Call)
    (device : DeviceId) :
    ∃ kept rest, (after vaultId own (calls ++ more)).chain device = kept ++ rest ∧
      List.Forall₂ (fun header header' => header' = header ∨ device = own ∧
        Reissues header header') ((after vaultId own calls).chain device) kept := by
  have h := valid_after vaultId own calls
  obtain ⟨h', hev⟩ := h.run more
  have hown : (after vaultId own calls).own = own := ((Valid.new vaultId own).run calls).2.own
  obtain ⟨kept, heq, hall⟩ := hev.chain_eq_append h.toCoherent h'.toCoherent device
  rw [hown] at hall
  exact ⟨kept, _, by rw [after_append, heq], hall⟩

/-! ### Revocations -/

/-- Nothing past a known cut-off is handed out. -/
theorem Valid.run_cutoff (h : log.Valid) {c : ℕ} (hc : log.cutoff device = some c)
    (calls : List Call) : ∀ x ∈ (log.run calls).2, x.dot.deviceId = device → x.dot.seq ≤ c := by
  induction calls generalizing log c with
  | nil => exact fun x hx => absurd hx List.not_mem_nil
  | cons call calls ih =>
    intro x hx hd
    obtain ⟨hvalid, hev⟩ := h.call call
    rcases List.mem_append.mp hx with hx | hx
    · rcases h.call_batch call with hnil | hbatch
      · exact absurd (hnil ▸ hx) List.not_mem_nil
      · obtain ⟨l, hl, -, hready, -⟩ := hbatch.link_of_mem hx
        by_contra hlt
        have := (h.link _ _ _ hl).cutoff c (hd ▸ hc) (not_le.mp hlt)
        simp [hready] at this
    · obtain ⟨c', hc', hle⟩ := hev.cutoff device c hc
      exact (ih hvalid hc' x hx hd).trans hle

/-- A revocation is final: after it is learned, no later call hands out an operation of the device
past the cut-off or, for another device than the own one, takes one into its chain. -/
theorem after_learnRevocation (vaultId : VaultId) (own : DeviceId) (calls more : List Call)
    (device : DeviceId) (lastAccepted : ℕ) :
    let log := after vaultId own (calls ++ [.learnRevocation device lastAccepted])
    (∀ x ∈ (log.run more).2, x.dot.deviceId = device → x.dot.seq ≤ lastAccepted) ∧
      (device ≠ own →
        ((log.run more).1.chain device).filter (fun header => lastAccepted < header.dot.seq) =
          (log.chain device).filter fun header => lastAccepted < header.dot.seq) := by
  intro log
  have h : log.Valid := valid_after vaultId own _
  obtain ⟨c, hc, hle⟩ : ∃ c, log.cutoff device = some c ∧ c ≤ lastAccepted := by
    refine ⟨(after vaultId own calls).lowerCutoff device lastAccepted, ?_, ?_⟩
    · change (after vaultId own (calls ++ [.learnRevocation device lastAccepted])).cutoff device = _
      rw [after_append]
      refine ((learnRevocation_spec _ device lastAccepted).cutoff device).trans (if_pos rfl)
    · rw [lowerCutoff]
      cases (after vaultId own calls).cutoff device with
      | none => exact le_rfl
      | some c => exact min_le_right _ _
  refine ⟨fun x hx hd => (h.run_cutoff hc more x hx hd).trans hle, fun hown => ?_⟩
  obtain ⟨h', hev⟩ := h.run more
  have hownLog : log.own = own := ((Valid.new vaultId own).run _).2.own
  obtain ⟨kept, heq, hall⟩ := hev.chain_eq_append h.toCoherent h'.toCoherent device
  have hkept : kept = log.chain device := by
    have heq := hall.imp fun header header' hh =>
      (hh.resolve_right fun hre => hown (hre.1.trans hownLog)).symm
    rw [List.forall₂_eq_eq_eq] at heq
    exact heq.symm
  rw [heq, hkept, List.filter_append, List.append_right_eq_self, List.filter_eq_nil_iff]
  intro header hheader
  obtain ⟨e, he, rfl⟩ := List.mem_map.mp hheader
  obtain ⟨he, hlt⟩ := List.mem_filter.mp he
  have hlt := of_decide_eq_true hlt
  -- a link past the head is a new one, which the cut-off bounds
  have hl := getElem?_links.symm.trans (ExtTreeMap.mem_toList_iff_getElem?_eq_some.mp he)
  have hnone : log.linkAt device e.1 = none := by
    rw [Option.eq_none_iff_forall_not_mem]
    intro l hl
    have := h.seq_le_head hl
    omega
  have hseq := (h'.mem_links he).seq_eq
  have hbound := (hev.accepted _ _ _ hl hnone).resolve_left (fun h => hown (h.trans hownLog)) c hc
  simp only [decide_eq_true_eq, not_lt]
  omega

end VaultLog

end RizzyVault.Sync.Causal
