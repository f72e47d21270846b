import RizzyVault.Sync.Causal.Commit
import RizzyVault.Sync.Causal.Plan

/-!
# What the next fetch asks for

The cursor names every chain's head, or what comes before the first link whose body was rejected
and that nothing covers. A server whose chains continue those of the log answers it with what
commits without a conflict, and serves every such link again.

## Main definitions

* `Store`: the chains an honest server holds.
* `Store.Continues`, `Store.Answers`: its chains continue those of a log, and a response holds all
  of them after a cursor.
* `Report.isConflict`: what an honest server never gives cause for.

## Main results

* `VaultLog.after_commit_answer`: committing an answer reports no conflict, and gives every
  rejected link that nothing covers the state of the body served.
-/

open RizzyVault.Lib

namespace RizzyVault.Sync.Causal

open Std (ExtTreeMap ExtTreeSet)

/-- The headers continue a chain one after the other. -/
def Chained : ℕ → List OpHeader → Prop
  | _, [] => True
  | prev, h :: hs => h.vaultPrevSeq = prev ∧ prev < h.dot.seq ∧ Chained h.dot.seq hs

/-- Where headers that continue a chain end. -/
def chainEnd (prev : ℕ) (hs : List OpHeader) : ℕ :=
  (prev :: hs.map fun h => h.dot.seq).getLast (List.cons_ne_nil _ _)

section Chained

variable {prev : ℕ} {hs hs' : List OpHeader}

theorem chainEnd_cons {h : OpHeader} : chainEnd prev (h :: hs) = chainEnd h.dot.seq hs := by
  simp [chainEnd]

theorem chained_append : Chained prev (hs ++ hs') ↔
    Chained prev hs ∧ Chained (chainEnd prev hs) hs' := by
  induction hs generalizing prev with
  | nil => exact (and_iff_right trivial).symm
  | cons h hs ih => simp only [List.cons_append, Chained, ih, chainEnd_cons, and_assoc]

theorem Chained.lt_seq (h : Chained prev hs) : ∀ header ∈ hs, prev < header.dot.seq := by
  induction hs generalizing prev with
  | nil => exact fun header hh => absurd hh List.not_mem_nil
  | cons a hs ih =>
    intro header hh
    rcases List.mem_cons.mp hh with rfl | hh
    · exact h.2.1
    · exact h.2.1.trans (ih h.2.2 header hh)

theorem Chained.pairwise (h : Chained prev hs) :
    hs.Pairwise fun a b => a.dot.seq < b.dot.seq := by
  induction hs generalizing prev with
  | nil => exact .nil
  | cons a hs ih => exact List.pairwise_cons.mpr ⟨h.2.2.lt_seq, ih h.2.2⟩

theorem follows_iff_chained {ops : List ServedOp} :
    Follows prev ops ↔ Chained prev (ops.map ServedOp.header) := by
  induction ops generalizing prev with
  | nil => exact Iff.rfl
  | cons op ops ih => simp only [Follows, List.map_cons, Chained, ih]

/-- Headers that ascend from a place, each naming the one before it. -/
theorem chained_of_map (hlt : ∀ header ∈ hs, prev < header.dot.seq)
    (hsorted : hs.Pairwise fun a b => a.dot.seq < b.dot.seq)
    (hprev : hs.map OpHeader.vaultPrevSeq = (prev :: hs.map fun h => h.dot.seq).dropLast) :
    Chained prev hs := by
  induction hs generalizing prev with
  | nil => trivial
  | cons a hs ih =>
    obtain ⟨ha, hsorted⟩ := List.pairwise_cons.mp hsorted
    rw [List.map_cons, List.map_cons, List.dropLast_cons_cons, List.cons.injEq] at hprev
    exact ⟨hprev.1, hlt a List.mem_cons_self, ih ha hsorted hprev.2⟩

end Chained

/-- The chains an honest server holds of a vault, by device. -/
structure Store where
  vaultId : VaultId
  headers : DeviceId → List OpHeader
  chained : ∀ d, Chained 0 (headers d)
  placed : ∀ d, ∀ h ∈ headers d, h.vaultId = vaultId ∧ h.dot.deviceId = d

/-- The chains of the server continue those of a log, and hold no more of the own device's. -/
structure Store.Continues (store : Store) (log : VaultLog) : Prop where
  vaultId : store.vaultId = log.vaultId
  chain : ∀ d, d ≠ log.own → log.chain d <+: store.headers d
  own : store.headers log.own <+: log.chain log.own

/-- A response holds, of every device, all headers after a cursor, in chain order. -/
def Store.Answers (store : Store) (cursor : VersionVector) (ops : List ServedOp) : Prop :=
  ∀ d, (ops.filter fun op => op.header.dot.deviceId = d).map ServedOp.header =
    (store.headers d).filter fun h => ¬ cursor.covers h.dot

/-- What an honest server never gives cause for. -/
def Report.isConflict : Report → Bool
  | .equivocation _ | .unknownOwnOp _ | .foreignVault _ | .gap _ _ (.unlinked ..) => true
  | _ => false

namespace VaultLog

variable {log log' : VaultLog} {device d : DeviceId} {seq s : ℕ} {link : Link} {dot : Dot}
  {ops served : List ServedOp} {op : ServedOp}

theorem Coherent.chained (h : log.Coherent) (device : DeviceId) :
    Chained 0 (log.chain device) ∧ log.head device = chainEnd 0 (log.chain device) := by
  have hseqs := h.seqs_eq device
  have hmap := (h.linked device).map_prev
  refine ⟨chained_of_map (fun header hh => header.dot.seq_pos) ?_ ?_, ?_⟩
  · rw [chain_eq, List.pairwise_map]
    refine (log.links device).pairwise_fst_toList.imp_of_mem fun ha hb hab => ?_
    rw [(h.mem_links ha).seq_eq, (h.mem_links hb).seq_eq]
    exact hab
  · rw [hseqs, ← hmap, chain_eq, List.map_map]
    rfl
  · exact (h.linked device).head_eq.trans (List.getLast_congr _ _ (by rw [hseqs]))

theorem Coherent.mem_chain (h : log.Coherent) {header : OpHeader} :
    header ∈ log.chain device ↔ ∃ l, log.linkAt device header.dot.seq = some l ∧
      l.header = header := by
  rw [chain_eq, List.mem_map]
  constructor
  · rintro ⟨e, he, rfl⟩
    have hl := getElem?_links.symm.trans (ExtTreeMap.mem_toList_iff_getElem?_eq_some.mp he)
    exact ⟨e.2, by rw [(h.mem_links he).seq_eq, hl], rfl⟩
  · rintro ⟨l, hl, rfl⟩
    exact ⟨(l.header.dot.seq, l), ExtTreeMap.mem_toList_iff_getElem?_eq_some.mpr
      (getElem?_links.trans hl), rfl⟩

/-! ### The cursor -/

/-- The cursor's entry of a device, zero if it has no chain. -/
def cursorAt (log : VaultLog) (device : DeviceId) : ℕ :=
  (log.chains[device]?).elim 0 log.cursorEntry

/-- The cursor's entry: what comes before the first rejected link that nothing covers, or the
head. -/
theorem Coherent.cursorAt_eq (h : log.Coherent) (device : DeviceId) :
    (∃ s l, log.linkAt device s = some l ∧ l.state = .rejected ∧
      log.cursorAt device = l.header.vaultPrevSeq ∧
      ∀ s' l', log.linkAt device s' = some l' → l'.state = .rejected → ¬ log.holds l' → s ≤ s') ∨
    log.cursorAt device = log.head device ∧
      ∀ s l, log.linkAt device s = some l → l.state = .rejected → log.holds l := by
  cases hchain : log.chains[device]? with
  | none =>
    refine .inr ⟨by simp only [cursorAt, head, hchain, Option.elim_none], fun s l hl => ?_⟩
    rw [linkAt, hchain, Option.bind_none] at hl
    cases hl
  | some chain =>
    have hcursor : log.cursorAt device = log.cursorEntry chain := by
      simp only [cursorAt, hchain, Option.elim_some]
    have hmem : ∀ s l, log.linkAt device s = some l ↔ (s, l) ∈ chain.links.toList := by
      intro s l
      rw [ExtTreeMap.mem_toList_iff_getElem?_eq_some, linkAt, hchain, Option.bind_some]
    have hopen : ∀ s l, log.linkAt device s = some l → ¬ log.holds l →
        (s, l) ∈ chain.links.toList.filter fun entry => chain.frontier ≤ entry.1 := by
      intro s l hl hholds
      refine List.mem_filter.mpr ⟨(hmem s l).mp hl, decide_eq_true ?_⟩
      have hfrontier : log.frontier device = chain.frontier := by
        rw [VaultLog.frontier, hchain, Option.elim_some]
      exact hfrontier ▸ not_lt.mp fun hlt => hholds (h.frontier device s l hl hlt)
    rw [hcursor, cursorEntry]
    cases hfind : (chain.links.toList.filter fun entry => chain.frontier ≤ entry.1).find?
        fun entry => entry.2.state = .rejected ∧ ¬ covered log.items entry.2.header with
    | some entry =>
      obtain ⟨hrejected, as, bs, hsplit, has⟩ := List.find?_eq_some_iff_append.mp hfind
      have hentry : entry ∈ chain.links.toList.filter fun entry => chain.frontier ≤ entry.1 :=
        hsplit ▸ List.mem_append_right _ List.mem_cons_self
      refine .inl ⟨entry.1, entry.2, (hmem _ _).mpr (List.mem_filter.mp hentry).1,
        (of_decide_eq_true hrejected).1, rfl, fun s' l' hl' hstate hholds => ?_⟩
      have hl' := hopen s' l' hl' hholds
      have hsorted := chain.links.pairwise_fst_toList.filter fun entry => chain.frontier ≤ entry.1
      rw [hsplit] at hl' hsorted
      rcases List.mem_append.mp hl' with hl' | hl'
      · have := has _ hl'
        rw [Bool.not_eq_true', decide_eq_false_iff_not, covered_iff] at this
        exact absurd ⟨hstate, hholds⟩ this
      · rcases List.mem_cons.mp hl' with rfl | hl'
        · exact le_rfl
        · exact ((List.pairwise_cons.mp (List.pairwise_append.mp hsorted).2.1).1 _ hl').le
    | none =>
      refine .inr ⟨by simp only [head, hchain, Option.elim_some], fun s l hl hstate => ?_⟩
      by_contra hholds
      have := List.find?_eq_none.mp hfind _ (hopen s l hl hholds)
      rw [decide_eq_true_eq, covered_iff] at this
      exact this ⟨hstate, hholds⟩

theorem Coherent.cursorAt_le_head (h : log.Coherent) (device : DeviceId) :
    log.cursorAt device ≤ log.head device := by
  rcases h.cursorAt_eq device with ⟨s, l, hl, -, heq, -⟩ | ⟨heq, -⟩
  · have hlt := (h.linked device).prev_lt s l (getElem?_links.trans hl)
    have hle := h.seq_le_head hl
    omega
  · exact heq.le

/-- The cursor falls back below a rejected link that nothing covers. -/
theorem Coherent.cursorAt_lt (h : log.Coherent) (hl : log.linkAt device seq = some link)
    (hstate : link.state = .rejected) (hholds : ¬ log.holds link) : log.cursorAt device < seq := by
  rcases h.cursorAt_eq device with ⟨s, l, hl', -, heq, hfirst⟩ | ⟨-, hnone⟩
  · have hlt := (h.linked device).prev_lt s l (getElem?_links.trans hl')
    have hle := hfirst seq link hl hstate hholds
    omega
  · exact absurd (hnone seq link hl hstate) hholds

/-- Nothing of the own chain is asked for. -/
theorem Coherent.cursorAt_own (h : log.Coherent) : log.cursorAt log.own = log.head log.own := by
  rcases h.cursorAt_eq log.own with ⟨s, l, hl, hstate, -⟩ | ⟨heq, -⟩
  · rw [(h.link _ _ _ hl).own rfl] at hstate
    cases hstate
  · exact heq

/-- The cursor covers what its entries reach. -/
theorem Coherent.covers_cursor (h : log.Coherent) :
    log.cursor.covers dot ↔ dot.seq ≤ log.cursorAt dot.deviceId := by
  simp only [cursor, VersionVector.covers_ofDots, List.mem_filterMap, Dot.new_eq_some, Prod.exists,
    ExtTreeMap.mem_toList_iff_getElem?_eq_some]
  constructor
  · rintro ⟨e, ⟨d, chain, hchain, rfl, hseq⟩, hd, hle⟩
    rw [cursorAt, ← hd, hchain, Option.elim_some, ← hseq]
    exact hle
  · intro hle
    have hpos := dot.seq_pos
    cases hchain : log.chains[dot.deviceId]? with
    | none =>
      rw [cursorAt, hchain, Option.elim_none] at hle
      omega
    | some chain =>
      have hentry : log.cursorEntry chain = log.cursorAt dot.deviceId := by
        rw [cursorAt, hchain, Option.elim_some]
      -- the entry is the place of a link, so it is the entry of a dot
      obtain ⟨l, hl⟩ : ∃ l, log.linkAt dot.deviceId (log.cursorAt dot.deviceId) = some l := by
        simp only [← getElem?_links]
        rcases h.cursorAt_eq dot.deviceId with ⟨s, l, hl, -, heq, -⟩ | ⟨heq, -⟩
        · rw [heq] at hle ⊢
          exact (h.linked dot.deviceId).prev_mem s l (getElem?_links.trans hl) (by omega)
        · rw [heq] at hle ⊢
          exact (h.linked dot.deviceId).head_mem (by omega)
      have hok := h.link _ _ _ hl
      refine ⟨l.header.dot, ⟨dot.deviceId, chain, hchain, hok.deviceId, ?_⟩, hok.deviceId, ?_⟩
      · rw [hok.seq_eq, hentry]
      · rw [hok.seq_eq]
        exact hle

/-! ### The walk of an answer -/

/-- A walk along headers that continue the chain, after some that are held, reports no conflict. -/
theorem walkFrom_isConflict {counts : OpHeader → Bool} {prev : ℕ} {walk : Walk}
    (hwalk : ∀ r ∈ walk.reports, r.isConflict = false)
    (hsorted : served.Pairwise fun a b => a.header.dot.seq < b.header.dot.seq)
    (hheld : ∀ op ∈ served, op.header.dot.seq ≤ prev →
      (log.linkAt device op.header.dot.seq).map Link.header = some op.header)
    (hfollows : Follows prev (served.filter fun op => prev < op.header.dot.seq)) :
    ∀ r ∈ (log.walkFrom device counts prev walk served).reports, r.isConflict = false := by
  have happend : ∀ {reports : List Report} {r : Report}, r.isConflict = false →
      (∀ r ∈ reports, r.isConflict = false) → ∀ r' ∈ reports ++ [r], r'.isConflict = false := by
    intro reports r hr hall r' hr'
    rcases List.mem_append.mp hr' with hr' | hr'
    · exact hall r' hr'
    · rw [List.mem_singleton.mp hr']
      exact hr
  induction served generalizing prev walk with
  | nil => exact hwalk
  | cons op served ih =>
    obtain ⟨hfirst, hsorted⟩ := List.pairwise_cons.mp hsorted
    unfold walkFrom
    dsimp only
    by_cases hle : op.header.dot.seq ≤ prev
    · have hnext : ∀ {walk' : Walk}, (∀ r ∈ walk'.reports, r.isConflict = false) →
          ∀ r ∈ (log.walkFrom device counts prev walk' served).reports, r.isConflict = false :=
        fun hwalk' => ih hwalk' hsorted
          (fun op' hop' => hheld op' (List.mem_cons_of_mem _ hop'))
          (by rwa [List.filter_cons_of_neg (by simpa using hle)] at hfollows)
      rw [if_pos hle]
      split_ifs with hrejected hsame
      · exact hnext hwalk
      · refine hnext ?_
        exact happend rfl hwalk
      · refine absurd ?_ hsame
        rw [hheld op List.mem_cons_self hle, Option.some_or]
    · rw [List.filter_cons_of_pos (by simpa using hle)] at hfollows
      obtain ⟨hprev, -, hrest⟩ := hfollows
      have hall : ∀ n, n ≤ op.header.dot.seq →
          served.filter (fun op => n < op.header.dot.seq) = served := fun n hn =>
        List.filter_eq_self.mpr fun op' hop' => decide_eq_true (hn.trans_lt (hfirst op' hop'))
      have hnext : ∀ {walk' : Walk}, (∀ r ∈ walk'.reports, r.isConflict = false) →
          ∀ r ∈ (log.walkFrom device counts op.header.dot.seq walk' served).reports,
            r.isConflict = false :=
        fun hwalk' => ih hwalk' hsorted
          (fun op' hop' hle' => absurd (hfirst op' hop') (not_lt.mpr hle'))
          (by rw [hall _ le_rfl, ← hall prev (not_le.mp hle).le]; exact hrest)
      rw [if_neg hle]
      split
      · exact happend rfl hwalk
      · rw [if_neg (not_not.mpr hprev)]
        split_ifs
        · exact happend rfl (happend rfl hwalk)
        · exact happend rfl hwalk
        · refine hnext ?_
          exact happend rfl hwalk
        · exact hnext hwalk

/-! ### Committing an answer -/

/-- The answer of a server, as the chain check takes it apart. -/
structure Answered (log : VaultLog) (store : Store) (ops : List ServedOp) : Prop where
  own : ∀ op ∈ ops, op.header.dot.deviceId ≠ log.own
  vaultId : ∀ op ∈ ops, op.header.vaultId = log.vaultId
  sorted : ∀ d, (log.servedOf ops d).Pairwise fun a b => a.header.dot.seq < b.header.dot.seq
  map_header : ∀ d, (log.servedOf ops d).map ServedOp.header =
    (store.headers d).filter fun h => log.cursorAt d < h.dot.seq

theorem Coherent.answered (h : log.Coherent) {store : Store} (hstore : store.Continues log)
    (hops : store.Answers log.cursor ops) : log.Answered store ops := by
  have hserved : ∀ d, ((store.headers d).filter fun h => ¬ log.cursor.covers h.dot) =
      (store.headers d).filter fun h => log.cursorAt d < h.dot.seq := by
    intro d
    refine List.filter_congr fun header hheader => ?_
    rw [decide_eq_decide, h.covers_cursor, (store.placed d header hheader).2, not_le]
  have hmem : ∀ op ∈ ops, op.header ∈ (store.headers op.header.dot.deviceId).filter
      fun h => log.cursorAt op.header.dot.deviceId < h.dot.seq := by
    intro op hop
    rw [← hserved, ← hops]
    exact List.mem_map_of_mem (List.mem_filter.mpr ⟨hop, decide_eq_true rfl⟩)
  have hvault : ∀ op ∈ ops, op.header.vaultId = log.vaultId := fun op hop =>
    (store.placed _ _ (List.mem_filter.mp (hmem op hop)).1).1.trans hstore.vaultId
  have hfilter : ∀ d, (ops.filter fun op => op.header.vaultId = log.vaultId ∧
      op.header.dot.deviceId = d) = ops.filter fun op => op.header.dot.deviceId = d := fun d =>
    List.filter_congr fun op hop => by simp [hvault op hop]
  have hsorted : ∀ d, (ops.filter fun op => op.header.dot.deviceId = d).Pairwise
      fun a b => a.header.dot.seq < b.header.dot.seq := by
    intro d
    have := ((store.chained d).pairwise.filter fun h => ¬ log.cursor.covers h.dot)
    rw [← hops d, List.pairwise_map] at this
    exact this
  have hservedOf : ∀ d, log.servedOf ops d = ops.filter fun op => op.header.dot.deviceId = d := by
    intro d
    rw [servedOf, hfilter]
    exact List.Pairwise.insertionSort_eq ((hsorted d).imp fun hlt => hlt.le)
  refine ⟨fun op hop hown => ?_, hvault, fun d => hservedOf d ▸ hsorted d, fun d => ?_⟩
  · -- the server holds nothing of the own chain past the head
    obtain ⟨hheader, hlt⟩ := List.mem_filter.mp (hmem op hop)
    rw [hown] at hheader hlt
    have hlt := of_decide_eq_true hlt
    obtain ⟨l, hl, -⟩ := h.mem_chain.mp (hstore.own.subset hheader)
    have := h.seq_le_head hl
    rw [h.cursorAt_own] at hlt
    omega
  · rw [hservedOf, hops, hserved]

theorem Answered.mem_headers {store : Store} (hans : log.Answered store ops) :
    ∀ op ∈ ops, op.header ∈ store.headers op.header.dot.deviceId := by
  intro op hop
  have hserved := List.mem_map_of_mem (f := ServedOp.header)
    (mem_servedOf.mpr ⟨hop, hans.vaultId op hop, rfl⟩)
  rw [hans.map_header] at hserved
  exact (List.mem_filter.mp hserved).1

/-- What continues a chain is past its head. -/
theorem Coherent.filter_head_lt (h : log.Coherent) {rest : List OpHeader}
    (hchained : Chained 0 (log.chain d ++ rest)) :
    (log.chain d ++ rest).filter (fun h => log.head d < h.dot.seq) = rest := by
  rw [chained_append, ← (h.chained d).2] at hchained
  rw [List.filter_append, List.filter_eq_self.mpr fun header hheader =>
    decide_eq_true (hchained.2.lt_seq header hheader), List.append_left_eq_self,
    List.filter_eq_nil_iff]
  intro header hheader hlt
  obtain ⟨l, hl, -⟩ := h.mem_chain.mp hheader
  have := h.seq_le_head hl
  have := of_decide_eq_true hlt
  omega

/-- The served headers at or below a head are held, and the others continue the chain. -/
theorem Answered.continues {store : Store} (hans : log.Answered store ops)
    (hstore : store.Continues log) (h : log.Coherent) (hd : d ≠ log.own) :
    (∀ op ∈ log.servedOf ops d, op.header.dot.seq ≤ log.head d →
      (log.linkAt d op.header.dot.seq).map Link.header = some op.header) ∧
    ((log.servedOf ops d).filter fun op => log.head d < op.header.dot.seq).map ServedOp.header =
      (store.headers d).filter (fun h => log.head d < h.dot.seq) ∧
    Follows (log.head d) ((log.servedOf ops d).filter fun op => log.head d < op.header.dot.seq) := by
  obtain ⟨rest, hrest⟩ := hstore.chain d hd
  have hchained := store.chained d
  rw [← hrest, chained_append] at hchained
  rw [← (h.chained d).2] at hchained
  have hpast : (store.headers d).filter (fun h => log.head d < h.dot.seq) = rest :=
    hrest ▸ h.filter_head_lt (hrest.symm ▸ store.chained d)
  have hmap : ((log.servedOf ops d).filter fun op => log.head d < op.header.dot.seq).map
      ServedOp.header = rest := by
    have hcomp : ((log.servedOf ops d).filter fun op => log.head d < op.header.dot.seq).map
        ServedOp.header = ((log.servedOf ops d).map ServedOp.header).filter
          fun h => log.head d < h.dot.seq := by
      rw [List.filter_map]
      rfl
    rw [hcomp, hans.map_header, List.filter_filter, ← hpast]
    refine List.filter_congr fun header _ => ?_
    have := h.cursorAt_le_head d
    simp only [← Bool.decide_and, decide_eq_decide]
    omega
  refine ⟨fun op hop hle => ?_, hmap.trans hpast.symm, ?_⟩
  · have hheader : op.header ∈ store.headers d := by
      have := List.mem_map_of_mem (f := ServedOp.header) hop
      rw [hans.map_header] at this
      exact (List.mem_filter.mp this).1
    rw [← hrest] at hheader
    rcases List.mem_append.mp hheader with hheader | hheader
    · obtain ⟨l, hl, heq⟩ := h.mem_chain.mp hheader
      rw [hl, Option.map_some, heq]
    · have := hchained.2.lt_seq _ hheader
      omega
  · rw [follows_iff_chained, hmap]
    exact hchained.2

theorem group_reports_eq_nil (hvault : ∀ op ∈ ops, op.header.vaultId = log.vaultId)
    (hown : ∀ op ∈ ops, op.header.dot.deviceId ≠ log.own) : (log.group ops).2 = [] := by
  have hstep : ∀ (ops : List ServedOp) acc, (∀ op ∈ ops, op.header.vaultId = log.vaultId) →
      (∀ op ∈ ops, op.header.dot.deviceId ≠ log.own) →
      (ops.foldl log.groupOne acc).2 = acc.2 := by
    intro ops
    induction ops with
    | nil => exact fun _ _ _ => rfl
    | cons op ops ih =>
      intro acc hvault hown
      rw [List.foldl_cons, ih _ (fun op' hop' => hvault op' (List.mem_cons_of_mem _ hop'))
        fun op' hop' => hown op' (List.mem_cons_of_mem _ hop'), groupOne,
        if_neg (not_not.mpr (hvault op List.mem_cons_self)), if_neg (hown op List.mem_cons_self)]
  exact hstep ops (∅, []) hvault hown

/-- What makes the walk of a device's served headers report no conflict. -/
structure Continuing (log : VaultLog) (device : DeviceId) (served : List ServedOp) : Prop where
  sorted : served.Pairwise fun a b => a.header.dot.seq < b.header.dot.seq
  held : ∀ op ∈ served, op.header.dot.seq ≤ log.head device →
    (log.linkAt device op.header.dot.seq).map Link.header = some op.header
  follows : Follows (log.head device)
    (served.filter fun op => log.head device < op.header.dot.seq)

theorem Valid.commitDevices_isConflict (h : log.Valid) {groups : List (DeviceId × List ServedOp)}
    (hgroups : log.GroupsOk groups)
    (hcontinues : ∀ group ∈ groups, log.Continuing group.1 group.2) :
    ∀ r ∈ (log.commitDevices groups).2.reports, r.isConflict = false := by
  induction groups generalizing log with
  | nil => exact fun r hr => absurd hr List.not_mem_nil
  | cons group groups ih =>
    obtain ⟨hnodup, hok⟩ := hgroups
    obtain ⟨hnot, hnodup⟩ := List.nodup_cons.mp hnodup
    obtain ⟨hown, hserved⟩ := hok group List.mem_cons_self
    have hfirst := hcontinues group List.mem_cons_self
    intro r hr
    rcases List.mem_append.mp hr with hr | hr
    · rcases List.mem_append.mp hr with hr | hr
      · exact walkFrom_isConflict (fun r hr => absurd hr List.not_mem_nil) hfirst.sorted hfirst.held
          hfirst.follows r hr
      · obtain ⟨dot, rfl⟩ | ⟨d, n, dot, rfl⟩ := mem_serveAgainAll_reports _ _ r hr <;> rfl
    · obtain ⟨hv, hev, -, hhead, -⟩ := h.commitDevice hown hserved fun _ _ _ => Set.mem_univ _
      refine @ih (log.commitDevice group.1 group.2).1 hv ⟨hnodup, fun g hg => ?_⟩
        (fun g hg => ?_) r hr
      · obtain ⟨ho, hs⟩ := hok g (List.mem_cons_of_mem _ hg)
        exact ⟨hev.own ▸ ho, fun op hop => hev.vaultId ▸ hs op hop⟩
      · have hd : g.1 ≠ group.1 := fun heq => hnot (heq ▸ List.mem_map_of_mem hg)
        have hrest := hcontinues g (List.mem_cons_of_mem _ hg)
        refine ⟨hrest.sorted, fun op hop hle => ?_, ?_⟩
        · rw [hhead _ hd] at hle
          rw [linkAt_commitDevice_of_ne log (fun op hop => (hserved op hop).2) hd]
          exact hrest.held op hop hle
        · rw [hhead _ hd]
          exact hrest.follows

/-- Committing an answer reports no conflict, and gives every rejected link that nothing covers the
state of the body served. -/
theorem Valid.commit_answer (h : log.Valid) {store : Store} (hstore : store.Continues log)
    (hops : store.Answers log.cursor ops) :
    (∀ r ∈ (log.commit ops).2.reports, r.isConflict = false) ∧
      ∀ d s l, log.linkAt d s = some l → l.state = .rejected → ¬ log.holds l →
        ∃ op ∈ ops, op.header = l.header ∧ (log.commit ops).1.linkAt d s =
          some { l with state := .servedAgain op.body } := by
  have hans := h.toCoherent.answered hstore hops
  have hgroups := log.groupsOk_group ops
  refine ⟨fun r hr => ?_, fun d s l hl hstate hholds => ?_⟩
  · rcases List.mem_append.mp hr with hr | hr
    · rcases List.mem_append.mp hr with hr | hr
      · change r ∈ (log.group ops).2 at hr
        rw [group_reports_eq_nil hans.vaultId hans.own] at hr
        exact absurd hr List.not_mem_nil
      · refine h.commitDevices_isConflict hgroups (fun group hgroup => ?_) r hr
        obtain ⟨hown, hserved⟩ := mem_group hgroup
        obtain ⟨hheld, -, hfollows⟩ := hans.continues hstore h.toCoherent hown
        rw [hserved]
        exact ⟨hans.sorted _, hheld, hfollows⟩
    · obtain ⟨itemId, -, hr⟩ := List.mem_flatMap.mp hr
      split at hr
      · exact absurd hr List.not_mem_nil
      · obtain ⟨entry, -, rfl⟩ := List.mem_map.mp hr
        rfl
  · have hok := h.link _ _ _ hl
    have hown : d ≠ log.own := (hok.open (by simp [hstate]) (by simp [hstate])).2
    -- the server holds the link's header past the cursor, so it is served
    have hserved : l.header ∈ (log.servedOf ops d).map ServedOp.header := by
      rw [hans.map_header]
      refine List.mem_filter.mpr ⟨(hstore.chain d hown).subset ?_, decide_eq_true ?_⟩
      · exact h.mem_chain.mpr ⟨l, by rw [hok.seq_eq, hl], rfl⟩
      · rw [hok.seq_eq]
        exact h.cursorAt_lt hl hstate hholds
    obtain ⟨op, hop, hheader⟩ := List.mem_map.mp hserved
    have hl' : log.linkAt d op.header.dot.seq = some l := by rw [hheader, hok.seq_eq, hl]
    have hmem := exists_mem_group hown (List.ne_nil_of_mem hop)
    refine ⟨op, (mem_servedOf.mp hop).1, hheader, ?_⟩
    have hcommit := h.linkAt_commitDevices hgroups hmem (hans.sorted d) hop hl' hheader.symm hstate
      hholds
    rw [hheader, hok.seq_eq] at hcommit
    exact hcommit

/-- Whatever calls came before, a server whose chains continue those of the log answers the cursor
with what commits without a conflict, and every rejected link that nothing covers takes the state of
the body it serves. -/
theorem after_commit_answer (vaultId : VaultId) (own : DeviceId) (calls : List Call) (store : Store)
    (ops : List ServedOp) (hstore : store.Continues (after vaultId own calls))
    (hops : store.Answers (after vaultId own calls).cursor ops) :
    (∀ r ∈ ((after vaultId own calls).commit ops).2.reports, r.isConflict = false) ∧
      ∀ d s l, (after vaultId own calls).linkAt d s = some l → l.state = .rejected →
        ¬ (after vaultId own calls).holds l → ∃ op ∈ ops, op.header = l.header ∧
          ((after vaultId own calls).commit ops).1.linkAt d s =
            some { l with state := .servedAgain op.body } :=
  (valid_after vaultId own calls).commit_answer hstore hops

/-- A header of the second device, on one item and without a context. -/
def plainHeader (seq : NonZeroU64) (prev : ℕ) (hprev : prev < 2 ^ 64) : OpHeader where
  vaultId := ⟨0⟩
  itemId := ⟨7⟩
  opId := ⟨0⟩
  dot := ⟨⟨2⟩, seq⟩
  vaultPrevSeq := prev
  hlc := ⟨0⟩
  itemSchemaVersion := .v1
  vaultKeyEpoch := 1
  causalContext := .ofDots []
  vaultPrevSeq_lt := hprev
  vaultKeyEpoch_lt := Lib.one_lt_u32

/-- Two headers of one chain. -/
def plainHeaders : List OpHeader :=
  [plainHeader ⟨1, Nat.one_pos, Lib.one_lt_u64⟩ 0 Lib.zero_lt_u64,
    plainHeader ⟨3, Lib.zero_lt_three, Lib.three_lt_u64⟩ 1 Lib.one_lt_u64]

/-- A server that holds them. -/
def plainStore : Store where
  vaultId := ⟨0⟩
  headers d := if d = ⟨2⟩ then plainHeaders else []
  chained d := by
    split_ifs
    · exact ⟨rfl, by decide, rfl, by decide, trivial⟩
    · trivial
  placed d h hh := by
    split_ifs at hh with hd
    · obtain rfl | rfl : h = _ ∨ h = _ := by simpa [plainHeaders] using hh
      all_goals exact ⟨rfl, hd.symm⟩
    · exact absurd hh List.not_mem_nil

/-- The first header is accepted with a body that waits, and the body is rejected. -/
def rejectedFirst : List Call :=
  [.commit [⟨plainHeader ⟨1, Nat.one_pos, Lib.one_lt_u64⟩ 0 Lib.zero_lt_u64, .waiting⟩],
    .bodyRejected ⟨⟨2⟩, ⟨1, Nat.one_pos, Lib.one_lt_u64⟩⟩]

/-- The server answers with both headers. -/
theorem plainStore_answers : plainStore.Answers (after ⟨0⟩ ⟨1⟩ rejectedFirst).cursor
    (plainHeaders.map fun header => ⟨header, .verified⟩) := by
  have hcursor : (after ⟨0⟩ ⟨1⟩ rejectedFirst).cursor.dots = [] := by decide +kernel
  have hnew : ∀ dot, ¬ (after ⟨0⟩ ⟨1⟩ rejectedFirst).cursor.covers dot := fun dot hdot => by
    obtain ⟨e, he, -⟩ := VersionVector.covers_iff_exists_mem_dots.mp hdot
    rw [hcursor] at he
    exact List.not_mem_nil he
  intro d
  simp only [hnew, not_false_eq_true, decide_true, List.filter_true]
  by_cases h2 : d = ⟨2⟩
  · subst h2
    rfl
  · have hne : ¬ (⟨2⟩ : DeviceId) = d := fun h => h2 h.symm
    simp [plainStore, plainHeaders, plainHeader, h2, hne]

theorem after_commit_answer_rejectedFirst :
    ((after ⟨0⟩ ⟨1⟩ rejectedFirst).commit
      (plainHeaders.map fun header => ⟨header, .verified⟩)).2.reports.any Report.isConflict =
        false := by
  have hkeys : (after ⟨0⟩ ⟨1⟩ rejectedFirst).chains.keys = [⟨2⟩] := by decide +kernel
  have hchain : (after ⟨0⟩ ⟨1⟩ rejectedFirst).chain ⟨2⟩ = plainHeaders.take 1 := by decide +kernel
  refine List.any_eq_false.mpr fun r hr => Bool.eq_false_iff.mp <|
    (after_commit_answer ⟨0⟩ ⟨1⟩ rejectedFirst plainStore _ ⟨by decide +kernel, fun d hd => ?_,
      ?_⟩ plainStore_answers).1 r hr
  · by_cases h2 : d = ⟨2⟩
    · subst h2
      rw [hchain]
      exact List.take_prefix 1 _
    · have hnone : (after ⟨0⟩ ⟨1⟩ rejectedFirst).chains[d]? = none := by
        refine ExtTreeMap.getElem?_eq_none fun hmem => h2 ?_
        rwa [← ExtTreeMap.mem_keys, hkeys, List.mem_singleton] at hmem
      rw [chain, linksFrom, hnone]
      exact List.nil_prefix
  · have hown : (after ⟨0⟩ ⟨1⟩ rejectedFirst).own = ⟨1⟩ := by decide +kernel
    rw [hown]
    exact List.nil_prefix

end VaultLog

end RizzyVault.Sync.Causal
