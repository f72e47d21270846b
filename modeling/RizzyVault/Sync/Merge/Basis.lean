import RizzyVault.Sync.Merge.Verified

/-!
# The basis and the retained operations

A replica keeps the basis, the state of its newest snapshots, and the operations merged since. What
it has taken is what the basis and the retained operations have taken, and its recorded purge is
the highest of theirs.

## Main definitions

* `TopPurge`: the recorded purge is the highest of some purges.
* `ClosedOver`: a purge context that is causally closed over a set of operations.
* `RebuildInv`: the state has taken what the basis and the retained operations have taken.

## Main results

* `foldRetained_eq`: what folding retained operations into the basis does.
* `RebuildInv.step`: every step keeps the invariant.
* `RebuildInv.foldl_eq`: the state is the join of the basis and the retained operations.
-/

open RizzyVault.Core RizzyVault.Lib

namespace RizzyVault.Sync

open Std (ExtTreeMap ExtTreeSet)
open Relation (ReflTransGen)

variable {ev ev' : Evidence} {s : State} {a b : Content} {m m' : ItemMerge}
  {ops : Finset OpInput} {itemId : ItemId}

/-! ### The recorded purge -/

/-- The recorded purge is the highest of the purges `S`. -/
structure TopPurge (ev : Evidence) (S : Set PurgeRec) (o : Option PurgeRec) : Prop where
  mem : ∀ p ∈ o, p ∈ S
  le : ∀ p ∈ o, ∀ q ∈ S, purgeOrder q ev ≤ purgeOrder p ev
  none : o = none → S = ∅

namespace TopPurge

variable {S S' : Set PurgeRec} {o o' : Option PurgeRec}

theorem self (ev : Evidence) (o : Option PurgeRec) : TopPurge ev {p | p ∈ o} o where
  mem _ hp := hp
  le p hp q hq := by
    cases hp
    cases hq
    exact le_rfl
  none ho := by
    subst ho
    exact Set.eq_empty_of_forall_notMem fun p hp => by cases hp

theorem unique (h : TopPurge ev S o) (h' : TopPurge ev S o') : o = o' := by
  cases o with
  | none =>
    cases o' with
    | none => rfl
    | some q => exact absurd (h.none rfl ▸ h'.mem q rfl) (Set.notMem_empty q)
  | some p =>
    cases o' with
    | none => exact absurd (h'.none rfl ▸ h.mem p rfl) (Set.notMem_empty p)
    | some q =>
      exact congrArg some (purgeOrder_injective ev
        (le_antisymm (h'.le q rfl p (h.mem p rfl)) (h.le p rfl q (h'.mem q rfl))))

/-- The higher of two recorded purges is the highest of both sets. -/
theorem join (h : TopPurge ev S o) (h' : TopPurge ev S' o') :
    TopPurge ev (S ∪ S') (maxPurge ev o o') := by
  cases o with
  | none =>
    rw [h.none rfl, Set.empty_union]
    exact h'
  | some p =>
    cases o' with
    | none =>
      rw [h'.none rfl, Set.union_empty]
      exact h
    | some q =>
      simp only [maxPurge, higherPurge]
      split_ifs with hlt
      · refine ⟨fun r hr => ?_, fun r hr x hx => ?_, fun hn => by cases hn⟩
        · cases hr
          exact .inr (h'.mem q rfl)
        · cases hr
          rcases hx with hx | hx
          · exact (h.le p rfl x hx).trans hlt.le
          · exact h'.le q rfl x hx
      · refine ⟨fun r hr => ?_, fun r hr x hx => ?_, fun hn => by cases hn⟩
        · cases hr
          exact .inl (h.mem p rfl)
        · cases hr
          rcases hx with hx | hx
          · exact h.le p rfl x hx
          · exact (h'.le q rfl x hx).trans (not_lt.mp hlt)

/-- Some of the purges can be replaced by the highest of them. -/
theorem replace (h : TopPurge ev S o) (h' : TopPurge ev (S ∪ S') o') :
    TopPurge ev ({p | p ∈ o} ∪ S') o' where
  mem p hp := by
    rcases h'.mem p hp with hps | hps
    · cases o with
      | none => exact absurd (h.none rfl ▸ hps) (Set.notMem_empty p)
      | some q =>
        have : q = p := purgeOrder_injective ev
          (le_antisymm (h'.le p hp q (.inl (h.mem q rfl))) (h.le q rfl p hps))
        exact .inl (this ▸ rfl)
    · exact .inr hps
  le p hp q hq := by
    rcases hq with hq | hq
    · exact h'.le p hp q (.inl (h.mem q hq))
    · exact h'.le p hp q (.inr hq)
  none ho := by
    have hempty := h'.none ho
    refine Set.eq_empty_of_forall_notMem fun p hp => Set.notMem_empty p ?_
    rw [← hempty]
    exact hp.imp_left (h.mem p)

theorem evidence (h : TopPurge ev S o) (hkeys : ev.wrapKeys = ev'.wrapKeys) :
    TopPurge ev' S o where
  mem := h.mem
  le p hp q hq := by
    have := h.le p hp q hq
    rwa [purgeOrder, purgeOrder, hkeys] at this
  none := h.none

end TopPurge

/-- The purge under another key, if it is the one at `d`. -/
def PurgeRec.rekey (d : Dot) (keyId : SymmetricKeyId) (p : PurgeRec) : PurgeRec :=
  if p.dot = d then { p with keyId } else p

theorem PurgeRec.rekey_rank (d : Dot) (keyId : SymmetricKeyId) (p : PurgeRec) :
    (p.rekey d keyId).rank = p.rank := by
  unfold rekey
  split_ifs <;> rfl

/-- Re-keying the purge of one dot keeps the highest purge the highest: purges of one rank have one
dot, so they are re-keyed together. -/
theorem TopPurge.rekey {S : Set PurgeRec} {o : Option PurgeRec} (h : TopPurge ev S o) (d : Dot)
    (keyId : SymmetricKeyId) :
    TopPurge ev (PurgeRec.rekey d keyId '' S) (o.map (PurgeRec.rekey d keyId)) where
  mem p hp := by
    obtain ⟨q, hq, rfl⟩ := Option.map_eq_some_iff.mp hp
    exact ⟨q, h.mem q hq, rfl⟩
  le p hp q hq := by
    obtain ⟨p, hpo, rfl⟩ := Option.map_eq_some_iff.mp hp
    obtain ⟨q, hq, rfl⟩ := hq
    have hle := h.le p hpo q hq
    rcases (rank_le_of_purgeOrder_le hle).lt_or_eq with hlt | heq
    · refine (purgeOrder_lt_of_rank_lt ?_).le
      rwa [PurgeRec.rekey_rank, PurgeRec.rekey_rank]
    · obtain ⟨hhlc, hdot⟩ := Prod.ext_iff.mp (toLex.injective heq)
      have hdot : q.dot = p.dot := hdot
      have hhlc : q.hlc = p.hlc := hhlc
      unfold PurgeRec.rekey
      rw [hdot]
      split_ifs
      · rw [hhlc]
      · exact hle
  none ho := by
    rw [h.none (Option.map_eq_none_iff.mp ho), Set.image_empty]

theorem purge?_rekeyPurge (s : State) (d : Dot) (keyId : SymmetricKeyId) :
    (ItemMerge.rekeyPurge s d keyId).shape.purge? = s.shape.purge?.map (PurgeRec.rekey d keyId) := by
  rcases s with ⟨vv, l | t⟩
  · rfl
  · simp only [ItemMerge.rekeyPurge]
    split_ifs with hd
    · simp [Shape.purge?, PurgeRec.rekey, hd]
    · simp [Shape.purge?, PurgeRec.rekey, hd]

/-- The purge of an operation, if it is one. -/
def HeldOp.purges (op : HeldOp) : Set PurgeRec :=
  {p | op.lifecycle = .purge ∧ p = ⟨op.dot, op.hlc, op.keyId⟩}

theorem topPurge_singleton (ev : Evidence) (op : HeldOp) :
    TopPurge ev op.purges (singleton op).shape.purge? := by
  have hpurges : {p | p ∈ (singleton op).shape.purge?} = op.purges := by
    ext p
    unfold singleton HeldOp.purges
    cases hl : op.lifecycle with
    | purge =>
      change some _ = some p ↔ _
      simp [eq_comm]
    | active =>
      change none = some p ↔ _
      simp
    | trashed =>
      change none = some p ↔ _
      simp
  exact hpurges ▸ TopPurge.self ev _

/-- The purges among retained operations. -/
def retainedPurges (retained : Bodies) : Set PurgeRec :=
  {p | ∃ (d : Dot) (op : HeldOp), retained[d]? = some op ∧ p ∈ op.purges}

/-! ### Folding operations into a state -/

/-- Joining operations into a state adds their contents and their purges. -/
theorem foldl_joinInto_spec (hc : Causal ev) (l : List HeldOp)
    (hl : ∀ op ∈ l, Represents ev (singleton op) (Content.ofOp op)) {S : Set PurgeRec}
    (hs : Represents ev s b) (hp : TopPurge ev S s.shape.purge?) :
    ∃ b', Represents ev (l.foldl (fun s op => joinInto s (singleton op) ev) s) b' ∧
      (∀ x, b' ≤ x ↔ b ≤ x ∧ ∀ op ∈ l, Content.ofOp op ≤ x) ∧
      TopPurge ev (S ∪ {p | ∃ op ∈ l, p ∈ op.purges})
        (l.foldl (fun s op => joinInto s (singleton op) ev) s).shape.purge? := by
  induction l generalizing s b S with
  | nil => exact ⟨b, hs, by simp, by simpa using hp⟩
  | cons op l ih =>
    have hp' : TopPurge ev (S ∪ op.purges) (joinInto s (singleton op) ev).shape.purge? := by
      rw [purge?_joinInto]
      exact hp.join (topPurge_singleton ev op)
    obtain ⟨b', hb', hle, htop⟩ := ih (fun o ho => hl o (List.mem_cons_of_mem op ho))
      (hs.joinInto hc (hl op List.mem_cons_self)) hp'
    refine ⟨b', hb', fun x => ?_, ?_⟩
    · rw [hle, sup_le_iff, List.forall_mem_cons, and_assoc]
    · have hset : S ∪ op.purges ∪ {p | ∃ o ∈ l, p ∈ o.purges} =
          S ∪ {p | ∃ o ∈ op :: l, p ∈ o.purges} := by
        ext p
        simp [or_assoc]
      exact hset ▸ htop

/-- The operations of `retained` at `dots`. -/
def opsAt (retained : Bodies) (dots : List Dot) : List HeldOp := dots.filterMap fun d => retained[d]?

/-- Folding joins the operations of the dots the basis covers and drops them. -/
theorem foldRetained_eq (retained : Bodies) (base : State) (ev : Evidence) :
    ∃ kept : Bodies, (∀ d : Dot, kept[d]? = if base.vv.covers d then none else retained[d]?) ∧
      ItemMerge.foldRetained retained base ev =
        (kept, (opsAt retained (retained.keys.filter fun d => base.vv.covers d)).foldl
          (fun s op => joinInto s (singleton op) ev) base) := by
  have hfold : ∀ step : Bodies × State → Dot → Bodies × State,
      (∀ acc dot, acc.1[dot]? = none → step acc dot = acc) →
      (∀ acc dot op, acc.1[dot]? = some op →
        step acc dot = (acc.1.erase dot, joinInto acc.2 (singleton op) ev)) →
      ∀ (dots : List Dot), dots.Nodup → ∀ (retained : Bodies) (base : State),
      ∃ kept : Bodies, (∀ d : Dot, kept[d]? = if d ∈ dots then none else retained[d]?) ∧
        dots.foldl step (retained, base) =
          (kept, (opsAt retained dots).foldl (fun s op => joinInto s (singleton op) ev) base) := by
    intro step hnone hsome dots hnodup
    induction dots with
    | nil =>
      intro retained base
      exact ⟨retained, fun d => by simp, rfl⟩
    | cons d dots ih =>
      intro retained base
      obtain ⟨hd, hnodup⟩ := List.nodup_cons.mp hnodup
      cases hop : retained[d]? with
      | none =>
        obtain ⟨kept, hkept, he⟩ := ih hnodup retained base
        refine ⟨kept, fun x => ?_, ?_⟩
        · rw [hkept]
          by_cases hx : x = d
          · subst hx
            simp [hd, hop]
          · simp [hx]
        · rw [List.foldl_cons, hnone _ _ hop, he, opsAt, opsAt, List.filterMap_cons, hop]
      | some op =>
        obtain ⟨kept, hkept, he⟩ := ih hnodup (retained.erase d) (joinInto base (singleton op) ev)
        refine ⟨kept, fun x => ?_, ?_⟩
        · rw [hkept, ExtTreeMap.getElem?_erase_iff]
          by_cases hx : x = d
          · subst hx
            simp
          · simp [hx, Ne.symm hx]
        · have hsame : opsAt (retained.erase d) dots = opsAt retained dots := by
            refine List.filterMap_congr fun x hx => ?_
            rw [ExtTreeMap.getElem?_erase_iff, if_neg]
            rintro rfl
            exact hd hx
          rw [List.foldl_cons, hsome _ _ _ hop, he, hsame, opsAt, opsAt, List.filterMap_cons, hop,
            List.foldl_cons]
  obtain ⟨kept, hkept, he⟩ : ∃ kept : Bodies,
      (∀ d : Dot, kept[d]? = if d ∈ retained.keys.filter fun d => base.vv.covers d then none
        else retained[d]?) ∧
      ItemMerge.foldRetained retained base ev =
        (kept, (opsAt retained (retained.keys.filter fun d => base.vv.covers d)).foldl
          (fun s op => joinInto s (singleton op) ev) base) := by
    refine hfold _ (fun acc dot hop => ?_) (fun acc dot op hop => ?_) _
      (((ExtTreeMap.pairwise_keys retained).imp fun h => h.ne).filter _) retained base
    · obtain ⟨retained, base⟩ := acc
      dsimp only at hop ⊢
      rw [hop]
    · obtain ⟨retained, base⟩ := acc
      dsimp only at hop ⊢
      rw [hop]
  refine ⟨kept, fun d => ?_, he⟩
  have hmem : d ∈ (retained.keys.filter fun d => base.vv.covers d) ↔
      (∃ op, retained[d]? = some op) ∧ base.vv.covers d := by
    rw [List.mem_filter, ExtTreeMap.mem_keys_iff, decide_eq_true_eq]
  rw [hkept]
  by_cases hcov : base.vv.covers d
  · rw [if_pos hcov]
    cases hd : retained[d]? with
    | none => exact ite_self none
    | some op => exact if_pos (hmem.mpr ⟨⟨op, hd⟩, hcov⟩)
  · rw [if_neg hcov, if_neg fun h => hcov (hmem.mp h).2]

/-! ### The invariant -/

/-- An operation of `ops`, under whatever envelope key. -/
def OfOps (ops : Finset OpInput) (o : OpInput) : Prop :=
  ∃ p ∈ ops, o.dot = p.dot ∧ o.facts = p.facts ∧ o.data = p.data

instance (ops : Finset OpInput) (o : OpInput) : Decidable (OfOps ops o) :=
  inferInstanceAs (Decidable (∃ p ∈ ops, _))

/-- With an operation, `c` covers every operation in its context. -/
def ClosedOver (ops : Finset OpInput) (c : VersionVector) : Prop :=
  ∀ o ∈ ops, c.covers o.dot → o.context ≤ c

instance (ops : Finset OpInput) (c : VersionVector) : Decidable (ClosedOver ops c) :=
  inferInstanceAs (Decidable (∀ o ∈ ops, _))

theorem closedOver_new (ops : Finset OpInput) : ClosedOver ops VersionVector.new :=
  fun _ _ hcov => absurd hcov (VersionVector.not_covers_new _)

theorem ClosedOver.sup {c c' : VersionVector} (h : ClosedOver ops c) (h' : ClosedOver ops c') :
    ClosedOver ops (c ⊔ c') := by
  intro o ho hcov
  rcases VersionVector.covers_sup.mp hcov with hcov | hcov
  · exact (h o ho hcov).trans le_sup_left
  · exact (h' o ho hcov).trans le_sup_right

theorem ClosedOver.causallyClosed {c : VersionVector} (h : ClosedOver ops c)
    (hh : HeadersOf ops ev.headers) : CausallyClosed ev c := by
  intro x hx cx hcx d _ hd
  obtain ⟨o, ho, rfl, rfl⟩ := HonestOps.context_of_headers hh hcx
  exact h o ho hx d hd

/-- An honest purge discards a causally closed part of the operations. -/
theorem HonestOps.closedOver_content (hops : HonestOps itemId ops) {o : OpInput} (ho : o ∈ ops) :
    ClosedOver ops o.content.c := by
  intro p hp hcov
  obtain ⟨hl, hcov⟩ := OpInput.covers_content_c.mp hcov
  intro d hd
  exact OpInput.covers_content_c.mpr ⟨hl, hops.closed o ho p hp hcov d hd⟩

/-- The state has taken what the basis and the retained operations have taken, and records the
highest of their purges. -/
structure RebuildInv (ops : Finset OpInput) (a b : Content) (m : ItemMerge) : Prop where
  state : Represents m.evidence m.state a
  base : Represents m.evidence m.base b
  content : ∀ x, a ≤ x ↔
    b ≤ x ∧ ∀ (d : Dot) (op : HeldOp), m.retained[d]? = some op → Content.ofOp op ≤ x
  retained : ∀ (d : Dot) (op : HeldOp), m.retained[d]? = some op → d ∈ m.merged ∧
    ∃ o ∈ ops, o.dot = d ∧ op = { o.held with keyId := op.keyId } ∧ m.headers[d]? = some o.facts
  closed : ClosedOver ops a.c
  purge : TopPurge m.evidence ({p | p ∈ m.base.shape.purge?} ∪ retainedPurges m.retained)
    m.state.shape.purge?

theorem rebuildInv_new (ops : Finset OpInput) (itemId : ItemId) :
    RebuildInv ops ⊥ ⊥ (ItemMerge.new itemId) where
  state := represents_default _
  base := represents_default _
  content x := by simp [ItemMerge.new]
  retained d op h := by simp [ItemMerge.new] at h
  closed := closedOver_new ops
  purge :=
    { mem := fun p hp => by cases hp
      le := fun p hp => by cases hp
      none := fun _ => by
        refine Set.eq_empty_of_forall_notMem fun p hp => ?_
        rcases hp with hp | ⟨d, op, hop, -⟩
        · cases hp
        · simp [ItemMerge.new] at hop }

namespace RebuildInv

/-- A retained operation, as a state, represents its content. -/
theorem singleton (hops : HonestOps itemId ops) (h : RebuildInv ops a b m) {d : Dot} {op : HeldOp}
    (hop : m.retained[d]? = some op) :
    Represents m.evidence (Sync.singleton op) (Content.ofOp op) := by
  obtain ⟨-, o, ho, hd, heq, hrec⟩ := h.retained d op hop
  refine Represents.singleton ?_ ?_
  · rw [heq]
    exact (hops.wellFormed o ho).held
  · rw [heq]
    change (m.headers[o.dot]?).map HeaderFacts.hlc = _
    rw [hd, hrec]
    rfl

/-- In any order, the joins of the basis with the retained operations give the state. -/
theorem foldl_eq (hops : HonestOps itemId ops) (hh : HeadersOf ops m.headers)
    (h : RebuildInv ops a b m) {l : List HeldOp}
    (hl : ∀ op, op ∈ l ↔ ∃ d : Dot, m.retained[d]? = some op) :
    l.foldl (fun s op => joinInto s (Sync.singleton op) m.evidence) m.base = m.state := by
  have hc : Causal m.evidence := hops.causal hh
  obtain ⟨b', hb', hle, htop⟩ := foldl_joinInto_spec hc l
    (fun op hop => by
      obtain ⟨d, hd⟩ := (hl op).mp hop
      exact h.singleton hops hd)
    h.base (TopPurge.self m.evidence m.base.shape.purge?)
  have hcontent : b' = a := by
    refine eq_of_forall_ge_iff fun x => ?_
    rw [hle, h.content]
    refine and_congr_right fun _ => ⟨fun hall d op hop => hall op ((hl op).mpr ⟨d, hop⟩), ?_⟩
    intro hall op hop
    obtain ⟨d, hd⟩ := (hl op).mp hop
    exact hall d op hd
  have hpurges : {p | ∃ op ∈ l, p ∈ op.purges} = retainedPurges m.retained := by
    ext p
    constructor
    · rintro ⟨op, hop, hp⟩
      obtain ⟨d, hd⟩ := (hl op).mp hop
      exact ⟨d, op, hd, hp⟩
    · rintro ⟨d, op, hop, hp⟩
      exact ⟨op, (hl op).mpr ⟨d, hop⟩, hp⟩
  rw [hpurges] at htop
  rw [hcontent] at hb'
  have hclosed : CausallyClosed m.evidence a.c := h.closed.causallyClosed hh
  refine hb'.unique h.state (fun _ _ _ => rfl) hclosed hclosed fun p hp q hq _ => ?_
  have heq := htop.unique h.purge
  rw [hp, hq] at heq
  cases heq
  rfl

theorem record (h : RebuildInv ops a b m) (headers : ExtTreeMap Dot HeaderFacts)
    (hle : m.evidence.HeadersLE ⟨headers, m.wrapKeys⟩) :
    RebuildInv ops a b { m with headers := headers } where
  state := h.state.evidence_mono hle
  base := h.base.evidence_mono hle
  content := h.content
  retained d op hop := by
    obtain ⟨hm, o, ho, hd, heq, hrec⟩ := h.retained d op hop
    exact ⟨hm, o, ho, hd, heq, hle d _ hrec⟩
  closed := h.closed
  purge := h.purge.evidence rfl

theorem merge (hops : HonestOps itemId ops) (hh : HeadersOf ops m.headers)
    (h : RebuildInv ops a b m) {o : OpInput} (ho : OfOps ops o)
    (hrec : m.headers[o.dot]? = some o.facts) (hnew : o.dot ∉ m.merged) :
    RebuildInv ops (a ⊔ Content.ofOp o.held) b (m.joinBody o.held) := by
  have hc : Causal m.evidence := hops.causal hh
  obtain ⟨p, hp, hd, hf, hdata⟩ := ho
  have hheld : o.held = { p.held with keyId := o.keyId } :=
    OpInput.held_eq hd hf hdata o.keyId
  have hret : ∀ (d : Dot) (op : HeldOp), (m.joinBody o.held).retained[d]? = some op ↔
      (o.dot = d ∧ o.held = op) ∨ (o.dot ≠ d ∧ m.retained[d]? = some op) := by
    intro d op
    change (m.retained.insert o.dot o.held)[d]? = some op ↔ _
    rw [ExtTreeMap.getElem?_insert_iff]
    split_ifs with hdo <;> simp [hdo]
  have hfresh : ∀ (d : Dot) (op : HeldOp), m.retained[d]? = some op → o.dot ≠ d := by
    rintro d op hop rfl
    exact hnew (h.retained _ op hop).1
  have hcontent : Content.ofOp o.held = p.content := by
    rw [hheld]
    rfl
  refine
    { state := h.state.merge hc (hdata ▸ hops.wellFormed p hp) hrec
      base := h.base
      content := fun x => ?_
      retained := fun d op hop => ?_
      closed := ?_
      purge := ?_ }
  · rw [sup_le_iff, h.content, and_assoc]
    refine and_congr_right fun _ => ⟨fun ⟨hall, hx⟩ d op hop => ?_, fun hall => ⟨?_, ?_⟩⟩
    · rcases (hret d op).mp hop with ⟨-, rfl⟩ | ⟨-, hop⟩
      · exact hx
      · exact hall d op hop
    · intro d op hop
      exact hall d op ((hret d op).mpr (.inr ⟨hfresh d op hop, hop⟩))
    · exact hall o.dot o.held ((hret _ _).mpr (.inl ⟨rfl, rfl⟩))
  · rcases (hret d op).mp hop with ⟨rfl, rfl⟩ | ⟨-, hop⟩
    · refine ⟨ExtTreeSet.mem_insert.mpr (.inl (compare_eq_iff_eq.mpr rfl)), p, hp, hd.symm, hheld, ?_⟩
      exact hf ▸ hrec
    · obtain ⟨hm, hrest⟩ := h.retained d op hop
      exact ⟨ExtTreeSet.mem_insert.mpr (.inr hm), hrest⟩
  · rw [Content.sup_c, hcontent]
    exact h.closed.sup (hops.closedOver_content hp)
  · have htop := h.purge.join (topPurge_singleton m.evidence o.held)
    have hset : {q | q ∈ m.base.shape.purge?} ∪ retainedPurges m.retained ∪ o.held.purges =
        {q | q ∈ m.base.shape.purge?} ∪ retainedPurges (m.joinBody o.held).retained := by
      rw [Set.union_assoc]
      congr 1
      ext q
      constructor
      · rintro (⟨d, op, hop, hq⟩ | hq)
        · exact ⟨d, op, (hret d op).mpr (.inr ⟨hfresh d op hop, hop⟩), hq⟩
        · exact ⟨o.dot, o.held, (hret _ _).mpr (.inl ⟨rfl, rfl⟩), hq⟩
      · rintro ⟨d, op, hop, hq⟩
        rcases (hret d op).mp hop with ⟨-, rfl⟩ | ⟨-, hop⟩
        · exact .inr hq
        · exact .inl ⟨d, op, hop, hq⟩
    rw [hset, ← purge?_joinInto] at htop
    exact htop

theorem write (h : RebuildInv ops a b m) (count : ℕ) :
    RebuildInv ops a a { m with base := m.state, retained := ∅, opsSinceSnapshot := count } where
  state := h.state
  base := h.state
  content x := by simp
  retained d op hop := by simp at hop
  closed := h.closed
  purge := by
    have hnone : retainedPurges ∅ = ∅ :=
      Set.eq_empty_of_forall_notMem fun p ⟨d, op, hop, _⟩ => by simp at hop
    simp only [hnone, Set.union_empty]
    exact TopPurge.self _ _

theorem reissue (h : RebuildInv ops a b m) (d : Dot) (keyId : SymmetricKeyId) :
    RebuildInv ops a b { m with
      bodies := ItemMerge.rekeyBody m.bodies d keyId
      retained := ItemMerge.rekeyBody m.retained d keyId
      state := ItemMerge.rekeyPurge m.state d keyId
      base := ItemMerge.rekeyPurge m.base d keyId } := by
  have hget : ∀ (x : Dot) (op : HeldOp), (ItemMerge.rekeyBody m.retained d keyId)[x]? = some op ↔
      ∃ op', m.retained[x]? = some op' ∧
        op = if d = x then { op' with keyId := keyId } else op' := by
    intro x op
    rw [getElem?_rekeyBody]
    split_ifs
    · rw [Option.map_eq_some_iff]
      simp only [eq_comm]
    · simp
  have hdot : ∀ (x : Dot) (op : HeldOp), m.retained[x]? = some op → op.dot = x := by
    intro x op hop
    obtain ⟨-, o, -, hx, heq, -⟩ := h.retained x op hop
    rw [heq]
    exact hx
  refine
    { state := h.state.rekeyPurge d keyId
      base := h.base.rekeyPurge d keyId
      content := fun x => ?_
      retained := fun x op hop => ?_
      closed := h.closed
      purge := ?_ }
  · rw [h.content]
    refine and_congr_right fun _ => ⟨fun hall y op hop => ?_, fun hall y op hop => ?_⟩
    · obtain ⟨op', hop', rfl⟩ := (hget y op).mp hop
      have hle := hall y op' hop'
      split_ifs
      · exact hle
      · exact hle
    · have hle := hall y _ ((hget y _).mpr ⟨op, hop, rfl⟩)
      split_ifs at hle
      · exact hle
      · exact hle
  · obtain ⟨op', hop', rfl⟩ := (hget x op).mp hop
    obtain ⟨hm, o, ho, hx, heq, hrec⟩ := h.retained x op' hop'
    refine ⟨hm, o, ho, hx, ?_, hrec⟩
    split_ifs
    · rw [heq]
    · exact heq
  · have htop := h.purge.rekey d keyId
    have hret : retainedPurges (ItemMerge.rekeyBody m.retained d keyId) =
        PurgeRec.rekey d keyId '' retainedPurges m.retained := by
      ext q
      constructor
      · rintro ⟨x, op, hop, hl, rfl⟩
        obtain ⟨op', hop', rfl⟩ := (hget x op).mp hop
        refine ⟨⟨op'.dot, op'.hlc, op'.keyId⟩, ⟨x, op', hop', ?_, rfl⟩, ?_⟩
        · split_ifs at hl
          · exact hl
          · exact hl
        · have hx := hdot x op' hop'
          unfold PurgeRec.rekey
          simp only [hx, eq_comm]
          split_ifs <;> simp [hx]
      · rintro ⟨p, ⟨x, op', hop', hl, rfl⟩, rfl⟩
        have hx := hdot x op' hop'
        refine ⟨x, _, (hget x _).mpr ⟨op', hop', rfl⟩, ?_, ?_⟩
        · split_ifs
          · exact hl
          · exact hl
        · unfold PurgeRec.rekey
          simp only [hx, eq_comm]
          split_ifs <;> simp [hx]
    rw [Set.image_union, ← hret] at htop
    have hbase : PurgeRec.rekey d keyId '' {p | p ∈ m.base.shape.purge?} =
        {p | p ∈ (ItemMerge.rekeyPurge m.base d keyId).shape.purge?} := by
      ext q
      rw [purge?_rekeyPurge]
      exact Option.map_eq_some_iff.symm
    rw [hbase, ← purge?_rekeyPurge] at htop
    exact htop

/-- The basis takes the cut and the retained operations it then covers; the others stay. -/
theorem absorb (hops : HonestOps itemId ops) (hh : HeadersOf ops m.headers)
    (h : RebuildInv ops a b m) {c : Cut} (hcut : cut s (heads m.evidence) m.evidence = .ok c)
    (hclosed : ClosedOver ops c.state.shape.c) (dis : List Dot) :
    ∃ b', RebuildInv ops (a ⊔ Content.ofState c.state) b' (m.absorbCut c dis) := by
  have hc : Causal m.evidence := hops.causal hh
  have htaken := (cut_spec hcut).represents hc
  have hpurge := purge?_normalize c.state m.evidence
  obtain ⟨kept, hkept, hfold⟩ := foldRetained_eq m.retained
    (joinInto m.base (normalize c.state m.evidence) m.evidence) m.evidence
  have hop : ∀ op, op ∈ opsAt m.retained (m.retained.keys.filter fun d =>
      (joinInto m.base (normalize c.state m.evidence) m.evidence).vv.covers d) ↔
      ∃ d : Dot, m.retained[d]? = some op ∧
        (joinInto m.base (normalize c.state m.evidence) m.evidence).vv.covers d := by
    intro op
    simp only [opsAt, List.mem_filterMap, List.mem_filter, ExtTreeMap.mem_keys_iff,
      decide_eq_true_eq]
    constructor
    · rintro ⟨d, ⟨-, hcov⟩, hd⟩
      exact ⟨d, hd, hcov⟩
    · rintro ⟨d, hd, hcov⟩
      exact ⟨d, ⟨⟨op, hd⟩, hcov⟩, hd⟩
  have hjoin : TopPurge m.evidence ({p | p ∈ m.base.shape.purge?} ∪
      {p | p ∈ (normalize c.state m.evidence).shape.purge?})
      (joinInto m.base (normalize c.state m.evidence) m.evidence).shape.purge? := by
    rw [purge?_joinInto]
    exact (TopPurge.self _ _).join (TopPurge.self _ _)
  obtain ⟨b', hb', hle, htop⟩ := foldl_joinInto_spec hc _
    (fun op ho => by
      obtain ⟨d, hd, -⟩ := (hop op).mp ho
      exact h.singleton hops hd)
    (h.base.joinInto hc htaken) hjoin
  have hret : (m.absorbCut c dis).retained = kept := by
    simp only [ItemMerge.absorbCut, hfold]
  have hbase : (m.absorbCut c dis).base = (opsAt m.retained (m.retained.keys.filter fun d =>
      (joinInto m.base (normalize c.state m.evidence) m.evidence).vv.covers d)).foldl
        (fun s op => joinInto s (Sync.singleton op) m.evidence)
        (joinInto m.base (normalize c.state m.evidence) m.evidence) := by
    simp only [ItemMerge.absorbCut, hfold]
  have hstay : ∀ (d : Dot) (op : HeldOp), kept[d]? = some op → m.retained[d]? = some op := by
    intro d op hd
    rw [hkept] at hd
    split_ifs at hd
    exact hd
  refine ⟨b',
    { state := h.state.joinInto hc htaken
      base := by rw [hbase]; exact hb'
      content := fun x => ?_
      retained := fun d op hd => ?_
      closed := h.closed.sup hclosed
      purge := ?_ }⟩
  · rw [hret, hle, sup_le_iff, sup_le_iff, h.content]
    constructor
    · rintro ⟨⟨hb, hall⟩, hx⟩
      refine ⟨⟨⟨hb, hx⟩, fun op ho => ?_⟩, fun d op hd => hall d op (hstay d op hd)⟩
      obtain ⟨d, hd, -⟩ := (hop op).mp ho
      exact hall d op hd
    · rintro ⟨⟨⟨hb, hx⟩, hfolded⟩, hstayed⟩
      refine ⟨⟨hb, fun d op hd => ?_⟩, hx⟩
      by_cases hcov : (joinInto m.base (normalize c.state m.evidence) m.evidence).vv.covers d
      · exact hfolded op ((hop op).mpr ⟨d, hd, hcov⟩)
      · exact hstayed d op (by rw [hkept, if_neg hcov, hd])
  · rw [hret] at hd
    exact h.retained d op (hstay d op hd)
  · rw [hret, hbase]
    refine htop.replace ?_
    have hstate := h.purge.join (TopPurge.self m.evidence (normalize c.state m.evidence).shape.purge?)
    rw [← purge?_joinInto] at hstate
    have hset : {p | p ∈ m.base.shape.purge?} ∪ retainedPurges m.retained ∪
        {p | p ∈ (normalize c.state m.evidence).shape.purge?} =
        {p | p ∈ m.base.shape.purge?} ∪ {p | p ∈ (normalize c.state m.evidence).shape.purge?} ∪
          {p | ∃ op ∈ opsAt m.retained (m.retained.keys.filter fun d =>
            (joinInto m.base (normalize c.state m.evidence) m.evidence).vv.covers d),
            p ∈ op.purges} ∪ retainedPurges kept := by
      have hsplit : retainedPurges m.retained =
          {p | ∃ op ∈ opsAt m.retained (m.retained.keys.filter fun d =>
            (joinInto m.base (normalize c.state m.evidence) m.evidence).vv.covers d),
            p ∈ op.purges} ∪ retainedPurges kept := by
        ext p
        constructor
        · rintro ⟨d, op, hd, hp⟩
          by_cases hcov : (joinInto m.base (normalize c.state m.evidence) m.evidence).vv.covers d
          · exact .inl ⟨op, (hop op).mpr ⟨d, hd, hcov⟩, hp⟩
          · exact .inr ⟨d, op, by rw [hkept, if_neg hcov, hd], hp⟩
        · rintro (⟨op, ho, hp⟩ | ⟨d, op, hd, hp⟩)
          · obtain ⟨d, hd, -⟩ := (hop op).mp ho
            exact ⟨d, op, hd, hp⟩
          · exact ⟨d, op, hstay d op hd, hp⟩
      rw [hsplit]
      ac_rfl
    rw [hset] at hstate
    exact hstate

/-- Every step keeps the invariant, as long as no key is added and absorbed purge contexts are
causally closed. -/
theorem step (hops : HonestOps itemId ops) (hh : HeadersOf ops m'.headers)
    (hkeys : m'.wrapKeys = ∅) (h : RebuildInv ops a b m)
    (hs : Step {o | OfOps ops o} (fun m snapshot => ∀ c,
      cut (State.fromSnapshot snapshot.header.covered snapshot.data) (heads m.evidence)
        m.evidence = .ok c → ClosedOver ops c.state.shape.c) m m') :
    ∃ a' b', RebuildInv ops a' b' m' := by
  have hle := hs.headersLE
  have hh₀ : HeadersOf ops m.headers := fun d f hf => hh d f (hle d f hf)
  cases hs with
  | record header hnew => exact ⟨a, b, h.record _ hle⟩
  | know o ho hrec => exact ⟨a, b, { h with }⟩
  | merge o ho hrec hnew hready => exact ⟨_, b, h.merge hops hh₀ ho hrec hnew⟩
  | absorb snapshot c hok hcut hcon =>
    obtain ⟨b', h'⟩ := h.absorb hops hh₀ hcut (hok c hcut) _
    exact ⟨_, b', h'⟩
  | write hresolved => exact ⟨a, a, h.write 0⟩
  | reissue d keyId hmerged => exact ⟨a, b, h.reissue d keyId⟩
  | addKey keyId =>
    have hmem : keyId ∈ (m.addItemKey keyId).wrapKeys :=
      ExtTreeSet.mem_insert.mpr (.inl (compare_eq_iff_eq.mpr rfl))
    rw [hkeys] at hmem
    simp at hmem
  | note count due surfaced => exact ⟨a, b, { h with }⟩

end RebuildInv

end RizzyVault.Sync
