import RizzyVault.Sync.Merge.Absorb
import RizzyVault.Sync.Merge.Loss

/-!
# Purges are permanent

Whatever a replica is given, its item never comes back from a tombstone and neither its covered
vector nor its tombstone's context shrinks. Over honest operations the recorded purge is the
highest purge the replica covers, and the context joins the contexts of the purges it covers once
every absorbed snapshot came with the headers of what it covers.

## Main definitions

* `Grows`: what a state keeps of an earlier one.
* `CutReplica`: a replica of honest operations that may absorb a snapshot ahead of some headers.
* `PurgeInv`: the recorded purge is the highest purge covered.

## Main results

* `ItemMerge.callAll_grows`: a run of calls only grows the state.
* `CutReplica.purgeInv`: the invariant holds of every such replica.
* `purges_permanent`: the whole statement.
-/

open RizzyVault.Core RizzyVault.Lib

namespace RizzyVault.Sync

open Std (ExtTreeMap ExtTreeSet)
open Relation (ReflTransGen)

/-! ### States only grow -/

/-- A tombstone stays one, and neither the covered vector nor the purge context shrinks. -/
structure Grows (s s' : State) : Prop where
  tomb : s.isTomb → s'.isTomb
  vv : s.vv ≤ s'.vv
  c : s.shape.c ≤ s'.shape.c

variable {s s' s'' : State}

theorem Grows.refl (s : State) : Grows s s := ⟨id, le_rfl, le_rfl⟩

theorem Grows.trans (h : Grows s s') (h' : Grows s' s'') : Grows s s'' :=
  ⟨h'.tomb ∘ h.tomb, h.vv.trans h'.vv, h.c.trans h'.c⟩

theorem c_joinInto (a b : State) (ev : Evidence) :
    (joinInto a b ev).shape.c = a.shape.c ⊔ b.shape.c := by
  rcases a with ⟨va, x | x⟩ <;> rcases b with ⟨vb, y | y⟩
  · exact (VersionVector.sup_new _).symm
  · exact (joinTombInto_spec y (.live x) ev).2.1.trans (sup_comm _ _)
  · exact (joinTombInto_spec x (.live y) ev).2.1
  · exact (joinTombInto_spec x (.tomb y) ev).2.1

theorem grows_joinInto (s s' : State) (ev : Evidence) : Grows s (joinInto s s' ev) where
  tomb h := isTomb_joinInto h s' ev
  vv := le_sup_left
  c := le_sup_left.trans_eq (c_joinInto s s' ev).symm

theorem grows_rekeyPurge (s : State) (d : Dot) (keyId : SymmetricKeyId) :
    Grows s (ItemMerge.rekeyPurge s d keyId) := by
  rcases s with ⟨vv, l | t⟩
  · exact .refl _
  · unfold ItemMerge.rekeyPurge
    simp only
    split_ifs
    · exact ⟨fun _ => rfl, le_rfl, le_rfl⟩
    · exact .refl _

namespace ItemMerge

theorem call_grows (m : ItemMerge) (c : Call) : Grows m.state (m.call c).state := by
  rcases m.call_state c with hs | ⟨d, keyId, hs⟩ | ⟨o, -, -, -, hs⟩ | ⟨taken, -, -, hs⟩
  · exact hs ▸ .refl _
  · exact hs ▸ grows_rekeyPurge _ d keyId
  · exact hs ▸ grows_joinInto _ _ _
  · exact hs ▸ grows_joinInto _ _ _

/-- Whatever the calls bring, the state only grows. -/
theorem callAll_grows (m : ItemMerge) (calls : List Call) :
    Grows m.state (m.callAll calls).state := by
  induction calls generalizing m with
  | nil => exact .refl _
  | cons c calls ih => exact (m.call_grows c).trans (ih (m.call c))

end ItemMerge

/-! ### The recorded purge -/

/-- The rank of an operation. -/
def OpInput.rank (o : OpInput) : Rank := toLex (o.header.hlc, o.dot)

/-- The recorded purge is a covered purge of the set, and the highest one covered. -/
structure PurgeInv (ops : Finset OpInput) (s : State) : Prop where
  recorded : ∀ p ∈ s.shape.purge?, ∃ o ∈ ops, o.data.lifecycle = .purge ∧ o.dot = p.dot ∧
    o.header.hlc = p.hlc ∧ s.vv.covers o.dot
  highest : ∀ o ∈ ops, o.data.lifecycle = .purge → s.vv.covers o.dot →
    ∃ p ∈ s.shape.purge?, o.rank ≤ p.rank

variable {itemId : ItemId} {ops taken : Finset OpInput} {ev : Evidence} {m w : ItemMerge}
  {o : OpInput} {snapshot : SnapshotInput} {withOps : List OpInput}

theorem purgeInv_default (ops : Finset OpInput) : PurgeInv ops State.default where
  recorded p hp := by cases hp
  highest o _ _ hcov := absurd hcov (VersionVector.not_covers_new _)

theorem rank_le_maxPurge_left {p : Option PurgeRec} {r : PurgeRec} (ev : Evidence)
    (q : Option PurgeRec) (hr : r ∈ p) :
    ∃ x ∈ maxPurge ev p q, r.rank ≤ x.rank := by
  cases hr
  exact ⟨_, rfl, (higherPurge_spec ev r q).2.1⟩

theorem rank_le_maxPurge_right {q : Option PurgeRec} {r : PurgeRec} (ev : Evidence)
    (p : Option PurgeRec) (hr : r ∈ q) :
    ∃ x ∈ maxPurge ev p q, r.rank ≤ x.rank := by
  cases p with
  | none => exact ⟨r, hr, le_rfl⟩
  | some p => exact ⟨_, rfl, (higherPurge_spec ev p q).2.2 r hr⟩

theorem PurgeInv.joinInto (h : PurgeInv ops s) (h' : PurgeInv ops s') (ev : Evidence) :
    PurgeInv ops (joinInto s s' ev) where
  recorded p hp := by
    rw [purge?_joinInto] at hp
    rcases mem_maxPurge hp with hp | hp
    · obtain ⟨o, ho, hpurge, hd, hh, hcov⟩ := h.recorded p hp
      exact ⟨o, ho, hpurge, hd, hh, VersionVector.covers_sup.mpr (.inl hcov)⟩
    · obtain ⟨o, ho, hpurge, hd, hh, hcov⟩ := h'.recorded p hp
      exact ⟨o, ho, hpurge, hd, hh, VersionVector.covers_sup.mpr (.inr hcov)⟩
  highest o ho hpurge hcov := by
    rw [purge?_joinInto]
    rcases VersionVector.covers_sup.mp hcov with hcov | hcov
    · obtain ⟨p, hp, hle⟩ := h.highest o ho hpurge hcov
      obtain ⟨q, hq, hpq⟩ := rank_le_maxPurge_left ev s'.shape.purge? hp
      exact ⟨q, hq, hle.trans hpq⟩
    · obtain ⟨p, hp, hle⟩ := h'.highest o ho hpurge hcov
      obtain ⟨q, hq, hpq⟩ := rank_le_maxPurge_right ev s.shape.purge? hp
      exact ⟨q, hq, hle.trans hpq⟩

theorem purge?_singleton (o : OpInput) :
    (singleton o.held).shape.purge? =
      if o.data.lifecycle = .purge then some ⟨o.dot, o.header.hlc, o.keyId⟩ else none := by
  unfold singleton
  rw [OpInput.held_lifecycle]
  cases o.data.lifecycle <;> rfl

/-- Merging a body that is ready covers no operation but it. -/
theorem covers_merge (hops : HonestOps itemId ops) (ho : o ∈ ops) (hready : m.isReady o.header)
    {p : OpInput} (hp : p ∈ ops)
    (hcov : (joinInto m.state (singleton o.held) ev).vv.covers p.dot) :
    m.state.vv.covers p.dot ∨ p = o := by
  change (m.state.vv ⊔ VersionVector.new.add o.dot).covers p.dot at hcov
  rw [VersionVector.covers_sup, VersionVector.covers_add] at hcov
  rcases hcov with hcov | hcov | ⟨hd, hs⟩
  · exact .inl hcov
  · exact absurd hcov (VersionVector.not_covers_new _)
  · rcases hs.lt_or_eq with hs | hs
    · rcases (m.isReady_iff o.header).mp hready with hcov | hle
      · exact .inl (VersionVector.covers_of_le hd.symm hs.le hcov)
      · exact .inl (hle _ (hops.previous o ho p hp hd hs))
    · exact .inr (hops.unique p hp o ho (Dot.ext hd.symm hs))

theorem PurgeInv.merge (hops : HonestOps itemId ops) (h : PurgeInv ops m.state) (ho : o ∈ ops)
    (hready : m.isReady o.header) (ev : Evidence) :
    PurgeInv ops (Sync.joinInto m.state (singleton o.held) ev) where
  recorded p hp := by
    have hself : (Sync.joinInto m.state (singleton o.held) ev).vv.covers o.dot := by
      change (m.state.vv ⊔ VersionVector.new.add o.dot).covers o.dot
      rw [VersionVector.covers_sup, VersionVector.covers_add]
      exact .inr (.inr ⟨rfl, le_rfl⟩)
    rw [purge?_joinInto] at hp
    rcases mem_maxPurge hp with hp | hp
    · obtain ⟨q, hq, hpurge, hd, hh, hcov⟩ := h.recorded p hp
      exact ⟨q, hq, hpurge, hd, hh, VersionVector.covers_sup.mpr (.inl hcov)⟩
    · rw [purge?_singleton] at hp
      split_ifs at hp with hpurge
      · cases hp
        exact ⟨o, ho, hpurge, rfl, rfl, hself⟩
      · cases hp
  highest q hq hpurge hcov := by
    rw [purge?_joinInto]
    rcases covers_merge hops ho hready hq hcov with hcov | rfl
    · obtain ⟨p, hp, hle⟩ := h.highest q hq hpurge hcov
      obtain ⟨x, hx, hpx⟩ :=
        rank_le_maxPurge_left ev (singleton o.held).shape.purge? hp
      exact ⟨x, hx, hle.trans hpx⟩
    · refine rank_le_maxPurge_right (r := ⟨q.dot, q.header.hlc, q.keyId⟩) ev _ ?_
      rw [purge?_singleton, if_pos hpurge]
      rfl

/-- The cut of a snapshot keeps its purge or refuses it. -/
theorem PurgeInv.cut (h : PurgeInv ops s) (hcut : CutSpec ev s s') : PurgeInv ops s' where
  recorded p hp := by
    obtain ⟨o, ho, hpurge, hd, hh, -⟩ := h.recorded p (hcut.purge ▸ hp)
    exact ⟨o, ho, hpurge, hd, hh, hd ▸ (hcut.purge_covered p hp).1⟩
  highest o ho hpurge hcov := by
    rw [hcut.vv, VersionVector.covers_inf] at hcov
    rw [hcut.purge]
    exact h.highest o ho hpurge hcov.1

theorem PurgeInv.normalize (h : PurgeInv ops s) (ev : Evidence) : PurgeInv ops (normalize s ev) where
  recorded p hp := h.recorded p (purge?_normalize s ev ▸ hp)
  highest o ho hpurge hcov := purge?_normalize s ev ▸ h.highest o ho hpurge hcov

theorem PurgeInv.rekeyPurge (h : PurgeInv ops s) (d : Dot) (keyId : SymmetricKeyId) :
    PurgeInv ops (ItemMerge.rekeyPurge s d keyId) := by
  rcases s with ⟨vv, l | t⟩
  · exact h
  · unfold ItemMerge.rekeyPurge
    simp only
    split_ifs
    · refine ⟨fun p hp => ?_, fun o ho hpurge hcov => ?_⟩
      · cases hp
        exact h.recorded t.purge rfl
      · obtain ⟨p, hp, hle⟩ := h.highest o ho hpurge hcov
        cases hp
        exact ⟨_, rfl, hle⟩
    · exact h

theorem PurgeInv.step (absorbs : ItemMerge → SnapshotInput → Prop) {m m' : ItemMerge}
    (hops : HonestOps itemId ops)
    (habsorbs : ∀ m snapshot, absorbs m snapshot →
      PurgeInv ops (State.fromSnapshot snapshot.header.covered snapshot.data))
    (h : PurgeInv ops m.state) (hstep : Step (ops : Set OpInput) absorbs m m') :
    PurgeInv ops m'.state := by
  cases hstep with
  | merge o ho hrec hnew hready => exact h.merge hops ho hready _
  | absorb snapshot c hok hcut hcon =>
    exact h.joinInto (((habsorbs m snapshot hok).cut (cut_spec hcut)).normalize _) _
  | reissue d keyId hmerged => exact h.rekeyPurge d keyId
  | record | know | write | addKey | note => exact h

theorem PurgeInv.steps (absorbs : ItemMerge → SnapshotInput → Prop) {m m' : ItemMerge}
    (hops : HonestOps itemId ops)
    (habsorbs : ∀ m snapshot, absorbs m snapshot →
      PurgeInv ops (State.fromSnapshot snapshot.header.covered snapshot.data))
    (h : PurgeInv ops m.state) (hsteps : ReflTransGen (Step (ops : Set OpInput) absorbs) m m') :
    PurgeInv ops m'.state := by
  induction hsteps with
  | refl => exact h
  | tail _ hstep ih => exact ih.step absorbs hops habsorbs hstep

/-! ### Replicas that cut snapshots -/

/-- A replica that receives honest operations and the snapshots of other such replicas. It need
not know the headers of what a snapshot covers, which is then cut to those it knows. -/
inductive CutReplica (itemId : ItemId) (ops : Finset OpInput) : ItemMerge → Prop
  | new : CutReplica itemId ops (ItemMerge.new itemId)
  | call {m : ItemMerge} (h : CutReplica itemId ops m) (c : Call)
      (hc : ∀ snapshot withOps, c ≠ .absorbSnapshot snapshot withOps) (hops : ∀ o ∈ c.ops, o ∈ ops) :
    CutReplica itemId ops (m.call c)
  | absorbSnapshot {m w : ItemMerge} {snapshot : SnapshotInput} {withOps : List OpInput}
      (h : CutReplica itemId ops m)
      (hw : CutReplica itemId ops w) (hs : SnapshotOf w snapshot) (hwith : ∀ o ∈ withOps, o ∈ ops) :
    CutReplica itemId ops (m.absorbSnapshot snapshot withOps).1

theorem CutReplica.callAll {calls : List Call} (h : CutReplica itemId ops m)
    (hcalls : ∀ c ∈ calls, (∀ snapshot withOps, c ≠ .absorbSnapshot snapshot withOps) ∧
      ∀ o ∈ c.ops, o ∈ ops) : CutReplica itemId ops (m.callAll calls) := by
  induction calls generalizing m with
  | nil => exact h
  | cons c calls ih =>
    have hc := hcalls c List.mem_cons_self
    exact ih (h.call c hc.1 hc.2) fun c' hc' => hcalls c' (List.mem_cons_of_mem c hc')

/-- Replicas that are only given operations and headers. -/
theorem cutReplica_callAll {ops : List OpInput} {calls : List Call}
    (h : ∀ c ∈ calls, (∃ o ∈ ops, c = .applyOp o) ∨ ∃ o ∈ ops, c = .recordHeader o.header) :
    CutReplica itemId ops.toFinset ((ItemMerge.new itemId).callAll calls) := by
  refine .callAll .new fun c hc => ?_
  rcases h c hc with ⟨o, ho, rfl⟩ | ⟨o, -, rfl⟩
  · exact ⟨by simp, by simpa [Call.ops] using ho⟩
  · exact ⟨by simp, by simp [Call.ops]⟩

theorem CutReplica.purgeInv (hops : HonestOps itemId ops) (h : CutReplica itemId ops m) :
    PurgeInv ops m.state := by
  induction h with
  | new => exact purgeInv_default ops
  | call _ c hc hmem ih =>
    exact ih.steps (fun _ _ => False) hops (fun _ _ h => h.elim)
      (ItemMerge.call_steps hmem fun snapshot withOps h => hc snapshot withOps h)
  | @absorbSnapshot m w snapshot withOps _ _ hs hwith ih ihw =>
    refine ih.steps (fun _ s => s = snapshot) hops ?_ (ItemMerge.call_steps
      (c := .absorbSnapshot snapshot withOps) hwith fun s _ h => ?_)
    · rintro _ _ rfl
      exact hs.fromSnapshot_eq ▸ ihw
    · cases h
      rfl

theorem HonestReplica.cutReplica (h : HonestReplica itemId ops taken m) :
    CutReplica itemId ops m := by
  induction h with
  | new => exact .new
  | recordHeader _ ho ih => exact ih.call (.recordHeader _) (by simp) (by simp [Call.ops])
  | addItemKey _ keyId ih => exact ih.call (.addItemKey keyId) (by simp) (by simp [Call.ops])
  | applyOp _ ho hok ih => exact ih.call (.applyOp _) (by simp) (by simpa [Call.ops] using ho)
  | notReady _ ho herr ih => exact ih.call (.applyOp _) (by simp) (by simpa [Call.ops] using ho)
  | applyOwnOp _ ho own hok ih =>
    exact ih.call (.applyOwnOp _ own) (by simp) (by simpa [Call.ops] using ho)
  | absorbSnapshot _ _ hs hwith _ ih ihw => exact ih.absorbSnapshot ihw hs hwith
  | writeSnapshot _ ih => exact ih.call .writeSnapshot (by simp) (by simp [Call.ops])
  | endFetch _ ih => exact ih.call .endFetch (by simp) (by simp [Call.ops])
  | markSurfaced _ ih => exact ih.call .markSurfaced (by simp) (by simp [Call.ops])

/-- What is merged stays covered. -/
theorem ItemMerge.covers_of_merged_call (h : ∀ d ∈ m.merged, m.state.vv.covers d) (c : Call) :
    ∀ d ∈ (m.call c).merged, (m.call c).state.vv.covers d := by
  have hsteps : ReflTransGen (Step Set.univ fun _ _ => True) m (m.call c) :=
    ItemMerge.call_steps (by simp) (by simp)
  generalize m.call c = m' at hsteps
  induction hsteps with
  | refl => exact h
  | @tail m₁ m₂ _ hstep ih =>
    cases hstep with
    | merge o ho hrec hnew hready =>
      intro d hd
      change (m₁.state.vv ⊔ VersionVector.new.add o.dot).covers d
      rw [VersionVector.covers_sup, VersionVector.covers_add]
      rcases ExtTreeSet.mem_insert.mp hd with hd | hd
      · cases compare_eq_iff_eq.mp hd
        exact .inr (.inr ⟨rfl, le_rfl⟩)
      · exact .inl (ih d hd)
    | absorb snapshot c hok hcut hcon =>
      exact fun d hd => (grows_joinInto _ _ _).vv d (ih d hd)
    | reissue d keyId hmerged => exact fun x hx => (grows_rekeyPurge _ _ _).vv x (ih x hx)
    | record | know | write | addKey | note => exact ih

theorem CutReplica.covers_of_merged (h : CutReplica itemId ops m) :
    ∀ d ∈ m.merged, m.state.vv.covers d := by
  induction h with
  | new => exact fun d hd => absurd hd (by simp [ItemMerge.new])
  | call _ c _ _ ih => exact ItemMerge.covers_of_merged_call ih c
  | absorbSnapshot _ _ _ _ ih _ => exact ItemMerge.covers_of_merged_call ih (.absorbSnapshot _ _)

/-- The purges of the set that are merged or covered. -/
def coveredPurges (ops : Finset OpInput) (m : ItemMerge) : Finset OpInput :=
  ops.filter fun o => o.data.lifecycle = .purge ∧ (o.dot ∈ m.merged ∨ m.state.vv.covers o.dot)

theorem CutReplica.mem_coveredPurges (h : CutReplica itemId ops m) :
    o ∈ coveredPurges ops m ↔ o ∈ ops ∧ o.data.lifecycle = .purge ∧ m.state.vv.covers o.dot := by
  simp only [coveredPurges, Finset.mem_filter]
  constructor
  · rintro ⟨ho, hpurge, hcov⟩
    exact ⟨ho, hpurge, hcov.elim (h.covers_of_merged _) id⟩
  · rintro ⟨ho, hpurge, hcov⟩
    exact ⟨ho, hpurge, .inr hcov⟩

/-- The item is a tombstone once a purge is covered, and records the highest one. -/
theorem CutReplica.recorded (hops : HonestOps itemId ops) (h : CutReplica itemId ops m) :
    (m.state.isTomb ↔ (coveredPurges ops m).Nonempty) ∧
      ∀ t, m.state.shape = .tomb t → ∃ o ∈ coveredPurges ops m, o.dot = t.purge.dot ∧
        o.header.hlc = t.purge.hlc ∧ ∀ p ∈ coveredPurges ops m, p.rank ≤ o.rank := by
  have hinv := h.purgeInv hops
  have hrecorded : ∀ t, m.state.shape = .tomb t → ∃ o ∈ coveredPurges ops m, o.dot = t.purge.dot ∧
      o.header.hlc = t.purge.hlc ∧ ∀ p ∈ coveredPurges ops m, p.rank ≤ o.rank := by
    intro t ht
    have hpurge? : m.state.shape.purge? = some t.purge := by rw [ht]; rfl
    obtain ⟨o, ho, hpurge, hd, hh, hcov⟩ := hinv.recorded t.purge hpurge?
    have hrank : o.rank = t.purge.rank := by rw [OpInput.rank, hd, hh]; rfl
    refine ⟨o, h.mem_coveredPurges.mpr ⟨ho, hpurge, hcov⟩, hd, hh, fun p hp => ?_⟩
    obtain ⟨hp, hpp, hpc⟩ := h.mem_coveredPurges.mp hp
    obtain ⟨q, hq, hle⟩ := hinv.highest p hp hpp hpc
    cases hpurge?.symm.trans hq
    rwa [hrank]
  refine ⟨⟨fun htomb => ?_, ?_⟩, hrecorded⟩
  · cases hs : m.state.shape with
    | live l =>
      rw [State.isTomb, hs] at htomb
      cases htomb
    | tomb t =>
      obtain ⟨o, ho, -⟩ := hrecorded t hs
      exact ⟨o, ho⟩
  · rintro ⟨o, ho⟩
    obtain ⟨ho, hpurge, hcov⟩ := h.mem_coveredPurges.mp ho
    obtain ⟨p, hp, -⟩ := hinv.highest o ho hpurge hcov
    cases hs : m.state.shape with
    | live l =>
      rw [hs] at hp
      cases hp
    | tomb t => rw [State.isTomb, hs]

/-- With the headers of every absorbed snapshot known, the context joins those of the purges. -/
theorem HonestReplica.context_eq (hops : HonestOps itemId ops)
    (h : HonestReplica itemId ops taken m) {t : Tomb} (ht : m.state.shape = .tomb t) :
    t.c = (coveredPurges ops m).sup OpInput.context := by
  obtain ⟨hinv, -⟩ := h.inv hops
  have hrep := hinv.represents.shape
  rw [ht] at hrep
  refine VersionVector.ext_covers fun d => ?_
  rw [hrep.c, covers_c_contentOf, VersionVector.covers_finset_sup]
  refine exists_congr fun o => ?_
  rw [OpInput.covers_content_c, h.cutReplica.mem_coveredPurges, hinv.represents.vv, ← and_assoc]
  refine and_congr_left fun _ => ?_
  constructor
  · rintro ⟨ho, hpurge⟩
    have hop := hinv.subset ho
    exact ⟨hop, hpurge, (hops.covers_iff hinv.subset hinv.closed hop).mpr ho⟩
  · rintro ⟨ho, hpurge, hcov⟩
    exact ⟨(hops.covers_iff hinv.subset hinv.closed ho).mp hcov, hpurge⟩

/-- Purges are permanent: no run of calls, whatever it brings, makes a tombstone live or shrinks
the covered vector or the purge context; over honest operations the item is a tombstone once a
purge is merged or covered and records the highest such purge, and its context is the join of their
contexts if each snapshot was absorbed with the headers of what it covers known. -/
theorem purges_permanent :
    (∀ (m : ItemMerge) (calls : List Call), Grows m.state (m.callAll calls).state) ∧
    ∀ (itemId : ItemId) (ops : Finset OpInput), HonestOps itemId ops →
      (∀ m, CutReplica itemId ops m →
        (m.state.isTomb ↔ (coveredPurges ops m).Nonempty) ∧
        ∀ t, m.state.shape = .tomb t → ∃ o ∈ coveredPurges ops m, o.dot = t.purge.dot ∧
          o.header.hlc = t.purge.hlc ∧ ∀ p ∈ coveredPurges ops m, p.rank ≤ o.rank) ∧
      ∀ taken m, HonestReplica itemId ops taken m → ∀ t, m.state.shape = .tomb t →
        t.c = (coveredPurges ops m).sup OpInput.context :=
  ⟨ItemMerge.callAll_grows, fun _ _ hops =>
    ⟨fun _ h => h.recorded hops, fun _ _ h _ ht => h.context_eq hops ht⟩⟩

theorem purges_permanent_sampleOps :
    ∀ t, sampleWriter.state.shape = .tomb t →
      t.c = (coveredPurges sampleOps.toFinset sampleWriter).sup OpInput.context :=
  (purges_permanent.2 ⟨0⟩ sampleOps.toFinset (by decide +kernel)).2 _ _ honestReplica_sampleWriter

/-- Two devices purge the item; the one with the lower clock value saw two other devices trash it,
one of which a third device saw too. -/
def concurrentPurges : List OpInput :=
  let t : Dot := .sample 1 1
  let x : Dot := .sample 2 1
  let z : Dot := .sample 5 1
  [.sample t ⟨5⟩ [] ⟨.trashed, []⟩, .sample (.sample 1 2) ⟨9⟩ [t] ⟨.purge, []⟩,
    .sample x ⟨5⟩ [] ⟨.trashed, []⟩, .sample (.sample 3 1) ⟨6⟩ [x] (OpInput.sampleWrite [1]),
    .sample z ⟨5⟩ [] ⟨.trashed, []⟩, .sample (.sample 4 1) ⟨7⟩ [x, z] ⟨.purge, []⟩]

/-- A replica that applied the concurrent purges. -/
def purgedWriter : ItemMerge :=
  (ItemMerge.new ⟨0⟩).callAll (concurrentPurges.map .applyOp)

/-- A replica that knows the headers up to the write of the third device. -/
def partialReader : ItemMerge :=
  (ItemMerge.new ⟨0⟩).callAll ((concurrentPurges.take 4).map fun o => .recordHeader o.header)

/-- The tombstone the writer writes, with the write of the third device as a late value. -/
def purgedTombstone : SnapshotInput :=
  let y : Dot := .sample 3 1
  .sample (concurrentPurges.map OpInput.dot) (.tombstone ⟨.sample 1 2, ⟨9⟩,
    .ofDots [.sample 1 1, .sample 2 1, .sample 5 1], ⟨0⟩, [⟨OpInput.sampleKey, [⟨y, ⟨6⟩, [1]⟩]⟩]⟩)

theorem cutReplica_purgedWriter : CutReplica ⟨0⟩ concurrentPurges.toFinset purgedWriter :=
  cutReplica_callAll fun c hc => by
    obtain ⟨o, ho, rfl⟩ := List.mem_map.mp hc
    exact .inl ⟨o, ho, rfl⟩

theorem cutReplica_partialReader : CutReplica ⟨0⟩ concurrentPurges.toFinset partialReader :=
  cutReplica_callAll fun c hc => by
    obtain ⟨o, ho, rfl⟩ := List.mem_map.mp hc
    exact .inr ⟨o, List.mem_of_mem_take ho, rfl⟩

theorem snapshotOf_purgedTombstone : SnapshotOf purgedWriter purgedTombstone where
  item := by decide +kernel
  schema := by decide +kernel
  written := by
    refine ⟨purgedWriter.writeSnapshot.2.toOption.get (by decide +kernel), ?_, ?_, ?_⟩
    · decide +kernel
    · decide +kernel
    · decide +kernel

/-- The context does not cover the dot of the purge itself; and where a snapshot is absorbed ahead
of some headers, it is the join of contexts neither of the purges then covered nor of those the
snapshot covers. -/
theorem context_not_join_of_dots :
    (HonestReplica ⟨0⟩ sampleOps.toFinset (sampleOps.foldl (fun s o => insert o s) ∅) sampleWriter ∧
      sampleWriter.state.isTomb ∧ sampleWriter.state.shape.c ≠
        (coveredPurges sampleOps.toFinset sampleWriter).sup fun o => o.context.add o.dot) ∧
    ∃ m, m = (partialReader.absorbSnapshot purgedTombstone []).1 ∧
      HonestOps ⟨0⟩ concurrentPurges.toFinset ∧ CutReplica ⟨0⟩ concurrentPurges.toFinset m ∧
      m.state.isTomb ∧
      m.state.shape.c ≠ (coveredPurges concurrentPurges.toFinset m).sup OpInput.context ∧
      m.state.shape.c ≠ (coveredPurges concurrentPurges.toFinset purgedWriter).sup OpInput.context := by
  refine ⟨⟨honestReplica_sampleWriter, by decide +kernel, by decide +kernel⟩, _, rfl, ?_, ?_, ?_⟩
  · decide +kernel
  · exact cutReplica_partialReader.absorbSnapshot cutReplica_purgedWriter
      snapshotOf_purgedTombstone (by simp)
  · decide +kernel

end RizzyVault.Sync
