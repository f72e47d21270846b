import RizzyVault.Sync.Merge.Agreement
import RizzyVault.Sync.Merge.HonestRun

/-!
# Snapshots of honest replicas

The state of a replica of honest operations passes every check of another replica that recorded
the headers of what it covers: the cut leaves it whole, no known body contradicts it, and the two
replicas have nothing to disagree on.

## Main definitions

* `HonestState`: a state that has taken the operations `taken`, as any replica reads it.

## Main results

* `Represents.normalize_eq`: a state in normal form is its own normal form.
* `Represents.accountsFor`: a state accounts for every value it has taken.
* `HonestState.cut_eq`, `HonestState.consistentWith`, `HonestState.disagreements_eq`: the checks.
* `HonestInv.absorbRecorded`: absorbing such a state takes the operations it has taken.
-/

open RizzyVault.Core RizzyVault.Lib

namespace RizzyVault.Sync

open Std (ExtTreeMap ExtTreeSet)

variable {ev ev' : Evidence} {s : State} {a : Content}

attribute [ext] Tomb

/-! ### Normal forms -/

/-- A state in normal form is its own normal form. -/
theorem Represents.normalize_eq (hc : Causal ev) (h : Represents ev s a) :
    Sync.normalize s ev = s := by
  have hs := h.shape
  rcases s with ⟨vv, l | t⟩
  · have hkey : ∀ k, liveKey (l.valuesAt k) ev = liveKey (a.valList k) ev := fun k => by
      rw [hs.valuesAt, liveKey_heldVals hc (h.vouched.list k)]
    have hkept := kept_foldl_setLiveKey (fun _ key => valuesOf key [l.regs, l.hist]) ev
      (keysOf [l.regs, l.hist]) (x := ⟨∅, ∅⟩) ⟨noEmpty_empty, noEmpty_empty⟩
    have hregs := hkept.regs.ext hs.kept.regs fun k => by
      rw [(lookup_normalize_live l ev k).1, hkey, hs.regs]
    have hhist := hkept.hist.ext hs.kept.hist fun k => by
      rw [(lookup_normalize_live l ev k).2, hkey, hs.hist]
    simp only [Sync.normalize, State.mk.injEq, Shape.live.injEq, true_and]
    rcases l with ⟨regs, hist⟩
    exact congrArg₂ Live.mk hregs hhist
  · obtain ⟨htc, hp, hkept, hl⟩ := lookup_normalize_tomb t ev
    have hlate := hkept.ext hs.kept fun k => by
      rw [hl k]
      split_ifs with hk
      · have hlk := hs.late k hk
        rw [maximal_fst_eq_self hlk.sorted hlk.independent, List.filter_eq_self]
        intro v hv
        rw [hs.c]
        simpa using hlk.not_covers v hv
      · rw [not_not.mp hk, hs.lifecycle]
    simp only [Sync.normalize, State.mk.injEq, Shape.tomb.injEq, true_and]
    exact Tomb.ext hp htc hlate

/-- A state in normal form stays so under other headers, as long as those of its values agree. -/
theorem Represents.transfer (h : Represents ev s a) (hclosed : CausallyClosed ev a.c)
    (hsame : ∀ k, ∀ v ∈ a.valList k, ev'.headers[v.dot]? = ev.headers[v.dot]?) :
    Represents ev' s a where
  vv := h.vv
  vouched k v hv := by
    rw [Evidence.hlc, hsame k v (Content.mem_valList.mpr hv)]
    exact h.vouched k v hv
  shape := by
    have hmax : ∀ k, maximal (a.valList k) ev' = maximal (a.valList k) ev := fun k =>
      maximal_evidence_congr (hsame k)
    have hs := h.shape
    rcases s with ⟨vv, l | t⟩
    · exact
        { kept := hs.kept
          purges := hs.purges
          c := hs.c
          regs := fun k => (hs.regs k).trans (by rw [liveKey, liveKey, hmax])
          hist := fun k => (hs.hist k).trans (by rw [liveKey, liveKey, hmax]) }
    · refine
        { kept := hs.kept
          purge_mem := hs.purge_mem
          le_purge := hs.le_purge
          c := hs.c
          lifecycle := hs.lifecycle
          late := fun k hk => ?_ }
      have hlate := hs.late k hk
      refine
        { sorted := hlate.sorted
          independent := fun u hu v hv huv => hlate.independent u hu v hv ?_
          mem := hlate.mem
          not_covers := hlate.not_covers
          mem_iff := fun v hout => ?_ }
      · rwa [Supersedes, Evidence.context, hsame k u (hlate.mem u hu)] at huv
      · rw [hmax]
        by_cases hv : v ∈ a.valList k
        · refine hlate.mem_iff v fun hcl => hout (.inl ?_)
          exact hclosed.covers_of_closure (h.vouched k v (Content.mem_valList.mp hv)) hcl
        · exact iff_of_false (fun h => hv (hlate.mem v h)) fun h => hv (mem_maximal_fst.mp h).1.1

/-- A state holds only values it has taken. -/
theorem Represents.mem_vals (h : Represents ev s a) {k : Bytes} {v : Val}
    (hv : v ∈ s.shape.valuesAt k) : v ∈ a.vals k := by
  have hs := h.shape
  rcases s with ⟨vv, l | t⟩
  · change v ∈ l.valuesAt k at hv
    rw [hs.valuesAt] at hv
    exact Content.mem_valList.mp (mem_of_mem_heldVals hv)
  · change v ∈ lookup t.late k at hv
    by_cases hk : k = lifecycleKey
    · rw [hk, hs.lifecycle] at hv
      exact absurd hv List.not_mem_nil
    · exact Content.mem_valList.mp ((hs.late k hk).mem v hv)

theorem exists_current_version {vs : List Val} (ev : Evidence) {d : Dot}
    (hd : d ∈ current (Supersedes ev) (dotsOf vs)) : ∃ v ∈ (maximal vs ev).1, v.dot = d := by
  obtain ⟨u, hu, rfl⟩ := mem_dotsOf.mp (mem_current.mp hd).1
  obtain ⟨v, hvd, hver⟩ := exists_isVersion ev hu
  exact ⟨v, mem_liveKey_fst.mpr ⟨hver, hvd ▸ hd⟩, hvd⟩

theorem retainValues_eq_self {regs : Regs} {p : Val → Bool} (hne : NoEmpty regs)
    (h : ∀ k, ∀ v ∈ lookup regs k, p v) : retainValues regs p = regs := by
  refine (noEmpty_retainValues regs p).ext hne fun k => ?_
  rw [lookup_retainValues, List.filter_eq_self]
  exact h k

theorem takeRegs_eq_self {regs : Regs} {vv : VersionVector} (hne : NoEmpty regs)
    (h : ∀ k, ∀ v ∈ lookup regs k, vv.covers v.dot ∧ vouched ev v) : takeRegs vv ev regs = regs :=
  retainValues_eq_self hne fun k v hv => by simp [h k v hv]

theorem ignoredDots_eq_nil {regs : Regs} {vv : VersionVector}
    (h : ∀ k, ∀ v ∈ lookup regs k, vv.covers v.dot ∧ vouched ev v) :
    ignoredDots vv ev regs = [] := by
  rw [ignoredDots, List.flatMap_eq_nil_iff]
  rintro ⟨k, values⟩ hmem
  rw [ExtTreeMap.mem_toList_iff_getElem?_eq_some] at hmem
  rw [List.map_eq_nil_iff, List.filter_eq_nil_iff]
  intro v hv
  have := (h k v (by rw [lookup_eq_getD, hmem]; exact hv)).2
  simp [this]

/-- A state accounts for every value it has taken. -/
theorem Represents.accountsFor (hc : Causal ev) (hclosed : CausallyClosed ev a.c)
    (h : Represents ev s a) {k : Bytes} {v : Val} (hv : v ∈ a.vals k) :
    Sync.accountsFor s (index s ev) k v := by
  have hmem := mem_dotsOf_of_mem (Content.mem_valList.mpr hv)
  have hs := h.shape
  -- A current value of the key with a dot outside the purge context is held.
  have hheld : (∀ t, s.shape = .tomb t → k ≠ lifecycleKey ∧ ¬ t.c.covers v.dot) →
      ∀ u ∈ (maximal (a.valList k) ev).1, (u.dot = v.dot ∨ Supersedes ev u.dot v.dot) →
        u ∈ lookup s.shape.current k := by
    intro hlate u hu hdot
    rcases s with ⟨vv, l | t⟩
    · change u ∈ lookup l.regs k
      rw [hs.regs]
      exact hu
    · obtain ⟨hk, hcov⟩ := hlate t rfl
      refine ((hs.late k hk).mem_iff u fun hcl => hcov ?_).mpr hu
      rw [hs.c]
      rcases hdot with hdot | hdot
      · exact hclosed.covers_of_closure (h.vouched k v hv) (hdot ▸ hcl)
      · exact hclosed.covers_of_closure (h.vouched k v hv) (hcl.of_supersedes hc hdot)
  by_cases hlate : ∀ t, s.shape = .tomb t → k ≠ lifecycleKey ∧ ¬ t.c.covers v.dot
  · rcases mem_current_or_mem_superseded (Supersedes ev) hmem with hcur | hsup
    · obtain ⟨u, hu, hd⟩ := exists_current_version ev hcur
      exact accountsFor_of_held
        (mem_valuesAt_iff.mpr (List.mem_append_left _ (hheld hlate u hu (.inl hd)))) hd
    · obtain ⟨w, hw, hwv⟩ := exists_current_of_superseded (hc.strictOn _) hsup
      obtain ⟨u, hu, rfl⟩ := exists_current_version ev hw
      exact accountsFor_of_superseded (hheld hlate u hu (.inr hwv)) hwv
  · push Not at hlate
    obtain ⟨t, ht, hdisc⟩ := hlate
    refine accountsFor_of_discarded ht ?_
    by_cases hk : k = lifecycleKey
    · exact .inl hk
    · exact .inr (hdisc hk)

/-! ### States of honest replicas -/

/-- A state that has taken the operations `taken`, as every replica reads it that recorded their
headers. -/
structure HonestState (ops taken : Finset OpInput) (s : State) : Prop where
  subset : taken ⊆ ops
  closed : HonestOps.Closed ops taken
  represents : ∀ ev : Evidence, HeadersOf ops ev.headers →
    (∀ o ∈ taken, ev.headers[o.dot]? = some o.facts) → Represents ev s (contentOf taken)
  purge : ∀ p ∈ s.shape.purge?, ∃ o ∈ ops, o.dot = p.dot ∧ o.keyId = p.keyId

/-- What an honest replica holds is such a state. -/
theorem HonestInv.honestState {itemId : ItemId} {ops taken : Finset OpInput} {m : ItemMerge}
    (hops : HonestOps itemId ops) (h : HonestInv itemId ops taken m) (hk : KeyInv ops m) :
    HonestState ops taken m.state where
  subset := h.subset
  closed := h.closed
  represents ev _ hrec := by
    refine h.represents.transfer (h.causallyClosed hops) fun k v hv => ?_
    obtain ⟨o, ho, hd, hf⟩ := h.facts_of_val hv
    exact (hd ▸ hrec o ho).trans hf.symm
  purge := hk.purge

/-- A value of an honest operation is determined by its dot and key. -/
theorem HonestOps.val_eq {itemId : ItemId} {ops : Finset OpInput} (hops : HonestOps itemId ops)
    {o p : OpInput} (ho : o ∈ ops) (hp : p ∈ ops) {k : Bytes} {u v : Val}
    (hu : u ∈ o.content.vals k) (hv : v ∈ p.content.vals k) (hd : u.dot = v.dot) : u = v := by
  obtain ⟨-, hud, huh, huw⟩ := OpInput.mem_content_vals.mp hu
  obtain ⟨-, hvd, hvh, hvw⟩ := OpInput.mem_content_vals.mp hv
  have hop : o = p := hops.unique o ho p hp (by rw [← hud, ← hvd, hd])
  subst hop
  have hwf : o.held.WellFormed := (hops.wellFormed o ho).held
  have hval : u.value = v.value :=
    congrArg Prod.snd (List.inj_on_of_nodup_map hwf huw hvw rfl)
  rcases u with ⟨ud, uh, uv⟩
  rcases v with ⟨vd, vh, vv⟩
  simp only at hd huh hvh hval
  rw [hd, huh, hvh, hval]

namespace HonestState

variable {itemId : ItemId} {ops taken taken' : Finset OpInput} {s' : State} {bodies : Bodies}

section

variable (hops : HonestOps itemId ops) (hh : HeadersOf ops ev.headers)
  (hrec : ∀ o ∈ taken, ev.headers[o.dot]? = some o.facts) (h : HonestState ops taken s)

include hh hrec h

theorem op_of_value {k : Bytes} {v : Val} (hv : v ∈ s.shape.valuesAt k) :
    ∃ o ∈ taken, v ∈ o.content.vals k :=
  mem_vals_contentOf.mp ((h.represents ev hh hrec).mem_vals hv)

theorem covers_c {d : Dot} :
    s.shape.c.covers d ↔ ∃ o ∈ taken, o.data.lifecycle = .purge ∧ o.context.covers d := by
  rw [(h.represents ev hh hrec).shapeRep.c, covers_c_contentOf]
  simp only [OpInput.covers_content_c]

theorem vv_le_heads : s.vv ≤ heads ev := by
  intro d hd
  rw [(h.represents ev hh hrec).vv, covers_contentOf] at hd
  obtain ⟨o, ho, hdev, hseq⟩ := hd
  exact covers_heads.mpr
    ⟨o.dot, ExtTreeMap.mem_iff_isSome_getElem?.mpr (by rw [hrec o ho]; rfl), hdev, hseq⟩

theorem claimCuts_eq (author : DeviceId) : claimCuts s.vv (heads ev) author = [] := by
  rw [claimCuts, List.map_eq_nil_iff, List.filter_eq_nil_iff]
  intro d hd
  simpa using h.vv_le_heads hh hrec d (VersionVector.covers_of_mem_dots hd)

theorem vouched {k : Bytes} {v : Val} (hv : v ∈ s.shape.valuesAt k) :
    ev.hlc v.dot = some v.hlc :=
  (h.represents ev hh hrec).vouched k v ((h.represents ev hh hrec).mem_vals hv)

theorem covers_value {k : Bytes} {v : Val} (hv : v ∈ s.shape.valuesAt k) :
    s.vv.covers v.dot := by
  obtain ⟨o, ho, hvo⟩ := h.op_of_value hh hrec hv
  rw [(h.represents ev hh hrec).vv, covers_contentOf, (OpInput.mem_content_vals.mp hvo).2.1]
  exact ⟨o, ho, rfl, le_rfl⟩

include hops

theorem covers_iff {o : OpInput} (ho : o ∈ ops) : s.vv.covers o.dot ↔ o ∈ taken := by
  rw [(h.represents ev hh hrec).vv]
  exact hops.covers_iff h.subset h.closed ho

/-- The recorded purge is a purge taken, with its key. -/
theorem op_of_purge {p : PurgeRec} (hp : p ∈ s.shape.purge?) :
    ∃ o ∈ taken, o.data.lifecycle = .purge ∧ p = ⟨o.dot, o.header.hlc, o.keyId⟩ := by
  have hmem := (h.represents ev hh hrec).shapeRep.purge_mem p hp
  obtain ⟨o, ho, hr⟩ := mem_purges_contentOf.mp hmem
  obtain ⟨hl, hr⟩ := Content.mem_ofOp_purges.mp hr
  obtain ⟨hhlc, hdot⟩ := Prod.ext_iff.mp (toLex.injective hr)
  have hdot : p.dot = o.dot := hdot
  have hhlc : p.hlc = o.header.hlc := hhlc
  obtain ⟨o', ho', hd, hkey⟩ := h.purge p hp
  have : o' = o := hops.unique o' ho' o (h.subset ho) (hd.trans hdot)
  subst this
  refine ⟨o', ho, hl, ?_⟩
  rw [hkey, ← hdot, ← hhlc]

theorem c_le_vv : s.shape.c ≤ s.vv := by
  intro d hd
  obtain ⟨o, ho, -, hcov⟩ := (h.covers_c hh hrec).mp hd
  rw [(h.represents ev hh hrec).vv]
  exact hops.context_le (h.subset ho) (h.closed o ho) d hcov

/-- The cut leaves the state whole. -/
theorem cut_eq : cut s (heads ev) ev = .ok ⟨s, []⟩ := by
  have hrep := h.represents ev hh hrec
  have hvv : s.vv.meet (heads ev) = s.vv := inf_eq_left.mpr (h.vv_le_heads hh hrec)
  have hval : ∀ k, ∀ v ∈ s.shape.valuesAt k, s.vv.covers v.dot ∧ Sync.vouched ev v := fun k v hv =>
    ⟨h.covers_value hh hrec hv, decide_eq_true (h.vouched hh hrec hv)⟩
  have hs := hrep.shape
  have hpurge := fun p => h.op_of_purge hops hh hrec (p := p)
  have hc := h.c_le_vv hops hh hrec
  have hvalue := fun k v => h.op_of_value hh hrec (k := k) (v := v)
  rcases s with ⟨vv, l | t⟩
  · have hregs : ∀ k, ∀ v ∈ lookup l.regs k, vv.covers v.dot ∧ Sync.vouched ev v := fun k v hv =>
      hval k v (List.mem_append_left _ hv)
    have hhist : ∀ k, ∀ v ∈ lookup l.hist k, vv.covers v.dot ∧ Sync.vouched ev v := fun k v hv =>
      hval k v (List.mem_append_right _ hv)
    simp only [cut] at hvv ⊢
    rw [hvv, takeRegs_eq_self hs.kept.regs hregs, takeRegs_eq_self hs.kept.hist hhist,
      ignoredDots_eq_nil hregs, ignoredDots_eq_nil hhist]
    rfl
  · obtain ⟨o, ho, hl, hp⟩ := hpurge t.purge rfl
    have hcov : vv.covers t.purge.dot := by
      rw [hp]
      exact (h.covers_iff hops hh hrec (h.subset ho)).mpr ho
    have hhlc : ev.hlc t.purge.dot = some t.purge.hlc := by
      rw [hp, Evidence.hlc, hrec o ho]
      rfl
    have hmeet : t.c.meet vv = t.c := inf_eq_left.mpr hc
    simp only [cut] at hvv ⊢
    rw [hvv, if_neg (by simp [hcov, hhlc]), hmeet, takeRegs_eq_self hs.kept hval,
      ignoredDots_eq_nil hval, retainValues_eq_self hs.kept]
    · rfl
    · intro k v hv
      have hk : k ≠ lifecycleKey := by
        rintro rfl
        rw [hs.lifecycle] at hv
        exact List.not_mem_nil hv
      have hnot : ¬ t.c.covers v.dot := hs.c ▸ (hs.late k hk).not_covers v hv
      have hne : v.dot ≠ t.purge.dot := by
        -- A late value is written by an operation that is no purge.
        intro hd
        obtain ⟨o', ho', hv'⟩ := hvalue k v hv
        obtain ⟨hl', hd', -⟩ := OpInput.mem_content_vals.mp hv'
        have : o' = o := hops.unique o' (h.subset ho') o (h.subset ho) (by rw [← hd', hd, hp])
        exact hl' (this ▸ hl)
      simp [hnot, hne]

/-- No known body contradicts the state. -/
theorem consistentWith (hb : ∀ (d : Dot) (b : HeldOp), bodies[d]? = some b →
    ∃ o ∈ ops, o.dot = d ∧ b = o.held) : ConsistentWith ev bodies s where
  value k v hv op hop := by
    obtain ⟨o, ho, hv'⟩ := h.op_of_value hh hrec hv
    obtain ⟨hl, hd, -, hw⟩ := OpInput.mem_content_vals.mp hv'
    obtain ⟨o', ho', hd', rfl⟩ := hb v.dot op hop
    have : o' = o := hops.unique o' ho' o (h.subset ho) (hd'.trans hd)
    subst this
    refine ⟨hl, (wrote_iff fun w hw => ?_).mpr hw⟩
    obtain ⟨w', hw', rfl⟩ := List.mem_map.mp hw
    exact (hops.wellFormed o' ho').not_lifecycle w' hw'
  purge p hp op hop := by
    obtain ⟨o, ho, hl, rfl⟩ := h.op_of_purge hops hh hrec hp
    obtain ⟨o', ho', hd', rfl⟩ := hb _ op hop
    have : o' = o := hops.unique o' ho' o (h.subset ho) hd'
    subst this
    exact ⟨hl, rfl⟩
  c d hd := by
    obtain ⟨o, ho, hl, hcov⟩ := (h.covers_c hh hrec).mp hd
    refine ⟨o.dot, o.facts, hrec o ho, (h.covers_iff hops hh hrec (h.subset ho)).mpr ho, ?_, hcov⟩
    intro op hop
    obtain ⟨o', ho', hd', rfl⟩ := hb _ op hop
    have : o' = o := hops.unique o' ho' o (h.subset ho) hd'
    subst this
    exact hl

end

section

variable (hops : HonestOps itemId ops) (hh : HeadersOf ops ev.headers)
  (hrec : ∀ o ∈ taken, ev.headers[o.dot]? = some o.facts) (h : HonestState ops taken s)
  (hrec' : ∀ o ∈ taken', ev.headers[o.dot]? = some o.facts) (h' : HonestState ops taken' s')

include hops hh hrec h hrec' h'

/-- Two honest states account for each other's values and explain what they discard. -/
theorem disagreementsOf_eq (hb : ∀ (d : Dot) (b : HeldOp), bodies[d]? = some b →
    ∃ o ∈ ops, o.dot = d ∧ b = o.held) :
    disagreementsOf s s' (index s' ev) bodies ev = [] := by
  refine disagreementsOf_eq_nil (fun k v hv hcov => ?_) (fun k v hv u hu hd => ?_)
    fun k hk v hv hs hs' => ?_
  · obtain ⟨o, ho, hv'⟩ := h.op_of_value hh hrec hv
    have ho' : o ∈ taken' := by
      rw [(OpInput.mem_content_vals.mp hv').2.1] at hcov
      exact (h'.covers_iff hops hh hrec' (h.subset ho)).mp hcov
    exact (h'.represents ev hh hrec').accountsFor (hops.causal hh)
      (hops.causallyClosed hh h'.subset) (mem_vals_contentOf.mpr ⟨o, ho', hv'⟩)
  · obtain ⟨o, ho, hv'⟩ := h.op_of_value hh hrec hv
    obtain ⟨o', ho', hu'⟩ := h'.op_of_value hh hrec' hu
    exact hops.val_eq (h'.subset ho') (h.subset ho) hu' hv' hd
  · -- The purge whose context discards the value is one the other side has not taken.
    obtain ⟨o, ho, hl, hcov⟩ := (h.covers_c hh hrec).mp hs
    refine ⟨o.dot, o.facts, hrec o ho, (h.covers_iff hops hh hrec (h.subset ho)).mpr ho, ?_, ?_,
      hcov⟩
    · intro hc
      have ho' : o ∈ taken' := (h'.covers_iff hops hh hrec' (h.subset ho)).mp hc
      exact hs' ((h'.covers_c hh hrec').mpr ⟨o, ho', hl, hcov⟩)
    · rw [knownWrite_iff]
      rintro ⟨op, hop, hne⟩
      obtain ⟨o', ho', hd', rfl⟩ := hb _ op hop
      have : o' = o := hops.unique o' ho' o (h.subset ho) hd'
      exact hne (this ▸ hl)

/-- A purge one side has taken is a purge of the other side, if it covers it. -/
theorem exists_purge_of_covers {p : PurgeRec} (hp : p ∈ s.shape.purge?)
    (hcov : s'.vv.covers p.dot) : ∃ q, s'.shape.purge? = some q := by
  obtain ⟨o, ho, hl, rfl⟩ := h.op_of_purge hops hh hrec hp
  have ho' : o ∈ taken' := (h'.covers_iff hops hh hrec' (h.subset ho)).mp hcov
  have hmem : toLex (o.held.hlc, o.held.dot) ∈ (contentOf taken').purges :=
    mem_purges_contentOf.mpr ⟨o, ho', Content.mem_ofOp_purges.mpr ⟨hl, rfl⟩⟩
  obtain ⟨q, hq, -⟩ := (h'.represents ev hh hrec').shapeRep.purges _ hmem
  exact ⟨q, hq⟩

theorem purgeDisagreement_eq : purgeDisagreement s s' = [] := by
  have hleft := fun p => h.exists_purge_of_covers hops hh hrec hrec' h' (p := p)
  have hright := fun p => h'.exists_purge_of_covers hops hh hrec' hrec h (p := p)
  have hpurge := fun p => h.op_of_purge hops hh hrec (p := p)
  have hpurge' := fun p => h'.op_of_purge hops hh hrec' (p := p)
  unfold purgeDisagreement
  rcases s with ⟨vv, l | t⟩ <;> rcases s' with ⟨vv', l' | t'⟩
  · rfl
  · have hnot : ¬ vv.covers t'.purge.dot := fun hc => by
      obtain ⟨q, hq⟩ := hright t'.purge rfl hc
      cases hq
    simp [hnot]
  · have hnot : ¬ vv'.covers t.purge.dot := fun hc => by
      obtain ⟨q, hq⟩ := hleft t.purge rfl hc
      cases hq
    simp [hnot]
  · obtain ⟨o, ho, -, hp⟩ := hpurge t.purge rfl
    obtain ⟨o', ho', -, hp'⟩ := hpurge' t'.purge rfl
    have hsame : t.purge.dot = t'.purge.dot → t.purge = t'.purge := by
      intro hd
      rw [hp, hp'] at hd
      have : o = o' := hops.unique o (h.subset ho) o' (h'.subset ho') hd
      rw [hp, hp', this]
    simp only [Bool.and_eq_true, decide_eq_true_eq]
    rw [if_neg]
    rintro ⟨hd, hne⟩
    exact hne (hsame hd)

/-- Two honest states have nothing to disagree on. -/
theorem disagreements_eq (hb : ∀ (d : Dot) (b : HeldOp), bodies[d]? = some b →
    ∃ o ∈ ops, o.dot = d ∧ b = o.held) : disagreements s s' bodies ev = [] := by
  rw [disagreements, h.disagreementsOf_eq hops hh hrec hrec' h' hb,
    h'.disagreementsOf_eq hops hh hrec' hrec h hb, h.purgeDisagreement_eq hops hh hrec hrec' h']
  rfl

end

end HonestState

/-! ### Absorbing -/

variable {itemId : ItemId} {ops taken taken' : Finset OpInput} {m : ItemMerge}

theorem HonestOps.Closed.union (h : HonestOps.Closed ops taken) (h' : HonestOps.Closed ops taken') :
    HonestOps.Closed ops (taken ∪ taken') := by
  intro o ho p hp hcov
  rcases Finset.mem_union.mp ho with ho | ho
  · exact Finset.mem_union_left _ (h o ho p hp hcov)
  · exact Finset.mem_union_right _ (h' o ho p hp hcov)

theorem State.fromSnapshot_vv (covered : VersionVector) (data : SnapshotData) :
    (State.fromSnapshot covered data).vv = covered := by
  cases data <;> rfl

/-- Absorbing an honest state whose headers are recorded takes what it has taken, and nothing is
refused, cut, ignored or reported. -/
theorem HonestInv.absorbRecorded (hops : HonestOps itemId ops) (h : HonestInv itemId ops taken m)
    (hk : KeyInv ops m) {snapshot : SnapshotInput}
    (hs : HonestState ops taken' (State.fromSnapshot snapshot.header.covered snapshot.data))
    (hrec : ∀ o ∈ taken', m.headers[o.dot]? = some o.facts) :
    ∃ relation hlc, (m.absorbRecorded snapshot).2 =
        ⟨.absorbed ⟨relation, hlc, [], []⟩, []⟩ ∧
      HonestInv itemId ops (taken ∪ taken') (m.absorbRecorded snapshot).1 ∧
      KeyInv ops (m.absorbRecorded snapshot).1 := by
  have hc := h.causal hops
  have hh : HeadersOf ops m.evidence.headers := h.headers
  have hrec' : ∀ o ∈ taken', m.evidence.headers[o.dot]? = some o.facts := hrec
  have hcut := hs.cut_eq hops hh hrec'
  have hcon := contradiction_eq_none_iff.mpr (hs.consistentWith hops hh hrec' hk.bodies)
  have hdis := (h.honestState hops hk).disagreements_eq hops hh h.recorded hrec' hs hk.bodies
  have hclaims := hs.claimCuts_eq hh hrec' snapshot.header.author
  rw [State.fromSnapshot_vv] at hclaims
  have hrep := hs.represents _ hh hrec'
  have hnormal := hrep.normalize_eq hc
  rcases m.absorbRecorded_cases snapshot with ⟨r, cuts, he⟩ | ⟨c, hcut', -, he⟩
  · unfold ItemMerge.absorbRecorded at he
    simp only [hcut, hcon] at he
    cases (Prod.mk.inj he).2
  · rw [hcut] at hcut'
    cases hcut'
    rw [hdis, hclaims] at he
    rw [he]
    refine ⟨_, _, rfl, ?_, ?_⟩
    · refine
        { item := h.item
          headers := h.headers
          subset := Finset.union_subset h.subset hs.subset
          recorded := fun o ho => ?_
          closed := h.closed.union hs.closed
          merged := fun d hd => ?_
          bodies := h.bodies
          represents := ?_ }
      · rcases Finset.mem_union.mp ho with ho | ho
        · exact h.recorded o ho
        · exact hrec o ho
      · obtain ⟨o, ho, hod⟩ := h.merged d hd
        exact ⟨o, Finset.mem_union_left _ ho, hod⟩
      · rw [contentOf_union]
        change Represents m.evidence (joinInto m.state (normalize _ m.evidence) m.evidence) _
        rw [hnormal]
        exact h.represents.joinInto hc hrep
    · refine ⟨hk.bodies, fun p hp => ?_⟩
      change p ∈ (joinInto m.state (normalize _ m.evidence) m.evidence).shape.purge? at hp
      rw [hnormal, purge?_joinInto] at hp
      rcases mem_maxPurge hp with hp | hp
      · exact hk.purge p hp
      · exact hs.purge p hp

end RizzyVault.Sync
