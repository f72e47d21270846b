import RizzyVault.Sync.Merge.Key

/-!
# Joining the values of one key

The values a live item holds of a key are the current ones and the kept history, `liveKey`. When
supersession is transitive and every value carries its header's clock value, what is held of two
sets of values determines what is held of their union: pruning and supersession may be applied
early. A tombstone holds the current values its context does not cover, up to the dots in the
causal closure of the context, `LateOf`.

## Main definitions

* `Vouched`: every value carries its verified header's clock value.
* `liveKey`, `heldVals`: what a live item holds of a key.
* `Closure`, `LateOf`: what a tombstone holds of a key.

## Main results

* `liveKey_heldVals_append`: joining what is held of two sets is holding their union.
* `lateOf_append`: joining late values is keeping the late values of the union.
-/

open RizzyVault.Core RizzyVault.Lib

namespace RizzyVault.Sync

/-- Every value carries the clock value of its verified header. -/
def Vouched (ev : Evidence) (vs : List Val) : Prop := ∀ v ∈ vs, ev.hlc v.dot = some v.hlc

/-- What a live item holds of a key: the current values and the kept history. -/
def liveKey (vs : List Val) (ev : Evidence) : List Val × List Val :=
  ((maximal vs ev).1, prune (maximal vs ev).2)

/-- The values a live item holds of a key. -/
def heldVals (vs : List Val) (ev : Evidence) : List Val := (liveKey vs ev).1 ++ (liveKey vs ev).2

/-- The dots of values. -/
def dotsOf (vs : List Val) : Finset Dot := (vs.map Val.dot).toFinset

/-- The rank of a dot by its verified header. -/
def dotRank (ev : Evidence) (d : Dot) : Rank := toLex ((ev.hlc d).getD ⟨0⟩, d)

variable {ev : Evidence} {vs ws : List Val} {u v : Val}

theorem mem_dotsOf {d : Dot} : d ∈ dotsOf vs ↔ ∃ v ∈ vs, v.dot = d := by
  simp [dotsOf]

theorem dotsOf_append : dotsOf (vs ++ ws) = dotsOf vs ∪ dotsOf ws := by
  simp [dotsOf]

theorem mem_dotsOf_of_mem (h : v ∈ vs) : v.dot ∈ dotsOf vs := mem_dotsOf.mpr ⟨v, h, rfl⟩

theorem dotRank_injective (ev : Evidence) : Function.Injective (dotRank ev) := fun _ _ h =>
  (Prod.ext_iff.mp (toLex.injective h)).2

theorem Vouched.rank_eq (h : Vouched ev vs) (hv : v ∈ vs) : v.rank = dotRank ev v.dot := by
  rw [Val.rank, dotRank, h v hv]
  rfl

theorem Vouched.mono (h : Vouched ev vs) (hsub : ∀ v ∈ ws, v ∈ vs) : Vouched ev ws :=
  fun v hv => h v (hsub v hv)

theorem Vouched.append (h : Vouched ev vs) (h' : Vouched ev ws) : Vouched ev (vs ++ ws) := by
  intro v hv
  rcases List.mem_append.mp hv with hv | hv
  · exact h v hv
  · exact h' v hv

theorem IsVersion.congr (h : ∀ v, v ∈ vs ↔ v ∈ ws) : IsVersion ev vs v ↔ IsVersion ev ws v := by
  simp only [IsVersion, h]

theorem maximal_congr (ev : Evidence) (h : ∀ v, v ∈ vs ↔ v ∈ ws) :
    maximal vs ev = maximal ws ev := by
  refine Prod.ext ?_ ?_
  · refine (dotSorted_maximal_fst vs ev).ext (dotSorted_maximal_fst ws ev) fun v => ?_
    simp only [mem_maximal_fst, IsVersion.congr h, h]
  · refine (dotSorted_maximal_snd vs ev).ext (dotSorted_maximal_snd ws ev) fun v => ?_
    simp only [mem_maximal_snd, IsVersion.congr h, h]

theorem liveKey_congr (ev : Evidence) (h : ∀ v, v ∈ vs ↔ v ∈ ws) :
    liveKey vs ev = liveKey ws ev := by
  rw [liveKey, maximal_congr ev h, liveKey]

/-- The split reads only the headers of the values' own dots. -/
theorem maximal_evidence_congr {ev' : Evidence}
    (h : ∀ v ∈ vs, ev'.headers[v.dot]? = ev.headers[v.dot]?) :
    maximal vs ev' = maximal vs ev := by
  have hsup : ∀ u ∈ vs, ∀ d, Supersedes ev' u.dot d ↔ Supersedes ev u.dot d := by
    intro u hu d
    simp only [Supersedes, Evidence.context, h u hu]
  have hkey : ∀ u ∈ vs, versionKey ev' u = versionKey ev u := by
    intro u hu
    have hhlc : ev'.hlc u.dot = ev.hlc u.dot := by rw [Evidence.hlc, h u hu, Evidence.hlc]
    rw [versionKey, hhlc, versionKey]
  have hver : ∀ v, IsVersion ev' vs v ↔ IsVersion ev vs v := by
    intro v
    refine and_congr_right fun hv => forall₂_congr fun u hu => ?_
    rw [hkey v hv, hkey u hu]
  refine Prod.ext ?_ ?_
  · refine (dotSorted_maximal_fst vs ev').ext (dotSorted_maximal_fst vs ev) fun v => ?_
    rw [mem_maximal_fst, mem_maximal_fst, hver]
    refine and_congr_right fun _ => forall₂_congr fun u hu => ?_
    rw [hsup u hu]
  · refine (dotSorted_maximal_snd vs ev').ext (dotSorted_maximal_snd vs ev) fun v => ?_
    rw [mem_maximal_snd, mem_maximal_snd, hver]
    refine and_congr_right fun _ => exists_congr fun u => and_congr_right fun hu => ?_
    rw [hsup u hu]

theorem headers_eq_of_vouched {ev' : Evidence} (hv : Vouched ev vs)
    (hle : ∀ (d : Dot) (f : HeaderFacts), ev.headers[d]? = some f → ev'.headers[d]? = some f) :
    ∀ v ∈ vs, ev'.headers[v.dot]? = ev.headers[v.dot]? := by
  intro v hmem
  obtain ⟨f, hf, -⟩ := Option.map_eq_some_iff.mp (hv v hmem)
  rw [hf, hle v.dot f hf]

/-! ### What a live item holds -/

theorem mem_liveKey_fst :
    v ∈ (liveKey vs ev).1 ↔ IsVersion ev vs v ∧ v.dot ∈ current (Supersedes ev) (dotsOf vs) := by
  rw [liveKey, mem_maximal_fst, mem_current]
  constructor
  · rintro ⟨hv, h⟩
    refine ⟨hv, mem_dotsOf_of_mem hv.1, fun d hd => ?_⟩
    obtain ⟨u, hu, rfl⟩ := mem_dotsOf.mp hd
    exact h u hu
  · rintro ⟨hv, -, h⟩
    exact ⟨hv, fun u hu => h u.dot (mem_dotsOf_of_mem hu)⟩

theorem mem_maximal_snd_iff_superseded :
    v ∈ (maximal vs ev).2 ↔
      IsVersion ev vs v ∧ v.dot ∈ superseded (Supersedes ev) (dotsOf vs) := by
  rw [mem_maximal_snd, mem_superseded]
  constructor
  · rintro ⟨hv, u, hu, h⟩
    exact ⟨hv, mem_dotsOf_of_mem hv.1, u.dot, mem_dotsOf_of_mem hu, h⟩
  · rintro ⟨hv, -, d, hd, h⟩
    obtain ⟨u, hu, rfl⟩ := mem_dotsOf.mp hd
    exact ⟨hv, u, hu, h⟩

theorem dotsOf_maximal_snd (vs : List Val) (ev : Evidence) :
    dotsOf (maximal vs ev).2 = superseded (Supersedes ev) (dotsOf vs) := by
  ext d
  rw [mem_dotsOf]
  constructor
  · rintro ⟨v, hv, rfl⟩
    exact (mem_maximal_snd_iff_superseded.mp hv).2
  · intro hd
    obtain ⟨u, hu, rfl⟩ := mem_dotsOf.mp (mem_superseded.mp hd).1
    obtain ⟨v, hvd, hv⟩ := exists_isVersion ev hu
    exact ⟨v, mem_maximal_snd_iff_superseded.mpr ⟨hv, hvd ▸ hd⟩, hvd⟩

/-- Counting values above a rank is counting dots above it. -/
theorem countP_rank_eq (h : Vouched ev vs) (hs : DotSorted vs) (hv : ev.hlc v.dot = some v.hlc) :
    vs.countP (fun u => v.rank < u.rank) =
      ((dotsOf vs).filter fun d => dotRank ev v.dot < dotRank ev d).card := by
  have hnodup : (vs.map Val.dot).Nodup := by
    rw [List.Nodup, List.pairwise_map]
    exact hs.imp fun h => h.ne
  have hrank : v.rank = dotRank ev v.dot := by
    rw [Val.rank, dotRank, hv]
    rfl
  have hcount : vs.countP (fun u => v.rank < u.rank) =
      (vs.map Val.dot).countP (fun d => dotRank ev v.dot < dotRank ev d) := by
    rw [List.countP_map]
    refine List.countP_congr fun u hu => ?_
    rw [hrank, h.rank_eq hu]
    rfl
  rw [hcount, dotsOf, List.countP_eq_length_filter,
    ← List.toFinset_card_of_nodup (hnodup.filter _)]
  congr 1
  ext d
  simp

theorem mem_liveKey_snd (h : Vouched ev vs) :
    v ∈ (liveKey vs ev).2 ↔ IsVersion ev vs v ∧
      v.dot ∈ topRank (dotRank ev) historyLimit (superseded (Supersedes ev) (dotsOf vs)) := by
  have hsub : ∀ u ∈ (maximal vs ev).2, u ∈ vs := fun u hu => (mem_maximal_snd.mp hu).1.1
  rw [liveKey, mem_prune (dotSorted_maximal_snd vs ev), mem_topRank]
  constructor
  · rintro ⟨hv, hcount⟩
    have hv' := mem_maximal_snd_iff_superseded.mp hv
    rw [countP_rank_eq (h.mono hsub) (dotSorted_maximal_snd vs ev) (h v (hsub v hv)),
      dotsOf_maximal_snd] at hcount
    exact ⟨hv'.1, hv'.2, hcount⟩
  · rintro ⟨hv, hd, hcount⟩
    refine ⟨mem_maximal_snd_iff_superseded.mpr ⟨hv, hd⟩, ?_⟩
    rw [countP_rank_eq (h.mono hsub) (dotSorted_maximal_snd vs ev) (h v hv.1),
      dotsOf_maximal_snd]
    exact hcount

theorem mem_heldVals (h : Vouched ev vs) :
    v ∈ heldVals vs ev ↔ IsVersion ev vs v ∧
      v.dot ∈ held (Supersedes ev) (dotRank ev) historyLimit (dotsOf vs) := by
  rw [heldVals, List.mem_append, mem_liveKey_fst, mem_liveKey_snd h, held, Finset.mem_union,
    and_or_left]

theorem mem_of_mem_heldVals (h : v ∈ heldVals vs ev) : v ∈ vs := by
  rcases List.mem_append.mp h with h | h
  · exact (mem_maximal_fst.mp h).1.1
  · exact (mem_maximal_snd.mp ((mem_prune (dotSorted_maximal_snd vs ev)).mp h).1).1.1

theorem dotsOf_heldVals (h : Vouched ev vs) :
    dotsOf (heldVals vs ev) = held (Supersedes ev) (dotRank ev) historyLimit (dotsOf vs) := by
  ext d
  rw [mem_dotsOf]
  constructor
  · rintro ⟨v, hv, rfl⟩
    exact ((mem_heldVals h).mp hv).2
  · intro hd
    obtain ⟨u, hu, rfl⟩ := mem_dotsOf.mp (held_subset hd)
    obtain ⟨v, hvd, hv⟩ := exists_isVersion ev hu
    exact ⟨v, (mem_heldVals h).mpr ⟨hv, hvd ▸ hd⟩, hvd⟩

/-! ### Joining live keys -/

/-- Supersession is transitive: contexts are causally closed over the recorded headers, and no
two operations cover each other. -/
def Causal (ev : Evidence) : Prop :=
  ∀ u v w, Supersedes ev u v → Supersedes ev v w → Supersedes ev u w

theorem Causal.strictOn (h : Causal ev) (s : Finset Dot) : StrictOn (Supersedes ev) s where
  irrefl _ _ hu := hu.1 rfl
  trans u _ v _ w _ := h u v w

/-- The version of a dot held of the union is the version of what is held of the parts. -/
theorem isVersion_heldVals_append (hv : Vouched ev vs) (hw : Vouched ev ws)
    (hd : v.dot ∈ held (Supersedes ev) (dotRank ev) historyLimit (dotsOf (vs ++ ws))) :
    IsVersion ev (heldVals vs ev ++ heldVals ws ev) v ↔ IsVersion ev (vs ++ ws) v := by
  -- A version of a part at the dot of `v` is no better than the held version of that part.
  have hbest : ∀ {xs : List Val} {u : Val}, Vouched ev xs → (∀ x ∈ xs, x ∈ vs ++ ws) → u ∈ xs →
      u.dot = v.dot → ∃ x ∈ heldVals xs ev, x.dot = v.dot ∧ versionKey ev x ≤ versionKey ev u := by
    intro xs u hxs hsub hu hud
    obtain ⟨x, hxd, hx⟩ := exists_isVersion ev hu
    have hdots : dotsOf xs ⊆ dotsOf (vs ++ ws) := by
      intro d hd
      obtain ⟨x, hx, rfl⟩ := mem_dotsOf.mp hd
      exact mem_dotsOf_of_mem (hsub x hx)
    have hxheld : x.dot ∈ held (Supersedes ev) (dotRank ev) historyLimit (dotsOf xs) :=
      mem_held_of_mem_held (dotRank_injective ev).injOn hdots (mem_dotsOf_of_mem hx.1)
        (by rwa [hxd, hud])
    exact ⟨x, (mem_heldVals hxs).mpr ⟨hx, hxheld⟩, hxd.trans hud, hx.2 u hu hxd.symm⟩
  have hbest' : ∀ {u : Val}, u ∈ vs ++ ws → u.dot = v.dot →
      ∃ x ∈ heldVals vs ev ++ heldVals ws ev, x.dot = v.dot ∧
        versionKey ev x ≤ versionKey ev u := by
    intro u hu hud
    rcases List.mem_append.mp hu with hu | hu
    · obtain ⟨x, hx, hxv⟩ := hbest hv (fun _ => List.mem_append_left _) hu hud
      exact ⟨x, List.mem_append_left _ hx, hxv⟩
    · obtain ⟨x, hx, hxv⟩ := hbest hw (fun _ => List.mem_append_right _) hu hud
      exact ⟨x, List.mem_append_right _ hx, hxv⟩
  have hsub : ∀ u ∈ heldVals vs ev ++ heldVals ws ev, u ∈ vs ++ ws := by
    intro u hu
    rcases List.mem_append.mp hu with hu | hu
    · exact List.mem_append_left _ (mem_of_mem_heldVals hu)
    · exact List.mem_append_right _ (mem_of_mem_heldVals hu)
  constructor
  · rintro ⟨hmem, hmin⟩
    refine ⟨hsub v hmem, fun u hu hud => ?_⟩
    obtain ⟨x, hx, hxd, hxu⟩ := hbest' hu hud
    exact (hmin x hx hxd).trans hxu
  · rintro ⟨hmem, hmin⟩
    refine ⟨?_, fun u hu hud => hmin u (hsub u hu) hud⟩
    obtain ⟨x, hx, hxd, hxv⟩ := hbest' hmem rfl
    have : x = v := eq_of_versionKey_eq hxd (le_antisymm hxv (hmin x (hsub x hx) hxd))
    exact this ▸ hx

/-- Joining what is held of two sets of values is holding their union. -/
theorem liveKey_heldVals_append (hc : Causal ev) (hv : Vouched ev vs) (hw : Vouched ev ws) :
    liveKey (heldVals vs ev ++ heldVals ws ev) ev = liveKey (vs ++ ws) ev := by
  have hheld : Vouched ev (heldVals vs ev ++ heldVals ws ev) :=
    (hv.mono fun _ => mem_of_mem_heldVals).append (hw.mono fun _ => mem_of_mem_heldVals)
  have hstrict := hc.strictOn (dotsOf vs ∪ dotsOf ws)
  have hinj := (dotRank_injective ev).injOn (s := (↑(dotsOf vs ∪ dotsOf ws) : Set Dot))
  have hcur : current (Supersedes ev) (dotsOf (heldVals vs ev ++ heldVals ws ev)) =
      current (Supersedes ev) (dotsOf (vs ++ ws)) := by
    rw [dotsOf_append, dotsOf_append, dotsOf_heldVals hv, dotsOf_heldVals hw]
    exact current_held_union hstrict
  have htop : topRank (dotRank ev) historyLimit
        (superseded (Supersedes ev) (dotsOf (heldVals vs ev ++ heldVals ws ev))) =
      topRank (dotRank ev) historyLimit (superseded (Supersedes ev) (dotsOf (vs ++ ws))) := by
    rw [dotsOf_append, dotsOf_append, dotsOf_heldVals hv, dotsOf_heldVals hw]
    exact topRank_superseded_held_union hstrict hinj
  refine Prod.ext ?_ ?_
  · refine (dotSorted_maximal_fst _ ev).ext (dotSorted_maximal_fst _ ev) fun v => ?_
    change v ∈ (liveKey _ ev).1 ↔ v ∈ (liveKey _ ev).1
    rw [mem_liveKey_fst, mem_liveKey_fst, hcur]
    refine and_congr_left fun hd => isVersion_heldVals_append hv hw ?_
    exact Finset.mem_union_left _ hd
  · refine (dotSorted_prune (dotSorted_maximal_snd _ ev)).ext
      (dotSorted_prune (dotSorted_maximal_snd _ ev)) fun v => ?_
    change v ∈ (liveKey _ ev).2 ↔ v ∈ (liveKey _ ev).2
    rw [mem_liveKey_snd hheld, mem_liveKey_snd (hv.append hw), htop]
    refine and_congr_left fun hd => isVersion_heldVals_append hv hw ?_
    exact Finset.mem_union_right _ hd

/-! ### What a tombstone holds -/

/-- The dots `c` covers, and those the context of a recorded operation it covers covers. -/
def Closure (ev : Evidence) (c : VersionVector) (d : Dot) : Prop :=
  c.covers d ∨ ∃ x, c.covers x ∧ ∃ cx ∈ ev.context x, cx.covers d

/-- No value supersedes another. -/
def Independent (ev : Evidence) (l : List Val) : Prop :=
  ∀ u ∈ l, ∀ v ∈ l, ¬ Supersedes ev u.dot v.dot

/-- `l` is the late register of the values `vs` under the purge context `c`. Outside the causal
closure of `c` it holds the current values of `vs` exactly. -/
structure LateOf (ev : Evidence) (c : VersionVector) (vs l : List Val) : Prop where
  sorted : DotSorted l
  independent : Independent ev l
  mem : ∀ v ∈ l, v ∈ vs
  not_covers : ∀ v ∈ l, ¬ c.covers v.dot
  mem_iff : ∀ v, ¬ Closure ev c v.dot → (v ∈ l ↔ v ∈ (maximal vs ev).1)

/-- `l` is part of `vs` and misses no current value of `vs` outside the closure of `c`. -/
structure Keeps (ev : Evidence) (c : VersionVector) (vs l : List Val) : Prop where
  mem : ∀ v ∈ l, v ∈ vs
  keeps : ∀ v ∈ (maximal vs ev).1, ¬ Closure ev c v.dot → v ∈ l

variable {c c' : VersionVector} {l l₁ l₂ : List Val}

theorem Closure.mono (hle : c ≤ c') {d : Dot} (h : Closure ev c d) : Closure ev c' d := by
  rcases h with h | ⟨x, hx, h⟩
  · exact .inl (hle d h)
  · exact .inr ⟨x, hle x hx, h⟩

/-- The closure is closed under the contexts of recorded operations. -/
theorem Closure.of_supersedes (hc : Causal ev) {d e : Dot} (hde : Supersedes ev d e)
    (h : Closure ev c d) : Closure ev c e := by
  rcases h with h | ⟨x, hx, cx, hcx, hd⟩
  · exact .inr ⟨d, h, hde.2⟩
  · by_cases hxd : x = d
    · exact .inr ⟨x, hx, hxd ▸ hde.2⟩
    · exact .inr ⟨x, hx, (hc x d e ⟨hxd, cx, hcx, hd⟩ hde).2⟩

theorem isVersion_of_dotSorted (hs : DotSorted l) (hv : v ∈ l) : IsVersion ev l v := by
  refine ⟨hv, fun u hu hud => ?_⟩
  rw [hs.eq_of_dot_eq hu hv hud]

theorem maximal_fst_eq_self (hs : DotSorted l) (hi : Independent ev l) :
    (maximal l ev).1 = l := by
  refine (dotSorted_maximal_fst l ev).ext hs fun v => ?_
  rw [mem_maximal_fst]
  exact ⟨fun h => h.1.1, fun h => ⟨isVersion_of_dotSorted hs h, fun u hu => hi u hu v h⟩⟩

theorem independent_maximal_fst (vs : List Val) (ev : Evidence) :
    Independent ev (maximal vs ev).1 := by
  intro u hu v hv
  exact (mem_maximal_fst.mp hv).2 u (mem_maximal_fst.mp hu).1.1

theorem LateOf.keeps (h : LateOf ev c vs l) (hle : c ≤ c') : Keeps ev c' vs l where
  mem := h.mem
  keeps v hv hout := (h.mem_iff v fun hcl => hout (hcl.mono hle)).mpr hv

theorem keeps_heldVals (ev : Evidence) (c : VersionVector) (vs : List Val) :
    Keeps ev c vs (heldVals vs ev) where
  mem _ := mem_of_mem_heldVals
  keeps _ hv _ := List.mem_append_left _ hv

theorem keeps_self (ev : Evidence) (c : VersionVector) (vs : List Val) : Keeps ev c vs vs where
  mem _ := id
  keeps _ hv _ := (mem_maximal_fst.mp hv).1.1

/-- A value superseded in the union is superseded by a kept current value, unless it lies in the
closure. -/
theorem exists_kept_supersedes (hc : Causal ev) (h₁ : Keeps ev c vs l₁) (h₂ : Keeps ev c ws l₂)
    (hu : u ∈ vs ++ ws) {d : Dot} (hud : Supersedes ev u.dot d) (hd : d ∈ dotsOf (vs ++ ws))
    (hout : ¬ Closure ev c d) : ∃ w ∈ l₁ ++ l₂, Supersedes ev w.dot d := by
  obtain ⟨w, hw, hwd⟩ := exists_current_of_superseded (hc.strictOn (dotsOf (vs ++ ws)))
    (mem_superseded.mpr ⟨hd, u.dot, mem_dotsOf_of_mem hu, hud⟩)
  have hwout : ¬ Closure ev c w := fun h => hout (h.of_supersedes hc hwd)
  obtain ⟨hw, hmax⟩ := mem_current.mp hw
  -- A current dot of the union is current in each part that has it, so its version is kept.
  have hpart : ∀ xs : List Val, (∀ x ∈ xs, x ∈ vs ++ ws) → w ∈ dotsOf xs →
      ∃ x ∈ (maximal xs ev).1, x.dot = w := by
    intro xs hsub hwx
    obtain ⟨y, hy, rfl⟩ := mem_dotsOf.mp hwx
    obtain ⟨x, hxd, hx⟩ := exists_isVersion ev hy
    refine ⟨x, mem_maximal_fst.mpr ⟨hx, fun z hz => ?_⟩, hxd⟩
    rw [hxd]
    exact hmax z.dot (mem_dotsOf_of_mem (hsub z hz))
  rw [dotsOf_append, Finset.mem_union] at hw
  rcases hw with hw | hw
  · obtain ⟨x, hx, rfl⟩ := hpart vs (fun _ => List.mem_append_left _) hw
    exact ⟨x, List.mem_append_left _ (h₁.keeps x hx hwout), hwd⟩
  · obtain ⟨x, hx, rfl⟩ := hpart ws (fun _ => List.mem_append_right _) hw
    exact ⟨x, List.mem_append_right _ (h₂.keeps x hx hwout), hwd⟩

/-- At a dot outside the closure that is current in the union, the kept lists have the versions
of the union. -/
theorem isVersion_kept_append (h₁ : Keeps ev c vs l₁) (h₂ : Keeps ev c ws l₂)
    (hmax : ∀ u ∈ vs ++ ws, ¬ Supersedes ev u.dot v.dot) (hout : ¬ Closure ev c v.dot) :
    IsVersion ev (l₁ ++ l₂) v ↔ IsVersion ev (vs ++ ws) v := by
  have hbest : ∀ {xs l : List Val} {u : Val}, Keeps ev c xs l → (∀ x ∈ xs, x ∈ vs ++ ws) →
      u ∈ xs → u.dot = v.dot →
      ∃ x ∈ l, x.dot = v.dot ∧ versionKey ev x ≤ versionKey ev u := by
    intro xs l u hl hsub hu hud
    obtain ⟨x, hxd, hx⟩ := exists_isVersion ev hu
    have hxv : x.dot = v.dot := hxd.trans hud
    have hxcur : x ∈ (maximal xs ev).1 :=
      mem_maximal_fst.mpr ⟨hx, fun z hz => hxv ▸ hmax z (hsub z hz)⟩
    exact ⟨x, hl.keeps x hxcur (hxv ▸ hout), hxv, hx.2 u hu hxd.symm⟩
  have hbest' : ∀ {u : Val}, u ∈ vs ++ ws → u.dot = v.dot →
      ∃ x ∈ l₁ ++ l₂, x.dot = v.dot ∧ versionKey ev x ≤ versionKey ev u := by
    intro u hu hud
    rcases List.mem_append.mp hu with hu | hu
    · obtain ⟨x, hx, hxv⟩ := hbest h₁ (fun _ => List.mem_append_left _) hu hud
      exact ⟨x, List.mem_append_left _ hx, hxv⟩
    · obtain ⟨x, hx, hxv⟩ := hbest h₂ (fun _ => List.mem_append_right _) hu hud
      exact ⟨x, List.mem_append_right _ hx, hxv⟩
  have hsub : ∀ u ∈ l₁ ++ l₂, u ∈ vs ++ ws := by
    intro u hu
    rcases List.mem_append.mp hu with hu | hu
    · exact List.mem_append_left _ (h₁.mem u hu)
    · exact List.mem_append_right _ (h₂.mem u hu)
  constructor
  · rintro ⟨hmem, hmin⟩
    refine ⟨hsub v hmem, fun u hu hud => ?_⟩
    obtain ⟨x, hx, hxd, hxu⟩ := hbest' hu hud
    exact (hmin x hx hxd).trans hxu
  · rintro ⟨hmem, hmin⟩
    refine ⟨?_, fun u hu hud => hmin u (hsub u hu) hud⟩
    obtain ⟨x, hx, hxd, hxv⟩ := hbest' hmem rfl
    have : x = v := eq_of_versionKey_eq hxd (le_antisymm hxv (hmin x (hsub x hx) hxd))
    exact this ▸ hx

/-- Joining kept values and filtering by the context gives the late register of the union. -/
theorem lateOf_append (hc : Causal ev) (h₁ : Keeps ev c vs l₁) (h₂ : Keeps ev c ws l₂) :
    LateOf ev c (vs ++ ws) ((maximal (l₁ ++ l₂) ev).1.filter fun v => ¬ c.covers v.dot) where
  sorted := (dotSorted_maximal_fst _ ev).filter _
  independent u hu v hv :=
    independent_maximal_fst _ ev u (List.mem_filter.mp hu).1 v (List.mem_filter.mp hv).1
  mem v hv := by
    have hv := (mem_maximal_fst.mp (List.mem_filter.mp hv).1).1.1
    rcases List.mem_append.mp hv with hv | hv
    · exact List.mem_append_left _ (h₁.mem v hv)
    · exact List.mem_append_right _ (h₂.mem v hv)
  not_covers v hv := by simpa using (List.mem_filter.mp hv).2
  mem_iff v hout := by
    have hcov : ¬ c.covers v.dot := fun h => hout (.inl h)
    simp only [List.mem_filter, hcov, not_false_eq_true, decide_true, and_true, mem_maximal_fst]
    constructor
    · rintro ⟨hv, hmax⟩
      have hmem : v ∈ vs ++ ws := by
        rcases List.mem_append.mp hv.1 with hv | hv
        · exact List.mem_append_left _ (h₁.mem v hv)
        · exact List.mem_append_right _ (h₂.mem v hv)
      have hmax' : ∀ u ∈ vs ++ ws, ¬ Supersedes ev u.dot v.dot := by
        intro u hu huv
        obtain ⟨w, hw, hwv⟩ :=
          exists_kept_supersedes hc h₁ h₂ hu huv (mem_dotsOf_of_mem hmem) hout
        exact hmax w hw hwv
      exact ⟨(isVersion_kept_append h₁ h₂ hmax' hout).mp hv, hmax'⟩
    · rintro ⟨hv, hmax⟩
      refine ⟨(isVersion_kept_append h₁ h₂ hmax hout).mpr hv, fun u hu => hmax u ?_⟩
      rcases List.mem_append.mp hu with hu | hu
      · exact List.mem_append_left _ (h₁.mem u hu)
      · exact List.mem_append_right _ (h₂.mem u hu)

theorem lateOf_nil (ev : Evidence) (c : VersionVector) : LateOf ev c [] [] where
  sorted := List.Pairwise.nil
  independent _ hu := absurd hu List.not_mem_nil
  mem _ hv := absurd hv List.not_mem_nil
  not_covers _ hv := absurd hv List.not_mem_nil
  mem_iff _ _ := iff_of_false List.not_mem_nil fun hv =>
    List.not_mem_nil (mem_maximal_fst.mp hv).1.1

theorem LateOf.congr (h : LateOf ev c vs l) (hmem : ∀ v, v ∈ vs ↔ v ∈ ws) : LateOf ev c ws l where
  sorted := h.sorted
  independent := h.independent
  mem v hv := (hmem v).mp (h.mem v hv)
  not_covers := h.not_covers
  mem_iff v hout := by rw [← maximal_congr ev hmem, h.mem_iff v hout]

/-- More recorded headers change no late register: its values have theirs, and the closure only
grows. -/
theorem LateOf.evidence_mono {ev' : Evidence} (h : LateOf ev c vs l) (hv : Vouched ev vs)
    (hle : ∀ (d : Dot) (f : HeaderFacts), ev.headers[d]? = some f → ev'.headers[d]? = some f) :
    LateOf ev' c vs l := by
  have hsame := headers_eq_of_vouched hv hle
  have hclosure : ∀ d, Closure ev c d → Closure ev' c d := by
    rintro d (h | ⟨x, hx, cx, hcx, hd⟩)
    · exact .inl h
    · refine .inr ⟨x, hx, cx, ?_, hd⟩
      obtain ⟨f, hf, rfl⟩ := Option.map_eq_some_iff.mp hcx
      exact Option.map_eq_some_iff.mpr ⟨f, hle x f hf, rfl⟩
  exact
    { sorted := h.sorted
      independent := fun u hu v hv' hs => by
        refine h.independent u hu v hv' ?_
        rwa [Supersedes, Evidence.context, hsame u (h.mem u hu)] at hs
      mem := h.mem
      not_covers := h.not_covers
      mem_iff := fun v hout => by
        rw [maximal_evidence_congr hsame]
        exact h.mem_iff v fun hcl => hout (hclosure _ hcl) }

/-- Under a causally closed context the late register is determined by the values and the headers
of their dots. -/
theorem LateOf.eq {ev' : Evidence} (hsame : ∀ v ∈ vs, ev'.headers[v.dot]? = ev.headers[v.dot]?)
    (hclosed : ∀ v ∈ vs, Closure ev c v.dot → c.covers v.dot)
    (hclosed' : ∀ v ∈ vs, Closure ev' c v.dot → c.covers v.dot)
    (h₁ : LateOf ev c vs l₁) (h₂ : LateOf ev' c vs l₂) : l₁ = l₂ := by
  refine h₁.sorted.ext h₂.sorted fun v => ?_
  by_cases hv : v ∈ vs
  · by_cases hcov : c.covers v.dot
    · exact iff_of_false (fun h => h₁.not_covers v h hcov) (fun h => h₂.not_covers v h hcov)
    · rw [h₁.mem_iff v fun h => hcov (hclosed v hv h), h₂.mem_iff v fun h => hcov (hclosed' v hv h),
        maximal_evidence_congr hsame]
  · exact iff_of_false (fun h => hv (h₁.mem v h)) (fun h => hv (h₂.mem v h))

end RizzyVault.Sync
