import RizzyVault.Sync.Merge.Honest
import RizzyVault.Sync.Merge.Steps

/-!
# No silent loss

What becomes of the values a replica merged, over every run of calls and whatever snapshots are
absorbed on the way. On a live item a value stays held at its dot, or it was pruned below a full
history; on a tombstone it is held late, or a purge discards it, or a value the replica took
supersedes it. No assumption on the contexts is made.

## Main definitions

* `Tidy`: what every state of a run satisfies.
* `HeldAt`, `PrunedAt`, `DiscardedAt`: what becomes of a value.
* `ItemMerge.Merges`, `ItemMerge.Absorbs`, `Took`: what a run takes.

## Main results

* `joinInto_fate`: what a join does to the values of its sides.
* `no_silent_loss`: what becomes of merged values along runs.
-/

open RizzyVault.Core RizzyVault.Lib

namespace RizzyVault.Sync

open Std (ExtTreeMap ExtTreeSet)

variable {ev ev' : Evidence} {s s' : State} {k : Bytes} {v x : Val}

theorem Supersedes.mono {u w : Dot} (h : Supersedes ev u w) (hle : ev.HeadersLE ev') :
    Supersedes ev' u w := by
  obtain ⟨hne, c, hc, hw⟩ := h
  obtain ⟨f, hf, rfl⟩ := Option.map_eq_some_iff.mp hc
  exact ⟨hne, f.context, Option.map_eq_some_iff.mpr ⟨f, hle u f hf, rfl⟩, hw⟩

/-! ### Tidy states -/

/-- A state as the joins leave it: its values carry their headers' clock values, and its late
registers are in dot order and no late value supersedes another. -/
structure Tidy (ev : Evidence) (s : State) : Prop where
  vouched : ∀ k, Vouched ev (s.shape.valuesAt k)
  late : ∀ t, s.shape = .tomb t → ∀ k, k ≠ lifecycleKey →
    DotSorted (lookup t.late k) ∧ Independent ev (lookup t.late k)

theorem tidy_default (ev : Evidence) : Tidy ev State.default where
  vouched k v hv := by
    simp [State.default, Shape.valuesAt, Live.valuesAt, lookup_empty] at hv
  late t ht := by cases ht

theorem Tidy.evidence_mono (h : Tidy ev s) (hle : ev.HeadersLE ev') : Tidy ev' s where
  vouched k v hv := hle.hlc (h.vouched k v hv)
  late t ht k hk := by
    obtain ⟨hs, hi⟩ := h.late t ht k hk
    have hv : Vouched ev (lookup t.late k) := by
      have := h.vouched k
      rwa [ht] at this
    refine ⟨hs, fun u hu w hw hsup => hi u hu w hw ?_⟩
    have hsame := headers_eq_of_vouched hv hle u hu
    rwa [Supersedes, Evidence.context, hsame] at hsup

/-- The late values of a joined tombstone come from one of the sides. -/
theorem mem_lookup_joinTombInto {t : Tomb} {other : Shape}
    (hx : x ∈ lookup (joinTombInto t other ev).late k) :
    x ∈ lookup t.late k ∨ x ∈ other.valuesAt k := by
  rw [(joinTombInto_spec t other ev).2.2.2 k] at hx
  split_ifs at hx
  · have hx := (mem_maximal_fst.mp (List.mem_filter.mp hx).1).1.1
    exact List.mem_append.mp hx
  · exact .inl (List.mem_filter.mp hx).1

/-- The values of a join come from one of the sides. -/
theorem mem_valuesAt_joinInto (hx : x ∈ (joinInto s s' ev).shape.valuesAt k) :
    x ∈ s.shape.valuesAt k ∨ x ∈ s'.shape.valuesAt k := by
  rcases s with ⟨vv, l | t⟩ <;> rcases s' with ⟨vv', l' | t'⟩
  · obtain ⟨hr, hh⟩ := lookup_joinLiveInto l l' ev k
    have hx : x ∈ lookup (joinLiveInto l l' ev).regs k ++ lookup (joinLiveInto l l' ev).hist k := hx
    rw [hr, hh] at hx
    split_ifs at hx
    · exact List.mem_append.mp (mem_of_mem_heldVals hx)
    · exact .inl hx
  · exact (mem_lookup_joinTombInto hx).symm
  · exact mem_lookup_joinTombInto hx
  · exact mem_lookup_joinTombInto hx

theorem mem_valuesAt_normalize (hx : x ∈ (normalize s ev).shape.valuesAt k) :
    x ∈ s.shape.valuesAt k := by
  rcases s with ⟨vv, l | t⟩
  · obtain ⟨hr, hh⟩ := lookup_normalize_live l ev k
    have hx : x ∈ lookup _ k ++ lookup _ k := hx
    rw [hr, hh] at hx
    exact mem_of_mem_heldVals hx
  · obtain ⟨-, -, -, hl⟩ := lookup_normalize_tomb t ev
    have hx : x ∈ lookup _ k := hx
    rw [hl k] at hx
    split_ifs at hx
    · exact (mem_maximal_fst.mp (List.mem_filter.mp hx).1).1.1
    · exact absurd hx List.not_mem_nil

theorem tidy_late_filter (vs : List Val) (p : Val → Bool) :
    DotSorted ((maximal vs ev).1.filter p) ∧ Independent ev ((maximal vs ev).1.filter p) := by
  refine ⟨(dotSorted_maximal_fst vs ev).filter p, fun u hu w hw => ?_⟩
  exact independent_maximal_fst vs ev u (List.mem_filter.mp hu).1 w (List.mem_filter.mp hw).1

/-- A joined tombstone is tidy. -/
theorem tidy_late_joinTombInto {t : Tomb} (other : Shape) (hk : k ≠ lifecycleKey)
    (ht : DotSorted (lookup t.late k) ∧ Independent ev (lookup t.late k)) :
    DotSorted (lookup (joinTombInto t other ev).late k) ∧
      Independent ev (lookup (joinTombInto t other ev).late k) := by
  rw [lookup_joinTombInto other hk ht.1 ht.2]
  exact tidy_late_filter _ _

theorem Tidy.joinInto (h : Tidy ev s) (h' : Tidy ev s') : Tidy ev (joinInto s s' ev) where
  vouched k v hv := by
    rcases mem_valuesAt_joinInto hv with hv | hv
    · exact h.vouched k v hv
    · exact h'.vouched k v hv
  late t ht k hk := by
    rcases s with ⟨vv, l | t₁⟩ <;> rcases s' with ⟨vv', l' | t₂⟩
    · cases ht
    · cases ht
      exact tidy_late_joinTombInto _ hk (h'.late t₂ rfl k hk)
    · cases ht
      exact tidy_late_joinTombInto _ hk (h.late t₁ rfl k hk)
    · cases ht
      exact tidy_late_joinTombInto _ hk (h.late t₁ rfl k hk)

theorem tidy_normalize (hv : ∀ k, Vouched ev (s.shape.valuesAt k)) : Tidy ev (normalize s ev) where
  vouched k v hmem := hv k v (mem_valuesAt_normalize hmem)
  late t ht k hk := by
    rcases s with ⟨vv, l | t₁⟩
    · cases ht
    · cases ht
      rw [(lookup_normalize_tomb t₁ ev).2.2.2 k, if_pos hk]
      exact tidy_late_filter _ _

theorem Tidy.rekeyPurge (h : Tidy ev s) (d : Dot) (keyId : SymmetricKeyId) :
    Tidy ev (ItemMerge.rekeyPurge s d keyId) := by
  rcases s with ⟨vv, l | t⟩
  · exact h
  · unfold ItemMerge.rekeyPurge
    simp only
    split_ifs
    · refine ⟨h.vouched, fun t' ht' k hk => ?_⟩
      cases ht'
      exact h.late t rfl k hk
    · exact h

/-! ### What a join does to a value -/

/-- A value is held at the dot of `v`, with the clock value of `v` and no higher bytes. -/
def HeldAt (s : State) (k : Bytes) (v : Val) : Prop :=
  ∃ x ∈ s.shape.valuesAt k, x.dot = v.dot ∧ x.hlc = v.hlc ∧ x.value ≤ v.value

/-- On a live item, `historyLimit` history entries of the key rank above `v`. -/
def PrunedAt (s : State) (k : Bytes) (v : Val) : Prop :=
  ∃ l, s.shape = .live l ∧ historyLimit ≤ (lookup l.hist k).countP fun u => v.rank < u.rank

theorem PrunedAt.le_length (h : PrunedAt s k v) : historyLimit ≤ (s.shape.valuesAt k).length := by
  obtain ⟨l, hl, hcount⟩ := h
  rw [hl]
  change historyLimit ≤ (lookup l.regs k ++ lookup l.hist k).length
  rw [List.length_append]
  exact (hcount.trans List.countP_le_length).trans (Nat.le_add_left _ _)

/-- A tombstone discards `v`: it is a lifecycle value, or the purge context covers it. -/
def DiscardedAt (s : State) (k : Bytes) (v : Val) : Prop :=
  ∃ t, s.shape = .tomb t ∧ (k = lifecycleKey ∨ t.c.covers v.dot)

/-- What became of `v` is known: a value is held at its dot, or a tombstone discards it, or one of
the values `took` supersedes it and it was pruned or the item is a tombstone. -/
def Accounted (ev : Evidence) (s : State) (took : Val → Prop) (k : Bytes) (v : Val) : Prop :=
  HeldAt s k v ∨ DiscardedAt s k v ∨
    (PrunedAt s k v ∨ s.isTomb) ∧ ∃ w, took w ∧ Supersedes ev w.dot v.dot

theorem Accounted.imp {took took' : Val → Prop} (h : Accounted ev s took k v)
    (himp : ∀ w, took w → took' w) : Accounted ev s took' k v :=
  h.imp_right (Or.imp_right (And.imp_right fun ⟨w, hw, hsup⟩ => ⟨w, himp w hw, hsup⟩))

/-- The kept version of a value's dot has the value's clock value and no higher bytes. -/
theorem exists_version {vs : List Val} (hv : Vouched ev vs) (hx : x ∈ vs) :
    ∃ y, IsVersion ev vs y ∧ y.dot = x.dot ∧ y.hlc = x.hlc ∧ y.value ≤ x.value := by
  obtain ⟨y, hd, hy⟩ := exists_isVersion ev hx
  have hyv := hv y hy.1
  have hxv := hv x hx
  have hhlc : y.hlc = x.hlc := by
    rw [hd, hxv] at hyv
    exact (Option.some.inj hyv).symm
  have hkey := hy.2 x hx hd.symm
  rw [versionKey, versionKey, hyv, hxv, hhlc] at hkey
  simp only [ne_eq, not_true_eq_false, decide_false, Prod.Lex.toLex_le_toLex, lt_self_iff_false,
    true_and, false_or] at hkey
  exact ⟨y, hy, hd, hhlc, hkey⟩

/-- A late register keeps each value's version, unless the purge context covers its dot or another
value supersedes it. -/
theorem late_fate {vs : List Val} {c : VersionVector} (hv : Vouched ev vs) (hx : x ∈ vs) :
    (∃ y ∈ (maximal vs ev).1.filter fun v => ¬ c.covers v.dot,
      y.dot = x.dot ∧ y.hlc = x.hlc ∧ y.value ≤ x.value) ∨
    c.covers x.dot ∨ ∃ w ∈ vs, Supersedes ev w.dot x.dot := by
  obtain ⟨y, hy, hd, hrest⟩ := exists_version hv hx
  by_cases hsup : ∃ w ∈ vs, Supersedes ev w.dot x.dot
  · exact .inr (.inr hsup)
  · by_cases hcov : c.covers x.dot
    · exact .inr (.inl hcov)
    · refine .inl ⟨y, List.mem_filter.mpr ⟨mem_maximal_fst.mpr ⟨hy, fun u hu h => ?_⟩, ?_⟩, hd, hrest⟩
      · exact hsup ⟨u, hu, hd ▸ h⟩
      · rw [hd]
        simpa using hcov

/-- A live key keeps each value's version, unless it is superseded and pruned. -/
theorem live_fate {vs : List Val} (hv : Vouched ev vs) (hx : x ∈ vs) :
    (∃ y ∈ heldVals vs ev, y.dot = x.dot ∧ y.hlc = x.hlc ∧ y.value ≤ x.value) ∨
    (historyLimit ≤ (liveKey vs ev).2.countP fun u => x.rank < u.rank) ∧
      ∃ w ∈ vs, Supersedes ev w.dot x.dot := by
  obtain ⟨y, hy, hd, hhlc, hle⟩ := exists_version hv hx
  by_cases hsup : ∃ w ∈ vs, Supersedes ev w.dot y.dot
  · have hmem : y ∈ (maximal vs ev).2 := mem_maximal_snd.mpr ⟨hy, hsup⟩
    by_cases hkept : y ∈ prune (maximal vs ev).2
    · exact .inl ⟨y, List.mem_append_right _ hkept, hd, hhlc, hle⟩
    · have hrank : x.rank = y.rank := by rw [Val.rank, Val.rank, hd, hhlc]
      refine .inr ⟨?_, hd ▸ hsup⟩
      rw [hrank]
      exact le_countP_prune (dotSorted_maximal_snd vs ev) hmem hkept
  · refine .inl ⟨y, List.mem_append_left _ (mem_maximal_fst.mpr ⟨hy, fun u hu h => ?_⟩), hd, hhlc, hle⟩
    exact hsup ⟨u, hu, h⟩

theorem joinTombInto_fate {t : Tomb} {other : Shape} (hk : k ≠ lifecycleKey)
    (ht : DotSorted (lookup t.late k) ∧ Independent ev (lookup t.late k))
    (hv : Vouched ev (lookup t.late k ++ other.valuesAt k))
    (hx : x ∈ lookup t.late k ++ other.valuesAt k) :
    (∃ y ∈ lookup (joinTombInto t other ev).late k,
      y.dot = x.dot ∧ y.hlc = x.hlc ∧ y.value ≤ x.value) ∨
    (joinTombInto t other ev).c.covers x.dot ∨
    ∃ w ∈ lookup t.late k ++ other.valuesAt k, Supersedes ev w.dot x.dot := by
  rw [lookup_joinTombInto other hk ht.1 ht.2, (joinTombInto_spec t other ev).2.1]
  exact late_fate hv hx

/-- A value of either side of a join is held, or pruned below a full history and superseded by a
value of the sides, or discarded by a purge, or superseded on a tombstone. -/
theorem joinInto_fate (h : Tidy ev s) (h' : Tidy ev s')
    (hx : x ∈ s.shape.valuesAt k ∨ x ∈ s'.shape.valuesAt k) :
    Accounted ev (joinInto s s' ev)
      (fun w => w ∈ s.shape.valuesAt k ∨ w ∈ s'.shape.valuesAt k) k x := by
  have htomb : ∀ (t : Tomb) (other : Shape), Tidy ev ⟨s.vv, .tomb t⟩ →
      Vouched ev (other.valuesAt k) → x ∈ lookup t.late k ++ other.valuesAt k →
      HeldAt ⟨s.vv, .tomb (joinTombInto t other ev)⟩ k x ∨
        DiscardedAt ⟨s.vv, .tomb (joinTombInto t other ev)⟩ k x ∨
        ∃ w ∈ lookup t.late k ++ other.valuesAt k, Supersedes ev w.dot x.dot := by
    intro t other ht hother hx
    by_cases hk : k = lifecycleKey
    · exact .inr (.inl ⟨_, rfl, .inl hk⟩)
    · have hv : Vouched ev (lookup t.late k) := ht.vouched k
      rcases joinTombInto_fate hk (ht.late t rfl k hk) (hv.append hother) hx with hh | hcov | hsup
      · exact .inl hh
      · exact .inr (.inl ⟨_, rfl, .inr hcov⟩)
      · exact .inr (.inr hsup)
  rcases s with ⟨vv, l | t⟩ <;> rcases s' with ⟨vv', l' | t'⟩
  · obtain ⟨hr, hh⟩ := lookup_joinLiveInto l l' ev k
    by_cases hkey : k ∈ keysOf [l'.regs, l'.hist]
    · rw [if_pos hkey] at hr hh
      have hx : x ∈ l.valuesAt k ++ l'.valuesAt k := List.mem_append.mpr hx
      have hv : Vouched ev (l.valuesAt k ++ l'.valuesAt k) := (h.vouched k).append (h'.vouched k)
      rcases live_fate hv hx with ⟨y, hy, hrest⟩ | ⟨hcount, w, hw, hsup⟩
      · refine .inl ⟨y, ?_, hrest⟩
        change y ∈ lookup (joinLiveInto l l' ev).regs k ++ lookup (joinLiveInto l l' ev).hist k
        rw [hr, hh]
        exact hy
      · exact .inr (.inr ⟨.inl ⟨_, rfl, by rw [hh]; exact hcount⟩, w, List.mem_append.mp hw, hsup⟩)
    · rw [if_neg hkey] at hr hh
      have hnil : l'.valuesAt k = [] := by rw [← valuesOf_two, valuesOf_eq_nil hkey]
      have hx : x ∈ l.valuesAt k := by
        rcases hx with hx | hx
        · exact hx
        · have hx : x ∈ l'.valuesAt k := hx
          rw [hnil] at hx
          exact absurd hx List.not_mem_nil
      refine .inl ⟨x, ?_, rfl, rfl, le_rfl⟩
      change x ∈ lookup (joinLiveInto l l' ev).regs k ++ lookup (joinLiveInto l l' ev).hist k
      rw [hr, hh]
      exact hx
  · rcases htomb t' (.live l) ⟨h'.vouched, h'.late⟩ (h.vouched k)
      (List.mem_append.mpr hx.symm) with hh | hd | ⟨w, hw, hsup⟩
    · exact .inl hh
    · exact .inr (.inl hd)
    · exact .inr (.inr ⟨.inr rfl, w, (List.mem_append.mp hw).symm, hsup⟩)
  · rcases htomb t (.live l') ⟨h.vouched, h.late⟩ (h'.vouched k)
      (List.mem_append.mpr hx) with hh | hd | ⟨w, hw, hsup⟩
    · exact .inl hh
    · exact .inr (.inl hd)
    · exact .inr (.inr ⟨.inr rfl, w, List.mem_append.mp hw, hsup⟩)
  · rcases htomb t (.tomb t') ⟨h.vouched, h.late⟩ (h'.vouched k)
      (List.mem_append.mpr hx) with hh | hd | ⟨w, hw, hsup⟩
    · exact .inl hh
    · exact .inr (.inl hd)
    · exact .inr (.inr ⟨.inr rfl, w, List.mem_append.mp hw, hsup⟩)

/-! ### What a run takes -/

namespace ItemMerge

/-- The call merges the body of `o`. -/
def Merges (m : ItemMerge) (c : Call) (o : OpInput) : Prop :=
  (c = .applyOp o ∨ ∃ own, c = .applyOwnOp o own) ∧ o.dot ∉ m.merged ∧ o.dot ∈ (m.call c).merged

/-- The call absorbs a snapshot and takes `taken`, its cut to the headers then recorded. -/
def Absorbs (m : ItemMerge) (c : Call) (taken : State) : Prop :=
  ∃ snapshot withOps absorbed cuts ignored, c = .absorbSnapshot snapshot withOps ∧
    (m.absorbSnapshot snapshot withOps).2 = .ok ⟨.absorbed absorbed, cuts⟩ ∧
    cut (State.fromSnapshot snapshot.header.covered snapshot.data) (heads (m.call c).evidence)
      (m.call c).evidence = .ok ⟨taken, ignored⟩

/-- The call takes the value `w` of `k`, from a body or from a snapshot. -/
def Takes (m : ItemMerge) (c : Call) (k : Bytes) (w : Val) : Prop :=
  (∃ o, m.Merges c o ∧ w ∈ (Content.ofOp o.held).vals k) ∨
    ∃ taken, m.Absorbs c taken ∧ w ∈ taken.shape.valuesAt k

/-- The run takes the value `w` of `k`. -/
def Took (m : ItemMerge) (calls : List Call) (k : Bytes) (w : Val) : Prop :=
  ∃ pre c post, calls = pre ++ c :: post ∧
    (m.callAll pre).Takes c k w

variable {m : ItemMerge} {c : Call} {o : OpInput}

theorem callAll_append (m : ItemMerge) (pre post : List Call) :
    m.callAll (pre ++ post) = (m.callAll pre).callAll post := List.foldl_append

theorem Took.append {calls : List Call} {w : Val} (h : m.Took calls k w) (more : List Call) :
    m.Took (calls ++ more) k w := by
  obtain ⟨pre, c, post, rfl, htook⟩ := h
  exact ⟨pre, c, post ++ more, by simp, htook⟩

/-- A merged body is joined into the state; otherwise neither the state nor what is merged
changes. -/
theorem mergeBody_state (m : ItemMerge) (o : OpInput) :
    ((m.mergeBody o).1.state = m.state ∧ (m.mergeBody o).1.merged = m.merged) ∨
    (o.dot ∉ m.merged ∧ o.dot ∈ (m.mergeBody o).1.merged ∧
      (m.mergeBody o).1.headers[o.dot]? = some o.facts ∧
      (m.mergeBody o).1.state =
        joinInto m.state (singleton o.held) (m.mergeBody o).1.evidence) := by
  rcases m.mergeBody_cases o with ⟨e, he⟩ | ⟨m', hm', he⟩
  · rw [he]
    exact .inl ⟨rfl, rfl⟩
  · have hframe := (recordHeader_ok hm').1
    have hstate : m'.state = m.state := by rw [hframe]
    have hmerged : m'.merged = m.merged := by rw [hframe]
    have hrec := getElem?_recordHeader hm'
    have hjoin : o.dot ∈ (m'.joinBody o.held).merged :=
      ExtTreeSet.mem_insert.mpr (.inl (compare_eq_iff_eq.mpr rfl))
    rcases m'.mergeRecorded_cases o with ⟨-, hr⟩ | ⟨-, -, hr⟩ | ⟨hnew, -, -, hr⟩ | ⟨hnew, -, -, hr⟩
    · rw [he, hr]
      exact .inl ⟨hstate, hmerged⟩
    · rw [he, hr]
      exact .inl ⟨hstate, hmerged⟩
    · rw [he, hr, ← hstate, ← hmerged]
      exact .inr ⟨hnew, hjoin, hrec, rfl⟩
    · rw [he, hr, ← hstate, ← hmerged]
      exact .inr ⟨hnew, hjoin, hrec, rfl⟩

/-- What a call that brings one operation does to the state. -/
theorem call_op_state (hc : c = .applyOp o ∨ ∃ own, c = .applyOwnOp o own) :
    ((m.call c).state = m.state ∧ (m.call c).merged = m.merged) ∨
    (m.Merges c o ∧ (m.call c).headers[o.dot]? = some o.facts ∧
      (m.call c).state = joinInto m.state (singleton o.held) (m.call c).evidence) := by
  have hbody := m.mergeBody_state o
  have hcall : m.call c = m ∨ m.call c = (m.mergeBody o).1 := by
    rcases hc with rfl | ⟨own, rfl⟩
    · rw [call, applyOp_eq]
      exact .inr rfl
    · rw [call]
      rcases m.applyOwnOp_cases o own with ⟨e, he⟩ | ⟨-, -, -, kind, due, -, he⟩
      · rw [he]
        exact .inl rfl
      · rw [he]
        exact .inr rfl
  rcases hcall with hcall | hcall
  · rw [hcall]
    exact .inl ⟨rfl, rfl⟩
  · rw [← hcall] at hbody
    rcases hbody with h | ⟨hnew, hmerged, hrest⟩
    · exact .inl h
    · exact .inr ⟨⟨hc, hnew, hmerged⟩, hrest⟩

/-- What a call does to the state. -/
theorem call_state (m : ItemMerge) (c : Call) :
    (m.call c).state = m.state ∨
    (∃ d keyId, (m.call c).state = rekeyPurge m.state d keyId) ∨
    (∃ o ∈ c.ops, m.Merges c o ∧ (m.call c).headers[o.dot]? = some o.facts ∧
      (m.call c).state = joinInto m.state (singleton o.held) (m.call c).evidence) ∨
    ∃ taken, m.Absorbs c taken ∧ (∀ k, Vouched (m.call c).evidence (taken.shape.valuesAt k)) ∧
      (m.call c).state =
        joinInto m.state (normalize taken (m.call c).evidence) (m.call c).evidence := by
  cases hc : c with
  | recordHeader header =>
    left
    rw [call]
    rcases m.recordHeader_cases header with ⟨e, he⟩ | ⟨-, he⟩ | ⟨-, he⟩ <;> rw [he]
  | addItemKey keyId => exact .inl rfl
  | applyOp o =>
    rcases call_op_state (.inl (hc ▸ rfl : c = .applyOp o)) with h | h
    · exact .inl (hc ▸ h.1)
    · exact .inr (.inr (.inl ⟨o, List.mem_singleton_self o, hc ▸ h⟩))
  | applyOwnOp o own =>
    rcases call_op_state (.inr ⟨own, (hc ▸ rfl : c = .applyOwnOp o own)⟩) with h | h
    · exact .inl (hc ▸ h.1)
    · exact .inr (.inr (.inl ⟨o, List.mem_singleton_self o, hc ▸ h⟩))
  | absorbSnapshot snapshot withOps =>
    have hframe : (m.recordWith withOps).1.state = m.state := by
      obtain ⟨headers, bodies, h⟩ := m.recordWith_frame withOps
      rw [h]
    rcases m.absorbSnapshot_cases snapshot withOps with ⟨e, he⟩ | ⟨m', e, hw, he⟩ | ⟨m', hw, he⟩
    · rw [call, he]
      exact .inl rfl
    · rw [hw] at hframe
      rw [call, he]
      exact .inl hframe
    · rw [hw] at hframe
      rcases m'.absorbRecorded_cases snapshot with ⟨r, cuts, hr⟩ | ⟨taken, hcut, hcon, hr⟩
      · rw [call, he, hr]
        exact .inl hframe
      · have hcall : m.call (.absorbSnapshot snapshot withOps) =
            m'.absorbCut taken (disagreements m'.state taken.state m'.bodies m'.evidence) := by
          rw [call, he, hr]
        rw [hcall, ← hframe]
        refine .inr (.inr (.inr ⟨taken.state, ?_, (cut_spec hcut).vouched, rfl⟩))
        refine ⟨snapshot, withOps, _, _, taken.ignored, rfl, by rw [he, hr], ?_⟩
        rw [hcall]
        exact hcut
  | endFetch => exact .inl rfl
  | writeSnapshot =>
    left
    rw [call]
    rcases m.writeSnapshot_cases with ⟨e, he⟩ | ⟨data, -, -, -, he⟩ <;> rw [he]
  | reissueOwnOp header keyId reissue =>
    rw [call]
    rcases m.reissueOwnOp_cases header keyId reissue with ⟨e, he⟩ | ⟨due, -, -, he⟩
    · rw [he]
      exact .inl rfl
    · rw [he]
      exact .inr (.inl ⟨header.dot, keyId, rfl⟩)
  | markSurfaced => exact .inl rfl

end ItemMerge

/-! ### One operation as a state -/

theorem valuesAt_singleton {op : HeldOp} (hwf : op.WellFormed) (ev : Evidence) (k : Bytes) :
    (singleton op).shape.valuesAt k = heldVals ((Content.ofOp op).valList k) ev := by
  unfold singleton
  cases hl : op.lifecycle with
  | active => exact (liveRep_singleton hwf (by simp [hl])).valuesAt k
  | trashed => exact (liveRep_singleton hwf (by simp [hl])).valuesAt k
  | purge =>
    have hnil : (Content.ofOp op).valList k = [] := by
      simp [Content.valList, Content.ofOp, hl]
    rw [hnil, heldVals_nil]
    exact lookup_empty k

theorem mem_vals_of_mem_singleton {op : HeldOp} (hwf : op.WellFormed)
    (hx : x ∈ (singleton op).shape.valuesAt k) : x ∈ (Content.ofOp op).vals k := by
  rw [valuesAt_singleton hwf ⟨∅, ∅⟩] at hx
  exact Content.mem_valList.mp (mem_of_mem_heldVals hx)

theorem tidy_singleton {op : HeldOp} (hwf : op.WellFormed) (hh : ev.hlc op.dot = some op.hlc) :
    Tidy ev (singleton op) where
  vouched k v hv := (Represents.singleton hwf hh).vouched k v (mem_vals_of_mem_singleton hwf hv)
  late t ht k _ := by
    have hnil : lookup t.late k = [] := by
      unfold singleton at ht
      cases hl : op.lifecycle with
      | active => simp [hl] at ht
      | trashed => simp [hl] at ht
      | purge =>
        simp only [hl, Shape.tomb.injEq] at ht
        rw [← ht]
        exact lookup_empty k
    rw [hnil]
    exact ⟨List.Pairwise.nil, fun u hu => absurd hu List.not_mem_nil⟩

/-- Every value an operation writes is held in its one-operation state. -/
theorem heldAt_singleton {op : HeldOp} (hwf : op.WellFormed) (hh : ev.hlc op.dot = some op.hlc)
    (hv : v ∈ (Content.ofOp op).vals k) : HeldAt (singleton op) k v := by
  have hvouched := (Represents.singleton hwf hh).vouched.list k
  rcases live_fate hvouched (Content.mem_valList.mpr hv) with ⟨y, hy, hrest⟩ | ⟨-, w, hw, hsup⟩
  · exact ⟨y, by rw [valuesAt_singleton hwf ev]; exact hy, hrest⟩
  · have hwd := (Content.mem_ofOp_vals.mp (Content.mem_valList.mp hw)).2.1
    have hvd := (Content.mem_ofOp_vals.mp hv).2.1
    exact absurd (hwd.trans hvd.symm) hsup.1

/-! ### Along a run -/

/-- A value that stands for `v` passes its fate on to `v`. -/
theorem HeldAt.joinInto (h : Tidy ev s) (h' : Tidy ev s')
    (hv : HeldAt s k v ∨ HeldAt s' k v) :
    Accounted ev (joinInto s s' ev)
      (fun w => w ∈ s.shape.valuesAt k ∨ w ∈ s'.shape.valuesAt k) k v := by
  obtain ⟨x, hx, hd, hhlc, hle⟩ : ∃ x, (x ∈ s.shape.valuesAt k ∨ x ∈ s'.shape.valuesAt k) ∧
      x.dot = v.dot ∧ x.hlc = v.hlc ∧ x.value ≤ v.value := by
    rcases hv with ⟨x, hx, hrest⟩ | ⟨x, hx, hrest⟩
    · exact ⟨x, .inl hx, hrest⟩
    · exact ⟨x, .inr hx, hrest⟩
  have hrank : x.rank = v.rank := by rw [Val.rank, Val.rank, hd, hhlc]
  have hfate := joinInto_fate h h' hx
  unfold Accounted PrunedAt DiscardedAt at hfate
  rw [hd, hrank] at hfate
  rcases hfate with ⟨y, hy, hyd, hyh, hyv⟩ | hfate
  · exact .inl ⟨y, hy, hyd.trans hd, hyh.trans hhlc, hyv.trans hle⟩
  · exact .inr hfate

theorem DiscardedAt.joinInto (h : DiscardedAt s k v) (s' : State) (ev : Evidence) :
    DiscardedAt (joinInto s s' ev) k v := by
  obtain ⟨t, ht, hd⟩ := h
  rcases s with ⟨vv, l | t₁⟩
  · cases ht
  · cases ht
    refine ⟨joinTombInto t s'.shape ev, rfl, hd.imp_right fun hcov => ?_⟩
    rw [(joinTombInto_spec t s'.shape ev).2.1, VersionVector.covers_sup]
    exact .inl hcov

theorem isTomb_joinInto (h : s.isTomb) (s' : State) (ev : Evidence) :
    (joinInto s s' ev).isTomb := by
  rcases s with ⟨vv, l | t⟩
  · cases h
  · rfl

theorem valuesAt_rekeyPurge (s : State) (d : Dot) (keyId : SymmetricKeyId) (k : Bytes) :
    (ItemMerge.rekeyPurge s d keyId).shape.valuesAt k = s.shape.valuesAt k := by
  rcases s with ⟨vv, l | t⟩
  · rfl
  · unfold ItemMerge.rekeyPurge
    simp only
    split_ifs <;> rfl

theorem DiscardedAt.rekeyPurge (h : DiscardedAt s k v) (d : Dot) (keyId : SymmetricKeyId) :
    DiscardedAt (ItemMerge.rekeyPurge s d keyId) k v := by
  obtain ⟨t, ht, hd⟩ := h
  rcases s with ⟨vv, l | t₁⟩
  · cases ht
  · cases ht
    unfold ItemMerge.rekeyPurge
    simp only
    split_ifs
    · exact ⟨_, rfl, hd⟩
    · exact ⟨t, rfl, hd⟩

theorem isTomb_rekeyPurge (h : s.isTomb) (d : Dot) (keyId : SymmetricKeyId) :
    (ItemMerge.rekeyPurge s d keyId).isTomb := by
  rcases s with ⟨vv, l | t⟩
  · cases h
  · unfold ItemMerge.rekeyPurge
    simp only
    split_ifs <;> rfl

namespace ItemMerge

variable {itemId : ItemId}

theorem callAll_concat (m : ItemMerge) (calls : List Call) (c : Call) :
    m.callAll (calls ++ [c]) = (m.callAll calls).call c := by
  rw [callAll_append]
  rfl

theorem mem_opsOf_append {pre post : List Call} {o : OpInput} :
    o ∈ opsOf (pre ++ post) ↔ o ∈ opsOf pre ∨ o ∈ opsOf post := by
  rw [opsOf, List.flatMap_append, List.mem_append]
  rfl

theorem call_headersLE (m : ItemMerge) (c : Call) :
    m.evidence.HeadersLE (m.call c).evidence :=
  steps_headersLE (show Relation.ReflTransGen (Step Set.univ fun _ _ => True) m (m.call c) from
    call_steps (fun _ _ => trivial) fun _ _ _ => trivial)

theorem hlc_of_headers {m : ItemMerge} {o : OpInput} (h : m.headers[o.dot]? = some o.facts) :
    m.evidence.hlc o.held.dot = some o.held.hlc := by
  change (m.headers[o.dot]?).map HeaderFacts.hlc = _
  rw [h]
  rfl

/-- Every state of a run is tidy, and the run took all it holds. -/
theorem tidy_callAll (itemId : ItemId) (calls : List Call) (hwf : ∀ o ∈ opsOf calls, o.data.WellFormed) :
    Tidy ((new itemId).callAll calls).evidence ((new itemId).callAll calls).state ∧
      ∀ k, ∀ x ∈ ((new itemId).callAll calls).state.shape.valuesAt k,
        (new itemId).Took calls k x := by
  induction calls using List.reverseRecOn with
  | nil =>
    refine ⟨tidy_default _, fun k x hx => ?_⟩
    exact absurd hx (by simp [callAll, new, State.default, Shape.valuesAt, Live.valuesAt,
      lookup_empty])
  | append_singleton calls c ih =>
    obtain ⟨htidy, htook⟩ := ih fun o ho => hwf o (mem_opsOf_append.mpr (.inl ho))
    have htidy := htidy.evidence_mono (((new itemId).callAll calls).call_headersLE c)
    rw [callAll_concat]
    rcases ((new itemId).callAll calls).call_state c with
      hs | ⟨d, keyId, hs⟩ | ⟨o, ho, hmerges, hrec, hs⟩ | ⟨taken, habsorbs, hv, hs⟩
    · rw [hs]
      exact ⟨htidy, fun k x hx => (htook k x hx).append _⟩
    · rw [hs]
      refine ⟨htidy.rekeyPurge d keyId, fun k x hx => (htook k x ?_).append _⟩
      rwa [valuesAt_rekeyPurge] at hx
    · have hop : o.held.WellFormed := (hwf o (mem_opsOf_append.mpr (.inr (by simpa [opsOf] using ho)))).held
      rw [hs]
      refine ⟨htidy.joinInto (tidy_singleton hop (hlc_of_headers hrec)), fun k x hx => ?_⟩
      rcases mem_valuesAt_joinInto hx with hx | hx
      · exact (htook k x hx).append _
      · exact ⟨calls, c, [], rfl, .inl ⟨o, hmerges, mem_vals_of_mem_singleton hop hx⟩⟩
    · rw [hs]
      refine ⟨htidy.joinInto (tidy_normalize hv), fun k x hx => ?_⟩
      rcases mem_valuesAt_joinInto hx with hx | hx
      · exact (htook k x hx).append _
      · exact ⟨calls, c, [], rfl, .inr ⟨taken, habsorbs, mem_valuesAt_normalize hx⟩⟩

theorem discardedAt_call {m : ItemMerge} (h : DiscardedAt m.state k v) (c : Call) :
    DiscardedAt (m.call c).state k v := by
  rcases m.call_state c with hs | ⟨d, keyId, hs⟩ | ⟨o, -, -, -, hs⟩ | ⟨taken, -, -, hs⟩
  · exact hs ▸ h
  · exact hs ▸ h.rekeyPurge d keyId
  · exact hs ▸ h.joinInto _ _
  · exact hs ▸ h.joinInto _ _

theorem isTomb_call {m : ItemMerge} (h : m.state.isTomb) (c : Call) :
    (m.call c).state.isTomb := by
  rcases m.call_state c with hs | ⟨d, keyId, hs⟩ | ⟨o, -, -, -, hs⟩ | ⟨taken, -, -, hs⟩
  · exact hs ▸ h
  · exact hs ▸ isTomb_rekeyPurge h d keyId
  · exact hs ▸ isTomb_joinInto h _ _
  · exact hs ▸ isTomb_joinInto h _ _

/-- A value held before a call, or brought by a body the call merges, is accounted for after it. -/
theorem call_fate {m : ItemMerge} {c : Call} (htidy : Tidy m.evidence m.state)
    (hwf : ∀ o ∈ c.ops, o.data.WellFormed)
    (hv : HeldAt m.state k v ∨ ∃ o, m.Merges c o ∧ v ∈ (Content.ofOp o.held).vals k) :
    Accounted (m.call c).evidence (m.call c).state
      (fun w => w ∈ m.state.shape.valuesAt k ∨ m.Takes c k w) k v := by
  have htidy := htidy.evidence_mono (m.call_headersLE c)
  have hbody : ∀ {o : OpInput}, m.Merges c o → o.held.WellFormed := by
    rintro o ⟨rfl | ⟨own, rfl⟩, -⟩ <;> exact (hwf o (List.mem_singleton_self o)).held
  have hmerge : ∀ {o : OpInput}, m.Merges c o → (m.call c).headers[o.dot]? = some o.facts →
      (m.call c).state = joinInto m.state (singleton o.held) (m.call c).evidence →
      HeldAt m.state k v ∨ HeldAt (singleton o.held) k v →
      Accounted (m.call c).evidence (m.call c).state
        (fun w => w ∈ m.state.shape.valuesAt k ∨ m.Takes c k w) k v := by
    intro o hm hrec hs hv
    have hfate := HeldAt.joinInto htidy (tidy_singleton (hbody hm) (hlc_of_headers hrec)) hv
    rw [← hs] at hfate
    exact hfate.imp fun w hw =>
      hw.imp_right fun hw => .inl ⟨o, hm, mem_vals_of_mem_singleton (hbody hm) hw⟩
  rcases hv with hv | ⟨o, hm, hv⟩
  · rcases m.call_state c with hs | ⟨d, keyId, hs⟩ | ⟨o, -, hm, hrec, hs⟩ | ⟨taken, habs, hvt, hs⟩
    · rw [hs]
      exact .inl hv
    · rw [hs]
      refine .inl ?_
      unfold HeldAt
      rwa [valuesAt_rekeyPurge]
    · exact hmerge hm hrec hs (.inl hv)
    · have hfate := HeldAt.joinInto htidy (tidy_normalize hvt) (.inl hv)
      rw [← hs] at hfate
      exact hfate.imp fun w hw =>
        hw.imp_right fun hw => .inr ⟨taken, habs, mem_valuesAt_normalize hw⟩
  · rcases call_op_state hm.1 with ⟨-, hmerged⟩ | ⟨-, hrec, hs⟩
    · exact absurd (hmerged ▸ hm.2.2) hm.2.1
    · exact hmerge hm hrec hs (.inr (heldAt_singleton (hbody hm) (hlc_of_headers hrec) hv))

/-- What became of a value after the calls `post` that followed the calls `pre`. -/
def Fate (m : ItemMerge) (pre post : List Call) (k : Bytes) (v : Val) : Prop :=
  HeldAt (m.callAll (pre ++ post)).state k v ∨ DiscardedAt (m.callAll (pre ++ post)).state k v ∨
    ((∃ post₁ post₂, post = post₁ ++ post₂ ∧ PrunedAt (m.callAll (pre ++ post₁)).state k v) ∨
      (m.callAll (pre ++ post)).state.isTomb) ∧
    ∃ w, m.Took (pre ++ post) k w ∧
      Supersedes (m.callAll (pre ++ post)).evidence w.dot v.dot

/-- A value held before the last call of a run, or brought by a body that call merges, is accounted
for after the run. -/
theorem accounted_concat {calls : List Call} {c : Call}
    (hwf : ∀ o ∈ opsOf (calls ++ [c]), o.data.WellFormed)
    (hv : HeldAt ((new itemId).callAll calls).state k v ∨
      ∃ o, ((new itemId).callAll calls).Merges c o ∧ v ∈ (Content.ofOp o.held).vals k) :
    Accounted ((new itemId).callAll (calls ++ [c])).evidence
      ((new itemId).callAll (calls ++ [c])).state ((new itemId).Took (calls ++ [c]) k) k v := by
  obtain ⟨htidy, htook⟩ := tidy_callAll itemId calls
    fun o ho => hwf o (mem_opsOf_append.mpr (.inl ho))
  have hwfc : ∀ o ∈ c.ops, o.data.WellFormed := fun o ho =>
    hwf o (mem_opsOf_append.mpr (.inr (by simpa [opsOf] using ho)))
  rw [callAll_concat]
  refine (call_fate htidy hwfc hv).imp fun w hw => ?_
  rcases hw with hw | hw
  · exact (htook k w hw).append [c]
  · exact ⟨calls, c, [], rfl, hw⟩

/-- One more call keeps the account of a value. -/
theorem Fate.concat {pre post : List Call} {c : Call}
    (hwf : ∀ o ∈ opsOf (pre ++ (post ++ [c])), o.data.WellFormed)
    (h : (new itemId).Fate pre post k v) : (new itemId).Fate pre (post ++ [c]) k v := by
  have hcalls : pre ++ (post ++ [c]) = pre ++ post ++ [c] := (List.append_assoc _ _ _).symm
  rw [hcalls] at hwf
  unfold Fate
  rw [hcalls]
  rcases h with hv | hv | ⟨hpruned, w, hw, hsup⟩
  · rcases accounted_concat hwf (.inl hv) with hheld | hdisc | ⟨hpruned, hsup⟩
    · exact .inl hheld
    · exact .inr (.inl hdisc)
    · refine .inr (.inr ⟨hpruned.imp_left fun hp => ?_, hsup⟩)
      exact ⟨post ++ [c], [], by simp, by rw [hcalls]; exact hp⟩
  · rw [callAll_concat]
    exact .inr (.inl (discardedAt_call hv c))
  · rw [callAll_concat]
    refine .inr (.inr ⟨?_, w, hw.append [c], hsup.mono (call_headersLE _ c)⟩)
    rcases hpruned with ⟨post₁, post₂, rfl, hp⟩ | htomb
    · exact .inl ⟨post₁, post₂ ++ [c], by simp, hp⟩
    · exact .inr (isTomb_call htomb c)

/-- The account of a merged value along the calls that follow. -/
theorem fate_of_merges {pre post : List Call} {c : Call} {o : OpInput}
    (hwf : ∀ o ∈ opsOf (pre ++ [c] ++ post), o.data.WellFormed)
    (hm : ((new itemId).callAll pre).Merges c o) (hv : v ∈ (Content.ofOp o.held).vals k) :
    (new itemId).Fate (pre ++ [c]) post k v := by
  induction post using List.reverseRecOn with
  | nil =>
    rw [List.append_nil] at hwf
    have hacc := accounted_concat hwf (.inr ⟨o, hm, hv⟩)
    unfold Fate
    rw [List.append_nil]
    refine hacc.imp_right (Or.imp_right (And.imp_left (Or.imp_left fun hp => ?_)))
    exact ⟨[], [], rfl, by rw [List.append_nil]; exact hp⟩
  | append_singleton post c' ih =>
    refine Fate.concat hwf (ih fun o ho => hwf o ?_)
    rw [← List.append_assoc]
    exact mem_opsOf_append.mpr (.inl ho)

end ItemMerge

/-- A field is written and the item purged by a device that did not see the write. -/
def lossOps : OpInput × OpInput × OpInput :=
  let a : Dot := .sample 1 1
  let b : Dot := .sample 2 1
  let p : Dot := .sample 2 2
  (.sample b ⟨6⟩ [] (OpInput.sampleWrite [2]), .sample a ⟨5⟩ [] (OpInput.sampleWrite [1]),
    .sample p ⟨7⟩ [b] ⟨.purge, []⟩)

/-- The calls that bring operations and snapshots. -/
def Call.brings : Call → Bool
  | .applyOp _ | .absorbSnapshot _ _ => true
  | _ => false

/-- An operation comes too early, and a snapshot claims lower bytes for it before it merges. -/
def claimedFirst : List Call × OpInput :=
  let a : Dot := .sample 1 1
  let b : Dot := .sample 2 1
  let op : OpInput := .sample a ⟨5⟩ [b] (OpInput.sampleWrite [1])
  ([.applyOp op, .absorbSnapshot (.sample [a] (.live ⟨[⟨.lifecycle, [⟨a, ⟨5⟩, [1]⟩]⟩,
    ⟨OpInput.sampleKey, [⟨a, ⟨5⟩, [0]⟩]⟩], []⟩)) [.sample b ⟨4⟩ [] ⟨.trashed, []⟩]], op)

/-- A tombstone claims a purge context that covers `u` and not the write `v` that `u` saw. -/
def claimedContext : List Call × OpInput × OpInput :=
  let p : Dot := .sample 1 1
  let u : Dot := .sample 2 1
  let v : Dot := .sample 3 1
  let opV : OpInput := .sample v ⟨1⟩ [] (OpInput.sampleWrite [1])
  let opU : OpInput := .sample u ⟨2⟩ [v] (OpInput.sampleWrite [2])
  let opP : OpInput := .sample p ⟨3⟩ [u, v] ⟨.purge, []⟩
  ([.absorbSnapshot (.sample [p, u] (.tombstone ⟨p, ⟨3⟩, .ofDots [u], ⟨0⟩, []⟩)) [opP, opU, opV]],
    opV, opU)

end RizzyVault.Sync
