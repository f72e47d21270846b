import RizzyVault.Sync.Merge.Basis
import RizzyVault.Sync.Merge.Loss
import RizzyVault.Sync.Merge.NormalForm

/-!
# The join over one causal history

States in normal form over one causal history form a join semilattice under the evidence join. A
causal history is a set of operations whose verified contexts are transitive; a state is over it
when its values are values of its operations and its purge context is causally closed in it.

A join reads only the headers of the values it joins, so the headers of other operations are left
aside. Over the headers of the history a state represents its own values, the join represents the
union, and a union has one state.

## Main definitions

* `CausalHistory`, `OverHistory`: the history and the states over it.
* `Evidence.over`: the evidence restricted to a history.
* `CausalHistory.semilatticeSup`: the states over a history with their order.

## Main results

* `OverHistory.joinInto`: the join stays over the history.
* `CausalHistory.joinInto_semilattice`: the join is commutative, associative and idempotent.
-/

open RizzyVault.Core RizzyVault.Lib

namespace RizzyVault.Sync

open Std (ExtTreeMap ExtTreeSet)

variable {ev : Evidence} {ops : Set Dot} {a b d s : State} {vs : List Val}

/-- A causal history: supersession among the operations is transitive. -/
def CausalHistory (ev : Evidence) (ops : Set Dot) : Prop :=
  ∀ u ∈ ops, ∀ v ∈ ops, ∀ w, Supersedes ev u v → Supersedes ev v w → Supersedes ev u w

/-- A state in normal form over a history: its values are recorded values of the operations, and its
purge context is causally closed. -/
structure OverHistory (ev : Evidence) (ops : Set Dot) (s : State) : Prop where
  normal : Normal ev s
  recorded : ∀ k, ∀ v ∈ s.shape.valuesAt k, v.dot ∈ ops ∧ ev.hlc v.dot = some v.hlc
  closed : ∀ x ∈ ops, s.shape.c.covers x → ∀ cx ∈ ev.context x, ∀ y ∈ ops, cx.covers y →
    s.shape.c.covers y

/-- Contexts that contain the contexts of what they cover make a causal history. -/
theorem CausalHistory.of_le (h : ∀ u ∈ ops, ∀ v ∈ ops, Supersedes ev u v → ∀ cu ∈ ev.context u,
    ∀ cv ∈ ev.context v, cv ≤ cu ∧ ¬ cv.covers u) : CausalHistory ev ops := by
  intro u hu v hv w huv hvw
  obtain ⟨-, cu, hcu, -⟩ := id huv
  obtain ⟨-, cv, hcv, hcov⟩ := hvw
  obtain ⟨hle, hacyclic⟩ := h u hu v hv huv cu hcu cv hcv
  exact ⟨fun huw => hacyclic (huw ▸ hcov), cu, hcu, hle w hcov⟩

/-- A state is over a history when its listed values are. -/
theorem OverHistory.of_values (hn : Normal ev s)
    (hv : ∀ e ∈ s.values, e.2.dot ∈ ops ∧ ev.hlc e.2.dot = some e.2.hlc)
    (hc : ∀ x ∈ ops, s.shape.c.covers x → ∀ cx ∈ ev.context x, ∀ y ∈ ops, cx.covers y →
      s.shape.c.covers y) : OverHistory ev ops s where
  normal := hn
  recorded k v hmem := hv (k, v) (State.mem_values.mpr hmem)
  closed := hc

/-! ### The headers of the history -/

open Classical in
/-- The evidence of the operations of a history. -/
noncomputable def Evidence.over (ev : Evidence) (ops : Set Dot) : Evidence where
  headers := ev.headers.filter fun d _ => d ∈ ops
  wrapKeys := ev.wrapKeys

theorem Evidence.getElem?_over_of_mem {x : Dot} (hx : x ∈ ops) :
    (ev.over ops).headers[x]? = ev.headers[x]? := by
  rw [Evidence.over, ExtTreeMap.getElem?_filter']
  cases ev.headers[x]? <;> simp [Option.filter, hx]

theorem Evidence.mem_of_getElem?_over {x : Dot} {f : HeaderFacts}
    (hf : (ev.over ops).headers[x]? = some f) : x ∈ ops ∧ ev.headers[x]? = some f := by
  rw [Evidence.over, ExtTreeMap.getElem?_filter'] at hf
  obtain ⟨h, hx⟩ := Option.filter_eq_some_iff.mp hf
  exact ⟨by simpa using hx, h⟩

theorem Evidence.context_over_iff {x : Dot} {c : VersionVector} :
    c ∈ (ev.over ops).context x ↔ x ∈ ops ∧ c ∈ ev.context x := by
  constructor
  · intro hc
    obtain ⟨f, hf, rfl⟩ := Option.map_eq_some_iff.mp hc
    obtain ⟨hx, hf⟩ := Evidence.mem_of_getElem?_over hf
    exact ⟨hx, Option.map_eq_some_iff.mpr ⟨f, hf, rfl⟩⟩
  · rintro ⟨hx, hc⟩
    rwa [Evidence.context, Evidence.getElem?_over_of_mem hx]

theorem supersedes_over_iff {u v : Dot} :
    Supersedes (ev.over ops) u v ↔ u ∈ ops ∧ Supersedes ev u v := by
  simp only [Supersedes, Evidence.context_over_iff]
  constructor
  · rintro ⟨hne, c, ⟨hu, hc⟩, hcov⟩
    exact ⟨hu, hne, c, hc, hcov⟩
  · rintro ⟨hu, hne, c, hc, hcov⟩
    exact ⟨hne, c, ⟨hu, hc⟩, hcov⟩

theorem CausalHistory.causal (h : CausalHistory ev ops) : Causal (ev.over ops) := by
  intro u v w huv hvw
  obtain ⟨hu, huv⟩ := supersedes_over_iff.mp huv
  obtain ⟨hv, hvw⟩ := supersedes_over_iff.mp hvw
  exact supersedes_over_iff.mpr ⟨hu, h u hu v hv w huv hvw⟩

theorem maximal_over (h : ∀ v ∈ vs, v.dot ∈ ops) : maximal vs (ev.over ops) = maximal vs ev :=
  maximal_evidence_congr fun v hv => Evidence.getElem?_over_of_mem (h v hv)

theorem liveKey_over (h : ∀ v ∈ vs, v.dot ∈ ops) : liveKey vs (ev.over ops) = liveKey vs ev := by
  rw [liveKey, maximal_over h, liveKey]

theorem dots_append {ws : List Val} (hv : ∀ v ∈ vs, v.dot ∈ ops) (hw : ∀ v ∈ ws, v.dot ∈ ops) :
    ∀ v ∈ vs ++ ws, v.dot ∈ ops := by
  intro v hmem
  rcases List.mem_append.mp hmem with hmem | hmem
  · exact hv v hmem
  · exact hw v hmem

/-- Normal form reads only the headers of the held values. -/
theorem normal_over_iff (hdots : ∀ k, ∀ v ∈ s.shape.valuesAt k, v.dot ∈ ops) :
    Normal (ev.over ops) s ↔ Normal ev s := by
  rcases s with ⟨vv, l | t⟩
  · have hkey : ∀ k, liveKey (l.valuesAt k) (ev.over ops) = liveKey (l.valuesAt k) ev :=
      fun k => liveKey_over (hdots k)
    simp only [normal_live_iff, hkey]
  · have hkey : ∀ k, maximal (lookup t.late k) (ev.over ops) = maximal (lookup t.late k) ev :=
      fun k => maximal_over (hdots k)
    simp only [normal_tomb_iff, hkey]

namespace OverHistory

theorem dots (h : OverHistory ev ops s) (k : Bytes) : ∀ v ∈ s.shape.valuesAt k, v.dot ∈ ops :=
  fun v hv => (h.recorded k v hv).1

theorem normal_over (h : OverHistory ev ops s) : Normal (ev.over ops) s :=
  (normal_over_iff h.dots).mpr h.normal

theorem vouched (h : OverHistory ev ops s) : (Content.ofState s).Vouched (ev.over ops) := by
  intro k v hv
  obtain ⟨hmem, hhlc⟩ := h.recorded k v (Content.mem_ofState_vals.mp hv)
  rwa [Evidence.hlc, Evidence.getElem?_over_of_mem hmem]

/-- A state over a history represents its own values. -/
theorem represents (hc : CausalHistory ev ops) (h : OverHistory ev ops s) :
    Represents (ev.over ops) s (Content.ofState s) := by
  have hrep := Represents.normalize hc.causal h.vouched
  rwa [h.normal_over] at hrep

theorem causallyClosed (h : OverHistory ev ops s) : CausallyClosed (ev.over ops) s.shape.c := by
  intro x hx cx hcx y hy hcov
  obtain ⟨hxops, hcx⟩ := Evidence.context_over_iff.mp hcx
  have hyops : y ∈ ops := by
    obtain ⟨f, hf⟩ := Option.isSome_iff_exists.mp (ExtTreeMap.mem_iff_isSome_getElem?.mp hy)
    exact (Evidence.mem_of_getElem?_over hf).1
  exact h.closed x hxops hx cx hcx y hyops hcov

theorem joinLiveInto_over {x y : Live} {vv vv' : VersionVector}
    (hx : OverHistory ev ops ⟨vv, .live x⟩) (hy : OverHistory ev ops ⟨vv', .live y⟩) :
    joinLiveInto x y (ev.over ops) = joinLiveInto x y ev := by
  have hkept := (normal_live_iff.mp hx.normal).1
  have hkey : ∀ k, liveKey (x.valuesAt k ++ y.valuesAt k) (ev.over ops) =
      liveKey (x.valuesAt k ++ y.valuesAt k) ev := fun k =>
    liveKey_over (dots_append (hx.dots k) (hy.dots k))
  have hregs := (kept_joinLiveInto hkept y (ev.over ops)).regs.ext
    (kept_joinLiveInto hkept y ev).regs fun k => by
      rw [(lookup_joinLiveInto_normal hx.normal_over k).1, hkey,
        (lookup_joinLiveInto_normal hx.normal k).1]
  have hhist := (kept_joinLiveInto hkept y (ev.over ops)).hist.ext
    (kept_joinLiveInto hkept y ev).hist fun k => by
      rw [(lookup_joinLiveInto_normal hx.normal_over k).2, hkey,
        (lookup_joinLiveInto_normal hx.normal k).2]
  exact congrArg₂ Live.mk hregs hhist

theorem joinTombInto_over {t : Tomb} {other : Shape} {vv vv' : VersionVector}
    (ht : OverHistory ev ops ⟨vv, .tomb t⟩) (ho : OverHistory ev ops ⟨vv', other⟩) :
    joinTombInto t other (ev.over ops) = joinTombInto t other ev := by
  obtain ⟨hp, hc, hne, -⟩ := joinTombInto_spec t other (ev.over ops)
  obtain ⟨hp', hc', hne', -⟩ := joinTombInto_spec t other ev
  -- The choice of the purge reads the wrap set only, which is the same.
  have hpurge : higherPurge (ev.over ops) t.purge other.purge? =
      higherPurge ev t.purge other.purge? := rfl
  refine Tomb.ext (hp.trans (hpurge.trans hp'.symm)) (hc.trans hc'.symm) (hne.ext hne' fun k => ?_)
  by_cases hk : k = lifecycleKey
  · rw [hk, lookup_joinTombInto_lifecycle _ _ (normal_tomb_iff.mp ht.normal).2.1,
      lookup_joinTombInto_lifecycle _ _ (normal_tomb_iff.mp ht.normal).2.1]
  · have hkey : maximal (lookup t.late k ++ other.valuesAt k) (ev.over ops) =
        maximal (lookup t.late k ++ other.valuesAt k) ev :=
      maximal_over (dots_append (ht.dots k) (ho.dots k))
    rw [lookup_joinTombInto_normal ht.normal_over _ hk, lookup_joinTombInto_normal ht.normal _ hk,
      hkey]

/-- A join reads only the headers of the history. -/
theorem joinInto_over (ha : OverHistory ev ops a) (hb : OverHistory ev ops b) :
    joinInto a b (ev.over ops) = joinInto a b ev := by
  rcases a with ⟨va, x | x⟩ <;> rcases b with ⟨vb, y | y⟩
  · exact congrArg₂ State.mk rfl (congrArg Shape.live (joinLiveInto_over ha hb))
  · exact congrArg₂ State.mk rfl (congrArg Shape.tomb (joinTombInto_over hb ha))
  · exact congrArg₂ State.mk rfl (congrArg Shape.tomb (joinTombInto_over ha hb))
  · exact congrArg₂ State.mk rfl (congrArg Shape.tomb (joinTombInto_over ha hb))

end OverHistory

/-! ### The semilattice -/

namespace OverHistory

/-- A join over a history represents what both sides represent. -/
theorem represents_joinInto {A B : Content} (hc : CausalHistory ev ops) (ha : OverHistory ev ops a)
    (hb : OverHistory ev ops b) (hA : Represents (ev.over ops) a A)
    (hB : Represents (ev.over ops) b B) :
    Represents (ev.over ops) (Sync.joinInto a b ev) (A ⊔ B) := by
  rw [← ha.joinInto_over hb]
  exact hA.joinInto hc.causal hB

theorem c_joinInto (a b : State) (ev : Evidence) :
    (Sync.joinInto a b ev).shape.c = a.shape.c ⊔ b.shape.c := by
  rcases a with ⟨va, x | x⟩ <;> rcases b with ⟨vb, y | y⟩
  · exact (VersionVector.sup_new _).symm
  · exact (joinTombInto_spec y (.live x) ev).2.1.trans (sup_comm _ _)
  · exact (joinTombInto_spec x (.live y) ev).2.1
  · exact (joinTombInto_spec x (.tomb y) ev).2.1

/-- The join of two states over a history is over the history. -/
theorem joinInto (hc : CausalHistory ev ops) (ha : OverHistory ev ops a)
    (hb : OverHistory ev ops b) : OverHistory ev ops (Sync.joinInto a b ev) where
  normal := by
    have hrep := ha.represents_joinInto hc hb (ha.represents hc) (hb.represents hc)
    refine (normal_over_iff fun k v hv => ?_).mp (hrep.normalize_eq hc.causal)
    rcases mem_valuesAt_joinInto hv with hv | hv
    · exact ha.dots k v hv
    · exact hb.dots k v hv
  recorded k v hv := by
    rcases mem_valuesAt_joinInto hv with hv | hv
    · exact ha.recorded k v hv
    · exact hb.recorded k v hv
  closed x hx hcov cx hcx y hy hxy := by
    rw [c_joinInto, VersionVector.covers_sup] at hcov ⊢
    exact hcov.imp (fun h => ha.closed x hx h cx hcx y hy hxy)
      fun h => hb.closed x hx h cx hcx y hy hxy

end OverHistory

variable {x y : State} {A : Content}

/-- Two states over a history that represent the same values, with the same recorded purge, are the
same state. -/
theorem OverHistory.eq_of_represents (hy : OverHistory ev ops y)
    (hxrep : Represents (ev.over ops) x A) (hyrep : Represents (ev.over ops) y A)
    (hpurge : x.shape.purge? = y.shape.purge?) : x = y := by
  have hclosed : CausallyClosed (ev.over ops) A.c := hyrep.shapeRep.c ▸ hy.causallyClosed
  refine hxrep.unique hyrep (fun _ _ _ => rfl) hclosed hclosed fun p hp q hq _ => ?_
  rw [hpurge, hq] at hp
  exact congrArg PurgeRec.keyId (Option.some.inj hp).symm

/-- The recorded purge of a join is the highest of both sides. -/
theorem topPurge_joinInto {S S' : Set PurgeRec} (hs : TopPurge ev S x.shape.purge?)
    (hs' : TopPurge ev S' y.shape.purge?) :
    TopPurge ev (S ∪ S') (joinInto x y ev).shape.purge? := by
  rw [purge?_joinInto]
  exact hs.join hs'

namespace CausalHistory

theorem joinInto_assoc (hc : CausalHistory ev ops) (ha : OverHistory ev ops a)
    (hb : OverHistory ev ops b) (hd : OverHistory ev ops d) :
    joinInto (joinInto a b ev) d ev = joinInto a (joinInto b d ev) ev := by
  have hA := ha.represents hc
  have hB := hb.represents hc
  have hD := hd.represents hc
  have hab := ha.joinInto hc hb
  have hbd := hb.joinInto hc hd
  have hleft := hab.represents_joinInto hc hd (ha.represents_joinInto hc hb hA hB) hD
  have hright := ha.represents_joinInto hc hbd hA (hb.represents_joinInto hc hd hB hD)
  rw [← sup_assoc] at hright
  -- The recorded purge is the highest of all three on either side.
  have hpurge (s : State) := TopPurge.self ev s.shape.purge?
  have hpleft := topPurge_joinInto (topPurge_joinInto (hpurge a) (hpurge b)) (hpurge d)
  have hpright := topPurge_joinInto (hpurge a) (topPurge_joinInto (hpurge b) (hpurge d))
  rw [← Set.union_assoc] at hpright
  exact (ha.joinInto hc hbd).eq_of_represents hleft hright (hpleft.unique hpright)

theorem joinInto_self (hc : CausalHistory ev ops) (ha : OverHistory ev ops a) :
    joinInto a a ev = a := by
  have hA := ha.represents hc
  have hrep := ha.represents_joinInto hc ha hA hA
  rw [sup_idem] at hrep
  have hpurge := TopPurge.self ev a.shape.purge?
  have htop := topPurge_joinInto hpurge hpurge
  rw [Set.union_self] at htop
  exact ha.eq_of_represents hrep hA (htop.unique hpurge)

/-- Over one causal history the evidence join is commutative, associative and idempotent, and its
result is in normal form over the history again. -/
theorem joinInto_semilattice (hc : CausalHistory ev ops) :
    (∀ a b, OverHistory ev ops a → OverHistory ev ops b → OverHistory ev ops (joinInto a b ev)) ∧
      (∀ a b, OverHistory ev ops a → OverHistory ev ops b →
        joinInto a b ev = joinInto b a ev) ∧
      (∀ a b d, OverHistory ev ops a → OverHistory ev ops b → OverHistory ev ops d →
        joinInto (joinInto a b ev) d ev = joinInto a (joinInto b d ev) ev) ∧
      ∀ a, OverHistory ev ops a → joinInto a a ev = a := by
  refine ⟨fun a b ha hb => ha.joinInto hc hb, fun a b ha hb => ha.normal.joinInto_comm hb.normal,
    fun a b d ha hb hd => ?_, fun a ha => ?_⟩
  · exact hc.joinInto_assoc ha hb hd
  · exact hc.joinInto_self ha

/-- The states over a causal history, ordered by the evidence join. -/
abbrev semilatticeSup (hc : CausalHistory ev ops) : SemilatticeSup {s // OverHistory ev ops s} :=
  @SemilatticeSup.mk' _ ⟨fun a b => ⟨joinInto a.1 b.1 ev, a.2.joinInto hc b.2⟩⟩
    (fun a b => Subtype.ext (a.2.normal.joinInto_comm b.2.normal))
    (fun a b d => Subtype.ext (hc.joinInto_assoc a.2 b.2 d.2))
    (fun a => Subtype.ext (hc.joinInto_self a.2))

end CausalHistory

/-- Three operations, the second after the first, the third a purge after the first, and three states
over the first two: a live item that has taken both, one that has taken the first, and the tombstone
of the purge with the second as its late value. -/
def sampleHistory : Evidence × List Dot × State × State × State :=
  let v : Val := ⟨.sample 1 1, ⟨1⟩, [1]⟩
  let w : Val := ⟨.sample 2 1, ⟨2⟩, [2]⟩
  let p : Dot := .sample 3 1
  let facts (d : Dot) (hlc : Hlc) (context : List Dot) : Dot × HeaderFacts :=
    (d, ⟨hlc, .ofDots context⟩)
  let regs (vs : List Val) : Regs := (∅ : Regs).insert OpInput.sampleKey.bytes vs
  (⟨.ofList [facts v.dot v.hlc [], facts w.dot w.hlc [v.dot], facts p ⟨3⟩ [v.dot]], ∅⟩,
    [v.dot, w.dot],
    ⟨.ofDots [v.dot, w.dot], .live ⟨regs [w], regs [v]⟩⟩, ⟨.ofDots [v.dot], .live ⟨regs [v], ∅⟩⟩,
    ⟨.ofDots [p], .tomb ⟨⟨p, ⟨3⟩, ⟨0⟩⟩, .ofDots [v.dot], regs [w]⟩⟩)

theorem joinInto_semilattice_sampleHistory :
    let (ev, ops, a, b, d) := sampleHistory
    OverHistory ev {x | x ∈ ops} (joinInto a b ev) ∧ joinInto a b ev = joinInto b a ev ∧
      joinInto (joinInto a b ev) d ev = joinInto a (joinInto b d ev) ev ∧ joinInto d d ev = d := by
  have hle : ∀ u ∈ sampleHistory.2.1, ∀ v ∈ sampleHistory.2.1, Supersedes sampleHistory.1 u v →
      ∀ cu ∈ sampleHistory.1.context u, ∀ cv ∈ sampleHistory.1.context v,
        cv ≤ cu ∧ ¬ cv.covers u := by decide +kernel
  have hc : CausalHistory sampleHistory.1 {x | x ∈ sampleHistory.2.1} := .of_le hle
  have hvals : ∀ s ∈ [sampleHistory.2.2.1, sampleHistory.2.2.2.1, sampleHistory.2.2.2.2],
      Normal sampleHistory.1 s ∧
        (∀ e ∈ s.values, e.2.dot ∈ sampleHistory.2.1 ∧
          sampleHistory.1.hlc e.2.dot = some e.2.hlc) ∧
        ∀ x ∈ sampleHistory.2.1, s.shape.c.covers x → ∀ cx ∈ sampleHistory.1.context x,
          ∀ y ∈ sampleHistory.2.1, cx.covers y → s.shape.c.covers y := by decide +kernel
  have hover : ∀ s ∈ [sampleHistory.2.2.1, sampleHistory.2.2.2.1, sampleHistory.2.2.2.2],
      OverHistory sampleHistory.1 {x | x ∈ sampleHistory.2.1} s := fun s hs =>
    .of_values (hvals s hs).1 (hvals s hs).2.1 (hvals s hs).2.2
  obtain ⟨hjoin, hcomm, hassoc, hself⟩ := hc.joinInto_semilattice
  have ha := hover sampleHistory.2.2.1 (by simp)
  have hb := hover sampleHistory.2.2.2.1 (by simp)
  have hd := hover sampleHistory.2.2.2.2 (by simp)
  exact ⟨hjoin _ _ ha hb, hcomm _ _ ha hb, hassoc _ _ _ ha hb hd, hself _ hd⟩

end RizzyVault.Sync
