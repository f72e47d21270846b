import RizzyVault.Sync.Merge.Purges
import RizzyVault.Sync.Record.Bijection

/-!
# Merged states encode

The state of a replica of honest operations satisfies every rule of the snapshot format but the
limits on the number of registers, on the values of a register, on the entries of the purge context
and on the total size. So a replica that writes a snapshot either writes one that parses back or
fails because the item is absent, unresolved or oversize.

## Main definitions

* `RegsFit`: registers that satisfy the rules of the format but its limits.
* `SnapshotData.Fits`: the limits a state may break.

## Main results

* `lifecycleKey_lt`: the lifecycle key comes before every other key.
* `isLimit_of_encodeSnapshot`: data that satisfies the other rules fails to encode on a limit only.
* `HonestInv.liveRules`, `HonestInv.tombstoneRules`: the rules of the states of honest replicas.
* `writeSnapshot_of_honest`: the whole statement.
-/

open RizzyVault.Core RizzyVault.Lib

namespace RizzyVault.Sync

open Std (ExtTreeMap ExtTreeSet)

/-! ### Keys -/

theorem isName_head {bs : Bytes} (h : isName bs) :
    ∃ b rest, bs = b :: rest ∧ isAsciiLowercase b := by
  cases bs with
  | nil => cases h
  | cons b rest =>
    simp only [isName, Bool.and_eq_true] at h
    exact ⟨b, rest, rfl, h.1.2⟩

/-- A key of the grammar starts with a lowercase letter. -/
theorem parseKey_head {bytes : Bytes} {layout : KeyLayout} (h : parseKey bytes = .ok layout) :
    ∃ b rest, bytes = b :: rest ∧ isAsciiLowercase b := by
  unfold parseKey at h
  split_ifs at h
  split at h
  · rename_i listEnd hidx
    unfold parseElement at h
    simp only at h
    split_ifs at h with hname
    obtain ⟨b, rest, hb, hlower⟩ := isName_head (by simpa using hname)
    refine ⟨b, rest ++ bytes.drop listEnd, ?_, hlower⟩
    rw [← List.cons_append, ← hb, List.take_append_drop]
  · unfold parseFixed at h
    simp only at h
    split_ifs at h with hname
    obtain ⟨part, parts, hparts⟩ := List.exists_cons_of_ne_nil
      (List.splitOn_ne_nil (ascii '.') bytes)
    have hpart : isName part := by
      rw [hparts, Bool.not_eq_true, List.any_eq_false] at hname
      simpa using hname part List.mem_cons_self
    obtain ⟨b, rest, rfl, hlower⟩ := isName_head hpart
    have hbytes : [ascii '.'].intercalate (bytes.splitOn (ascii '.')) = bytes :=
      List.intercalate_splitOn (ascii '.')
    rw [hparts] at hbytes
    cases parts with
    | nil => exact ⟨b, rest, by rw [← hbytes]; simp, hlower⟩
    | cons p ps => exact ⟨b, rest ++ [ascii '.'] ++ [ascii '.'].intercalate (p :: ps),
        by rw [← hbytes]; simp, hlower⟩

/-- The lifecycle key comes before every other key. -/
theorem lifecycleKey_lt {key : FieldKey} (h : key.bytes ≠ lifecycleKey) :
    lifecycleKey < key.bytes := by
  have hgrammar := key.valid.resolve_left h
  unfold grammarKey at hgrammar
  split at hgrammar
  · rename_i layout hparse
    obtain ⟨b, rest, hb, hlower⟩ := parseKey_head hparse
    rw [hb]
    refine List.cons_lt_cons_iff.mpr (.inl ?_)
    have hle : ascii 'a' ≤ b := by
      simp only [isAsciiLowercase, decide_eq_true_eq] at hlower
      exact hlower.1
    exact lt_of_lt_of_le (by decide) hle
  · cases hgrammar
  · cases hgrammar

theorem FieldKey.eq_of_bytes {a b : FieldKey} (h : a.bytes = b.bytes) : a = b := by
  cases a
  cases b
  cases h
  rfl

theorem fieldKey_bytes (key : FieldKey) : fieldKey key.bytes = .ok key := by
  unfold fieldKey
  split_ifs with hl
  · rcases key with ⟨bytes, hvalid⟩
    cases hl
    rfl
  · have hgrammar := key.valid.resolve_left hl
    have hnew : FieldKey.new key.bytes = .ok key := by
      unfold FieldKey.new
      split
      · rfl
      · rename_i kind hkind
        rw [hgrammar] at hkind
        cases hkind
    rw [hnew]

/-! ### Registers -/

/-- Registers that satisfy the rules of the format but its limits. -/
structure RegsFit (covered : VersionVector) (context : Option VersionVector) (regs : Regs) :
    Prop where
  nonempty : NoEmpty regs
  keys : ∀ k ∈ regs.keys, ∃ key : FieldKey, key.bytes = k
  sorted : ∀ k, DotSorted (lookup regs k)
  covered : ∀ k, ∀ v ∈ lookup regs k, covered.covers v.dot
  late : ∀ k, ∀ v ∈ lookup regs k, ∀ c ∈ context, ¬ c.covers v.dot
  lifecycle : ∀ v ∈ lookup regs lifecycleKey, v.value = [1] ∨ v.value = [2]

/-- The record registers are the held ones, key by key. -/
def RegistersOf (regs : Regs) (registers : List Register) : Prop :=
  (registers.Pairwise fun a b => a.key.bytes < b.key.bytes) ∧
    (∀ reg ∈ registers, ∃ values, regs[reg.key.bytes]? = some values ∧
      reg.entries = values.map Val.entry) ∧
    ∀ k ∈ regs.keys, ∃ reg ∈ registers, reg.key.bytes = k

theorem registerOf_bytes (key : FieldKey) (values : List Val) :
    registerOf (key.bytes, values) = .ok ⟨key, values.map Val.entry⟩ := by
  rw [registerOf, fieldKey_bytes]
  rfl

theorem mapM_registerOf {l : List (Bytes × List Val)}
    (h : ∀ e ∈ l, ∃ key : FieldKey, key.bytes = e.1) :
    ∃ registers, l.mapM registerOf = .ok registers ∧
      registers.map (fun reg => (reg.key.bytes, reg.entries)) =
        l.map fun e => (e.1, e.2.map Val.entry) := by
  induction l with
  | nil => exact ⟨[], rfl, rfl⟩
  | cons e l ih =>
    obtain ⟨registers, hmap, hall⟩ := ih fun e' he' => h e' (List.mem_cons_of_mem _ he')
    obtain ⟨key, hkey⟩ := h e List.mem_cons_self
    have hreg : registerOf e = .ok ⟨key, e.2.map Val.entry⟩ := by
      rw [← registerOf_bytes, hkey]
    refine ⟨⟨key, e.2.map Val.entry⟩ :: registers, ?_, ?_⟩
    · rw [List.mapM_cons, hreg, hmap]
      rfl
    · rw [List.map_cons, List.map_cons, hall, hkey]

theorem exists_registersOf {regs : Regs} (h : ∀ k ∈ regs.keys, ∃ key : FieldKey, key.bytes = k) :
    ∃ registers, regsTo regs = .ok registers ∧ RegistersOf regs registers := by
  have hmem : ∀ {e : Bytes × List Val}, e ∈ regs.toList ↔ regs[e.1]? = some e.2 :=
    ExtTreeMap.mem_toList_iff_getElem?_eq_some
  obtain ⟨registers, hmap, hall⟩ := mapM_registerOf (l := regs.toList) fun e he =>
    h e.1 ((ExtTreeMap.mem_keys_iff _ _).mpr ⟨e.2, hmem.mp he⟩)
  have hkeys : registers.map (fun reg => reg.key.bytes) = regs.toList.map Prod.fst := by
    have hfst := congrArg (List.map Prod.fst) hall
    rwa [List.map_map, List.map_map] at hfst
  refine ⟨registers, hmap, ?_, fun reg hreg => ?_, fun k hk => ?_⟩
  · have hpair : (registers.map fun reg => reg.key.bytes).Pairwise (· < ·) := by
      rw [hkeys, List.pairwise_map]
      exact ExtTreeMap.pairwise_fst_toList regs
    rwa [List.pairwise_map] at hpair
  · have hreg : (reg.key.bytes, reg.entries) ∈ regs.toList.map fun e => (e.1, e.2.map Val.entry) :=
      hall ▸ List.mem_map_of_mem hreg
    obtain ⟨e, he, heq⟩ := List.mem_map.mp hreg
    obtain ⟨hkey, hentries⟩ := Prod.mk.inj heq
    exact ⟨e.2, hkey ▸ hmem.mp he, hentries.symm⟩
  · obtain ⟨values, hv⟩ := (ExtTreeMap.mem_keys_iff _ _).mp hk
    have hk : k ∈ registers.map fun reg => reg.key.bytes :=
      hkeys ▸ List.mem_map.mpr ⟨(k, values), hmem.mpr hv, rfl⟩
    exact List.mem_map.mp hk

theorem RegistersOf.lookup {regs : Regs} {registers : List Register} {reg : Register}
    (h : RegistersOf regs registers) (hreg : reg ∈ registers) :
    reg.entries = (Sync.lookup regs reg.key.bytes).map Val.entry := by
  obtain ⟨values, hv, hentries⟩ := h.2.1 reg hreg
  rw [hentries, lookup_eq_getD, hv]
  rfl

theorem NoEmpty.exists_mem_lookup {regs : Regs} (h : NoEmpty regs) {k : Bytes}
    (hk : k ∈ regs.keys) : ∃ v, v ∈ lookup regs k := by
  obtain ⟨values, hv⟩ := (ExtTreeMap.mem_keys_iff _ _).mp hk
  rw [lookup_eq_getD, hv]
  refine List.exists_mem_of_ne_nil _ fun hnil => h k ?_
  rw [hv, ← hnil]
  rfl

theorem RegistersOf.exists_value {regs : Regs} {registers : List Register} {reg : Register}
    (h : RegistersOf regs registers) (hne : NoEmpty regs) (hreg : reg ∈ registers) :
    ∃ v, v ∈ Sync.lookup regs reg.key.bytes := by
  obtain ⟨values, hv, -⟩ := h.2.1 reg hreg
  exact hne.exists_mem_lookup ((ExtTreeMap.mem_keys_iff _ _).mpr ⟨values, hv⟩)

/-- Fitting registers within the limits satisfy the rules of the format. -/
theorem RegsFit.rules {limits : Limits} {covered : VersionVector}
    {context : Option VersionVector} {regs : Regs} {registers : List Register}
    (h : RegsFit covered context regs) (hof : RegistersOf regs registers)
    (hwithin : Record.RegistersWithin limits registers) :
    Record.RegistersRules limits covered context registers where
  count := hwithin.1
  ascending := hof.1
  registers reg hreg := by
    have hentries := hof.lookup hreg
    refine ⟨fun hnil => ?_, (hwithin.2 reg hreg).1, ?_, fun e he => ?_⟩
    · obtain ⟨values, hv, hvalues⟩ := hof.2.1 reg hreg
      rw [hnil] at hvalues
      have hempty : values = [] := List.map_eq_nil_iff.mp hvalues.symm
      exact h.nonempty _ (hempty ▸ hv)
    · rw [hentries, List.pairwise_map]
      exact h.sorted _
    · have hvalue := (hwithin.2 reg hreg).2 e he
      rw [hentries] at he
      obtain ⟨v, hv, rfl⟩ := List.mem_map.mp he
      exact ⟨h.covered _ v hv, h.late _ v hv, hvalue, fun hk => h.lifecycle v (hk ▸ hv)⟩

/-! ### Honest states -/

/-- A write of an operation is its marker under the lifecycle key, or one of its field writes. -/
theorem OpInput.mem_writesWithLifecycle {o : OpInput} {k value : Bytes}
    (h : (k, value) ∈ o.held.writesWithLifecycle) :
    (k = lifecycleKey ∧ o.data.lifecycle.registerValue = some value) ∨
      ∃ w ∈ o.data.writes, w.key.bytes = k ∧ w.value = value := by
  rcases List.mem_append.mp h with h | h
  · rw [OpInput.held_lifecycle, Option.mem_toList, Option.map_eq_some_iff] at h
    obtain ⟨v, hv, heq⟩ := h
    cases heq
    exact .inl ⟨rfl, hv⟩
  · obtain ⟨w, hw, heq⟩ := List.mem_map.mp h
    cases heq
    exact .inr ⟨w, hw, rfl, rfl⟩

theorem registerValue_cases {l : Lifecycle} {value : Bytes} (h : l.registerValue = some value) :
    value = [1] ∨ value = [2] := by
  cases l with
  | active => exact .inl (Option.some.inj h).symm
  | trashed => exact .inr (Option.some.inj h).symm
  | purge => cases h

/-- Some value of a key is current. -/
theorem exists_mem_liveKey_fst {ev : Evidence} (hc : Causal ev) {vs : List Val} {v : Val}
    (hv : v ∈ vs) : ∃ u, u ∈ (liveKey vs ev).1 := by
  rcases mem_current_or_mem_superseded (Supersedes ev) (mem_dotsOf_of_mem hv) with hcur | hsup
  · obtain ⟨u, hu, -⟩ := exists_current_version ev hcur
    exact ⟨u, hu⟩
  · obtain ⟨d, hd, -⟩ := exists_current_of_superseded (hc.strictOn _) hsup
    obtain ⟨u, hu, -⟩ := exists_current_version ev hd
    exact ⟨u, hu⟩

/-- A live item that is not absent holds a value. -/
theorem exists_value_of_not_absent {s : State} {l : Live} (h : l.Kept) (hl : s.shape = .live l)
    (habsent : s.isAbsent = false) : ∃ k v, v ∈ s.shape.valuesAt k := by
  have hkey : ∀ {regs : Regs}, NoEmpty regs → regs.isEmpty = false →
      ∃ k v, v ∈ lookup regs k := by
    intro regs hne hempty
    rw [← ExtTreeMap.isEmpty_keys, List.isEmpty_eq_false_iff] at hempty
    obtain ⟨k, hk⟩ := List.exists_mem_of_ne_nil _ hempty
    exact ⟨k, hne.exists_mem_lookup hk⟩
  simp only [State.isAbsent, hl, Bool.and_eq_false_iff] at habsent
  rw [hl]
  rcases habsent with hempty | hempty
  · obtain ⟨k, v, hv⟩ := hkey h.regs hempty
    exact ⟨k, v, List.mem_append_left _ hv⟩
  · obtain ⟨k, v, hv⟩ := hkey h.hist hempty
    exact ⟨k, v, List.mem_append_right _ hv⟩

namespace HonestInv

variable {itemId : ItemId} {ops taken : Finset OpInput} {m : ItemMerge} {k : Bytes} {v : Val}

theorem op_of_value (h : HonestInv itemId ops taken m) (hv : v ∈ m.state.shape.valuesAt k) :
    ∃ o ∈ taken, v ∈ o.content.vals k :=
  mem_vals_contentOf.mp (h.represents.mem_vals hv)

theorem covers_value (h : HonestInv itemId ops taken m) (hv : v ∈ m.state.shape.valuesAt k) :
    m.state.vv.covers v.dot := by
  obtain ⟨o, ho, hvo⟩ := h.op_of_value hv
  rw [h.represents.vv, covers_contentOf, (OpInput.mem_content_vals.mp hvo).2.1]
  exact ⟨o, ho, rfl, le_rfl⟩

theorem key_of_value (h : HonestInv itemId ops taken m) (hv : v ∈ m.state.shape.valuesAt k) :
    ∃ key : FieldKey, key.bytes = k := by
  obtain ⟨o, -, hvo⟩ := h.op_of_value hv
  rcases OpInput.mem_writesWithLifecycle (OpInput.mem_content_vals.mp hvo).2.2.2 with
    ⟨rfl, -⟩ | ⟨w, -, hk, -⟩
  · exact ⟨FieldKey.lifecycle, rfl⟩
  · exact ⟨w.key, hk⟩

theorem lifecycle_value (hops : HonestOps itemId ops) (h : HonestInv itemId ops taken m)
    (hv : v ∈ m.state.shape.valuesAt lifecycleKey) : v.value = [1] ∨ v.value = [2] := by
  obtain ⟨o, ho, hvo⟩ := h.op_of_value hv
  rcases OpInput.mem_writesWithLifecycle (OpInput.mem_content_vals.mp hvo).2.2.2 with
    ⟨-, hval⟩ | ⟨w, hw, hk, -⟩
  · exact registerValue_cases hval
  · exact absurd hk ((hops.wellFormed o (h.subset ho)).not_lifecycle w hw)

theorem value_length (hrules : ∀ o ∈ ops, Record.OpRules Limits.v1 o.data)
    (h : HonestInv itemId ops taken m) (hv : v ∈ m.state.shape.valuesAt k) :
    v.value.length ≤ Limits.v1.value := by
  obtain ⟨o, ho, hvo⟩ := h.op_of_value hv
  rcases OpInput.mem_writesWithLifecycle (OpInput.mem_content_vals.mp hvo).2.2.2 with
    ⟨-, hval⟩ | ⟨w, hw, -, hval⟩
  · rcases registerValue_cases hval with h | h <;> rw [h] <;> decide
  · rw [← hval]
    exact (hrules o (h.subset ho)).values w hw

/-- Registers of values the replica holds fit, if they are sorted and outside the context. -/
theorem regsFit (hops : HonestOps itemId ops) (h : HonestInv itemId ops taken m) {regs : Regs}
    {context : Option VersionVector} (hne : NoEmpty regs)
    (hmem : ∀ k, ∀ v ∈ lookup regs k, v ∈ m.state.shape.valuesAt k)
    (hsorted : ∀ k, DotSorted (lookup regs k))
    (hlate : ∀ k, ∀ v ∈ lookup regs k, ∀ c ∈ context, ¬ c.covers v.dot) :
    RegsFit m.state.vv context regs where
  nonempty := hne
  keys k hk := by
    obtain ⟨v, hv⟩ := hne.exists_mem_lookup hk
    exact h.key_of_value (hmem k v hv)
  sorted := hsorted
  covered k v hv := h.covers_value (hmem k v hv)
  late := hlate
  lifecycle v hv := h.lifecycle_value hops (hmem _ v hv)

section Live

variable {l : Live} (hl : m.state.shape = .live l)

include hl

theorem liveRep (h : HonestInv itemId ops taken m) : LiveRep m.evidence l (contentOf taken) := by
  have hrep := h.represents.shape
  rwa [hl] at hrep

theorem mem_valuesAt_regs (hv : v ∈ lookup l.regs k) : v ∈ m.state.shape.valuesAt k := by
  rw [hl]
  exact List.mem_append_left _ hv

theorem mem_valuesAt_hist (hv : v ∈ lookup l.hist k) : v ∈ m.state.shape.valuesAt k := by
  rw [hl]
  exact List.mem_append_right _ hv

theorem regsFit_regs (hops : HonestOps itemId ops) (h : HonestInv itemId ops taken m) :
    RegsFit m.state.vv none l.regs := by
  refine h.regsFit hops (h.liveRep hl).kept.regs (fun k v => mem_valuesAt_regs hl) (fun k => ?_)
    fun _ _ _ c hc => by cases hc
  rw [(h.liveRep hl).regs]
  exact dotSorted_maximal_fst _ _

theorem regsFit_hist (hops : HonestOps itemId ops) (h : HonestInv itemId ops taken m) :
    RegsFit m.state.vv none l.hist := by
  refine h.regsFit hops (h.liveRep hl).kept.hist (fun k v => mem_valuesAt_hist hl) (fun k => ?_)
    fun _ _ _ c hc => by cases hc
  rw [(h.liveRep hl).hist]
  exact dotSorted_prune (dotSorted_maximal_snd _ _)

/-- A key with a value taken has a current value. -/
theorem mem_keys_regs (hops : HonestOps itemId ops) (h : HonestInv itemId ops taken m)
    (hv : v ∈ (contentOf taken).vals k) : k ∈ l.regs.keys := by
  obtain ⟨u, hu⟩ := exists_mem_liveKey_fst (h.causal hops) (Content.mem_valList.mpr hv)
  rw [← (h.liveRep hl).regs] at hu
  exact mem_keys_of_mem_lookup hu

/-- Whatever the item holds, it has a lifecycle register. -/
theorem lifecycle_mem_keys (hops : HonestOps itemId ops) (h : HonestInv itemId ops taken m)
    (hv : v ∈ m.state.shape.valuesAt k) : lifecycleKey ∈ l.regs.keys := by
  obtain ⟨o, ho, hvo⟩ := h.op_of_value hv
  have hpurge := (OpInput.mem_content_vals.mp hvo).1
  obtain ⟨value, hvalue⟩ : ∃ value, o.data.lifecycle.registerValue = some value := by
    cases hlife : o.data.lifecycle with
    | active => exact ⟨_, rfl⟩
    | trashed => exact ⟨_, rfl⟩
    | purge => exact absurd hlife hpurge
  refine h.mem_keys_regs hl hops (v := ⟨o.dot, o.header.hlc, value⟩) (mem_vals_contentOf.mpr
    ⟨o, ho, OpInput.mem_content_vals.mpr ⟨hpurge, rfl, rfl, List.mem_append_left _ ?_⟩⟩)
  rw [OpInput.held_lifecycle, hvalue]
  exact List.mem_singleton_self _

/-- A history group is of a key with a current value, and shares no dot with the current ones. -/
theorem hist_owned (hops : HonestOps itemId ops) (h : HonestInv itemId ops taken m)
    (hv : v ∈ lookup l.hist k) :
    k ∈ l.regs.keys ∧ ∀ u ∈ lookup l.regs k, u.dot ≠ v.dot := by
  refine ⟨h.mem_keys_regs hl hops (h.represents.mem_vals (mem_valuesAt_hist hl hv)),
    fun u hu hd => ?_⟩
  rw [(h.liveRep hl).regs, mem_liveKey_fst, hd] at hu
  rw [(h.liveRep hl).hist, mem_liveKey_snd (h.represents.vouched.list k)] at hv
  obtain ⟨-, w, hw, hsup⟩ := mem_superseded.mp (topRank_subset hv.2)
  exact (mem_current.mp hu.2).2 w hw hsup

/-- The live data of an honest replica satisfies the rules, if it is within the limits. -/
theorem liveRules (hops : HonestOps itemId ops) (h : HonestInv itemId ops taken m)
    {limits : Limits} {registers history : List Register} (hregs : RegistersOf l.regs registers)
    (hhist : RegistersOf l.hist history) (habsent : m.state.isAbsent = false)
    (hwithin : Record.SnapshotWithin limits (.live ⟨registers, history⟩)) :
    Record.LiveRules limits m.state.vv ⟨registers, history⟩ where
  registers := (h.regsFit_regs hl hops).rules hregs hwithin.1
  lifecycle := by
    obtain ⟨k, v, hv⟩ := exists_value_of_not_absent (h.liveRep hl).kept hl habsent
    obtain ⟨reg, hreg, hkey⟩ := hregs.2.2 _ (h.lifecycle_mem_keys hl hops hv)
    cases registers with
    | nil => cases hreg
    | cons first rest =>
      refine ⟨first, rfl, ?_⟩
      by_contra hne
      rcases List.mem_cons.mp hreg with rfl | hreg
      · exact hne hkey
      · have hlt := (List.pairwise_cons.mp hregs.1).1 reg hreg
        exact lt_asymm (lifecycleKey_lt hne) (hkey ▸ hlt)
  history := (h.regsFit_hist hl hops).rules hhist hwithin.2
  owned r hr := by
    obtain ⟨v, hv⟩ := hhist.exists_value (h.liveRep hl).kept.hist hr
    obtain ⟨reg, hreg, hkey⟩ := hregs.2.2 _ (h.hist_owned hl hops hv).1
    exact ⟨reg, hreg, FieldKey.eq_of_bytes hkey⟩
  distinct r hr reg hreg hkey e he f hf := by
    rw [hregs.lookup hreg, hkey] at he
    rw [hhist.lookup hr] at hf
    obtain ⟨u, hu, rfl⟩ := List.mem_map.mp he
    obtain ⟨v, hv, rfl⟩ := List.mem_map.mp hf
    exact (h.hist_owned hl hops hv).2 u hu

end Live

section Tombstone

variable {t : Tomb} (ht : m.state.shape = .tomb t)

include ht

theorem tombRep (h : HonestInv itemId ops taken m) : TombRep m.evidence t (contentOf taken) := by
  have hrep := h.represents.shape
  rwa [ht] at hrep

theorem regsFit_late (hops : HonestOps itemId ops) (h : HonestInv itemId ops taken m) :
    RegsFit m.state.vv (some t.c) t.late := by
  have hrep := h.tombRep ht
  have hlate : ∀ k, k ≠ lifecycleKey →
      LateOf m.evidence t.c ((contentOf taken).valList k) (lookup t.late k) :=
    fun k hk => hrep.c ▸ hrep.late k hk
  refine h.regsFit hops hrep.kept (fun k v hv => ?_) (fun k => ?_) fun k v hv c hc => ?_
  · rw [ht]
    exact hv
  · by_cases hk : k = lifecycleKey
    · rw [hk, hrep.lifecycle]
      exact .nil
    · exact (hlate k hk).sorted
  · cases hc
    by_cases hk : k = lifecycleKey
    · rw [hk, hrep.lifecycle] at hv
      exact absurd hv List.not_mem_nil
    · exact (hlate k hk).not_covers v hv

/-- The tombstone data of an honest replica satisfies the rules, if it is within the limits. -/
theorem tombstoneRules (hops : HonestOps itemId ops) (h : HonestInv itemId ops taken m)
    (hk : KeyInv ops m) {limits : Limits} {late : List Register} (hlate : RegistersOf t.late late)
    (hwithin : Record.SnapshotWithin limits
      (.tombstone ⟨t.purge.dot, t.purge.hlc, t.c, t.purge.keyId, late⟩)) :
    Record.TombstoneRules limits m.state.vv
      ⟨t.purge.dot, t.purge.hlc, t.c, t.purge.keyId, late⟩ where
  purge := by
    have hp : t.purge ∈ m.state.shape.purge? := by rw [ht]; rfl
    obtain ⟨o, ho, -, hrec⟩ := (h.honestState hops hk).op_of_purge hops
      (show HeadersOf ops m.evidence.headers from h.headers) h.recorded hp
    rw [h.represents.vv, hrec]
    exact covers_contentOf.mpr ⟨o, ho, rfl, le_rfl⟩
  context d hd := by
    refine (h.honestState hops hk).c_le_vv hops
      (show HeadersOf ops m.evidence.headers from h.headers) h.recorded d ?_
    rw [ht]
    exact VersionVector.covers_of_mem_dots hd
  contextCount := Nat.lt_succ_of_le hwithin.1
  late := (h.regsFit_late ht hops).rules hlate hwithin.2
  lifecycle reg hreg hkey := by
    obtain ⟨v, hv⟩ := hlate.exists_value (h.tombRep ht).kept hreg
    rw [hkey, (h.tombRep ht).lifecycle] at hv
    exact absurd hv List.not_mem_nil

end Tombstone

end HonestInv

/-! ### The limits -/

/-- A step of the first pass that fails on limits only. -/
def Limited (s : Record.Sizer Unit) : Prop := ∀ n e, s n = .error e → isLimit e.kind

theorem limited_bind {s t : Record.Sizer Unit} (hs : Limited s) (ht : Limited t) :
    Limited (do s; t) := by
  intro n e h
  cases hn : s n with
  | error e' =>
    have : (do s; t : Record.Sizer Unit) n = .error e' := by
      simp only [bind, StateT.bind, hn, Except.bind]
    cases this.symm.trans h
    exact hs n e hn
  | ok r =>
    have : (do s; t : Record.Sizer Unit) n = t r.2 := by
      simp only [bind, StateT.bind, hn, Except.bind]
    exact ht r.2 e (this.symm.trans h)

theorem limited_check {s : Record.Sizer Unit} {c : Prop} [Decidable c] {kind : RecordErrorKind}
    {offset : ℕ → ℕ} (hs : Limited s) (hkind : isLimit kind) :
    Limited fun len => if c then .error ⟨kind, offset len⟩ else s len := by
  intro n e h
  simp only at h
  split_ifs at h
  · cases h
    exact hkind
  · exact hs n e h

theorem limited_add (k : ℕ) : Limited (Record.Sizer.add k) := by
  intro n e h
  unfold Record.Sizer.add at h
  split_ifs at h
  cases h
  rfl

theorem limited_forM {α : Type} {f : α → Record.Sizer Unit} (hf : ∀ x, Limited (f x))
    (l : List α) : Limited (l.forM f) := by
  induction l with
  | nil =>
    intro n e h
    cases h
  | cons x l ih => exact limited_bind (hf x) ih

theorem limited_count (n max : ℕ) : Limited (Record.Sizer.count n max) :=
  limited_check (limited_add 2) rfl

theorem limited_registers (limits : Limits) (regs : List Register) :
    Limited (Record.Sizer.registers limits regs) := by
  refine limited_bind (limited_count _ _) (limited_forM (fun reg => ?_) regs)
  refine limited_bind (limited_bind (limited_add 4) (limited_add _)) ?_
  refine limited_bind (limited_count _ _) (limited_forM (fun e => ?_) reg.entries)
  exact limited_bind (limited_add _)
    (limited_check (limited_bind (limited_add 4) (limited_add _)) rfl)

/-- The first pass fails on limits only. -/
theorem isLimit_of_snapshotLen {d : SnapshotData} {limits : Limits} {e : RecordError}
    (h : Record.snapshotLen d limits = .error e) : isLimit e.kind := by
  have hchecked : ∀ {s : Record.Sizer Unit}, Limited s → (do
      let sized ← s 1
      if limits.snapshotData < sized.2 then throw ⟨.dataTooLong, 0⟩ else return sized.2 :
        Except RecordError ℕ) = .error e → isLimit e.kind := by
    intro s hs h
    cases hn : s 1 with
    | error e' =>
      rw [hn] at h
      cases h
      exact hs 1 e hn
    | ok r =>
      rw [hn] at h
      change (if limits.snapshotData < r.2 then throw _ else return r.2 : Except RecordError ℕ) = _
        at h
      split_ifs at h
      · cases h
        rfl
      · cases h
  cases d with
  | live l => exact hchecked (limited_bind (limited_registers _ _) (limited_registers _ _)) h
  | tombstone t =>
    exact hchecked (limited_bind (limited_add _) (limited_bind (limited_check (limited_add _) rfl)
      (limited_bind (limited_add 16) (limited_registers _ _)))) h

/-- Data that breaks no other rule fails to encode on a limit only. -/
theorem isLimit_of_encodeSnapshot {covered : VersionVector} {d : SnapshotData} {e : RecordError}
    (hrules : Record.SnapshotWithin Limits.v1 d →
      (Record.putSnapshot d).length ≤ Limits.v1.snapshotData →
      Record.SnapshotRules Limits.v1 covered d)
    (h : Record.encodeSnapshot covered d = .error e) : isLimit e.kind := by
  cases hlen : Record.snapshotLen d Limits.v1 with
  | error e' =>
    rw [Record.encodeSnapshot, hlen] at h
    cases h
    exact isLimit_of_snapshotLen hlen
  | ok n =>
    obtain ⟨hwithin, rfl, hsize, -⟩ := Record.snapshotLen_eq_ok_iff.mp hlen
    rw [Record.encodeSnapshot_eq_ok_iff.mpr ⟨hrules hwithin hsize, rfl⟩] at h
    cases h

/-- The limits a state may break, the total size apart: the number of registers, of the current or
late values of a register, and of the entries of the purge context. -/
def SnapshotData.Fits : SnapshotData → Prop
  | .live l => l.registers.length ≤ Limits.v1.groups ∧
    ∀ reg ∈ l.registers, reg.entries.length ≤ Limits.v1.values
  | .tombstone t => t.context.dots.length ≤ Record.Sizer.maxEntries ∧
    t.late.length ≤ Limits.v1.groups ∧ ∀ reg ∈ t.late, reg.entries.length ≤ Limits.v1.values

theorem SnapshotRules.fits {covered : VersionVector} {d : SnapshotData}
    (h : Record.SnapshotRules Limits.v1 covered d) : d.Fits := by
  cases d with
  | live l =>
    have hl := h.live l rfl
    exact ⟨hl.registers.count, fun reg hreg => (hl.registers.registers reg hreg).count⟩
  | tombstone t =>
    have ht := h.tombstone t rfl
    exact ⟨Nat.le_of_lt_succ ht.contextCount, ht.late.count,
      fun reg hreg => (ht.late.registers reg hreg).count⟩

theorem SnapshotWithin.fits {d : SnapshotData} (h : Record.SnapshotWithin Limits.v1 d) : d.Fits := by
  cases d with
  | live l => exact ⟨h.1.1, fun reg hreg => (h.1.2 reg hreg).1⟩
  | tombstone t => exact ⟨h.1, h.2.1, fun reg hreg => (h.2.2 reg hreg).1⟩

theorem length_prune_le (h : List Val) : (prune h).length ≤ historyLimit := by
  unfold prune
  rw [List.length_insertionSort]
  split_ifs with hlen
  · exact (List.length_take_le _ _)
  · exact not_lt.mp hlen

namespace HonestInv

variable {itemId : ItemId} {ops taken : Finset OpInput} {m : ItemMerge}

theorem entries_length (hrules : ∀ o ∈ ops, Record.OpRules Limits.v1 o.data)
    (h : HonestInv itemId ops taken m) {regs : Regs} {registers : List Register}
    (hof : RegistersOf regs registers)
    (hmem : ∀ k, ∀ v ∈ lookup regs k, v ∈ m.state.shape.valuesAt k) :
    ∀ reg ∈ registers, ∀ e ∈ reg.entries, e.value.length ≤ Limits.v1.value := by
  intro reg hreg e he
  rw [hof.lookup hreg] at he
  obtain ⟨v, hv, rfl⟩ := List.mem_map.mp he
  exact h.value_length hrules (hmem _ v hv)

theorem snapshotData_live (hops : HonestOps itemId ops) (h : HonestInv itemId ops taken m)
    {l : Live} (hs : m.state.shape = .live l) (habsent : m.state.isAbsent = false) :
    ∃ registers history, m.snapshotData = .ok (some (.live ⟨registers, history⟩)) ∧
      RegistersOf l.regs registers ∧ RegistersOf l.hist history := by
  obtain ⟨registers, hregs, hregsOf⟩ := exists_registersOf (h.regsFit_regs hs hops).keys
  obtain ⟨history, hhist, hhistOf⟩ := exists_registersOf (h.regsFit_hist hs hops).keys
  refine ⟨registers, history, ?_, hregsOf, hhistOf⟩
  rw [ItemMerge.snapshotData, State.snapshotData, if_neg (by simp [habsent])]
  simp only [hs, hregs, hhist]
  rfl

theorem snapshotData_tomb (hops : HonestOps itemId ops) (h : HonestInv itemId ops taken m)
    {t : Tomb} (hs : m.state.shape = .tomb t) :
    ∃ late, m.snapshotData =
        .ok (some (.tombstone ⟨t.purge.dot, t.purge.hlc, t.c, t.purge.keyId, late⟩)) ∧
      RegistersOf t.late late := by
  obtain ⟨late, hlate, hlateOf⟩ := exists_registersOf (h.regsFit_late hs hops).keys
  refine ⟨late, ?_, hlateOf⟩
  rw [ItemMerge.snapshotData, State.snapshotData, if_neg (by simp [State.isAbsent, hs])]
  simp only [hs, hlate]
  rfl

/-- The record data of an honest replica breaks no rule but a limit. -/
theorem snapshotRules_iff (hops : HonestOps itemId ops)
    (hrules : ∀ o ∈ ops, Record.OpRules Limits.v1 o.data) (h : HonestInv itemId ops taken m)
    (hk : KeyInv ops m) (habsent : m.state.isAbsent = false) :
    ∃ d, m.snapshotData = .ok (some d) ∧
      (Record.SnapshotRules Limits.v1 m.state.vv d ↔
        d.Fits ∧ (Record.putSnapshot d).length ≤ Limits.v1.snapshotData) := by
  cases hs : m.state.shape with
  | live l =>
    obtain ⟨registers, history, hdata, hregsOf, hhistOf⟩ := h.snapshotData_live hops hs habsent
    refine ⟨_, hdata, fun hr => ⟨SnapshotRules.fits hr, hr.length⟩, ?_⟩
    · rintro ⟨⟨hcount, hvalues⟩, hsize⟩
      have howned : ∀ r ∈ history, ∃ reg ∈ registers, reg.key.bytes = r.key.bytes := by
        intro r hr
        obtain ⟨v, hv⟩ := hhistOf.exists_value (h.liveRep hs).kept.hist hr
        exact hregsOf.2.2 _ (h.hist_owned hs hops hv).1
      have hhistCount : history.length ≤ registers.length := by
        have hnodup : (history.map fun r => r.key.bytes).Nodup := by
          rw [List.Nodup, List.pairwise_map]
          exact hhistOf.1.imp fun h => h.ne
        have hsub : (history.map fun r => r.key.bytes) ⊆ registers.map fun r => r.key.bytes := by
          intro k hk
          obtain ⟨r, hr, rfl⟩ := List.mem_map.mp hk
          exact List.mem_map.mpr (howned r hr)
        simpa using (hnodup.subperm hsub).length_le
      have hhistValues : ∀ r ∈ history, r.entries.length ≤ Limits.v1.values := by
        intro r hr
        rw [hhistOf.lookup hr, List.length_map, (h.liveRep hs).hist]
        exact (length_prune_le _).trans (by decide)
      have hwithin : Record.SnapshotWithin Limits.v1 (.live ⟨registers, history⟩) :=
        ⟨⟨hcount, fun reg hreg => ⟨hvalues reg hreg,
            h.entries_length hrules hregsOf (fun k v => mem_valuesAt_regs hs) reg hreg⟩⟩,
          hhistCount.trans hcount, fun r hr => ⟨hhistValues r hr,
            h.entries_length hrules hhistOf (fun k v => mem_valuesAt_hist hs) r hr⟩⟩
      refine ⟨fun l' hl' => ?_, fun t ht => (by cases ht), hsize⟩
      cases hl'
      exact h.liveRules hs hops hregsOf hhistOf habsent hwithin
  | tomb t =>
    obtain ⟨late, hdata, hlateOf⟩ := h.snapshotData_tomb hops hs
    refine ⟨_, hdata, fun hr => ⟨SnapshotRules.fits hr, hr.length⟩, ?_⟩
    · rintro ⟨⟨hcontext, hcount, hvalues⟩, hsize⟩
      have hmem : ∀ k, ∀ v ∈ lookup t.late k, v ∈ m.state.shape.valuesAt k := by
        intro k v hv
        rw [hs]
        exact hv
      have hwithin : Record.SnapshotWithin Limits.v1
          (.tombstone ⟨t.purge.dot, t.purge.hlc, t.c, t.purge.keyId, late⟩) :=
        ⟨hcontext, hcount, fun reg hreg => ⟨hvalues reg hreg,
          h.entries_length hrules hlateOf hmem reg hreg⟩⟩
      refine ⟨fun l hl => (by cases hl), fun t' ht' => ?_, hsize⟩
      cases ht'
      exact h.tombstoneRules hs hops hk hlateOf hwithin

end HonestInv

/-- Data that breaks no other rule encodes, or the item is oversize. -/
theorem ItemMerge.encode_cases {m : ItemMerge} {d : SnapshotData}
    (hd : m.snapshotData = .ok (some d))
    (hrules : Record.SnapshotWithin Limits.v1 d →
      (Record.putSnapshot d).length ≤ Limits.v1.snapshotData →
      Record.SnapshotRules Limits.v1 m.state.vv d) :
    m.encode = .error .oversize ∨
      ∃ out, m.encode = .ok out ∧ Record.encodeSnapshot m.state.vv d = .ok out := by
  have hd : m.state.snapshotData = .ok (some d) := hd
  rw [encode, hd]
  cases henc : Record.encodeSnapshot m.state.vv d with
  | error e =>
    have hlimit := isLimit_of_encodeSnapshot hrules henc
    exact .inl (by simp [henc, hlimit])
  | ok out => exact .inr ⟨out, by simp [henc], rfl⟩

theorem HonestReplica.deliverAll {itemId : ItemId} {ops taken : Finset OpInput} {m m' : ItemMerge}
    {l : List Delivery} (h : HonestReplica itemId ops taken m) (hl : ∀ d ∈ l, d.op ∈ ops)
    (hok : m.deliverAll l = .ok m') : ∃ taken', HonestReplica itemId ops taken' m' := by
  refine foldlM_rec (motive := fun m => ∃ taken', HonestReplica itemId ops taken' m) hok ⟨_, h⟩ ?_
  rintro d hd a b ⟨taken, ha⟩ hstep
  cases d with
  | header o =>
    have ho : o ∈ ops := hl _ hd
    rw [ItemMerge.deliver] at hstep
    rcases hr : a.recordHeader o.header with ⟨a', e | ⟨⟩⟩
    · rw [hr] at hstep
      cases hstep
    · have hrecord := ha.recordHeader ho
      rw [hr] at hstep hrecord
      cases hstep
      exact ⟨_, hrecord⟩
  | body o =>
    have ho : o ∈ ops := hl _ hd
    rw [ItemMerge.deliver] at hstep
    rcases hr : a.applyOp o with ⟨a', e | applied⟩
    · rw [hr] at hstep
      cases hstep
    · have happly := ha.applyOp ho (by rw [hr]; rfl)
      rw [hr] at hstep happly
      cases hstep
      exact ⟨_, happly⟩

/-- The write of one of many devices that do not know of each other. -/
def crowdOp (i : ℕ) : OpInput :=
  .sample ⟨⟨Fin.ofNat (2 ^ 128) i⟩, ⟨1, Nat.one_pos, Lib.one_lt_u64⟩⟩ ⟨1⟩ [] (OpInput.sampleWrite [1])

/-- The writes of `n` such devices. -/
def crowd (n : ℕ) : Finset OpInput := (Finset.range n).image crowdOp

variable {n : ℕ}

theorem crowdOp_dot_injOn (hn : n ≤ 2 ^ 128) :
    Set.InjOn (fun i => (crowdOp i).dot) (Finset.range n) := by
  intro i hi j hj h
  have hd : Fin.ofNat (2 ^ 128) i = Fin.ofNat (2 ^ 128) j :=
    congrArg (fun d : Dot => d.deviceId.raw) h
  have hi : i < 2 ^ 128 := (Finset.mem_range.mp hi).trans_le hn
  have hj : j < 2 ^ 128 := (Finset.mem_range.mp hj).trans_le hn
  have hval : i % 2 ^ 128 = j % 2 ^ 128 := congrArg Fin.val hd
  rwa [Nat.mod_eq_of_lt hi, Nat.mod_eq_of_lt hj] at hval

theorem not_covers_crowdOp (i : ℕ) (d : Dot) : ¬ (crowdOp i).context.covers d :=
  VersionVector.not_covers_new d

theorem forall_mem_crowd {q : OpInput → Prop} :
    (∀ o ∈ crowd n, q o) ↔ ∀ i ∈ Finset.range n, q (crowdOp i) := Finset.forall_mem_image

theorem honestOps_crowd (hn : n ≤ 2 ^ 128) : HonestOps ⟨0⟩ (crowd n) where
  item := forall_mem_crowd.mpr fun _ _ => rfl
  schema := forall_mem_crowd.mpr fun _ _ => rfl
  wellFormed := forall_mem_crowd.mpr fun _ _ => (by decide : (OpInput.sampleWrite [1]).WellFormed)
  unique := forall_mem_crowd.mpr fun i hi => forall_mem_crowd.mpr fun j hj h => by
    rw [crowdOp_dot_injOn hn hi hj h]
  known := forall_mem_crowd.mpr fun i _ d hd =>
    absurd (VersionVector.covers_of_mem_dots hd) (not_covers_crowdOp i d)
  closed := forall_mem_crowd.mpr fun i _ p _ h => absurd h (not_covers_crowdOp i p.dot)
  previous := forall_mem_crowd.mpr fun i _ => forall_mem_crowd.mpr fun j _ _ h =>
    absurd h (lt_irrefl 1)
  notSelf := forall_mem_crowd.mpr fun i _ => not_covers_crowdOp i _

/-- Concurrent writes of one field are all current. -/
theorem exists_current_crowd {m : ItemMerge} {l : Live} (h : HonestInv ⟨0⟩ (crowd n) (crowd n) m)
    (hl : m.state.shape = .live l) :
    ∀ i ∈ Finset.range n, ∃ v ∈ lookup l.regs OpInput.sampleKey.bytes, v.dot = (crowdOp i).dot := by
  intro i hi
  have hvalue : (⟨(crowdOp i).dot, ⟨1⟩, [1]⟩ : Val) ∈
      (contentOf (crowd n)).vals OpInput.sampleKey.bytes :=
    mem_vals_contentOf.mpr ⟨crowdOp i, Finset.mem_image_of_mem _ hi, OpInput.mem_content_vals.mpr
      ⟨Lifecycle.noConfusion, rfl, rfl, List.mem_append_right _ (List.mem_singleton_self _)⟩⟩
  rw [(h.liveRep hl).regs]
  refine exists_current_version m.evidence (mem_current.mpr
    ⟨mem_dotsOf_of_mem (Content.mem_valList.mpr hvalue), fun u _ hsup => ?_⟩)
  obtain ⟨-, c, hc, hcov⟩ := hsup
  obtain ⟨o, ho, -, rfl⟩ := HonestOps.context_of_headers h.headers hc
  obtain ⟨j, -, rfl⟩ := Finset.mem_image.mp ho
  exact not_covers_crowdOp j _ hcov

/-- A field that many devices wrote concurrently holds a value of each of them. -/
theorem exists_crowded_register (hpos : 0 < n) (hn : n ≤ 2 ^ 128) :
    ∃ taken m registers history, HonestReplica ⟨0⟩ (crowd n) taken m ∧
      m.snapshotData = .ok (some (.live ⟨registers, history⟩)) ∧
      ∃ reg ∈ registers, n ≤ reg.entries.length := by
  have hops := honestOps_crowd hn
  obtain ⟨deliveries, hd⟩ := exists_causalDelivery hops
  obtain ⟨m, hm, hinv, -⟩ := honestInv_deliverAll hops deliveries hd.mem hd.causal
  obtain ⟨taken, hreplica⟩ := HonestReplica.deliverAll .new hd.mem hm
  have hall : delivered (crowd n) deliveries = crowd n := Finset.filter_true_of_mem hd.complete
  rw [hall] at hinv
  cases hs : m.state.shape with
  | tomb t =>
    obtain ⟨o, ho, hr⟩ := mem_purges_contentOf.mp (hinv.tombRep hs).purge_mem
    obtain ⟨i, -, rfl⟩ := Finset.mem_image.mp ho
    cases (Content.mem_ofOp_purges.mp hr).1
  | live l =>
    have hcurrent := exists_current_crowd hinv hs
    obtain ⟨v, hv, -⟩ := hcurrent 0 (Finset.mem_range.mpr hpos)
    have hkey := mem_keys_of_mem_lookup hv
    have habsent : m.state.isAbsent = false := by
      have hne : l.regs.keys.isEmpty = false :=
        List.isEmpty_eq_false_iff.mpr (List.ne_nil_of_mem hkey)
      rw [ExtTreeMap.isEmpty_keys] at hne
      simp [State.isAbsent, hs, hne]
    obtain ⟨registers, history, hdata, hregs, -⟩ := hinv.snapshotData_live hops hs habsent
    obtain ⟨reg, hreg, hbytes⟩ := hregs.2.2 _ hkey
    refine ⟨taken, m, registers, history, hreplica, hdata, reg, hreg, ?_⟩
    rw [hregs.lookup hreg, List.length_map, hbytes]
    have hsub : (Finset.range n).image (fun i => (crowdOp i).dot) ⊆
        dotsOf (lookup l.regs OpInput.sampleKey.bytes) := by
      intro d hd
      obtain ⟨i, hi, rfl⟩ := Finset.mem_image.mp hd
      exact mem_dotsOf.mpr (hcurrent i hi)
    calc n = (Finset.range n).card := (Finset.card_range n).symm
      _ = ((Finset.range n).image fun i => (crowdOp i).dot).card :=
        (Finset.card_image_of_injOn (crowdOp_dot_injOn hn)).symm
      _ ≤ (dotsOf (lookup l.regs OpInput.sampleKey.bytes)).card := Finset.card_le_card hsub
      _ ≤ (lookup l.regs OpInput.sampleKey.bytes).length := by
        rw [dotsOf]
        exact (List.toFinset_card_le _).trans (List.length_map _).le

/-- The dots of a busy device. -/
def busyDot (i : Fin 51) : Dot := ⟨⟨2⟩, ⟨i.val + 1, by omega, by omega⟩⟩

/-- A write by one device, then many operations of another one that know it. -/
def busyOps : List OpInput :=
  let a : Dot := .sample 1 1
  .sample a ⟨1⟩ [] (OpInput.sampleWrite [1]) ::
    (List.finRange 51).map fun i =>
      .sample (busyDot i) ⟨⟨i.val + 2, by omega⟩⟩ (a :: if 0 < i.val then [busyDot (i - 1)] else [])
        ⟨.active, []⟩

/-- A replica that applied the busy operations. -/
def busyWriter : ItemMerge := (ItemMerge.new ⟨0⟩).callAll (busyOps.map .applyOp)

/-- A replica that knows the header of the first write only. -/
def busyReader : ItemMerge :=
  (ItemMerge.new ⟨0⟩).callAll ((busyOps.take 1).map fun o => .recordHeader o.header)

/-- The snapshot of the busy operations: the first write is current, its lifecycle value pruned. -/
def busySnapshot : SnapshotInput :=
  let a : Dot := .sample 1 1
  .sample [a, busyDot 50] (.live
    ⟨[⟨.lifecycle, [⟨busyDot 50, ⟨52⟩, [1]⟩]⟩, ⟨OpInput.sampleKey, [⟨a, ⟨1⟩, [1]⟩]⟩],
      [⟨.lifecycle, (List.finRange 50).map fun i =>
        ⟨busyDot i.castSucc, ⟨⟨i.val + 2, by omega⟩⟩, [1]⟩⟩]⟩)

/-- Where every body is merged, the calls leave what the deliveries leave. -/
theorem ItemMerge.callAll_eq_of_deliverAll {m m' : ItemMerge} {l : List OpInput}
    (h : m.deliverAll (l.map .body) = .ok m') : m.callAll (l.map .applyOp) = m' := by
  induction l generalizing m with
  | nil =>
    cases h
    rfl
  | cons o l ih =>
    rw [List.map_cons, deliverAll, List.foldlM_cons, deliver] at h
    rcases hr : m.applyOp o with ⟨a, e | applied⟩
    · rw [hr] at h
      cases h
    · rw [hr] at h
      rw [List.map_cons, callAll, List.foldl_cons, call, hr]
      exact ih h

/-- Operations that know no later one of a list may be merged in its order. -/
theorem causalDelivery_map_body {itemId : ItemId} {l : List OpInput}
    (hops : HonestOps itemId l.toFinset) (h : l.Pairwise fun o p => ¬ o.context.covers p.dot) :
    CausalDelivery l.toFinset (l.map .body) where
  mem d hd := by
    obtain ⟨o, ho, rfl⟩ := List.mem_map.mp hd
    exact List.mem_toFinset.mpr ho
  complete o ho := List.mem_map_of_mem (List.mem_toFinset.mp ho)
  causal i hi o ho hio p hp hcov := by
    rw [List.length_map] at hi
    rw [List.getElem?_map, List.getElem?_eq_getElem hi] at hio
    cases hio
    obtain ⟨j, hj, rfl⟩ := List.mem_iff_getElem.mp (List.mem_toFinset.mp hp)
    have hji : j < i := by
      refine lt_of_not_ge fun hij => ?_
      rcases hij.eq_or_lt with rfl | hlt
      · exact hops.notSelf _ ho hcov
      · exact List.pairwise_iff_getElem.mp h i j hi hj hlt hcov
    rw [← List.map_take]
    exact List.mem_map_of_mem (List.mem_take_iff_getElem.mpr ⟨j, by omega, rfl⟩)

/-- The values of a key that operations write, in their order. -/
def valsIn (l : List OpInput) (k : Bytes) : List Val :=
  l.flatMap fun o => (o.held.writesWithLifecycle.filter fun w => w.1 = k).map fun w =>
    ⟨o.dot, o.header.hlc, w.2⟩

theorem mem_valList_contentOf_toFinset {l : List OpInput} {k : Bytes} {v : Val}
    (hl : ∀ o ∈ l, o.data.lifecycle ≠ .purge) :
    v ∈ (contentOf l.toFinset).valList k ↔ v ∈ valsIn l k := by
  rw [Content.mem_valList, mem_vals_contentOf, valsIn, List.mem_flatMap]
  constructor
  · rintro ⟨o, ho, hv⟩
    obtain ⟨-, hd, hh, hw⟩ := OpInput.mem_content_vals.mp hv
    refine ⟨o, List.mem_toFinset.mp ho, List.mem_map.mpr ⟨_, List.mem_filter.mpr ⟨hw, by simp⟩, ?_⟩⟩
    rw [← hd, ← hh]
  · rintro ⟨o, ho, hv⟩
    obtain ⟨w, hw, rfl⟩ := List.mem_map.mp hv
    obtain ⟨hw, hk⟩ := List.mem_filter.mp hw
    exact ⟨o, List.mem_toFinset.mpr ho, OpInput.mem_content_vals.mpr
      ⟨hl o ho, rfl, rfl, of_decide_eq_true hk ▸ hw⟩⟩

/-- A live state is what the merge keeps of operations other than purges, where its registers are
the split of what they write. -/
theorem liveRep_toFinset {ev : Evidence} {l : List OpInput} {live : Live} (hkept : live.Kept)
    (hl : ∀ o ∈ l, o.data.lifecycle ≠ .purge)
    (hsplit : ∀ k, (lookup live.regs k, lookup live.hist k) = liveKey (valsIn l k) ev) :
    LiveRep ev live (contentOf l.toFinset) := by
  have hkey (k : Bytes) : (lookup live.regs k, lookup live.hist k) =
      liveKey ((contentOf l.toFinset).valList k) ev :=
    (hsplit k).trans (liveKey_congr ev fun _ => (mem_valList_contentOf_toFinset hl).symm)
  refine ⟨hkept, ?_, ?_, fun k => congrArg Prod.fst (hkey k), fun k => congrArg Prod.snd (hkey k)⟩
  · refine Finset.eq_empty_of_forall_notMem fun r hr => ?_
    obtain ⟨o, ho, hr⟩ := mem_purges_contentOf.mp hr
    exact hl o (List.mem_toFinset.mp ho) (Content.mem_ofOp_purges.mp hr).1
  · refine VersionVector.ext_covers fun d => iff_of_false ?_ (VersionVector.not_covers_new d)
    intro hcov
    obtain ⟨o, ho, hc⟩ := covers_c_contentOf.mp hcov
    exact hl o (List.mem_toFinset.mp ho) (Content.covers_ofOp_c.mp hc).1

/-- The lifecycle values of the busy operations but the last, without the pruned one. -/
def busyHistory : List Val :=
  (List.finRange 50).map fun i => ⟨busyDot i.castSucc, ⟨⟨i.val + 2, by omega⟩⟩, [1]⟩

/-- The live item of the busy snapshot. -/
def busyLive : Live where
  regs := setOrRemove (setOrRemove ∅ lifecycleKey [⟨busyDot 50, ⟨52⟩, [1]⟩])
    OpInput.sampleKey.bytes [⟨.sample 1 1, ⟨1⟩, [1]⟩]
  hist := setOrRemove ∅ lifecycleKey busyHistory

theorem honestOps_busyOps : HonestOps ⟨0⟩ busyOps.toFinset := by decide +kernel

/-- What the busy operations write of a key, split into the current values and the history. -/
theorem liveKey_busyOps (k : Bytes) :
    liveKey (valsIn busyOps k) busyWriter.evidence =
      if lifecycleKey = k then ([⟨busyDot 50, ⟨52⟩, [1]⟩], busyHistory)
      else if OpInput.sampleKey.bytes = k then ([⟨.sample 1 1, ⟨1⟩, [1]⟩], []) else ([], []) := by
  split_ifs with hlifecycle hsample
  · rw [← hlifecycle]
    decide +kernel
  · rw [← hsample]
    decide +kernel
  · have hkeys : ∀ o ∈ busyOps, ∀ w ∈ o.held.writesWithLifecycle,
        lifecycleKey = w.1 ∨ OpInput.sampleKey.bytes = w.1 := by decide +kernel
    have hnone : valsIn busyOps k = [] := by
      refine List.flatMap_eq_nil_iff.mpr fun o ho => ?_
      rw [List.map_eq_nil_iff, List.filter_eq_nil_iff]
      intro w hw hk
      obtain rfl := of_decide_eq_true hk
      exact (hkeys o ho w hw).elim hlifecycle hsample
    rw [hnone]
    rfl

set_option maxRecDepth 100000 in
theorem fromSnapshot_busySnapshot : State.fromSnapshot busySnapshot.header.covered
    busySnapshot.data = ⟨busySnapshot.header.covered, .live busyLive⟩ := by decide +kernel

set_option maxRecDepth 100000 in
theorem busyWriter_eq :
    busyWriter.state = State.fromSnapshot busySnapshot.header.covered busySnapshot.data ∧
      busyWriter.unresolved = ∅ ∧ busyWriter.itemId = ⟨0⟩ := by
  have hlive : ∀ o ∈ busyOps, o.data.lifecycle ≠ .purge := by decide +kernel
  have hcausal : CausalDelivery busyOps.toFinset (busyOps.map .body) :=
    causalDelivery_map_body honestOps_busyOps (by decide +kernel)
  obtain ⟨m, hm, hinv, -⟩ := honestInv_deliverAll honestOps_busyOps _ hcausal.mem hcausal.causal
  obtain rfl : busyWriter = m := ItemMerge.callAll_eq_of_deliverAll hm
  have hall : delivered busyOps.toFinset (busyOps.map .body) = busyOps.toFinset :=
    Finset.filter_true_of_mem hcausal.complete
  rw [hall] at hinv
  have hclosed := hinv.causallyClosed honestOps_busyOps
  have hvv : busyWriter.state.vv = busySnapshot.header.covered := by decide +kernel
  refine ⟨?_, by decide +kernel, hinv.item⟩
  rw [fromSnapshot_busySnapshot]
  refine hinv.represents.unique ⟨hvv.symm.trans hinv.represents.vv, hinv.represents.vouched, ?_⟩
    (fun _ _ _ => rfl) hclosed hclosed fun _ _ _ hq => by cases hq
  refine liveRep_toFinset ⟨?_, ?_⟩ hlive fun k => ?_
  · exact (noEmpty_empty.setOrRemove _ _).setOrRemove _ _
  · exact noEmpty_empty.setOrRemove _ _
  · rw [liveKey_busyOps, busyLive, lookup_setOrRemove, lookup_setOrRemove, lookup_setOrRemove,
      lookup_empty]
    split_ifs with hsample hlifecycle hlifecycle
    · exact absurd (hlifecycle.trans hsample.symm) (by decide +kernel)
    all_goals rfl

/-- What a replica whose data encodes writes reads back as that data. -/
theorem SnapshotOf.of_encodes {w : ItemMerge} {snapshot : SnapshotInput}
    (hitem : snapshot.header.itemId = w.itemId)
    (hschema : snapshot.header.itemSchemaVersion = ItemSchemaVersion.v1)
    (hstate : w.state = State.fromSnapshot snapshot.header.covered snapshot.data)
    (hunresolved : w.unresolved = ∅)
    (hdata : w.state.snapshotData = .ok (some snapshot.data))
    (hencodes : (Record.encodeSnapshot snapshot.header.covered snapshot.data).isOk) :
    SnapshotOf w snapshot where
  item := hitem
  schema := hschema
  written := by
    have hvv : w.state.vv = snapshot.header.covered := by rw [hstate, State.fromSnapshot_vv]
    have habsent : ¬ w.state.isAbsent := by
      intro h
      rw [State.snapshotData, if_pos h] at hdata
      cases hdata
    cases henc : Record.encodeSnapshot snapshot.header.covered snapshot.data with
    | error e =>
      rw [henc] at hencodes
      cases hencodes
    | ok out =>
      have hencode : w.encode = .ok out := by
        rw [ItemMerge.encode, hdata]
        simp only [hvv, henc]
      refine ⟨⟨w.state.vv, out⟩, ?_, hvv.symm, hvv ▸ Record.parseSnapshot_of_encodeSnapshot henc⟩
      rw [ItemMerge.writeSnapshot, if_neg habsent, if_neg (by simp [hunresolved]), hencode]

set_option maxRecDepth 100000 in
theorem snapshotOf_busySnapshot : SnapshotOf busyWriter busySnapshot := by
  obtain ⟨hstate, hunresolved, hitem⟩ := busyWriter_eq
  refine .of_encodes hitem.symm rfl hstate hunresolved ?_ (by decide +kernel)
  rw [hstate]
  decide +kernel

end RizzyVault.Sync
