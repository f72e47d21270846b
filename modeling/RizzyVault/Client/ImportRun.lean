import RizzyVault.Client.Import
import RizzyVault.Sync.Merge.Absorb

/-!
# The state of an imported item

One device writes a fresh item, each operation on the state the item has. Every such operation is
applied, and what is held is what was written: one current value a key, and under the lifecycle key
the history the operations leave. So an item that passed its checks fits one snapshot, however many
operations its writes took.

## Main definitions

* `OwnInput`: an operation as the device writes it on the state it has.
* `OwnRun`: a fresh item written by one device.
* `importData`: the data of the operations of an imported item.

## Main results

* `OwnRun.inv`: what such a run has reached.
* `accepted_import`: an accepted import is never oversize.

## References

* `crates/rizzy-client/src/items.rs`, `crates/rizzy-client/src/sync.rs`.
-/

open RizzyVault.Core RizzyVault.Sync RizzyVault.Lib
open RizzyVault.Client.Lists

namespace RizzyVault.Client.Items

open Std (ExtTreeMap ExtTreeSet)

/-! ### A fresh item written by one device -/

/-- An operation of the item as the device writes it on the state it has. -/
structure OwnInput (itemId : ItemId) (device : DeviceId) (m : ItemMerge) (o : OpInput) : Prop where
  item : o.header.itemId = itemId
  schema : o.header.itemSchemaVersion = ItemSchemaVersion.v1
  device : o.dot.deviceId = device
  context : o.context = m.state.vv
  fresh : ¬ m.state.vv.covers o.dot

/-- A fresh item with the operations one device wrote on it, in order. -/
inductive OwnRun (itemId : ItemId) (device : DeviceId) : List OpInput → ItemMerge → Prop
  | new : OwnRun itemId device [] (ItemMerge.new itemId)
  | addItemKey {os m} (h : OwnRun itemId device os m) (keyId : SymmetricKeyId) :
    OwnRun itemId device os (m.addItemKey keyId)
  | applyOwnOp {os m o} (h : OwnRun itemId device os m) (ho : OwnInput itemId device m o)
      (own : OwnWrite) : OwnRun itemId device (os ++ [o]) (m.applyOwnOp o own).1

variable {itemId : ItemId} {device : DeviceId} {os : List OpInput} {m : ItemMerge} {o : OpInput}

/-- What a run has reached: an honest replica of exactly the operations written, live, with one
value under the lifecycle key. -/
structure OwnRunInv (itemId : ItemId) (device : DeviceId) (os : List OpInput) (m : ItemMerge) :
    Prop where
  honest : HonestOps itemId os.toFinset
  replica : ∀ ops, os.toFinset ⊆ ops → HonestReplica itemId ops os.toFinset m
  device : ∀ o ∈ os, o.dot.deviceId = device
  live : ∃ l, m.state.shape = .live l ∧
    ∀ u ∈ lookup l.regs lifecycleKey, ∀ v ∈ lookup l.regs lifecycleKey, u = v

namespace OwnRunInv

theorem inv (h : OwnRunInv itemId device os m) :
    HonestInv itemId os.toFinset os.toFinset m ∧ KeyInv os.toFinset m :=
  (h.replica _ subset_rfl).inv h.honest

theorem covers_iff (h : OwnRunInv itemId device os m) {d : Dot} :
    m.state.vv.covers d ↔ ∃ p ∈ os, p.dot.deviceId = d.deviceId ∧ d.seq ≤ p.dot.seq := by
  rw [h.inv.1.represents.vv, covers_contentOf]
  simp only [List.mem_toFinset]

theorem context_le (h : OwnRunInv itemId device os m) {p : OpInput} (hp : p ∈ os) :
    p.context ≤ m.state.vv := by
  rw [h.inv.1.represents.vv]
  exact h.honest.context_le (List.mem_toFinset.mpr hp) fun q hq _ => hq

theorem covered (h : OwnRunInv itemId device os m) : Covered m := by
  refine ⟨fun k v hv => h.inv.1.covers_value hv, fun d hd => ?_⟩
  obtain ⟨p, hp, rfl⟩ := h.inv.1.merged d hd
  exact h.covers_iff.mpr ⟨p, List.mem_toFinset.mp hp, rfl, le_rfl⟩

/-- The operations with one more written on the state are honest. -/
theorem honest_append (h : OwnRunInv itemId device os m) (ho : OwnInput itemId device m o)
    (hwf : o.data.WellFormed) : HonestOps itemId (os ++ [o]).toFinset := by
  have hmem : ∀ {q : OpInput → Prop}, (∀ p ∈ os, q p) → q o → ∀ p ∈ (os ++ [o]).toFinset, q p := by
    intro q hall hlast p hp
    rcases List.mem_append.mp (List.mem_toFinset.mp hp) with hp | hp
    · exact hall p hp
    · exact List.mem_singleton.mp hp ▸ hlast
  have hin : ∀ {p}, p ∈ os → p ∈ os.toFinset := List.mem_toFinset.mpr
  have hcov : ∀ p ∈ os, m.state.vv.covers p.dot := fun p hp =>
    h.covers_iff.mpr ⟨p, hp, rfl, le_rfl⟩
  -- No earlier operation saw the new one.
  have hunseen : ∀ p ∈ os, ¬ p.context.covers o.dot := fun p hp hc =>
    ho.fresh (h.context_le hp _ hc)
  have hne : ∀ p ∈ os, p.dot ≠ o.dot := fun p hp heq => ho.fresh (heq ▸ hcov p hp)
  refine ⟨hmem (fun p hp => h.honest.item p (hin hp)) ho.item,
    hmem (fun p hp => h.honest.schema p (hin hp)) ho.schema,
    hmem (fun p hp => h.honest.wellFormed p (hin hp)) hwf,
    hmem (fun p hp => hmem (fun q hq => h.honest.unique p (hin hp) q (hin hq))
      fun heq => absurd heq (hne p hp)) (hmem (fun q hq heq => absurd heq.symm (hne q hq))
      fun _ => rfl),
    hmem (fun p hp d hd => ?_) (fun d hd => ?_),
    hmem (fun p hp => hmem (fun q hq => h.honest.closed p (hin hp) q (hin hq))
      fun hc => absurd hc (hunseen p hp)) (hmem (fun q hq _ => ?_) fun _ => le_rfl),
    hmem (fun p hp => hmem (fun q hq => h.honest.previous p (hin hp) q (hin hq))
      fun hd hs => ?_) (hmem (fun q hq _ _ => ?_) fun _ hs => absurd hs (lt_irrefl _)),
    hmem (fun p hp => h.honest.notSelf p (hin hp)) ?_⟩
  · obtain ⟨q, hq, hqd⟩ := h.honest.known p (hin hp) d hd
    exact ⟨q, List.mem_toFinset.mpr (List.mem_append_left _ (List.mem_toFinset.mp hq)), hqd⟩
  · -- The vector names the last operation of the device.
    rw [ho.context] at hd
    obtain ⟨q, hq, hdev, hle⟩ := h.covers_iff.mp (VersionVector.covers_of_mem_dots hd)
    obtain ⟨e, he, hed, hle'⟩ := VersionVector.covers_iff_exists_mem_dots.mp (hcov q hq)
    have hsame : e = d := by
      have hs := VersionVector.mem_dots.mp he
      rw [hed, hdev, VersionVector.mem_dots.mp hd] at hs
      exact Dot.ext (hed.trans hdev) (congrArg NonZeroU64.val (Option.some.inj hs)).symm
    rw [hsame] at hle'
    exact ⟨q, List.mem_toFinset.mpr (List.mem_append_left _ hq), Dot.ext hdev (le_antisymm hle' hle)⟩
  · rw [ho.context]
    exact h.context_le hq
  · exact absurd (h.covers_iff.mpr ⟨p, hp, hd, hs.le⟩) ho.fresh
  · rw [ho.context]
    exact hcov q hq
  · rw [ho.context]
    exact ho.fresh

/-- An operation written on the state is applied. -/
theorem applyOwnOp_isOk (h : OwnRunInv itemId device os m) (ho : OwnInput itemId device m o)
    (hwf : o.data.WellFormed) (hp : o.data.lifecycle ≠ .purge) (own : OwnWrite) :
    ∃ m' applied, m.applyOwnOp o own = (m', .ok applied) := by
  have hops := h.honest_append ho hwf
  have hsub : os.toFinset ⊆ (os ++ [o]).toFinset := fun p hp =>
    List.mem_toFinset.mpr (List.mem_append_left _ (List.mem_toFinset.mp hp))
  obtain ⟨hinv, hk⟩ := (h.replica _ hsub).inv hops
  have hlast : o ∈ (os ++ [o]).toFinset := List.mem_toFinset.mpr (by simp)
  have hcheck : m.checkRecord o.header.itemId o.header.itemSchemaVersion = .ok () := by
    simp [ItemMerge.checkRecord, ho.item, ho.schema, hinv.item]
  have hcur : ¬ (o.header.causalContext ≠ m.state.vv ∨ m.state.vv.covers o.header.dot) :=
    not_or.mpr ⟨not_not.mpr ho.context, ho.fresh⟩
  have hpurge : decide (o.data.lifecycle = .purge) = false := decide_eq_false hp
  rcases hinv.mergeBody hops hk hlast with ⟨kind, hok, -⟩ | ⟨hready, -⟩
  · rcases hb : m.mergeBody o with ⟨m', r⟩
    rw [hb] at hok
    obtain rfl : r = .ok kind := hok
    unfold ItemMerge.applyOwnOp
    simp only [hcheck, if_neg hcur, hpurge, Bool.false_and, Bool.false_eq_true, if_false, hb]
    exact ⟨_, _, rfl⟩
  · exact absurd (ItemMerge.isReady_of_context_eq ho.context) hready

/-- An operation written on the state keeps what the run has reached. -/
theorem applyOwnOp (h : OwnRunInv itemId device os m) (ho : OwnInput itemId device m o)
    (hwf : o.data.WellFormed) (hp : o.data.lifecycle ≠ .purge) (own : OwnWrite) :
    OwnRunInv itemId device (os ++ [o]) (m.applyOwnOp o own).1 := by
  obtain ⟨m', applied, happly⟩ := h.applyOwnOp_isOk ho hwf hp own
  have hset : (os ++ [o]).toFinset = insert o os.toFinset := by
    ext p
    simp
  obtain ⟨l, hl, -⟩ := h.live
  obtain ⟨l', hl', hwrote⟩ := applyOwnOp_live h.covered hwf hp hl happly
  obtain ⟨value, hvalue⟩ : ∃ value, o.data.lifecycle.registerValue = some value := by
    cases hlife : o.data.lifecycle with
    | active => exact ⟨_, rfl⟩
    | trashed => exact ⟨_, rfl⟩
    | purge => exact absurd hlife hp
  have hwrite : (lifecycleKey, value) ∈ o.held.writesWithLifecycle := by
    refine List.mem_append_left _ ?_
    rw [OpInput.held_lifecycle, hvalue]
    exact List.mem_singleton_self _
  refine ⟨h.honest_append ho hwf, fun ops hops => ?_, fun p hp => ?_, l', by rw [happly, hl'],
    fun u hu v hv => ?_⟩
  · rw [hset] at hops ⊢
    exact (h.replica ops ((Finset.subset_insert _ _).trans hops)).applyOwnOp
      (hops (Finset.mem_insert_self _ _)) own (by rw [happly]; rfl)
  · rcases List.mem_append.mp hp with hp | hp
    · exact h.device p hp
    · rw [List.mem_singleton.mp hp]
      exact ho.device
  · rw [hwrote.current _ _ hwrite u hu, hwrote.current _ _ hwrite v hv]

end OwnRunInv

/-- What a run has reached whose operations are well formed and no purge. -/
theorem OwnRun.inv (h : OwnRun itemId device os m)
    (hos : ∀ o ∈ os, o.data.WellFormed ∧ o.data.lifecycle ≠ .purge) :
    OwnRunInv itemId device os m := by
  induction h with
  | new =>
    refine ⟨⟨by simp, by simp, by simp, by simp, by simp, by simp, by simp, by simp⟩,
      fun ops _ => ?_, by simp, ⟨∅, ∅⟩, rfl, by simp [lookup_empty]⟩
    exact HonestReplica.new
  | addItemKey _ keyId ih =>
    obtain ⟨honest, replica, hdevice, live⟩ := ih hos
    exact ⟨honest, fun ops hops => (replica ops hops).addItemKey keyId, hdevice, live⟩
  | applyOwnOp _ ho own ih =>
    obtain ⟨hwf, hp⟩ := hos _ (List.mem_append_right _ (List.mem_singleton_self _))
    exact (ih fun p hp => hos p (List.mem_append_left _ hp)).applyOwnOp ho hwf hp own

/-! ### What is held -/

/-- Everything a run wrote to field keys. -/
def runWrites (os : List OpInput) : List RawWrite := os.flatMap fun o => rawWrites o.data

namespace OwnRunInv

variable {k : Bytes} {u v : Val}

/-- A value of a field key was written by an operation of the run. -/
theorem op_of_value (h : OwnRunInv itemId device os m) (hk : k ≠ lifecycleKey)
    (hv : v ∈ m.state.shape.valuesAt k) :
    ∃ o ∈ os, v.dot = o.dot ∧ (k, v.value) ∈ rawWrites o.data := by
  obtain ⟨o, ho, hvo⟩ := h.inv.1.op_of_value hv
  obtain ⟨-, hdot, -, hw⟩ := OpInput.mem_content_vals.mp hvo
  refine ⟨o, List.mem_toFinset.mp ho, hdot, ?_⟩
  rcases OpInput.mem_writesWithLifecycle hw with ⟨hlife, -⟩ | ⟨w, hw, hkey, hval⟩
  · exact absurd hlife hk
  · exact List.mem_map.mpr ⟨w, hw, by rw [hkey, hval]⟩

/-- What an operation of the run wrote is among the values taken. -/
theorem mem_vals_of_write (h : OwnRunInv itemId device os m) {w : Bytes} (ho : o ∈ os)
    (hw : (k, w) ∈ rawWrites o.data) :
    ⟨o.dot, o.header.hlc, w⟩ ∈ (contentOf os.toFinset).vals k := by
  have ho := List.mem_toFinset.mpr ho
  obtain ⟨u, hu, heq⟩ := List.mem_map.mp hw
  have hactive := (h.honest.wellFormed o ho).active (List.ne_nil_of_mem hu)
  refine mem_vals_contentOf.mpr ⟨o, ho, OpInput.mem_content_vals.mpr ⟨?_, rfl, rfl, ?_⟩⟩
  · rw [hactive]
    exact Lifecycle.noConfusion
  · exact List.mem_append_right _ hw

/-- A field key written once holds one value at most. -/
theorem dot_eq (h : OwnRunInv itemId device os m) (hnodup : ((runWrites os).map Prod.fst).Nodup)
    (hk : k ≠ lifecycleKey) (hu : u ∈ m.state.shape.valuesAt k)
    (hv : v ∈ m.state.shape.valuesAt k) : u.dot = v.dot := by
  obtain ⟨o, ho, hud, huw⟩ := h.op_of_value hk hu
  obtain ⟨p, hp, hvd, hvw⟩ := h.op_of_value hk hv
  rw [runWrites, List.map_flatMap, List.nodup_flatMap] at hnodup
  obtain rfl : o = p := by
    by_contra hne
    have hsymm : Std.Symm (Function.onFun List.Disjoint
        fun o : OpInput => (rawWrites o.data).map Prod.fst) := ⟨fun a b hab => hab.symm⟩
    exact hnodup.2.forall ho hp hne (List.mem_map.mpr ⟨_, huw, rfl⟩)
      (List.mem_map.mpr ⟨_, hvw, rfl⟩)
  rw [hud, hvd]

end OwnRunInv

/-! ### Sizes -/

/-- Values in dot order that share their dot are one value at most. -/
theorem length_le_one {vs : List Val} (hs : DotSorted vs)
    (heq : ∀ u ∈ vs, ∀ v ∈ vs, u.dot = v.dot) : vs.length ≤ 1 := by
  cases vs with
  | nil => exact Nat.zero_le 1
  | cons u vs =>
    cases vs with
    | nil => exact le_rfl
    | cons v vs =>
      have hlt := (List.pairwise_cons.mp hs).1 v List.mem_cons_self
      exact absurd (heq u List.mem_cons_self v (by simp)) hlt.ne

theorem length_putEntry (e : Entry) : (Record.putEntry e).length = 36 + e.value.length := by
  simp only [Record.putEntry, List.length_append, Record.length_putDot, Record.length_putHlc,
    length_putBytes]
  omega

theorem length_putRegister (reg : Register) : (Record.putRegister reg).length =
    6 + reg.key.bytes.length + (reg.entries.map fun e => 36 + e.value.length).sum := by
  rw [Record.putRegister, List.length_append, List.length_append, length_putBytes,
    Record.putCount, length_beBytes, List.length_flatMap]
  simp only [length_putEntry]
  omega

theorem length_putRegisters (regs : List Register) : (Record.putRegisters regs).length =
    2 + (regs.map fun reg => (Record.putRegister reg).length).sum := by
  rw [Record.putRegisters, List.length_append, Record.putCount, length_beBytes,
    List.length_flatMap]

/-- A register as the write of its first value. -/
def writeOf (reg : Register) : RawWrite :=
  (reg.key.bytes, (reg.entries.head?.map Entry.value).getD [])

/-- The size of a register of one value. -/
theorem length_putRegister_of_single {reg : Register} (hne : reg.entries ≠ [])
    (hone : reg.entries.length ≤ 1) : (Record.putRegister reg).length = registerLen (writeOf reg) := by
  obtain ⟨e, he⟩ := List.length_eq_one_iff.mp
    (le_antisymm hone (List.length_pos_iff.mpr hne))
  rw [length_putRegister, registerLen, registerOverhead, writeOf, he]
  simp only [List.map_singleton, List.sum_singleton, List.head?_cons, Option.map_some,
    Option.getD_some]
  omega

/-- Registers of one value each are no larger than the writes they are among. -/
theorem length_putRegisters_le {regs : List Register} {writes : List RawWrite}
    (hsorted : regs.Pairwise fun a b => a.key.bytes < b.key.bytes)
    (hsingle : ∀ reg ∈ regs, reg.entries ≠ [] ∧ reg.entries.length ≤ 1)
    (hmem : ∀ reg ∈ regs, writeOf reg ∈ writes) :
    regs.length ≤ writes.length ∧
      (Record.putRegisters regs).length ≤ 2 + (writes.map registerLen).sum := by
  have hnodup : (regs.map writeOf).Nodup := by
    rw [List.Nodup, List.pairwise_map]
    exact hsorted.imp fun hab heq => hab.ne (congrArg Prod.fst heq)
  have hsub : (regs.map writeOf).Subperm writes := by
    refine hnodup.subperm fun w hw => ?_
    obtain ⟨reg, hreg, rfl⟩ := List.mem_map.mp hw
    exact hmem reg hreg
  refine ⟨by simpa using hsub.length_le, ?_⟩
  have hsum : regs.map (fun reg => (Record.putRegister reg).length) =
      (regs.map writeOf).map registerLen := by
    rw [List.map_map]
    exact List.map_congr_left fun reg hreg =>
      length_putRegister_of_single (hsingle reg hreg).1 (hsingle reg hreg).2
  rw [length_putRegisters, hsum]
  obtain ⟨l, hl, hsublist⟩ := hsub
  have hle := (hsublist.map registerLen).sum_le_sum fun n _ => Nat.zero_le n
  rw [(hl.map registerLen).sum_eq] at hle
  omega

/-- The history under the lifecycle key, the only one, is small. -/
theorem length_putRegisters_history {regs : List Register}
    (hsorted : regs.Pairwise fun a b => a.key.bytes < b.key.bytes)
    (hkey : ∀ reg ∈ regs, reg.key.bytes = lifecycleKey)
    (hcount : ∀ reg ∈ regs, reg.entries.length ≤ historyLimit)
    (hvalue : ∀ reg ∈ regs, ∀ e ∈ reg.entries, e.value.length = 1) :
    (Record.putRegisters regs).length ≤ 1868 := by
  rw [length_putRegisters]
  cases regs with
  | nil => exact (by decide : 2 ≤ 1868)
  | cons reg regs =>
    cases regs with
    | cons other regs =>
      have hlt := (List.pairwise_cons.mp hsorted).1 other List.mem_cons_self
      rw [hkey reg List.mem_cons_self, hkey other (by simp)] at hlt
      exact absurd hlt (lt_irrefl _)
    | nil =>
      have hlen : reg.key.bytes.length = 10 := by
        rw [hkey reg List.mem_cons_self]
        decide +kernel
      have hentries : reg.entries.map (fun e => 36 + e.value.length) =
          reg.entries.map fun _ => 37 :=
        List.map_congr_left fun e he => by rw [hvalue reg List.mem_cons_self e he]
      have hlimit : reg.entries.length ≤ 50 := hcount reg List.mem_cons_self
      rw [List.map_singleton, List.sum_singleton, length_putRegister, hlen, hentries,
        List.map_const', List.sum_replicate, smul_eq_mul]
      omega

/-- What a run wrote fits one snapshot when the writes do with the room kept free. -/
theorem OwnRunInv.exists_encode (h : OwnRunInv itemId device os m)
    (hrules : ∀ o ∈ os, Record.OpRules Limits.v1 o.data) (hne : runWrites os ≠ [])
    (hnodup : ((runWrites os).map Prod.fst).Nodup)
    (hcount : (runWrites os).length < Limits.v1.groups)
    (hfits : snapshotMargin + ((runWrites os).map registerLen).sum ≤ Limits.v1.snapshotData) :
    ∃ out, m.encode = .ok out ∧ out.length ≤ Limits.v1.snapshotData := by
  obtain ⟨hinv, hk⟩ := h.inv
  obtain ⟨l, hl, hlife⟩ := h.live
  have hrep := hinv.liveRep hl
  have habsent : m.state.isAbsent = false := by
    obtain ⟨w, hw⟩ := List.exists_mem_of_ne_nil _ hne
    obtain ⟨o, ho, hw⟩ := List.mem_flatMap.mp hw
    have hkey := hinv.mem_keys_regs hl h.honest (h.mem_vals_of_write ho hw)
    rw [State.isAbsent, hl, Bool.and_eq_false_iff]
    left
    rw [Bool.eq_false_iff]
    intro hempty
    rw [ExtTreeMap.isEmpty_iff.mp hempty] at hkey
    simp at hkey
  obtain ⟨registers, history, hdata, hregs, hhist⟩ := hinv.snapshotData_live h.honest hl habsent
  obtain ⟨d, hd, hiff⟩ := hinv.snapshotRules_iff h.honest
    (fun o ho => hrules o (List.mem_toFinset.mp ho)) hk habsent
  obtain rfl : d = .live ⟨registers, history⟩ := by
    rw [hd] at hdata
    exact Option.some.inj (Except.ok.inj hdata)
  have hvalue : ∀ v ∈ m.state.shape.valuesAt lifecycleKey, v.value.length = 1 := by
    intro v hv
    rcases hinv.lifecycle_value h.honest hv with hval | hval <;> rw [hval] <;> rfl
  have hregs_sorted : ∀ k, DotSorted (lookup l.regs k) := fun k => by
    rw [hrep.regs]
    exact dotSorted_maximal_fst _ _
  have hsingle : ∀ reg ∈ registers, reg.entries ≠ [] ∧ reg.entries.length ≤ 1 := by
    intro reg hreg
    obtain ⟨v, hv⟩ := hregs.exists_value hrep.kept.regs hreg
    rw [hregs.lookup hreg, List.length_map]
    refine ⟨fun hnil => List.not_mem_nil (List.map_eq_nil_iff.mp hnil ▸ hv),
      length_le_one (hregs_sorted _) fun u hu w hw => ?_⟩
    by_cases hkey : reg.key.bytes = lifecycleKey
    · rw [hkey] at hu hw
      rw [hlife u hu w hw]
    · exact h.dot_eq hnodup hkey (HonestInv.mem_valuesAt_regs hl hu)
        (HonestInv.mem_valuesAt_regs hl hw)
  -- The one value under the lifecycle key.
  obtain ⟨marker, hmarker, hmem⟩ : ∃ marker : Bytes, marker.length ≤ 1 ∧
      ∀ reg ∈ registers, writeOf reg ∈ (lifecycleKey, marker) :: runWrites os := by
    refine ⟨((lookup l.regs lifecycleKey).head?.map Val.value).getD [], ?_, fun reg hreg => ?_⟩
    · cases hhead : (lookup l.regs lifecycleKey).head? with
      | none => exact Nat.zero_le 1
      | some v =>
        exact (hvalue v (HonestInv.mem_valuesAt_regs hl (List.mem_of_mem_head? hhead))).le
    · have hentries := hregs.lookup hreg
      rw [writeOf, hentries, List.head?_map, Option.map_map]
      by_cases hkey : reg.key.bytes = lifecycleKey
      · rw [hkey]
        exact List.mem_cons_self
      · cases hvs : lookup l.regs reg.key.bytes with
        | nil => exact absurd (by rw [hentries, hvs, List.map_nil]) (hsingle reg hreg).1
        | cons u us =>
          have hu : u ∈ lookup l.regs reg.key.bytes := hvs ▸ List.mem_cons_self
          obtain ⟨o, ho, -, hw⟩ := h.op_of_value hkey (HonestInv.mem_valuesAt_regs hl hu)
          exact List.mem_cons_of_mem _ (List.mem_flatMap.mpr ⟨o, ho, hw⟩)
  obtain ⟨hlen, hsize⟩ := length_putRegisters_le hregs.1 hsingle hmem
  have hhistKey : ∀ reg ∈ history, reg.key.bytes = lifecycleKey := by
    intro reg hreg
    by_contra hkey
    obtain ⟨v, hv⟩ := hhist.exists_value hrep.kept.hist hreg
    obtain ⟨hcur, hdots⟩ := hinv.hist_owned hl h.honest hv
    obtain ⟨u, hu⟩ := hrep.kept.regs.exists_mem_lookup hcur
    exact hdots u hu (h.dot_eq hnodup hkey (HonestInv.mem_valuesAt_regs hl hu)
      (HonestInv.mem_valuesAt_hist hl hv))
  have hhistSize : (Record.putRegisters history).length ≤ 1868 := by
    refine length_putRegisters_history hhist.1 hhistKey (fun reg hreg => ?_) fun reg hreg e he => ?_
    · rw [hhist.lookup hreg, List.length_map, hrep.hist]
      exact length_prune_le _
    · rw [hhist.lookup hreg, hhistKey reg hreg] at he
      obtain ⟨v, hv, rfl⟩ := List.mem_map.mp he
      exact hvalue v (HonestInv.mem_valuesAt_hist hl hv)
  have htotal : (Record.putSnapshot (.live ⟨registers, history⟩)).length ≤
      Limits.v1.snapshotData := by
    have hkey : lifecycleKey.length = 10 := by decide +kernel
    rw [List.map_cons, List.sum_cons] at hsize
    have hmarkerLen : registerLen (lifecycleKey, marker) ≤ 53 := by
      rw [registerLen, registerOverhead, hkey]
      exact Nat.add_le_add_left hmarker 52
    rw [Record.putSnapshot, List.length_append, List.length_append, length_beBytes]
    rw [snapshotMargin] at hfits
    show 1 + ((Record.putRegisters registers).length + (Record.putRegisters history).length) ≤ _
    omega
  have hfit : (SnapshotData.live ⟨registers, history⟩).Fits :=
    ⟨hlen.trans hcount, fun reg hreg => (hsingle reg hreg).2.trans (by decide)⟩
  refine ⟨_, ?_, htotal⟩
  have hd : m.state.snapshotData = .ok (some (.live ⟨registers, history⟩)) := hd
  rw [ItemMerge.encode, hd]
  simp only [Record.encodeSnapshot_eq_ok_iff.mpr ⟨hiff.mpr ⟨hfit, htotal⟩, rfl⟩]

/-! ### The import -/

/-- The data of the operations of an imported item, in order. -/
def importData (sorted : List ImportedWrite) (trashed : Bool) : Except EditError (List OpData) := do
  let datas ← (splitOps sorted).mapM (ownOpData .active)
  if trashed then
    let last ← ownOpData .trashed []
    return datas ++ [last]
  else return datas

theorem ownOpData_trashed : ∃ data, ownOpData .trashed [] = .ok data ∧ rawWrites data = [] ∧
    Record.OpRules Limits.v1 data ∧ data.lifecycle = .trashed := by
  obtain ⟨data, hdata, -⟩ : ∃ data, ownOpData .trashed [] = .ok data ∧
      Record.opLen data Limits.v1 = .ok (opBytes []) :=
    ownOpData_of_valid (by simp) (by simp) (by decide) (by decide) fun h => absurd rfl h
  obtain ⟨hlife, hraw, hrules⟩ := ownOpData_eq_ok hdata
  exact ⟨data, hdata, hraw, hrules, hlife⟩

/-- The data of the operations the writes are split into. -/
theorem splitOps_data {sorted : List ImportedWrite} (h : Importable sorted) :
    ∀ op ∈ splitOps sorted, ∃ data, ownOpData .active op = .ok data ∧
      Record.opLen data Limits.v1 = .ok (opBytes op) := by
  obtain ⟨hflat, -, hops⟩ := splitOps_spec h
  have hkeys : ((createOrder sorted).map Prod.fst).Nodup := by
    rw [((createOrder_perm sorted).map Prod.fst).nodup_iff, List.map_map, List.Nodup,
      List.pairwise_map]
    exact h.ascending.imp ne_of_lt
  intro op hop
  obtain ⟨-, hcount, hbytes⟩ := hops op hop
  have hsub : op.Sublist (createOrder sorted) := hflat ▸ List.sublist_flatten_of_mem hop
  refine ownOpData_of_valid (fun w hw => ?_) (hkeys.sublist (hsub.map _)) hcount hbytes fun _ => rfl
  obtain ⟨source, hmem⟩ := mem_createOrder.mp (hsub.subset hw)
  exact h.valid _ hmem

/-- The data of operations carry the writes of the operations. -/
theorem perm_rawWrites {ops : List (List RawWrite)} {datas : List OpData}
    (h : ops.mapM (ownOpData .active) = .ok datas) :
    (datas.flatMap rawWrites).Perm ops.flatten := by
  have hall := mapM_eq_ok_forall₂ h
  clear h
  induction hall with
  | nil => exact .nil
  | cons hdata _ ih =>
    rw [List.flatMap_cons, List.flatten_cons, (ownOpData_eq_ok hdata).2.1]
    exact (List.perm_insertionSort _ _).append ih

/-- The operations of an item that passed its checks carry its writes, each within the limits. -/
theorem exists_importData {sorted : List ImportedWrite} (h : Importable sorted) (trashed : Bool) :
    ∃ datas, importData sorted trashed = .ok datas ∧
      (datas.flatMap rawWrites).Perm (sorted.map Prod.snd) ∧
      ∀ data ∈ datas, Record.OpRules Limits.v1 data ∧ data.lifecycle ≠ .purge := by
  obtain ⟨datas, hdatas⟩ := exists_mapM_eq_ok fun op hop =>
    (splitOps_data h op hop).imp fun _ hd => hd.1
  have hperm : (datas.flatMap rawWrites).Perm (sorted.map Prod.snd) := by
    have hflat := perm_rawWrites hdatas
    rw [(splitOps_spec h).1] at hflat
    exact hflat.trans (createOrder_perm sorted)
  have hrules : ∀ data ∈ datas, Record.OpRules Limits.v1 data ∧ data.lifecycle ≠ .purge := by
    intro data hdata
    obtain ⟨op, -, hop⟩ := mapM_eq_ok_mem hdatas data hdata
    obtain ⟨hlife, -, hrules⟩ := ownOpData_eq_ok hop
    exact ⟨hrules, by rw [hlife]; exact Lifecycle.noConfusion⟩
  obtain ⟨last, hlast, hraw, hlastRules, hlife⟩ := ownOpData_trashed
  cases trashed with
  | false => exact ⟨datas, by rw [importData, hdatas]; rfl, hperm, hrules⟩
  | true =>
    refine ⟨datas ++ [last], by rw [importData, hdatas]; simp only [hlast]; rfl, ?_, ?_⟩
    · rwa [List.flatMap_append, List.flatMap_singleton, hraw, List.append_nil]
    · intro data hdata
      rcases List.mem_append.mp hdata with hdata | hdata
      · exact hrules data hdata
      · rw [List.mem_singleton.mp hdata]
        exact ⟨hlastRules, by rw [hlife]; exact Lifecycle.noConfusion⟩

/-- Every operation of an import is applied, and the state they give fits one snapshot. -/
theorem importRun_spec {sorted : List ImportedWrite} (h : Importable sorted) {datas : List OpData}
    (hperm : (datas.flatMap rawWrites).Perm (sorted.map Prod.snd))
    (hrules : ∀ data ∈ datas, Record.OpRules Limits.v1 data ∧ data.lifecycle ≠ .purge)
    (hrun : OwnRun itemId device os m) (hos : os.map OpInput.data <+: datas) :
    (∀ o own, OwnInput itemId device m o → (os ++ [o]).map OpInput.data <+: datas →
      (m.applyOwnOp o own).2.isOk) ∧
    (os.map OpInput.data = datas →
      ∃ out, m.encode = .ok out ∧ out.length ≤ Limits.v1.snapshotData) := by
  have hmem : ∀ {o}, o ∈ os → o.data ∈ datas := fun ho => hos.subset (List.mem_map_of_mem ho)
  have hinv := hrun.inv fun o ho => ⟨(hrules _ (hmem ho)).1.wellFormed, (hrules _ (hmem ho)).2⟩
  refine ⟨fun o own ho hnext => ?_, fun hall => ?_⟩
  · have hlast : o.data ∈ datas := hnext.subset (by simp)
    obtain ⟨m', applied, happly⟩ := hinv.applyOwnOp_isOk ho (hrules _ hlast).1.wellFormed
      (hrules _ hlast).2 own
    rw [happly]
    rfl
  · have hwrites : (runWrites os).Perm (sorted.map Prod.snd) := by
      rw [← hall, List.flatMap_map] at hperm
      exact hperm
    refine hinv.exists_encode (fun o ho => (hrules _ (hmem ho)).1) ?_ ?_ ?_ ?_
    · obtain ⟨w, hw, -⟩ := h.typed
      exact List.ne_nil_of_mem (hwrites.mem_iff.mpr (List.mem_map_of_mem hw))
    · rw [(hwrites.map Prod.fst).nodup_iff, List.map_map, List.Nodup, List.pairwise_map]
      exact h.ascending.imp ne_of_lt
    · rw [hwrites.length_eq, List.length_map]
      exact h.count
    · rw [(hwrites.map registerLen).sum_eq]
      exact h.fits

/-- An accepted import is never oversize. Its operations carry the sorted writes once, the keys of
the create operation first and in the first operation, each within the limits; one device that
writes them on a fresh item, and trashes it or not, has each applied, and the item then fits one
snapshot. -/
theorem accepted_import {isNfc : String → Bool} {itemType : ItemType}
    {writes sorted : List ImportedWrite} (h : checkImport isNfc itemType writes = .ok sorted) :
    (sorted.Perm writes ∧ sorted.Pairwise fun a b => a.2.1 < b.2.1) ∧
    (splitOps sorted).flatten = createOrder sorted ∧
    (∃ first rest, splitOps sorted = first :: rest ∧
      ∀ w ∈ sorted, isFirst w.2.1 → w.2 ∈ first) ∧
    (∀ op ∈ splitOps sorted, op ≠ [] ∧ op.length ≤ Limits.v1.writes ∧
      ∃ data n, ownOpData .active op = .ok data ∧ Record.opLen data Limits.v1 = .ok n ∧
        n ≤ Limits.v1.opData) ∧
    ∀ trashed, ∃ datas, importData sorted trashed = .ok datas ∧
      ∀ itemId device os m, OwnRun itemId device os m → os.map OpInput.data <+: datas →
        (∀ o own, OwnInput itemId device m o → (os ++ [o]).map OpInput.data <+: datas →
          (m.applyOwnOp o own).2.isOk) ∧
        (os.map OpInput.data = datas →
          ∃ out, m.encode = .ok out ∧ out.length ≤ Limits.v1.snapshotData) := by
  obtain ⟨hperm, himport⟩ := checkImport_eq_ok h
  obtain ⟨hflat, hfirst, hops⟩ := splitOps_spec himport
  refine ⟨⟨hperm, himport.ascending⟩, hflat, hfirst, fun op hop => ?_, fun trashed => ?_⟩
  · obtain ⟨hne, hcount, hbytes⟩ := hops op hop
    obtain ⟨data, hdata, hlen⟩ := splitOps_data himport op hop
    exact ⟨hne, hcount, data, _, hdata, hlen, hbytes⟩
  · obtain ⟨datas, hdatas, hwrites, hrules⟩ := exists_importData himport trashed
    exact ⟨datas, hdatas, fun itemId device os m hrun hos =>
      importRun_spec himport hwrites hrules hrun hos⟩

/-! ### A login of two fields, imported and trashed -/

def sampleWrites : List ImportedWrite :=
  [(.entered, itemTypeKey, (Value.enumeration 1).bytes),
    (.entered, keyName "item.name", [ValueType.text.id, 120])]

def sampleSorted : List ImportedWrite :=
  match checkImport (fun _ => true) ⟨1⟩ sampleWrites with
  | .ok sorted => sorted
  | .error _ => []

def sampleDatas : List OpData :=
  match importData sampleSorted true with
  | .ok datas => datas
  | .error _ => []

def sampleCreate : OpInput :=
  .sample (.sample 1 1) ⟨5⟩ [] (sampleDatas.headD ⟨.active, []⟩)

def sampleTrash : OpInput :=
  .sample (.sample 1 2) ⟨6⟩ [.sample 1 1] (sampleDatas.getLastD ⟨.active, []⟩)

def sampleCreated : ItemMerge :=
  ((ItemMerge.new ⟨0⟩).applyOwnOp sampleCreate ⟨true, false⟩).1

def sampleTrashed : ItemMerge := (sampleCreated.applyOwnOp sampleTrash ⟨false, false⟩).1

theorem sampleTrashed_ownRun :
    OwnRun ⟨0⟩ ⟨1⟩ [sampleCreate, sampleTrash] sampleTrashed := by
  have hcreate : OwnInput ⟨0⟩ ⟨1⟩ (ItemMerge.new ⟨0⟩) sampleCreate :=
    ⟨rfl, rfl, rfl, by decide +kernel, by decide +kernel⟩
  have htrash : OwnInput ⟨0⟩ ⟨1⟩ sampleCreated sampleTrash :=
    ⟨rfl, rfl, rfl, by decide +kernel, by decide +kernel⟩
  exact (OwnRun.new.applyOwnOp hcreate _).applyOwnOp htrash _

theorem accepted_import_sample :
    splitOps sampleSorted = [createOrder sampleSorted] ∧ (createOrder sampleSorted).length = 2 ∧
      sampleTrashed.lifecycle = .trashed ∧
      ∃ out, sampleTrashed.encode = .ok out ∧ out.length ≤ Limits.v1.snapshotData := by
  have hcheck : checkImport (fun _ => true) ⟨1⟩ sampleWrites = .ok sampleSorted := by
    decide +kernel
  obtain ⟨-, -, -, -, hrun⟩ := accepted_import hcheck
  obtain ⟨datas, hdatas, hrun⟩ := hrun true
  have hops : importData sampleSorted true =
      .ok ([sampleCreate, sampleTrash].map OpInput.data) := by decide +kernel
  obtain rfl := Except.ok.inj (hdatas.symm.trans hops)
  exact ⟨by decide +kernel, by decide +kernel, by decide +kernel,
    (hrun _ _ _ _ sampleTrashed_ownRun List.prefix_rfl).2 rfl⟩

end RizzyVault.Client.Items
