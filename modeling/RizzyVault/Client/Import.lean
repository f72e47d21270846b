import RizzyVault.Client.OwnOps
import RizzyVault.Core.Item.Schema
import RizzyVault.Lib.Batches
import RizzyVault.Lib.Sorted

/-!
# Importing an item

The writes of an imported item are checked as a whole before its first operation, among them that
the item fits one snapshot, and go into as few consecutive operations as the limits allow. The type
and the time of creation are in the first.

## Main definitions

* `checkImport`: the checks of an imported item.
* `splitOps`: its operations.

## Main results

* `checkImport_eq_ok`: what an item that passes has.
* `splitOps_spec`: the operations carry the writes once, each within the limits.
* `ownOpData_of_valid`: each is the data of an own operation.

## References

* `crates/rizzy-client/src/items.rs`.
-/

open RizzyVault.Core RizzyVault.Sync RizzyVault.Lib
open RizzyVault.Client.Lists

namespace RizzyVault.Client.Items

/-- One write of an imported item, with where it comes from. -/
abbrev ImportedWrite := WriteSource × Bytes × Bytes

/-- One write as the own operation takes it. -/
abbrev RawWrite := Bytes × Bytes

def opDataHeaderLen : ℕ := 4

def writeOverhead : ℕ := 8

def registerOverhead : ℕ := 42

def snapshotMargin : ℕ := 4096

/-- The bytes of a write in the data of an operation. -/
def writeLen (w : RawWrite) : ℕ := writeOverhead + w.1.length + w.2.length

/-- The keys the create operation writes. -/
def isFirst (key : Bytes) : Bool := key = itemTypeKey || key = importCreatedMs

/-- Adds a write to the operation being filled, whose bytes are counted. -/
def addWrite (acc : List (List RawWrite) × List RawWrite × ℕ) (w : ImportedWrite) :
    List (List RawWrite) × List RawWrite × ℕ :=
  let (ops, current, bytes) := acc
  let full := Limits.v1.writes ≤ current.length || Limits.v1.opData < bytes + writeLen w.2
  if full && !current.isEmpty then (ops ++ [current], [w.2], opDataHeaderLen + writeLen w.2)
  else (ops, current ++ [w.2], bytes + writeLen w.2)

/-- The operations of a new item from its writes sorted by key. -/
def splitOps (sorted : List ImportedWrite) : List (List RawWrite) :=
  let ordered := (sorted.filter fun w => isFirst w.2.1) ++ sorted.filter fun w => !isFirst w.2.1
  let (ops, current, _) := ordered.foldl addWrite ([], [], opDataHeaderLen)
  if current.isEmpty then ops else ops ++ [current]

/-- The checks every imported item passes before its first operation; gives the writes sorted. -/
def checkImport (isNfc : String → Bool) (itemType : ItemType) (writes : List ImportedWrite) :
    Except EditError (List ImportedWrite) :=
  if !itemType.supported.any SupportedType.isUserItem then .error .invalidEdit
  else
    let sorted := writes.insertionSort fun a b => a.2.1 ≤ b.2.1
    if (sorted.zip sorted.tail).any fun e => e.1.2.1 = e.2.2.1 then .error .invalidEdit
    else
      match checkCreate isNfc itemType .import sorted with
      | .error _ => .error .invalidEdit
      | .ok () =>
        -- The item must fit one snapshot, where the lifecycle register is one of its registers.
        let snapshotLen := sorted.foldl
          (fun sum w => sum + registerOverhead + w.2.1.length + w.2.2.length) snapshotMargin
        if Limits.v1.groups ≤ sorted.length || Limits.v1.snapshotData < snapshotLen then
          .error .invalidEdit
        else .ok sorted

/-! ### What passes -/

/-- A write of a new item: a key of the grammar, and a value within the limit. -/
structure ValidWrite (w : RawWrite) : Prop where
  key : grammarKey w.1 = .ok ()
  value : w.2.length ≤ Limits.v1.value

/-- The bytes of a register of one value in a snapshot. -/
def registerLen (w : RawWrite) : ℕ := registerOverhead + w.1.length + w.2.length

/-- What an item that passes its checks has. -/
structure Importable (sorted : List ImportedWrite) : Prop where
  ascending : sorted.Pairwise fun a b => a.2.1 < b.2.1
  valid : ∀ w ∈ sorted, ValidWrite w.2
  typed : ∃ w ∈ sorted, w.2.1 = itemTypeKey
  count : sorted.length < Limits.v1.groups
  fits : snapshotMargin + ((sorted.map Prod.snd).map registerLen).sum ≤ Limits.v1.snapshotData

theorem grammarKey_of_parseKey {bytes : Bytes} {layout : KeyLayout}
    (h : parseKey bytes = .ok layout) : grammarKey bytes = .ok () := by
  rw [grammarKey, h]

theorem checkImport_eq_ok {isNfc : String → Bool} {itemType : ItemType}
    {writes sorted : List ImportedWrite} (h : checkImport isNfc itemType writes = .ok sorted) :
    sorted.Perm writes ∧ Importable sorted := by
  simp only [checkImport] at h
  split_ifs at h with htype hne hlimit
  · split at h <;> cases h
  have hsort := pairwise_le_insertionSort (fun w : ImportedWrite => w.2.1) writes
  have hperm : (writes.insertionSort fun a b => a.2.1 ≤ b.2.1).Perm writes :=
    List.perm_insertionSort _ _
  generalize writes.insertionSort (fun a b => a.2.1 ≤ b.2.1) = l at h hne hlimit hsort hperm
  split at h
  · cases h
  · rename_i hcreate
    cases h
    obtain ⟨hall, htyped⟩ := checkCreate_eq_ok_iff.mp hcreate
    simp only [Bool.or_eq_true, decide_eq_true_eq, not_or, not_le, not_lt] at hlimit
    have hchain := (isChain_of_zip_tail (Bool.eq_false_iff.mpr hne)).imp
      fun _ _ => of_decide_eq_false
    refine ⟨hperm, pairwise_lt_of_neighbours (fun w : ImportedWrite => w.2.1) hsort hchain,
      fun w hw => ?_, htyped, hlimit.1, ?_⟩
    · obtain ⟨⟨layout, hkey⟩, hvalue⟩ := key_value_of_checkSource (hall w hw)
      exact ⟨grammarKey_of_parseKey hkey, hvalue⟩
    · have hsum : ∀ (l : List ImportedWrite) (n : ℕ), l.foldl
          (fun sum w => sum + registerOverhead + w.2.1.length + w.2.2.length) n =
            n + ((l.map Prod.snd).map registerLen).sum := by
        intro l
        induction l with
        | nil => exact fun n => rfl
        | cons w l ih =>
          intro n
          rw [List.foldl_cons, ih, List.map_cons, List.map_cons, List.sum_cons, registerLen]
          omega
      rw [← hsum]
      exact hlimit.2

/-! ### The operations -/

/-- The bytes of the data of an operation. -/
def opBytes (op : List RawWrite) : ℕ := opDataHeaderLen + (op.map writeLen).sum

/-- Whether an operation is full for a write. -/
def opFull (op : List RawWrite) (w : RawWrite) : Bool :=
  Limits.v1.writes ≤ op.length || Limits.v1.opData < opBytes op + writeLen w

/-- The writes of a new item in the order of its operations. -/
def createOrder (sorted : List ImportedWrite) : List RawWrite :=
  ((sorted.filter fun w => isFirst w.2.1) ++ sorted.filter fun w => !isFirst w.2.1).map Prod.snd

theorem opBytes_append (op : List RawWrite) (w : RawWrite) :
    opBytes (op ++ [w]) = opBytes op + writeLen w := by
  rw [opBytes, opBytes, List.map_append, List.sum_append, List.map_singleton, List.sum_singleton,
    Nat.add_assoc]

/-- The operations are filled in turn, the bytes counted being those of the current one. -/
theorem splitOps_eq (sorted : List ImportedWrite) :
    splitOps sorted = batches opFull (createOrder sorted) := by
  have h : ∀ (l : List ImportedWrite) (ops : List (List RawWrite)) (current : List RawWrite),
      ∃ bytes, l.foldl addWrite (ops, current, opBytes current) =
        (((l.map Prod.snd).foldl (addToBatch opFull) (ops, current)).1,
          ((l.map Prod.snd).foldl (addToBatch opFull) (ops, current)).2, bytes) := by
    intro l
    induction l with
    | nil => exact fun ops current => ⟨_, rfl⟩
    | cons w l ih =>
      intro ops current
      have hstep : addWrite (ops, current, opBytes current) w =
          ((addToBatch opFull (ops, current) w.2).1, (addToBatch opFull (ops, current) w.2).2,
            opBytes (addToBatch opFull (ops, current) w.2).2) := by
        have hadd : addWrite (ops, current, opBytes current) w =
            if !current.isEmpty && opFull current w.2 then
              (ops ++ [current], [w.2], opDataHeaderLen + writeLen w.2)
            else (ops, current ++ [w.2], opBytes current + writeLen w.2) := by
          simp only [addWrite, opFull, Bool.and_comm]
          rfl
        rw [hadd, addToBatch]
        split_ifs
        · rfl
        · rw [opBytes_append]
      rw [List.foldl_cons, List.map_cons, List.foldl_cons, hstep]
      exact ih _ _
  obtain ⟨bytes, hfold⟩ := h ((sorted.filter fun w => isFirst w.2.1) ++
    sorted.filter fun w => !isFirst w.2.1) [] []
  have hstart : opBytes [] = opDataHeaderLen := rfl
  rw [hstart] at hfold
  rw [splitOps, hfold]
  rfl

/-- The writes in the order of the operations are those of the item. -/
theorem createOrder_perm (sorted : List ImportedWrite) :
    (createOrder sorted).Perm (sorted.map Prod.snd) :=
  (List.filter_append_perm _ _).map _

theorem mem_createOrder {sorted : List ImportedWrite} {w : RawWrite} :
    w ∈ createOrder sorted ↔ ∃ source, (source, w) ∈ sorted := by
  rw [(createOrder_perm sorted).mem_iff, List.mem_map]
  exact ⟨fun ⟨⟨source, _⟩, hw, rfl⟩ => ⟨source, hw⟩, fun ⟨source, hw⟩ => ⟨_, hw, rfl⟩⟩

/-- A single write is far below the limit. -/
theorem ValidWrite.writeLen_le {w : RawWrite} (h : ValidWrite w) : writeLen w ≤ 65704 := by
  have hkey : w.1.length ≤ 160 := by
    have := Record.length_bytes_le ⟨w.1, .inr h.key⟩
    exact this
  have hvalue : w.2.length ≤ 65536 := h.value
  rw [writeLen, writeOverhead]
  omega

/-- At most two writes come first. -/
theorem length_first_le {sorted : List ImportedWrite} (h : Importable sorted) :
    (sorted.filter fun w => isFirst w.2.1).length ≤ 2 := by
  have hnodup : ((sorted.filter fun w => isFirst w.2.1).map fun w => w.2.1).Nodup := by
    rw [List.Nodup, List.pairwise_map]
    exact (h.ascending.filter _).imp ne_of_lt
  have hsub : (sorted.filter fun w => isFirst w.2.1).map (fun w => w.2.1) ⊆
      [itemTypeKey, importCreatedMs] := by
    intro k hk
    obtain ⟨w, hw, rfl⟩ := List.mem_map.mp hk
    have hfirst := (List.mem_filter.mp hw).2
    simpa [isFirst] using hfirst
  simpa using (hnodup.subperm hsub).length_le

/-- The operations carry every write once, the keys of the create operation in the first, and each
holds some, within the limits. -/
theorem splitOps_spec {sorted : List ImportedWrite} (h : Importable sorted) :
    (splitOps sorted).flatten = createOrder sorted ∧
      (∃ first rest, splitOps sorted = first :: rest ∧
        ∀ w ∈ sorted, isFirst w.2.1 → w.2 ∈ first) ∧
      ∀ op ∈ splitOps sorted, op ≠ [] ∧ op.length ≤ Limits.v1.writes ∧
        opBytes op ≤ Limits.v1.opData := by
  have hvalid : ∀ w ∈ createOrder sorted, writeLen w ≤ 65704 := by
    intro w hw
    obtain ⟨source, hw⟩ := mem_createOrder.mp hw
    exact (h.valid _ hw).writeLen_le
  rw [splitOps_eq]
  refine ⟨flatten_batches, ?_, forall_mem_batches (fun w hw => ?_) fun op w hw hop hfull => ?_⟩
  · have hcut : createOrder sorted = (sorted.filter fun w => isFirst w.2.1).map Prod.snd ++
        (sorted.filter fun w => !isFirst w.2.1).map Prod.snd := List.map_append
    obtain ⟨w₀, hw₀, hkey₀⟩ := h.typed
    have hne : (sorted.filter fun w => isFirst w.2.1).map Prod.snd ≠ [] := by
      refine List.ne_nil_of_mem (List.mem_map.mpr ⟨w₀, List.mem_filter.mpr ⟨hw₀, ?_⟩, rfl⟩)
      simp [isFirst, hkey₀]
    have hfull : ∀ op w, op ++ [w] <+: (sorted.filter fun w => isFirst w.2.1).map Prod.snd →
        opFull op w = false := by
      -- The second of two writes never finds the operation full.
      intro op w hop
      have hlen : (op ++ [w]).length ≤ 2 := by
        have := hop.length_le
        rw [List.length_map] at this
        exact this.trans (length_first_le h)
      have hmem : ∀ u ∈ op ++ [w], writeLen u ≤ 65704 := by
        intro u hu
        refine hvalid u ?_
        rw [hcut]
        exact List.mem_append_left _ (hop.subset hu)
      have hw := hmem w (by simp)
      have hsum : (op.map writeLen).sum ≤ op.length * 65704 := by
        refine (List.sum_le_card_nsmul _ 65704 fun n hn => ?_).trans (by simp)
        obtain ⟨u, hu, rfl⟩ := List.mem_map.mp hn
        exact hmem u (List.mem_append_left _ hu)
      rw [List.length_append, List.length_singleton] at hlen
      have hop : op.length ≤ 1 := by omega
      have hone : op.length * 65704 ≤ 65704 := by omega
      refine Bool.or_eq_false_iff.mpr ⟨decide_eq_false ?_, decide_eq_false ?_⟩
      · show ¬ 1024 ≤ op.length
        omega
      · show ¬ 2 ^ 20 < 4 + (op.map writeLen).sum + writeLen w
        omega
    obtain ⟨first, rest, hfirst, hprefix⟩ := exists_first_batch hne hfull
    refine ⟨first, rest, (congrArg _ hcut).trans hfirst, fun w hw hkey => hprefix.subset ?_⟩
    exact List.mem_map.mpr ⟨w, List.mem_filter.mpr ⟨hw, hkey⟩, rfl⟩
  · have hlen := hvalid w hw
    simp only [opBytes, opDataHeaderLen, Limits.v1, List.length_singleton, List.map_singleton,
      List.sum_singleton]
    omega
  · simp only [opFull, Bool.or_eq_false_iff, decide_eq_false_iff_not] at hfull
    rw [opBytes_append, List.length_append, List.length_singleton]
    omega

/-! ### The data of an operation -/

theorem length_putBytes (x : Bytes) : (Record.putBytes x).length = 4 + x.length := by
  rw [Record.putBytes, List.length_append, length_beBytes]

/-- The bytes counted are those of the data. -/
theorem length_putOp (data : OpData) : (Record.putOp data).length = opBytes (rawWrites data) := by
  have hwrites : ∀ ws : List Write, (ws.flatMap Record.putWrite).length =
      ((ws.map fun w => (w.key.bytes, w.value)).map writeLen).sum := by
    intro ws
    induction ws with
    | nil => rfl
    | cons w ws ih =>
      rw [List.flatMap_cons, List.length_append, ih, List.map_cons, List.map_cons, List.sum_cons,
        Record.putWrite, List.length_append, length_putBytes, length_putBytes, writeLen,
        writeOverhead]
      simp only
      omega
  rw [Record.putOp, Record.putCount, List.length_append, List.length_append, List.length_append,
    length_beBytes, length_beBytes, length_beBytes, hwrites, opBytes, rawWrites, opDataHeaderLen]
  omega

theorem repeatsKey_eq_false {sorted : List RawWrite} (h : (sorted.map Prod.fst).Nodup) :
    repeatsKey sorted = false := by
  unfold repeatsKey
  induction sorted with
  | nil => rfl
  | cons a l ih =>
    cases l with
    | nil => rfl
    | cons b l =>
      obtain ⟨hnot, hnodup⟩ := List.nodup_cons.mp h
      have hne : a.1 ≠ b.1 := fun heq => hnot (heq ▸ List.mem_cons_self)
      rw [List.tail_cons, List.zip_cons_cons, List.any_cons, decide_eq_false hne, Bool.false_or]
      exact ih hnodup

theorem pairwise_sortedWrites {op : List RawWrite} (h : (op.map Prod.fst).Nodup) :
    (sortedWrites op).Pairwise fun a b => a.1 < b.1 := by
  have hsorted : (sortedWrites op).Pairwise fun a b => a.1 ≤ b.1 :=
    pairwise_le_insertionSort (fun w : RawWrite => w.1) op
  have hperm : (sortedWrites op).Perm op := List.perm_insertionSort _ _
  have hne := List.pairwise_map.mp ((hperm.map Prod.fst).nodup_iff.mpr h)
  exact hsorted.imp₂ (fun _ _ => lt_of_le_of_ne) hne

/-- Valid writes of distinct keys within the limits are the data of an own operation. -/
theorem ownOpData_of_valid {op : List RawWrite} (hvalid : ∀ w ∈ op, ValidWrite w)
    (hnodup : (op.map Prod.fst).Nodup) (hcount : op.length ≤ Limits.v1.writes)
    (hbytes : opBytes op ≤ Limits.v1.opData) {lifecycle : Lifecycle}
    (hactive : op ≠ [] → lifecycle = .active) :
    ∃ data, ownOpData lifecycle op = .ok data ∧ Record.opLen data Limits.v1 = .ok (opBytes op) := by
  have hperm : (sortedWrites op).Perm op := List.perm_insertionSort _ _
  have hkeys : ((sortedWrites op).map Prod.fst).Nodup := (hperm.map Prod.fst).nodup_iff.mpr hnodup
  have hwrite : ∀ w ∈ sortedWrites op, ∃ out, ownWrite w = .ok out := by
    intro w hw
    have hkey := (hvalid w (hperm.mem_iff.mp hw)).key
    exact ⟨⟨⟨w.1, .inr hkey⟩, w.2⟩, ownWrite_eq_ok.mpr ⟨rfl, hkey⟩⟩
  obtain ⟨ws, hws⟩ := exists_mapM_eq_ok hwrite
  have hraw : ws.map (fun w => (w.key.bytes, w.value)) = sortedWrites op := raw_of_mapM hws
  have hrules : Record.OpRules Limits.v1 ⟨lifecycle, ws⟩ := by
    have hmem : ∀ w ∈ ws, (w.key.bytes, w.value) ∈ op := fun w hw =>
      hperm.mem_iff.mp (hraw ▸ List.mem_map.mpr ⟨w, hw, rfl⟩)
    have hlen : ws.length = op.length := by
      rw [← hperm.length_eq, ← hraw, List.length_map]
    refine ⟨⟨?_, fun w hw => ?_, fun hne => hactive fun hnil => hne ?_⟩, hlen.trans_le hcount,
      fun w hw => (hvalid _ (hmem w hw)).value, ?_⟩
    · have hsorted := pairwise_sortedWrites hnodup
      rw [← hraw, List.pairwise_map] at hsorted
      exact hsorted
    · intro hlife
      have hkey := (hvalid _ (hmem w hw)).key
      rw [hlife] at hkey
      cases hkey
    · exact List.length_eq_zero_iff.mp (hlen.trans (by rw [hnil]; rfl))
    · rw [length_putOp, rawWrites, hraw, opBytes, ((hperm.map writeLen).sum_eq)]
      exact hbytes
  have hencode : Record.encodeOp ⟨lifecycle, ws⟩ = .ok (Record.putOp ⟨lifecycle, ws⟩) :=
    Record.encodeOp_eq_ok_iff.mpr ⟨hrules, rfl⟩
  have hparse : Record.parseOp (Record.putOp ⟨lifecycle, ws⟩) = .ok ⟨lifecycle, ws⟩ :=
    (Record.parse_eq_ok_iff_rules.1 _ _).mpr ⟨hrules, rfl⟩
  refine ⟨⟨lifecycle, ws⟩, ?_, ?_⟩
  · simp only [ownOpData, repeatsKey_eq_false hkeys, Bool.false_eq_true, if_false, hws]
    simp only [bind, Except.bind, hencode, hparse]
  · have hsize : opBytes op = (Record.putOp ⟨lifecycle, ws⟩).length := by
      rw [length_putOp, rawWrites, hraw, opBytes, opBytes, ((hperm.map writeLen).sum_eq)]
    exact Record.opLen_eq_ok_iff.mpr ⟨⟨hrules.count, hrules.values⟩, hsize,
      hbytes, hbytes.trans_lt (by decide)⟩

end RizzyVault.Client.Items
