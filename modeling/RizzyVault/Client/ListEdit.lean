import RizzyVault.Client.ListOrder
import RizzyVault.Client.Removal

/-!
# A list after an edit

The operations of an edit carry the places of its plan and its other writes: those that clear the
removed elements and those that fill the new ones. Once they are written, the item displays the
list in the order asked for.

## Main definitions

* `ItemFields.write`, `ItemFields.writeOps`: an item once operations are written.
* `OtherWrites`: what the other writes of an edit do.

## Main results

* `fields_applyOwnOp`: one own operation on an item is its writes.
* `orderOf_eq_some`: the value the `order` of an element displays.
* `edited_list_order`: the order displayed after an edit.

## References

* `crates/rizzy-client/src/lists.rs`.
-/

open RizzyVault.Core RizzyVault.Sync RizzyVault.Lib

namespace RizzyVault.Client.Lists

/-! ### Writing -/

namespace ItemFields

/-- The item once a field is written. -/
def write (f : ItemFields) (w : ElementWrite) : ItemFields where
  keys := if w.1.text ∈ f.keys then f.keys else f.keys.orderedInsert (· ≤ ·) w.1.text
  value := Function.update f.value w.1.text (some w.2)

def writes (f : ItemFields) (ws : List ElementWrite) : ItemFields := ws.foldl write f

/-- The item once operations are written in turn. -/
def writeOps (f : ItemFields) (ops : List (List ElementWrite)) : ItemFields := ops.foldl writes f

variable {f g : ItemFields} {ws : List ElementWrite} {k : Bytes}

theorem writeOps_eq (f : ItemFields) (ops : List (List ElementWrite)) :
    f.writeOps ops = f.writes ops.flatten :=
  List.foldl_flatten.symm

theorem mem_keys_writes :
    k ∈ (f.writes ws).keys ↔ k ∈ f.keys ∨ k ∈ ws.map fun w => w.1.text := by
  induction ws generalizing f with
  | nil => simp [writes]
  | cons w ws ih =>
    have hstep : k ∈ (f.write w).keys ↔ k ∈ f.keys ∨ k = w.1.text := by
      unfold write
      split_ifs with hmem
      · exact ⟨.inl, fun h => h.elim id fun h => h ▸ hmem⟩
      · rw [List.mem_orderedInsert, or_comm]
    change k ∈ ((f.write w).writes ws).keys ↔ _
    rw [ih, hstep, List.map_cons, List.mem_cons, or_assoc]

/-- What a field displays after writes depends on what it displayed alone. -/
theorem value_writes_congr (h : f.value k = g.value k) :
    (f.writes ws).value k = (g.writes ws).value k := by
  induction ws generalizing f g with
  | nil => exact h
  | cons w ws ih =>
    refine ih ?_
    simp only [write, Function.update_apply, h]

theorem value_writes_of_notMem (h : k ∉ ws.map fun w => w.1.text) :
    (f.writes ws).value k = f.value k := by
  induction ws generalizing f with
  | nil => rfl
  | cons w ws ih =>
    obtain ⟨hne, hnot⟩ := List.ne_and_not_mem_of_not_mem_cons h
    refine (ih hnot).trans ?_
    exact Function.update_of_ne hne _ _

theorem value_writes_of_mem {v : Value} (h : ∃ w ∈ ws, w.1.text = k)
    (hall : ∀ w ∈ ws, w.1.text = k → w.2 = v) : (f.writes ws).value k = some v := by
  induction ws generalizing f with
  | nil => simp at h
  | cons w ws ih =>
    by_cases hrest : ∃ w ∈ ws, w.1.text = k
    · exact ih hrest fun w hw => hall w (List.mem_cons_of_mem _ hw)
    · obtain ⟨w', hw', hk⟩ := h
      obtain rfl : w' = w := (List.mem_cons.mp hw').resolve_right fun h => hrest ⟨w', h, hk⟩
      have hnot : k ∉ ws.map fun w => w.1.text := fun h => by
        obtain ⟨u, hu, huk⟩ := List.mem_map.mp h
        exact hrest ⟨u, hu, huk⟩
      change ((f.write w').writes ws).value k = _
      rw [value_writes_of_notMem hnot, ← hall w' List.mem_cons_self hk, ← hk]
      exact Function.update_self _ _ _

end ItemFields

/-! ### An own operation writes -/

section OwnOperation

variable {m m' : ItemMerge} {o : OpInput} {own : OwnWrite} {applied : Applied} {l l' : Live}

/-- No operation the item knows of was written on one that is still to be applied. -/
def Causal (m : ItemMerge) (d : Dot) : Prop :=
  ∀ u facts, m.headers[u]? = some facts → u ≠ d → ¬ facts.context.covers d

theorem headers_applyOwnOp (h : m.applyOwnOp o own = (m', .ok applied)) {u : Dot}
    {facts : HeaderFacts} (hu : m'.headers[u]? = some facts) (hne : u ≠ o.dot) :
    m.headers[u]? = some facts := by
  rcases m.applyOwnOp_cases o own with ⟨e, he⟩ | ⟨-, -, -, kind, due, hkind, he⟩
  · rw [he] at h
    cases h
  · rw [he] at h
    obtain ⟨rfl, -⟩ := Prod.mk.inj h
    rcases m.mergeBody_cases o with ⟨e, hb⟩ | ⟨m₁, hrecord, hb⟩
    · rw [hb] at hkind
      cases hkind
    · have hsame : (m.mergeBody o).1.headers = m₁.headers := by
        rw [hb]
        rcases m₁.mergeRecorded_cases o with ⟨-, hr⟩ | ⟨-, -, hr⟩ | ⟨-, -, -, hr⟩ | ⟨-, -, -, hr⟩ <;>
          rw [hr] <;> rfl
      rw [hsame] at hu
      exact (((ItemMerge.recordHeader_ok hrecord).2 u facts).mp hu).resolve_right fun h => hne h.1.symm

/-- An own operation leaves its value current at every key it writes. -/
theorem applyOwnOp_current (hm : Covered m) (hwf : o.data.WellFormed)
    (hp : o.data.lifecycle ≠ .purge) (hl : m.state.shape = .live l) (hcausal : Causal m o.dot)
    (h : m.applyOwnOp o own = (m', .ok applied)) (hl' : m'.state.shape = .live l') {k w : Bytes}
    (hw : (k, w) ∈ o.held.writesWithLifecycle) :
    (⟨o.dot, o.header.hlc, w⟩ : Val) ∈ lookup l'.regs k := by
  obtain ⟨-, hnot, -, -⟩ := applyOwnOp_joins hm h
  obtain rfl := Shape.live.inj ((applyOwnOp_shape hm hp hl h).symm.trans hl')
  have hkeys : k ∈ keysOf [opRegs o.held, ∅] :=
    mem_keysOf_opRegs.mpr (List.mem_map.mpr ⟨(k, w), hw, rfl⟩)
  have hold : ∀ u ∈ l.valuesAt k, u.dot ≠ o.dot := by
    intro u hu heq
    have hcov : m.state.vv.covers u.dot := hm.1 k u (by rw [hl]; exact hu)
    exact hnot (heq ▸ hcov)
  have hval : (⟨opRegs o.held, ∅⟩ : Live).valuesAt k = [⟨o.dot, o.header.hlc, w⟩] :=
    valuesAt_opRegs hwf.held hw
  rw [(lookup_joinLiveInto l ⟨opRegs o.held, ∅⟩ m'.evidence k).1, if_pos hkeys, hval]
  refine mem_maximal_fst.mpr ⟨⟨List.mem_append_right _ List.mem_cons_self, fun u hu hdot => ?_⟩,
    fun u hu => ?_⟩
  · rcases List.mem_append.mp hu with hu | hu
    · exact absurd hdot (hold u hu)
    · rw [List.mem_singleton.mp hu]
  · rintro ⟨hne, context, hcontext, hcovers⟩
    obtain ⟨facts, hfacts, rfl⟩ := Option.map_eq_some_iff.mp hcontext
    exact hcausal u.dot facts (headers_applyOwnOp h hfacts hne) hne hcovers

/-- One own operation on an item is its writes: the keys shown and what they display, but for the
register of the operation's own marker. -/
theorem fields_applyOwnOp {ws : List ElementWrite} (hm : Covered m)
    (hl : m.state.shape = .live l) (hvalid : KeysValid l) (hcausal : Causal m o.dot)
    (hdata : ownOpData .active (rawElementWrites ws) = .ok o.data)
    (h : m.applyOwnOp o own = (m', .ok applied)) {k : Bytes} (hk : k ≠ lifecycleKey) :
    (k ∈ (fieldsOf m').keys ↔ k ∈ ((fieldsOf m).writes ws).keys) ∧
      (k ∈ (fieldsOf m').keys → (fieldsOf m').value k = ((fieldsOf m).writes ws).value k) := by
  obtain ⟨hactive, -, hrules⟩ := ownOpData_eq_ok hdata
  have hp : o.data.lifecycle ≠ .purge := by simp [hactive]
  obtain ⟨l', hl', hwrote⟩ := applyOwnOp_live hm hrules.wellFormed hp hl h
  have hvalid' := hvalid.wrote hwrote
  have hkeys : k ∈ (fieldsOf m).keys ↔ k ∈ l.regs.keys ∧ k ≠ lifecycleKey := mem_fieldKeys hl hvalid
  have hkeys' : k ∈ (fieldsOf m').keys ↔ k ∈ l'.regs.keys ∧ k ≠ lifecycleKey :=
    mem_fieldKeys hl' hvalid'
  have hwrites : ∀ v, (k, v) ∈ o.held.writesWithLifecycle ↔
      ∃ w ∈ ws, w.1.text = k ∧ w.2.bytes = v := by
    intro v
    rw [mem_writesWithLifecycle hactive, mem_rawWrites hdata, rawElementWrites, List.mem_map,
      or_iff_right fun h => hk (congrArg Prod.fst h)]
    simp only [Prod.mk.injEq]
  have hwritten : k ∈ o.held.writesWithLifecycle.map Prod.fst ↔
      k ∈ ws.map fun w => w.1.text := by
    constructor
    · intro hmem
      obtain ⟨⟨_, v⟩, hv, rfl⟩ := List.mem_map.mp hmem
      obtain ⟨w, hw, htext, -⟩ := (hwrites v).mp hv
      exact List.mem_map.mpr ⟨w, hw, htext⟩
    · intro hmem
      obtain ⟨w, hw, htext⟩ := List.mem_map.mp hmem
      exact List.mem_map.mpr ⟨(k, w.2.bytes), (hwrites _).mpr ⟨w, hw, htext, rfl⟩, rfl⟩
  rw [hkeys', ItemFields.mem_keys_writes, hkeys, and_iff_left hk, and_iff_left hk, ← hwritten]
  by_cases hmem : k ∈ o.held.writesWithLifecycle.map Prod.fst
  · obtain ⟨v, hv⟩ : ∃ v, (k, v) ∈ o.held.writesWithLifecycle := by
      obtain ⟨⟨k', v⟩, hv, hkv⟩ := List.mem_map.mp hmem
      exact ⟨v, (show k' = k from hkv) ▸ hv⟩
    have hcur := applyOwnOp_current hm hrules.wellFormed hp hl hcausal h hl' hv
    have hin := mem_keys_of_mem_lookup hcur
    refine ⟨iff_of_true hin (.inr hmem), fun _ => ?_⟩
    obtain ⟨key, hkey⟩ := hvalid' _ (.inl hin)
    obtain ⟨w, hw, htext, hbytes⟩ := (hwrites v).mp hv
    obtain ⟨u, hu, hshown, -⟩ := shownValue_spec (List.ne_nil_of_mem hcur)
    have huv : u.value = v := congrArg Val.value (hwrote.current _ v hv u hu)
    have hvalue : (fieldsOf m').value k = some w.2 := by
      change m'.fieldValue k = some w.2
      rw [← hkey] at hshown ⊢
      rw [fieldValue_eq hl', hshown, huv, Option.bind_some,
        Value.copyFromEncoded_eq_ok.mpr hbytes]
      rfl
    rw [hvalue]
    refine (ItemFields.value_writes_of_mem ⟨w, hw, htext⟩ fun w' hw' htext' => ?_).symm
    have heq := List.inj_on_of_nodup_map hrules.wellFormed.held
      ((hwrites _).mpr ⟨w', hw', htext', rfl⟩) hv rfl
    exact Value.ext ((congrArg Prod.snd heq).trans hbytes.symm)
  · have hnot : k ∉ ws.map fun w => w.1.text := mt hwritten.mpr hmem
    have hold : k ∈ l'.regs.keys ↔ k ∈ l.regs.keys := by
      have hsame : (joinLiveInto l ⟨opRegs o.held, ∅⟩ m'.evidence).regs[k]? = l.regs[k]? :=
        getElem?_joinLiveInto (mt mem_keysOf_opRegs.mp hmem)
      have hjoin := Shape.live.inj ((applyOwnOp_shape hm hp hl h).symm.trans hl')
      rw [hjoin] at hsame
      rw [Std.ExtTreeMap.mem_keys_iff, Std.ExtTreeMap.mem_keys_iff, hsame]
    rw [hold, or_iff_left hmem]
    refine ⟨Iff.rfl, fun hin => ?_⟩
    rw [ItemFields.value_writes_of_notMem hnot]
    exact fieldValue_of_not_written hl hl' hvalid hwrote hin hmem

end OwnOperation

/-! ### What an element displays -/

variable {f g : ItemFields} {list element : Bytes}

/-- The value the `order` of an element displays. -/
theorem orderOf_eq_some {v : Value} :
    orderOf f list element = some v ↔ ∃ key : FieldKeyRef, key.text ∈ f.keys ∧
      key.list = some list ∧ key.element = some element ∧ key.attr = some attrOrder ∧
        f.value key.text = some v := by
  have hmem : ∀ e, e ∈ shownAttributes f (keysOfElement f list element) ↔
      ∃ key : FieldKeyRef, (key.text ∈ f.keys ∧ key.list = some list ∧
        key.element = some element) ∧ ∃ v, f.value key.text = some v ∧ (key.attr, v) = e := by
    intro e
    simp only [shownAttributes, List.mem_filterMap, mem_keysOfElement, Option.map_eq_some_iff]
  unfold orderOf
  rw [Option.map_eq_some_iff]
  constructor
  · rintro ⟨e, he, rfl⟩
    obtain ⟨key, ⟨hkey, hlist, helement⟩, v, hv, rfl⟩ := (hmem e).mp (List.mem_of_find?_eq_some he)
    have hattr : key.attr = some attrOrder := by simpa using List.find?_some he
    exact ⟨key, hkey, hlist, helement, hattr, hv⟩
  · rintro ⟨key, hkey, hlist, helement, hattr, hv⟩
    have hfound : (key.attr, v) ∈ shownAttributes f (keysOfElement f list element) :=
      (hmem _).mpr ⟨key, ⟨hkey, hlist, helement⟩, v, hv, rfl⟩
    obtain ⟨e, he⟩ : ∃ e, (shownAttributes f (keysOfElement f list element)).find?
        (fun e => e.1 = some attrOrder) = some e := by
      rw [← Option.isSome_iff_exists, List.find?_isSome]
      exact ⟨_, hfound, decide_eq_true hattr⟩
    refine ⟨e, he, ?_⟩
    -- The parts of a key spell it, so no other key is the `order` of the element.
    obtain ⟨key', ⟨-, hlist', helement'⟩, v', hv', rfl⟩ :=
      (hmem e).mp (List.mem_of_find?_eq_some he)
    have hattr' : key'.attr = some attrOrder := by simpa using List.find?_some he
    have htext : key'.text = key.text := by
      rw [(FieldKeyRef.text_eq hlist helement).2, (FieldKeyRef.text_eq hlist' helement').2, hattr,
        hattr']
    rw [htext, hv] at hv'
    exact (Option.some.inj hv').symm

/-- Items that show the same `order` of an element give it the same place. -/
theorem orderOf_congr (h : ∀ key : FieldKeyRef, key.list = some list →
    key.element = some element → key.attr = some attrOrder →
      (key.text ∈ f.keys ↔ key.text ∈ g.keys) ∧ f.value key.text = g.value key.text) :
    orderOf f list element = orderOf g list element := by
  refine Option.ext fun v => ?_
  rw [orderOf_eq_some, orderOf_eq_some]
  refine exists_congr fun key => ⟨?_, ?_⟩
  · rintro ⟨hkey, hlist, helement, hattr, hv⟩
    obtain ⟨hk, hval⟩ := h key hlist helement hattr
    exact ⟨hk.mp hkey, hlist, helement, hattr, hval ▸ hv⟩
  · rintro ⟨hkey, hlist, helement, hattr, hv⟩
    obtain ⟨hk, hval⟩ := h key hlist helement hattr
    exact ⟨hk.mpr hkey, hlist, helement, hattr, hval ▸ hv⟩

/-- Items that show the same content of an element agree on whether it exists. -/
theorem shows_congr (h : ∀ key : FieldKeyRef, key.list = some list →
    key.element = some element → attributeRole key.attr = .content →
      (key.text ∈ f.keys ↔ key.text ∈ g.keys) ∧ f.value key.text = g.value key.text) :
    Shows f list element ↔ Shows g list element := by
  refine exists_congr fun key => ?_
  rw [mem_keysOfElement, mem_keysOfElement]
  constructor
  · rintro ⟨⟨hkey, hlist, helement⟩, hrole, v, hv, hne⟩
    obtain ⟨hk, hval⟩ := h key hlist helement hrole
    exact ⟨⟨hk.mp hkey, hlist, helement⟩, hrole, v, hval ▸ hv, hne⟩
  · rintro ⟨⟨hkey, hlist, helement⟩, hrole, v, hv, hne⟩
    obtain ⟨hk, hval⟩ := h key hlist helement hrole
    exact ⟨⟨hk.mpr hkey, hlist, helement⟩, hrole, v, hval ▸ hv, hne⟩

/-! ### The order displayed -/

/-- What the writes of an edit beside its plan do: they touch no element kept, what they leave of
the others is the new elements, and each new element has the place of the plan. -/
structure OtherWrites (f : ItemFields) (list : Bytes) (kept ids : List Bytes)
    (newOrders : List SortKey) (others : List ElementWrite) : Prop where
  length : ids.length = newOrders.length
  distinct : ids.Nodup
  fresh : ∀ e ∈ ids, e ∉ kept
  untouched : ∀ w ∈ others, ∀ e ∈ kept, ¬ (w.1.list = some list ∧ w.1.element = some e)
  shows : ∀ e, Shows (f.writes others) list e ↔ e ∈ kept ∨ e ∈ ids
  orders : ∀ (i : ℕ) (id : Bytes) (key : SortKey), ids[i]? = some id → newOrders[i]? = some key →
    orderOf (f.writes others) list id = some (Value.sortKey key)

/-- The element of a name, the new ones having been given `ids`. -/
def elementOf (ids : List Bytes) : SlotName → Bytes
  | .inl e => e
  | .inr i => ids.getD i []

/-- The element as the list order sees it. -/
def entryFor (f : ItemFields) (list e : Bytes) : ListEntry := ⟨(orderOf f list e).map Value.bytes, e⟩

variable {removed ids : List Bytes} {added : ℕ} {moves : List ListMove} {plan : OrderPlan}
  {others : List ElementWrite} {out : List Slot}

theorem placeOf_sortKey (key : SortKey) : placeOf (Value.sortKey key) = some key := by
  rw [placeOf, ValueRef.decode_sortKey]
  simp only [key.fromSlice_bytes]
  rfl

/-- A slot of an existing element is one of an element kept. -/
theorem Arranged.mem_kept (h : Arranged (elementOf ids) f list removed added moves plan out)
    {s : Slot} (hs : s ∈ out) {e : Bytes} (he : s.element = some e) :
    e ∈ keptElements f list removed := by
  have hname : s.name ∈ (orderBeforeMoves f list removed added).map Slot.name :=
    h.perm.mem_iff.mp (List.mem_map.mpr ⟨s, hs, rfl⟩)
  obtain ⟨t, ht, hname⟩ := List.mem_map.mp hname
  rcases mem_orderBeforeMoves.mp ht with ⟨e', he', rfl⟩ | ⟨i, -, rfl⟩
  · obtain rfl := Sum.inl_injective (hname.trans (Slot.name_eq_inl.mpr he))
    exact he'
  · cases hname.trans (Slot.name_eq_inl.mpr he)

/-- The key of a place is that of the element it was planned for. -/
theorem parts_of_order {e : Bytes} (hkept : e ∈ keptElements f list removed) {key : FieldKeyRef}
    (htext : key.text = elementKey list e (some attrOrder)) :
    key.list = some list ∧ key.element = some e ∧ key.attr = some attrOrder := by
  obtain ⟨key', hkey', -⟩ := (mem_keptElements.mp hkept).1
  obtain ⟨-, hlist, helement⟩ := mem_keysOfElement.mp hkey'
  have hparts := (FieldKeyRef.text_eq hlist helement).1
  have hattr : ∀ a ∈ some attrOrder, isName a := fun a ha => by
    cases ha
    decide
  obtain ⟨h₁, h₂, h₃, -⟩ := FieldKeyRef.parts_eq ⟨hparts.list, hparts.element, hattr⟩ htext
  exact ⟨h₁, h₂, h₃⟩

/-- A write of the plan gives an element kept the place of its slot. -/
theorem Arranged.write (h : Arranged (elementOf ids) f list removed added moves plan out)
    {w : ElementWrite} (hw : w ∈ plan.writes) :
    ∃ s ∈ out, s.placed ∧ ∃ e ∈ keptElements f list removed, ∃ key, s.element = some e ∧
      s.key = some key ∧ w.2 = Value.sortKey key ∧ w.1.list = some list ∧
        w.1.element = some e ∧ w.1.attr = some attrOrder := by
  obtain ⟨s, hs, hp, e, key, he, hkey, htext, hvalue⟩ := (h.gives.writes w).mp hw
  have hkept := h.mem_kept hs he
  exact ⟨s, hs, hp, e, hkept, key, he, hkey, hvalue, parts_of_order hkept htext⟩

/-- The item once the plan and the other writes of an edit are written. -/
def edited (f : ItemFields) (plan : OrderPlan) (others : List ElementWrite) : ItemFields :=
  f.writes (plan.writes ++ others)

theorem edited_eq (f : ItemFields) (plan : OrderPlan) (others : List ElementWrite) :
    edited f plan others = (f.writes plan.writes).writes others :=
  List.foldl_append

/-- What the plan does not write is as the other writes leave it. -/
theorem edited_of_notMem_plan {k : Bytes} (h : k ∉ plan.writes.map fun w => w.1.text) :
    (k ∈ (edited f plan others).keys ↔ k ∈ (f.writes others).keys) ∧
      (edited f plan others).value k = (f.writes others).value k := by
  rw [edited_eq, ItemFields.mem_keys_writes, ItemFields.mem_keys_writes,
    ItemFields.mem_keys_writes, or_iff_left h]
  exact ⟨Iff.rfl, ItemFields.value_writes_congr (ItemFields.value_writes_of_notMem h)⟩

/-- What the other writes do not touch is as the plan leaves it. -/
theorem edited_of_notMem_others {k : Bytes} (h : k ∉ others.map fun w => w.1.text) :
    (k ∈ (edited f plan others).keys ↔ k ∈ (f.writes plan.writes).keys) ∧
      (edited f plan others).value k = (f.writes plan.writes).value k := by
  rw [edited_eq, ItemFields.mem_keys_writes, or_iff_left h]
  exact ⟨Iff.rfl, ItemFields.value_writes_of_notMem h⟩

section

variable (ho : OtherWrites f list (keptElements f list removed) ids plan.newOrders others)
  (ha : Arranged (elementOf ids) f list removed added moves plan out)

include ho ha

theorem shows_edited {e : Bytes} :
    Shows (edited f plan others) list e ↔ e ∈ keptElements f list removed ∨ e ∈ ids := by
  rw [← ho.shows]
  refine shows_congr fun key _ _ hrole => edited_of_notMem_plan fun hmem => ?_
  obtain ⟨w, hw, htext⟩ := List.mem_map.mp hmem
  obtain ⟨-, -, -, -, -, -, -, -, -, -, -, hattr⟩ := ha.write hw
  rw [← FieldKeyRef.ext htext, hattr] at hrole
  exact absurd hrole (by decide)

omit ha in
theorem notMem_others {e : Bytes} (he : e ∈ keptElements f list removed) {key : FieldKeyRef}
    (hlist : key.list = some list) (helement : key.element = some e) :
    key.text ∉ others.map fun w => w.1.text := by
  intro hmem
  obtain ⟨w, hw, htext⟩ := List.mem_map.mp hmem
  rw [← FieldKeyRef.ext htext] at hlist helement
  exact ho.untouched w hw e he ⟨hlist, helement⟩

omit ho in
theorem eq_of_name_eq {s t : Slot} (hs : s ∈ out) (ht : t ∈ out) (h : s.name = t.name) : s = t :=
  List.inj_on_of_nodup_map (ha.perm.nodup_iff.mpr nodup_orderBeforeMoves) hs ht h

/-- An element that is not placed displays the `order` it had. -/
theorem orderOf_edited_unplaced {e : Bytes} (hs : slotFor f list e ∈ out) :
    orderOf (edited f plan others) list e = orderOf f list e := by
  refine orderOf_congr fun key hlist helement _ => ?_
  have hkept := ha.mem_kept hs rfl
  have hplan : key.text ∉ plan.writes.map fun w => w.1.text := by
    intro hmem
    obtain ⟨w, hw, htext⟩ := List.mem_map.mp hmem
    obtain ⟨t, ht, hp, e', -, -, he', -, -, -, hw', -⟩ := ha.write hw
    rw [FieldKeyRef.ext htext, helement] at hw'
    obtain rfl := Option.some.inj hw'
    obtain rfl := eq_of_name_eq ha ht hs (Slot.name_eq_inl.mpr he')
    cases hp
  obtain ⟨hkeys, hvalue⟩ := edited_of_notMem_others (notMem_others ho hkept hlist helement)
  rw [hkeys, hvalue, ItemFields.mem_keys_writes, or_iff_left hplan]
  exact ⟨Iff.rfl, ItemFields.value_writes_of_notMem hplan⟩

/-- An element placed displays the place of its slot. -/
theorem orderOf_edited_placed {s : Slot} (hs : s ∈ out) (hp : s.placed) {e : Bytes}
    (he : s.element = some e) :
    ∃ key, s.key = some key ∧ orderOf (edited f plan others) list e = some (Value.sortKey key) := by
  have hkept := ha.mem_kept hs he
  obtain ⟨w, hw, hwrite⟩ := ha.gives.written s hs hp (by simp [he])
  obtain ⟨-, e', key', he', hkey', htext, -⟩ := hwrite
  obtain rfl := Option.some.inj (he.symm.trans he')
  obtain ⟨hlist, helement, hattr⟩ := parts_of_order hkept htext
  refine ⟨key', hkey', orderOf_eq_some.mpr ⟨w.1, ?_, hlist, helement, hattr, ?_⟩⟩
  · rw [(edited_of_notMem_others (notMem_others ho hkept hlist helement)).1,
      ItemFields.mem_keys_writes]
    exact .inr (List.mem_map.mpr ⟨w, hw, rfl⟩)
  · rw [(edited_of_notMem_others (notMem_others ho hkept hlist helement)).2]
    refine ItemFields.value_writes_of_mem ⟨w, hw, rfl⟩ fun u hu hut => ?_
    -- The slots of two writes of one key are the same.
    obtain ⟨t, ht, -, e', -, key, he', hkey, hvalue, -, helement', -⟩ := ha.write hu
    rw [FieldKeyRef.ext hut, helement] at helement'
    obtain rfl := Option.some.inj helement'
    obtain rfl := eq_of_name_eq ha ht hs
      ((Slot.name_eq_inl.mpr he').trans (Slot.name_eq_inl.mpr he).symm)
    obtain rfl := Option.some.inj (hkey.symm.trans hkey')
    exact hvalue

/-- A new element displays the place of its slot. -/
theorem orderOf_edited_new {s : Slot} (hs : s ∈ out) (hp : s.placed) (he : s.element = none) :
    ∃ key, s.key = some key ∧ orderOf (edited f plan others) list (elementOf ids s.name) =
      some (Value.sortKey key) := by
  obtain ⟨key, hkey⟩ := Option.isSome_iff_exists.mp (ha.gives.keyed s hs hp)
  have hnew : plan.newOrders[s.newIndex]? = some key := (ha.gives.new s hs hp he).trans hkey
  obtain ⟨id, hid⟩ : ∃ id, ids[s.newIndex]? = some id := by
    have hlt := (List.getElem?_eq_some_iff.mp hnew).1
    exact ⟨_, List.getElem?_eq_getElem (ho.length ▸ hlt)⟩
  have hname : elementOf ids s.name = id := by
    rw [Slot.name_eq_inr.mpr ⟨he, rfl⟩, elementOf, List.getD_eq_getElem?_getD, hid]
    rfl
  refine ⟨key, hkey, ?_⟩
  rw [hname, ← ho.orders _ _ _ hid hnew]
  refine orderOf_congr fun k _ helement _ => edited_of_notMem_plan fun hmem => ?_
  obtain ⟨w, hw, htext⟩ := List.mem_map.mp hmem
  obtain ⟨-, -, -, e, hkept, -, -, -, -, -, helement', -⟩ := ha.write hw
  rw [FieldKeyRef.ext htext, helement] at helement'
  obtain rfl := Option.some.inj helement'
  exact ho.fresh id (List.mem_of_getElem? hid) hkept

/-- Every slot of the order sorts as its element does after the edit. -/
theorem rank_edited {s : Slot} (hs : s ∈ out) :
    s.rank (elementOf ids) =
      (entryFor (edited f plan others) list (elementOf ids s.name)).rank := by
  have hkey : s.key =
      (orderOf (edited f plan others) list (elementOf ids s.name)).bind placeOf := by
    cases hp : s.placed with
    | false =>
      obtain ⟨e, rfl⟩ := ha.kept s hs (by rw [hp]; rfl)
      have horder := orderOf_edited_unplaced ho ha hs
      exact congrArg (Option.bind · placeOf) horder.symm
    | true =>
      cases he : s.element with
      | none =>
        obtain ⟨key, hkey, horder⟩ := orderOf_edited_new ho ha hs hp he
        rw [horder, hkey, Option.bind_some, placeOf_sortKey]
      | some e =>
        obtain ⟨key, hkey, horder⟩ := orderOf_edited_placed ho ha hs hp he
        rw [Slot.name_eq_inl.mpr he, elementOf, horder, hkey, Option.bind_some, placeOf_sortKey]
  rw [Slot.rank, ListEntry.rank, hkey]
  have hsort := sortKey_entryOf (orderOf (edited f plan others) list (elementOf ids s.name),
    ⟨elementOf ids s.name, []⟩)
  have hentry : (entryFor (edited f plan others) list (elementOf ids s.name)).sortKey =
      ((orderOf (edited f plan others) list (elementOf ids s.name)).bind placeOf).map
        SortKey.bytes := hsort
  rw [hentry]
  cases (orderOf (edited f plan others) list (elementOf ids s.name)).bind placeOf <;> rfl

theorem mem_names {e : Bytes} :
    e ∈ (out.map Slot.name).map (elementOf ids) ↔
      e ∈ keptElements f list removed ∨ e ∈ ids := by
  have hadded : ids.length = added := ho.length.trans ha.gives.length
  have hnames : ∀ n : SlotName, n ∈ out.map Slot.name ↔
      (∃ e ∈ keptElements f list removed, n = .inl e) ∨ ∃ i < added, n = .inr i := by
    intro n
    rw [ha.perm.mem_iff, List.mem_map]
    simp only [mem_orderBeforeMoves]
    constructor
    · rintro ⟨s, ⟨e, he, rfl⟩ | ⟨i, hi, rfl⟩, rfl⟩
      · exact .inl ⟨e, he, rfl⟩
      · exact .inr ⟨i, hi, rfl⟩
    · rintro (⟨e, he, rfl⟩ | ⟨i, hi, rfl⟩)
      · exact ⟨slotFor f list e, .inl ⟨e, he, rfl⟩, rfl⟩
      · exact ⟨newSlot i, .inr ⟨i, hi, rfl⟩, rfl⟩
  rw [List.mem_map]
  simp only [hnames]
  constructor
  · rintro ⟨n, ⟨e, he, rfl⟩ | ⟨i, hi, rfl⟩, rfl⟩
    · exact .inl he
    · rw [← hadded] at hi
      refine .inr ?_
      rw [elementOf, List.getD_eq_getElem _ _ hi]
      exact List.getElem_mem hi
  · rintro (he | he)
    · exact ⟨.inl e, .inl ⟨e, he, rfl⟩, rfl⟩
    · obtain ⟨i, hi, rfl⟩ := List.mem_iff_getElem.mp he
      refine ⟨.inr i, .inr ⟨i, hadded ▸ hi, rfl⟩, ?_⟩
      rw [elementOf, List.getD_eq_getElem _ _ hi]

/-- The list after the edit is the order of its slots. -/
theorem listElements_edited :
    (listElements (edited f plan others) list).map ListElement.element =
      (orderAfter f list removed added moves).map (elementOf ids) := by
  let lt : Bytes → Bytes → Prop := fun a b =>
    (entryFor (edited f plan others) list a).rank < (entryFor (edited f plan others) list b).rank
  have hshown : ((listElements (edited f plan others) list).map ListElement.element).Pairwise lt := by
    rw [listElements, List.map_map, List.pairwise_map]
    refine (pairwise_displayedElements _ list).imp_of_mem fun {a b} ha hb hlt => ?_
    have hentry : ∀ d ∈ displayedElements (edited f plan others) list,
        entryOf d = entryFor (edited f plan others) list d.2.element := fun d hd => by
      rw [entryOf, (mem_displayedElements hd).2]
      rfl
    rw [hentry a ha, hentry b hb] at hlt
    exact hlt
  have hasked : ((out.map Slot.name).map (elementOf ids)).Pairwise lt := by
    rw [List.map_map, List.pairwise_map]
    refine ha.ascending.imp_of_mem fun {s t} hs ht hlt => ?_
    rwa [rank_edited ho ha hs, rank_edited ho ha ht] at hlt
  have hnodup : ∀ {l : List Bytes}, l.Pairwise lt → l.Nodup := fun h =>
    h.imp fun {a b} (hlt : lt a b) heq => by
      subst heq
      exact lt_irrefl _ hlt
  rw [← ha.names]
  refine List.Perm.eq_of_pairwise (fun a b _ _ hab hba => absurd hab (lt_asymm hba)) hshown hasked
    ((List.perm_ext_iff_of_nodup (hnodup hshown) (hnodup hasked)).mpr fun e => ?_)
  rw [mem_names ho ha, ← shows_edited ho ha, ← shows_iff_any]
  simp

end

/-- Once the operations of an edit are written, the item displays the list in the order asked for;
elements that were not moved keep their place unless the plan rewrites the list; and operations
carry every write once and in order, those with rewritten places within the limit. -/
theorem edited_list_order {isNfc : String → Bool}
    (hplan : planListOrder isNfc f list removed added moves = .ok plan)
    (hothers : OtherWrites f list (keptElements f list removed) ids plan.newOrders others) :
    let ops := if plan.rewritten then splitOrderOps plan.writes others
      else splitOrderOps [] (plan.writes ++ others)
    (listElements (f.writeOps ops) list).map ListElement.element =
        (orderAfter f list removed added moves).map (elementOf ids) ∧
      (!plan.rewritten → ∀ e ∈ keptElements f list removed, (∀ step ∈ moves, step.element ≠ e) →
        orderOf (f.writeOps ops) list e = orderOf f list e) ∧
      ∀ rewrite writes : List ElementWrite,
        (splitOrderOps rewrite writes).flatten = rewrite ++ writes ∧
          ∃ within rest, splitOrderOps rewrite writes = within ++ rest ∧
            (∀ op ∈ within, op.length ≤ maxWritesPerOp) ∧
            (rest = [] ∨ rest = [writes] ∧ within.flatten = rewrite) := by
  intro ops
  obtain ⟨out, harranged⟩ := planListOrder_spec (elementOf ids) (fun _ => rfl) hplan
  have hwritten : f.writeOps ops = edited f plan others := by
    rw [ItemFields.writeOps_eq, edited]
    congr 1
    change (if plan.rewritten then _ else _ : List (List ElementWrite)).flatten = _
    split_ifs
    · exact (splitOrderOps_spec _ _).1
    · exact (splitOrderOps_spec _ _).1
  rw [hwritten]
  refine ⟨listElements_edited hothers harranged, fun hno e he hunmoved => ?_, fun rewrite writes => ?_⟩
  · have hname : Sum.inl e ∈ out.map Slot.name := harranged.perm.mem_iff.mpr
      (List.mem_map.mpr ⟨slotFor f list e, mem_orderBeforeMoves.mpr (.inl ⟨e, he, rfl⟩), rfl⟩)
    obtain ⟨s, hs, hname⟩ := List.mem_map.mp hname
    have helement := Slot.name_eq_inl.mp hname
    cases hp : s.placed with
    | true =>
      obtain ⟨step, hstep, hmoved⟩ := harranged.moved hno s hs hp e helement
      exact absurd hmoved (hunmoved step hstep)
    | false =>
      obtain ⟨e', rfl⟩ := harranged.kept s hs (by rw [hp]; rfl)
      obtain rfl := Option.some.inj helement
      exact orderOf_edited_unplaced hothers harranged hs
  · obtain ⟨hflat, -, hwithin⟩ := splitOrderOps_spec rewrite writes
    exact ⟨hflat, hwithin⟩

/-! ### An edit of the addresses of a login -/

/-- The writes of a field, none if the key is no key. -/
def fieldWrite (name : String) (value : Value) : List ElementWrite :=
  match FieldKeyRef.parse (keyName name) with
  | .ok key => [(key, value)]
  | .error _ => []

/-- The place of one byte. -/
def placeValue (d : Byte) : Value := ⟨[ValueType.sortKey.id, d], by simp [maxValueLen]⟩

def textValue : Value := ⟨[ValueType.text.id, 120], by simp [maxValueLen]⟩

/-- A login with four addresses: the first two have one place, the last has none. -/
def sampleFields : ItemFields :=
  (⟨[], fun _ => none⟩ : ItemFields).writes
    (fieldWrite "uri/aa/order" (placeValue 4) ++ fieldWrite "uri/aa/value" textValue ++
      fieldWrite "uri/bb/order" (placeValue 4) ++ fieldWrite "uri/bb/value" textValue ++
      fieldWrite "uri/cc/order" (placeValue 9) ++ fieldWrite "uri/cc/value" textValue ++
      fieldWrite "uri/dd/value" textValue)

/-- The third address leaves, one joins, and the second moves to the front. -/
def samplePlan : OrderPlan :=
  match planListOrder (fun _ => true) sampleFields listUri [keyName "cc"] 1
    [⟨keyName "bb", .first⟩] with
  | .ok plan => plan
  | .error _ => ⟨[], [], false⟩

/-- The third address is cleared, and the one that joins has a value and its place. -/
def sampleOthers : List ElementWrite :=
  fieldWrite "uri/cc/order" Value.cleared ++ fieldWrite "uri/cc/value" Value.cleared ++
    fieldWrite "uri/ee/value" textValue ++
      samplePlan.newOrders.flatMap fun key => fieldWrite "uri/ee/order" (Value.sortKey key)

theorem sampleOthers_otherWrites :
    OtherWrites sampleFields listUri (keptElements sampleFields listUri [keyName "cc"])
      [keyName "ee"] samplePlan.newOrders sampleOthers := by
  have hkept : keptElements sampleFields listUri [keyName "cc"] =
      [keyName "aa", keyName "bb", keyName "dd"] := by decide +kernel
  have hshown : (listElements (sampleFields.writes sampleOthers) listUri).map ListElement.element =
      [keyName "aa", keyName "bb", keyName "ee", keyName "dd"] := by decide +kernel
  have hnew : ∃ key, samplePlan.newOrders = [key] ∧
      orderOf (sampleFields.writes sampleOthers) listUri (keyName "ee") =
        some (Value.sortKey key) := by
    have hlen : samplePlan.newOrders.length = 1 := by decide +kernel
    obtain ⟨key, hkey⟩ := List.length_eq_one_iff.mp hlen
    have hall : ∀ key ∈ samplePlan.newOrders,
        orderOf (sampleFields.writes sampleOthers) listUri (keyName "ee") =
          some (Value.sortKey key) := by decide +kernel
    exact ⟨key, hkey, hall key (by rw [hkey]; exact List.mem_cons_self)⟩
  obtain ⟨key, horders, horder⟩ := hnew
  refine ⟨by rw [horders]; rfl, by decide +kernel, ?_, ?_, fun e => ?_, fun i id k hid hk => ?_⟩
  · rw [hkept]
    decide +kernel
  · rw [hkept]
    decide +kernel
  · have hmem : Shows (sampleFields.writes sampleOthers) listUri e ↔
        e ∈ (listElements (sampleFields.writes sampleOthers) listUri).map ListElement.element := by
      rw [← shows_iff_any]
      simp
    rw [hmem, hshown, hkept]
    simp only [List.mem_cons, List.not_mem_nil, or_false]
    tauto
  · rw [horders] at hk
    cases i with
    | zero =>
      obtain rfl := Option.some.inj hid
      obtain rfl := Option.some.inj hk
      exact horder
    | succ i => cases hid

theorem edited_list_order_sample :
    let ops := if samplePlan.rewritten then splitOrderOps samplePlan.writes sampleOthers
      else splitOrderOps [] (samplePlan.writes ++ sampleOthers)
    (listElements (sampleFields.writeOps ops) listUri).map ListElement.element =
        [keyName "bb", keyName "aa", keyName "ee", keyName "dd"] ∧
      samplePlan.rewritten = false ∧
        orderOf (sampleFields.writeOps ops) listUri (keyName "aa") =
          orderOf sampleFields listUri (keyName "aa") := by
  have hplan : planListOrder (fun _ => true) sampleFields listUri [keyName "cc"] 1
      [⟨keyName "bb", .first⟩] = .ok samplePlan := by decide +kernel
  obtain ⟨hlist, hkeep, -⟩ := edited_list_order hplan sampleOthers_otherWrites
  have hno : samplePlan.rewritten = false := by decide +kernel
  have hafter : (orderAfter sampleFields listUri [keyName "cc"] 1
      [⟨keyName "bb", .first⟩]).map (elementOf [keyName "ee"]) =
        [keyName "bb", keyName "aa", keyName "ee", keyName "dd"] := by decide +kernel
  have hkept : keyName "aa" ∈ keptElements sampleFields listUri [keyName "cc"] := by
    decide +kernel
  have hunmoved : ∀ step ∈ [(⟨keyName "bb", .first⟩ : ListMove)],
      step.element ≠ keyName "aa" := by decide +kernel
  exact ⟨hlist.trans hafter, hno, hkeep (by rw [hno]; rfl) _ hkept hunmoved⟩

end RizzyVault.Client.Lists
