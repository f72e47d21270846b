import RizzyVault.Client.OwnOps

/-!
# Removing a list element

A removal clears every attribute of the element this client may write. It is refused when that
clears no content attribute, since the element would still exist; the guard misses the mix where
some content is cleared and the secret of a share, which this client never writes, stays.

## Main definitions

* `registerAt`: the current values and the history of a key.
* `KeepsSecret`: the element displays the secret of a share.

## Main results

* `element_removed_iff`: applied as one own operation, a removal removes the element and changes no
  other register exactly when the element does not keep a share's secret.
* `element_kept_share`: a share with a secret and another attribute stays displayed.
-/

open RizzyVault.Core RizzyVault.Sync RizzyVault.Lib

namespace RizzyVault.Client.Lists

open Std (ExtTreeMap ExtTreeSet)

/-- The current values and the history an item holds at a key. -/
def registerAt (m : ItemMerge) (k : Bytes) : List Val × List Val :=
  match m.state.shape with
  | .live l => (lookup l.regs k, lookup l.hist k)
  | .tomb t => (lookup t.late k, [])

/-- The element displays the secret of a share, which this client never writes. -/
def KeepsSecret (m : ItemMerge) (list element : Bytes) : Prop :=
  ∃ key ∈ keysOfElement (fieldsOf m) list element, list = listShare ∧ key.attr = some attrSecret ∧
    ∃ v, m.fieldValue key.text = some v ∧ v.bytes ≠ []

/-- The writes of a removal as the own operation takes them. -/
def rawElementWrites (writes : List ElementWrite) : List (Bytes × Bytes) :=
  writes.map fun w => (w.1.text, w.2.bytes)

variable {isNfc : String → Bool} {m m' : ItemMerge} {list element : Bytes}
  {writes : List ElementWrite} {op : OpInput} {own : OwnWrite} {applied : Applied}

theorem mem_writesWithLifecycle {o : OpInput} (h : o.data.lifecycle = .active)
    {w : Bytes × Bytes} :
    w ∈ o.held.writesWithLifecycle ↔ w = (lifecycleKey, [1]) ∨ w ∈ rawWrites o.data := by
  have hmarker : o.held.lifecycle = .active := h
  rw [HeldOp.writesWithLifecycle, hmarker, List.mem_append]
  exact or_congr_left List.mem_singleton

/-- The keys a removal writes: the lifecycle key and the attributes this client may write. -/
theorem mem_writes_of_removal
    (hok : elementRemovalWrites isNfc (fieldsOf m) list element = .ok writes)
    (hdata : ownOpData .active (rawElementWrites writes) = .ok op.data) {k w : Bytes} :
    (k, w) ∈ op.held.writesWithLifecycle ↔ (k, w) = (lifecycleKey, [1]) ∨
      w = [] ∧ ∃ key ∈ keysOfElement (fieldsOf m) list element,
        ¬ neverWritten isNfc key ∧ key.text = k := by
  rw [mem_writesWithLifecycle (ownOpData_eq_ok hdata).1, mem_rawWrites hdata,
    (elementRemovalWrites_eq_ok hok).2, rawElementWrites, List.map_map]
  refine or_congr_right ?_
  simp only [List.mem_map, List.mem_filter, Function.comp_apply, Bool.not_eq_true', Prod.mk.injEq,
    Value.bytes_cleared, Bool.not_eq_true]
  constructor
  · rintro ⟨key, ⟨hkey, hnever⟩, rfl, rfl⟩
    exact ⟨rfl, key, hkey, hnever, rfl⟩
  · rintro ⟨rfl, key, hkey, hnever, rfl⟩
    exact ⟨key, ⟨hkey, hnever⟩, rfl, rfl⟩

/-- Registers with the same current values display the same. -/
theorem fieldValue_congr {l l' : Live} (hl : m.state.shape = .live l)
    (hl' : m'.state.shape = .live l') (key : FieldKey)
    (h : lookup l'.regs key.bytes = lookup l.regs key.bytes) :
    m'.fieldValue key.bytes = m.fieldValue key.bytes := by
  rw [fieldValue_eq hl, fieldValue_eq hl', h]

/-- A field that displays a value that is not empty has a current value that is not empty. -/
theorem exists_current_of_fieldValue {l : Live} (hl : m.state.shape = .live l) {key : FieldKey}
    {v : Value} (hv : m.fieldValue key.bytes = some v) (hne : v.bytes ≠ []) :
    ∃ u ∈ lookup l.regs key.bytes, u.value ≠ [] := by
  rw [fieldValue_eq hl, Option.bind_eq_some_iff] at hv
  obtain ⟨b, hb, hcopy⟩ := hv
  have hcur : lookup l.regs key.bytes ≠ [] := by
    intro hnil
    rw [hnil] at hb
    cases hb
  obtain ⟨u, hu, hshown, -⟩ := shownValue_spec hcur
  refine ⟨u, hu, ?_⟩
  obtain rfl := Option.some.inj (hb.symm.trans hshown)
  have hcopy' : Value.copyFromEncoded u.value = .ok v := by
    cases hc : Value.copyFromEncoded u.value with
    | error e =>
      rw [hc] at hcopy
      cases hcopy
    | ok w =>
      rw [hc] at hcopy
      exact congrArg _ (Option.some.inj hcopy)
  rwa [← Value.copyFromEncoded_eq_ok.mp hcopy']

/-- The keys of an item after an own operation are keys of the record layer. -/
theorem KeysValid.wrote {l l' : Live} (h : KeysValid l) (hw : Wrote op l l') : KeysValid l' := by
  intro k hk
  rcases hw.keys k hk with hk | hk | hk
  · exact h k (.inl hk)
  · exact h k (.inr hk)
  · obtain ⟨w, hw, rfl⟩ := List.mem_map.mp hk
    rcases List.mem_append.mp hw with hw | hw
    · obtain ⟨v, -, rfl⟩ := Option.map_eq_some_iff.mp (Option.mem_toList.mp hw)
      exact ⟨FieldKey.lifecycle, rfl⟩
    · obtain ⟨w', -, rfl⟩ := List.mem_map.mp hw
      exact ⟨w'.key, rfl⟩

/-- A key of the list that is shown and not written keeps what it displays. -/
theorem fieldValue_of_not_written {l l' : Live} (hl : m.state.shape = .live l)
    (hl' : m'.state.shape = .live l') (hvalid : KeysValid l) (hw : Wrote op l l') {k : Bytes}
    (hk : k ∈ l.regs.keys) (hnot : k ∉ op.held.writesWithLifecycle.map Prod.fst) :
    m'.fieldValue k = m.fieldValue k := by
  obtain ⟨key, rfl⟩ := hvalid k (.inl hk)
  exact fieldValue_congr hl hl' key (hw.frame _ hnot).1

/-- Applied as one own operation to any state of an item, a removal removes the element and changes
no other register exactly when the element keeps no share's secret. The operation's own marker
goes to the lifecycle register. -/
theorem element_removed_iff (itemId : ItemId) (calls : List Call)
    (hm : m = (ItemMerge.new itemId).callAll calls)
    (hok : elementRemovalWrites isNfc (fieldsOf m) list element = .ok writes)
    (hdata : ownOpData .active (rawElementWrites writes) = .ok op.data)
    (happ : m.applyOwnOp op own = (m', .ok applied)) :
    (element ∉ (listElements (fieldsOf m') list).map ListElement.element ∧
        ∀ k, keyOfElement list element k = none → k ≠ lifecycleKey →
          registerAt m' k = registerAt m k) ↔
      ¬ KeepsSecret m list element := by
  have hcov : Covered m := hm ▸ covered_callAll itemId calls
  obtain ⟨hactive, -, hrules⟩ := ownOpData_eq_ok hdata
  have hshown := (elementRemovalWrites_eq_ok hok).1
  obtain ⟨key₀, hkey₀, -⟩ := hshown
  obtain ⟨l, hl, hvalid⟩ := live_of_mem_fieldKeys (mem_keysOfElement.mp hkey₀).1
  have hp : op.data.lifecycle ≠ .purge := by simp [hactive]
  obtain ⟨l', hl', hwrote⟩ := applyOwnOp_live hcov hrules.wellFormed hp hl happ
  have hvalid' := hvalid.wrote hwrote
  have hkeys : ∀ {k}, k ∈ (fieldsOf m).keys ↔ k ∈ l.regs.keys ∧ k ≠ lifecycleKey :=
    mem_fieldKeys hl hvalid
  have hkeys' : ∀ {k}, k ∈ (fieldsOf m').keys ↔ k ∈ l'.regs.keys ∧ k ≠ lifecycleKey :=
    mem_fieldKeys hl' hvalid'
  -- A key of the element this client never writes is not written.
  have hnever : ∀ key ∈ keysOfElement (fieldsOf m) list element, neverWritten isNfc key →
      key.text ∉ op.held.writesWithLifecycle.map Prod.fst := by
    intro key hkey hn hmem
    obtain ⟨⟨k, w⟩, hw, rfl⟩ := List.mem_map.mp hmem
    rcases (mem_writes_of_removal hok hdata).mp hw with heq | ⟨-, key', -, hn', htext⟩
    · exact (hkeys.mp (mem_keysOfElement.mp hkey).1).2 (congrArg Prod.fst heq)
    · exact hn' (FieldKeyRef.ext htext ▸ hn)
  have hframe : ∀ k, keyOfElement list element k = none → k ≠ lifecycleKey →
      registerAt m' k = registerAt m k := by
    intro k hk hne
    have hnot : k ∉ op.held.writesWithLifecycle.map Prod.fst := by
      intro hmem
      obtain ⟨⟨k', w⟩, hw, rfl⟩ := List.mem_map.mp hmem
      rcases (mem_writes_of_removal hok hdata).mp hw with heq | ⟨-, key, hkey, -, htext⟩
      · exact hne (congrArg Prod.fst heq)
      · obtain ⟨-, hlist, helement⟩ := mem_keysOfElement.mp hkey
        rw [keyOfElement_eq_some.mpr ⟨htext, hlist, helement⟩] at hk
        cases hk
    obtain ⟨hr, hh⟩ := hwrote.frame k hnot
    simp only [registerAt, hl, hl', hr, hh]
  rw [and_iff_left hframe, not_iff_not, List.mem_map]
  constructor
  · -- What still displays was not written: the secret of a share.
    rintro ⟨e, he, rfl⟩
    obtain ⟨⟨key, hkey, hrole, v, hv, hne⟩, -⟩ := mem_listElements.mp he
    obtain ⟨htext, hlist, helement⟩ := mem_keysOfElement.mp hkey
    obtain ⟨hk', hlife⟩ := hkeys'.mp htext
    obtain ⟨fk, hfk⟩ := hvalid' _ (.inl hk')
    have hv' : m'.fieldValue fk.bytes = some v := hfk ▸ hv
    obtain ⟨u, hu, hune⟩ := exists_current_of_fieldValue hl' hv' hne
    rw [hfk] at hu
    have hnot : key.text ∉ op.held.writesWithLifecycle.map Prod.fst := by
      intro hmem
      obtain ⟨⟨k', w⟩, hw, hkw⟩ := List.mem_map.mp hmem
      obtain rfl : k' = key.text := hkw
      have huw := hwrote.current _ w hw u hu
      rcases (mem_writes_of_removal hok hdata).mp hw with heq | ⟨rfl, -⟩
      · exact hlife (congrArg Prod.fst heq)
      · exact hune (congrArg Val.value huw)
    have hold : key.text ∈ l.regs.keys :=
      mem_keys_of_mem_lookup ((hwrote.frame _ hnot).1 ▸ hu)
    have hmem : key ∈ keysOfElement (fieldsOf m) list e.element :=
      mem_keysOfElement.mpr ⟨hkeys.mpr ⟨hold, hlife⟩, hlist, helement⟩
    have hn : neverWritten isNfc key := by
      by_contra hn
      exact hnot (List.mem_map.mpr ⟨(key.text, []),
        (mem_writes_of_removal hok hdata).mpr (.inr ⟨rfl, key, hmem, hn, rfl⟩), rfl⟩)
    obtain ⟨hshare, hsecret⟩ := neverWritten_iff.mp hn
    refine ⟨key, hmem, Option.some.inj (hlist.symm.trans hshare), hsecret, v, ?_, hne⟩
    rw [← fieldValue_of_not_written hl hl' hvalid hwrote hold hnot]
    exact hv
  · rintro ⟨key, hkey, rfl, hsecret, v, hv, hne⟩
    obtain ⟨htext, hlist, helement⟩ := mem_keysOfElement.mp hkey
    obtain ⟨hold, hlife⟩ := hkeys.mp htext
    have hnot := hnever key hkey (neverWritten_iff.mpr ⟨hlist, hsecret⟩)
    have hv' : m'.fieldValue key.text = some v := by
      rw [fieldValue_of_not_written hl hl' hvalid hwrote hold hnot, hv]
    obtain ⟨fk, hfk⟩ := hvalid _ (.inl hold)
    obtain ⟨u, hu, -⟩ := exists_current_of_fieldValue hl (hfk ▸ hv : m.fieldValue fk.bytes = _) hne
    have hk' : key.text ∈ l'.regs.keys := by
      rw [hfk, ← (hwrote.frame _ hnot).1] at hu
      exact mem_keys_of_mem_lookup hu
    have hrole : attributeRole key.attr = .content := by
      rw [hsecret]
      decide +kernel
    refine ⟨⟨element, keysOfElement (fieldsOf m') listShare element⟩,
      mem_listElements.mpr ⟨⟨key, ?_, hrole, v, hv', hne⟩, rfl⟩, rfl⟩
    exact mem_keysOfElement.mpr ⟨hkeys'.mpr ⟨hk', hlife⟩, hlist, helement⟩

/-! ### A removal that removes and one that does not -/

/-- Every ASCII text is normalized. -/
def asciiNfc : String → Bool := fun _ => true

/-- The data of an own operation, none of the writes if they make no operation. -/
def dataOf (writes : List (Bytes × Bytes)) : OpData :=
  match ownOpData .active writes with
  | .ok data => data
  | .error _ => ⟨.active, []⟩

/-- The writes of a removal, none if it is refused. -/
def removalOf (m : ItemMerge) (list element : Bytes) : List ElementWrite :=
  match elementRemovalWrites asciiNfc (fieldsOf m) list element with
  | .ok writes => writes
  | .error _ => []

/-- An element of the lists below. -/
def sampleElement : Bytes := keyName "ab"

/-- An item another device wrote, and this device's removal of an element of it. -/
def removalFrom (writes : List (Bytes × Bytes)) (list : Bytes) : List Call × OpInput :=
  let calls : List Call := [.applyOp (.sample (.sample 1 1) ⟨5⟩ [] (dataOf writes))]
  let m := (ItemMerge.new ⟨0⟩).callAll calls
  (calls, .sample (.sample 2 1) ⟨6⟩ [.sample 1 1]
    (dataOf (rawElementWrites (removalOf m list sampleElement))))

/-- The address of a login. -/
def uriRemoval : List Call × OpInput :=
  removalFrom [(keyName "uri/ab/order", [6, 1]), (keyName "uri/ab/value", 1 :: keyName "x")] listUri

/-- A share with a note a newer client added to its secret. -/
def shareRemoval : List Call × OpInput :=
  removalFrom [(keyName "share/ab/note", 1 :: keyName "x"), (keyName "share/ab/secret", [2, 1])]
    listShare

/-- The login before and after the removal of its address. -/
def uriItem : ItemMerge := (ItemMerge.new ⟨0⟩).callAll uriRemoval.1

def uriItemAfter : ItemMerge := (uriItem.applyOwnOp uriRemoval.2 ⟨false, false⟩).1

theorem element_removed_iff_uri :
    sampleElement ∉ (listElements (fieldsOf uriItemAfter) listUri).map ListElement.element ∧
      ∀ k, keyOfElement listUri sampleElement k = none → k ≠ lifecycleKey →
        registerAt uriItemAfter k = registerAt uriItem k :=
  have hok : elementRemovalWrites asciiNfc (fieldsOf uriItem) listUri sampleElement =
      .ok (removalOf uriItem listUri sampleElement) := by decide +kernel
  have hdata : ownOpData .active (rawElementWrites (removalOf uriItem listUri sampleElement)) =
      .ok uriRemoval.2.data := by decide +kernel
  have happlied : (uriItem.applyOwnOp uriRemoval.2 ⟨false, false⟩).2 =
      .ok ⟨.applied, none, none⟩ := by decide +kernel
  have happ : uriItem.applyOwnOp uriRemoval.2 ⟨false, false⟩ =
      (uriItemAfter, .ok ⟨.applied, none, none⟩) := by rw [← happlied, uriItemAfter]
  have hitem : uriItem = (ItemMerge.new ⟨0⟩).callAll uriRemoval.1 := by rw [uriItem]
  have hlist : listUri ≠ listShare := by decide +kernel
  (element_removed_iff ⟨0⟩ uriRemoval.1 hitem hok hdata happ).mpr fun ⟨_, _, h, _⟩ => hlist h

/-- The removal of the share clears its note, and the share stays displayed. -/
theorem element_kept_share :
    let m := (ItemMerge.new ⟨0⟩).callAll shareRemoval.1
    let after := m.applyOwnOp shareRemoval.2 ⟨false, false⟩
    elementRemovalWrites asciiNfc (fieldsOf m) listShare sampleElement =
        .ok (removalOf m listShare sampleElement) ∧
      rawElementWrites (removalOf m listShare sampleElement) = [(keyName "share/ab/note", [])] ∧
      ownOpData .active [(keyName "share/ab/note", [])] = .ok shareRemoval.2.data ∧
      after.2 = .ok ⟨.applied, none, none⟩ ∧
      sampleElement ∈ (listElements (fieldsOf after.1) listShare).map ListElement.element := by
  decide +kernel

end RizzyVault.Client.Lists
