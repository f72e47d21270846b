import RizzyVault.Core.Item.Order
import RizzyVault.Sync.Merge.Fields

/-!
# The lists of an item

A list of an item is a map from an element to fields `list/element/attribute`. The elements an item
displays are those one of whose content attributes displays a value that is not empty.

## Main definitions

* `ItemFields`: an item as a reader sees it, its keys with what they display.
* `elementKeys`, `displayedElements`, `listElements`: the elements of a list.
* `elementRemovalWrites`: the writes that remove an element.

## Main results

* `elementKeys_spec`: the elements of a list, each once, with their keys.
* `mem_listElements`: an element is listed when a content attribute of it displays a value.

## References

* `crates/rizzy-client/src/lists.rs`.
-/

open RizzyVault.Core RizzyVault.Sync

namespace RizzyVault.Client.Lists

/-- Why an edit of a list is refused. -/
inductive EditError
  | invalidEdit
  | unknownItem
  | internal
  deriving DecidableEq

/-- An item as a reader sees it: the keys of its fields, ascending, and what each displays. -/
structure ItemFields where
  keys : List Bytes
  value : Bytes → Option Value

/-- What the merge of an item shows of it. -/
def fieldsOf (m : ItemMerge) : ItemFields := ⟨m.fieldKeys, m.fieldValue⟩

/-- A field write: the final key and the encoded value. -/
abbrev ElementWrite := FieldKeyRef × Value

/-- One element of a list, as the item displays it. -/
structure ListElement where
  element : Bytes
  keys : List FieldKeyRef
  deriving DecidableEq

/-- Adds a key to the group of its element. -/
def addKey (groups : List (Bytes × List FieldKeyRef)) (element : Bytes) (key : FieldKeyRef) :
    List (Bytes × List FieldKeyRef) :=
  match groups with
  | [] => [(element, [key])]
  | (e, keys) :: rest =>
    if e = element then (e, keys ++ [key]) :: rest else (e, keys) :: addKey rest element key

/-- The key of `list` that `text` spells, with its element. -/
def keyOfList (list text : Bytes) : Option (Bytes × FieldKeyRef) :=
  match FieldKeyRef.parse text with
  | .error _ => none
  | .ok key =>
    match key.list, key.element with
    | some name, some element => if name ≠ list then none else some (element, key)
    | _, _ => none

/-- The keys of the item's registers under `list`, grouped by element, in key order. -/
def elementKeys (f : ItemFields) (list : Bytes) : List (Bytes × List FieldKeyRef) :=
  f.keys.foldl (fun groups text =>
    match keyOfList list text with
    | none => groups
    | some (element, key) => addKey groups element key) []

/-- What the attributes of an element display. -/
def shownAttributes (f : ItemFields) (keys : List FieldKeyRef) : List (Option Bytes × Value) :=
  keys.filterMap fun key => (f.value key.text).map fun value => (key.attr, value)

/-- One element with the value its `order` displays, if it exists. -/
def displayedElement (f : ItemFields) (group : Bytes × List FieldKeyRef) :
    Option (Option Value × ListElement) :=
  let shown := shownAttributes f group.2
  if elementExists (shown.map fun e => (e.1, e.2.bytes)) then
    some ((shown.find? fun e => e.1 = some attrOrder).map Prod.snd, ⟨group.1, group.2⟩)
  else none

/-- An element as the list order sees it. -/
def entryOf (e : Option Value × ListElement) : ListEntry := ⟨e.1.map Value.bytes, e.2.element⟩

/-- The elements of `list` the item displays, in list order, each with the value its `order`
displays. -/
def displayedElements (f : ItemFields) (list : Bytes) : List (Option Value × ListElement) :=
  ((elementKeys f list).filterMap (displayedElement f)).insertionSort fun a b =>
    (compareListEntries (entryOf a) (entryOf b)).isLE

def listElements (f : ItemFields) (list : Bytes) : List ListElement :=
  (displayedElements f list).map Prod.snd

/-- The writes that remove `element` from `list`: cleared to each attribute of it the item holds,
without the keys this client never writes. -/
def elementRemovalWrites (isNfc : String → Bool) (f : ItemFields) (list element : Bytes) :
    Except EditError (List ElementWrite) :=
  if !(listElements f list).any fun e => e.element = element then .error .unknownItem
  else
    let keys := (((elementKeys f list).find? fun e => e.1 = element).map Prod.snd).getD []
    let writes : List ElementWrite :=
      (keys.filter fun key => !neverWritten isNfc key).map fun key => (key, Value.cleared)
    -- At least one content attribute is cleared, or the element would still exist.
    let clearsContent := writes.any fun w => attributeRole w.1.attr = .content
    if clearsContent then .ok writes else .error .invalidEdit

/-! ### The keys of an element -/

variable {f : ItemFields} {list element : Bytes}

theorem keyOfList_eq_some {text : Bytes} {key : FieldKeyRef} :
    keyOfList list text = some (element, key) ↔
      key.text = text ∧ key.list = some list ∧ key.element = some element := by
  unfold keyOfList
  cases hp : FieldKeyRef.parse text with
  | error e =>
    refine iff_of_false (by simp) fun h => ?_
    rw [FieldKeyRef.parse_eq_ok.mpr h.1] at hp
    cases hp
  | ok parsed =>
    have htext := FieldKeyRef.parse_eq_ok.mp hp
    have hkey : key.text = text ↔ parsed = key := by
      rw [← htext, FieldKeyRef.ext_iff, eq_comm]
    rw [hkey]
    cases hlist : parsed.list with
    | none =>
      refine iff_of_false (by simp [hlist]) ?_
      rintro ⟨rfl, h, -⟩
      rw [hlist] at h
      cases h
    | some name =>
      cases helement : parsed.element with
      | none =>
        refine iff_of_false (by simp [hlist, helement]) ?_
        rintro ⟨rfl, -, h⟩
        rw [helement] at h
        cases h
      | some e =>
        by_cases hname : name = list
        · subst hname
          simp only [hlist, helement, ne_eq, not_true_eq_false, if_false, Option.some.injEq,
            Prod.mk.injEq]
          constructor
          · rintro ⟨rfl, rfl⟩
            exact ⟨rfl, hlist, helement⟩
          · rintro ⟨rfl, -, h⟩
            exact ⟨Option.some.inj (helement.symm.trans h), rfl⟩
        · refine iff_of_false (by simp [hlist, helement, hname]) ?_
          rintro ⟨rfl, h, -⟩
          exact hname (Option.some.inj (hlist.symm.trans h))

/-- The key that `text` spells, if it is one of the element. -/
def keyOfElement (list element text : Bytes) : Option FieldKeyRef :=
  (keyOfList list text).bind fun e => if e.1 = element then some e.2 else none

/-- The item's keys of one element, ascending. -/
def keysOfElement (f : ItemFields) (list element : Bytes) : List FieldKeyRef :=
  f.keys.filterMap (keyOfElement list element)

theorem keyOfElement_eq_some {text : Bytes} {key : FieldKeyRef} :
    keyOfElement list element text = some key ↔
      key.text = text ∧ key.list = some list ∧ key.element = some element := by
  rw [← keyOfList_eq_some, keyOfElement, Option.bind_eq_some_iff]
  constructor
  · rintro ⟨⟨e, k⟩, hk, h⟩
    split_ifs at h with he
    cases h
    rwa [← he]
  · intro h
    exact ⟨_, h, if_pos rfl⟩

theorem mem_keysOfElement {key : FieldKeyRef} :
    key ∈ keysOfElement f list element ↔
      key.text ∈ f.keys ∧ key.list = some list ∧ key.element = some element := by
  simp only [keysOfElement, List.mem_filterMap, keyOfElement_eq_some]
  constructor
  · rintro ⟨text, htext, rfl, h⟩
    exact ⟨htext, h⟩
  · rintro ⟨htext, h⟩
    exact ⟨key.text, htext, rfl, h⟩

/-- A key joins the group of its element, a new one last. -/
theorem addKey_map {es : List Bytes} {keys : Bytes → List FieldKeyRef} (hnd : es.Nodup)
    (hnew : element ∉ es → keys element = []) (key : FieldKeyRef) :
    addKey (es.map fun e => (e, keys e)) element key =
      (if element ∈ es then es else es ++ [element]).map fun e =>
        (e, keys e ++ if e = element then [key] else []) := by
  induction es with
  | nil => simp [addKey, hnew List.not_mem_nil]
  | cons e es ih =>
    obtain ⟨hnot, hnd⟩ := List.nodup_cons.mp hnd
    rw [List.map_cons, addKey]
    by_cases he : e = element
    · subst he
      have hrest : ∀ x ∈ es, (x, keys x) = (x, keys x ++ if x = e then [key] else []) := by
        intro x hx
        have hne : x ≠ e := fun h => hnot (h ▸ hx)
        rw [if_neg hne, List.append_nil]
      rw [if_pos rfl, if_pos List.mem_cons_self, List.map_cons, if_pos rfl,
        List.map_congr_left hrest]
    · have hmem : element ∈ e :: es ↔ element ∈ es := by
        rw [List.mem_cons, or_iff_right (Ne.symm he)]
      rw [if_neg he, ih hnd fun h => hnew (mt hmem.mp h)]
      simp only [hmem]
      split_ifs <;> simp [he]

/-- The groups are the elements of the list, each once, with their keys. -/
theorem elementKeys_spec (f : ItemFields) (list : Bytes) :
    ∃ es : List Bytes, es.Nodup ∧ (∀ e, e ∈ es ↔ keysOfElement f list e ≠ []) ∧
      elementKeys f list = es.map fun e => (e, keysOfElement f list e) := by
  -- Over the keys read so far.
  suffices h : ∀ (todo done : List Bytes) (es : List Bytes), es.Nodup →
      (∀ e, e ∈ es ↔ done.filterMap (keyOfElement list e) ≠ []) →
      ∃ es' : List Bytes, es'.Nodup ∧
        (∀ e, e ∈ es' ↔ (done ++ todo).filterMap (keyOfElement list e) ≠ []) ∧
        todo.foldl (fun groups text =>
          match keyOfList list text with
          | none => groups
          | some (element, key) => addKey groups element key)
            (es.map fun e => (e, done.filterMap (keyOfElement list e))) =
          es'.map fun e => (e, (done ++ todo).filterMap (keyOfElement list e)) from
    h f.keys [] [] List.nodup_nil (by simp)
  intro todo
  induction todo with
  | nil =>
    intro done es hnd hmem
    refine ⟨es, hnd, ?_, ?_⟩
    · simpa using hmem
    · simp
  | cons text todo ih =>
    intro done es hnd hmem
    have hdone : done ++ text :: todo = (done ++ [text]) ++ todo := by simp
    have hstep : ∀ e, (done ++ [text]).filterMap (keyOfElement list e) =
        done.filterMap (keyOfElement list e) ++ (keyOfElement list e text).toList := by
      intro e
      rw [List.filterMap_append]
      cases hk : keyOfElement list e text <;> simp [hk]
    rw [hdone, List.foldl_cons]
    cases hk : keyOfList list text with
    | none =>
      have hsame : ∀ e, (done ++ [text]).filterMap (keyOfElement list e) =
          done.filterMap (keyOfElement list e) := by
        intro e
        rw [hstep, keyOfElement, hk]
        simp
      have := ih (done ++ [text]) es hnd (fun e => by rw [hsame]; exact hmem e)
      simpa only [hsame] using this
    | some entry =>
      obtain ⟨element, key⟩ := entry
      have hsame : ∀ e, (done ++ [text]).filterMap (keyOfElement list e) =
          done.filterMap (keyOfElement list e) ++ if e = element then [key] else [] := by
        intro e
        rw [hstep, keyOfElement, hk]
        by_cases he : e = element
        · simp [he]
        · simp [he, Ne.symm he]
      have hnew : element ∉ es → done.filterMap (keyOfElement list element) = [] := fun h =>
        not_not.mp fun hne => h ((hmem element).mpr hne)
      have hnd' : (if element ∈ es then es else es ++ [element]).Nodup := by
        split_ifs with hin
        · exact hnd
        · exact List.nodup_append.mpr ⟨hnd, List.nodup_singleton element,
            fun a ha b hb => by rintro rfl; exact hin (List.mem_singleton.mp hb ▸ ha)⟩
      have hmem' : ∀ e, e ∈ (if element ∈ es then es else es ++ [element]) ↔
          (done ++ [text]).filterMap (keyOfElement list e) ≠ [] := by
        intro e
        rw [hsame]
        by_cases he : e = element
        · subst he
          simp only [if_true]
          split_ifs with hin <;> simp [hin]
        · rw [if_neg he, List.append_nil, ← hmem e]
          split_ifs <;> simp [he]
      have := ih (done ++ [text]) _ hnd' hmem'
      simp only
      rw [addKey_map hnd hnew]
      simpa only [hsame] using this

theorem find?_map_fst {α β : Type*} [DecidableEq α] {es : List α} {g : α → β} {e : α}
    (h : e ∈ es) : (es.map fun e => (e, g e)).find? (fun entry => entry.1 = e) = some (e, g e) := by
  induction es with
  | nil => cases h
  | cons x es ih =>
    rw [List.map_cons, List.find?_cons]
    by_cases hx : x = e
    · subst hx
      simp
    · rw [decide_eq_false hx]
      exact ih ((List.mem_cons.mp h).resolve_left (Ne.symm hx))

/-- The keys of the group found are the keys of the element. -/
theorem keys_of_find? :
    (((elementKeys f list).find? fun e => e.1 = element).map Prod.snd).getD [] =
      keysOfElement f list element := by
  obtain ⟨es, -, hmem, heq⟩ := elementKeys_spec f list
  rw [heq]
  by_cases h : element ∈ es
  · rw [find?_map_fst h]
    rfl
  · have hnone : (es.map fun e => (e, keysOfElement f list e)).find?
        (fun entry => entry.1 = element) = none := by
      rw [List.find?_eq_none]
      intro entry hentry
      obtain ⟨e, he, rfl⟩ := List.mem_map.mp hentry
      exact fun hdec => h (of_decide_eq_true hdec ▸ he)
    rw [hnone, not_not.mp (mt (hmem element).mpr h)]
    rfl

/-! ### The elements displayed -/

/-- Some content attribute of the element displays a value that is not empty. -/
def Shows (f : ItemFields) (list element : Bytes) : Prop :=
  ∃ key ∈ keysOfElement f list element, attributeRole key.attr = .content ∧
    ∃ v, f.value key.text = some v ∧ v.bytes ≠ []

theorem elementExists_shownAttributes {keys : List FieldKeyRef} :
    elementExists ((shownAttributes f keys).map fun e => (e.1, e.2.bytes)) ↔
      ∃ key ∈ keys, attributeRole key.attr = .content ∧
        ∃ v, f.value key.text = some v ∧ v.bytes ≠ [] := by
  simp only [elementExists, shownAttributes, List.any_eq_true, List.mem_map, List.mem_filterMap,
    Option.map_eq_some_iff, Bool.and_eq_true, decide_eq_true_eq, Bool.not_eq_true',
    List.isEmpty_eq_false_iff]
  constructor
  · rintro ⟨-, ⟨-, ⟨key, hkey, v, hv, rfl⟩, rfl⟩, hrole, hne⟩
    exact ⟨key, hkey, hrole, v, hv, hne⟩
  · rintro ⟨key, hkey, hrole, v, hv, hne⟩
    exact ⟨_, ⟨_, ⟨key, hkey, v, hv, rfl⟩, rfl⟩, hrole, hne⟩

/-- The value the `order` of an element displays. -/
def orderOf (f : ItemFields) (list element : Bytes) : Option Value :=
  ((shownAttributes f (keysOfElement f list element)).find? fun e => e.1 = some attrOrder).map
    Prod.snd

/-- The elements displayed, each once, with their keys and the value of their `order`. -/
theorem displayedElements_spec (f : ItemFields) (list : Bytes) :
    ∃ es : List Bytes, es.Nodup ∧ (∀ e, e ∈ es ↔ Shows f list e) ∧
      displayedElements f list = (es.map fun e =>
        (orderOf f list e, (⟨e, keysOfElement f list e⟩ : ListElement))).insertionSort fun a b =>
          (compareListEntries (entryOf a) (entryOf b)).isLE := by
  obtain ⟨es, hnd, hmem, heq⟩ := elementKeys_spec f list
  let exist : Bytes → Bool := fun e =>
    elementExists ((shownAttributes f (keysOfElement f list e)).map fun e => (e.1, e.2.bytes))
  have hexist : ∀ e, exist e ↔ Shows f list e := fun e => elementExists_shownAttributes
  refine ⟨es.filter exist, hnd.filter _, fun e => ?_, ?_⟩
  · rw [List.mem_filter, hexist, hmem, and_iff_right_iff_imp]
    rintro ⟨key, hkey, -⟩
    exact List.ne_nil_of_mem hkey
  · rw [displayedElements, heq]
    congr 1
    clear heq hnd hmem
    induction es with
    | nil => rfl
    | cons e es ih =>
      rw [List.map_cons, List.filterMap_cons]
      by_cases he : exist e
      · rw [List.filter_cons_of_pos he, List.map_cons, ← ih]
        have hdisplayed : displayedElement f (e, keysOfElement f list e) =
            some (orderOf f list e, ⟨e, keysOfElement f list e⟩) := if_pos he
        rw [hdisplayed]
      · rw [List.filter_cons_of_neg he, ← ih]
        have hdisplayed : displayedElement f (e, keysOfElement f list e) = none := if_neg he
        rw [hdisplayed]

/-- An element is listed when a content attribute of it displays a value. -/
theorem mem_listElements {e : ListElement} :
    e ∈ listElements f list ↔
      Shows f list e.element ∧ e.keys = keysOfElement f list e.element := by
  obtain ⟨es, -, hmem, heq⟩ := displayedElements_spec f list
  rw [listElements, heq, List.mem_map]
  simp only [List.mem_insertionSort, List.mem_map]
  constructor
  · rintro ⟨-, ⟨x, hx, rfl⟩, rfl⟩
    exact ⟨(hmem x).mp hx, rfl⟩
  · rintro ⟨hshows, hkeys⟩
    refine ⟨_, ⟨e.element, (hmem _).mpr hshows, rfl⟩, ?_⟩
    rw [← hkeys]

theorem shows_iff_any :
    ((listElements f list).any fun e => e.element = element) ↔ Shows f list element := by
  simp only [List.any_eq_true, decide_eq_true_eq]
  constructor
  · rintro ⟨e, he, rfl⟩
    exact (mem_listElements.mp he).1
  · intro h
    exact ⟨⟨element, keysOfElement f list element⟩, mem_listElements.mpr ⟨h, rfl⟩, rfl⟩

/-- What a removal writes. -/
theorem elementRemovalWrites_eq_ok {isNfc : String → Bool} {writes : List ElementWrite}
    (h : elementRemovalWrites isNfc f list element = .ok writes) :
    Shows f list element ∧
      writes = ((keysOfElement f list element).filter fun key => !neverWritten isNfc key).map
        fun key => (key, Value.cleared) := by
  simp only [elementRemovalWrites, keys_of_find?] at h
  split_ifs at h with hshown
  cases h
  rw [Bool.not_eq_true', Bool.not_eq_false, shows_iff_any] at hshown
  exact ⟨hshown, rfl⟩

end RizzyVault.Client.Lists
