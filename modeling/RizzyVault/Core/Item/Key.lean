import RizzyVault.Core.Item.Value

/-!
# Parsed field keys

A field key with where its parts lie: the namespace of a fixed key, or the list, the element and
the attribute of a list element key. An element key is spelled by its parts.

## Main definitions

* `FieldKeyRef`, `FieldKeyRef.parse`, `FieldKeyRef.list`, `FieldKeyRef.element`,
  `FieldKeyRef.attr`: a key and its parts.
* `elementKey`: the bytes of an element key.

## Main results

* `FieldKeyRef.text_eq`: an element key is its parts joined by `/`.
* `FieldKeyRef.parse_elementKey`: valid parts join to a key with these parts.

## References

* `crates/rizzy-core/src/item/key.rs`.
-/

namespace RizzyVault.Core

inductive KeyKind
  | fixed
  | element
  deriving DecidableEq

/-- A parsed field key. -/
structure FieldKeyRef where
  text : Bytes
  layout : KeyLayout
  parsed : parseKey text = .ok layout
  deriving DecidableEq

namespace FieldKeyRef

def parse (bytes : Bytes) : Except KeyError FieldKeyRef :=
  match h : parseKey bytes with
  | .ok layout => .ok ⟨bytes, layout, h⟩
  | .error e => .error e

def kind (key : FieldKeyRef) : KeyKind :=
  match key.layout with
  | .fixed => .fixed
  | .element _ _ => .element

/-- The first name of a fixed key, the list of an element key. -/
def namespaceName (key : FieldKeyRef) : Bytes :=
  match key.layout with
  | .fixed => (key.text.splitOn (ascii '.')).headD []
  | .element listEnd _ => key.text.take listEnd

def list (key : FieldKeyRef) : Option Bytes :=
  match key.layout with
  | .fixed => none
  | .element listEnd _ => some (key.text.take listEnd)

/-- The element's hex digits. -/
def element (key : FieldKeyRef) : Option Bytes :=
  match key.layout with
  | .fixed => none
  | .element listEnd elementEnd =>
    some ((key.text.take elementEnd).drop (listEnd + 1))

def attr (key : FieldKeyRef) : Option Bytes :=
  match key.layout with
  | .fixed => none
  | .element _ elementEnd =>
    match key.text.drop elementEnd with
    | [] => none
    | _ :: rest => some rest

theorem parse_eq_ok {bytes : Bytes} {key : FieldKeyRef} :
    parse bytes = .ok key ↔ key.text = bytes := by
  constructor
  · intro h
    unfold parse at h
    split at h
    · cases h
      rfl
    · cases h
  · rintro rfl
    obtain ⟨text, layout, parsed⟩ := key
    unfold parse
    split
    · rename_i layout' h
      cases parsed.symm.trans h
      rfl
    · rename_i e h
      cases parsed.symm.trans h

@[ext]
theorem ext {a b : FieldKeyRef} (h : a.text = b.text) : a = b :=
  Except.ok.inj ((parse_eq_ok.mpr h).symm.trans (parse_eq_ok.mpr rfl))

end FieldKeyRef

/-! ### The parts of an element key -/

/-- An attribute as it follows its element. -/
def attrSuffix : Option Bytes → Bytes
  | none => []
  | some attr => ascii '/' :: attr

/-- The bytes of an element key. -/
def elementKey (list element : Bytes) (attr : Option Bytes) : Bytes :=
  list ++ ascii '/' :: (element ++ attrSuffix attr)

theorem slash_notMem_of_isName {part : Bytes} (h : isName part) : ascii '/' ∉ part := by
  cases part with
  | nil => exact List.not_mem_nil
  | cons first rest =>
    simp only [isName, Bool.and_eq_true, List.all_eq_true, Bool.or_eq_true] at h
    obtain ⟨⟨-, hfirst⟩, hrest⟩ := h
    rw [List.mem_cons, not_or]
    refine ⟨?_, fun hmem => ?_⟩
    · rintro rfl
      exact absurd hfirst (by decide)
    · exact absurd (hrest _ hmem) (by decide)

theorem slash_notMem_of_isElement {part : Bytes} (h : isElement part) : ascii '/' ∉ part := by
  rw [isElement, Bool.and_eq_true, List.all_eq_true] at h
  exact fun hmem => absurd (h.2 _ hmem) (by decide)

theorem findIdx?_slash {part rest : Bytes} (h : ascii '/' ∉ part) :
    (part ++ ascii '/' :: rest).findIdx? (· == ascii '/') = some part.length := by
  rw [List.findIdx?_append, List.findIdx?_eq_none_iff.mpr fun b hb => ?_]
  · rw [List.findIdx?_cons, if_pos (beq_self_eq_true _)]
    simp
  · exact beq_eq_false_iff_ne.mpr fun heq => h (heq ▸ hb)

theorem findIdx?_slash_eq_none {part : Bytes} (h : ascii '/' ∉ part) :
    part.findIdx? (· == ascii '/') = none :=
  List.findIdx?_eq_none_iff.mpr fun _ hb => beq_eq_false_iff_ne.mpr fun heq => h (heq ▸ hb)

theorem parseElement_elementKey {list element : Bytes} {attr : Option Bytes} (hlist : isName list)
    (helement : isElement element) (hattr : ∀ a ∈ attr, isName a) :
    parseElement (elementKey list element attr) list.length =
      .ok (.element list.length (list.length + 1 + element.length)) := by
  have htake : (elementKey list element attr).take list.length = list := List.take_left
  have hdrop : (elementKey list element attr).drop (list.length + 1) =
      element ++ attrSuffix attr := by
    rw [← List.drop_drop, elementKey, List.drop_left]
    rfl
  unfold parseElement
  simp only [htake, hdrop, hlist, Bool.not_true, Bool.false_eq_true, if_false]
  cases attr with
  | none =>
    simp only [attrSuffix, List.append_nil, findIdx?_slash_eq_none (slash_notMem_of_isElement helement),
      helement, Bool.not_true, Bool.false_eq_true, if_false]
  | some a =>
    have ha : isName a := hattr a rfl
    have hshape : a.contains (ascii '/') = false := by
      rw [← Bool.not_eq_true, List.contains_iff_mem]
      exact slash_notMem_of_isName ha
    have hrest : (element ++ ascii '/' :: a).drop (element.length + 1) = a := by
      rw [← List.drop_drop, List.drop_left]
      rfl
    simp only [attrSuffix, findIdx?_slash (slash_notMem_of_isElement helement), List.take_left, hrest, helement,
      hshape, ha, Bool.not_true, Bool.false_eq_true, if_false]

theorem parseKey_elementKey {list element : Bytes} {attr : Option Bytes} (hlist : isName list)
    (helement : isElement element) (hattr : ∀ a ∈ attr, isName a)
    (hlen : (elementKey list element attr).length ≤ maxKeyLen) :
    parseKey (elementKey list element attr) =
      .ok (.element list.length (list.length + 1 + element.length)) := by
  have hne : (elementKey list element attr).isEmpty = false := by
    rw [List.isEmpty_eq_false_iff]
    exact List.append_ne_nil_of_right_ne_nil _ (List.cons_ne_nil _ _)
  have hslash : (elementKey list element attr).findIdx? (· == ascii '/') = some list.length :=
    findIdx?_slash (slash_notMem_of_isName hlist)
  rw [parseKey, hne, Bool.false_or, if_neg (by simpa using hlen), hslash]
  exact parseElement_elementKey hlist helement hattr

/-- What a key of a list element spells. -/
structure ElementParts (list element : Bytes) (attr : Option Bytes) : Prop where
  list : isName list
  element : isElement element
  attr : ∀ a ∈ attr, isName a

theorem parts_of_parseElement {bytes : Bytes} {listEnd : ℕ} {layout : KeyLayout}
    (hfind : bytes.findIdx? (· == ascii '/') = some listEnd)
    (h : parseElement bytes listEnd = .ok layout) :
    ∃ list element attr, ElementParts list element attr ∧ bytes = elementKey list element attr := by
  obtain ⟨hlt, hslash, -⟩ := List.findIdx?_eq_some_iff_getElem.mp hfind
  have hbytes : bytes = bytes.take listEnd ++ ascii '/' :: bytes.drop (listEnd + 1) := by
    conv_lhs => rw [← List.take_append_drop listEnd bytes, List.drop_eq_getElem_cons hlt]
    rw [beq_iff_eq.mp hslash]
  unfold parseElement at h
  cases hf : (bytes.drop (listEnd + 1)).findIdx? (· == ascii '/') with
  | none =>
    simp only [hf] at h
    split_ifs at h with hname helement
    refine ⟨bytes.take listEnd, bytes.drop (listEnd + 1), none,
      ⟨by simpa using hname, by simpa using helement, by simp⟩, ?_⟩
    rw [elementKey, attrSuffix, List.append_nil]
    exact hbytes
  | some stop =>
    obtain ⟨hlt', hslash', -⟩ := List.findIdx?_eq_some_iff_getElem.mp hf
    simp only [hf] at h
    split_ifs at h with hname helement hshape hattr
    refine ⟨bytes.take listEnd, (bytes.drop (listEnd + 1)).take stop,
      some ((bytes.drop (listEnd + 1)).drop (stop + 1)),
      ⟨by simpa using hname, by simpa using helement, by simpa using hattr⟩, ?_⟩
    rw [elementKey, attrSuffix]
    conv_lhs => rw [hbytes, ← List.take_append_drop stop (bytes.drop (listEnd + 1)),
      List.drop_eq_getElem_cons hlt', beq_iff_eq.mp hslash']

namespace FieldKeyRef

variable {key : FieldKeyRef} {l e : Bytes}

/-- The parts of a key spelled by parts. -/
theorem parts_eq {attr : Option Bytes} (hparts : ElementParts l e attr)
    (htext : key.text = elementKey l e attr) :
    key.list = some l ∧ key.element = some e ∧ key.attr = attr ∧ key.namespaceName = l := by
  have hlen : (elementKey l e attr).length ≤ maxKeyLen := by
    have := key.parsed
    rw [htext, parseKey] at this
    split_ifs at this with hlen
    simp only [Bool.or_eq_true, decide_eq_true_eq, not_or, not_lt] at hlen
    exact hlen.2
  have hlayout : key.layout = .element l.length (l.length + 1 + e.length) := by
    have := key.parsed
    rw [htext, parseKey_elementKey hparts.list hparts.element hparts.attr hlen] at this
    exact (Except.ok.inj this).symm
  have htake : (elementKey l e attr).take l.length = l := List.take_left
  have hassoc : elementKey l e attr = (l ++ ascii '/' :: e) ++ attrSuffix attr := by
    rw [elementKey, List.append_assoc]
    rfl
  have hcut : l.length + 1 + e.length = (l ++ ascii '/' :: e).length := by
    rw [List.length_append, List.length_cons]
    omega
  refine ⟨?_, ?_, ?_, ?_⟩
  · rw [list, hlayout, htext]
    exact congrArg some htake
  · rw [element, hlayout, htext, hassoc]
    simp only
    rw [hcut, List.take_left, ← List.drop_drop, List.drop_left]
    rfl
  · rw [FieldKeyRef.attr, hlayout, htext, hassoc]
    simp only
    rw [hcut, List.drop_left]
    cases attr <;> rfl
  · rw [namespaceName, hlayout, htext]
    exact htake

/-- A key of an element is its parts joined by `/`. -/
theorem exists_parts (h : key.list = some l) :
    ∃ element attr, ElementParts l element attr ∧ key.text = elementKey l element attr := by
  have hparsed := key.parsed
  rw [parseKey] at hparsed
  split_ifs at hparsed
  split at hparsed
  · rename_i listEnd hfind
    obtain ⟨l', e', attr, hparts, htext⟩ := parts_of_parseElement hfind hparsed
    obtain rfl : l' = l := Option.some.inj ((parts_eq hparts htext).1.symm.trans h)
    exact ⟨e', attr, hparts, htext⟩
  · simp only [parseFixed] at hparsed
    split_ifs at hparsed
    rw [list, ← Except.ok.inj hparsed] at h
    cases h

theorem text_eq (h : key.list = some l) (h' : key.element = some e) :
    ElementParts l e key.attr ∧ key.text = elementKey l e key.attr := by
  obtain ⟨e', attr, hparts, htext⟩ := exists_parts h
  obtain ⟨-, he, hattr, -⟩ := parts_eq hparts htext
  obtain rfl : e' = e := Option.some.inj (he.symm.trans h')
  rw [hattr]
  exact ⟨hparts, htext⟩

end FieldKeyRef

end RizzyVault.Core
