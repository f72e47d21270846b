import RizzyVault.Core.Item.Schema
import RizzyVault.Lib.Abnf

/-!
# The grammar of field keys

The parser of field keys cuts at separators. It accepts exactly the keys of the grammar

    field_key = fixed / element
    fixed     = name 1*( "." name )
    element   = name "/" elem [ "/" name ]
    name      = %x61-7A *31( %x61-7A / DIGIT / "_" )
    elem      = 1*64( 2hexlc )
    hexlc     = DIGIT / %x61-66

of 1 to 160 bytes. Hex digits are checked and written with arithmetic, without a branch per digit.
A writer spells an element key from its list, element and attribute and parses the text once more;
what the list may hold is not checked on its own.

## Main definitions

* `fixedGrammar`, `elementGrammar`, `fieldKeyGrammar`: the grammar.
* `inRange`, `lowerHexBit`, `hexDigit`: digits by arithmetic.
* `FieldKeyRef.buildElement`, `FieldKeyRef.elementBytes`: element keys built and read.

## Main results

* `parse_iff_grammar`: what the parser accepts.
* `buildElement_reads_back`: when an element key reads back as it was built.

## References

* `crates/rizzy-core/src/item/key.rs`.
-/

open RizzyVault.Lib
open scoped Computability

namespace RizzyVault.Core

/-! ### The grammar -/

/-- `name = %x61-7A *31( %x61-7A / DIGIT / "_" )`. -/
def nameGrammar : Language Byte :=
  oneOf isAsciiLowercase *
    repeats 0 31 (oneOf isAsciiLowercase + oneOf isAsciiDigit + {[ascii '_']})

/-- `hexlc = DIGIT / %x61-66`. -/
def hexlcGrammar : Language Byte :=
  oneOf isAsciiDigit + oneOf fun b => ascii 'a' ≤ b ∧ b ≤ ascii 'f'

/-- `elem = 1*64( 2hexlc )`. -/
def elemGrammar : Language Byte := repeats 1 64 (hexlcGrammar * hexlcGrammar)

/-- `fixed = name 1*( "." name )`. -/
def fixedGrammar : Language Byte :=
  nameGrammar * (({[ascii '.']} * nameGrammar) * ({[ascii '.']} * nameGrammar)∗)

/-- `element = name "/" elem [ "/" name ]`. -/
def elementGrammar : Language Byte :=
  nameGrammar * {[ascii '/']} * elemGrammar * (1 + {[ascii '/']} * nameGrammar)

/-- `field_key = fixed / element`. -/
def fieldKeyGrammar : Language Byte := fixedGrammar + elementGrammar

theorem mem_nameGrammar {part : Bytes} : part ∈ nameGrammar ↔ isName part := by
  rw [nameGrammar, Language.mem_mul, singleton_eq_oneOf, oneOf_add, oneOf_add]
  cases part with
  | nil =>
    refine iff_of_false ?_ Bool.false_ne_true
    rintro ⟨_, ⟨a, -, rfl⟩, b, -, hnil⟩
    exact List.cons_ne_nil a b hnil
  | cons first rest =>
    rw [isName, Bool.and_eq_true, Bool.and_eq_true, decide_eq_true_eq, List.all_eq_true]
    have hlen : (first :: rest).length ≤ maxNameLen ↔ rest.length ≤ 31 := by
      rw [List.length_cons, maxNameLen]
      omega
    constructor
    · rintro ⟨_, ⟨a, ha, rfl⟩, b, hb, heq⟩
      cases heq
      obtain ⟨⟨-, hshort⟩, hall⟩ := mem_repeats_oneOf.mp hb
      exact ⟨⟨hlen.mpr hshort, ha⟩, hall⟩
    · rintro ⟨⟨hshort, ha⟩, hall⟩
      exact ⟨[first], ⟨first, ha, rfl⟩, rest,
        mem_repeats_oneOf.mpr ⟨⟨Nat.zero_le _, hlen.mp hshort⟩, hall⟩, rfl⟩

theorem mem_elemGrammar {part : Bytes} : part ∈ elemGrammar ↔ isElement part := by
  rw [elemGrammar, hexlcGrammar, oneOf_add, mem_repeats_pair, isElement, Bool.and_eq_true,
    List.all_eq_true]
  refine and_congr ?_ Iff.rfl
  simp only [Bool.not_eq_true', Bool.or_eq_false_iff, decide_eq_false_iff_not, bne_eq_false_iff_eq,
    List.isEmpty_eq_false_iff, ← List.length_pos_iff]
  have hmax : maxElementLen = 64 := rfl
  omega

theorem dot_notMem_of_isName {part : Bytes} (h : isName part) : ascii '.' ∉ part := by
  cases part with
  | nil => exact List.not_mem_nil
  | cons first rest =>
    simp only [isName, Bool.and_eq_true, List.all_eq_true, Bool.or_eq_true] at h
    obtain ⟨⟨-, hfirst⟩, hrest⟩ := h
    rw [List.mem_cons, not_or]
    refine ⟨?_, fun hmem => ?_⟩
    · rintro rfl
      exact absurd hfirst (by decide)
    · exact absurd (hrest _ hmem) (by decide)

theorem mem_fixedGrammar {bytes : Bytes} :
    bytes ∈ fixedGrammar ↔ (∀ part ∈ bytes.splitOn (ascii '.'), isName part) ∧
      2 ≤ (bytes.splitOn (ascii '.')).length := by
  have hsep : ∀ part ∈ nameGrammar, ascii '.' ∉ part := fun part hpart =>
    dot_notMem_of_isName (mem_nameGrammar.mp hpart)
  rw [fixedGrammar, mem_joined_iff hsep]
  simp only [mem_nameGrammar]

theorem mem_elementGrammar {bytes : Bytes} :
    bytes ∈ elementGrammar ↔ ∃ list element attr, ElementParts list element attr ∧
      bytes = elementKey list element attr := by
  rw [elementGrammar, Language.mem_mul]
  constructor
  · rintro ⟨x, hx, y, hy, rfl⟩
    obtain ⟨z, hz, element, helement, rfl⟩ := Language.mem_mul.mp hx
    obtain ⟨list, hlist, _, rfl, rfl⟩ := Language.mem_mul.mp hz
    rw [mem_nameGrammar] at hlist
    rw [mem_elemGrammar] at helement
    rcases (Language.mem_add _ _ _).mp hy with rfl | hy
    · refine ⟨list, element, none, ⟨hlist, helement, nofun⟩, ?_⟩
      rw [elementKey, attrSuffix, List.append_assoc, List.append_assoc]
      rfl
    · obtain ⟨_, rfl, attr, hattr, rfl⟩ := Language.mem_mul.mp hy
      refine ⟨list, element, some attr, ⟨hlist, helement, ?_⟩, ?_⟩
      · rintro a ⟨⟩
        exact mem_nameGrammar.mp hattr
      · rw [elementKey, attrSuffix, List.append_assoc, List.append_assoc]
        rfl
  · rintro ⟨list, element, attr, hparts, rfl⟩
    refine ⟨list ++ [ascii '/'] ++ element, ?_, attrSuffix attr, ?_, ?_⟩
    · exact Language.append_mem_mul (Language.append_mem_mul (mem_nameGrammar.mpr hparts.list) rfl)
        (mem_elemGrammar.mpr hparts.element)
    · cases attr with
      | none => exact .inl rfl
      | some attr =>
        exact .inr (Language.append_mem_mul (a := [ascii '/']) rfl
          (mem_nameGrammar.mpr (hparts.attr attr rfl)))
    · rw [elementKey, List.append_assoc, List.append_assoc]
      rfl

/-! ### What the parser accepts -/

theorem slash_mem_elementKey (list element : Bytes) (attr : Option Bytes) :
    ascii '/' ∈ elementKey list element attr :=
  List.mem_append_right _ List.mem_cons_self

/-- The names of a fixed key hold no `/`. -/
theorem slash_notMem_of_fixed {bytes : Bytes} (h : bytes ∈ fixedGrammar) : ascii '/' ∉ bytes := by
  intro hmem
  rw [mem_fixedGrammar] at h
  have hjoin : [ascii '.'].intercalate (bytes.splitOn (ascii '.')) = bytes :=
    List.intercalate_splitOn (ascii '.')
  obtain ⟨a, ls, hsplit⟩ := List.exists_cons_of_ne_nil (List.splitOn_ne_nil (ascii '.') bytes)
  rw [hsplit] at h hjoin
  rw [← hjoin, intercalate_cons_eq, List.mem_append, List.mem_flatten] at hmem
  rcases hmem with hmem | ⟨_, hpart, hmem⟩
  · exact slash_notMem_of_isName (h.1 a List.mem_cons_self) hmem
  · obtain ⟨part, hls, rfl⟩ := List.mem_map.mp hpart
    rcases List.mem_cons.mp hmem with hdot | hmem
    · exact absurd hdot (by decide)
    · exact slash_notMem_of_isName (h.1 part (List.mem_cons_of_mem a hls)) hmem

/-- No key follows both productions. -/
theorem disjoint_grammars {bytes : Bytes} (h : bytes ∈ fixedGrammar) : bytes ∉ elementGrammar := by
  intro helement
  obtain ⟨list, element, attr, -, rfl⟩ := mem_elementGrammar.mp helement
  exact slash_notMem_of_fixed h (slash_mem_elementKey list element attr)

theorem parseFixed_eq_ok {bytes : Bytes} {layout : KeyLayout} :
    parseFixed bytes = .ok layout ↔ layout = .fixed ∧ bytes ∈ fixedGrammar := by
  rw [mem_fixedGrammar]
  simp only [parseFixed]
  split_ifs with hname hlen
  · refine iff_of_false (by simp) fun h => ?_
    obtain ⟨part, hpart, hbad⟩ := List.any_eq_true.mp hname
    rw [h.2.1 part hpart] at hbad
    cases hbad
  · exact iff_of_false (by simp) fun h => absurd h.2.2 (not_le.mpr hlen)
  · have hall : ∀ part ∈ bytes.splitOn (ascii '.'), isName part := by
      simpa using hname
    rw [Except.ok.injEq, eq_comm, and_iff_left ⟨hall, not_lt.mp hlen⟩]

/-- What the parser accepts, by production. -/
theorem parseKey_eq_ok {bytes : Bytes} {layout : KeyLayout} :
    parseKey bytes = .ok layout ↔ (1 ≤ bytes.length ∧ bytes.length ≤ maxKeyLen) ∧
      ((layout = .fixed ∧ bytes ∈ fixedGrammar) ∨
        ∃ list element attr, ElementParts list element attr ∧ bytes = elementKey list element attr ∧
          layout = .element list.length (list.length + 1 + element.length)) := by
  have hlen : ¬ (bytes.isEmpty || decide (maxKeyLen < bytes.length)) = true ↔
      1 ≤ bytes.length ∧ bytes.length ≤ maxKeyLen := by
    rw [Bool.or_eq_true, not_or, decide_eq_true_eq, not_lt, List.isEmpty_iff, ← ne_eq,
      ← List.length_pos_iff]
    rfl
  constructor
  · intro h
    unfold parseKey at h
    split_ifs at h with hbad
    refine ⟨hlen.mp hbad, ?_⟩
    split at h
    · rename_i listEnd hfind
      obtain ⟨list, element, attr, hparts, rfl⟩ := parts_of_parseElement hfind h
      have hlist : (elementKey list element attr).findIdx? (· == ascii '/') = some list.length :=
        findIdx?_slash (slash_notMem_of_isName hparts.list)
      obtain rfl : listEnd = list.length := Option.some.inj (hfind.symm.trans hlist)
      have hlayout := parseElement_elementKey hparts.list hparts.element hparts.attr
      exact .inr ⟨list, element, attr, hparts, rfl, Except.ok.inj (h.symm.trans hlayout)⟩
    · exact .inl (parseFixed_eq_ok.mp h)
  · rintro ⟨hlength, ⟨rfl, hfixed⟩ | ⟨list, element, attr, hparts, rfl, rfl⟩⟩
    · rw [parseKey, if_neg (hlen.mpr hlength),
        findIdx?_slash_eq_none (slash_notMem_of_fixed hfixed)]
      exact parseFixed_eq_ok.mpr ⟨rfl, hfixed⟩
    · exact parseKey_elementKey hparts.list hparts.element hparts.attr hlength.2

theorem exists_parse {bytes : Bytes} {layout : KeyLayout} (h : parseKey bytes = .ok layout) :
    ∃ key, FieldKeyRef.parse bytes = .ok key ∧ key.layout = layout :=
  ⟨⟨bytes, layout, h⟩, FieldKeyRef.parse_eq_ok.mpr rfl, rfl⟩

/-! ### Digits by arithmetic -/

/-- One if `lo ≤ b ≤ hi`, else zero: the differences of 32-bit numbers have no sign bit exactly in
range. -/
def inRange (b lo hi : Byte) : BitVec 32 :=
  let below := BitVec.ofNat 32 b - BitVec.ofNat 32 lo
  let above := BitVec.ofNat 32 hi - BitVec.ofNat 32 b
  1 ^^^ ((below ||| above) >>> 31)

/-- One if `b` is a lowercase hex digit, else zero (`is_lower_hex`). -/
def lowerHexBit (b : Byte) : BitVec 32 :=
  inRange b (ascii '0') (ascii '9') ||| inRange b (ascii 'a') (ascii 'f')

/-- Whether a part is an element, its digits checked without a branch (`is_element`). -/
def isElementBranchless (part : Bytes) : Bool :=
  if part.isEmpty || 2 * maxElementLen < part.length || part.length % 2 != 0 then false
  else part.foldl (fun acc b => acc ||| (1 ^^^ lowerHexBit b)) 0 == 0

/-- The lowercase hex digit of the low four bits. -/
def hexDigit (nibble : Byte) : Byte :=
  let n := BitVec.ofNat 32 (nibble.val % 16)
  -- The arithmetic shift spreads the sign of `9 - n` over the word.
  let letter := ((9 : BitVec 32) - n).sshiftRight 31
  Fin.ofNat 256 (BitVec.ofNat 32 (ascii '0') + n + (letter &&& 0x27)).toNat

/-- The bit of a byte, and the digit of its value. -/
theorem lowerHex_spec : ∀ b : Byte, lowerHexBit b = (if isLowerHex b then 1 else 0) ∧
    (isLowerHex b → hexValue b < 16 ∧ hexDigit (Fin.ofNat 256 (hexValue b)) = b) := by
  decide +kernel

theorem lowerHexBit_eq (b : Byte) : lowerHexBit b = if isLowerHex b then 1 else 0 :=
  (lowerHex_spec b).1

theorem foldl_lowerHexBit (part : Bytes) (acc : BitVec 32) :
    part.foldl (fun acc b => acc ||| (1 ^^^ lowerHexBit b)) acc = 0 ↔
      acc = 0 ∧ ∀ b ∈ part, isLowerHex b := by
  induction part generalizing acc with
  | nil => simp
  | cons b part ih =>
    have hbit : (1 : BitVec 32) ^^^ lowerHexBit b = 0 ↔ isLowerHex b := by
      rw [lowerHexBit_eq]
      split_ifs with hb
      · exact iff_of_true (by decide) hb
      · exact iff_of_false (by decide) hb
    have hor : acc ||| (1 ^^^ lowerHexBit b) = 0 ↔ acc = 0 ∧ 1 ^^^ lowerHexBit b = 0 :=
      BitVec.or_eq_zero_iff
    rw [List.foldl_cons, ih, hor, hbit, List.forall_mem_cons, and_assoc]

/-- The check without branches is the check by comparison. -/
theorem isElement_eq_branchless (part : Bytes) : isElement part = isElementBranchless part := by
  have hdigits : (part.foldl (fun acc b => acc ||| (1 ^^^ lowerHexBit b)) (0 : BitVec 32) == 0) =
      part.all isLowerHex := by
    rw [Bool.eq_iff_iff, beq_iff_eq, foldl_lowerHexBit, List.all_eq_true]
    exact and_iff_right rfl
  rw [isElement, isElementBranchless, hdigits]
  split_ifs with hlen
  · rw [hlen]
    rfl
  · rw [Bool.not_eq_true] at hlen
    rw [hlen]
    rfl

theorem kind_eq_fixed {key : FieldKeyRef} : key.kind = .fixed ↔ key.text ∈ fixedGrammar := by
  obtain ⟨text, layout, parsed⟩ := key
  obtain ⟨-, ⟨rfl, hfixed⟩ | ⟨list, element, attr, hparts, rfl, rfl⟩⟩ := parseKey_eq_ok.mp parsed
  · exact iff_of_true rfl hfixed
  · exact iff_of_false nofun fun hfixed =>
      slash_notMem_of_fixed hfixed (slash_mem_elementKey list element attr)

theorem kind_eq_element {key : FieldKeyRef} : key.kind = .element ↔ key.text ∈ elementGrammar := by
  obtain ⟨text, layout, parsed⟩ := key
  obtain ⟨-, ⟨rfl, hfixed⟩ | ⟨list, element, attr, hparts, rfl, rfl⟩⟩ := parseKey_eq_ok.mp parsed
  · exact iff_of_false nofun (disjoint_grammars hfixed)
  · exact iff_of_true rfl (mem_elementGrammar.mpr ⟨list, element, attr, hparts, rfl⟩)

theorem exists_parse_iff {bytes : Bytes} :
    (∃ key, FieldKeyRef.parse bytes = .ok key) ↔
      (1 ≤ bytes.length ∧ bytes.length ≤ maxKeyLen) ∧ bytes ∈ fieldKeyGrammar := by
  rw [fieldKeyGrammar, Language.mem_add, mem_elementGrammar]
  constructor
  · rintro ⟨key, hkey⟩
    obtain rfl := FieldKeyRef.parse_eq_ok.mp hkey
    obtain ⟨hlen, ⟨-, hfixed⟩ | ⟨list, element, attr, hparts, htext, -⟩⟩ :=
      parseKey_eq_ok.mp key.parsed
    · exact ⟨hlen, .inl hfixed⟩
    · exact ⟨hlen, .inr ⟨list, element, attr, hparts, htext⟩⟩
  · rintro ⟨hlen, hfixed | ⟨list, element, attr, hparts, htext⟩⟩
    · exact (exists_parse (parseKey_eq_ok.mpr ⟨hlen, .inl ⟨rfl, hfixed⟩⟩)).imp fun _ h => h.1
    · exact (exists_parse (parseKey_eq_ok.mpr
        ⟨hlen, .inr ⟨list, element, attr, hparts, htext, rfl⟩⟩)).imp fun _ h => h.1

/-- The parser accepts exactly the keys of the grammar of 1 to 160 bytes, each by exactly one
production, which it names. The check of hex digits is the one without branches. -/
theorem parse_iff_grammar :
    (∀ bytes, (∃ key, FieldKeyRef.parse bytes = .ok key) ↔
      (1 ≤ bytes.length ∧ bytes.length ≤ 160) ∧ bytes ∈ fieldKeyGrammar) ∧
    (∀ bytes key, FieldKeyRef.parse bytes = .ok key →
      (key.kind = .fixed ↔ bytes ∈ fixedGrammar) ∧ (key.kind = .element ↔ bytes ∈ elementGrammar)) ∧
    (∀ bytes, bytes ∈ fieldKeyGrammar → Xor (bytes ∈ fixedGrammar) (bytes ∈ elementGrammar)) ∧
    ∀ part, isElement part = isElementBranchless part := by
  refine ⟨fun bytes => exists_parse_iff, fun bytes key hkey => ?_, fun bytes hbytes => ?_,
    isElement_eq_branchless⟩
  · obtain rfl := FieldKeyRef.parse_eq_ok.mp hkey
    exact ⟨kind_eq_fixed, kind_eq_element⟩
  · rcases (Language.mem_add _ _ _).mp hbytes with hfixed | helement
    · exact .inl ⟨hfixed, disjoint_grammars hfixed⟩
    · exact .inr ⟨helement, fun hfixed => disjoint_grammars hfixed helement⟩

theorem parse_iff_grammar_tag :
    (∃ key, FieldKeyRef.parse (asciiBytes "tag/0a".toList) = .ok key) ∧
      asciiBytes "tag/0a".toList ∉ fixedGrammar := by
  have hparse : ∃ key, FieldKeyRef.parse (asciiBytes "tag/0a".toList) = .ok key ∧
      key.kind = .element :=
    ⟨⟨asciiBytes "tag/0a".toList, .element 3 6, by decide⟩, FieldKeyRef.parse_eq_ok.mpr rfl,
      rfl⟩
  obtain ⟨key, hkey, hkind⟩ := hparse
  refine ⟨⟨key, hkey⟩, fun hfixed => ?_⟩
  have hfixed' := (parse_iff_grammar.2.1 _ key hkey).1.mpr hfixed
  rw [hkind] at hfixed'
  cases hfixed'

/-! ### Building element keys -/

/-- The hex digits of bytes. -/
def toHex (element : Bytes) : Bytes :=
  element.flatMap fun b : Byte => [hexDigit (b >>> 4), hexDigit (b &&& 0x0f)]

namespace FieldKeyRef

/-- The bytes the element's digits spell (`element_bytes`). -/
def elementBytes (key : FieldKeyRef) : Option Bytes := key.element.map ofHex

/-- Builds the key of an element from its parts (`FieldKey::element`). -/
def buildElement (list element : Bytes) (attr : Option Bytes) : Except KeyError FieldKeyRef :=
  let len := element.length * 2 + list.length + 1 + attr.elim 0 fun a => a.length + 1
  if maxKeyLen < len then .error .length
  else parse (elementKey list (toHex element) attr)

end FieldKeyRef

/-- A list that is itself a list and an element, before an element whose digits are a name and no
attr. -/
def IsNested (list element : Bytes) (attr : Option Bytes) : Prop :=
  ∃ name elem, list = name ++ ascii '/' :: elem ∧ isName name ∧ isElement elem ∧ attr = none ∧
    isName (toHex element) ∧ list.length + 1 + 2 * element.length ≤ maxKeyLen

theorem toHex_cons (b : Byte) (element : Bytes) :
    toHex (b :: element) = hexDigit (b >>> 4) :: hexDigit (b &&& 0x0f) :: toHex element := rfl

theorem length_toHex (element : Bytes) : (toHex element).length = 2 * element.length := by
  induction element with
  | nil => rfl
  | cons b element ih =>
    rw [toHex_cons, List.length_cons, List.length_cons, List.length_cons, ih]
    omega

theorem nibbles_join : ∀ high low : Fin 16,
    (Fin.ofNat 256 (16 * high.val + low.val) : Byte) >>> 4 = Fin.ofNat 256 high.val ∧
      (Fin.ofNat 256 (16 * high.val + low.val) : Byte) &&& 0x0f = Fin.ofNat 256 low.val := by
  decide

theorem hexDigit_nibble : ∀ n : Fin 16, isLowerHex (hexDigit (Fin.ofNat 256 n.val)) ∧
    hexValue (hexDigit (Fin.ofNat 256 n.val)) = n.val := by
  decide

/-- The two digits of a byte. -/
theorem hexDigit_spec (b : Byte) : isLowerHex (hexDigit (b >>> 4)) ∧
    isLowerHex (hexDigit (b &&& 0x0f)) ∧
      Fin.ofNat 256 (16 * hexValue (hexDigit (b >>> 4)) + hexValue (hexDigit (b &&& 0x0f))) = b := by
  obtain ⟨high, low, rfl⟩ :
      ∃ high low : Fin 16, b = Fin.ofNat 256 (16 * high.val + low.val) := by
    have hb := b.isLt
    refine ⟨⟨b.val / 16, by omega⟩, ⟨b.val % 16, by omega⟩, Fin.ext ?_⟩
    simp only [Fin.ofNat]
    omega
  obtain ⟨hhigh, hlow⟩ := nibbles_join high low
  rw [hhigh, hlow, (hexDigit_nibble high).2, (hexDigit_nibble low).2]
  exact ⟨(hexDigit_nibble high).1, (hexDigit_nibble low).1, rfl⟩

/-- The digits of bytes spell them. -/
theorem ofHex_toHex (element : Bytes) : ofHex (toHex element) = element := by
  induction element with
  | nil => rfl
  | cons b element ih => rw [toHex_cons, ofHex, ih, (hexDigit_spec b).2.2]

theorem isLowerHex_of_mem_toHex {element : Bytes} {d : Byte} (h : d ∈ toHex element) :
    isLowerHex d := by
  obtain ⟨b, -, hd⟩ := List.mem_flatMap.mp h
  obtain ⟨hhigh, hlow, -⟩ := hexDigit_spec b
  rcases List.mem_cons.mp hd with rfl | hd
  · exact hhigh
  · rw [List.mem_singleton.mp hd]
    exact hlow

theorem slash_notMem_toHex (element : Bytes) : ascii '/' ∉ toHex element := fun h =>
  absurd (isLowerHex_of_mem_toHex h) (by decide)

theorem hexDigit_hexValue (d : Byte) (hd : isLowerHex d) :
    hexValue d < 16 ∧ hexDigit (Fin.ofNat 256 (hexValue d)) = d :=
  (lowerHex_spec d).2 hd

/-- The bytes two digits each spell are written with these digits. -/
theorem toHex_ofHex {part : Bytes} (h : isElement part) : toHex (ofHex part) = part := by
  simp only [isElement, Bool.and_eq_true, Bool.not_eq_true', Bool.or_eq_false_iff,
    bne_eq_false_iff_eq, List.all_eq_true] at h
  obtain ⟨⟨-, heven⟩, hdigits⟩ := h
  induction part using ofHex.induct with
  | case1 high low rest ih =>
    rw [List.forall_mem_cons, List.forall_mem_cons] at hdigits
    obtain ⟨hhigh, hlow, hrest⟩ := hdigits
    obtain ⟨hhigh', hhigh⟩ := hexDigit_hexValue high hhigh
    obtain ⟨hlow', hlow⟩ := hexDigit_hexValue low hlow
    have hjoin := nibbles_join ⟨hexValue high, hhigh'⟩ ⟨hexValue low, hlow'⟩
    have heven' : rest.length % 2 = 0 := by
      rw [List.length_cons, List.length_cons] at heven
      omega
    rw [ofHex, toHex_cons, hjoin.1, hjoin.2, hhigh, hlow, ih hrest heven']
  | case2 part hpart =>
    rcases part with _ | ⟨high, _ | ⟨low, rest⟩⟩
    · rfl
    · cases heven
    · exact absurd rfl (hpart high low rest)

theorem length_elementKey (list element : Bytes) (attr : Option Bytes) :
    (elementKey list (toHex element) attr).length =
      element.length * 2 + list.length + 1 + attr.elim 0 fun a => a.length + 1 := by
  rw [elementKey, List.length_append, List.length_cons, List.length_append, length_toHex]
  cases attr with
  | none =>
    rw [attrSuffix, List.length_nil, Option.elim_none]
    omega
  | some a =>
    rw [attrSuffix, List.length_cons, Option.elim_some]
    omega

namespace FieldKeyRef

/-- The early length check refuses only what the parser refuses. -/
theorem buildElement_eq_ok {list element : Bytes} {attr : Option Bytes} {key : FieldKeyRef} :
    buildElement list element attr = .ok key ↔
      key.text = elementKey list (toHex element) attr := by
  simp only [buildElement, ← length_elementKey]
  split_ifs with hlen
  · refine iff_of_false nofun fun htext => ?_
    have hlen' := (parseKey_eq_ok.mp key.parsed).1.2
    rw [htext] at hlen'
    exact absurd hlen (not_lt.mpr hlen')
  · exact parse_eq_ok

/-- A text with a `/` is the key of an element. -/
theorem exists_parts_of_slash {key : FieldKeyRef} (h : ascii '/' ∈ key.text) :
    ∃ list element attr, ElementParts list element attr ∧
      key.text = elementKey list element attr := by
  obtain ⟨-, ⟨-, hfixed⟩ | ⟨list, element, attr, hparts, htext, -⟩⟩ :=
    parseKey_eq_ok.mp key.parsed
  · exact absurd h (slash_notMem_of_fixed hfixed)
  · exact ⟨list, element, attr, hparts, htext⟩

end FieldKeyRef

theorem append_slash_inj {a b x y : Bytes} (ha : ascii '/' ∉ a) (hb : ascii '/' ∉ b)
    (h : a ++ ascii '/' :: x = b ++ ascii '/' :: y) : a = b ∧ x = y := by
  have hfind : (a ++ ascii '/' :: x).findIdx? (· == ascii '/') = some a.length := findIdx?_slash ha
  rw [h, findIdx?_slash hb] at hfind
  obtain ⟨hab, hxy⟩ := List.append_inj h (Option.some.inj hfind).symm
  exact ⟨hab, (List.cons.inj hxy).2⟩

theorem attrSuffix_inj {e e' : Bytes} {a a' : Option Bytes} (he : ascii '/' ∉ e)
    (he' : ascii '/' ∉ e') (h : e ++ attrSuffix a = e' ++ attrSuffix a') : e = e' ∧ a = a' := by
  have hnone : ∀ {x y z : Bytes}, ascii '/' ∉ x → x ≠ y ++ ascii '/' :: z := fun hx heq =>
    hx (heq ▸ List.mem_append_right _ List.mem_cons_self)
  cases a with
  | none =>
    cases a' with
    | none => exact ⟨by simpa [attrSuffix] using h, rfl⟩
    | some s =>
      rw [attrSuffix, List.append_nil] at h
      exact absurd h (hnone he)
  | some r =>
    cases a' with
    | none =>
      rw [attrSuffix, attrSuffix, List.append_nil] at h
      exact absurd h.symm (hnone he')
    | some s =>
      obtain ⟨hee, hrs⟩ := append_slash_inj he he' h
      exact ⟨hee, congrArg some hrs⟩

/-- The parts a built key parses into are the ones it was built from, unless these were nested. -/
theorem parts_of_build {list element l e : Bytes} {attr a : Option Bytes}
    (hparts : ElementParts l e a)
    (htext : elementKey list (toHex element) attr = elementKey l e a) :
    (l = list ∧ e = toHex element ∧ a = attr) ∨
      (list = l ++ ascii '/' :: e ∧ attr = none ∧ a = some (toHex element)) := by
  have hl := slash_notMem_of_isName hparts.list
  have he := slash_notMem_of_isElement hparts.element
  by_cases hlist : ascii '/' ∈ list
  · refine .inr ?_
    obtain ⟨name, elem, rfl, hname⟩ := List.eq_append_cons_of_mem hlist
    rw [elementKey, elementKey, List.append_assoc, List.cons_append] at htext
    obtain ⟨rfl, hrest⟩ := append_slash_inj hname hl htext
    cases a with
    | none =>
      rw [attrSuffix, List.append_nil] at hrest
      exact absurd (hrest ▸ List.mem_append_right _ List.mem_cons_self) he
    | some s =>
      have hs := slash_notMem_of_isName (hparts.attr s rfl)
      rw [attrSuffix] at hrest
      obtain ⟨rfl, -, hsuffix⟩ := (List.append_cons_inj_of_notMem he hs).mp hrest.symm
      cases attr with
      | none =>
        rw [attrSuffix, List.append_nil] at hsuffix
        exact ⟨rfl, rfl, congrArg some hsuffix⟩
      | some r =>
        exact absurd (hsuffix ▸ List.mem_append_right _ List.mem_cons_self) hs
  · obtain ⟨rfl, hrest⟩ := append_slash_inj hlist hl htext
    obtain ⟨rfl, rfl⟩ := attrSuffix_inj (slash_notMem_toHex element) he hrest
    exact .inl ⟨rfl, rfl, rfl⟩


/-- A key built from nested parts parses into the list inside the list. -/
theorem IsNested.exists_key {list element : Bytes} {attr : Option Bytes}
    (h : IsNested list element attr) :
    ∃ name elem key, list = name ++ ascii '/' :: elem ∧
      ElementParts name elem (some (toHex element)) ∧
        key.text = elementKey name elem (some (toHex element)) ∧
          FieldKeyRef.buildElement list element attr = .ok key := by
  obtain ⟨name, elem, rfl, hname, helem, rfl, hhex, hlen⟩ := h
  have hparts : ElementParts name elem (some (toHex element)) :=
    ⟨hname, helem, fun a ha => by cases ha; exact hhex⟩
  have htext : elementKey (name ++ ascii '/' :: elem) (toHex element) none =
      elementKey name elem (some (toHex element)) := by
    rw [elementKey, elementKey, attrSuffix, attrSuffix, List.append_nil, List.append_assoc,
      List.cons_append]
  have hlen' : (elementKey name elem (some (toHex element))).length ≤ maxKeyLen := by
    rw [← htext, length_elementKey, Option.elim_none]
    omega
  exact ⟨name, elem, ⟨_, _, parseKey_elementKey hname helem hparts.attr hlen'⟩, rfl, hparts, rfl,
    FieldKeyRef.buildElement_eq_ok.mpr htext.symm⟩

theorem ne_append_slash (name elem : Bytes) : name ≠ name ++ ascii '/' :: elem := by
  intro h
  have hlen := congrArg List.length h
  rw [List.length_append, List.length_cons] at hlen
  omega

/-- When a built key reads back as it was built. -/
theorem reads_back_iff (list element : Bytes) (attr : Option Bytes) :
    (∀ key read, FieldKeyRef.buildElement list element attr = .ok key →
      FieldKeyRef.parse key.text = .ok read →
        read.list = some list ∧ read.elementBytes = some element ∧ read.attr = attr) ↔
      ¬ IsNested list element attr := by
  constructor
  · intro hread hnested
    obtain ⟨name, elem, key, rfl, hparts, htext, hkey⟩ := hnested.exists_key
    have hlist := (hread key key hkey (FieldKeyRef.parse_eq_ok.mpr rfl)).1
    have hname := (FieldKeyRef.parts_eq hparts htext).1
    exact ne_append_slash name elem (Option.some.inj (hname.symm.trans hlist))
  · intro hnested key read hkey hread
    obtain rfl : read = key := FieldKeyRef.ext (FieldKeyRef.parse_eq_ok.mp hread)
    have htext := FieldKeyRef.buildElement_eq_ok.mp hkey
    have hslash : ascii '/' ∈ read.text := by
      rw [htext]
      exact slash_mem_elementKey _ _ _
    obtain ⟨l, e, a, hparts, hspelled⟩ := FieldKeyRef.exists_parts_of_slash hslash
    obtain ⟨hlist, helement, hattr, -⟩ := FieldKeyRef.parts_eq hparts hspelled
    rcases parts_of_build hparts (htext.symm.trans hspelled) with ⟨rfl, rfl, rfl⟩ | ⟨rfl, rfl, rfl⟩
    · refine ⟨hlist, ?_, hattr⟩
      rw [FieldKeyRef.elementBytes, helement, Option.map_some, ofHex_toHex]
    · refine absurd ⟨l, e, rfl, hparts.list, hparts.element, rfl, hparts.attr _ rfl, ?_⟩ hnested
      have hlen := (parseKey_eq_ok.mp read.parsed).1.2
      rw [htext, length_elementKey, Option.elim_none] at hlen
      omega

/-- A key built from nested parts is built from the parts inside them too. -/
theorem IsNested.exists_other {list element : Bytes} {attr : Option Bytes}
    (h : IsNested list element attr) :
    ∃ key l e a, l ≠ list ∧ FieldKeyRef.buildElement list element attr = .ok key ∧
      FieldKeyRef.buildElement l e a = .ok key := by
  obtain ⟨name, elem, key, rfl, hparts, htext, hkey⟩ := h.exists_key
  refine ⟨key, name, ofHex elem, some (toHex element), ne_append_slash name elem, hkey, ?_⟩
  rw [FieldKeyRef.buildElement_eq_ok, toHex_ofHex hparts.element, htext]

/-- A key of an element reads back as it was built exactly when its parts are not nested. Distinct
parts that are not nested give distinct keys, and the key of nested parts is the key of others. -/
theorem buildElement_reads_back (list element : Bytes) (attr : Option Bytes) :
    ((∀ key read, FieldKeyRef.buildElement list element attr = .ok key →
      FieldKeyRef.parse key.text = .ok read →
        read.list = some list ∧ read.elementBytes = some element ∧ read.attr = attr) ↔
      ¬ IsNested list element attr) ∧
    (∀ list' element' attr' key,
      ¬ IsNested list element attr → ¬ IsNested list' element' attr' →
        FieldKeyRef.buildElement list element attr = .ok key →
          FieldKeyRef.buildElement list' element' attr' = .ok key →
            list = list' ∧ element = element' ∧ attr = attr') ∧
    (IsNested list element attr →
      ∃ key l e a, l ≠ list ∧ FieldKeyRef.buildElement list element attr = .ok key ∧
        FieldKeyRef.buildElement l e a = .ok key) := by
  refine ⟨reads_back_iff list element attr, ?_, fun h => h.exists_other⟩
  intro list' element' attr' key h h' hkey hkey'
  have hself : FieldKeyRef.parse key.text = .ok key := FieldKeyRef.parse_eq_ok.mpr rfl
  obtain ⟨hl, he, ha⟩ := (reads_back_iff list element attr).mpr h key key hkey hself
  obtain ⟨hl', he', ha'⟩ := (reads_back_iff list' element' attr').mpr h' key key hkey' hself
  exact ⟨Option.some.inj (hl.symm.trans hl'), Option.some.inj (he.symm.trans he'),
    ha.symm.trans ha'⟩

theorem buildElement_reads_back_uri :
    ∃ key l e a, l ≠ asciiBytes "uri/0a".toList ∧
      FieldKeyRef.buildElement (asciiBytes "uri/0a".toList) [0xab] none = .ok key ∧
        FieldKeyRef.buildElement l e a = .ok key :=
  (buildElement_reads_back _ _ _).2.2
    ⟨asciiBytes "uri".toList, asciiBytes "0a".toList, by decide, by decide,
      by decide, rfl, by decide, by decide⟩

/-- The element `ab` of the list `uri/0a` reads back as the attribute `ab` of the element `0a`. -/
theorem not_buildElement_reads_back :
    ¬ ∀ list element attr key read, FieldKeyRef.buildElement list element attr = .ok key →
      FieldKeyRef.parse key.text = .ok read →
        read.list = some list ∧ read.elementBytes = some element ∧ read.attr = attr := by
  intro h
  have hkey : parseKey (asciiBytes "uri/0a/ab".toList) = .ok (.element 3 6) := by decide
  have htext : asciiBytes "uri/0a/ab".toList =
      elementKey (asciiBytes "uri/0a".toList) (toHex [0xab]) none := by decide
  have hlist := (h (asciiBytes "uri/0a".toList) [0xab] none ⟨_, _, hkey⟩ ⟨_, _, hkey⟩
    (FieldKeyRef.buildElement_eq_ok.mpr htext) (FieldKeyRef.parse_eq_ok.mpr rfl)).1
  have hne : some ((asciiBytes "uri/0a/ab".toList).take 3) ≠ some (asciiBytes "uri/0a".toList) := by
    decide
  exact hne hlist

end RizzyVault.Core
