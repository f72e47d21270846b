import RizzyVault.Core.Item.Key
import RizzyVault.Lib.Result

/-!
# The item schema

What each key known to this client holds, the item types it belongs to and who writes it, and the
checks a writer runs before a field write is encoded. Keys outside the schema are carried, never
rejected.

## Main definitions

* `ItemType`, `SupportedType`: item types.
* `Expected`, `Applies`, `Writers`, `Concealment`, `KeySpec`, `fixedKeys`: the registry.
* `KeyClass`, `classify`, `neverWritten`: what this client knows about a key.
* `checkWrite`, `checkCarried`, `checkCreate`: the writer checks.

## Main results

* `neverWritten_iff`: the only keys this client never writes are the secrets of shares.
* `key_value_of_checkSource`: what passes its check has a key of the grammar and a value within the
  limit.

## Implementation notes

Unicode normalization is a third-party library, so `isNfc` is a parameter.

## References

* `crates/rizzy-core/src/item/schema.rs`, `crates/rizzy-core/src/item/types.rs`,
  `crates/rizzy-core/src/item/tag.rs`.
-/

open RizzyVault.Lib

namespace RizzyVault.Core

/-- The bytes of an ASCII name. -/
def keyName (name : String) : Bytes := asciiBytes name.toList

/-! ### Item types -/

/-- The 16-bit identifier of an item's type. -/
structure ItemType where
  id : Fin (2 ^ 16)
  deriving DecidableEq

inductive SupportedType
  | login
  | secureNote
  | card
  | identity
  | vaultSettings
  deriving DecidableEq

inductive ItemTypeClass
  | invalid
  | supported (type : SupportedType)
  | reservedM3
  | unassigned
  | reservedSystem
  deriving DecidableEq

def ItemType.class (t : ItemType) : ItemTypeClass :=
  if t.id = 0x0000 then .invalid
  else if t.id = 0x0001 then .supported .login
  else if t.id = 0x0002 then .supported .secureNote
  else if t.id = 0x0003 then .supported .card
  else if t.id = 0x0004 then .supported .identity
  else if t.id ≤ 0x0009 then .reservedM3
  else if t.id ≤ 0xEFFF then .unassigned
  else if t.id = 0xF001 then .supported .vaultSettings
  else .reservedSystem

def ItemType.supported (t : ItemType) : Option SupportedType :=
  match t.class with
  | .supported type => some type
  | _ => none

def SupportedType.isUserItem : SupportedType → Bool
  | vaultSettings => false
  | _ => true

/-! ### Tags -/

inductive TagError
  | notTagKey
  | encoding
  | notNormalized
  | control
  deriving DecidableEq

/-- The value of a lowercase hex digit. -/
def hexValue (digit : Byte) : ℕ :=
  (((digit : ℤ) - 48 - if 57 < digit.val then 0x27 else 0) % 16).toNat

/-- The bytes that pairs of hex digits spell. -/
def ofHex : Bytes → Bytes
  | high :: low :: rest => Fin.ofNat 256 (16 * hexValue high + hexValue low) :: ofHex rest
  | _ => []

/-- The control characters of Unicode. -/
def isControl (c : Char) : Bool := c.toNat < 0x20 ∨ 0x7F ≤ c.toNat ∧ c.toNat < 0xA0

def listField : Bytes := keyName "field"
def listTag : Bytes := keyName "tag"
def listShare : Bytes := keyName "share"
def listUri : Bytes := keyName "uri"
def listPwhist : Bytes := keyName "pwhist"
def listPasskey : Bytes := keyName "passkey"

/-- The name of a tag, from the hex digits of its key. -/
def tagName (isNfc : String → Bool) (key : FieldKeyRef) : Except TagError String :=
  if key.list ≠ some listTag ∨ key.attr.isSome then .error .notTagKey
  else
    match key.element with
    | none => .error .notTagKey
    | some hex =>
      match fromUtf8 (ofHex hex) with
      | none => .error .encoding
      | some text =>
        if !isNfc text then .error .notNormalized
        else if text.toList.any isControl then .error .control
        else .ok text

/-! ### The registry -/

/-- The value a key expects. -/
inductive Expected
  | text
  | bool
  | u64
  | enum
  | sortKey
  | bytes (len : ℕ)
  | bytesMax (len : ℕ)
  | customFieldValue
  | tagMarker
  deriving DecidableEq

/-- Whether `value` is what the key expects. A cleared value always is. -/
def Expected.accepts : Expected → ValueRef → Bool
  | _, .cleared => true
  | .text, .text _ | .customFieldValue, .text _ => true
  | .bool, .bool _ | .customFieldValue, .bool _ => true
  | .u64, .u64 _ => true
  | .enum, .enum _ => true
  | .sortKey, .sortKey _ => true
  | .tagMarker, .bool b => b
  | .bytes len, .bytes payload => payload.length = len
  | .bytesMax len, .bytes payload => payload.length ≤ len
  | _, _ => false

/-- The item types a key belongs to. -/
inductive Applies
  | all
  | only (type : SupportedType)
  deriving DecidableEq

def Applies.includes : Applies → SupportedType → Bool
  | all, _ => true
  | only t, itemType => t = itemType

/-- Who writes a key. -/
inductive Writers
  | any
  | createOnly
  | importOnly
  | notInM1
  deriving DecidableEq

inductive Concealment
  | shown
  | concealed
  | ifHiddenField
  deriving DecidableEq

/-- What the schema says about one known key. -/
structure KeySpec where
  expected : Expected
  applies : Applies
  writers : Writers
  concealment : Concealment
  deriving DecidableEq

def textSpec (applies : Applies) : KeySpec := ⟨.text, applies, .any, .shown⟩

def secretText (applies : Applies) : KeySpec := ⟨.text, applies, .any, .concealed⟩

def itemTypeKey : Bytes := keyName "item.type"
def importCreatedMs : Bytes := keyName "import.created_ms"

def fixedKeys : List (Bytes × KeySpec) :=
  [(itemTypeKey, ⟨.enum, .all, .createOnly, .shown⟩),
   (keyName "item.name", textSpec .all),
   (keyName "item.notes", textSpec .all),
   (keyName "item.favorite", ⟨.bool, .all, .any, .shown⟩),
   (importCreatedMs, ⟨.u64, .all, .importOnly, .shown⟩),
   (keyName "login.username", textSpec (.only .login)),
   (keyName "login.password", secretText (.only .login)),
   (keyName "login.totp", secretText (.only .login)),
   (keyName "card.holder", textSpec (.only .card)),
   (keyName "card.number", secretText (.only .card)),
   (keyName "card.brand", textSpec (.only .card)),
   (keyName "card.exp_month", textSpec (.only .card)),
   (keyName "card.exp_year", textSpec (.only .card)),
   (keyName "card.code", secretText (.only .card)),
   (keyName "card.pin", secretText (.only .card)),
   (keyName "identity.title", textSpec (.only .identity)),
   (keyName "identity.first_name", textSpec (.only .identity)),
   (keyName "identity.middle_name", textSpec (.only .identity)),
   (keyName "identity.last_name", textSpec (.only .identity)),
   (keyName "identity.company", textSpec (.only .identity)),
   (keyName "identity.email", textSpec (.only .identity)),
   (keyName "identity.phone", textSpec (.only .identity)),
   (keyName "identity.username", textSpec (.only .identity)),
   (keyName "identity.address1", textSpec (.only .identity)),
   (keyName "identity.address2", textSpec (.only .identity)),
   (keyName "identity.address3", textSpec (.only .identity)),
   (keyName "identity.city", textSpec (.only .identity)),
   (keyName "identity.state", textSpec (.only .identity)),
   (keyName "identity.postal_code", textSpec (.only .identity)),
   (keyName "identity.country", textSpec (.only .identity)),
   (keyName "identity.ssn", secretText (.only .identity)),
   (keyName "identity.passport_number", secretText (.only .identity)),
   (keyName "identity.drivers_license", textSpec (.only .identity)),
   (keyName "vault.name", textSpec (.only .vaultSettings)),
   (keyName "vault.icon", textSpec (.only .vaultSettings))]

def m3TypeNamespaces : List Bytes :=
  [keyName "ssh", keyName "api", keyName "license", keyName "wifi", keyName "bank"]

/-- What a reserved key is reserved for. -/
inductive ReservedFor
  | m3Types
  | m3Attachments
  | m5Share
  | passkeyDotKeys
  deriving DecidableEq

/-- What this client knows about a key. -/
inductive KeyClass
  | known (spec : KeySpec)
  | reserved (reservedFor : ReservedFor)
  | unknown
  deriving DecidableEq

def attrLabel : Bytes := keyName "label"
def attrKind : Bytes := keyName "kind"
def attrValue : Bytes := keyName "value"
def attrOrder : Bytes := keyName "order"
def attrMatch : Bytes := keyName "match"
def attrSecret : Bytes := keyName "secret"
def attrMs : Bytes := keyName "ms"

/-- The class of a key of the `passkey` list, by its attribute. -/
def classifyPasskey (attr : Option Bytes) : KeyClass :=
  let known := fun expected concealment =>
    KeyClass.known ⟨expected, .only .login, .any, concealment⟩
  if attr = some (keyName "rp_id") then known .text .shown
  else if attr = some (keyName "user_handle") then known (.bytesMax 64) .shown
  else if attr = some (keyName "credential_id") then known (.bytesMax 1024) .shown
  else if attr = some (keyName "private_key") then known (.bytes 32) .concealed
  else if attr = some (keyName "public_key_cose") then known (.bytesMax 256) .shown
  else if attr = some (keyName "alg") then known .enum .shown
  else if attr = some (keyName "discoverable") then known .bool .shown
  else if attr = some (keyName "created_ms") then known .u64 .shown
  else .unknown

/-- The class of an element key, by its list and attribute; of a tag key also by its hex. -/
def classifyElement (isNfc : String → Bool) (key : FieldKeyRef) : KeyClass :=
  let list := key.namespaceName
  let attr := key.attr
  if list = listField ∧ attr = some attrLabel then .known ⟨.text, .all, .any, .shown⟩
  else if list = listField ∧ attr = some attrKind then .known ⟨.enum, .all, .any, .shown⟩
  else if list = listField ∧ attr = some attrValue then
    .known ⟨.customFieldValue, .all, .any, .ifHiddenField⟩
  else if (list = listField ∨ list = listUri) ∧ attr = some attrOrder then
    .known ⟨.sortKey, if list = listUri then .only .login else .all, .any, .shown⟩
  -- A malformed tag key falls through to `unknown` below.
  else if list = listTag ∧ attr = none ∧ (tagName isNfc key).isOk then
    .known ⟨.tagMarker, .all, .any, .shown⟩
  else if list = listShare ∧ attr = some attrSecret then
    .known ⟨.bytes 32, .all, .notInM1, .concealed⟩
  else if list = listShare then .reserved .m5Share
  else if (list = listUri ∨ list = listPwhist) ∧ attr = some attrValue then
    .known ⟨.text, .only .login, .any, .shown⟩
  else if list = listUri ∧ attr = some attrMatch then .known ⟨.enum, .only .login, .any, .shown⟩
  else if list = listPwhist ∧ attr = some attrMs then .known ⟨.u64, .only .login, .any, .shown⟩
  else if list = listPasskey then classifyPasskey attr
  else if list = keyName "attachment" then .reserved .m3Attachments
  else .unknown

/-- Looks a key up in the schema. -/
def classify (isNfc : String → Bool) (key : FieldKeyRef) : KeyClass :=
  match key.kind with
  | .fixed =>
    match fixedKeys.find? fun entry => entry.1 = key.text with
    | some (_, spec) => .known spec
    | none =>
      if m3TypeNamespaces.contains key.namespaceName then .reserved .m3Types
      else if key.namespaceName = keyName "passkey" then .reserved .passkeyDotKeys
      else .unknown
  | .element => classifyElement isNfc key

/-! ### The writer checks -/

/-- The operation a write belongs to. -/
inductive WriteMode
  | create
  | import
  | edit
  deriving DecidableEq

def WriteMode.isCreate : WriteMode → Bool
  | .create | .import => true
  | .edit => false

/-- Where the key and value of a write come from. -/
inductive WriteSource
  | entered
  | carried
  deriving DecidableEq

/-- Why a writer must not write a field. -/
inductive WriteError
  | key (error : KeyError)
  | valueTooLong
  | malformedValue
  | unknownKey
  | reservedKey
  | unsupportedItemType
  | wrongItemType
  | notWritable
  | unexpectedValue
  | emptyText
  | blankInCreate
  | missingItemType
  deriving DecidableEq

/-- The rules of a known key that do not look at the value. -/
def checkPlacement (spec : KeySpec) (itemType : SupportedType) (mode : WriteMode) :
    Except WriteError Unit :=
  if !spec.applies.includes itemType then .error .wrongItemType
  else
    match spec.writers with
    | .any => .ok ()
    | .createOnly => if mode.isCreate then .ok () else .error .notWritable
    | .importOnly => if mode = .import then .ok () else .error .notWritable
    | .notInM1 => .error .notWritable

/-- The rules of a known key that look at an entered value. -/
def checkValue (itemType : ItemType) (spec : KeySpec) (key : FieldKeyRef) (value : ValueRef) :
    Except WriteError Unit :=
  match value with
  | .cleared => .ok ()
  | .text text => if text = "" then .error .emptyText
    else if spec.expected.accepts value then .ok () else .error .unexpectedValue
  | .enum id => if key.text = itemTypeKey ∧ id ≠ itemType.id.val then .error .unexpectedValue
    else if spec.expected.accepts value then .ok () else .error .unexpectedValue
  | _ => if spec.expected.accepts value then .ok () else .error .unexpectedValue

/-- Checks one entered field write. -/
def checkWrite (isNfc : String → Bool) (itemType : ItemType) (mode : WriteMode)
    (key value : Bytes) : Except WriteError Unit :=
  match FieldKeyRef.parse key with
  | .error e => .error (.key e)
  | .ok key =>
    match ValueRef.decode value with
    | .error .tooLong => .error .valueTooLong
    | .error _ => .error .malformedValue
    | .ok value =>
      match itemType.supported with
      | none => .error .unsupportedItemType
      | some supported =>
        if value.isCleared && mode.isCreate then .error .blankInCreate
        else
          match classify isNfc key with
          | .known spec => do
            checkPlacement spec supported mode
            checkValue itemType spec key value
          -- Only in an edit, here: the removal of a list element.
          | .unknown => if value.isCleared then .ok () else .error .unknownKey
          | .reserved _ => if value.isCleared then .ok () else .error .reservedKey

/-- Checks one carried field write: a key and a value copied from an existing item. -/
def checkCarried (isNfc : String → Bool) (itemType : ItemType) (mode : WriteMode)
    (key value : Bytes) : Except WriteError Unit :=
  if value.isEmpty then checkWrite isNfc itemType mode key value
  else
    match FieldKeyRef.parse key with
    | .error e => .error (.key e)
    | .ok parsed =>
      if maxValueLen < value.length then .error .valueTooLong
      else
        match itemType.supported with
        | none => .error .unsupportedItemType
        | some supported =>
          match classify isNfc parsed with
          | .known spec => do
            checkPlacement spec supported mode
            if parsed.text ≠ itemTypeKey then .ok ()
            else
              match ValueRef.decode value with
              | .ok (.enum id) => if id = itemType.id.val then .ok () else .error .unexpectedValue
              | .ok _ => .error .unexpectedValue
              | .error _ => .error .malformedValue
          | .unknown | .reserved _ => .ok ()

/-- Checks one write by its source. -/
def checkSource (isNfc : String → Bool) (itemType : ItemType) (mode : WriteMode)
    (w : WriteSource × Bytes × Bytes) : Except WriteError Unit :=
  match w.1 with
  | .entered => checkWrite isNfc itemType mode w.2.1 w.2.2
  | .carried => checkCarried isNfc itemType mode w.2.1 w.2.2

/-- Checks the field writes of a create operation. -/
def checkCreate (isNfc : String → Bool) (itemType : ItemType) (mode : WriteMode)
    (writes : List (WriteSource × Bytes × Bytes)) : Except WriteError Unit := do
  writes.forM (checkSource isNfc itemType mode)
  if writes.any fun w => w.2.1 = itemTypeKey then .ok () else .error .missingItemType

/-! ### What the schema says -/

variable {isNfc : String → Bool}

/-- Whether this client carries the key and never writes it. -/
def neverWritten (isNfc : String → Bool) (key : FieldKeyRef) : Bool :=
  match classify isNfc key with
  | .known spec => spec.writers = .notInM1
  | _ => false

/-- Some writer of this client may write the key, if it is a known one. -/
def KeyClass.Writable : KeyClass → Prop
  | .known spec => spec.writers ≠ .notInM1
  | _ => True

theorem neverWritten_iff_not_writable {key : FieldKeyRef} :
    neverWritten isNfc key ↔ ¬ (classify isNfc key).Writable := by
  rw [neverWritten]
  cases classify isNfc key <;> simp [KeyClass.Writable]

theorem fixedKeys_written : ∀ entry ∈ fixedKeys, entry.2.writers ≠ .notInM1 := by
  decide

theorem KeyClass.writable_ite {c : Prop} [Decidable c] {a b : KeyClass} (ha : a.Writable)
    (hb : b.Writable) : (if c then a else b).Writable :=
  iteInduction (fun _ => ha) fun _ => hb

theorem writable_classifyPasskey (attr : Option Bytes) : (classifyPasskey attr).Writable := by
  rw [classifyPasskey]
  dsimp only
  with_reducible repeat' apply KeyClass.writable_ite
  all_goals first | trivial | nofun

theorem list_eq_some_iff {key : FieldKeyRef} {l : Bytes} :
    key.list = some l ↔ key.kind = .element ∧ key.namespaceName = l := by
  unfold FieldKeyRef.list FieldKeyRef.kind FieldKeyRef.namespaceName
  cases key.layout <;> simp

theorem writable_classifyElement {key : FieldKeyRef} (hkey : key.namespaceName ≠ listShare) :
    (classifyElement isNfc key).Writable := by
  simp only [classifyElement, hkey, false_and, if_false]
  with_reducible
    repeat' apply KeyClass.writable_ite
    any_goals exact writable_classifyPasskey _
  all_goals first | trivial | nofun

/-- In the list of shares, only the secret is a known key. -/
theorem classifyElement_share {key : FieldKeyRef} (hkey : key.namespaceName = listShare) :
    classifyElement isNfc key =
      if key.attr = some attrSecret then .known ⟨.bytes 32, .all, .notInM1, .concealed⟩
      else .reserved .m5Share := by
  have hne : ∀ l ∈ [listField, listUri, listTag], ¬ listShare = l := by decide
  obtain ⟨hfield, huri, htag, -⟩ := by simpa only [List.forall_mem_cons] using hne
  simp only [classifyElement, hkey, hfield, huri, htag, false_and, or_self, if_false, true_and,
    if_true]

/-- The only keys this client never writes are the secrets of shares. -/
theorem neverWritten_iff {key : FieldKeyRef} :
    neverWritten isNfc key ↔ key.list = some listShare ∧ key.attr = some attrSecret := by
  rw [neverWritten_iff_not_writable, list_eq_some_iff, classify]
  cases hkind : key.kind with
  | fixed =>
    simp only [reduceCtorEq, false_and, iff_false, not_not]
    split
    · rename_i entry hentry
      exact fixedKeys_written _ (List.mem_of_find?_eq_some hentry)
    · with_reducible repeat' apply KeyClass.writable_ite
      all_goals trivial
  | element =>
    simp only [true_and]
    by_cases hkey : key.namespaceName = listShare
    · rw [classifyElement_share hkey]
      split_ifs with hattr
      · exact iff_of_true (fun h => h rfl) ⟨hkey, hattr⟩
      · exact iff_of_false (fun h => h trivial) fun h => hattr h.2
    · exact iff_of_false (fun h => h (writable_classifyElement hkey)) fun h => hkey h.1

/-- What an entered write that passes its check has. -/
theorem key_value_of_checkWrite {itemType : ItemType} {mode : WriteMode} {key value : Bytes}
    (h : checkWrite isNfc itemType mode key value = .ok ()) :
    (∃ layout, parseKey key = .ok layout) ∧ value.length ≤ maxValueLen := by
  unfold checkWrite at h
  split at h
  · cases h
  · rename_i parsed hparsed
    refine ⟨⟨parsed.layout, FieldKeyRef.parse_eq_ok.mp hparsed ▸ parsed.parsed⟩, ?_⟩
    by_contra hlen
    have hlong : ValueRef.decode value = .error .tooLong := if_pos (not_le.mp hlen)
    rw [hlong] at h
    cases h

theorem key_value_of_checkSource {itemType : ItemType} {mode : WriteMode}
    {w : WriteSource × Bytes × Bytes} (h : checkSource isNfc itemType mode w = .ok ()) :
    (∃ layout, parseKey w.2.1 = .ok layout) ∧ w.2.2.length ≤ maxValueLen := by
  obtain ⟨source, key, value⟩ := w
  cases source with
  | entered => exact key_value_of_checkWrite h
  | carried =>
    simp only [checkSource, checkCarried] at h
    split_ifs at h with hempty hlen
    · exact key_value_of_checkWrite h
    · split at h <;> cases h
    · split at h
      · cases h
      · rename_i parsed hparsed
        exact ⟨⟨parsed.layout, FieldKeyRef.parse_eq_ok.mp hparsed ▸ parsed.parsed⟩, not_lt.mp hlen⟩

/-- The writes of a create operation that pass its checks. -/
theorem checkCreate_eq_ok_iff {itemType : ItemType} {mode : WriteMode}
    {writes : List (WriteSource × Bytes × Bytes)} :
    checkCreate isNfc itemType mode writes = .ok () ↔
      (∀ w ∈ writes, checkSource isNfc itemType mode w = .ok ()) ∧
        ∃ w ∈ writes, w.2.1 = itemTypeKey := by
  rw [checkCreate, except_bind_eq_ok]
  constructor
  · rintro ⟨⟨⟩, hall, h⟩
    split_ifs at h with htype
    simp only [List.any_eq_true, decide_eq_true_eq] at htype
    exact ⟨forM_eq_ok.mp hall, htype⟩
  · rintro ⟨hall, w, hw, hkey⟩
    refine ⟨(), forM_eq_ok.mpr hall, if_pos ?_⟩
    exact List.any_eq_true.mpr ⟨w, hw, decide_eq_true hkey⟩

end RizzyVault.Core
