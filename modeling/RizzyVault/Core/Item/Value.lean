import RizzyVault.Core.FieldKey
import RizzyVault.Lib.Codec
import RizzyVault.Lib.Text

/-!
# Field values

A value is empty (cleared) or a type byte with a payload, at most 65,536 bytes in all. What does
not decode is unsupported, never rejected.

## Main definitions

* `ValueType`, `ValueError`, `ValueRef`, `ValueRef.decode`: the decoder.
* `Value`: an encoded value within the limit.
* `SortKey`: the payload of a list element's place.

## References

* `crates/rizzy-core/src/item/value.rs`.
-/

open RizzyVault.Lib

namespace RizzyVault.Core

def maxValueLen : ℕ := 65536

def maxSortKeyLen : ℕ := 64

inductive ValueType
  | text
  | bytes
  | bool
  | u64
  | enum
  | sortKey
  deriving DecidableEq

namespace ValueType

def id : ValueType → Byte
  | text => 1
  | bytes => 2
  | bool => 3
  | u64 => 4
  | enum => 5
  | sortKey => 6

def fromId (id : Byte) : Option ValueType :=
  if id = 1 then some text
  else if id = 2 then some bytes
  else if id = 3 then some bool
  else if id = 4 then some u64
  else if id = 5 then some enum
  else if id = 6 then some sortKey
  else none

theorem fromId_eq_some {b : Byte} {t : ValueType} : fromId b = some t ↔ b = t.id := by
  constructor
  · intro h
    unfold fromId at h
    split_ifs at h <;> cases h <;> assumption
  · rintro rfl
    cases t <;> rfl

end ValueType

/-- Why bytes are no value this client reads. -/
inductive ValueError
  | tooLong
  | unknownType
  | malformed
  deriving DecidableEq

/-- Whether `payload` is a sort key: 1 to 64 bytes, the last one not zero. -/
def isSortKey (payload : Bytes) : Bool :=
  payload.length ≤ maxSortKeyLen && payload.getLast?.any fun last => last ≠ 0

/-- A decoded value. -/
inductive ValueRef
  | cleared
  | text (string : String)
  | bytes (bytes : Bytes)
  | bool (value : Bool)
  | u64 (value : ℕ)
  | enum (value : ℕ)
  | sortKey (payload : Bytes)
  deriving DecidableEq

namespace ValueRef

def isCleared : ValueRef → Bool
  | cleared => true
  | _ => false

/-- The payload of a value of the given type. -/
def decodePayload (payload : Bytes) : ValueType → Except ValueError ValueRef
  | ValueType.text =>
    match fromUtf8 payload with
    | some string => .ok (.text string)
    | none => .error .malformed
  | .bytes => .ok (.bytes payload)
  | .bool =>
    if payload = [0] then .ok (.bool false)
    else if payload = [1] then .ok (.bool true)
    else .error .malformed
  | .u64 => if payload.length = 8 then .ok (.u64 (ofBe payload)) else .error .malformed
  | .enum => if payload.length = 2 then .ok (.enum (ofBe payload)) else .error .malformed
  | .sortKey => if isSortKey payload then .ok (.sortKey payload) else .error .malformed

/-- Decodes an encoded value. -/
def decode (encoded : Bytes) : Except ValueError ValueRef :=
  if maxValueLen < encoded.length then .error .tooLong
  else
    match encoded with
    | [] => .ok .cleared
    | typeId :: payload =>
      match ValueType.fromId typeId with
      | none => .error .unknownType
      | some valueType => decodePayload payload valueType

end ValueRef

/-! ### Encoded values -/

/-- An encoded value within the limit. -/
structure Value where
  bytes : Bytes
  le : bytes.length ≤ maxValueLen
  deriving DecidableEq

namespace Value

def cleared : Value := ⟨[], Nat.zero_le _⟩

/-- The encoded bytes as a value, if they are within the limit. -/
def copyFromEncoded (encoded : Bytes) : Except ValueError Value :=
  if h : encoded.length ≤ maxValueLen then .ok ⟨encoded, h⟩ else .error .tooLong

def enumeration (value : ℕ) : Value :=
  ⟨ValueType.enum.id :: beBytes 2 value, by
    rw [List.length_cons, length_beBytes, maxValueLen]
    decide⟩

@[simp]
theorem bytes_cleared : cleared.bytes = [] := rfl

theorem copyFromEncoded_eq_ok {encoded : Bytes} {v : Value} :
    copyFromEncoded encoded = .ok v ↔ v.bytes = encoded := by
  unfold copyFromEncoded
  split_ifs with h
  · obtain ⟨bytes, le⟩ := v
    simp only [Except.ok.injEq, mk.injEq]
    exact eq_comm
  · refine iff_of_false (fun h' => by cases h') ?_
    rintro rfl
    exact h v.le

@[ext]
theorem ext {v w : Value} (h : v.bytes = w.bytes) : v = w := by
  cases v
  cases w
  cases h
  rfl

end Value

/-! ### Sort keys -/

/-- A list element's place: 1 to 64 bytes compared bytewise, the last one not zero. -/
structure SortKey where
  bytes : Bytes
  valid : isSortKey bytes
  deriving DecidableEq

namespace SortKey

def fromSlice (payload : Bytes) : Except ValueError SortKey :=
  if h : isSortKey payload then .ok ⟨payload, h⟩ else .error .malformed

theorem fromSlice_bytes (key : SortKey) : fromSlice key.bytes = .ok key := dif_pos key.valid

theorem fromSlice_eq_ok {payload : Bytes} {key : SortKey} :
    fromSlice payload = .ok key ↔ key.bytes = payload := by
  constructor
  · intro h
    unfold fromSlice at h
    split_ifs at h
    cases h
    rfl
  · rintro rfl
    exact key.fromSlice_bytes

@[ext]
theorem ext {a b : SortKey} (h : a.bytes = b.bytes) : a = b := by
  cases a
  cases b
  cases h
  rfl

theorem length_le (key : SortKey) : key.bytes.length ≤ maxSortKeyLen := by
  have := key.valid
  rw [isSortKey, Bool.and_eq_true, decide_eq_true_eq] at this
  exact this.1

end SortKey

/-- The value of a list element's place. -/
def Value.sortKey (key : SortKey) : Value :=
  ⟨ValueType.sortKey.id :: key.bytes, by
    have := key.length_le
    rw [List.length_cons]
    unfold maxSortKeyLen at this
    unfold maxValueLen
    omega⟩

/-- The values that decode to a place are the type byte before it. -/
theorem ValueRef.decode_eq_sortKey {encoded payload : Bytes} :
    ValueRef.decode encoded = .ok (.sortKey payload) ↔
      isSortKey payload ∧ encoded = ValueType.sortKey.id :: payload := by
  constructor
  · intro h
    unfold ValueRef.decode at h
    split_ifs at h
    split at h
    · cases h
    · rename_i typeId rest
      split at h
      · cases h
      · rename_i valueType ht
        rw [ValueType.fromId_eq_some] at ht
        cases valueType <;> simp only [decodePayload] at h
        · split at h <;> cases h
        · cases h
        · split_ifs at h <;> cases h
        · split_ifs at h
          cases h
        · split_ifs at h
          cases h
        · split_ifs at h with hs
          cases h
          exact ⟨hs, ht ▸ rfl⟩
  · rintro ⟨hs, rfl⟩
    have hlen : (ValueType.sortKey.id :: payload).length ≤ maxValueLen :=
      (Value.sortKey ⟨payload, hs⟩).le
    rw [ValueRef.decode, if_neg (not_lt.mpr hlen)]
    exact if_pos hs

@[simp]
theorem ValueRef.decode_sortKey (key : SortKey) :
    ValueRef.decode (Value.sortKey key).bytes = .ok (.sortKey key.bytes) :=
  ValueRef.decode_eq_sortKey.mpr ⟨key.valid, rfl⟩

end RizzyVault.Core
