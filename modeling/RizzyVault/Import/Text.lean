import RizzyVault.Lib.Text

/-!
# The texts of import files

What all text readers share: why an import fails, and the gate that every text input passes. Past
the gate a text is read by its characters: the readers test ASCII bytes only, and in UTF-8 an ASCII
byte is a character of its own.

## Main definitions

* `ImportError`, `utf8Input`.
* `fromU32`: the character with a code point.

## Main results

* `utf8Input_eq_ok_iff`: what passes the gate.

## References

* `crates/rizzy-import/src/text.rs`, `crates/rizzy-import/src/error.rs`.
-/

open RizzyVault.Lib

namespace RizzyVault.Import

abbrev Byte := Fin 256

/-- Why a whole import failed. -/
inductive ImportError
  | tooLarge
  | malformed
  | encoding
  | tooDeep
  | tooMany
  | unexpectedShape
  | encryptedExport
  | kdbxNotSupported
  | archiveUnsupported
  | checksum
  | doctype
  | updateRequired
  deriving DecidableEq, Repr

abbrev Result (α : Type) := Except ImportError α

/-- The character with a code point. -/
def fromU32 (code : ℕ) : Result Char :=
  if code.isValidChar then .ok (Char.ofNat code) else .error .malformed

theorem fromU32_eq_ok_iff {n : ℕ} {c : Char} :
    fromU32 n = .ok c ↔ n.isValidChar ∧ c = Char.ofNat n := by
  unfold fromU32
  split_ifs with h
  · simp [h, eq_comm]
  · simp [h]

/-- The UTF-8 byte-order mark. -/
def bom : List Byte := [0xEF, 0xBB, 0xBF]

/-- The input without a leading byte-order mark. -/
def body (input : List Byte) : List Byte := if bom <+: input then input.drop bom.length else input

/-- Checks the size, drops a byte-order mark, and checks that the rest is UTF-8. -/
def utf8Input (input : List Byte) (maxLen : ℕ) : Except ImportError (List Char) :=
  if maxLen < input.length then .error .tooLarge
  else
    match fromUtf8 (body input) with
    | some text => .ok text.toList
    | none => .error .encoding

theorem utf8Input_eq_ok_iff {input : List Byte} {maxLen : ℕ} {src : List Char} :
    utf8Input input maxLen = .ok src ↔
      input.length ≤ maxLen ∧ utf8 (String.ofList src) = body input := by
  unfold utf8Input
  split_ifs with hlen
  · simp [Nat.not_le.mpr hlen]
  · simp only [Nat.le_of_not_lt hlen, true_and]
    constructor
    · intro h
      split at h
      · rename_i text htext
        cases h
        rw [String.ofList_toList, fromUtf8_eq_some.mp htext]
      · cases h
    · intro h
      rw [fromUtf8_eq_some.mpr h]
      simp

/-- An input that starts with another byte has no byte-order mark. -/
theorem body_of_head {input : List Byte} (h : input.head? ≠ some 0xEF) : body input = input := by
  unfold body
  rw [if_neg]
  rintro ⟨rest, rfl⟩
  exact h rfl

theorem length_body_le (input : List Byte) : (body input).length ≤ input.length := by
  unfold body
  split_ifs
  · simp
  · rfl

/-! ### Lengths in bytes -/

theorem length_encodeChar_le (c : Char) : (encodeChar c).length ≤ 4 := by
  rw [encodeChar, List.length_map, String.length_utf8EncodeChar]
  exact c.utf8Size_le_four

theorem length_encodeChar_pos (c : Char) : 0 < (encodeChar c).length := by
  rw [encodeChar, List.length_map, String.length_utf8EncodeChar]
  exact c.utf8Size_pos

theorem length_le_encode (t : List Char) : t.length ≤ (t.flatMap encodeChar).length := by
  induction t with
  | nil => simp
  | cons c t ih =>
    have hpos := length_encodeChar_pos c
    rw [List.length_cons, List.flatMap_cons, List.length_append]
    omega

end RizzyVault.Import
