import RizzyVault.Lib.Words

/-!
# Text as bytes

The UTF-8 bytes of a string, and the strict reading of bytes as UTF-8: it accepts exactly the bytes
of a string.

## Main definitions

* `utf8`, `fromUtf8`.
* `encodeChar`: the bytes of one character.

## Main results

* `fromUtf8_eq_some`: what is accepted is the encoding of what is returned.
* `encodeChar_of_ascii`: an ASCII byte is a character of its own.
-/

namespace RizzyVault.Lib

/-- The UTF-8 bytes of a text. -/
def utf8 (t : String) : List (Fin 256) := t.toByteArray.data.toList.map UInt8.toFin

/-- The text that bytes encode, if they are valid UTF-8. -/
def fromUtf8 (bytes : List (Fin 256)) : Option String :=
  String.fromUTF8? (bytes.map UInt8.ofFin).toByteArray

theorem toByteArray_utf8 (t : String) : ((utf8 t).map UInt8.ofFin).toByteArray = t.toByteArray := by
  apply ByteArray.ext
  simp [utf8, Function.comp_def]

/-- The accepted bytes are the encoding of the text. -/
theorem fromUtf8_eq_some {bytes : List (Fin 256)} {t : String} :
    fromUtf8 bytes = some t ↔ utf8 t = bytes := by
  unfold fromUtf8 String.fromUTF8?
  constructor
  · intro h
    split_ifs at h with hv
    obtain rfl := Option.some.inj h
    simp [utf8, String.fromUTF8, Function.comp_def]
  · rintro rfl
    rw [toByteArray_utf8, dif_pos t.isValidUTF8]
    rfl

theorem length_utf8 (t : String) : (utf8 t).length = t.utf8ByteSize := by
  simp [utf8]

example : fromUtf8 [0xC3, 0x29] = none := by decide +kernel

/-! ### Characters -/

/-- The UTF-8 bytes of a character. -/
def encodeChar (c : Char) : List (Fin 256) := (String.utf8EncodeChar c).map UInt8.toFin

theorem utf8_eq_flatMap (t : String) : utf8 t = t.toList.flatMap encodeChar := by
  unfold utf8 encodeChar
  rw [← String.utf8Encode_toList, List.utf8Encode]
  simp [List.map_flatMap]

theorem utf8_append (s t : String) : utf8 (s ++ t) = utf8 s ++ utf8 t := by
  simp [utf8_eq_flatMap]

theorem val_toFin_ofNat (n : ℕ) : (UInt8.ofNat n).toFin.val = n % 256 := rfl

/-- Only an ASCII character has an ASCII byte, and then no other. -/
theorem encodeChar_of_ascii {c : Char} {b : Fin 256} (hb : b ∈ encodeChar c) (h : b.val < 128) :
    encodeChar c = [b] ∧ c.toNat = b.val := by
  revert hb
  unfold encodeChar String.utf8EncodeChar
  have hc : c.toNat = c.val.toNat := rfl
  rw [hc]
  generalize c.val.toNat = n
  simp only
  split_ifs <;> simp only [List.map_cons, List.map_nil, List.mem_cons, List.not_mem_nil, or_false,
    Fin.ext_iff, val_toFin_ofNat, List.cons.injEq, and_true] <;> omega

theorem encodeChar_eq_singleton {c : Char} (h : c.toNat < 128) :
    ∃ b : Fin 256, b.val = c.toNat ∧ encodeChar c = [b] := by
  refine ⟨⟨c.toNat, by omega⟩, rfl, ?_⟩
  unfold encodeChar String.utf8EncodeChar
  have hc : c.val.toNat = c.toNat := rfl
  rw [hc, if_pos (by omega)]
  simp only [List.map_cons, List.map_nil, List.cons.injEq, and_true, Fin.ext_iff, val_toFin_ofNat]
  omega

/-- ASCII bytes are the bytes of a text. -/
theorem fromUtf8_isSome_of_ascii {bytes : List (Fin 256)} (h : ∀ b ∈ bytes, b.val < 128) :
    (fromUtf8 bytes).isSome = true := by
  obtain ⟨cs, hcs⟩ : ∃ cs : List Char, cs.flatMap encodeChar = bytes := by
    induction bytes with
    | nil => exact ⟨[], rfl⟩
    | cons b bytes ih =>
      obtain ⟨hb, hbytes⟩ := List.forall_mem_cons.mp h
      obtain ⟨cs, hcs⟩ := ih hbytes
      have hchar : (Char.ofNat b.val).toNat = b.val := by
        rw [Char.toNat_ofNat, if_pos (.inl (by omega))]
      obtain ⟨b', hb', hencode⟩ := encodeChar_eq_singleton (c := Char.ofNat b.val) (by omega)
      obtain rfl : b' = b := Fin.ext (hb'.trans hchar)
      exact ⟨Char.ofNat b'.val :: cs, by rw [List.flatMap_cons, hencode, hcs]; rfl⟩
  have htext : fromUtf8 bytes = some (String.ofList cs) := by
    rw [fromUtf8_eq_some, utf8_eq_flatMap, String.toList_ofList, hcs]
  rw [htext]
  rfl

end RizzyVault.Lib
