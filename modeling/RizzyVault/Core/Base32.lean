import RizzyVault.Core.SecretKey
import RizzyVault.Lib.Split

/-!
# Base32

A one-time code's secret is typed in Base32: each letter is five bits, and the bits in a row are cut
into bytes. The letters are found by arithmetic and the bits move through an accumulator.

## Main definitions

* `base32Value`, `base32Char`: a letter and its five bits.
* `base32Decode`, `base32Encode`.
* `Denotes`: a text and the bytes it stands for, by its bits.

## Main results

* `base32Decode_eq_ok_iff`: exactly the texts that stand for a secret are read.
* `denotes_base32Encode`: what is written stands for the bytes.

## References

* `crates/rizzy-core/src/totp.rs`.
-/

open RizzyVault.Lib

namespace RizzyVault.Core

namespace Totp

open SecretKey (inRange)

def minSecretLen : ℕ := 1

def maxSecretLen : ℕ := 128

def maxBase32Len : ℕ := (maxSecretLen + 4) / 5 * 8

/-- Why a value or a URI was rejected. -/
inductive TotpError
  | unsupportedAlgorithm
  | invalidDigits
  | invalidPeriod
  | invalidCounter
  | invalidSecret
  | invalidUri
  | missingParameter
  | duplicateParameter
  deriving DecidableEq

/-- A shared secret. -/
abbrev TotpSecret := {bs : Bytes // minSecretLen ≤ bs.length ∧ bs.length ≤ maxSecretLen}

/-! ### Letters -/

/-- The five bits of a letter of either case, and whether it is one. -/
def base32Value (b : Byte) : Byte × Bool :=
  let c := b ^^^ (inRange b (ascii 'a') (ascii 'z') &&& 0x20)
  let letter := inRange c (ascii 'A') (ascii 'Z')
  let digit := inRange c (ascii '2') (ascii '7')
  let value := (letter &&& (c - ascii 'A')) ||| (digit &&& (c - ascii '2' + 26))
  (value, (letter ||| digit) != 0)

/-- The letter of five bits. -/
def base32Char (v : Byte) : Byte :=
  let v := v &&& 0x1f
  ascii 'A' + v - (inRange v 26 31 &&& 0x29)

/-! ### Texts to bytes -/

/-- The state of the decoding loop: the bytes, the pending bits and their number. -/
structure Decoder where
  out : Bytes
  acc : ℕ
  bits : ℕ
  valid : Bool

def Decoder.step (s : Decoder) (b : Byte) : Decoder :=
  let decoded := base32Value b
  let valid := s.valid && decoded.2
  let acc := (s.acc <<< 5) ||| decoded.1.val
  let bits := s.bits + 5
  if 8 ≤ bits then
    let left := bits - 8
    { out := s.out ++ [Fin.ofNat 256 ((acc >>> left) &&& 0xff)]
      acc := acc &&& ((1 <<< left) - 1)
      bits := left
      valid }
  else { s with acc, bits, valid }

/-- How much padding follows a number of letters, taken modulo 8. -/
def expectedPad : ℕ → Option ℕ
  | 0 => some 0
  | 2 => some 6
  | 4 => some 4
  | 5 => some 3
  | 7 => some 1
  | _ => none

def base32Decode (text : Bytes) : Except TotpError TotpSecret :=
  if maxBase32Len < text.length then .error .invalidSecret
  else
    let data := text.takeWhile (· ≠ ascii '=')
    let pad := text.dropWhile (· ≠ ascii '=')
    match expectedPad (data.length % 8) with
    | none => .error .invalidSecret
    | some expected =>
      if pad ≠ [] ∧ (pad.length ≠ expected ∨ pad.any (· ≠ ascii '=')) then .error .invalidSecret
      else
        let outLen := data.length * 5 / 8
        if hrange : minSecretLen ≤ outLen ∧ outLen ≤ maxSecretLen then
          let s := data.foldl Decoder.step ⟨[], 0, 0, true⟩
          if hout : s.valid = true ∧ s.out.length = outLen then
            .ok ⟨s.out, hout.2 ▸ hrange⟩
          else .error .invalidSecret
        else .error .invalidSecret

/-! ### Bytes to texts -/

/-- The letters of the whole groups of five among the pending bits, and how many bits are left. -/
def emit (acc bits : ℕ) : Bytes × ℕ :=
  if 5 ≤ bits then
    let rest := emit acc (bits - 5)
    (base32Char (Fin.ofNat 256 ((acc >>> (bits - 5)) &&& 0x1f)) :: rest.1, rest.2)
  else ([], bits)
termination_by bits

structure Encoder where
  out : Bytes
  acc : ℕ
  bits : ℕ

def Encoder.step (s : Encoder) (b : Byte) : Encoder :=
  let acc := (s.acc <<< 8) ||| b.val
  let emitted := emit acc (s.bits + 8)
  { out := s.out ++ emitted.1
    acc := acc &&& ((1 <<< emitted.2) - 1)
    bits := emitted.2 }

def base32Encode (bytes : Bytes) : Bytes :=
  let s := bytes.foldl Encoder.step ⟨[], 0, 0⟩
  if 0 < s.bits then
    s.out ++ [base32Char (Fin.ofNat 256 ((s.acc <<< (5 - s.bits)) &&& 0x1f))]
  else s.out

/-! ### What a text stands for -/

/-- The letters of RFC 4648, by their values. -/
def alphabet : Bytes := asciiBytes "ABCDEFGHIJKLMNOPQRSTUVWXYZ234567".toList

def toUppercase (b : Byte) : Byte := if ascii 'a' ≤ b ∧ b ≤ ascii 'z' then b - 32 else b

/-- The letters of `data` have these values, in either case. -/
def Letters (data : Bytes) (values : List ℕ) : Prop :=
  List.Forall₂ (fun b v => alphabet[v]? = some (toUppercase b)) data values

/-- The bits of numbers of `w` bits in a row. -/
def bitsOf (w : ℕ) (l : List ℕ) : List ℕ := l.flatMap (digitsBe 2 w)

/-- The bits of the letters are those of the bytes, and fewer more than one letter holds. -/
def Spells (values : List ℕ) (bytes : Bytes) : Prop :=
  ∃ unused : List ℕ, unused.length < 5 ∧
    bitsOf 5 values = bitsOf 8 (bytes.map Fin.val) ++ unused

/-- Letters that spell the bytes, and then nothing or `=` up to a multiple of eight. -/
def Denotes (text bytes : Bytes) : Prop :=
  ∃ data values pad, text = data ++ List.replicate pad (ascii '=') ∧ Letters data values ∧
    Spells values bytes ∧ (pad = 0 ∨ pad < 8 ∧ (data.length + pad) % 8 = 0)

/-! ### Letters and values -/

theorem alphabet_base32Char : ∀ v : Byte, v.val < 32 →
    alphabet[v.val]? = some (toUppercase (base32Char v)) := by
  decide +kernel

theorem base32Value_lt : ∀ b : Byte, (base32Value b).1.val < 32 := by
  decide +kernel

theorem alphabet_base32Value : ∀ b : Byte, (base32Value b).2 = true →
    alphabet[(base32Value b).1.val]? = some (toUppercase b) := by
  decide +kernel

theorem base32Value_of_alphabet : ∀ (b : Byte) (v : Fin 32),
    alphabet[v.val]? = some (toUppercase b) →
      (base32Value b).1.val = v.val ∧ (base32Value b).2 = true := by
  decide +kernel

/-! ### Bits -/

theorem bitsOf_append (w : ℕ) (l m : List ℕ) : bitsOf w (l ++ m) = bitsOf w l ++ bitsOf w m :=
  List.flatMap_append

theorem bitsOf_singleton (w v : ℕ) : bitsOf w [v] = digitsBe 2 w v := List.flatMap_singleton ..

theorem bitsOf_cons (w v : ℕ) (l : List ℕ) : bitsOf w (v :: l) = digitsBe 2 w v ++ bitsOf w l := rfl

theorem length_bitsOf (w : ℕ) (l : List ℕ) : (bitsOf w l).length = w * l.length := by
  induction l with
  | nil => rfl
  | cons v l ih =>
    rw [bitsOf_cons, List.length_append, length_digitsBe, ih, List.length_cons, Nat.mul_succ,
      Nat.add_comm]

theorem bitsOf_inj {w : ℕ} {l m : List ℕ} (hl : ∀ v ∈ l, v < 2 ^ w) (hm : ∀ v ∈ m, v < 2 ^ w)
    (hlen : l.length = m.length) (h : bitsOf w l = bitsOf w m) : l = m := by
  induction l generalizing m with
  | nil => exact (List.length_eq_zero_iff.mp hlen.symm).symm
  | cons v l ih =>
    cases m with
    | nil => cases hlen
    | cons u m =>
      obtain ⟨hhead, htail⟩ := List.append_inj h (by rw [length_digitsBe, length_digitsBe])
      rw [digitsBe_inj (hl v (by simp)) (hm u (by simp)) hhead,
        ih (fun v hv => hl v (List.mem_cons_of_mem _ hv))
          (fun v hv => hm v (List.mem_cons_of_mem _ hv)) (Nat.succ.inj hlen) htail]

theorem ofBits_append_digits (held : List ℕ) {w v : ℕ} (hv : v < 2 ^ w) :
    (ofDigitsBe 2 held <<< w) ||| v = ofDigitsBe 2 (held ++ digitsBe 2 w v) := by
  rw [SecretKey.shiftLeft_or_eq _ w hv, ofDigitsBe_append_list, length_digitsBe,
    ofDigitsBe_digitsBe hv]

theorem bits_append {held : List ℕ} (hheld : ∀ d ∈ held, d < 2) (w v : ℕ) :
    ∀ d ∈ held ++ digitsBe 2 w v, d < 2 := by
  intro d hd
  rcases List.mem_append.mp hd with hd | hd
  · exact hheld d hd
  · exact lt_of_mem_digitsBe (by omega) d hd

theorem and_mask (n k : ℕ) : n &&& ((1 <<< k) - 1) = n % 2 ^ k := by
  rw [Nat.shiftLeft_eq, Nat.one_mul, Nat.and_two_pow_sub_one_eq_mod]

theorem val_ofNat_mask (n : ℕ) {k : ℕ} (hk : k ≤ 8) :
    (Fin.ofNat 256 (n % 2 ^ k) : Byte).val = n % 2 ^ k := by
  have hlt : n % 2 ^ k < 2 ^ 8 :=
    (Nat.mod_lt n (Nat.two_pow_pos k)).trans_le (Nat.pow_le_pow_right (by omega) hk)
  exact Nat.mod_eq_of_lt hlt

/-! ### Decoding -/

/-- The bytes written and the bits held back are the bits of the letters read. -/
structure Decoder.Holds (s : Decoder) (values held : List ℕ) : Prop where
  isBits : ∀ d ∈ held, d < 2
  length : held.length = s.bits
  few : s.bits < 8
  acc : s.acc = ofDigitsBe 2 held
  all : bitsOf 5 values = bitsOf 8 (s.out.map Fin.val) ++ held

theorem Decoder.Holds.step {s : Decoder} {values held : List ℕ} (h : s.Holds values held)
    (b : Byte) : ∃ held', (s.step b).Holds (values ++ [(base32Value b).1.val]) held' := by
  obtain ⟨v, hvalue⟩ : ∃ v, (base32Value b).1.val = v := ⟨_, rfl⟩
  have hv : v < 2 ^ 5 := hvalue ▸ base32Value_lt b
  have hmask : ∀ n : ℕ, n &&& 0xff = n % 2 ^ 8 := fun n => Nat.and_two_pow_sub_one_eq_mod n 8
  have hbits := bits_append h.isBits 5 v
  have hacc : (s.acc <<< 5) ||| v = ofDigitsBe 2 (held ++ digitsBe 2 5 v) := by
    rw [h.acc, ofBits_append_digits held hv]
  have hlen : (held ++ digitsBe 2 5 v).length = s.bits + 5 := by
    rw [List.length_append, length_digitsBe, h.length]
  have hall : bitsOf 5 (values ++ [v]) =
      bitsOf 8 (s.out.map Fin.val) ++ (held ++ digitsBe 2 5 v) := by
    rw [bitsOf_append, bitsOf_singleton, h.all, List.append_assoc]
  simp only [Decoder.step, hvalue]
  split
  · next hle =>
    -- a byte is cut off the front
    have hsplit : (held ++ digitsBe 2 5 v).length = 8 + (s.bits + 5 - 8) := by omega
    have hmod : ((s.acc <<< 5) ||| v) % 2 ^ (8 + (s.bits + 5 - 8)) =
        ofDigitsBe 2 (held ++ digitsBe 2 5 v) := by
      rw [hacc, ← hsplit]
      exact Nat.mod_eq_of_lt (ofDigitsBe_lt hbits)
    refine ⟨(held ++ digitsBe 2 5 v).drop 8, fun d hd => hbits d (List.mem_of_mem_drop hd), ?_,
      ?_, ?_, ?_⟩
    · rw [List.length_drop, hlen]
    · have hfew := h.few
      show s.bits + 5 - 8 < 8
      omega
    · show ((s.acc <<< 5) ||| v) &&& ((1 <<< (s.bits + 5 - 8)) - 1) = _
      rw [and_mask, mod_eq_ofDigitsBe_drop hbits hsplit hmod]
    · have hbyte : digitsBe 2 8 (Fin.ofNat 256
          ((((s.acc <<< 5) ||| v) >>> (s.bits + 5 - 8)) &&& 0xff) : Byte).val =
            (held ++ digitsBe 2 5 v).take 8 := by
        rw [hmask, val_ofNat_mask _ (Nat.le_refl 8), digitsBe_mod, Nat.shiftRight_eq_div_pow,
          digitsBe_div hbits hsplit hmod]
      rw [hall, List.map_append, List.map_singleton, bitsOf_append, bitsOf_singleton, hbyte,
        List.append_assoc, List.take_append_drop]
  · next hlt =>
    exact ⟨held ++ digitsBe 2 5 v, hbits, hlen, Nat.lt_of_not_le hlt, hacc, hall⟩

theorem decoder_holds (data : Bytes) : ∃ held,
    (data.foldl Decoder.step ⟨[], 0, 0, true⟩).Holds
      (data.map fun b => (base32Value b).1.val) held := by
  induction data using List.reverseRecOn with
  | nil => exact ⟨[], by simp, rfl, by decide, rfl, rfl⟩
  | append_singleton data b ih =>
    obtain ⟨held, h⟩ := ih
    rw [List.foldl_append, List.map_append]
    exact h.step b

theorem decoder_valid (data : Bytes) : ∀ s : Decoder,
    (data.foldl Decoder.step s).valid = (s.valid && data.all fun b => (base32Value b).2) := by
  induction data with
  | nil => exact fun s => (Bool.and_true s.valid).symm
  | cons b data ih =>
    intro s
    have hstep : (s.step b).valid = (s.valid && (base32Value b).2) := by
      rw [Decoder.step]
      split <;> rfl
    rw [List.foldl_cons, ih, hstep, List.all_cons, Bool.and_assoc]
theorem Letters.values_lt {data : Bytes} {values : List ℕ} (h : Letters data values) :
    ∀ v ∈ values, v < 32 := by
  induction h with
  | nil => exact fun v hv => by cases hv
  | @cons b v data values hletter _ ih =>
    intro u hu
    rcases List.mem_cons.mp hu with rfl | hu
    · exact (List.getElem?_eq_some_iff.mp hletter).1
    · exact ih u hu

/-- Letters are recognised, and only letters are, with their values. -/
theorem letters_iff {data : Bytes} {values : List ℕ} :
    Letters data values ↔ (data.all fun b => (base32Value b).2) = true ∧
      values = data.map fun b => (base32Value b).1.val := by
  induction data generalizing values with
  | nil =>
    rw [Letters, List.forall₂_nil_left_iff]
    simp
  | cons b data ih =>
    cases values with
    | nil => simp [Letters]
    | cons v values =>
      have hhead : alphabet[v]? = some (toUppercase b) ↔
          (base32Value b).2 = true ∧ v = (base32Value b).1.val := by
        refine ⟨fun h => ?_, fun ⟨hvalid, hv⟩ => ?_⟩
        · have hv : v < 32 := (List.getElem?_eq_some_iff.mp h).1
          obtain ⟨hvalue, hvalid⟩ := base32Value_of_alphabet b ⟨v, hv⟩ h
          exact ⟨hvalid, hvalue.symm⟩
        · rw [hv]
          exact alphabet_base32Value b hvalid
      rw [Letters, List.forall₂_cons, ← Letters, ih, hhead]
      simp only [List.all_cons, Bool.and_eq_true, List.map_cons, List.cons.injEq]
      tauto

theorem Letters.no_pad {data : Bytes} {values : List ℕ} (h : Letters data values) :
    ∀ b ∈ data, b ≠ ascii '=' := by
  rintro b hb rfl
  have hvalid := List.all_eq_true.mp (letters_iff.mp h).1 _ hb
  exact absurd hvalid (by decide)

theorem Letters.length_eq {data : Bytes} {values : List ℕ} (h : Letters data values) :
    data.length = values.length := List.Forall₂.length_eq h

theorem expectedPad_eq_some {n expected : ℕ} (hn : n < 8) (h : expectedPad n = some expected) :
    (5 * n) % 8 < 5 ∧ expected < 8 ∧ (n + expected) % 8 = 0 := by
  interval_cases n <;> cases h <;> decide

theorem exists_expectedPad {n : ℕ} (hn : n < 8) (h : (5 * n) % 8 < 5) :
    ∃ expected, expectedPad n = some expected := by
  interval_cases n <;> first | exact ⟨_, rfl⟩ | omega

theorem vals_lt (bytes : Bytes) : ∀ v ∈ bytes.map Fin.val, v < 2 ^ 8 := by
  intro v hv
  obtain ⟨b, -, rfl⟩ := List.mem_map.mp hv
  exact b.isLt

/-- The loop writes the bytes that the letters spell. -/
theorem decoder_out_eq {data bytes : Bytes} {values : List ℕ} (hletters : Letters data values)
    (hspells : Spells values bytes) :
    (data.foldl Decoder.step ⟨[], 0, 0, true⟩).out = bytes := by
  obtain ⟨held, h⟩ := decoder_holds data
  obtain ⟨unused, hunused, hbits⟩ := hspells
  have hall := h.all
  rw [← (letters_iff.mp hletters).2, hbits] at hall
  have hlen := congrArg List.length hall
  simp only [List.length_append, length_bitsOf, List.length_map] at hlen
  have hfew := h.few
  have hheld := h.length
  have hout : bytes.length = (data.foldl Decoder.step ⟨[], 0, 0, true⟩).out.length := by omega
  have hsame := (List.append_inj hall (by
    rw [length_bitsOf, length_bitsOf, List.length_map, List.length_map, hout])).1
  have hvals := bitsOf_inj (vals_lt _) (vals_lt _) (by
    rw [List.length_map, List.length_map, hout]) hsame
  exact (Fin.val_injective.list_map hvals).symm

/-- What the loop writes is spelt by letters as many as it takes. -/
theorem spells_decoder_out {data : Bytes} (hneeded : 5 * data.length % 8 < 5) :
    Spells (data.map fun b => (base32Value b).1.val)
      (data.foldl Decoder.step ⟨[], 0, 0, true⟩).out := by
  obtain ⟨held, h⟩ := decoder_holds data
  refine ⟨held, ?_, h.all⟩
  have hlen := congrArg List.length h.all
  simp only [List.length_append, length_bitsOf, List.length_map] at hlen
  rw [hlen, Nat.mul_add_mod, Nat.mod_eq_of_lt (h.length.trans_lt h.few)] at hneeded
  exact hneeded

theorem length_of_spells {values : List ℕ} {bytes : Bytes} (h : Spells values bytes) :
    ∃ unused < 5, 5 * values.length = 8 * bytes.length + unused := by
  obtain ⟨unused, hunused, hbits⟩ := h
  have hlen := congrArg List.length hbits
  simp only [List.length_append, length_bitsOf, List.length_map] at hlen
  exact ⟨unused.length, hunused, hlen⟩

theorem denotes_of_base32Decode {text : Bytes} {secret : TotpSecret}
    (h : base32Decode text = .ok secret) : Denotes text secret.val := by
  rw [base32Decode] at h
  split at h
  · cases h
  have htext := List.takeWhile_append_dropWhile (p := (· ≠ ascii '=')) (l := text)
  set data := text.takeWhile (· ≠ ascii '=')
  set pad := text.dropWhile (· ≠ ascii '=')
  simp only at h
  split at h
  · cases h
  next expected hexpected =>
  split at h
  · cases h
  next hpad =>
  split at h
  case isFalse => cases h
  split at h
  case isFalse => cases h
  next hout =>
  cases h
  obtain ⟨hneeded, hlt, hcomplete⟩ :=
    expectedPad_eq_some (Nat.mod_lt data.length (by omega)) hexpected
  rw [Nat.mul_mod_mod] at hneeded
  have hletters : Letters data (data.map fun b => (base32Value b).1.val) := by
    refine letters_iff.mpr ⟨?_, rfl⟩
    have hvalid := hout.1
    rwa [decoder_valid, Bool.true_and] at hvalid
  refine ⟨data, _, pad.length, ?_, hletters, spells_decoder_out hneeded, ?_⟩
  · rw [← htext]
    congr 1
    refine List.eq_replicate_length.mpr fun b hb => ?_
    by_contra hne
    refine hpad ⟨List.ne_nil_of_mem hb, .inr (List.any_eq_true.mpr ⟨b, hb, ?_⟩)⟩
    exact decide_eq_true hne
  · by_cases hnil : pad = []
    · exact .inl (List.length_eq_zero_iff.mpr hnil)
    · have hlen : pad.length = expected := by
        by_contra hne
        exact hpad ⟨hnil, .inl hne⟩
      right
      rw [hlen]
      omega

theorem base32Decode_of_denotes {text : Bytes} {secret : TotpSecret}
    (h : Denotes text secret.val) : base32Decode text = .ok secret := by
  obtain ⟨data, values, pad, rfl, hletters, hspells, hpad⟩ := h
  have hno : ∀ b ∈ data, decide (b ≠ ascii '=') = true := fun b hb =>
    decide_eq_true (hletters.no_pad b hb)
  have hstop : ∀ c ∈ (List.replicate pad (ascii '=')).head?, decide (c ≠ ascii '=') = false := by
    intro c hc
    rw [List.eq_of_mem_replicate (List.mem_of_mem_head? hc)]
    rfl
  obtain ⟨unused, hunused, hlen⟩ := length_of_spells hspells
  rw [← hletters.length_eq] at hlen
  have hmin := secret.property.1
  have hmax := secret.property.2
  simp only [minSecretLen, maxSecretLen] at hmin hmax
  obtain ⟨expected, hexpected⟩ := exists_expectedPad (Nat.mod_lt data.length (by omega)) (by
    rw [Nat.mul_mod_mod, hlen, Nat.mul_add_mod]
    exact (Nat.mod_le unused 8).trans_lt hunused)
  obtain ⟨-, hlt, hcomplete⟩ :=
    expectedPad_eq_some (Nat.mod_lt data.length (by omega)) hexpected
  have hshort : ¬ maxBase32Len < (data ++ List.replicate pad (ascii '=')).length := by
    rw [List.length_append, List.length_replicate]
    show ¬ 208 < data.length + pad
    omega
  have hfull : ¬(List.replicate pad (ascii '=') ≠ [] ∧
      ((List.replicate pad (ascii '=')).length ≠ expected ∨
        (List.replicate pad (ascii '=')).any (· ≠ ascii '='))) := by
    rintro ⟨hnil, hwrong⟩
    have hpos : pad ≠ 0 := fun hz => hnil (by rw [hz]; rfl)
    rcases hwrong with hwrong | hwrong
    · rw [List.length_replicate] at hwrong
      omega
    · obtain ⟨b, hb, hne⟩ := List.any_eq_true.mp hwrong
      exact of_decide_eq_true hne (List.eq_of_mem_replicate hb)
  have hout := decoder_out_eq hletters hspells
  have hvalid : (data.foldl Decoder.step ⟨[], 0, 0, true⟩).valid = true := by
    rw [decoder_valid, (letters_iff.mp hletters).1]
    rfl
  have hrange : minSecretLen ≤ data.length * 5 / 8 ∧ data.length * 5 / 8 ≤ maxSecretLen := by
    simp only [minSecretLen, maxSecretLen]
    omega
  have hsize : (data.foldl Decoder.step ⟨[], 0, 0, true⟩).out.length = data.length * 5 / 8 := by
    rw [hout]
    omega
  rw [base32Decode, if_neg hshort]
  simp only [takeWhile_append_of_stop hno hstop, dropWhile_append_of_stop hno hstop, hexpected]
  rw [if_neg hfull, dif_pos hrange, dif_pos ⟨hvalid, hsize⟩]
  exact congrArg Except.ok (Subtype.ext hout)

/-- Exactly the texts that stand for a secret are read, as the bytes they stand for. -/
theorem base32Decode_eq_ok_iff (text : Bytes) (secret : TotpSecret) :
    base32Decode text = .ok secret ↔ Denotes text secret.val :=
  ⟨denotes_of_base32Decode, base32Decode_of_denotes⟩

/-! ### Encoding -/

/-- The letter of a value. -/
def letter (v : ℕ) : Byte := base32Char (Fin.ofNat 256 v)

theorem emit_of_le {acc bits : ℕ} (h : 5 ≤ bits) : emit acc bits =
    (letter ((acc >>> (bits - 5)) &&& 0x1f) :: (emit acc (bits - 5)).1,
      (emit acc (bits - 5)).2) := by
  rw [emit, if_pos h]
  rfl

theorem emit_of_lt {acc bits : ℕ} (h : bits < 5) : emit acc bits = ([], bits) := by
  rw [emit, if_neg (Nat.not_le.mpr h)]

/-- The letters of the whole groups, and the bits that are held back. -/
theorem emit_spec {acc bits : ℕ} {l : List ℕ} (hl : ∀ d ∈ l, d < 2) (hlen : l.length = bits)
    (hacc : acc % 2 ^ bits = ofDigitsBe 2 l) : ∃ values held,
      (emit acc bits).1 = values.map letter ∧ (∀ v ∈ values, v < 32) ∧
        l = bitsOf 5 values ++ held ∧ held.length = (emit acc bits).2 ∧ (emit acc bits).2 < 5 ∧
        acc % 2 ^ (emit acc bits).2 = ofDigitsBe 2 held := by
  induction bits using Nat.strongRecOn generalizing l with
  | ind bits ih =>
    by_cases hbits : bits < 5
    · rw [emit_of_lt hbits]
      exact ⟨[], l, rfl, fun v hv => (List.not_mem_nil hv).elim, rfl, hlen, hbits, hacc⟩
    · have hle : 5 ≤ bits := Nat.le_of_not_lt hbits
      have hsplit : l.length = 5 + (bits - 5) := by omega
      have hmod : acc % 2 ^ (5 + (bits - 5)) = ofDigitsBe 2 l := by
        rw [Nat.add_sub_cancel' hle, hacc]
      obtain ⟨values, held, hout, hvalues, hl', hheld, hfew, hacc'⟩ :=
        ih (bits - 5) (by omega) (fun d hd => hl d (List.mem_of_mem_drop hd))
          (by rw [List.length_drop, hlen]) (mod_eq_ofDigitsBe_drop hl hsplit hmod)
      have hmask : (acc >>> (bits - 5)) &&& 0x1f = acc / 2 ^ (bits - 5) % 2 ^ 5 := by
        rw [Nat.shiftRight_eq_div_pow]
        exact Nat.and_two_pow_sub_one_eq_mod _ 5
      rw [emit_of_le hle, hmask]
      refine ⟨acc / 2 ^ (bits - 5) % 2 ^ 5 :: values, held, ?_, ?_, ?_, hheld, hfew, hacc'⟩
      · rw [List.map_cons, hout]
      · intro v hv
        rcases List.mem_cons.mp hv with rfl | hv
        · exact Nat.mod_lt _ (by omega)
        · exact hvalues v hv
      · rw [bitsOf_cons, digitsBe_mod, digitsBe_div hl hsplit hmod, List.append_assoc, ← hl',
          List.take_append_drop]

/-- The letters written and the bits held back are the bits of the bytes read. -/
structure Encoder.Holds (s : Encoder) (bytes : Bytes) (values held : List ℕ) : Prop where
  out : s.out = values.map letter
  letters : ∀ v ∈ values, v < 32
  isBits : ∀ d ∈ held, d < 2
  length : held.length = s.bits
  few : s.bits < 5
  acc : s.acc = ofDigitsBe 2 held
  all : bitsOf 8 (bytes.map Fin.val) = bitsOf 5 values ++ held

theorem Encoder.Holds.step {s : Encoder} {bytes : Bytes} {values held : List ℕ}
    (h : s.Holds bytes values held) (b : Byte) :
    ∃ values' held', (s.step b).Holds (bytes ++ [b]) values' held' := by
  have hbits := bits_append h.isBits 8 b.val
  have hlen : (held ++ digitsBe 2 8 b.val).length = s.bits + 8 := by
    rw [List.length_append, length_digitsBe, h.length]
  have hacc : (s.acc <<< 8) ||| b.val = ofDigitsBe 2 (held ++ digitsBe 2 8 b.val) := by
    rw [h.acc, ofBits_append_digits held b.isLt]
  have hmod : ((s.acc <<< 8) ||| b.val) % 2 ^ (s.bits + 8) =
      ofDigitsBe 2 (held ++ digitsBe 2 8 b.val) := by
    rw [hacc, ← hlen]
    exact Nat.mod_eq_of_lt (ofDigitsBe_lt hbits)
  obtain ⟨more, left, hout, hmore, hl, hleft, hfew, hrest⟩ := emit_spec hbits hlen hmod
  refine ⟨values ++ more, left, ?_, ?_, ?_, hleft, hfew, ?_, ?_⟩
  · rw [List.map_append, ← h.out, ← hout]
    rfl
  · exact fun v hv => (List.mem_append.mp hv).elim (h.letters v) (hmore v)
  · exact fun d hd => hbits d (hl ▸ List.mem_append_right _ hd)
  · rw [← hrest, ← and_mask]
    rfl
  · rw [List.map_append, List.map_singleton, bitsOf_append, bitsOf_singleton, h.all, bitsOf_append,
      List.append_assoc, List.append_assoc, hl]

theorem encoder_holds (bytes : Bytes) : ∃ values held,
    (bytes.foldl Encoder.step ⟨[], 0, 0⟩).Holds bytes values held := by
  induction bytes using List.reverseRecOn with
  | nil => exact ⟨[], [], rfl, by simp, by simp, rfl, by decide, rfl, rfl⟩
  | append_singleton bytes b ih =>
    obtain ⟨values, held, h⟩ := ih
    rw [List.foldl_append]
    exact h.step b

theorem ofDigitsBe_replicate_zero (n : ℕ) : ofDigitsBe 2 (List.replicate n 0) = 0 := by
  induction n with
  | zero => rfl
  | succ n ih =>
    rw [List.replicate_succ', ofDigitsBe_append, ih]

/-- A text is the letters of some values, which spell the bytes. -/
theorem base32Encode_spec (bytes : Bytes) : ∃ values, base32Encode bytes = values.map letter ∧
    (∀ v ∈ values, v < 32) ∧ Spells values bytes := by
  obtain ⟨values, held, h⟩ := encoder_holds bytes
  rw [base32Encode]
  set s := bytes.foldl Encoder.step ⟨[], 0, 0⟩
  by_cases hbits : 0 < s.bits
  · have hfew := h.few
    have hlen := h.length
    -- the last letter is the held bits and zeros
    have hfill : ∀ d ∈ held ++ List.replicate (5 - s.bits) 0, d < 2 := by
      intro d hd
      rcases List.mem_append.mp hd with hd | hd
      · exact h.isBits d hd
      · rw [List.eq_of_mem_replicate hd]
        omega
    have hlast : (s.acc <<< (5 - s.bits)) &&& 0x1f =
        ofDigitsBe 2 (held ++ List.replicate (5 - s.bits) 0) := by
      have hlt := ofDigitsBe_lt hfill
      rw [List.length_append, List.length_replicate, hlen, Nat.add_sub_cancel' hfew.le] at hlt
      rw [Nat.shiftLeft_eq, h.acc]
      rw [ofDigitsBe_append_list, List.length_replicate, ofDigitsBe_replicate_zero,
        Nat.add_zero] at hlt ⊢
      exact (Nat.and_two_pow_sub_one_eq_mod _ 5).trans (Nat.mod_eq_of_lt hlt)
    have hdigits := digitsBe_ofDigitsBe hfill
    rw [List.length_append, List.length_replicate, hlen, Nat.add_sub_cancel' hfew.le] at hdigits
    rw [if_pos hbits, hlast]
    refine ⟨values ++ [ofDigitsBe 2 (held ++ List.replicate (5 - s.bits) 0)], ?_, ?_,
      List.replicate (5 - s.bits) 0, ?_, ?_⟩
    · rw [List.map_append, ← h.out]
      rfl
    · intro v hv
      rcases List.mem_append.mp hv with hv | hv
      · exact h.letters v hv
      · rw [List.mem_singleton.mp hv, ← hlast]
        exact (Nat.and_le_right).trans_lt (by omega)
    · rw [List.length_replicate]
      omega
    · rw [bitsOf_append, bitsOf_singleton, hdigits, h.all, List.append_assoc]
  · have hnone : held = [] := List.length_eq_zero_iff.mp (by rw [h.length]; omega)
    rw [if_neg hbits]
    exact ⟨values, h.out, h.letters, [], by decide, by rw [h.all, hnone, List.append_nil]; simp⟩

/-- What is written stands for the bytes, without padding. -/
theorem denotes_base32Encode (bytes : Bytes) : Denotes (base32Encode bytes) bytes := by
  obtain ⟨values, htext, hvalues, hspells⟩ := base32Encode_spec bytes
  refine ⟨base32Encode bytes, values, 0, ?_, ?_, hspells, .inl rfl⟩
  · rw [List.replicate_zero, List.append_nil]
  · rw [htext, Letters, List.forall₂_map_left_iff, List.forall₂_same]
    intro v hv
    have hlt := hvalues v hv
    have hval : (Fin.ofNat 256 v : Byte).val = v := Nat.mod_eq_of_lt (by omega)
    have h := alphabet_base32Char (Fin.ofNat 256 v) (by rwa [hval])
    rwa [hval] at h

theorem length_base32Encode (bytes : Bytes) :
    (base32Encode bytes).length = (bytes.length * 8 + 4) / 5 := by
  obtain ⟨values, htext, -, hspells⟩ := base32Encode_spec bytes
  obtain ⟨unused, hunused, hlen⟩ := length_of_spells hspells
  rw [htext, List.length_map]
  omega
end Totp

end RizzyVault.Core
