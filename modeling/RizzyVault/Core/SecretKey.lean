import RizzyVault.Core.FieldKey
import RizzyVault.Lib.Codec
import RizzyVault.Lib.Digits
import RizzyVault.Lib.Grammar

/-!
# Printed codes

The Secret Key and the recovery code are 16 bytes, printed as 28 letters of five bits each behind a
prefix: 128 bits with two zero bits after them, and a check value of ten bits. The letters are
found by arithmetic, not in a table.

## Main definitions

* `encodeSymbol`, `decodeSymbol`: five bits and a letter.
* `formatCode`, `parseCode`.
* `normalize`: what a typed text reads as.

## Main results

* `symbolsOf_eq`: the letters are the digits of the bits in base 32.
* `parseCode_eq_ok_iff`: what is accepted reads as a printed form.
* `printed_codes`.

## References

* `crates/rizzy-core/src/secret_key.rs`, `crates/rizzy-core/src/labels.rs`.
-/

open RizzyVault.Lib

namespace RizzyVault.Core

namespace SecretKey

def codeLen : ℕ := 16

/-- Letters after the prefix. -/
def symbols : ℕ := 28

def maxInputLen : ℕ := 128

/-- Letters that carry the bits of the code. -/
def dataSymbols : ℕ := 26

def group : ℕ := 4

/-- Why a typed code was rejected. -/
inductive CodeParseError
  | tooLong
  | wrongPrefix
  | invalidCharacter
  | wrongLength
  | nonZeroPadding
  | checkMismatch
  deriving DecidableEq

/-- The two kinds of code. -/
inductive Kind
  | secretKey
  | recoveryCode
  deriving DecidableEq

def Kind.prefix : Kind → Bytes
  | .secretKey => asciiBytes ['R', 'V', '1']
  | .recoveryCode => asciiBytes ['R', 'V', 'R', '1']

def Kind.checkLabel : Kind → Bytes
  | .secretKey => asciiBytes "rizzy-vault/v1/secret-key/check".toList
  | .recoveryCode => asciiBytes "rizzy-vault/v1/recovery-code/check".toList

/-- A code of either kind. -/
abbrev Code := {bs : Bytes // bs.length = codeLen}

/-! ### Letters -/

/-- All ones if `lo ≤ x ≤ hi`, else zero, without branches. -/
def inRange (x lo hi : Byte) : Byte :=
  let x16 := BitVec.ofNat 16 x.val
  let below := BitVec.ofNat 16 lo.val - 1 - x16
  let above := x16 - BitVec.ofNat 16 hi.val - 1
  (((below &&& above).sshiftRight 8).setWidth 8).toFin

/-- The letter of five bits: `'0' + v`, past the letters between and the four that are skipped. -/
def encodeSymbol (v : Byte) : Byte :=
  let v := v &&& 0x1f
  let c := ascii '0' + v
  let c := c + (inRange v 10 31 &&& 0x07)
  let c := c + (inRange v 18 31 &&& 1)
  let c := c + (inRange v 20 31 &&& 1)
  let c := c + (inRange v 22 31 &&& 1)
  c + (inRange v 27 31 &&& 1)

/-- The five bits of a letter, and whether it is one. -/
def decodeSymbol (b : Byte) : Byte × Bool :=
  let c := b ^^^ (inRange b (ascii 'a') (ascii 'z') &&& 0x20)
  let digit := inRange c (ascii '0') (ascii '9')
  let aH := inRange c (ascii 'A') (ascii 'H')
  let jK := inRange c (ascii 'J') (ascii 'K')
  let mN := inRange c (ascii 'M') (ascii 'N')
  let pT := inRange c (ascii 'P') (ascii 'T')
  let vZ := inRange c (ascii 'V') (ascii 'Z')
  let o := inRange c (ascii 'O') (ascii 'O')
  let iL := inRange c (ascii 'I') (ascii 'I') ||| inRange c (ascii 'L') (ascii 'L')
  let value := (digit &&& (c - ascii '0')) ||| (aH &&& (c - ascii 'A' + 10)) |||
    (jK &&& (c - ascii 'J' + 18)) ||| (mN &&& (c - ascii 'M' + 20)) |||
    (pT &&& (c - ascii 'P' + 22)) ||| (vZ &&& (c - ascii 'V' + 27)) ||| (iL &&& 1)
  let valid := digit ||| aH ||| jK ||| mN ||| pT ||| vZ ||| o ||| iL
  (value, valid != 0)

/-- The reading of one letter of a prefix. -/
def mapPrefixChar (b : Byte) : Byte :=
  let upper := if ascii 'a' ≤ b ∧ b ≤ ascii 'z' then b - 32 else b
  if upper = ascii 'O' then ascii '0'
  else if upper = ascii 'I' ∨ upper = ascii 'L' then ascii '1'
  else upper

def isSeparator (b : Byte) : Bool := b = ascii '-' || b = ascii ' '

/-! ### Printing and parsing -/

/-- The ten bits that catch typos, from any hash. -/
def checkValue (sha256 : Bytes → Bytes) (kind : Kind) (code : Code) : ℕ :=
  let digest := sha256 (kind.checkLabel ++ [0] ++ code.val)
  ((digest[0]?.getD 0).val <<< 2) ||| ((digest[1]?.getD 0).val >>> 6)

/-- The values of the letters: the code with two zero bits, and the check value. -/
def symbolsOf (sha256 : Bytes → Bytes) (kind : Kind) (code : Code) : List ℕ :=
  let x := ofBe code.val
  let data := (List.range dataSymbols).map fun i =>
    if i + 1 < dataSymbols then (x >>> (123 - 5 * i)) &&& 0x1f else (x &&& 0b111) <<< 2
  let c := checkValue sha256 kind code
  data ++ [c >>> 5, c &&& 0x1f]

/-- The printable form: the prefix, and the letters with a dash before each group of four. -/
def formatCode (sha256 : Bytes → Bytes) (kind : Kind) (code : Code) : Bytes :=
  kind.prefix ++ (symbolsOf sha256 kind code).zipIdx.flatMap fun (value, i) =>
    let letter := encodeSymbol (Fin.ofNat 256 value)
    if i % group = 0 then [ascii '-', letter] else [letter]

/-- What follows the prefix, if the text starts with it. -/
def stripPrefix : Bytes → Bytes → Option Bytes
  | [], chars => some chars
  | _ :: _, [] => none
  | expected :: rest, b :: chars =>
    if mapPrefixChar b = expected then stripPrefix rest chars else none

/-- The 128 bits of the values of 26 letters, and their two last bits. -/
def assemble (data : List ℕ) : ℕ × ℕ :=
  let x := (data.take (dataSymbols - 1)).foldl (fun x v => ((x <<< 5) % 2 ^ 128) ||| v) 0
  let last := data.getLast?.getD 0
  (((x <<< 3) % 2 ^ 128) ||| (last >>> 2), last &&& 0b11)

/-- The code of 28 values, if its two last bits and its check value are right. -/
def checkValues (sha256 : Bytes → Bytes) (kind : Kind) (values : List ℕ) :
    Except CodeParseError Code :=
  let assembled := assemble (values.take dataSymbols)
  let bytes : Code := ⟨beBytes codeLen assembled.1, length_beBytes codeLen assembled.1⟩
  let typedCheck := (values[26]?.getD 0 <<< 5) ||| values[27]?.getD 0
  if assembled.2 ≠ 0 then .error .nonZeroPadding
  else if typedCheck ≠ checkValue sha256 kind bytes then .error .checkMismatch
  else .ok bytes

/-- The code of the letters after the prefix. -/
def checkLetters (sha256 : Bytes → Bytes) (kind : Kind) (chars : Bytes) :
    Except CodeParseError Code :=
  let decoded := chars.map decodeSymbol
  if decoded.all (·.2) = false then .error .invalidCharacter
  else if decoded.length ≠ symbols then .error .wrongLength
  else checkValues sha256 kind (decoded.map (·.1.val))

/-- Parses the printable form of one kind. -/
def parseCode (sha256 : Bytes → Bytes) (kind : Kind) (input : Bytes) :
    Except CodeParseError Code :=
  if maxInputLen < input.length then .error .tooLong
  else
    match stripPrefix kind.prefix (input.filter fun b => !isSeparator b) with
    | none => .error .wrongPrefix
    | some chars => checkLetters sha256 kind chars

/-! ### What a letter is -/

/-- The letters are no separators, are read as they are, and decode to their values. -/
theorem encodeSymbol_spec : ∀ v : Byte, isSeparator (encodeSymbol v) = false ∧
    mapPrefixChar (encodeSymbol v) = encodeSymbol v ∧
      (v.val < 32 → decodeSymbol (encodeSymbol v) = (v, true)) := by
  decide +kernel

theorem decodeSymbol_encodeSymbol (v : Byte) (hv : v.val < 32) :
    decodeSymbol (encodeSymbol v) = (v, true) :=
  (encodeSymbol_spec v).2.2 hv

theorem decodeSymbol_mapPrefixChar_of_ne : ∀ b : Byte, mapPrefixChar b ≠ b →
    decodeSymbol (mapPrefixChar b) = decodeSymbol b := by
  decide +kernel

theorem decodeSymbol_mapPrefixChar (b : Byte) :
    decodeSymbol (mapPrefixChar b) = decodeSymbol b := by
  by_cases h : mapPrefixChar b = b
  · rw [h]
  · exact decodeSymbol_mapPrefixChar_of_ne b h

theorem encodeSymbol_decodeSymbol : ∀ b : Byte, (decodeSymbol b).2 = true →
    (decodeSymbol b).1.val < 32 ∧ encodeSymbol (decodeSymbol b).1 = mapPrefixChar b := by
  decide +kernel

theorem isSeparator_encodeSymbol (v : Byte) : isSeparator (encodeSymbol v) = false :=
  (encodeSymbol_spec v).1

theorem mapPrefixChar_encodeSymbol (v : Byte) : mapPrefixChar (encodeSymbol v) = encodeSymbol v :=
  (encodeSymbol_spec v).2.1

/-- The letter of a value. -/
def letter (v : ℕ) : Byte := encodeSymbol (Fin.ofNat 256 v)

theorem decodeSymbol_letter {v : ℕ} (hv : v < 32) :
    decodeSymbol (letter v) = (Fin.ofNat 256 v, true) := by
  have hlt : v % 256 < 32 := (Nat.mod_le v 256).trans_lt hv
  exact decodeSymbol_encodeSymbol (Fin.ofNat 256 v) hlt

theorem mapPrefixChar_letter (v : ℕ) : mapPrefixChar (letter v) = letter v :=
  mapPrefixChar_encodeSymbol _

/-- Letters are those of some values exactly when they decode to them. -/
theorem map_mapPrefixChar_eq_iff {chars : Bytes} {vs : List ℕ} (hvs : ∀ v ∈ vs, v < 32) :
    chars.map mapPrefixChar = vs.map letter ↔
      (chars.map decodeSymbol).all (·.2) = true ∧
        (chars.map decodeSymbol).map (·.1.val) = vs := by
  induction chars generalizing vs with
  | nil =>
    cases vs with
    | nil => simp
    | cons v vs => simp
  | cons b chars ih =>
    cases vs with
    | nil => simp
    | cons v vs =>
      have hv : v < 32 := hvs v (by simp)
      have hmod : v % 256 = v := Nat.mod_eq_of_lt (by omega)
      have hrest := @ih vs fun v hv => hvs v (List.mem_cons_of_mem _ hv)
      have hhead : mapPrefixChar b = letter v ↔
          (decodeSymbol b).2 = true ∧ (decodeSymbol b).1.val = v := by
        refine ⟨fun h => ?_, fun h => ?_⟩
        · rw [← decodeSymbol_mapPrefixChar b, h, decodeSymbol_letter hv]
          exact ⟨rfl, hmod⟩
        · rw [← (encodeSymbol_decodeSymbol b h.1).2, letter, ← h.2, Fin.ofNat_val_eq_self]
      simp only [List.map_cons, List.cons.injEq, List.all_cons, Bool.and_eq_true, hhead, hrest]
      tauto

/-! ### The bits of a code -/

theorem shiftLeft_or_eq (x : ℕ) {v : ℕ} (i : ℕ) (hv : v < 2 ^ i) :
    (x <<< i) ||| v = x * 2 ^ i + v := by
  rw [← Nat.shiftLeft_add_eq_or_of_lt hv, Nat.shiftLeft_eq]

theorem checkValue_lt (sha256 : Bytes → Bytes) (kind : Kind) (code : Code) :
    checkValue sha256 kind code < 1024 := by
  simp only [checkValue]
  set digest := sha256 (kind.checkLabel ++ [0] ++ code.val)
  have hfirst := (digest[0]?.getD 0).isLt
  have hsecond := (digest[1]?.getD 0).isLt
  have htop : (digest[1]?.getD 0).val >>> 6 < 2 ^ 2 := by
    rw [Nat.shiftRight_eq_div_pow]
    omega
  rw [shiftLeft_or_eq _ 2 htop]
  omega

/-- The letters are the base 32 digits of the code with two zero bits, and of the check value. -/
theorem symbolsOf_eq (sha256 : Bytes → Bytes) (kind : Kind) (code : Code) :
    symbolsOf sha256 kind code = digitsBe 32 dataSymbols (4 * ofBe code.val) ++
      [checkValue sha256 kind code / 32, checkValue sha256 kind code % 32] := by
  have hmask : ∀ n : ℕ, n &&& 0x1f = n % 32 := fun n => Nat.and_two_pow_sub_one_eq_mod n 5
  have hlow : ∀ n : ℕ, n &&& 0b111 = n % 8 := fun n => Nat.and_two_pow_sub_one_eq_mod n 3
  set x := ofBe code.val
  have hdata : ((List.range dataSymbols).map fun i =>
      if i + 1 < dataSymbols then (x >>> (123 - 5 * i)) &&& 0x1f else (x &&& 0b111) <<< 2) =
        digitsBe 32 dataSymbols (4 * x) := by
    refine List.ext_getElem (by simp [length_digitsBe]) fun i h₁ h₂ => ?_
    have hi : i < 26 := by simpa [dataSymbols] using h₁
    rw [getElem_digitsBe]
    simp only [List.getElem_map, List.getElem_range, dataSymbols, hmask, hlow,
      Nat.shiftRight_eq_div_pow, Nat.shiftLeft_eq]
    split
    · have hpow : (32 : ℕ) ^ (26 - 1 - i) = 4 * 2 ^ (123 - 5 * i) := by
        rw [show (32 : ℕ) = 2 ^ 5 from rfl, show (4 : ℕ) = 2 ^ 2 from rfl, ← pow_mul, ← pow_add]
        congr 1
        omega
      rw [hpow, Nat.mul_div_mul_left _ _ (by omega)]
    · obtain rfl : i = 25 := by omega
      norm_num
      omega
  simp only [symbolsOf]
  rw [hdata, hmask, Nat.shiftRight_eq_div_pow]

theorem symbolsOf_lt (sha256 : Bytes → Bytes) (kind : Kind) (code : Code) :
    ∀ v ∈ symbolsOf sha256 kind code, v < 32 := by
  have hcheck := checkValue_lt sha256 kind code
  intro v hv
  rw [symbolsOf_eq] at hv
  rcases List.mem_append.mp hv with hv | hv
  · exact lt_of_mem_digitsBe (by omega) v hv
  · simp only [List.mem_cons, List.not_mem_nil, or_false] at hv
    omega

theorem length_symbolsOf (sha256 : Bytes → Bytes) (kind : Kind) (code : Code) :
    (symbolsOf sha256 kind code).length = symbols := by
  rw [symbolsOf_eq, List.length_append, length_digitsBe]
  rfl

/-- No bit is shifted out of the 128 while 25 letters are read. -/
theorem foldl_shift_eq {l : List ℕ} (hl : ∀ v ∈ l, v < 32) (hlen : l.length ≤ 25) :
    l.foldl (fun x v => ((x <<< 5) % 2 ^ 128) ||| v) 0 = ofDigitsBe 32 l := by
  induction l using List.reverseRecOn with
  | nil => rfl
  | append_singleton l v ih =>
    have hmem : ∀ v ∈ l, v < 32 := fun v hv => hl v (List.mem_append_left _ hv)
    have hv : v < 2 ^ 5 := hl v (by simp)
    have hlen' : l.length ≤ 24 := by
      rw [List.length_append, List.length_singleton] at hlen
      omega
    have hbound : ofDigitsBe 32 l < 32 ^ 24 :=
      (ofDigitsBe_lt hmem).trans_le (Nat.pow_le_pow_right (by omega) hlen')
    have hfit : ofDigitsBe 32 l <<< 5 < 2 ^ 128 := by
      rw [Nat.shiftLeft_eq]
      omega
    rw [List.foldl_append, List.foldl_cons, List.foldl_nil, ih hmem (by omega),
      Nat.mod_eq_of_lt hfit, shiftLeft_or_eq _ 5 hv, ofDigitsBe_append]
    rfl

/-- The 26 letters, as a number of 130 bits, are cut into 128 and two. -/
theorem assemble_eq {data : List ℕ} (hdata : ∀ v ∈ data, v < 32)
    (hlen : data.length = dataSymbols) :
    assemble data = (ofDigitsBe 32 data / 4, ofDigitsBe 32 data % 4) := by
  obtain ⟨front, last, rfl⟩ : ∃ front last, data = front ++ [last] := by
    refine ⟨data.dropLast, data.getLast ?_, (List.dropLast_append_getLast _).symm⟩
    rintro rfl
    cases hlen
  have hfront : front.length = 25 := by simpa [dataSymbols] using hlen
  have hmem : ∀ v ∈ front, v < 32 := fun v hv => hdata v (List.mem_append_left _ hv)
  have hlast : last < 32 := hdata last (by simp)
  have hbound : ofDigitsBe 32 front < 32 ^ 25 := hfront ▸ ofDigitsBe_lt hmem
  have hfit : ofDigitsBe 32 front <<< 3 < 2 ^ 128 := by
    rw [Nat.shiftLeft_eq]
    omega
  have htop : last >>> 2 < 2 ^ 3 := by
    rw [Nat.shiftRight_eq_div_pow]
    omega
  have htake : (front ++ [last]).take (dataSymbols - 1) = front := by
    rw [show dataSymbols - 1 = front.length from hfront.symm, List.take_left]
  have hmask : last &&& 0b11 = last % 4 := Nat.and_two_pow_sub_one_eq_mod last 2
  simp only [assemble, htake, foldl_shift_eq hmem hfront.le, List.getLast?_concat,
    Option.getD_some, Nat.mod_eq_of_lt hfit, shiftLeft_or_eq _ 3 htop, hmask, ofDigitsBe_append,
    Prod.mk.injEq]
  rw [Nat.shiftRight_eq_div_pow]
  omega

theorem ofBe_code_lt (code : Code) : ofBe code.val < 2 ^ 128 := by
  have h := ofBe_lt code.val
  rw [code.property] at h
  exact h

theorem beBytes_ofBe_code (code : Code) : beBytes codeLen (ofBe code.val) = code.val := by
  have h := beBytes_ofBe code.val
  rwa [code.property] at h

/-- Twenty-eight values are those of a code exactly when they pass the checks for it. -/
theorem values_eq_symbolsOf_iff (sha256 : Bytes → Bytes) (kind : Kind) (code : Code)
    {values : List ℕ} (hvalues : ∀ v ∈ values, v < 32) (hlen : values.length = symbols) :
    values = symbolsOf sha256 kind code ↔
      (assemble (values.take dataSymbols)).2 = 0 ∧
        beBytes codeLen (assemble (values.take dataSymbols)).1 = code.val ∧
        (values[26]?.getD 0 <<< 5) ||| values[27]?.getD 0 = checkValue sha256 kind code := by
  obtain ⟨hi, lo, hcheck⟩ : ∃ hi lo, values.drop dataSymbols = [hi, lo] :=
    List.length_eq_two.mp (by rw [List.length_drop, hlen]; rfl)
  obtain ⟨data, hdata, rfl⟩ : ∃ data, data.length = dataSymbols ∧ values = data ++ [hi, lo] := by
    refine ⟨values.take dataSymbols, ?_, ?_⟩
    · rw [List.length_take, hlen]
      rfl
    · rw [← hcheck, List.take_append_drop]
  have hmem : ∀ v ∈ data, v < 32 := fun v hv => hvalues v (List.mem_append_left _ hv)
  have hhi : hi < 32 := hvalues hi (by simp)
  have hlo : lo < 2 ^ 5 := hvalues lo (by simp)
  have htake : (data ++ [hi, lo]).take dataSymbols = data := by rw [← hdata, List.take_left]
  have h26 : (data ++ [hi, lo])[26]?.getD 0 = hi := by
    rw [List.getElem?_append_right (by rw [hdata]; decide), hdata]
    rfl
  have h27 : (data ++ [hi, lo])[27]?.getD 0 = lo := by
    rw [List.getElem?_append_right (by rw [hdata]; decide), hdata]
    rfl
  have hcode := ofBe_code_lt code
  have hbound : ofDigitsBe 32 data < 32 ^ 26 :=
    (ofDigitsBe_lt hmem).trans_eq (congrArg (32 ^ ·) hdata)
  -- the data letters are those of the code when the number they spell is its four-fold
  have hnumber : data = digitsBe 32 dataSymbols (4 * ofBe code.val) ↔
      ofDigitsBe 32 data = 4 * ofBe code.val := by
    refine ⟨fun h => ?_, fun h => ?_⟩
    · rw [h]
      exact ofDigitsBe_digitsBe (show _ < 32 ^ 26 by omega)
    · rw [← h, ← hdata, digitsBe_ofDigitsBe hmem]
  have hbits : ofDigitsBe 32 data = 4 * ofBe code.val ↔ ofDigitsBe 32 data % 4 = 0 ∧
      beBytes codeLen (ofDigitsBe 32 data / 4) = code.val := by
    refine ⟨fun h => ⟨by omega, ?_⟩, fun ⟨hpad, h⟩ => ?_⟩
    · rw [h, Nat.mul_div_cancel_left _ (by omega), beBytes_ofBe_code]
    · have hback : ofBe code.val = ofDigitsBe 32 data / 4 := by
        rw [← h]
        exact ofBe_beBytes (show _ < 256 ^ 16 by omega)
      omega
  have hten : [hi, lo] = [checkValue sha256 kind code / 32, checkValue sha256 kind code % 32] ↔
      hi * 2 ^ 5 + lo = checkValue sha256 kind code := by
    simp only [List.cons.injEq, and_true]
    omega
  rw [symbolsOf_eq, htake, h26, h27, assemble_eq hmem hdata, shiftLeft_or_eq hi 5 hlo, ← hten,
    ← and_assoc, ← hbits, ← hnumber]
  refine ⟨fun h => List.append_inj h (by rw [hdata, length_digitsBe]), fun h => ?_⟩
  rw [← h.1, ← h.2]

/-! ### Texts -/

/-- What a typed text reads as: separators dropped, letters folded. -/
def normalize (text : Bytes) : Bytes := (text.filter fun b => !isSeparator b).map mapPrefixChar

/-- The printed form without its dashes. -/
def letters (sha256 : Bytes → Bytes) (kind : Kind) (code : Code) : Bytes :=
  (formatCode sha256 kind code).filter (· ≠ ascii '-')

theorem stripPrefix_eq_some {expected chars rest : Bytes} :
    stripPrefix expected chars = some rest ↔
      ∃ typed, chars = typed ++ rest ∧ typed.map mapPrefixChar = expected := by
  induction expected generalizing chars with
  | nil =>
    simp only [stripPrefix, Option.some.injEq, List.map_eq_nil_iff]
    refine ⟨fun h => ⟨[], h, rfl⟩, ?_⟩
    rintro ⟨typed, h, rfl⟩
    exact h
  | cons e expected ih =>
    cases chars with
    | nil => simp [stripPrefix]
    | cons b chars =>
      simp only [stripPrefix]
      refine ⟨fun h => ?_, ?_⟩
      · split at h
        · next hb =>
          obtain ⟨typed, rfl, htyped⟩ := ih.mp h
          exact ⟨b :: typed, rfl, by rw [List.map_cons, hb, htyped]⟩
        · cases h
      · rintro ⟨typed, h, htyped⟩
        cases typed with
        | nil => cases htyped
        | cons c typed =>
          rw [List.cons_append, List.cons.injEq] at h
          rw [List.map_cons, List.cons.injEq] at htyped
          rw [if_pos (h.1 ▸ htyped.1)]
          exact ih.mpr ⟨typed, h.2, htyped.2⟩

/-- Letters behind dashes, seen through a filter that drops only the dashes. -/
theorem filter_flatMap_dash {p : Byte → Bool} (hdash : p (ascii '-') = false)
    (hletter : ∀ v, p (letter v) = true) (l : List ℕ) (k : ℕ) :
    ((l.zipIdx k).flatMap fun (value, i) =>
      let letter := encodeSymbol (Fin.ofNat 256 value)
      if i % group = 0 then [ascii '-', letter] else [letter]).filter p = l.map letter := by
  induction l generalizing k with
  | nil => rfl
  | cons v l ih =>
    rw [List.zipIdx_cons, List.flatMap_cons, List.filter_append, ih (k + 1), List.map_cons]
    show (if k % group = 0 then [ascii '-', letter v] else [letter v]).filter p ++ _ = _
    split
    · rw [List.filter_cons_of_neg (by rw [hdash]; decide), List.filter_cons_of_pos (hletter v)]
      rfl
    · rw [List.filter_cons_of_pos (hletter v)]
      rfl

theorem filter_formatCode {p : Byte → Bool} (hdash : p (ascii '-') = false)
    (hletter : ∀ v, p (letter v) = true) (sha256 : Bytes → Bytes) (kind : Kind)
    (hkind : ∀ b ∈ kind.prefix, p b = true) (code : Code) :
    (formatCode sha256 kind code).filter p =
      kind.prefix ++ (symbolsOf sha256 kind code).map letter := by
  rw [formatCode, List.filter_append, List.filter_eq_self.mpr hkind,
    filter_flatMap_dash hdash hletter]

theorem isSeparator_letter (v : ℕ) : isSeparator (letter v) = false := isSeparator_encodeSymbol _

theorem prefix_letters (kind : Kind) : ∀ b ∈ kind.prefix, (!isSeparator b) = true := by
  cases kind <;> decide +kernel

theorem ne_dash_of_isSeparator {b : Byte} (h : isSeparator b = false) :
    decide (b ≠ ascii '-') = true := by
  refine decide_eq_true fun hb => ?_
  rw [hb] at h
  cases h

theorem letters_eq (sha256 : Bytes → Bytes) (kind : Kind) (code : Code) :
    letters sha256 kind code = kind.prefix ++ (symbolsOf sha256 kind code).map letter := by
  refine filter_formatCode rfl (fun v => ne_dash_of_isSeparator (isSeparator_letter v)) sha256 kind
    (fun b hb => ne_dash_of_isSeparator ?_) code
  have h := prefix_letters kind b hb
  rwa [Bool.not_eq_true'] at h

theorem normalize_formatCode (sha256 : Bytes → Bytes) (kind : Kind) (code : Code) :
    normalize (formatCode sha256 kind code) = letters sha256 kind code := by
  have hfilter := filter_formatCode (p := fun b => !isSeparator b) rfl
    (fun v => by rw [isSeparator_letter]; rfl) sha256 kind (prefix_letters kind) code
  have hkind : kind.prefix.map mapPrefixChar = kind.prefix := by cases kind <;> decide
  have hletters : ((symbolsOf sha256 kind code).map letter).map mapPrefixChar =
      (symbolsOf sha256 kind code).map letter := by
    rw [List.map_map]
    exact List.map_congr_left fun v _ => mapPrefixChar_letter v
  rw [normalize, hfilter, List.map_append, hkind, hletters, letters_eq]

theorem length_formatCode_le (sha256 : Bytes → Bytes) (kind : Kind) (code : Code) :
    (formatCode sha256 kind code).length ≤ maxInputLen := by
  have hgroup : ∀ (l : List ℕ) (k : ℕ), ((l.zipIdx k).flatMap fun (value, i) =>
      let letter := encodeSymbol (Fin.ofNat 256 value)
      if i % group = 0 then [ascii '-', letter] else [letter]).length ≤ 2 * l.length := by
    intro l
    induction l with
    | nil => exact fun k => Nat.le_refl 0
    | cons v l ih =>
      intro k
      have hrest := ih (k + 1)
      rw [List.zipIdx_cons, List.flatMap_cons, List.length_append, List.length_cons]
      show (if k % group = 0 then [ascii '-', letter v] else [letter v]).length + _ ≤ _
      split
      · rw [List.length_cons, List.length_singleton]
        omega
      · rw [List.length_singleton]
        omega
  have hkind : kind.prefix.length ≤ 4 := by cases kind <;> decide
  have hrest := hgroup (symbolsOf sha256 kind code) 0
  rw [length_symbolsOf] at hrest
  rw [formatCode, List.length_append]
  exact (Nat.add_le_add hkind hrest).trans (by decide)

/-- Twenty-eight values are accepted when they are those of the code. -/
theorem checkValues_eq_ok_iff (sha256 : Bytes → Bytes) (kind : Kind) (code : Code)
    {values : List ℕ} (hvalues : ∀ v ∈ values, v < 32) (hlen : values.length = symbols) :
    checkValues sha256 kind values = .ok code ↔ values = symbolsOf sha256 kind code := by
  rw [values_eq_symbolsOf_iff sha256 kind code hvalues hlen, checkValues]
  set assembled := assemble (values.take dataSymbols)
  refine ⟨fun h => ?_, fun ⟨hpad, hcode, hcheck⟩ => ?_⟩
  · split at h
    · cases h
    · next hpad =>
      split at h
      · cases h
      · next hcheck =>
        cases h
        exact ⟨not_not.mp hpad, rfl, not_not.mp hcheck⟩
  · obtain rfl : code = ⟨beBytes codeLen assembled.1, length_beBytes codeLen assembled.1⟩ :=
      Subtype.ext hcode.symm
    rw [if_neg (not_not.mpr hpad), if_neg (not_not.mpr hcheck)]

/-- The letters after the prefix are accepted when their values are those of the code. -/
theorem checkLetters_eq_ok_iff (sha256 : Bytes → Bytes) (kind : Kind) (rest : Bytes) (code : Code) :
    checkLetters sha256 kind rest = .ok code ↔
      (rest.map decodeSymbol).all (·.2) = true ∧
        (rest.map decodeSymbol).map (·.1.val) = symbolsOf sha256 kind code := by
  rw [checkLetters]
  set decoded := rest.map decodeSymbol
  by_cases hvalid : decoded.all (·.2) = true
  · rw [if_neg (by rw [hvalid]; decide)]
    by_cases hlen : decoded.length = symbols
    · have hvalues : ∀ v ∈ decoded.map (·.1.val), v < 32 := by
        intro v hv
        obtain ⟨d, hd, rfl⟩ := List.mem_map.mp hv
        obtain ⟨b, -, rfl⟩ := List.mem_map.mp hd
        exact (encodeSymbol_decodeSymbol b (List.all_eq_true.mp hvalid _ hd)).1
      rw [if_neg (not_not.mpr hlen), checkValues_eq_ok_iff sha256 kind code hvalues
        (by rw [List.length_map, hlen])]
      exact (and_iff_right hvalid).symm
    · rw [if_pos hlen]
      refine iff_of_false (fun h => by cases h) fun h => hlen ?_
      rw [← length_symbolsOf sha256 kind code, ← h.2]
      exact (List.length_map _).symm
  · rw [if_pos (Bool.eq_false_of_not_eq_true hvalid)]
    exact iff_of_false (fun h => by cases h) fun h => hvalid h.1

/-- What is accepted reads as the printed form of the code that is returned. -/
theorem parseCode_eq_ok_iff (sha256 : Bytes → Bytes) (kind : Kind) (text : Bytes) (code : Code) :
    parseCode sha256 kind text = .ok code ↔
      text.length ≤ maxInputLen ∧ normalize text = letters sha256 kind code := by
  rw [letters_eq, normalize]
  set chars := text.filter fun b => !isSeparator b
  have hread : chars.map mapPrefixChar = kind.prefix ++ (symbolsOf sha256 kind code).map letter ↔
      ∃ rest, stripPrefix kind.prefix chars = some rest ∧
        rest.map mapPrefixChar = (symbolsOf sha256 kind code).map letter := by
    rw [List.map_eq_append_iff]
    refine ⟨?_, ?_⟩
    · rintro ⟨typed, rest, h, htyped, hrest⟩
      exact ⟨rest, stripPrefix_eq_some.mpr ⟨typed, h, htyped⟩, hrest⟩
    · rintro ⟨rest, h, hrest⟩
      obtain ⟨typed, h, htyped⟩ := stripPrefix_eq_some.mp h
      exact ⟨typed, rest, h, htyped, hrest⟩
  rw [hread, parseCode]
  by_cases hlong : maxInputLen < text.length
  · rw [if_pos hlong]
    exact iff_of_false (fun h => by cases h) fun h => absurd h.1 (Nat.not_le.mpr hlong)
  · rw [if_neg hlong]
    simp only [Nat.le_of_not_lt hlong, true_and]
    cases hstrip : stripPrefix kind.prefix chars with
    | none => simp
    | some rest =>
      simp only [Option.some.injEq, exists_eq_left',
        map_mapPrefixChar_eq_iff (symbolsOf_lt sha256 kind code)]
      exact checkLetters_eq_ok_iff sha256 kind rest code

/-- A printed code reads back, what is accepted reads as a printed code, and no text is a code of
both kinds. -/
theorem printed_codes (sha256 : Bytes → Bytes) :
    (∀ kind code, parseCode sha256 kind (formatCode sha256 kind code) = .ok code) ∧
    (∀ kind text code, parseCode sha256 kind text = .ok code ↔
      text.length ≤ maxInputLen ∧ normalize text = letters sha256 kind code) ∧
    ∀ text key recovery, ¬(parseCode sha256 .secretKey text = .ok key ∧
      parseCode sha256 .recoveryCode text = .ok recovery) := by
  refine ⟨fun kind code => ?_, parseCode_eq_ok_iff sha256, fun text key recovery h => ?_⟩
  · exact (parseCode_eq_ok_iff sha256 kind _ code).mpr
      ⟨length_formatCode_le sha256 kind code, normalize_formatCode sha256 kind code⟩
  · have hkey := ((parseCode_eq_ok_iff sha256 _ _ _).mp h.1).2
    have hrecovery := ((parseCode_eq_ok_iff sha256 _ _ _).mp h.2).2
    rw [hkey, letters_eq, letters_eq] at hrecovery
    -- the third letters of the prefixes differ
    have hthird : some (ascii '1') = some (ascii 'R') := congrArg (·[2]?) hrecovery
    cases hthird

end SecretKey

end RizzyVault.Core
