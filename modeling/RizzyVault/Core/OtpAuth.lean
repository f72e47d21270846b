import RizzyVault.Core.Base32
import RizzyVault.Core.Normalize
import RizzyVault.Lib.Text

/-!
# One-time code URIs

An `otpauth` URI carries a label, an issuer, a secret and the parameters of a one-time code. The
label and the issuer are any text, escaped byte by byte.

## Main definitions

* `OtpAuthUri`, `OtpAuthUri.parse`, `OtpAuthUri.toUri`.
* `percentDecode`, `percentEncode`.
* `pairs`: the parameters a URI is written with.

## Main results

* `percentDecode_percentEncode`: a text survives its escapes.
* `collect_pairs`: the parameters are collected as they were written.
* `length_toUri_le`: what is written fits the room that is reserved.
* `otpauth_uris`.

## References

* `crates/rizzy-core/src/totp.rs`.
-/

open RizzyVault.Lib

namespace RizzyVault.Core

namespace Totp

def maxUriLen : ℕ := 4096

def maxLabelLen : ℕ := 512

def maxIssuerLen : ℕ := 512

/-- Texts that differ in the case of ASCII letters at most. -/
def eqIgnoreAsciiCase (a b : Bytes) : Bool := toAsciiLowercase a = toAsciiLowercase b

def okOr {α : Type} (o : Option α) (e : TotpError) : Except TotpError α := o.elim (.error e) .ok

/-! ### Values -/

inductive Algorithm
  | sha1
  | sha256
  | sha512
  deriving DecidableEq

/-- The name in URIs. -/
def Algorithm.name : Algorithm → Bytes
  | sha1 => asciiBytes ['S', 'H', 'A', '1']
  | sha256 => asciiBytes ['S', 'H', 'A', '2', '5', '6']
  | sha512 => asciiBytes ['S', 'H', 'A', '5', '1', '2']

def Algorithm.fromName (name : Bytes) : Except TotpError Algorithm :=
  okOr ([Algorithm.sha1, .sha256, .sha512].find? fun a => eqIgnoreAsciiCase a.name name)
    .unsupportedAlgorithm

/-- The number of digits of a code. -/
abbrev Digits := {n : ℕ // 6 ≤ n ∧ n ≤ 8}

def Digits.default : Digits := ⟨6, by decide⟩

def Digits.new (digits : ℕ) : Except TotpError Digits :=
  if h : 6 ≤ digits ∧ digits ≤ 8 then .ok ⟨digits, h⟩ else .error .invalidDigits

/-- The time step in seconds. -/
abbrev Period := {n : ℕ // 1 ≤ n ∧ n ≤ 300}

def Period.default : Period := ⟨30, by decide⟩

def Period.new (seconds : ℕ) : Except TotpError Period :=
  if h : 1 ≤ seconds ∧ seconds ≤ 300 then .ok ⟨seconds, h⟩ else .error .invalidPeriod

inductive OtpKind
  | totp (period : Period)
  | hotp (counter : Fin (2 ^ 64))
  deriving DecidableEq

/-- The limits of the decoded texts. -/
def CheckTextLengths (label : String) (issuer : Option String) : Prop :=
  (utf8 label).length ≤ maxLabelLen ∧ ∀ i ∈ issuer, (utf8 i).length ≤ maxIssuerLen

instance (label : String) (issuer : Option String) : Decidable (CheckTextLengths label issuer) :=
  inferInstanceAs (Decidable (_ ∧ _))

structure OtpAuthUri where
  kind : OtpKind
  label : String
  issuer : Option String
  algorithm : Algorithm
  digits : Digits
  secret : TotpSecret
  lengths : CheckTextLengths label issuer

/-! ### Texts -/

/-- Plain decimal of at most `maxDigits` digits, below `2 ^ 64`. -/
def parseDecimal (text : Bytes) (maxDigits : ℕ) : Option ℕ :=
  if text ≠ [] ∧ text.length ≤ maxDigits ∧ text.all isDigit ∧
      (text = [ascii '0'] ∨ text.head? ≠ some (ascii '0')) ∧ ofDecimal text < 2 ^ 64 then
    some (ofDecimal text)
  else none

def hexValue (b : Byte) : Option Byte :=
  if ascii '0' ≤ b ∧ b ≤ ascii '9' then some (b - ascii '0')
  else if ascii 'a' ≤ b ∧ b ≤ ascii 'f' then some (b - ascii 'a' + 10)
  else if ascii 'A' ≤ b ∧ b ≤ ascii 'F' then some (b - ascii 'A' + 10)
  else none

/-- The bytes that a text with escapes stands for. -/
def unescape (plusIsSpace : Bool) : Bytes → Option Bytes
  | [] => some []
  | b :: bytes =>
    if b = ascii '%' then
      match bytes with
      | hi :: lo :: bytes => do
        let hi ← hexValue hi
        let lo ← hexValue lo
        let out ← unescape plusIsSpace bytes
        some (((hi <<< 4) ||| lo) :: out)
      | _ => none
    else if b = ascii '+' ∧ plusIsSpace then (unescape plusIsSpace bytes).map (ascii ' ' :: ·)
    else (unescape plusIsSpace bytes).map (b :: ·)

def percentDecode (text : Bytes) (plusIsSpace : Bool) : Except TotpError String :=
  okOr ((unescape plusIsSpace text).bind fromUtf8) .invalidUri

def isAsciiAlphanumeric (b : Byte) : Bool :=
  (ascii '0' ≤ b ∧ b ≤ ascii '9') ∨ (ascii 'A' ≤ b ∧ b ≤ ascii 'Z') ∨
    (ascii 'a' ≤ b ∧ b ≤ ascii 'z')

/-- The characters that are never escaped. -/
def isUnreserved (b : Byte) : Bool :=
  isAsciiAlphanumeric b ∨ b = ascii '-' ∨ b = ascii '.' ∨ b = ascii '_' ∨ b = ascii '~'

def hexDigits : Bytes := asciiBytes "0123456789ABCDEF".toList

def hexDigit (v : Byte) : Byte := hexDigits[v.val]?.getD 0

def escape (b : Byte) : Bytes :=
  if isUnreserved b then [b] else [ascii '%', hexDigit (b >>> 4), hexDigit (b &&& 0x0f)]

def percentEncode (text : String) : Bytes := (utf8 text).flatMap escape

/-! ### Parameters -/

/-- The parameters that are read. -/
inductive Param
  | secret
  | issuer
  | algorithm
  | digits
  | period
  | counter
  deriving DecidableEq

def Param.name : Param → Bytes
  | secret => asciiBytes ['s', 'e', 'c', 'r', 'e', 't']
  | issuer => asciiBytes ['i', 's', 's', 'u', 'e', 'r']
  | algorithm => asciiBytes ['a', 'l', 'g', 'o', 'r', 'i', 't', 'h', 'm']
  | digits => asciiBytes ['d', 'i', 'g', 'i', 't', 's']
  | period => asciiBytes ['p', 'e', 'r', 'i', 'o', 'd']
  | counter => asciiBytes ['c', 'o', 'u', 'n', 't', 'e', 'r']

def Param.ofName (key : Bytes) : Option Param :=
  [Param.secret, .issuer, .algorithm, .digits, .period, .counter].find? fun p => p.name = key

/-- The raw values, by parameter. -/
abbrev Slots := Param → Option Bytes

/-- A pair is kept in its slot; unknown names are skipped, and a known one comes once. -/
def addPair (slots : Slots) (pair : Bytes) : Except TotpError Slots :=
  let cut := (splitOnce [ascii '='] pair).getD (pair, [])
  match Param.ofName cut.1 with
  | none => .ok slots
  | some p =>
    if (slots p).isSome then .error .duplicateParameter
    else .ok (Function.update slots p (some cut.2))

def collect (query : Bytes) : Except TotpError Slots :=
  ((query.splitOn (ascii '&')).filter (· ≠ [])).foldlM addPair fun _ => none

/-! ### URIs -/

def scheme : Bytes := asciiBytes "otpauth".toList

def totpType : Bytes := asciiBytes ['t', 'o', 't', 'p']

def hotpType : Bytes := asciiBytes ['h', 'o', 't', 'p']

def parseType (text : Bytes) : Except TotpError Bool :=
  if eqIgnoreAsciiCase text totpType then .ok true
  else if eqIgnoreAsciiCase text hotpType then .ok false
  else .error .invalidUri

def parseDigits : Option Bytes → Except TotpError Digits
  | some v => okOr (parseDecimal v 1) .invalidDigits >>= Digits.new
  | none => .ok Digits.default

def parseKind (isTotp : Bool) (period counter : Option Bytes) : Except TotpError OtpKind :=
  if isTotp then
    match period with
    | some v => (okOr (parseDecimal v 3) .invalidPeriod >>= Period.new).map .totp
    | none => .ok (.totp Period.default)
  else do
    let text ← okOr counter .missingParameter
    let counter ← okOr (parseDecimal text 20) .invalidCounter
    .ok (.hotp (Fin.ofNat (2 ^ 64) counter))

def parseAlgorithm : Option Bytes → Except TotpError Algorithm
  | some v => percentDecode v true >>= fun name => Algorithm.fromName (utf8 name)
  | none => .ok .sha1

/-- Reads the values of the parameters, the secret first. -/
def readValues (isTotp : Bool) (label : String) (slots : Slots) : Except TotpError OtpAuthUri := do
  let secret ← okOr (slots .secret) .missingParameter
  let secretText ← percentDecode secret false
  let secret ← base32Decode (utf8 secretText)
  let issuer ← (slots .issuer).mapM fun v => percentDecode v true
  if lengths : CheckTextLengths label issuer then
    let algorithm ← parseAlgorithm (slots .algorithm)
    let digits ← parseDigits (slots .digits)
    let kind ← parseKind isTotp (slots .period) (slots .counter)
    .ok { kind, label, issuer, algorithm, digits, secret, lengths }
  else .error .invalidUri

def OtpAuthUri.parse (uri : Bytes) : Except TotpError OtpAuthUri :=
  if maxUriLen < uri.length ∨ uri.any (fun b => 128 ≤ b.val) ∨ ascii '#' ∈ uri then
    .error .invalidUri
  else do
    let (found, rest) ← okOr (splitOnce (asciiBytes [':', '/', '/']) uri) .invalidUri
    if ¬ eqIgnoreAsciiCase found scheme then .error .invalidUri
    else
      let (kindText, rest) ← okOr (splitOnce [ascii '/'] rest) .invalidUri
      let isTotp ← parseType kindText
      let cut := (splitOnce [ascii '?'] rest).getD (rest, [])
      let label ← percentDecode cut.1 false
      let slots ← collect cut.2
      readValues isTotp label slots

/-- The scheme and the type, as they are written. -/
def OtpKind.head : OtpKind → Bytes
  | totp _ => scheme ++ asciiBytes [':', '/', '/'] ++ totpType ++ asciiBytes ['/']
  | hotp _ => scheme ++ asciiBytes [':', '/', '/'] ++ hotpType ++ asciiBytes ['/']

/-- The last parameter, as it is written. -/
def OtpKind.tail : OtpKind → Bytes
  | totp period => asciiBytes "&period=".toList ++ decimal period.val
  | hotp counter => asciiBytes "&counter=".toList ++ decimal counter.val

def OtpAuthUri.toUri (u : OtpAuthUri) : Bytes :=
  u.kind.head ++ percentEncode u.label ++
  asciiBytes "?secret=".toList ++ base32Encode u.secret.val ++
  (match u.issuer with
    | some issuer => asciiBytes "&issuer=".toList ++ percentEncode issuer
    | none => []) ++
  asciiBytes "&algorithm=".toList ++ u.algorithm.name ++
  asciiBytes "&digits=".toList ++ decimal u.digits.val ++ u.kind.tail

/-- The longest fixed text. -/
def uriFixedMaxLen : ℕ := 15 + 8 + 17 + 9 + 29

/-- An upper bound of the length, from the lengths of the texts. -/
def uriCapacity (labelLen : ℕ) (issuerLen : Option ℕ) (secretLen : ℕ) : ℕ :=
  let issuer := match issuerLen with
    | some len => 8 + 3 * len
    | none => 0
  uriFixedMaxLen + 3 * labelLen + issuer + (secretLen * 8 + 4) / 5

def OtpAuthUri.uriCapacity (u : OtpAuthUri) : ℕ :=
  Totp.uriCapacity (utf8 u.label).length (u.issuer.map fun i => (utf8 i).length)
    u.secret.val.length

/-! ### Escapes -/

/-- The bytes of escaped texts. -/
def isSafe (b : Byte) : Bool := isUnreserved b || b = ascii '%'

theorem isSafe_spec : ∀ b : Byte, isSafe b = true →
    b.val < 128 ∧ b ≠ ascii '#' ∧ b ≠ ascii '?' ∧ b ≠ ascii '&' ∧ b ≠ ascii '/' := by
  intro b h
  have hne : ∀ c : Byte, isSafe c = false → b ≠ c := by
    rintro c hc rfl
    exact absurd h (by simp [hc])
  refine ⟨?_, hne _ (by decide), hne _ (by decide), hne _ (by decide), hne _ (by decide)⟩
  simp only [isSafe, isUnreserved, isAsciiAlphanumeric, ascii, Bool.or_eq_true, decide_eq_true_eq,
    Fin.le_def, Fin.ext_iff, Fin.val_ofNat, Char.reduceToNat] at h
  omega

theorem isUnreserved_spec : ∀ b : Byte, isUnreserved b = true →
    isSafe b = true ∧ b ≠ ascii '%' ∧ b ≠ ascii '+' := by
  intro b h
  refine ⟨Bool.or_inl h, ?_, ?_⟩
  · rintro rfl
    exact absurd h (by decide)
  · rintro rfl
    exact absurd h (by decide)

theorem isSafe_escape : ∀ b : Byte, (escape b).all isSafe = true := by
  decide +kernel

theorem length_escape_le (b : Byte) : (escape b).length ≤ 3 := by
  rw [escape]
  split_ifs
  · exact Nat.one_le_ofNat
  · exact le_rfl

theorem isUnreserved_base32Char : ∀ v : Byte, isUnreserved (base32Char v) = true := by
  decide +kernel

theorem isUnreserved_of_isDigit (b : Byte) (h : isDigit b = true) : isUnreserved b = true := by
  have hrange : ascii '0' ≤ b ∧ b ≤ ascii '9' := of_decide_eq_true h
  simp [isUnreserved, isAsciiAlphanumeric, hrange]

theorem hexValue_hexDigit : ∀ b : Byte,
    hexValue (hexDigit (b >>> 4)) = some (b >>> 4) ∧
      hexValue (hexDigit (b &&& 0x0f)) = some (b &&& 0x0f) ∧
      ((b >>> 4) <<< 4) ||| (b &&& 0x0f) = b := by
  decide +kernel

theorem unescape_unreserved (plusIsSpace : Bool) {b : Byte} (h : isUnreserved b = true)
    (rest : Bytes) :
    unescape plusIsSpace (b :: rest) = (unescape plusIsSpace rest).map (b :: ·) := by
  obtain ⟨-, hpercent, hplus⟩ := isUnreserved_spec b h
  rw [unescape.eq_def]
  simp only [hpercent, hplus, false_and, if_false]

theorem unescape_escape (plusIsSpace : Bool) (b : Byte) (rest : Bytes) :
    unescape plusIsSpace (escape b ++ rest) = (unescape plusIsSpace rest).map (b :: ·) := by
  rw [escape]
  split
  · next h => exact unescape_unreserved plusIsSpace h rest
  · obtain ⟨hhi, hlo, hjoin⟩ := hexValue_hexDigit b
    simp only [List.cons_append, List.nil_append]
    rw [unescape.eq_def]
    simp only [if_true, hhi, hlo, Option.bind_eq_bind, Option.bind_some, hjoin]
    cases unescape plusIsSpace rest <;> rfl

theorem unescape_flatMap_escape (plusIsSpace : Bool) (bytes : Bytes) :
    unescape plusIsSpace (bytes.flatMap escape) = some bytes := by
  induction bytes with
  | nil => rfl
  | cons b bytes ih =>
    rw [List.flatMap_cons, unescape_escape, ih]
    rfl

theorem unescape_eq_self (plusIsSpace : Bool) {text : Bytes}
    (h : ∀ b ∈ text, isUnreserved b = true) : unescape plusIsSpace text = some text := by
  induction text with
  | nil => rfl
  | cons b text ih =>
    rw [unescape_unreserved plusIsSpace (h b (by simp)),
      ih fun b hb => h b (List.mem_cons_of_mem _ hb)]
    rfl

/-- A text survives its escapes, in the label and in the query. -/
theorem percentDecode_percentEncode (text : String) (plusIsSpace : Bool) :
    percentDecode (percentEncode text) plusIsSpace = .ok text := by
  have htext : fromUtf8 (utf8 text) = some text := fromUtf8_eq_some.mpr rfl
  rw [percentDecode, percentEncode, unescape_flatMap_escape, Option.bind_some, htext]
  rfl

/-- Characters that need no escape are read as they are. -/
theorem exists_percentDecode {text : Bytes} (plusIsSpace : Bool)
    (h : ∀ b ∈ text, isUnreserved b = true) :
    ∃ t, percentDecode text plusIsSpace = .ok t ∧ utf8 t = text := by
  have hascii : ∀ b ∈ text, b.val < 128 := fun b hb =>
    (isSafe_spec b (isUnreserved_spec b (h b hb)).1).1
  obtain ⟨t, ht⟩ := Option.isSome_iff_exists.mp (fromUtf8_isSome_of_ascii hascii)
  refine ⟨t, ?_, fromUtf8_eq_some.mp ht⟩
  rw [percentDecode, unescape_eq_self plusIsSpace h, Option.bind_some, ht]
  rfl

theorem isSafe_percentEncode (text : String) : ∀ b ∈ percentEncode text, isSafe b = true := by
  intro b hb
  obtain ⟨c, -, hc⟩ := List.mem_flatMap.mp hb
  exact List.all_eq_true.mp (isSafe_escape c) b hc

theorem length_percentEncode_le (text : String) :
    (percentEncode text).length ≤ 3 * (utf8 text).length := by
  rw [percentEncode]
  induction utf8 text with
  | nil => exact Nat.le_refl 0
  | cons b bytes ih =>
    have hb := length_escape_le b
    rw [List.flatMap_cons, List.length_append, List.length_cons]
    omega

theorem isUnreserved_base32Encode (bytes : Bytes) :
    ∀ b ∈ base32Encode bytes, isUnreserved b = true := by
  obtain ⟨values, htext, -, -⟩ := base32Encode_spec bytes
  intro b hb
  rw [htext] at hb
  obtain ⟨v, -, rfl⟩ := List.mem_map.mp hb
  exact isUnreserved_base32Char _

theorem Algorithm.isUnreserved_name (a : Algorithm) : ∀ b ∈ a.name, isUnreserved b = true :=
  List.all_eq_true.mp (by cases a <;> rfl)

theorem isUnreserved_decimal (n : ℕ) : ∀ b ∈ decimal n, isUnreserved b = true := fun b hb =>
  isUnreserved_of_isDigit b (isDigit_of_mem_decimal n b hb)

/-! ### Values read back -/

theorem parseDecimal_decimal {n k : ℕ} (hk : 0 < k) (hn : n < 10 ^ k) (hmax : n < 2 ^ 64) :
    parseDecimal (decimal n) k = some n := by
  have h := isDecimal_decimal n
  rw [parseDecimal, ofDecimal_decimal, if_pos]
  refine ⟨h.nonempty, length_decimal_le hk hn, List.all_eq_true.mpr h.digits, ?_, hmax⟩
  by_cases hz : (decimal n).head? = some (ascii '0')
  · exact .inl (h.leading hz)
  · exact .inr hz

theorem parseAlgorithm_name (a : Algorithm) : parseAlgorithm (some a.name) = .ok a := by
  obtain ⟨t, ht, hbytes⟩ := exists_percentDecode true a.isUnreserved_name
  have hname : Algorithm.fromName a.name = .ok a := by cases a <;> decide
  rw [parseAlgorithm, ht]
  show Algorithm.fromName (utf8 t) = .ok a
  rw [hbytes, hname]

theorem parseDigits_decimal (d : Digits) : parseDigits (some (decimal d.val)) = .ok d := by
  have hd := d.property
  rw [parseDigits, parseDecimal_decimal (by omega) (by omega) (by omega)]
  exact dif_pos hd

/-- The last parameter of a kind and its value. -/
def OtpKind.param : OtpKind → Param × Bytes
  | totp period => (.period, decimal period.val)
  | hotp counter => (.counter, decimal counter.val)

def OtpKind.isTotp : OtpKind → Bool
  | totp _ => true
  | hotp _ => false

theorem parseKind_decimal (kind : OtpKind) (slots : Slots)
    (h : slots kind.param.1 = some kind.param.2) :
    parseKind kind.isTotp (slots .period) (slots .counter) = .ok kind := by
  cases kind with
  | totp period =>
    have hp := period.property
    have hslot : slots .period = some (decimal period.val) := h
    have hnew : Period.new period.val = .ok period := dif_pos hp
    rw [hslot]
    show (okOr (parseDecimal (decimal period.val) 3) .invalidPeriod >>= Period.new).map _ = _
    rw [parseDecimal_decimal (by omega) (by omega) (by omega)]
    show (Period.new period.val).map _ = _
    rw [hnew]
    rfl
  | hotp counter =>
    have hslot : slots .counter = some (decimal counter.val) := h
    have hc := counter.isLt
    rw [hslot]
    show (okOr (parseDecimal (decimal counter.val) 20) .invalidCounter >>= fun counter =>
      Except.ok (OtpKind.hotp (Fin.ofNat (2 ^ 64) counter))) = _
    rw [parseDecimal_decimal (by omega) (hc.trans (by decide)) hc]
    show Except.ok (OtpKind.hotp (Fin.ofNat (2 ^ 64) counter.val)) = _
    rw [Fin.ofNat_val_eq_self]
/-! ### Parameters read back -/

/-- A parameter as it is written. -/
def pairText (x : Param × Bytes) : Bytes := x.1.name ++ ascii '=' :: x.2

theorem addPair_pairText {slots : Slots} {x : Param × Bytes} (h : slots x.1 = none) :
    addPair slots (pairText x) = .ok (Function.update slots x.1 (some x.2)) := by
  have hname : ascii '=' ∉ x.1.name := by cases x.1 <;> decide
  have hparam : Param.ofName x.1.name = some x.1 := by cases x.1 <;> decide
  have hcut : splitOnce [ascii '='] (pairText x) = some (x.1.name, x.2) :=
    splitOnce_singleton_iff.mpr ⟨rfl, hname⟩
  rw [addPair, hcut]
  simp only [Option.getD_some, hparam, h]
  rfl

theorem foldlM_addPair {l : List (Param × Bytes)} {slots : Slots} (hnodup : (l.map Prod.fst).Nodup)
    (hfree : ∀ x ∈ l, slots x.1 = none) :
    (l.map pairText).foldlM addPair slots =
      .ok (l.foldl (fun slots x => Function.update slots x.1 (some x.2)) slots) := by
  induction l generalizing slots with
  | nil => rfl
  | cons x l ih =>
    obtain ⟨hx, hl⟩ := List.nodup_cons.mp hnodup
    rw [List.map_cons, List.foldlM_cons, addPair_pairText (hfree x (by simp))]
    refine ih hl fun y hy => ?_
    have hne : y.1 ≠ x.1 := fun heq => hx (heq ▸ List.mem_map_of_mem hy)
    rw [Function.update_of_ne hne]
    exact hfree y (List.mem_cons_of_mem _ hy)

/-- The parameters of a URI in the order they are written. -/
def pairs (u : OtpAuthUri) : List (Param × Bytes) :=
  (.secret, base32Encode u.secret.val) ::
    u.issuer.toList.map (fun i => (.issuer, percentEncode i)) ++
    [(.algorithm, u.algorithm.name), (.digits, decimal u.digits.val), u.kind.param]

/-- The value that a URI writes for a parameter. -/
def written (u : OtpAuthUri) : Slots
  | .secret => some (base32Encode u.secret.val)
  | .issuer => u.issuer.map percentEncode
  | .algorithm => some u.algorithm.name
  | .digits => some (decimal u.digits.val)
  | .period => if u.kind.param.1 = .period then some u.kind.param.2 else none
  | .counter => if u.kind.param.1 = .counter then some u.kind.param.2 else none

theorem pairText_safe (u : OtpAuthUri) : ∀ x ∈ pairs u, ∀ b ∈ x.2, isSafe b = true := by
  have hdecimal : ∀ n : ℕ, ∀ b ∈ decimal n, isSafe b = true := fun n b hb =>
    (isUnreserved_spec b (isUnreserved_decimal n b hb)).1
  intro x hx
  simp only [pairs, List.cons_append, List.mem_cons, List.mem_append, List.mem_map,
    List.not_mem_nil, or_false] at hx
  rcases hx with rfl | ⟨i, -, rfl⟩ | rfl | rfl | rfl
  · exact fun b hb => (isUnreserved_spec b (isUnreserved_base32Encode _ b hb)).1
  · exact isSafe_percentEncode i
  · exact fun b hb => (isUnreserved_spec b (u.algorithm.isUnreserved_name b hb)).1
  · exact hdecimal _
  · cases u.kind with
    | totp period => exact hdecimal _
    | hotp counter => exact hdecimal _

/-- The parameters are collected as they were written. -/
theorem collect_pairs (u : OtpAuthUri) :
    collect ([ascii '&'].intercalate ((pairs u).map pairText)) = .ok (written u) := by
  have hsplit : ∀ l ∈ (pairs u).map pairText, ascii '&' ∉ l := by
    intro l hl
    obtain ⟨x, hx, rfl⟩ := List.mem_map.mp hl
    rw [pairText, List.mem_append, List.mem_cons, not_or, not_or]
    refine ⟨?_, by decide, fun hb =>
      (isSafe_spec _ (pairText_safe u x hx _ hb)).2.2.2.1 rfl⟩
    cases x.1 <;> decide
  have hnonempty : ∀ l ∈ (pairs u).map pairText, decide (l ≠ []) = true := by
    intro l hl
    obtain ⟨x, -, rfl⟩ := List.mem_map.mp hl
    exact decide_eq_true (by simp [pairText])
  have hnodup : ((pairs u).map Prod.fst).Nodup := by
    cases hkind : u.kind <;> cases hissuer : u.issuer <;>
      simp [pairs, hkind, hissuer, OtpKind.param]
  rw [collect, List.splitOn_intercalate _ hsplit (by simp [pairs]),
    List.filter_eq_self.mpr hnonempty,
    foldlM_addPair hnodup fun _ _ => rfl]
  refine congrArg Except.ok (funext fun p => ?_)
  cases hkind : u.kind <;> cases hissuer : u.issuer <;> cases p <;>
    simp [pairs, written, hkind, hissuer, OtpKind.param]

/-- A URI is its head, its label, and its parameters between `?` and `&`. -/
theorem toUri_eq (u : OtpAuthUri) : u.toUri = u.kind.head ++ (percentEncode u.label ++
    ascii '?' :: [ascii '&'].intercalate ((pairs u).map pairText)) := by
  have hsecret : asciiBytes "?secret=".toList = ascii '?' :: Param.secret.name ++ [ascii '='] := by
    decide
  have hissuer : asciiBytes "&issuer=".toList = ascii '&' :: Param.issuer.name ++ [ascii '='] := by
    decide
  have halgorithm : asciiBytes "&algorithm=".toList =
      ascii '&' :: Param.algorithm.name ++ [ascii '='] := by decide
  have hdigits : asciiBytes "&digits=".toList = ascii '&' :: Param.digits.name ++ [ascii '='] := by
    decide
  have htail : u.kind.tail = ascii '&' :: pairText u.kind.param := by
    have hperiod : asciiBytes "&period=".toList =
        ascii '&' :: Param.period.name ++ [ascii '='] := by decide
    have hcounter : asciiBytes "&counter=".toList =
        ascii '&' :: Param.counter.name ++ [ascii '='] := by decide
    cases u.kind with
    | totp period =>
      rw [OtpKind.tail, hperiod, List.append_assoc]
      rfl
    | hotp counter =>
      rw [OtpKind.tail, hcounter, List.append_assoc]
      rfl
  rw [OtpAuthUri.toUri, hsecret, hissuer, halgorithm, hdigits, htail]
  cases hissuer : u.issuer <;>
    simp [pairs, hissuer, pairText, List.intercalate, List.intersperse]
/-! ### The whole URI -/

/-- What is written fits the room that is reserved. -/
theorem length_toUri_le (u : OtpAuthUri) : u.toUri.length ≤ u.uriCapacity := by
  have hhead : u.kind.head.length = 15 := by cases u.kind <;> rfl
  have htail : u.kind.tail.length ≤ 29 := by
    cases u.kind with
    | totp period =>
      have hp := period.property
      have hlen : (decimal period.val).length ≤ 3 := length_decimal_le (by omega) (by omega)
      rw [OtpKind.tail, List.length_append]
      show 8 + _ ≤ 29
      omega
    | hotp counter =>
      have hlen : (decimal counter.val).length ≤ 20 :=
        length_decimal_le (by omega) (counter.isLt.trans (by decide))
      rw [OtpKind.tail, List.length_append]
      show 9 + _ ≤ 29
      omega
  have hname : u.algorithm.name.length ≤ 6 := by cases u.algorithm <;> decide
  have hdigits : (decimal u.digits.val).length ≤ 1 := by
    have hd := u.digits.property
    exact length_decimal_le (by omega) (by omega)
  have hlabel := length_percentEncode_le u.label
  have hsecret : (asciiBytes "?secret=".toList).length = 8 := rfl
  have halgorithm : (asciiBytes "&algorithm=".toList).length = 11 := rfl
  have hdigitsName : (asciiBytes "&digits=".toList).length = 8 := rfl
  rw [OtpAuthUri.toUri, OtpAuthUri.uriCapacity]
  simp only [Totp.uriCapacity, List.length_append, length_base32Encode, hhead, hsecret, halgorithm,
    hdigitsName, uriFixedMaxLen]
  cases u.issuer with
  | none =>
    simp only [List.length_nil, Option.map_none]
    omega
  | some issuer =>
    have hissuer := length_percentEncode_le issuer
    have hissuerName : (asciiBytes "&issuer=".toList).length = 8 := rfl
    simp only [List.length_append, hissuerName, Option.map_some]
    omega

theorem uriCapacity_le (u : OtpAuthUri) : u.uriCapacity ≤ maxUriLen := by
  have hlabel := u.lengths.1
  have hsecret := u.secret.property.2
  simp only [maxLabelLen, maxSecretLen] at hlabel hsecret
  simp only [OtpAuthUri.uriCapacity, Totp.uriCapacity, uriFixedMaxLen, maxUriLen]
  cases hissuer : u.issuer with
  | none =>
    simp only [Option.map_none]
    omega
  | some issuer =>
    have hlen := u.lengths.2 issuer hissuer
    simp only [maxIssuerLen] at hlen
    simp only [Option.map_some]
    omega

/-- A URI is written in ASCII, without a fragment. -/
theorem toUri_plain (u : OtpAuthUri) : ∀ b ∈ u.toUri, b.val < 128 ∧ b ≠ ascii '#' := by
  have hname : ∀ p : Param, ∀ b ∈ p.name, b.val < 128 ∧ b ≠ ascii '#' := by
    have hall (p : Param) : p.name.all (fun b => b.val < 128 && b != ascii '#') = true := by
      cases p <;> rfl
    intro p
    simpa using hall p
  have hhead : ∀ b ∈ u.kind.head, b.val < 128 ∧ b ≠ ascii '#' := by
    have hall : u.kind.head.all (fun b => b.val < 128 && b != ascii '#') = true := by
      cases u.kind <;> rfl
    simpa using hall
  have hsafe : ∀ b : Byte, isSafe b = true → b.val < 128 ∧ b ≠ ascii '#' := fun b hb =>
    ⟨(isSafe_spec b hb).1, (isSafe_spec b hb).2.1⟩
  have hpair : ∀ l ∈ (pairs u).map pairText, ∀ b ∈ l, b.val < 128 ∧ b ≠ ascii '#' := by
    intro l hl b hb
    obtain ⟨x, hx, rfl⟩ := List.mem_map.mp hl
    rw [pairText, List.mem_append, List.mem_cons] at hb
    rcases hb with hb | rfl | hb
    · exact hname x.1 b hb
    · decide
    · exact hsafe b (pairText_safe u x hx b hb)
  intro b hb
  rw [toUri_eq, List.mem_append, List.mem_append, List.mem_cons] at hb
  rcases hb with hb | hb | rfl | hb
  · exact hhead b hb
  · exact hsafe b (isSafe_percentEncode u.label b hb)
  · decide
  · rcases mem_intercalate_singleton hb with rfl | ⟨l, hl, hb⟩
    · decide
    · exact hpair l hl b hb

theorem readValues_written (u : OtpAuthUri) :
    readValues u.kind.isTotp u.label (written u) = .ok u := by
  obtain ⟨text, htext, hbytes⟩ :=
    exists_percentDecode false (isUnreserved_base32Encode u.secret.val)
  have hsecret : base32Decode (utf8 text) = .ok u.secret := by
    rw [hbytes]
    exact (base32Decode_eq_ok_iff _ _).mpr (denotes_base32Encode _)
  have hissuer : ((written u .issuer).mapM fun v => percentDecode v true) = .ok u.issuer := by
    rw [written]
    cases u.issuer with
    | none => rfl
    | some i =>
      show (percentDecode (percentEncode i) true).map some = _
      rw [percentDecode_percentEncode]
      rfl
  have hkind : parseKind u.kind.isTotp (written u .period) (written u .counter) = .ok u.kind :=
    parseKind_decimal u.kind (written u) (by
      cases hk : u.kind <;> simp [written, hk, OtpKind.param])
  have hcode : okOr (written u .secret) .missingParameter = .ok (base32Encode u.secret.val) := rfl
  have halgorithm : parseAlgorithm (written u .algorithm) = .ok u.algorithm :=
    parseAlgorithm_name u.algorithm
  have hdigits : parseDigits (written u .digits) = .ok u.digits := parseDigits_decimal u.digits
  simp only [readValues, hcode, htext, hsecret, hissuer, halgorithm, hdigits, hkind, bind,
    Except.bind]
  exact dif_pos u.lengths
theorem parse_toUri (u : OtpAuthUri) : OtpAuthUri.parse u.toUri = .ok u := by
  have hplain := toUri_plain u
  have hpass : ¬(maxUriLen < u.toUri.length ∨ u.toUri.any (fun b => 128 ≤ b.val) ∨
      ascii '#' ∈ u.toUri) := by
    rintro (h | h | h)
    · exact absurd ((length_toUri_le u).trans (uriCapacity_le u)) (Nat.not_le.mpr h)
    · obtain ⟨b, hb, hlarge⟩ := List.any_eq_true.mp h
      exact absurd (hplain b hb).1 (Nat.not_lt.mpr (of_decide_eq_true hlarge))
    · exact (hplain _ h).2 rfl
  obtain ⟨kindText, hhead, hno, htype⟩ : ∃ kindText,
      u.kind.head = scheme ++ asciiBytes [':', '/', '/'] ++ (kindText ++ asciiBytes ['/']) ∧
        ascii '/' ∉ kindText ∧ parseType kindText = .ok u.kind.isTotp := by
    cases u.kind with
    | totp period =>
      have htype : parseType totpType = .ok true := by decide
      refine ⟨totpType, ?_, by decide, htype⟩
      rw [OtpKind.head, List.append_assoc]
    | hotp counter =>
      have htype : parseType hotpType = .ok false := by decide
      refine ⟨hotpType, ?_, by decide, htype⟩
      rw [OtpKind.head, List.append_assoc]
  obtain ⟨query, hquery, hcollect⟩ : ∃ query,
      [ascii '&'].intercalate ((pairs u).map pairText) = query ∧ collect query = .ok (written u) :=
    ⟨_, rfl, collect_pairs u⟩
  have htext : u.toUri = scheme ++ asciiBytes [':', '/', '/'] ++
      (kindText ++ ascii '/' :: (percentEncode u.label ++ ascii '?' :: query)) := by
    rw [toUri_eq, hhead, hquery]
    simp only [List.append_assoc]
    rfl
  have hscheme : splitOnce (asciiBytes [':', '/', '/']) u.toUri =
      some (scheme, kindText ++ ascii '/' :: (percentEncode u.label ++ ascii '?' :: query)) := by
    rw [htext]
    exact splitOnce_append (by decide)
  have hkind : splitOnce [ascii '/']
      (kindText ++ ascii '/' :: (percentEncode u.label ++ ascii '?' :: query)) =
        some (kindText, percentEncode u.label ++ ascii '?' :: query) :=
    splitOnce_singleton_iff.mpr ⟨rfl, hno⟩
  have hlabel : splitOnce [ascii '?'] (percentEncode u.label ++ ascii '?' :: query) =
      some (percentEncode u.label, query) :=
    splitOnce_singleton_iff.mpr
      ⟨rfl, fun hb => (isSafe_spec _ (isSafe_percentEncode u.label _ hb)).2.2.1 rfl⟩
  have hsame : eqIgnoreAsciiCase scheme scheme = true := decide_eq_true rfl
  rw [OtpAuthUri.parse, if_neg hpass, hscheme]
  simp only [okOr, Option.elim_some, bind, Except.bind, hsame, not_true, if_false, hkind, htype,
    hlabel, Option.getD_some, percentDecode_percentEncode, hcollect]
  exact readValues_written u

/-- A URI fits the room that is reserved and reads back, what is read is what its URI reads as, and
exactly the Base32 texts that stand for a secret are read as secrets. -/
theorem otpauth_uris :
    (∀ u : OtpAuthUri, u.toUri.length ≤ u.uriCapacity ∧ u.uriCapacity ≤ maxUriLen ∧
      OtpAuthUri.parse u.toUri = .ok u) ∧
    (∀ text, (OtpAuthUri.parse text >>= fun u => OtpAuthUri.parse u.toUri) =
      OtpAuthUri.parse text) ∧
    ∀ text secret, base32Decode text = .ok secret ↔ Denotes text secret.val := by
  refine ⟨fun u => ⟨length_toUri_le u, uriCapacity_le u, parse_toUri u⟩, fun text => ?_,
    base32Decode_eq_ok_iff⟩
  cases h : OtpAuthUri.parse text with
  | error e => rfl
  | ok u => exact parse_toUri u
end Totp

end RizzyVault.Core
