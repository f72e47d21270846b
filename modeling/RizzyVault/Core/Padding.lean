import RizzyVault.Core.ReaderGrammar
import RizzyVault.Lib.Result
import RizzyVault.Lib.Rounding

/-!
# Padded frames

A plaintext is framed as its length, its bytes and zeros up to a padded length of at least 256
bytes. The padded length rounds up so that below the leading bit of the length only a few bits, as
many as the exponent has, may be set. A reader accepts only what a writer writes.

## Main definitions

* `padme`, `paddedLen`: the padded length.
* `writeFrame`, `frame`, `unframe`: frames.

## Main results

* `padme_spec`: the least rounded length, its overhead, and that rounding keeps the order.
* `unframe_eq_ok_iff`: a reader accepts exactly the frame of the data it returns.

## References

* `crates/rizzy-core/src/padding.rs`.
-/

open RizzyVault.Lib

namespace RizzyVault.Core

/-! ### The padded length -/

def minPaddedLen : ℕ := 256

/-- The zero bits above the leading one of a word of `bits` bits. -/
def leadingZeros (bits n : ℕ) : ℕ := bits - n.size

/-- The padded length of a message of `len` bytes, unless it overflows 64 bits. -/
def padme (len : ℕ) : Option ℕ :=
  if len < 2 then some len
  else
    let e := 64 - 1 - leadingZeros 64 len
    let s := 32 - leadingZeros 32 e
    let lastBits := e - s
    let mask := 2 ^ lastBits - 1
    -- The complement of the mask in 64 bits; only the addition can overflow.
    if len + mask < 2 ^ 64 then some ((len + mask) &&& (2 ^ 64 - 1 - mask)) else none

/-- The bits of a length of exponent `e` that are rounded away. -/
def lastBits (e : ℕ) : ℕ := e - e.size

theorem lastBits_le (e : ℕ) : lastBits e ≤ e := Nat.sub_le _ _

theorem size_eq_log {n : ℕ} (hn : n ≠ 0) : n.size = Nat.log 2 n + 1 := by
  refine le_antisymm (Nat.size_le.mpr (Nat.lt_pow_succ_log_self (by norm_num) n)) ?_
  exact Nat.lt_size.mpr (Nat.pow_log_le_self 2 hn)

theorem exponent_eq {len : ℕ} (hlen : len < 2 ^ 64) (htwo : ¬ len < 2) :
    64 - 1 - leadingZeros 64 len = Nat.log 2 len := by
  have hsize : len.size = Nat.log 2 len + 1 := size_eq_log (by omega)
  have hle : len.size ≤ 64 := Nat.size_le.mpr hlen
  rw [leadingZeros]
  omega

theorem bits_eq {e : ℕ} (he : e < 64) : 32 - leadingZeros 32 e = e.size := by
  have hle : e.size ≤ 6 := Nat.size_le.mpr he
  rw [leadingZeros]
  omega

theorem log_lt {len : ℕ} (hlen : len < 2 ^ 64) : Nat.log 2 len < 64 :=
  Nat.log_lt_of_lt_pow' (by norm_num) hlen

/-- Rounding up leaves a word exactly where adding the mask does. -/
theorem roundUp_lt_iff {k w a : ℕ} (hk : k ≤ w) :
    roundUp (2 ^ k) a < 2 ^ w ↔ a + (2 ^ k - 1) < 2 ^ w := by
  constructor
  · intro h
    by_contra hge
    rw [not_lt] at hge
    have hdvd : 2 ^ (w - k) * 2 ^ k = 2 ^ w := by rw [← pow_add, Nat.sub_add_cancel hk]
    have hdiv : 2 ^ (w - k) ≤ (a + (2 ^ k - 1)) / 2 ^ k :=
      (Nat.le_div_iff_mul_le (by positivity)).mpr (hdvd.trans_le hge)
    exact absurd h (not_lt.mpr (hdvd.symm.trans_le (Nat.mul_le_mul_right _ hdiv)))
  · exact (roundUp_le_add _ _).trans_lt

/-- The padded length is the length rounded up by its exponent. -/
theorem padme_eq {len : ℕ} (hlen : len < 2 ^ 64) :
    padme len = if roundByExponent lastBits len < 2 ^ 64 then some (roundByExponent lastBits len)
      else none := by
  by_cases htwo : len < 2
  · have hround : roundByExponent lastBits len = len := by
      rw [roundByExponent, Nat.log_of_lt htwo]
      exact roundUp_eq_self Nat.one_pos (one_dvd len)
    rw [hround, if_pos hlen, padme, if_pos htwo]
  · have he := log_lt hlen
    have hk : lastBits (Nat.log 2 len) ≤ 64 := (lastBits_le _).trans he.le
    simp only [padme, if_neg htwo, exponent_eq hlen htwo, bits_eq he]
    change (if len + (2 ^ lastBits (Nat.log 2 len) - 1) < 2 ^ 64 then _ else none) = _
    rw [roundByExponent]
    simp only [roundUp_lt_iff hk]
    split_ifs with hsum
    · rw [roundUp]
      exact congrArg some (and_complement_mask hk hsum)
    · rfl

/-! ### The overhead -/

theorem two_pow_lastBits_le {e : ℕ} (he : 4 ≤ e) : 8 * 2 ^ lastBits e ≤ 2 ^ e := by
  have hsize : 3 ≤ e.size := Nat.lt_size.mpr he
  have hle : e.size ≤ e := Nat.size_le.mpr (Nat.lt_two_pow_self)
  calc 8 * 2 ^ lastBits e = 2 ^ (3 + lastBits e) := by rw [pow_add]; norm_num
    _ ≤ 2 ^ e := Nat.pow_le_pow_right (by norm_num) (by rw [lastBits]; omega)

theorem two_pow_lastBits_le_of_large {e : ℕ} (he : 8 ≤ e) : 16 * 2 ^ lastBits e ≤ 2 ^ e := by
  have hsize : 4 ≤ e.size := Nat.lt_size.mpr he
  have hle : e.size ≤ e := Nat.size_le.mpr (Nat.lt_two_pow_self)
  calc 16 * 2 ^ lastBits e = 2 ^ (4 + lastBits e) := by rw [pow_add]; norm_num
    _ ≤ 2 ^ e := Nat.pow_le_pow_right (by norm_num) (by rw [lastBits]; omega)

/-- Rounding adds at most 12 percent. -/
theorem overhead_le (len : ℕ) : (roundByExponent lastBits len - len) * 100 ≤ len * 12 := by
  have hadd := roundUp_le_add (2 ^ lastBits (Nat.log 2 len)) len
  rcases Nat.lt_or_ge len 16 with hsmall | hlarge
  · -- Below 16 only the odd lengths from 9 on change.
    interval_cases len <;> decide
  · have hlog : 4 ≤ Nat.log 2 len := Nat.le_log_of_pow_le (by norm_num) hlarge
    have hpow : 2 ^ Nat.log 2 len ≤ len := Nat.pow_log_le_self 2 (by omega)
    rw [roundByExponent]
    rcases Nat.lt_or_ge (Nat.log 2 len) 8 with hmid | hbig
    · have heighth := two_pow_lastBits_le hlog
      have hle : 2 ^ Nat.log 2 len ≤ 2 ^ 7 := Nat.pow_le_pow_right (by norm_num) (by omega)
      omega
    · have hsixteenth := two_pow_lastBits_le_of_large hbig
      omega


/-- The padded length of a message is the least length not below it whose low bits, as many as the
exponent has above its own bit count, are zero, and overflows only where that length does. It adds
at most 12 percent, stays when padded again and keeps the order of lengths. -/
theorem padme_spec {len : ℕ} (hlen : len < 2 ^ 64) :
    ∃ rounded,
      IsLeast {v | len ≤ v ∧ 2 ^ (Nat.log 2 len - (Nat.log 2 (Nat.log 2 len) + 1)) ∣ v} rounded ∧
      (padme len = none ↔ 2 ^ 64 ≤ rounded) ∧
      (∀ padded, padme len = some padded → padded = rounded ∧ len ≤ padded ∧
        (padded - len) * 100 ≤ len * 12 ∧ padme padded = some padded) ∧
      ∀ len' padded', len ≤ len' → len' < 2 ^ 64 → padme len' = some padded' →
        ∃ padded, padme len = some padded ∧ padded ≤ padded' := by
  have hbits : Nat.log 2 len - (Nat.log 2 (Nat.log 2 len) + 1) = lastBits (Nat.log 2 len) := by
    rcases eq_or_ne (Nat.log 2 len) 0 with hzero | hne
    · rw [hzero, lastBits, Nat.zero_sub, Nat.zero_sub]
    · rw [lastBits, size_eq_log hne]
  have hsome : ∀ {a p}, a < 2 ^ 64 → padme a = some p →
      p = roundByExponent lastBits a ∧ roundByExponent lastBits a < 2 ^ 64 := by
    intro a p ha hp
    rw [padme_eq ha] at hp
    split_ifs at hp with hround
    exact ⟨(Option.some.inj hp).symm, hround⟩
  refine ⟨roundByExponent lastBits len, ?_, ?_, ?_, ?_⟩
  · rw [hbits]
    exact isLeast_roundUp (by positivity) len
  · rw [padme_eq hlen]
    split_ifs with hround
    · exact iff_of_false not_false (not_le.mpr hround)
    · exact iff_of_true rfl (not_lt.mp hround)
  · intro padded hpadded
    obtain ⟨rfl, hround⟩ := hsome hlen hpadded
    refine ⟨rfl, le_roundByExponent lastBits len, overhead_le len, ?_⟩
    rw [padme_eq hround, roundByExponent_idem lastBits_le, if_pos hround]
  · intro len' padded' hle hlen' hpadded'
    obtain ⟨rfl, hround'⟩ := hsome hlen' hpadded'
    have hmono := roundByExponent_mono lastBits_le hle
    exact ⟨_, by rw [padme_eq hlen, if_pos (hmono.trans_lt hround')], hmono⟩

theorem padme_spec_nine :
    ∃ rounded,
      IsLeast {v | 9 ≤ v ∧ 2 ^ (Nat.log 2 9 - (Nat.log 2 (Nat.log 2 9) + 1)) ∣ v} rounded ∧
      (padme 9 = none ↔ 2 ^ 64 ≤ rounded) ∧
      (∀ padded, padme 9 = some padded → padded = rounded ∧ 9 ≤ padded ∧
        (padded - 9) * 100 ≤ 9 * 12 ∧ padme padded = some padded) ∧
      ∀ len' padded', 9 ≤ len' → len' < 2 ^ 64 → padme len' = some padded' →
        ∃ padded, padme 9 = some padded ∧ padded ≤ padded' :=
  padme_spec (by norm_num)

example : padme 9 = some 10 ∧ padme 1000 = some 1024 ∧ padme (2 ^ 64 - 1) = none := by
  decide +kernel

/-! ### Frames -/

inductive EncodeError
  | tooLong
  | invalidField
  deriving DecidableEq

/-- Why a frame was refused: what the reader refuses, or a padding byte that is not zero. -/
inductive FrameError
  | parse (error : ParseError)
  | nonZeroPadding
  deriving DecidableEq

/-- The length of the frame of `dataLen` bytes, on a target whose lengths have `usizeBits` bits. -/
def paddedLen (usizeBits dataLen : ℕ) : Except EncodeError ℕ :=
  if 2 ^ 32 ≤ dataLen then .error .tooLong
  else
    match padme (dataLen + 4) with
    | none => .error .tooLong
    | some padded =>
      if 2 ^ usizeBits ≤ padded then .error .tooLong else .ok (max padded minPaddedLen)

/-- A buffer cut to a length or filled up with `b`. -/
def resize (out : Bytes) (len : ℕ) (b : Byte) : Bytes :=
  out.take len ++ List.replicate (len - out.length) b

/-- Appends the frame of `data`, of `total` bytes, to `out`. -/
def writeFrame (usizeBits : ℕ) (out data : Bytes) (total : ℕ) : Except EncodeError Bytes := do
  let padded ← paddedLen usizeBits data.length
  if padded ≠ total then throw .tooLong
  if 2 ^ 32 ≤ data.length then throw .tooLong
  let stop := out.length + total
  if 2 ^ usizeBits ≤ stop then throw .tooLong
  return resize (out ++ beBytes 4 data.length ++ data) stop 0

def frame (usizeBits : ℕ) (data : Bytes) : Except EncodeError Bytes := do
  let total ← paddedLen usizeBits data.length
  writeFrame usizeBits [] data total

/-- The parts of a frame: the declared length, as many bytes and the rest. -/
def frameParts (usizeBits : ℕ) : Reader (ℕ × Bytes × Bytes) := do
  let dataLen ← Reader.u32
  Parser.require (decide (dataLen < 2 ^ usizeBits)) .tooLong
  let data ← Reader.take dataLen
  let padding ← Reader.rest
  return (dataLen, data, padding)

/-- The data of a frame. -/
def unframe (usizeBits : ℕ) (frame : Bytes) : Except FrameError Bytes :=
  match (frameParts usizeBits ⟨frame, frame.length⟩).map Prod.fst with
  | .error e => .error (.parse e)
  | .ok (dataLen, data, padding) =>
    match paddedLen usizeBits dataLen with
    | .error _ => .error (.parse .tooLong)
    | .ok total =>
      if total ≠ frame.length then .error (.parse .invalidLength)
      else if padding.foldl (fun acc b => acc ||| b) 0 ≠ 0 then .error .nonZeroPadding
      else .ok data

/-- The bytes of the frame of `data` of `total` bytes. -/
def frameBytes (data : Bytes) (total : ℕ) : Bytes :=
  putBytes data ++ List.replicate (total - (4 + data.length)) 0

variable {usizeBits : ℕ}

theorem paddedLen_eq_ok {dataLen total : ℕ} (h : paddedLen usizeBits dataLen = .ok total) :
    dataLen < 2 ^ 32 ∧ 4 + dataLen ≤ total ∧ dataLen < 2 ^ usizeBits := by
  unfold paddedLen at h
  split_ifs at h with hlen
  rw [not_le] at hlen
  split at h
  · cases h
  · rename_i padded hpadded
    split_ifs at h with hfits
    rw [padme_eq (by omega)] at hpadded
    split_ifs at hpadded with hround
    have hle := le_roundByExponent lastBits (dataLen + 4)
    rw [Option.some.inj hpadded] at hle
    obtain rfl := Except.ok.inj h
    refine ⟨hlen, ?_, ?_⟩
    · exact le_max_of_le_left (by omega)
    · omega

theorem length_frameBytes {data : Bytes} {total : ℕ} (h : 4 + data.length ≤ total) :
    (frameBytes data total).length = total := by
  rw [frameBytes, putBytes, List.length_append, List.length_append, length_beBytes,
    List.length_replicate]
  omega

theorem resize_eq {out : Bytes} {len : ℕ} (b : Byte) (h : out.length ≤ len) :
    resize out len b = out ++ List.replicate (len - out.length) b := by
  rw [resize, List.take_of_length_le h]

theorem writeFrame_eq_ok {out data out' : Bytes} {total : ℕ} :
    writeFrame usizeBits out data total = .ok out' ↔
      paddedLen usizeBits data.length = .ok total ∧ out.length + total < 2 ^ usizeBits ∧
        out' = out ++ frameBytes data total := by
  have hresize : 4 + data.length ≤ total →
      resize (out ++ beBytes 4 data.length ++ data) (out.length + total) 0 =
        out ++ frameBytes data total := by
    intro htotal
    have hlen : (out ++ beBytes 4 data.length ++ data).length = out.length + (4 + data.length) := by
      rw [List.length_append, List.length_append, length_beBytes, Nat.add_assoc]
    rw [resize_eq 0 (by omega), hlen, Nat.add_sub_add_left, frameBytes, putBytes]
    simp only [List.append_assoc]
  constructor
  · intro h
    unfold writeFrame at h
    obtain ⟨padded, hpadded, h⟩ := except_bind_eq_ok.mp h
    obtain ⟨hne, h⟩ := ite_throw_eq_ok.mp h
    obtain ⟨-, h⟩ := ite_throw_eq_ok.mp h
    obtain ⟨hstop, h⟩ := ite_throw_eq_ok.mp h
    obtain rfl := not_not.mp hne
    obtain rfl := Except.ok.inj h
    exact ⟨hpadded, not_le.mp hstop, hresize (paddedLen_eq_ok hpadded).2.1⟩
  · rintro ⟨hpadded, hstop, rfl⟩
    obtain ⟨hlen, htotal, -⟩ := paddedLen_eq_ok hpadded
    rw [writeFrame, hpadded]
    refine except_bind_eq_ok.mpr ⟨total, rfl, ?_⟩
    refine ite_throw_eq_ok.mpr ⟨not_not.mpr rfl, ?_⟩
    refine ite_throw_eq_ok.mpr ⟨not_le.mpr hlen, ?_⟩
    exact ite_throw_eq_ok.mpr ⟨not_le.mpr hstop, congrArg Except.ok (hresize htotal)⟩

theorem frame_eq_ok {data out : Bytes} :
    frame usizeBits data = .ok out ↔ ∃ total, paddedLen usizeBits data.length = .ok total ∧
      total < 2 ^ usizeBits ∧ out = frameBytes data total := by
  unfold frame
  rw [except_bind_eq_ok]
  simp only [writeFrame_eq_ok, List.length_nil, Nat.zero_add, List.nil_append]
  refine exists_congr fun total => ?_
  exact ⟨fun h => ⟨h.1, h.2.2⟩, fun h => ⟨h.1, h.1, h.2⟩⟩

/-! ### What a reader accepts -/

theorem parses_rest : Parses {[]} Reader.rest fun bs x => x = bs := by
  intro input len x cur
  obtain ⟨rest, len'⟩ := cur
  constructor
  · intro h
    cases h
    exact ⟨input, rfl, (List.append_nil input).symm, rfl, rfl⟩
  · rintro ⟨bs, rfl, rfl, rfl, rfl⟩
    rw [List.append_nil]
    rfl

/-- The parts of a frame spell it. -/
theorem parses_frameParts : Parses {[]} (frameParts usizeBits) fun bs x =>
    x.1 = x.2.1.length ∧ x.1 < 2 ^ 32 ∧ x.1 < 2 ^ usizeBits ∧ bs = putBytes x.2.1 ++ x.2.2 := by
  apply Parses.congr
  · apply parses_bind (Reader.parses_number 4)
    intro n
    apply parses_require
    apply parses_bind (parses_take n _)
    intro data
    exact parses_map (fun padding => (n, data, padding)) parses_rest
  rintro bs ⟨n, data, padding⟩
  simp only [decide_eq_true_eq, putBytes]
  constructor
  · rintro ⟨_, _, m, ⟨hm, rfl⟩, ⟨hbits, _, _, d, ⟨rfl, rfl⟩, ⟨x, rfl, hx⟩, rfl⟩, rfl⟩
    cases hx
    exact ⟨rfl, hm, hbits, (List.append_assoc _ _ _).symm⟩
  · rintro ⟨rfl, hlen, hbits, rfl⟩
    exact ⟨_, data ++ padding, data.length, ⟨hlen, rfl⟩,
      ⟨hbits, data, padding, data, ⟨rfl, rfl⟩, ⟨padding, rfl, rfl⟩, rfl⟩, List.append_assoc _ _ _⟩

theorem or_eq_zero_iff {a b : Byte} : a ||| b = 0 ↔ a = 0 ∧ b = 0 := by
  have hlt : a.val ||| b.val < 256 := Nat.or_lt_two_pow (n := 8) a.isLt b.isLt
  have hval : (a ||| b).val = a.val ||| b.val := Nat.mod_eq_of_lt hlt
  rw [Fin.ext_iff, Fin.ext_iff, Fin.ext_iff, hval]
  exact Nat.or_eq_zero_iff

/-- All padding bytes together are zero where each one is. -/
theorem foldl_or_eq_zero (padding : Bytes) (acc : Byte) :
    padding.foldl (fun acc b => acc ||| b) acc = 0 ↔
      acc = 0 ∧ padding = List.replicate padding.length 0 := by
  induction padding generalizing acc with
  | nil => simp
  | cons b padding ih =>
    rw [List.foldl_cons, ih, or_eq_zero_iff, List.length_cons, List.replicate_succ, List.cons.injEq,
      and_assoc]

/-- What a reader accepts. -/
theorem unframe_eq_ok_iff {f data : Bytes} :
    unframe usizeBits f = .ok data ↔
      ∃ total, paddedLen usizeBits data.length = .ok total ∧ f = frameBytes data total := by
  have hparts := (parses_frameParts : Parses {[]} (frameParts usizeBits) _).run_eq_ok_iff f
  unfold unframe
  constructor
  · intro h
    split at h
    · cases h
    · rename_i dataLen d padding hread
      obtain ⟨hdata, hlen, hbits, hf⟩ := (hparts _).mp hread
      simp only at hdata hlen hbits hf
      subst hdata
      split at h
      · cases h
      · rename_i total hpadded
        split_ifs at h with htotal hzero
        obtain rfl := Except.ok.inj h
        refine ⟨total, hpadded, ?_⟩
        obtain ⟨-, hzeros⟩ := (foldl_or_eq_zero padding 0).mp (not_not.mp hzero)
        have hlength : total = 4 + d.length + padding.length := by
          rw [not_not.mp htotal, hf, putBytes, List.length_append, List.length_append,
            length_beBytes]
        rw [hf, frameBytes, hlength, Nat.add_sub_cancel_left]
        exact congrArg _ hzeros
  · rintro ⟨total, hpadded, rfl⟩
    obtain ⟨hlen, htotal, hbits⟩ := paddedLen_eq_ok hpadded
    have hread := (hparts (data.length, data, List.replicate (total - (4 + data.length)) 0)).mpr
      ⟨rfl, hlen, hbits, rfl⟩
    have hlength := length_frameBytes htotal
    have hzero := (foldl_or_eq_zero (List.replicate (total - (4 + data.length)) 0) 0).mpr
      ⟨rfl, by rw [List.length_replicate]⟩
    rw [hread]
    simp only [hpadded, hlength, ne_eq, not_true_eq_false, if_false, hzero]

/-- No length of 32 bits overflows when padded. -/
theorem exists_padme {dataLen : ℕ} (h : dataLen < 2 ^ 32) :
    ∃ padded, padme (dataLen + 4) = some padded := by
  have hlog : Nat.log 2 (dataLen + 4) ≤ 32 :=
    Nat.lt_succ_iff.mp (Nat.log_lt_of_lt_pow' (by norm_num) (by omega))
  have hround : roundByExponent lastBits (dataLen + 4) < 2 ^ 64 :=
    calc roundByExponent lastBits (dataLen + 4)
        ≤ 2 ^ (Nat.log 2 (dataLen + 4) + 1) := roundByExponent_le_pow lastBits_le _
      _ ≤ 2 ^ 33 := Nat.pow_le_pow_right (by norm_num) (by omega)
      _ < 2 ^ 64 := by norm_num
  exact ⟨_, by rw [padme_eq (by omega), if_pos hround]⟩

/-- The padded length of a frame fits the target's lengths. -/
theorem paddedLen_lt (hbits : usizeBits = 32 ∨ usizeBits = 64) {dataLen total : ℕ}
    (h : paddedLen usizeBits dataLen = .ok total) : total < 2 ^ usizeBits := by
  have hmin : minPaddedLen < 2 ^ usizeBits := by
    rcases hbits with rfl | rfl <;> decide
  unfold paddedLen at h
  split_ifs at h
  split at h
  · cases h
  · split_ifs at h with hfits
    obtain rfl := Except.ok.inj h
    exact max_lt (not_le.mp hfits) hmin

/-- A frame is read back, and a reader accepts only the frame of the data it returns, so each datum
has one frame, whatever the length it declares. A frame written behind other bytes is that frame. -/
theorem frame_canonical {usizeBits : ℕ} (hbits : usizeBits = 32 ∨ usizeBits = 64) :
    (∀ data f, frame usizeBits data = .ok f ↔ unframe usizeBits f = .ok data) ∧
    (∀ data f f', unframe usizeBits f = .ok data → unframe usizeBits f' = .ok data → f = f') ∧
    (∀ out data total out', writeFrame usizeBits out data total = .ok out' →
      ∃ f, out' = out ++ f ∧ f.length = total ∧ unframe usizeBits f = .ok data) ∧
    ∀ dataLen < 2 ^ 32, ∃ padded, padme (dataLen + 4) = some padded := by
  refine ⟨fun data f => ?_, fun data f f' h h' => ?_, fun out data total out' h => ?_,
    fun dataLen h => exists_padme h⟩
  · rw [frame_eq_ok, unframe_eq_ok_iff]
    exact exists_congr fun total =>
      ⟨fun h => ⟨h.1, h.2.2⟩, fun h => ⟨h.1, paddedLen_lt hbits h.1, h.2⟩⟩
  · obtain ⟨total, hpadded, rfl⟩ := unframe_eq_ok_iff.mp h
    obtain ⟨total', hpadded', rfl⟩ := unframe_eq_ok_iff.mp h'
    rw [Except.ok.inj (hpadded.symm.trans hpadded')]
  · obtain ⟨hpadded, -, rfl⟩ := writeFrame_eq_ok.mp h
    exact ⟨frameBytes data total, rfl, length_frameBytes (paddedLen_eq_ok hpadded).2.1,
      unframe_eq_ok_iff.mpr ⟨total, hpadded, rfl⟩⟩

theorem frame_canonical_five :
    frame 64 [104, 101, 108, 108, 111] = .ok ([0, 0, 0, 5, 104, 101, 108, 108, 111] ++
      List.replicate 247 0) :=
  ((frame_canonical (.inr rfl)).1 _ _).mpr (by decide +kernel)

end RizzyVault.Core
