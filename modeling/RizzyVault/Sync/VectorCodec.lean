import RizzyVault.Core.Reader
import RizzyVault.Sync.HeaderCodec

/-!
# The lattice of version vectors and their codec

Version vectors are ordered entry by entry, a missing entry counting as zero; `join` and `meet` are
the least upper and the greatest lower bound of this order. A reader is the bytes it has not read
yet: a call on it returns its result and the reader after it. A vector is read through a copy of the
reader, which replaces the reader only at the end.

## Main definitions

* `ReaderCall`, `Dot.read`, `VersionVector.read`, `VersionVector.parse`: reading.

## Main results

* `VersionVector.le_iff_get`: the order entry by entry.
* `VersionVector.read_eq_ok`: the reader accepts exactly the canonical encodings.
* `versionVector_laws`: the lattice and the codec.

## References

* `crates/rizzy-sync/src/vv.rs`, `crates/rizzy-sync/src/dot.rs`.
-/

open RizzyVault.Core RizzyVault.Lib

namespace RizzyVault.Sync

open Record (idBytes idOfBytes putDot putVv putCount)
open Std (ExtTreeMap)

namespace VersionVector

variable {a b : VersionVector}

/-! ### Entry by entry -/

theorem covers_mk_iff {device : DeviceId} {s : NonZeroU64} :
    a.covers ⟨device, s⟩ ↔ s.val ≤ a.get device := Iff.rfl

/-- The entry of a device is a sequence number of 64 bits. -/
theorem get_lt (a : VersionVector) (device : DeviceId) : a.get device < 2 ^ 64 := by
  unfold get
  cases a.entries[device]? with
  | none => norm_num
  | some s => exact s.lt

/-- The order is that of the entries. -/
theorem le_iff_get : a ≤ b ↔ ∀ device, a.get device ≤ b.get device := by
  constructor
  · intro h device
    rcases Nat.eq_zero_or_pos (a.get device) with hzero | hpos
    · rw [hzero]
      exact Nat.zero_le _
    · exact h ⟨device, a.get device, hpos, a.get_lt device⟩ le_rfl
  · exact fun h dot hdot => le_trans hdot (h dot.deviceId)

/-- A vector is determined by its entries. -/
theorem ext_get (h : ∀ device, a.get device = b.get device) : a = b :=
  le_antisymm (le_iff_get.mpr fun device => (h device).le)
    (le_iff_get.mpr fun device => (h device).ge)

theorem get_add (a : VersionVector) (dot : Dot) (device : DeviceId) :
    (a.add dot).get device =
      if dot.deviceId = device then max (a.get device) dot.seq else a.get device := by
  unfold get add
  simp only [ExtTreeMap.getElem?_alter_iff]
  split_ifs with hdevice
  · subst hdevice
    cases a.entries[dot.deviceId]? with
    | none => exact (Nat.max_eq_right (Nat.zero_le _)).symm
    | some s => exact NonZeroU64.val_max s dot.seqNonzero
  · rfl

theorem get_join (a b : VersionVector) (device : DeviceId) :
    (a.join b).get device = max (a.get device) (b.get device) := by
  have hleft : a ≤ a.join b := fun dot h => covers_join.mpr (.inl h)
  have hright : b ≤ a.join b := fun dot h => covers_join.mpr (.inr h)
  refine le_antisymm ?_ (max_le (le_iff_get.mp hleft device) (le_iff_get.mp hright device))
  rcases Nat.eq_zero_or_pos ((a.join b).get device) with hzero | hpos
  · rw [hzero]
    exact Nat.zero_le _
  · have hcovers : (a.join b).covers ⟨device, (a.join b).get device, hpos, get_lt _ device⟩ :=
      le_rfl
    exact le_max_iff.mpr (covers_join.mp hcovers)

theorem get_meet (a b : VersionVector) (device : DeviceId) :
    (a.meet b).get device = min (a.get device) (b.get device) := by
  unfold get meet
  simp only [ExtTreeMap.getElem?_filterMap']
  cases a.entries[device]? with
  | none => exact (Nat.zero_min _).symm
  | some s =>
    cases b.entries[device]? with
    | none => exact (Nat.min_zero _).symm
    | some t => exact NonZeroU64.val_min s t

/-- `compare` decides the order, with all four answers. -/
theorem compare_eq (a b : VersionVector) :
    (a.compare b = .equal ↔ a = b) ∧ (a.compare b = .less ↔ a < b) ∧
      (a.compare b = .greater ↔ b < a) ∧ (a.compare b = .concurrent ↔ ¬ a ≤ b ∧ ¬ b ≤ a) := by
  have hself : (a.dots.any fun dot => ¬ b.covers dot) = true ↔ ¬ a ≤ b := by
    simp [le_iff_forall_mem_dots]
  have hother : (b.dots.any fun dot => ¬ a.covers dot) = true ↔ ¬ b ≤ a := by
    simp [le_iff_forall_mem_dots]
  have heq : a = b ↔ a ≤ b ∧ b ≤ a := le_antisymm_iff
  rw [lt_iff_le_not_ge, lt_iff_le_not_ge, heq]
  unfold compare
  by_cases hab : a ≤ b
  · rw [Bool.eq_false_iff.mpr fun h => hself.mp h hab]
    by_cases hba : b ≤ a
    · rw [Bool.eq_false_iff.mpr fun h => hother.mp h hba]
      simp [hab, hba]
    · rw [hother.mpr hba]
      simp [hab, hba]
  · rw [hself.mpr hab]
    by_cases hba : b ≤ a
    · rw [Bool.eq_false_iff.mpr fun h => hother.mp h hba]
      simp [hab, hba]
    · rw [hother.mpr hba]
      simp [hab, hba]

end VersionVector

/-! ### Reading -/

/-- Why a canonical encoding was rejected. -/
inductive DecodeErrorKind
  | truncated
  | trailingBytes
  | zeroSeq
  | notAscending
  deriving DecidableEq

/-- The failure and the byte where the failing field starts, counted from the call's input. -/
structure DecodeError where
  kind : DecodeErrorKind
  offset : ℕ
  deriving DecidableEq

/-- The error of a read nested at `base`. -/
def DecodeError.shifted (e : DecodeError) (base : ℕ) : DecodeError := ⟨e.kind, e.offset + base⟩

/-- A call on a reader, the bytes it has not read yet: its result and the reader after it. -/
abbrev ReaderCall (ε α : Type) := Bytes → Except ε α × Bytes

/-- The next `n` bytes; a short reader is unchanged. -/
def readBytes (n : ℕ) : ReaderCall ParseError Bytes := fun reader =>
  if n ≤ reader.length then (.ok (reader.take n), reader.drop n) else (.error .truncated, reader)

def idLen : ℕ := 16

/-- Entries read so far. -/
abbrev Entries := ExtTreeMap DeviceId NonZeroU64

/-- Reads a dot through a copy of the reader. -/
def Dot.read : ReaderCall DecodeError Dot := fun reader =>
  match readBytes idLen reader with
  | (.error _, _) => (.error ⟨.truncated, 0⟩, reader)
  | (.ok device, probe) =>
    match readBytes 8 probe with
    | (.error _, _) => (.error ⟨.truncated, idLen⟩, reader)
    | (.ok seq, probe) =>
      match Dot.new (idOfBytes .device device) (ofBe seq) with
      | none => (.error ⟨.zeroSeq, idLen⟩, reader)
      | some dot => (.ok dot, probe)

namespace VersionVector

def entryLen : ℕ := 24

/-- The loop over the entries of a vector that starts with `start` bytes left, with the device read
last and the entries read so far. -/
def readEntries (start : ℕ) : ℕ → Option DeviceId → Entries → Bytes →
    Except DecodeError (Entries × Bytes)
  | 0, _, entries, probe => .ok (entries, probe)
  | n + 1, previous, entries, probe =>
    let offset := start - probe.length
    match Dot.read probe with
    | (.error e, _) => .error (e.shifted offset)
    | (.ok dot, probe) =>
      if previous.any fun p => dot.deviceId ≤ p then .error ⟨.notAscending, offset⟩
      else
        readEntries start n (some dot.deviceId) (entries.insert dot.deviceId dot.seqNonzero) probe

/-- Reads a vector through a copy of the reader. -/
def read : ReaderCall DecodeError VersionVector := fun reader =>
  match readBytes 2 reader with
  | (.error _, _) => (.error ⟨.truncated, 0⟩, reader)
  | (.ok count, probe) =>
    let n := ofBe count
    if probe.length < n * entryLen then (.error ⟨.truncated, 0⟩, reader)
    else
      match readEntries reader.length n none ∅ probe with
      | .error e => (.error e, reader)
      | .ok (entries, probe) => (.ok ⟨entries⟩, probe)

/-- Parses a vector that fills all of `bytes`. -/
def parse (bytes : Bytes) : Except DecodeError VersionVector :=
  match read bytes with
  | (.error e, _) => .error e
  | (.ok vv, reader) =>
    if reader.isEmpty then .ok vv else .error ⟨.trailingBytes, bytes.length - reader.length⟩

end VersionVector

theorem readBytes_eq_ok {n : ℕ} {reader rest bs : Bytes} :
    readBytes n reader = (.ok bs, rest) ↔ bs.length = n ∧ reader = bs ++ rest := by
  unfold readBytes
  split_ifs with hn
  · constructor
    · intro h
      cases h
      exact ⟨List.length_take_of_le hn, (List.take_append_drop n reader).symm⟩
    · rintro ⟨rfl, rfl⟩
      rw [List.take_left, List.drop_left]
  · refine iff_of_false (fun h => by cases h) ?_
    rintro ⟨rfl, rfl⟩
    exact hn (by rw [List.length_append]; exact Nat.le_add_right _ _)

theorem Dot.read_eq_ok {reader rest : Bytes} {d : Dot} :
    Dot.read reader = (.ok d, rest) ↔ reader = putDot d ++ rest := by
  constructor
  · intro h
    unfold Dot.read at h
    split at h
    · cases h
    rename_i device probe hdevice
    split at h
    · cases h
    rename_i seq probe' hseq
    split at h
    · cases h
    rename_i dot hdot
    cases h
    obtain ⟨hdlen, rfl⟩ := readBytes_eq_ok.mp hdevice
    obtain ⟨hslen, rfl⟩ := readBytes_eq_ok.mp hseq
    obtain ⟨hd, hs⟩ := Dot.new_eq_some.mp hdot
    rw [putDot, hd, hs, Record.idBytes_idOfBytes hdlen, ← hslen, beBytes_ofBe, List.append_assoc]
  · rintro rfl
    have hdevice : readBytes idLen (putDot d ++ rest) =
        (.ok (idBytes d.deviceId), beBytes 8 d.seq ++ rest) :=
      readBytes_eq_ok.mpr ⟨Record.length_idBytes d.deviceId, List.append_assoc _ _ _⟩
    have hseq : readBytes 8 (beBytes 8 d.seq ++ rest) = (.ok (beBytes 8 d.seq), rest) :=
      readBytes_eq_ok.mpr ⟨length_beBytes 8 d.seq, rfl⟩
    have hdot : Dot.new (idOfBytes .device (idBytes d.deviceId)) (ofBe (beBytes 8 d.seq)) =
        some d := by
      rw [Record.idOfBytes_idBytes, ofBe_beBytes (d.seq_lt.trans_le (by norm_num)), Dot.new_eq_some]
      exact ⟨rfl, rfl⟩
    simp only [Dot.read, hdevice, hseq, hdot]

namespace VersionVector

/-- The entries read are the dots the bytes spell, ascending by device. -/
theorem readEntries_eq_ok {start n : ℕ} {previous : Option DeviceId}
    {entries entries' : Entries} {probe rest : Bytes} :
    readEntries start n previous entries probe = .ok (entries', rest) ↔
      ∃ l : List Dot, l.length = n ∧ Ascends (· < ·) Dot.deviceId previous l ∧
        probe = l.flatMap putDot ++ rest ∧
          entries' = l.foldl (fun m d => m.insert d.deviceId d.seqNonzero) entries := by
  induction n generalizing previous entries probe with
  | zero =>
    constructor
    · intro h
      cases h
      exact ⟨[], rfl, ascends_nil, rfl, rfl⟩
    · rintro ⟨l, hl, -, rfl, rfl⟩
      obtain rfl := List.eq_nil_of_length_eq_zero hl
      rfl
  | succ n ih =>
    have hbound : ∀ d : Dot, (previous.any fun p => decide (d.deviceId ≤ p)) = true ↔
        ¬ ∀ p ∈ previous, p < d.deviceId := by
      intro d
      rw [Option.any_eq_true]
      push Not
      simp only [decide_eq_true_eq]
      exact Iff.rfl
    constructor
    · intro h
      simp only [readEntries] at h
      split at h
      · cases h
      · rename_i d probe' hread
        split_ifs at h with habove
        rw [hbound, not_not] at habove
        obtain ⟨l, rfl, hl, rfl, rfl⟩ := ih.mp h
        refine ⟨d :: l, rfl, ascends_cons.mpr ⟨habove, hl⟩, ?_, rfl⟩
        rw [Dot.read_eq_ok.mp hread, List.flatMap_cons, List.append_assoc]
    · rintro ⟨_ | ⟨d, l⟩, hlen, hl, rfl, rfl⟩
      · cases hlen
      · obtain ⟨habove, hl⟩ := ascends_cons.mp hl
        have hread : Dot.read ((d :: l).flatMap putDot ++ rest) =
            (.ok d, l.flatMap putDot ++ rest) := by
          rw [Dot.read_eq_ok, List.flatMap_cons, List.append_assoc]
        have habove' : ¬ (previous.any fun p => decide (d.deviceId ≤ p)) = true := by
          rw [hbound, not_not]
          exact habove
        simp only [readEntries, hread, habove']
        exact ih.mpr ⟨l, Nat.succ.inj hlen, hl, rfl, rfl⟩

/-- The reader accepts exactly the canonical encodings. -/
theorem read_eq_ok {reader rest : Bytes} {v : VersionVector} :
    read reader = (.ok v, rest) ↔ v.dots.length < 2 ^ 16 ∧ reader = putVv v ++ rest := by
  constructor
  · intro h
    unfold read at h
    split at h
    · cases h
    rename_i count probe hcount
    obtain ⟨hlen, rfl⟩ := readBytes_eq_ok.mp hcount
    simp only at h
    split_ifs at h with hshort
    · cases h
    split at h
    · cases h
    rename_i entries probe' hentries
    cases h
    obtain ⟨l, hl, hasc, rfl, rfl⟩ := readEntries_eq_ok.mp hentries
    have hlt : ofBe count < 2 ^ 16 := by
      have := ofBe_lt count
      rwa [hlen] at this
    have hcount' : beBytes 2 (ofBe count) = count := by
      rw [← hlen, beBytes_ofBe]
    rw [putVv, Record.dots_foldl_insert hasc, hl, Record.putCount_eq (by omega), hcount',
      List.append_assoc]
    exact ⟨hlt, rfl⟩
  · rintro ⟨hlt, rfl⟩
    have hcount : readBytes 2 (putVv v ++ rest) =
        (.ok (beBytes 2 v.dots.length), v.dots.flatMap putDot ++ rest) := by
      refine readBytes_eq_ok.mpr ⟨length_beBytes 2 _, ?_⟩
      rw [putVv, Record.putCount_eq (by omega), List.append_assoc]
    have hn : ofBe (beBytes 2 v.dots.length) = v.dots.length :=
      ofBe_beBytes (hlt.trans_le (by norm_num))
    have hroom : ¬ (v.dots.flatMap putDot ++ rest).length < v.dots.length * entryLen := by
      rw [List.length_append, Record.length_flatMap_eq _ fun d _ => Record.length_putDot d,
        entryLen]
      omega
    have hasc : Ascends (· < ·) Dot.deviceId none v.dots := by
      rw [ascends_none, dots, List.pairwise_map]
      exact v.entries.pairwise_fst_toList
    have hentries : readEntries (putVv v ++ rest).length v.dots.length none ∅
        (v.dots.flatMap putDot ++ rest) = .ok (v.entries, rest) :=
      readEntries_eq_ok.mpr ⟨v.dots, rfl, hasc, rfl,
        (congrArg VersionVector.entries (Record.foldl_insert_dots v)).symm⟩
    simp only [read, hcount, hn, hroom, if_false, hentries]

/-- A failed read leaves the reader as it was. -/
theorem read_eq_error {reader reader' : Bytes} {e : DecodeError}
    (h : read reader = (.error e, reader')) : reader' = reader := by
  unfold read at h
  split at h
  · exact (Prod.mk.inj h).2.symm
  · simp only at h
    split_ifs at h
    · exact (Prod.mk.inj h).2.symm
    · split at h
      · exact (Prod.mk.inj h).2.symm
      · cases h

theorem parse_eq_ok {bytes : Bytes} {v : VersionVector} :
    parse bytes = .ok v ↔ v.dots.length < 2 ^ 16 ∧ bytes = putVv v := by
  constructor
  · intro h
    unfold parse at h
    split at h
    · cases h
    · rename_i vv reader hread
      split_ifs at h with hempty
      cases h
      obtain rfl := List.isEmpty_iff.mp hempty
      rw [read_eq_ok, List.append_nil] at hread
      exact hread
  · rintro ⟨hlt, rfl⟩
    have hread : read (putVv v) = (.ok v, []) := read_eq_ok.mpr ⟨hlt, (List.append_nil _).symm⟩
    simp only [parse, hread, List.isEmpty_nil, if_true]

theorem encode_eq_ok {v : VersionVector} {bs : Bytes} :
    v.encode = .ok bs ↔ v.dots.length < 2 ^ 16 ∧ bs = putVv v := by
  unfold encode
  split_ifs with hmax
  · refine iff_of_false nofun fun h => ?_
    rw [maxEntries] at hmax
    omega
  · rw [maxEntries] at hmax
    rw [Except.ok.injEq, eq_comm]
    exact ⟨fun h => ⟨by omega, h⟩, fun h => h.2⟩

/-- The entries of an encoding ascend strictly by device, none of them zero. -/
theorem encoding_canonical {v : VersionVector} {bs : Bytes} (h : v.encode = .ok bs) :
    ∃ l : List Dot, bs = beBytes 2 l.length ++ l.flatMap putDot ∧
      (l.Pairwise fun x y => x.deviceId < y.deviceId) ∧ ∀ d ∈ l, d.seq ≠ 0 := by
  obtain ⟨hlt, rfl⟩ := encode_eq_ok.mp h
  refine ⟨v.dots, ?_, ?_, fun d _ => d.seq_pos.ne'⟩
  · rw [putVv, Record.putCount_eq (by omega)]
  · rw [dots, List.pairwise_map]
    exact v.entries.pairwise_fst_toList

end VersionVector

/-- Version vectors are a lattice in the order of their entries, which `compare` decides, and stored
entries are never zero. A vector is read back from its encoding, a reader accepts only such
encodings, and a failed read leaves the reader as it was. -/
theorem versionVector_laws :
    (∀ a b : VersionVector, (a ≤ b ↔ ∀ device, a.get device ≤ b.get device) ∧
      IsLUB {a, b} (a.join b) ∧ IsGLB {a, b} (a.meet b) ∧
      (∀ device, (a.join b).get device = max (a.get device) (b.get device)) ∧
      (∀ device, (a.meet b).get device = min (a.get device) (b.get device)) ∧
      (a.compare b = .equal ↔ a = b) ∧ (a.compare b = .less ↔ a < b) ∧
      (a.compare b = .greater ↔ b < a) ∧ (a.compare b = .concurrent ↔ ¬ a ≤ b ∧ ¬ b ≤ a) ∧
      (a ≤ b → ∀ dot, a.covers dot → b.covers dot)) ∧
    (∀ (a : VersionVector) (dot : Dot), (a.add dot).covers dot ∧
      (∀ device, a.get device ≤ (a.add dot).get device) ∧
      ∀ (device : DeviceId) (s : NonZeroU64), a.entries[device]? = some s → s.val ≠ 0) ∧
    (∀ (v : VersionVector) bs rest, v.encode = .ok bs →
      VersionVector.read (bs ++ rest) = (.ok v, rest) ∧ VersionVector.parse bs = .ok v) ∧
    (∀ (v : VersionVector) reader rest, VersionVector.read reader = (.ok v, rest) →
      ∃ bs, v.encode = .ok bs ∧ reader = bs ++ rest ∧
        ∃ l : List Dot, bs = beBytes 2 l.length ++ l.flatMap putDot ∧
          (l.Pairwise fun x y => x.deviceId < y.deviceId) ∧ ∀ d ∈ l, d.seq ≠ 0) ∧
    ∀ e reader reader', VersionVector.read reader = (.error e, reader') → reader' = reader := by
  refine ⟨fun a b => ?_, fun a dot => ?_, fun v bs rest h => ?_, fun v reader rest h => ?_,
    fun e reader reader' h => VersionVector.read_eq_error h⟩
  · obtain ⟨hequal, hless, hgreater, hconcurrent⟩ := VersionVector.compare_eq a b
    exact ⟨VersionVector.le_iff_get, isLUB_pair, isGLB_pair, VersionVector.get_join a b,
      VersionVector.get_meet a b, hequal, hless, hgreater, hconcurrent, fun h dot => h dot⟩
  · refine ⟨VersionVector.covers_add.mpr (.inr ⟨rfl, le_rfl⟩), fun device => ?_,
      fun device s _ => s.pos.ne'⟩
    rw [VersionVector.get_add]
    split_ifs
    · exact le_max_left _ _
    · exact le_rfl
  · obtain ⟨hlt, rfl⟩ := VersionVector.encode_eq_ok.mp h
    exact ⟨VersionVector.read_eq_ok.mpr ⟨hlt, rfl⟩, VersionVector.parse_eq_ok.mpr ⟨hlt, rfl⟩⟩
  · obtain ⟨hlt, rfl⟩ := VersionVector.read_eq_ok.mp h
    have hencode : v.encode = .ok (putVv v) := VersionVector.encode_eq_ok.mpr ⟨hlt, rfl⟩
    exact ⟨putVv v, hencode, rfl, VersionVector.encoding_canonical hencode⟩

theorem versionVector_laws_empty :
    VersionVector.read ([0, 0] ++ [7]) = (.ok VersionVector.new, [7]) ∧
      VersionVector.parse [0, 0] = .ok VersionVector.new :=
  versionVector_laws.2.2.1 VersionVector.new [0, 0] [7] (by decide)

end RizzyVault.Sync
