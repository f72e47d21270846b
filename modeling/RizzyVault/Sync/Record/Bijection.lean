import RizzyVault.Lib.Result
import RizzyVault.Sync.Record.Grammar

/-!
# The record codec is a bijection

The encoder accepts exactly the records that satisfy the rules and writes their layouts, and the
parser accepts exactly these layouts; so each undoes the other. The sizes of the first pass are the
lengths of what the second pass writes, under any limits.

## Main definitions

* `Sizes`: what a part of the first pass counts and checks.

## Main results

* `opLen_eq_ok_iff`, `snapshotLen_eq_ok_iff`: what the first pass accepts and the size it gives.
* `encodeOp_eq_ok_iff`, `encodeSnapshot_eq_ok_iff`: the encoder accepts exactly the rules.
* `encode_eq_ok_iff_parse_eq_ok`: the codec is a bijection.
* `parse_eq_ok_iff_rules`: the parser accepts exactly the grammar.
-/

open RizzyVault.Core RizzyVault.Lib

namespace RizzyVault.Sync.Record

/-! ### Sizes -/

/-- The step checks `ok` and counts `k` bytes, refusing sizes past 64 bits. -/
def Sizes (s : Sizer Unit) (k : ℕ) (ok : Prop) : Prop :=
  ∀ n r, n < 2 ^ 64 → (s n = .ok r ↔ ok ∧ n + k < 2 ^ 64 ∧ r = ((), n + k))

theorem sizes_add (k : ℕ) : Sizes (Sizer.add k) k True := by
  intro n r _
  unfold Sizer.add
  split_ifs with h
  · rw [Except.ok.injEq, true_and, and_iff_right h, eq_comm]
  · simp only [false_iff, not_and]
    exact fun _ h' => absurd h' h

theorem sizer_bind_eq_ok {α γ : Type} {p : Sizer α} {f : α → Sizer γ} {n : ℕ} {r : γ × ℕ} :
    (p >>= f) n = .ok r ↔ ∃ x m, p n = .ok (x, m) ∧ f x m = .ok r := by
  refine ⟨sizer_bind_ok, ?_⟩
  rintro ⟨x, m, hp, hf⟩
  simp only [bind, StateT.bind, hp, Except.bind, hf]

theorem sizes_bind {s t : Sizer Unit} {k l : ℕ} {ok ok' : Prop} (hs : Sizes s k ok)
    (ht : Sizes t l ok') : Sizes (do s; t) (k + l) (ok ∧ ok') := by
  intro n r hn
  rw [sizer_bind_eq_ok]
  constructor
  · rintro ⟨x, m, hx, hr⟩
    obtain ⟨hok, hk, hm⟩ := (hs n _ hn).mp hx
    cases hm
    obtain ⟨hok', hl, rfl⟩ := (ht _ _ hk).mp hr
    rw [← Nat.add_assoc]
    exact ⟨⟨hok, hok'⟩, hl, rfl⟩
  · rintro ⟨⟨hok, hok'⟩, hl, rfl⟩
    rw [← Nat.add_assoc] at hl ⊢
    have hk : n + k < 2 ^ 64 := by omega
    exact ⟨(), n + k, (hs n _ hn).mpr ⟨hok, hk, rfl⟩, (ht _ _ hk).mpr ⟨hok', hl, rfl⟩⟩

theorem sizes_forM {α : Type} {f : α → Sizer Unit} {put : α → Bytes} {ok : α → Prop}
    (hf : ∀ x, Sizes (f x) (put x).length (ok x)) (l : List α) :
    Sizes (l.forM f) (l.flatMap put).length (∀ x ∈ l, ok x) := by
  induction l with
  | nil =>
    intro n r hn
    show Except.ok ((), n) = Except.ok r ↔ _
    rw [Except.ok.injEq, List.flatMap_nil, List.length_nil, Nat.add_zero, and_iff_right hn,
      and_iff_right (by simp), eq_comm]
  | cons x l ih =>
    have h := sizes_bind (hf x) ih
    intro n r hn
    rw [List.flatMap_cons, List.length_append, List.forall_mem_cons]
    exact h n r hn

theorem sizes_check {s : Sizer Unit} {k : ℕ} {c : Prop} [Decidable c] {e : ℕ → RecordError}
    {ok : Prop} (hs : Sizes s k ok) :
    Sizes (fun len => if c then .error (e len) else s len) k (¬ c ∧ ok) := by
  intro n r hn
  split_ifs with h
  · simp [h]
  · simp [h, hs n r hn]

theorem sizes_count (n max : ℕ) : Sizes (Sizer.count n max) (putCount n).length (n ≤ max) := by
  have h := sizes_check (c := max < n) (e := fun len => ⟨.countTooLarge, len⟩) (sizes_add 2)
  rw [not_lt, and_true] at h
  rw [putCount, length_beBytes]
  exact h

theorem sizes_putBytes (x : Bytes) :
    Sizes (do Sizer.add 4; Sizer.add x.length) (putBytes x).length True := by
  have h := sizes_bind (sizes_add 4) (sizes_add x.length)
  rw [and_true] at h
  rw [putBytes, List.length_append, length_beBytes]
  exact h

theorem sizes_value (limits : Limits) (v : Bytes) :
    Sizes (Sizer.value limits v) (putBytes v).length (v.length ≤ limits.value) := by
  have h := sizes_check (c := limits.value < v.length) (e := fun len => ⟨.valueTooLong, len⟩)
    (sizes_putBytes v)
  rw [not_lt, and_true] at h
  exact h

theorem sizes_register (limits : Limits) (reg : Register) :
    Sizes (Sizer.register limits reg) (putRegister reg).length
      (reg.entries.length ≤ limits.values ∧ ∀ e ∈ reg.entries, e.value.length ≤ limits.value) := by
  have hentry : ∀ e : Entry, Sizes (do Sizer.add (dotLen + 8); Sizer.value limits e.value)
      (putEntry e).length (e.value.length ≤ limits.value) := by
    intro e
    have h := sizes_bind (sizes_add (dotLen + 8)) (sizes_value limits e.value)
    rw [true_and] at h
    rw [putEntry, List.length_append, List.length_append, length_putDot, length_putHlc,
      ← Nat.add_assoc]
    exact h
  have h := sizes_bind (sizes_putBytes reg.key.bytes)
    (sizes_bind (sizes_count reg.entries.length limits.values) (sizes_forM hentry reg.entries))
  rw [true_and] at h
  rw [putRegister, List.length_append, List.length_append]
  exact h

theorem sizes_registers (limits : Limits) (regs : List Register) :
    Sizes (Sizer.registers limits regs) (putRegisters regs).length
      (regs.length ≤ limits.groups ∧ ∀ reg ∈ regs, reg.entries.length ≤ limits.values ∧
        ∀ e ∈ reg.entries, e.value.length ≤ limits.value) := by
  have h := sizes_bind (sizes_count regs.length limits.groups)
    (sizes_forM (sizes_register limits) regs)
  rw [putRegisters, List.length_append]
  exact h

theorem length_putVv (v : VersionVector) : (putVv v).length = v.dots.length * dotLen + 2 := by
  rw [putVv, List.length_append, putCount, length_beBytes,
    length_flatMap_eq _ fun d _ => length_putDot d, dotLen, Nat.add_comm]

theorem sizes_vv (v : VersionVector) :
    Sizes (Sizer.vv v) (putVv v).length (v.dots.length ≤ Sizer.maxEntries) := by
  have h := sizes_check (c := Sizer.maxEntries < v.dots.length)
    (e := fun len => ⟨.countTooLarge, len⟩) (sizes_add (v.dots.length * dotLen + 2))
  rw [not_lt, and_true] at h
  rw [length_putVv]
  exact h

/-- A counted size checked against the limit of the data. -/
theorem size_checked_iff {s : Sizer Unit} {start k max n : ℕ} {ok : Prop}
    (h : ∀ r, start < 2 ^ 64 → (s start = .ok r ↔ ok ∧ start + k < 2 ^ 64 ∧ r = ((), start + k)))
    (hstart : start < 2 ^ 64) :
    (do
      let ((), len) ← s start
      if max < len then throw ⟨.dataTooLong, 0⟩ else return len : Except RecordError ℕ) = .ok n ↔
      ok ∧ n = start + k ∧ n ≤ max ∧ n < 2 ^ 64 := by
  cases hs : s start with
  | error e =>
    refine iff_of_false (fun h => by cases h) ?_
    rintro ⟨hok, rfl, -, hlt⟩
    have hok := (h ((), start + k) hstart).mpr ⟨hok, hlt, rfl⟩
    rw [hs] at hok
    cases hok
  | ok r =>
    obtain ⟨hok, hlt, rfl⟩ := (h r hstart).mp hs
    show (if max < start + k then throw _ else return start + k : Except RecordError ℕ) = .ok n ↔ _
    split_ifs with hmax
    · refine iff_of_false (fun h => by cases h) ?_
      rintro ⟨-, rfl, hle, -⟩
      exact absurd hmax (not_lt.mpr hle)
    · constructor
      · intro hn
        cases hn
        exact ⟨hok, rfl, not_lt.mp hmax, hlt⟩
      · rintro ⟨-, rfl, -, -⟩
        rfl

/-- The counts and lengths of an operation are within the limits. -/
def OpWithin (limits : Limits) (op : OpData) : Prop :=
  op.writes.length ≤ limits.writes ∧ ∀ w ∈ op.writes, w.value.length ≤ limits.value

/-- What the first pass accepts of operation data, and the size it gives. -/
theorem opLen_eq_ok_iff {op : OpData} {limits : Limits} {n : ℕ} :
    opLen op limits = .ok n ↔ OpWithin limits op ∧
      n = (putOp op).length ∧ n ≤ limits.opData ∧ n < 2 ^ 64 := by
  have hwrite : ∀ w : Write, Sizes (do Sizer.key w.key; Sizer.value limits w.value)
      (putWrite w).length (w.value.length ≤ limits.value) := by
    intro w
    have h := sizes_bind (sizes_putBytes w.key.bytes) (sizes_value limits w.value)
    rw [true_and] at h
    rw [putWrite, List.length_append]
    exact h
  have h := sizes_bind (sizes_count op.writes.length limits.writes) (sizes_forM hwrite op.writes)
  have hlen : (putOp op).length =
      2 + ((putCount op.writes.length).length + (op.writes.flatMap putWrite).length) := by
    rw [putOp, List.length_append, List.length_append, List.length_append, length_beBytes,
      length_beBytes]
    omega
  rw [hlen]
  exact size_checked_iff (h 2) (by norm_num)

/-- The counts and lengths of a list of registers are within the limits. -/
def RegistersWithin (limits : Limits) (regs : List Register) : Prop :=
  regs.length ≤ limits.groups ∧ ∀ reg ∈ regs, reg.entries.length ≤ limits.values ∧
    ∀ e ∈ reg.entries, e.value.length ≤ limits.value

/-- The counts and lengths of a snapshot are within the limits. -/
def SnapshotWithin (limits : Limits) : SnapshotData → Prop
  | .live l => RegistersWithin limits l.registers ∧ RegistersWithin limits l.history
  | .tombstone t => t.context.dots.length ≤ Sizer.maxEntries ∧ RegistersWithin limits t.late

/-- What the first pass accepts of snapshot data, and the size it gives. -/
theorem snapshotLen_eq_ok_iff {d : SnapshotData} {limits : Limits} {n : ℕ} :
    snapshotLen d limits = .ok n ↔ SnapshotWithin limits d ∧
      n = (putSnapshot d).length ∧ n ≤ limits.snapshotData ∧ n < 2 ^ 64 := by
  cases d with
  | live l =>
    have h := sizes_bind (sizes_registers limits l.registers) (sizes_registers limits l.history)
    have hlen : (putSnapshot (.live l)).length =
        1 + ((putRegisters l.registers).length + (putRegisters l.history).length) := by
      rw [putSnapshot, List.length_append, List.length_append, length_beBytes]
    rw [hlen]
    exact size_checked_iff (h 1) (by norm_num)
  | tombstone t =>
    have h := sizes_bind (sizes_add (dotLen + 8)) (sizes_bind (sizes_vv t.context)
      (sizes_bind (sizes_add 16) (sizes_registers limits t.late)))
    have hlen : (putSnapshot (.tombstone t)).length =
        1 + (dotLen + 8 + ((putVv t.context).length + (16 + (putRegisters t.late).length))) := by
      simp only [putSnapshot, List.length_append, length_beBytes, length_putDot, length_putHlc,
        length_idBytes, dotLen]
      omega
    rw [true_and, true_and] at h
    rw [hlen]
    exact size_checked_iff (h 1) (by norm_num)

/-! ### Operations parse back to themselves -/

theorem agrees_writes {limits : Limits} (ws : List Write)
    (h : ∀ w ∈ ws, w.value.length < 2 ^ 32) (previous : Option FieldKey) :
    Agrees (writes limits ws.length previous) (ws.flatMap putWrite) ws := by
  induction ws generalizing previous with
  | nil => exact agrees_pure []
  | cons w ws ih =>
    rw [List.flatMap_cons, putWrite, List.append_assoc]
    have hkey : w.key.bytes.length < 2 ^ 32 := (length_bytes_le w.key).trans_lt (by norm_num)
    refine agrees_bind (agrees_orderedKey hkey previous false) ?_
    refine agrees_bind (agrees_value (h w List.mem_cons_self)) ?_
    exact agrees_map (fun rest => (⟨w.key, w.value⟩ : Write) :: rest)
      (ih (fun w' hw => h w' (List.mem_cons_of_mem _ hw)) (some w.key))

theorem agrees_op (limits : Limits) {d : OpData} (hn : d.writes.length ≤ 65535)
    (hv : ∀ w ∈ d.writes, w.value.length < 2 ^ 32) :
    Agrees (do
      let kind ← u8
      Parser.require (kind = kindOp) ⟨.wrongKind, 0⟩
      op limits : RecordParser OpData) (putOp d) d := by
  have hmarker : d.lifecycle.toU8.val < 256 := d.lifecycle.toU8.isLt
  refine agrees_bind (agrees_number (by decide)) ?_
  refine agrees_bind_nil (agrees_require _ _) ?_
  refine agrees_bind_any offset_keeps fun at_ => ?_
  refine agrees_bind (agrees_number (by simp)) ?_
  refine agrees_bind_nil (agrees_ofOption _ _ ((fromU8_eq_some hmarker).mpr rfl)) ?_
  refine agrees_bind_any offset_keeps fun at' => ?_
  refine agrees_bind (agrees_count hn) ?_
  refine agrees_bind_nil (agrees_require _ _) ?_
  refine agrees_bind_last (agrees_writes d.writes hv none) ?_
  exact agrees_bind_nil agrees_finish (agrees_pure d)

/-- If the parser accepts what was written for an operation, it returns the operation. -/
theorem opWith_putOp {limits : Limits} {d d' : OpData} (hn : d.writes.length ≤ 65535)
    (hv : ∀ w ∈ d.writes, w.value.length < 2 ^ 32)
    (h : opWith (putOp d) limits = .ok d') : d' = d := by
  have hagrees := agrees_op limits hn hv [] (putOp d).length
  rw [List.append_nil] at hagrees
  unfold opWith at h
  split_ifs at h
  revert h
  dsimp only
  generalize (do
      let kind ← u8
      Parser.require (kind = kindOp) ⟨.wrongKind, 0⟩
      op limits : RecordParser OpData) ⟨putOp d, (putOp d).length⟩ = out at hagrees ⊢
  intro h
  cases out with
  | error e => cases h
  | ok r =>
    cases h
    exact congrArg Prod.fst (hagrees r rfl)

/-! ### The bijection -/

theorem RegistersRules.within {limits : Limits} {covered : VersionVector}
    {context : Option VersionVector} {regs : List Register}
    (h : RegistersRules limits covered context regs) : RegistersWithin limits regs :=
  ⟨h.count, fun reg hreg => ⟨(h.registers reg hreg).count,
    fun e he => ((h.registers reg hreg).entries e he).value⟩⟩

/-- The encoder accepts exactly the operations that satisfy the rules, and writes their layouts. -/
theorem encodeOp_eq_ok_iff {d : OpData} {data : Bytes} :
    encodeOp d = .ok data ↔ OpRules Limits.v1 d ∧ data = putOp d := by
  unfold encodeOp
  simp only [except_bind_eq_ok, opLen_eq_ok_iff]
  constructor
  · rintro ⟨n, ⟨⟨hn, hv⟩, -⟩, d', hd', hdata⟩
    cases hdata
    have hn' : d.writes.length ≤ 65535 := hn.trans (by decide)
    have hv' : ∀ w ∈ d.writes, w.value.length < 2 ^ 32 :=
      fun w hw => (hv w hw).trans_lt (by decide)
    cases opWith_putOp hn' hv' hd'
    exact ⟨((opWith_eq_ok_iff fit_v1 (by decide) _ _).mp hd').1, rfl⟩
  · rintro ⟨hd, rfl⟩
    refine ⟨_, ⟨⟨hd.count, hd.values⟩, rfl, hd.length, hd.length.trans_lt (by decide)⟩, d, ?_, rfl⟩
    exact (opWith_eq_ok_iff fit_v1 (by decide) _ _).mpr ⟨hd, rfl⟩

/-- The encoder accepts exactly the snapshots that satisfy the rules, and writes their layouts. -/
theorem encodeSnapshot_eq_ok_iff {covered : VersionVector} {d : SnapshotData} {data : Bytes} :
    encodeSnapshot covered d = .ok data ↔
      SnapshotRules Limits.v1 covered d ∧ data = putSnapshot d := by
  constructor
  · intro h
    have hparse := parseSnapshot_of_encodeSnapshot h
    exact (snapshotWith_eq_ok_iff fit_v1 covered _ _).mp hparse
  · rintro ⟨hd, rfl⟩
    have hwithin : SnapshotWithin Limits.v1 d := by
      cases d with
      | live l =>
        have hl := hd.live l rfl
        exact ⟨hl.registers.within, hl.history.within⟩
      | tombstone t =>
        have ht := hd.tombstone t rfl
        exact ⟨Nat.le_of_lt_succ ht.contextCount, ht.late.within⟩
    unfold encodeSnapshot
    simp only [except_bind_eq_ok, snapshotLen_eq_ok_iff]
    refine ⟨_, ⟨hwithin, rfl, hd.length, hd.length.trans_lt (by decide)⟩, d, ?_, rfl⟩
    exact (snapshotWith_eq_ok_iff fit_v1 covered _ _).mpr ⟨hd, rfl⟩

/-- What the encoder accepts the parser reads back, what the parser accepts the encoder writes
again byte by byte, and the size of the first pass, given exactly when every count and length is
within the limits, is the number of bytes written. -/
theorem encode_eq_ok_iff_parse_eq_ok :
    (∀ (d : OpData) (data : Bytes), encodeOp d = .ok data ↔ parseOp data = .ok d) ∧
      (∀ (covered : VersionVector) (d : SnapshotData) (data : Bytes),
        encodeSnapshot covered d = .ok data ↔ parseSnapshot covered data = .ok d) ∧
      (∀ (limits : Limits) (d : OpData) (n : ℕ), opLen d limits = .ok n ↔
        OpWithin limits d ∧ n = (putOp d).length ∧ n ≤ limits.opData ∧ n < 2 ^ 64) ∧
      ∀ (limits : Limits) (d : SnapshotData) (n : ℕ), snapshotLen d limits = .ok n ↔
        SnapshotWithin limits d ∧ n = (putSnapshot d).length ∧ n ≤ limits.snapshotData ∧
          n < 2 ^ 64 := by
  refine ⟨fun d data => ?_, fun covered d data => ?_, fun limits d n => opLen_eq_ok_iff,
    fun limits d n => snapshotLen_eq_ok_iff⟩
  · rw [encodeOp_eq_ok_iff, parseOp, opWith_eq_ok_iff fit_v1 (by decide)]
  · rw [encodeSnapshot_eq_ok_iff, parseSnapshot, snapshotWith_eq_ok_iff fit_v1]

/-- The parser accepts exactly the layouts of the records that satisfy every rule. -/
theorem parse_eq_ok_iff_rules :
    (∀ (data : Bytes) (d : OpData),
        parseOp data = .ok d ↔ OpRules Limits.v1 d ∧ data = putOp d) ∧
      ∀ (covered : VersionVector) (data : Bytes) (d : SnapshotData),
        parseSnapshot covered data = .ok d ↔
          SnapshotRules Limits.v1 covered d ∧ data = putSnapshot d :=
  ⟨opWith_eq_ok_iff fit_v1 (by decide), snapshotWith_eq_ok_iff fit_v1⟩

end RizzyVault.Sync.Record
