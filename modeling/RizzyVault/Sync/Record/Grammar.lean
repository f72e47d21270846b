import RizzyVault.Lib.Grammar
import RizzyVault.Sync.Record.RoundTrip

/-!
# The grammar of records

The rules a record satisfies, stated on the record and not on its bytes, and the theorem that the
parser accepts exactly the layouts of the records that satisfy them. Every production is exact on
its own, so a count that does not fit the remaining input is refused only where the elements it
announces do not fit either.

## Main definitions

* `EntryRules`, `RegisterRules`, `RegistersRules`: the rules of registers.
* `OpRules`, `LiveRules`, `TombstoneRules`, `SnapshotRules`: the rules of records.

## Main results

* `opWith_eq_ok_iff`, `snapshotWith_eq_ok_iff`: the parser accepts exactly the layouts of records
  that satisfy the rules.

## References

* `crates/rizzy-sync/src/record.rs`, `crates/rizzy-sync/src/record/parse.rs`.
-/

open RizzyVault.Core RizzyVault.Lib

namespace RizzyVault.Sync.Record

/-! ### The rules -/

/-- The rules of one value under `key`: its dot is covered, a tombstone's context does not cover
it, its length is within the limit, and a lifecycle value is a lifecycle marker. -/
structure EntryRules (limits : Limits) (covered : VersionVector) (context : Option VersionVector)
    (key : FieldKey) (e : Entry) : Prop where
  covered : covered.covers e.dot
  late : ∀ c ∈ context, ¬ c.covers e.dot
  value : e.value.length ≤ limits.value
  lifecycle : key.bytes = lifecycleKey → e.value = [1] ∨ e.value = [2]

/-- The rules of one register: between one value and the limit, strictly ascending by dot. -/
structure RegisterRules (limits : Limits) (covered : VersionVector)
    (context : Option VersionVector) (reg : Register) : Prop where
  nonempty : reg.entries ≠ []
  count : reg.entries.length ≤ limits.values
  ascending : reg.entries.Pairwise fun a b => a.dot < b.dot
  entries : ∀ e ∈ reg.entries, EntryRules limits covered context reg.key e

/-- The rules of a list of registers: strictly ascending by key, within the limit. -/
structure RegistersRules (limits : Limits) (covered : VersionVector)
    (context : Option VersionVector) (regs : List Register) : Prop where
  count : regs.length ≤ limits.groups
  ascending : regs.Pairwise fun a b => a.key.bytes < b.key.bytes
  registers : ∀ reg ∈ regs, RegisterRules limits covered context reg

/-- The rules of operation data. -/
structure OpRules (limits : Limits) (op : OpData) : Prop where
  wellFormed : op.WellFormed
  count : op.writes.length ≤ limits.writes
  values : ∀ w ∈ op.writes, w.value.length ≤ limits.value
  length : (putOp op).length ≤ limits.opData

/-- The rules of live snapshot data: the first register is the lifecycle register, and a history
group is of a current register's key and shares no dot with it. -/
structure LiveRules (limits : Limits) (covered : VersionVector) (l : LiveSnapshot) : Prop where
  registers : RegistersRules limits covered none l.registers
  lifecycle : ∃ reg ∈ l.registers.head?, reg.key.bytes = lifecycleKey
  history : RegistersRules limits covered none l.history
  owned : ∀ h ∈ l.history, ∃ reg ∈ l.registers, reg.key = h.key
  distinct : ∀ h ∈ l.history, ∀ reg ∈ l.registers, reg.key = h.key →
    ∀ e ∈ reg.entries, ∀ f ∈ h.entries, e.dot ≠ f.dot

/-- The rules of tombstone data: the purge and its context are covered, and the late registers
hold neither the lifecycle key nor a value the context covers. -/
structure TombstoneRules (limits : Limits) (covered : VersionVector) (t : Tombstone) : Prop where
  purge : covered.covers t.purgeDot
  context : ∀ d ∈ t.context.dots, covered.covers d
  contextCount : t.context.dots.length < 2 ^ 16
  late : RegistersRules limits covered (some t.context) t.late
  lifecycle : ∀ reg ∈ t.late, reg.key.bytes ≠ lifecycleKey

/-- The rules of snapshot data. -/
structure SnapshotRules (limits : Limits) (covered : VersionVector) (d : SnapshotData) : Prop where
  live : ∀ l, d = .live l → LiveRules limits covered l
  tombstone : ∀ t, d = .tombstone t → TombstoneRules limits covered t
  length : (putSnapshot d).length ≤ limits.snapshotData

/-! ### Scalars -/

theorem parses_takeAt (n shift : ℕ) :
    Parses Set.univ (takeAt n shift) fun bs x => bs.length = n ∧ x = bs :=
  parses_offset fun _ => parses_take n _

theorem parses_number (w : ℕ) :
    Parses Set.univ (number w) fun bs n => n < 256 ^ w ∧ bs = beBytes w n := by
  refine (parses_map ofBe (parses_takeAt w 0)).congr fun bs n => ?_
  constructor
  · rintro ⟨x, ⟨rfl, rfl⟩, rfl⟩
    exact ⟨ofBe_lt x, (beBytes_ofBe x).symm⟩
  · rintro ⟨hn, rfl⟩
    exact ⟨_, ⟨length_beBytes w n, rfl⟩, (ofBe_beBytes hn).symm⟩

theorem idBytes_idOfBytes {κ : IdKind} {bs : Bytes} (h : bs.length = 16) :
    idBytes (idOfBytes κ bs) = bs := by
  have hlt : ofBe bs < 2 ^ 128 := by
    have := ofBe_lt bs
    rw [h] at this
    exact this.trans_le (by norm_num)
  rw [idBytes, idOfBytes, Fin.val_ofNat, Nat.mod_eq_of_lt hlt, ← h, beBytes_ofBe]

theorem parses_dot : Parses Set.univ dot fun bs d => bs = putDot d := by
  have hdot : Parses Set.univ dot fun bs d => ∃ b₁ b₂ device, (b₁.length = 16 ∧ device = b₁) ∧
      (∃ b₃ b₄ seq, (b₃.length = 8 ∧ seq = b₃) ∧ (∃ d',
        Dot.new (idOfBytes .device device) (ofBe seq) = some d' ∧ b₄ = [] ∧ d = d') ∧
          b₂ = b₃ ++ b₄) ∧ bs = b₁ ++ b₂ := by
    refine parses_offset fun at_ => parses_bind (parses_takeAt 16 0) fun device => ?_
    refine parses_bind (parses_take 8 _) fun seq => ?_
    have hpure := parses_ofOption (β := Byte) (ε := RecordError) (e := ⟨.zeroSeq, at_ + 16⟩)
      (o := Dot.new (idOfBytes .device device) (ofBe seq)) fun d => parses_pure d
    rwa [bind_pure] at hpure
  refine hdot.congr fun bs d => ?_
  constructor
  · rintro ⟨b₁, b₂, _, ⟨hb₁, rfl⟩, ⟨b₃, _, _, ⟨hb₃, rfl⟩, ⟨d, hd, rfl, rfl⟩, rfl⟩, rfl⟩
    obtain ⟨hdev, hseq⟩ := Dot.new_eq_some.mp hd
    rw [putDot, hdev, hseq, idBytes_idOfBytes hb₁, ← hb₃, beBytes_ofBe, List.append_nil]
  · rintro rfl
    refine ⟨_, _, _, ⟨length_idBytes d.deviceId, rfl⟩,
      ⟨_, [], _, ⟨length_beBytes 8 d.seq, rfl⟩, ⟨d, ?_, rfl, rfl⟩, rfl⟩, ?_⟩
    · rw [idOfBytes_idBytes, ofBe_beBytes (d.seq_lt.trans_le (by norm_num)), Dot.new_eq_some]
      exact ⟨rfl, rfl⟩
    · rw [List.append_nil, putDot]

theorem length_putDot (d : Dot) : (putDot d).length = 24 := by
  rw [putDot, List.length_append, length_idBytes, length_beBytes]

theorem length_putHlc (t : Hlc) : (putHlc t).length = 8 := length_beBytes _ _

theorem parses_hlc : Parses Set.univ hlc fun bs t => bs = putHlc t := by
  refine (parses_map (fun n => (⟨Fin.ofNat _ n⟩ : Hlc)) (parses_number 8)).congr fun bs t => ?_
  constructor
  · rintro ⟨n, ⟨hn, rfl⟩, rfl⟩
    rw [putHlc, Fin.val_ofNat, Nat.mod_eq_of_lt (hn.trans_le (by norm_num))]
  · rintro rfl
    refine ⟨t.raw.val, ⟨t.raw.isLt.trans_le (by norm_num), rfl⟩, ?_⟩
    simp

theorem parses_vvEntries (n : ℕ) (previous : Option DeviceId) :
    Parses Set.univ (vvEntries n previous) fun bs l =>
      l.length = n ∧ Ascends (· < ·) Dot.deviceId previous l ∧ bs = l.flatMap putDot := by
  have hstep : ∀ previous : Option DeviceId, Parses Set.univ (do
      let at_ ← Parser.offset
      let d ← dot
      Parser.require (previous.all fun p => p < d.deviceId) ⟨.notAscending, at_⟩
      return d : RecordParser Dot) fun bs d =>
        (∀ p ∈ previous, p < d.deviceId) ∧ True ∧ (previous = none → True) ∧ bs = putDot d := by
    intro previous
    apply Parses.congr
    · apply parses_offset
      intro at_
      apply parses_bind parses_dot
      intro d
      exact parses_require (parses_pure d)
    intro bs d
    simp only [option_all_iff]
    constructor
    · rintro ⟨_, _, _, rfl, ⟨h, rfl, rfl⟩, rfl⟩
      exact ⟨h, trivial, fun _ => trivial, List.append_nil _⟩
    · rintro ⟨h, -, -, rfl⟩
      exact ⟨_, _, d, rfl, ⟨h, rfl, rfl⟩, (List.append_nil _).symm⟩
  refine (parses_loop (· < ·) Dot.deviceId vvEntries _ (fun _ => rfl) (fun n previous => ?_) hstep n
    previous).congr fun bs l => ?_
  · simp only [vvEntries, bind_assoc, pure_bind]
  · simp

theorem length_flatMap_eq {α : Type} {f : α → Bytes} {k : ℕ} (l : List α)
    (h : ∀ x ∈ l, (f x).length = k) : (l.flatMap f).length = l.length * k := by
  rw [List.length_flatMap, List.map_congr_left h, List.map_const', List.sum_replicate, smul_eq_mul]

theorem length_flatMap_ge {α : Type} {f : α → Bytes} {k : ℕ} (l : List α)
    (h : ∀ x ∈ l, k ≤ (f x).length) : l.length * k ≤ (l.flatMap f).length := by
  induction l with
  | nil => simp
  | cons a l ih =>
    have ha := h a List.mem_cons_self
    have hl := ih fun x hx => h x (List.mem_cons_of_mem _ hx)
    rw [List.flatMap_cons, List.length_append, List.length_cons]
    linarith

/-- Inserting ascending entries in turn gives the vector with these entries. -/
theorem dots_foldl_insert {l : List Dot} (h : Ascends (· < ·) Dot.deviceId none l) :
    VersionVector.dots ⟨l.foldl (fun m d => m.insert d.deviceId d.seqNonzero) ∅⟩ = l := by
  rw [ascends_none] at h
  have hdots : ∀ v : VersionVector, v.dots.Pairwise fun a b => a.deviceId < b.deviceId := by
    intro v
    rw [VersionVector.dots, List.pairwise_map]
    exact v.entries.pairwise_fst_toList
  have hasymm : Std.Asymm fun a b : Dot => a.deviceId < b.deviceId := ⟨fun a b h => h.asymm⟩
  exact List.Pairwise.eq_of_mem_iff (hdots _) h
    (mem_dots_foldl_insert (h.imp fun h => h.ne))

theorem parses_vv :
    Parses Set.univ vv fun bs v => v.dots.length < 2 ^ 16 ∧ bs = putVv v := by
  apply Parses.congr
  · apply parses_offset
    intro at_
    apply parses_bind (parses_number 2)
    intro n
    apply parses_remaining
    · exact parses_map (fun entries : List Dot => (⟨entries.foldl
        (fun m d => m.insert d.deviceId d.seqNonzero) ∅⟩ : VersionVector)) (parses_vvEntries n none)
    · rintro bs v ⟨l, ⟨rfl, -, rfl⟩, -⟩
      rw [length_flatMap_eq l fun d _ => length_putDot d]
      exact le_rfl
  intro bs v
  constructor
  · rintro ⟨_, _, _, ⟨hn, rfl⟩, ⟨l, ⟨rfl, hl, rfl⟩, rfl⟩, rfl⟩
    rw [putVv, dots_foldl_insert hl, putCount_eq (by omega)]
    exact ⟨hn, rfl⟩
  · rintro ⟨hn, rfl⟩
    have hasc : Ascends (· < ·) Dot.deviceId none v.dots := by
      rw [ascends_none, VersionVector.dots, List.pairwise_map]
      exact v.entries.pairwise_fst_toList
    refine ⟨_, _, v.dots.length, ⟨hn, rfl⟩, ⟨v.dots, ⟨rfl, hasc, rfl⟩, ?_⟩, ?_⟩
    · exact (foldl_insert_dots v).symm
    · rw [putVv, putCount_eq (by omega)]

/-- Nothing may follow the last element. -/
theorem parses_finish {α : Type} (x : α) :
    Parses {[]} (finish >>= fun _ => pure x : RecordParser α) fun bs y => bs = [] ∧ y = x := by
  intro input len y cur
  constructor
  · intro h
    obtain ⟨u, cur', hf, hx⟩ := parser_bind_ok.mp h
    obtain ⟨at_, cur₁, hat, hf⟩ := parser_bind_ok.mp hf
    obtain ⟨n, cur₂, hn, hf⟩ := parser_bind_ok.mp hf
    cases hat
    cases hn
    unfold Parser.require at hf
    split_ifs at hf with hempty
    cases hf
    cases hx
    have hnil : input = [] := List.length_eq_zero_iff.mp (of_decide_eq_true hempty)
    exact ⟨[], ⟨rfl, rfl⟩, rfl, rfl, hnil⟩
  · rintro ⟨bs, ⟨rfl, rfl⟩, rfl, rfl, hnil⟩
    obtain ⟨rest, len⟩ := cur
    cases hnil
    rfl

/-! ### Productions -/

/-- A count and what it announces: the early check refuses nothing. -/
theorem parses_count {α : Type} {tail : Set Bytes} {max minLen : ℕ} {f : ℕ → RecordParser α}
    {S : ℕ → Bytes → α → Prop} (hmax : max < 2 ^ 16) (hf : ∀ n, Parses tail (f n) (S n))
    (hmin : ∀ n bs x, S n bs x → n * minLen ≤ bs.length) :
    Parses tail (count max minLen >>= f) fun bs x =>
      ∃ n b₂, n ≤ max ∧ S n b₂ x ∧ bs = putCount n ++ b₂ := by
  have hcount : count max minLen >>= f = Parser.offset >>= fun at_ => number 2 >>= fun n =>
      Parser.require (n ≤ max) ⟨.countTooLarge, at_⟩ >>= fun _ => Parser.remaining >>= fun r =>
        Parser.require (n * minLen ≤ r) ⟨.truncated, at_⟩ >>= fun _ => f n := by
    simp only [count, u16, bind_assoc, pure_bind]
  rw [hcount]
  apply Parses.congr
  · apply parses_offset
    intro at_
    apply parses_bind (parses_number 2)
    intro n
    exact parses_require (parses_remaining (hf n) (hmin n))
  intro bs x
  constructor
  · rintro ⟨_, b₂, n, ⟨hn, rfl⟩, ⟨hmaxn, hS⟩, rfl⟩
    exact ⟨n, b₂, of_decide_eq_true hmaxn, hS, by rw [putCount_eq (by omega)]⟩
  · rintro ⟨n, b₂, hn, hS, rfl⟩
    refine ⟨_, b₂, n, ⟨?_, rfl⟩, ⟨decide_eq_true hn, hS⟩, by rw [putCount_eq (by omega)]⟩
    exact (hn.trans_lt hmax).trans_le (by norm_num)

theorem keyOfBytes_eq_ok {bytes : Bytes} {k : FieldKey} :
    keyOfBytes bytes = .ok k ↔ bytes = k.bytes := by
  constructor
  · intro h
    unfold keyOfBytes at h
    split_ifs at h with hl
    · cases h
      exact hl
    · unfold FieldKey.new at h
      split at h
      · rename_i key hkey
        cases h
        split at hkey
        · cases hkey
          rfl
        · cases hkey
      · cases h
  · rintro rfl
    exact keyOfBytes_bytes k

theorem length_bytes_pos (k : FieldKey) : 0 < k.bytes.length := by
  obtain ⟨bytes, hvalid⟩ := k
  rcases hvalid with h | h
  · subst h
    decide
  · by_contra hlen
    have hnil : bytes = [] := List.length_eq_zero_iff.mp (Nat.eq_zero_of_not_pos hlen)
    simp [hnil, grammarKey, parseKey] at h

theorem parses_key : Parses Set.univ key fun bs k => bs = putBytes k.bytes := by
  apply Parses.congr
  · apply parses_offset
    intro at_
    apply parses_bind (parses_number 4)
    intro len
    apply parses_require
    apply parses_bind (parses_take len _)
    intro bytes
    show Parses Set.univ _ fun bs k => keyOfBytes bytes = .ok k ∧ bs = []
    cases hk : keyOfBytes bytes with
    | ok k =>
      refine (parses_pure k).congr fun bs k' => ?_
      simp only [Except.ok.injEq, and_comm, eq_comm]
    | error kind =>
      refine (parses_throw _).congr fun bs k' => ?_
      simp
  intro bs k
  constructor
  · rintro ⟨_, _, len, ⟨hlen, rfl⟩, ⟨-, b₁, _, bytes, ⟨rfl, rfl⟩, ⟨hk, rfl⟩, rfl⟩, rfl⟩
    rw [keyOfBytes_eq_ok] at hk
    subst hk
    rw [List.append_nil, length_putBytes_head (hlen.trans_le (by norm_num))]
  · rintro rfl
    have hlt : k.bytes.length < 2 ^ 32 := (length_bytes_le k).trans_lt (by norm_num)
    refine ⟨_, k.bytes, k.bytes.length, ⟨hlt.trans_le (by norm_num), rfl⟩, ⟨?_, k.bytes, [],
      k.bytes, ⟨rfl, rfl⟩, ⟨keyOfBytes_bytes k, rfl⟩, (List.append_nil _).symm⟩,
      length_putBytes_head hlt⟩
    exact decide_eq_true ⟨length_bytes_pos k, length_bytes_le k⟩

theorem parses_orderedKey (previous : Option FieldKey) (allowed : Bool) :
    Parses Set.univ (orderedKey previous allowed) fun bs k =>
      (∀ p ∈ previous, p.bytes < k.bytes) ∧ (k.bytes = lifecycleKey → allowed = true) ∧
        bs = putBytes k.bytes := by
  apply Parses.congr
  · apply parses_offset
    intro at_
    apply parses_bind parses_key
    intro k
    exact parses_require (parses_require (parses_pure k))
  intro bs k
  have hallowed : ∀ k : FieldKey, (!k.isLifecycle || allowed) = true ↔
      (k.bytes = lifecycleKey → allowed = true) := by
    intro k
    simp only [FieldKey.isLifecycle, Bool.or_eq_true, Bool.not_eq_true', decide_eq_false_iff_not,
      ← imp_iff_not_or]
  simp only [option_all_iff, hallowed]
  constructor
  · rintro ⟨_, _, k, rfl, ⟨hl, hp, rfl, rfl⟩, rfl⟩
    exact ⟨hp, hl, List.append_nil _⟩
  · rintro ⟨hp, hl, rfl⟩
    exact ⟨_, _, k, rfl, ⟨hl, hp, rfl, rfl⟩, (List.append_nil _).symm⟩

theorem parses_value {limits : Limits} (hlim : limits.value < 2 ^ 32) :
    Parses Set.univ (value limits) fun bs v => v.length ≤ limits.value ∧ bs = putBytes v := by
  apply Parses.congr
  · apply parses_offset
    intro at_
    apply parses_bind (parses_number 4)
    intro len
    exact parses_require (parses_take len _)
  intro bs v
  constructor
  · rintro ⟨_, _, len, ⟨hlen, rfl⟩, ⟨hle, rfl, rfl⟩, rfl⟩
    exact ⟨of_decide_eq_true hle, (length_putBytes_head (hlen.trans_le (by norm_num))).symm⟩
  · rintro ⟨hle, rfl⟩
    have hlt : v.length < 2 ^ 32 := hle.trans_lt hlim
    exact ⟨_, v, v.length, ⟨hlt.trans_le (by norm_num), rfl⟩, ⟨decide_eq_true hle, rfl, rfl⟩,
      length_putBytes_head hlt⟩

theorem fromRegisterValue_isSome {v : Bytes} :
    (Lifecycle.fromRegisterValue v).isSome = true ↔ v = [1] ∨ v = [2] := by
  unfold Lifecycle.fromRegisterValue
  split_ifs with h₁ h₂
  · simp [h₁]
  · simp [h₂]
  · simp [h₁, h₂]

theorem length_putEntry_ge (e : Entry) : minEntryLen ≤ (putEntry e).length := by
  simp only [putEntry, putBytes, List.length_append, length_putDot, length_putHlc, length_beBytes,
    minEntryLen, dotLen]
  omega

theorem length_putRegister_ge (reg : Register) : minRegisterLen ≤ (putRegister reg).length := by
  simp only [putRegister, putBytes, putCount, List.length_append, length_beBytes, minRegisterLen]
  omega

/-- On ascending lists the merge walk finds a shared dot exactly if there is one. -/
theorem sharesADot_eq_false {a b : List Entry} (ha : a.Pairwise fun x y => x.dot < y.dot)
    (hb : b.Pairwise fun x y => x.dot < y.dot) :
    sharesADot a b = false ↔ ∀ e ∈ a, ∀ f ∈ b, e.dot ≠ f.dot := by
  fun_induction sharesADot a b with
  | case1 x xs y ys hlt ih =>
    -- `x` lies below every entry of the second list
    obtain ⟨-, hxs⟩ := List.pairwise_cons.mp ha
    have hxy : x.dot < y.dot := compare_lt_iff_lt.mp hlt
    rw [ih hxs hb, List.forall_mem_cons, iff_and_self]
    intro _ f hf
    rcases List.mem_cons.mp hf with rfl | hf
    · exact hxy.ne
    · exact (hxy.trans ((List.pairwise_cons.mp hb).1 f hf)).ne
  | case2 x xs y ys hgt ih =>
    obtain ⟨-, hys⟩ := List.pairwise_cons.mp hb
    have hyx : y.dot < x.dot := compare_gt_iff_gt.mp hgt
    rw [ih ha hys]
    constructor
    · intro h e he f hf
      rcases List.mem_cons.mp hf with rfl | hf
      · rcases List.mem_cons.mp he with rfl | he
        · exact hyx.ne'
        · exact (hyx.trans ((List.pairwise_cons.mp ha).1 e he)).ne'
      · exact h e he f hf
    · exact fun h e he f hf => h e he f (List.mem_cons_of_mem _ hf)
  | case3 x xs y ys heq =>
    have hxy : x.dot = y.dot := compare_eq_iff_eq.mp heq
    simp only [Bool.true_eq_false, false_iff]
    exact fun h => h x List.mem_cons_self y List.mem_cons_self hxy
  | case4 a b hnot =>
    simp only [true_iff]
    intro e he f hf
    cases a with
    | nil => exact absurd he List.not_mem_nil
    | cons x xs =>
      cases b with
      | nil => exact absurd hf List.not_mem_nil
      | cons y ys => exact absurd rfl (hnot x xs y ys rfl)

/-- The register of a key is found by its key. -/
theorem find_key_eq_some {regs : List Register}
    (h : regs.Pairwise fun a b => a.key.bytes < b.key.bytes) {k : FieldKey} {reg : Register} :
    (regs.find? fun g => g.key = k) = some reg ↔ reg ∈ regs ∧ reg.key = k := by
  induction regs with
  | nil => simp
  | cons g regs ih =>
    obtain ⟨hg, h⟩ := List.pairwise_cons.mp h
    by_cases hk : g.key = k
    · rw [List.find?_cons_of_pos (by simpa using hk), Option.some.injEq]
      constructor
      · rintro rfl
        exact ⟨List.mem_cons_self, hk⟩
      · rintro ⟨hreg, hkey⟩
        rcases List.mem_cons.mp hreg with rfl | hreg
        · rfl
        · have hlt := hg reg hreg
          rw [hk, hkey] at hlt
          exact absurd hlt (lt_irrefl _)
    · rw [List.find?_cons_of_neg (by simpa using hk), ih h, List.mem_cons, or_and_right]
      constructor
      · exact .inr
      · rintro (⟨rfl, hkey⟩ | h)
        · exact absurd hkey hk
        · exact h

theorem length_putWrite_ge (w : Write) : minWriteLen ≤ (putWrite w).length := by
  simp only [putWrite, putBytes, List.length_append, length_beBytes, minWriteLen]
  omega

theorem fromU8_eq_some {n : ℕ} (hn : n < 256) {l : Lifecycle} :
    Lifecycle.fromU8 (Fin.ofNat _ n) = some l ↔ n = l.toU8.val := by
  have key : ∀ b : Byte, Lifecycle.fromU8 b = some l ↔ b = l.toU8 := by
    intro b
    unfold Lifecycle.fromU8
    cases l <;> split_ifs with h₁ h₂ h₃ <;> simp_all [Lifecycle.toU8]
  rw [key, Fin.ext_iff, Fin.val_ofNat, Nat.mod_eq_of_lt hn]

section Registers

variable {limits : Limits} (hlim : Limits.Fit limits) (covered : VersionVector)
  (context : Option VersionVector)

include hlim

theorem parses_entries (k : FieldKey) (m : ℕ) :
    Parses Set.univ (entries limits k covered context m none) fun bs es =>
      es.length = m ∧ (es.Pairwise fun a b => a.dot < b.dot) ∧
        (∀ e ∈ es, EntryRules limits covered context k e) ∧ bs = es.flatMap putEntry := by
  have hstep : ∀ previous : Option Dot, Parses Set.univ (do
      let at_ ← Parser.offset
      let d ← dot
      Parser.require (previous.all fun p => p < d) ⟨.notAscending, at_⟩
      Parser.require (covered.covers d) ⟨.notCovered, at_⟩
      Parser.require (context.all fun c => ¬ c.covers d) ⟨.lateValueCovered, at_⟩
      let t ← hlc
      let valueAt ← Parser.offset
      let v ← value limits
      Parser.require (!k.isLifecycle || (Lifecycle.fromRegisterValue v).isSome)
        ⟨.invalidLifecycleValue, valueAt⟩
      return ⟨d, t, v⟩ : RecordParser Entry) fun bs e =>
        (∀ p ∈ previous, p < e.dot) ∧ EntryRules limits covered context k e ∧
          (previous = none → True) ∧ bs = putEntry e := by
    intro previous
    apply Parses.congr
    · apply parses_offset
      intro at_
      apply parses_bind parses_dot
      intro d
      apply parses_require
      apply parses_require
      apply parses_require
      apply parses_bind parses_hlc
      intro t
      apply parses_offset
      intro valueAt
      apply parses_bind (parses_value hlim.value)
      intro v
      exact parses_require (parses_pure _)
    intro bs e
    have hvalue : ∀ v : Bytes, (!k.isLifecycle || (Lifecycle.fromRegisterValue v).isSome) = true ↔
        (k.bytes = lifecycleKey → v = [1] ∨ v = [2]) := by
      intro v
      simp only [FieldKey.isLifecycle, Bool.or_eq_true, Bool.not_eq_true',
        decide_eq_false_iff_not, fromRegisterValue_isSome, ← imp_iff_not_or]
    simp only [option_all_iff, hvalue, decide_eq_true_eq]
    constructor
    · rintro ⟨_, _, d, rfl, ⟨hp, hc, hl, _, _, t, rfl, ⟨_, _, v, ⟨hv, rfl⟩, ⟨hk, rfl, rfl⟩, rfl⟩,
        rfl⟩, rfl⟩
      refine ⟨hp, ⟨hc, hl, hv, hk⟩, fun _ => trivial, ?_⟩
      rw [putEntry, List.append_nil]
    · rintro ⟨hp, ⟨hc, hl, hv, hk⟩, -, rfl⟩
      refine ⟨_, _, e.dot, rfl, ⟨hp, hc, hl, _, _, e.hlc, rfl, ⟨_, _, e.value, ⟨hv, rfl⟩,
        ⟨hk, rfl, rfl⟩, rfl⟩, rfl⟩, ?_⟩
      rw [putEntry, List.append_nil]
  refine (parses_loop (· < ·) Entry.dot (entries limits k covered context) _ (fun _ => rfl)
    (fun n previous => ?_) hstep m none).congr fun bs es => ?_
  · simp only [entries, bind_assoc, pure_bind]
  · simp [ascends_none]

theorem parses_register (group : Group) (previous : Option FieldKey) :
    Parses Set.univ (register limits group previous covered context) fun bs reg =>
      (∀ p ∈ previous, p.bytes < reg.key.bytes) ∧ RegisterRules limits covered context reg ∧
        (reg.key.bytes = lifecycleKey → group ≠ .late) ∧ bs = putRegister reg := by
  apply Parses.congr
  · apply parses_bind (parses_orderedKey previous _)
    intro k
    apply parses_offset
    intro at_
    apply parses_count (hlim.values.trans_lt (by norm_num))
    · intro m
      exact parses_require (parses_map (fun es => (⟨k, es⟩ : Register))
        (parses_entries hlim covered context k m))
    · rintro m bs reg ⟨-, es, ⟨rfl, -, -, rfl⟩, -⟩
      exact length_flatMap_ge es fun e _ => length_putEntry_ge e
  intro bs reg
  constructor
  · rintro ⟨_, _, k, ⟨hp, hk, rfl⟩, ⟨m, _, hm, ⟨hne, es, ⟨rfl, hasc, hes, rfl⟩, rfl⟩, rfl⟩, rfl⟩
    refine ⟨hp, ⟨fun h => ?_, hm, hasc, hes⟩, fun h => of_decide_eq_true (hk h), rfl⟩
    exact of_decide_eq_true hne (List.length_eq_zero_iff.mpr h)
  · rintro ⟨hp, ⟨hne, hm, hasc, hes⟩, hk, rfl⟩
    refine ⟨_, _, reg.key, ⟨hp, fun h => decide_eq_true (hk h), rfl⟩,
      ⟨reg.entries.length, _, hm, ⟨?_, reg.entries, ⟨rfl, hasc, hes, rfl⟩, rfl⟩, rfl⟩, rfl⟩
    exact decide_eq_true fun h => hne (List.length_eq_zero_iff.mp h)

theorem parses_currentRegisters (r : ℕ) :
    Parses Set.univ (currentRegisters limits covered r none) fun bs regs =>
      regs.length = r ∧ (regs.Pairwise fun a b => a.key.bytes < b.key.bytes) ∧
        (∀ reg ∈ regs, RegisterRules limits covered none reg) ∧
        (∀ reg ∈ regs.head?, reg.key.bytes = lifecycleKey) ∧ bs = regs.flatMap putRegister := by
  have hstep : ∀ previous : Option FieldKey, Parses Set.univ (do
      let at_ ← Parser.offset
      let reg ← register limits .current previous covered none
      Parser.require (previous.isSome || reg.key.isLifecycle) ⟨.missingLifecycle, at_⟩
      return reg : RecordParser Register) fun bs reg =>
        (∀ p ∈ previous, p.bytes < reg.key.bytes) ∧ RegisterRules limits covered none reg ∧
          (previous = none → reg.key.bytes = lifecycleKey) ∧ bs = putRegister reg := by
    intro previous
    apply Parses.congr
    · apply parses_offset
      intro at_
      apply parses_bind (parses_register hlim covered none .current previous)
      intro reg
      exact parses_require (parses_pure reg)
    intro bs reg
    have hfirst : ∀ reg : Register, (previous.isSome || reg.key.isLifecycle) = true ↔
        (previous = none → reg.key.bytes = lifecycleKey) := by
      intro reg
      cases previous <;> simp [FieldKey.isLifecycle]
    simp only [hfirst]
    constructor
    · rintro ⟨_, _, reg, ⟨hp, hreg, -, rfl⟩, ⟨hl, rfl, rfl⟩, rfl⟩
      exact ⟨hp, hreg, hl, List.append_nil _⟩
    · rintro ⟨hp, hreg, hl, rfl⟩
      exact ⟨_, _, reg, ⟨hp, hreg, fun _ => by simp, rfl⟩, ⟨hl, rfl, rfl⟩,
        (List.append_nil _).symm⟩
  refine (parses_loop (fun a b => a.bytes < b.bytes) Register.key (currentRegisters limits covered)
    _ (fun _ => rfl) (fun n previous => ?_) hstep r none).congr fun bs regs => ?_
  · simp only [currentRegisters, bind_assoc, pure_bind]
  · simp [ascends_none]

theorem parses_historyGroups {registers : List Register}
    (hasc : registers.Pairwise fun a b => a.key.bytes < b.key.bytes)
    (hregs : ∀ reg ∈ registers, RegisterRules limits covered none reg) (h : ℕ) :
    Parses Set.univ (historyGroups limits covered registers h none) fun bs regs =>
      regs.length = h ∧ (regs.Pairwise fun a b => a.key.bytes < b.key.bytes) ∧
        (∀ g ∈ regs, RegisterRules limits covered none g ∧ (∃ reg ∈ registers, reg.key = g.key) ∧
          ∀ reg ∈ registers, reg.key = g.key → ∀ e ∈ reg.entries, ∀ f ∈ g.entries, e.dot ≠ f.dot) ∧
        bs = regs.flatMap putRegister := by
  have hstep : ∀ previous : Option FieldKey, Parses Set.univ (do
      let at_ ← Parser.offset
      let group ← register limits .history previous covered none
      let current ← Parser.ofOption (registers.find? fun g => g.key = group.key)
        ⟨.orphanHistory, at_⟩
      Parser.require (!sharesADot current.entries group.entries) ⟨.duplicateDot, at_⟩
      return group : RecordParser Register) fun bs g =>
        (∀ p ∈ previous, p.bytes < g.key.bytes) ∧ (RegisterRules limits covered none g ∧
          (∃ reg ∈ registers, reg.key = g.key) ∧ ∀ reg ∈ registers, reg.key = g.key →
            ∀ e ∈ reg.entries, ∀ f ∈ g.entries, e.dot ≠ f.dot) ∧
          (previous = none → True) ∧ bs = putRegister g := by
    intro previous
    apply Parses.congr
    · apply parses_offset
      intro at_
      apply parses_bind (parses_register hlim covered none .history previous)
      intro group
      apply parses_ofOption
      intro current
      exact parses_require (parses_pure group)
    intro bs g
    simp only [find_key_eq_some hasc, Bool.not_eq_true']
    constructor
    · rintro ⟨_, _, g, ⟨hp, hg, -, rfl⟩, ⟨current, ⟨hcur, hkey⟩, hshare, rfl, rfl⟩, rfl⟩
      refine ⟨hp, ⟨hg, ⟨current, hcur, hkey⟩, fun reg hreg hk => ?_⟩, fun _ => trivial,
        List.append_nil _⟩
      have heq : some reg = some current := by
        rw [← (find_key_eq_some hasc).mpr ⟨hreg, hk⟩,
          ← (find_key_eq_some hasc).mpr ⟨hcur, hkey⟩]
      cases heq
      exact (sharesADot_eq_false (hregs _ hcur).ascending hg.ascending).mp hshare
    · rintro ⟨hp, ⟨hg, ⟨current, hcur, hkey⟩, hdist⟩, -, rfl⟩
      refine ⟨_, _, g, ⟨hp, hg, fun _ => by simp, rfl⟩, ⟨current, ⟨hcur, hkey⟩, ?_, rfl, rfl⟩,
        (List.append_nil _).symm⟩
      exact (sharesADot_eq_false (hregs _ hcur).ascending hg.ascending).mpr
        (hdist current hcur hkey)
  refine (parses_loop (fun a b => a.bytes < b.bytes) Register.key
    (historyGroups limits covered registers) _ (fun _ => rfl) (fun n previous => ?_) hstep h
    none).congr fun bs regs => ?_
  · simp only [historyGroups, bind_assoc, pure_bind]
  · simp [ascends_none]

theorem parses_lateRegisters (context : VersionVector) (l : ℕ) :
    Parses Set.univ (lateRegisters limits covered context l none) fun bs regs =>
      regs.length = l ∧ (regs.Pairwise fun a b => a.key.bytes < b.key.bytes) ∧
        (∀ reg ∈ regs, RegisterRules limits covered (some context) reg ∧
          reg.key.bytes ≠ lifecycleKey) ∧ bs = regs.flatMap putRegister := by
  have hstep : ∀ previous : Option FieldKey, Parses Set.univ
      (register limits .late previous covered (some context)) fun bs reg =>
        (∀ p ∈ previous, p.bytes < reg.key.bytes) ∧
          (RegisterRules limits covered (some context) reg ∧ reg.key.bytes ≠ lifecycleKey) ∧
          (previous = none → True) ∧ bs = putRegister reg := by
    intro previous
    refine (parses_register hlim covered (some context) .late previous).congr fun bs reg => ?_
    simp [and_assoc]
  refine (parses_loop (fun a b => a.bytes < b.bytes) Register.key
    (lateRegisters limits covered context) _ (fun _ => rfl) (fun n previous => rfl) hstep l
    none).congr fun bs regs => ?_
  simp [ascends_none]

/-! ### Whole records -/

theorem parses_live :
    Parses {[]} (live limits covered) fun bs l =>
      LiveRules limits covered l ∧ bs = putRegisters l.registers ++ putRegisters l.history := by
  have hgroups : limits.groups < 2 ^ 16 := hlim.groups.trans_lt (by norm_num)
  apply Parses.congr
  · apply parses_offset
    intro at_
    apply parses_count hgroups
    · intro r
      apply parses_require
      apply parses_bind_of (parses_currentRegisters hlim covered r)
      rintro _ registers ⟨-, hasc, hregs, -, -⟩
      apply parses_count hgroups
      · intro h
        apply parses_bind (parses_historyGroups hlim covered hasc hregs h)
        intro history
        exact parses_finish (⟨registers, history⟩ : LiveSnapshot)
      · rintro h _ l ⟨_, _, history, ⟨rfl, -, -, rfl⟩, ⟨rfl, -⟩, rfl⟩
        rw [List.append_nil]
        exact length_flatMap_ge history fun reg _ => length_putRegister_ge reg
    · rintro r _ l ⟨-, _, b₂, registers, ⟨rfl, -, -, -, rfl⟩, -, rfl⟩
      have hlen := length_flatMap_ge registers fun reg _ => length_putRegister_ge reg
      rw [List.length_append]
      omega
  intro bs l
  constructor
  · rintro ⟨r, _, hr, ⟨hne, _, _, registers, ⟨rfl, hasc, hregs, hfirst, rfl⟩, ⟨h, _, hh, ⟨_, _,
      history, ⟨rfl, hasch, hhist, rfl⟩, ⟨rfl, rfl⟩, rfl⟩, rfl⟩, rfl⟩, rfl⟩
    refine ⟨⟨⟨hr, hasc, hregs⟩, ?_, ⟨hh, hasch, fun g hg => (hhist g hg).1⟩,
      fun g hg => (hhist g hg).2.1, fun g hg => (hhist g hg).2.2⟩, ?_⟩
    · cases registers with
      | nil => exact absurd rfl (of_decide_eq_true hne)
      | cons reg registers => exact ⟨reg, rfl, hfirst reg rfl⟩
    · simp only [putRegisters, List.append_assoc, List.append_nil]
  · rintro ⟨⟨⟨hr, hasc, hregs⟩, ⟨first, hfirst, hl⟩, ⟨hh, hasch, hhist⟩, howned, hdist⟩, rfl⟩
    refine ⟨l.registers.length, _, hr, ⟨?_, _, _, l.registers, ⟨rfl, hasc, hregs, ?_, rfl⟩,
      ⟨l.history.length, _, hh, ⟨_, _, l.history, ⟨rfl, hasch, ?_, rfl⟩, ⟨rfl, rfl⟩, rfl⟩, rfl⟩,
      rfl⟩, ?_⟩
    · refine decide_eq_true fun hzero => ?_
      rw [List.length_eq_zero_iff.mp hzero] at hfirst
      cases hfirst
    · intro reg hreg
      rw [Option.mem_def] at hreg hfirst
      rw [hreg, Option.some.injEq] at hfirst
      rwa [hfirst]
    · exact fun g hg => ⟨hhist g hg, howned g hg, hdist g hg⟩
    · simp only [putRegisters, List.append_assoc, List.append_nil]

theorem parses_tombstone :
    Parses {[]} (tombstone limits covered) fun bs t =>
      TombstoneRules limits covered t ∧ bs = putDot t.purgeDot ++ (putHlc t.purgeHlc ++
        (putVv t.context ++ (idBytes t.itemKeyId ++ putRegisters t.late))) := by
  have hgroups : limits.groups < 2 ^ 16 := hlim.groups.trans_lt (by norm_num)
  apply Parses.congr
  · apply parses_offset
    intro at_
    apply parses_bind parses_dot
    intro purgeDot
    apply parses_require
    apply parses_bind parses_hlc
    intro purgeHlc
    apply parses_offset
    intro at'
    apply parses_bind parses_vv
    intro context
    show Parses {[]} _ fun bs (t : Tombstone) =>
        (∀ d ∈ context.dots, covered.covers d) ∧ t.purgeDot = purgeDot ∧ t.purgeHlc = purgeHlc ∧
          t.context = context ∧ RegistersRules limits covered (some context) t.late ∧
          (∀ reg ∈ t.late, reg.key.bytes ≠ lifecycleKey) ∧
          bs = idBytes t.itemKeyId ++ putRegisters t.late
    cases hidx : context.dots.findIdx? fun d => ¬ covered.covers d with
    | some i =>
      refine (parses_throw _).congr fun bs t => ?_
      simp only [false_iff, not_and]
      intro hcov
      have hnone : (context.dots.findIdx? fun d => ¬ covered.covers d) = none :=
        List.findIdx?_eq_none_iff.mpr fun d hd => by simpa using hcov d hd
      rw [hnone] at hidx
      cases hidx
    | none =>
      have hcov : ∀ d ∈ context.dots, covered.covers d := fun d hd => by
        simpa using List.findIdx?_eq_none_iff.mp hidx d hd
      apply Parses.congr
      · apply parses_bind (parses_takeAt 16 0)
        intro itemKeyId
        apply parses_count hgroups
        · intro l
          apply parses_bind (parses_lateRegisters hlim covered context l)
          intro late
          exact parses_finish (⟨purgeDot, purgeHlc, context, idOfBytes .symmetricKey itemKeyId,
            late⟩ : Tombstone)
        · rintro l _ t ⟨_, _, late, ⟨rfl, -, -, rfl⟩, ⟨rfl, -⟩, rfl⟩
          rw [List.append_nil]
          exact length_flatMap_ge late fun reg _ => length_putRegister_ge reg
      intro bs t
      constructor
      · rintro ⟨_, _, id, ⟨hid, rfl⟩, ⟨l, _, hl, ⟨_, _, late, ⟨rfl, hasc, hlate, rfl⟩, ⟨rfl, rfl⟩,
          rfl⟩, rfl⟩, rfl⟩
        refine ⟨hcov, rfl, rfl, rfl, ⟨hl, hasc, fun reg hreg => (hlate reg hreg).1⟩,
          fun reg hreg => (hlate reg hreg).2, ?_⟩
        rw [idBytes_idOfBytes hid, List.append_nil, putRegisters]
      · rintro ⟨-, rfl, rfl, rfl, ⟨hl, hasc, hlate⟩, hlife, rfl⟩
        refine ⟨_, _, idBytes t.itemKeyId, ⟨length_idBytes _, rfl⟩, ⟨t.late.length, _, hl, ⟨_, _,
          t.late, ⟨rfl, hasc, fun reg hreg => ⟨hlate reg hreg, hlife reg hreg⟩, rfl⟩, ⟨rfl, ?_⟩,
          rfl⟩, rfl⟩, ?_⟩
        · rw [idOfBytes_idBytes]
        · rw [List.append_nil, putRegisters]
  intro bs t
  constructor
  · rintro ⟨_, _, purgeDot, rfl, ⟨hp, _, _, purgeHlc, rfl, ⟨_, _, context, ⟨hc, rfl⟩, ⟨hcov, rfl, rfl,
      rfl, hlate, hlife, rfl⟩, rfl⟩, rfl⟩, rfl⟩
    exact ⟨⟨of_decide_eq_true hp, hcov, hc, hlate, hlife⟩, rfl⟩
  · rintro ⟨⟨hp, hcov, hc, hlate, hlife⟩, rfl⟩
    exact ⟨_, _, t.purgeDot, rfl, ⟨decide_eq_true hp, _, _, t.purgeHlc, rfl, ⟨_, _, t.context,
      ⟨hc, rfl⟩, ⟨hcov, rfl, rfl, rfl, hlate, hlife, rfl⟩, rfl⟩, rfl⟩, rfl⟩

theorem parses_writes (n : ℕ) :
    Parses Set.univ (writes limits n none) fun bs ws =>
      ws.length = n ∧ (ws.Pairwise fun a b => a.key.bytes < b.key.bytes) ∧
        (∀ w ∈ ws, w.key.bytes ≠ lifecycleKey ∧ w.value.length ≤ limits.value) ∧
        bs = ws.flatMap putWrite := by
  have hstep : ∀ previous : Option FieldKey, Parses Set.univ (do
      let k ← orderedKey previous false
      let v ← value limits
      return ⟨k, v⟩ : RecordParser Write) fun bs w =>
        (∀ p ∈ previous, p.bytes < w.key.bytes) ∧
          (w.key.bytes ≠ lifecycleKey ∧ w.value.length ≤ limits.value) ∧
          (previous = none → True) ∧ bs = putWrite w := by
    intro previous
    apply Parses.congr
    · apply parses_bind (parses_orderedKey previous false)
      intro k
      exact parses_map (fun v => (⟨k, v⟩ : Write)) (parses_value hlim.value)
    intro bs w
    constructor
    · rintro ⟨_, _, k, ⟨hp, hk, rfl⟩, ⟨v, ⟨hv, rfl⟩, rfl⟩, rfl⟩
      exact ⟨hp, ⟨fun h => Bool.false_ne_true (hk h), hv⟩, fun _ => trivial, rfl⟩
    · rintro ⟨hp, ⟨hk, hv⟩, -, rfl⟩
      exact ⟨_, _, w.key, ⟨hp, fun h => absurd h hk, rfl⟩, ⟨w.value, ⟨hv, rfl⟩, rfl⟩, rfl⟩
  refine (parses_loop (fun a b => a.bytes < b.bytes) Write.key (writes limits) _ (fun _ => rfl)
    (fun n previous => ?_) hstep n none).congr fun bs ws => ?_
  · simp only [writes, bind_assoc, pure_bind]
  · simp [ascends_none]

theorem parses_op (hwrites : limits.writes < 2 ^ 16) :
    Parses {[]} (op limits) fun bs d =>
      (d.WellFormed ∧ d.writes.length ≤ limits.writes ∧
        ∀ w ∈ d.writes, w.value.length ≤ limits.value) ∧
      bs = beBytes 1 d.lifecycle.toU8.val ++
        (putCount d.writes.length ++ d.writes.flatMap putWrite) := by
  apply Parses.congr
  · apply parses_offset
    intro at_
    apply parses_bind (parses_number 1)
    intro marker
    apply parses_ofOption
    intro lifecycle
    apply parses_offset
    intro at'
    apply parses_count hwrites
    · intro n
      apply parses_require
      apply parses_bind (parses_writes hlim n)
      intro ws
      exact parses_finish (⟨lifecycle, ws⟩ : OpData)
    · rintro n _ d ⟨-, _, _, ws, ⟨rfl, -, -, rfl⟩, ⟨rfl, -⟩, rfl⟩
      rw [List.append_nil]
      exact length_flatMap_ge ws fun w _ => length_putWrite_ge w
  intro bs d
  constructor
  · rintro ⟨_, _, marker, ⟨hm, rfl⟩, ⟨lifecycle, hl, n, _, hn, ⟨hactive, _, _, ws, ⟨rfl, hasc, hws,
      rfl⟩, ⟨rfl, rfl⟩, rfl⟩, rfl⟩, rfl⟩
    rw [fromU8_eq_some (by simpa using hm)] at hl
    refine ⟨⟨⟨hasc, fun w hw => (hws w hw).1, fun hne => ?_⟩, hn, fun w hw => (hws w hw).2⟩, ?_⟩
    · refine (of_decide_eq_true hactive).resolve_left fun hzero => hne ?_
      exact List.length_eq_zero_iff.mp hzero
    · rw [hl, List.append_nil]
  · rintro ⟨⟨⟨hasc, hlife, hactive⟩, hn, hv⟩, rfl⟩
    have hm : d.lifecycle.toU8.val < 256 := d.lifecycle.toU8.isLt
    refine ⟨_, _, d.lifecycle.toU8.val, ⟨hm, rfl⟩, ⟨d.lifecycle,
      (fromU8_eq_some hm).mpr rfl, d.writes.length, _, hn, ⟨?_, _, _, d.writes, ⟨rfl, hasc,
        fun w hw => ⟨hlife w hw, hv w hw⟩, rfl⟩, ⟨rfl, rfl⟩, rfl⟩, rfl⟩, ?_⟩
    · refine decide_eq_true ?_
      by_cases hnil : d.writes = []
      · exact .inl (by rw [hnil, List.length_nil])
      · exact .inr (hactive hnil)
    · rw [List.append_nil]

/-- The parser accepts exactly the layouts of operation data that satisfies the rules. -/
theorem opWith_eq_ok_iff (hwrites : limits.writes < 2 ^ 16) (data : Bytes) (d : OpData) :
    opWith data limits = .ok d ↔ OpRules limits d ∧ data = putOp d := by
  have hp : Parses {[]} (do
      let kind ← u8
      Parser.require (kind = kindOp) ⟨.wrongKind, 0⟩
      op limits : RecordParser OpData) fun bs d =>
        (d.WellFormed ∧ d.writes.length ≤ limits.writes ∧
          ∀ w ∈ d.writes, w.value.length ≤ limits.value) ∧ bs = putOp d := by
    apply Parses.congr
    · apply parses_bind (parses_number 1)
      intro kind
      exact parses_require (parses_op hlim hwrites)
    intro bs d
    constructor
    · rintro ⟨_, _, kind, ⟨-, rfl⟩, ⟨hkind, hd, rfl⟩, rfl⟩
      cases of_decide_eq_true hkind
      exact ⟨hd, rfl⟩
    · rintro ⟨hd, rfl⟩
      exact ⟨_, _, kindOp, ⟨by decide, rfl⟩, ⟨rfl, hd, rfl⟩, rfl⟩
  unfold opWith
  split_ifs with hlen
  · simp only [false_iff]
    rintro ⟨hd, rfl⟩
    exact absurd hd.length (not_le.mpr hlen)
  · rw [hp.run_eq_ok_iff]
    constructor
    · rintro ⟨⟨hwf, hn, hv⟩, rfl⟩
      exact ⟨⟨hwf, hn, hv, not_lt.mp hlen⟩, rfl⟩
    · rintro ⟨⟨hwf, hn, hv, -⟩, rfl⟩
      exact ⟨⟨hwf, hn, hv⟩, rfl⟩

/-- The parser accepts exactly the layouts of snapshot data that satisfies the rules. -/
theorem snapshotWith_eq_ok_iff (data : Bytes) (d : SnapshotData) :
    snapshotWith covered data limits = .ok d ↔
      SnapshotRules limits covered d ∧ data = putSnapshot d := by
  have hp : Parses {[]} (do
      let kind ← u8
      if kind = kindLiveSnapshot then return .live (← live limits covered)
      else if kind = kindTombstone then return .tombstone (← tombstone limits covered)
      else throw ⟨.wrongKind, 0⟩ : RecordParser SnapshotData) fun bs d =>
        ((∀ l, d = .live l → LiveRules limits covered l) ∧
          ∀ t, d = .tombstone t → TombstoneRules limits covered t) ∧ bs = putSnapshot d := by
    have hbody : ∀ kind : ℕ, Parses {[]} (if kind = kindLiveSnapshot then
          return .live (← live limits covered)
        else if kind = kindTombstone then return .tombstone (← tombstone limits covered)
        else throw ⟨.wrongKind, 0⟩ : RecordParser SnapshotData) fun bs d =>
          ((∀ l, d = .live l → LiveRules limits covered l) ∧
            ∀ t, d = .tombstone t → TombstoneRules limits covered t) ∧
            beBytes 1 kind ++ bs = putSnapshot d ∧ (kind = 2 ∨ kind = 3) := by
      intro kind
      split_ifs with hlive htomb
      · cases hlive
        refine (parses_map SnapshotData.live (parses_live hlim covered)).congr fun bs d => ?_
        constructor
        · rintro ⟨l, ⟨hl, rfl⟩, rfl⟩
          refine ⟨⟨fun l' h => ?_, fun t h => (by cases h)⟩, rfl, .inl rfl⟩
          cases h
          exact hl
        · rintro ⟨⟨hl, -⟩, hbs, -⟩
          cases d with
          | live l => exact ⟨l, ⟨hl l rfl, List.append_cancel_left hbs⟩, rfl⟩
          | tombstone t => cases hbs
      · cases htomb
        refine (parses_map SnapshotData.tombstone (parses_tombstone hlim covered)).congr
          fun bs d => ?_
        constructor
        · rintro ⟨t, ⟨ht, rfl⟩, rfl⟩
          refine ⟨⟨fun l h => (by cases h), fun t' h => ?_⟩, rfl, .inr rfl⟩
          cases h
          exact ht
        · rintro ⟨⟨-, ht⟩, hbs, -⟩
          cases d with
          | live l => cases hbs
          | tombstone t => exact ⟨t, ⟨ht t rfl, List.append_cancel_left hbs⟩, rfl⟩
      · refine (parses_throw _).congr fun bs d => ?_
        rw [false_iff]
        rintro ⟨-, -, h | h⟩
        · exact hlive h
        · exact htomb h
    refine (parses_bind (parses_number 1) hbody).congr fun bs d => ?_
    constructor
    · rintro ⟨_, _, kind, ⟨-, rfl⟩, ⟨hd, hbs, -⟩, rfl⟩
      exact ⟨hd, hbs⟩
    · rintro ⟨hd, rfl⟩
      cases d with
      | live l => exact ⟨_, _, kindLiveSnapshot, ⟨by decide, rfl⟩, ⟨hd, rfl, .inl rfl⟩, rfl⟩
      | tombstone t => exact ⟨_, _, kindTombstone, ⟨by decide, rfl⟩, ⟨hd, rfl, .inr rfl⟩, rfl⟩
  unfold snapshotWith
  split_ifs with hlen
  · simp only [false_iff]
    rintro ⟨hd, rfl⟩
    exact absurd hd.length (not_le.mpr hlen)
  · rw [hp.run_eq_ok_iff]
    constructor
    · rintro ⟨⟨hl, ht⟩, rfl⟩
      exact ⟨⟨hl, ht, not_lt.mp hlen⟩, rfl⟩
    · rintro ⟨⟨hl, ht, -⟩, rfl⟩
      exact ⟨⟨hl, ht⟩, rfl⟩

end Registers

end RizzyVault.Sync.Record
