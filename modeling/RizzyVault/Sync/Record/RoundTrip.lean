import RizzyVault.Sync.Record.Encode

/-!
# Records parse back to themselves

What the encoder accepts, the parser reads back: the sizes bound every count and length, so each
production reads exactly what was written for it, and the encoder has already run the parser's
checks on its output.

## Main results

* `parseSnapshot_of_encodeSnapshot`: an encoded snapshot parses to itself.
-/

open RizzyVault.Core RizzyVault.Lib

namespace RizzyVault.Sync.Record

open Std (ExtTreeMap)

/-! ### Scalars -/

theorem agrees_takeAt (bs : Bytes) (shift : ℕ) : Agrees (takeAt bs.length shift) bs bs :=
  agrees_bind_any offset_keeps fun _ => agrees_take bs _

theorem agrees_number {w n : ℕ} (h : n < 256 ^ w) : Agrees (number w) (beBytes w n) n := by
  have ht := agrees_takeAt (beBytes w n) 0
  rw [length_beBytes] at ht
  have hm := agrees_map ofBe ht
  rwa [ofBe_beBytes h] at hm

theorem idOfBytes_idBytes {κ : IdKind} (id : Id κ) : idOfBytes κ (idBytes id) = id := by
  obtain ⟨raw⟩ := id
  have hlt : raw.val < 256 ^ 16 := raw.isLt.trans_le (by norm_num)
  rw [idOfBytes, idBytes, ofBe_beBytes hlt]
  simp

theorem length_idBytes {κ : IdKind} (id : Id κ) : (idBytes id).length = 16 := length_beBytes _ _

theorem agrees_dot (d : Dot) : Agrees dot (putDot d) d := by
  refine agrees_bind_any offset_keeps fun at_ => ?_
  have hdev := agrees_takeAt (idBytes d.deviceId) 0
  rw [length_idBytes] at hdev
  refine agrees_bind hdev ?_
  have hseq := agrees_take (β := Byte) (beBytes 8 d.seq) (⟨.truncated, at_ + 16⟩ : RecordError)
  rw [length_beBytes] at hseq
  refine agrees_bind_last hseq (agrees_ofOption _ _ ?_)
  rw [idOfBytes_idBytes, ofBe_beBytes (d.seq_lt.trans_le (by norm_num)), Dot.new_eq_some]
  exact ⟨rfl, rfl⟩

theorem agrees_hlc (t : Hlc) : Agrees hlc (putHlc t) t := by
  obtain ⟨raw⟩ := t
  have hlt : raw.val < 256 ^ 8 := raw.isLt.trans_le (by norm_num)
  have hraw : (⟨Fin.ofNat _ raw.val⟩ : Hlc) = ⟨raw⟩ := by simp
  have h := agrees_map (fun n => (⟨Fin.ofNat _ n⟩ : Hlc)) (agrees_number hlt)
  simp only [hraw] at h
  exact h

theorem agrees_vvEntries (l : List Dot) (previous : Option DeviceId) :
    Agrees (vvEntries l.length previous) (l.flatMap putDot) l := by
  induction l generalizing previous with
  | nil => exact agrees_pure []
  | cons d l ih =>
    refine agrees_bind_any offset_keeps fun at_ => ?_
    refine agrees_bind (agrees_dot d) ?_
    refine agrees_bind_nil (agrees_require _ _) ?_
    exact agrees_map (fun rest => d :: rest) (ih (some d.deviceId))

theorem putCount_eq {n : ℕ} (h : n ≤ 65535) : putCount n = beBytes 2 n := by
  rw [putCount, min_eq_left h]

/-- The vector a list of entries spells, inserted in turn. -/
theorem mem_dots_foldl_insert {l : List Dot} (hl : l.Pairwise fun a b => a.deviceId ≠ b.deviceId)
    (dot : Dot) :
    dot ∈ VersionVector.dots ⟨l.foldl (fun m d => m.insert d.deviceId d.seqNonzero) ∅⟩ ↔
      dot ∈ l := by
  have key : ∀ (l : List Dot) (m : ExtTreeMap DeviceId NonZeroU64),
      (l.Pairwise fun a b => a.deviceId ≠ b.deviceId) → ∀ (device : DeviceId) (s : NonZeroU64),
        (l.foldl (fun m d => m.insert d.deviceId d.seqNonzero) m)[device]? = some s ↔
          (⟨device, s⟩ : Dot) ∈ l ∨ (m[device]? = some s ∧ ∀ d ∈ l, d.deviceId ≠ device) := by
    intro l
    induction l with
    | nil => simp
    | cons d l ih =>
      intro m hl device s
      obtain ⟨hd, hl⟩ := List.pairwise_cons.mp hl
      rw [List.foldl_cons, ih _ hl, ExtTreeMap.getElem?_insert_iff]
      by_cases hdev : d.deviceId = device
      · subst hdev
        rw [if_pos rfl, List.mem_cons]
        constructor
        · rintro (h | ⟨h, -⟩)
          · exact .inl (.inr h)
          · cases h
            exact .inl (.inl rfl)
        · rintro ((h | h) | ⟨-, h⟩)
          · rw [← h]
            exact .inr ⟨rfl, fun e he => (hd e he).symm⟩
          · exact .inl h
          · exact absurd rfl (h d List.mem_cons_self)
      · rw [if_neg hdev, List.mem_cons]
        constructor
        · rintro (h | ⟨h, h'⟩)
          · exact .inl (.inr h)
          · refine .inr ⟨h, fun e he => ?_⟩
            rcases List.mem_cons.mp he with rfl | he
            · exact hdev
            · exact h' e he
        · rintro ((h | h) | ⟨h, h'⟩)
          · rw [← h] at hdev
            exact absurd rfl hdev
          · exact .inl h
          · exact .inr ⟨h, fun e he => h' e (List.mem_cons_of_mem _ he)⟩
  rw [VersionVector.mem_dots, key _ _ hl]
  simp

/-- Inserting the entries of a vector in turn rebuilds it. -/
theorem foldl_insert_dots (v : VersionVector) :
    (⟨v.dots.foldl (fun m d => m.insert d.deviceId d.seqNonzero) ∅⟩ : VersionVector) = v := by
  have hpair : v.dots.Pairwise fun a b => a.deviceId ≠ b.deviceId := by
    rw [VersionVector.dots, List.pairwise_map]
    exact v.entries.pairwise_fst_toList.imp fun h => h.ne
  have hmem := mem_dots_foldl_insert hpair
  obtain ⟨m⟩ := v
  congr 1
  refine ExtTreeMap.ext_getElem? fun device => Option.ext fun s => ?_
  have h := hmem ⟨device, s⟩
  rwa [VersionVector.mem_dots, VersionVector.mem_dots] at h

theorem agrees_vv {v : VersionVector} (h : v.dots.length ≤ 65535) : Agrees vv (putVv v) v := by
  refine agrees_bind_any offset_keeps fun at_ => ?_
  rw [putVv, putCount_eq h]
  refine agrees_bind (agrees_number (by omega)) ?_
  refine agrees_bind_any remaining_keeps fun _ => ?_
  refine agrees_bind_nil (agrees_require _ _) ?_
  have hm := agrees_map (fun entries : List Dot =>
    (⟨entries.foldl (fun m d => m.insert d.deviceId d.seqNonzero) ∅⟩ : VersionVector))
    (agrees_vvEntries v.dots none)
  rwa [foldl_insert_dots] at hm

theorem agrees_finish : Agrees finish [] () :=
  agrees_bind_any offset_keeps fun _ => agrees_bind_any remaining_keeps fun _ =>
    agrees_require _ _

/-! ### Productions -/

theorem agrees_count {n max minLen : ℕ} (h : n ≤ 65535) :
    Agrees (count max minLen) (putCount n) n := by
  refine agrees_bind_any offset_keeps fun at_ => ?_
  rw [putCount_eq h]
  refine agrees_bind_last (agrees_number (by omega)) ?_
  refine agrees_bind_nil (agrees_require _ _) ?_
  refine agrees_bind_any remaining_keeps fun _ => ?_
  exact agrees_bind_nil (agrees_require _ _) (agrees_pure n)

theorem length_putBytes_head {x : Bytes} (h : x.length < 2 ^ 32) :
    putBytes x = beBytes 4 x.length ++ x := by
  rw [putBytes, min_eq_left (by omega)]

theorem keyOfBytes_bytes (k : FieldKey) : keyOfBytes k.bytes = .ok k := by
  obtain ⟨bytes, hvalid⟩ := k
  unfold keyOfBytes
  split_ifs with h
  · cases h
    rfl
  · have hg : grammarKey bytes = .ok () := hvalid.resolve_left h
    unfold FieldKey.new
    split
    · rename_i key hkey
      split at hkey
      · cases hkey
        rfl
      · cases hkey
    · rename_i e he
      split at he
      · cases he
      · rename_i kind hkind
        rw [hg] at hkind
        cases hkind

theorem agrees_key {k : FieldKey} (h : k.bytes.length < 2 ^ 32) :
    Agrees key (putBytes k.bytes) k := by
  refine agrees_bind_any offset_keeps fun at_ => ?_
  rw [length_putBytes_head h]
  refine agrees_bind (agrees_number (by omega)) ?_
  refine agrees_bind_nil (agrees_require _ _) ?_
  refine agrees_bind_last (agrees_take k.bytes _) ?_
  rw [keyOfBytes_bytes]
  exact agrees_pure k

theorem agrees_orderedKey {k : FieldKey} (h : k.bytes.length < 2 ^ 32)
    (previous : Option FieldKey) (allowed : Bool) :
    Agrees (orderedKey previous allowed) (putBytes k.bytes) k := by
  refine agrees_bind_any offset_keeps fun at_ => ?_
  refine agrees_bind_last (agrees_key h) ?_
  refine agrees_bind_nil (agrees_require _ _) ?_
  exact agrees_bind_nil (agrees_require _ _) (agrees_pure k)

theorem agrees_value {limits : Limits} {v : Bytes} (h : v.length < 2 ^ 32) :
    Agrees (value limits) (putBytes v) v := by
  refine agrees_bind_any offset_keeps fun at_ => ?_
  rw [length_putBytes_head h]
  refine agrees_bind (agrees_number (by omega)) ?_
  exact agrees_bind_nil (agrees_require _ _) (agrees_take v _)

/-- The lengths of a register fit the layout. -/
structure FitsRegister (reg : Register) : Prop where
  key : reg.key.bytes.length < 2 ^ 32
  entries : reg.entries.length ≤ 65535
  values : ∀ e ∈ reg.entries, e.value.length < 2 ^ 32

theorem agrees_entries {limits : Limits} {k : FieldKey} {covered : VersionVector}
    {context : Option VersionVector} (es : List Entry)
    (h : ∀ e ∈ es, e.value.length < 2 ^ 32) (previous : Option Dot) :
    Agrees (entries limits k covered context es.length previous) (es.flatMap putEntry) es := by
  induction es generalizing previous with
  | nil => exact agrees_pure []
  | cons e es ih =>
    rw [List.flatMap_cons, putEntry, List.append_assoc, List.append_assoc]
    refine agrees_bind_any offset_keeps fun at_ => ?_
    refine agrees_bind (agrees_dot e.dot) ?_
    refine agrees_bind_nil (agrees_require _ _) ?_
    refine agrees_bind_nil (agrees_require _ _) ?_
    refine agrees_bind_nil (agrees_require _ _) ?_
    refine agrees_bind (agrees_hlc e.hlc) ?_
    refine agrees_bind_any offset_keeps fun valueAt => ?_
    refine agrees_bind (agrees_value (h e List.mem_cons_self)) ?_
    refine agrees_bind_nil (agrees_require _ _) ?_
    exact agrees_map (fun rest => (⟨e.dot, e.hlc, e.value⟩ : Entry) :: rest)
      (ih (fun e' he' => h e' (List.mem_cons_of_mem _ he')) (some e.dot))

theorem agrees_register {limits : Limits} {group : Group} {covered : VersionVector}
    {context : Option VersionVector} {reg : Register} (h : FitsRegister reg)
    (previous : Option FieldKey) :
    Agrees (register limits group previous covered context) (putRegister reg) reg := by
  refine agrees_bind (agrees_orderedKey h.key previous _) ?_
  refine agrees_bind_any offset_keeps fun at_ => ?_
  refine agrees_bind (agrees_count h.entries) ?_
  refine agrees_bind_nil (agrees_require _ _) ?_
  exact agrees_map (fun es => (⟨reg.key, es⟩ : Register)) (agrees_entries reg.entries h.values none)

theorem agrees_currentRegisters {limits : Limits} {covered : VersionVector} (regs : List Register)
    (h : ∀ reg ∈ regs, FitsRegister reg) (previous : Option FieldKey) :
    Agrees (currentRegisters limits covered regs.length previous)
      (regs.flatMap putRegister) regs := by
  induction regs generalizing previous with
  | nil => exact agrees_pure []
  | cons reg regs ih =>
    refine agrees_bind_any offset_keeps fun at_ => ?_
    refine agrees_bind (agrees_register (h reg List.mem_cons_self) previous) ?_
    refine agrees_bind_nil (agrees_require _ _) ?_
    exact agrees_map (fun rest => reg :: rest)
      (ih (fun r hr => h r (List.mem_cons_of_mem _ hr)) (some reg.key))

theorem agrees_historyGroups {limits : Limits} {covered : VersionVector}
    {registers : List Register} (regs : List Register) (h : ∀ reg ∈ regs, FitsRegister reg)
    (previous : Option FieldKey) :
    Agrees (historyGroups limits covered registers regs.length previous)
      (regs.flatMap putRegister) regs := by
  induction regs generalizing previous with
  | nil => exact agrees_pure []
  | cons reg regs ih =>
    refine agrees_bind_any offset_keeps fun at_ => ?_
    refine agrees_bind (agrees_register (h reg List.mem_cons_self) previous) ?_
    refine agrees_bind_any (fun cur r hr => ?_) fun current => ?_
    · unfold Parser.ofOption at hr
      split at hr
      · cases hr
        rfl
      · cases hr
    refine agrees_bind_nil (agrees_require _ _) ?_
    exact agrees_map (fun rest => reg :: rest)
      (ih (fun r hr => h r (List.mem_cons_of_mem _ hr)) (some reg.key))

theorem agrees_lateRegisters {limits : Limits} {covered context : VersionVector}
    (regs : List Register) (h : ∀ reg ∈ regs, FitsRegister reg) (previous : Option FieldKey) :
    Agrees (lateRegisters limits covered context regs.length previous)
      (regs.flatMap putRegister) regs := by
  induction regs generalizing previous with
  | nil => exact agrees_pure []
  | cons reg regs ih =>
    refine agrees_bind (agrees_register (h reg List.mem_cons_self) previous) ?_
    exact agrees_map (fun rest => reg :: rest)
      (ih (fun r hr => h r (List.mem_cons_of_mem _ hr)) (some reg.key))

/-- The counts and lengths of a snapshot fit the layout. -/
def FitsSnapshot : SnapshotData → Prop
  | .live live =>
    live.registers.length ≤ 65535 ∧ (∀ reg ∈ live.registers, FitsRegister reg) ∧
      live.history.length ≤ 65535 ∧ ∀ reg ∈ live.history, FitsRegister reg
  | .tombstone t =>
    t.context.dots.length ≤ 65535 ∧ t.late.length ≤ 65535 ∧ ∀ reg ∈ t.late, FitsRegister reg

theorem agrees_live {limits : Limits} {covered : VersionVector} {l : LiveSnapshot}
    (h : FitsSnapshot (.live l)) :
    Agrees (live limits covered) (putRegisters l.registers ++ putRegisters l.history) l := by
  obtain ⟨hr, hreg, hh, hhist⟩ := h
  rw [putRegisters, putRegisters, List.append_assoc]
  refine agrees_bind_any offset_keeps fun at_ => ?_
  refine agrees_bind (agrees_count hr) ?_
  refine agrees_bind_nil (agrees_require _ _) ?_
  refine agrees_bind (agrees_currentRegisters l.registers hreg none) ?_
  refine agrees_bind (agrees_count hh) ?_
  refine agrees_bind_last (agrees_historyGroups l.history hhist none) ?_
  exact agrees_bind_nil agrees_finish (agrees_pure l)

theorem agrees_tombstone {limits : Limits} {covered : VersionVector} {t : Tombstone}
    (h : FitsSnapshot (.tombstone t)) :
    Agrees (tombstone limits covered) (putDot t.purgeDot ++ (putHlc t.purgeHlc ++
      (putVv t.context ++ (idBytes t.itemKeyId ++ putRegisters t.late)))) t := by
  obtain ⟨hc, hl, hlate⟩ := h
  refine agrees_bind_any offset_keeps fun at_ => ?_
  refine agrees_bind (agrees_dot t.purgeDot) ?_
  refine agrees_bind_nil (agrees_require _ _) ?_
  refine agrees_bind (agrees_hlc t.purgeHlc) ?_
  refine agrees_bind_any offset_keeps fun at_' => ?_
  refine agrees_bind (agrees_vv hc) ?_
  cases t.context.dots.findIdx? fun d => ¬ covered.covers d with
  | some i =>
    intro rest len r hr
    cases hr
  | none =>
    have hid := agrees_takeAt (idBytes t.itemKeyId) 0
    rw [length_idBytes] at hid
    rw [putRegisters]
    refine agrees_bind hid ?_
    refine agrees_bind (agrees_count hl) ?_
    refine agrees_bind_last (agrees_lateRegisters t.late hlate none) ?_
    have hpure := agrees_pure (β := Byte) (ε := RecordError) t
    rw [idOfBytes_idBytes]
    exact agrees_bind_nil agrees_finish hpure

/-! ### Sizes -/

/-- The limits are within the layout's 16-bit counts and 32-bit lengths. -/
structure Limits.Fit (limits : Limits) : Prop where
  value : limits.value < 2 ^ 32
  groups : limits.groups ≤ 65535
  values : limits.values ≤ 65535

theorem fit_v1 : Limits.Fit Limits.v1 := ⟨by decide, by decide, by decide⟩

theorem length_bytes_le (k : FieldKey) : k.bytes.length ≤ 160 := by
  obtain ⟨bytes, hvalid⟩ := k
  rcases hvalid with h | h
  · subst h
    decide
  · by_contra hlen
    have hlen' : maxKeyLen < bytes.length := not_le.mp hlen
    simp [grammarKey, parseKey, hlen'] at h

theorem sizer_bind_ok {α γ : Type} {p : Sizer α} {f : α → Sizer γ} {n : ℕ} {r : γ × ℕ}
    (h : (p >>= f) n = .ok r) : ∃ x m, p n = .ok (x, m) ∧ f x m = .ok r := by
  cases hp : p n with
  | error e =>
    simp only [bind, StateT.bind, hp, Except.bind] at h
    cases h
  | ok r' =>
    simp only [bind, StateT.bind, hp, Except.bind] at h
    exact ⟨r'.1, r'.2, rfl, h⟩

theorem sizer_forM_ok {α : Type} {f : α → Sizer Unit} (l : List α) {n : ℕ} {r : Unit × ℕ}
    (h : l.forM f n = .ok r) : ∀ x ∈ l, ∃ m r', f x m = .ok r' := by
  induction l generalizing n with
  | nil => simp
  | cons a l ih =>
    obtain ⟨_, m, ha, hl⟩ := sizer_bind_ok h
    intro x hx
    rcases List.mem_cons.mp hx with rfl | hx
    · exact ⟨n, _, ha⟩
    · exact ih hl x hx

theorem le_of_sizer_count {n max m : ℕ} {r : Unit × ℕ} (h : Sizer.count n max m = .ok r) :
    n ≤ max := by
  unfold Sizer.count at h
  split_ifs at h with hn
  exact not_lt.mp hn

theorem le_of_sizer_value {limits : Limits} {v : Bytes} {m : ℕ} {r : Unit × ℕ}
    (h : Sizer.value limits v m = .ok r) : v.length ≤ limits.value := by
  unfold Sizer.value at h
  split_ifs at h with hv
  exact not_lt.mp hv

theorem fitsRegister_of_sizer {limits : Limits} (hlim : Limits.Fit limits) {reg : Register}
    {m : ℕ} {r : Unit × ℕ} (h : Sizer.register limits reg m = .ok r) : FitsRegister reg := by
  obtain ⟨_, m₁, -, h⟩ := sizer_bind_ok h
  obtain ⟨_, m₂, hcount, h⟩ := sizer_bind_ok h
  refine ⟨(length_bytes_le reg.key).trans_lt (by norm_num),
    (le_of_sizer_count hcount).trans hlim.values, fun e he => ?_⟩
  obtain ⟨m', r', he⟩ := sizer_forM_ok _ h e he
  obtain ⟨_, m'', -, hv⟩ := sizer_bind_ok he
  exact (le_of_sizer_value hv).trans_lt hlim.value

theorem fitsRegisters_of_sizer {limits : Limits} (hlim : Limits.Fit limits) {regs : List Register}
    {m : ℕ} {r : Unit × ℕ} (h : Sizer.registers limits regs m = .ok r) :
    regs.length ≤ 65535 ∧ ∀ reg ∈ regs, FitsRegister reg := by
  obtain ⟨_, m₁, hcount, h⟩ := sizer_bind_ok h
  refine ⟨(le_of_sizer_count hcount).trans hlim.groups, fun reg hreg => ?_⟩
  obtain ⟨m', r', hr⟩ := sizer_forM_ok _ h reg hreg
  exact fitsRegister_of_sizer hlim hr

theorem le_of_sizer_vv {v : VersionVector} {m : ℕ} {r : Unit × ℕ} (h : Sizer.vv v m = .ok r) :
    v.dots.length ≤ 65535 := by
  unfold Sizer.vv at h
  split_ifs at h with hv
  exact not_lt.mp hv

/-- What the sizer accepts fits the layout. -/
theorem fitsSnapshot_of_snapshotLen {limits : Limits} (hlim : Limits.Fit limits)
    {d : SnapshotData} {n : ℕ} (h : snapshotLen d limits = .ok n) : FitsSnapshot d := by
  unfold snapshotLen at h
  cases d with
  | live l =>
    simp only at h
    cases hs : (do
        Sizer.registers limits l.registers
        Sizer.registers limits l.history : Sizer Unit) 1 with
    | error e =>
      rw [hs] at h
      cases h
    | ok r =>
      obtain ⟨_, m, hr, hh⟩ := sizer_bind_ok hs
      obtain ⟨hr, hreg⟩ := fitsRegisters_of_sizer hlim hr
      obtain ⟨hh, hhist⟩ := fitsRegisters_of_sizer hlim hh
      exact ⟨hr, hreg, hh, hhist⟩
  | tombstone t =>
    simp only at h
    cases hs : (do
        Sizer.add (dotLen + 8)
        Sizer.vv t.context
        Sizer.add 16
        Sizer.registers limits t.late : Sizer Unit) 1 with
    | error e =>
      rw [hs] at h
      cases h
    | ok r =>
      obtain ⟨_, m₁, -, hs⟩ := sizer_bind_ok hs
      obtain ⟨_, m₂, hvv, hs⟩ := sizer_bind_ok hs
      obtain ⟨_, m₃, -, hs⟩ := sizer_bind_ok hs
      obtain ⟨hl, hlate⟩ := fitsRegisters_of_sizer hlim hs
      exact ⟨le_of_sizer_vv hvv, hl, hlate⟩

theorem agrees_snapshot (limits : Limits) (covered : VersionVector) {d : SnapshotData}
    (hfit : FitsSnapshot d) :
    Agrees (do
      let kind ← u8
      if kind = kindLiveSnapshot then return .live (← live limits covered)
      else if kind = kindTombstone then return .tombstone (← tombstone limits covered)
      else throw ⟨.wrongKind, 0⟩ : RecordParser SnapshotData) (putSnapshot d) d := by
  cases d with
  | live l =>
    refine agrees_bind (agrees_number (by decide)) ?_
    exact agrees_map SnapshotData.live (agrees_live hfit)
  | tombstone t =>
    refine agrees_bind (agrees_number (by decide)) ?_
    exact agrees_map SnapshotData.tombstone (agrees_tombstone hfit)

/-- If the parser accepts what was written for a snapshot, it returns the snapshot. -/
theorem snapshotWith_putSnapshot {limits : Limits} {covered : VersionVector} {d d' : SnapshotData}
    (hfit : FitsSnapshot d) (h : snapshotWith covered (putSnapshot d) limits = .ok d') :
    d' = d := by
  unfold snapshotWith at h
  split_ifs at h
  have hagrees := agrees_snapshot limits covered hfit [] (putSnapshot d).length
  rw [List.append_nil] at hagrees
  revert h
  dsimp only
  generalize (do
      let kind ← u8
      if kind = kindLiveSnapshot then return .live (← live limits covered)
      else if kind = kindTombstone then return .tombstone (← tombstone limits covered)
      else throw ⟨.wrongKind, 0⟩ : RecordParser SnapshotData)
    ⟨putSnapshot d, (putSnapshot d).length⟩ = out at hagrees ⊢
  intro h
  cases out with
  | error e => cases h
  | ok r =>
    cases h
    exact congrArg Prod.fst (hagrees r rfl)

/-- An encoded snapshot parses to itself. -/
theorem parseSnapshot_of_encodeSnapshot {covered : VersionVector} {d : SnapshotData} {out : Bytes}
    (h : encodeSnapshot covered d = .ok out) : parseSnapshot covered out = .ok d := by
  unfold encodeSnapshot at h
  cases hlen : snapshotLen d Limits.v1 with
  | error e =>
    rw [hlen] at h
    cases h
  | ok n =>
    rw [hlen] at h
    cases hparse : snapshotWith covered (putSnapshot d) Limits.v1 with
    | error e =>
      simp only [bind, Except.bind, hparse] at h
      cases h
    | ok d' =>
      simp only [bind, Except.bind, hparse] at h
      cases h
      rw [parseSnapshot, hparse,
        snapshotWith_putSnapshot (fitsSnapshot_of_snapshotLen fit_v1 hlen) hparse]

end RizzyVault.Sync.Record
