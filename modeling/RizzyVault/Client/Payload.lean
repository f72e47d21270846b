import RizzyVault.Core.ReaderGrammar
import RizzyVault.Sync.HeaderCodec
import RizzyVault.Sync.Record.Bijection

/-!
# The export payload

The plaintext of an encrypted export: the live items of a vault, ascending by id, each with its
covered vector and the data of its live snapshot. The writer computes the length first and reads
its own output back; the reader checks the announced number of entries against the input before it
reads one.

## Main definitions

* `encodePayload`, `parsePayload`.

## Main results

* `parsePayload_eq_ok_iff`: what the reader accepts is the layout of entries that keep the rules.
* `payload_codec`: the writer and the reader undo each other, and the early check refuses nothing.

## References

* `crates/rizzy-client/src/export/payload.rs`, `crates/rizzy-sync/src/vv.rs`.
-/

open RizzyVault.Core RizzyVault.Lib RizzyVault.Sync

namespace RizzyVault.Client.Export

open Record (idBytes idOfBytes putSnapshot putVv)

def payloadVersion : ℕ := 1

def maxPayloadLen : ℕ := 16 * 1024 * 1024

def maxPayloadEntries : ℕ := 1048576

/-- The length of an entry's id, schema version, vector count and data length. -/
def entryFixedLen : ℕ := 24

def itemSchemaVersion : ℕ := 1

/-- Why a payload was not written or not read. -/
inductive ClientError
  | invalidInput
  | invalidExportFile
  | exportUpdateRequired
  | exportTooLarge
  deriving DecidableEq

/-- An item to write: its id, the vector its state covers and the data of its live snapshot. -/
structure PayloadItem where
  itemId : ItemId
  covered : VersionVector
  data : Bytes

/-- An item that was read. -/
structure PayloadEntry where
  itemId : ItemId
  covered : VersionVector
  snapshot : LiveSnapshot

/-- The item of an entry, its state encoded again. -/
def PayloadEntry.toItem (entry : PayloadEntry) : Except RecordError PayloadItem := do
  return ⟨entry.itemId, entry.covered,
    ← Record.encodeSnapshot entry.covered (.live entry.snapshot)⟩

/-! ### Reading -/

abbrev PayloadParser := Parser Byte ClientError

/-- A read whose every failure is an invalid file. -/
def orInvalid {ε α : Type} (p : Parser Byte ε α) : PayloadParser α :=
  p.mapError fun _ => .invalidExportFile

/-- One entry, whose id is above the one before. -/
def readEntry (previous : Option Bytes) : PayloadParser PayloadEntry := do
  let id ← orInvalid (Reader.take 16)
  Parser.require (previous.all fun p => p < id) .invalidExportFile
  let version ← orInvalid Reader.u16
  Parser.require (version = itemSchemaVersion) .invalidExportFile
  let covered ← orInvalid Record.vv
  let data ← orInvalid (Reader.bytesMax Limits.v1.snapshotData)
  match Record.parseSnapshot covered data with
  | .ok (.live snapshot) => return ⟨idOfBytes .item id, covered, snapshot⟩
  | _ => throw .invalidExportFile

def readEntries : ℕ → Option Bytes → PayloadParser (List PayloadEntry)
  | 0, _ => return []
  | n + 1, previous => do
    let entry ← readEntry previous
    return entry :: (← readEntries n (some (idBytes entry.itemId)))

/-- Whether `count` entries may be in `remaining` bytes. -/
def countFits (count remaining : ℕ) : Bool :=
  count ≤ maxPayloadEntries ∧ count * entryFixedLen ≤ remaining

/-- The reader, with `fits` as the check of the number of entries. -/
def parsePayloadWith (fits : ℕ → ℕ → Bool) (payload : Bytes) :
    Except ClientError (List PayloadEntry) :=
  if maxPayloadLen < payload.length then .error .invalidExportFile
  else
    let p : PayloadParser (List PayloadEntry) := do
      let version ← orInvalid Reader.u16
      Parser.require (version = payloadVersion) .exportUpdateRequired
      let count ← orInvalid Reader.u32
      let remaining ← Parser.remaining
      Parser.require (fits count remaining) .invalidExportFile
      let entries ← readEntries count none
      orInvalid Reader.finish
      return entries
    (p ⟨payload, payload.length⟩).map Prod.fst

def parsePayload (payload : Bytes) : Except ClientError (List PayloadEntry) :=
  parsePayloadWith countFits payload

/-! ### Writing -/

/-- The largest length. -/
def usizeMax : ℕ := 2 ^ 64 - 1

def saturatingAdd (a b : ℕ) : ℕ := min (a + b) usizeMax

def saturatingMul (a b : ℕ) : ℕ := min (a * b) usizeMax

def encodedLen (vv : VersionVector) : ℕ :=
  saturatingAdd (saturatingMul vv.dots.length Record.dotLen) 2

/-- The length the writer computes before it writes. -/
def payloadLen (items : List PayloadItem) : ℕ :=
  items.foldl (fun len item =>
    saturatingAdd (saturatingAdd (saturatingAdd len (entryFixedLen - 2)) (encodedLen item.covered))
      item.data.length) 6

def writeItem (out : Bytes) (item : PayloadItem) : Except ClientError Bytes := do
  if 2 ^ 32 ≤ item.data.length then throw .invalidInput
  let covered ← item.covered.encode.mapError fun _ => .invalidInput
  return out ++ idBytes item.itemId ++ beBytes 2 itemSchemaVersion ++ covered ++
    beBytes 4 item.data.length ++ item.data

/-- Writes a payload and reads it back. -/
def encodePayload (items : List PayloadItem) : Except ClientError Bytes := do
  if ¬ (items.length < 2 ^ 32 ∧ items.length ≤ maxPayloadEntries) then throw .exportTooLarge
  let len := payloadLen items
  if maxPayloadLen < len then throw .exportTooLarge
  let out ← items.foldlM writeItem (beBytes 2 payloadVersion ++ beBytes 4 items.length)
  if out.length ≠ len ∨ ¬ (parsePayload out).isOk then throw .invalidInput
  return out

/-! ### What the reader accepts -/

/-- The rules of an entry: its vector can be written, and its state keeps the rules of snapshots. -/
structure EntryRules (entry : PayloadEntry) : Prop where
  covered : entry.covered.dots.length < 2 ^ 16
  snapshot : Record.SnapshotRules Limits.v1 entry.covered (.live entry.snapshot)

/-- The layout of an entry. -/
def putPayloadEntry (entry : PayloadEntry) : Bytes :=
  idBytes entry.itemId ++ (beBytes 2 itemSchemaVersion ++ (putVv entry.covered ++
    putBytes (putSnapshot (.live entry.snapshot))))

/-- The layout of a payload. -/
def putPayload (entries : List PayloadEntry) : Bytes :=
  beBytes 2 payloadVersion ++ (beBytes 4 entries.length ++ entries.flatMap putPayloadEntry)

theorem parses_readEntry (previous : Option Bytes) :
    Parses Set.univ (readEntry previous) fun bs entry =>
      (∀ p ∈ previous, p < idBytes entry.itemId) ∧ EntryRules entry ∧ (previous = none → True) ∧
        bs = putPayloadEntry entry := by
  apply Parses.congr
  · apply parses_bind (parses_mapError _ (parses_take 16 _))
    intro id
    apply parses_require
    apply parses_bind (parses_mapError _ (Reader.parses_number 2))
    intro version
    apply parses_require
    apply parses_bind (parses_mapError _ Record.parses_vv)
    intro covered
    apply parses_bind (parses_mapError _ (Reader.parses_bytesMax (by decide)))
    intro data
    have hmatch : Parses Set.univ (match Record.parseSnapshot covered data with
        | .ok (.live snapshot) => return ⟨idOfBytes .item id, covered, snapshot⟩
        | _ => throw .invalidExportFile : PayloadParser PayloadEntry) fun bs entry =>
          (∃ snapshot, Record.parseSnapshot covered data = .ok (.live snapshot) ∧
            entry = ⟨idOfBytes .item id, covered, snapshot⟩) ∧ bs = [] := by
      split
      · rename_i snapshot hsnapshot
        refine (parses_pure _).congr fun bs entry => ?_
        simp [hsnapshot, and_comm]
      · rename_i hno
        refine (parses_throw _).congr fun bs entry => ?_
        simp only [false_iff, not_and]
        rintro ⟨snapshot, hsnapshot, -⟩
        exact absurd hsnapshot (hno snapshot)
    exact hmatch
  intro bs entry
  simp only [option_all_iff, decide_eq_true_eq, Record.parse_eq_ok_iff_rules.2]
  constructor
  · rintro ⟨_, _, id, ⟨hid, rfl⟩, ⟨hprev, _, _, version, ⟨-, rfl⟩, ⟨rfl, _, _, covered, ⟨hc, rfl⟩,
      ⟨_, _, data, ⟨-, rfl⟩, ⟨⟨snapshot, ⟨hrules, rfl⟩, rfl⟩, rfl⟩, rfl⟩, rfl⟩, rfl⟩, rfl⟩
    have hid' := Record.idBytes_idOfBytes (κ := .item) hid
    exact ⟨by rwa [hid'], ⟨hc, hrules⟩, fun _ => trivial, by rw [putPayloadEntry, hid', List.append_nil]⟩
  · rintro ⟨hprev, ⟨hc, hrules⟩, -, rfl⟩
    refine ⟨_, _, idBytes entry.itemId, ⟨Record.length_idBytes _, rfl⟩, ⟨hprev, _, _, _,
      ⟨by decide, rfl⟩, ⟨rfl, _, _, entry.covered, ⟨hc, rfl⟩, ⟨_, _, _, ⟨hrules.length, rfl⟩,
      ⟨⟨entry.snapshot, ⟨hrules, rfl⟩, ?_⟩, rfl⟩, rfl⟩, rfl⟩, rfl⟩, ?_⟩
    · rw [Record.idOfBytes_idBytes]
    · rw [List.append_nil, putPayloadEntry]

theorem parses_readEntries (n : ℕ) :
    Parses Set.univ (readEntries n none) fun bs l =>
      l.length = n ∧ (l.Pairwise fun a b => idBytes a.itemId < idBytes b.itemId) ∧
        (∀ entry ∈ l, EntryRules entry) ∧ bs = l.flatMap putPayloadEntry := by
  refine (parses_loop (· < ·) (fun entry : PayloadEntry => idBytes entry.itemId) readEntries
    readEntry (fun _ => rfl) (fun _ _ => rfl) parses_readEntry n none).congr fun bs l => ?_
  simp [ascends_none]

theorem length_putPayloadEntry (entry : PayloadEntry) : (putPayloadEntry entry).length =
    22 + (putVv entry.covered).length + (putSnapshot (.live entry.snapshot)).length := by
  simp only [putPayloadEntry, putBytes, List.length_append, Record.length_idBytes, length_beBytes]
  omega

theorem length_putPayloadEntry_ge (entry : PayloadEntry) :
    entryFixedLen ≤ (putPayloadEntry entry).length := by
  rw [length_putPayloadEntry, Record.length_putVv, entryFixedLen]
  omega

/-- The rules of a payload: every entry keeps its rules, the ids ascend, and the layout fits. -/
structure PayloadRules (entries : List PayloadEntry) : Prop where
  rules : ∀ entry ∈ entries, EntryRules entry
  ascending : entries.Pairwise fun a b => idBytes a.itemId < idBytes b.itemId
  length : (putPayload entries).length ≤ maxPayloadLen

/-- Entries that fit the limit are as many as the early check lets pass. -/
theorem countFits_of_length {entries : List PayloadEntry}
    (h : (putPayload entries).length ≤ maxPayloadLen) :
    countFits entries.length (entries.flatMap putPayloadEntry).length = true := by
  have hge := Record.length_flatMap_ge entries fun entry _ => length_putPayloadEntry_ge entry
  simp only [putPayload, List.length_append, length_beBytes, maxPayloadLen] at h
  rw [entryFixedLen] at hge
  refine decide_eq_true ⟨?_, ?_⟩
  · rw [maxPayloadEntries]
    omega
  · rw [entryFixedLen]
    omega

/-- With or without the early check, the reader accepts exactly the layouts of the payloads that
keep the rules. -/
theorem parsePayloadWith_eq_ok_iff {fits : ℕ → ℕ → Bool}
    (hfits : ∀ n r, countFits n r = true → fits n r = true) {payload : Bytes}
    {entries : List PayloadEntry} : parsePayloadWith fits payload = .ok entries ↔
      PayloadRules entries ∧ payload = putPayload entries := by
  have hparse : Parses {[]} (do
      let version ← orInvalid Reader.u16
      Parser.require (version = payloadVersion) .exportUpdateRequired
      let count ← orInvalid Reader.u32
      let remaining ← Parser.remaining
      Parser.require (fits count remaining) .invalidExportFile
      let entries ← readEntries count none
      orInvalid Reader.finish
      return entries : PayloadParser (List PayloadEntry)) fun bs l =>
        (fits l.length (l.flatMap putPayloadEntry).length = true ∧ l.length < 256 ^ 4) ∧
          (∀ entry ∈ l, EntryRules entry) ∧
            (l.Pairwise fun a b => idBytes a.itemId < idBytes b.itemId) ∧ bs = putPayload l := by
    apply Parses.congr
    · apply parses_bind (parses_mapError _ (Reader.parses_number 2))
      intro version
      apply parses_require
      apply parses_bind (parses_mapError _ (Reader.parses_number 4))
      intro count
      apply parses_remaining_end (c := fits count)
      apply parses_bind (parses_readEntries count)
      intro entries
      apply Reader.parses_finish
    intro bs l
    simp only [decide_eq_true_eq]
    constructor
    · rintro ⟨_, _, _, ⟨-, rfl⟩, ⟨rfl, _, _, count, ⟨hc, rfl⟩, ⟨hf, _, _, entries,
        ⟨rfl, hasc, hrules, rfl⟩, ⟨rfl, rfl⟩, rfl⟩, rfl⟩, rfl⟩
      rw [List.append_nil] at hf
      exact ⟨⟨hf, hc⟩, hrules, hasc, by rw [putPayload, List.append_nil]⟩
    · rintro ⟨⟨hf, hc⟩, hrules, hasc, rfl⟩
      refine ⟨_, _, _, ⟨by decide, rfl⟩, ⟨rfl, _, _, _, ⟨hc, rfl⟩, ⟨?_, _, _, l,
        ⟨rfl, hasc, hrules, rfl⟩, ⟨rfl, rfl⟩, rfl⟩, rfl⟩, ?_⟩
      · rwa [List.append_nil]
      · rw [putPayload, List.append_nil]
  rw [parsePayloadWith]
  split_ifs with hlen
  · refine iff_of_false (fun h => by cases h) ?_
    rintro ⟨hrules, rfl⟩
    exact absurd hrules.length (not_le.mpr hlen)
  · rw [hparse.run_eq_ok_iff]
    constructor
    · rintro ⟨-, hrules, hasc, rfl⟩
      exact ⟨⟨hrules, hasc, not_lt.mp hlen⟩, rfl⟩
    · rintro ⟨hrules, rfl⟩
      have hfit := countFits_of_length hrules.length
      have hcount : entries.length ≤ maxPayloadEntries := (of_decide_eq_true hfit).1
      exact ⟨⟨hfits _ _ hfit, hcount.trans_lt (by norm_num [maxPayloadEntries])⟩, hrules.rules,
        hrules.ascending, rfl⟩

/-! ### What the writer writes -/

namespace PayloadItem

/-- The bounds of an item that can be written. -/
structure Fits (item : PayloadItem) : Prop where
  covered : item.covered.dots.length < 2 ^ 16
  data : item.data.length < 2 ^ 32

/-- The layout of an item. -/
def put (item : PayloadItem) : Bytes :=
  idBytes item.itemId ++ (beBytes 2 itemSchemaVersion ++ (putVv item.covered ++ putBytes item.data))

theorem length_put (item : PayloadItem) :
    item.put.length = 22 + (24 * item.covered.dots.length + 2) + item.data.length := by
  simp only [put, putBytes, List.length_append, Record.length_idBytes, length_beBytes,
    Record.length_putVv, Record.dotLen]
  omega

/-- An item is determined by its layout, whatever follows. -/
theorem parses_put : Parses Set.univ (do
    let id ← orInvalid (Reader.take 16)
    let version ← orInvalid Reader.u16
    Parser.require (version = itemSchemaVersion) .invalidExportFile
    let covered ← orInvalid Record.vv
    let data ← orInvalid (Reader.bytesMax (2 ^ 32 - 1))
    return (⟨idOfBytes .item id, covered, data⟩ : PayloadItem)) fun bs item =>
      item.Fits ∧ bs = item.put := by
  apply Parses.congr
  · apply parses_bind (parses_mapError _ (parses_take 16 _))
    intro id
    apply parses_bind (parses_mapError _ (Reader.parses_number 2))
    intro version
    apply parses_require
    apply parses_bind (parses_mapError _ Record.parses_vv)
    intro covered
    exact parses_map (fun data => (⟨idOfBytes .item id, covered, data⟩ : PayloadItem))
      (parses_mapError _ (Reader.parses_bytesMax (by decide)))
  intro bs item
  simp only [decide_eq_true_eq]
  constructor
  · rintro ⟨_, _, id, ⟨hid, rfl⟩, ⟨_, _, _, ⟨-, rfl⟩, ⟨rfl, _, _, covered, ⟨hc, rfl⟩,
      ⟨data, ⟨hd, rfl⟩, rfl⟩, rfl⟩, rfl⟩, rfl⟩
    exact ⟨⟨hc, Nat.lt_of_le_pred (by norm_num) hd⟩, by rw [put, Record.idBytes_idOfBytes hid]⟩
  · rintro ⟨hfits, rfl⟩
    refine ⟨_, _, idBytes item.itemId, ⟨Record.length_idBytes _, rfl⟩, ⟨_, _, _, ⟨by decide, rfl⟩,
      ⟨rfl, _, _, _, ⟨hfits.covered, rfl⟩, ⟨item.data, ⟨Nat.le_pred_of_lt hfits.data, rfl⟩, ?_⟩,
      rfl⟩, rfl⟩, rfl⟩
    rw [Record.idOfBytes_idBytes]

end PayloadItem

theorem writeItem_eq_ok_iff {out out' : Bytes} {item : PayloadItem} :
    writeItem out item = .ok out' ↔ item.Fits ∧ out' = out ++ item.put := by
  rw [writeItem, ite_throw_eq_ok, except_bind_eq_ok]
  simp only [VersionVector.encode]
  constructor
  · rintro ⟨hdata, covered, hcovered, hout⟩
    split_ifs at hcovered with hmax
    · cases hcovered
    obtain rfl : putVv item.covered = covered := Except.ok.inj hcovered
    cases hout
    refine ⟨⟨Nat.lt_succ_of_le (not_lt.mp hmax), not_le.mp hdata⟩, ?_⟩
    simp only [PayloadItem.put, putBytes, List.append_assoc]
  · rintro ⟨⟨hcovered, hdata⟩, rfl⟩
    have hmax : ¬ VersionVector.maxEntries < item.covered.dots.length :=
      not_lt.mpr (Nat.le_of_lt_succ hcovered)
    refine ⟨not_le.mpr hdata, putVv item.covered, ?_, ?_⟩
    · rw [if_neg hmax]
      rfl
    · simp only [PayloadItem.put, putBytes, List.append_assoc]
      rfl

theorem foldlM_writeItem_eq_ok_iff {out out' : Bytes} {items : List PayloadItem} :
    items.foldlM writeItem out = .ok out' ↔
      (∀ item ∈ items, item.Fits) ∧ out' = out ++ items.flatMap PayloadItem.put := by
  induction items generalizing out with
  | nil =>
    rw [List.foldlM_nil, List.flatMap_nil, List.append_nil]
    simp [pure, Except.pure, eq_comm]
  | cons item items ih =>
    rw [List.foldlM_cons, except_bind_eq_ok, List.forall_mem_cons, List.flatMap_cons]
    constructor
    · rintro ⟨mid, hmid, hout⟩
      obtain ⟨hitem, rfl⟩ := writeItem_eq_ok_iff.mp hmid
      obtain ⟨hitems, rfl⟩ := ih.mp hout
      exact ⟨⟨hitem, hitems⟩, List.append_assoc _ _ _⟩
    · rintro ⟨⟨hitem, hitems⟩, rfl⟩
      exact ⟨_, writeItem_eq_ok_iff.mpr ⟨hitem, rfl⟩,
        ih.mpr ⟨hitems, (List.append_assoc _ _ _).symm⟩⟩

/-- The computed length is the length of the layout, as far as 64 bits hold it. -/
theorem payloadLen_eq (items : List PayloadItem) :
    payloadLen items = min (6 + (items.flatMap PayloadItem.put).length) usizeMax := by
  have hfold : ∀ (items : List PayloadItem) (n : ℕ), n ≤ usizeMax →
      items.foldl (fun len item => saturatingAdd (saturatingAdd
        (saturatingAdd len (entryFixedLen - 2)) (encodedLen item.covered)) item.data.length) n =
        min (n + (items.flatMap PayloadItem.put).length) usizeMax := by
    intro items
    induction items with
    | nil =>
      intro n hn
      rw [List.foldl_nil, List.flatMap_nil, List.length_nil, Nat.add_zero, min_eq_left hn]
    | cons item items ih =>
      intro n hn
      have hlen := item.length_put
      have hle : ∀ a b, saturatingAdd a b ≤ usizeMax := fun a b => min_le_right _ _
      rw [List.foldl_cons, List.flatMap_cons, List.length_append, ih _ (hle _ _)]
      simp only [saturatingAdd, encodedLen, saturatingMul, entryFixedLen, Record.dotLen]
      generalize usizeMax = max
      omega
  have hsix : 6 ≤ usizeMax := by norm_num [usizeMax]
  exact hfold items 6 hsix

/-- The layout of what the writer writes. -/
def putItems (items : List PayloadItem) : Bytes :=
  beBytes 2 payloadVersion ++ beBytes 4 items.length ++ items.flatMap PayloadItem.put

theorem length_putItems (items : List PayloadItem) :
    (putItems items).length = 6 + (items.flatMap PayloadItem.put).length := by
  simp only [putItems, List.length_append, length_beBytes]

/-- The check of the written length refuses nothing. -/
theorem length_putItems_eq {items : List PayloadItem} (h : payloadLen items ≤ maxPayloadLen) :
    (putItems items).length = payloadLen items := by
  have hlen := payloadLen_eq items
  have hmax : maxPayloadLen < usizeMax := by norm_num [maxPayloadLen, usizeMax]
  rw [length_putItems]
  omega

/-- Items that fit the limit are as many as a payload may have: each takes at least 24 bytes. -/
theorem length_le_of_payloadLen {items : List PayloadItem} (h : payloadLen items ≤ maxPayloadLen) :
    items.length ≤ maxPayloadEntries := by
  have hitem : ∀ item ∈ items, 24 ≤ item.put.length := fun item _ => by
    rw [item.length_put]
    omega
  have hge := Record.length_flatMap_ge items hitem
  rw [← length_putItems_eq h, length_putItems, maxPayloadLen] at h
  rw [maxPayloadEntries]
  omega

theorem encodePayload_eq_ok_iff {items : List PayloadItem} {out : Bytes} :
    encodePayload items = .ok out ↔ (∀ item ∈ items, item.Fits) ∧ out = putItems items ∧
      payloadLen items ≤ maxPayloadLen ∧ ∃ entries, parsePayload out = .ok entries := by
  have hok : ∀ out, (parsePayload out).isOk = true ↔ ∃ entries, parsePayload out = .ok entries := by
    intro out
    cases parsePayload out <;> simp [Except.isOk, Except.toBool]
  rw [encodePayload, ite_throw_eq_ok]
  simp only
  rw [ite_throw_eq_ok, except_bind_eq_ok]
  simp only [foldlM_writeItem_eq_ok_iff, ite_throw_eq_ok, not_or, not_not, not_lt, hok]
  constructor
  · rintro ⟨-, hlen, _, ⟨hfits, rfl⟩, ⟨-, hparse⟩, hout⟩
    cases hout
    exact ⟨hfits, rfl, hlen, hparse⟩
  · rintro ⟨hfits, rfl, hlen, entries, hparse⟩
    have hcount := length_le_of_payloadLen hlen
    have hlt : items.length < 2 ^ 32 := hcount.trans_lt (by norm_num [maxPayloadEntries])
    exact ⟨⟨hlt, hcount⟩, hlen, _, ⟨hfits, rfl⟩, ⟨length_putItems_eq hlen, entries, hparse⟩, rfl⟩

/-! ### The codec -/

/-- The entry is what the item says: its id, its vector and the state of its data. -/
structure Reads (item : PayloadItem) (entry : PayloadEntry) : Prop where
  itemId : entry.itemId = item.itemId
  covered : entry.covered = item.covered
  snapshot : Record.parseSnapshot item.covered item.data = .ok (.live entry.snapshot)

/-- The item an entry is written from. -/
def PayloadEntry.item (entry : PayloadEntry) : PayloadItem :=
  ⟨entry.itemId, entry.covered, putSnapshot (.live entry.snapshot)⟩

namespace EntryRules

variable {entry : PayloadEntry}

theorem toItem (h : EntryRules entry) : entry.toItem = .ok entry.item := by
  rw [PayloadEntry.toItem, Record.encodeSnapshot_eq_ok_iff.mpr ⟨h.snapshot, rfl⟩]
  rfl

theorem reads (h : EntryRules entry) : Reads entry.item entry :=
  ⟨rfl, rfl, (Record.parse_eq_ok_iff_rules.2 _ _ _).mpr ⟨h.snapshot, rfl⟩⟩

theorem fits (h : EntryRules entry) : entry.item.Fits :=
  ⟨h.covered, h.snapshot.length.trans_lt (by decide)⟩

end EntryRules

theorem putPayload_eq (entries : List PayloadEntry) :
    putPayload entries = putItems (entries.map PayloadEntry.item) := by
  rw [putPayload, putItems, List.length_map, List.flatMap_map, List.append_assoc]
  rfl

/-- The layout of items that can be written determines them. -/
theorem putItems_injective {items items' : List PayloadItem} (h : ∀ item ∈ items, item.Fits)
    (h' : ∀ item ∈ items', item.Fits) (hlen : items.length < 2 ^ 32) (hlen' : items'.length < 2 ^ 32)
    (heq : putItems items = putItems items') : items = items' := by
  simp only [putItems, List.append_assoc] at heq
  have hcount := Reader.parses_number 4
  obtain ⟨hn, hbody⟩ := hcount.unique ⟨hlen, rfl⟩ ⟨hlen', rfl⟩ (List.append_cancel_left heq)
  exact PayloadItem.parses_put.flatMap_injective hn h h' hbody

/-- The writer and the reader undo each other: what the writer accepts is read back item by item
and is as long as the writer computes; what the reader accepts the writer writes again; and the
check of the number of entries refuses no payload that is accepted without it. -/
theorem payload_codec :
    (∀ items out, encodePayload items = .ok out → ∃ entries, parsePayload out = .ok entries ∧
        List.Forall₂ Reads items entries ∧ out.length = payloadLen items) ∧
      (∀ payload entries, parsePayload payload = .ok entries → ∃ items,
        entries.mapM PayloadEntry.toItem = .ok items ∧ encodePayload items = .ok payload) ∧
      ∀ payload entries, parsePayloadWith (fun _ _ => true) payload = .ok entries →
        parsePayload payload = .ok entries := by
  have hparse : ∀ {payload entries}, parsePayload payload = .ok entries ↔
      PayloadRules entries ∧ payload = putPayload entries :=
    parsePayloadWith_eq_ok_iff fun _ _ h => h
  refine ⟨fun items out h => ?_, fun payload entries h => ?_, fun payload entries h => ?_⟩
  · obtain ⟨hfits, rfl, hlen, entries, hentries⟩ := encodePayload_eq_ok_iff.mp h
    obtain ⟨hrules, hput⟩ := hparse.mp hentries
    have hbound : maxPayloadEntries < 2 ^ 32 := by norm_num [maxPayloadEntries]
    have hitems : items.length < 2 ^ 32 := (length_le_of_payloadLen hlen).trans_lt hbound
    have hcount : entries.length ≤ maxPayloadEntries :=
      (of_decide_eq_true (countFits_of_length hrules.length)).1
    have hfits' : ∀ item ∈ entries.map PayloadEntry.item, item.Fits := by
      simp only [List.forall_mem_map]
      exact fun entry hentry => (hrules.rules entry hentry).fits
    rw [putPayload_eq] at hput
    have hsame := putItems_injective hfits hfits' hitems (by rw [List.length_map]; omega) hput
    refine ⟨entries, hentries, ?_, length_putItems_eq hlen⟩
    rw [hsame, List.forall₂_map_left_iff]
    exact List.forall₂_same.mpr fun entry hentry => (hrules.rules entry hentry).reads
  · obtain ⟨hrules, rfl⟩ := hparse.mp h
    refine ⟨entries.map PayloadEntry.item, ?_, ?_⟩
    · exact mapM_eq_ok_map fun entry hentry => (hrules.rules entry hentry).toItem
    · have hlen := hrules.length
      rw [putPayload_eq, length_putItems] at hlen
      refine encodePayload_eq_ok_iff.mpr ⟨?_, putPayload_eq entries, ?_, entries, h⟩
      · simp only [List.forall_mem_map]
        exact fun entry hentry => (hrules.rules entry hentry).fits
      · rw [payloadLen_eq]
        exact (min_le_left _ _).trans hlen
  · exact hparse.mpr ((parsePayloadWith_eq_ok_iff fun _ _ _ => rfl).mp h)

/-- The state of a new item, with its lifecycle alone. -/
def activeState : LiveSnapshot :=
  ⟨[⟨FieldKey.lifecycle, [⟨⟨⟨1⟩, ⟨1, Nat.one_pos, Lib.one_lt_u64⟩⟩, ⟨0⟩, [1]⟩]⟩], []⟩

def activeItem : PayloadItem :=
  ⟨⟨1⟩, .ofDots [⟨⟨1⟩, ⟨1, Nat.one_pos, Lib.one_lt_u64⟩⟩], putSnapshot (.live activeState)⟩

theorem payload_codec_active : ∃ entries, parsePayload (putItems [activeItem]) = .ok entries ∧
    List.Forall₂ Reads [activeItem] entries ∧
      (putItems [activeItem]).length = payloadLen [activeItem] := by
  have hencode : (encodePayload [activeItem]).toOption = some (putItems [activeItem]) := by
    decide +kernel
  exact payload_codec.1 _ _ (toOption_eq_some.mp hencode)

end RizzyVault.Client.Export
