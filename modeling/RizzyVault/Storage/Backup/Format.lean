import RizzyVault.Lib.Grammar
import RizzyVault.Lib.Writer
import RizzyVault.Storage.Backup.File

/-!
# What a backup file says

The bytes of a value, a row, a table and a file, and what the writer and the parser each accept: the
writer appends exactly these bytes, and the parser reads exactly them. Both check the same rules in
a different order: the writer checks rows against the schema and values against their limits, the
parser checks tags, lengths and names.

## Main definitions

* `Within`: the limit of a value.
* `valueBytes`, `rowBytes`, `tableBytes`: the layout.
* `TableWithin`: the rules of a table.

## Main results

* `writes_table`, `parses_table`: both sides of a table.
* `minRowLen_le`: no row is shorter than the smallest row.
-/

open RizzyVault.Lib
open RizzyVault.Core (Byte Bytes)

namespace RizzyVault.Storage

open FileReader

/-! ### The layout -/

/-- A length-prefixed byte string. -/
def prefixed (bytes : Bytes) : Bytes := beBytes 4 bytes.length ++ bytes

/-- The tag of a value. -/
def tagOf : Value → Byte
  | .null => tag.null
  | .integer _ => tag.integer
  | .text _ => tag.text
  | .blob _ => tag.blob

/-- What follows the tag of a value. -/
def payload : Value → Bytes
  | .null => []
  | .integer v => beBytes 8 v.toUInt64.toNat
  | .text t => prefixed (utf8 t)
  | .blob b => prefixed b

def valueBytes (value : Value) : Bytes := tagOf value :: payload value

def rowBytes (row : List Value) : Bytes := row.flatMap valueBytes

def columnBytes (column : Column) : Bytes :=
  prefixed (utf8 column.name) ++ [kindByte column.kind, nullableByte column.nullable]

def tableBytes (spec : TableSpec) (table : TableDump) : Bytes :=
  prefixed (utf8 spec.name) ++ (beBytes 2 spec.columns.length ++
    (spec.columns.flatMap columnBytes ++ (beBytes 8 table.rows.length ++
      table.rows.flatMap rowBytes)))

/-- A text or blob value is within its limit. -/
def Within : Value → Prop
  | .null => True
  | .integer _ => True
  | .text t => t.utf8ByteSize ≤ maxTextLen
  | .blob b => b.length ≤ maxBlobLen

/-- A value fits its column and its limit. -/
def ValueWithin (column : Column) (value : Value) : Prop :=
  fits column value = true ∧ Within value

/-- A dump's table is the one `spec` describes, with a row count of 64 bits and values within their
limits. -/
structure TableWithin (spec : TableSpec) (table : TableDump) : Prop where
  name : table.table = spec.name
  count : table.rows.length < 2 ^ 64
  rows : ∀ row ∈ table.rows, List.Forall₂ ValueWithin spec.columns row

/-! ### Lengths -/

theorem length_prefixed (bytes : Bytes) : (prefixed bytes).length = 4 + bytes.length := by
  rw [prefixed, List.length_append, length_beBytes]

theorem length_le_of_validName {name : Bytes} (h : validName name = true) :
    name.length ≤ maxNameLen := by
  simp only [validName, Bool.and_eq_true, decide_eq_true_eq] at h
  exact h.1.2

theorem minValueLen_le {column : Column} {value : Value} (h : fits column value = true) :
    minValueLen column ≤ (valueBytes value).length := by
  obtain ⟨name, kind, nullable⟩ := column
  cases value with
  | null =>
    obtain rfl : nullable = true := h
    exact le_rfl
  | integer v =>
    obtain rfl : kind = .integer := of_decide_eq_true h
    cases nullable <;> simp [minValueLen, valueBytes, payload, length_beBytes]
  | text t =>
    obtain rfl : kind = .text := of_decide_eq_true h
    cases nullable <;> simp [minValueLen, valueBytes, payload, length_prefixed]
  | blob b =>
    obtain rfl : kind = .blob := of_decide_eq_true h
    cases nullable <;> simp [minValueLen, valueBytes, payload, length_prefixed]

/-- No row is shorter than the smallest row. -/
theorem minRowLen_le {columns : List Column} {row : List Value}
    (h : List.Forall₂ ValueWithin columns row) : minRowLen columns ≤ (rowBytes row).length := by
  induction h with
  | nil => exact le_rfl
  | cons hvalue _ ih =>
    simp only [minRowLen, rowBytes, List.map_cons, List.sum_cons, List.flatMap_cons,
      List.length_append] at ih ⊢
    have := minValueLen_le hvalue.1
    omega

theorem mul_minRowLen_le {columns : List Column} {rows : List (List Value)}
    (h : ∀ row ∈ rows, List.Forall₂ ValueWithin columns row) :
    rows.length * minRowLen columns ≤ (rows.flatMap rowBytes).length := by
  induction rows with
  | nil => simp
  | cons row rows ih =>
    obtain ⟨hrow, hrows⟩ := List.forall_mem_cons.mp h
    have := minRowLen_le hrow
    have := ih hrows
    rw [List.flatMap_cons, List.length_append, List.length_cons, Nat.succ_mul]
    omega

/-! ### The writer -/

theorem writes_putBytes {limit : ℕ} {bytes : Bytes} {loc : Location} :
    Writes limit (fun out => putBytes out bytes loc) (bytes.length < 2 ^ 32) (prefixed bytes) :=
  (writes_guard (writes_append _)).congr (by simp) rfl

theorem writes_value {limit : ℕ} {loc : Location} {value : Value} :
    Writes limit (fun out => writeValue loc out value) (Within value) (valueBytes value) := by
  cases value with
  | null => exact writes_append _
  | integer v => exact writes_append _
  | text t =>
    refine (writes_guard (writes_after [tag.text] writes_putBytes)).congr ?_ rfl
    rw [length_utf8]
    simp only [Within, maxTextLen]
    omega
  | blob b =>
    refine (writes_guard (writes_after [tag.blob] writes_putBytes)).congr ?_ rfl
    simp only [Within, maxBlobLen]
    omega

/-- How long the tables region may get. -/
def maxBodyLen : ℕ := maxBackupFileLen - digestLen

theorem maxBodyLen_add : maxBodyLen + digestLen = maxBackupFileLen := by decide

theorem writes_row {tableIndex rowIndex : ℕ} {row : List Value} :
    Writes maxBodyLen (fun out => writeRow tableIndex rowIndex out row)
      (∀ value ∈ row, Within value) (rowBytes row) := by
  have hvalues : Writes maxBodyLen (fun out => row.zipIdx.foldlM (fun out entry =>
      writeValue ⟨some tableIndex, some rowIndex, some entry.2⟩ out entry.1) out)
      (∀ value ∈ row, Within value) (rowBytes row) :=
    writes_foldlM_zipIdx (fun _ _ => writes_value) row
  exact (writes_bind hvalues (writes_limit maxBodyLen_add)).congr (by simp)
    (List.append_nil _)

theorem writes_column {loc : Location} {column : Column} :
    Writes maxBodyLen (fun out => writeColumn loc out column)
      ((utf8 column.name).length < 2 ^ 32) (columnBytes column) :=
  (writes_bind writes_putBytes (writes_append _)).congr (by simp) rfl

/-- What the writer checks of a table that fits its spec. -/
def TableWritable (spec : TableSpec) (table : TableDump) : Prop :=
  (utf8 spec.name).length < 2 ^ 32 ∧ spec.columns.length < 2 ^ 16 ∧
    (∀ column ∈ spec.columns, (utf8 column.name).length < 2 ^ 32) ∧
    table.rows.length < 2 ^ 64 ∧ ∀ row ∈ table.rows, ∀ value ∈ row, Within value

theorem writes_table {tableIndex : ℕ} {spec : TableSpec} {table : TableDump} :
    Writes maxBodyLen (fun out => writeTable tableIndex out spec table)
      (TableWritable spec table) (tableBytes spec table) := by
  have hrows : Writes maxBodyLen (fun out => table.rows.zipIdx.foldlM
      (fun out entry => writeRow tableIndex entry.2 out entry.1) out)
      (∀ row ∈ table.rows, ∀ value ∈ row, Within value) (table.rows.flatMap rowBytes) :=
    writes_foldlM_zipIdx (fun _ _ => writes_row) table.rows
  have hcolumns : Writes maxBodyLen (fun out => spec.columns.foldlM
      (writeColumn { table := some tableIndex }) out)
      (∀ column ∈ spec.columns, (utf8 column.name).length < 2 ^ 32)
      (spec.columns.flatMap columnBytes) :=
    writes_foldlM (fun _ => writes_column) spec.columns
  refine (writes_bind writes_putBytes (writes_guard (writes_after _ (writes_bind hcolumns
    (writes_guard (writes_after _ hrows)))))).congr ?_ rfl
  simp only [not_le, TableWritable]

/-! ### The parser -/

theorem parses_number (w : ℕ) (loc : Location) :
    Parses Set.univ (number w loc) fun bs n => n < 256 ^ w ∧ bs = beBytes w n := by
  refine (parses_map ofBe (parses_take w _)).congr fun bs n => ?_
  constructor
  · rintro ⟨x, ⟨rfl, rfl⟩, rfl⟩
    exact ⟨ofBe_lt x, (beBytes_ofBe x).symm⟩
  · rintro ⟨hn, rfl⟩
    exact ⟨_, ⟨length_beBytes w n, rfl⟩, (ofBe_beBytes hn).symm⟩

theorem parses_bytes {max : ℕ} (hmax : max < 2 ^ 32) (tooLong : Problem) (loc : Location) :
    Parses Set.univ (bytes max tooLong loc) fun bs x => x.length ≤ max ∧ bs = prefixed x := by
  refine (parses_bind (parses_number 4 loc) fun n =>
    parses_require (parses_take n _)).congr fun bs x => ?_
  constructor
  · rintro ⟨_, _, n, ⟨-, rfl⟩, ⟨hn, rfl, rfl⟩, rfl⟩
    exact ⟨of_decide_eq_true hn, rfl⟩
  · rintro ⟨hx, rfl⟩
    have hlt : x.length < 256 ^ 4 := by omega
    exact ⟨_, _, x.length, ⟨hlt, rfl⟩, ⟨decide_eq_true hx, rfl, rfl⟩, rfl⟩

/-- A tag says what kind of value it stands before. -/
theorem of_tagOf (value : Value) :
    (tagOf value = tag.null → value = .null) ∧
    (tagOf value = tag.integer → ∃ v, value = .integer v) ∧
    (tagOf value = tag.text → ∃ t, value = .text t) ∧
    (tagOf value = tag.blob → ∃ b, value = .blob b) := by
  cases value <;> simp [tagOf, tag.null, tag.integer, tag.text, tag.blob]

theorem toUInt64_toInt64_ofNat {n : ℕ} (h : n < 256 ^ 8) :
    (UInt64.ofNat n).toInt64.toUInt64.toNat = n := by
  simp only [UInt64.toUInt64_toInt64, UInt64.toNat_ofNat']
  exact Nat.mod_eq_of_lt (h.trans_le (by norm_num))

theorem toInt64_ofNat_toUInt64 (v : Int64) : (UInt64.ofNat v.toUInt64.toNat).toInt64 = v := by
  simp

theorem parses_value (loc : Location) (column : Column) :
    Parses Set.univ (parseValue loc column) fun bs value =>
      ValueWithin column value ∧ bs = valueBytes value := by
  have htag : ∀ t : Byte, Parses Set.univ (do
      if t = tag.null ∧ column.nullable then
        return .null
      else if t = tag.integer ∧ column.kind = .integer then
        return .integer (UInt64.ofNat (← number 8 loc)).toInt64
      else if t = tag.text ∧ column.kind = .text then
        let bytes ← bytes maxTextLen .textTooLong loc
        return .text (← Parser.ofOption (fromUtf8 bytes) (.malformed loc .utf8))
      else if t = tag.blob ∧ column.kind = .blob then
        return .blob (← bytes maxBlobLen .blobTooLong loc)
      else
        throw (.malformed loc .tag) : FileReader Value) fun bs value =>
          ValueWithin column value ∧ tagOf value = t ∧ bs = payload value := by
    intro t
    split_ifs with hnull hinteger htext hblob
    · refine (parses_pure _).congr fun bs value => ?_
      constructor
      · rintro ⟨rfl, rfl⟩
        exact ⟨⟨hnull.2, trivial⟩, hnull.1.symm, rfl⟩
      · rintro ⟨-, ht, rfl⟩
        obtain rfl := (of_tagOf value).1 (ht.trans hnull.1)
        exact ⟨rfl, rfl⟩
    · refine (parses_map _ (parses_number 8 loc)).congr fun bs value => ?_
      constructor
      · rintro ⟨n, ⟨hn, rfl⟩, rfl⟩
        refine ⟨⟨decide_eq_true hinteger.2, trivial⟩, hinteger.1.symm, ?_⟩
        rw [payload, toUInt64_toInt64_ofNat hn]
      · rintro ⟨-, ht, rfl⟩
        obtain ⟨v, rfl⟩ := (of_tagOf value).2.1 (ht.trans hinteger.1)
        refine ⟨v.toUInt64.toNat, ⟨v.toUInt64.toNat_lt, rfl⟩, ?_⟩
        rw [toInt64_ofNat_toUInt64]
    · refine (parses_bind (parses_bytes (by decide) _ loc) fun x =>
        parses_ofOption fun t => parses_pure (Value.text t)).congr fun bs value => ?_
      constructor
      · rintro ⟨_, _, x, ⟨hx, rfl⟩, ⟨t, hutf8, rfl, rfl⟩, rfl⟩
        obtain rfl := fromUtf8_eq_some.mp hutf8
        rw [length_utf8] at hx
        exact ⟨⟨decide_eq_true htext.2, hx⟩, htext.1.symm, List.append_nil _⟩
      · rintro ⟨⟨-, hx⟩, ht, rfl⟩
        obtain ⟨t, rfl⟩ := (of_tagOf value).2.2.1 (ht.trans htext.1)
        rw [Within, ← length_utf8] at hx
        exact ⟨_, [], utf8 t, ⟨hx, rfl⟩, ⟨t, fromUtf8_eq_some.mpr rfl, rfl, rfl⟩,
          (List.append_nil _).symm⟩
    · refine (parses_map _ (parses_bytes (by decide) _ loc)).congr fun bs value => ?_
      constructor
      · rintro ⟨x, ⟨hx, rfl⟩, rfl⟩
        exact ⟨⟨decide_eq_true hblob.2, hx⟩, hblob.1.symm, rfl⟩
      · rintro ⟨⟨-, hx⟩, ht, rfl⟩
        obtain ⟨b, rfl⟩ := (of_tagOf value).2.2.2 (ht.trans hblob.1)
        exact ⟨b, ⟨hx, rfl⟩, rfl⟩
    · refine (parses_throw _).congr fun bs value => ?_
      constructor
      · exact False.elim
      · rintro ⟨⟨hfits, -⟩, rfl, -⟩
        cases value with
        | null => exact hnull ⟨rfl, hfits⟩
        | integer v => exact hinteger ⟨rfl, of_decide_eq_true hfits⟩
        | text t => exact htext ⟨rfl, of_decide_eq_true hfits⟩
        | blob b => exact hblob ⟨rfl, of_decide_eq_true hfits⟩
  refine (parses_bind_of (S := fun x bs value =>
    ValueWithin column value ∧ x ++ bs = valueBytes value) (parses_take 1 _) ?_).congr fun bs value => ?_
  · rintro _ x ⟨hlen, rfl⟩
    obtain ⟨t, rfl⟩ := List.length_eq_one_iff.mp hlen
    refine (htag t).congr fun bs value => ?_
    rw [List.singleton_append, valueBytes, List.cons.injEq, eq_comm (a := t)]
  · constructor
    · rintro ⟨_, b₂, x, ⟨-, rfl⟩, ⟨hvalue, hx⟩, rfl⟩
      exact ⟨hvalue, hx⟩
    · rintro ⟨hvalue, rfl⟩
      exact ⟨[tagOf value], payload value, _, ⟨rfl, rfl⟩, ⟨hvalue, rfl⟩, rfl⟩

theorem parses_row (tableIndex rowIndex : ℕ) (spec : TableSpec) :
    Parses Set.univ (parseRow tableIndex rowIndex spec) fun bs row =>
      List.Forall₂ ValueWithin spec.columns row ∧ bs = rowBytes row := by
  refine (parses_mapM_zipIdx fun column _ _ => parses_value _ column).congr fun bs row => ?_
  refine and_congr_right fun hall => ?_
  rw [zipWith_flatten_right hall, rowBytes]

theorem parses_column {loc : Location} {column : Column}
    (hname : validName (utf8 column.name) = true) :
    Parses Set.univ (parseColumn loc column) fun bs _ => True ∧ bs = columnBytes column := by
  refine (parses_bind (parses_bytes (by decide) _ loc) fun name => parses_require (parses_bind
    (parses_take 1 _) fun kind => parses_bind (parses_take 1 _) fun nullable =>
      parses_check _ _)).congr fun bs u => ?_
  constructor
  · rintro ⟨_, _, name, ⟨-, rfl⟩, ⟨-, _, _, kind, ⟨-, rfl⟩, ⟨_, _, nullable, ⟨-, rfl⟩, ⟨h, rfl⟩,
      rfl⟩, rfl⟩, rfl⟩
    obtain ⟨rfl, rfl, rfl⟩ := of_decide_eq_true h
    exact ⟨trivial, rfl⟩
  · rintro ⟨-, rfl⟩
    exact ⟨_, _, utf8 column.name, ⟨length_le_of_validName hname, rfl⟩, ⟨hname, _, _,
      [kindByte column.kind], ⟨rfl, rfl⟩, ⟨_, _, [nullableByte column.nullable], ⟨rfl, rfl⟩,
        ⟨decide_eq_true ⟨rfl, rfl, rfl⟩, rfl⟩, rfl⟩, rfl⟩, rfl⟩

/-- The row-count check refuses only products past 64 bits. -/
theorem parses_rows (tableIndex : ℕ) (spec : TableSpec) (rowCount : ℕ) (e : FileError) :
    Parses Set.univ (do
        let remaining ← Parser.remaining
        Parser.require (rowCountFits rowCount (minRowLen spec.columns) remaining) e
        return (⟨spec.name, ← (List.range rowCount).mapM fun rowIndex =>
          parseRow tableIndex rowIndex spec⟩ : TableDump)) fun bs table =>
      table.rows.length = rowCount ∧ table.rows.length * minRowLen spec.columns < 2 ^ 64 ∧
        table.table = spec.name ∧ (∀ row ∈ table.rows, List.Forall₂ ValueWithin spec.columns row) ∧
        bs = table.rows.flatMap rowBytes := by
  have hrows : Parses Set.univ (do
      return (⟨spec.name, ← (List.range rowCount).mapM fun rowIndex =>
        parseRow tableIndex rowIndex spec⟩ : TableDump)) fun bs table =>
          ∃ rows, (rows.length = rowCount ∧
            (∀ row ∈ rows, List.Forall₂ ValueWithin spec.columns row) ∧
            bs = rows.flatMap rowBytes) ∧ table = ⟨spec.name, rows⟩ := by
    have h := parses_mapM_same (l := List.range rowCount)
      fun rowIndex _ => parses_row tableIndex rowIndex spec
    rw [List.length_range] at h
    exact parses_map _ h
  by_cases hfit : rowCount * minRowLen spec.columns < 2 ^ 64
  · simp only [rowCountFits, decide_eq_true hfit, Bool.true_and]
    refine (parses_remaining hrows ?_).congr fun bs table => ?_
    · rintro bs table ⟨rows, ⟨rfl, hall, rfl⟩, rfl⟩
      exact mul_minRowLen_le hall
    · constructor
      · rintro ⟨rows, ⟨rfl, hall, rfl⟩, rfl⟩
        exact ⟨rfl, hfit, rfl, hall, rfl⟩
      · rintro ⟨rfl, -, hname, hall, rfl⟩
        exact ⟨table.rows, ⟨rfl, hall, rfl⟩, by rw [← hname]⟩
  · simp only [rowCountFits, decide_eq_false hfit, Bool.false_and]
    refine (parses_remaining_any fun _ => parses_require hrows).congr fun bs table => ?_
    constructor
    · rintro ⟨h, -⟩
      cases h
    · rintro ⟨rfl, h, -⟩
      exact absurd h hfit

theorem parses_table (tableIndex : ℕ) {spec : TableSpec} (hvalid : spec.Valid) :
    Parses Set.univ (parseTable tableIndex spec) fun bs table =>
      (TableWithin spec table ∧ table.rows.length * minRowLen spec.columns < 2 ^ 64) ∧
        bs = tableBytes spec table := by
  have hcolumns : Parses Set.univ (spec.columns.zipIdx.mapM fun entry =>
      parseColumn { table := some tableIndex, column := some entry.2 } entry.1) fun bs xs =>
        xs.length = spec.columns.length ∧ bs = spec.columns.flatMap columnBytes := by
    refine (parses_mapM_zipIdx fun column hcolumn _ =>
      parses_column (hvalid.columnNames column hcolumn)).congr fun bs xs => ?_
    constructor
    · rintro ⟨hall, rfl⟩
      exact ⟨hall.length_eq.symm, zipWith_flatten_left hall columnBytes⟩
    · rintro ⟨hlen, rfl⟩
      have hall := forall₂_const_iff.mpr ⟨hlen, fun _ _ => trivial⟩
      exact ⟨hall, (zipWith_flatten_left hall columnBytes).symm⟩
  refine (parses_bind (parses_bytes (by decide) _ _) fun name => parses_require (parses_require
    (parses_bind (parses_number 2 _) fun columnCount => parses_require
      (parses_bind hcolumns fun _ => parses_bind (parses_number 8 _) fun rowCount =>
        parses_rows tableIndex spec rowCount _)))).congr fun bs table => ?_
  constructor
  · rintro ⟨_, _, name, ⟨-, rfl⟩, ⟨-, hname, _, _, columnCount, ⟨-, rfl⟩, ⟨hcount, _, _, _,
      ⟨-, rfl⟩, ⟨_, _, rowCount, ⟨hlt, rfl⟩, ⟨rfl, hfit, htable, hrows, rfl⟩, rfl⟩, rfl⟩, rfl⟩, rfl⟩
    obtain rfl := of_decide_eq_true hname
    obtain ⟨-, rfl⟩ := of_decide_eq_true hcount
    exact ⟨⟨⟨htable, hlt, hrows⟩, hfit⟩, rfl⟩
  · rintro ⟨⟨⟨htable, hlt, hrows⟩, hfit⟩, rfl⟩
    have hlen := length_le_of_validName hvalid.name
    have hcount := hvalid.columns
    have hcount' : spec.columns.length < 256 ^ 2 := by
      rw [maxColumns] at hcount
      omega
    exact ⟨_, _, utf8 spec.name, ⟨hlen, rfl⟩, ⟨hvalid.name, decide_eq_true rfl, _, _,
      spec.columns.length, ⟨hcount', rfl⟩, ⟨decide_eq_true ⟨hcount, rfl⟩, _, _,
      List.replicate spec.columns.length (), ⟨List.length_replicate, rfl⟩,
      ⟨_, _, table.rows.length, ⟨hlt, rfl⟩, ⟨rfl, hfit, htable, hrows, rfl⟩, rfl⟩, rfl⟩, rfl⟩, rfl⟩

end RizzyVault.Storage
