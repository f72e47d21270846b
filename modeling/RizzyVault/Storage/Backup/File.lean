import RizzyVault.Lib.Codec
import RizzyVault.Lib.Text
import RizzyVault.Storage.Backup.Dump

/-!
# The backup file

The writer and the strict parser of backup files of format version 1. A file is a header, every
table with its column descriptors and rows, and the digest of everything before it. The parser
checks the digest first. It never reads a length or a count it has not compared with the bytes that
remain: a table's row count times its smallest row must fit them before a row is read.

The hash of the digest and the schema are parameters.

## Main definitions

* `Location`, `Problem`, `FileError`: what is wrong, and where.
* `write`, `parse`.
* `Schema`: tables with valid names and at most `maxColumns` columns; `backupSchema`.

## References

* `crates/rizzy-storage/src/backup/file.rs`.
-/

open RizzyVault.Lib
open RizzyVault.Core (Byte Bytes ascii isAsciiLowercase isAsciiDigit)

namespace RizzyVault.Storage

/-- The 22 bytes a backup file starts with. -/
def magic : Bytes := utf8 "rizzy-vault-db-backup" ++ [0x00]

def formatVersion : ℕ := 1

/-- The longest backup file, 2 GiB. -/
def maxBackupFileLen : ℕ := 2 * 1024 * 1024 * 1024

def maxTextLen : ℕ := 4 * 1024

def maxBlobLen : ℕ := 32 * 1024 * 1024

/-- The longest table or column name. -/
def maxNameLen : ℕ := 63

def maxColumns : ℕ := 64

def digestLen : ℕ := 32

/-- Magic, format version, schema version, creation time and table count. -/
def headerLen : ℕ := magic.length + 2 + 8 + 8 + 2

/-- What the hash returns. -/
abbrev Digest := { sum : Bytes // sum.length = digestLen }

/-! ### Tags and kinds -/

namespace tag

def null : Byte := 0x00

def integer : Byte := 0x01

def text : Byte := 0x02

def blob : Byte := 0x03

end tag

def kindByte : Kind → Byte
  | .integer => 1
  | .text => 2
  | .blob => 3

def nullableByte (nullable : Bool) : Byte := if nullable then 1 else 0

/-! ### Errors -/

/-- The table, row and column of a problem. -/
structure Location where
  table : Option ℕ := none
  row : Option ℕ := none
  column : Option ℕ := none
  deriving DecidableEq

inductive Problem
  | unexpectedEnd
  | name
  | table
  | columnCount
  | column
  | rowCount
  | tag
  | textTooLong
  | blobTooLong
  | utf8
  deriving DecidableEq

/-- Why a backup file could not be read or written. -/
inductive FileError
  | tooLarge
  | truncated
  | badMagic
  | unsupportedFormat (version : ℕ)
  | digestMismatch
  | schemaVersion
  | tableCount (found : ℕ)
  | malformed (loc : Location) (problem : Problem)
  | trailingBytes
  | dump (error : RestoreError)
  | valueTooLarge (loc : Location)
  deriving DecidableEq

/-- A parsed backup file: the dump and the creation time. -/
structure BackupFile where
  createdAtMs : UInt64
  dump : Dump
  deriving DecidableEq

/-! ### The writer -/

/-- Appends a length-prefixed byte string. -/
def putBytes (out bytes : Bytes) (loc : Location) : Except FileError Bytes := do
  if 2 ^ 32 ≤ bytes.length then throw (.valueTooLarge loc)
  return out ++ (beBytes 4 bytes.length ++ bytes)

/-- Appends one value. -/
def writeValue (loc : Location) (out : Bytes) : Value → Except FileError Bytes
  | .null => return out ++ [tag.null]
  | .integer v => return out ++ tag.integer :: beBytes 8 v.toUInt64.toNat
  | .text t => do
    if maxTextLen < t.utf8ByteSize then throw (.valueTooLarge loc)
    putBytes (out ++ [tag.text]) (utf8 t) loc
  | .blob b => do
    if maxBlobLen < b.length then throw (.valueTooLarge loc)
    putBytes (out ++ [tag.blob]) b loc

/-- Appends one column descriptor. -/
def writeColumn (loc : Location) (out : Bytes) (column : Column) : Except FileError Bytes := do
  let out ← putBytes out (utf8 column.name) loc
  return out ++ [kindByte column.kind, nullableByte column.nullable]

/-- Appends one row, and checks that the file is not too large yet. -/
def writeRow (tableIndex rowIndex : ℕ) (out : Bytes) (row : List Value) :
    Except FileError Bytes := do
  let out ← row.zipIdx.foldlM (fun out (value, columnIndex) =>
    writeValue ⟨some tableIndex, some rowIndex, some columnIndex⟩ out value) out
  if maxBackupFileLen < out.length + digestLen then throw .tooLarge
  return out

/-- Appends one table: its name, its column descriptors and its rows. -/
def writeTable (tableIndex : ℕ) (out : Bytes) (spec : TableSpec) (table : TableDump) :
    Except FileError Bytes := do
  let loc : Location := { table := some tableIndex }
  let out ← putBytes out (utf8 spec.name) loc
  if 2 ^ 16 ≤ spec.columns.length then throw (.malformed loc .columnCount)
  let out ← spec.columns.foldlM (writeColumn loc) (out ++ beBytes 2 spec.columns.length)
  if 2 ^ 64 ≤ table.rows.length then throw .tooLarge
  table.rows.zipIdx.foldlM (fun out (row, rowIndex) => writeRow tableIndex rowIndex out row)
    (out ++ beBytes 8 table.rows.length)

/-- What stands before the tables. -/
def headerBytes (schemaVersion : ℕ) (createdAtMs : UInt64) (tableCount : ℕ) : Bytes :=
  magic ++ (beBytes 2 formatVersion ++ (beBytes 8 schemaVersion ++
    (beBytes 8 createdAtMs.toNat ++ beBytes 2 tableCount)))

/-- The file of a dump, stamped with `createdAtMs`. -/
def write (specs : List TableSpec) (digest : Bytes → Digest) (dump : Dump) (createdAtMs : UInt64) :
    Except FileError Bytes := do
  if dump.schemaVersion.toInt < 0 then throw .schemaVersion
  let schemaVersion := dump.schemaVersion.toInt.toNat
  if schemaVersion = 0 then throw .schemaVersion
  let planned ← (plan specs dump).mapError .dump
  if 2 ^ 16 ≤ planned.length then throw .tooLarge
  let out ← planned.zipIdx.foldlM (fun out ((spec, table), tableIndex) =>
    writeTable tableIndex out spec table) (headerBytes schemaVersion createdAtMs planned.length)
  if maxBackupFileLen < out.length + digestLen then throw .tooLarge
  return out ++ (digest out).val

/-! ### The parser -/

/-- A cursor over the part of the file between the format version and the digest. -/
abbrev FileReader := Parser Byte FileError

namespace FileReader

/-- A big-endian number of `w` bytes. -/
def number (w : ℕ) (loc : Location) : FileReader ℕ :=
  do return ofBe (← Parser.take w (.malformed loc .unexpectedEnd))

/-- A length-prefixed byte string of at most `max` bytes. -/
def bytes (max : ℕ) (tooLong : Problem) (loc : Location) : FileReader Bytes := do
  let len ← number 4 loc
  Parser.require (decide (len ≤ max)) (.malformed loc tooLong)
  Parser.take len (.malformed loc .unexpectedEnd)

end FileReader

open FileReader

/-- Whether a name is 1 to `maxNameLen` bytes of `[a-z0-9_]`. -/
def validName (name : Bytes) : Bool :=
  decide (name ≠ []) && decide (name.length ≤ maxNameLen) &&
    name.all fun b => isAsciiLowercase b || isAsciiDigit b || b == ascii '_'

/-- The smallest encoded value of a column. -/
def minValueLen (column : Column) : ℕ :=
  match column.nullable, column.kind with
  | true, _ => 1
  | false, .integer => 1 + 8
  | false, .text => 1 + 4
  | false, .blob => 1 + 4

/-- The smallest encoded row. -/
def minRowLen (columns : List Column) : ℕ := (columns.map minValueLen).sum

/-- Whether `rowCount` rows of at least `minRow` bytes fit in the remaining bytes; a product that
overflows 64 bits does not. -/
def rowCountFits (rowCount minRow remaining : ℕ) : Bool :=
  decide (rowCount * minRow < 2 ^ 64) && decide (rowCount * minRow ≤ remaining)

/-- Parses one value of a column. -/
def parseValue (loc : Location) (column : Column) : FileReader Value := do
  let [t] ← Parser.take 1 (.malformed loc .unexpectedEnd)
    | throw (.malformed loc .unexpectedEnd)
  if t = tag.null ∧ column.nullable then
    return .null
  else if t = tag.integer ∧ column.kind = .integer then
    return .integer (UInt64.ofNat (← number 8 loc)).toInt64
  else if t = tag.text ∧ column.kind = .text then
    let bytes ← bytes maxTextLen .textTooLong loc
    return .text (← Parser.ofOption (fromUtf8 bytes) (.malformed loc .utf8))
  else if t = tag.blob ∧ column.kind = .blob then
    return .blob (← bytes maxBlobLen .blobTooLong loc)
  else
    throw (.malformed loc .tag)

/-- Parses one column descriptor, which must be `column`. -/
def parseColumn (loc : Location) (column : Column) : FileReader Unit := do
  let name ← bytes maxNameLen .name loc
  Parser.require (validName name) (.malformed loc .name)
  let kind ← Parser.take 1 (.malformed loc .unexpectedEnd)
  let nullable ← Parser.take 1 (.malformed loc .unexpectedEnd)
  Parser.require (decide (name = utf8 column.name ∧ kind = [kindByte column.kind] ∧
    nullable = [nullableByte column.nullable])) (.malformed loc .column)

/-- Parses one row. -/
def parseRow (tableIndex rowIndex : ℕ) (spec : TableSpec) : FileReader (List Value) :=
  spec.columns.zipIdx.mapM fun (column, columnIndex) =>
    parseValue ⟨some tableIndex, some rowIndex, some columnIndex⟩ column

/-- Parses one table, which must be `spec`. -/
def parseTable (tableIndex : ℕ) (spec : TableSpec) : FileReader TableDump := do
  let loc : Location := { table := some tableIndex }
  let name ← bytes maxNameLen .name loc
  Parser.require (validName name) (.malformed loc .name)
  Parser.require (decide (name = utf8 spec.name)) (.malformed loc .table)
  let columnCount ← number 2 loc
  Parser.require (decide (columnCount ≤ maxColumns ∧ columnCount = spec.columns.length))
    (.malformed loc .columnCount)
  let _ ← spec.columns.zipIdx.mapM fun (column, columnIndex) =>
    parseColumn { loc with column := some columnIndex } column
  let rowCount ← number 8 loc
  let remaining ← Parser.remaining
  Parser.require (rowCountFits rowCount (minRowLen spec.columns) remaining)
    (.malformed loc .rowCount)
  return ⟨spec.name, ← (List.range rowCount).mapM fun rowIndex =>
    parseRow tableIndex rowIndex spec⟩

/-- Parses what stands between the format version and the digest. -/
def parseBody (specs : List TableSpec) : FileReader BackupFile := do
  let schemaVersion ← number 8 {}
  Parser.require (decide (schemaVersion < 2 ^ 63 ∧ 1 ≤ schemaVersion)) .schemaVersion
  let createdAtMs ← number 8 {}
  let tableCount ← number 2 {}
  Parser.require (decide (tableCount = specs.length)) (.tableCount tableCount)
  let tables ← specs.zipIdx.mapM fun (spec, tableIndex) => parseTable tableIndex spec
  let remaining ← Parser.remaining
  Parser.require (decide (remaining = 0)) .trailingBytes
  return ⟨UInt64.ofNat createdAtMs, ⟨Int64.ofNat schemaVersion, tables⟩⟩

/-- Parses a backup file: the magic, the format version and the digest first, then the rest. -/
def parse (specs : List TableSpec) (digest : Bytes → Digest) (file : Bytes) :
    Except FileError BackupFile := do
  if maxBackupFileLen < file.length then throw .tooLarge
  if ¬ magic <+: file then throw (if file <+: magic then .truncated else .badMagic)
  if file.length < magic.length + 2 then throw .truncated
  let version := ofBe ((file.drop magic.length).take 2)
  if version ≠ formatVersion then throw (.unsupportedFormat version)
  if file.length < digestLen ∨ file.length - digestLen < headerLen then throw .truncated
  let body := file.take (file.length - digestLen)
  let stored := file.drop (file.length - digestLen)
  if (digest body).val ≠ stored then throw .digestMismatch
  let rest := body.drop (magic.length + 2)
  match parseBody specs ⟨rest, rest.length⟩ with
  | .ok (parsed, _) => return parsed
  | .error e => .error e

/-! ### Schemas -/

/-- The names of a table and its columns are valid, and it has at most `maxColumns` columns. -/
structure TableSpec.Valid (spec : TableSpec) : Prop where
  name : validName (utf8 spec.name) = true
  columns : spec.columns.length ≤ maxColumns
  columnNames : ∀ column ∈ spec.columns, validName (utf8 column.name) = true

/-- The tables of a release, with distinct names. -/
structure Schema where
  tables : List TableSpec
  valid : ∀ spec ∈ tables, spec.Valid
  names_nodup : (tables.map TableSpec.name).Nodup

/-- The tables of this release. -/
def backupSchema : Schema where
  tables := tables
  valid := by
    have h : tables.all (fun spec => validName (utf8 spec.name) &&
        decide (spec.columns.length ≤ maxColumns) &&
        spec.columns.all fun column => validName (utf8 column.name)) = true := by decide +kernel
    intro spec hspec
    have hall := List.all_eq_true.mp h spec hspec
    simp only [Bool.and_eq_true, decide_eq_true_eq, List.all_eq_true] at hall
    exact ⟨hall.1.1, hall.1.2, hall.2⟩
  names_nodup := by decide +kernel

end RizzyVault.Storage
