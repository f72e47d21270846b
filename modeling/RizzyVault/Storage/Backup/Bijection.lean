import RizzyVault.Storage.Backup.Format

/-!
# The backup file format is a bijection

One relation between dumps and byte strings, `IsFile`, is what the writer produces and what the
parser accepts. So the parser returns what was written, and the writer writes again what was parsed.
In particular the row-count check, made before any row is read, never refuses a written table.

## Main definitions

* `bodyBytes`, `IsFile`: the files of a dump.

## Main results

* `isFile_of_write`, `write_of_isFile`, `parse_eq_ok`: both functions are the relation.
* `backup_bijective`: the format is a bijection.
-/

open RizzyVault.Lib
open RizzyVault.Core (Byte Bytes)

namespace RizzyVault.Storage

variable {specs : List TableSpec} {digest : Bytes → Digest} {dump : Dump} {createdAtMs : UInt64}
  {file : Bytes}

/-! ### Files -/

/-- What stands between the format version and the digest. -/
def regionBytes (specs : List TableSpec) (createdAtMs : UInt64) (dump : Dump) : Bytes :=
  beBytes 8 dump.schemaVersion.toInt.toNat ++ (beBytes 8 createdAtMs.toNat ++
    (beBytes 2 specs.length ++ (List.zipWith tableBytes specs dump.tables).flatten))

/-- What stands before the digest. -/
def bodyBytes (specs : List TableSpec) (createdAtMs : UInt64) (dump : Dump) : Bytes :=
  magic ++ (beBytes 2 formatVersion ++ regionBytes specs createdAtMs dump)

/-- `file` is the file of `dump`, stamped with `createdAtMs`. -/
structure IsFile (specs : List TableSpec) (digest : Bytes → Digest) (createdAtMs : UInt64)
    (dump : Dump) (file : Bytes) : Prop where
  schemaVersion : 1 ≤ dump.schemaVersion.toInt
  tableCount : specs.length < 2 ^ 16
  tables : List.Forall₂ TableWithin specs dump.tables
  bytes : file = bodyBytes specs createdAtMs dump ++ (digest (bodyBytes specs createdAtMs dump)).val
  length : file.length ≤ maxBackupFileLen

theorem IsFile.length_tables_lt (h : IsFile specs digest createdAtMs dump file) :
    (List.zipWith tableBytes specs dump.tables).flatten.length < 2 ^ 64 := by
  have hlen := h.length
  rw [h.bytes, bodyBytes, regionBytes, maxBackupFileLen] at hlen
  simp only [List.length_append] at hlen
  omega

/-! ### The writer -/

theorem forall₂_valueWithin_iff {columns : List Column} {row : List Value} :
    List.Forall₂ ValueWithin columns row ↔
      List.Forall₂ (fun column value => fits column value = true) columns row ∧
        ∀ value ∈ row, Within value := by
  induction columns generalizing row with
  | nil =>
    simp only [List.forall₂_nil_left_iff, iff_self_and]
    rintro rfl
    simp
  | cons column columns ih =>
    cases row with
    | nil => simp
    | cons value row =>
      rw [List.forall₂_cons, List.forall₂_cons, ih, List.forall_mem_cons, ValueWithin]
      tauto

/-- A table fits its spec and keeps the limits in the two steps of the writer. -/
theorem tableWithin_iff {spec : TableSpec} (hvalid : spec.Valid) {table : TableDump} :
    TableWithin spec table ↔ TableFits spec table ∧ TableWritable spec table := by
  have hname {name : Bytes} (h : validName name = true) : name.length < 2 ^ 32 := by
    have := length_le_of_validName h
    rw [maxNameLen] at this
    omega
  have hcolumns : spec.columns.length < 2 ^ 16 := by
    have := hvalid.columns
    rw [maxColumns] at this
    omega
  constructor
  · rintro ⟨htable, hcount, hrows⟩
    refine ⟨⟨htable, fun row hrow => (hrows row hrow).imp fun _ _ h => h.1⟩, hname hvalid.name,
      hcolumns, fun column hcolumn => hname (hvalid.columnNames column hcolumn), hcount, ?_⟩
    exact fun row hrow => (forall₂_valueWithin_iff.mp (hrows row hrow)).2
  · rintro ⟨⟨htable, hfits⟩, -, -, -, hcount, hwithin⟩
    exact ⟨htable, hcount, fun row hrow =>
      forall₂_valueWithin_iff.mpr ⟨hfits row hrow, hwithin row hrow⟩⟩

theorem forall₂_tableWithin_iff (hvalid : ∀ spec ∈ specs, spec.Valid) {tables : List TableDump} :
    List.Forall₂ TableWithin specs tables ↔
      List.Forall₂ TableFits specs tables ∧
        ∀ x ∈ specs.zip tables, TableWritable x.1 x.2 := by
  rw [List.forall₂_iff_zip, List.forall₂_iff_zip, and_assoc]
  refine and_congr_right fun _ => ?_
  have hiff {spec : TableSpec} {table : TableDump} (h : (spec, table) ∈ specs.zip tables) :
      TableWithin spec table ↔ TableFits spec table ∧ TableWritable spec table :=
    tableWithin_iff (hvalid spec (List.of_mem_zip h).1)
  constructor
  · intro h
    exact ⟨fun hmem => ((hiff hmem).mp (h hmem)).1, fun x hmem => ((hiff hmem).mp (h hmem)).2⟩
  · rintro ⟨hfits, hwritable⟩ spec table hmem
    exact (hiff hmem).mpr ⟨hfits hmem, hwritable _ hmem⟩

theorem headerBytes_append (hlen : specs.length = dump.tables.length) :
    headerBytes dump.schemaVersion.toInt.toNat createdAtMs (specs.zip dump.tables).length ++
      (List.zipWith tableBytes specs dump.tables).flatten = bodyBytes specs createdAtMs dump := by
  rw [List.length_zip, ← hlen, min_self]
  simp only [headerBytes, bodyBytes, regionBytes, List.append_assoc]

theorem mapError_eq_ok {ε ε' α : Type} {f : ε → ε'} {x : Except ε α} {y : α} :
    x.mapError f = .ok y ↔ x = .ok y := by
  cases x <;> simp [Except.mapError]

theorem le_maxBodyLen {n : ℕ} : n + digestLen ≤ maxBackupFileLen ↔ n ≤ maxBodyLen := by
  rw [← maxBodyLen_add, Nat.add_le_add_iff_right]

/-- All tables, one after another. -/
theorem writes_tables (specs : List TableSpec) (tables : List TableDump) :
    Writes maxBodyLen (fun out => (specs.zip tables).zipIdx.foldlM (fun out x =>
      writeTable x.2 out x.1.1 x.1.2) out)
      (∀ x ∈ specs.zip tables, TableWritable x.1 x.2)
      (List.zipWith tableBytes specs tables).flatten := by
  have hzip : (List.zipWith tableBytes specs tables).flatten =
      (specs.zip tables).flatMap fun x => tableBytes x.1 x.2 := by
    rw [List.flatMap_def, List.map_zip_eq_zipWith]
    rfl
  rw [hzip]
  exact writes_foldlM_zipIdx (fun _ _ => writes_table) _

theorem isFile_of_write (hvalid : ∀ spec ∈ specs, spec.Valid)
    (h : write specs digest dump createdAtMs = .ok file) :
    IsFile specs digest createdAtMs dump file := by
  unfold write at h
  simp only [ite_throw_eq_ok, except_bind_eq_ok] at h
  obtain ⟨hneg, hzero, planned, hplan, hcount, out, hout, hlen, h⟩ := h
  obtain ⟨hfits, rfl⟩ := forall₂_of_plan (mapError_eq_ok.mp hplan)
  obtain ⟨hwritable, rfl, -⟩ := (writes_tables specs dump.tables _ out).mp
    ⟨hout, le_maxBodyLen.mp (not_lt.mp hlen)⟩
  cases h
  rw [headerBytes_append hfits.length_eq] at hlen ⊢
  rw [List.length_zip, ← hfits.length_eq, min_self] at hcount
  refine ⟨by omega, by omega, (forall₂_tableWithin_iff hvalid).mpr ⟨hfits, hwritable⟩, rfl, ?_⟩
  rw [List.length_append, (digest _).property]
  omega

theorem write_of_isFile (hvalid : ∀ spec ∈ specs, spec.Valid)
    (hnames : (specs.map TableSpec.name).Nodup) (h : IsFile specs digest createdAtMs dump file) :
    write specs digest dump createdAtMs = .ok file := by
  obtain ⟨hversion, hcount, htables, rfl, hlen⟩ := h
  obtain ⟨hfits, hwritable⟩ := (forall₂_tableWithin_iff hvalid).mp htables
  rw [List.length_append, (digest _).property] at hlen
  have hout := ((writes_tables specs dump.tables
    (headerBytes dump.schemaVersion.toInt.toNat createdAtMs (specs.zip dump.tables).length) _).mpr
    ⟨hwritable, (headerBytes_append hfits.length_eq).symm, le_maxBodyLen.mp hlen⟩).1
  unfold write
  simp only [ite_throw_eq_ok, except_bind_eq_ok]
  refine ⟨by omega, by omega, _, mapError_eq_ok.mpr (plan_of_forall₂ hnames hfits), ?_, _, hout,
    by omega, rfl⟩
  rw [List.length_zip, ← hfits.length_eq, min_self]
  omega

/-! ### The parser -/

theorem parses_body (hvalid : ∀ spec ∈ specs, spec.Valid) :
    Parses {[]} (parseBody specs) fun bs parsed =>
      (1 ≤ parsed.dump.schemaVersion.toInt ∧ specs.length < 2 ^ 16 ∧
        List.Forall₂ (fun spec table => TableWithin spec table ∧
          table.rows.length * minRowLen spec.columns < 2 ^ 64) specs parsed.dump.tables) ∧
      bs = regionBytes specs parsed.createdAtMs parsed.dump := by
  refine (parses_bind (parses_number 8 _) fun schemaVersion => parses_require (parses_bind
    (parses_number 8 _) fun createdAtMs => parses_bind (parses_number 2 _) fun tableCount =>
      parses_require (parses_bind (parses_mapM_zipIdx fun spec hspec tableIndex =>
        parses_table tableIndex (hvalid spec hspec)) fun tables =>
          parses_end _ _))).congr fun bs parsed => ?_
  constructor
  · rintro ⟨_, _, schemaVersion, ⟨-, rfl⟩, ⟨hversion, _, _, createdAtMs, ⟨hcreated, rfl⟩, ⟨_, _,
      tableCount, ⟨hcount, rfl⟩, ⟨htables, _, _, tables, ⟨hall, rfl⟩, ⟨rfl, rfl⟩, rfl⟩, rfl⟩, rfl⟩,
      rfl⟩
    obtain ⟨hlt, hpos⟩ := of_decide_eq_true hversion
    obtain rfl := of_decide_eq_true htables
    have hint : (Int64.ofNat schemaVersion).toInt = schemaVersion := Int64.toInt_ofNat_of_lt hlt
    have hnat : (UInt64.ofNat createdAtMs).toNat = createdAtMs :=
      UInt64.toNat_ofNat_of_lt' (hcreated.trans_le (by norm_num))
    refine ⟨⟨?_, hcount, hall⟩, ?_⟩
    · rw [hint]
      omega
    · rw [regionBytes, hint, hnat, Int.toNat_natCast, List.append_nil]
  · obtain ⟨createdAtMs, version, tables⟩ := parsed
    rintro ⟨⟨hversion, hcount, hall⟩, rfl⟩
    simp only at hversion
    have hlt := version.toInt_lt
    have hint : ((version.toInt.toNat : ℕ) : ℤ) = version.toInt := Int.toNat_of_nonneg (by omega)
    have hofNat : Int64.ofNat version.toInt.toNat = version := by
      rw [← Int64.toInt_inj, Int64.toInt_ofNat_of_lt (by omega), hint]
    refine ⟨_, _, version.toInt.toNat, ⟨by omega, rfl⟩, ⟨decide_eq_true (by omega), _, _,
      createdAtMs.toNat, ⟨createdAtMs.toNat_lt, rfl⟩, ⟨_, _, specs.length, ⟨hcount, rfl⟩,
        ⟨decide_eq_true rfl, _, [], tables, ⟨hall, rfl⟩, ⟨rfl, ?_⟩, rfl⟩, rfl⟩, rfl⟩, ?_⟩
    · rw [hofNat, UInt64.ofNat_toNat]
    · rw [regionBytes, List.append_nil]

/-- Tables of less than 2^64 bytes have row counts whose smallest rows fit 64 bits. -/
theorem forall₂_rowCountFits {tables : List TableDump}
    (h : List.Forall₂ TableWithin specs tables)
    (hlen : (List.zipWith tableBytes specs tables).flatten.length < 2 ^ 64) :
    List.Forall₂ (fun spec table => TableWithin spec table ∧
      table.rows.length * minRowLen spec.columns < 2 ^ 64) specs tables := by
  induction h with
  | nil => exact .nil
  | @cons spec table specs tables htable _ ih =>
    rw [List.zipWith_cons_cons, List.flatten_cons, List.length_append] at hlen
    have hrows := mul_minRowLen_le htable.rows
    have hle : (table.rows.flatMap rowBytes).length ≤ (tableBytes spec table).length := by
      simp only [tableBytes, List.length_append]
      omega
    exact .cons ⟨htable, by omega⟩ (ih (by omega))

/-- The region is read to its end. -/
theorem parseBody_eq_ok (hvalid : ∀ spec ∈ specs, spec.Valid) {region : Bytes}
    (hlen : region.length < 2 ^ 64) {parsed : BackupFile} :
    (∃ cur, parseBody specs ⟨region, region.length⟩ = .ok (parsed, cur)) ↔
      1 ≤ parsed.dump.schemaVersion.toInt ∧ specs.length < 2 ^ 16 ∧
        List.Forall₂ TableWithin specs parsed.dump.tables ∧
        region = regionBytes specs parsed.createdAtMs parsed.dump := by
  constructor
  · rintro ⟨cur, h⟩
    obtain ⟨bs, ⟨⟨hversion, hcount, htables⟩, rfl⟩, hregion, -, hnil⟩ :=
      (parses_body hvalid _ _ _ _).mp h
    rw [Set.mem_singleton_iff.mp hnil, List.append_nil] at hregion
    exact ⟨hversion, hcount, htables.imp fun _ _ h => h.1, hregion⟩
  · rintro ⟨hversion, hcount, htables, rfl⟩
    refine ⟨⟨[], _⟩, (parses_body hvalid _ _ _ _).mpr ⟨_, ⟨⟨hversion, hcount, ?_⟩, rfl⟩,
      (List.append_nil _).symm, rfl, rfl⟩⟩
    refine forall₂_rowCountFits htables (lt_of_le_of_lt ?_ hlen)
    simp only [regionBytes, List.length_append]
    omega

theorem length_magic : magic.length = 22 := by decide

theorem headerLen_eq : headerLen = magic.length + 2 + 18 := rfl

theorem headerLen_le (specs : List TableSpec) (createdAtMs : UInt64) (dump : Dump) :
    headerLen ≤ (bodyBytes specs createdAtMs dump).length := by
  rw [headerLen_eq]
  simp only [bodyBytes, regionBytes, List.length_append, length_beBytes]
  omega

/-- The first `n` bytes of a file are the magic, the format version and the rest. -/
theorem take_eq_magic_append {n : ℕ} (hn : magic.length + 2 ≤ n) (hfile : n ≤ file.length)
    (hmagic : magic <+: file)
    (hformat : ofBe ((file.drop magic.length).take 2) = formatVersion) :
    file.take n =
      magic ++ (beBytes 2 formatVersion ++ (file.take n).drop (magic.length + 2)) := by
  have hlen : ((file.drop magic.length).take 2).length = 2 := by
    rw [List.length_take, List.length_drop]
    omega
  have hversion : (file.drop magic.length).take 2 = beBytes 2 formatVersion := by
    rw [← hformat]
    nth_rewrite 2 [← hlen]
    rw [beBytes_ofBe]
  calc file.take n
      = (file.take n).take (magic.length + 2) ++ (file.take n).drop (magic.length + 2) :=
        (List.take_append_drop _ _).symm
    _ = (file.take magic.length ++ (file.drop magic.length).take 2) ++
          (file.take n).drop (magic.length + 2) := by
        rw [List.take_take, min_eq_left hn, List.take_add]
    _ = magic ++ (beBytes 2 formatVersion ++ (file.take n).drop (magic.length + 2)) := by
        rw [← List.prefix_iff_eq_take.mp hmagic, hversion, List.append_assoc]

theorem parse_eq_ok (hvalid : ∀ spec ∈ specs, spec.Valid) :
    parse specs digest file = .ok ⟨createdAtMs, dump⟩ ↔
      IsFile specs digest createdAtMs dump file := by
  unfold parse
  simp only [ite_throw_eq_ok]
  constructor
  · rintro ⟨hmax, hmagic, -, hformat, hlen, hdigest, h⟩
    have hheader := headerLen_eq
    have hbody := take_eq_magic_append (n := file.length - digestLen) (by omega) (by omega)
      (not_not.mp hmagic) (not_not.mp hformat)
    have hfile : file = file.take (file.length - digestLen) ++
        (digest (file.take (file.length - digestLen))).val := by
      rw [not_not.mp hdigest, List.take_append_drop]
    have hregion : ((file.take (file.length - digestLen)).drop
        (magic.length + 2)).length < 2 ^ 64 := by
      rw [List.length_drop, List.length_take]
      rw [maxBackupFileLen] at hmax
      omega
    generalize (file.take (file.length - digestLen)).drop (magic.length + 2) = region at *
    obtain ⟨cur, hcur⟩ : ∃ cur,
        parseBody specs ⟨region, region.length⟩ = .ok (⟨createdAtMs, dump⟩, cur) := by
      split at h
      · rename_i parsed cur hparsed
        cases h
        exact ⟨cur, hparsed⟩
      · cases h
    obtain ⟨hversion, hcount, htables, rfl⟩ := (parseBody_eq_ok hvalid hregion).mp ⟨cur, hcur⟩
    refine ⟨hversion, hcount, htables, ?_, not_lt.mp hmax⟩
    rw [bodyBytes, ← hbody]
    exact hfile
  · rintro ⟨hversion, hcount, htables, rfl, hlen⟩
    have hheader := headerLen_le specs createdAtMs dump
    have hmagic : magic.length + 2 ≤ headerLen := by rw [headerLen_eq]; omega
    have hdigest := (digest (bodyBytes specs createdAtMs dump)).property
    have hlength : (bodyBytes specs createdAtMs dump ++
        (digest (bodyBytes specs createdAtMs dump)).val).length - digestLen =
          (bodyBytes specs createdAtMs dump).length := by
      rw [List.length_append, hdigest, Nat.add_sub_cancel]
    have hregion : (bodyBytes specs createdAtMs dump).drop (magic.length + 2) =
        regionBytes specs createdAtMs dump := by
      rw [bodyBytes, ← List.append_assoc, List.drop_left']
      rw [List.length_append, length_beBytes]
    have hformat : ofBe (((bodyBytes specs createdAtMs dump ++
        (digest (bodyBytes specs createdAtMs dump)).val).drop magic.length).take 2) =
          formatVersion := by
      rw [bodyBytes, List.append_assoc, List.drop_left, List.append_assoc,
        List.take_left' (length_beBytes 2 _)]
      decide
    have hregionLen : (regionBytes specs createdAtMs dump).length < 2 ^ 64 := by
      rw [← hregion, List.length_drop]
      rw [List.length_append, maxBackupFileLen] at hlen
      omega
    obtain ⟨cur, hcur⟩ : ∃ cur, parseBody specs ⟨regionBytes specs createdAtMs dump,
        (regionBytes specs createdAtMs dump).length⟩ = .ok (⟨createdAtMs, dump⟩, cur) :=
      (parseBody_eq_ok hvalid hregionLen).mpr ⟨hversion, hcount, htables, rfl⟩
    refine ⟨not_lt.mpr hlen, not_not.mpr ?_, ?_, not_not.mpr hformat, ?_, not_not.mpr ?_, ?_⟩
    · rw [bodyBytes, List.append_assoc]
      exact List.prefix_append _ _
    · rw [List.length_append, hdigest]
      omega
    · rw [List.length_append, hdigest]
      omega
    · rw [hlength, List.take_left, List.drop_left]
    · rw [hlength, List.take_left, hregion, hcur]
      rfl

/-! ### The bijection -/

/-- For every table schema with valid names and at most `maxColumns` columns a table, what `write`
returns is parsed back to the dump and time it was made of, and the row-count check accepts each of
its tables, whatever follows the rows. With distinct table names, as in the release's schema, what
`parse` accepts is what `write` makes of the dump and time it returns. -/
theorem backup_bijective (digest : Bytes → Digest) :
    (∀ specs : List TableSpec, (∀ spec ∈ specs, spec.Valid) → ∀ dump createdAtMs file,
      write specs digest dump createdAtMs = .ok file →
        parse specs digest file = .ok ⟨createdAtMs, dump⟩ ∧
        ∀ x ∈ specs.zip dump.tables, ∀ following : Bytes,
          rowCountFits x.2.rows.length (minRowLen x.1.columns)
            (x.2.rows.flatMap rowBytes ++ following).length = true) ∧
    (∀ (schema : Schema) file parsed, parse schema.tables digest file = .ok parsed →
      write schema.tables digest parsed.dump parsed.createdAtMs = .ok file) := by
  constructor
  · intro specs hvalid dump createdAtMs file h
    have hfile := isFile_of_write hvalid h
    refine ⟨(parse_eq_ok hvalid).mpr hfile, fun x hx following => ?_⟩
    have hfits := forall₂_rowCountFits hfile.tables hfile.length_tables_lt
    obtain ⟨hwithin, hlt⟩ := (List.forall₂_iff_zip.mp hfits).2 hx
    have hrows := mul_minRowLen_le hwithin.rows
    rw [rowCountFits, decide_eq_true hlt, Bool.true_and, decide_eq_true_eq, List.length_append]
    omega
  · rintro schema file ⟨createdAtMs, dump⟩ h
    exact write_of_isFile schema.valid schema.names_nodup ((parse_eq_ok schema.valid).mp h)

/-- A dump with one row of all kinds of values and every other table empty. -/
def sampleDump : Dump where
  schemaVersion := 12
  tables := backupSchema.tables.map fun spec =>
    ⟨spec.name, if spec.name = "auth_accounts" then
      [[.blob [0xAC], .text "ada", .integer 1700000000000]] else []⟩

/-- A stand-in for the hash: the length of its input. -/
def sampleDigest (bytes : Bytes) : Digest :=
  ⟨beBytes digestLen bytes.length, length_beBytes _ _⟩

/-- The file of the sample dump. -/
def sampleFile : Bytes :=
  let body := bodyBytes backupSchema.tables 1700000000000 sampleDump
  body ++ (sampleDigest body).val

instance : DecidablePred Within
  | .null => .isTrue trivial
  | .integer _ => .isTrue trivial
  | .text t => inferInstanceAs (Decidable (t.utf8ByteSize ≤ maxTextLen))
  | .blob b => inferInstanceAs (Decidable (b.length ≤ maxBlobLen))

instance : DecidableRel ValueWithin := fun column value =>
  inferInstanceAs (Decidable (fits column value = true ∧ Within value))

/-- The tables of the sample are the schema's. -/
theorem tables_sampleDump : List.Forall₂ TableWithin backupSchema.tables sampleDump.tables := by
  have hrow : ∀ spec ∈ backupSchema.tables, spec.name = "auth_accounts" →
      List.Forall₂ ValueWithin spec.columns
        [.blob [0xAC], .text "ada", .integer 1700000000000] := by decide +kernel
  refine List.forall₂_map_right_iff.mpr (List.forall₂_same.mpr fun spec hspec => ⟨rfl, ?_, ?_⟩)
  · dsimp only
    split_ifs <;> norm_num
  · dsimp only
    intro row hmem
    split_ifs at hmem with hname
    · rw [List.mem_singleton.mp hmem]
      exact hrow spec hspec hname
    · exact absurd hmem List.not_mem_nil

theorem write_sampleDump :
    write backupSchema.tables sampleDigest sampleDump 1700000000000 = .ok sampleFile := by
  have hlength : (bodyBytes backupSchema.tables 1700000000000 sampleDump).length + digestLen ≤
      maxBackupFileLen := by decide +kernel
  refine write_of_isFile backupSchema.valid backupSchema.names_nodup
    ⟨by decide, by decide +kernel, tables_sampleDump, rfl, ?_⟩
  rw [sampleFile, List.length_append, (sampleDigest _).property]
  exact hlength

theorem backup_bijective_sampleFile :
    parse backupSchema.tables sampleDigest sampleFile = .ok ⟨1700000000000, sampleDump⟩ ∧
      write backupSchema.tables sampleDigest sampleDump 1700000000000 = .ok sampleFile := by
  have hparse := ((backup_bijective sampleDigest).1 backupSchema.tables backupSchema.valid
    sampleDump 1700000000000 sampleFile write_sampleDump).1
  exact ⟨hparse, (backup_bijective sampleDigest).2 backupSchema sampleFile
    ⟨1700000000000, sampleDump⟩ hparse⟩

end RizzyVault.Storage
