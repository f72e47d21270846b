import RizzyVault.Core.FieldKey
import RizzyVault.Lib.Result
import RizzyVault.Storage.Tables

/-!
# Logical dumps

A dump holds the rows of every backed-up table, stamped with the schema version. Before a dump is
restored or written to a file, each of its tables is matched to its position in the schema, every
table once and in order, and every row is checked against the columns of its table.

The schema is a parameter here.

## Main definitions

* `Value`, `TableDump`, `Dump`.
* `checkRow`, `plan`: the check of a dump.

## Main results

* `forall₂_of_plan`, `plan_of_forall₂`: the accepted dumps, and the plan for them.

## References

* `crates/rizzy-storage/src/backup.rs`, `crates/rizzy-storage/src/error.rs`.
-/

open RizzyVault.Lib
open RizzyVault.Core (Bytes)

namespace RizzyVault.Storage

/-- One column value of a dumped row. -/
inductive Value
  | null
  | integer (v : Int64)
  | text (t : String)
  | blob (b : Bytes)
  deriving DecidableEq

/-- The rows of one table. -/
structure TableDump where
  table : String
  rows : List (List Value)
  deriving DecidableEq

/-- Every backed-up table as rows. -/
structure Dump where
  schemaVersion : Int64
  tables : List TableDump
  deriving DecidableEq

/-- Why a dump does not fit the tables. -/
inductive RestoreError
  | unknownTable (index : ℕ)
  | tableOrder (index : ℕ)
  | missingTable (name : String)
  | row (table : String) (row : ℕ) (column : Option ℕ)
  deriving DecidableEq

/-- Whether a value is of the column's kind, or NULL where the column allows it. -/
def fits (column : Column) : Value → Bool
  | .null => column.nullable
  | .integer _ => column.kind = .integer
  | .text _ => column.kind = .text
  | .blob _ => column.kind = .blob

/-- Checks one row against its table. -/
def checkRow (spec : TableSpec) (rowIndex : ℕ) (row : List Value) : Except RestoreError Unit := do
  if row.length ≠ spec.columns.length then throw (.row spec.name rowIndex none)
  (spec.columns.zip row).zipIdx.forM fun ((column, value), columnIndex) =>
    if fits column value then .ok () else .error (.row spec.name rowIndex (some columnIndex))

/-- The loop of `plan`, from the dump's table at `index`; the schema's table at `next` is the first
one not seen yet. -/
def planFrom (specs : List TableSpec) :
    ℕ → ℕ → List TableDump → Except RestoreError (List (TableSpec × TableDump))
  | _, next, [] =>
    match specs[next]? with
    | some missing => .error (.missingTable missing.name)
    | none => .ok []
  | index, next, table :: rest =>
    match specs.findIdx? fun s => s.name = table.table with
    | none => .error (.unknownTable index)
    | some position => do
      if position < next then throw (.tableOrder index)
      match specs[next]?.filter fun _ => next < position with
      | some skipped => .error (.missingTable skipped.name)
      | none =>
        match specs[position]? with
        | none => .error (.unknownTable index)
        | some spec => do
          table.rows.zipIdx.forM fun (row, rowIndex) => checkRow spec rowIndex row
          return (spec, table) :: (← planFrom specs (index + 1) (position + 1) rest)

/-- Matches each table of a dump to its spec and checks every row. -/
def plan (specs : List TableSpec) (dump : Dump) :
    Except RestoreError (List (TableSpec × TableDump)) :=
  planFrom specs 0 0 dump.tables

/-! ### The accepted dumps -/

section

variable {specs : List TableSpec}

/-- A dump's table is the one `spec` describes. -/
def TableFits (spec : TableSpec) (table : TableDump) : Prop :=
  table.table = spec.name ∧
    ∀ row ∈ table.rows, List.Forall₂ (fun column value => fits column value = true) spec.columns row

theorem checkRow_eq_ok {spec : TableSpec} {rowIndex : ℕ} {row : List Value} :
    checkRow spec rowIndex row = .ok () ↔
      List.Forall₂ (fun column value => fits column value = true) spec.columns row := by
  unfold checkRow
  rw [ite_throw_eq_ok, not_not, forM_eq_ok, List.forall₂_iff_zip, eq_comm]
  refine and_congr_right fun _ => ?_
  constructor
  · intro h column value hmem
    obtain ⟨i, hi, hget⟩ := List.mem_iff_getElem.mp hmem
    have := h ((column, value), i) (List.mk_mem_zipIdx_iff_getElem?.mpr (by
      rw [List.getElem?_eq_getElem hi, hget]))
    simpa using this
  · rintro h ⟨⟨column, value⟩, i⟩ hmem
    have hmem' : (column, value) ∈ spec.columns.zip row :=
      List.mem_of_getElem? (List.mk_mem_zipIdx_iff_getElem?.mp hmem)
    simp [h hmem']

theorem forM_checkRow_eq_ok {spec : TableSpec} {rows : List (List Value)} :
    (rows.zipIdx.forM fun (row, rowIndex) => checkRow spec rowIndex row) = .ok () ↔
      ∀ row ∈ rows,
        List.Forall₂ (fun column value => fits column value = true) spec.columns row := by
  rw [forM_eq_ok]
  constructor
  · intro h row hrow
    obtain ⟨i, hi, rfl⟩ := List.mem_iff_getElem.mp hrow
    exact checkRow_eq_ok.mp (h (rows[i], i)
      (List.mk_mem_zipIdx_iff_getElem?.mpr (List.getElem?_eq_getElem hi)))
  · rintro h ⟨row, i⟩ hmem
    exact checkRow_eq_ok.mpr
      (h row (List.mem_of_getElem? (List.mk_mem_zipIdx_iff_getElem?.mp hmem)))

theorem findIdx?_name (hnames : (specs.map TableSpec.name).Nodup) {i : ℕ} {spec : TableSpec}
    (hi : specs[i]? = some spec) : specs.findIdx? (fun s => s.name = spec.name) = some i := by
  obtain ⟨hlt, rfl⟩ := List.getElem?_eq_some_iff.mp hi
  rw [List.findIdx?_eq_some_iff_getElem]
  refine ⟨hlt, by simp, fun j hj => ?_⟩
  simp only [decide_eq_true_eq]
  intro hname
  have hnodup := List.pairwise_iff_getElem.mp hnames j i (by simp; omega) (by simpa using hlt) hj
  simp only [List.getElem_map] at hnodup
  exact hnodup hname

/-- An accepted dump has every table from the schema's table at `next` on, once and in order. -/
theorem forall₂_of_planFrom {index next : ℕ} {tables : List TableDump}
    {planned : List (TableSpec × TableDump)} (h : planFrom specs index next tables = .ok planned) :
    List.Forall₂ TableFits (specs.drop next) tables ∧ planned = (specs.drop next).zip tables := by
  induction tables generalizing index next planned with
  | nil =>
    simp only [planFrom] at h
    cases hnext : specs[next]? with
    | none =>
      rw [hnext] at h
      cases h
      rw [List.drop_eq_nil_iff.mpr (List.getElem?_eq_none_iff.mp hnext)]
      exact ⟨.nil, rfl⟩
    | some missing =>
      rw [hnext] at h
      cases h
  | cons table tables ih =>
    simp only [planFrom] at h
    cases hposition : specs.findIdx? fun s => s.name = table.table with
    | none =>
      rw [hposition] at h
      cases h
    | some position =>
      obtain ⟨hlt, hname, -⟩ := List.findIdx?_eq_some_iff_getElem.mp hposition
      have hget : specs[position]? = some specs[position] := List.getElem?_eq_getElem hlt
      rw [decide_eq_true_eq] at hname
      simp only [hposition, hget] at h
      obtain ⟨hback, h⟩ := ite_throw_eq_ok.mp h
      -- A later position skips the table at `next`.
      have hnext : position = next := by
        by_contra hne
        have hskip : next < position := by omega
        rw [List.getElem?_eq_getElem (by omega), Option.filter_some,
          if_pos (decide_eq_true hskip)] at h
        cases h
      subst hnext
      simp only [hget, Option.filter_some, lt_irrefl, decide_false, Bool.false_eq_true,
        if_false] at h
      obtain ⟨⟨⟩, hrows, h⟩ := except_bind_eq_ok.mp h
      obtain ⟨rest, hrest, h⟩ := except_bind_eq_ok.mp h
      cases h
      obtain ⟨hall, rfl⟩ := ih hrest
      rw [List.drop_eq_getElem_cons hlt]
      exact ⟨.cons ⟨hname.symm, forM_checkRow_eq_ok.mp hrows⟩ hall, rfl⟩

/-- Such a dump is accepted when no two tables of the schema share a name. -/
theorem planFrom_of_forall₂ (hnames : (specs.map TableSpec.name).Nodup) {index next : ℕ}
    {tables : List TableDump} (hall : List.Forall₂ TableFits (specs.drop next) tables) :
    planFrom specs index next tables = .ok ((specs.drop next).zip tables) := by
  induction tables generalizing index next with
  | nil =>
    have hdrop := List.forall₂_nil_right_iff.mp hall
    simp only [planFrom, List.getElem?_eq_none_iff.mpr (List.drop_eq_nil_iff.mp hdrop),
      List.zip_nil_right]
  | cons table tables ih =>
    obtain ⟨spec, rest, hfits, hall, hdrop⟩ := List.forall₂_cons_right_iff.mp hall
    obtain ⟨hname, hrows⟩ := hfits
    have hget : specs[next]? = some spec := by
      rw [← List.head?_drop, hdrop, List.head?_cons]
    have hrest : specs.drop (next + 1) = rest := by
      rw [← List.tail_drop, hdrop, List.tail_cons]
    simp only [planFrom, hname, findIdx?_name hnames hget, hget, lt_irrefl, if_false,
      Option.filter_some, decide_false, Bool.false_eq_true]
    refine except_bind_eq_ok.mpr ⟨(), forM_checkRow_eq_ok.mpr hrows, ?_⟩
    rw [← hrest] at hall
    refine except_bind_eq_ok.mpr ⟨_, ih hall, ?_⟩
    rw [hdrop, hrest, List.zip_cons_cons]
    rfl

theorem forall₂_of_plan {dump : Dump} {planned : List (TableSpec × TableDump)}
    (h : plan specs dump = .ok planned) :
    List.Forall₂ TableFits specs dump.tables ∧ planned = specs.zip dump.tables :=
  forall₂_of_planFrom h

theorem plan_of_forall₂ (hnames : (specs.map TableSpec.name).Nodup) {dump : Dump}
    (hall : List.Forall₂ TableFits specs dump.tables) :
    plan specs dump = .ok (specs.zip dump.tables) :=
  planFrom_of_forall₂ hnames hall

end

end RizzyVault.Storage
