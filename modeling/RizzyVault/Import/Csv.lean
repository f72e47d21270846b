import RizzyVault.Import.Text
import RizzyVault.Lib.Result

/-!
# The CSV reader

A bounded reader of comma-separated values, one record at a time. A quoted field is read in two
passes, one that finds its closing quote and one that unescapes what lies before it. Against the
reader stands a grammar of documents: fields, records of fields, and the one line break or end that
closes each record.

## Main definitions

* `Reader.nextRecord`, `Reader.all`, `readCsv`.
* `Field`, `Row`, `LineEnd`, `Document`: the grammar.

## Main results

* `quoted_eq_ok_iff`: the two passes over a quoted field agree.
* `fields_eq_ok_iff`: the reader of one record accepts the grammar of a record.
* `readCsv_eq_ok_iff`: what is accepted, and what is read, of any input.

## References

* `crates/rizzy-import/src/csv.rs`.
-/

open RizzyVault.Lib

namespace RizzyVault.Import.Csv

def maxEntries : ℕ := 100000
def maxCsvColumns : ℕ := 1024

/-! ### The reader -/

/-- Reads an unquoted field, up to a separator, a line break or the end. -/
def unquoted (src : List Char) : List Char × List Char :=
  (src.takeWhile fun c => c ∉ [',', '\r', '\n'], src.dropWhile fun c => c ∉ [',', '\r', '\n'])

/-- The first pass over a quoted field: where its closing quote is. -/
def closing : List Char → Option ℕ
  | [] => none
  | [c] => if c = '"' then some 0 else none
  | c :: d :: rest =>
    if c = '"' then if d = '"' then (closing rest).map (· + 2) else some 0
    else (closing (d :: rest)).map (· + 1)

/-- The second pass: of each doubled quote the first is kept. The characters since the last quote
are in `run`. -/
def unescape (run : List Char) : List Char → Except ImportError (List Char)
  | [] => .ok run
  | [c] => if c = '"' then .error .malformed else .ok (run ++ [c])
  | c :: d :: rest =>
    if c = '"' then return run ++ [c] ++ (← unescape [] rest) else unescape (run ++ [c]) (d :: rest)

/-- Reads a quoted field; the cursor is on its opening quote. -/
def quoted (src : List Char) : Except ImportError (List Char × List Char) :=
  match closing src.tail with
  | none => .error .malformed
  | some len => return (← unescape [] (src.tail.take len), src.tail.drop (len + 1))

/-- Reads one field. -/
def readField (src : List Char) : Except ImportError (List Char × List Char) :=
  if src.head? = some '"' then quoted src else .ok (unquoted src)

/-- Reads the fields of one record, at most `columns` of them, and the line break after them. -/
def fields : ℕ → List Char → Except ImportError (List (List Char) × List Char)
  | 0, _ => .error .tooMany
  | columns + 1, src => do
    let (field, rest) ← readField src
    match rest with
    | [] => return ([field], [])
    | c :: rest =>
      if c = ',' then
        let (record, rest) ← fields columns rest
        return (field :: record, rest)
      else if c = '\r' then return ([field], if rest.head? = some '\n' then rest.tail else rest)
      else if c = '\n' then return ([field], rest)
      else .error .malformed

abbrev Record := List String

/-- A reader: what is left of the document, and the records returned so far. -/
structure Reader where
  src : List Char
  records : ℕ

def Reader.new (input : List Byte) (maxLen : ℕ) : Except ImportError Reader :=
  return ⟨← utf8Input input maxLen, 0⟩

/-- The next record, or none at the end of the input. -/
def Reader.nextRecord (r : Reader) : Except ImportError (Option (Record × Reader)) :=
  if r.src = [] then .ok none
  else if maxEntries + 1 < r.records + 1 then .error .tooMany
  else do
    let (record, rest) ← fields maxCsvColumns r.src
    return some (record.map String.ofList, ⟨rest, r.records + 1⟩)

/-! ### The grammar -/

def double (c : Char) : List Char := if c = '"' then ['"', '"'] else [c]

/-- The texts of a field: without separators, line breaks and an opening quote, or quoted. -/
inductive Field : List Char → List Char → Prop
  | unquoted (s : List Char) (hs : ∀ c ∈ s, c ∉ [',', '\r', '\n']) (hq : s.head? ≠ some '"') :
      Field s s
  | quoted (s : List Char) : Field ('"' :: s.flatMap double ++ ['"']) s

/-- The texts of a record: those of its fields, separated by commas. -/
inductive Row : List Char → List (List Char) → Prop
  | single {t s} (h : Field t s) : Row t [s]
  | cons {t s ts record} (h : Field t s) (hrow : Row ts record) : Row (t ++ ',' :: ts) (s :: record)

/-- What closes a record when `rest` follows: exactly one line break, or the end. -/
inductive LineEnd (rest : List Char) : List Char → Prop
  | crlf : LineEnd rest ['\r', '\n']
  | lf : LineEnd rest ['\n']
  | cr (h : rest.head? ≠ some '\n') : LineEnd rest ['\r']
  | finish (h : rest = []) : LineEnd rest []

/-- The texts of a document: those of its records, each with what closes it. -/
inductive Document : List Char → List Record → Prop
  | nil : Document [] []
  | cons {t record e rest records} (hrow : Row t record) (hend : LineEnd rest e)
      (hne : t ++ e ≠ []) (hrest : Document rest records) :
      Document (t ++ e ++ rest) (record.map String.ofList :: records)

/-! ### Quoted fields -/

theorem flatMap_double_cons (c : Char) (s : List Char) :
    (c :: s).flatMap double = double c ++ s.flatMap double := rfl

theorem double_quote : double '"' = ['"', '"'] := rfl

theorem double_of_ne {c : Char} (h : c ≠ '"') : double c = [c] := if_neg h

theorem closing_cons_of_ne {c : Char} (hc : c ≠ '"') (l : List Char) :
    closing (c :: l) = (closing l).map (· + 1) := by
  cases l with
  | nil => simp [closing, hc]
  | cons d l => simp only [closing, if_neg hc]

theorem closing_doubled (l : List Char) : closing ('"' :: '"' :: l) = (closing l).map (· + 2) := by
  simp only [closing, ↓reduceIte]

theorem closing_quote {l : List Char} (hl : l.head? ≠ some '"') : closing ('"' :: l) = some 0 := by
  cases l with
  | nil => rfl
  | cons d l =>
    have hd : d ≠ '"' := fun h => hl (congrArg some h)
    simp only [closing, ↓reduceIte, if_neg hd]

/-- The first pass stops at the quote after a text of doubled quotes. -/
theorem closing_double (s : List Char) {rest : List Char} (hrest : rest.head? ≠ some '"') :
    closing (s.flatMap double ++ '"' :: rest) = some (s.flatMap double).length := by
  induction s with
  | nil => exact closing_quote hrest
  | cons c s ih =>
    by_cases hc : c = '"'
    · subst hc
      rw [flatMap_double_cons, double_quote]
      show closing ('"' :: '"' :: (s.flatMap double ++ '"' :: rest)) = _
      rw [closing_doubled, ih]
      simp
    · rw [flatMap_double_cons, double_of_ne hc]
      show closing (c :: (s.flatMap double ++ '"' :: rest)) = _
      rw [closing_cons_of_ne hc, ih]
      simp

/-- What the first pass finds: a text of doubled quotes, and the quote that closes it. -/
theorem exists_of_closing {src : List Char} {len : ℕ} (h : closing src = some len) :
    ∃ (s rest : List Char), src = s.flatMap double ++ '"' :: rest ∧ rest.head? ≠ some '"' ∧
      (s.flatMap double).length = len := by
  induction hn : src.length using Nat.strong_induction_on generalizing src len with
  | _ n ih =>
    subst hn
    cases src with
    | nil => cases h
    | cons c l =>
      by_cases hc : c = '"'
      · subst hc
        by_cases hl : l.head? = some '"'
        · obtain ⟨l, rfl⟩ : ∃ l', l = '"' :: l' := ⟨l.tail, (List.cons_head?_tail hl).symm⟩
          rw [closing_doubled] at h
          obtain ⟨k, hk, rfl⟩ := Option.map_eq_some_iff.mp h
          obtain ⟨s, rest, rfl, hrest, rfl⟩ := ih _ (by simp) hk rfl
          exact ⟨'"' :: s, rest, rfl, hrest, by simp [double_quote]⟩
        · rw [closing_quote hl] at h
          cases h
          exact ⟨[], l, rfl, hl, rfl⟩
      · rw [closing_cons_of_ne hc] at h
        obtain ⟨k, hk, rfl⟩ := Option.map_eq_some_iff.mp h
        obtain ⟨s, rest, rfl, hrest, rfl⟩ := ih _ (by simp) hk rfl
        exact ⟨c :: s, rest, by simp [double_of_ne hc], hrest, by simp [double_of_ne hc]⟩

theorem unescape_cons_of_ne {c : Char} (hc : c ≠ '"') (run l : List Char) :
    unescape run (c :: l) = unescape (run ++ [c]) l := by
  cases l with
  | nil => simp [unescape, hc]
  | cons d l => simp only [unescape, if_neg hc]

/-- The second pass recovers a text from its doubled quotes. -/
theorem unescape_double (run s : List Char) : unescape run (s.flatMap double) = .ok (run ++ s) := by
  induction s generalizing run with
  | nil => simp [unescape]
  | cons c s ih =>
    by_cases hc : c = '"'
    · subst hc
      rw [flatMap_double_cons, double_quote]
      show unescape run ('"' :: '"' :: s.flatMap double) = _
      simp [unescape, ih, pure, Except.pure, bind, Except.bind]
    · rw [flatMap_double_cons, double_of_ne hc]
      show unescape run (c :: s.flatMap double) = _
      rw [unescape_cons_of_ne hc, ih]
      simp

/-- The two passes agree: a quoted field is a text of doubled quotes between two quotes. -/
theorem quoted_eq_ok_iff {body s rest : List Char} :
    quoted ('"' :: body) = .ok (s, rest) ↔
      body = s.flatMap double ++ '"' :: rest ∧ rest.head? ≠ some '"' := by
  unfold quoted
  rw [List.tail_cons]
  constructor
  · intro h
    split at h
    · cases h
    · rename_i len hlen
      obtain ⟨s', rest', rfl, hrest, rfl⟩ := exists_of_closing hlen
      rw [List.take_left, unescape_double] at h
      cases h
      simpa [List.drop_append] using hrest
  · rintro ⟨rfl, hrest⟩
    rw [closing_double s hrest]
    simp only [List.take_left, unescape_double]
    simp [List.drop_append, pure, Except.pure, bind, Except.bind]

/-! ### Records -/

/-- The reader of a field, where a field can end. -/
theorem readField_eq_ok_iff {src s rest : List Char}
    (hrest : ∀ c ∈ rest.head?, c ∈ [',', '\r', '\n']) :
    readField src = .ok (s, rest) ↔ ∃ t, Field t s ∧ src = t ++ rest := by
  unfold readField
  constructor
  · intro h
    split_ifs at h with hq
    · obtain ⟨body, rfl⟩ : ∃ body, src = '"' :: body := ⟨src.tail, (List.cons_head?_tail hq).symm⟩
      obtain ⟨rfl, -⟩ := quoted_eq_ok_iff.mp h
      exact ⟨_, .quoted s, by simp⟩
    · cases h
      refine ⟨_, .unquoted _ (fun c hc => by simpa using List.mem_takeWhile_imp hc) ?_,
        (List.takeWhile_append_dropWhile).symm⟩
      intro hhead
      cases src with
      | nil => cases hhead
      | cons c src =>
        rw [List.takeWhile_cons] at hhead
        split_ifs at hhead
        · exact hq hhead
        · cases hhead
  · rintro ⟨t, ht, rfl⟩
    have hstop : rest.head? ≠ some '"' := fun h => absurd (hrest _ h) (by decide)
    cases ht with
    | unquoted _ hs hq =>
      have hhead : (s ++ rest).head? ≠ some '"' := by
        cases s with
        | nil => exact hstop
        | cons c s => exact hq
      rw [if_neg hhead, unquoted]
      have htake : (s ++ rest).takeWhile (fun c => c ∉ [',', '\r', '\n']) = s := by
        rw [List.takeWhile_append_of_pos (fun c hc => by simpa using hs c hc)]
        cases rest with
        | nil => simp
        | cons d rest =>
          rw [List.takeWhile_cons_of_neg (p := fun c => decide (c ∉ [',', '\r', '\n']))
            fun h => of_decide_eq_true h (hrest d rfl), List.append_nil]
      have hdrop : (s ++ rest).dropWhile (fun c => c ∉ [',', '\r', '\n']) = rest := by
        rw [List.dropWhile_append_of_pos (fun c hc => by simpa using hs c hc)]
        cases rest with
        | nil => rfl
        | cons d rest => exact List.dropWhile_cons_of_neg fun h => of_decide_eq_true h (hrest d rfl)
      rw [htake, hdrop]
    | quoted s =>
      exact quoted_eq_ok_iff.mpr ⟨by simp, hstop⟩

theorem Row.ne_nil {t : List Char} {record : List (List Char)} (h : Row t record) : record ≠ [] := by
  cases h <;> simp

/-- One field of a record: another one follows, or the record is closed. -/
theorem fields_succ_eq_ok_iff {n : ℕ} {src rest : List Char} {record : List (List Char)} :
    fields (n + 1) src = .ok (record, rest) ↔ ∃ s r, readField src = .ok (s, r) ∧
      ((∃ record' r', r = ',' :: r' ∧ fields n r' = .ok (record', rest) ∧ record = s :: record') ∨
        ∃ e, LineEnd rest e ∧ r = e ++ rest ∧ record = [s]) := by
  rw [fields, except_bind_eq_ok, Prod.exists]
  refine exists_congr fun s => exists_congr fun r => and_congr_right fun _ => ?_
  constructor
  · intro h
    cases r with
    | nil =>
      cases h
      exact .inr ⟨[], .finish rfl, rfl, rfl⟩
    | cons c r' =>
      simp only at h
      split_ifs at h with hcomma hcr hlf hlf
      · obtain ⟨⟨record', rest'⟩, hfields, hrec⟩ := except_bind_eq_ok.mp h
        cases hrec
        exact .inl ⟨record', r', by rw [hcomma], hfields, rfl⟩
      · cases h
        refine .inr ⟨_, .crlf, ?_, rfl⟩
        rw [hcr]
        exact congrArg _ (List.cons_head?_tail hlf).symm
      · cases h
        exact .inr ⟨_, .cr hlf, by rw [hcr]; rfl, rfl⟩
      · cases h
        exact .inr ⟨_, .lf, by rw [hlf]; rfl, rfl⟩
  · rintro (⟨record', r', rfl, hfields, rfl⟩ | ⟨e, he, rfl, rfl⟩)
    · simp [hfields, bind, Except.bind, pure, Except.pure]
    · cases he with
      | crlf => rfl
      | lf => rfl
      | cr h => simp [h, pure, Except.pure]
      | finish h =>
        rw [h]
        rfl

/-- What follows a field where a record closes. -/
theorem LineEnd.stops {rest e : List Char} (h : LineEnd rest e) :
    ∀ c ∈ (e ++ rest).head?, c ∈ [',', '\r', '\n'] := by
  cases h with
  | crlf => simp
  | lf => simp
  | cr _ => simp
  | finish h => simp [h]

/-- The reader of one record accepts the grammar of a record, and what closes it. -/
theorem fields_eq_ok_iff {n : ℕ} {src rest : List Char} {record : List (List Char)} :
    fields n src = .ok (record, rest) ↔
      record.length ≤ n ∧ ∃ t e, Row t record ∧ LineEnd rest e ∧ src = t ++ e ++ rest := by
  induction n generalizing src record with
  | zero =>
    constructor
    · intro h
      cases h
    · rintro ⟨hlen, t, e, hrow, -⟩
      exact absurd (List.length_eq_zero_iff.mp (Nat.le_zero.mp hlen)) hrow.ne_nil
  | succ n ih =>
    rw [fields_succ_eq_ok_iff]
    constructor
    · rintro ⟨s, r, hread, ⟨record', r', rfl, hfields, rfl⟩ | ⟨e, he, rfl, rfl⟩⟩
      · obtain ⟨t, ht, rfl⟩ := (readField_eq_ok_iff (by simp)).mp hread
        obtain ⟨hlen, ts, e, hrow, he, rfl⟩ := ih.mp hfields
        exact ⟨Nat.succ_le_succ hlen, _, e, .cons ht hrow, he, by simp⟩
      · obtain ⟨t, ht, rfl⟩ := (readField_eq_ok_iff he.stops).mp hread
        exact ⟨Nat.succ_le_succ (Nat.zero_le n), t, e, .single ht, he, by simp⟩
    · rintro ⟨hlen, t, e, hrow, he, rfl⟩
      cases hrow with
      | single ht =>
        refine ⟨_, e ++ rest, (readField_eq_ok_iff he.stops).mpr ⟨t, ht, by simp⟩, .inr ?_⟩
        exact ⟨e, he, rfl, rfl⟩
      | @cons t s ts record ht hrow =>
        refine ⟨s, ',' :: (ts ++ e ++ rest),
          (readField_eq_ok_iff (by simp)).mpr ⟨t, ht, by simp⟩, .inl ?_⟩
        exact ⟨record, _, rfl, ih.mpr ⟨Nat.le_of_succ_le_succ hlen, ts, e, hrow, he, rfl⟩, rfl⟩

/-! ### Documents -/

/-- A text that is read ends in something: a record is closed by a break, or it is not empty. -/
theorem LineEnd.ne_nil {t e rest : List Char} (h : LineEnd rest e) (hne : t ++ e ++ rest ≠ []) :
    t ++ e ≠ [] := by
  intro hnil
  cases h with
  | crlf => simp at hnil
  | lf => simp at hnil
  | cr _ => simp at hnil
  | finish h =>
    rw [hnil, h] at hne
    exact hne rfl

theorem Reader.nextRecord_eq_none_iff {r : Reader} : r.nextRecord = .ok none ↔ r.src = [] := by
  unfold Reader.nextRecord
  constructor
  · intro h
    split_ifs at h with hsrc
    · exact hsrc
    · obtain ⟨⟨record, rest⟩, -, hnone⟩ := except_bind_eq_ok.mp h
      cases hnone
  · intro h
    rw [if_pos h]

/-- One record of a document. -/
theorem Reader.nextRecord_eq_some_iff {r r' : Reader} {record : Record} :
    r.nextRecord = .ok (some (record, r')) ↔
      r.records ≤ maxEntries ∧ r'.records = r.records + 1 ∧ ∃ t e cells, Row t cells ∧
        LineEnd r'.src e ∧ r.src = t ++ e ++ r'.src ∧ t ++ e ≠ [] ∧
        record = cells.map String.ofList ∧ cells.length ≤ maxCsvColumns := by
  unfold Reader.nextRecord
  constructor
  · intro h
    split_ifs at h with hsrc hmax
    · cases h
    obtain ⟨⟨cells, rest⟩, hfields, hsome⟩ := except_bind_eq_ok.mp h
    cases hsome
    obtain ⟨hlen, t, e, hrow, he, heq⟩ := fields_eq_ok_iff.mp hfields
    exact ⟨by omega, rfl, t, e, cells, hrow, he, heq, he.ne_nil (heq ▸ hsrc), rfl, hlen⟩
  · rintro ⟨hmax, hcount, t, e, cells, hrow, he, heq, hne, rfl, hlen⟩
    have hsrc : r.src ≠ [] := by
      rw [heq]
      exact List.append_ne_nil_of_left_ne_nil hne _
    have hfields := fields_eq_ok_iff.mpr ⟨hlen, t, e, hrow, he, heq⟩
    rw [if_neg hsrc, if_neg (by omega), hfields]
    obtain ⟨src', records'⟩ := r'
    cases hcount
    rfl

theorem Reader.nextRecord_lt {r r' : Reader} {record : Record}
    (h : r.nextRecord = .ok (some (record, r'))) : r'.src.length < r.src.length := by
  obtain ⟨-, -, t, e, cells, -, -, heq, hne, -⟩ := nextRecord_eq_some_iff.mp h
  have hpos := List.length_pos_of_ne_nil hne
  rw [heq, List.length_append]
  omega

/-- All records of a document. -/
def Reader.all (r : Reader) : Except ImportError (List Record) :=
  match _h : r.nextRecord with
  | .error e => .error e
  | .ok none => .ok []
  | .ok (some (record, r')) => return record :: (← r'.all)
termination_by r.src.length
decreasing_by exact Reader.nextRecord_lt _h

/-- Reads a whole input. -/
def readCsv (input : List Byte) (maxLen : ℕ) : Except ImportError (List Record) := do
  (← Reader.new input maxLen).all

/-- A reader returns the records of a document, if they are within its caps. -/
theorem Reader.all_eq_ok_iff {r : Reader} {records : List Record}
    (hr : r.records ≤ maxEntries + 1) :
    r.all = .ok records ↔ Document r.src records ∧
      r.records + records.length ≤ maxEntries + 1 ∧
        ∀ record ∈ records, record.length ≤ maxCsvColumns := by
  induction hn : r.src.length using Nat.strong_induction_on generalizing r records with
  | _ n ih =>
    subst hn
    rw [Reader.all]
    constructor
    · intro h
      split at h
      · cases h
      · rename_i hnone
        cases h
        rw [nextRecord_eq_none_iff.mp hnone]
        exact ⟨.nil, hr, by simp⟩
      · rename_i record r' hsome
        obtain ⟨records, hall, hrec⟩ := except_bind_eq_ok.mp h
        cases hrec
        have hlt := nextRecord_lt hsome
        obtain ⟨hmax, hcount, t, e, cells, hrow, he, heq, hne, rfl, hlen⟩ :=
          nextRecord_eq_some_iff.mp hsome
        obtain ⟨hdoc, htotal, hcols⟩ := (ih _ hlt (by omega) rfl).mp hall
        rw [heq]
        refine ⟨.cons hrow he hne hdoc, ?_, ?_⟩
        · rw [List.length_cons]
          omega
        · rw [List.forall_mem_cons, List.length_map]
          exact ⟨hlen, hcols⟩
    · rintro ⟨hdoc, htotal, hcols⟩
      generalize hsrc : r.src = src at hdoc
      cases hdoc with
      | nil =>
        have hnone := nextRecord_eq_none_iff.mpr hsrc
        split
        · simp_all
        · rfl
        · simp_all
      | @cons t cells e rest records hrow he hne hrest =>
        obtain ⟨hcells, hcols⟩ := List.forall_mem_cons.mp hcols
        rw [List.length_cons] at htotal
        rw [List.length_map] at hcells
        have hsome : r.nextRecord = .ok (some (cells.map String.ofList, ⟨rest, r.records + 1⟩)) :=
          nextRecord_eq_some_iff.mpr
            ⟨by omega, rfl, t, e, cells, hrow, he, hsrc, hne, rfl, hcells⟩
        have hall := (ih _ (nextRecord_lt hsome) (r := ⟨rest, r.records + 1⟩) (by simp; omega)
          rfl).mpr ⟨hrest, by simp; omega, hcols⟩
        split
        · simp_all
        · simp_all
        · rename_i record r' hsome'
          rw [hsome] at hsome'
          cases hsome'
          rw [hall]
          rfl

/-- What is accepted of any input, and what is read of it. -/
theorem readCsv_eq_ok_iff {input : List Byte} {maxLen : ℕ} {records : List Record} :
    readCsv input maxLen = .ok records ↔
      input.length ≤ maxLen ∧
        (∃ text, utf8 (String.ofList text) = body input ∧ Document text records) ∧
        records.length ≤ maxEntries + 1 ∧ ∀ record ∈ records, record.length ≤ maxCsvColumns := by
  unfold readCsv Reader.new
  constructor
  · intro h
    obtain ⟨r, hr, hall⟩ := except_bind_eq_ok.mp h
    obtain ⟨src, hsrc, hr⟩ := except_bind_eq_ok.mp hr
    cases hr
    obtain ⟨hlen, htext⟩ := utf8Input_eq_ok_iff.mp hsrc
    obtain ⟨hdoc, hcount, hcols⟩ := (Reader.all_eq_ok_iff (Nat.zero_le _)).mp hall
    rw [Nat.zero_add] at hcount
    exact ⟨hlen, ⟨src, htext, hdoc⟩, hcount, hcols⟩
  · rintro ⟨hlen, ⟨src, htext, hdoc⟩, hcount, hcols⟩
    have hsrc := utf8Input_eq_ok_iff.mpr ⟨hlen, htext⟩
    have hall := (Reader.all_eq_ok_iff (r := ⟨src, 0⟩) (Nat.zero_le _)).mpr
      ⟨hdoc, by rwa [Nat.zero_add], hcols⟩
    rw [hsrc]
    exact hall

end RizzyVault.Import.Csv
