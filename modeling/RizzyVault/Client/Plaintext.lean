import RizzyVault.Import.Csv

/-!
# The CSV form of the plaintext export

A document is written twice, once into a sink that only measures and once into a buffer of the
measured size, which never grows. What a sink holds at the end is what was put into it, piece after
piece, if the buffer is large enough.

## Main definitions

* `Sink.put`, `Sink.csvCell`, `Sink.csvRow`.
* `Puts`: a step puts certain bytes.

## Main results

* `puts_csvRow`: the bytes of one row.
* `csv_codec`: the rows written are the rows read.

## References

* `crates/rizzy-client/src/export/plaintext.rs`.
-/

open RizzyVault.Lib RizzyVault.Import RizzyVault.Import.Csv

namespace RizzyVault.Client.Plaintext

def usizeMax : ℕ := 2 ^ 64 - 1

/-- A buffer of a fixed capacity. -/
structure Buffer where
  capacity : ℕ
  bytes : List Byte

/-- A writer that either measures a document or writes it into a buffer of the measured size. -/
structure Sink where
  out : Option Buffer
  len : ℕ
  failed : Bool

def Sink.measuring : Sink := ⟨none, 0, false⟩
def Sink.writing (len : ℕ) : Sink := ⟨some ⟨len, []⟩, 0, false⟩

/-- Appends bytes, unless the buffer would have to grow. -/
def Sink.put (s : Sink) (bytes : List Byte) : Sink :=
  let s := { s with len := min (s.len + bytes.length) usizeMax }
  match s.out with
  | none => s
  | some out =>
    if out.capacity - out.bytes.length < bytes.length then { s with failed := true }
    else { s with out := some { out with bytes := out.bytes ++ bytes } }

def quote : Byte := 0x22
def comma : Byte := 0x2C
def lf : Byte := 0x0A
def cr : Byte := 0x0D

/-- Puts a line with its quotes doubled: up to the first quote, and so on. -/
def Sink.csvLine (s : Sink) (rest : List Byte) : Sink :=
  match h : rest.findIdx? (· = quote) with
  | none => s.put rest
  | some i => ((s.put (rest.take i)).put [quote, quote]).csvLine (rest.drop (i + 1))
termination_by rest.length
decreasing_by
  have hlt := (List.findIdx?_eq_some_iff_getElem.mp h).1
  rw [List.length_drop]
  omega

/-- One cell: quoted, its lines joined with LF. -/
def Sink.csvCell (s : Sink) (lines : List String) : Sink :=
  let s := s.put [quote]
  let s := lines.zipIdx.foldl (fun s line =>
    (if 0 < line.2 then s.put [lf] else s).csvLine (utf8 line.1)) s
  s.put [quote]

/-- One row of cells, ended with CRLF. -/
def Sink.csvRow (s : Sink) (cells : List (List String)) : Sink :=
  let s := cells.zipIdx.foldl (fun s cell =>
    (if 0 < cell.2 then s.put [comma] else s).csvCell cell.1) s
  s.put [cr, lf]

/-! ### What a step puts -/

/-- The step puts these bytes, in pieces. -/
def Puts (f : Sink → Sink) (bytes : List Byte) : Prop :=
  ∃ pieces : List (List Byte), pieces.flatten = bytes ∧ ∀ s, f s = pieces.foldl Sink.put s

theorem puts_put (bytes : List Byte) : Puts (fun s => s.put bytes) bytes :=
  ⟨[bytes], by simp, fun _ => rfl⟩

theorem puts_id : Puts id [] := ⟨[], rfl, fun _ => rfl⟩

theorem Puts.comp {f g : Sink → Sink} {a b : List Byte} (hf : Puts f a) (hg : Puts g b) :
    Puts (fun s => g (f s)) (a ++ b) := by
  obtain ⟨ps, rfl, hf⟩ := hf
  obtain ⟨qs, rfl, hg⟩ := hg
  refine ⟨ps ++ qs, List.flatten_append, fun s => ?_⟩
  show g (f s) = _
  rw [List.foldl_append, ← hf, hg]

theorem Puts.foldl {α : Type} {f : Sink → α → Sink} {put : α → List Byte} {l : List α}
    (hf : ∀ x ∈ l, Puts (fun s => f s x) (put x)) :
    Puts (fun s => l.foldl f s) (l.flatMap put) := by
  induction l with
  | nil => exact puts_id
  | cons x l ih =>
    obtain ⟨hx, hl⟩ := List.forall_mem_cons.mp hf
    exact hx.comp (ih hl)

/-- Pieces that fit the buffer are written one after another. -/
theorem foldl_put_writing {pieces : List (List Byte)} {n : ℕ} {bytes : List Byte} {len : ℕ}
    (h : bytes.length + pieces.flatten.length ≤ n) :
    (pieces.foldl Sink.put ⟨some ⟨n, bytes⟩, len, false⟩).out = some ⟨n, bytes ++ pieces.flatten⟩ ∧
      (pieces.foldl Sink.put ⟨some ⟨n, bytes⟩, len, false⟩).failed = false := by
  induction pieces generalizing bytes len with
  | nil => simp
  | cons p pieces ih =>
    rw [List.flatten_cons, List.length_append] at h
    have hput : Sink.put ⟨some ⟨n, bytes⟩, len, false⟩ p =
        ⟨some ⟨n, bytes ++ p⟩, min (len + p.length) usizeMax, false⟩ := by
      unfold Sink.put
      simp only
      rw [if_neg (by omega)]
    rw [List.foldl_cons, hput]
    have hrest := @ih (bytes ++ p) (min (len + p.length) usizeMax)
      (by rw [List.length_append]; omega)
    simpa using hrest

/-- Measured pieces are counted, up to the largest length. -/
theorem foldl_put_measuring (pieces : List (List Byte)) (len : ℕ) (hlen : len ≤ usizeMax) :
    (pieces.foldl Sink.put ⟨none, len, false⟩).len =
      min (len + pieces.flatten.length) usizeMax := by
  induction pieces generalizing len with
  | nil => simp [hlen]
  | cons p pieces ih =>
    rw [List.foldl_cons]
    show (pieces.foldl Sink.put ⟨none, min (len + p.length) usizeMax, false⟩).len = _
    rw [ih _ (min_le_right _ _), List.flatten_cons, List.length_append]
    omega

/-! ### The bytes of cells and rows -/

def doubleByte (b : Byte) : List Byte := if b = quote then [quote, quote] else [b]

theorem flatMap_doubleByte {bytes : List Byte} (h : quote ∉ bytes) :
    bytes.flatMap doubleByte = bytes := by
  induction bytes with
  | nil => rfl
  | cons b bytes ih =>
    rw [List.mem_cons, not_or] at h
    rw [List.flatMap_cons, ih h.2, doubleByte, if_neg (Ne.symm h.1)]
    rfl

theorem puts_csvLine (bytes : List Byte) :
    Puts (fun s => s.csvLine bytes) (bytes.flatMap doubleByte) := by
  induction hn : bytes.length using Nat.strong_induction_on generalizing bytes with
  | _ n ih =>
    subst hn
    cases h : bytes.findIdx? (· = quote) with
    | none =>
      have hline : (fun s : Sink => s.csvLine bytes) = fun s => s.put bytes := by
        funext s
        rw [Sink.csvLine]
        split
        · rfl
        · simp_all
      have hquote : quote ∉ bytes := by
        intro hmem
        simpa using List.findIdx?_eq_none_iff.mp h quote hmem
      rw [hline, flatMap_doubleByte hquote]
      exact puts_put bytes
    | some i =>
      obtain ⟨hi, hat, hbefore⟩ := List.findIdx?_eq_some_iff_getElem.mp h
      have hline : (fun s : Sink => s.csvLine bytes) = fun s =>
          ((s.put (bytes.take i)).put [quote, quote]).csvLine (bytes.drop (i + 1)) := by
        funext s
        rw [Sink.csvLine]
        split
        · simp_all
        · rename_i j hj
          rw [h] at hj
          cases hj
          rfl
      have hsplit : bytes = bytes.take i ++ quote :: bytes.drop (i + 1) := by
        rw [← of_decide_eq_true hat, List.getElem_cons_drop, List.take_append_drop]
      have hquote : quote ∉ bytes.take i := by
        intro hmem
        obtain ⟨j, hj, heq⟩ := List.mem_take_iff_getElem.mp hmem
        exact hbefore j (by omega) (by simpa using heq)
      have hrest := ih _ (by rw [List.length_drop]; omega) (bytes.drop (i + 1)) rfl
      have hbytes : bytes.flatMap doubleByte =
          bytes.take i ++ [quote, quote] ++ (bytes.drop (i + 1)).flatMap doubleByte := by
        conv_lhs => rw [hsplit]
        rw [List.flatMap_append, flatMap_doubleByte hquote, List.flatMap_cons]
        simp [doubleByte]
      rw [hline, hbytes]
      exact ((puts_put _).comp (puts_put _)).comp hrest

/-- The step puts a text. -/
def PutsText (f : Sink → Sink) (text : List Char) : Prop := Puts f (text.flatMap encodeChar)

theorem encodeChar_quote : encodeChar '"' = [quote] := by decide

theorem doubleByte_encodeChar (c : Char) :
    (encodeChar c).flatMap doubleByte = (double c).flatMap encodeChar := by
  by_cases hc : c = '"'
  · subst hc
    decide
  · rw [double_of_ne hc, flatMap_doubleByte]
    · simp
    · intro hmem
      have hval := (encodeChar_of_ascii hmem (by decide)).2
      exact hc (Char.toNat_inj.mp hval)

theorem putsText_csvLine (line : String) :
    PutsText (fun s => s.csvLine (utf8 line)) (line.toList.flatMap double) := by
  have h := puts_csvLine (utf8 line)
  rw [utf8_eq_flatMap, List.flatMap_assoc] at h
  simp only [doubleByte_encodeChar] at h
  rw [← List.flatMap_assoc] at h
  rwa [PutsText, utf8_eq_flatMap]

theorem flatMap_zipIdx_succ {α β : Type} (sep : List β) (put : α → List β) (l : List α) (k : ℕ) :
    ((l.zipIdx (k + 1)).flatMap fun x => (if 0 < x.2 then sep else []) ++ put x.1) =
      l.flatMap fun x => sep ++ put x := by
  induction l generalizing k with
  | nil => rfl
  | cons x l ih => simp [List.zipIdx_cons, ih]

theorem intercalate_cons_eq {β : Type} (sep y : List β) (l : List (List β)) :
    sep.intercalate (y :: l) = y ++ l.flatMap fun z => sep ++ z := by
  induction l generalizing y with
  | nil => simp
  | cons z l ih => rw [List.intercalate_cons_cons, ih, List.flatMap_cons]; simp

theorem flatMap_zipIdx {α β : Type} (sep : List β) (put : α → List β) (l : List α) :
    (l.zipIdx.flatMap fun x => (if 0 < x.2 then sep else []) ++ put x.1) =
      sep.intercalate (l.map put) := by
  cases l with
  | nil => rfl
  | cons x l =>
    rw [List.map_cons, intercalate_cons_eq, List.zipIdx_cons, List.flatMap_cons,
      flatMap_zipIdx_succ, List.flatMap_map]
    rfl

theorem flatMap_intercalate {α β : Type} (f : α → List β) (sep : List α) (l : List (List α)) :
    (sep.intercalate l).flatMap f = (sep.flatMap f).intercalate (l.map fun y => y.flatMap f) := by
  cases l with
  | nil => rfl
  | cons y l =>
    rw [intercalate_cons_eq, List.map_cons, intercalate_cons_eq, List.flatMap_append,
      List.flatMap_assoc, List.flatMap_map]
    simp only [List.flatMap_append]

/-- Elements put one after another, all but the first after a separator. -/
theorem putsText_join {α : Type} {f : Sink → α → Sink} {sep : Byte} {c : Char}
    {text : α → List Char} {l : List α} (hsep : encodeChar c = [sep])
    (hf : ∀ x ∈ l, PutsText (fun s => f s x) (text x)) :
    PutsText (fun s => l.zipIdx.foldl (fun s x =>
      f (if 0 < x.2 then s.put [sep] else s) x.1) s) (List.intercalate [c] (l.map text)) := by
  have hput : ∀ x ∈ l.zipIdx, Puts (fun s => f (if 0 < x.2 then s.put [sep] else s) x.1)
      ((if 0 < x.2 then [sep] else []) ++ (text x.1).flatMap encodeChar) := by
    intro x hx
    have hmem : Puts (fun s => f s x.1) ((text x.1).flatMap encodeChar) :=
      hf x.1 (List.mem_of_getElem? (List.mem_zipIdx_iff_getElem?.mp hx))
    by_cases hpos : 0 < x.2
    · simpa only [hpos, ↓reduceIte] using (puts_put [sep]).comp hmem
    · rw [if_neg hpos, List.nil_append]
      simpa only [hpos, ↓reduceIte] using hmem
  have h := Puts.foldl hput
  rw [flatMap_zipIdx [sep] fun x => (text x).flatMap encodeChar] at h
  rw [PutsText, flatMap_intercalate, List.map_map]
  simpa [hsep, Function.comp_def] using h

/-- The text of a cell: its lines joined with LF. -/
def cellText (lines : List String) : String := String.intercalate "\n" lines

/-- What a cell is written as. -/
def quotedText (text : List Char) : List Char := '"' :: text.flatMap double ++ ['"']

theorem putsText_csvCell (lines : List String) :
    PutsText (fun s => s.csvCell lines) (quotedText (cellText lines).toList) := by
  have hlines := putsText_join (by decide : encodeChar '\n' = [lf]) fun line (_ : line ∈ lines) =>
    putsText_csvLine line
  have htext : (cellText lines).toList.flatMap double =
      List.intercalate ['\n'] (lines.map fun line => line.toList.flatMap double) := by
    rw [cellText, String.toList_intercalate, flatMap_intercalate, List.map_map]
    rfl
  have h := ((puts_put [quote]).comp hlines).comp (puts_put [quote])
  rw [PutsText, quotedText, htext, List.flatMap_append, List.flatMap_cons]
  exact h

/-- The text of a row of cells. -/
def rowText (cells : List (List String)) : List Char :=
  List.intercalate [','] (cells.map fun lines => quotedText (cellText lines).toList)

theorem putsText_csvRow (cells : List (List String)) :
    PutsText (fun s => s.csvRow cells) (rowText cells ++ ['\r', '\n']) := by
  have hcells := putsText_join (by decide : encodeChar ',' = [comma])
    fun lines (_ : lines ∈ cells) => putsText_csvCell lines
  have h := hcells.comp (puts_put [cr, lf])
  rw [PutsText, List.flatMap_append]
  exact h

/-- The text of a document of rows. -/
def documentText (rows : List (List (List String))) : List Char :=
  rows.flatMap fun cells => rowText cells ++ ['\r', '\n']

theorem putsText_csvRows (rows : List (List (List String))) :
    PutsText (fun s => rows.foldl Sink.csvRow s) (documentText rows) := by
  have h := Puts.foldl fun cells (_ : cells ∈ rows) => putsText_csvRow cells
  rw [PutsText, documentText, List.flatMap_assoc]
  exact h

/-! ### Reading what was written -/

theorem row_rowText {cells : List (List String)} (hne : cells ≠ []) :
    Row (rowText cells) (cells.map fun lines => (cellText lines).toList) := by
  induction cells with
  | nil => exact absurd rfl hne
  | cons lines cells ih =>
    cases cells with
    | nil =>
      rw [rowText, List.map_singleton, List.intercalate_singleton]
      exact .single (.quoted _)
    | cons lines' cells =>
      rw [rowText, List.map_cons, List.map_cons, List.intercalate_cons_cons, List.append_assoc]
      exact .cons (.quoted _) (ih (by simp))

theorem document_documentText {rows : List (List (List String))} (hne : ∀ cells ∈ rows, cells ≠ []) :
    Document (documentText rows) (rows.map fun cells => cells.map cellText) := by
  induction rows with
  | nil => exact .nil
  | cons cells rows ih =>
    obtain ⟨hcells, hrows⟩ := List.forall_mem_cons.mp hne
    have h := Document.cons (row_rowText hcells) .crlf (by simp) (ih hrows)
    simpa [documentText, Function.comp_def] using h

/-- The text of a document of rows starts with a quote. -/
theorem head?_documentText {rows : List (List (List String))} (hne : ∀ cells ∈ rows, cells ≠ []) :
    ∀ c ∈ (documentText rows).head?, c = '"' := by
  cases rows with
  | nil => simp [documentText]
  | cons cells rows =>
    obtain ⟨lines, cells, rfl⟩ := List.exists_cons_of_ne_nil (hne cells List.mem_cons_self)
    rw [documentText, List.flatMap_cons, rowText, List.map_cons, intercalate_cons_eq]
    simp [quotedText]

theorem body_documentText {rows : List (List (List String))} (hne : ∀ cells ∈ rows, cells ≠ []) :
    body (utf8 (.ofList (documentText rows))) = utf8 (.ofList (documentText rows)) := by
  apply body_of_head
  rw [utf8_eq_flatMap, String.toList_ofList]
  have hquote := head?_documentText hne
  cases hdoc : documentText rows with
  | nil => simp
  | cons c text =>
    rw [hdoc] at hquote
    rw [hquote c rfl, List.flatMap_cons, encodeChar_quote]
    simp [quote]

theorem readCsv_documentText {rows : List (List (List String))}
    (hrow : ∀ cells ∈ rows, cells ≠ [] ∧ cells.length ≤ maxCsvColumns)
    (hrows : rows.length ≤ maxEntries + 1) (maxLen : ℕ) :
    readCsv (utf8 (.ofList (documentText rows))) maxLen =
      if (utf8 (.ofList (documentText rows))).length ≤ maxLen then
        .ok (rows.map fun cells => cells.map cellText)
      else .error .tooLarge := by
  have hne := fun cells hcells => (hrow cells hcells).1
  split_ifs with hlen
  · refine readCsv_eq_ok_iff.mpr ⟨hlen, ⟨_, (body_documentText hne).symm, ?_⟩, ?_, ?_⟩
    · exact document_documentText hne
    · rwa [List.length_map]
    · intro record hrecord
      obtain ⟨cells, hcells, rfl⟩ := List.mem_map.mp hrecord
      rw [List.length_map]
      exact (hrow cells hcells).2
  · unfold readCsv Reader.new utf8Input
    rw [if_pos (Nat.lt_of_not_le hlen)]
    rfl

/-- The rows that are written are the rows that are read, cell for cell, and of any input the reader
returns exactly the records of a document that makes up all of it. -/
theorem csv_codec :
    (∀ rows : List (List (List String)),
      (∀ cells ∈ rows, cells ≠ [] ∧ cells.length ≤ maxCsvColumns) → rows.length ≤ maxEntries + 1 →
      ∃ doc : List Byte, (rows.foldl Sink.csvRow .measuring).len = min doc.length usizeMax ∧
        (∀ n, doc.length ≤ n → (rows.foldl Sink.csvRow (.writing n)).out = some ⟨n, doc⟩ ∧
          (rows.foldl Sink.csvRow (.writing n)).failed = false) ∧
        ∀ maxLen, readCsv doc maxLen =
          if doc.length ≤ maxLen then .ok (rows.map fun cells => cells.map cellText)
          else .error .tooLarge) ∧
    ∀ input maxLen records, readCsv input maxLen = .ok records ↔ input.length ≤ maxLen ∧
      (∃ text, utf8 (.ofList text) = body input ∧ Document text records) ∧
      records.length ≤ maxEntries + 1 ∧ ∀ record ∈ records, record.length ≤ maxCsvColumns := by
  refine ⟨fun rows hrow hrows => ?_, fun input maxLen records => readCsv_eq_ok_iff⟩
  obtain ⟨pieces, hpieces, hput⟩ := putsText_csvRows rows
  simp only at hput
  have hdoc : utf8 (.ofList (documentText rows)) = pieces.flatten := by
    rw [hpieces, utf8_eq_flatMap, String.toList_ofList]
  refine ⟨pieces.flatten, ?_, fun n hn => ?_, fun maxLen => ?_⟩
  · rw [hput]
    have h := foldl_put_measuring pieces 0 (Nat.zero_le _)
    rwa [Nat.zero_add] at h
  · rw [hput]
    exact @foldl_put_writing pieces n [] 0 (by rwa [List.length_nil, Nat.zero_add])
  · rw [← hdoc]
    exact readCsv_documentText hrow hrows maxLen

/-- A cell with a quote and two lines. -/
theorem csv_codec_two_cells : ∃ doc, readCsv doc doc.length = .ok [["a", "b\"\nc"]] := by
  obtain ⟨doc, -, -, hread⟩ := csv_codec.1 [[["a"], ["b\"", "c"]]] (by simp [maxCsvColumns])
    (by simp [maxEntries])
  refine ⟨doc, ?_⟩
  rw [hread, if_pos le_rfl]
  rfl

end RizzyVault.Client.Plaintext
