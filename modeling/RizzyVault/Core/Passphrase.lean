import RizzyVault.Core.FieldKey
import RizzyVault.Lib.Split

/-!
# Passphrases

The words of a passphrase are laid out in two passes that touch the same bytes whatever the words
are: each word, its digit and its separator go into a region of fixed width, and a second pass moves
the bytes together.

## Main definitions

* `spreadWord`, `compact`, `assembleWords`.
* `Choice`: the words, the numbered word and its digit.
* `plainJoin`: the words joined by the separator.

## Main results

* `compact_eq_filter`: the second pass drops the zero bytes.
* `filter_spreadWord`: what a region holds.
* `plainJoin_injective`: a passphrase has one choice of words and number.
* `passphrase_assembly`.

## References

* `crates/rizzy-core/src/generator/mod.rs`, `crates/rizzy-core/src/generator/wordlist.rs`.
-/

open RizzyVault.Lib

namespace RizzyVault.Core

namespace Generator

def maxWordLen : ℕ := 9

/-- Bytes per word in the first pass: the word, a digit and a separator. -/
def wordWidth : ℕ := maxWordLen + 2

def minWords : ℕ := 3

def maxWords : ℕ := 20

inductive CharClass
  | lowercase
  | uppercase
  | digits
  | symbols
  deriving DecidableEq

/-- Why a request was refused. -/
inductive GeneratorError
  | invalidLength
  | noClasses
  | tooManyRequiredClasses
  | emptyAlphabet
  | requiredClassEmpty (which : CharClass)
  | requirementsTooStrict
  | invalidSymbolSet
  | invalidWordCount
  | invalidSeparator
  | rngExhausted
  deriving DecidableEq

structure PassphraseOptions where
  words : ℕ
  separator : Char
  capitalize : Bool
  includeNumber : Bool

def isAsciiAlphabetic (b : Byte) : Bool :=
  (ascii 'A' ≤ b ∧ b ≤ ascii 'Z') ∨ (ascii 'a' ≤ b ∧ b ≤ ascii 'z')

/-- The separator as a byte, if the options are allowed. -/
def PassphraseOptions.check (options : PassphraseOptions) : Except GeneratorError Byte :=
  if ¬(minWords ≤ options.words ∧ options.words ≤ maxWords) then .error .invalidWordCount
  else if hbyte : options.separator.toNat < 256 then
    let sep : Byte := ⟨options.separator.toNat, hbyte⟩
    if ¬(ascii ' ' ≤ sep ∧ sep ≤ ascii '~') ∨ isAsciiAlphabetic sep ∨ sep = ascii '-' then
      .error .invalidSeparator
    else .ok sep
  else .error .invalidSeparator

/-- Which word gets the digit, and the digit. -/
structure Number where
  word : ℕ
  digit : Byte

/-! ### The two passes -/

/-- A byte of a word's region: a letter, the digit if this word takes it, the separator if there is
one, or zero. `slot` is a length and the letters. -/
def spreadByte (slot : Bytes) (separator : Option Byte) (digit : Option (Bool × Byte)) (i : ℕ) :
    Byte :=
  let len := slot.head?.getD 0
  let dst := slot.tail[i]?.getD 0
  let atLen : Bool := Fin.ofNat 256 i = len
  let atNext : Bool := Fin.ofNat 256 i = len + 1
  match separator, digit with
  | some sep, none => if atLen then sep else dst
  | none, none => dst
  | sep, some (takes, d) =>
    let dst := if atLen ∧ takes then d else dst
    match sep with
    | some sep =>
      let dst := if atLen ∧ ¬takes then sep else dst
      if atNext ∧ takes then sep else dst
    | none => dst

/-- One word in its region, with a capital first letter if asked. -/
def spreadWord (slot : Bytes) (separator : Option Byte) (digit : Option (Bool × Byte))
    (capitalize : Bool) : Bytes :=
  let region := (List.range wordWidth).map (spreadByte slot separator digit)
  if capitalize then
    match region with
    | first :: rest =>
      (if ascii 'a' ≤ first ∧ first ≤ ascii 'z' then first ^^^ 0x20 else first) :: rest
    | [] => []
  else region

/-- The bytes that are not zero, moved to the front, and how many there are. -/
def compact (wide : Bytes) : Bytes × ℕ :=
  let out := (List.range wide.length).map fun j =>
    (wide.foldl (fun (s : Byte × ℕ) b =>
      let keep := b ≠ 0
      (if keep ∧ s.2 = j then b else s.1, s.2 + if keep then 1 else 0)) (0, 0)).1
  (out, (wide.map fun b => if b ≠ 0 then 1 else 0).sum)

/-- The state of the first pass: the regions written, the slot, and the state words come from. -/
structure Assembly (σ : Type) where
  wide : Bytes
  slot : Bytes
  source : σ

variable {σ : Type}

def assembleStep (words : ℕ) (separator : Byte) (capitalize : Bool) (number : Option Number)
    (select : Bytes → σ → Except GeneratorError (Bytes × σ)) (s : Assembly σ) (n : ℕ) :
    Except GeneratorError (Assembly σ) := do
  let (slot, source) ← select s.slot s.source
  let after := if n + 1 < words then some separator else none
  let digit := number.map fun num => (decide (n = num.word), num.digit)
  .ok { wide := s.wide ++ spreadWord slot after digit capitalize, slot, source }

/-- The words that `select` puts into the slot, joined in two passes. -/
def assembleWords (words : ℕ) (separator : Byte) (capitalize : Bool) (number : Option Number)
    (select : Bytes → σ → Except GeneratorError (Bytes × σ)) (source : σ) :
    Except GeneratorError Bytes := do
  let s ← (List.range words).foldlM (assembleStep words separator capitalize number select)
    { wide := [], slot := List.replicate (maxWordLen + 1) 0, source }
  let (out, len) := compact s.wide
  .ok (out.take len)

/-! ### Words -/

def isAsciiLowercase (b : Byte) : Bool := ascii 'a' ≤ b ∧ b ≤ ascii 'z'

/-- A word of the list: letters and hyphens behind a letter, and it fits the slot. -/
structure Word where
  first : Byte
  rest : Bytes
  first_letter : isAsciiLowercase first = true
  rest_letters : ∀ b ∈ rest, isAsciiLowercase b = true ∨ b = ascii '-'
  fits : rest.length + 1 ≤ maxWordLen

namespace Word

def letters (w : Word) : Bytes := w.first :: w.rest

/-- The slot with a word: its length and its letters, filled up with zeros. -/
def slot (w : Word) : Bytes :=
  Fin.ofNat 256 w.letters.length :: w.letters ++
    List.replicate (maxWordLen - w.letters.length) 0

/-- The word as it is printed. -/
def printed (w : Word) (capitalize : Bool) : Bytes :=
  (if capitalize then w.first ^^^ 0x20 else w.first) :: w.rest

end Word

/-- Words from a list, each into the whole slot. -/
def nextWord (_slot : Bytes) : List Word → Except GeneratorError (Bytes × List Word)
  | [] => .error .rngExhausted
  | w :: words => .ok (w.slot, words)

/-! ### Choices -/

abbrev Digit := {b : Byte // ascii '0' ≤ b ∧ b ≤ ascii '9'}

/-- The words of a passphrase, and which word is followed by which digit, if any. -/
structure Choice (n : ℕ) where
  words : Fin n → Word
  number : Option (Fin n × Digit)

namespace Choice

variable {n : ℕ}

/-- The digit after a word. -/
def digitAfter (c : Choice n) (i : Fin n) : Option Digit :=
  c.number.bind fun (word, digit) => if i = word then some digit else none

/-- The number as the assembly takes it. -/
def toNumber (c : Choice n) : Option Number :=
  c.number.map fun (word, digit) => ⟨word.val, digit.val⟩

/-- The words joined by the separator, the digit right after its word. -/
def plainJoin (separator : Byte) (capitalize : Bool) (c : Choice n) : Bytes :=
  [separator].intercalate (List.ofFn fun i =>
    (c.words i).printed capitalize ++ (c.digitAfter i).toList.map Subtype.val)

end Choice

/-! ### The second pass -/

theorem filter_ne_zero_cons (b : Byte) (wide : Bytes) : (b :: wide).filter (· ≠ 0) =
    if b = 0 then wide.filter (· ≠ 0) else b :: wide.filter (· ≠ 0) := by
  split
  · next h => exact List.filter_cons_of_neg (by simp [h])
  · next h => exact List.filter_cons_of_pos (by simp [h])

theorem foldl_compact (wide : Bytes) (j : ℕ) (dst : Byte) (dest : ℕ) :
    (wide.foldl (fun (s : Byte × ℕ) b =>
      let keep := b ≠ 0
      (if keep ∧ s.2 = j then b else s.1, s.2 + if keep then 1 else 0)) (dst, dest)).1 =
      if j < dest then dst else (wide.filter (· ≠ 0))[j - dest]?.getD dst := by
  induction wide generalizing dst dest with
  | nil => simp
  | cons b wide ih =>
    rw [List.foldl_cons, ih, filter_ne_zero_cons]
    by_cases hb : b = 0
    · simp [hb]
    · simp only [ne_eq, hb, not_false_eq_true, true_and, if_true, if_false]
      by_cases hj : dest = j
      · rw [if_pos (by omega), if_pos hj, if_neg (by omega), hj, Nat.sub_self]
        rfl
      · rw [if_neg hj]
        by_cases hlt : j < dest
        · rw [if_pos (by omega), if_pos hlt]
        · have hsub : j - dest = j - (dest + 1) + 1 := by omega
          rw [if_neg (by omega), if_neg hlt, hsub, List.getElem?_cons_succ]

theorem sum_keep (wide : Bytes) :
    (wide.map fun b => if b ≠ 0 then 1 else 0).sum = (wide.filter (· ≠ 0)).length := by
  induction wide with
  | nil => rfl
  | cons b wide ih =>
    rw [List.map_cons, List.sum_cons, ih, filter_ne_zero_cons]
    by_cases hb : b = 0
    · rw [if_pos hb, if_neg (not_not.mpr hb), Nat.zero_add]
    · rw [if_neg hb, if_pos hb, List.length_cons, Nat.add_comm]

/-- The second pass drops the zero bytes. -/
theorem compact_eq_filter (wide : Bytes) :
    (compact wide).1.take (compact wide).2 = wide.filter (· ≠ 0) := by
  have hle : (wide.filter (· ≠ 0)).length ≤ wide.length := List.length_filter_le ..
  refine List.ext_getElem ?_ fun j h₁ h₂ => ?_
  · simp only [compact, sum_keep, List.length_take, List.length_map, List.length_range]
    exact Nat.min_eq_left hle
  · simp only [compact, List.getElem_take, List.getElem_map, List.getElem_range]
    rw [foldl_compact, if_neg (Nat.not_lt_zero j), Nat.sub_zero, List.getElem?_eq_getElem h₂,
      Option.getD_some]

/-! ### The first pass -/

theorem map_getD_range {l : Bytes} {n : ℕ} (hl : l.length ≤ n) :
    (List.range n).map (fun i => l[i]?.getD 0) = l ++ List.replicate (n - l.length) 0 := by
  refine List.ext_getElem (by simp [hl]) fun i h₁ h₂ => ?_
  rw [List.getElem_map, List.getElem_range]
  by_cases hi : i < l.length
  · rw [List.getElem_append_left hi, List.getElem?_eq_getElem hi, Option.getD_some]
  · rw [List.getElem_append_right (Nat.le_of_not_lt hi), List.getElem_replicate,
      List.getElem?_eq_none (Nat.le_of_not_lt hi), Option.getD_none]

/-- The digit that a word takes. -/
def taken : Option (Bool × Byte) → Option Byte
  | some (true, d) => some d
  | _ => none

/-- What follows the letters of a word. -/
def suffix (separator : Option Byte) (digit : Option (Bool × Byte)) : Bytes :=
  (taken digit).toList ++ separator.toList

theorem length_suffix_le (separator : Option Byte) (digit : Option (Bool × Byte)) :
    (suffix separator digit).length ≤ 2 := by
  rw [suffix, List.length_append, Option.length_toList, Option.length_toList]
  split <;> split <;> omega

theorem Word.length_letters_le (w : Word) : w.letters.length ≤ maxWordLen := w.fits

theorem spreadByte_slot (w : Word) (separator : Option Byte) (digit : Option (Bool × Byte)) {i : ℕ}
    (hi : i < wordWidth) : spreadByte w.slot separator digit i =
      (w.letters ++ suffix separator digit)[i]?.getD 0 := by
  have hlen := w.length_letters_le
  simp only [maxWordLen, wordWidth] at hlen hi
  have hdst : w.slot.tail[i]?.getD 0 = w.letters[i]?.getD 0 := by
    rw [Word.slot, List.cons_append, List.tail_cons]
    by_cases hlt : i < w.letters.length
    · rw [List.getElem?_append_left hlt]
    · rw [List.getElem?_append_right (Nat.le_of_not_lt hlt),
        List.getElem?_eq_none (Nat.le_of_not_lt hlt)]
      set zeros := List.replicate (maxWordLen - w.letters.length) (0 : Byte)
      cases h : zeros[i - w.letters.length]? with
      | none => rfl
      | some b => exact List.eq_of_mem_replicate (List.mem_of_getElem? h)
  have hat : (Fin.ofNat 256 i = w.slot.head?.getD 0) ↔ i = w.letters.length := by
    rw [Word.slot, List.cons_append, List.head?_cons, Option.getD_some, Fin.ext_iff]
    simp only [Fin.ofNat]
    omega
  have hnext : (Fin.ofNat 256 i = w.slot.head?.getD 0 + 1) ↔ i = w.letters.length + 1 := by
    rw [Word.slot, List.cons_append, List.head?_cons, Option.getD_some, Fin.ext_iff, Fin.val_add]
    simp only [Fin.ofNat]
    have hone : (1 : Byte).val = 1 := rfl
    omega
  simp only [spreadByte, hdst, hat, hnext, decide_eq_true_eq]
  rcases Nat.lt_trichotomy i w.letters.length with hlt | heq | hgt
  · -- a letter
    have hne : i ≠ w.letters.length := by omega
    have hne' : i ≠ w.letters.length + 1 := by omega
    rw [List.getElem?_append_left hlt]
    rcases separator with _ | sep <;> rcases digit with _ | ⟨takes, d⟩ <;> simp [hne, hne']
  · have hne : i ≠ w.letters.length + 1 := by omega
    have hletter : w.letters[i]?.getD 0 = 0 := by
      rw [List.getElem?_eq_none heq.ge, Option.getD_none]
    rw [List.getElem?_append_right heq.ge, heq, Nat.sub_self, ← heq, hletter]
    rcases separator with _ | sep <;> rcases digit with _ | ⟨_ | _, d⟩ <;>
      simp [heq, suffix, taken]
  · have hne : i ≠ w.letters.length := by omega
    have hletter : w.letters[i]?.getD 0 = 0 := by
      rw [List.getElem?_eq_none hgt.le, Option.getD_none]
    rw [List.getElem?_append_right hgt.le, hletter]
    by_cases hnext : i = w.letters.length + 1
    · rw [hnext, Nat.add_sub_cancel_left]
      rcases separator with _ | sep <;> rcases digit with _ | ⟨_ | _, d⟩ <;>
        simp [suffix, taken]
    · have hnone : (suffix separator digit)[i - w.letters.length]? = none :=
        List.getElem?_eq_none ((length_suffix_le separator digit).trans (by omega))
      rw [hnone]
      rcases separator with _ | sep <;> rcases digit with _ | ⟨takes, d⟩ <;> simp [hne, hnext]
theorem isAsciiLowercase_spec : ∀ b : Byte, isAsciiLowercase b = true →
    b ≠ 0 ∧ b ^^^ 0x20 ≠ 0 ∧ isAsciiAlphabetic b = true ∧
      isAsciiAlphabetic (b ^^^ 0x20) = true := by
  decide +kernel

/-- What a region holds: the printed word and what follows it, then zeros. -/
theorem spreadWord_slot (w : Word) (separator : Option Byte) (digit : Option (Bool × Byte))
    (capitalize : Bool) : ∃ zeros, spreadWord w.slot separator digit capitalize =
      w.printed capitalize ++ suffix separator digit ++ List.replicate zeros 0 := by
  have hlen : (w.letters ++ suffix separator digit).length ≤ wordWidth := by
    rw [List.length_append]
    exact Nat.add_le_add w.length_letters_le (length_suffix_le separator digit)
  have hregion : (List.range wordWidth).map (spreadByte w.slot separator digit) =
      w.letters ++ suffix separator digit ++
        List.replicate (wordWidth - (w.letters ++ suffix separator digit).length) 0 := by
    rw [← map_getD_range hlen]
    exact List.map_congr_left fun i hi => spreadByte_slot w separator digit (List.mem_range.mp hi)
  refine ⟨wordWidth - (w.letters ++ suffix separator digit).length, ?_⟩
  rw [spreadWord, hregion]
  cases capitalize with
  | false => rfl
  | true =>
    have hfirst := of_decide_eq_true w.first_letter
    simp only [Word.letters, List.cons_append, if_true, if_pos hfirst]
    rfl

theorem Word.printed_ne_zero (w : Word) (capitalize : Bool) :
    ∀ b ∈ w.printed capitalize, b ≠ 0 := by
  intro b hb
  obtain ⟨hfirst, hflip, -, -⟩ := isAsciiLowercase_spec w.first w.first_letter
  rcases List.mem_cons.mp hb with rfl | hb
  · split
    · exact hflip
    · exact hfirst
  · rcases w.rest_letters b hb with hletter | rfl
    · exact (isAsciiLowercase_spec b hletter).1
    · decide

theorem filter_spreadWord (w : Word) {separator : Option Byte} {digit : Option (Bool × Byte)}
    (capitalize : Bool) (hsuffix : ∀ b ∈ suffix separator digit, b ≠ 0) :
    (spreadWord w.slot separator digit capitalize).filter (· ≠ 0) =
      w.printed capitalize ++ suffix separator digit := by
  obtain ⟨zeros, hspread⟩ := spreadWord_slot w separator digit capitalize
  have hkeep : ∀ b ∈ w.printed capitalize ++ suffix separator digit, decide (b ≠ 0) = true :=
    fun b hb => decide_eq_true
      ((List.mem_append.mp hb).elim (w.printed_ne_zero capitalize b) (hsuffix b))
  have hdrop : (List.replicate zeros (0 : Byte)).filter (· ≠ 0) = [] :=
    List.filter_eq_nil_iff.mpr fun b hb => by simp [List.eq_of_mem_replicate hb]
  rw [hspread, List.filter_append, List.filter_eq_self.mpr hkeep, hdrop, List.append_nil]

/-- The region of a word by its number. -/
def regionOf (words : ℕ) (separator : Byte) (capitalize : Bool) (number : Option Number)
    (x : Word × ℕ) : Bytes :=
  spreadWord x.1.slot (if x.2 + 1 < words then some separator else none)
    (number.map fun num => (decide (x.2 = num.word), num.digit)) capitalize

theorem foldlM_assembleStep (words : ℕ) (separator : Byte) (capitalize : Bool)
    (number : Option Number) (ws : List Word) (k : ℕ) (wide slot : Bytes) :
    ∃ slot', (List.range' k ws.length).foldlM
        (assembleStep words separator capitalize number nextWord) ⟨wide, slot, ws⟩ =
      .ok ⟨wide ++ (ws.zipIdx k).flatMap (regionOf words separator capitalize number),
        slot', []⟩ := by
  induction ws generalizing k wide slot with
  | nil => exact ⟨slot, by rw [List.zipIdx_nil, List.flatMap_nil, List.append_nil]; rfl⟩
  | cons w ws ih =>
    obtain ⟨slot', hrun⟩ :=
      ih (k + 1) (wide ++ regionOf words separator capitalize number (w, k)) w.slot
    refine ⟨slot', ?_⟩
    rw [List.zipIdx_cons, List.flatMap_cons, ← List.append_assoc, ← hrun]
    rfl

/-- The passes write the words and what follows each. -/
theorem assembleWords_eq (separator : Byte) (capitalize : Bool) (number : Option Number)
    (ws : List Word) : assembleWords ws.length separator capitalize number nextWord ws =
      .ok ((ws.zipIdx.flatMap
        (regionOf ws.length separator capitalize number)).filter (· ≠ 0)) := by
  obtain ⟨slot', hrun⟩ := foldlM_assembleStep ws.length separator capitalize number ws 0 []
    (List.replicate (maxWordLen + 1) 0)
  rw [assembleWords, List.range_eq_range', hrun, List.nil_append, ← compact_eq_filter]
  rfl

/-! ### The plain join -/

/-- A word and its digit, as printed. -/
def itemText (x : Bytes × Option Byte) : Bytes := x.1 ++ x.2.toList

/-- The items joined by the separator. -/
def join (separator : Byte) (items : List (Bytes × Option Byte)) : Bytes :=
  [separator].intercalate (items.map itemText)

/-- The items after the first, each behind a separator. -/
def joinRest (separator : Byte) (items : List (Bytes × Option Byte)) : Bytes :=
  items.flatMap fun x => separator :: itemText x

theorem join_cons_cons (separator : Byte) (x y : Bytes × Option Byte)
    (items : List (Bytes × Option Byte)) :
    join separator (x :: y :: items) = itemText x ++ separator :: join separator (y :: items) := by
  rw [join, List.map_cons, List.map_cons, List.intercalate_cons_cons, List.append_assoc]
  rfl

theorem join_cons (separator : Byte) (x : Bytes × Option Byte)
    (items : List (Bytes × Option Byte)) :
    join separator (x :: items) = itemText x ++ joinRest separator items := by
  induction items generalizing x with
  | nil => simp [join, joinRest]
  | cons y items ih =>
    rw [join_cons_cons, ih y]
    rfl

/-- A word and the digit it takes. -/
def itemOf (capitalize : Bool) (number : Option Number) (x : Word × ℕ) : Bytes × Option Byte :=
  (x.1.printed capitalize,
    taken (number.map fun num => (decide (x.2 = num.word), num.digit)))

theorem filter_regionOf {separator : Byte} (hsep : separator ≠ 0) {number : Option Number}
    (hnumber : ∀ num ∈ number, num.digit ≠ 0) (words : ℕ) (capitalize : Bool) (x : Word × ℕ) :
    (regionOf words separator capitalize number x).filter (· ≠ 0) =
      itemText (itemOf capitalize number x) ++ if x.2 + 1 < words then [separator] else [] := by
  have htaken : ∀ b ∈ taken (number.map fun num => (decide (x.2 = num.word), num.digit)),
      b ≠ 0 := by
    intro b hb
    rcases number with _ | num
    · cases hb
    · rw [Option.map_some] at hb
      cases hword : decide (x.2 = num.word)
      · rw [hword] at hb
        cases hb
      · rw [hword] at hb
        cases hb
        exact hnumber num rfl
  rw [regionOf, filter_spreadWord]
  · rw [suffix, ← List.append_assoc]
    split <;> rfl
  · intro b hb
    rcases List.mem_append.mp hb with hb | hb
    · exact htaken b (Option.mem_toList.mp hb)
    · split at hb
      · exact (Option.some.inj (Option.mem_toList.mp hb)) ▸ hsep
      · cases hb

theorem filter_regions {separator : Byte} (hsep : separator ≠ 0) {number : Option Number}
    (hnumber : ∀ num ∈ number, num.digit ≠ 0) (capitalize : Bool) (ws : List Word) {k words : ℕ}
    (hwords : k + ws.length = words) :
    ((ws.zipIdx k).flatMap (regionOf words separator capitalize number)).filter (· ≠ 0) =
      join separator ((ws.zipIdx k).map (itemOf capitalize number)) := by
  induction ws generalizing k with
  | nil => rfl
  | cons w ws ih =>
    rw [List.length_cons] at hwords
    rw [List.zipIdx_cons, List.flatMap_cons, List.filter_append, ih (by omega), List.map_cons,
      filter_regionOf hsep hnumber]
    cases ws with
    | nil =>
      have hlast : ¬ k + 1 < words := by simpa using hwords.ge
      rw [if_neg hlast, List.append_nil, List.zipIdx_nil, List.map_nil, join_cons]
      rfl
    | cons w' ws =>
      have hmore : k + 1 < words := by
        rw [List.length_cons] at hwords
        omega
      rw [if_pos hmore, List.zipIdx_cons, List.map_cons, join_cons_cons, List.append_assoc]
      rfl

/-! ### A passphrase is split in one way -/

def isWordByte (b : Byte) : Bool := isAsciiAlphabetic b || b = ascii '-'

/-- A word, and a digit that no word holds. -/
structure IsItem (x : Bytes × Option Byte) : Prop where
  nonempty : x.1 ≠ []
  letters : ∀ b ∈ x.1, isWordByte b = true
  digit : ∀ b ∈ x.2, isWordByte b = false

theorem joinRest_head {separator : Byte} (hsep : isWordByte separator = false)
    (digit : Option Byte) (hdigit : ∀ b ∈ digit, isWordByte b = false)
    (items : List (Bytes × Option Byte)) :
    ∀ b ∈ (digit.toList ++ joinRest separator items).head?, isWordByte b = false := by
  intro b hb
  rcases digit with _ | d
  · cases items with
    | nil => cases hb
    | cons y items =>
      cases hb
      exact hsep
  · cases hb
    exact hdigit _ rfl

theorem word_split {separator : Byte} (hsep : isWordByte separator = false)
    {items items' : List (Bytes × Option Byte)} {x x' : Bytes × Option Byte} (hx : IsItem x)
    (hx' : IsItem x')
    (h : itemText x ++ joinRest separator items = itemText x' ++ joinRest separator items') :
    x.1 = x'.1 ∧
      x.2.toList ++ joinRest separator items = x'.2.toList ++ joinRest separator items' := by
  rw [itemText, itemText, List.append_assoc, List.append_assoc] at h
  have hword := congrArg (List.takeWhile isWordByte) h
  rw [takeWhile_append_of_stop hx.letters (joinRest_head hsep x.2 hx.digit items),
    takeWhile_append_of_stop hx'.letters (joinRest_head hsep x'.2 hx'.digit items')] at hword
  rw [hword] at h
  exact ⟨hword, List.append_cancel_left h⟩

/-- An item starts with a letter, not with the separator. -/
theorem ne_separator_cons {separator : Byte} (hsep : isWordByte separator = false)
    {items : List (Bytes × Option Byte)} {x : Bytes × Option Byte} (hx : IsItem x) (text : Bytes) :
    itemText x ++ joinRest separator items ≠ separator :: text := by
  intro h
  obtain ⟨c, word, hword⟩ := List.exists_cons_of_ne_nil hx.nonempty
  have hc := hx.letters c (by rw [hword]; simp)
  rw [itemText, hword, List.cons_append, List.cons_append, List.cons.injEq] at h
  rw [h.1, hsep] at hc
  cases hc

/-- An item and those behind it are determined by the text they make. -/
theorem join_split {separator : Byte} (hsep : isWordByte separator = false)
    {items items' : List (Bytes × Option Byte)} {x x' : Bytes × Option Byte} (hx : IsItem x)
    (hx' : IsItem x') (hitems : ∀ y ∈ items, IsItem y) (hitems' : ∀ y ∈ items', IsItem y)
    (hlen : items.length = items'.length)
    (h : itemText x ++ joinRest separator items = itemText x' ++ joinRest separator items') :
    x = x' ∧ items = items' := by
  induction items generalizing items' x x' with
  | nil =>
    obtain rfl : items' = [] := List.length_eq_zero_iff.mp hlen.symm
    obtain ⟨hword, hdigit⟩ := word_split hsep hx hx' h
    rw [joinRest, List.flatMap_nil, List.append_nil, List.append_nil] at hdigit
    have hhead := congrArg List.head? hdigit
    rw [Option.head?_toList, Option.head?_toList] at hhead
    exact ⟨Prod.ext hword hhead, rfl⟩
  | cons y items ih =>
    cases items' with
    | nil => cases hlen
    | cons y' items' =>
      obtain ⟨hword, hrest⟩ := word_split hsep hx hx' h
      have hy := hitems y (by simp)
      have hy' := hitems' y' (by simp)
      rw [joinRest, joinRest, List.flatMap_cons, List.flatMap_cons, ← joinRest, ← joinRest] at hrest
      obtain ⟨hdigit, htail⟩ : x.2 = x'.2 ∧
          itemText y ++ joinRest separator items = itemText y' ++ joinRest separator items' := by
        rcases hd : x.2 with _ | d <;> rcases hd' : x'.2 with _ | d' <;> rw [hd, hd'] at hrest
        · have hrest : separator :: (itemText y ++ joinRest separator items) =
              separator :: (itemText y' ++ joinRest separator items') := hrest
          exact ⟨rfl, (List.cons.inj hrest).2⟩
        · exact absurd (List.cons.inj hrest).2 (ne_separator_cons hsep hy _)
        · exact absurd (List.cons.inj hrest).2.symm (ne_separator_cons hsep hy' _)
        · have hrest : d :: separator :: (itemText y ++ joinRest separator items) =
              d' :: separator :: (itemText y' ++ joinRest separator items') := hrest
          obtain ⟨hdigit, htail⟩ := List.cons.inj hrest
          exact ⟨congrArg some hdigit, (List.cons.inj htail).2⟩
      obtain ⟨hy, hitems⟩ := ih hy hy' (fun z hz => hitems z (List.mem_cons_of_mem _ hz))
        (fun z hz => hitems' z (List.mem_cons_of_mem _ hz)) (Nat.succ.inj hlen) htail
      exact ⟨Prod.ext hword hdigit, by rw [hy, hitems]⟩

theorem join_injective {separator : Byte} (hsep : isWordByte separator = false)
    {items items' : List (Bytes × Option Byte)} (hitems : ∀ y ∈ items, IsItem y)
    (hitems' : ∀ y ∈ items', IsItem y) (hlen : items.length = items'.length)
    (h : join separator items = join separator items') : items = items' := by
  cases items with
  | nil => exact (List.length_eq_zero_iff.mp hlen.symm).symm
  | cons x items =>
    cases items' with
    | nil => cases hlen
    | cons x' items' =>
      rw [join_cons, join_cons] at h
      obtain ⟨hx, hrest⟩ := join_split hsep (hitems x (by simp)) (hitems' x' (by simp))
        (fun z hz => hitems z (List.mem_cons_of_mem _ hz))
        (fun z hz => hitems' z (List.mem_cons_of_mem _ hz)) (Nat.succ.inj hlen) h
      rw [hx, hrest]

/-! ### Choices and their passphrases -/

theorem xor_flip : ∀ b : Byte, (b ^^^ 0x20) ^^^ 0x20 = b := by
  decide +kernel

theorem Word.printed_injective (capitalize : Bool) :
    Function.Injective fun w : Word => w.printed capitalize := by
  rintro ⟨first, rest, hfirst, hrest, hfits⟩ ⟨first', rest', hfirst', hrest', hfits'⟩ h
  obtain ⟨hf, hr⟩ := List.cons.inj h
  have hsame : first = first' := by
    cases capitalize with
    | false => exact hf
    | true =>
      have hflip := congrArg (· ^^^ 0x20) hf
      simp only [if_true] at hflip
      rwa [xor_flip, xor_flip] at hflip
  subst hsame hr
  rfl

theorem isWordByte_of_digit : ∀ b : Byte, ascii '0' ≤ b ∧ b ≤ ascii '9' →
    isWordByte b = false ∧ b ≠ 0 := by
  decide +kernel

theorem Word.printed_letters (w : Word) (capitalize : Bool) :
    ∀ b ∈ w.printed capitalize, isWordByte b = true := by
  intro b hb
  obtain ⟨-, -, hfirst, hflip⟩ := isAsciiLowercase_spec w.first w.first_letter
  rw [isWordByte, Bool.or_eq_true]
  rcases List.mem_cons.mp hb with rfl | hb
  · split
    · exact .inl hflip
    · exact .inl hfirst
  · rcases w.rest_letters b hb with hletter | rfl
    · exact .inl (isAsciiLowercase_spec b hletter).2.2.1
    · exact .inr (decide_eq_true rfl)

namespace Choice

variable {n : ℕ}

/-- The words and digits of a choice, as printed. -/
def items (capitalize : Bool) (c : Choice n) : List (Bytes × Option Byte) :=
  List.ofFn fun i => ((c.words i).printed capitalize, (c.digitAfter i).map Subtype.val)

theorem plainJoin_eq (separator : Byte) (capitalize : Bool) (c : Choice n) :
    c.plainJoin separator capitalize = join separator (c.items capitalize) := by
  rw [plainJoin, join, items, List.map_ofFn]
  refine congrArg _ (congrArg List.ofFn (funext fun i => ?_))
  rw [Function.comp_apply, itemText]
  cases c.digitAfter i <;> rfl

theorem isItem_items (capitalize : Bool) (c : Choice n) : ∀ x ∈ c.items capitalize, IsItem x := by
  intro x hx
  obtain ⟨i, rfl⟩ := (List.mem_ofFn' _ _).mp hx
  refine ⟨List.cons_ne_nil _ _, (c.words i).printed_letters capitalize, fun b hb => ?_⟩
  obtain ⟨d, -, rfl⟩ := Option.mem_map.mp hb
  exact (isWordByte_of_digit d.val d.property).1

/-- The number is determined by the digit after each word. -/
theorem number_eq {c c' : Choice n} (h : ∀ i, c.digitAfter i = c'.digitAfter i) :
    c.number = c'.number := by
  have hsome : ∀ (c : Choice n) (i : Fin n) (d : Digit),
      c.digitAfter i = some d ↔ c.number = some (i, d) := by
    intro c i d
    rw [digitAfter, Option.bind_eq_some_iff]
    refine ⟨?_, fun hn => ⟨(i, d), hn, if_pos rfl⟩⟩
    rintro ⟨⟨word, digit⟩, hn, hd⟩
    have hd : (if i = word then some digit else none) = some d := hd
    by_cases hi : i = word
    · rw [if_pos hi] at hd
      rw [hn, hi, Option.some.inj hd]
    · rw [if_neg hi] at hd
      cases hd
  refine Option.ext fun ⟨i, d⟩ => ?_
  show c.number = some (i, d) ↔ c'.number = some (i, d)
  rw [← hsome, ← hsome, h]

/-- A passphrase has one choice of words and number. -/
theorem plainJoin_injective {separator : Byte} (hsep : isWordByte separator = false)
    (capitalize : Bool) :
    Function.Injective fun c : Choice n => c.plainJoin separator capitalize := by
  intro c c' h
  simp only [plainJoin_eq] at h
  have hitems := join_injective hsep (isItem_items capitalize c) (isItem_items capitalize c')
    (by rw [items, items, List.length_ofFn, List.length_ofFn]) h
  have hfun := congrFun (List.ofFn_injective hitems)
  have hwords : c.words = c'.words :=
    funext fun i => Word.printed_injective capitalize (congrArg Prod.fst (hfun i))
  have hnumber : c.number = c'.number := number_eq fun i =>
    Option.map_injective Subtype.val_injective (congrArg Prod.snd (hfun i))
  cases c
  cases c'
  cases hwords
  cases hnumber
  rfl

theorem zipIdx_items (capitalize : Bool) (c : Choice n) :
    (List.ofFn c.words).zipIdx.map (itemOf capitalize c.toNumber) = c.items capitalize := by
  refine List.ext_getElem (by simp [items]) fun i h₁ h₂ => ?_
  simp only [items, List.getElem_map, List.getElem_zipIdx, List.getElem_ofFn, Nat.zero_add, itemOf,
    toNumber]
  refine Prod.ext rfl ?_
  simp only [digitAfter]
  rcases c.number with _ | ⟨word, digit⟩
  · rfl
  · simp only [Option.map_some, Option.bind_some, Fin.ext_iff]
    by_cases hi : i = word.val
    · simp [hi, taken]
    · simp [hi, taken]

end Choice

theorem PassphraseOptions.check_spec {options : PassphraseOptions} {separator : Byte}
    (h : options.check = .ok separator) : separator ≠ 0 ∧ isWordByte separator = false := by
  have hspec : ∀ b : Byte, ¬(¬(ascii ' ' ≤ b ∧ b ≤ ascii '~') ∨ isAsciiAlphabetic b ∨
      b = ascii '-') → b ≠ 0 ∧ isWordByte b = false := by
    decide +kernel
  rw [check] at h
  split at h
  · cases h
  · split at h
    · next hbyte =>
      by_cases hallowed : ¬(ascii ' ' ≤ (⟨options.separator.toNat, hbyte⟩ : Byte) ∧
          (⟨options.separator.toNat, hbyte⟩ : Byte) ≤ ascii '~') ∨
          isAsciiAlphabetic ⟨options.separator.toNat, hbyte⟩ ∨
          (⟨options.separator.toNat, hbyte⟩ : Byte) = ascii '-'
      · cases (if_pos hallowed).symm.trans h
      · cases (if_neg hallowed).symm.trans h
        exact hspec _ hallowed
    · cases h

/-- The passes make the plain join, and a passphrase has one choice of words and number. -/
theorem passphrase_assembly {options : PassphraseOptions} {separator : Byte}
    (h : options.check = .ok separator) (n : ℕ) (capitalize : Bool) :
    (∀ c : Choice n, assembleWords n separator capitalize c.toNumber nextWord (List.ofFn c.words) =
      .ok (c.plainJoin separator capitalize)) ∧
    Function.Injective fun c : Choice n => c.plainJoin separator capitalize := by
  obtain ⟨hzero, hsep⟩ := PassphraseOptions.check_spec h
  refine ⟨fun c => ?_, Choice.plainJoin_injective hsep capitalize⟩
  have hnumber : ∀ num ∈ c.toNumber, num.digit ≠ 0 := by
    intro num hnum
    obtain ⟨⟨word, digit⟩, -, rfl⟩ := Option.mem_map.mp hnum
    exact (isWordByte_of_digit digit.val digit.property).2
  have hrun := assembleWords_eq separator capitalize c.toNumber (List.ofFn c.words)
  rw [filter_regions hzero hnumber capitalize _ (Nat.zero_add _), Choice.zipIdx_items,
    List.length_ofFn] at hrun
  rw [hrun, Choice.plainJoin_eq]

/-- Three words, the first with the digit seven. -/
def sampleChoice : Choice 3 where
  words := ![⟨ascii 'a', asciiBytes ['b'], by decide +kernel, by decide +kernel, by decide⟩,
    ⟨ascii 'c', asciiBytes ['-', 'd'], by decide +kernel, by decide +kernel, by decide⟩,
    ⟨ascii 'e', [], by decide +kernel, by decide +kernel, by decide⟩]
  number := some (0, ⟨ascii '7', by decide⟩)

theorem passphrase_assembly_digits :
    assembleWords 3 (ascii '7') true sampleChoice.toNumber nextWord (List.ofFn sampleChoice.words) =
      .ok (asciiBytes ['A', 'b', '7', '7', 'C', '-', 'd', '7', 'E']) := by
  have hcheck : PassphraseOptions.check ⟨3, '7', true, true⟩ = .ok (ascii '7') := rfl
  exact ((passphrase_assembly hcheck 3 true).1 sampleChoice).trans (congrArg _ (by decide))
end Generator

end RizzyVault.Core
