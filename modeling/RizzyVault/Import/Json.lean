import RizzyVault.Import.Text
import RizzyVault.Lib.Result

/-!
# The JSON reader

A bounded reader of JSON into a tree. A string is read in two passes, one that finds its closing
quote and one that replaces its escapes. Nesting and the number of values are capped before a value
is built.

## Main definitions

* `Json`, `string`, `number`, `value`, `parse`.

## References

* `crates/rizzy-import/src/json.rs`.
-/

open RizzyVault.Lib

namespace RizzyVault.Import

/-- A JSON value. A number is its source text. -/
inductive Json
  | null
  | bool (b : Bool)
  | number (text : List Char)
  | string (text : List Char)
  | array (items : List Json)
  | object (members : List (List Char × Json))

namespace JsonParser

def maxDepth : ℕ := 64
def maxNodes : ℕ := 4000000

/-! ### Tokens -/

def isWs (c : Char) : Bool := c ∈ [' ', '\t', '\n', '\r']

def skipWs (src : List Char) : List Char := src.dropWhile isWs

/-- Consumes one character. -/
def expect (c : Char) (src : List Char) : Result (List Char) :=
  if src.head? = some c then .ok src.tail else .error .malformed

/-- Consumes a word. -/
def literal (word src : List Char) : Result (List Char) :=
  if word <+: src then .ok (src.drop word.length) else .error .malformed

/-- Skips one or more digits. -/
def requiredDigits (src : List Char) : Result (List Char × List Char) :=
  if src.takeWhile Char.isDigit = [] then .error .malformed
  else .ok (src.takeWhile Char.isDigit, src.dropWhile Char.isDigit)

/-- Reads one of the signs, if there is one. -/
def readSign (signs src : List Char) : List Char × List Char :=
  match src with
  | [] => ([], [])
  | c :: rest => if c ∈ signs then ([c], rest) else ([], src)

/-- Reads the fraction of a number, if there is one. -/
def readFraction (src : List Char) : Result (List Char × List Char) :=
  match src with
  | '.' :: rest => do
    let (ds, rest) ← requiredDigits rest
    return ('.' :: ds, rest)
  | _ => .ok ([], src)

/-- Reads the exponent of a number, if there is one. -/
def readExponent (src : List Char) : Result (List Char × List Char) :=
  match src with
  | [] => .ok ([], [])
  | e :: rest =>
    if e = 'e' ∨ e = 'E' then do
      let (ds, rest') ← requiredDigits (readSign ['+', '-'] rest).2
      return (e :: (readSign ['+', '-'] rest).1 ++ ds, rest')
    else .ok ([], src)

/-- Reads the integer part of a number: no leading zeros. -/
def readInteger (src : List Char) : Result (List Char × List Char) :=
  match src with
  | [] => .error .malformed
  | c :: rest =>
    if c = '0' then .ok (['0'], rest)
    else if c.isDigit then .ok (src.takeWhile Char.isDigit, src.dropWhile Char.isDigit)
    else .error .malformed

/-- Reads a number's text. -/
def number (src : List Char) : Result (List Char × List Char) := do
  let (int, rest) ← readInteger (readSign ['-'] src).2
  let (frac, rest) ← readFraction rest
  let (exp, rest) ← readExponent rest
  return ((readSign ['-'] src).1 ++ int ++ frac ++ exp, rest)

/-! ### Strings -/

/-- The first pass over a string: where its closing quote is. -/
def stringEnd : List Char → Option ℕ
  | [] => none
  | c :: rest =>
    if c = '"' then some 0
    else if c = '\\' then
      match rest with
      | [] => none
      | _ :: rest => (stringEnd rest).map (· + 2)
    else if c.toNat < 0x20 then none
    else (stringEnd rest).map (· + 1)

def hexDigit (c : Char) : Option ℕ :=
  if '0' ≤ c ∧ c ≤ '9' then some (c.toNat - '0'.toNat)
  else if 'a' ≤ c ∧ c ≤ 'f' then some (c.toNat - 'a'.toNat + 10)
  else if 'A' ≤ c ∧ c ≤ 'F' then some (c.toNat - 'A'.toNat + 10)
  else none

/-- Reads `n` hex digits, after those with the given value. -/
def hexDigits : ℕ → ℕ → List Char → Result (ℕ × List Char)
  | 0, v, src => .ok (v, src)
  | n + 1, v, src =>
    match src with
    | [] => .error .malformed
    | c :: rest =>
      match hexDigit c with
      | none => .error .malformed
      | some d => hexDigits n (v * 16 + d) rest

def hex4 (src : List Char) : Result (ℕ × List Char) := hexDigits 4 0 src

/-- The code point of a surrogate pair. -/
def pairCode (first second : ℕ) : ℕ := 0x10000 + (first - 0xD800) * 1024 + (second - 0xDC00)

/-- Reads the four hex digits of a unicode escape, and a low surrogate's after a high one. -/
def unicodeEscape (src : List Char) : Result (Char × List Char) := do
  let (first, src) ← hex4 src
  if 0xD800 ≤ first ∧ first ≤ 0xDBFF then
    let src ← literal ['\\', 'u'] src
    let (second, src) ← hex4 src
    if 0xDC00 ≤ second ∧ second ≤ 0xDFFF then
      return (← fromU32 (pairCode first second), src)
    else throw .malformed
  else if 0xDC00 ≤ first ∧ first ≤ 0xDFFF then throw .malformed
  else return (← fromU32 first, src)

/-- The escapes of one character. -/
def simpleEscape (c : Char) : Option Char :=
  [('"', '"'), ('\\', '\\'), ('/', '/'), ('b', Char.ofNat 8), ('f', Char.ofNat 12), ('n', '\n'),
    ('r', '\r'), ('t', '\t')].lookup c

/-- Reads an escape, past its backslash. -/
def readEscape (src : List Char) : Result (Char × List Char) :=
  match src with
  | [] => .error .malformed
  | c :: rest =>
    match simpleEscape c with
    | some d => .ok (d, rest)
    | none => if c = 'u' then unicodeEscape rest else .error .malformed

/-! ### The grammar of escapes -/

/-- Four hex digits and their number. -/
def Hex4 (x : List Char) (n : ℕ) : Prop :=
  x.length = 4 ∧ ∃ ds, x.mapM hexDigit = some ds ∧ n = ds.foldl (fun v d => v * 16 + d) 0

/-- The texts of an escape, past its backslash. A surrogate is escaped only as half of a pair. -/
inductive Escape : List Char → Char → Prop
  | simple {c d} (h : simpleEscape c = some d) : Escape [c] d
  | unit {x n} (h : Hex4 x n) (hn : ¬ (0xD800 ≤ n ∧ n ≤ 0xDFFF)) : Escape ('u' :: x) (Char.ofNat n)
  | pair {x y high low} (hx : Hex4 x high) (hy : Hex4 y low)
      (hhigh : 0xD800 ≤ high ∧ high ≤ 0xDBFF) (hlow : 0xDC00 ≤ low ∧ low ≤ 0xDFFF) :
      Escape ('u' :: x ++ '\\' :: 'u' :: y) (Char.ofNat (pairCode high low))

theorem literal_eq_ok_iff {word src rest : List Char} :
    literal word src = .ok rest ↔ src = word ++ rest := by
  unfold literal
  split_ifs with hw
  · obtain ⟨rest', rfl⟩ := hw
    simp
  · constructor
    · intro h
      cases h
    · rintro rfl
      exact absurd (List.prefix_append _ _) hw

theorem hexDigits_eq_ok_iff {n v w : ℕ} {src rest : List Char} :
    hexDigits n v src = .ok (w, rest) ↔ ∃ x ds, x.mapM hexDigit = some ds ∧ x.length = n ∧
      w = ds.foldl (fun v d => v * 16 + d) v ∧ src = x ++ rest := by
  induction n generalizing v src with
  | zero =>
    constructor
    · intro h
      cases h
      exact ⟨[], [], rfl, rfl, rfl, rfl⟩
    · rintro ⟨x, ds, hds, hlen, rfl, rfl⟩
      rw [List.length_eq_zero_iff] at hlen
      subst hlen
      cases hds
      rfl
  | succ n ih =>
    constructor
    · intro h
      cases src with
      | nil => cases h
      | cons c src =>
        rw [hexDigits] at h
        split at h
        · cases h
        · rename_i d hd
          obtain ⟨x, ds, hds, hlen, rfl, rfl⟩ := ih.mp h
          exact ⟨c :: x, d :: ds, by simp [List.mapM_cons, hd, hds], by simp [hlen], rfl, rfl⟩
    · rintro ⟨x, ds, hds, hlen, rfl, rfl⟩
      obtain ⟨c, x, rfl⟩ := List.exists_cons_of_length_eq_add_one hlen
      rw [List.mapM_cons] at hds
      obtain ⟨d, hd, hbind⟩ := Option.bind_eq_some_iff.mp hds
      obtain ⟨ds', hds', hcons⟩ := Option.bind_eq_some_iff.mp hbind
      cases hcons
      rw [List.cons_append, hexDigits, hd]
      exact ih.mpr ⟨x, ds', hds', Nat.succ.inj hlen, rfl, rfl⟩

theorem hex4_eq_ok_iff {n : ℕ} {src rest : List Char} :
    hex4 src = .ok (n, rest) ↔ ∃ x, Hex4 x n ∧ src = x ++ rest := by
  unfold hex4 Hex4
  rw [hexDigits_eq_ok_iff]
  constructor
  · rintro ⟨x, ds, hds, hlen, hn, hsrc⟩
    exact ⟨x, ⟨hlen, ds, hds, hn⟩, hsrc⟩
  · rintro ⟨x, ⟨hlen, ds, hds, hn⟩, hsrc⟩
    exact ⟨x, ds, hds, hlen, hn, hsrc⟩

theorem hexDigit_lt {c : Char} {d : ℕ} (h : hexDigit c = some d) : d < 16 := by
  unfold hexDigit at h
  split_ifs at h with h₁ h₂ h₃ <;> cases h
  all_goals
    simp only [Char.le_def, UInt32.le_iff_toNat_le] at *
    simp only [Char.toNat] at *
    simp at *
    omega

theorem foldl_hex_lt {x : List Char} {ds : List ℕ} (h : x.mapM hexDigit = some ds) (v : ℕ) :
    ds.foldl (fun v d => v * 16 + d) v < (v + 1) * 16 ^ x.length := by
  induction x generalizing ds v with
  | nil =>
    cases h
    simp
  | cons c x ih =>
    rw [List.mapM_cons] at h
    obtain ⟨d, hd, hbind⟩ := Option.bind_eq_some_iff.mp h
    obtain ⟨ds', hds', hcons⟩ := Option.bind_eq_some_iff.mp hbind
    cases hcons
    have hlt := hexDigit_lt hd
    have hv : v * 16 + d + 1 ≤ (v + 1) * 16 := by omega
    calc (d :: ds').foldl (fun v d => v * 16 + d) v
        < (v * 16 + d + 1) * 16 ^ x.length := ih hds' _
      _ ≤ (v + 1) * 16 * 16 ^ x.length := Nat.mul_le_mul_right _ hv
      _ = (v + 1) * 16 ^ (c :: x).length := by rw [List.length_cons, pow_succ]; ring

theorem Hex4.lt {x : List Char} {n : ℕ} (h : Hex4 x n) : n < 0x10000 := by
  obtain ⟨hlen, ds, hds, rfl⟩ := h
  have hlt := foldl_hex_lt hds 0
  rw [hlen] at hlt
  omega

/-- What follows the `u` of an escape. -/
theorem unicodeEscape_eq_ok_iff {src rest : List Char} {c : Char} :
    unicodeEscape src = .ok (c, rest) ↔
      (∃ x n, Hex4 x n ∧ ¬ (0xD800 ≤ n ∧ n ≤ 0xDFFF) ∧ c = Char.ofNat n ∧ src = x ++ rest) ∨
      ∃ x y high low, Hex4 x high ∧ Hex4 y low ∧ (0xD800 ≤ high ∧ high ≤ 0xDBFF) ∧
        (0xDC00 ≤ low ∧ low ≤ 0xDFFF) ∧
        c = Char.ofNat (pairCode high low) ∧ src = x ++ '\\' :: 'u' :: y ++ rest := by
  unfold unicodeEscape
  rw [except_bind_eq_ok]
  constructor
  · rintro ⟨⟨first, src₁⟩, hfirst, h⟩
    obtain ⟨x, hx, rfl⟩ := hex4_eq_ok_iff.mp hfirst
    simp only at h
    split_ifs at h with hhigh hlow
    · obtain ⟨src₂, hlit, hrest⟩ := except_bind_eq_ok.mp h
      obtain ⟨⟨second, src₃⟩, hsecond, hcode⟩ := except_bind_eq_ok.mp hrest
      obtain ⟨y, hy, rfl⟩ := hex4_eq_ok_iff.mp hsecond
      rw [literal_eq_ok_iff] at hlit
      simp only at hcode
      split_ifs at hcode with hlow
      · obtain ⟨d, hd, hpure⟩ := except_bind_eq_ok.mp hcode
        cases hpure
        obtain ⟨-, hc⟩ := fromU32_eq_ok_iff.mp hd
        exact .inr ⟨x, y, first, second, hx, hy, hhigh, hlow, hc, by simp [hlit]⟩
    · obtain ⟨d, hd, hpure⟩ := except_bind_eq_ok.mp h
      cases hpure
      obtain ⟨-, rfl⟩ := fromU32_eq_ok_iff.mp hd
      exact .inl ⟨x, first, hx, by omega, rfl, rfl⟩
  · rintro (⟨x, n, hx, hn, hc, rfl⟩ | ⟨x, y, high, low, hx, hy, hhigh, hlow, hc, rfl⟩)
    · have hlt := hx.lt
      have hvalid : n.isValidChar := by
        unfold Nat.isValidChar
        omega
      refine ⟨⟨n, rest⟩, hex4_eq_ok_iff.mpr ⟨x, hx, rfl⟩, ?_⟩
      simp only
      rw [if_neg (by omega), if_neg (by omega), fromU32_eq_ok_iff.mpr ⟨hvalid, hc⟩]
      rfl
    · have hvalid : (pairCode high low).isValidChar := by
        unfold Nat.isValidChar pairCode
        omega
      refine ⟨⟨high, '\\' :: 'u' :: y ++ rest⟩, hex4_eq_ok_iff.mpr ⟨x, hx, by simp⟩, ?_⟩
      have hlit : literal ['\\', 'u'] ('\\' :: 'u' :: y ++ rest) = .ok (y ++ rest) :=
        literal_eq_ok_iff.mpr rfl
      have hsecond : hex4 (y ++ rest) = .ok (low, rest) := hex4_eq_ok_iff.mpr ⟨y, hy, rfl⟩
      simp only
      rw [if_pos hhigh]
      refine except_bind_eq_ok.mpr ⟨_, hlit, except_bind_eq_ok.mpr ⟨_, hsecond, ?_⟩⟩
      simp only
      rw [if_pos hlow, fromU32_eq_ok_iff.mpr ⟨hvalid, hc⟩]
      rfl

/-- The reader of an escape accepts the grammar of escapes. -/
theorem readEscape_eq_ok_iff {src rest : List Char} {c : Char} :
    readEscape src = .ok (c, rest) ↔ ∃ t, Escape t c ∧ src = t ++ rest := by
  have hu : simpleEscape 'u' = none := by decide
  constructor
  · intro h
    cases src with
    | nil => cases h
    | cons d src =>
      rw [readEscape] at h
      split at h
      · rename_i e he
        cases h
        exact ⟨[d], .simple he, rfl⟩
      · split_ifs at h with hd
        subst hd
        rcases unicodeEscape_eq_ok_iff.mp h with ⟨x, n, hx, hn, rfl, rfl⟩ |
          ⟨x, y, high, low, hx, hy, hhigh, hlow, hc, rfl⟩
        · exact ⟨_, .unit hx hn, rfl⟩
        · refine ⟨'u' :: x ++ '\\' :: 'u' :: y, ?_, by simp⟩
          rw [hc]
          exact .pair hx hy hhigh hlow
  · rintro ⟨t, ht, rfl⟩
    cases ht with
    | simple he =>
      rw [List.singleton_append, readEscape, he]
    | unit hx hn =>
      rw [List.cons_append, readEscape, hu]
      exact unicodeEscape_eq_ok_iff.mpr (.inl ⟨_, _, hx, hn, rfl, rfl⟩)
    | pair hx hy hhigh hlow =>
      rw [List.cons_append, List.cons_append, readEscape, hu]
      exact unicodeEscape_eq_ok_iff.mpr
        (.inr ⟨_, _, _, _, hx, hy, hhigh, hlow, rfl, by simp⟩)

theorem Escape.ne_nil {t : List Char} {c : Char} (h : Escape t c) : t ≠ [] := by
  cases h <;> simp

theorem readEscape_lt {src rest : List Char} {c : Char} (h : readEscape src = .ok (c, rest)) :
    rest.length < src.length := by
  obtain ⟨t, ht, rfl⟩ := readEscape_eq_ok_iff.mp h
  have hpos := List.length_pos_of_ne_nil ht.ne_nil
  rw [List.length_append]
  omega

/-- The second pass over a string, up to where `endLen` characters are left: every escape is
replaced. An escape that runs past the end is an error. -/
def unescape (endLen : ℕ) (src : List Char) : Result (List Char) :=
  if src.length < endLen then .error .malformed
  else if src.length = endLen then .ok []
  else
    match src with
    | [] => .ok []
    | c :: rest =>
      if c ≠ '\\' then return c :: (← unescape endLen rest)
      else
        match _h : readEscape rest with
        | .error e => .error e
        | .ok (d, rest) => return d :: (← unescape endLen rest)
termination_by src.length
decreasing_by
  · exact Nat.lt_succ_self _
  · exact (readEscape_lt _h).trans (Nat.lt_succ_self _)

/-- Reads a string; the cursor is on its opening quote. -/
def string (src : List Char) : Result (List Char × List Char) := do
  let src ← expect '"' src
  match stringEnd src with
  | none => .error .malformed
  | some len => return (← unescape (src.length - len) src, src.drop (len + 1))

/-! ### Values -/

/-- The reader's state: what is left of the source, and the values built so far. -/
structure State where
  src : List Char
  nodes : ℕ

/-- Counts one value. -/
def count (s : State) : Result State :=
  if maxNodes < s.nodes + 1 then .error .tooMany else .ok { s with nodes := s.nodes + 1 }

abbrev Reads (α : Type) := State → Result (α × State)

/-- Reads parts separated by commas, up to the closing character. -/
def listed {α : Type} (part : Reads α) (close : Char) : ℕ → Reads (List α)
  | 0, _ => .error .malformed
  | fuel + 1, s => do
    let (x, s) ← part s
    match skipWs s.src with
    | [] => .error .malformed
    | c :: rest =>
      if c = ',' then
        let (xs, s) ← listed part close fuel { s with src := rest }
        return (x :: xs, s)
      else if c = close then return ([x], { s with src := rest })
      else .error .malformed

/-- Reads what a pair of brackets encloses; the cursor is on the opening one. -/
def bracketed {α : Type} (part : Reads α) (start close : Char) : Reads (List α) := fun s => do
  let src := skipWs (← expect start s.src)
  if src.head? = some close then return ([], { s with src := src.tail })
  else listed part close (src.length + 1) { s with src := src }

/-- Reads one item of an array. -/
def item (value : Reads Json) : Reads Json := fun s => value { s with src := skipWs s.src }

/-- Reads one member of an object. -/
def member (value : Reads Json) : Reads (List Char × Json) := fun s => do
  let (name, src) ← string (skipWs s.src)
  let src ← expect ':' (skipWs src)
  let (v, s) ← value { s with src := skipWs src }
  return ((name, v), s)

/-- Reads an array; the cursor is on its opening bracket. -/
def array (value : Reads Json) : Reads Json := fun s => do
  let (vs, s) ← bracketed (item value) '[' ']' s
  return (.array vs, s)

/-- Reads an object; the cursor is on its opening brace. -/
def object (value : Reads Json) : Reads Json := fun s => do
  let (ms, s) ← bracketed (member value) '{' '}' s
  return (.object ms, s)

/-- Reads a value without parts. -/
def scalar (s : State) : Result (Json × State) :=
  match s.src with
  | [] => .error .malformed
  | c :: _ =>
    if c = '"' then do
      let (text, src) ← string s.src
      return (.string text, { s with src := src })
    else if c = 't' then return (.bool true, { s with src := ← literal "true".toList s.src })
    else if c = 'f' then return (.bool false, { s with src := ← literal "false".toList s.src })
    else if c = 'n' then return (.null, { s with src := ← literal "null".toList s.src })
    else if c = '-' ∨ c.isDigit then do
      let (text, src) ← number s.src
      return (.number text, { s with src := src })
    else .error .malformed

/-- Reads one value that may nest `levels` deep. -/
def value : ℕ → Reads Json
  | levels, s => do
    let s ← count s
    if s.src.head? = some '{' then
      match levels with
      | 0 => .error .tooDeep
      | levels + 1 => object (value levels) s
    else if s.src.head? = some '[' then
      match levels with
      | 0 => .error .tooDeep
      | levels + 1 => array (value levels) s
    else scalar s

/-- Parses one JSON document. -/
def parse (input : List Byte) (maxLen : ℕ) : Result Json := do
  let src ← utf8Input input maxLen
  let (v, s) ← value maxDepth ⟨skipWs src, 0⟩
  if skipWs s.src = [] then return v else throw .malformed

end JsonParser

end RizzyVault.Import
