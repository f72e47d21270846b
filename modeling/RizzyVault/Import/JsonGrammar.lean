import RizzyVault.Import.Json

/-!
# The JSON reader against the grammar of JSON

The grammar of RFC 8259, with the tree that each text denotes. The leaves come first: strings, whose
two passes end at the same quote, and numbers. A value ends where a comma, a bracket, white space or
the end follows, and there the reader takes exactly the text that the grammar derives. Both
directions go by levels of nesting.

## Main definitions

* `Chars`, `Str`, `Number`, `Value`, `Elements`, `Members`, `Document`: the grammar.
* `Json.depth`, `Json.nodes`: nesting and number of values.

## Main results

* `string_eq_ok_iff`: the reader of strings accepts the grammar of strings.
* `sound_value`, `complete_value`: the reader of values, in both directions.
* `json_reader_exact`: what is accepted, and what is read, of any input.

## References

* `crates/rizzy-import/src/json.rs`.
-/

open RizzyVault.Lib

namespace RizzyVault.Import

mutual

/-- How deep arrays and objects nest in a value. -/
def Json.depth : Json → ℕ
  | .array vs => Json.depthItems vs + 1
  | .object ms => Json.depthMembers ms + 1
  | _ => 0

def Json.depthItems : List Json → ℕ
  | [] => 0
  | v :: vs => max v.depth (Json.depthItems vs)

def Json.depthMembers : List (List Char × Json) → ℕ
  | [] => 0
  | (_, v) :: ms => max v.depth (Json.depthMembers ms)

end

mutual

/-- How many values a value holds, itself included. -/
def Json.nodes : Json → ℕ
  | .array vs => Json.nodesItems vs + 1
  | .object ms => Json.nodesMembers ms + 1
  | _ => 1

def Json.nodesItems : List Json → ℕ
  | [] => 0
  | v :: vs => v.nodes + Json.nodesItems vs

def Json.nodesMembers : List (List Char × Json) → ℕ
  | [] => 0
  | (_, v) :: ms => v.nodes + Json.nodesMembers ms

end

theorem Json.depthItems_le_iff {vs : List Json} {n : ℕ} :
    Json.depthItems vs ≤ n ↔ ∀ v ∈ vs, v.depth ≤ n := by
  induction vs with
  | nil => simp [Json.depthItems]
  | cons v vs ih => rw [Json.depthItems, max_le_iff, ih, List.forall_mem_cons]

theorem Json.depthMembers_le_iff {ms : List (List Char × Json)} {n : ℕ} :
    Json.depthMembers ms ≤ n ↔ ∀ m ∈ ms, m.2.depth ≤ n := by
  induction ms with
  | nil => simp [Json.depthMembers]
  | cons m ms ih => rw [Json.depthMembers, max_le_iff, ih, List.forall_mem_cons]

theorem Json.nodesItems_eq (vs : List Json) : Json.nodesItems vs = (vs.map Json.nodes).sum := by
  induction vs with
  | nil => rfl
  | cons v vs ih => rw [Json.nodesItems, ih, List.map_cons, List.sum_cons]

theorem Json.nodesMembers_eq (ms : List (List Char × Json)) :
    Json.nodesMembers ms = (ms.map fun m => m.2.nodes).sum := by
  induction ms with
  | nil => rfl
  | cons m ms ih => rw [Json.nodesMembers, ih, List.map_cons, List.sum_cons]

namespace JsonParser

/-! ### The grammar -/

/-- The texts of the characters of a string. -/
inductive Chars : List Char → List Char → Prop
  | nil : Chars [] []
  | plain {c t s} (hq : c ≠ '"') (hb : c ≠ '\\') (hc : 0x20 ≤ c.toNat) (h : Chars t s) :
      Chars (c :: t) (c :: s)
  | escape {e d t s} (he : Escape e d) (h : Chars t s) : Chars ('\\' :: e ++ t) (d :: s)

/-- The texts of a string. -/
def Str (t s : List Char) : Prop := ∃ body, Chars body s ∧ t = '"' :: body ++ ['"']

def Digits (t : List Char) : Prop := t ≠ [] ∧ ∀ c ∈ t, c.isDigit = true

/-- The texts of an integer part: no leading zeros. -/
def Integer (t : List Char) : Prop :=
  t = ['0'] ∨ Digits t ∧ t.head? ≠ some '0'

def Fraction (t : List Char) : Prop := t = [] ∨ ∃ ds, Digits ds ∧ t = '.' :: ds

def Exponent (t : List Char) : Prop :=
  t = [] ∨ ∃ e sign ds, (e = 'e' ∨ e = 'E') ∧ (sign = [] ∨ sign = ['+'] ∨ sign = ['-']) ∧
    Digits ds ∧ t = e :: sign ++ ds

/-- The texts of numbers. -/
def Number (t : List Char) : Prop :=
  ∃ sign int frac exp, (sign = [] ∨ sign = ['-']) ∧ Integer int ∧ Fraction frac ∧ Exponent exp ∧
    t = sign ++ int ++ frac ++ exp

def Ws (w : List Char) : Prop := ∀ c ∈ w, isWs c = true

/-- The texts of a list of parts separated by commas, with white space after each part. -/
inductive Listed {α : Type} (E : List Char → α → Prop) : List Char → List α → Prop
  | single {t w x} (h : E t x) (hw : Ws w) : Listed E (t ++ w) [x]
  | cons {t w ts x xs} (h : E t x) (hw : Ws w) (hs : Listed E ts xs) :
      Listed E (t ++ w ++ ',' :: ts) (x :: xs)

mutual

/-- The texts of a value. -/
inductive Value : List Char → Json → Prop
  | nullLit : Value "null".toList .null
  | trueLit : Value "true".toList (.bool true)
  | falseLit : Value "false".toList (.bool false)
  | number {t} (h : Number t) : Value t (.number t)
  | string {t s} (h : Str t s) : Value t (.string s)
  | emptyArray {w} (hw : Ws w) : Value ('[' :: w ++ [']']) (.array [])
  | array {t vs} (h : Listed Item t vs) : Value ('[' :: t ++ [']']) (.array vs)
  | emptyObject {w} (hw : Ws w) : Value ('{' :: w ++ ['}']) (.object [])
  | object {t ms} (h : Listed Member t ms) : Value ('{' :: t ++ ['}']) (.object ms)

/-- The texts of an item of an array, with white space before it. -/
inductive Item : List Char → Json → Prop
  | mk {w t v} (hw : Ws w) (hv : Value t v) : Item (w ++ t) v

/-- The texts of a member of an object, with white space before it. -/
inductive Member : List Char → List Char × Json → Prop
  | mk {w₁ tn w₂ w₃ t name v} (h₁ : Ws w₁) (hn : Str tn name) (h₂ : Ws w₂) (h₃ : Ws w₃)
      (hv : Value t v) : Member (w₁ ++ tn ++ w₂ ++ ':' :: w₃ ++ t) (name, v)

end

/-- The texts of a document. -/
def Document (text : List Char) (v : Json) : Prop :=
  ∃ w t w', Ws w ∧ Value t v ∧ Ws w' ∧ text = w ++ t ++ w'

/-! ### Strings -/

theorem stringEnd_cons_plain {c : Char} (hq : c ≠ '"') (hb : c ≠ '\\') (hc : 0x20 ≤ c.toNat)
    (l : List Char) : stringEnd (c :: l) = (stringEnd l).map (· + 1) := by
  rw [stringEnd.eq_def]
  simp only [if_neg hq, if_neg hb, if_neg (Nat.not_lt.mpr hc)]

theorem stringEnd_append_plain {x : List Char}
    (hx : ∀ c ∈ x, c ≠ '"' ∧ c ≠ '\\' ∧ 0x20 ≤ c.toNat) (l : List Char) :
    stringEnd (x ++ l) = (stringEnd l).map (· + x.length) := by
  induction x with
  | nil => simp
  | cons c x ih =>
    obtain ⟨⟨hq, hb, hc⟩, hx⟩ := List.forall_mem_cons.mp hx
    rw [List.cons_append, stringEnd_cons_plain hq hb hc, ih hx, Option.map_map]
    rfl

theorem stringEnd_backslash (c : Char) (l : List Char) :
    stringEnd ('\\' :: c :: l) = (stringEnd l).map (· + 2) := by
  rw [stringEnd, if_neg (by decide), if_pos rfl]

theorem hexDigit_range {c : Char} {d : ℕ} (h : hexDigit c = some d) :
    (48 ≤ c.toNat ∧ c.toNat ≤ 57) ∨ (97 ≤ c.toNat ∧ c.toNat ≤ 102) ∨
      (65 ≤ c.toNat ∧ c.toNat ≤ 70) := by
  unfold hexDigit at h
  split_ifs at h with h₁ h₂ h₃
  · exact .inl h₁
  · exact .inr (.inl h₂)
  · exact .inr (.inr h₃)

theorem hexDigit_plain {c : Char} {d : ℕ} (h : hexDigit c = some d) :
    c ≠ '"' ∧ c ≠ '\\' ∧ 0x20 ≤ c.toNat := by
  have hrange := hexDigit_range h
  refine ⟨?_, ?_, by omega⟩
  · rintro rfl
    exact absurd hrange (by decide)
  · rintro rfl
    exact absurd hrange (by decide)

theorem hexDigit_of_mem {x : List Char} {ds : List ℕ} (h : x.mapM hexDigit = some ds) :
    ∀ c ∈ x, ∃ d, hexDigit c = some d := by
  induction x generalizing ds with
  | nil => simp
  | cons c x ih =>
    rw [List.mapM_cons] at h
    obtain ⟨d, hd, hbind⟩ := Option.bind_eq_some_iff.mp h
    obtain ⟨ds', hds', -⟩ := Option.bind_eq_some_iff.mp hbind
    exact List.forall_mem_cons.mpr ⟨⟨d, hd⟩, ih hds'⟩

theorem Hex4.plain {x : List Char} {n : ℕ} (h : Hex4 x n) :
    ∀ c ∈ x, c ≠ '"' ∧ c ≠ '\\' ∧ 0x20 ≤ c.toNat := by
  obtain ⟨-, ds, hds, -⟩ := h
  intro c hc
  obtain ⟨d, hd⟩ := hexDigit_of_mem hds c hc
  exact hexDigit_plain hd

/-- The first pass steps over an escape. -/
theorem Escape.stringEnd {e : List Char} {d : Char} (h : Escape e d) (l : List Char) :
    stringEnd ('\\' :: e ++ l) = (stringEnd l).map (· + (e.length + 1)) := by
  cases h with
  | simple h => exact stringEnd_backslash _ l
  | unit hx hn =>
    rw [List.cons_append, List.cons_append, stringEnd_backslash, stringEnd_append_plain hx.plain,
      Option.map_map]
    rfl
  | @pair x y high low hx hy hhigh hlow =>
    have hsplit : '\\' :: ('u' :: x ++ '\\' :: 'u' :: y) ++ l =
        '\\' :: 'u' :: (x ++ '\\' :: 'u' :: (y ++ l)) := by simp
    rw [hsplit, stringEnd_backslash, stringEnd_append_plain hx.plain, stringEnd_backslash,
      stringEnd_append_plain hy.plain, Option.map_map, Option.map_map, Option.map_map]
    congr 1
    funext n
    simp
    omega

/-- The first pass steps over the characters of a string. -/
theorem Chars.stringEnd {t s : List Char} (h : Chars t s) (l : List Char) :
    stringEnd (t ++ l) = (stringEnd l).map (· + t.length) := by
  induction h with
  | nil => simp
  | plain hq hb hc _ ih =>
    rw [List.cons_append, stringEnd_cons_plain hq hb hc, ih, Option.map_map]
    rfl
  | @escape e d t s he _ ih =>
    rw [List.append_assoc, he.stringEnd, ih, Option.map_map]
    congr 1
    funext n
    simp
    omega

theorem unescape_lt {endLen : ℕ} {c : Char} {l : List Char} (h : endLen < (c :: l).length)
    (hc : c ≠ '\\') : unescape endLen (c :: l) = do return c :: (← unescape endLen l) := by
  rw [unescape, if_neg (by omega), if_neg (by omega)]
  simp only [if_pos hc]

theorem unescape_escape {endLen : ℕ} {d : Char} {l rest : List Char}
    (h : endLen < ('\\' :: l).length) (he : readEscape l = .ok (d, rest)) :
    unescape endLen ('\\' :: l) = do return d :: (← unescape endLen rest) := by
  rw [unescape, if_neg (by omega), if_neg (by omega)]
  simp only [ne_eq, not_true_eq_false, ↓reduceIte]
  split
  · simp_all
  · rename_i d' rest' he'
    rw [he] at he'
    cases he'
    rfl

theorem unescape_end (l : List Char) : unescape l.length l = .ok [] := by
  rw [unescape.eq_def, if_neg (by omega), if_pos rfl]

/-- The second pass replaces the escapes of the characters before the end. -/
theorem Chars.unescape {t s : List Char} (h : Chars t s) (l : List Char) :
    unescape l.length (t ++ l) = .ok s := by
  induction h with
  | nil => exact unescape_end l
  | @plain c t s hq hb hc _ ih =>
    rw [List.cons_append, unescape_lt (by simp) hb, ih]
    rfl
  | @escape e d t s he _ ih =>
    have hread := readEscape_eq_ok_iff.mpr ⟨e, he, (List.append_assoc e t l)⟩
    rw [List.cons_append, List.cons_append, unescape_escape (by simp; omega) hread, ih]
    rfl

theorem unescape_backslash_eq_ok {endLen : ℕ} {l s : List Char}
    (hlt : endLen < ('\\' :: l).length) (h : unescape endLen ('\\' :: l) = .ok s) :
    ∃ d rest s', readEscape l = .ok (d, rest) ∧ unescape endLen rest = .ok s' ∧ s = d :: s' := by
  cases he : readEscape l with
  | error e =>
    rw [unescape, if_neg (by omega), if_neg (by omega)] at h
    simp only [ne_eq, not_true_eq_false, ↓reduceIte] at h
    split at h
    · cases h
    · simp_all
  | ok r =>
    obtain ⟨d, rest⟩ := r
    rw [unescape_escape hlt he] at h
    obtain ⟨s', hs', hcons⟩ := except_bind_eq_ok.mp h
    cases hcons
    exact ⟨d, rest, s', rfl, hs', rfl⟩

theorem stringEnd_quote (l : List Char) : stringEnd ('"' :: l) = some 0 := by
  rw [stringEnd.eq_def]
  rfl

/-- Where the first pass finds a quote and the second one succeeds, there are the characters of a
string up to that quote. -/
theorem chars_of_passes {src s : List Char} {len : ℕ} (hend : stringEnd src = some len)
    (h : unescape (src.length - len) src = .ok s) :
    ∃ t rest, Chars t s ∧ src = t ++ '"' :: rest ∧ t.length = len := by
  induction hn : src.length using Nat.strong_induction_on generalizing src s len with
  | _ n ih =>
    subst hn
    cases src with
    | nil => cases hend
    | cons c l =>
      by_cases hq : c = '"'
      · subst hq
        rw [stringEnd_quote] at hend
        cases hend
        rw [Nat.sub_zero, unescape_end] at h
        cases h
        exact ⟨[], l, .nil, rfl, rfl⟩
      by_cases hb : c = '\\'
      · subst hb
        cases l with
        | nil =>
          rw [stringEnd.eq_def] at hend
          cases hend
        | cons d l =>
          have hlen : 2 ≤ len := by
            rw [stringEnd_backslash] at hend
            obtain ⟨k, -, rfl⟩ := Option.map_eq_some_iff.mp hend
            omega
          obtain ⟨d', rest, s', hread, hrest, rfl⟩ :=
            unescape_backslash_eq_ok (by simp only [List.length_cons]; omega) h
          obtain ⟨e, he, hl⟩ := readEscape_eq_ok_iff.mp hread
          rw [hl] at hend hrest ⊢
          rw [← List.cons_append, he.stringEnd] at hend
          obtain ⟨k, hk, rfl⟩ := Option.map_eq_some_iff.mp hend
          have hsub : ('\\' :: (e ++ rest)).length - (k + (e.length + 1)) = rest.length - k := by
            simp only [List.length_cons, List.length_append]
            omega
          rw [hsub] at hrest
          obtain ⟨t, rest', hchars, rfl, rfl⟩ := ih _ (by rw [hl]; simp) hk hrest rfl
          exact ⟨'\\' :: e ++ t, rest', .escape he hchars, by simp, by simp; omega⟩
      · have hc : 0x20 ≤ c.toNat := by
          by_contra hlt
          rw [stringEnd.eq_def] at hend
          simp only [if_neg hq, if_neg hb, if_pos (Nat.lt_of_not_le hlt)] at hend
          cases hend
        rw [stringEnd_cons_plain hq hb hc] at hend
        obtain ⟨k, hk, rfl⟩ := Option.map_eq_some_iff.mp hend
        have hsub : (c :: l).length - (k + 1) = l.length - k := by
          rw [List.length_cons]
          omega
        rw [hsub, unescape_lt (by rw [List.length_cons]; omega) hb] at h
        obtain ⟨s', hs', hcons⟩ := except_bind_eq_ok.mp h
        cases hcons
        obtain ⟨t, rest', hchars, rfl, rfl⟩ := ih _ (by simp) hk hs' rfl
        exact ⟨c :: t, rest', .plain hq hb hc hchars, rfl, rfl⟩

theorem expect_eq_ok_iff {c : Char} {src rest : List Char} :
    expect c src = .ok rest ↔ src = c :: rest := by
  unfold expect
  split_ifs with h
  · cases src with
    | nil => cases h
    | cons d src =>
      cases h
      simp
  · constructor
    · intro h'
      cases h'
    · rintro rfl
      exact absurd rfl h

/-- The reader of strings accepts the grammar of strings, and its two passes end at one quote. -/
theorem string_eq_ok_iff {src s rest : List Char} :
    string src = .ok (s, rest) ↔ ∃ t, Str t s ∧ src = t ++ rest := by
  unfold string Str
  rw [except_bind_eq_ok]
  constructor
  · rintro ⟨src', hquote, h⟩
    rw [expect_eq_ok_iff] at hquote
    subst hquote
    split at h
    · cases h
    · rename_i len hlen
      obtain ⟨s', hs', hpair⟩ := except_bind_eq_ok.mp h
      obtain ⟨t, rest', hchars, rfl, rfl⟩ := chars_of_passes hlen hs'
      cases hpair
      refine ⟨_, ⟨t, hchars, rfl⟩, ?_⟩
      simp [List.drop_append]
  · rintro ⟨_, ⟨t, hchars, rfl⟩, rfl⟩
    refine ⟨t ++ '"' :: rest, expect_eq_ok_iff.mpr (by simp), ?_⟩
    rw [hchars.stringEnd, stringEnd_quote]
    have hsub : (t ++ '"' :: rest).length - (0 + t.length) = ('"' :: rest).length := by
      rw [List.length_append]
      omega
    show (do return (← unescape ((t ++ '"' :: rest).length - (0 + t.length)) (t ++ '"' :: rest),
      (t ++ '"' :: rest).drop (0 + t.length + 1))) = _
    rw [hsub, hchars.unescape]
    simp [List.drop_append, pure, Except.pure, bind, Except.bind]

/-! ### Numbers -/

def NoDigit (l : List Char) : Prop := ∀ c ∈ l.head?, c.isDigit = false

theorem takeWhile_digits {ds l : List Char} (hds : ∀ c ∈ ds, c.isDigit = true) (hl : NoDigit l) :
    (ds ++ l).takeWhile Char.isDigit = ds ∧ (ds ++ l).dropWhile Char.isDigit = l := by
  rw [List.takeWhile_append_of_pos hds, List.dropWhile_append_of_pos hds]
  cases l with
  | nil => simp
  | cons c l =>
    have hc := hl c rfl
    rw [List.takeWhile_cons_of_neg (by simp [hc]), List.dropWhile_cons_of_neg (by simp [hc])]
    simp

theorem digits_takeWhile (src : List Char) : ∀ c ∈ src.takeWhile Char.isDigit, c.isDigit = true :=
  fun _ hc => List.mem_takeWhile_imp hc

theorem requiredDigits_ok {src ds rest : List Char} (h : requiredDigits src = .ok (ds, rest)) :
    Digits ds ∧ src = ds ++ rest := by
  unfold requiredDigits at h
  split_ifs at h with hne
  cases h
  exact ⟨⟨hne, digits_takeWhile src⟩, List.takeWhile_append_dropWhile.symm⟩

theorem Digits.requiredDigits {ds l : List Char} (h : Digits ds) (hl : NoDigit l) :
    requiredDigits (ds ++ l) = .ok (ds, l) := by
  obtain ⟨htake, hdrop⟩ := takeWhile_digits h.2 hl
  rw [JsonParser.requiredDigits, htake, hdrop, if_neg h.1]

theorem readInteger_ok {src int rest : List Char} (h : readInteger src = .ok (int, rest)) :
    Integer int ∧ src = int ++ rest := by
  cases src with
  | nil => cases h
  | cons c src =>
    rw [readInteger] at h
    split_ifs at h with hzero hdigit
    · cases h
      exact ⟨.inl rfl, by rw [hzero]; rfl⟩
    · cases h
      refine ⟨.inr ⟨⟨?_, digits_takeWhile _⟩, ?_⟩, List.takeWhile_append_dropWhile.symm⟩
      · rw [List.takeWhile_cons_of_pos hdigit]
        simp
      · rw [List.takeWhile_cons_of_pos hdigit]
        simpa using hzero

theorem Integer.readInteger {int l : List Char} (h : Integer int) (hl : NoDigit l) :
    readInteger (int ++ l) = .ok (int, l) := by
  rcases h with rfl | ⟨hds, hzero⟩
  · rfl
  · obtain ⟨htake, hdrop⟩ := takeWhile_digits hds.2 hl
    obtain ⟨c, ds, rfl⟩ := List.exists_cons_of_ne_nil hds.1
    have hc : c ≠ '0' := by simpa using hzero
    rw [List.cons_append] at htake hdrop
    rw [List.cons_append, JsonParser.readInteger, if_neg hc, if_pos (hds.2 c List.mem_cons_self),
      htake, hdrop]

theorem readFraction_ok {src frac rest : List Char} (h : readFraction src = .ok (frac, rest)) :
    Fraction frac ∧ src = frac ++ rest := by
  unfold readFraction at h
  split at h
  · obtain ⟨⟨ds, rest'⟩, hds, hpair⟩ := except_bind_eq_ok.mp h
    cases hpair
    obtain ⟨hdigits, rfl⟩ := requiredDigits_ok hds
    exact ⟨.inr ⟨ds, hdigits, rfl⟩, rfl⟩
  · cases h
    exact ⟨.inl rfl, rfl⟩

theorem Fraction.readFraction {frac l : List Char} (h : Fraction frac) (hl : NoDigit l)
    (hdot : l.head? ≠ some '.') : readFraction (frac ++ l) = .ok (frac, l) := by
  rcases h with rfl | ⟨ds, hds, rfl⟩
  · rw [List.nil_append, JsonParser.readFraction.eq_def]
    split
    · exact absurd rfl hdot
    · rfl
  · rw [List.cons_append, JsonParser.readFraction, hds.requiredDigits hl]
    rfl

theorem readSign_spec (signs src : List Char) :
    ((readSign signs src).1 = [] ∨ ∃ c ∈ signs, (readSign signs src).1 = [c]) ∧
      src = (readSign signs src).1 ++ (readSign signs src).2 := by
  cases src with
  | nil => exact ⟨.inl rfl, rfl⟩
  | cons c src =>
    rw [readSign]
    split_ifs with hc
    · exact ⟨.inr ⟨c, hc, rfl⟩, rfl⟩
    · exact ⟨.inl rfl, rfl⟩

theorem readSign_append {signs sign l : List Char} (hsign : sign = [] ∨ ∃ c ∈ signs, sign = [c])
    (hl : ∀ c ∈ l.head?, c ∉ signs) : readSign signs (sign ++ l) = (sign, l) := by
  rcases hsign with rfl | ⟨c, hc, rfl⟩
  · cases l with
    | nil => rfl
    | cons c l => rw [List.nil_append, readSign, if_neg (hl c rfl)]
  · rw [List.singleton_append, readSign, if_pos hc]

/-- Digits start with none of the characters that are not digits. -/
theorem Digits.head {ds l : List Char} (h : Digits ds) {chars : List Char}
    (hchars : ∀ c ∈ chars, c.isDigit = false) : ∀ c ∈ (ds ++ l).head?, c ∉ chars := by
  obtain ⟨d, ds, rfl⟩ := List.exists_cons_of_ne_nil h.1
  intro c hc hmem
  cases hc
  have hd := h.2 d List.mem_cons_self
  rw [hchars d hmem] at hd
  cases hd

theorem Integer.digits {int : List Char} (h : Integer int) : Digits int := by
  rcases h with rfl | ⟨hds, -⟩
  · exact ⟨by simp, by simp⟩
  · exact hds

theorem readExponent_ok {src exp rest : List Char} (h : readExponent src = .ok (exp, rest)) :
    Exponent exp ∧ src = exp ++ rest := by
  cases src with
  | nil =>
    cases h
    exact ⟨.inl rfl, rfl⟩
  | cons e src =>
    rw [readExponent] at h
    split_ifs at h with he
    · obtain ⟨⟨ds, rest'⟩, hds, hpair⟩ := except_bind_eq_ok.mp h
      cases hpair
      obtain ⟨hdigits, hrest⟩ := requiredDigits_ok hds
      obtain ⟨hsign, hsrc⟩ := readSign_spec ['+', '-'] src
      refine ⟨.inr ⟨e, _, ds, he, ?_, hdigits, rfl⟩, ?_⟩
      · simpa using hsign
      · rw [hrest] at hsrc
        conv_lhs => rw [hsrc]
        simp
    · cases h
      exact ⟨.inl rfl, rfl⟩

theorem Exponent.readExponent {exp l : List Char} (h : Exponent exp) (hl : NoDigit l)
    (he : l.head? ≠ some 'e' ∧ l.head? ≠ some 'E') : readExponent (exp ++ l) = .ok (exp, l) := by
  rcases h with rfl | ⟨e, sign, ds, hexp, hsign, hds, rfl⟩
  · cases l with
    | nil => rfl
    | cons c l =>
      have hc : ¬ (c = 'e' ∨ c = 'E') := by simpa [not_or] using he
      rw [List.nil_append, JsonParser.readExponent, if_neg hc]
  · have happ : e :: sign ++ ds ++ l = e :: (sign ++ (ds ++ l)) := by simp
    have hread : readSign ['+', '-'] (sign ++ (ds ++ l)) = (sign, ds ++ l) :=
      readSign_append (by simpa using hsign) (hds.head (by simp))
    rw [happ, JsonParser.readExponent, if_pos hexp, hread, hds.requiredDigits hl]
    rfl

theorem number_ok {src t rest : List Char} (h : number src = .ok (t, rest)) :
    Number t ∧ src = t ++ rest := by
  unfold number at h
  obtain ⟨⟨int, rest₁⟩, h₁, h⟩ := except_bind_eq_ok.mp h
  obtain ⟨⟨frac, rest₂⟩, h₂, h⟩ := except_bind_eq_ok.mp h
  obtain ⟨⟨exp, rest₃⟩, h₃, h⟩ := except_bind_eq_ok.mp h
  cases h
  obtain ⟨hsign, hsrc⟩ := readSign_spec ['-'] src
  obtain ⟨hint, heq⟩ := readInteger_ok h₁
  obtain ⟨hfrac, rfl⟩ := readFraction_ok h₂
  obtain ⟨hexp, rfl⟩ := readExponent_ok h₃
  rw [heq] at hsrc
  refine ⟨⟨_, int, frac, exp, by simpa using hsign, hint, hfrac, hexp, rfl⟩, ?_⟩
  conv_lhs => rw [hsrc]
  simp

/-- Where a value can end: before white space, a comma, a closing bracket or the end. -/
def Stop (l : List Char) : Prop := ∀ c ∈ l.head?, isWs c = true ∨ c = ',' ∨ c = ']' ∨ c = '}'

theorem Stop.head_not {l : List Char} (h : Stop l) {c : Char}
    (hc : (isWs c = true ∨ c = ',' ∨ c = ']' ∨ c = '}') → False) : l.head? ≠ some c :=
  fun hl => hc (h c hl)

theorem Stop.noDigit {l : List Char} (h : Stop l) : NoDigit l := by
  intro c hc
  rcases h c hc with hws | rfl | rfl | rfl
  · unfold isWs at hws
    simp only [List.mem_cons, List.not_mem_nil, or_false, decide_eq_true_eq] at hws
    rcases hws with rfl | rfl | rfl | rfl <;> rfl
  · rfl
  · rfl
  · rfl

theorem Exponent.noDigit {exp l : List Char} (h : Exponent exp) (hl : NoDigit l)
    (hdot : l.head? ≠ some '.') : NoDigit (exp ++ l) ∧ (exp ++ l).head? ≠ some '.' := by
  rcases h with rfl | ⟨e, sign, ds, rfl | rfl, -, -, rfl⟩
  · exact ⟨hl, hdot⟩
  · exact ⟨fun c hc => by cases hc; rfl, by simp⟩
  · exact ⟨fun c hc => by cases hc; rfl, by simp⟩

theorem Fraction.noDigit {frac l : List Char} (h : Fraction frac) (hl : NoDigit l) :
    NoDigit (frac ++ l) := by
  rcases h with rfl | ⟨ds, -, rfl⟩
  · exact hl
  · exact fun c hc => by cases hc; rfl

/-- Where a value can end, the reader of numbers takes all of a number. -/
theorem Number.number {t l : List Char} (h : Number t) (hl : Stop l) :
    number (t ++ l) = .ok (t, l) := by
  obtain ⟨sign, int, frac, exp, hsign, hint, hfrac, hexp, rfl⟩ := h
  obtain ⟨hnd, hdot⟩ := hexp.noDigit hl.noDigit (hl.head_not (by decide))
  have happ : sign ++ int ++ frac ++ exp ++ l = sign ++ (int ++ (frac ++ (exp ++ l))) := by simp
  have hread : readSign ['-'] (sign ++ (int ++ (frac ++ (exp ++ l)))) =
      (sign, int ++ (frac ++ (exp ++ l))) :=
    readSign_append (by simpa using hsign) (hint.digits.head (by simp))
  rw [happ, JsonParser.number, hread]
  refine except_bind_eq_ok.mpr ⟨_, hint.readInteger (hfrac.noDigit hnd), ?_⟩
  refine except_bind_eq_ok.mpr ⟨_, hfrac.readFraction hnd hdot, ?_⟩
  refine except_bind_eq_ok.mpr ⟨_, hexp.readExponent hl.noDigit ?_, rfl⟩
  exact ⟨hl.head_not (by decide), hl.head_not (by decide)⟩

/-! ### White space -/

theorem exists_skipWs (src : List Char) : ∃ w, Ws w ∧ src = w ++ skipWs src :=
  ⟨src.takeWhile isWs, fun _ hc => List.mem_takeWhile_imp hc,
    List.takeWhile_append_dropWhile.symm⟩

theorem skipWs_append {w l : List Char} (hw : Ws w) (hl : ∀ c ∈ l.head?, isWs c = false) :
    skipWs (w ++ l) = l := by
  rw [skipWs, List.dropWhile_append_of_pos hw]
  cases l with
  | nil => rfl
  | cons c l => exact List.dropWhile_cons_of_neg (by simp [hl c rfl])

theorem skipWs_skipWs (src : List Char) : skipWs (skipWs src) = skipWs src :=
  List.dropWhile_idempotent isWs src

/-- White space before what a value can end with. -/
theorem Ws.stop {w l : List Char} (hw : Ws w) (hl : Stop l) : Stop (w ++ l) := by
  cases w with
  | nil => exact hl
  | cons c w =>
    intro d hd
    cases hd
    exact .inl (hw c List.mem_cons_self)

/-! ### Values start and end -/

/-- The characters a value starts with. -/
def starts : List Char := ['"', 't', 'f', 'n', '-', '[', '{']

theorem Number.head {t : List Char} (h : Number t) :
    ∃ c t', t = c :: t' ∧ (c = '-' ∨ c.isDigit = true) := by
  obtain ⟨sign, int, frac, exp, rfl | rfl, hint, -, -, rfl⟩ := h
  · obtain ⟨hne, hdigits⟩ := hint.digits
    obtain ⟨c, int, rfl⟩ := List.exists_cons_of_ne_nil hne
    exact ⟨c, _, rfl, .inr (hdigits c List.mem_cons_self)⟩
  · exact ⟨'-', _, rfl, .inl rfl⟩

theorem Value.head {t : List Char} {v : Json} (h : Value t v) :
    ∃ c t', t = c :: t' ∧ (c ∈ starts ∨ c.isDigit = true) := by
  cases h with
  | nullLit => exact ⟨'n', _, rfl, .inl (by decide)⟩
  | trueLit => exact ⟨'t', _, rfl, .inl (by decide)⟩
  | falseLit => exact ⟨'f', _, rfl, .inl (by decide)⟩
  | number h =>
    obtain ⟨c, t', rfl, rfl | hc⟩ := h.head
    · exact ⟨'-', t', rfl, .inl (by decide)⟩
    · exact ⟨c, t', rfl, .inr hc⟩
  | string h =>
    obtain ⟨body, -, rfl⟩ := h
    exact ⟨'"', _, rfl, .inl (by decide)⟩
  | emptyArray => exact ⟨'[', _, rfl, .inl (by decide)⟩
  | array => exact ⟨'[', _, rfl, .inl (by decide)⟩
  | emptyObject => exact ⟨'{', _, rfl, .inl (by decide)⟩
  | object => exact ⟨'{', _, rfl, .inl (by decide)⟩

/-! ### Lists of parts -/

section Listed

variable {α : Type} {E : List Char → α → Prop} {nodes depth : α → ℕ} {levels : ℕ} {part : Reads α}
  {close : Char}

/-- What a reader accepts is derived by the grammar, and within the caps. -/
def Sound (E : List Char → α → Prop) (nodes depth : α → ℕ) (levels : ℕ) (part : Reads α) : Prop :=
  ∀ s x s', part s = .ok (x, s') → ∃ t, E t x ∧ s.src = t ++ s'.src ∧
    s'.nodes = s.nodes + nodes x ∧ s'.nodes ≤ maxNodes ∧ depth x ≤ levels

/-- What the grammar derives within the caps is accepted. -/
def Complete (E : List Char → α → Prop) (nodes depth : α → ℕ) (levels : ℕ) (part : Reads α) :
    Prop :=
  ∀ t x l n, E t x → Stop l → depth x ≤ levels → n + nodes x ≤ maxNodes →
    part ⟨t ++ l, n⟩ = .ok (x, ⟨l, n + nodes x⟩)

theorem Sound.listed (hpart : Sound E nodes depth levels part) {fuel : ℕ} {s s' : State}
    {xs : List α} (h : listed part close fuel s = .ok (xs, s')) :
    ∃ t, Listed E t xs ∧ s.src = t ++ close :: s'.src ∧
      s'.nodes = s.nodes + (xs.map nodes).sum ∧ s'.nodes ≤ maxNodes ∧ ∀ x ∈ xs, depth x ≤ levels := by
  induction fuel generalizing s xs with
  | zero => cases h
  | succ fuel ih =>
    rw [JsonParser.listed] at h
    obtain ⟨⟨x, s₁⟩, hx, h⟩ := except_bind_eq_ok.mp h
    obtain ⟨t, ht, hsrc, hnodes, hmax, hdepth⟩ := hpart s x s₁ hx
    obtain ⟨w, hw, hws⟩ := exists_skipWs s₁.src
    simp only at h
    split at h
    · cases h
    · rename_i c rest hskip
      rw [hskip] at hws
      split_ifs at h with hcomma hclose
      · obtain ⟨⟨xs', s₂⟩, hxs, h⟩ := except_bind_eq_ok.mp h
        cases h
        obtain ⟨ts, hts, hrest, hnodes', hmax', hdepth'⟩ := ih hxs
        simp only at hrest hnodes'
        refine ⟨_, .cons ht hw hts, ?_, ?_, hmax', List.forall_mem_cons.mpr ⟨hdepth, hdepth'⟩⟩
        · rw [hsrc, hws, hcomma, hrest]
          simp
        · rw [hnodes', hnodes, List.map_cons, List.sum_cons, Nat.add_assoc]
      · cases h
        refine ⟨_, .single ht hw, ?_, ?_, hmax, by simpa using hdepth⟩
        · rw [hsrc, hws, hclose]
          simp
        · simpa using hnodes

theorem Complete.listed (hpart : Complete E nodes depth levels part)
    (hclose : close = ']' ∨ close = '}') {fuel n : ℕ} {t l : List Char} {xs : List α}
    (h : Listed E t xs) (hfuel : xs.length ≤ fuel) (hdepth : ∀ x ∈ xs, depth x ≤ levels)
    (hmax : n + (xs.map nodes).sum ≤ maxNodes) :
    listed part close fuel ⟨t ++ close :: l, n⟩ = .ok (xs, ⟨l, n + (xs.map nodes).sum⟩) := by
  have hstop : ∀ l', Stop (close :: l') := by
    intro l' c hc
    cases hc
    exact .inr (.inr hclose)
  have hws : isWs close = false := by
    rcases hclose with rfl | rfl <;> decide
  have hcomma : close ≠ ',' := by
    rcases hclose with rfl | rfl <;> decide
  induction xs generalizing fuel n t with
  | nil => cases h
  | cons x xs ih =>
    obtain ⟨fuel, rfl⟩ : ∃ f, fuel = f + 1 := ⟨fuel - 1, by simp at hfuel; omega⟩
    obtain ⟨hx, hxs⟩ := List.forall_mem_cons.mp hdepth
    rw [List.map_cons, List.sum_cons] at hmax ⊢
    rw [JsonParser.listed]
    cases h with
    | @single t w _ ht hw =>
      rw [List.append_assoc]
      refine except_bind_eq_ok.mpr ⟨_, hpart t x _ n ht (hw.stop (hstop l)) hx (by simpa using hmax), ?_⟩
      simp only
      rw [skipWs_append hw (by simpa using hws)]
      simp [hcomma, pure, Except.pure]
    | @cons t w ts _ _ ht hw hs =>
      have happ : t ++ w ++ ',' :: ts ++ close :: l = t ++ (w ++ ',' :: (ts ++ close :: l)) := by
        simp
      have hstop' : Stop (',' :: (ts ++ close :: l)) := by
        intro c hc
        cases hc
        exact .inr (.inl rfl)
      rw [happ]
      refine except_bind_eq_ok.mpr ⟨_, hpart t x _ n ht (hw.stop hstop') hx (by omega), ?_⟩
      simp only
      rw [skipWs_append hw (by simp [isWs])]
      simp only [↓reduceIte]
      have hrest := ih (n := n + nodes x) hs (Nat.le_of_succ_le_succ hfuel) hxs (by omega)
      refine except_bind_eq_ok.mpr ⟨_, hrest, ?_⟩
      simp [pure, Except.pure, Nat.add_assoc]

/-- White space before a list is white space before its first part. -/
theorem Listed.absorb {w t : List Char} {xs : List α} (habsorb : ∀ t x, E t x → E (w ++ t) x)
    (h : Listed E t xs) : Listed E (w ++ t) xs := by
  cases h with
  | single ht hw =>
    rw [← List.append_assoc]
    exact .single (habsorb _ _ ht) hw
  | cons ht hw hs =>
    rw [← List.append_assoc, ← List.append_assoc]
    exact .cons (habsorb _ _ ht) hw hs

theorem Listed.ne_nil {t : List Char} {xs : List α} (h : Listed E t xs) : xs ≠ [] := by
  cases h <;> simp

theorem Sound.bracketed (hpart : Sound E nodes depth levels part)
    (habsorb : ∀ w t x, Ws w → E t x → E (w ++ t) x) {start : Char} {s s' : State} {xs : List α}
    (h : bracketed part start close s = .ok (xs, s')) :
    (xs = [] ∧ s'.nodes = s.nodes ∧ ∃ w, Ws w ∧ s.src = start :: w ++ close :: s'.src) ∨
      ∃ t, Listed E t xs ∧ s.src = start :: t ++ close :: s'.src ∧
        s'.nodes = s.nodes + (xs.map nodes).sum ∧ s'.nodes ≤ maxNodes ∧
        ∀ x ∈ xs, depth x ≤ levels := by
  unfold JsonParser.bracketed at h
  obtain ⟨src, hsrc, h⟩ := except_bind_eq_ok.mp h
  rw [expect_eq_ok_iff] at hsrc
  obtain ⟨w, hw, hws⟩ := exists_skipWs src
  simp only at h
  split_ifs at h with hempty
  · cases h
    refine .inl ⟨rfl, rfl, w, hw, ?_⟩
    rw [hsrc, hws]
    simp only [List.cons_append, List.cons.injEq, true_and]
    rw [← hws]
    conv_lhs => rw [hws]
    rw [← List.cons_head?_tail hempty]
    simp
  · obtain ⟨t, ht, hrest, hnodes, hmax, hdepth⟩ := hpart.listed h
    refine .inr ⟨w ++ t, ht.absorb fun t x => habsorb w t x hw, ?_, hnodes, hmax, hdepth⟩
    simp only at hrest
    rw [hsrc, hws, hrest]
    simp

/-- How a part starts: with white space and then a character that closes nothing. -/
def Starts (E : List Char → α → Prop) (close : Char) : Prop :=
  ∀ t x, E t x → ∃ w c t', Ws w ∧ t = w ++ c :: t' ∧ isWs c = false ∧ c ≠ close

/-- A list has at most as many parts as characters, white space before it aside. -/
theorem Listed.length_le (hstarts : Starts E close) {t : List Char} {xs : List α}
    (h : Listed E t xs) : ∃ w c t', Ws w ∧ t = w ++ c :: t' ∧ isWs c = false ∧ c ≠ close ∧
      xs.length ≤ (c :: t').length := by
  induction xs generalizing t with
  | nil => cases h
  | cons x xs ih =>
    cases h with
    | single ht hw =>
      obtain ⟨w, c, t', hws, rfl, hc, hne⟩ := hstarts _ _ ht
      exact ⟨w, c, _, hws, List.append_assoc _ _ _, hc, hne, by simp⟩
    | cons ht hw hs =>
      obtain ⟨w, c, t', hws, rfl, hc, hne⟩ := hstarts _ _ ht
      obtain ⟨w', c', t'', -, rfl, -, -, hlen⟩ := ih hs
      refine ⟨w, c, _, hws, by simp; rfl, hc, hne, ?_⟩
      simp only [List.length_cons, List.length_append] at hlen ⊢
      omega

theorem Complete.bracketed (hpart : Complete E nodes depth levels part)
    (hclose : close = ']' ∨ close = '}') (hstarts : Starts E close)
    (hskip : ∀ src n, part ⟨skipWs src, n⟩ = part ⟨src, n⟩) {start : Char} {n : ℕ}
    {t l : List Char} {xs : List α} (h : Listed E t xs) (hdepth : ∀ x ∈ xs, depth x ≤ levels)
    (hmax : n + (xs.map nodes).sum ≤ maxNodes) :
    bracketed part start close ⟨start :: t ++ close :: l, n⟩ =
      .ok (xs, ⟨l, n + (xs.map nodes).sum⟩) := by
  obtain ⟨w, c, t', hw, ht, hc, hne, hlen⟩ := h.length_le hstarts
  have hsrc : skipWs (t ++ close :: l) = c :: t' ++ close :: l := by
    rw [ht, List.append_assoc]
    exact skipWs_append hw fun d hd => by cases hd; exact hc
  unfold JsonParser.bracketed
  refine except_bind_eq_ok.mpr ⟨t ++ close :: l, expect_eq_ok_iff.mpr rfl, ?_⟩
  have hhead : (c :: t' ++ close :: l).head? ≠ some close := by
    simpa using hne
  simp only
  rw [hsrc, if_neg hhead, ← hsrc]
  have hfuel : xs.length ≤ (skipWs (t ++ close :: l)).length + 1 := by
    rw [hsrc, List.length_append]
    omega
  have hlisted := hpart.listed hclose (l := l) h hfuel hdepth hmax
  rw [← hlisted, JsonParser.listed, JsonParser.listed, hskip]

/-- Every part takes a character: fuel beyond the length of the source changes nothing. -/
theorem listed_fuel (hpart : Sound E nodes depth levels part) (hstarts : Starts E close)
    {f f' : ℕ} {s : State} (hf : s.src.length < f) (hf' : s.src.length < f') :
    listed part close f s = listed part close f' s := by
  induction f generalizing f' s with
  | zero => cases hf
  | succ f ih =>
    obtain ⟨f', rfl⟩ : ∃ g, f' = g + 1 := ⟨f' - 1, by omega⟩
    rw [JsonParser.listed, JsonParser.listed]
    cases hp : part s with
    | error e => rfl
    | ok r =>
      obtain ⟨x, s₁⟩ := r
      obtain ⟨t, ht, hsrc, -⟩ := hpart s x s₁ hp
      obtain ⟨w, c, t', -, rfl, -⟩ := hstarts t x ht
      obtain ⟨w₁, -, hws⟩ := exists_skipWs s₁.src
      simp only [bind, Except.bind]
      cases hskip : skipWs s₁.src with
      | nil => rfl
      | cons d rest =>
        have hlt : rest.length < s.src.length := by
          rw [hsrc, hws, hskip]
          simp only [List.length_append, List.length_cons]
          omega
        have hrest : listed part close f { s₁ with src := rest } =
            listed part close f' { s₁ with src := rest } :=
          ih (by simp only; omega) (by simp only; omega)
        simp only [hrest]

theorem bracketed_empty {start : Char} {w l : List Char} {n : ℕ} (hw : Ws w)
    (hclose : isWs close = false) :
    bracketed part start close ⟨start :: w ++ close :: l, n⟩ = .ok ([], ⟨l, n⟩) := by
  unfold JsonParser.bracketed
  refine except_bind_eq_ok.mpr ⟨w ++ close :: l, expect_eq_ok_iff.mpr rfl, ?_⟩
  have hsrc : skipWs (w ++ close :: l) = close :: l :=
    skipWs_append hw fun d hd => by cases hd; exact hclose
  simp only
  rw [hsrc]
  simp [pure, Except.pure]

end Listed

/-! ### Values -/

theorem Ws.append {w w' : List Char} (hw : Ws w) (hw' : Ws w') : Ws (w ++ w') := by
  intro c hc
  rcases List.mem_append.mp hc with hc | hc
  · exact hw c hc
  · exact hw' c hc

theorem Item.absorb {w t : List Char} {v : Json} (hw : Ws w) (h : Item t v) : Item (w ++ t) v := by
  obtain ⟨hw', hv⟩ := h
  rw [← List.append_assoc]
  exact .mk (hw.append hw') hv

theorem Member.absorb {w t : List Char} {m : List Char × Json} (hw : Ws w) (h : Member t m) :
    Member (w ++ t) m := by
  obtain ⟨h₁, hn, h₂, h₃, hv⟩ := h
  have hm := Member.mk (hw.append h₁) hn h₂ h₃ hv
  simpa using hm

theorem starts_not_ws {c : Char} (h : c ∈ starts ∨ c.isDigit = true) :
    isWs c = false ∧ c ≠ ']' ∧ c ≠ '}' := by
  rcases h with h | h
  · simp only [starts, List.mem_cons, List.not_mem_nil, or_false] at h
    rcases h with rfl | rfl | rfl | rfl | rfl | rfl | rfl <;> decide
  · refine ⟨?_, ?_, ?_⟩
    · by_contra hws
      have hstop : Stop [c] := fun d hd => by
        cases hd
        exact .inl (Bool.eq_true_of_not_eq_false hws)
      rw [hstop.noDigit c rfl] at h
      cases h
    · rintro rfl
      cases h
    · rintro rfl
      cases h

theorem Item.starts : Starts Item ']' := by
  rintro t v ⟨hw, hv⟩
  obtain ⟨c, t', rfl, hc⟩ := hv.head
  exact ⟨_, c, t', hw, rfl, (starts_not_ws hc).1, (starts_not_ws hc).2.1⟩

theorem Member.starts : Starts Member '}' := by
  rintro t m ⟨h₁, ⟨body, -, rfl⟩, h₂, h₃, hv⟩
  exact ⟨_, '"', _, h₁, by simp; rfl, by decide, by decide⟩

variable {levels : ℕ} {r : Reads Json}

theorem Sound.item (h : Sound Value Json.nodes Json.depth levels r) :
    Sound Item Json.nodes Json.depth levels (item r) := by
  intro s v s' hv
  obtain ⟨t, ht, hsrc, hrest⟩ := h _ _ _ hv
  obtain ⟨w, hw, hws⟩ := exists_skipWs s.src
  refine ⟨w ++ t, .mk hw ht, ?_, hrest⟩
  simp only at hsrc
  rw [hws, hsrc, List.append_assoc]

theorem Complete.item (h : Complete Value Json.nodes Json.depth levels r) :
    Complete Item Json.nodes Json.depth levels (item r) := by
  rintro _ v l n ⟨hw, hv⟩ hl hdepth hmax
  obtain ⟨c, t', rfl, hc⟩ := hv.head
  have hskip := skipWs_append hw (l := c :: t' ++ l) fun d hd => by
    cases hd
    exact (starts_not_ws hc).1
  rw [JsonParser.item, List.append_assoc]
  simp only [hskip]
  exact h _ v l n hv hl hdepth hmax

theorem Sound.member (h : Sound Value Json.nodes Json.depth levels r) :
    Sound Member (fun m => m.2.nodes) (fun m => m.2.depth) levels (member r) := by
  intro s m s' hm
  unfold JsonParser.member at hm
  obtain ⟨⟨name, src₁⟩, hname, hm⟩ := except_bind_eq_ok.mp hm
  obtain ⟨src₂, hcolon, hm⟩ := except_bind_eq_ok.mp hm
  obtain ⟨⟨v, s₂⟩, hv, hm⟩ := except_bind_eq_ok.mp hm
  cases hm
  obtain ⟨tn, htn, hsrc₁⟩ := string_eq_ok_iff.mp hname
  rw [expect_eq_ok_iff] at hcolon
  obtain ⟨t, ht, hsrc₂, hrest⟩ := h _ _ _ hv
  obtain ⟨w₁, hw₁, hws₁⟩ := exists_skipWs s.src
  obtain ⟨w₂, hw₂, hws₂⟩ := exists_skipWs src₁
  obtain ⟨w₃, hw₃, hws₃⟩ := exists_skipWs src₂
  refine ⟨_, .mk hw₁ htn hw₂ hw₃ ht, ?_, hrest⟩
  simp only at hsrc₂
  rw [hws₁, hsrc₁, hws₂, hcolon, hws₃, hsrc₂]
  simp

theorem Complete.member (h : Complete Value Json.nodes Json.depth levels r) :
    Complete Member (fun m => m.2.nodes) (fun m => m.2.depth) levels (member r) := by
  rintro _ ⟨name, v⟩ l n ⟨h₁, hn, h₂, h₃, hv⟩ hl hdepth hmax
  rename_i w₁ tn w₂ w₃ t
  have happ : w₁ ++ tn ++ w₂ ++ ':' :: w₃ ++ t ++ l =
      w₁ ++ (tn ++ (w₂ ++ ':' :: (w₃ ++ (t ++ l)))) := by simp
  have hskip₁ : skipWs (w₁ ++ (tn ++ (w₂ ++ ':' :: (w₃ ++ (t ++ l))))) =
      tn ++ (w₂ ++ ':' :: (w₃ ++ (t ++ l))) := by
    refine skipWs_append h₁ ?_
    obtain ⟨body, -, rfl⟩ := hn
    intro d hd
    cases hd
    decide
  have hskip₂ : skipWs (w₂ ++ ':' :: (w₃ ++ (t ++ l))) = ':' :: (w₃ ++ (t ++ l)) :=
    skipWs_append h₂ (by simp [isWs])
  have hskip₃ : skipWs (w₃ ++ (t ++ l)) = t ++ l := by
    refine skipWs_append h₃ ?_
    obtain ⟨c, t', rfl, hc⟩ := hv.head
    intro d hd
    cases hd
    exact (starts_not_ws hc).1
  unfold JsonParser.member
  rw [happ]
  refine except_bind_eq_ok.mpr ⟨_, string_eq_ok_iff.mpr ⟨tn, hn, hskip₁⟩, ?_⟩
  refine except_bind_eq_ok.mpr ⟨_, expect_eq_ok_iff.mpr hskip₂, ?_⟩
  refine except_bind_eq_ok.mpr ⟨(v, ⟨l, n + v.nodes⟩), ?_, rfl⟩
  simp only [hskip₃]
  exact h t v l n hv hl hdepth hmax

theorem scalar_ok {s s' : State} {v : Json} (h : scalar s = .ok (v, s')) :
    ∃ t, Value t v ∧ s.src = t ++ s'.src ∧ s'.nodes = s.nodes ∧ v.nodes = 1 ∧ v.depth = 0 := by
  unfold scalar at h
  split at h
  · cases h
  · split_ifs at h
    · obtain ⟨⟨text, src⟩, hs, h⟩ := except_bind_eq_ok.mp h
      cases h
      obtain ⟨t, ht, hsrc⟩ := string_eq_ok_iff.mp hs
      exact ⟨t, .string ht, hsrc, rfl, by simp [Json.nodes], by simp [Json.depth]⟩
    · obtain ⟨src, hlit, h⟩ := except_bind_eq_ok.mp h
      cases h
      exact ⟨_, .trueLit, literal_eq_ok_iff.mp hlit, rfl, by simp [Json.nodes], by simp [Json.depth]⟩
    · obtain ⟨src, hlit, h⟩ := except_bind_eq_ok.mp h
      cases h
      exact ⟨_, .falseLit, literal_eq_ok_iff.mp hlit, rfl, by simp [Json.nodes],
        by simp [Json.depth]⟩
    · obtain ⟨src, hlit, h⟩ := except_bind_eq_ok.mp h
      cases h
      exact ⟨_, .nullLit, literal_eq_ok_iff.mp hlit, rfl, by simp [Json.nodes],
        by simp [Json.depth]⟩
    · obtain ⟨⟨text, src⟩, hs, h⟩ := except_bind_eq_ok.mp h
      cases h
      obtain ⟨hnum, hsrc⟩ := number_ok hs
      exact ⟨text, .number hnum, hsrc, rfl, by simp [Json.nodes], by simp [Json.depth]⟩

theorem count_eq_ok_iff {s s' : State} :
    count s = .ok s' ↔ s.nodes + 1 ≤ maxNodes ∧ s' = ⟨s.src, s.nodes + 1⟩ := by
  unfold count
  split_ifs with h
  · simp [Nat.not_le.mpr h]
  · simp [Nat.le_of_not_lt h, eq_comm]

/-- What a container of values adds to its parts. -/
theorem sound_array (h : Sound Value Json.nodes Json.depth levels r) {s s' : State} {v : Json}
    (hv : array r s = .ok (v, s')) (hs : s.nodes ≤ maxNodes) :
    ∃ t, Value t v ∧ s.src = t ++ s'.src ∧ s'.nodes + 1 = s.nodes + v.nodes ∧
      s'.nodes ≤ maxNodes ∧ v.depth ≤ levels + 1 := by
  obtain ⟨⟨vs, s₁⟩, hvs, hv⟩ := except_bind_eq_ok.mp hv
  cases hv
  rcases h.item.bracketed (fun w t v hw ht => ht.absorb hw) hvs with
    ⟨rfl, hnodes, w, hw, hsrc⟩ | ⟨t, ht, hsrc, hnodes, hmax, hdepth⟩
  · refine ⟨_, .emptyArray hw, by simp [hsrc], ?_, hnodes ▸ hs, ?_⟩
    · simp [hnodes, Json.nodes, Json.nodesItems]
    · simp [Json.depth, Json.depthItems]
  · refine ⟨_, .array ht, by simp [hsrc], ?_, hmax, ?_⟩
    · rw [Json.nodes, Json.nodesItems_eq, hnodes, Nat.add_assoc]
    · rw [Json.depth]
      exact Nat.succ_le_succ (Json.depthItems_le_iff.mpr hdepth)

theorem sound_object (h : Sound Value Json.nodes Json.depth levels r) {s s' : State} {v : Json}
    (hv : object r s = .ok (v, s')) (hs : s.nodes ≤ maxNodes) :
    ∃ t, Value t v ∧ s.src = t ++ s'.src ∧ s'.nodes + 1 = s.nodes + v.nodes ∧
      s'.nodes ≤ maxNodes ∧ v.depth ≤ levels + 1 := by
  obtain ⟨⟨ms, s₁⟩, hms, hv⟩ := except_bind_eq_ok.mp hv
  cases hv
  rcases h.member.bracketed (fun w t m hw ht => ht.absorb hw) hms with
    ⟨rfl, hnodes, w, hw, hsrc⟩ | ⟨t, ht, hsrc, hnodes, hmax, hdepth⟩
  · refine ⟨_, .emptyObject hw, by simp [hsrc], ?_, hnodes ▸ hs, ?_⟩
    · simp [hnodes, Json.nodes, Json.nodesMembers]
    · simp [Json.depth, Json.depthMembers]
  · refine ⟨_, .object ht, by simp [hsrc], ?_, hmax, ?_⟩
    · rw [Json.nodes, Json.nodesMembers_eq, hnodes, Nat.add_assoc]
    · rw [Json.depth]
      exact Nat.succ_le_succ (Json.depthMembers_le_iff.mpr hdepth)

theorem sound_value (levels : ℕ) : Sound Value Json.nodes Json.depth levels (value levels) := by
  induction levels with
  | zero =>
    intro s v s' h
    rw [value] at h
    obtain ⟨s₁, hcount, h⟩ := except_bind_eq_ok.mp h
    obtain ⟨hmax, rfl⟩ := count_eq_ok_iff.mp hcount
    split_ifs at h
    obtain ⟨t, ht, hsrc, hnodes, hone, hdepth⟩ := scalar_ok h
    exact ⟨t, ht, hsrc, by rw [hnodes, hone], by rw [hnodes]; exact hmax, hdepth.le⟩
  | succ levels ih =>
    intro s v s' h
    rw [value] at h
    obtain ⟨s₁, hcount, h⟩ := except_bind_eq_ok.mp h
    obtain ⟨hmax, rfl⟩ := count_eq_ok_iff.mp hcount
    split_ifs at h
    · obtain ⟨t, ht, hsrc, hnodes, hle, hdepth⟩ := sound_object ih h hmax
      exact ⟨t, ht, hsrc, by simp only at hnodes; omega, hle, hdepth⟩
    · obtain ⟨t, ht, hsrc, hnodes, hle, hdepth⟩ := sound_array ih h hmax
      exact ⟨t, ht, hsrc, by simp only at hnodes; omega, hle, hdepth⟩
    · obtain ⟨t, ht, hsrc, hnodes, hone, hdepth⟩ := scalar_ok h
      exact ⟨t, ht, hsrc, by rw [hnodes, hone], by rw [hnodes]; exact hmax,
        hdepth.le.trans (Nat.zero_le _)⟩

theorem digit_ne {c d : Char} (hc : c.isDigit = true) (hd : d.isDigit = false) : c ≠ d := by
  rintro rfl
  rw [hc] at hd
  cases hd

theorem Number.ne_of_head {c : Char} (hc : c = '-' ∨ c.isDigit = true) :
    c ≠ '"' ∧ c ≠ 't' ∧ c ≠ 'f' ∧ c ≠ 'n' ∧ c ≠ '{' ∧ c ≠ '[' := by
  rcases hc with rfl | hc
  · decide
  · exact ⟨digit_ne hc rfl, digit_ne hc rfl, digit_ne hc rfl, digit_ne hc rfl, digit_ne hc rfl,
      digit_ne hc rfl⟩

theorem one_le_nodes (v : Json) : 1 ≤ v.nodes := by
  cases v <;> simp [Json.nodes]

/-- A value without parts is read where its first character says so. -/
theorem complete_scalar {t l : List Char} {v : Json} {n : ℕ} (hv : Value t v) (hl : Stop l)
    (harray : ∀ vs, v ≠ .array vs) (hobject : ∀ ms, v ≠ .object ms) :
    scalar ⟨t ++ l, n⟩ = .ok (v, ⟨l, n⟩) ∧ v.nodes = 1 ∧
      (t ++ l).head? ≠ some '{' ∧ (t ++ l).head? ≠ some '[' := by
  cases hv with
  | nullLit =>
    have hlit : literal "null".toList ("null".toList ++ l) = .ok l := literal_eq_ok_iff.mpr rfl
    exact ⟨except_bind_eq_ok.mpr ⟨l, hlit, rfl⟩, by simp [Json.nodes], by simp, by simp⟩
  | trueLit =>
    have hlit : literal "true".toList ("true".toList ++ l) = .ok l := literal_eq_ok_iff.mpr rfl
    exact ⟨except_bind_eq_ok.mpr ⟨l, hlit, rfl⟩, by simp [Json.nodes], by simp, by simp⟩
  | falseLit =>
    have hlit : literal "false".toList ("false".toList ++ l) = .ok l := literal_eq_ok_iff.mpr rfl
    exact ⟨except_bind_eq_ok.mpr ⟨l, hlit, rfl⟩, by simp [Json.nodes], by simp, by simp⟩
  | number h =>
    have hread := h.number hl
    obtain ⟨c, t, rfl, hc⟩ := h.head
    obtain ⟨h₁, h₂, h₃, h₄, h₅, h₆⟩ := Number.ne_of_head hc
    refine ⟨?_, by simp [Json.nodes], by simpa using h₅, by simpa using h₆⟩
    unfold scalar
    simp only [List.cons_append, if_neg h₁, if_neg h₂, if_neg h₃, if_neg h₄, if_pos hc]
    exact except_bind_eq_ok.mpr ⟨_, hread, rfl⟩
  | string h =>
    have hread := string_eq_ok_iff.mpr ⟨_, h, (rfl : _ ++ l = _)⟩
    obtain ⟨body, -, rfl⟩ := h
    refine ⟨?_, by simp [Json.nodes], by simp, by simp⟩
    unfold scalar
    simp only [List.cons_append, ↓reduceIte]
    exact except_bind_eq_ok.mpr ⟨_, hread, rfl⟩
  | emptyArray => exact absurd rfl (harray [])
  | array => exact absurd rfl (harray _)
  | emptyObject => exact absurd rfl (hobject [])
  | object => exact absurd rfl (hobject _)

theorem complete_array (h : Complete Value Json.nodes Json.depth levels r) {t l : List Char}
    {vs : List Json} {n : ℕ} (hv : Value t (.array vs)) (hdepth : (Json.array vs).depth ≤ levels + 1)
    (hmax : n + Json.nodesItems vs ≤ maxNodes) :
    array r ⟨t ++ l, n⟩ = .ok (.array vs, ⟨l, n + Json.nodesItems vs⟩) ∧
      (t ++ l).head? = some '[' := by
  cases hv with
  | @emptyArray w hw =>
    have happ : '[' :: w ++ [']'] ++ l = '[' :: w ++ ']' :: l := by simp
    rw [happ]
    exact ⟨except_bind_eq_ok.mpr ⟨_, bracketed_empty hw (by decide), rfl⟩, rfl⟩
  | @array t _ ht =>
    have happ : '[' :: t ++ [']'] ++ l = '[' :: t ++ ']' :: l := by simp
    rw [Json.depth, Nat.add_le_add_iff_right, Json.depthItems_le_iff] at hdepth
    rw [Json.nodesItems_eq] at hmax ⊢
    rw [happ]
    have hskip : ∀ src n, item r ⟨skipWs src, n⟩ = item r ⟨src, n⟩ := by
      intro src n
      simp only [item, skipWs_skipWs]
    have hread : bracketed (item r) '[' ']' ⟨'[' :: t ++ ']' :: l, n⟩ = _ :=
      h.item.bracketed (.inl rfl) Item.starts hskip ht hdepth hmax
    exact ⟨except_bind_eq_ok.mpr ⟨_, hread, rfl⟩, rfl⟩

theorem complete_object (h : Complete Value Json.nodes Json.depth levels r) {t l : List Char}
    {ms : List (List Char × Json)} {n : ℕ} (hv : Value t (.object ms))
    (hdepth : (Json.object ms).depth ≤ levels + 1) (hmax : n + Json.nodesMembers ms ≤ maxNodes) :
    object r ⟨t ++ l, n⟩ = .ok (.object ms, ⟨l, n + Json.nodesMembers ms⟩) ∧
      (t ++ l).head? = some '{' := by
  cases hv with
  | @emptyObject w hw =>
    have happ : '{' :: w ++ ['}'] ++ l = '{' :: w ++ '}' :: l := by simp
    rw [happ]
    exact ⟨except_bind_eq_ok.mpr ⟨_, bracketed_empty hw (by decide), rfl⟩, rfl⟩
  | @object t _ ht =>
    have happ : '{' :: t ++ ['}'] ++ l = '{' :: t ++ '}' :: l := by simp
    rw [Json.depth, Nat.add_le_add_iff_right, Json.depthMembers_le_iff] at hdepth
    rw [Json.nodesMembers_eq] at hmax ⊢
    rw [happ]
    have hskip : ∀ src n, member r ⟨skipWs src, n⟩ = member r ⟨src, n⟩ := by
      intro src n
      simp only [member, skipWs_skipWs]
    have hread : bracketed (member r) '{' '}' ⟨'{' :: t ++ '}' :: l, n⟩ = _ :=
      h.member.bracketed (.inr rfl) Member.starts hskip ht hdepth hmax
    exact ⟨except_bind_eq_ok.mpr ⟨_, hread, rfl⟩, rfl⟩

theorem count_of_le {v : Json} {t : List Char} {n : ℕ} (hmax : n + v.nodes ≤ maxNodes) :
    count ⟨t, n⟩ = .ok ⟨t, n + 1⟩ := by
  have hone := one_le_nodes v
  exact count_eq_ok_iff.mpr ⟨by simp only; omega, rfl⟩

theorem value_of_scalar {t l : List Char} {v : Json} {n : ℕ} (hv : Value t v) (hl : Stop l)
    (hmax : n + v.nodes ≤ maxNodes) (harray : ∀ vs, v ≠ .array vs) (hobject : ∀ ms, v ≠ .object ms) :
    value levels ⟨t ++ l, n⟩ = .ok (v, ⟨l, n + v.nodes⟩) := by
  obtain ⟨hread, hone, hbrace, hbracket⟩ := complete_scalar (n := n + 1) hv hl harray hobject
  rw [value.eq_def]
  refine except_bind_eq_ok.mpr ⟨_, count_of_le hmax, ?_⟩
  rw [if_neg hbrace, if_neg hbracket, hread, hone]

/-- A value that nests no deeper than the reader may go is read. -/
theorem complete_value (levels : ℕ) :
    Complete Value Json.nodes Json.depth levels (value levels) := by
  induction levels with
  | zero =>
    intro t v l n hv hl hdepth hmax
    refine value_of_scalar hv hl hmax ?_ ?_
    · rintro vs rfl
      simp [Json.depth] at hdepth
    · rintro ms rfl
      simp [Json.depth] at hdepth
  | succ levels ih =>
    intro t v l n hv hl hdepth hmax
    cases v with
    | array vs =>
      have hcount := count_of_le (t := t ++ l) hmax
      rw [Json.nodes] at hmax ⊢
      obtain ⟨hread, hhead⟩ := complete_array (n := n + 1) (l := l) ih hv hdepth (by omega)
      rw [value]
      refine except_bind_eq_ok.mpr ⟨_, hcount, ?_⟩
      rw [if_neg (by rw [hhead]; decide), if_pos hhead]
      rwa [Nat.add_right_comm, Nat.add_assoc] at hread
    | object ms =>
      have hcount := count_of_le (t := t ++ l) hmax
      rw [Json.nodes] at hmax ⊢
      obtain ⟨hread, hhead⟩ := complete_object (n := n + 1) (l := l) ih hv hdepth (by omega)
      rw [value]
      refine except_bind_eq_ok.mpr ⟨_, hcount, ?_⟩
      rw [if_pos hhead]
      rwa [Nat.add_right_comm, Nat.add_assoc] at hread
    | null => exact value_of_scalar hv hl hmax (by simp) (by simp)
    | bool b => exact value_of_scalar hv hl hmax (by simp) (by simp)
    | number text => exact value_of_scalar hv hl hmax (by simp) (by simp)
    | string text => exact value_of_scalar hv hl hmax (by simp) (by simp)

/-! ### Documents -/

theorem parse_eq_ok_iff {input : List Byte} {maxLen : ℕ} {v : Json} :
    parse input maxLen = .ok v ↔ input.length ≤ maxLen ∧
      (∃ text, utf8 (.ofList text) = body input ∧ Document text v) ∧
      v.depth ≤ maxDepth ∧ v.nodes ≤ maxNodes := by
  unfold parse
  constructor
  · intro h
    obtain ⟨src, hsrc, h⟩ := except_bind_eq_ok.mp h
    obtain ⟨⟨v', s⟩, hv, h⟩ := except_bind_eq_ok.mp h
    obtain ⟨hlen, htext⟩ := utf8Input_eq_ok_iff.mp hsrc
    obtain ⟨t, ht, hrest, hnodes, hmax, hdepth⟩ := sound_value maxDepth _ _ _ hv
    simp only at h
    split_ifs at h with hend
    cases h
    obtain ⟨w, hw, hws⟩ := exists_skipWs src
    obtain ⟨w', hw', hws'⟩ := exists_skipWs s.src
    rw [hend, List.append_nil] at hws'
    simp only at hrest hnodes
    refine ⟨hlen, ⟨src, htext, w, t, w', hw, ht, hw', ?_⟩, hdepth, by omega⟩
    rw [hws, hrest, hws', List.append_assoc]
  · rintro ⟨hlen, ⟨src, htext, w, t, w', hw, ht, hw', rfl⟩, hdepth, hmax⟩
    have hskip : skipWs (w ++ t ++ w') = t ++ w' := by
      rw [List.append_assoc]
      obtain ⟨c, t', rfl, hc⟩ := ht.head
      exact skipWs_append hw fun d hd => by cases hd; exact (starts_not_ws hc).1
    have hend : skipWs w' = [] := by
      have h := skipWs_append hw' (l := []) (by simp)
      rwa [List.append_nil] at h
    have hstop : Stop w' := by
      have h := hw'.stop (l := []) (by simp [Stop])
      rwa [List.append_nil] at h
    refine except_bind_eq_ok.mpr ⟨_, utf8Input_eq_ok_iff.mpr ⟨hlen, htext⟩, ?_⟩
    rw [hskip]
    refine except_bind_eq_ok.mpr
      ⟨_, complete_value maxDepth t v w' 0 ht hstop hdepth (by omega), ?_⟩
    simp only [hend]
    rfl

/-! ### Lengths -/

/-- An escape, with its backslash, is at least as long as its character. -/
theorem Escape.length_le {e : List Char} {d : Char} (h : Escape e d) :
    (encodeChar d).length ≤ (('\\' :: e).flatMap encodeChar).length := by
  have hle := length_le_encode ('\\' :: e)
  have hfour := length_encodeChar_le d
  cases h with
  | @simple c d h =>
    obtain ⟨l₁, l₂, hl, -⟩ := List.lookup_eq_some_iff.mp h
    have hmem : (c, d) ∈ l₁ ++ (c, d) :: l₂ := by simp
    have hone : (encodeChar d).length = 1 := by
      rw [← hl] at hmem
      simp only [List.mem_cons, List.not_mem_nil, or_false, Prod.mk.injEq] at hmem
      rcases hmem with ⟨-, rfl⟩ | ⟨-, rfl⟩ | ⟨-, rfl⟩ | ⟨-, rfl⟩ | ⟨-, rfl⟩ | ⟨-, rfl⟩ | ⟨-, rfl⟩ |
        ⟨-, rfl⟩ <;> decide
    rw [List.length_cons] at hle
    omega
  | unit hx _ =>
    simp only [List.length_cons, hx.1] at hle
    omega
  | pair hx hy _ _ =>
    simp only [List.length_cons, List.length_append, hx.1, hy.1] at hle
    omega

/-- A string is no longer than its source text. -/
theorem Chars.length_le {t s : List Char} (h : Chars t s) :
    (utf8 (.ofList s)).length ≤ (utf8 (.ofList t)).length := by
  simp only [utf8_eq_flatMap, String.toList_ofList]
  induction h with
  | nil => exact le_rfl
  | plain _ _ _ _ ih =>
    rw [List.flatMap_cons, List.flatMap_cons, List.length_append, List.length_append]
    omega
  | escape he _ ih =>
    have hle := he.length_le
    rw [List.flatMap_cons, List.flatMap_append, List.length_append, List.length_append]
    omega

/-- The JSON reader accepts exactly the documents of the grammar within its caps, and returns the
tree that the grammar denotes; both passes over a string end at one quote, and the string is no
longer than the text between its quotes. -/
theorem json_reader_exact :
    (∀ input maxLen v, parse input maxLen = .ok v ↔ input.length ≤ maxLen ∧
      (∃ text, utf8 (.ofList text) = body input ∧ Document text v) ∧
      v.depth ≤ maxDepth ∧ v.nodes ≤ maxNodes) ∧
    ∀ src s rest, string src = .ok (s, rest) → ∃ raw, Chars raw s ∧
      src = '"' :: raw ++ '"' :: rest ∧ stringEnd src.tail = some raw.length ∧
      (utf8 (.ofList s)).length ≤ (utf8 (.ofList raw)).length := by
  refine ⟨fun input maxLen v => parse_eq_ok_iff, fun src s rest h => ?_⟩
  obtain ⟨_, ⟨raw, hraw, rfl⟩, rfl⟩ := string_eq_ok_iff.mp h
  refine ⟨raw, hraw, by simp, ?_, hraw.length_le⟩
  have hend := hraw.stringEnd ('"' :: rest)
  rw [stringEnd_quote] at hend
  simpa using hend

/-- An empty array between white space, and a string with an escape. -/
theorem json_reader_exact_small : parse (utf8 " [ ]\n") 100 = .ok (.array []) ∧
    ∃ raw, Chars raw ['\n'] ∧ ['"', '\\', 'n', '"'] = '"' :: raw ++ '"' :: [] ∧
      stringEnd ['\\', 'n', '"'] = some raw.length ∧
      (utf8 (.ofList ['\n'])).length ≤ (utf8 (.ofList raw)).length := by
  have hws : Ws [' '] := by simp [Ws, isWs]
  have hlf : Ws ['\n'] := by simp [Ws, isWs]
  have hstr : Str ['"', '\\', 'n', '"'] ['\n'] :=
    ⟨['\\', 'n'], .escape (.simple (by decide)) .nil, rfl⟩
  refine ⟨(json_reader_exact.1 _ _ _).mpr ⟨by decide, ?_, ?_, ?_⟩, ?_⟩
  · exact ⟨" [ ]\n".toList, rfl, [' '], _, ['\n'], hws, .emptyArray hws, hlf, rfl⟩
  · simp [Json.depth, Json.depthItems, maxDepth]
  · simp [Json.nodes, Json.nodesItems, maxNodes]
  · exact json_reader_exact.2 _ _ [] (string_eq_ok_iff.mpr ⟨_, hstr, rfl⟩)

end JsonParser

end RizzyVault.Import
