import RizzyVault.Core.Passphrase
import RizzyVault.Lib.Draws
import RizzyVault.Lib.Result
import RizzyVault.Lib.Text

/-!
# Passwords

A password is drawn character by character from the alphabet that the options leave. A draw outside
the alphabet is thrown away, and so is a whole candidate that lacks a required class: nothing is
patched, so every password that satisfies the rules has the same weight.

## Main definitions

* `Alphabet.new`, `CharacterOptions.checkedAlphabet`.
* `uniformIndex`, `ctSelect`, `generatePassword`.
* `Admissible`: the strings that the rules allow.

## Main results

* `even_uniformIndex`: an index is drawn evenly.
* `Alphabet.WellFormed`: the characters are distinct, and each class is a range of them.
* `even_generatePassword`: candidates that are accepted are drawn evenly.
* `passwords_uniform`.

## References

* `crates/rizzy-core/src/generator/mod.rs`.
-/

open RizzyVault.Lib

namespace RizzyVault.Core

namespace Generator

def minLength : ℕ := 4

def maxLength : ℕ := 256

def maxCandidates : ℕ := 56 * 1024

/-- Draws per index before giving up. -/
def maxDraws : ℕ := 128

/-- A word of the random stream. -/
abbrev RandomWord := Fin (2 ^ 32)

/-! ### Character sets -/

/-- A set of ASCII characters. -/
abbrev CharSet := BitVec 128

namespace CharSet

def isAsciiGraphic (b : Byte) : Bool := ascii '!' ≤ b ∧ b ≤ ascii '~'

def fromAscii (bytes : Bytes) : CharSet :=
  bytes.foldl (fun set b => if isAsciiGraphic b then set ||| (1 <<< b.val) else set) 0

def contains (set : CharSet) (c : Byte) : Bool := c.val < 128 && set.getLsbD c.val

def isSubset (set other : CharSet) : Bool := set &&& ~~~other = 0

end CharSet

/-- The characters of a class. -/
def CharClass.set : CharClass → Bytes
  | lowercase => asciiBytes "abcdefghijklmnopqrstuvwxyz".toList
  | uppercase => asciiBytes "ABCDEFGHIJKLMNOPQRSTUVWXYZ".toList
  | digits => asciiBytes "0123456789".toList
  | symbols => asciiBytes "!\"#$%&'()*+,-./:;<=>?@[\\]^_`\x7b|\x7d~".toList

def ambiguous : Bytes := asciiBytes "lIo0O1|".toList

/-- How a class takes part in a password. -/
inductive ClassRule
  | excluded
  | included
  | required
  deriving DecidableEq

structure CharacterOptions where
  length : ℕ
  lowercase : ClassRule
  uppercase : ClassRule
  digits : ClassRule
  symbols : ClassRule
  excludeAmbiguous : Bool
  exclude : CharSet
  symbolSet : Option CharSet

def CharacterOptions.rule (options : CharacterOptions) : CharClass → ClassRule
  | .lowercase => options.lowercase
  | .uppercase => options.uppercase
  | .digits => options.digits
  | .symbols => options.symbols

/-! ### Alphabets -/

/-- The characters of a request, and for each enabled class where its characters start and end, and
whether one of them is required. -/
structure Alphabet where
  chars : Bytes
  classes : List (ℕ × ℕ × Bool)

/-- An alphabet under construction, and the first required class that has no character. -/
structure Building where
  chars : Bytes
  classes : List (ℕ × ℕ × Bool)
  emptyRequired : Option CharClass

/-- Whether the options leave a character of a class in the alphabet. -/
def keeps (options : CharacterOptions) (symbols : CharSet) (which : CharClass) (c : Byte) : Bool :=
  !((options.excludeAmbiguous && ambiguous.contains c) || options.exclude.contains c ||
    (which = .symbols && !symbols.contains c))

/-- A character goes into the next free slot of 94. -/
def pushChar (keep : Byte → Bool) (chars : Bytes) (c : Byte) : Except GeneratorError Bytes :=
  if keep c then if chars.length < 94 then .ok (chars ++ [c]) else .error .noClasses
  else .ok chars

def addClass (options : CharacterOptions) (symbols : CharSet) (b : Building) (which : CharClass) :
    Except GeneratorError Building :=
  if options.rule which = .excluded then .ok b
  else do
    let start := b.chars.length
    let chars ← which.set.foldlM (pushChar (keeps options symbols which)) b.chars
    if b.classes.length < 4 then
      let isRequired : Bool := options.rule which = .required
      .ok {
        chars
        classes := b.classes ++ [(start, chars.length, isRequired)]
        emptyRequired :=
          if isRequired ∧ start = chars.length ∧ b.emptyRequired = none then some which
          else b.emptyRequired }
    else .error .noClasses

def CharacterOptions.symbolChars (options : CharacterOptions) : Except GeneratorError CharSet :=
  match options.symbolSet with
  | none => .ok (.fromAscii CharClass.symbols.set)
  | some set =>
    if set.isSubset (.fromAscii CharClass.symbols.set) then .ok set else .error .invalidSymbolSet

/-- The classes in the order of the alphabet. -/
def classOrder : List CharClass := [.lowercase, .uppercase, .digits, .symbols]

def Alphabet.new (options : CharacterOptions) : Except GeneratorError Alphabet := do
  let symbols ← options.symbolChars
  let b ← classOrder.foldlM (addClass options symbols) ⟨[], [], none⟩
  if b.classes = [] then .error .noClasses
  else if b.chars = [] then .error .emptyAlphabet
  else
    match b.emptyRequired with
    | some which => .error (.requiredClassEmpty which)
    | none => .ok ⟨b.chars, b.classes⟩

def Alphabet.requiredCount (alphabet : Alphabet) : ℕ :=
  (alphabet.classes.filter fun c => c.2.2).length

/-- The alphabet of allowed options. The share of candidates that pass is compared in floating
point; `tooStrict` is any comparison. -/
def CharacterOptions.checkedAlphabet (tooStrict : Alphabet → ℕ → Bool)
    (options : CharacterOptions) : Except GeneratorError Alphabet :=
  if ¬(minLength ≤ options.length ∧ options.length ≤ maxLength) then .error .invalidLength
  else do
    let alphabet ← Alphabet.new options
    if options.length < alphabet.requiredCount then .error .tooManyRequiredClasses
    else if tooStrict alphabet options.length then .error .requirementsTooStrict
    else .ok alphabet

/-! ### Draws -/

/-- The smallest `2 ^ k - 1` from `n - 1` on; for a `2 ^ k` past 32 bits it is the largest word. -/
def indexMask (n : ℕ) : ℕ := 2 ^ Nat.clog 2 n - 1

/-- An index below `n`: a masked word, drawn again when it falls outside. -/
def uniformIndex (n : ℕ) : Draws RandomWord (Except GeneratorError (Fin n)) :=
  if n = 0 then .done (.error .noClasses)
  else
    .attempts .rngExhausted
      (.next fun w =>
        let x := w.val &&& indexMask n
        .done (.ok (if h : x < n then some ⟨x, h⟩ else none)))
      maxDraws

/-- The element at an index, read by a scan of all of them. -/
def ctSelect (set : Bytes) (index : ℕ) : Byte :=
  set.zipIdx.foldl (fun out (c, i) => if i = index then c else out) 0

/-- A candidate as far as it is drawn, and which enabled classes it has a character of. -/
structure Candidate where
  buf : Bytes
  present : List Bool

variable (alphabet : Alphabet)

def Candidate.empty : Candidate := ⟨[], alphabet.classes.map fun _ => false⟩

def Candidate.push (s : Candidate) (index : Fin alphabet.chars.length) : Candidate where
  buf := s.buf ++ [ctSelect alphabet.chars index]
  present := List.zipWith
    (fun seen c => seen || (c.1 ≤ index.val && index.val < c.2.1)) s.present alphabet.classes

/-- Every required class was seen. -/
def Candidate.allRequired (s : Candidate) : Bool :=
  (List.zipWith (fun seen c => seen || !c.2.2) s.present alphabet.classes).all id

/-- An ASCII buffer as a string. -/
def asciiString (bytes : Bytes) : String := (fromUtf8 bytes).getD ""

/-- A whole candidate, if it has every required class. -/
def drawCandidate (length : ℕ) :
    Draws RandomWord (Except GeneratorError (Option String)) :=
  (Draws.drawMany (uniformIndex alphabet.chars.length) (Candidate.push alphabet) length
    (Candidate.empty alphabet)).andThen fun s =>
      .done (.ok (if s.allRequired alphabet then some (asciiString s.buf) else none))

def generatePassword (tooStrict : Alphabet → ℕ → Bool) (options : CharacterOptions) :
    Draws RandomWord (Except GeneratorError String) :=
  match options.checkedAlphabet tooStrict with
  | .error e => .done (.error e)
  | .ok alphabet => .attempts .rngExhausted (drawCandidate alphabet options.length) maxCandidates

/-- The strings of the requested length over the alphabet that have every required class. -/
structure Admissible (options : CharacterOptions) (s : String) : Prop where
  length : (utf8 s).length = options.length
  chars : ∀ b ∈ utf8 s, b ∈ alphabet.chars
  required : ∀ which, options.rule which = .required → ∃ b ∈ utf8 s, b ∈ CharClass.set which

/-! ### Indices -/

open PowerSeries in
/-- Masked words fall on every value below the power of two equally often. -/
theorem sum_masked {k : ℕ} (hk : k ≤ 32) (F : ℕ → ℕ⟦X⟧) :
    ∑ w : RandomWord, F (w.val &&& (2 ^ k - 1)) =
      2 ^ (32 - k) * ∑ x ∈ Finset.range (2 ^ k), F x := by
  have hpow : 2 ^ 32 = 2 ^ (32 - k) * 2 ^ k := by rw [← pow_add, Nat.sub_add_cancel hk]
  have hcast : ∑ w : RandomWord, F (w.val &&& (2 ^ k - 1)) =
      ∑ w : Fin (2 ^ (32 - k) * 2 ^ k), F (w.val % 2 ^ k) := by
    refine Fintype.sum_equiv (finCongr hpow) _ _ fun w => ?_
    rw [Nat.and_two_pow_sub_one_eq_mod]
    rfl
  have hsplit : ∑ w : Fin (2 ^ (32 - k) * 2 ^ k), F (w.val % 2 ^ k) =
      ∑ _h : Fin (2 ^ (32 - k)), ∑ x : Fin (2 ^ k), F x.val := by
    rw [← Fintype.sum_prod_type']
    refine (Fintype.sum_equiv finProdFinEquiv _ _ fun x => ?_).symm
    show F x.2.val = F ((x.2.val + 2 ^ k * x.1.val) % 2 ^ k)
    rw [Nat.add_mul_mod_self_left, Nat.mod_eq_of_lt x.2.isLt]
  rw [hcast, hsplit, Finset.sum_const, Finset.card_univ, Fintype.card_fin, nsmul_eq_mul,
    Finset.sum_range, Nat.cast_pow, Nat.cast_ofNat]

open PowerSeries in
/-- An index is drawn evenly. -/
theorem even_uniformIndex {n : ℕ} (hn : 0 < n) (hmax : n ≤ 2 ^ 32) :
    (uniformIndex n).Even .rngExhausted Finset.univ fun i => i := by
  rw [uniformIndex, if_neg hn.ne']
  refine Draws.even_attempts ?_ maxDraws
  set k := Nat.clog 2 n with hk
  have hk32 : k ≤ 32 := (Nat.clog_le_iff_le_pow (by omega)).mpr hmax
  have hle : n ≤ 2 ^ k := Nat.le_pow_clog (by omega) n
  obtain ⟨r, hr⟩ := Nat.exists_eq_add_of_le hle
  refine ⟨X * 2 ^ (32 - k), X * 2 ^ (32 - k) * (r : ℕ⟦X⟧), 0, fun g => ?_⟩
  have hsum := sum_masked hk32 fun x =>
    g (.ok (if h : x < n then some (⟨x, h⟩ : Fin n) else none))
  have hlow : ∑ x ∈ Finset.range n, g (.ok (if h : x < n then some (⟨x, h⟩ : Fin n) else none)) =
      ∑ i : Fin n, g (.ok (some i)) := by
    rw [Finset.sum_range]
    exact Finset.sum_congr rfl fun i _ => by rw [dif_pos i.isLt]
  have hhigh : ∑ x ∈ Finset.range r,
      g (.ok (if h : n + x < n then some (⟨n + x, h⟩ : Fin n) else none)) =
        (r : ℕ⟦X⟧) * g (.ok none) := by
    rw [Finset.sum_congr rfl fun x _ => by rw [dif_neg (by omega)], Finset.sum_const,
      Finset.card_range, nsmul_eq_mul]
  have hsplit := Finset.sum_range_add
    (fun x => g (.ok (if h : x < n then some (⟨x, h⟩ : Fin n) else none))) n r
  rw [hlow, hhigh, ← hr] at hsplit
  rw [hsplit] at hsum
  rw [Draws.weight, zero_mul, add_zero]
  show X * ∑ w : RandomWord, g (.ok (if h : w.val &&& (2 ^ k - 1) < n then
    some (⟨w.val &&& (2 ^ k - 1), h⟩ : Fin n) else none)) = _
  rw [hsum]
  ring

theorem foldl_ctSelect (set : Bytes) (k index : ℕ) (out : Byte) :
    (set.zipIdx k).foldl (fun out (c, i) => if i = index then c else out) out =
      if k ≤ index then set[index - k]?.getD out else out := by
  induction set generalizing k out with
  | nil => simp
  | cons c set ih =>
    rw [List.zipIdx_cons, List.foldl_cons, ih]
    show (if k + 1 ≤ index then set[index - (k + 1)]?.getD (if k = index then c else out)
      else if k = index then c else out) = _
    rcases Nat.lt_trichotomy k index with hlt | heq | hgt
    · have hsub : index - k = index - (k + 1) + 1 := by omega
      rw [if_pos (Nat.succ_le_of_lt hlt), if_pos hlt.le, hsub, List.getElem?_cons_succ,
        if_neg hlt.ne]
    · rw [if_neg (by omega), if_pos heq, if_pos heq.le, heq, Nat.sub_self]
      rfl
    · rw [if_neg (by omega), if_neg hgt.ne', if_neg (Nat.not_le.mpr hgt)]

/-- The scan reads the element at the index. -/
theorem ctSelect_eq (set : Bytes) (index : Fin set.length) : ctSelect set index = set[index] := by
  rw [ctSelect, foldl_ctSelect, if_pos (Nat.zero_le _), Nat.sub_zero,
    List.getElem?_eq_getElem index.isLt, Option.getD_some]
  rfl
/-! ### The alphabet -/

/-- The class of a character. -/
def classOf (c : Byte) : CharClass :=
  if ascii 'a' ≤ c ∧ c ≤ ascii 'z' then .lowercase
  else if ascii 'A' ≤ c ∧ c ≤ ascii 'Z' then .uppercase
  else if ascii '0' ≤ c ∧ c ≤ ascii '9' then .digits
  else .symbols

theorem classOf_eq {c : Byte} {which : CharClass} (h : c ∈ which.set) : classOf c = which := by
  have hall : ∀ c ∈ which.set, classOf c = which := by cases which <;> decide +kernel
  exact hall c h

theorem nodup_set (which : CharClass) : which.set.Nodup := by cases which <;> decide

theorem isAscii_set (which : CharClass) : ∀ c ∈ which.set, c.val < 128 := by
  cases which <;> decide +kernel

theorem mem_classOrder (which : CharClass) : which ∈ classOrder := by cases which <;> decide

/-- A class is a range of the characters: those of it that the options leave. -/
structure Range (options : CharacterOptions) (chars : Bytes) (c : ℕ × ℕ × Bool)
    (which : CharClass) : Prop where
  isRequired : c.2.2 = decide (options.rule which = .required)
  fits : c.2.1 ≤ chars.length
  mem : ∀ i (hi : i < chars.length), c.1 ≤ i ∧ i < c.2.1 ↔ chars[i] ∈ which.set

/-- The alphabet after some classes: distinct characters of these, each class a range. -/
structure Building.Holds (options : CharacterOptions) (b : Building) (ds : List CharClass) :
    Prop where
  nodup : b.chars.Nodup
  room : b.chars.length ≤ 94
  chars : ∀ c ∈ b.chars, classOf c ∈ ds ∧ c ∈ (classOf c).set
  classes : List.Forall₂ (fun c which => which ∈ ds ∧ Range options b.chars c which) b.classes
    (ds.filter fun which => options.rule which ≠ .excluded)

/-- The characters that are kept are pushed while there is room. -/
theorem foldlM_pushChar {keep : Byte → Bool} {set chars chars' : Bytes}
    (hroom : chars.length ≤ 94) (h : set.foldlM (pushChar keep) chars = .ok chars') :
    chars' = chars ++ set.filter keep ∧ chars'.length ≤ 94 := by
  induction set generalizing chars with
  | nil =>
    cases h
    exact ⟨(List.append_nil _).symm, hroom⟩
  | cons c set ih =>
    rw [List.foldlM_cons] at h
    obtain ⟨next, hpush, hrest⟩ := except_bind_eq_ok.mp h
    rw [pushChar] at hpush
    split at hpush
    · next hkeep =>
      split at hpush
      · next hlt =>
        cases hpush
        obtain ⟨hchars, hlen⟩ := ih (by rw [List.length_append, List.length_singleton]; omega) hrest
        refine ⟨?_, hlen⟩
        rw [hchars, List.filter_cons_of_pos hkeep, List.append_assoc]
        rfl
      · cases hpush
    · next hkeep =>
      cases hpush
      rw [List.filter_cons_of_neg hkeep]
      exact ih hroom hrest

theorem Range.append {options : CharacterOptions} {chars more : Bytes} {c : ℕ × ℕ × Bool}
    {which which' : CharClass} (h : Range options chars c which)
    (hmore : ∀ x ∈ more, x ∈ which'.set)
    (hne : which ≠ which') : Range options (chars ++ more) c which := by
  refine ⟨h.isRequired, h.fits.trans (by rw [List.length_append]; omega), fun i hi => ?_⟩
  have hfits := h.fits
  by_cases hold : i < chars.length
  · rw [List.getElem_append_left hold]
    exact h.mem i hold
  · rw [List.getElem_append_right (Nat.le_of_not_lt hold)]
    refine iff_of_false (by omega) fun hmem => hne ?_
    rw [← classOf_eq hmem, ← classOf_eq (hmore _ (List.getElem_mem _))]

theorem addClass_holds {options : CharacterOptions} {symbols : CharSet} {b b' : Building}
    {ds : List CharClass} {which : CharClass} (hb : b.Holds options ds) (hnew : which ∉ ds)
    (h : addClass options symbols b which = .ok b') : b'.Holds options (ds ++ [which]) := by
  rw [addClass] at h
  split at h
  · next hexcluded =>
    cases h
    refine ⟨hb.nodup, hb.room, fun c hc => ?_, ?_⟩
    · exact ⟨List.mem_append_left _ (hb.chars c hc).1, (hb.chars c hc).2⟩
    · rw [List.filter_append, List.filter_cons_of_neg (by simp [hexcluded]), List.filter_nil,
        List.append_nil]
      exact hb.classes.imp fun c which h => ⟨List.mem_append_left _ h.1, h.2⟩
  · next hrule =>
    obtain ⟨chars, hpush, h⟩ := except_bind_eq_ok.mp h
    obtain ⟨rfl, hroom⟩ := foldlM_pushChar hb.room hpush
    set kept := which.set.filter (keeps options symbols which)
    have hkept : ∀ c ∈ kept, c ∈ which.set := fun c hc => List.mem_of_mem_filter hc
    have hfresh : ∀ c ∈ b.chars, c ∉ which.set := fun c hc hmem =>
      hnew (classOf_eq hmem ▸ (hb.chars c hc).1)
    split at h
    · cases h
      refine ⟨?_, hroom, fun c hc => ?_, ?_⟩
      · exact List.Nodup.append hb.nodup ((nodup_set which).filter _)
          fun c hc hmem => hfresh c hc (hkept c hmem)
      · rcases List.mem_append.mp hc with hc | hc
        · exact ⟨List.mem_append_left _ (hb.chars c hc).1, (hb.chars c hc).2⟩
        · have hclass := classOf_eq (hkept c hc)
          rw [hclass]
          exact ⟨by simp, hkept c hc⟩
      · rw [List.filter_append, List.filter_cons_of_pos (by simp [hrule]), List.filter_nil]
        refine List.rel_append ?_ (.cons ⟨by simp, ?_⟩ .nil)
        · refine hb.classes.imp fun c which' h => ⟨List.mem_append_left _ h.1, ?_⟩
          exact h.2.append hkept fun heq => hnew (heq ▸ h.1)
        · refine ⟨rfl, Nat.le_refl _, fun i hi => ?_⟩
          show b.chars.length ≤ i ∧ i < (b.chars ++ kept).length ↔ _
          by_cases hold : i < b.chars.length
          · rw [List.getElem_append_left hold]
            exact iff_of_false (by omega) (hfresh _ (List.getElem_mem _))
          · rw [List.getElem_append_right (Nat.le_of_not_lt hold)]
            exact iff_of_true ⟨Nat.le_of_not_lt hold, hi⟩ (hkept _ (List.getElem_mem _))
    · cases h
theorem exists_of_forall₂_left {α β : Type} {R : α → β → Prop} {l : List α} {m : List β}
    (h : List.Forall₂ R l m) {a : α} (ha : a ∈ l) : ∃ b ∈ m, R a b := by
  induction h with
  | nil => cases ha
  | cons hab _ ih =>
    rcases List.mem_cons.mp ha with rfl | ha
    · exact ⟨_, by simp, hab⟩
    · obtain ⟨b, hb, hr⟩ := ih ha
      exact ⟨b, List.mem_cons_of_mem _ hb, hr⟩

theorem exists_of_forall₂_right {α β : Type} {R : α → β → Prop} {l : List α} {m : List β}
    (h : List.Forall₂ R l m) {b : β} (hb : b ∈ m) : ∃ a ∈ l, R a b :=
  exists_of_forall₂_left h.flip hb

theorem foldlM_addClass_holds {options : CharacterOptions} {symbols : CharSet}
    {rest ds : List CharClass} {b b' : Building} (hb : b.Holds options ds)
    (hnodup : (ds ++ rest).Nodup) (h : rest.foldlM (addClass options symbols) b = .ok b') :
    b'.Holds options (ds ++ rest) := by
  induction rest generalizing ds b with
  | nil =>
    cases h
    rwa [List.append_nil]
  | cons which rest ih =>
    rw [List.foldlM_cons] at h
    obtain ⟨next, hadd, hrest⟩ := except_bind_eq_ok.mp h
    have hnew : which ∉ ds := fun hmem =>
      (List.nodup_append.mp hnodup).2.2 which hmem which (by simp) rfl
    rw [← List.singleton_append, ← List.append_assoc] at hnodup ⊢
    exact ih (addClass_holds hb hnew hadd) hnodup hrest

/-- What the options make of their characters. -/
structure Alphabet.WellFormed (options : CharacterOptions) (alphabet : Alphabet) : Prop where
  nodup : alphabet.chars.Nodup
  pos : 0 < alphabet.chars.length
  room : alphabet.chars.length ≤ 94
  isAscii : ∀ c ∈ alphabet.chars, c.val < 128
  ranges : ∀ c ∈ alphabet.classes, ∃ which, Range options alphabet.chars c which
  required : ∀ which, options.rule which = .required →
    ∃ c ∈ alphabet.classes, Range options alphabet.chars c which

theorem Alphabet.wellFormed_of_new {options : CharacterOptions} {alphabet : Alphabet}
    (h : Alphabet.new options = .ok alphabet) : alphabet.WellFormed options := by
  obtain ⟨symbols, -, h⟩ := except_bind_eq_ok.mp h
  obtain ⟨b, hfold, h⟩ := except_bind_eq_ok.mp h
  have hempty : Building.Holds options ⟨[], [], none⟩ [] :=
    ⟨List.nodup_nil, Nat.zero_le 94, fun _ hc => (List.not_mem_nil hc).elim, .nil⟩
  have hb := foldlM_addClass_holds hempty (by decide) hfold
  rw [List.nil_append] at hb
  split at h
  · cases h
  · split at h
    · cases h
    · next hchars =>
      split at h
      · cases h
      · cases h
        refine ⟨hb.nodup, List.length_pos_of_ne_nil hchars, hb.room,
          fun c hc => isAscii_set _ c (hb.chars c hc).2, fun c hc => ?_, fun which hrule => ?_⟩
        · obtain ⟨which, -, hmem⟩ := exists_of_forall₂_left hb.classes hc
          exact ⟨which, hmem.2⟩
        · have hmem : which ∈ classOrder.filter fun which => options.rule which ≠ .excluded :=
            List.mem_filter.mpr ⟨mem_classOrder which, by simp [hrule]⟩
          obtain ⟨c, hc, hrange⟩ := exists_of_forall₂_right hb.classes hmem
          exact ⟨c, hc, hrange.2⟩

theorem wellFormed_of_checkedAlphabet {tooStrict : Alphabet → ℕ → Bool}
    {options : CharacterOptions} {alphabet : Alphabet}
    (h : options.checkedAlphabet tooStrict = .ok alphabet) : alphabet.WellFormed options := by
  rw [CharacterOptions.checkedAlphabet] at h
  split at h
  · cases h
  · obtain ⟨found, hnew, h⟩ := except_bind_eq_ok.mp h
    split at h
    · cases h
    · split at h
      · cases h
      · cases h
        exact Alphabet.wellFormed_of_new hnew

/-- The required classes, by the ranges of the indices or by the characters. -/
theorem Alphabet.WellFormed.required_iff {options : CharacterOptions} {alphabet : Alphabet}
    (h : alphabet.WellFormed options) (l : List (Fin alphabet.chars.length)) :
    (∀ c ∈ alphabet.classes, c.2.2 = true → ∃ i ∈ l, c.1 ≤ i.val ∧ i.val < c.2.1) ↔
      ∀ which, options.rule which = .required → ∃ i ∈ l, alphabet.chars[i] ∈ which.set := by
  refine ⟨fun hall which hrule => ?_, fun hall c hc hrequired => ?_⟩
  · obtain ⟨c, hc, hrange⟩ := h.required which hrule
    obtain ⟨i, hi, hmem⟩ := hall c hc (by rw [hrange.isRequired, hrule]; rfl)
    exact ⟨i, hi, (hrange.mem i i.isLt).mp hmem⟩
  · obtain ⟨which, hrange⟩ := h.ranges c hc
    rw [hrange.isRequired, decide_eq_true_eq] at hrequired
    obtain ⟨i, hi, hmem⟩ := hall which hrequired
    exact ⟨i, hi, (hrange.mem i i.isLt).mpr hmem⟩

/-! ### Candidates -/

variable {alphabet : Alphabet}

/-- The characters at indices. -/
def charsAt (alphabet : Alphabet) (l : List (Fin alphabet.chars.length)) : Bytes :=
  l.map fun i => alphabet.chars[i]

/-- What the draws of a candidate come to. -/
theorem foldl_push (l : List (Fin alphabet.chars.length)) :
    l.foldl (Candidate.push alphabet) (Candidate.empty alphabet) =
      ⟨charsAt alphabet l, alphabet.classes.map fun c =>
        l.any fun i => c.1 ≤ i.val && i.val < c.2.1⟩ := by
  induction l using List.reverseRecOn with
  | nil => rfl
  | append_singleton l i ih =>
    rw [List.foldl_append, ih, List.foldl_cons, List.foldl_nil, Candidate.push, ctSelect_eq,
      charsAt, charsAt, List.map_append, List.zipWith_map_left, List.zipWith_self]
    refine congrArg (Candidate.mk _) (List.map_congr_left fun c _ => ?_)
    rw [List.any_append, List.any_cons, List.any_nil, Bool.or_false]

theorem allRequired_iff (l : List (Fin alphabet.chars.length)) :
    (l.foldl (Candidate.push alphabet) (Candidate.empty alphabet)).allRequired alphabet = true ↔
      ∀ c ∈ alphabet.classes, c.2.2 = true → ∃ i ∈ l, c.1 ≤ i.val ∧ i.val < c.2.1 := by
  rw [foldl_push, Candidate.allRequired, List.zipWith_map_left, List.zipWith_self, List.all_map,
    List.all_eq_true]
  refine forall₂_congr fun c _ => ?_
  simp only [Function.comp_apply, id_eq, Bool.or_eq_true, Bool.not_eq_true', List.any_eq_true,
    Bool.and_eq_true, decide_eq_true_eq]
  cases c.2.2 <;> simp
/-- The index sequences of candidates that are accepted. -/
def accepted (alphabet : Alphabet) (n : ℕ) : Finset (Fin n → Fin alphabet.chars.length) :=
  Finset.univ.filter fun v => ((List.ofFn v).foldl (Candidate.push alphabet)
    (Candidate.empty alphabet)).allRequired alphabet = true

open PowerSeries in
/-- Candidates that are accepted are drawn evenly. -/
theorem even_attempts_drawCandidate {options : CharacterOptions}
    (h : alphabet.WellFormed options) (n m : ℕ) :
    (Draws.attempts GeneratorError.rngExhausted (drawCandidate alphabet n) m).Even .rngExhausted
      (accepted alphabet n) fun v => asciiString (charsAt alphabet (List.ofFn v)) := by
  refine Draws.even_attempts ?_ m
  obtain ⟨U, V, hdraw⟩ := Draws.even_drawMany
    (even_uniformIndex h.pos (h.room.trans (by decide))) (Candidate.push alphabet) n
    (Candidate.empty alphabet)
  refine ⟨U, U * ((Finset.univ.filter fun v : Fin n → Fin alphabet.chars.length =>
    ¬ ((List.ofFn v).foldl (Candidate.push alphabet)
      (Candidate.empty alphabet)).allRequired alphabet = true).card : ℕ⟦X⟧), V, fun g => ?_⟩
  have hsum : ∑ v : Fin n → Fin alphabet.chars.length,
      g (.ok (if ((List.ofFn v).foldl (Candidate.push alphabet)
        (Candidate.empty alphabet)).allRequired alphabet then
          some (asciiString ((List.ofFn v).foldl (Candidate.push alphabet)
            (Candidate.empty alphabet)).buf) else none)) =
      ∑ v ∈ accepted alphabet n, g (.ok (some (asciiString (charsAt alphabet (List.ofFn v))))) +
        ((Finset.univ.filter fun v : Fin n → Fin alphabet.chars.length =>
          ¬ ((List.ofFn v).foldl (Candidate.push alphabet)
            (Candidate.empty alphabet)).allRequired alphabet = true).card : ℕ⟦X⟧) *
              g (.ok none) := by
    rw [← Finset.sum_filter_add_sum_filter_not Finset.univ
      fun v : Fin n → Fin alphabet.chars.length =>
      ((List.ofFn v).foldl (Candidate.push alphabet)
        (Candidate.empty alphabet)).allRequired alphabet = true]
    congr 1
    · refine Finset.sum_congr rfl fun v hv => ?_
      rw [if_pos (Finset.mem_filter.mp hv).2, foldl_push]
    · rw [Finset.sum_congr rfl fun v hv => by rw [if_neg (Finset.mem_filter.mp hv).2],
        Finset.sum_const, nsmul_eq_mul]
  rw [drawCandidate, Draws.weight_andThen, hdraw]
  simp only [Draws.weight]
  rw [hsum]
  ring

theorem isAscii_charsAt {options : CharacterOptions} (h : alphabet.WellFormed options)
    (l : List (Fin alphabet.chars.length)) : ∀ b ∈ charsAt alphabet l, b.val < 128 := by
  intro b hb
  obtain ⟨i, -, rfl⟩ := List.mem_map.mp hb
  exact h.isAscii _ (List.getElem_mem _)

theorem utf8_asciiString {bytes : Bytes} (h : ∀ b ∈ bytes, b.val < 128) :
    utf8 (asciiString bytes) = bytes := by
  obtain ⟨t, ht⟩ := Option.isSome_iff_exists.mp (fromUtf8_isSome_of_ascii h)
  rw [asciiString, ht, Option.getD_some, fromUtf8_eq_some.mp ht]

theorem utf8_injective {s t : String} (h : utf8 s = utf8 t) : s = t := by
  have hs : fromUtf8 (utf8 s) = some s := fromUtf8_eq_some.mpr rfl
  have ht : fromUtf8 (utf8 t) = some t := fromUtf8_eq_some.mpr rfl
  rw [h, ht] at hs
  exact (Option.some.inj hs).symm

/-- The strings of accepted candidates are the admissible ones. -/
theorem admissible_of_accepted {options : CharacterOptions} (h : alphabet.WellFormed options)
    {v : Fin options.length → Fin alphabet.chars.length}
    (hv : v ∈ accepted alphabet options.length) :
    Admissible alphabet options (asciiString (charsAt alphabet (List.ofFn v))) := by
  have hbytes := utf8_asciiString (isAscii_charsAt h (List.ofFn v))
  refine ⟨?_, fun b hb => ?_, fun which hrule => ?_⟩
  · rw [hbytes, charsAt, List.length_map, List.length_ofFn]
  · rw [hbytes] at hb
    obtain ⟨i, -, rfl⟩ := List.mem_map.mp hb
    exact List.getElem_mem _
  · obtain ⟨i, hi, hmem⟩ := (h.required_iff (List.ofFn v)).mp
      ((allRequired_iff _).mp (Finset.mem_filter.mp hv).2) which hrule
    refine ⟨alphabet.chars[i], ?_, hmem⟩
    rw [hbytes]
    exact List.mem_map_of_mem hi

theorem exists_charsAt {bytes : Bytes} (h : ∀ b ∈ bytes, b ∈ alphabet.chars) :
    ∃ l, charsAt alphabet l = bytes := by
  induction bytes with
  | nil => exact ⟨[], rfl⟩
  | cons b bytes ih =>
    obtain ⟨l, hl⟩ := ih fun b hb => h b (List.mem_cons_of_mem _ hb)
    obtain ⟨i, hi, hb⟩ := List.getElem_of_mem (h b (by simp))
    refine ⟨⟨i, hi⟩ :: l, ?_⟩
    rw [charsAt, List.map_cons, ← charsAt, hl]
    exact congrArg (· :: bytes) hb

/-- An admissible string is that of one accepted candidate. -/
theorem card_accepted_eq_one {options : CharacterOptions} (h : alphabet.WellFormed options)
    {s : String} (hs : Admissible alphabet options s) :
    ((accepted alphabet options.length).filter fun v =>
      asciiString (charsAt alphabet (List.ofFn v)) = s).card = 1 := by
  obtain ⟨l, hl⟩ := exists_charsAt hs.chars
  have hlen : l.length = options.length := by
    rw [← hs.length, ← hl, charsAt, List.length_map]
  obtain ⟨v, rfl⟩ : ∃ v : Fin options.length → Fin alphabet.chars.length, List.ofFn v = l :=
    ⟨fun i => l[i], List.ext_getElem (by simp [hlen]) fun i _ _ => by simp⟩
  have hstring : ∀ u : Fin options.length → Fin alphabet.chars.length,
      asciiString (charsAt alphabet (List.ofFn u)) = s ↔ u = v := by
    refine fun u => ⟨fun hu => ?_, ?_⟩
    · have hbytes := utf8_asciiString (isAscii_charsAt h (List.ofFn u))
      rw [hu, ← hl] at hbytes
      have hinj : Function.Injective fun i : Fin alphabet.chars.length => alphabet.chars[i] :=
        List.nodup_iff_injective_get.mp h.nodup
      exact (List.ofFn_injective (hinj.list_map hbytes)).symm
    · rintro rfl
      exact utf8_injective ((utf8_asciiString (isAscii_charsAt h _)).trans hl)
  refine Finset.card_eq_one.mpr ⟨v, Finset.ext fun u => ?_⟩
  rw [Finset.mem_filter, hstring, Finset.mem_singleton]
  refine and_iff_right_of_imp ?_
  rintro rfl
  refine Finset.mem_filter.mpr ⟨Finset.mem_univ _, (allRequired_iff _).mpr
    ((h.required_iff _).mpr fun which hrule => ?_)⟩
  obtain ⟨b, hb, hmem⟩ := hs.required which hrule
  rw [← hl] at hb
  obtain ⟨i, hi, rfl⟩ := List.mem_map.mp hb
  exact ⟨i, hi, hmem⟩

/-- Two admissible strings come from equally many streams of each length, and no other string is
returned. -/
theorem passwords_uniform {tooStrict : Alphabet → ℕ → Bool} {options : CharacterOptions}
    {alphabet : Alphabet} (h : options.checkedAlphabet tooStrict = .ok alphabet) :
    (∀ (N : ℕ) (s t : String), Admissible alphabet options s → Admissible alphabet options t →
      ((generatePassword tooStrict options).streams N (.ok s)).card =
        ((generatePassword tooStrict options).streams N (.ok t)).card) ∧
    ∀ (stream rest : List RandomWord) (s : String),
      (generatePassword tooStrict options).run stream = some (.ok s, rest) →
        Admissible alphabet options s := by
  have hform := wellFormed_of_checkedAlphabet h
  have heven := even_attempts_drawCandidate hform options.length maxCandidates
  have hrun : generatePassword tooStrict options =
      .attempts .rngExhausted (drawCandidate alphabet options.length) maxCandidates := by
    rw [generatePassword, h]
  rw [hrun]
  refine ⟨fun N s t hs ht => heven.card_streams_eq ?_ N, fun stream rest s hstream => ?_⟩
  · rw [card_accepted_eq_one hform hs, card_accepted_eq_one hform ht]
  · obtain ⟨v, hv, rfl⟩ := heven.exists_of_run hstream
    exact admissible_of_accepted hform hv
/-- Four digits. -/
def pinOptions : CharacterOptions where
  length := 4
  lowercase := .excluded
  uppercase := .excluded
  digits := .required
  symbols := .excluded
  excludeAmbiguous := false
  exclude := 0
  symbolSet := none

theorem passwords_uniform_pin :
    ((generatePassword (fun _ _ => false) pinOptions).streams 4 (.ok "0000")).card =
      ((generatePassword (fun _ _ => false) pinOptions).streams 4 (.ok "1979")).card := by
  have hcheck : pinOptions.checkedAlphabet (fun _ _ => false) =
      .ok ⟨CharClass.digits.set, [(0, 10, true)]⟩ := rfl
  have hpin : ∀ s : String, (utf8 s).length = 4 → (∀ b ∈ utf8 s, b ∈ CharClass.digits.set) →
      Admissible ⟨CharClass.digits.set, [(0, 10, true)]⟩ pinOptions s := by
    intro s hlen hdigits
    refine ⟨hlen, hdigits, fun which hrule => ?_⟩
    cases which with
    | digits =>
      have hhead : (utf8 s)[0] ∈ utf8 s := List.getElem_mem _
      exact ⟨_, hhead, hdigits _ hhead⟩
    | _ => cases hrule
  exact (passwords_uniform hcheck).1 4 "0000" "1979"
    (hpin _ (by decide +kernel) (by decide +kernel))
    (hpin _ (by decide +kernel) (by decide +kernel))
end Generator

end RizzyVault.Core
