import RizzyVault.Core.Item.Schema
import RizzyVault.Lib.DigitKeys
import RizzyVault.Lib.Grammar

/-!
# List elements and their order

An element exists while one of its content attributes displays a value that is not empty. A list
sorts by the place its elements display, those without a valid place last, then by element.

## Main definitions

* `attributeRole`, `elementExists`: existence.
* `ListEntry`, `compareListEntries`, `ListEntry.rank`: the list order.
* `sortKeyBetween`, `evenlySpaced`, `insertKey`: new places.

## Main results

* `isLE_compareListEntries`: the comparison is a linear order of ranks.
* `sortKeyBetween_spec`: a new place lies strictly between its neighbours.
* `sortKeyBetween_noRoom_iff`: where the search for one gives up too early.
* `evenlySpaced_valid`: spread places are valid, short and ascend strictly.
* `sort_keys_between`: insertions keep the places of a list strictly ordered.

## References

* `crates/rizzy-core/src/item/order.rs`.
-/

open RizzyVault.Lib

namespace RizzyVault.Core

/-- Whether an attribute makes its element exist. -/
inductive AttributeRole
  | content
  | layout
  deriving DecidableEq

/-- The role of an attribute, none standing for the key of a tag. -/
def attributeRole (attr : Option Bytes) : AttributeRole :=
  if attr = some attrOrder ∨ attr = some attrMatch ∨ attr = some attrKind then .layout else .content

/-- Whether an element exists, from its attributes with their displayed values. -/
def elementExists (attributes : List (Option Bytes × Bytes)) : Bool :=
  attributes.any fun (attr, displayed) => attributeRole attr = .content && !displayed.isEmpty

/-- One element as the list order sees it: the value its `order` attribute displays and its hex
digits. -/
structure ListEntry where
  order : Option Bytes
  element : Bytes
  deriving DecidableEq

/-- The place the entry sorts by, if it has a valid one. -/
def ListEntry.sortKey (entry : ListEntry) : Option Bytes :=
  match entry.order with
  | none => none
  | some encoded =>
    match ValueRef.decode encoded with
    | .ok (.sortKey payload) => some payload
    | _ => none

def compareListEntries (a b : ListEntry) : Ordering :=
  let byOrder :=
    match a.sortKey, b.sortKey with
    | some x, some y => compare x y
    | some _, none => .lt
    | none, some _ => .gt
    | none, none => .eq
  byOrder.then (compare a.element b.element)

/-- The rank of an entry: its place, the entries without one last, then its hex digits. -/
def ListEntry.rank (entry : ListEntry) : WithTop Bytes ×ₗ Bytes :=
  toLex (entry.sortKey.elim ⊤ (↑), entry.element)

theorem isLE_then {a b : Ordering} : (a.then b).isLE ↔ a = .lt ∨ a = .eq ∧ b.isLE := by
  cases a <;> simp [Ordering.then]

/-- The comparison is the order of ranks. -/
theorem isLE_compareListEntries {a b : ListEntry} :
    (compareListEntries a b).isLE ↔ a.rank ≤ b.rank := by
  have helement : (compare a.element b.element).isLE ↔ a.element ≤ b.element := by
    rw [← compare_le_iff_le, Ordering.isLE_iff_ne_gt]
  rw [compareListEntries, isLE_then, ListEntry.rank, ListEntry.rank, Prod.Lex.toLex_le_toLex,
    helement]
  cases a.sortKey with
  | none => cases b.sortKey <;> simp
  | some x =>
    cases b.sortKey with
    | none => simp
    | some y => simp [compare_lt_iff_lt, compare_eq_iff_eq]

/-! ### New places -/

/-- Why no place was produced. -/
inductive OrderError
  | invalidNeighbour
  | notOrdered
  | noRoom
  | tooMany
  deriving DecidableEq

/-- The digits found between two neighbours, as a place. -/
def sortKeyFrom (lower : Bytes) (upper : Option Bytes) : Except OrderError SortKey :=
  match digitsBetween lower upper maxSortKeyLen with
  | none => .error .noRoom
  | some key =>
    match SortKey.fromSlice key with
    | .ok key => .ok key
    | .error _ => .error .noRoom

/-- A place strictly between `lower` and `upper`; none stands for the start or the end. -/
def sortKeyBetween (lower upper : Option Bytes) : Except OrderError SortKey :=
  if (lower.any fun k => !isSortKey k) || upper.any fun k => !isSortKey k then
    .error .invalidNeighbour
  else
    match lower, upper with
    | some lo, some hi =>
      match compare lo hi with
      | .gt => .error .notOrdered
      | .eq => .error .noRoom
      | .lt => sortKeyFrom lo (some hi)
    | lower, upper => sortKeyFrom (lower.getD []) upper

theorem isSortKey_iff {payload : Bytes} :
    isSortKey payload ↔
      payload.length ≤ maxSortKeyLen ∧ ∃ d ∈ payload.getLast?, (d : Fin 256).val ≠ 0 := by
  rw [isSortKey, Bool.and_eq_true, decide_eq_true_eq, Option.any_eq_true]
  refine and_congr_right fun _ => exists_congr fun d => and_congr_right fun _ => ?_
  rw [decide_eq_true_eq, ne_eq, ne_eq, Fin.ext_iff]
  rfl

theorem nil_lt_of_isSortKey {payload : Bytes} (h : isSortKey payload) : [] < payload := by
  cases payload with
  | nil =>
    obtain ⟨-, d, hd, -⟩ := isSortKey_iff.mp h
    cases hd
  | cons d rest => exact List.nil_lt_cons d rest

theorem sortKeyFrom_spec {lower : Bytes} {upper : Option Bytes} {key : SortKey}
    (hupper : ∀ u ∈ upper, isSortKey u ∧ lower < u) (h : sortKeyFrom lower upper = .ok key) :
    lower < key.bytes ∧ ∀ u ∈ upper, key.bytes < u := by
  unfold sortKeyFrom at h
  split at h
  · cases h
  · rename_i digits hdigits
    split at h
    · rename_i key' hkey
      cases h
      have hspec := digitsBetween_spec (fun u hu => (hupper u hu).2) (fun u hu d hd => by
        obtain ⟨-, e, he, hne⟩ := isSortKey_iff.mp (hupper u hu).1
        cases hd.symm.trans he
        exact hne) hdigits
      rw [SortKey.fromSlice_eq_ok.mp hkey]
      exact ⟨hspec.lower, hspec.upper⟩
    · cases h

/-- A new place lies strictly between its neighbours. -/
theorem sortKeyBetween_spec {lower upper : Option Bytes} {key : SortKey}
    (h : sortKeyBetween lower upper = .ok key) :
    (∀ l ∈ lower, l < key.bytes) ∧ ∀ u ∈ upper, key.bytes < u := by
  unfold sortKeyBetween at h
  split_ifs at h with hvalid
  simp only [Bool.or_eq_true, Option.any_eq_true, Bool.not_eq_true', not_or, not_exists, not_and,
    Bool.not_eq_false] at hvalid
  have hpos : ∀ u ∈ upper, isSortKey u ∧ [] < u := fun u hu =>
    ⟨hvalid.2 u hu, nil_lt_of_isSortKey (hvalid.2 u hu)⟩
  cases lower with
  | none => exact ⟨by simp, (sortKeyFrom_spec hpos h).2⟩
  | some lo =>
    cases upper with
    | none =>
      have hspec : lo < key.bytes ∧ ∀ u ∈ (none : Option Bytes), key.bytes < u :=
        sortKeyFrom_spec (by simp) h
      exact ⟨fun l hl => by cases hl; exact hspec.1, by simp⟩
    | some hi =>
      simp only at h
      split at h
      · cases h
      · cases h
      · rename_i hlt
        have hspec := sortKeyFrom_spec (fun u hu => by
          cases hu
          exact ⟨hvalid.2 hi rfl, compare_lt_iff_lt.mp hlt⟩) h
        exact ⟨fun l hl => by cases hl; exact hspec.1, hspec.2⟩


/-- The digits a place is made of. -/
theorem digits_of_isSortKey {payload : Bytes} (h : isSortKey payload) :
    payload.length ≤ maxSortKeyLen ∧ ∀ d ∈ payload.getLast?, d.val ≠ 0 := by
  obtain ⟨hlen, d, hd, hne⟩ := isSortKey_iff.mp h
  exact ⟨hlen, fun e he => by rwa [Option.mem_unique he hd]⟩

/-- Digits above others that do not end in a zero are a place. -/
theorem isSortKey_of_lt {lower payload : Bytes} (h : lower < payload)
    (hlen : payload.length ≤ maxSortKeyLen) (hlast : ∀ d ∈ payload.getLast?, d.val ≠ 0) :
    isSortKey payload := by
  have hne : payload ≠ [] := fun hnil => absurd (hnil ▸ h) (List.not_lt_nil _)
  have hget := List.getLast?_eq_some_getLast hne
  exact isSortKey_iff.mpr ⟨hlen, payload.getLast hne, hget, hlast _ hget⟩

/-- Digits found are always a place. -/
theorem sortKeyFrom_eq_noRoom {lower : Bytes} {upper : Option Bytes}
    (hupper : ∀ u ∈ upper, isSortKey u ∧ lower < u) :
    sortKeyFrom lower upper = .error .noRoom ↔ digitsBetween lower upper maxSortKeyLen = none := by
  unfold sortKeyFrom
  cases hdigits : digitsBetween lower upper maxSortKeyLen with
  | none => exact iff_of_true rfl rfl
  | some key =>
    have hspec := digitsBetween_spec (fun u hu => (hupper u hu).2)
      (fun u hu => (digits_of_isSortKey (hupper u hu).1).2) hdigits
    have hvalid : isSortKey key := isSortKey_of_lt hspec.lower hspec.length hspec.last
    have hkey : SortKey.fromSlice key = .ok ⟨key, hvalid⟩ := SortKey.fromSlice_eq_ok.mpr rfl
    simp only [hkey]
    exact iff_of_false (fun h => by cases h) (Option.some_ne_none _)

/-- Neighbours that part at digits one apart, where the lower one goes on with `255` up to 64 digits
and the upper one goes on at all. -/
def AreCrowded (lower upper : Option Bytes) : Prop :=
  ∃ l ∈ lower, ∃ u ∈ upper, IsCrowded l u maxSortKeyLen

theorem sortKeyBetween_eq {lower upper : Option Bytes} (hlower : ∀ l ∈ lower, isSortKey l)
    (hupper : ∀ u ∈ upper, isSortKey u) (hlt : ∀ l ∈ lower, ∀ u ∈ upper, l < u) :
    sortKeyBetween lower upper = sortKeyFrom (lower.getD []) upper := by
  have hvalid : ¬ ((lower.any fun k => !isSortKey k) || upper.any fun k => !isSortKey k) := by
    simp only [Bool.or_eq_true, Option.any_eq_true, Bool.not_eq_true', not_or, not_exists, not_and,
      Bool.not_eq_false]
    exact ⟨hlower, hupper⟩
  unfold sortKeyBetween
  rw [if_neg hvalid]
  cases lower with
  | none => rfl
  | some lo =>
    cases upper with
    | none => rfl
    | some hi =>
      have hcmp : compare lo hi = .lt := compare_lt_iff_lt.mpr (hlt lo rfl hi rfl)
      simp only [hcmp, Option.getD_some]

theorem getD_lt {lower upper : Option Bytes} (hupper : ∀ u ∈ upper, isSortKey u)
    (hlt : ∀ l ∈ lower, ∀ u ∈ upper, l < u) : ∀ u ∈ upper, isSortKey u ∧ lower.getD [] < u := by
  intro u hu
  refine ⟨hupper u hu, ?_⟩
  cases lower with
  | none => exact nil_lt_of_isSortKey (hupper u hu)
  | some l => exact hlt l rfl u hu

theorem getD_lt_key {lower : Option Bytes} {key : SortKey} (h : ∀ l ∈ lower, l < key.bytes) :
    lower.getD [] < key.bytes := by
  cases lower with
  | none => exact nil_lt_of_isSortKey key.valid
  | some l => exact h l rfl

theorem length_getD_le {lower : Option Bytes} (hlower : ∀ l ∈ lower, isSortKey l) :
    (lower.getD []).length ≤ maxSortKeyLen := by
  cases lower with
  | none => exact Nat.zero_le _
  | some l => exact (digits_of_isSortKey (hlower l rfl)).1

theorem areCrowded_iff {lower : Option Bytes} {u : Bytes} :
    AreCrowded lower (some u) ↔ IsCrowded (lower.getD []) u maxSortKeyLen := by
  constructor
  · rintro ⟨l, hl, v, hv, h⟩
    cases hl
    cases hv
    exact h
  · intro h
    cases lower with
    | none =>
      obtain ⟨p, d, e, k, r, hnil, -⟩ := h
      exact absurd hnil.symm (List.append_ne_nil_of_right_ne_nil p (List.cons_ne_nil _ _))
    | some l => exact ⟨l, rfl, u, rfl, h⟩

/-- Between valid ordered neighbours the search gives up only where no place is left, exactly when
the neighbours are not crowded. -/
theorem sortKeyBetween_noRoom_iff {lower upper : Option Bytes} (hlower : ∀ l ∈ lower, isSortKey l)
    (hupper : ∀ u ∈ upper, isSortKey u) (hlt : ∀ l ∈ lower, ∀ u ∈ upper, l < u) :
    (sortKeyBetween lower upper = .error .noRoom →
      ¬ ∃ key : SortKey, (∀ l ∈ lower, l < key.bytes) ∧ ∀ u ∈ upper, key.bytes < u) ↔
      ¬ AreCrowded lower upper := by
  have hbounds := getD_lt hupper hlt
  rw [sortKeyBetween_eq hlower hupper hlt, sortKeyFrom_eq_noRoom hbounds]
  constructor
  · rintro hdoc ⟨l, hl, u, hu, hcrowded⟩
    cases hl
    cases hu
    obtain ⟨key, hlo, hhi, hlen, hlast⟩ := hcrowded.exists_between
    refine hdoc (hcrowded.digitsBetween_eq_none (by decide))
      ⟨⟨key, isSortKey_of_lt hlo hlen hlast⟩, ?_, ?_⟩
    · rintro l ⟨⟩
      exact hlo
    · rintro u ⟨⟩
      exact hhi
  · rintro hcrowded hnone ⟨key, hlo, hhi⟩
    obtain ⟨hlen, hlast⟩ := digits_of_isSortKey key.valid
    cases upper with
    | none =>
      rw [digitsBetween_none_eq_none (by decide)] at hnone
      exact not_lt_of_replicate_topDigit hnone hlen (getD_lt_key hlo)
    | some u =>
      obtain ⟨hu, hlt'⟩ := hbounds u rfl
      obtain ⟨hulen, hulast⟩ := digits_of_isSortKey hu
      rw [areCrowded_iff] at hcrowded
      exact not_between_of_digitsBetween_eq_none (by decide) hlt' hulast (length_getD_le hlower)
        hulen hnone hcrowded hlast hlen (getD_lt_key hlo) (hhi u rfl)

theorem sortKeyBetween_noRoom_iff_four :
    ¬ AreCrowded (some [4]) (some [5]) ∧
      (sortKeyBetween (some [4]) (some [5]) = .error .noRoom →
        ¬ ∃ key : SortKey, (∀ l ∈ some ([4] : Bytes), l < key.bytes) ∧
          ∀ u ∈ some ([5] : Bytes), key.bytes < u) := by
  have hlower : ∀ l ∈ some ([4] : Bytes), isSortKey l := by decide
  have hupper : ∀ u ∈ some ([5] : Bytes), isSortKey u := by decide
  have hcrowded : ¬ AreCrowded (some [4]) (some [5]) := by
    rintro ⟨l, hl, u, hu, h⟩
    cases hl
    cases hu
    obtain ⟨p, d, e, k, r, hl, hroom, hu, -, hr⟩ := h
    have hlen := congrArg List.length hl
    have hroom' : maxSortKeyLen = 64 := rfl
    simp only [List.length_append, List.length_cons, List.length_replicate, List.length_nil] at hlen
    omega
  exact ⟨hcrowded, (sortKeyBetween_noRoom_iff hlower hupper (by decide)).mpr hcrowded⟩

/-- Between `05 FF … FF`, of 64 bytes, and `06 01` no place is found, though `06` lies between. -/
theorem not_sortKeyBetween_noRoom :
    ¬ ∀ lower upper : Option Bytes, (∀ l ∈ lower, isSortKey l) → (∀ u ∈ upper, isSortKey u) →
      (∀ l ∈ lower, ∀ u ∈ upper, l < u) → sortKeyBetween lower upper = .error .noRoom →
        ¬ ∃ key : SortKey, (∀ l ∈ lower, l < key.bytes) ∧ ∀ u ∈ upper, key.bytes < u :=
  fun h => h (some (5 :: List.replicate 63 255)) (some [6, 1]) (by decide +kernel) (by decide)
    (by decide) (by decide +kernel) ⟨⟨[6], by decide⟩, by decide, by decide⟩

/-! ### Spread places -/

/-- The fewest bytes, from `k` on, that hold `count`. -/
def widthFrom (count : ℕ) : ℕ → ℕ → ℕ
  | 0, k => k
  | room + 1, k => if count >>> (8 * k) ≠ 0 then widthFrom count room (k + 1) else k

/-- The place of digits without their trailing zeros. -/
def spacedKey (digits : Bytes) : Except OrderError SortKey :=
  if digits.all fun d => d = 0 then .error .tooMany
  else
    match SortKey.fromSlice (dropZeros digits) with
    | .ok key => .ok key
    | .error _ => .error .tooMany

/-- `count` places in strictly ascending order, spread evenly. -/
def evenlySpaced (count : ℕ) : Except OrderError (List SortKey) :=
  if 2 ^ 32 ≤ count then .error .tooMany
  else
    -- The numbers are 128-bit ones; none of them overflows below `2 ^ 32` places.
    let k := widthFrom count 16 1
    let space := 256 ^ k
    (List.range count).mapM fun i =>
      spacedKey ((beBytes 16 ((i + 1) * space / (count + 1))).drop (16 - k))

theorem drop_beBytes (w k n : ℕ) : (beBytes (w + k) n).drop w = beBytes k n := by
  induction w with
  | zero => rw [Nat.zero_add, List.drop_zero]
  | succ w ih =>
    rw [Nat.add_right_comm, beBytes, List.drop_succ_cons]
    exact ih

/-- Bytes of one width keep the order of the numbers. -/
theorem beBytes_lt_beBytes {w p q : ℕ} (hlt : p < q) (hq : q < 256 ^ w) :
    beBytes w p < beBytes w q := by
  induction w generalizing p q with
  | zero =>
    rw [pow_zero] at hq
    omega
  | succ w ih =>
    have hpos : 0 < 256 ^ w := by positivity
    have hdiv : q / 256 ^ w < 256 := Nat.div_lt_of_lt_mul (by rwa [pow_succ] at hq)
    have hle : p / 256 ^ w ≤ q / 256 ^ w := Nat.div_le_div_right hlt.le
    have hval : ∀ m, m < 256 → (Fin.ofNat 256 m).val = m := fun m hm => Nat.mod_eq_of_lt hm
    rw [beBytes, beBytes, List.cons_lt_cons_iff]
    rcases hle.lt_or_eq with hlt' | heq
    · refine .inl (Fin.lt_def.mpr ?_)
      rw [hval _ (hlt'.trans hdiv), hval _ hdiv]
      exact hlt'
    · refine .inr ⟨by rw [heq], ?_⟩
      have hmod : ∀ n, beBytes w n = beBytes w (n % 256 ^ w) := fun n => by
        conv_lhs => rw [← Nat.mod_add_div' n (256 ^ w), beBytes_add_mul]
      rw [hmod p, hmod q]
      refine ih ?_ (Nat.mod_lt _ hpos)
      have hp := Nat.div_add_mod p (256 ^ w)
      have hq' := Nat.div_add_mod q (256 ^ w)
      rw [heq] at hp
      omega

theorem widthFrom_spec {count room steps k : ℕ} (hsteps : steps ≤ room)
    (h : count < 256 ^ (steps + k)) :
    widthFrom count room k ≤ steps + k ∧ count < 256 ^ widthFrom count room k := by
  induction room generalizing steps k with
  | zero =>
    obtain rfl : steps = 0 := Nat.le_zero.mp hsteps
    rw [Nat.zero_add] at h ⊢
    exact ⟨le_rfl, h⟩
  | succ room ih =>
    have hshift : count >>> (8 * k) = 0 ↔ count < 256 ^ k := by
      rw [Nat.shiftRight_eq_div_pow, pow_mul, Nat.div_eq_zero_iff, or_iff_right (by positivity)]
      rfl
    rw [widthFrom]
    split_ifs with hzero
    · rw [Ne, hshift] at hzero
      cases steps with
      | zero => exact absurd (by rwa [Nat.zero_add] at h) hzero
      | succ steps =>
        have hadd : steps + 1 + k = steps + (k + 1) := by omega
        rw [hadd] at h ⊢
        exact ih (Nat.le_of_succ_le_succ hsteps) h
    · rw [not_not, hshift] at hzero
      exact ⟨Nat.le_add_left k steps, hzero⟩

theorem spacedKey_eq_ok {digits : Bytes} {key : SortKey} (h : spacedKey digits = .ok key) :
    key.bytes = dropZeros digits := by
  unfold spacedKey at h
  split_ifs at h
  split at h
  · rename_i key' hkey
    cases h
    exact SortKey.fromSlice_eq_ok.mp hkey
  · cases h

/-- The loop stops at the fewest bytes, from `k` on. -/
theorem widthFrom_le {count room k j : ℕ} (hk : k ≤ j) (h : count < 256 ^ j) :
    widthFrom count room k ≤ j := by
  induction room generalizing k with
  | zero => exact hk
  | succ room ih =>
    rw [widthFrom]
    split_ifs with hzero
    · refine ih (Nat.lt_of_le_of_ne hk ?_)
      rintro rfl
      rw [Nat.shiftRight_eq_div_pow, pow_mul] at hzero
      exact hzero (Nat.div_eq_of_lt h)
    · exact hk

theorem le_widthFrom (count room k : ℕ) : k ≤ widthFrom count room k := by
  induction room generalizing k with
  | zero => exact le_rfl
  | succ room ih =>
    rw [widthFrom]
    split_ifs
    · exact (Nat.le_succ k).trans (ih (k + 1))
    · exact le_rfl

theorem widthFrom_lt {count : ℕ} (h : count < 2 ^ 32) :
    widthFrom count 16 1 ≤ 4 ∧ count < 256 ^ widthFrom count 16 1 :=
  widthFrom_spec (by decide : 3 ≤ 16) (lt_of_lt_of_le h (by norm_num))

/-- A point is a number of `k` bytes that is not zero. -/
theorem point_bounds {count k i : ℕ} (hk : count < 256 ^ k) (hi : i < count) :
    0 < (i + 1) * 256 ^ k / (count + 1) ∧ (i + 1) * 256 ^ k / (count + 1) < 256 ^ k := by
  have hpos : 0 < 256 ^ k := by positivity
  constructor
  · refine Nat.div_pos ?_ (Nat.succ_pos count)
    calc count + 1 ≤ 256 ^ k := hk
      _ ≤ (i + 1) * 256 ^ k := Nat.le_mul_of_pos_left _ (Nat.succ_pos i)
  · exact Nat.div_lt_of_lt_mul (Nat.mul_lt_mul_of_pos_right (by omega) hpos)

/-- Points that follow each other are at least one apart. -/
theorem point_lt_point {count k i j : ℕ} (hk : count < 256 ^ k) (hij : i < j) :
    (i + 1) * 256 ^ k / (count + 1) < (j + 1) * 256 ^ k / (count + 1) := by
  have hstep : (i + 1) * 256 ^ k + (count + 1) ≤ (j + 1) * 256 ^ k := by
    calc (i + 1) * 256 ^ k + (count + 1)
        ≤ (i + 1) * 256 ^ k + 256 ^ k := Nat.add_le_add_left hk _
      _ = (i + 1 + 1) * 256 ^ k := by ring
      _ ≤ (j + 1) * 256 ^ k := Nat.mul_le_mul_right _ (by omega)
  calc (i + 1) * 256 ^ k / (count + 1)
      < (i + 1) * 256 ^ k / (count + 1) + 1 := Nat.lt_succ_self _
    _ = ((i + 1) * 256 ^ k + (count + 1)) / (count + 1) :=
      (Nat.add_div_right _ (Nat.succ_pos _)).symm
    _ ≤ (j + 1) * 256 ^ k / (count + 1) := Nat.div_le_div_right hstep

theorem drop_point {k p : ℕ} (hk : k ≤ 4) : (beBytes 16 p).drop (16 - k) = beBytes k p := by
  have hwide : 16 = (16 - k) + k := by omega
  conv_lhs => rw [hwide, Nat.add_sub_cancel]
  rw [drop_beBytes]

/-- The digits of a number that is not zero make a place. -/
theorem exists_spacedKey {k p : ℕ} (hk : k ≤ 4) (hpos : 0 < p) (hp : p < 256 ^ k) :
    ∃ key, spacedKey (beBytes k p) = .ok key := by
  have hzeros : dropZeros (beBytes k 0) < dropZeros (beBytes k p) :=
    dropZeros_lt_dropZeros (by rw [length_beBytes, length_beBytes]) (beBytes_lt_beBytes hpos hp)
  have hne : dropZeros (beBytes k p) ≠ [] := fun hnil => absurd (hnil ▸ hzeros) (List.not_lt_nil _)
  have hsome : ¬ (beBytes k p).all fun d => d = 0 := fun hall => hne <| by
    refine List.rdropWhile_eq_nil_iff.mpr fun d hd => ?_
    have hd' : d = 0 := of_decide_eq_true (List.all_eq_true.mp hall d hd)
    rw [hd']
    rfl
  have hlen : (dropZeros (beBytes k p)).length ≤ maxSortKeyLen := by
    refine (length_dropZeros_le _).trans ?_
    rw [length_beBytes]
    exact hk.trans (by decide)
  have hvalid := isSortKey_of_lt hzeros hlen fun d hd => getLast?_dropZeros hd
  have hkey : SortKey.fromSlice (dropZeros (beBytes k p)) = .ok ⟨_, hvalid⟩ :=
    SortKey.fromSlice_eq_ok.mpr rfl
  refine ⟨⟨_, hvalid⟩, ?_⟩
  unfold spacedKey
  simp only [if_neg hsome, hkey]

/-- The digits of the spread places. -/
theorem evenlySpaced_eq_ok {count : ℕ} {keys : List SortKey} (h : evenlySpaced count = .ok keys) :
    count < 2 ^ 32 ∧ keys.length = count ∧ ∀ i (hi : i < keys.length), keys[i].bytes =
      dropZeros (beBytes (widthFrom count 16 1)
        ((i + 1) * 256 ^ widthFrom count 16 1 / (count + 1))) := by
  unfold evenlySpaced at h
  split_ifs at h with hcount
  have hwidth := widthFrom_lt (not_le.mp hcount)
  obtain ⟨hlen, hkeys⟩ := List.forall₂_iff_get.mp (mapM_eq_ok_forall₂ h)
  rw [List.length_range] at hlen
  refine ⟨not_le.mp hcount, hlen.symm, fun i hi => ?_⟩
  have hi' := spacedKey_eq_ok (hkeys i (by rwa [List.length_range, hlen]) hi)
  rw [List.get_eq_getElem] at hi'
  rw [hi', List.get_eq_getElem, List.getElem_range, drop_point hwidth.1]

/-- Spread places ascend strictly. -/
theorem evenlySpaced_spec {count : ℕ} {keys : List SortKey} (h : evenlySpaced count = .ok keys) :
    keys.length = count ∧ keys.Pairwise fun a b => a.bytes < b.bytes := by
  obtain ⟨hcount, hlen, hkey⟩ := evenlySpaced_eq_ok h
  have hwidth := widthFrom_lt hcount
  refine ⟨hlen, List.pairwise_iff_getElem.mpr fun i j hi hj hij => ?_⟩
  rw [hkey i hi, hkey j hj]
  exact dropZeros_lt_dropZeros (by rw [length_beBytes, length_beBytes])
    (beBytes_lt_beBytes (point_lt_point hwidth.2 hij) (point_bounds hwidth.2 (hlen ▸ hj)).2)

/-- Every list of fewer than `2 ^ 32` elements gets its places. -/
theorem exists_evenlySpaced {count : ℕ} (h : count < 2 ^ 32) :
    ∃ keys, evenlySpaced count = .ok keys := by
  unfold evenlySpaced
  rw [if_neg (not_le.mpr h)]
  have hwidth := widthFrom_lt h
  refine exists_mapM_eq_ok fun i hi => ?_
  have hpoint := point_bounds hwidth.2 (List.mem_range.mp hi)
  rw [drop_point hwidth.1]
  exact exists_spacedKey hwidth.1 hpoint.1 hpoint.2

/-- Every list of fewer than `2 ^ 32` elements gets one valid place an element, in strictly
ascending order, each of at most the fewest bytes that hold the count, from numbers that stay below
`2 ^ 128` throughout. -/
theorem evenlySpaced_valid {count : ℕ} (h : count < 2 ^ 32) :
    ∃ keys, evenlySpaced count = .ok keys ∧ keys.length = count ∧
      (keys.Pairwise fun a b => a.bytes < b.bytes) ∧
      (∀ key ∈ keys, isSortKey key.bytes ∧ key.bytes.length ≤ widthFrom count 16 1) ∧
      IsLeast {k | 1 ≤ k ∧ count < 256 ^ k} (widthFrom count 16 1) ∧
      8 * widthFrom count 16 1 < 128 ∧ 256 ^ widthFrom count 16 1 < 2 ^ 128 ∧
      ∀ i < count, (i + 1) * 256 ^ widthFrom count 16 1 < 2 ^ 128 := by
  have hwidth := widthFrom_lt h
  obtain ⟨keys, hkeys⟩ := exists_evenlySpaced h
  obtain ⟨-, hlen, hkey⟩ := evenlySpaced_eq_ok hkeys
  have hspace : 256 ^ widthFrom count 16 1 ≤ 2 ^ 32 :=
    (Nat.pow_le_pow_right (by norm_num) hwidth.1).trans (by norm_num)
  refine ⟨keys, hkeys, hlen, (evenlySpaced_spec hkeys).2, fun key hmem => ⟨key.valid, ?_⟩,
    ⟨⟨le_widthFrom count 16 1, hwidth.2⟩, fun j hj => widthFrom_le hj.1 hj.2⟩, by omega,
    hspace.trans_lt (by norm_num), fun i hi => ?_⟩
  · obtain ⟨i, hi, rfl⟩ := List.mem_iff_getElem.mp hmem
    rw [hkey i hi]
    exact (length_dropZeros_le _).trans_eq (length_beBytes _ _)
  · calc (i + 1) * 256 ^ widthFrom count 16 1 ≤ 2 ^ 32 * 2 ^ 32 :=
          Nat.mul_le_mul (by omega) hspace
      _ < 2 ^ 128 := by norm_num

theorem evenlySpaced_valid_two :
    ∃ keys, evenlySpaced 2 = .ok keys ∧ keys.length = 2 ∧
      (keys.Pairwise fun a b => a.bytes < b.bytes) ∧
      (∀ key ∈ keys, isSortKey key.bytes ∧ key.bytes.length ≤ widthFrom 2 16 1) ∧
      IsLeast {k | 1 ≤ k ∧ 2 < 256 ^ k} (widthFrom 2 16 1) ∧
      8 * widthFrom 2 16 1 < 128 ∧ 256 ^ widthFrom 2 16 1 < 2 ^ 128 ∧
      ∀ i < 2, (i + 1) * 256 ^ widthFrom 2 16 1 < 2 ^ 128 :=
  evenlySpaced_valid (by norm_num)

/-! ### Insertions -/

/-- Inserts a new place before position `i` of a list of places. -/
def insertKey (keys : List SortKey) (i : ℕ) : Except OrderError (List SortKey) :=
  match sortKeyBetween ((keys.take i).getLast?.map (·.bytes)) ((keys.drop i).head?.map (·.bytes)) with
  | .ok key => .ok (keys.take i ++ key :: keys.drop i)
  | .error e => .error e

/-- A list of places after insertions at these positions, those without room left out. -/
def insertKeys (keys : List SortKey) (positions : List ℕ) : List SortKey :=
  positions.foldl (fun keys i => (insertKey keys i).toOption.getD keys) keys

theorem insertKey_pairwise {keys keys' : List SortKey} {i : ℕ}
    (hkeys : keys.Pairwise fun a b => a.bytes < b.bytes) (h : insertKey keys i = .ok keys') :
    keys'.Pairwise fun a b => a.bytes < b.bytes := by
  unfold insertKey at h
  split at h
  · rename_i key hkey
    cases h
    obtain ⟨hlower, hupper⟩ := sortKeyBetween_spec hkey
    rw [← List.take_append_drop i keys] at hkeys
    obtain ⟨hbefore, hafter, hcross⟩ := List.pairwise_append.mp hkeys
    have hbelow : ∀ a ∈ keys.take i, a.bytes < key.bytes := by
      intro a ha
      have hne := List.ne_nil_of_mem ha
      have hlast := hlower ((keys.take i).getLast hne).bytes
        (by rw [List.getLast?_eq_some_getLast hne]; rfl)
      rw [← List.dropLast_append_getLast hne] at ha hbefore
      rcases List.mem_append.mp ha with ha | ha
      · exact ((List.pairwise_append.mp hbefore).2.2 a ha _ (List.mem_singleton_self _)).trans hlast
      · rwa [List.mem_singleton.mp ha]
    have habove : ∀ b ∈ keys.drop i, key.bytes < b.bytes := by
      intro b hb
      obtain ⟨first, rest, hfirst⟩ := List.exists_cons_of_ne_nil (List.ne_nil_of_mem hb)
      rw [hfirst] at hb hupper hafter
      have hhead := hupper first.bytes rfl
      rcases List.mem_cons.mp hb with rfl | hb
      · exact hhead
      · exact hhead.trans ((List.pairwise_cons.mp hafter).1 b hb)
    exact List.pairwise_append.mpr ⟨hbefore, List.pairwise_cons.mpr ⟨habove, hafter⟩,
      fun a ha b hb => by
        rcases List.mem_cons.mp hb with rfl | hb
        · exact hbelow a ha
        · exact hcross a ha b hb⟩
  · cases h

/-- Insertions keep the places strictly ordered. -/
theorem insertKeys_pairwise {keys : List SortKey} (positions : List ℕ)
    (hkeys : keys.Pairwise fun a b => a.bytes < b.bytes) :
    (insertKeys keys positions).Pairwise fun a b => a.bytes < b.bytes := by
  unfold insertKeys
  induction positions generalizing keys with
  | nil => exact hkeys
  | cons i positions ih =>
    rw [List.foldl_cons]
    refine ih ?_
    cases hinsert : insertKey keys i with
    | ok keys' => exact insertKey_pairwise hkeys hinsert
    | error e => exact hkeys

/-- A new place is valid and lies strictly between its neighbours, and insertions at any positions
keep a list's places strictly ordered and distinct. -/
theorem sort_keys_between :
    (∀ (lower upper : Option Bytes) (key : SortKey), sortKeyBetween lower upper = .ok key →
      isSortKey key.bytes ∧ key.bytes.length ≤ 64 ∧
        (∀ l ∈ lower, l < key.bytes) ∧ ∀ u ∈ upper, key.bytes < u) ∧
    ∀ (keys : List SortKey) (positions : List ℕ),
      keys.Pairwise (fun a b => a.bytes < b.bytes) →
        (insertKeys keys positions).Pairwise (fun a b => a.bytes < b.bytes) ∧
          (insertKeys keys positions).Nodup := by
  refine ⟨fun lower upper key h => ?_, fun keys positions hkeys => ?_⟩
  · have hvalid := key.valid
    exact ⟨hvalid, (isSortKey_iff.mp hvalid).1, sortKeyBetween_spec h⟩
  · have hordered := insertKeys_pairwise positions hkeys
    exact ⟨hordered, hordered.imp fun hlt heq => by
      rw [heq] at hlt
      exact lt_irrefl _ hlt⟩

theorem sort_keys_between_two :
    (∀ l ∈ some ([4] : Bytes), l < [4, 128]) ∧ (insertKeys [] [0, 0, 1]).Nodup :=
  ⟨(sort_keys_between.1 (some [4]) (some [5]) ⟨[4, 128], rfl⟩ (by decide)).2.2.1,
    (sort_keys_between.2 [] [0, 0, 1] List.Pairwise.nil).2⟩

end RizzyVault.Core
