import RizzyVault.Lib.TreeMap
import RizzyVault.Sync.Dot

/-!
# Version vectors

A version vector maps devices to non-zero sequence numbers; a missing entry counts as zero. It
covers the dots at or below its entries, and it is determined by the dots it covers, so it is
used here as a set of dots: `join` is the union of the covered dots and `meet` their
intersection.

## Main definitions

* `VersionVector`, `VersionVector.covers`, `VersionVector.dots`.
* `VersionVector.add`, `VersionVector.join`, `VersionVector.meet`, `VersionVector.compare`,
  `VersionVector.ofDots`.

## Main results

* `VersionVector.ext_covers`: a version vector is determined by the dots it covers.
* `VersionVector.covers_add`, `VersionVector.covers_join`, `VersionVector.covers_meet`: the dots
  covered after each operation.
* `VersionVector.compare_le_iff`: `compare` decides the inclusion of the covered dots.

## References

* `crates/rizzy-sync/src/vv.rs`.
-/

namespace RizzyVault.Sync

open Std (ExtTreeMap)

instance lawfulEqOrd_id (κ : IdKind) : Std.LawfulEqOrd (Id κ) := inferInstance

/-- How two version vectors compare, entry by entry. -/
inductive VvOrdering
  | less
  | equal
  | greater
  | concurrent
  deriving DecidableEq

/-- Per device, the highest sequence number included; a missing device counts as zero. -/
structure VersionVector where
  entries : ExtTreeMap DeviceId NonZeroU64
  deriving DecidableEq

namespace VersionVector

/-- The empty vector. -/
def new : VersionVector := ⟨∅⟩

instance : Inhabited VersionVector := ⟨new⟩

/-- The entry of a device, zero if there is none. -/
def get (vv : VersionVector) (device : DeviceId) : ℕ :=
  match vv.entries[device]? with
  | some seq => seq.val
  | none => 0

/-- Whether the vector includes the operation at `dot`. -/
def covers (vv : VersionVector) (dot : Dot) : Prop := dot.seq ≤ vv.get dot.deviceId

instance (vv : VersionVector) : DecidablePred vv.covers :=
  fun dot => inferInstanceAs (Decidable (dot.seq ≤ vv.get dot.deviceId))

/-- The entries as dots, ascending by device. -/
def dots (vv : VersionVector) : List Dot := vv.entries.toList.map fun e => ⟨e.1, e.2⟩

/-- Raises the entry of the dot's device to its sequence number, if it is lower. -/
def add (vv : VersionVector) (dot : Dot) : VersionVector :=
  ⟨vv.entries.alter dot.deviceId fun
    | some seq => some (max seq dot.seqNonzero)
    | none => some dot.seqNonzero⟩

/-- The entrywise maximum. -/
def join (vv other : VersionVector) : VersionVector := other.dots.foldl add vv

/-- The entrywise minimum. -/
def meet (vv other : VersionVector) : VersionVector :=
  ⟨vv.entries.filterMap fun device seq =>
    match other.entries[device]? with
    | some bound => some (min seq bound)
    | none => none⟩

/-- The vector that covers a list of dots and no more than it must. -/
def ofDots (l : List Dot) : VersionVector := l.foldl add new

/-- Compares two vectors entry by entry. -/
def compare (vv other : VersionVector) : VvOrdering :=
  let selfHigher := vv.dots.any fun dot => ¬ other.covers dot
  let otherHigher := other.dots.any fun dot => ¬ vv.covers dot
  match selfHigher, otherHigher with
  | false, false => .equal
  | false, true => .less
  | true, false => .greater
  | true, true => .concurrent

/-! ### The covered dots -/

theorem mem_dots {vv : VersionVector} {dot : Dot} :
    dot ∈ vv.dots ↔ vv.entries[dot.deviceId]? = some dot.seqNonzero := by
  unfold dots
  rw [List.mem_map]
  constructor
  · rintro ⟨e, he, rfl⟩
    exact ExtTreeMap.mem_toList_iff_getElem?_eq_some.mp he
  · intro h
    exact ⟨_, ExtTreeMap.mem_toList_iff_getElem?_eq_some.mpr h, rfl⟩

theorem covers_iff_exists_mem_dots {vv : VersionVector} {dot : Dot} :
    vv.covers dot ↔ ∃ e ∈ vv.dots, e.deviceId = dot.deviceId ∧ dot.seq ≤ e.seq := by
  unfold covers get
  constructor
  · intro h
    cases he : vv.entries[dot.deviceId]? with
    | none => exact absurd h (by simp [he, dot.seq_pos.ne'])
    | some s => exact ⟨⟨dot.deviceId, s⟩, mem_dots.mpr he, rfl, by simpa [he] using h⟩
  · rintro ⟨e, he, hd, hs⟩
    rw [← hd, mem_dots.mp he]
    exact hs

theorem covers_of_mem_dots {vv : VersionVector} {dot : Dot} (h : dot ∈ vv.dots) :
    vv.covers dot :=
  covers_iff_exists_mem_dots.mpr ⟨dot, h, rfl, le_rfl⟩

theorem covers_of_le {vv : VersionVector} {a b : Dot} (hd : a.deviceId = b.deviceId)
    (hs : a.seq ≤ b.seq) (h : vv.covers b) : vv.covers a := by
  unfold covers at *
  rw [hd]
  exact hs.trans h

@[simp]
theorem not_covers_new (dot : Dot) : ¬ new.covers dot := by
  simp [covers, get, new, dot.seq_pos.ne']

/-- A version vector is determined by the dots it covers. -/
theorem ext_covers {a b : VersionVector} (h : ∀ dot, a.covers dot ↔ b.covers dot) : a = b := by
  have key : ∀ {x y : VersionVector}, (∀ dot, x.covers dot → y.covers dot) →
      ∀ (device : DeviceId) (s : NonZeroU64), x.entries[device]? = some s →
        ∃ t, y.entries[device]? = some t ∧ s ≤ t := by
    intro x y hxy device s hs
    have hc := hxy ⟨device, s⟩ (covers_of_mem_dots (mem_dots.mpr hs))
    obtain ⟨e, he, hd, hle⟩ := covers_iff_exists_mem_dots.mp hc
    have hd' : e.deviceId = device := hd
    exact ⟨e.seqNonzero, hd' ▸ mem_dots.mp he, hle⟩
  cases a with | mk ea
  cases b with | mk eb
  congr 1
  refine ExtTreeMap.ext_getElem? fun device => ?_
  cases hs : ea[device]? with
  | none =>
    cases ht : eb[device]? with
    | none => rfl
    | some t =>
      obtain ⟨s, hs', -⟩ := key (fun d => (h d).mpr) device t ht
      exact absurd (hs.symm.trans hs') (by simp)
  | some s =>
    obtain ⟨t, ht, hst⟩ := key (fun d => (h d).mp) device s hs
    obtain ⟨s', hs', hts⟩ := key (fun d => (h d).mpr) device t ht
    have : s = s' := Option.some.inj (hs.symm.trans hs')
    subst this
    rw [show t = s from le_antisymm hts hst] at ht
    exact ht.symm

@[simp]
theorem covers_add {vv : VersionVector} {e dot : Dot} :
    (vv.add e).covers dot ↔
      vv.covers dot ∨ (e.deviceId = dot.deviceId ∧ dot.seq ≤ e.seq) := by
  unfold covers get add
  simp only [ExtTreeMap.getElem?_alter_iff]
  by_cases hd : e.deviceId = dot.deviceId
  · rw [if_pos hd, ← hd]
    cases vv.entries[e.deviceId]? with
    | none => simp [Dot.seq, dot.seqNonzero.pos.ne']
    | some s => simp [Dot.seq]
  · simp [hd]

theorem covers_foldl_add {vv : VersionVector} {l : List Dot} {dot : Dot} :
    (l.foldl add vv).covers dot ↔
      vv.covers dot ∨ ∃ e ∈ l, e.deviceId = dot.deviceId ∧ dot.seq ≤ e.seq := by
  induction l generalizing vv with
  | nil => simp
  | cons e l ih => simp only [List.foldl_cons, ih, covers_add, List.exists_mem_cons_iff, or_assoc]

@[simp]
theorem covers_join {a b : VersionVector} {dot : Dot} :
    (a.join b).covers dot ↔ a.covers dot ∨ b.covers dot := by
  rw [join, covers_foldl_add, ← covers_iff_exists_mem_dots]

@[simp]
theorem covers_ofDots {l : List Dot} {dot : Dot} :
    (ofDots l).covers dot ↔ ∃ e ∈ l, e.deviceId = dot.deviceId ∧ dot.seq ≤ e.seq := by
  simp [ofDots, covers_foldl_add]

@[simp]
theorem covers_meet {a b : VersionVector} {dot : Dot} :
    (a.meet b).covers dot ↔ a.covers dot ∧ b.covers dot := by
  unfold covers get meet
  simp only [ExtTreeMap.getElem?_filterMap']
  cases a.entries[dot.deviceId]? with
  | none => simp [dot.seq_pos.ne']
  | some s =>
    cases b.entries[dot.deviceId]? with
    | none => simp [dot.seq_pos.ne']
    | some t => simp

/-! ### The order -/

/-- `a ≤ b` when `b` covers every dot `a` covers. -/
instance : PartialOrder VersionVector where
  le a b := ∀ dot, a.covers dot → b.covers dot
  le_refl _ _ h := h
  le_trans _ _ _ hab hbc dot h := hbc dot (hab dot h)
  le_antisymm _ _ hab hba := ext_covers fun dot => ⟨hab dot, hba dot⟩

theorem le_def {a b : VersionVector} : a ≤ b ↔ ∀ dot, a.covers dot → b.covers dot := Iff.rfl

theorem le_iff_forall_mem_dots {a b : VersionVector} :
    a ≤ b ↔ ∀ dot ∈ a.dots, b.covers dot := by
  constructor
  · intro h dot hdot
    exact h dot (covers_of_mem_dots hdot)
  · intro h dot hdot
    obtain ⟨e, he, hd, hs⟩ := covers_iff_exists_mem_dots.mp hdot
    exact covers_of_le hd.symm hs (h e he)

instance : DecidableLE VersionVector := fun _ _ => decidable_of_iff _ le_iff_forall_mem_dots.symm

instance : Lattice VersionVector where
  sup := join
  le_sup_left _ _ _ h := covers_join.mpr (.inl h)
  le_sup_right _ _ _ h := covers_join.mpr (.inr h)
  sup_le _ _ _ ha hb dot h := (covers_join.mp h).elim (ha dot) (hb dot)
  inf := meet
  inf_le_left _ _ _ h := (covers_meet.mp h).1
  inf_le_right _ _ _ h := (covers_meet.mp h).2
  le_inf _ _ _ ha hb dot h := covers_meet.mpr ⟨ha dot h, hb dot h⟩

@[simp]
theorem join_eq_sup (a b : VersionVector) : a.join b = a ⊔ b := rfl

@[simp]
theorem meet_eq_inf (a b : VersionVector) : a.meet b = a ⊓ b := rfl

@[simp]
theorem covers_sup {a b : VersionVector} {dot : Dot} :
    (a ⊔ b).covers dot ↔ a.covers dot ∨ b.covers dot := covers_join

@[simp]
theorem covers_inf {a b : VersionVector} {dot : Dot} :
    (a ⊓ b).covers dot ↔ a.covers dot ∧ b.covers dot := covers_meet

@[simp]
theorem sup_new (a : VersionVector) : a ⊔ new = a :=
  ext_covers fun dot => by simp

@[simp]
theorem new_sup (a : VersionVector) : new ⊔ a = a :=
  ext_covers fun dot => by simp

theorem new_le (a : VersionVector) : new ≤ a := fun dot h => absurd h (not_covers_new dot)

instance : OrderBot VersionVector where
  bot := new
  bot_le := new_le

/-- A join of vectors covers what one of them covers. -/
theorem covers_finset_sup {ι : Type*} {s : Finset ι} {f : ι → VersionVector} {dot : Dot} :
    (s.sup f).covers dot ↔ ∃ i ∈ s, (f i).covers dot := by
  classical
  induction s using Finset.induction_on with
  | empty =>
    have hbot : ¬ (⊥ : VersionVector).covers dot := not_covers_new dot
    simp [hbot]
  | insert i s _ ih => rw [Finset.sup_insert, covers_sup, ih, Finset.exists_mem_insert]

/-- `compare` decides the order: the answer is `less` or `equal` exactly below or at `b`. -/
theorem compare_le_iff {a b : VersionVector} :
    (a.compare b = .less ∨ a.compare b = .equal) ↔ a ≤ b := by
  have h : (a.dots.any fun dot => ¬ b.covers dot) = false ↔ a ≤ b := by
    simp [le_iff_forall_mem_dots]
  rw [← h]
  unfold compare
  cases a.dots.any fun dot => ¬ b.covers dot <;>
    cases b.dots.any fun dot => ¬ a.covers dot <;> simp

end VersionVector

end RizzyVault.Sync
