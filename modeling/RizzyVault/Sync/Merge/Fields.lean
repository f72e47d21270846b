import RizzyVault.Core.Item.Value
import RizzyVault.Sync.Merge.Snapshot

/-!
# What a field displays

A register may hold several current values after concurrent writes. The one of the highest rank
displays, a cleared one only where no value that is not empty is current.

## Main definitions

* `highest`, `FieldDisplay`, `resolveField`: the displayed value of a register.
* `ItemMerge.field`, `ItemMerge.fieldValue`, `ItemMerge.fieldKeys`: an item's fields.

## Main results

* `shownValue_spec`: the displayed value is one of the current ones, and empty only if all are.

## References

* `crates/rizzy-core/src/item/display.rs`, `crates/rizzy-sync/src/merge.rs`,
  `crates/rizzy-client/src/items.rs`.
-/

open RizzyVault.Core RizzyVault.Lib

namespace RizzyVault.Sync

open Std (ExtTreeMap ExtTreeSet)

/-- The later of two candidates unless the earlier one ranks higher. -/
def higherRank (best : Option (Val × ℕ)) (e : Val × ℕ) : Option (Val × ℕ) :=
  match best with
  | none => some e
  | some b => if b.1.rank ≤ e.1.rank then some e else some b

/-- The index of the highest-ranked value among those that satisfy `keep`. -/
def highest (values : List Val) (keep : Val → Bool) : Option ℕ :=
  ((values.zipIdx.filter fun e => keep e.1).foldl higherRank none).map Prod.snd

/-- What one register displays. -/
structure FieldDisplay where
  displayed : ℕ
  conflict : Bool
  clearedBy : Option ℕ
  deriving DecidableEq

def resolveField (values : List Val) : Option FieldDisplay := do
  let bestCleared := highest values fun v => v.value.isEmpty
  let displayed ← highest values (fun v => !v.value.isEmpty) <|> bestCleared
  let shown ← values[displayed]?
  return ⟨displayed, values.any fun v => v.value ≠ shown.value,
    if shown.value.isEmpty then none else bestCleared⟩

/-- One field of an item with what it displays. -/
structure FieldView where
  key : FieldKey
  current : List Entry
  history : List Entry
  display : Option FieldDisplay

namespace ItemMerge

def field (m : ItemMerge) (key : Bytes) : Option FieldView :=
  let (regs, hist) : Regs × Option Regs :=
    match m.state.shape with
    | .live l => (l.regs, some l.hist)
    | .tomb t => (t.late, none)
  match regs[key]? with
  | none => none
  | some current =>
    match fieldKey key with
    | .error _ => none
    | .ok heldKey =>
      let history := (hist.bind fun h => h[key]?).getD []
      some ⟨heldKey, current.map Val.entry, history.map Val.entry, resolveField current⟩

/-- The displayed value of one field, none for a register the item does not hold. -/
def fieldValue (m : ItemMerge) (key : Bytes) : Option Value := do
  let view ← m.field key
  let display ← view.display
  let shown ← view.current[display.displayed]?
  (Value.copyFromEncoded shown.value).toOption

/-- The keys of the item's current registers, without the lifecycle key. -/
def fieldKeys (m : ItemMerge) : List Bytes :=
  match m.snapshotData with
  | .ok (some (.live live)) =>
    (live.registers.map fun r => r.key.bytes).filter fun k => k ≠ lifecycleKey
  | _ => []

end ItemMerge

/-! ### The displayed value -/

theorem foldl_higherRank (l : List (Val × ℕ)) (best : Option (Val × ℕ)) :
    match l.foldl higherRank best with
    | none => best = none ∧ l = []
    | some b => (b ∈ l ∨ best = some b) ∧ (∀ e ∈ l, e.1.rank ≤ b.1.rank) ∧
        ∀ e ∈ best, e.1.rank ≤ b.1.rank := by
  induction l generalizing best with
  | nil => cases best <;> simp
  | cons e l ih =>
    rw [List.foldl_cons]
    have h := ih (higherRank best e)
    cases hf : l.foldl higherRank (higherRank best e) with
    | none =>
      rw [hf] at h
      exfalso
      revert h
      unfold higherRank
      cases best with
      | none => simp
      | some b =>
        simp only
        split_ifs <;> simp
    | some b =>
      rw [hf] at h
      obtain ⟨hmem, hall, hbest⟩ := h
      cases best with
      | none =>
        have he : e.1.rank ≤ b.1.rank := hbest e rfl
        refine ⟨.inl ?_, List.forall_mem_cons.mpr ⟨he, hall⟩, by simp⟩
        rcases hmem with hmem | hmem
        · exact List.mem_cons_of_mem e hmem
        · cases hmem
          exact List.mem_cons_self
      | some b' =>
        simp only [higherRank] at hmem hbest
        split_ifs at hmem hbest with hle
        · have he : e.1.rank ≤ b.1.rank := hbest e rfl
          refine ⟨.inl ?_, List.forall_mem_cons.mpr ⟨he, hall⟩, fun c hc => ?_⟩
          · rcases hmem with hmem | hmem
            · exact List.mem_cons_of_mem e hmem
            · cases hmem
              exact List.mem_cons_self
          · cases hc
            exact hle.trans he
        · have hb : b'.1.rank ≤ b.1.rank := hbest b' rfl
          refine ⟨hmem.imp_left (List.mem_cons_of_mem e), List.forall_mem_cons.mpr ⟨?_, hall⟩,
            fun c hc => ?_⟩
          · exact (not_le.mp hle).le.trans hb
          · cases hc
            exact hb

/-- The highest of the values kept is kept. -/
theorem highest_eq_some {values : List Val} {keep : Val → Bool} {i : ℕ}
    (h : highest values keep = some i) :
    ∃ v, values[i]? = some v ∧ keep v ∧ ∀ u ∈ values, keep u → u.rank ≤ v.rank := by
  obtain ⟨⟨v, j⟩, hb, rfl⟩ := Option.map_eq_some_iff.mp h
  have hf := foldl_higherRank (values.zipIdx.filter fun e => keep e.1) none
  rw [hb] at hf
  obtain ⟨hmem, hall, -⟩ := hf
  obtain ⟨hv, hkeep⟩ := List.mem_filter.mp (hmem.resolve_right (by simp))
  refine ⟨v, List.mk_mem_zipIdx_iff_getElem?.mp hv, hkeep, fun u hu hku => ?_⟩
  obtain ⟨k, hk, rfl⟩ := List.mem_iff_getElem.mp hu
  exact hall (values[k], k) (List.mem_filter.mpr
    ⟨List.mk_mem_zipIdx_iff_getElem?.mpr (List.getElem?_eq_getElem hk), hku⟩)

theorem highest_eq_none {values : List Val} {keep : Val → Bool} (h : highest values keep = none) :
    ∀ v ∈ values, ¬ keep v := by
  have hf := foldl_higherRank (values.zipIdx.filter fun e => keep e.1) none
  rw [Option.map_eq_none_iff.mp h] at hf
  intro v hv hkeep
  obtain ⟨k, hk, rfl⟩ := List.mem_iff_getElem.mp hv
  have : (values[k], k) ∈ values.zipIdx.filter fun e => keep e.1 := List.mem_filter.mpr
    ⟨List.mk_mem_zipIdx_iff_getElem?.mpr (List.getElem?_eq_getElem hk), hkeep⟩
  rw [hf.2] at this
  cases this

/-- The value a register displays. -/
def shownValue (values : List Val) : Option Bytes :=
  (resolveField values).bind fun display => values[display.displayed]?.map Val.value

/-- A register displays one of its current values, an empty one only if all are empty. -/
theorem shownValue_spec {values : List Val} (hne : values ≠ []) :
    ∃ v ∈ values, shownValue values = some v.value ∧
      (v.value = [] → ∀ u ∈ values, u.value = []) := by
  have hshown : ∀ i v, values[i]? = some v →
      (highest values (fun v => !v.value.isEmpty) <|> highest values fun v => v.value.isEmpty) =
        some i → shownValue values = some v.value := by
    intro i v hv hi
    have hv' := hv
    simp only [shownValue, resolveField, hi, Option.bind_eq_bind, Option.bind_some, hv,
      Option.pure_def, Option.map_some]
  cases hh : highest values fun v => !v.value.isEmpty with
  | some i =>
    obtain ⟨v, hv, hkeep, -⟩ := highest_eq_some hh
    refine ⟨v, List.mem_of_getElem? hv, hshown i v hv (by rw [hh]; rfl), fun hnil => ?_⟩
    rw [hnil] at hkeep
    cases hkeep
  | none =>
    have hall : ∀ u ∈ values, u.value = [] := fun u hu => by
      simpa using highest_eq_none hh u hu
    cases hc : highest values fun v => v.value.isEmpty with
    | some i =>
      obtain ⟨v, hv, -, -⟩ := highest_eq_some hc
      exact ⟨v, List.mem_of_getElem? hv, hshown i v hv (by rw [hh, hc]; rfl), fun _ => hall⟩
    | none =>
      obtain ⟨u, hu⟩ := List.exists_mem_of_ne_nil values hne
      exact absurd (by rw [hall u hu]; rfl) (highest_eq_none hc u hu)

end RizzyVault.Sync
