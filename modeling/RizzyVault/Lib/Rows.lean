import RizzyVault.Lib.TreeMap

/-!
# Tables of keyed rows

A table is a list of rows, each with a key. A table in which every key occurs once is determined,
key by key, by the row at the key: what an executor does to the first row that matches is stated
here as what it does to the row at each key. A map indexes a table when it holds, key by key, some
columns of the row at the key.

## Main definitions

* `rowAt`: the row at a key.
* `modifyFirst`, `upsert`: change the first row that satisfies a condition.
* `Keyed`: every key occurs once.
* `setEntry`: a write or a delete of a map.
* `Indexes`: a map holds columns of the rows.

## Main results

* `rowAt_append`, `rowAt_modifyFirst`, `rowAt_upsert`, `rowAt_filter`: the row at a key after a
  table changed.
* `getElem?_foldl_overlay`: a map after the writes and deletes of a list of entries.
* `Indexes.modify`, `Indexes.touch`, `Indexes.append`, `Indexes.upsert`, `Indexes.erase`: the
  changes of a map and a table that keep the one an index of the other.
* `foldlM_indexes`: a fold over the rows that builds an index.
-/

namespace RizzyVault.Lib

section Rows

variable {α κ : Type*} [DecidableEq κ] (key : α → κ)

/-- The first row at `k`. -/
def rowAt (rows : List α) (k : κ) : Option α := rows.find? fun r => key r = k

/-- Changes the first row that satisfies `p`. -/
def modifyFirst (p : α → Bool) (f : α → α) : List α → List α
  | [] => []
  | r :: rows => if p r then f r :: rows else r :: modifyFirst p f rows

/-- Changes the first row that satisfies `p`, or appends `new` where none does. -/
def upsert (p : α → Bool) (f : α → α) (new : α) (rows : List α) : List α :=
  if rows.any p then modifyFirst p f rows else rows ++ [new]

/-- Every key occurs once. -/
def Keyed (rows : List α) : Prop := (rows.map key).Nodup

variable {key} {rows : List α} {r : α} {k : κ} {p : α → Bool} {f : α → α}

theorem key_of_rowAt (h : rowAt key rows k = some r) : key r = k := by
  simpa using List.find?_some h

theorem mem_of_rowAt (h : rowAt key rows k = some r) : r ∈ rows := List.mem_of_find?_eq_some h

theorem rowAt_eq_none : rowAt key rows k = none ↔ ∀ r ∈ rows, key r ≠ k := by
  simp [rowAt]

theorem any_key : (rows.any fun r => key r = k) = (rowAt key rows k).isSome := by
  rw [Bool.eq_iff_iff, rowAt, List.find?_isSome, List.any_eq_true]

theorem rowAt_cons (r : α) (rows : List α) (k : κ) :
    rowAt key (r :: rows) k = if key r = k then some r else rowAt key rows k := by
  rw [rowAt, List.find?_cons]
  split_ifs with h <;> simp [h, rowAt]

theorem rowAt_append (rows rows' : List α) (k : κ) :
    rowAt key (rows ++ rows') k = (rowAt key rows k).or (rowAt key rows' k) := List.find?_append

theorem rowAt_singleton (r : α) (k : κ) :
    rowAt key [r] k = if key r = k then some r else none := rowAt_cons r [] k

theorem Keyed.rowAt_eq_some (h : Keyed key rows) :
    rowAt key rows k = some r ↔ r ∈ rows ∧ key r = k := by
  constructor
  · intro hr
    exact ⟨mem_of_rowAt hr, key_of_rowAt hr⟩
  · rintro ⟨hr, rfl⟩
    cases hrow : rowAt key rows (key r) with
    | none => exact absurd rfl (rowAt_eq_none.mp hrow r hr)
    | some r' =>
      rw [List.inj_on_of_nodup_map h (mem_of_rowAt hrow) hr (key_of_rowAt hrow)]

/-- Changing the first row of a condition on its key and its content. -/
theorem rowAt_modifyFirst (q : α → Bool) (hf : ∀ r, key (f r) = key r) (h : Keyed key rows)
    (k k' : κ) :
    rowAt key (modifyFirst (fun r => key r = k && q r) f rows) k' =
      if k' = k then (rowAt key rows k).map fun r => if q r then f r else r
      else rowAt key rows k' := by
  induction rows with
  | nil => simp [modifyFirst, rowAt]
  | cons r rows ih =>
    obtain ⟨hr, hrows⟩ := List.nodup_cons.mp h
    have ih := ih hrows
    by_cases hk : key r = k
    · have hnone : rowAt key rows k = none :=
        rowAt_eq_none.mpr fun r' hr' hk' => hr (List.mem_map.mpr ⟨r', hr', hk'.trans hk.symm⟩)
      by_cases hk' : k' = k
      · subst hk'
        by_cases hq : q r
        · simp [modifyFirst, rowAt_cons, hf, hk, hq]
        · simp [modifyFirst, rowAt_cons, hk, hq]
      · have hne : key r ≠ k' := fun h' => hk' (h'.symm.trans hk)
        rw [if_neg hk'] at ih
        by_cases hq : q r
        · simp [modifyFirst, rowAt_cons, hf, hk, hq, hk', Ne.symm hk']
        · simp [modifyFirst, rowAt_cons, hk, hq, hk', ih]
    · by_cases hk' : k' = k
      · subst hk'
        rw [if_pos rfl] at ih
        simp [modifyFirst, rowAt_cons, hk, ih]
      · rw [if_neg hk'] at ih
        simp [modifyFirst, rowAt_cons, hk, ih, hk']

theorem rowAt_modifyKey (hf : ∀ r, key (f r) = key r) (h : Keyed key rows) (k k' : κ) :
    rowAt key (modifyFirst (fun r => key r = k) f rows) k' =
      if k' = k then (rowAt key rows k).map f else rowAt key rows k' := by
  simpa using rowAt_modifyFirst (fun _ => true) hf h k k'

omit [DecidableEq κ] in
/-- A row stays, or is changed where it satisfies `p`. -/
theorem exists_mem_modifyFirst (p : α → Bool) (f : α → α) (hr : r ∈ rows) :
    ∃ r' ∈ modifyFirst p f rows, r' = r ∨ p r ∧ r' = f r := by
  induction rows with
  | nil => exact absurd hr List.not_mem_nil
  | cons a rows ih =>
    unfold modifyFirst
    split_ifs with hp
    · rcases List.mem_cons.mp hr with rfl | hr
      · exact ⟨f r, List.mem_cons_self, .inr ⟨hp, rfl⟩⟩
      · exact ⟨r, List.mem_cons_of_mem _ hr, .inl rfl⟩
    · rcases List.mem_cons.mp hr with rfl | hr
      · exact ⟨r, List.mem_cons_self, .inl rfl⟩
      · obtain ⟨r', hr', hcase⟩ := ih hr
        exact ⟨r', List.mem_cons_of_mem _ hr', hcase⟩

omit [DecidableEq κ] in
theorem exists_mem_upsert (p : α → Bool) (f : α → α) (new : α) (hr : r ∈ rows) :
    ∃ r' ∈ upsert p f new rows, r' = r ∨ p r ∧ r' = f r := by
  unfold upsert
  split_ifs
  · exact exists_mem_modifyFirst p f hr
  · exact ⟨r, List.mem_append_left _ hr, .inl rfl⟩

omit [DecidableEq κ] in
theorem map_key_modifyFirst (p : α → Bool) (hf : ∀ r, key (f r) = key r) (rows : List α) :
    (modifyFirst p f rows).map key = rows.map key := by
  induction rows with
  | nil => rfl
  | cons r rows ih =>
    unfold modifyFirst
    split_ifs
    · rw [List.map_cons, hf, List.map_cons]
    · rw [List.map_cons, ih, List.map_cons]

omit [DecidableEq κ] in
theorem Keyed.modifyFirst (p : α → Bool) (hf : ∀ r, key (f r) = key r) (h : Keyed key rows) :
    Keyed key (modifyFirst p f rows) := by
  rw [Keyed, map_key_modifyFirst p hf]
  exact h

theorem Keyed.append (h : Keyed key rows) (hr : rowAt key rows (key r) = none) :
    Keyed key (rows ++ [r]) := by
  rw [Keyed, List.map_append, List.map_singleton, List.nodup_append]
  refine ⟨h, List.nodup_singleton _, fun a ha b hb => ?_⟩
  obtain ⟨r', hr', rfl⟩ := List.mem_map.mp ha
  rw [List.mem_singleton.mp hb]
  exact rowAt_eq_none.mp hr r' hr'

omit [DecidableEq κ] in
theorem Keyed.of_append {rows' : List α} (h : Keyed key (rows ++ rows')) : Keyed key rows :=
  List.Nodup.sublist (List.Sublist.map key (List.sublist_append_left rows rows')) h

theorem Keyed.rowAt_of_append (h : Keyed key (rows ++ [r])) : rowAt key rows (key r) = none := by
  refine rowAt_eq_none.mpr fun r' hr' hk' => ?_
  rw [Keyed, List.map_append, List.nodup_append] at h
  exact h.2.2 (key r') (List.mem_map_of_mem hr') (key r)
    (List.mem_map_of_mem (List.mem_singleton.mpr rfl)) hk'

omit [DecidableEq κ] in
theorem Keyed.filter (h : Keyed key rows) (p : α → Bool) : Keyed key (rows.filter p) :=
  List.Nodup.sublist (List.Sublist.map key List.filter_sublist) h

/-- A partial map that keeps the keys of its rows. -/
theorem rowAt_filterMap {β : Type*} {key' : β → κ} {f : α → Option β} (h : Keyed key rows)
    (hf : ∀ r ∈ rows, ∀ s ∈ f r, key' s = key r) (k : κ) :
    rowAt key' (rows.filterMap f) k = (rowAt key rows k).bind f := by
  induction rows with
  | nil => rfl
  | cons r rows ih =>
    obtain ⟨hr, hrows⟩ := List.nodup_cons.mp h
    obtain ⟨hfr, hf⟩ := List.forall_mem_cons.mp hf
    have ih := ih hrows hf
    rw [List.filterMap_cons, rowAt_cons]
    cases hs : f r with
    | none =>
      rw [ih]
      split_ifs with hk
      · have hnone : rowAt key rows k = none :=
          rowAt_eq_none.mpr fun r' hr' hk' => hr (List.mem_map.mpr ⟨r', hr', hk'.trans hk.symm⟩)
        rw [hnone, Option.bind_some, hs]
        rfl
      · rfl
    | some s =>
      have hkey := hfr s hs
      rw [rowAt_cons, hkey, ih]
      split_ifs with hk
      · rw [Option.bind_some, hs]
      · rfl

omit [DecidableEq κ] in
theorem Keyed.filterMap {β : Type*} {key' : β → κ} {f : α → Option β} (h : Keyed key rows)
    (hf : ∀ r ∈ rows, ∀ s ∈ f r, key' s = key r) : Keyed key' (rows.filterMap f) := by
  induction rows with
  | nil => exact List.nodup_nil
  | cons r rows ih =>
    obtain ⟨hr, hrows⟩ := List.nodup_cons.mp h
    obtain ⟨hfr, hf⟩ := List.forall_mem_cons.mp hf
    have ih := ih hrows hf
    rw [List.filterMap_cons]
    cases hs : f r with
    | none => exact ih
    | some s =>
      refine List.nodup_cons.mpr ⟨fun hmem => hr ?_, ih⟩
      obtain ⟨s', hs', hkey⟩ := List.mem_map.mp hmem
      obtain ⟨r', hr', hfr'⟩ := List.mem_filterMap.mp hs'
      rw [hfr s hs, hf r' hr' s' hfr'] at hkey
      exact List.mem_map.mpr ⟨r', hr', hkey⟩

/-- Deleting rows at other keys. -/
theorem rowAt_filter_of (h : ∀ r ∈ rows, key r = k → p r) :
    rowAt key (rows.filter p) k = rowAt key rows k := by
  induction rows with
  | nil => rfl
  | cons r rows ih =>
    obtain ⟨hr, hrows⟩ := List.forall_mem_cons.mp h
    rw [List.filter_cons, rowAt_cons]
    by_cases hk : key r = k
    · rw [if_pos (hr hk), rowAt_cons]
      simp only [hk, if_true]
    · rw [if_neg hk]
      split_ifs
      · rw [rowAt_cons, if_neg hk]
        exact ih hrows
      · exact ih hrows

/-- Keeping the rows of a condition on the key. -/
theorem rowAt_filter (q : κ → Bool) (rows : List α) (k : κ) :
    rowAt key (rows.filter fun r => q (key r)) k = if q k then rowAt key rows k else none := by
  induction rows with
  | nil => simp [rowAt]
  | cons r rows ih =>
    rw [List.filter_cons, rowAt_cons]
    by_cases hk : key r = k
    · subst hk
      by_cases hq : q (key r)
      · simp [hq, rowAt_cons]
      · rw [if_neg hq] at ih
        simp [hq, ih]
    · by_cases hq : q (key r)
      · simp [hq, rowAt_cons, hk, ih]
      · simp [hq, hk, ih]

theorem upsert_of_none {new : α} (h : rowAt key rows k = none) :
    upsert (fun r => key r = k) f new rows = rows ++ [new] := by
  rw [upsert, any_key, h]
  rfl

theorem upsert_of_some {new : α} (h : rowAt key rows k = some r) :
    upsert (fun r => key r = k) f new rows = modifyFirst (fun r => key r = k) f rows := by
  rw [upsert, any_key, h]
  rfl

theorem rowAt_upsert {new : α} (hf : ∀ r, key (f r) = key r) (h : Keyed key rows)
    (hnew : key new = k) (k' : κ) :
    rowAt key (upsert (fun r => key r = k) f new rows) k' =
      if k' = k then some ((rowAt key rows k).elim new f) else rowAt key rows k' := by
  cases hrow : rowAt key rows k with
  | none =>
    rw [upsert_of_none hrow, rowAt_append, rowAt_singleton, hnew]
    by_cases hk : k' = k
    · subst hk
      rw [if_pos rfl, if_pos rfl, hrow]
      rfl
    · rw [if_neg hk, if_neg (Ne.symm hk), Option.or_none]
  | some r =>
    rw [upsert_of_some hrow, rowAt_modifyKey hf h, hrow]
    rfl

theorem Keyed.upsert {new : α} (hf : ∀ r, key (f r) = key r) (h : Keyed key rows)
    (hnew : key new = k) : Keyed key (upsert (fun r => key r = k) f new rows) := by
  cases hrow : rowAt key rows k with
  | none =>
    rw [upsert_of_none hrow]
    exact h.append (by rw [hnew]; exact hrow)
  | some r =>
    rw [upsert_of_some hrow]
    exact h.modifyFirst _ hf

end Rows

/-! ### Overlays -/

section Overlay

open Std (ExtTreeMap)

variable {K V : Type*} [LinearOrder K]

/-- Inserts the value of an entry, or erases the key of an entry without one. -/
def setEntry (m : ExtTreeMap K V) (entry : K × Option V) : ExtTreeMap K V :=
  match entry.2 with
  | some v => m.insert entry.1 v
  | none => m.erase entry.1

theorem getElem?_setEntry (m : ExtTreeMap K V) (entry : K × Option V) (k : K) :
    (setEntry m entry)[k]? = if entry.1 = k then entry.2 else m[k]? := by
  obtain ⟨a, v⟩ := entry
  cases v with
  | none => exact ExtTreeMap.getElem?_erase_iff m a k
  | some v => exact ExtTreeMap.getElem?_insert_iff m a k v

/-- The writes and deletes of a list of entries with distinct keys. -/
theorem getElem?_foldl_overlay {l : List (K × Option V)} (hl : (l.map Prod.fst).Nodup)
    (base : ExtTreeMap K V) (k : K) :
    (l.foldl setEntry base)[k]? =
      (l.find? fun entry => entry.1 = k).elim base[k]? Prod.snd := by
  induction l generalizing base with
  | nil => rfl
  | cons entry l ih =>
    obtain ⟨hhead, htail⟩ := List.nodup_cons.mp hl
    rw [List.foldl_cons, ih htail, List.find?_cons, getElem?_setEntry]
    by_cases hk : entry.1 = k
    · have hnone : (l.find? fun entry => entry.1 = k) = none := by
        refine List.find?_eq_none.mpr fun e he hek => hhead (List.mem_map.mpr ⟨e, he, ?_⟩)
        rw [hk]
        exact of_decide_eq_true hek
      rw [hnone, decide_eq_true hk, if_pos hk]
      rfl
    · rw [decide_eq_false hk, if_neg hk]

theorem nodup_keys_toList (m : ExtTreeMap K V) : (m.toList.map Prod.fst).Nodup := by
  rw [List.nodup_iff_pairwise_ne, List.pairwise_map]
  exact m.pairwise_fst_toList.imp fun h => h.ne

/-- The entry of a map's list at a key. -/
theorem find?_toList (m : ExtTreeMap K V) (k : K) :
    (m.toList.find? fun entry => entry.1 = k) = (m[k]?).map fun v => (k, v) := by
  have hkeyed : Keyed Prod.fst m.toList := nodup_keys_toList m
  ext entry
  rw [Option.map_eq_some_iff]
  constructor
  · intro h
    have hmem : entry ∈ m.toList := List.mem_of_find?_eq_some h
    have hk : entry.1 = k := by simpa using List.find?_some h
    refine ⟨entry.2, ?_, by rw [← hk]⟩
    rw [← hk]
    exact ExtTreeMap.mem_toList_iff_getElem?_eq_some.mp hmem
  · rintro ⟨v, hv, rfl⟩
    exact hkeyed.rowAt_eq_some.mpr ⟨ExtTreeMap.mem_toList_iff_getElem?_eq_some.mpr hv, rfl⟩

theorem rowAt_toList [DecidableEq K] (m : ExtTreeMap K V) (k : K) :
    rowAt Prod.fst m.toList k = (m[k]?).map fun v => (k, v) := by
  rw [← find?_toList, rowAt]
  congr!

end Overlay

/-! ### Maps that index a table -/

section Indexes

open Std (ExtTreeMap)

variable {α κ K V γ : Type*} [DecidableEq κ] [LinearOrder K]

/-- `m` holds at each key what `colR` reads of the row at that key; `enc` spells a key of the map
in the columns of the table. -/
structure Indexes (key : α → κ) (enc : K → κ) (colR : α → γ) (colV : V → γ) (m : ExtTreeMap K V)
    (rows : List α) : Prop where
  keyed : Keyed key rows
  covered : ∀ r ∈ rows, ∃ k, key r = enc k
  column : ∀ k, (m[k]?).map colV = (rowAt key rows (enc k)).map colR

variable {key : α → κ} {enc : K → κ} {colR : α → γ} {colV : V → γ} {m : ExtTreeMap K V}
  {rows : List α} {k : K} {v : V} {r : α} {f : α → α}

theorem Indexes.nil : Indexes key enc colR colV (∅ : ExtTreeMap K V) [] where
  keyed := List.nodup_nil
  covered := fun r hr => absurd hr List.not_mem_nil
  column := fun k => by rw [ExtTreeMap.getElem?_empty]; rfl

namespace Indexes

variable (h : Indexes key enc colR colV m rows)
include h

theorem rowAt_of_getElem? (hk : m[k]? = some v) :
    ∃ r, rowAt key rows (enc k) = some r ∧ colR r = colV v := by
  have hcol := h.column k
  rw [hk, Option.map_some] at hcol
  exact Option.map_eq_some_iff.mp hcol.symm

theorem getElem?_of_rowAt (hr : rowAt key rows (enc k) = some r) :
    ∃ v, m[k]? = some v ∧ colR r = colV v := by
  have hcol := h.column k
  rw [hr, Option.map_some] at hcol
  obtain ⟨v, hv, hvr⟩ := Option.map_eq_some_iff.mp hcol
  exact ⟨v, hv, hvr.symm⟩

theorem rowAt_eq_none_iff : rowAt key rows (enc k) = none ↔ m[k]? = none := by
  have hcol := congrArg Option.isNone (h.column k)
  rw [Option.isNone_map, Option.isNone_map] at hcol
  rw [← Option.isNone_iff_eq_none, ← Option.isNone_iff_eq_none, hcol]

/-- A table has one index, where a value is what its columns say. -/
theorem unique {m' : ExtTreeMap K V} (h' : Indexes key enc colR colV m' rows)
    (hcol : Function.Injective colV) : m = m' := by
  refine ExtTreeMap.ext_getElem? fun k => ?_
  exact Option.map_injective hcol ((h.column k).trans (h'.column k).symm)

/-- A change of rows that no column shows. -/
theorem touch (p : α → Bool) (hkey : ∀ r, key (f r) = key r) (hcol : ∀ r, colR (f r) = colR r) :
    Indexes key enc colR colV m (modifyFirst p f rows) := by
  have hrow : ∀ (l : List α) (k : κ),
      (rowAt key (modifyFirst p f l) k).map colR = (rowAt key l k).map colR := by
    intro l k
    induction l with
    | nil => rfl
    | cons r l ih =>
      unfold modifyFirst
      split_ifs with hp
      · rw [rowAt_cons, rowAt_cons, hkey]
        split_ifs
        · rw [Option.map_some, Option.map_some, hcol]
        · rfl
      · rw [rowAt_cons, rowAt_cons]
        split_ifs
        · rfl
        · exact ih
  refine ⟨h.keyed.modifyFirst p hkey, fun r hr => ?_, fun k => ?_⟩
  · have hmem : key r ∈ (modifyFirst p f rows).map key := List.mem_map_of_mem hr
    rw [map_key_modifyFirst p hkey] at hmem
    obtain ⟨r', hr', hk'⟩ := List.mem_map.mp hmem
    rw [← hk']
    exact h.covered r' hr'
  · rw [h.column k, hrow]

/-- A change of the row at `k` is an insert at `k`. -/
theorem modify (henc : Function.Injective enc) (hkey : ∀ r, key (f r) = key r)
    (hm : (m[k]?).isSome)
    (hcol : ∀ r, rowAt key rows (enc k) = some r → colR (f r) = colV v) :
    Indexes key enc colR colV (m.insert k v) (modifyFirst (fun r => key r = enc k) f rows) := by
  refine ⟨h.keyed.modifyFirst _ hkey, fun r hr => ?_, fun k' => ?_⟩
  · have hmem : key r ∈ (modifyFirst (fun r => key r = enc k) f rows).map key :=
      List.mem_map_of_mem hr
    rw [map_key_modifyFirst _ hkey] at hmem
    obtain ⟨r', hr', hk'⟩ := List.mem_map.mp hmem
    rw [← hk']
    exact h.covered r' hr'
  · rw [ExtTreeMap.getElem?_insert_iff, rowAt_modifyKey hkey h.keyed]
    by_cases hk : k = k'
    · subst hk
      obtain ⟨v₀, hv₀⟩ := Option.isSome_iff_exists.mp hm
      obtain ⟨r, hr, -⟩ := h.rowAt_of_getElem? hv₀
      rw [if_pos rfl, if_pos rfl, hr, Option.map_some, Option.map_some, Option.map_some,
        hcol r hr]
    · rw [if_neg hk, if_neg fun h' => hk (henc h').symm]
      exact h.column k'

/-- A new row is an insert at its key. -/
theorem append (henc : Function.Injective enc) (hm : m[k]? = none) (hr : key r = enc k)
    (hcol : colR r = colV v) :
    Indexes key enc colR colV (m.insert k v) (rows ++ [r]) := by
  have hnone : rowAt key rows (enc k) = none := h.rowAt_eq_none_iff.mpr hm
  refine ⟨h.keyed.append (by rw [hr]; exact hnone), fun r' hr' => ?_, fun k' => ?_⟩
  · rcases List.mem_append.mp hr' with hr' | hr'
    · exact h.covered r' hr'
    · rw [List.mem_singleton.mp hr']
      exact ⟨k, hr⟩
  · rw [ExtTreeMap.getElem?_insert_iff, rowAt_append, rowAt_singleton, hr]
    by_cases hk : k = k'
    · subst hk
      rw [if_pos rfl, if_pos rfl, hnone, Option.none_or, Option.map_some, Option.map_some, hcol]
    · rw [if_neg hk, if_neg fun h' => hk (henc h'), Option.or_none]
      exact h.column k'

/-- A row put at `k` is an insert at `k`. -/
theorem upsert {new : α} (henc : Function.Injective enc) (hkey : ∀ r, key (f r) = key r)
    (hnew : key new = enc k) (hcol : ∀ r, colR (f r) = colV v) (hcolnew : colR new = colV v) :
    Indexes key enc colR colV (m.insert k v)
      (upsert (fun r => key r = enc k) f new rows) := by
  cases hk : m[k]? with
  | none =>
    rw [upsert_of_none (h.rowAt_eq_none_iff.mpr hk)]
    exact h.append henc hk hnew hcolnew
  | some v₀ =>
    obtain ⟨r, hr, -⟩ := h.rowAt_of_getElem? hk
    rw [upsert_of_some hr]
    exact h.modify henc hkey (by rw [hk]; rfl) fun r _ => hcol r

/-- Deleting the row at `k`. -/
theorem erase (henc : Function.Injective enc) (k : K) :
    Indexes key enc colR colV (m.erase k) (rows.filter fun r => key r ≠ enc k) := by
  have hfilter (k' : κ) :
      rowAt key (rows.filter fun r => key r ≠ enc k) k' =
        if decide (k' ≠ enc k) then rowAt key rows k' else none :=
    rowAt_filter (fun k' => decide (k' ≠ enc k)) rows k'
  refine ⟨h.keyed.filter _, fun r hr => h.covered r (List.mem_of_mem_filter hr), fun k' => ?_⟩
  rw [ExtTreeMap.getElem?_erase_iff, hfilter]
  by_cases hk : k = k'
  · subst hk
    simp
  · have hne : enc k' ≠ enc k := fun h' => hk (henc h').symm
    rw [if_neg hk, if_pos (decide_eq_true hne)]
    exact h.column k'

end Indexes

/-- A fold that inserts every row of a keyed table builds an index of it. -/
theorem foldlM_indexes {σ ε : Type} {step : σ → α → Except ε σ} {get : σ → ExtTreeMap K V}
    (frame : σ → σ → Prop) (hrefl : ∀ s, frame s s)
    (htrans : ∀ s t u, frame s t → frame t u → frame s u) (henc : Function.Injective enc)
    (hkeyed : Keyed key rows)
    (hstep : ∀ s, ∀ r ∈ rows, ∃ s' k v, step s r = .ok s' ∧ get s' = (get s).insert k v ∧
      key r = enc k ∧ colR r = colV v ∧ frame s s') (s : σ) (hget : get s = ∅) :
    ∃ s', rows.foldlM step s = .ok s' ∧ Indexes key enc colR colV (get s') rows ∧ frame s s' := by
  induction rows using List.reverseRecOn with
  | nil => exact ⟨s, rfl, hget ▸ .nil, hrefl s⟩
  | append_singleton rows r ih =>
    obtain ⟨s₁, hs₁, hindex, hframe⟩ :=
      ih hkeyed.of_append fun s r hr => hstep s r (List.mem_append_left _ hr)
    obtain ⟨s', k, v, hs', hinsert, hkey, hcol, hframe'⟩ :=
      hstep s₁ r (List.mem_append_right _ (List.mem_singleton.mpr rfl))
    have hnone : rowAt key rows (enc k) = none := hkey ▸ hkeyed.rowAt_of_append
    refine ⟨s', ?_, ?_, htrans s s₁ s' hframe hframe'⟩
    · rw [List.foldlM_append, hs₁]
      change (List.foldlM step s₁ [r]) = _
      rw [List.foldlM_cons, hs']
      rfl
    · rw [hinsert]
      exact hindex.append henc (hindex.rowAt_eq_none_iff.mp hnone) hkey hcol

end Indexes

end RizzyVault.Lib
