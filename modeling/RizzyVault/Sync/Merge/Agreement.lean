import RizzyVault.Sync.Merge.Claims

/-!
# When two states agree

What the reported disagreements read off two states, in terms of the values they hold: a state
accounts for a value it holds at its dot, that one of its current values supersedes, or that its
tombstone discards.

## Main results

* `accountsFor_of_held`, `accountsFor_of_superseded`, `accountsFor_of_discarded`: how a state
  accounts for a value.
* `disagreementsOf_eq_nil`: states that account for each other's values have nothing to report.
-/

open RizzyVault.Core RizzyVault.Lib

namespace RizzyVault.Sync

open Std (ExtTreeMap ExtTreeSet)

variable {ev : Evidence} {s x y : State} {bodies : Bodies} {k : Bytes} {v : Val}

/-- The current registers of a live item, the late ones of a tombstone. -/
def Shape.current : Shape → Regs
  | .live l => l.regs
  | .tomb t => t.late

/-- The history of a live item; a tombstone has none. -/
def Shape.history : Shape → Regs
  | .live l => l.hist
  | .tomb _ => ∅

theorem mem_valuesAt_iff {s : Shape} :
    v ∈ s.valuesAt k ↔ v ∈ lookup s.current k ++ lookup s.history k := by
  cases s with
  | live l => rfl
  | tomb t =>
    change v ∈ lookup t.late k ↔ v ∈ lookup t.late k ++ lookup ∅ k
    rw [lookup_empty, List.append_nil]

/-! ### The index -/

theorem getElem?_foldl_insert {ν : Type*} (f : Bytes → ν) (keys : List Bytes)
    (m : ExtTreeMap Bytes ν) (k : Bytes) :
    (keys.foldl (fun out key => out.insert key (f key)) m)[k]? =
      if k ∈ keys then some (f k) else m[k]? := by
  induction keys generalizing m with
  | nil => simp
  | cons key keys ih =>
    rw [List.foldl_cons, ih, ExtTreeMap.getElem?_insert_iff]
    by_cases hk : k ∈ keys
    · rw [if_pos hk, if_pos (List.mem_cons_of_mem key hk)]
    · rw [if_neg hk]
      by_cases hkey : key = k
      · rw [if_pos hkey, if_pos (hkey ▸ List.mem_cons_self), hkey]
      · rw [if_neg hkey, if_neg]
        rintro (_ | ⟨_, h⟩)
        · exact hkey rfl
        · exact hk h

theorem getElem?_index (s : State) (ev : Evidence) (k : Bytes) :
    (index s ev)[k]? = if k ∈ keysOf [s.shape.current, s.shape.history] then
      some (keyIndex (lookup s.shape.current k) (lookup s.shape.history k) ev) else none := by
  have hindex : index s ev = (keysOf [s.shape.current, s.shape.history]).foldl (fun out key =>
      out.insert key (keyIndex (lookup s.shape.current key) (lookup s.shape.history key) ev)) ∅ := by
    unfold index
    cases s.shape <;> rfl
  rw [hindex, getElem?_foldl_insert]
  rfl

/-- The index has an entry for every key with values. -/
theorem getElem?_index_of_mem (hv : v ∈ s.shape.valuesAt k) :
    (index s ev)[k]? =
      some (keyIndex (lookup s.shape.current k) (lookup s.shape.history k) ev) := by
  rw [getElem?_index, if_pos]
  rw [mem_keysOf]
  rcases List.mem_append.mp (mem_valuesAt_iff.mp hv) with hv | hv
  · exact ⟨_, by simp, mem_keys_of_mem_lookup hv⟩
  · exact ⟨_, by simp, mem_keys_of_mem_lookup hv⟩

theorem getElem?_foldl_alter (l : List Val) (m : ExtTreeMap Dot (List Val)) (d : Dot) :
    (l.foldl (fun held v =>
      held.alter v.dot fun versions => some (versions.getD [] ++ [v])) m)[d]? =
      if ∃ v ∈ l, v.dot = d then some (m[d]?.getD [] ++ l.filter fun v => v.dot = d)
      else m[d]? := by
  induction l generalizing m with
  | nil => simp
  | cons w l ih =>
    rw [List.foldl_cons, ih, ExtTreeMap.getElem?_alter_iff]
    by_cases hw : w.dot = d
    · subst hw
      by_cases hl : ∃ v ∈ l, v.dot = w.dot
      · simp [hl]
      · have hnil : l.filter (fun v => v.dot = w.dot) = [] := by
          rw [List.filter_eq_nil_iff]
          intro v hv hd
          exact hl ⟨v, hv, by simpa using hd⟩
        simp [hl, hnil]
    · have hex : (∃ v ∈ w :: l, v.dot = d) ↔ ∃ v ∈ l, v.dot = d := by
        simp [hw]
      simp only [hw, if_false, hex, List.filter_cons, decide_false]
      rfl

/-- The index lists the versions of each dot. -/
theorem getElem?_held (cur hist : List Val) (ev : Evidence) (d : Dot) :
    (keyIndex cur hist ev).held[d]? = if ∃ v ∈ cur ++ hist, v.dot = d then
      some ((cur ++ hist).filter fun v => v.dot = d) else none := by
  rw [keyIndex, getElem?_foldl_alter]
  simp

/-! ### Accounting for a value -/

theorem accountsFor_of_entry {entry : KeyIndex} (he : (index s ev)[k]? = some entry)
    (h : entry.held.contains v.dot ∨ entry.current.covers v) :
    accountsFor s (index s ev) k v := by
  unfold accountsFor
  rw [he]
  have hany : (entry.held.contains v.dot || entry.current.covers v) = true := by
    simpa using h
  cases s.shape with
  | live l => simp [hany]
  | tomb t => simp [hany]

/-- A state accounts for a value when it holds one at the dot. -/
theorem accountsFor_of_held {u : Val} (hu : u ∈ s.shape.valuesAt k) (hd : u.dot = v.dot) :
    accountsFor s (index s ev) k v := by
  refine accountsFor_of_entry (getElem?_index_of_mem hu) (.inl ?_)
  rw [ExtTreeMap.contains_eq_isSome_getElem?, getElem?_held, if_pos]
  · rfl
  · exact ⟨u, mem_valuesAt_iff.mp hu, hd⟩

/-- A state accounts for a value one of its current values supersedes. -/
theorem accountsFor_of_superseded {u : Val} (hu : u ∈ lookup s.shape.current k)
    (hsup : Supersedes ev u.dot v.dot) : accountsFor s (index s ev) k v := by
  refine accountsFor_of_entry
    (getElem?_index_of_mem (mem_valuesAt_iff.mpr (List.mem_append_left _ hu))) (.inr ?_)
  exact (Supersession.covers_new_iff _ ev v).mpr ⟨u, hu, hsup⟩

/-- A tombstone accounts for the values it discards. -/
theorem accountsFor_of_discarded {t : Tomb} (ht : s.shape = .tomb t)
    (h : k = lifecycleKey ∨ t.c.covers v.dot) : accountsFor s (index s ev) k v := by
  unfold accountsFor
  rw [ht]
  rcases h with h | h <;> simp [h]

/-- A state that holds no other value at the dot holds no other version. -/
theorem otherVersion_eq_false (h : ∀ u ∈ s.shape.valuesAt k, u.dot = v.dot → u = v) :
    otherVersion (index s ev) k v = false := by
  unfold otherVersion
  rw [getElem?_index]
  split_ifs with hk
  · rw [Option.bind_some, getElem?_held]
    split_ifs
    · rw [Option.any_some, List.any_eq_false]
      intro u hu
      obtain ⟨hmem, hd⟩ := List.mem_filter.mp hu
      rw [h u (mem_valuesAt_iff.mpr hmem) (by simpa using hd)]
      simp
    · rfl
  · rfl

/-! ### Nothing to report -/

theorem purgeContext_eq (s : State) : purgeContext s = s.shape.c := by
  unfold purgeContext Shape.c
  cases s.shape <;> rfl

/-- States that account for each other's values and explain what they discard have nothing to
report. -/
theorem disagreementsOf_eq_nil
    (haccounts : ∀ k, ∀ v ∈ x.shape.valuesAt k, y.vv.covers v.dot →
      accountsFor y (index y ev) k v)
    (hversion : ∀ k, ∀ v ∈ x.shape.valuesAt k, ∀ u ∈ y.shape.valuesAt k, u.dot = v.dot → u = v)
    (hexplain : ∀ k, k ≠ lifecycleKey → ∀ v ∈ y.shape.valuesAt k, x.shape.c.covers v.dot →
      ¬ y.shape.c.covers v.dot → ∃ (d : Dot) (f : HeaderFacts), ev.headers[d]? = some f ∧
        x.vv.covers d ∧ ¬ y.vv.covers d ∧ ¬ knownWrite bodies d ∧ f.context.covers v.dot) :
    disagreementsOf x y (index y ev) bodies ev = [] := by
  unfold disagreementsOf
  simp only [List.append_eq_nil_iff, List.flatMap_eq_nil_iff, List.map_eq_nil_iff,
    List.filter_eq_nil_iff, Prod.forall, State.mem_values, purgeContext_eq]
  refine ⟨fun k v hv => ⟨?_, ?_⟩, fun k v hv => ?_⟩
  · rw [if_neg]
    intro h
    rw [Bool.and_eq_true, decide_eq_true_eq] at h
    simp [haccounts k v hv h.1] at h
  · rw [otherVersion_eq_false (hversion k v hv)]
    rfl
  · intro h
    simp only [Bool.and_eq_true, Bool.not_eq_true', Bool.or_eq_false_iff, decide_eq_false_iff_not,
      Bool.not_eq_false', decide_eq_true_eq] at h
    obtain ⟨⟨⟨hk, hx⟩, hy⟩, hexp⟩ := h
    refine hexp (covers_joinContexts.mpr ?_)
    obtain ⟨d, f, hf, hxd, hyd, hnot, hcov⟩ := hexplain k hk v hv hx hy
    exact ⟨d, f, hf, by simp [hxd, hyd, hnot], hcov⟩

end RizzyVault.Sync
