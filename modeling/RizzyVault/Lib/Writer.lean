import RizzyVault.Lib.Result

/-!
# Writers that append

A writer takes the output so far and returns the output with its bytes appended, or fails.
`Writes limit w P bs` says that among outputs of at most `limit` bytes, `w` succeeds exactly when
`P` holds, and that it appends `bs`. Output only grows, so a check of the length on the way is
invisible: it refuses only what the check at the end refuses.

## Main definitions

* `Writes`.

## Main results

* `writes_append`, `writes_bind`, `writes_guard`, `writes_limit`, `writes_foldlM`,
  `writes_foldlM_zipIdx`: the rules.
-/

namespace RizzyVault.Lib

variable {β ε α : Type} {limit : ℕ} {w w' : List β → Except ε (List β)} {P Q : Prop}
  {bs cs : List β}

/-- Within `limit`, `w` succeeds exactly when `P` holds, and it appends `bs`. -/
def Writes (limit : ℕ) (w : List β → Except ε (List β)) (P : Prop) (bs : List β) : Prop :=
  ∀ out out', w out = .ok out' ∧ out'.length ≤ limit ↔
    P ∧ out' = out ++ bs ∧ out'.length ≤ limit

theorem Writes.congr (hw : Writes limit w P bs) (hP : P ↔ Q) (hbs : bs = cs) :
    Writes limit w Q cs := by
  subst hbs
  intro out out'
  rw [hw out out', hP]

theorem writes_append (bs : List β) :
    Writes limit (fun out => (.ok (out ++ bs) : Except ε (List β))) True bs := by
  intro out out'
  simp only [Except.ok.injEq, true_and]
  rw [eq_comm]

/-- One writer after another. -/
theorem writes_bind (hw : Writes limit w P bs) (hw' : Writes limit w' Q cs) :
    Writes limit (fun out => w out >>= w') (P ∧ Q) (bs ++ cs) := by
  intro out out'
  rw [except_bind_eq_ok]
  constructor
  · rintro ⟨⟨mid, hmid, hout⟩, hlen⟩
    obtain ⟨hQ, rfl, -⟩ := (hw' mid out').mp ⟨hout, hlen⟩
    have hlen' : mid.length ≤ limit := by
      rw [List.length_append] at hlen
      omega
    obtain ⟨hP, rfl, -⟩ := (hw out mid).mp ⟨hmid, hlen'⟩
    exact ⟨⟨hP, hQ⟩, List.append_assoc _ _ _, hlen⟩
  · rintro ⟨⟨hP, hQ⟩, rfl, hlen⟩
    rw [← List.append_assoc] at hlen ⊢
    have hlen' : (out ++ bs).length ≤ limit := by
      rw [List.length_append] at hlen
      omega
    exact ⟨⟨out ++ bs, ((hw out _).mpr ⟨hP, rfl, hlen'⟩).1, ((hw' _ _).mpr ⟨hQ, rfl, hlen⟩).1⟩,
      hlen⟩

/-- A writer that starts after some bytes. -/
theorem writes_after (bs : List β) (hw : Writes limit w P cs) :
    Writes limit (fun out => w (out ++ bs)) P (bs ++ cs) :=
  (writes_bind (writes_append (ε := ε) bs) hw).congr (by simp) rfl

/-- A writer behind a check of its input. -/
theorem writes_guard {c : Prop} [Decidable c] {e : ε} {f : List β → PUnit → Except ε (List β)}
    (hw : Writes limit w P bs) :
    Writes limit (fun out => if c then (throw e >>= f out) else w out) (¬ c ∧ P) bs := by
  intro out out'
  rw [ite_throw_eq_ok, and_assoc, hw out out', and_assoc]

/-- A check of the output's length refuses nothing within the limit. -/
theorem writes_limit {extra bound : ℕ} {e : ε} {f : List β → PUnit → Except ε (List β)}
    (hlimit : limit + extra = bound) :
    Writes limit (fun out => if bound < out.length + extra then (throw e >>= f out) else .ok out)
      True [] := by
  intro out out'
  rw [ite_throw_eq_ok, List.append_nil]
  constructor
  · rintro ⟨⟨-, h⟩, hlen⟩
    exact ⟨trivial, (Except.ok.inj h).symm, hlen⟩
  · rintro ⟨-, rfl, hlen⟩
    exact ⟨⟨by omega, rfl⟩, hlen⟩

/-- A writer for every element of a list. -/
theorem writes_foldlM {f : List β → α → Except ε (List β)} {P : α → Prop} {put : α → List β}
    (hf : ∀ x, Writes limit (fun out => f out x) (P x) (put x)) (l : List α) :
    Writes limit (fun out => l.foldlM f out) (∀ x ∈ l, P x) (l.flatMap put) := by
  induction l with
  | nil =>
    intro out out'
    simp only [List.foldlM_nil, List.flatMap_nil, List.append_nil]
    constructor
    · rintro ⟨hout, hlen⟩
      exact ⟨by simp, (Except.ok.inj hout).symm, hlen⟩
    · rintro ⟨-, rfl, hlen⟩
      exact ⟨rfl, hlen⟩
  | cons x l ih =>
    intro out out'
    have h := writes_bind (hf x) ih out out'
    simp only [← List.foldlM_cons] at h
    rwa [← List.flatMap_cons, ← List.forall_mem_cons] at h

/-- A writer for every element of a list, which may use the element's position. -/
theorem writes_foldlM_zipIdx {f : List β → α × ℕ → Except ε (List β)} {P : α → Prop}
    {put : α → List β} (hf : ∀ x i, Writes limit (fun out => f out (x, i)) (P x) (put x))
    (l : List α) :
    Writes limit (fun out => l.zipIdx.foldlM f out) (∀ x ∈ l, P x) (l.flatMap put) := by
  have hfst : l.zipIdx.map Prod.fst = l := List.zipIdx_map_fst 0 l
  have h : Writes limit (fun out => l.zipIdx.foldlM f out) (∀ x ∈ l.zipIdx, P x.1)
      (l.zipIdx.flatMap fun x => put x.1) := writes_foldlM (fun x => hf x.1 x.2) l.zipIdx
  refine h.congr ?_ ?_
  · rw [← List.forall_mem_map (f := Prod.fst), hfst]
  · rw [← List.flatMap_map, hfst]

end RizzyVault.Lib
