import Mathlib

/-!
# Computations that may fail

When a sequence, a guarded step, a map or a fold over `Except` succeeds.

## Main results

* `except_bind_eq_ok`, `ite_throw_eq_ok`: a sequence and a guard that succeed.
* `mapM_eq_ok_forall₂`, `mapM_eq_ok_mem`, `mapM_eq_ok_exists`: the results of a map, element by
  element.
* `exists_mapM_eq_ok`, `mapM_eq_ok_map`: maps that succeed.
* `forM_eq_ok`: a check of every element of a list.
* `foldlM_rec`: what every step of a fold keeps, the whole fold keeps.
-/

namespace RizzyVault.Lib

variable {ε α γ : Type}

theorem except_bind_eq_ok {x : Except ε α} {f : α → Except ε γ} {y : γ} :
    (x >>= f) = .ok y ↔ ∃ a, x = .ok a ∧ f a = .ok y := by
  cases x with
  | error e => simp [bind, Except.bind]
  | ok a => simp [bind, Except.bind]

theorem ite_throw_eq_ok {c : Prop} [Decidable c] {e : ε} {f : PUnit → Except ε α}
    {x : Except ε α} {y : α} :
    (if c then (throw e >>= f) else x) = .ok y ↔ ¬ c ∧ x = .ok y := by
  by_cases h : c
  · rw [if_pos h]
    exact ⟨fun h' => (by cases h'), fun h' => absurd h h'.1⟩
  · rw [if_neg h]
    exact ⟨fun h' => ⟨h, h'⟩, fun h' => h'.2⟩

theorem except_map_eq_ok {x : Except ε α} {f : α → γ} {y : γ} :
    x.map f = .ok y ↔ ∃ a, x = .ok a ∧ f a = y := by
  cases x with
  | error e => simp [Except.map]
  | ok a => simp [Except.map]

theorem toOption_eq_some {x : Except ε α} {y : α} : x.toOption = some y ↔ x = .ok y := by
  cases x <;> simp [Except.toOption]

theorem mapM_eq_ok_forall₂ {f : α → Except ε γ} {l : List α} {ys : List γ}
    (h : l.mapM f = .ok ys) : List.Forall₂ (fun x y => f x = .ok y) l ys := by
  induction l generalizing ys with
  | nil =>
    cases h
    exact .nil
  | cons a l ih =>
    rw [List.mapM_cons] at h
    obtain ⟨y, hy, h⟩ := except_bind_eq_ok.mp h
    obtain ⟨ys', hys, h⟩ := except_bind_eq_ok.mp h
    cases h
    exact .cons hy (ih hys)

theorem mapM_eq_ok_mem {f : α → Except ε γ} {l : List α} {ys : List γ} (h : l.mapM f = .ok ys) :
    ∀ y ∈ ys, ∃ x ∈ l, f x = .ok y := by
  have hall := mapM_eq_ok_forall₂ h
  clear h
  induction hall with
  | nil => simp
  | cons hxy _ ih =>
    refine List.forall_mem_cons.mpr ⟨⟨_, List.mem_cons_self, hxy⟩, fun z hz => ?_⟩
    obtain ⟨x, hx, hxz⟩ := ih z hz
    exact ⟨x, List.mem_cons_of_mem _ hx, hxz⟩

theorem mapM_eq_ok_exists {f : α → Except ε γ} {l : List α} {ys : List γ} (h : l.mapM f = .ok ys) :
    ∀ x ∈ l, ∃ y ∈ ys, f x = .ok y := by
  have hall := mapM_eq_ok_forall₂ h
  clear h
  induction hall with
  | nil => simp
  | cons hxy _ ih =>
    refine List.forall_mem_cons.mpr ⟨⟨_, List.mem_cons_self, hxy⟩, fun z hz => ?_⟩
    obtain ⟨y, hy, hzy⟩ := ih z hz
    exact ⟨y, List.mem_cons_of_mem _ hy, hzy⟩

theorem mapM_eq_ok_map {f : α → Except ε γ} {g : α → γ} {l : List α}
    (h : ∀ x ∈ l, f x = .ok (g x)) : l.mapM f = .ok (l.map g) := by
  induction l with
  | nil => rfl
  | cons x l ih =>
    obtain ⟨hx, hl⟩ := List.forall_mem_cons.mp h
    rw [List.mapM_cons, hx, ih hl]
    rfl

theorem exists_mapM_eq_ok {f : α → Except ε γ} {l : List α} (h : ∀ x ∈ l, ∃ y, f x = .ok y) :
    ∃ ys, l.mapM f = .ok ys := by
  induction l with
  | nil => exact ⟨[], rfl⟩
  | cons x l ih =>
    obtain ⟨y, hy⟩ := h x List.mem_cons_self
    obtain ⟨ys, hys⟩ := ih fun u hu => h u (List.mem_cons_of_mem _ hu)
    exact ⟨y :: ys, by rw [List.mapM_cons, hy, hys]; rfl⟩

theorem forM_eq_ok {f : α → Except ε Unit} {l : List α} :
    l.forM f = .ok () ↔ ∀ x ∈ l, f x = .ok () := by
  induction l with
  | nil => simp [pure, Except.pure]
  | cons x l ih =>
    rw [List.forM_eq_forM] at ih ⊢
    rw [List.forM_cons, except_bind_eq_ok, List.forall_mem_cons]
    constructor
    · rintro ⟨⟨⟩, hx, hl⟩
      exact ⟨hx, ih.mp hl⟩
    · rintro ⟨hx, hl⟩
      exact ⟨(), hx, ih.mpr hl⟩

/-- What every step of a fold keeps, the whole fold keeps. -/
theorem foldlM_rec {motive : γ → Prop} {f : γ → α → Except ε γ} {l : List α} {init out : γ}
    (h : l.foldlM f init = .ok out) (hinit : motive init)
    (hstep : ∀ x ∈ l, ∀ a b, motive a → f a x = .ok b → motive b) : motive out := by
  induction l generalizing init with
  | nil =>
    cases h
    exact hinit
  | cons x l ih =>
    rw [List.foldlM_cons] at h
    obtain ⟨b, hb, h⟩ := except_bind_eq_ok.mp h
    obtain ⟨hx, hl⟩ := List.forall_mem_cons.mp hstep
    exact ih h (hx init b hinit hb) hl

end RizzyVault.Lib
