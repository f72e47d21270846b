import Mathlib

/-!
# Programs that draw random words

A program that draws words one after the other is a tree with a branch for each word. The streams on
which it comes to a result are counted by a power series, whose coefficients say how many streams of
each length there are; the counts of a program in sequence are products and sums of such series.

## Main definitions

* `Draws`: programs; `Draws.run`: what one returns on a stream, and the words that it leaves.
* `Draws.andThen`: a program behind another that may fail.
* `Draws.attempts`, `Draws.drawMany`: loops that draw until they succeed, or once for each step.
* `Draws.weight`: the sum over all runs of a value at their ends, by length.
* `Draws.streams`: the streams of a length that a program consumes to a result.
* `Draws.Even`: a family of results of one weight, and one error.

## Main results

* `Draws.card_streams`: the coefficients of a weight count streams.
* `Draws.weight_andThen`.
* `Draws.even_attempts`, `Draws.even_drawMany`: the loops keep results of one weight.
* `Draws.Even.card_streams_eq`: results that are met equally often have equally many streams.
* `Draws.Even.exists_of_run`: only results of the family are returned.

## Tags

random sampling, generating function
-/

open PowerSeries

namespace RizzyVault.Lib

/-- A program that draws words. -/
inductive Draws (W α : Type) : Type
  | done (a : α)
  | next (k : W → Draws W α)

namespace Draws

variable {W α β ε : Type}

/-- The result on a stream and the words left, if there are enough. -/
def run : Draws W α → List W → Option (α × List W)
  | done a, s => some (a, s)
  | next _, [] => none
  | next k, w :: s => (k w).run s

/-- A program behind another. -/
def bind : Draws W α → (α → Draws W β) → Draws W β
  | done a, f => f a
  | next k, f => next fun w => (k w).bind f

/-- A program behind another, unless that fails. -/
def andThen (d : Draws W (Except ε α)) (f : α → Draws W (Except ε β)) : Draws W (Except ε β) :=
  d.bind fun
    | .error e => done (.error e)
    | .ok a => f a

/-- Runs `d` until it succeeds, `m` times at most. -/
def attempts (e : ε) (d : Draws W (Except ε (Option β))) : ℕ → Draws W (Except ε β)
  | 0 => done (.error e)
  | m + 1 => d.andThen fun
    | some b => done (.ok b)
    | none => attempts e d m

/-- Draws from `d` once for each of `n` steps. -/
def drawMany {σ : Type} (d : Draws W (Except ε α)) (step : σ → α → σ) :
    ℕ → σ → Draws W (Except ε σ)
  | 0, s => done (.ok s)
  | n + 1, s => d.andThen fun a => drawMany d step n (step s a)

/-! ### Weights -/

section weight

variable [Fintype W]

/-- The sum of `g` over the results of all runs, each at the number of words that it draws. -/
noncomputable def weight : Draws W α → (α → ℕ⟦X⟧) → ℕ⟦X⟧
  | done a, g => g a
  | next k, g => X * ∑ w, (k w).weight g

theorem weight_bind (d : Draws W α) (f : α → Draws W β) (g : β → ℕ⟦X⟧) :
    (d.bind f).weight g = d.weight fun a => (f a).weight g := by
  induction d with
  | done a => rfl
  | next k ih => exact congrArg (X * ·) (Finset.sum_congr rfl fun w _ => ih w)

theorem weight_andThen (d : Draws W (Except ε α)) (f : α → Draws W (Except ε β))
    (g : Except ε β → ℕ⟦X⟧) :
    (d.andThen f).weight g = d.weight fun
      | .error e => g (.error e)
      | .ok a => (f a).weight g := by
  rw [andThen, weight_bind]
  refine congrArg d.weight (funext fun r => ?_)
  cases r <;> rfl

variable [DecidableEq W] [DecidableEq α]

/-- The streams of `N` words that a program consumes to a result. -/
def streams (d : Draws W α) (N : ℕ) (a : α) : Finset (Fin N → W) :=
  Finset.univ.filter fun s => d.run (List.ofFn s) = some (a, [])

theorem mem_streams {d : Draws W α} {N : ℕ} {a : α} {s : Fin N → W} :
    s ∈ d.streams N a ↔ d.run (List.ofFn s) = some (a, []) := by
  rw [streams, Finset.mem_filter]
  exact and_iff_right (Finset.mem_univ s)

/-- The streams that go on from a first word. -/
theorem card_streams_next (k : W → Draws W α) (N : ℕ) (a : α) :
    ((next k).streams (N + 1) a).card = ∑ w, ((k w).streams N a).card := by
  have hcons : ∀ s : Fin (N + 1) → W, s ∈ (next k).streams (N + 1) a ↔
      Fin.tail s ∈ (k (s 0)).streams N a := by
    intro s
    rw [mem_streams, mem_streams, List.ofFn_succ]
    rfl
  rw [Finset.card_eq_sum_card_fiberwise fun s _ => Finset.mem_univ (s 0)]
  refine Finset.sum_congr rfl fun w _ => ?_
  refine Finset.card_nbij' Fin.tail (fun s => Fin.cons w s) ?_ ?_ ?_ ?_
  · intro s hs
    obtain ⟨hs, hw⟩ := Finset.mem_filter.mp hs
    exact hw ▸ (hcons s).mp hs
  · intro s hs
    have htail : s ∈ (k w).streams N a := hs
    exact Finset.mem_filter.mpr ⟨(hcons (Fin.cons w s)).mpr htail, rfl⟩
  · intro s hs
    obtain ⟨-, rfl⟩ := Finset.mem_filter.mp hs
    exact Fin.cons_self_tail s
  · exact fun s _ => rfl

/-- The weight of a result counts its streams. -/
theorem card_streams (d : Draws W α) (N : ℕ) (a : α) :
    ((d.streams N a).card : ℕ) = coeff N (d.weight fun b => if b = a then 1 else 0) := by
  induction d generalizing N with
  | done b =>
    have hmem : ∀ s : Fin N → W, s ∈ (done b : Draws W α).streams N a ↔ b = a ∧ N = 0 := by
      intro s
      rw [mem_streams, run, Option.some.injEq, Prod.mk.injEq, List.ofFn_eq_nil_iff]
    rw [weight]
    by_cases hb : b = a
    · cases N with
      | zero =>
        have hall : (done b : Draws W α).streams 0 a = Finset.univ :=
          Finset.eq_univ_iff_forall.mpr fun s => (hmem s).mpr ⟨hb, rfl⟩
        rw [hall, if_pos hb, coeff_zero_one, Finset.card_univ, Fintype.card_unique]
      | succ N =>
        have hnone : (done b : Draws W α).streams (N + 1) a = ∅ :=
          Finset.eq_empty_of_forall_notMem fun s hs => absurd ((hmem s).mp hs).2 (by omega)
        rw [hnone, if_pos hb, coeff_one, if_neg (Nat.succ_ne_zero N), Finset.card_empty]
    · have hnone : (done b : Draws W α).streams N a = ∅ :=
        Finset.eq_empty_of_forall_notMem fun s hs => hb ((hmem s).mp hs).1
      rw [hnone, if_neg hb, map_zero, Finset.card_empty]
  | next k ih =>
    cases N with
    | zero =>
      have hnone : (next k).streams 0 a = ∅ :=
        Finset.eq_empty_of_forall_notMem fun s hs => by cases mem_streams.mp hs
      rw [hnone, weight, coeff_zero_X_mul, Finset.card_empty]
    | succ N =>
      rw [card_streams_next, weight, coeff_succ_X_mul, map_sum]
      exact Finset.sum_congr rfl fun w _ => ih w N

omit [Fintype W] [DecidableEq W] [DecidableEq α] in
/-- A result of any stream is the result of the words that were drawn. -/
theorem exists_run_eq {d : Draws W α} {s rest : List W} {a : α} (h : d.run s = some (a, rest)) :
    ∃ used, s = used ++ rest ∧ d.run used = some (a, []) := by
  induction d generalizing s with
  | done b =>
    cases h
    exact ⟨[], rfl, rfl⟩
  | next k ih =>
    cases s with
    | nil => cases h
    | cons w s =>
      obtain ⟨used, rfl, hrun⟩ := ih w h
      exact ⟨w :: used, rfl, hrun⟩

end weight

/-! ### Results of one weight -/

section even

variable [Fintype W] {ι σ : Type}

/-- The results of a family, taken as often as they occur in it, have one weight; the only error is
`e`. -/
def Even (d : Draws W (Except ε α)) (e : ε) (S : Finset ι) (φ : ι → α) : Prop :=
  ∃ U V : ℕ⟦X⟧, ∀ g, d.weight g = U * ∑ i ∈ S, g (.ok (φ i)) + V * g (.error e)

/-- Attempts that are each even, or come to nothing, are even. -/
theorem even_attempts {d : Draws W (Except ε (Option β))} {e : ε} {S : Finset ι} {φ : ι → β}
    (h : ∃ U R V : ℕ⟦X⟧, ∀ g, d.weight g =
      U * ∑ i ∈ S, g (.ok (some (φ i))) + R * g (.ok none) + V * g (.error e)) (m : ℕ) :
    Even (attempts e d m) e S φ := by
  obtain ⟨U, R, V, hd⟩ := h
  induction m with
  | zero => exact ⟨0, 1, fun g => by rw [attempts, weight, zero_mul, one_mul, zero_add]⟩
  | succ m ih =>
    obtain ⟨U', V', hm⟩ := ih
    refine ⟨U + R * U', R * V' + V, fun g => ?_⟩
    have hstep : (attempts e d (m + 1)).weight g =
        U * ∑ i ∈ S, g (.ok (φ i)) + R * (attempts e d m).weight g + V * g (.error e) := by
      rw [attempts, weight_andThen, hd]
      rfl
    rw [hstep, hm]
    ring

/-- Steps that each draw evenly draw every sequence evenly. -/
theorem even_drawMany [Fintype α] {d : Draws W (Except ε α)} {e : ε}
    (h : Even d e Finset.univ fun a => a) (step : σ → α → σ) (n : ℕ) (s : σ) :
    Even (drawMany d step n s) e Finset.univ
      fun v : Fin n → α => (List.ofFn v).foldl step s := by
  obtain ⟨U, V, hd⟩ := h
  have hall : ∃ U' V' : ℕ⟦X⟧, ∀ s g, (drawMany d step n s).weight g =
      U' * ∑ v : Fin n → α, g (.ok ((List.ofFn v).foldl step s)) + V' * g (.error e) := by
    induction n with
    | zero =>
      refine ⟨1, 0, fun s g => ?_⟩
      rw [drawMany, weight, Fintype.sum_unique, List.ofFn_zero, one_mul, zero_mul, add_zero]
      rfl
    | succ n ih =>
      obtain ⟨U', V', hn⟩ := ih
      refine ⟨U * U', U * (Fintype.card α : ℕ⟦X⟧) * V' + V, fun s g => ?_⟩
      have hsum : ∑ v : Fin (n + 1) → α, g (.ok ((List.ofFn v).foldl step s)) =
          ∑ a, ∑ v : Fin n → α, g (.ok ((List.ofFn v).foldl step (step s a))) := by
        rw [← Fintype.sum_prod_type']
        refine (Fintype.sum_equiv (Fin.consEquiv fun _ => α) _ _ fun x => ?_).symm
        show _ = g (.ok ((List.ofFn (Fin.cons x.1 x.2 : Fin (n + 1) → α)).foldl step s))
        rw [List.ofFn_cons, List.foldl_cons]
      have hstep : (drawMany d step (n + 1) s).weight g =
          U * ∑ a, (drawMany d step n (step s a)).weight g + V * g (.error e) := by
        rw [drawMany, weight_andThen, hd]
      rw [hstep, hsum]
      simp only [hn, Finset.sum_add_distrib, ← Finset.mul_sum, Finset.sum_const, Finset.card_univ,
        nsmul_eq_mul]
      ring
  obtain ⟨U', V', hn⟩ := hall
  exact ⟨U', V', hn s⟩

variable [DecidableEq W] [DecidableEq α] [DecidableEq ε]

omit [DecidableEq W] in
theorem Even.weight_eq {d : Draws W (Except ε α)} {e : ε} {S : Finset ι} {φ : ι → α}
    (h : Even d e S φ) : ∃ U : ℕ⟦X⟧, ∀ a,
      (d.weight fun r => if r = .ok a then 1 else 0) = U * ((S.filter fun i => φ i = a).card : ℕ⟦X⟧) := by
  obtain ⟨U, V, hd⟩ := h
  refine ⟨U, fun a => ?_⟩
  have hsum : ∑ i ∈ S, (if (.ok (φ i) : Except ε α) = .ok a then (1 : ℕ⟦X⟧) else 0) =
      ((S.filter fun i => φ i = a).card : ℕ⟦X⟧) := by
    rw [Finset.card_filter, Nat.cast_sum]
    refine Finset.sum_congr rfl fun i _ => ?_
    rw [Nat.cast_ite, Nat.cast_one, Nat.cast_zero]
    exact if_congr ⟨Except.ok.inj, congrArg _⟩ rfl rfl
  rw [hd, hsum, if_neg (by rintro ⟨⟩), mul_zero, add_zero]

/-- Results that the family takes equally often have equally many streams. -/
theorem Even.card_streams_eq {d : Draws W (Except ε α)} {e : ε} {S : Finset ι} {φ : ι → α}
    (h : Even d e S φ) {a b : α}
    (hab : (S.filter fun i => φ i = a).card = (S.filter fun i => φ i = b).card) (N : ℕ) :
    (d.streams N (.ok a)).card = (d.streams N (.ok b)).card := by
  obtain ⟨U, hU⟩ := h.weight_eq
  have ha := card_streams d N (.ok a)
  have hb := card_streams d N (.ok b)
  rw [hU] at ha hb
  exact_mod_cast ha.trans ((congrArg (fun n : ℕ => coeff N (U * (n : ℕ⟦X⟧))) hab).trans hb.symm)

/-- Only results of the family are returned. -/
theorem Even.exists_of_run {d : Draws W (Except ε α)} {e : ε} {S : Finset ι} {φ : ι → α}
    (h : Even d e S φ) {s rest : List W} {a : α} (hrun : d.run s = some (.ok a, rest)) :
    ∃ i ∈ S, φ i = a := by
  obtain ⟨used, -, hused⟩ := exists_run_eq hrun
  obtain ⟨U, hU⟩ := h.weight_eq
  by_contra hnone
  have hempty : (S.filter fun i => φ i = a).card = 0 :=
    Finset.card_eq_zero.mpr (Finset.filter_eq_empty_iff.mpr fun i hi hφ => hnone ⟨i, hi, hφ⟩)
  have hcount := card_streams d used.length (.ok a)
  rw [hU, hempty, Nat.cast_zero, mul_zero, map_zero] at hcount
  have hmem : used.get ∈ d.streams used.length (.ok a) := by
    rw [mem_streams, List.ofFn_get]
    exact hused
  exact absurd hcount (Finset.card_pos.mpr ⟨_, hmem⟩).ne'

end even

end Draws

end RizzyVault.Lib
