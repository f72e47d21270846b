import Mathlib

/-!
# Filling batches in turn

A list is cut into consecutive batches: each element joins the current batch unless that one is
full for it, and then opens the next.

## Main definitions

* `addToBatch`, `closeBatches`, `batches`: the cut.

## Main results

* `flatten_batches`: the batches carry the list, in order.
* `forall_mem_batches`: what an element alone has, and joining keeps, every batch has.
* `exists_first_batch`: a beginning for which no batch is full lies in the first batch.
-/

namespace RizzyVault.Lib

variable {α : Type*} {full : List α → α → Bool} {l : List α}

/-- The batches closed so far and the current one, once `a` has joined. -/
def addToBatch (full : List α → α → Bool) (acc : List (List α) × List α) (a : α) :
    List (List α) × List α :=
  if !acc.2.isEmpty && full acc.2 a then (acc.1 ++ [acc.2], [a]) else (acc.1, acc.2 ++ [a])

def closeBatches (acc : List (List α) × List α) : List (List α) :=
  if acc.2.isEmpty then acc.1 else acc.1 ++ [acc.2]

/-- The list cut into batches, each filled while it is not full. -/
def batches (full : List α → α → Bool) (l : List α) : List (List α) :=
  closeBatches (l.foldl (addToBatch full) ([], []))

theorem flatten_closeBatches (acc : List (List α) × List α) :
    (closeBatches acc).flatten = acc.1.flatten ++ acc.2 := by
  unfold closeBatches
  split_ifs with h
  · rw [List.isEmpty_iff.mp h, List.append_nil]
  · rw [List.flatten_append, List.flatten_singleton]

theorem flatten_addToBatch (acc : List (List α) × List α) (a : α) :
    (addToBatch full acc a).1.flatten ++ (addToBatch full acc a).2 =
      (acc.1.flatten ++ acc.2) ++ [a] := by
  unfold addToBatch
  split_ifs
  · rw [List.flatten_append, List.flatten_singleton]
  · exact (List.append_assoc _ _ _).symm

/-- The batches carry the list, in order. -/
theorem flatten_batches : (batches full l).flatten = l := by
  have h : ∀ (todo : List α) (acc : List (List α) × List α),
      (todo.foldl (addToBatch full) acc).1.flatten ++ (todo.foldl (addToBatch full) acc).2 =
        (acc.1.flatten ++ acc.2) ++ todo := by
    intro todo
    induction todo with
    | nil => exact fun acc => (List.append_nil _).symm
    | cons a todo ih =>
      intro acc
      rw [List.foldl_cons, ih, flatten_addToBatch, List.append_assoc, List.singleton_append]
  rw [batches, flatten_closeBatches, h]
  rfl

/-- What an element alone has, and a batch that is not full keeps when an element joins, every
batch has; and none is empty. -/
theorem forall_mem_batches {P : List α → Prop} (hone : ∀ a ∈ l, P [a])
    (hjoin : ∀ b, ∀ a ∈ l, P b → full b a = false → P (b ++ [a])) :
    ∀ b ∈ batches full l, b ≠ [] ∧ P b := by
  have h : ∀ (todo : List α) (acc : List (List α) × List α), todo ⊆ l →
      (∀ b ∈ closeBatches acc, b ≠ [] ∧ P b) →
        ∀ b ∈ closeBatches (todo.foldl (addToBatch full) acc), b ≠ [] ∧ P b := by
    intro todo
    induction todo with
    | nil => exact fun acc _ h => h
    | cons a todo ih =>
      rintro ⟨done, current⟩ hsub hacc
      obtain ⟨ha, hsub⟩ := List.cons_subset.mp hsub
      refine ih _ hsub ?_
      cases current with
      | nil =>
        have hstep : addToBatch full (done, []) a = (done, [a]) := rfl
        rw [hstep]
        intro b hb
        rcases List.mem_append.mp hb with hb | hb
        · exact hacc b hb
        · rw [List.mem_singleton.mp hb]
          exact ⟨List.cons_ne_nil _ _, hone a ha⟩
      | cons c current =>
        have hcurrent := hacc (c :: current) (List.mem_append_right _ List.mem_cons_self)
        intro b hb
        unfold addToBatch at hb
        split_ifs at hb with hfull
        · rcases List.mem_append.mp hb with hb | hb
          · exact hacc b hb
          · rw [List.mem_singleton.mp hb]
            exact ⟨List.cons_ne_nil _ _, hone a ha⟩
        · rcases List.mem_append.mp hb with hb | hb
          · exact hacc b (List.mem_append_left _ hb)
          · rw [List.mem_singleton.mp hb]
            exact ⟨List.cons_ne_nil _ _, hjoin _ a ha hcurrent.2 (by simpa using hfull)⟩
  exact h l ([], []) (List.Subset.refl l) fun b hb => absurd hb List.not_mem_nil

/-- The first batch only grows. -/
theorem exists_head_of_foldl {todo : List α} {acc : List (List α) × List α} {b : List α}
    (h : ∃ c rest, closeBatches acc = c :: rest ∧ b <+: c) :
    ∃ c rest, closeBatches (todo.foldl (addToBatch full) acc) = c :: rest ∧ b <+: c := by
  induction todo generalizing acc with
  | nil => exact h
  | cons a todo ih =>
    refine ih ?_
    obtain ⟨done, current⟩ := acc
    obtain ⟨c, rest, hc, hprefix⟩ := h
    unfold addToBatch
    cases done with
    | cons d done =>
      have hd : d = c := by
        unfold closeBatches at hc
        split_ifs at hc
        · exact (List.cons.inj hc).1
        · exact (List.cons.inj hc).1
      subst hd
      split_ifs
      · exact ⟨d, _, rfl, hprefix⟩
      · unfold closeBatches
        split_ifs
        · exact ⟨d, _, rfl, hprefix⟩
        · exact ⟨d, _, rfl, hprefix⟩
    | nil =>
      cases current with
      | nil => cases hc
      | cons x current =>
        obtain rfl : x :: current = c := (List.cons.inj hc).1
        split_ifs
        · exact ⟨_, _, rfl, hprefix⟩
        · exact ⟨_, _, rfl, hprefix.trans (List.prefix_append _ _)⟩

/-- A beginning for which no batch is full lies in the first batch. -/
theorem exists_first_batch {front rest : List α} (hne : front ≠ [])
    (hfull : ∀ b a, b ++ [a] <+: front → full b a = false) :
    ∃ first others, batches full (front ++ rest) = first :: others ∧ front <+: first := by
  have h : ∀ (done todo : List α), done ++ todo = front →
      todo.foldl (addToBatch full) ([], done) = ([], front) := by
    intro done todo
    induction todo generalizing done with
    | nil =>
      intro heq
      rw [List.foldl_nil, ← heq, List.append_nil]
    | cons a todo ih =>
      intro heq
      have hnot : full done a = false :=
        hfull done a ⟨todo, by rw [List.append_assoc, List.singleton_append, heq]⟩
      have hstep : addToBatch full ([], done) a = ([], done ++ [a]) := by
        rw [addToBatch, hnot, Bool.and_false]
        rfl
      rw [List.foldl_cons, hstep]
      exact ih (done ++ [a]) (by rw [List.append_assoc, List.singleton_append, heq])
  rw [batches, List.foldl_append, h [] front rfl]
  refine exists_head_of_foldl ⟨front, [], ?_, List.prefix_refl front⟩
  cases front with
  | nil => exact absurd rfl hne
  | cons a front => rfl

end RizzyVault.Lib
