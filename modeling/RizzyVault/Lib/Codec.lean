import RizzyVault.Lib.Words

/-!
# Parsers that agree with an encoding

A parser over a cursor that knows its offset, and the relation `Agrees p bs x`: whenever `p`
accepts an input that starts with `bs`, it reads exactly `bs` and returns `x`. The relation follows
the structure of a parser, and checks a parser makes on the way never break it, so a strict parser
that accepts an encoding returns what was encoded.

## Main definitions

* `Cursor`, `Parser`, `Parser.take`, `Parser.require`, `Parser.offset`, `Parser.remaining`.
* `Agrees`.
* `beBytes`, `ofBe`: big-endian numbers of a fixed width.

## Main results

* `agrees_pure`, `agrees_bind`, `agrees_require`, `agrees_take`: the rules for `Agrees`.
* `ofBe_beBytes`: a number of the width is read back.
-/

namespace RizzyVault.Lib

/-- The bytes not read yet, and the length of the whole input. -/
structure Cursor (β : Type*) where
  rest : List β
  len : ℕ

/-- A parser with errors. -/
abbrev Parser (β ε : Type) := StateT (Cursor β) (Except ε)

namespace Parser

variable {β ε α γ : Type}

/-- The offset of the next byte. -/
def offset : Parser β ε ℕ := fun cur => .ok (cur.len - cur.rest.length, cur)

/-- The number of bytes not read yet. -/
def remaining : Parser β ε ℕ := fun cur => .ok (cur.rest.length, cur)

/-- The next `n` bytes, or the error. -/
def take (n : ℕ) (error : ε) : Parser β ε (List β) := fun cur =>
  if n ≤ cur.rest.length then .ok (cur.rest.take n, { cur with rest := cur.rest.drop n })
  else .error error

/-- Goes on only if `ok` holds. -/
def require (ok : Bool) (error : ε) : Parser β ε Unit := fun cur =>
  if ok then .ok ((), cur) else .error error

/-- The value, or the error if there is none. -/
def ofOption (o : Option α) (error : ε) : Parser β ε α := fun cur =>
  match o with
  | some x => .ok (x, cur)
  | none => .error error

end Parser

/-- Whenever `p` accepts an input that starts with `bs`, it reads exactly `bs` and returns `x`. -/
def Agrees {β ε α : Type} (p : Parser β ε α) (bs : List β) (x : α) : Prop :=
  ∀ rest len r, p ⟨bs ++ rest, len⟩ = .ok r → r = (x, ⟨rest, len⟩)

variable {β ε α γ : Type} {bs bs' : List β} {x : α} {y : γ}

theorem agrees_pure (x : α) : Agrees (pure x : Parser β ε α) [] x := by
  intro rest len r h
  cases h
  rfl

theorem agrees_bind {p : Parser β ε α} {f : α → Parser β ε γ} (hp : Agrees p bs x)
    (hf : Agrees (f x) bs' y) : Agrees (p >>= f) (bs ++ bs') y := by
  intro rest len r h
  rw [List.append_assoc] at h
  cases hr : p ⟨bs ++ (bs' ++ rest), len⟩ with
  | error e =>
    simp only [bind, StateT.bind, hr, Except.bind] at h
    cases h
  | ok r' =>
    simp only [bind, StateT.bind, hr, Except.bind] at h
    rw [hp _ _ _ hr] at h
    exact hf _ _ _ h

/-- A step that reads nothing and returns `x`. -/
theorem agrees_bind_nil {p : Parser β ε α} {f : α → Parser β ε γ} (hp : Agrees p [] x)
    (hf : Agrees (f x) bs' y) : Agrees (p >>= f) bs' y := by
  have h := agrees_bind hp hf
  rwa [List.nil_append] at h

/-- A step after which nothing is read. -/
theorem agrees_bind_last {p : Parser β ε α} {f : α → Parser β ε γ} (hp : Agrees p bs x)
    (hf : Agrees (f x) [] y) : Agrees (p >>= f) bs y := by
  have h := agrees_bind hp hf
  rwa [List.append_nil] at h

/-- A step whose result does not matter to the rest. -/
theorem agrees_bind_any {p : Parser β ε α} {f : α → Parser β ε γ}
    (hp : ∀ cur r, p cur = .ok r → r.2 = cur) (hf : ∀ x, Agrees (f x) bs y) :
    Agrees (p >>= f) bs y := by
  intro rest len r h
  cases hr : p ⟨bs ++ rest, len⟩ with
  | error e =>
    simp only [bind, StateT.bind, hr, Except.bind] at h
    cases h
  | ok r' =>
    simp only [bind, StateT.bind, hr, Except.bind] at h
    rw [hp _ _ hr] at h
    exact hf _ _ _ _ h

theorem offset_keeps : ∀ (cur : Cursor β) (r : ℕ × Cursor β),
    (Parser.offset : Parser β ε ℕ) cur = .ok r → r.2 = cur := by
  rintro cur r h
  cases h
  rfl

theorem remaining_keeps : ∀ (cur : Cursor β) (r : ℕ × Cursor β),
    (Parser.remaining : Parser β ε ℕ) cur = .ok r → r.2 = cur := by
  rintro cur r h
  cases h
  rfl

theorem agrees_require (ok : Bool) (e : ε) : Agrees (Parser.require ok e : Parser β ε Unit) [] () := by
  intro rest len r h
  unfold Parser.require at h
  split_ifs at h
  · cases h
    rfl

theorem agrees_ofOption (o : Option α) (e : ε) (h : o = some x) :
    Agrees (Parser.ofOption o e : Parser β ε α) [] x := by
  intro rest len r hr
  rw [h] at hr
  cases hr
  rfl

theorem agrees_take (bs : List β) (e : ε) : Agrees (Parser.take bs.length e) bs bs := by
  intro rest len r h
  have hle : bs.length ≤ (bs ++ rest).length := by simp
  simp only [Parser.take, if_pos hle, List.take_left, List.drop_left] at h
  cases h
  rfl

theorem agrees_map {p : Parser β ε α} (f : α → γ) (hp : Agrees p bs x) :
    Agrees (do return f (← p)) bs (f x) :=
  agrees_bind_last hp (agrees_pure (f x))

/-! ### Big-endian numbers -/

/-- The `w` bytes of `n`, the highest first. -/
def beBytes : ℕ → ℕ → List (Fin 256)
  | 0, _ => []
  | w + 1, n => Fin.ofNat 256 (n / 256 ^ w) :: beBytes w n

/-- The number bytes spell. -/
def ofBe (bs : List (Fin 256)) : ℕ := bs.foldl (fun acc b => acc * 256 + b.val) 0

theorem length_beBytes (w n : ℕ) : (beBytes w n).length = w := by
  induction w with
  | zero => rfl
  | succ w ih => simp [beBytes, ih]

theorem foldl_beBytes (w n acc : ℕ) :
    (beBytes w n).foldl (fun acc b => acc * 256 + b.val) acc = acc * 256 ^ w + n % 256 ^ w := by
  induction w generalizing acc with
  | zero => simp [beBytes, Nat.mod_one]
  | succ w ih =>
    have hdiv : n % 256 ^ (w + 1) = n / 256 ^ w % 256 * 256 ^ w + n % 256 ^ w := by
      rw [pow_succ, Nat.mod_mul, add_comm, mul_comm]
    rw [beBytes, List.foldl_cons, ih, hdiv]
    simp only [Fin.val_ofNat]
    ring

/-- A number of the width is read back. -/
theorem ofBe_beBytes {w n : ℕ} (h : n < 256 ^ w) : ofBe (beBytes w n) = n := by
  rw [ofBe, foldl_beBytes, Nat.mod_eq_of_lt h]
  simp

end RizzyVault.Lib
