import RizzyVault.Lib.Codec

/-!
# Parsers that accept exactly a grammar

A production is a relation between byte strings and values. `Parses tail p R` says that `p` accepts
an input exactly when the input starts with a string that `R` relates to the value returned, and
leaves the rest of it, which lies in `tail`. Both directions follow the structure of the parser. A
check of the remaining length against a lower bound of the production is invisible: it refuses only
what the production refuses.

## Main definitions

* `Parses`.
* `Ascends`: a list in ascending order from above a bound.

## Main results

* `parses_bind`, `parses_require`, `parses_take`, `parses_ofOption`: the rules for `Parses`.
* `parses_remaining`: an early length check changes nothing.
* `parses_then`, `parses_mapError`: after an exact production, and with other errors.
* `parses_mapM`, `parses_mapM_zipIdx`, `parses_mapM_same`: a parser for every element of a list.
* `parses_loop`: a loop that checks the order of its elements.
* `Parses.run_eq_ok_iff`: a parser of a whole input.
* `Parses.unique`, `Parses.flatMap_injective`: what a layout determines.
* `beBytes_ofBe`: bytes are the digits of the number they spell.
-/

namespace RizzyVault.Lib

variable {β ε α γ : Type} {R R' : List β → α → Prop} {tail : Set (List β)}

/-- `p` accepts exactly the inputs that start with a string of the production `R` and go on with a
rest in `tail`, and it reads that string. -/
def Parses (tail : Set (List β)) (p : Parser β ε α) (R : List β → α → Prop) : Prop :=
  ∀ input len x cur, p ⟨input, len⟩ = .ok (x, cur) ↔
    ∃ bs, R bs x ∧ input = bs ++ cur.rest ∧ cur.len = len ∧ cur.rest ∈ tail

theorem Parses.congr {p : Parser β ε α} (hp : Parses tail p R) (h : ∀ bs x, R bs x ↔ R' bs x) :
    Parses tail p R' := by
  intro input len x cur
  rw [hp input len x cur]
  simp only [h]

theorem parser_bind_ok {p : Parser β ε α} {f : α → Parser β ε γ} {cur : Cursor β}
    {r : γ × Cursor β} :
    (p >>= f) cur = .ok r ↔ ∃ x cur', p cur = .ok (x, cur') ∧ f x cur' = .ok r := by
  cases hp : p cur with
  | error e => simp [bind, StateT.bind, hp, Except.bind]
  | ok r' =>
    obtain ⟨x, cur'⟩ := r'
    simp [bind, StateT.bind, hp, Except.bind]

theorem parses_pure (x : α) :
    Parses Set.univ (pure x : Parser β ε α) fun bs y => bs = [] ∧ y = x := by
  intro input len y cur
  constructor
  · intro h
    cases h
    exact ⟨[], ⟨rfl, rfl⟩, rfl, rfl, trivial⟩
  · rintro ⟨bs, ⟨rfl, rfl⟩, rfl, rfl, -⟩
    rfl

theorem parses_throw (e : ε) : Parses tail (throw e : Parser β ε α) fun _ _ => False := by
  intro input len y cur
  constructor
  · intro h
    cases h
  · rintro ⟨bs, hF, -⟩
    exact hF.elim

/-- One production after another; the second may use what the first one established. -/
theorem parses_bind_of {p : Parser β ε α} {f : α → Parser β ε γ} {S : α → List β → γ → Prop}
    (hp : Parses Set.univ p R) (hf : ∀ b x, R b x → Parses tail (f x) (S x)) :
    Parses tail (p >>= f) fun bs y => ∃ b₁ b₂ x, R b₁ x ∧ S x b₂ y ∧ bs = b₁ ++ b₂ := by
  intro input len y cur
  rw [parser_bind_ok]
  constructor
  · rintro ⟨x, ⟨rest, len'⟩, hx, hy⟩
    obtain ⟨b₁, hR, rfl, rfl, -⟩ := (hp _ _ _ _).mp hx
    obtain ⟨b₂, hS, hrest, hlen, ht⟩ := (hf b₁ x hR _ _ _ _).mp hy
    refine ⟨b₁ ++ b₂, ⟨b₁, b₂, x, hR, hS, rfl⟩, ?_, hlen, ht⟩
    rw [hrest, List.append_assoc]
  · rintro ⟨bs, ⟨b₁, b₂, x, hR, hS, rfl⟩, rfl, hlen, ht⟩
    refine ⟨x, ⟨b₂ ++ cur.rest, len⟩, (hp _ _ _ _).mpr ?_, (hf b₁ x hR _ _ _ _).mpr ?_⟩
    · exact ⟨b₁, hR, List.append_assoc _ _ _, rfl, trivial⟩
    · exact ⟨b₂, hS, rfl, hlen, ht⟩

/-- One production after another. -/
theorem parses_bind {p : Parser β ε α} {f : α → Parser β ε γ} {S : α → List β → γ → Prop}
    (hp : Parses Set.univ p R) (hf : ∀ x, Parses tail (f x) (S x)) :
    Parses tail (p >>= f) fun bs y => ∃ b₁ b₂ x, R b₁ x ∧ S x b₂ y ∧ bs = b₁ ++ b₂ :=
  parses_bind_of hp fun _ x _ => hf x

/-- One production after one whose bytes its value determines. -/
theorem parses_then {p : Parser β ε α} {f : α → Parser β ε γ} {put : α → List β}
    {S : α → List β → γ → Prop} (hp : Parses Set.univ p fun bs x => bs = put x)
    (hf : ∀ x, Parses tail (f x) (S x)) :
    Parses tail (p >>= f) fun bs y => ∃ x b, S x b y ∧ bs = put x ++ b := by
  refine (parses_bind hp hf).congr fun bs y => ?_
  constructor
  · rintro ⟨_, b, x, rfl, hS, rfl⟩
    exact ⟨x, b, hS, rfl⟩
  · rintro ⟨x, b, hS, rfl⟩
    exact ⟨_, b, x, rfl, hS, rfl⟩

/-- The same parser with other errors. -/
def Parser.mapError {ε' : Type} (g : ε → ε') (p : Parser β ε α) : Parser β ε' α :=
  fun cur => (p cur).mapError g

theorem parses_mapError {ε' : Type} {p : Parser β ε α} (g : ε → ε') (hp : Parses tail p R) :
    Parses tail (p.mapError g) R := by
  intro input len x cur
  rw [← hp input len x cur, Parser.mapError]
  cases p ⟨input, len⟩ with
  | error e => simp [Except.mapError]
  | ok r => simp [Except.mapError]

theorem parses_map {p : Parser β ε α} (g : α → γ) (hp : Parses tail p R) :
    Parses tail (do return g (← p)) fun bs y => ∃ x, R bs x ∧ y = g x := by
  intro input len y cur
  rw [parser_bind_ok]
  constructor
  · rintro ⟨x, cur', hx, hy⟩
    cases hy
    obtain ⟨bs, hR, h⟩ := (hp _ _ _ _).mp hx
    exact ⟨bs, ⟨x, hR, rfl⟩, h⟩
  · rintro ⟨bs, ⟨x, hR, rfl⟩, h⟩
    exact ⟨x, cur, (hp _ _ _ _).mpr ⟨bs, hR, h⟩, rfl⟩

/-- Knowing the offset changes nothing. -/
theorem parses_offset {f : ℕ → Parser β ε α} (hf : ∀ n, Parses tail (f n) R) :
    Parses tail (Parser.offset >>= f) R := by
  intro input len x cur
  rw [parser_bind_ok]
  constructor
  · rintro ⟨n, cur', hn, hx⟩
    cases hn
    exact (hf _ _ _ _ _).mp hx
  · intro h
    exact ⟨_, _, rfl, (hf _ _ _ _ _).mpr h⟩

theorem parses_remaining_any {f : ℕ → Parser β ε α} (hf : ∀ n, Parses tail (f n) R) :
    Parses tail (Parser.remaining >>= f) R := by
  intro input len x cur
  rw [parser_bind_ok]
  constructor
  · rintro ⟨n, cur', hn, hx⟩
    cases hn
    exact (hf _ _ _ _ _).mp hx
  · intro h
    exact ⟨_, _, rfl, (hf _ _ _ _ _).mpr h⟩

theorem parses_require {ok : Bool} {e : ε} {f : Unit → Parser β ε α} (hf : Parses tail (f ()) R) :
    Parses tail (Parser.require ok e >>= f) fun bs x => ok = true ∧ R bs x := by
  intro input len x cur
  rw [parser_bind_ok]
  constructor
  · rintro ⟨u, cur', hu, hx⟩
    cases hok : ok with
    | false =>
      rw [hok] at hu
      cases hu
    | true =>
      rw [hok] at hu
      cases hu
      obtain ⟨bs, hR, h⟩ := (hf _ _ _ _).mp hx
      exact ⟨bs, ⟨rfl, hR⟩, h⟩
  · rintro ⟨bs, ⟨rfl, hR⟩, h⟩
    exact ⟨(), _, rfl, (hf _ _ _ _).mpr ⟨bs, hR, h⟩⟩

theorem parses_check (ok : Bool) (e : ε) :
    Parses Set.univ (Parser.require ok e : Parser β ε Unit) fun bs _ => ok = true ∧ bs = [] := by
  intro input len x cur
  unfold Parser.require
  split_ifs with hok
  · constructor
    · intro h
      cases h
      exact ⟨[], ⟨hok, rfl⟩, rfl, rfl, trivial⟩
    · rintro ⟨bs, ⟨-, rfl⟩, rfl, rfl, -⟩
      rfl
  · constructor
    · intro h
      cases h
    · rintro ⟨bs, ⟨h, -⟩, -⟩
      exact absurd h hok

theorem parses_ofOption {o : Option γ} {e : ε} {f : γ → Parser β ε α}
    {S : γ → List β → α → Prop} (hf : ∀ y, Parses tail (f y) (S y)) :
    Parses tail (Parser.ofOption o e >>= f) fun bs x => ∃ y, o = some y ∧ S y bs x := by
  intro input len x cur
  rw [parser_bind_ok]
  cases o with
  | none =>
    constructor
    · rintro ⟨y, cur', hy, -⟩
      cases hy
    · rintro ⟨bs, ⟨y, hy, -⟩, -⟩
      cases hy
  | some y =>
    constructor
    · rintro ⟨y', cur', hy, hx⟩
      cases hy
      obtain ⟨bs, hS, h⟩ := (hf y _ _ _ _).mp hx
      exact ⟨bs, ⟨y, rfl, hS⟩, h⟩
    · rintro ⟨bs, ⟨y', hy, hS⟩, h⟩
      cases hy
      exact ⟨y, _, rfl, (hf y _ _ _ _).mpr ⟨bs, hS, h⟩⟩

theorem parses_take (n : ℕ) (e : ε) :
    Parses Set.univ (Parser.take n e : Parser β ε (List β)) fun bs x => bs.length = n ∧ x = bs := by
  intro input len x cur
  unfold Parser.take
  split_ifs with hn
  · constructor
    · intro h
      cases h
      exact ⟨input.take n, ⟨List.length_take_of_le hn, rfl⟩, (List.take_append_drop n input).symm,
        rfl, trivial⟩
    · rintro ⟨bs, ⟨rfl, rfl⟩, rfl, rfl, -⟩
      simp
  · constructor
    · intro h
      cases h
    · rintro ⟨bs, ⟨rfl, rfl⟩, rfl, -⟩
      simp at hn

/-- An early check that `k` bytes remain refuses nothing if the production is at least that long. -/
theorem parses_remaining {k : ℕ} {e : ε} {f : Unit → Parser β ε α} (hf : Parses tail (f ()) R)
    (hk : ∀ bs x, R bs x → k ≤ bs.length) :
    Parses tail (Parser.remaining >>= fun remaining =>
      Parser.require (decide (k ≤ remaining)) e >>= f) R := by
  intro input len x cur
  rw [parser_bind_ok]
  constructor
  · rintro ⟨n, cur', hn, hx⟩
    cases hn
    obtain ⟨bs, ⟨-, hR⟩, h⟩ := (parses_require hf _ _ _ _).mp hx
    exact ⟨bs, hR, h⟩
  · rintro ⟨bs, hR, hin, h⟩
    refine ⟨_, _, rfl, (parses_require hf _ _ _ _).mpr ⟨bs, ⟨?_, hR⟩, hin, h⟩⟩
    have hle := hk bs x hR
    simp only [decide_eq_true_eq, hin, List.length_append]
    omega

/-- Nothing may follow. -/
theorem parses_end (x : α) (e : ε) :
    Parses {[]} (Parser.remaining >>= fun remaining =>
      Parser.require (decide (remaining = 0)) e >>= fun _ => (pure x : Parser β ε α))
      fun bs y => bs = [] ∧ y = x := by
  intro input len y cur
  rw [parser_bind_ok]
  constructor
  · rintro ⟨n, cur', hn, hx⟩
    cases hn
    obtain ⟨bs, ⟨hempty, rfl, rfl⟩, rfl, rfl, -⟩ := (parses_require (parses_pure x) _ _ _ _).mp hx
    exact ⟨[], ⟨rfl, rfl⟩, rfl, rfl, List.length_eq_zero_iff.mp (of_decide_eq_true hempty)⟩
  · rintro ⟨bs, ⟨rfl, rfl⟩, rfl, rfl, hnil⟩
    obtain ⟨rest, len⟩ := cur
    cases hnil
    exact ⟨_, _, rfl, rfl⟩

/-- A check of the number of bytes up to the end. -/
theorem parses_remaining_end {c : ℕ → Bool} {e : ε} {f : Unit → Parser β ε α}
    (hf : Parses {[]} (f ()) R) :
    Parses {[]} (Parser.remaining >>= fun r => Parser.require (c r) e >>= f) fun bs x =>
      c bs.length = true ∧ R bs x := by
  intro input len x cur
  rw [parser_bind_ok]
  constructor
  · rintro ⟨n, cur', hn, hx⟩
    cases hn
    obtain ⟨bs, ⟨hc, hR⟩, hin, hlen, htail⟩ := (parses_require hf _ _ _ _).mp hx
    rw [hin, Set.mem_singleton_iff.mp htail, List.append_nil] at hc
    exact ⟨bs, ⟨hc, hR⟩, hin, hlen, htail⟩
  · rintro ⟨bs, ⟨hc, hR⟩, hin, hlen, htail⟩
    refine ⟨_, _, rfl, (parses_require hf _ _ _ _).mpr ⟨bs, ⟨?_, hR⟩, hin, hlen, htail⟩⟩
    rwa [hin, Set.mem_singleton_iff.mp htail, List.append_nil]

/-- A parser of a whole input. -/
theorem Parses.run_eq_ok_iff {p : Parser β ε α} (hp : Parses {[]} p R) (input : List β) (x : α) :
    (p ⟨input, input.length⟩).map Prod.fst = .ok x ↔ R input x := by
  constructor
  · intro hx
    cases hr : p ⟨input, input.length⟩ with
    | error e =>
      rw [hr] at hx
      cases hx
    | ok r =>
      rw [hr] at hx
      obtain ⟨x', cur⟩ := r
      cases hx
      obtain ⟨bs, hR, hin, -, hnil⟩ := (hp _ _ _ _).mp hr
      rw [Set.mem_singleton_iff.mp hnil, List.append_nil] at hin
      rwa [hin]
  · intro hR
    have h := (hp input input.length x ⟨[], input.length⟩).mpr
      ⟨input, hR, (List.append_nil _).symm, rfl, rfl⟩
    rw [h]
    rfl

/-- What a production determines: the value and the rest. -/
theorem Parses.unique {p : Parser β ε α} (hp : Parses Set.univ p R) {b b' r r' : List β} {x x' : α} (h : R b x) (h' : R b' x')
    (heq : b ++ r = b' ++ r') : x = x' ∧ r = r' := by
  have hx := (hp (b ++ r) 0 x ⟨r, 0⟩).mpr ⟨b, h, rfl, rfl, trivial⟩
  have hx' := (hp (b' ++ r') 0 x' ⟨r', 0⟩).mpr ⟨b', h', rfl, rfl, trivial⟩
  rw [heq, hx'] at hx
  injection hx with hx
  injection hx with hx hcur
  injection hcur with hr
  exact ⟨hx.symm, hr.symm⟩

/-- Lists of one length whose elements are productions are determined by their layout. -/
theorem Parses.flatMap_injective {p : Parser β ε α} {Q : α → Prop}
    {put : α → List β} (hp : Parses Set.univ p fun bs x => Q x ∧ bs = put x) {l l' : List α}
    (hlen : l.length = l'.length) (hl : ∀ x ∈ l, Q x) (hl' : ∀ x ∈ l', Q x)
    (heq : l.flatMap put = l'.flatMap put) : l = l' := by
  induction l generalizing l' with
  | nil => exact (List.length_eq_zero_iff.mp hlen.symm).symm
  | cons x l ih =>
    obtain ⟨x', l', rfl⟩ := List.exists_cons_of_length_eq_add_one hlen.symm
    obtain ⟨hx, hxs⟩ := List.forall_mem_cons.mp hl
    obtain ⟨hx', hxs'⟩ := List.forall_mem_cons.mp hl'
    obtain ⟨rfl, hrest⟩ := Parses.unique hp ⟨hx, rfl⟩ ⟨hx', rfl⟩ heq
    rw [ih (Nat.succ.inj hlen) hxs hxs' hrest]

theorem option_all_iff {q : α → Prop} [DecidablePred q] {o : Option α} :
    (o.all fun x => q x) = true ↔ ∀ x ∈ o, q x := by
  cases o <;> simp

/-- A parser for every element of a list. The rule `Q` of an element and its bytes depend on its
`key` only. -/
theorem parses_mapM {σ τ : Type} (key : σ → τ) {step : σ → Parser β ε α} {Q : τ → α → Prop}
    {put : τ → α → List β} {l : List σ}
    (hstep : ∀ s ∈ l, Parses Set.univ (step s) fun bs x => Q (key s) x ∧ bs = put (key s) x) :
    Parses Set.univ (l.mapM step) fun bs xs =>
      List.Forall₂ Q (l.map key) xs ∧ bs = (List.zipWith put (l.map key) xs).flatten := by
  induction l with
  | nil =>
    rw [List.mapM_nil]
    refine (parses_pure []).congr fun bs xs => ?_
    simp only [List.map_nil, List.forall₂_nil_left_iff]
    constructor
    · rintro ⟨rfl, rfl⟩
      exact ⟨rfl, rfl⟩
    · rintro ⟨rfl, rfl⟩
      exact ⟨rfl, rfl⟩
  | cons s l ih =>
    obtain ⟨hs, hl⟩ := List.forall_mem_cons.mp hstep
    rw [List.mapM_cons]
    refine (parses_bind hs fun x => parses_map (fun xs => x :: xs) (ih hl)).congr fun bs ys => ?_
    constructor
    · rintro ⟨_, _, x, ⟨hQ, rfl⟩, ⟨xs, ⟨hall, rfl⟩, rfl⟩, rfl⟩
      exact ⟨.cons hQ hall, rfl⟩
    · rintro ⟨hall, rfl⟩
      obtain ⟨x, xs, hQ, hxs, rfl⟩ := List.forall₂_cons_left_iff.mp hall
      exact ⟨_, _, x, ⟨hQ, rfl⟩, ⟨xs, ⟨hxs, rfl⟩, rfl⟩, rfl⟩

/-- A parser for every element of a list, which may use the element's position. -/
theorem parses_mapM_zipIdx {σ : Type} {step : σ × ℕ → Parser β ε α} {Q : σ → α → Prop}
    {put : σ → α → List β} {l : List σ}
    (hstep : ∀ s ∈ l, ∀ i, Parses Set.univ (step (s, i)) fun bs x => Q s x ∧ bs = put s x) :
    Parses Set.univ (l.zipIdx.mapM step) fun bs xs =>
      List.Forall₂ Q l xs ∧ bs = (List.zipWith put l xs).flatten := by
  have hfst : l.zipIdx.map Prod.fst = l := List.zipIdx_map_fst 0 l
  have h := parses_mapM Prod.fst (l := l.zipIdx) fun s hs =>
    hstep s.1 (List.mem_of_getElem? (List.mem_zipIdx_iff_getElem?.mp hs)) s.2
  rwa [hfst] at h

theorem zipWith_flatten_right {τ : Type} {Q : τ → α → Prop} {l : List τ} {xs : List α}
    (h : List.Forall₂ Q l xs) (put : α → List β) :
    (List.zipWith (fun _ x => put x) l xs).flatten = xs.flatMap put := by
  induction h with
  | nil => rfl
  | cons _ _ ih => rw [List.zipWith_cons_cons, List.flatten_cons, List.flatMap_cons, ih]

theorem zipWith_flatten_left {τ : Type} {Q : τ → α → Prop} {l : List τ} {xs : List α}
    (h : List.Forall₂ Q l xs) (put : τ → List β) :
    (List.zipWith (fun s _ => put s) l xs).flatten = l.flatMap put := by
  induction h with
  | nil => rfl
  | cons _ _ ih => rw [List.zipWith_cons_cons, List.flatten_cons, List.flatMap_cons, ih]

theorem forall₂_const_iff {τ : Type} {Q : α → Prop} {l : List τ} {xs : List α} :
    List.Forall₂ (fun _ => Q) l xs ↔ xs.length = l.length ∧ ∀ x ∈ xs, Q x := by
  rw [List.forall₂_iff_get, eq_comm]
  refine and_congr_right fun hlen => ?_
  constructor
  · intro h x hx
    obtain ⟨i, rfl⟩ := List.mem_iff_get.mp hx
    exact h i (by omega) i.isLt
  · intro h i _ hi
    exact h _ (List.get_mem xs ⟨i, hi⟩)

/-- A parser run once for every element of a list, whatever the element. -/
theorem parses_mapM_same {σ : Type} {step : σ → Parser β ε α} {Q : α → Prop} {put : α → List β}
    {l : List σ} (hstep : ∀ s ∈ l, Parses Set.univ (step s) fun bs x => Q x ∧ bs = put x) :
    Parses Set.univ (l.mapM step) fun bs xs =>
      xs.length = l.length ∧ (∀ x ∈ xs, Q x) ∧ bs = xs.flatMap put := by
  refine (parses_mapM (fun s : σ => s) hstep).congr fun bs xs => ?_
  rw [List.map_id', ← and_assoc, ← forall₂_const_iff]
  refine and_congr_right fun hall => ?_
  rw [zipWith_flatten_right hall]

/-! ### Lists read in order -/

section Loop

variable {κ : Type} {lt : κ → κ → Prop} {key : α → κ} {previous : Option κ}

/-- The list ascends by `key`, from above `previous`. -/
def Ascends (lt : κ → κ → Prop) (key : α → κ) (previous : Option κ) (l : List α) : Prop :=
  (∀ p ∈ previous, ∀ x ∈ l, lt p (key x)) ∧ l.Pairwise fun a b => lt (key a) (key b)

theorem ascends_nil : Ascends lt key previous [] := by
  simp [Ascends]

theorem ascends_none {l : List α} :
    Ascends lt key none l ↔ l.Pairwise fun a b => lt (key a) (key b) := by
  simp [Ascends]

theorem ascends_cons [IsTrans κ lt] {x : α} {l : List α} :
    Ascends lt key previous (x :: l) ↔
      (∀ p ∈ previous, lt p (key x)) ∧ Ascends lt key (some (key x)) l := by
  unfold Ascends
  rw [List.pairwise_cons]
  constructor
  · rintro ⟨hp, hx, hl⟩
    refine ⟨fun p hp' => hp p hp' x List.mem_cons_self, fun p hp' y hy => ?_, hl⟩
    cases hp'
    exact hx y hy
  · rintro ⟨hp, hx, hl⟩
    refine ⟨fun p hp' y hy => ?_, hx _ rfl, hl⟩
    rcases List.mem_cons.mp hy with rfl | hy
    · exact hp p hp'
    · exact IsTrans.trans _ _ _ (hp p hp') (hx _ rfl y hy)

/-- A loop that reads `n` elements, each above the one before, reads an ascending list. A rule `Q`
concerns every element and a rule `H` only the first. -/
theorem parses_loop (lt : κ → κ → Prop) [IsTrans κ lt] (key : α → κ)
    (loop : ℕ → Option κ → Parser β ε (List α)) (step : Option κ → Parser β ε α)
    {put : α → List β} {Q H : α → Prop}
    (hzero : ∀ previous, loop 0 previous = pure [])
    (hsucc : ∀ n previous, loop (n + 1) previous =
      step previous >>= fun x => do return x :: (← loop n (some (key x))))
    (hstep : ∀ previous, Parses Set.univ (step previous) fun bs x =>
      (∀ p ∈ previous, lt p (key x)) ∧ Q x ∧ (previous = none → H x) ∧ bs = put x)
    (n : ℕ) (previous : Option κ) :
    Parses Set.univ (loop n previous) fun bs l =>
      l.length = n ∧ Ascends lt key previous l ∧ (∀ x ∈ l, Q x) ∧
        (previous = none → ∀ x ∈ l.head?, H x) ∧ bs = l.flatMap put := by
  induction n generalizing previous with
  | zero =>
    rw [hzero]
    refine (parses_pure []).congr fun bs l => ?_
    constructor
    · rintro ⟨rfl, rfl⟩
      exact ⟨rfl, ascends_nil, by simp, by simp, rfl⟩
    · rintro ⟨hl, -, -, -, rfl⟩
      rw [List.length_eq_zero_iff.mp hl]
      exact ⟨rfl, rfl⟩
  | succ n ih =>
    rw [hsucc]
    refine (parses_bind (hstep previous) fun x =>
      parses_map (fun l => x :: l) (ih (some (key x)))).congr fun bs l => ?_
    constructor
    · rintro ⟨_, _, x, ⟨hprev, hQ, hH, rfl⟩, ⟨l, ⟨rfl, hl, hQl, -, rfl⟩, rfl⟩, rfl⟩
      refine ⟨rfl, ascends_cons.mpr ⟨hprev, hl⟩, ?_, ?_, rfl⟩
      · exact List.forall_mem_cons.mpr ⟨hQ, hQl⟩
      · rintro hnone y hy
        cases hy
        exact hH hnone
    · rintro ⟨hlen, hl, hQ, hH, rfl⟩
      obtain ⟨x, l, rfl⟩ := List.exists_cons_of_length_eq_add_one hlen
      obtain ⟨hprev, hl⟩ := ascends_cons.mp hl
      obtain ⟨hQx, hQl⟩ := List.forall_mem_cons.mp hQ
      exact ⟨put x, l.flatMap put, x, ⟨hprev, hQx, fun h => hH h x rfl, rfl⟩,
        ⟨l, ⟨Nat.succ.inj hlen, hl, hQl, by simp, rfl⟩, rfl⟩, rfl⟩

end Loop

/-! ### Big-endian numbers -/

theorem ofBe_lt (bs : List (Fin 256)) : ofBe bs < 256 ^ bs.length := by
  have key : ∀ (l : List (Fin 256)) (acc : ℕ),
      l.foldl (fun acc b => acc * 256 + b.val) acc < (acc + 1) * 256 ^ l.length := by
    intro l
    induction l with
    | nil => simp
    | cons b l ih =>
      intro acc
      have hb : acc * 256 + b.val + 1 ≤ (acc + 1) * 256 := by omega
      calc (b :: l).foldl (fun acc b => acc * 256 + b.val) acc
          < (acc * 256 + b.val + 1) * 256 ^ l.length := ih _
        _ ≤ (acc + 1) * 256 * 256 ^ l.length := Nat.mul_le_mul_right _ hb
        _ = (acc + 1) * 256 ^ (b :: l).length := by rw [List.length_cons, pow_succ]; ring
  simpa [ofBe] using key bs 0

theorem foldl_be_eq (bs : List (Fin 256)) (acc : ℕ) :
    bs.foldl (fun acc b => acc * 256 + b.val) acc = acc * 256 ^ bs.length + ofBe bs := by
  induction bs generalizing acc with
  | nil => simp [ofBe]
  | cons b bs ih =>
    rw [ofBe, List.foldl_cons, List.foldl_cons, ih, ih (0 * 256 + b.val), List.length_cons,
      pow_succ]
    ring

theorem beBytes_add_mul (w n k : ℕ) : beBytes w (n + k * 256 ^ w) = beBytes w n := by
  induction w generalizing k with
  | zero => rfl
  | succ w ih =>
    have hpow : k * 256 ^ (w + 1) = (k * 256) * 256 ^ w := by ring
    rw [beBytes, beBytes, hpow, ih, Nat.add_mul_div_right _ _ (by positivity)]
    congr 1
    apply Fin.ext
    simp [Nat.add_mul_mod_self_right]

/-- Bytes are the digits of the number they spell. -/
theorem beBytes_ofBe (bs : List (Fin 256)) : beBytes bs.length (ofBe bs) = bs := by
  induction bs with
  | nil => rfl
  | cons b bs ih =>
    have hval : ofBe (b :: bs) = ofBe bs + b.val * 256 ^ bs.length := by
      rw [ofBe, List.foldl_cons, foldl_be_eq]
      ring
    rw [List.length_cons, beBytes, hval, beBytes_add_mul, ih,
      Nat.add_mul_div_right _ _ (by positivity), Nat.div_eq_of_lt (ofBe_lt bs)]
    simp

end RizzyVault.Lib
