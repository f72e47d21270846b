import Mathlib
import RizzyVault.Auth.Rules
import RizzyVault.Lib.Result

/-!
# Rate limits

A bucket counts the attempts of a window. Past the allowed number each attempt sets a backoff that
doubles up to a cap; a quiet window restarts the count. Against the stored row stands the list of
the times counted since the last restart, which determines it.

## Main definitions

* `RateRule`, `RateRule.step`, `hit`: one attempt against a stored row.
* `attempts`: the row and the counted times after a sequence of attempts.
* `Counts`: the row says what the counted times are.

## Main results

* `Counts.attempt`: one attempt keeps the row true to the counted times.
* `hit_expired`: from its expiry on, a row and no row answer alike.
* `rate_limit_delays`: refusals, gaps, restarts and expiry, over every run.

## References

* `crates/rizzy-domain-auth/src/ratelimit.rs`, `crates/rizzy-domain-auth/src/config.rs`.
-/

namespace RizzyVault.Auth

def u64Max : ℕ := 2 ^ 64 - 1

def i64Max : ℕ := 2 ^ 63 - 1

def saturatingAdd (a b : ℕ) : ℕ := min (a + b) u64Max

def saturatingMul (a b : ℕ) : ℕ := min (a * b) u64Max

/-- How many attempts a window allows, how long it is, and the first and the longest backoff. -/
structure RateRule where
  maxAttempts : ℕ
  windowMs : ℕ
  backoffBaseMs : ℕ
  backoffMaxMs : ℕ
  maxAttempts_lt : maxAttempts < 2 ^ 32
  windowMs_le : windowMs ≤ u64Max
  backoffBaseMs_le : backoffBaseMs ≤ u64Max
  backoffMaxMs_le : backoffMaxMs ≤ u64Max

/-- The counters of one bucket: attempts in the current window, when it started, and until when
attempts are refused. -/
structure Counters where
  attempts : ℕ
  windowStartedAtMs : ℕ
  blockedUntilMs : ℕ
  deriving DecidableEq

/-- The backoff of the attempt that is `excess` past the allowed ones. -/
def RateRule.delay (rule : RateRule) (excess : ℕ) : ℕ :=
  let shift := min (min (excess - 1) (2 ^ 32 - 1)) 40
  min (saturatingMul rule.backoffBaseMs (2 ^ shift)) rule.backoffMaxMs

/-- Counts one attempt, and sets its backoff. -/
def RateRule.count (rule : RateRule) (c : Counters) (nowMs : ℕ) : Counters :=
  let attempts := saturatingAdd c.attempts 1
  let excess := attempts - rule.maxAttempts
  if 0 < excess then
    { c with attempts, blockedUntilMs := saturatingAdd nowMs (rule.delay excess) }
  else { c with attempts }

/-- The counters after counting an attempt, or how much of the backoff remains. -/
def RateRule.step (rule : RateRule) (current : Option Counters) (nowMs : ℕ) : Except ℕ Counters :=
  let c := current.getD ⟨0, nowMs, 0⟩
  if nowMs < c.blockedUntilMs then .error (c.blockedUntilMs - nowMs)
  -- The subtraction saturates in the source too.
  else if rule.windowMs ≤ nowMs - max c.windowStartedAtMs c.blockedUntilMs then
    .ok (rule.count ⟨0, nowMs, 0⟩ nowMs)
  else .ok (rule.count c nowMs)

/-- The stored row of a bucket. -/
structure Row extends Counters where
  expiresAtMs : ℕ
  deriving DecidableEq

/-- A number as an SQL integer. -/
def u64Sql (value : ℕ) : Except AuthError ℕ := if value ≤ i64Max then .ok value else .error .storage

/-- Counts one attempt against a stored row: the row stored after it, or why it is refused. -/
def hit (rule : RateRule) (row : Option Row) (nowMs : ℕ) : Except AuthError Row :=
  match rule.step (row.map (·.toCounters)) nowMs with
  | .error remainingMs => .error (.rateLimited (some remainingMs))
  | .ok next => do
    let expires :=
      min (saturatingAdd (max next.windowStartedAtMs next.blockedUntilMs) rule.windowMs) i64Max
    let attempts ← u64Sql (min next.attempts i64Max)
    let windowStartedAtMs ← u64Sql next.windowStartedAtMs
    let blockedUntilMs ← u64Sql (min next.blockedUntilMs i64Max)
    let expiresAtMs ← u64Sql expires
    return { attempts, windowStartedAtMs, blockedUntilMs, expiresAtMs }

/-- The answers to a sequence of attempts; a refused one leaves the row as it was. -/
def answers (rule : RateRule) : Option Row → List ℕ → List (Except AuthError Unit)
  | _, [] => []
  | row, nowMs :: later =>
    match hit rule row nowMs with
    | .ok row => .ok () :: answers rule (some row) later
    | .error e => .error e :: answers rule row later

/-! ### The counted times -/

/-- A bucket with the times counted since the last restart, the latest first. -/
structure Bucket where
  row : Option Row
  window : List ℕ

/-- One attempt; the count restarts where the stored one does. -/
def Bucket.attempt (rule : RateRule) (bucket : Bucket) (nowMs : ℕ) : Bucket :=
  match hit rule bucket.row nowMs with
  | .ok row => ⟨some row, if row.attempts = 1 then [nowMs] else nowMs :: bucket.window⟩
  | .error _ => bucket

/-- The bucket after a sequence of attempts. -/
def attempts (rule : RateRule) (times : List ℕ) : Bucket :=
  times.foldl (Bucket.attempt rule) ⟨none, []⟩

/-- The backoff set by the `k`-th counted attempt past the allowed ones: it doubles from the base up
to the cap, forty times at most. -/
def RateRule.backoff (rule : RateRule) (k : ℕ) : ℕ :=
  min (rule.backoffBaseMs * 2 ^ min (k - 1) 40) rule.backoffMaxMs

/-- When the last backoff of a window ends; times past the end of the SQL integers are cut. -/
def RateRule.backoffEnd (rule : RateRule) : List ℕ → ℕ
  | [] => 0
  | last :: earlier =>
    if rule.maxAttempts < earlier.length + 1 then
      min (last + rule.backoff (earlier.length + 1 - rule.maxAttempts)) i64Max
    else 0

/-- Each counted attempt came when the backoff before it had ended. -/
def RateRule.Spaced (rule : RateRule) : List ℕ → Prop
  | [] => True
  | last :: earlier => rule.backoffEnd earlier ≤ last ∧ rule.Spaced earlier

/-- The row that these counted times leave. -/
def RateRule.rowOf (rule : RateRule) (first : ℕ) (window : List ℕ) : Row :=
  ⟨⟨min window.length i64Max, first, rule.backoffEnd window⟩,
    min (max first (rule.backoffEnd window) + rule.windowMs) i64Max⟩

/-- The row says what the counted times are. -/
structure Counts (rule : RateRule) (bucket : Bucket) : Prop where
  row : bucket.row = bucket.window.getLast?.map (rule.rowOf · bucket.window)
  started : ∀ first ∈ bucket.window.getLast?, first ≤ i64Max
  spaced : rule.Spaced bucket.window

variable (rule : RateRule)

theorem backoff_le (k : ℕ) : rule.backoff k ≤ rule.backoffMaxMs := Nat.min_le_right _ _

theorem backoffEnd_le (window : List ℕ) : rule.backoffEnd window ≤ i64Max := by
  unfold RateRule.backoffEnd
  split
  · exact Nat.zero_le _
  · split_ifs
    · exact Nat.min_le_right _ _
    · exact Nat.zero_le _

/-- The saturating product is cut by the cap anyway. -/
theorem delay_eq_backoff {excess k : ℕ} (h : min (min (excess - 1) (2 ^ 32 - 1)) 40 = min (k - 1) 40) :
    rule.delay excess = rule.backoff k := by
  have hmax := rule.backoffMaxMs_le
  unfold RateRule.delay RateRule.backoff saturatingMul
  simp only [h]
  generalize rule.backoffBaseMs * 2 ^ min (k - 1) 40 = product
  omega

/-- Counting one more attempt of a window gives the counters of the longer window. -/
theorem count_spec (first nowMs : ℕ) (window : List ℕ) {c : Counters}
    (hc : c = ⟨min window.length i64Max, first, rule.backoffEnd window⟩) :
    min (rule.count c nowMs).attempts i64Max = min (nowMs :: window).length i64Max ∧
    (rule.count c nowMs).windowStartedAtMs = first ∧
    min (rule.count c nowMs).blockedUntilMs i64Max = rule.backoffEnd (nowMs :: window) := by
  have hallowed := rule.maxAttempts_lt
  have hattempts : saturatingAdd (min window.length i64Max) 1 = min window.length i64Max + 1 := by
    unfold saturatingAdd u64Max i64Max
    omega
  subst hc
  unfold RateRule.count
  rw [RateRule.backoffEnd]
  simp only [hattempts, List.length_cons]
  by_cases hover : rule.maxAttempts < window.length + 1
  · have hexcess : 0 < min window.length i64Max + 1 - rule.maxAttempts := by
      unfold i64Max
      omega
    have hdelay : rule.delay (min window.length i64Max + 1 - rule.maxAttempts) =
        rule.backoff (window.length + 1 - rule.maxAttempts) := by
      refine delay_eq_backoff rule ?_
      unfold i64Max
      omega
    simp only [if_pos hexcess, if_pos hover, hdelay]
    refine ⟨by omega, trivial, ?_⟩
    unfold saturatingAdd u64Max i64Max
    omega
  · have hexcess : ¬ 0 < min window.length i64Max + 1 - rule.maxAttempts := by omega
    simp only [if_neg hexcess, if_neg hover]
    refine ⟨by omega, trivial, ?_⟩
    have hzero : rule.backoffEnd window = 0 := by
      unfold RateRule.backoffEnd
      split
      · rfl
      · rename_i last earlier
        rw [List.length_cons] at hover
        rw [if_neg (by omega)]
    rw [hzero, Nat.zero_min]

/-- What is stored once the step has counted. -/
theorem hit_of_step {row : Option Row} {nowMs : ℕ} {first : ℕ} {window : List ℕ} {c : Counters}
    (hstep : rule.step (row.map (·.toCounters)) nowMs = .ok (rule.count c nowMs))
    (hc : c = ⟨min window.length i64Max, first, rule.backoffEnd window⟩) :
    hit rule row nowMs =
      if first ≤ i64Max then .ok (rule.rowOf first (nowMs :: window)) else .error .storage := by
  obtain ⟨hattempts, hstarted, hblocked⟩ := count_spec rule first nowMs window hc
  have hmin : ∀ n, u64Sql (min n i64Max) = .ok (min n i64Max) := fun n =>
    if_pos (Nat.min_le_right _ _)
  have hexpires : min (saturatingAdd (max first (rule.count c nowMs).blockedUntilMs) rule.windowMs)
      i64Max = min (max first (rule.backoffEnd (nowMs :: window)) + rule.windowMs) i64Max := by
    rw [← hblocked]
    unfold saturatingAdd u64Max i64Max
    omega
  unfold hit
  rw [hstep]
  simp only [hmin, hstarted, hexpires]
  rw [hattempts, hblocked]
  split_ifs with hfirst
  · rw [u64Sql, if_pos hfirst]
    rfl
  · rw [u64Sql, if_neg hfirst]
    rfl

variable {rule} {bucket : Bucket} {nowMs : ℕ}

/-- What one attempt can do: it is refused, it restarts the count, or it is counted. -/
theorem Counts.hit_cases (h : Counts rule bucket) (nowMs : ℕ) :
    (nowMs < rule.backoffEnd bucket.window ∧ hit rule bucket.row nowMs =
      .error (.rateLimited (some (rule.backoffEnd bucket.window - nowMs)))) ∨
    (rule.backoffEnd bucket.window ≤ nowMs ∧
      (∀ first ∈ bucket.window.getLast?,
        rule.windowMs ≤ nowMs - max first (rule.backoffEnd bucket.window)) ∧
      hit rule bucket.row nowMs =
        if nowMs ≤ i64Max then .ok (rule.rowOf nowMs [nowMs]) else .error .storage) ∨
    (rule.backoffEnd bucket.window ≤ nowMs ∧ ∃ first ∈ bucket.window.getLast?,
      nowMs - max first (rule.backoffEnd bucket.window) < rule.windowMs ∧
      hit rule bucket.row nowMs = .ok (rule.rowOf first (nowMs :: bucket.window))) := by
  obtain ⟨row, window⟩ := bucket
  have hrow : row = window.getLast?.map (rule.rowOf · window) := h.row
  have hstarted : ∀ first ∈ window.getLast?, first ≤ i64Max := h.started
  subst hrow
  -- The counters of a restart are those of an empty window.
  have hnew : (⟨0, nowMs, 0⟩ : Counters) = ⟨min ([] : List ℕ).length i64Max, nowMs, rule.backoffEnd []⟩ :=
    rfl
  cases hlast : window.getLast? with
  | none =>
    obtain rfl := List.getLast?_eq_none_iff.mp hlast
    have hstep : rule.step ((none : Option Row).map (·.toCounters)) nowMs =
        .ok (rule.count ⟨0, nowMs, 0⟩ nowMs) := by
      unfold RateRule.step
      rw [Option.map_none, Option.getD_none, if_neg (Nat.not_lt_zero nowMs), ite_self]
    exact .inr (.inl ⟨Nat.zero_le _, by simp, hit_of_step rule hstep hnew⟩)
  | some first =>
    have hstep : rule.step ((some (rule.rowOf first window)).map (·.toCounters)) nowMs =
        if nowMs < rule.backoffEnd window then .error (rule.backoffEnd window - nowMs)
        else if rule.windowMs ≤ nowMs - max first (rule.backoffEnd window) then
          .ok (rule.count ⟨0, nowMs, 0⟩ nowMs)
        else .ok (rule.count (rule.rowOf first window).toCounters nowMs) := rfl
    rw [Option.map_some]
    by_cases hblocked : nowMs < rule.backoffEnd window
    · rw [if_pos hblocked] at hstep
      refine .inl ⟨hblocked, ?_⟩
      rw [hit, hstep]
    · rw [if_neg hblocked] at hstep
      have hend := Nat.le_of_not_lt hblocked
      by_cases hquiet : rule.windowMs ≤ nowMs - max first (rule.backoffEnd window)
      · rw [if_pos hquiet] at hstep
        refine .inr (.inl ⟨hend, fun f hf => ?_, hit_of_step rule hstep hnew⟩)
        cases hf
        exact hquiet
      · rw [if_neg hquiet] at hstep
        refine .inr (.inr ⟨hend, first, rfl, Nat.lt_of_not_le hquiet, ?_⟩)
        rw [hit_of_step rule hstep rfl, if_pos (hstarted first hlast)]

/-- One attempt keeps the row true to the counted times. -/
theorem Counts.attempt (h : Counts rule bucket) (nowMs : ℕ) :
    Counts rule (bucket.attempt rule nowMs) := by
  unfold Bucket.attempt
  rcases h.hit_cases nowMs with ⟨-, hhit⟩ | ⟨hend, -, hhit⟩ | ⟨hend, first, hfirst, -, hhit⟩
  · rw [hhit]
    exact h
  · rw [hhit]
    split_ifs with hnow
    · exact ⟨rfl, fun f hf => by cases hf; exact hnow, Nat.zero_le _, trivial⟩
    · exact h
  · rw [hhit]
    have hlast : (nowMs :: bucket.window).getLast? = some first := by
      rw [List.getLast?_cons, Option.mem_def.mp hfirst, Option.getD_some]
    have hcount : (rule.rowOf first (nowMs :: bucket.window)).attempts ≠ 1 := by
      have hpos := List.length_pos_of_mem (List.mem_of_getLast? hfirst)
      show min (nowMs :: bucket.window).length i64Max ≠ 1
      rw [List.length_cons]
      unfold i64Max
      omega
    simp only [if_neg hcount]
    exact ⟨by rw [hlast]; rfl, fun f hf => by rw [hlast] at hf; cases hf; exact h.started first hfirst,
      hend, h.spaced⟩

theorem counts_attempts (rule : RateRule) (times : List ℕ) : Counts rule (attempts rule times) := by
  induction times using List.reverseRecOn with
  | nil => exact { row := rfl, started := fun f hf => (nomatch hf), spaced := trivial }
  | append_singleton times nowMs ih =>
    rw [attempts, List.foldl_append]
    exact ih.attempt nowMs

theorem mem_of_mem_window {times : List ℕ} :
    ∀ t ∈ (attempts rule times).window, t ∈ times := by
  induction times using List.reverseRecOn with
  | nil => exact fun t ht => by cases ht
  | append_singleton times nowMs ih =>
    intro t ht
    rw [attempts, List.foldl_append] at ht
    change t ∈ ((attempts rule times).attempt rule nowMs).window at ht
    unfold Bucket.attempt at ht
    rw [List.mem_append, List.mem_singleton]
    split at ht
    · dsimp only at ht
      split_ifs at ht
      · exact .inr (List.mem_singleton.mp ht)
      · exact (List.mem_cons.mp ht).symm.imp_left (ih t)
    · exact .inl (ih t ht)

/-- Each counted attempt of a window came when the backoff before it had ended. -/
theorem RateRule.Spaced.gap {newer older : List ℕ} {t prev : ℕ}
    (h : rule.Spaced (newer ++ t :: prev :: older)) : rule.backoffEnd (prev :: older) ≤ t := by
  induction newer with
  | nil => exact h.1
  | cons s newer ih => exact ih h.2

/-- From its expiry on, a row and no row answer alike, if the expiry was not cut. -/
theorem hit_expired {row : Row}
    (huncut : max row.windowStartedAtMs row.blockedUntilMs + rule.windowMs ≤ nowMs) :
    hit rule (some row) nowMs = hit rule none nowMs := by
  have hstep : rule.step (some row.toCounters) nowMs = rule.step none nowMs := by
    unfold RateRule.step
    rw [Option.getD_some, Option.getD_none, if_neg (by omega), if_pos (by omega),
      if_neg (Nat.not_lt_zero nowMs), ite_self]
  rw [hit, hit, Option.map_some, hstep, Option.map_none]

theorem answers_expired {row : Row} {later : List ℕ} (hlater : ∀ t ∈ later,
    max row.windowStartedAtMs row.blockedUntilMs + rule.windowMs ≤ t) :
    answers rule (some row) later = answers rule none later := by
  induction later with
  | nil => rfl
  | cons nowMs later ih =>
    obtain ⟨hnow, hlater⟩ := List.forall_mem_cons.mp hlater
    rw [answers, answers, hit_expired hnow, ih hlater]

/-! ### Runs -/

variable (rule) (times : List ℕ)

/-- A backoff ends at most the longest one after the last attempt. -/
theorem backoffEnd_window_le (hnow : ∀ t ∈ times, t ≤ nowMs) :
    rule.backoffEnd (attempts rule times).window ≤ nowMs + rule.backoffMaxMs := by
  unfold RateRule.backoffEnd
  split
  · exact Nat.zero_le _
  · rename_i last earlier hwindow
    have hlast := hnow last (mem_of_mem_window last (hwindow ▸ List.mem_cons_self))
    have hle := backoff_le rule (earlier.length + 1 - rule.maxAttempts)
    split_ifs <;> omega

theorem refusal_passes {remaining : ℕ} (hnow : ∀ t ∈ times, t ≤ nowMs)
    (hhit : hit rule (attempts rule times).row nowMs = .error (.rateLimited (some remaining))) :
    1 ≤ remaining ∧ remaining ≤ rule.backoffMaxMs ∧
      ∃ row, hit rule (attempts rule times).row (nowMs + remaining) = .ok row := by
  have hcounts := counts_attempts rule times
  have hmax := backoffEnd_window_le rule times hnow
  have hend := backoffEnd_le rule (attempts rule times).window
  rcases hcounts.hit_cases nowMs with ⟨hblocked, h⟩ | ⟨-, -, h⟩ | ⟨-, first, -, -, h⟩
  · rw [h] at hhit
    cases hhit
    refine ⟨by omega, by omega, ?_⟩
    rw [Nat.add_sub_of_le hblocked.le]
    rcases hcounts.hit_cases (rule.backoffEnd (attempts rule times).window) with
      ⟨hlt, -⟩ | ⟨-, -, h⟩ | ⟨-, first, -, -, h⟩
    · exact absurd hlt (lt_irrefl _)
    · exact ⟨_, h.trans (if_pos hend)⟩
    · exact ⟨_, h⟩
  · rw [h] at hhit
    split_ifs at hhit
    cases hhit
  · rw [h] at hhit
    cases hhit

theorem gap_of_window {k t prev : ℕ} {newer older : List ℕ} (hk : 2 ≤ k)
    (hwindow : (attempts rule times).window = newer ++ t :: prev :: older)
    (hcount : older.length + 2 = rule.maxAttempts + k) :
    min (prev + min (rule.backoffBaseMs * 2 ^ min (k - 2) 40) rule.backoffMaxMs) i64Max ≤ t := by
  have hspaced := (counts_attempts rule times).spaced
  rw [hwindow] at hspaced
  have hgap := hspaced.gap
  rw [RateRule.backoffEnd, if_pos (by omega), RateRule.backoff,
    show older.length + 1 - rule.maxAttempts - 1 = k - 2 by omega] at hgap
  exact hgap

theorem restart_quiet {row : Row} (hnow : ∀ t ∈ times, t ≤ nowMs)
    (hwindow : (attempts rule times).window ≠ [])
    (hhit : hit rule (attempts rule times).row nowMs = .ok row) (hrestart : row.attempts = 1) :
    ∃ first ∈ (attempts rule times).window.getLast?, first + rule.windowMs ≤ nowMs ∧
      rule.backoffEnd (attempts rule times).window + rule.windowMs ≤ nowMs := by
  rcases (counts_attempts rule times).hit_cases nowMs with
    ⟨-, h⟩ | ⟨hend, hquiet, -⟩ | ⟨-, first, -, -, h⟩
  · rw [h] at hhit
    cases hhit
  · have hlast := List.getLast?_eq_some_getLast hwindow
    have hfirst := hnow _ (mem_of_mem_window _ (List.getLast_mem hwindow))
    have hlong := hquiet _ hlast
    exact ⟨_, hlast, by omega, by omega⟩
  · rw [h] at hhit
    cases hhit
    have hpos := List.length_pos_of_ne_nil hwindow
    change min (nowMs :: (attempts rule times).window).length i64Max = 1 at hrestart
    rw [List.length_cons] at hrestart
    unfold i64Max at hrestart
    omega

theorem row_expired {row : Row} {deletedAt : ℕ} {later : List ℕ}
    (hrow : (attempts rule times).row = some row)
    (huncut : max row.windowStartedAtMs row.blockedUntilMs + rule.windowMs ≤ i64Max)
    (hdeleted : row.expiresAtMs ≤ deletedAt) (hlater : ∀ t ∈ later, deletedAt ≤ t) :
    answers rule (some row) later = answers rule none later := by
  have hexpires : row.expiresAtMs =
      max row.windowStartedAtMs row.blockedUntilMs + rule.windowMs := by
    have hcounts := (counts_attempts rule times).row
    rw [hrow] at hcounts
    cases hlast : (attempts rule times).window.getLast? with
    | none =>
      rw [hlast] at hcounts
      cases hcounts
    | some first =>
      rw [hlast] at hcounts
      cases hcounts
      exact Nat.min_eq_left huncut
  exact answers_expired fun t ht => hexpires ▸ hdeleted.trans (hlater t ht)

/-- Rate limits delay and never lock out, and a deleted row is not missed, over every sequence of
attempts. -/
theorem rate_limit_delays :
    (∀ nowMs remaining, (∀ t ∈ times, t ≤ nowMs) →
      hit rule (attempts rule times).row nowMs = .error (.rateLimited (some remaining)) →
      1 ≤ remaining ∧ remaining ≤ rule.backoffMaxMs ∧
        ∃ row, hit rule (attempts rule times).row (nowMs + remaining) = .ok row) ∧
    (∀ k newer t prev older, 2 ≤ k →
      (attempts rule times).window = newer ++ t :: prev :: older →
      older.length + 2 = rule.maxAttempts + k →
      min (prev + min (rule.backoffBaseMs * 2 ^ min (k - 2) 40) rule.backoffMaxMs) i64Max ≤ t) ∧
    (∀ nowMs row, (∀ t ∈ times, t ≤ nowMs) → (attempts rule times).window ≠ [] →
      hit rule (attempts rule times).row nowMs = .ok row → row.attempts = 1 →
      ∃ first ∈ (attempts rule times).window.getLast?, first + rule.windowMs ≤ nowMs ∧
        rule.backoffEnd (attempts rule times).window + rule.windowMs ≤ nowMs) ∧
    ∀ row deletedAt later, (attempts rule times).row = some row →
      max row.windowStartedAtMs row.blockedUntilMs + rule.windowMs ≤ i64Max →
      row.expiresAtMs ≤ deletedAt → (∀ t ∈ later, deletedAt ≤ t) →
      answers rule (some row) later = answers rule none later :=
  ⟨fun _ _ => refusal_passes rule times, fun _ _ _ _ _ => gap_of_window rule times,
    fun _ _ => restart_quiet rule times, fun _ _ _ => row_expired rule times⟩

theorem rate_limit_delays_twice :
    (∃ row, hit ⟨1, 10000, 1000, 8000, by decide, by decide, by decide, by decide⟩
      (attempts ⟨1, 10000, 1000, 8000, by decide, by decide, by decide, by decide⟩ [5, 5]).row
      (6 + 999) = .ok row) ∧
    answers ⟨1, 10000, 1000, 8000, by decide, by decide, by decide, by decide⟩
        (some ⟨⟨1, 5, 0⟩, 10005⟩) [10005, 10006] =
      answers ⟨1, 10000, 1000, 8000, by decide, by decide, by decide, by decide⟩
        none [10005, 10006] :=
  have h := rate_limit_delays ⟨1, 10000, 1000, 8000, by decide, by decide, by decide, by decide⟩
  ⟨((h [5, 5]).1 6 999 (by decide) (by decide)).2.2,
    (h [5]).2.2.2 ⟨⟨1, 5, 0⟩, 10005⟩ 10005 [10005, 10006] (by decide +kernel) (by decide)
      (by decide) (by decide)⟩

/-- At the end of the SQL integers a backoff and an expiry are cut: the third attempt comes no time
after the second, and a deleted row is missed. -/
theorem cut_times :
    (∃ rule : RateRule, rule.maxAttempts = 1 ∧ rule.backoffBaseMs ≤ rule.backoffMaxMs ∧
      (attempts rule [i64Max, i64Max, i64Max]).window = [i64Max, i64Max, i64Max] ∧
      ¬ i64Max + min (rule.backoffBaseMs * 2 ^ 0) rule.backoffMaxMs ≤ i64Max) ∧
    ∃ (rule : RateRule) (row : Row), rule.backoffBaseMs ≤ rule.backoffMaxMs ∧
      (attempts rule [2]).row = some row ∧ row.expiresAtMs ≤ i64Max ∧
      answers rule (some row) [i64Max + 1] ≠ answers rule none [i64Max + 1] :=
  ⟨⟨⟨1, 10000, 1000, 8000, by decide, by decide, by decide, by decide⟩, by decide +kernel⟩,
    ⟨1, i64Max, 1000, 8000, by decide, by decide, by decide, by decide⟩,
    ⟨⟨1, 2, 0⟩, i64Max⟩, by decide +kernel⟩

end RizzyVault.Auth
