import RizzyVault.Sync.Dot

/-!
# The hybrid logical clock

A clock value is a 64-bit number: the milliseconds above a 16-bit counter. A device ticks its clock
for every operation it writes and moves it past what it receives, unless the received value is more
than a day ahead of the wall clock. The wall clock is injected.

## Main definitions

* `Hlc.tick`, `Hlc.receive`: the two update rules.
* `ClockEvent`, `Hlc.step`, `Hlc.clockAt`: runs of updates; a failed update leaves the clock.

## Main results

* `Hlc.step_spec`: what one update can do.
* `Hlc.clockAt_le`: how far ahead of the wall clock a run can push the clock.
* `Hlc.clock_bound`: every update of a run under one bound of the wall clock.

## References

* `crates/rizzy-sync/src/hlc.rs`.
-/

namespace RizzyVault.Sync

inductive HlcError
  | wallClockOutOfRange
  | exhausted
  deriving DecidableEq

/-- The outcome of a receipt: the clock after it, and whether the skew guard fired. -/
structure Receipt where
  clock : Hlc
  remoteAhead : Bool
  deriving DecidableEq

namespace Hlc

def counterBits : ℕ := 16

def maxMillis : ℕ := 2 ^ 48 - 1

/-- 24 hours. -/
def skewGuardMs : ℕ := 24 * 60 * 60 * 1000

def zero : Hlc := ⟨0⟩

def toU64 (h : Hlc) : ℕ := h.raw.val

/-- The milliseconds in the top 48 bits. -/
def millis (h : Hlc) : ℕ := h.toU64 >>> counterBits

/-- The milliseconds over the counter, as one number. -/
def packed (millis counter : ℕ) : ℕ := (millis <<< counterBits) + counter

theorem packed_eq (millis counter : ℕ) : packed millis counter = millis * 65536 + counter := by
  rw [packed, counterBits, Nat.shiftLeft_eq]

theorem millis_eq (h : Hlc) : h.millis = h.toU64 / 65536 := by
  rw [millis, counterBits, Nat.shiftRight_eq_div_pow]

theorem toU64_lt (h : Hlc) : h.toU64 < 2 ^ 64 := h.raw.isLt

theorem lt_iff {a b : Hlc} : a < b ↔ a.toU64 < b.toU64 := Iff.rfl

theorem le_iff {a b : Hlc} : a ≤ b ↔ a.toU64 ≤ b.toU64 := Iff.rfl

theorem toU64_max (a b : Hlc) : (max a b).toU64 = max a.toU64 b.toU64 := by
  have hmono : Monotone toU64 := fun _ _ h => h
  exact hmono.map_max

/-! ### Update rules -/

/-- The wall clock as a clock value with counter `0`. -/
def physical (nowMs : ℕ) : Except HlcError Hlc :=
  if h : nowMs ≤ maxMillis then
    .ok ⟨packed nowMs 0, by rw [packed_eq]; simp only [maxMillis] at h; omega⟩
  else .error .wallClockOutOfRange

/-- The next clock value, if 64 bits hold it. -/
def succ (h : Hlc) : Except HlcError Hlc :=
  if hlt : h.toU64 + 1 < 2 ^ 64 then .ok ⟨h.toU64 + 1, hlt⟩ else .error .exhausted

/-- The rule for an operation the device writes. -/
def tick (h : Hlc) (nowMs : ℕ) : Except HlcError Hlc := do
  let physical ← physical nowMs
  let next ← h.succ
  return max next physical

/-- Whether the milliseconds of `remote` are more than the guard ahead of the wall clock. -/
def isAhead (remote : Hlc) (nowMs : ℕ) : Bool :=
  decide (min (nowMs + skewGuardMs) (2 ^ 64 - 1) < remote.millis)

/-- The rule for an operation, or the highest value of a snapshot, of another device. -/
def receive (h remote : Hlc) (nowMs : ℕ) : Except HlcError Receipt := do
  let physical ← physical nowMs
  if remote.isAhead nowMs then return ⟨h, true⟩
  let next ← (max h remote).succ
  return ⟨max next physical, false⟩

end Hlc

/-! ### Runs -/

/-- One update with its reading of the wall clock. -/
inductive ClockEvent
  | tick (nowMs : ℕ)
  | receive (remote : Hlc) (nowMs : ℕ)
  deriving DecidableEq

def ClockEvent.nowMs : ClockEvent → ℕ
  | tick nowMs | receive _ nowMs => nowMs

namespace Hlc

/-- One update. -/
def step (h : Hlc) : ClockEvent → Except HlcError Receipt
  | .tick nowMs => do return ⟨← h.tick nowMs, false⟩
  | .receive remote nowMs => h.receive remote nowMs

/-- The clock after an update, which leaves it as it is if it fails. -/
def after (h : Hlc) (event : ClockEvent) : Hlc :=
  match h.step event with
  | .ok receipt => receipt.clock
  | .error _ => h

/-- The clock after a run. -/
def clockAt (start : Hlc) (events : List ClockEvent) : Hlc := events.foldl after start

/-- The largest value a receipt adopts under a reading of the wall clock. -/
def horizon (nowMs : ℕ) : ℕ := packed (nowMs + skewGuardMs) 0xFFFF

/-- What one update can do, whatever it answers. -/
inductive Step (h : Hlc) (nowMs : ℕ) : Except HlcError Receipt → Prop
  | accepted (clock : Hlc) (advances : h < clock) (physical : packed nowMs 0 ≤ clock.toU64)
    (bound : clock.toU64 ≤ max h.toU64 (horizon nowMs) + 1) : Step h nowMs (.ok ⟨clock, false⟩)
  | refused : Step h nowMs (.ok ⟨h, true⟩)
  | outOfRange (out : maxMillis < nowMs) : Step h nowMs (.error .wallClockOutOfRange)
  | exhausted (full : 2 ^ 64 ≤ max h.toU64 (horizon nowMs) + 1) : Step h nowMs (.error .exhausted)

/-- Moving past a value no larger than the clock or the horizon. -/
theorem step_of_succ {h base physical : Hlc} {nowMs : ℕ} (hphysical : physical.toU64 = packed nowMs 0)
    (hbase : h.toU64 ≤ base.toU64) (hle : base.toU64 ≤ max h.toU64 (horizon nowMs)) :
    Step h nowMs (do let next ← base.succ; return ⟨max next physical, false⟩) := by
  have hpacked : packed nowMs 0 ≤ horizon nowMs := by
    rw [horizon, packed_eq, packed_eq]
    omega
  rw [succ]
  split_ifs with hlt
  · have hmax : (max (⟨base.toU64 + 1, hlt⟩ : Hlc) physical).toU64 =
        max (base.toU64 + 1) (packed nowMs 0) := by rw [toU64_max, hphysical]; rfl
    refine .accepted _ ?_ ?_ ?_
    · rw [lt_iff, hmax]
      omega
    · rw [hmax]
      omega
    · rw [hmax]
      omega
  · exact .exhausted (by omega)

theorem physical_cases (nowMs : ℕ) :
    (∃ p, physical nowMs = .ok p ∧ p.toU64 = packed nowMs 0) ∨
      maxMillis < nowMs ∧ physical nowMs = .error .wallClockOutOfRange := by
  rw [physical]
  split_ifs with hnow
  · exact .inl ⟨_, rfl, rfl⟩
  · exact .inr ⟨by omega, rfl⟩

theorem tick_spec (h : Hlc) (nowMs : ℕ) : Step h nowMs (h.step (.tick nowMs)) := by
  rw [step, tick]
  obtain ⟨p, hp, hpacked⟩ | ⟨hout, hp⟩ := physical_cases nowMs
  · have hmoved := step_of_succ hpacked le_rfl (le_max_left h.toU64 (horizon nowMs))
    rw [hp]
    cases hsucc : h.succ with
    | error e =>
      rw [hsucc] at hmoved
      exact hmoved
    | ok next =>
      rw [hsucc] at hmoved
      exact hmoved
  · rw [hp]
    exact .outOfRange hout

theorem receive_spec (h remote : Hlc) (nowMs : ℕ) :
    Step h nowMs (h.step (.receive remote nowMs)) := by
  rw [step, receive]
  obtain ⟨p, hp, hpacked⟩ | ⟨hout, hp⟩ := physical_cases nowMs
  · rw [hp]
    cases hahead : remote.isAhead nowMs with
    | true => exact .refused
    | false =>
      have hremote : remote.toU64 ≤ horizon nowMs := by
        rw [isAhead, decide_eq_false_iff_not, millis_eq] at hahead
        rw [horizon, packed_eq]
        omega
      have hbase : (max h remote).toU64 = max h.toU64 remote.toU64 := toU64_max h remote
      exact step_of_succ hpacked (by omega) (by omega)
  · rw [hp]
    exact .outOfRange hout

/-- What one update can do, whatever it answers. -/
theorem step_spec (h : Hlc) (event : ClockEvent) : Step h event.nowMs (h.step event) := by
  cases event with
  | tick nowMs => exact tick_spec h nowMs
  | receive remote nowMs => exact receive_spec h remote nowMs

/-! ### Runs under a bound of the wall clock -/

theorem horizon_mono {a b : ℕ} (h : a ≤ b) : horizon a ≤ horizon b := by
  simp only [horizon, packed_eq]
  omega

theorem after_le (h : Hlc) {event : ClockEvent} {w : ℕ} (hw : event.nowMs ≤ w) :
    (h.after event).toU64 ≤ max h.toU64 (horizon w) + 1 := by
  have hstep := step_spec h event
  have hmono := horizon_mono hw
  have hkept : h.toU64 ≤ max h.toU64 (horizon w) + 1 := by omega
  rw [after]
  generalize h.step event = answer at hstep
  cases hstep with
  | accepted clock _ _ hbound =>
    have hle : clock.toU64 ≤ max h.toU64 (horizon w) + 1 := by omega
    exact hle
  | refused => exact hkept
  | outOfRange _ => exact hkept
  | exhausted _ => exact hkept

/-- A run moves the clock at most one past the horizon for every update. -/
theorem clockAt_le (start : Hlc) {events : List ClockEvent} {w : ℕ}
    (hw : ∀ event ∈ events, event.nowMs ≤ w) :
    (clockAt start events).toU64 ≤ max start.toU64 (horizon w) + events.length := by
  induction events generalizing start with
  | nil => exact le_max_left _ _
  | cons event events ih =>
    obtain ⟨hevent, hevents⟩ := List.forall_mem_cons.mp hw
    have hone := after_le start hevent
    have hrest := ih (start.after event) hevents
    rw [clockAt, List.foldl_cons, List.length_cons]
    rw [clockAt] at hrest
    omega

/-- Every update of a run whose wall readings are at most `w`: an accepted one advances the clock to
at least the wall reading, a refused receipt leaves it, the clock keeps within one of the horizon for
every update, and it is exhausted only if that bound is past 64 bits. -/
theorem clock_bound (start : Hlc) (events : List ClockEvent) (w : ℕ)
    (hw : ∀ event ∈ events, event.nowMs ≤ w) :
    let bound := max start.toU64 (packed (w + skewGuardMs) 0xFFFF) + events.length
    (clockAt start events).toU64 ≤ bound ∧
      ∀ before event rest, events = before ++ event :: rest →
        let clock := clockAt start before
        clock.toU64 ≤ bound ∧
          (∀ receipt, clock.step event = .ok receipt →
            clockAt start (before ++ [event]) = receipt.clock ∧
              (receipt.remoteAhead = false →
                clock < receipt.clock ∧ packed event.nowMs 0 ≤ receipt.clock.toU64) ∧
              (receipt.remoteAhead = true → receipt.clock = clock)) ∧
          (clock.step event = .error .exhausted → 2 ^ 64 ≤ bound) := by
  refine ⟨clockAt_le start hw, ?_⟩
  rintro before event rest rfl
  obtain ⟨hbefore, hrest⟩ := List.forall_mem_append.mp hw
  obtain ⟨hevent, -⟩ := List.forall_mem_cons.mp hrest
  have hclock := clockAt_le start hbefore
  have hhorizon := horizon_mono hevent
  have hlength : (before ++ event :: rest).length = before.length + (rest.length + 1) := by simp
  have hdef : packed (w + skewGuardMs) 0xFFFF = horizon w := rfl
  simp only [hlength, hdef]
  refine ⟨by omega, fun receipt hreceipt => ?_, fun hexhausted => ?_⟩
  · have hnext : clockAt start (before ++ [event]) = receipt.clock := by
      rw [clockAt, List.foldl_append, List.foldl_cons, List.foldl_nil, after, ← clockAt, hreceipt]
    have hstep := step_spec (clockAt start before) event
    rw [hreceipt] at hstep
    refine ⟨hnext, ?_⟩
    cases hstep with
    | accepted clock hadvances hphysical _ => exact ⟨fun _ => ⟨hadvances, hphysical⟩, nofun⟩
    | refused => exact ⟨nofun, fun _ => rfl⟩
  · have hstep := step_spec (clockAt start before) event
    rw [hexhausted] at hstep
    cases hstep with
    | exhausted hfull => omega

theorem clock_bound_two_events :
    (clockAt zero [.tick 1, .receive ⟨70000⟩ 1]).toU64 ≤
      max zero.toU64 (packed (1 + skewGuardMs) 0xFFFF) + 2 :=
  (clock_bound zero [.tick 1, .receive ⟨70000⟩ 1] 1 (by decide)).1

/-- A refused receipt can leave the clock below the wall reading. -/
theorem clock_below_wall : ¬ ∀ (start : Hlc) (events : List ClockEvent),
    ∀ event ∈ events.getLast?, packed event.nowMs 0 ≤ (clockAt start events).toU64 := by
  intro h
  have hlast := h zero [.receive ⟨Fin.last _⟩ 1] _ rfl
  revert hlast
  decide +kernel

end Hlc

end RizzyVault.Sync
