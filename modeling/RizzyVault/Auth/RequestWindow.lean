import Mathlib

/-!
# The replay window of a session

The window of accepted request counters: the highest one, and a bitmap of the 64 counters up to it.
Against it stands the unbounded history of a session. Every run keeps the bitmap a picture of the
history near the highest counter, so that the window accepts exactly what the history allows.

## Main definitions

* `RequestWindow`, `RequestWindow.accept`.
* `session`: a window and the counters it accepted, after a sequence of requests.
* `Represents`: the window is a picture of the history.

## Main results

* `Represents.accept`: one request keeps the picture.
* `window_is_set`: the window accepts what the history allows, and nothing twice.

## References

* `crates/rizzy-domain-auth/src/rules.rs`.
-/

namespace RizzyVault.Auth

/-- How many counters the window covers. -/
def requestWindow : ℕ := 64

/-- The highest counter accepted so far, and the bitmap of those below and at it: bit `i` stands
for `max - i`. -/
structure RequestWindow where
  max : Option ℕ
  seen : BitVec 64

/-- The window of a new session. -/
def RequestWindow.default : RequestWindow := ⟨none, 0⟩

/-- The window after accepting a counter, if it is accepted. -/
def RequestWindow.accept (w : RequestWindow) (counter : ℕ) : Option RequestWindow :=
  match w.max with
  | none => some ⟨some counter, 1⟩
  | some max =>
    if max < counter then
      let shift := counter - max
      let seen := if requestWindow ≤ shift then 0 else w.seen <<< shift
      some ⟨some counter, seen ||| 1⟩
    else
      let back := max - counter
      if requestWindow ≤ back then none
      else
        let bit : BitVec 64 := 1#64 <<< back
        if w.seen &&& bit ≠ 0 then none else some ⟨some max, w.seen ||| bit⟩

/-- One request: a counter that is accepted moves the window and joins the history. -/
def request (s : RequestWindow × List ℕ) (counter : ℕ) : RequestWindow × List ℕ :=
  match s.1.accept counter with
  | some w => (w, counter :: s.2)
  | none => s

/-- The window and the accepted counters after a sequence of requests. -/
def session (counters : List ℕ) : RequestWindow × List ℕ := counters.foldl request (.default, [])

/-! ### The window and the history -/

/-- What a history allows: the first counter, one above the highest, or one less than 64 below it,
and nothing twice. -/
def Allowed (history : List ℕ) (counter : ℕ) : Prop :=
  counter ∉ history ∧
    (history = [] ∨ ∃ max, IsGreatest {c | c ∈ history} max ∧
      (max < counter ∨ counter ≤ max ∧ max - counter < 64))

/-- The window is a picture of the history: it knows the highest counter, and which of the 64
counters up to it were accepted. -/
structure Represents (w : RequestWindow) (history : List ℕ) : Prop where
  empty : w.max = none → history = []
  greatest : ∀ max ∈ w.max, IsGreatest {c | c ∈ history} max
  seen : ∀ max ∈ w.max, ∀ i < 64, w.seen.getLsbD i = true ↔ i ≤ max ∧ max - i ∈ history

theorem represents_default : Represents .default [] where
  empty _ := rfl
  greatest max h := by cases h
  seen max h := by cases h

theorem getLsbD_lowest (i : ℕ) : (1 : BitVec 64).getLsbD i = true ↔ i = 0 := by
  rw [show (1 : BitVec 64) = 1#64 from rfl, BitVec.getLsbD_one]
  simp

theorem getLsbD_bit {back : ℕ} (hback : back < 64) (i : ℕ) :
    (1#64 <<< back).getLsbD i = true ↔ i = back := by
  rw [← BitVec.twoPow_eq, BitVec.getLsbD_twoPow]
  simp [hback, eq_comm]

theorem getLsbD_empty (i : ℕ) : (0 : BitVec 64).getLsbD i = false := by
  rw [show (0 : BitVec 64) = 0#64 from rfl, BitVec.getLsbD_zero]

/-- A bit of the map is set if and only if masking leaves something. -/
theorem mask_ne_zero {seen : BitVec 64} {back : ℕ} (hback : back < 64) :
    seen &&& (1#64 <<< back) ≠ 0 ↔ seen.getLsbD back = true := by
  constructor
  · intro hne
    by_contra hbit
    refine hne (BitVec.eq_of_getLsbD_eq fun i _ => ?_)
    rw [BitVec.getLsbD_and, getLsbD_empty, Bool.and_eq_false_iff]
    by_cases hi : i = back
    · exact .inl (by rw [hi]; simpa using hbit)
    · exact .inr (by simpa [hi] using (getLsbD_bit hback i).not)
  · intro hbit hzero
    have h := congrArg (fun v => v.getLsbD back) hzero
    simp only [BitVec.getLsbD_and, getLsbD_empty, hbit, Bool.true_and] at h
    rw [(getLsbD_bit hback back).mpr rfl] at h
    exact Bool.noConfusion h

theorem Represents.first (counter : ℕ) : Represents ⟨some counter, 1⟩ [counter] where
  empty h := by cases h
  greatest max h := by
    cases h
    simp [IsGreatest, upperBounds]
  seen max h i hi := by
    cases h
    rw [getLsbD_lowest, List.mem_singleton]
    omega

variable {w : RequestWindow} {history : List ℕ} {max counter : ℕ}

/-- The bits of a map that slid. -/
theorem getLsbD_slide (seen : BitVec 64) (shift i : ℕ) (hi : i < 64) :
    ((if requestWindow ≤ shift then 0 else seen <<< shift) ||| 1 : BitVec 64).getLsbD i = true ↔
      i = 0 ∨ shift ≤ i ∧ seen.getLsbD (i - shift) = true := by
  rw [BitVec.getLsbD_or, Bool.or_eq_true, getLsbD_lowest, or_comm]
  refine or_congr_right ?_
  unfold requestWindow
  split_ifs with hshift
  · simp only [getLsbD_empty, Bool.false_eq_true, false_iff]
    omega
  · rw [BitVec.getLsbD_shiftLeft]
    simp only [hi, decide_true, Bool.true_and, Bool.and_eq_true, Bool.not_eq_true', decide_eq_false_iff_not, Nat.not_lt]

/-- A counter above the highest one moves the window. -/
theorem Represents.above (h : Represents w history) (hmax : w.max = some max)
    (hlt : max < counter) : Represents
      ⟨some counter, (if requestWindow ≤ counter - max then 0 else w.seen <<< (counter - max)) ||| 1⟩
      (counter :: history) where
  empty h := by cases h
  greatest m hm := by
    cases hm
    refine ⟨List.mem_cons_self, fun c hc => ?_⟩
    rcases List.mem_cons.mp hc with rfl | hc
    · exact le_rfl
    · exact ((h.greatest max hmax).2 hc).trans hlt.le
  seen m hm i hi := by
    cases hm
    have hupper : ∀ c ∈ history, c ≤ max := fun c hc => (h.greatest max hmax).2 hc
    rw [getLsbD_slide w.seen _ i hi, List.mem_cons]
    constructor
    · rintro (rfl | ⟨hshift, hbit⟩)
      · exact ⟨Nat.zero_le _, .inl rfl⟩
      · obtain ⟨hle, hmem⟩ := (h.seen max hmax _ (by omega)).mp hbit
        refine ⟨by omega, .inr ?_⟩
        rwa [show counter - i = max - (i - (counter - max)) by omega]
    · rintro ⟨hle, heq | hmem⟩
      · exact .inl (by omega)
      · have hc := hupper _ hmem
        refine .inr ⟨by omega, (h.seen max hmax _ (by omega)).mpr ⟨by omega, ?_⟩⟩
        rwa [show max - (i - (counter - max)) = counter - i by omega]

/-- A counter at most 63 below the highest one sets its bit. -/
theorem Represents.within (h : Represents w history) (hmax : w.max = some max)
    (hle : counter ≤ max) (hback : max - counter < 64) :
    Represents ⟨some max, w.seen ||| 1#64 <<< (max - counter)⟩ (counter :: history) where
  empty h := by cases h
  greatest m hm := by
    cases hm
    obtain ⟨hmem, hupper⟩ := h.greatest max hmax
    refine ⟨List.mem_cons_of_mem _ hmem, fun c hc => ?_⟩
    rcases List.mem_cons.mp hc with rfl | hc
    · exact hle
    · exact hupper hc
  seen m hm i hi := by
    cases hm
    rw [BitVec.getLsbD_or, Bool.or_eq_true, h.seen max hmax i hi, getLsbD_bit hback, List.mem_cons]
    constructor
    · rintro (⟨hi, hmem⟩ | rfl)
      · exact ⟨hi, .inr hmem⟩
      · exact ⟨by omega, .inl (by omega)⟩
    · rintro ⟨hi, heq | hmem⟩
      · exact .inr (by omega)
      · exact .inl ⟨hi, hmem⟩

theorem allowed_iff (h : Represents w history) (hmax : w.max = some max) :
    Allowed history counter ↔ counter ∉ history ∧ (max < counter ∨ max - counter < 64) := by
  have hne : history ≠ [] := List.ne_nil_of_mem (h.greatest max hmax).1
  have hgreatest : ∀ m, IsGreatest {c | c ∈ history} m ↔ m = max := fun m =>
    ⟨fun hm => hm.unique (h.greatest max hmax), fun hm => hm ▸ h.greatest max hmax⟩
  unfold Allowed
  simp only [hne, false_or, hgreatest, exists_eq_left]
  refine and_congr_right fun _ => ?_
  omega

/-- One request: the window accepts what the history allows, and stays its picture. -/
theorem Represents.accept (h : Represents w history) (counter : ℕ) :
    (∃ w', w.accept counter = some w' ∧ Allowed history counter ∧
      Represents w' (counter :: history)) ∨
    w.accept counter = none ∧ ¬ Allowed history counter := by
  cases hmax : w.max with
  | none =>
    have hnil := h.empty hmax
    subst hnil
    refine .inl ⟨_, ?_, ⟨by simp, .inl rfl⟩, .first counter⟩
    rw [RequestWindow.accept, hmax]
  | some max =>
    rw [RequestWindow.accept, hmax, allowed_iff h hmax]
    by_cases hlt : max < counter
    · have hnot : counter ∉ history := fun hmem =>
        absurd ((h.greatest max hmax).2 hmem) (Nat.not_le.mpr hlt)
      refine .inl ⟨_, ?_, ⟨hnot, .inl hlt⟩, h.above hmax hlt⟩
      simp only [if_pos hlt]
    · have hle := Nat.le_of_not_lt hlt
      by_cases hback : requestWindow ≤ max - counter
      · refine .inr ⟨?_, ?_⟩
        · simp only [if_neg hlt, if_pos hback]
        · unfold requestWindow at hback
          omega
      · have hback' : max - counter < 64 := Nat.lt_of_not_le hback
        have hseen := h.seen max hmax _ hback'
        rw [show max - (max - counter) = counter by omega] at hseen
        by_cases hbit : w.seen.getLsbD (max - counter) = true
        · refine .inr ⟨?_, fun hallowed => hallowed.1 (hseen.mp hbit).2⟩
          simp only [if_neg hlt, if_neg hback, if_pos ((mask_ne_zero hback').mpr hbit)]
        · have hnot : counter ∉ history := fun hmem => hbit (hseen.mpr ⟨by omega, hmem⟩)
          refine .inl ⟨_, ?_, ⟨hnot, .inr hback'⟩, h.within hmax hle hback'⟩
          simp only [if_neg hlt, if_neg hback, if_neg ((mask_ne_zero hback').not.mpr hbit)]

/-! ### Runs -/

theorem Represents.request {s : RequestWindow × List ℕ} (h : Represents s.1 s.2) (counter : ℕ) :
    Represents (request s counter).1 (request s counter).2 := by
  unfold Auth.request
  rcases h.accept counter with ⟨w', haccept, -, hw'⟩ | ⟨hnone, -⟩
  · rw [haccept]
    exact hw'
  · rw [hnone]
    exact h

theorem represents_session (counters : List ℕ) :
    Represents (session counters).1 (session counters).2 := by
  induction counters using List.reverseRecOn with
  | nil => exact represents_default
  | append_singleton counters counter ih =>
    rw [session, List.foldl_append]
    exact ih.request counter

theorem nodup_session (counters : List ℕ) : (session counters).2.Nodup := by
  induction counters using List.reverseRecOn with
  | nil => exact List.nodup_nil
  | append_singleton counters counter ih =>
    rw [session, List.foldl_append]
    show (request (session counters) counter).2.Nodup
    unfold request
    rcases (represents_session counters).accept counter with ⟨w', haccept, hallowed, -⟩ | ⟨hnone, -⟩
    · rw [haccept]
      exact List.nodup_cons.mpr ⟨hallowed.1, ih⟩
    · rw [hnone]
      exact ih

/-- After any requests the window accepts a counter if and only if the accepted ones allow it, and
no counter is accepted twice. -/
theorem window_is_set (counters : List ℕ) :
    (∀ counter, ((session counters).1.accept counter).isSome = true ↔
      Allowed (session counters).2 counter) ∧
    (session counters).2.Nodup := by
  refine ⟨fun counter => ?_, nodup_session counters⟩
  rcases (represents_session counters).accept counter with ⟨w', haccept, hallowed, -⟩ | ⟨hnone, hnot⟩
  · simp [haccept, hallowed]
  · simp [hnone, hnot]

end RizzyVault.Auth
