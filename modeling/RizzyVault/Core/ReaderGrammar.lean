import RizzyVault.Core.Reader
import RizzyVault.Lib.Grammar

/-!
# What the bounded reader accepts

The productions of the bounded reader: a number of a width, a length-prefixed byte string within a
bound, and the end of the structure.

## Main results

* `parses_number`, `parses_bytesMax`, `parses_finish`.
-/

open RizzyVault.Lib

namespace RizzyVault.Core.Reader

theorem parses_number (w : ℕ) :
    Parses Set.univ (number w) fun bs n => n < 256 ^ w ∧ bs = beBytes w n := by
  refine (parses_map ofBe (parses_take w _)).congr fun bs n => ?_
  constructor
  · rintro ⟨x, ⟨rfl, rfl⟩, rfl⟩
    exact ⟨ofBe_lt x, (beBytes_ofBe x).symm⟩
  · rintro ⟨hn, rfl⟩
    exact ⟨_, ⟨length_beBytes w n, rfl⟩, (ofBe_beBytes hn).symm⟩

/-- A length and as many bytes. -/
theorem parses_prefixed :
    Parses Set.univ (do take (← u32)) fun bs x => x.length < 256 ^ 4 ∧ bs = putBytes x := by
  refine (parses_bind (parses_number 4) fun n => parses_take n _).congr fun bs x => ?_
  constructor
  · rintro ⟨_, _, n, ⟨hn, rfl⟩, ⟨rfl, rfl⟩, rfl⟩
    exact ⟨hn, rfl⟩
  · rintro ⟨hx, rfl⟩
    exact ⟨_, _, _, ⟨hx, rfl⟩, ⟨rfl, rfl⟩, rfl⟩

theorem parses_bytesMax {max : ℕ} (hmax : max < 2 ^ 32) :
    Parses Set.univ (bytesMax max) fun bs x => x.length ≤ max ∧ bs = putBytes x := by
  apply Parses.congr
  · apply parses_bind (parses_number 4)
    intro n
    exact parses_require (parses_take n _)
  intro bs x
  simp only [decide_eq_true_eq]
  constructor
  · rintro ⟨_, _, n, ⟨-, rfl⟩, ⟨hn, rfl, rfl⟩, rfl⟩
    exact ⟨hn, rfl⟩
  · rintro ⟨hx, rfl⟩
    exact ⟨_, _, _, ⟨hx.trans_lt hmax, rfl⟩, ⟨hx, rfl, rfl⟩, rfl⟩

/-- Nothing may follow. -/
theorem parses_finish {ε α : Type} (g : ParseError → ε) (x : α) :
    Parses {[]} (do finish.mapError g; return x) fun bs y => bs = [] ∧ y = x := by
  intro input len y cur
  rw [← parses_end (e := g .trailingBytes) x input len y cur]
  cases input <;> rfl

end RizzyVault.Core.Reader
