import Mathlib

/-!
# Machine words and ordered keys

The instances that the literals of the machine words and the maps over an ordered type rest on.
Each has a name of its own, so that a definition refers to it wherever it is written.
-/

namespace RizzyVault.Lib

/-! ### Words -/

instance neZero_byte : NeZero 256 := ⟨by decide⟩

instance neZero_u16 : NeZero (2 ^ 16) := ⟨by decide⟩

instance neZero_u32 : NeZero (2 ^ 32) := ⟨by decide⟩

instance neZero_u64 : NeZero (2 ^ 64) := ⟨by decide⟩

instance neZero_u128 : NeZero (2 ^ 128) := ⟨by decide⟩

/-! ### The first numbers -/

theorem zero_lt_u64 : 0 < 2 ^ 64 := by decide

theorem one_lt_u64 : 1 < 2 ^ 64 := by decide

theorem two_lt_u64 : 2 < 2 ^ 64 := by decide

theorem three_lt_u64 : 3 < 2 ^ 64 := by decide

theorem one_lt_u32 : 1 < 2 ^ 32 := by decide

theorem zero_lt_three : 0 < 3 := by decide

/-! ### Keys -/

/-- The comparison of a linear order is one of a map. -/
instance transCmp_compare {κ : Type*} [LinearOrder κ] :
    Std.TransCmp (compare : κ → κ → Ordering) := inferInstance

end RizzyVault.Lib
