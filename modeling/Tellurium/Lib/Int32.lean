import Mathlib.Data.Int.Order.Basic
import Mathlib.Tactic.Ring

/-!
The numbers of an `int`. What does not fit wraps, as gcc lets it; code that must not rely on
this stays in the range where `int32` changes nothing.
-/

namespace Tellurium.Lib

/-- The values of an `int`. -/
abbrev CInt : Type := {n : Int // -2 ^ 31 ≤ n ∧ n < 2 ^ 31}

/-- What an `int` keeps of a number. -/
def int32 (n : Int) : Int := Int.bmod n (2 ^ 32)

variable {n : Int}

theorem int32_of_lt (hlow : -2 ^ 31 ≤ n) (hhigh : n < 2 ^ 31) : int32 n = n := by
  unfold int32
  rw [Int.bmod_def]
  split <;> omega

theorem int32_of_ge (hlow : 2 ^ 31 ≤ n) (hhigh : n < 2 ^ 32) : int32 n = n - 2 ^ 32 := by
  unfold int32
  rw [Int.bmod_def]
  split <;> omega

theorem int32_bounds (n : Int) : -2 ^ 31 ≤ int32 n ∧ int32 n < 2 ^ 31 :=
  ⟨Int.le_bmod (by decide), Int.bmod_lt (by decide)⟩

/-- Wrapping makes no number larger. -/
theorem int32_natAbs_le (n : Int) : (int32 n).natAbs ≤ n.natAbs := by
  unfold int32
  rw [Int.bmod_def]
  split <;> omega

end Tellurium.Lib
