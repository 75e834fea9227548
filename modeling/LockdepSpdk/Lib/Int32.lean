import Mathlib.Algebra.GroupWithZero.Nat
import Mathlib.Algebra.Ring.Int.Defs

/-!
# Counters of 32 bits that wrap

The value an `int` shows that was counted up and down without a check, as the
atomic operations of C++ count.
-/

namespace LockdepSpdk

set_option autoImplicit false

/-- The value of an `int` that was counted to `x`. -/
def int32 (x : Int) : Int := x.bmod (2 ^ 32)

theorem int32_of_mem {x : Int} (h0 : -2 ^ 31 ≤ x) (h : x < 2 ^ 31) : int32 x = x := by
  unfold int32
  rw [Int.bmod_eq_of_le (by omega) (by omega)]

theorem int32_of_lt {x : Int} (h0 : 0 ≤ x) (h : x < 2 ^ 31) : int32 x = x :=
  int32_of_mem (by omega) h

@[simp] theorem int32_zero : int32 0 = 0 := rfl

theorem int32_le (x : Int) : -2 ^ 31 ≤ int32 x := by
  unfold int32
  have hle : -(((2 ^ 32 : Nat) : Int) / 2) ≤ x.bmod (2 ^ 32) := Int.le_bmod (by decide)
  omega

theorem int32_wrapped {n : Nat} (hlow : 2 ^ 31 ≤ n) (hhigh : n < 2 ^ 32) :
    int32 n = (n : Int) - 2 ^ 32 := by
  unfold int32
  rw [Int.bmod_def, Int.emod_eq_of_lt (by omega) (by omega), if_neg (by omega)]
  rfl

/-- Counting on from what the counter shows. -/
theorem int32_add (x k : Int) : int32 (int32 x + k) = int32 (x + k) := by
  unfold int32
  rw [Int.bmod_add_bmod]

theorem int32_pos {n : Nat} (hpos : 0 < n) (h : n < 2 ^ 32) : 0 < int32 n ↔ n < 2 ^ 31 := by
  constructor
  · intro hp
    by_contra hbig
    rw [int32_wrapped (by omega) h] at hp
    omega
  · intro hlt
    rw [int32_of_lt (by omega) (by omega)]
    omega

theorem int32_eq_one {n : Nat} (h : n < 2 ^ 32) : int32 n = 1 ↔ n = 1 := by
  constructor
  · intro hone
    by_cases hlt : n < 2 ^ 31
    · rw [int32_of_lt (by omega) (by omega)] at hone
      omega
    · rw [int32_wrapped (by omega) h] at hone
      omega
  · intro hn
    rw [hn]
    exact int32_of_lt (by decide) (by decide)

end LockdepSpdk
