import Mathlib.Algebra.Group.Nat.Defs
import Mathlib.Algebra.GroupWithZero.Nat
import Mathlib.Tactic.Common

/-!
# Counting in a 32-bit int

Sums and products of numbers that are not negative, in a signed word of 32 bits.
Where the word overflows, a program in C has no meaning, and there is no result.
-/

namespace LockdepSpdk.CheckedInt

set_option autoImplicit false

def addInt (a b : Nat) : Option Nat := if a + b < 2 ^ 31 then some (a + b) else none

def mulInt (a b : Nat) : Option Nat := if a * b < 2 ^ 31 then some (a * b) else none

theorem addInt_of_lt {a b : Nat} (h : a + b < 2 ^ 31) : addInt a b = some (a + b) := if_pos h

theorem addInt_of_ge {a b : Nat} (h : ¬ a + b < 2 ^ 31) : addInt a b = none := if_neg h

theorem mulInt_of_lt {a b : Nat} (h : a * b < 2 ^ 31) : mulInt a b = some (a * b) := if_pos h

end LockdepSpdk.CheckedInt
