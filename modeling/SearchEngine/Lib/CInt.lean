import Mathlib.Algebra.Ring.Int.Defs
import Mathlib.Algebra.Ring.Nat
import Mathlib.Order.Basic
import Mathlib.Data.Int.Order.Basic

/-!
# The integer types of C

`int` and `uint32_t` have 32 bits and `size_t` has 64; arithmetic is two's complement. A
value of a signed type is an `Int`, one of an unsigned type a `Nat`, and a conversion is the
residue in the range of the type.
-/

namespace CInt

/-- The `int` with the low 32 bits of `x`. -/
def int (x : Int) : Int := x.bmod (2 ^ 32)

/-- The `uint32_t` with the low 32 bits of `x`. -/
def uint32 (x : Int) : Nat := (x % 2 ^ 32).toNat

/-- The `size_t` with the low 64 bits of `x`. -/
def size (x : Int) : Nat := (x % 2 ^ 64).toNat

variable {x y : Int} {n : Nat}

theorem int_of_lt (h : -2 ^ 31 ≤ x) (h' : x < 2 ^ 31) : int x = x :=
  Int.bmod_eq_of_le (by omega) (by omega)

/-- An `int` counter that counts up. -/
theorem int_int_add (x y : Int) : int (int x + y) = int (x + y) := Int.bmod_add_bmod

/-- An `int` counter is zero at the multiples of `2 ^ 32`. -/
theorem int_natCast_eq_zero : int n = 0 ↔ n % 2 ^ 32 = 0 := by
  rw [int, Int.bmod_def]
  split <;> omega

theorem uint32_int (x : Int) : uint32 (int x) = uint32 x := by
  rw [uint32, int, Int.bmod_def, uint32]
  split <;> omega

theorem uint32_natCast (n : Nat) : uint32 n = n % 2 ^ 32 := by
  rw [uint32]
  omega

theorem int_le_uint32 (x : Int) : int x ≤ uint32 (int x) := by
  rw [uint32_int, uint32, int, Int.bmod_def]
  split <;> omega

end CInt
