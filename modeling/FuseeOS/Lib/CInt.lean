import Mathlib.Algebra.GroupWithZero.Nat
import Mathlib.Algebra.Group.Int.Defs

/-!
# C integers

`int` is 32 bits wide, `uint64_t` and `size_t` 64 bits.  Unsigned values are natural numbers,
reduced where the code may wrap; `int` values are integers.  A signed overflow has no value:
`intMul?` and `intAdd?` are `none` there.
-/

namespace CInt

/-- conversion to `int` of an unsigned value: the low 32 bits, read as two's complement -/
def toInt (n : Nat) : Int := Int.bmod n (2^32)

/-- conversion of an `int` to `uint64_t` -/
def toU64 (i : Int) : Nat := (i % 2^64).toNat

/-- product of two `int`s, `none` when it overflows -/
def intMul? (a b : Int) : Option Int :=
  if -2^31 ≤ a * b ∧ a * b < 2^31 then some (a * b) else none

/-- sum of two `int`s, `none` when it overflows -/
def intAdd? (a b : Int) : Option Int :=
  if -2^31 ≤ a + b ∧ a + b < 2^31 then some (a + b) else none

theorem toInt_of_lt {n : Nat} (h : n < 2^31) : toInt n = n := by
  unfold toInt
  exact Int.bmod_eq_of_le (by omega) (by omega)

theorem toU64_of_nonneg {i : Int} (h0 : 0 ≤ i) (h : i < 2^64) : (toU64 i : Int) = i := by
  unfold toU64
  rw [Int.emod_eq_of_lt h0 h, Int.toNat_of_nonneg h0]

theorem toU64_of_neg {i : Int} (h0 : i < 0) (h : -2^64 ≤ i) : (toU64 i : Int) = 2^64 + i := by
  have hadd : i % 2^64 = 2^64 + i := by
    rw [← Int.add_emod_left, Int.emod_eq_of_lt (by omega) (by omega)]
  unfold toU64
  rw [hadd, Int.toNat_of_nonneg (by omega)]

/-- the conversion to `int` subtracts a multiple of `2^32` -/
theorem toInt_range (n : Nat) : -2^31 ≤ toInt n ∧ toInt n < 2^31 ∧ ∃ q : Int, toInt n = n - 2^32 * q := by
  unfold toInt
  refine ⟨?_, ?_, Int.bdiv n (2^32), ?_⟩
  · have h := Int.le_bmod (x := n) (m := 2^32) (by decide)
    omega
  · have h := Int.bmod_lt (x := n) (m := 2^32) (by decide)
    omega
  · have h := Int.bmod_add_bdiv n (2^32)
    omega

theorem toU64_natCast {n : Nat} (h : n < 2^64) : toU64 (n : Int) = n :=
  Int.ofNat_inj.mp (toU64_of_nonneg (Int.natCast_nonneg n) (by omega))

end CInt
