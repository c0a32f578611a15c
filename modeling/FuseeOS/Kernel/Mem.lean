import Mathlib.Algebra.GroupWithZero.Nat
import Mathlib.Data.Nat.Notation

/-!
# Constants of `mem.h`

Page arithmetic on `size_t` values, and the protection flags.
-/

namespace FuseeOS

abbrev PAGESIZE : Nat := 4096
abbrev BADPAGE : Nat := 0xffffffffffffffff

abbrev KPROT_READ : Nat := 1
abbrev KPROT_WRITE : Nat := 2
abbrev KPROT_EXECUTE : Nat := 4
abbrev KPROT_USER : Nat := 8

/-- `page_count`: the pages that `size` bytes need -/
def pageCount (size : Nat) : Nat := (size + PAGESIZE - 1) % 2^64 / PAGESIZE

/-- `page_round` -/
def pageRound (size : Nat) : Nat := pageCount size * PAGESIZE % 2^64

theorem pageCount_of_lt {size : Nat} (h : size + 4096 ≤ 2^64) :
    pageCount size = (size + 4095) / 4096 := by
  unfold pageCount
  simp only [PAGESIZE]
  rw [Nat.mod_eq_of_lt (by omega)]
  omega

theorem pageRound_of_lt {size : Nat} (h : size + 4096 ≤ 2^64) :
    pageRound size = (size + 4095) / 4096 * 4096 := by
  unfold pageRound
  rw [pageCount_of_lt h]
  simp only [PAGESIZE]
  omega

end FuseeOS
