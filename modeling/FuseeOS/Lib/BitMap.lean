import Mathlib.Algebra.GroupWithZero.Nat
import Mathlib.Logic.Function.Basic

/-!
# Bitmaps kept in an array of bytes

Bit `k` is bit `k % 8` of byte `k / 8`.  The same bits seen eight bytes at a time: `word m j` is the
little-endian 64-bit word `j`, and its bit `k` is bit `64 * j + k` of the bitmap (`getLsbD_word`).
-/

namespace BitMap

/-- bit `k` -/
def get (m : Nat → BitVec 8) (k : Nat) : Bool := (m (k / 8)).getLsbD (k % 8)

/-- `m[k / 8] |= 1 << (k % 8)` -/
def set (m : Nat → BitVec 8) (k : Nat) : Nat → BitVec 8 :=
  Function.update m (k / 8) (m (k / 8) ||| (1#8 <<< (k % 8)))

/-- `m[k / 8] &= ~(1 << (k % 8))` -/
def clear (m : Nat → BitVec 8) (k : Nat) : Nat → BitVec 8 :=
  Function.update m (k / 8) (m (k / 8) &&& ~~~(1#8 <<< (k % 8)))

/-- all bits set: what `memset(_, 0xff, _)` leaves -/
def ones : Nat → BitVec 8 := fun _ => 0xff

/-- word `j` of the array read as little-endian 64-bit words -/
def word (m : Nat → BitVec 8) (j : Nat) : BitVec 64 :=
  m (8 * j + 7) ++ m (8 * j + 6) ++ m (8 * j + 5) ++ m (8 * j + 4) ++
    m (8 * j + 3) ++ m (8 * j + 2) ++ m (8 * j + 1) ++ m (8 * j)

theorem getLsbD_one_shift (r i : Nat) (hr : r < 8) (hi : i < 8) :
    (1#8 <<< r).getLsbD i = decide (i = r) := by
  rw [BitVec.getLsbD_shiftLeft, BitVec.getLsbD_one]
  by_cases h : i = r
  · subst h; simp [hi]
  · by_cases h' : i < r
    · simp [h', h]
    · have : i - r ≠ 0 := by omega
      simp [this, h]

theorem get_set (m : Nat → BitVec 8) (k i : Nat) :
    get (set m k) i = (decide (i = k) || get m i) := by
  unfold get set
  have hk : k % 8 < 8 := Nat.mod_lt _ (by decide)
  have hi : i % 8 < 8 := Nat.mod_lt _ (by decide)
  by_cases h : i / 8 = k / 8
  · rw [h, Function.update_self, BitVec.getLsbD_or, getLsbD_one_shift _ _ hk hi, Bool.or_comm]
    have e : (i % 8 = k % 8) ↔ (i = k) := by omega
    simp only [e]
  · rw [Function.update_of_ne h]
    have e : i ≠ k := fun e => h (by rw [e])
    simp [e]

theorem get_clear (m : Nat → BitVec 8) (k i : Nat) :
    get (clear m k) i = (!decide (i = k) && get m i) := by
  unfold get clear
  have hk : k % 8 < 8 := Nat.mod_lt _ (by decide)
  have hi : i % 8 < 8 := Nat.mod_lt _ (by decide)
  by_cases h : i / 8 = k / 8
  · rw [h, Function.update_self, BitVec.getLsbD_and, BitVec.getLsbD_not,
      getLsbD_one_shift _ _ hk hi, Bool.and_comm]
    have e : (i % 8 = k % 8) ↔ (i = k) := by omega
    simp only [e, hi, decide_true, Bool.true_and]
  · rw [Function.update_of_ne h]
    have e : i ≠ k := fun e => h (by rw [e])
    simp [e]

theorem get_ones (k : Nat) : get ones k = true := by
  have hk : k % 8 < 8 := Nat.mod_lt _ (by decide)
  unfold get ones
  rw [show (0xff : BitVec 8) = BitVec.allOnes 8 from rfl, BitVec.getLsbD_allOnes]
  simpa using hk

theorem getLsbD_append_lo {n : Nat} (x : BitVec n) (y : BitVec 8) (i : Nat) (h : i < 8) :
    (x ++ y).getLsbD i = y.getLsbD i := by
  rw [BitVec.getLsbD_append, if_pos h]

theorem getLsbD_append_hi {n : Nat} (x : BitVec n) (y : BitVec 8) (i : Nat) (h : 8 ≤ i) :
    (x ++ y).getLsbD i = x.getLsbD (i - 8) := by
  rw [BitVec.getLsbD_append, if_neg (by omega)]

/-- the word-wise and the byte-wise view address the same bit -/
theorem getLsbD_word (m : Nat → BitVec 8) (j k : Nat) (hk : k < 64) :
    (word m j).getLsbD k = get m (64 * j + k) := by
  have hq : (64 * j + k) / 8 = 8 * j + k / 8 := by omega
  have hr : (64 * j + k) % 8 = k % 8 := by omega
  have hk8 : k = 8 * (k / 8) + k % 8 := by omega
  have hm : k % 8 < 8 := Nat.mod_lt _ (by decide)
  have hc : k / 8 < 8 := by omega
  unfold word get
  rw [hq, hr]
  generalize k / 8 = c at hk8 hc
  generalize k % 8 = r at hk8 hm
  subst hk8
  rcases c with _ | _ | _ | _ | _ | _ | _ | _ | c
  · rw [getLsbD_append_lo _ _ _ (by omega)]; simp
  · simp (disch := omega) only [getLsbD_append_lo, getLsbD_append_hi]; congr 1; omega
  · simp (disch := omega) only [getLsbD_append_lo, getLsbD_append_hi]; congr 1; omega
  · simp (disch := omega) only [getLsbD_append_lo, getLsbD_append_hi]; congr 1; omega
  · simp (disch := omega) only [getLsbD_append_lo, getLsbD_append_hi]; congr 1; omega
  · simp (disch := omega) only [getLsbD_append_lo, getLsbD_append_hi]; congr 1; omega
  · simp (disch := omega) only [getLsbD_append_lo, getLsbD_append_hi]; congr 1; omega
  · simp (disch := omega) only [getLsbD_append_hi]; congr 1; omega
  · omega

end BitMap
