import Mathlib.Data.Nat.Digits.Lemmas

/-!
# Numerals

The numeral of a number is the list of its digits, the most significant first, without zeros in front.

* `numeral_inj`           different numbers have different numerals;
* `numeral_length_le`     a larger number has no shorter numeral;
* `numeral_head`          a numeral has no zero in front;
* `digitLoop_eq`          a loop over all positions from the top, which skips the zeros in front.
-/

namespace Numeral
variable {α : Type}

/-- the numeral of `n` in base `b`, with the characters `char` for the digits -/
def numeral (char : Nat → α) (b n : Nat) : List α :=
  if n = 0 then [char 0] else (Nat.digits b n).reverse.map char

theorem numeral_zero (char : Nat → α) (b : Nat) : numeral char b 0 = [char 0] := if_pos rfl

theorem numeral_of_ne {n : Nat} (char : Nat → α) (b : Nat) (h : n ≠ 0) :
    numeral char b n = (Nat.digits b n).reverse.map char := if_neg h

theorem mem_numeral {char : Nat → α} {b n : Nat} (hb : 1 < b) {x : α} (h : x ∈ numeral char b n) :
    ∃ d < b, char d = x := by
  by_cases h0 : n = 0
  · rw [h0, numeral_zero] at h
    exact ⟨0, by omega, (List.mem_singleton.mp h).symm⟩
  · rw [numeral_of_ne _ _ h0] at h
    obtain ⟨d, hd, hx⟩ := List.mem_map.mp h
    exact ⟨d, Nat.digits_lt_base hb (List.mem_reverse.mp hd), hx⟩

/-- the digits of a numeral give the number back -/
theorem ofDigits_numeral {char : Nat → α} {value : α → Nat} {b : Nat} (hb : 1 < b)
    (hv : ∀ d < b, value (char d) = d) (n : Nat) :
    Nat.ofDigits b ((numeral char b n).reverse.map value) = n := by
  by_cases h0 : n = 0
  · rw [h0, numeral_zero]
    show Nat.ofDigits b [value (char 0)] = 0
    rw [hv 0 (by omega), Nat.ofDigits_singleton]
  · have hid : (Nat.digits b n).map (value ∘ char) = (Nat.digits b n).map id :=
      List.map_congr_left fun d hd => hv d (Nat.digits_lt_base hb hd)
    rw [numeral_of_ne _ _ h0, ← List.map_reverse, List.reverse_reverse, List.map_map, hid,
      List.map_id, Nat.ofDigits_digits]

theorem numeral_inj {char : Nat → α} {value : α → Nat} {b n m : Nat} (hb : 1 < b)
    (hv : ∀ d < b, value (char d) = d) (h : numeral char b n = numeral char b m) : n = m := by
  rw [← ofDigits_numeral hb hv n, h, ofDigits_numeral hb hv m]

theorem numeral_length (char : Nat → α) (b n : Nat) :
    (numeral char b n).length = max 1 (Nat.digits b n).length := by
  by_cases h0 : n = 0
  · rw [h0, numeral_zero, Nat.digits_zero]
    rfl
  · have hpos : 1 ≤ (Nat.digits b n).length :=
      List.length_pos_iff.mpr fun h => h0 (Nat.digits_eq_nil_iff_eq_zero.mp h)
    rw [numeral_of_ne _ _ h0, List.length_map, List.length_reverse, Nat.max_eq_right hpos]

theorem numeral_length_le (char : Nat → α) (b : Nat) {n m : Nat} (h : n ≤ m) :
    (numeral char b n).length ≤ (numeral char b m).length := by
  rw [numeral_length, numeral_length]
  exact max_le_max_left 1 (Nat.le_length_digits_le b n m h)

/-- a number below `b ^ k` has no more than `k` digits -/
theorem numeral_length_of_lt (char : Nat → α) {b n k : Nat} (hb : 1 < b) (hk : 0 < k) (h : n < b^k) :
    (numeral char b n).length ≤ k := by
  have hdigits := (Nat.digits_length_le_iff hb n).mpr h
  rw [numeral_length]
  exact max_le hk hdigits

theorem numeral_ne_nil (char : Nat → α) (b n : Nat) : numeral char b n ≠ [] := by
  have hlen := numeral_length char b n
  intro h
  rw [h, List.length_nil] at hlen
  omega

/-- no zero in front, but for the number zero -/
theorem numeral_head {char : Nat → α} {value : α → Nat} {b n : Nat} (hb : 1 < b)
    (hv : ∀ d < b, value (char d) = d) (h : (numeral char b n).head? = some (char 0)) : n = 0 := by
  by_contra h0
  have hne : Nat.digits b n ≠ [] := Nat.digits_ne_nil_iff_ne_zero.mpr h0
  rw [numeral_of_ne _ _ h0, List.head?_map, List.head?_reverse, List.getLast?_eq_some_getLast hne,
    Option.map_some, Option.some.injEq] at h
  have hlast := hv _ (Nat.digits_lt_base hb (List.getLast_mem hne))
  rw [h, hv 0 (by omega)] at hlast
  exact Nat.getLast_digit_ne_zero b h0 hlast.symm

/-! ## from the top -/

/-- the loop over `k` positions: `digit` gives the digit of the position, `next` the position behind it.
A zero is skipped as long as there is nothing in front of it. -/
def digitLoop (char : Nat → α) (digit next : Nat → Nat) : Nat → Nat → List α → List α
  | 0, _, buffer => buffer
  | k + 1, pos, buffer =>
    let v := digit pos
    digitLoop char digit next k (next pos)
      (if v ≠ 0 ∨ buffer.length ≠ 0 then buffer ++ [char v] else buffer)

/-- one digit more -/
theorem digits_snoc {b : Nat} (hb : 1 < b) (m : Nat) : (Nat.digits b m).reverse =
    if m % b ≠ 0 ∨ (Nat.digits b (m / b)).length ≠ 0 then (Nat.digits b (m / b)).reverse ++ [m % b]
    else (Nat.digits b (m / b)).reverse := by
  rcases Nat.eq_zero_or_pos m with h0 | hpos
  · subst h0
    simp
  · have hcond : m % b ≠ 0 ∨ (Nat.digits b (m / b)).length ≠ 0 := by
      by_contra hcon
      rw [not_or, not_not, not_not, List.length_eq_zero_iff, Nat.digits_eq_nil_iff_eq_zero] at hcon
      have hm := Nat.div_add_mod m b
      rw [hcon.1, hcon.2] at hm
      omega
    rw [if_pos hcond, Nat.digits_def' hb hpos, List.reverse_cons]

section
variable {char : Nat → α} {digit next pos : Nat → Nat} {b n : Nat}

/-- the loop with `k` positions to go, when the digits above them are in the buffer -/
theorem digitLoop_above (hb : 1 < b) (hd : ∀ k, digit (pos (k + 1)) = n / b^k % b)
    (hn : ∀ k, next (pos (k + 1)) = pos k) (k : Nat) :
    digitLoop char digit next k (pos k) ((Nat.digits b (n / b^k)).reverse.map char) =
      (Nat.digits b n).reverse.map char := by
  induction k with
  | zero => rw [pow_zero, Nat.div_one, digitLoop]
  | succ k ih =>
    have hdiv : n / b^(k + 1) = n / b^k / b := by
      rw [pow_succ, Nat.div_div_eq_div_mul]
    rw [digitLoop, hd k, hn k, hdiv, List.length_map, List.length_reverse]
    rw [digits_snoc hb (n / b^k)] at ih
    split_ifs at ih ⊢ with hc
    · rw [List.map_append] at ih
      exact ih
    · exact ih

/-- **The loop** writes the digits of a number below `b ^ k`, none for zero. -/
theorem digitLoop_eq (hb : 1 < b) (hd : ∀ k, digit (pos (k + 1)) = n / b^k % b)
    (hn : ∀ k, next (pos (k + 1)) = pos k) {k : Nat} (h : n < b^k) :
    digitLoop char digit next k (pos k) [] = (Nat.digits b n).reverse.map char := by
  have hall := @digitLoop_above α char digit next pos b n hb hd hn k
  rw [Nat.div_eq_of_lt h, Nat.digits_zero] at hall
  exact hall

end

end Numeral
