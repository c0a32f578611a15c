import Mathlib.Data.List.Basic
import Mathlib.Tactic.Ring

/-!
# Bytes

* `le w n` is `n` in `w` little-endian bytes, `ofLe` reads it back (`ofLe_le`);
* `HoldsAt mem a l`: the cells of `mem` from `a` on hold the list `l`.  A list that is held in
  pieces is held whole and conversely (`holdsAt_append`);
* `store` copies a list into a memory;
* `fetch`, `readLe` read cells of a memory, `readLe_of_holdsAt` reads back what `le` wrote.
-/

namespace Bytes

/-! ## little-endian numbers -/

/-- the `w` low bytes of `n`, the lowest first -/
def le : Nat → Nat → List UInt8
  | 0, _ => []
  | w + 1, n => UInt8.ofNat n :: le w (n / 256)

/-- the number with the given bytes, the lowest first -/
def ofLe : List UInt8 → Nat
  | [] => 0
  | b :: bs => b.toNat + 256 * ofLe bs

@[simp] theorem length_le (w n : Nat) : (le w n).length = w := by
  induction w generalizing n with
  | zero => rfl
  | succ w ih => rw [le, List.length_cons, ih]

theorem ofLe_le (w n : Nat) : ofLe (le w n) = n % 256^w := by
  induction w generalizing n with
  | zero => rw [le, ofLe, pow_zero, Nat.mod_one]
  | succ w ih =>
    have h : (UInt8.ofNat n).toNat = n % 256 := by simp
    rw [le, ofLe, ih, h, pow_succ', Nat.mod_mul]

theorem ofLe_le_of_lt {w n : Nat} (h : n < 256^w) : ofLe (le w n) = n := by
  rw [ofLe_le, Nat.mod_eq_of_lt h]

/-! ## memories -/

section
variable {β : Type}

/-- the cells from `a` on hold the list -/
def HoldsAt (mem : Nat → β) (a : Nat) (l : List β) : Prop :=
  ∀ i (h : i < l.length), mem (a + i) = l[i]

theorem holdsAt_nil (mem : Nat → β) (a : Nat) : HoldsAt mem a [] := by
  intro i h
  exact absurd h (Nat.not_lt_zero i)

theorem holdsAt_append {mem : Nat → β} {a : Nat} {l r : List β} :
    HoldsAt mem a (l ++ r) ↔ HoldsAt mem a l ∧ HoldsAt mem (a + l.length) r := by
  constructor
  · intro h
    refine ⟨fun i hi => ?_, fun i hi => ?_⟩
    · rw [h i (by rw [List.length_append]; omega), List.getElem_append_left hi]
    · rw [Nat.add_assoc, h (l.length + i) (by rw [List.length_append]; omega),
        List.getElem_append_right (by omega)]
      simp
  · intro ⟨hl, hr⟩ i hi
    rw [List.length_append] at hi
    by_cases hlt : i < l.length
    · rw [List.getElem_append_left hlt, hl i hlt]
    · have h := hr (i - l.length) (by omega)
      rw [List.getElem_append_right (by omega), ← h]
      congr 1
      omega

theorem holdsAt_cons {mem : Nat → β} {a : Nat} {x : β} {l : List β} :
    HoldsAt mem a (x :: l) ↔ mem a = x ∧ HoldsAt mem (a + 1) l := by
  have h := @holdsAt_append _ mem a [x] l
  rw [List.singleton_append] at h
  rw [h]
  refine and_congr_left fun _ => ?_
  constructor
  · intro h
    exact h 0 (by simp)
  · intro h i hi
    have h0 : i = 0 := by simpa using hi
    subst h0
    exact h

/-- a prefix of what is held is held -/
theorem HoldsAt.of_isPrefix {mem : Nat → β} {a : Nat} {l r : List β} (h : HoldsAt mem a r)
    (hl : l <+: r) : HoldsAt mem a l := by
  obtain ⟨t, rfl⟩ := hl
  exact (holdsAt_append.1 h).1

/-- of two lists held at one place the shorter is a prefix of the longer -/
theorem HoldsAt.isPrefix {mem : Nat → β} {a : Nat} {l r : List β} (hl : HoldsAt mem a l)
    (hr : HoldsAt mem a r) (h : l.length ≤ r.length) : l <+: r := by
  rw [List.prefix_iff_eq_take]
  apply List.ext_getElem
  · rw [List.length_take]
    omega
  · intro i h1 h2
    rw [List.getElem_take, ← hl i h1, hr i (by omega)]

/-- a memory that holds the list at `a` -/
def memOf [Inhabited β] (a : Nat) (l : List β) : Nat → β := fun p => l.getD (p - a) default

theorem holdsAt_memOf [Inhabited β] (a : Nat) (l : List β) : HoldsAt (memOf a l) a l := by
  intro i hi
  rw [memOf, Nat.add_sub_cancel_left, List.getD_eq_getElem?_getD, List.getElem?_eq_getElem hi,
    Option.getD_some]

/-- copy a list into a memory -/
def store (mem : Nat → β) (a : Nat) (l : List β) : Nat → β := fun p =>
  if a ≤ p then (l[p - a]?).getD (mem p) else mem p

theorem holdsAt_store (mem : Nat → β) (a : Nat) (l : List β) : HoldsAt (store mem a l) a l := by
  intro i hi
  rw [store, if_pos (by omega), Nat.add_sub_cancel_left, List.getElem?_eq_getElem hi,
    Option.getD_some]

theorem store_of_lt (mem : Nat → β) {a p : Nat} (l : List β) (h : p < a) :
    store mem a l p = mem p := by
  rw [store, if_neg (by omega)]

theorem store_of_ge (mem : Nat → β) {a p : Nat} (l : List β) (h : a + l.length ≤ p) :
    store mem a l p = mem p := by
  rw [store, if_pos (by omega), List.getElem?_eq_none (by omega), Option.getD_none]

theorem store_nil (mem : Nat → β) (a : Nat) : store mem a [] = mem := by
  funext p
  rcases Nat.lt_or_ge p a with h | h
  · exact store_of_lt mem [] h
  · exact store_of_ge mem [] h

/-- copying two pieces one behind the other copies the whole -/
theorem store_append (mem : Nat → β) (a : Nat) (l r : List β) :
    store (store mem a l) (a + l.length) r = store mem a (l ++ r) := by
  funext p
  by_cases h1 : p < a
  · rw [store_of_lt _ _ (by omega), store_of_lt _ _ h1, store_of_lt _ _ h1]
  · have hp : a + (p - a) = p := by omega
    by_cases h2 : p < a + l.length
    · have h := (holdsAt_append.1 (holdsAt_store mem a (l ++ r))).1 (p - a) (by omega)
      have h' := holdsAt_store mem a l (p - a) (by omega)
      rw [hp] at h h'
      rw [store_of_lt _ _ h2, h, h']
    · by_cases h3 : p < a + l.length + r.length
      · have hq : a + l.length + (p - (a + l.length)) = p := by omega
        have h := (holdsAt_append.1 (holdsAt_store mem a (l ++ r))).2 (p - (a + l.length))
          (by omega)
        have h' := holdsAt_store (store mem a l) (a + l.length) r (p - (a + l.length)) (by omega)
        rw [hq] at h h'
        rw [h, h']
      · rw [store_of_ge _ _ (by omega), store_of_ge _ _ (by omega),
          store_of_ge _ _ (by rw [List.length_append]; omega)]

/-- `n` cells from `a` on -/
def fetch (mem : Nat → β) (a : Nat) : Nat → List β
  | 0 => []
  | n + 1 => mem a :: fetch mem (a + 1) n

theorem length_fetch (mem : Nat → β) (a n : Nat) : (fetch mem a n).length = n := by
  induction n generalizing a with
  | zero => rfl
  | succ n ih => rw [fetch, List.length_cons, ih]

theorem getElem_fetch (mem : Nat → β) (a n i : Nat) (h : i < (fetch mem a n).length) :
    (fetch mem a n)[i] = mem (a + i) := by
  induction n generalizing a i with
  | zero => exact absurd h (Nat.not_lt_zero i)
  | succ n ih =>
    cases i with
    | zero => rfl
    | succ i =>
      have h' : i < (fetch mem (a + 1) n).length := by
        rw [length_fetch] at h ⊢
        omega
      have e : a + 1 + i = a + (i + 1) := by omega
      rw [← e, ← ih (a + 1) i h']
      rfl

theorem fetch_congr {mem mem' : Nat → β} {a n : Nat} (h : ∀ i < n, mem (a + i) = mem' (a + i)) :
    fetch mem a n = fetch mem' a n := by
  apply List.ext_getElem
  · rw [length_fetch, length_fetch]
  · intro i h1 h2
    rw [getElem_fetch, getElem_fetch, h i (by rwa [length_fetch] at h1)]

theorem fetch_of_holdsAt {mem : Nat → β} {a : Nat} {l : List β} (h : HoldsAt mem a l) :
    fetch mem a l.length = l := by
  induction l generalizing a with
  | nil => rfl
  | cons x l ih =>
    obtain ⟨hx, hl⟩ := holdsAt_cons.1 h
    rw [List.length_cons, fetch, hx, ih hl]

end

/-- the little-endian number in the `w` cells from `a` on -/
def readLe (mem : Nat → UInt8) (a w : Nat) : Nat := ofLe (fetch mem a w)

theorem readLe_of_holdsAt {mem : Nat → UInt8} {a w n : Nat} (h : HoldsAt mem a (le w n))
    (hn : n < 256^w) : readLe mem a w = n := by
  have hf := fetch_of_holdsAt h
  rw [length_le] at hf
  rw [readLe, hf, ofLe_le_of_lt hn]

theorem readLe_congr {mem mem' : Nat → UInt8} {a w : Nat} (h : ∀ i < w, mem (a + i) = mem' (a + i)) :
    readLe mem a w = readLe mem' a w := congrArg ofLe (fetch_congr h)

/-- the low bytes and the high bytes of a number -/
theorem readLe_add (mem : Nat → UInt8) (a m n : Nat) :
    readLe mem a (m + n) = readLe mem a m + 256^m * readLe mem (a + m) n := by
  induction m generalizing a with
  | zero =>
    have h0 : readLe mem a 0 = 0 := rfl
    rw [Nat.zero_add, Nat.add_zero, h0, pow_zero, Nat.zero_add, Nat.one_mul]
  | succ m ih =>
    have hone (w : Nat) : readLe mem a (w + 1) = (mem a).toNat + 256 * readLe mem (a + 1) w := rfl
    rw [Nat.succ_add, hone, hone, ih, Nat.add_assoc a 1 m, Nat.add_comm 1 m]
    ring

/-- a number that was stored -/
theorem readLe_store (mem : Nat → UInt8) (a : Nat) {w n : Nat} (hn : n < 256^w) :
    readLe (store mem a (le w n)) a w = n := readLe_of_holdsAt (holdsAt_store mem a (le w n)) hn

/-- a number beside what was stored -/
theorem readLe_store_beside (mem : Nat → UInt8) {a b w : Nat} (l : List UInt8)
    (h : a + w ≤ b ∨ b + l.length ≤ a) : readLe (store mem b l) a w = readLe mem a w := by
  refine readLe_congr fun i hi => ?_
  rcases h with h | h
  · exact store_of_lt mem l (by omega)
  · exact store_of_ge mem l (by omega)

theorem readLe_zero {mem : Nat → UInt8} {a w : Nat} (h : ∀ i < w, mem (a + i) = 0) :
    readLe mem a w = 0 := by
  induction w generalizing a with
  | zero => rfl
  | succ w ih =>
    have hrest : readLe mem (a + 1) w = 0 := by
      refine ih fun i hi => ?_
      rw [Nat.add_assoc, Nat.add_comm 1 i]
      exact h (i + 1) (by omega)
    show (mem a).toNat + 256 * readLe mem (a + 1) w = 0
    rw [hrest, show mem a = 0 from h 0 (Nat.succ_pos w)]
    rfl

end Bytes
