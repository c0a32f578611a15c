import FuseeOS.Lib.Bytes
import Mathlib.Data.Nat.Find
import Mathlib.Tactic.Push

/-!
# Comparing and moving bytes

`libc/string`.

* `memcmp_of_firstDiff`    the value of `memcmp` at the first difference: the second byte minus the first;
* **`memcmp_order`**       an order, but not the one of the C library: the sign is right for equal blocks only;
* `strcmp_eq`              `strcmp` stays at the first pair of bytes;
* **`strcmp_right`**       so it is right for two empty strings only;
* `copyUp_eq`, `copyDown_eq`
                           a copy that runs towards the other range copies what was there before;
* **`memmove_copies`**     `memmove`, however the ranges overlap.
-/

namespace FuseeOS
open Bytes

/-! ## the code -/

/-- `memcmp` of the `n` bytes at `s1` and `s2` -/
def memcmp (mem : Nat → UInt8) (s1 s2 : Nat) : Nat → Int
  | 0 => 0
  | n + 1 =>
    let diff : Int := (mem s2).toNat - (mem s1).toNat
    if diff ≠ 0 then diff else memcmp mem (s1 + 1) (s2 + 1) n

/-- at most `fuel` rounds of the loop of `strcmp`, with the index of the last bytes that it read -/
def strcmp (mem : Nat → UInt8) (s1 s2 i : Nat) : Nat → Option (Int × Nat)
  | 0 => none
  | fuel + 1 =>
    let c1 : Int := (mem (s1 + i)).toNat
    let c2 : Int := (mem (s2 + i)).toNat
    let diff := c2 - c1
    if diff ≠ 0 then some (diff, i)
    else if c1 = 0 then some (0, i)
    else strcmp mem s1 s2 i fuel

/-- the first loop of `memmove` from index `i` on, with `n` rounds to go -/
def copyUp (mem : Nat → UInt8) (dst src i : Nat) : Nat → Nat → UInt8
  | 0 => mem
  | n + 1 => copyUp (Function.update mem (dst + i) (mem (src + i))) dst src (i + 1) n

/-- the second loop, with `n` rounds to go: the index is `size - i - 1 = n - 1` -/
def copyDown (mem : Nat → UInt8) (dst src : Nat) : Nat → Nat → UInt8
  | 0 => mem
  | n + 1 => copyDown (Function.update mem (dst + n) (mem (src + n))) dst src n

/-- with the pointer that `memmove` returns -/
def memmove (mem : Nat → UInt8) (dst src size : Nat) : (Nat → UInt8) × Nat :=
  let mem := if dst < src ∨ (src + size) % 2^64 ≤ dst then copyUp mem dst src 0 size
    else copyDown mem dst src size
  (mem, (dst + size) % 2^64)

/-! ## strings and blocks -/

/-- a NUL-terminated string at `a` -/
structure CString (mem : Nat → UInt8) (a : Nat) (s : List UInt8) : Prop where
  holds : HoldsAt mem a (s ++ [0])
  noNul : 0 ∉ s

/-- the bytes at `s1` and `s2` differ at index `k` for the first time -/
structure FirstDiff (mem : Nat → UInt8) (s1 s2 k : Nat) : Prop where
  same : ∀ i < k, mem (s1 + i) = mem (s2 + i)
  diff : mem (s1 + k) ≠ mem (s2 + k)

/-- the byte of `s1` minus that of `s2`, as unsigned characters -/
def byteDiff (mem : Nat → UInt8) (s1 s2 k : Nat) : Int := (mem (s1 + k)).toNat - (mem (s2 + k)).toNat

section
variable {mem : Nat → UInt8} {s1 s2 s3 n k : Nat}

theorem byteDiff_eq_zero : byteDiff mem s1 s2 k = 0 ↔ mem (s1 + k) = mem (s2 + k) := by
  rw [← UInt8.toNat_inj, byteDiff]
  omega

theorem byteDiff_swap : byteDiff mem s2 s1 k = -byteDiff mem s1 s2 k := by
  unfold byteDiff
  omega

theorem firstDiff_succ (h : mem s1 = mem s2) :
    FirstDiff mem s1 s2 (k + 1) ↔ FirstDiff mem (s1 + 1) (s2 + 1) k := by
  have hshift : ∀ s i, s + 1 + i = s + (i + 1) := fun s i => by omega
  constructor
  · rintro ⟨hsame, hdiff⟩
    refine ⟨fun i hi => ?_, ?_⟩
    · rw [hshift, hshift]
      exact hsame (i + 1) (Nat.succ_lt_succ hi)
    · rwa [hshift, hshift]
  · rintro ⟨hsame, hdiff⟩
    refine ⟨fun i hi => ?_, ?_⟩
    · cases i with
      | zero => exact h
      | succ i =>
        have := hsame i (Nat.lt_of_succ_lt_succ hi)
        rwa [hshift, hshift] at this
    · rwa [hshift, hshift] at hdiff

/-- different bytes differ somewhere for the first time -/
theorem exists_firstDiff (h : ∃ i < n, mem (s1 + i) ≠ mem (s2 + i)) : ∃ k < n, FirstDiff mem s1 s2 k := by
  classical
  obtain ⟨i, hi, hne⟩ := h
  have hex : ∃ i, mem (s1 + i) ≠ mem (s2 + i) := ⟨i, hne⟩
  refine ⟨Nat.find hex, Nat.lt_of_le_of_lt (Nat.find_min' hex hne) hi, fun j hj => ?_, Nat.find_spec hex⟩
  exact not_not.mp (Nat.find_min hex hj)

/-- a sign is not the opposite one, but for zero -/
theorem eq_zero_of_sign_neg {d : Int} (h : (-d).sign = d.sign) : d = 0 := by
  rw [Int.sign_neg] at h
  exact Int.sign_eq_zero_iff_zero.mp (by omega)

/-! ## `memcmp` -/

/-- the two branches of a round -/
theorem memcmp_succ (mem : Nat → UInt8) (s1 s2 n : Nat) : memcmp mem s1 s2 (n + 1) =
    if mem s1 = mem s2 then memcmp mem (s1 + 1) (s2 + 1) n else byteDiff mem s2 s1 0 := by
  have h0 : byteDiff mem s2 s1 0 = 0 ↔ mem s1 = mem s2 := byteDiff_eq_zero.trans eq_comm
  show (if byteDiff mem s2 s1 0 ≠ 0 then byteDiff mem s2 s1 0 else _) = _
  by_cases h : mem s1 = mem s2
  · rw [if_neg (not_not.mpr (h0.mpr h)), if_pos h]
  · rw [if_pos (mt h0.mp h), if_neg h]

theorem memcmp_eq_zero (mem : Nat → UInt8) (s1 s2 n : Nat) :
    memcmp mem s1 s2 n = 0 ↔ ∀ i < n, mem (s1 + i) = mem (s2 + i) := by
  have hshift (s i : Nat) : s + (i + 1) = s + 1 + i := by omega
  induction n generalizing s1 s2 with
  | zero =>
    simp [memcmp]
  | succ n ih =>
    rw [memcmp_succ, Nat.forall_lt_succ_left]
    by_cases h : mem s1 = mem s2
    · rw [if_pos h]
      refine (ih _ _).trans (Iff.trans (forall₂_congr fun i _ => ?_) (and_iff_right h).symm)
      rw [hshift s1 i, hshift s2 i]
    · rw [if_neg h, byteDiff_eq_zero]
      exact ⟨fun h0 => absurd h0.symm h, fun h0 => absurd h0.1 h⟩

/-- **At the first difference** the byte of `s1` is subtracted from that of `s2`. -/
theorem memcmp_of_firstDiff (hk : k < n) (h : FirstDiff mem s1 s2 k) :
    memcmp mem s1 s2 n = byteDiff mem s2 s1 k := by
  induction n generalizing s1 s2 k with
  | zero => exact absurd hk (Nat.not_lt_zero k)
  | succ n ih =>
    rw [memcmp_succ]
    cases k with
    | zero => exact if_neg h.diff
    | succ k =>
      have h0 : mem s1 = mem s2 := h.same 0 (Nat.succ_pos k)
      rw [if_pos h0, ih (Nat.lt_of_succ_lt_succ hk) ((firstDiff_succ h0).mp h)]
      unfold byteDiff
      rw [Nat.add_right_comm, Nat.add_right_comm s1, ← Nat.add_assoc, ← Nat.add_assoc]

theorem fetch_eq_fetch : fetch mem s1 n = fetch mem s2 n ↔ ∀ i < n, mem (s1 + i) = mem (s2 + i) := by
  constructor
  · intro h i hi
    have hat : ∀ s, (fetch mem s n)[i]? = some (mem (s + i)) := fun s => by
      have hlen : i < (fetch mem s n).length := by rwa [length_fetch]
      rw [List.getElem?_eq_getElem hlen, getElem_fetch]
    have h1 := hat s1
    rw [h, hat s2] at h1
    exact (Option.some.inj h1).symm
  · intro h
    refine List.ext_getElem (by rw [length_fetch, length_fetch]) fun i h1 h2 => ?_
    rw [getElem_fetch, getElem_fetch, h i (by rwa [length_fetch] at h1)]

theorem memcmp_swap (mem : Nat → UInt8) (s1 s2 n : Nat) : memcmp mem s2 s1 n = -memcmp mem s1 s2 n := by
  induction n generalizing s1 s2 with
  | zero => rfl
  | succ n ih =>
    rw [memcmp_succ, memcmp_succ]
    by_cases h : mem s1 = mem s2
    · rw [if_pos h.symm, if_pos h, ih]
    · rw [if_neg (Ne.symm h), if_neg h, byteDiff_swap]

/-- `memcmp` is positive where the blocks are in lexicographic order -/
theorem memcmp_pos (mem : Nat → UInt8) (s1 s2 n : Nat) :
    0 < memcmp mem s1 s2 n ↔ fetch mem s1 n < fetch mem s2 n := by
  induction n generalizing s1 s2 with
  | zero => simp [memcmp, fetch]
  | succ n ih =>
    rw [memcmp_succ, fetch, fetch, List.cons_lt_cons_iff, UInt8.lt_iff_toNat_lt]
    by_cases h : mem s1 = mem s2
    · rw [if_pos h, ih, h]
      simp
    · rw [if_neg h]
      unfold byteDiff
      simp [h]

theorem memcmp_nonneg (mem : Nat → UInt8) (s1 s2 n : Nat) :
    0 ≤ memcmp mem s1 s2 n ↔ fetch mem s1 n ≤ fetch mem s2 n := by
  rw [← List.not_lt, ← memcmp_pos, memcmp_swap mem s1 s2]
  omega

/-- what the C library promises of a result of `memcmp` -/
structure MemcmpRight (mem : Nat → UInt8) (s1 s2 n : Nat) (r : Int) : Prop where
  zero : r = 0 ↔ fetch mem s1 n = fetch mem s2 n
  sign : ∀ k < n, FirstDiff mem s1 s2 k → r.sign = (byteDiff mem s1 s2 k).sign
  less : r < 0 ↔ fetch mem s1 n < fetch mem s2 n
  greater : 0 < r ↔ fetch mem s2 n < fetch mem s1 n

/-- **`memcmp` is an order**, the reverse of the right one: its sign is right if and only if the blocks are
equal. -/
theorem memcmp_order (mem : Nat → UInt8) (s1 s2 n : Nat) :
    (MemcmpRight mem s1 s2 n (memcmp mem s1 s2 n) ↔ fetch mem s1 n = fetch mem s2 n) ∧
      memcmp mem s2 s1 n = -memcmp mem s1 s2 n ∧
      ∀ s3, 0 ≤ memcmp mem s1 s2 n → 0 ≤ memcmp mem s2 s3 n → 0 ≤ memcmp mem s1 s3 n := by
  refine ⟨⟨fun h => ?_, fun h => ?_⟩, memcmp_swap mem s1 s2 n, fun s3 h12 h23 => ?_⟩
  · rw [fetch_eq_fetch]
    by_contra hne
    push Not at hne
    obtain ⟨k, hk, hd⟩ := exists_firstDiff hne
    have hsign := h.sign k hk hd
    rw [memcmp_of_firstDiff hk hd, byteDiff_swap] at hsign
    exact hd.diff (byteDiff_eq_zero.mp (eq_zero_of_sign_neg hsign))
  · have hsame := fetch_eq_fetch.mp h
    have h0 := (memcmp_eq_zero mem s1 s2 n).mpr hsame
    rw [h0]
    refine ⟨iff_of_true rfl h, fun k hk hd => absurd (hsame k hk) hd.diff, ?_, ?_⟩
    · rw [h]
      exact iff_of_false (lt_irrefl 0) (List.lt_irrefl _)
    · rw [h]
      exact iff_of_false (lt_irrefl 0) (List.lt_irrefl _)
  · rw [memcmp_nonneg] at h12 h23 ⊢
    exact List.le_trans h12 h23

/-- the blocks `[1]` and `[2]` -/
theorem memcmp_wrong : ¬ ∀ mem s1 s2 n, MemcmpRight mem s1 s2 n (memcmp mem s1 s2 n) := by
  intro h
  have hless := (h (memOf 0 [1, 2]) 0 1 1).less
  exact absurd hless (by decide)

/-! ## `strcmp` -/

/-- the loop looks at the same two bytes in every round -/
theorem strcmp_eq (mem : Nat → UInt8) (s1 s2 i fuel : Nat) : strcmp mem s1 s2 i (fuel + 1) =
    if mem (s1 + i) ≠ mem (s2 + i) then some (byteDiff mem s2 s1 i, i)
    else if mem (s1 + i) = 0 then some (0, i)
    else none := by
  have h0 : byteDiff mem s2 s1 i ≠ 0 ↔ mem (s1 + i) ≠ mem (s2 + i) :=
    not_congr (byteDiff_eq_zero.trans eq_comm)
  have hnul : ((mem (s1 + i)).toNat : Int) = 0 ↔ mem (s1 + i) = 0 := by
    rw [← UInt8.toNat_inj]
    exact Int.natCast_eq_zero
  have hround : ∀ fuel, strcmp mem s1 s2 i (fuel + 1) =
      if mem (s1 + i) ≠ mem (s2 + i) then some (byteDiff mem s2 s1 i, i)
      else if mem (s1 + i) = 0 then some (0, i)
      else strcmp mem s1 s2 i fuel := fun fuel => by
    show (if byteDiff mem s2 s1 i ≠ 0 then some (byteDiff mem s2 s1 i, i)
      else if ((mem (s1 + i)).toNat : Int) = 0 then some (0, i) else strcmp mem s1 s2 i fuel) = _
    exact if_congr h0 rfl (if_congr hnul rfl rfl)
  induction fuel with
  | zero => exact hround 0
  | succ fuel ih =>
    rw [hround, ih]
    split_ifs <;> rfl

/-- what the C library promises of a result of `strcmp` on the strings `a` and `b`; `i` is the index of the
last bytes read -/
structure StrcmpRight (mem : Nat → UInt8) (s1 s2 : Nat) (a b : List UInt8) (r : Int) (i : Nat) : Prop where
  inside : ∀ j < i, mem (s1 + j) = mem (s2 + j) ∧ mem (s1 + j) ≠ 0
  zero : r = 0 ↔ a = b
  sign : ∀ k, FirstDiff mem s1 s2 k → k ≤ a.length → k ≤ b.length → r.sign = (byteDiff mem s1 s2 k).sign

theorem CString.head {a : List UInt8} (h : CString mem s1 a) : mem s1 = 0 ↔ a = [] := by
  have hat := h.holds
  cases a with
  | nil => exact iff_of_true (hat 0 Nat.one_pos) rfl
  | cons c a =>
    have hc : mem s1 = c := hat 0 (Nat.succ_pos _)
    refine iff_of_false (fun h0 => h.noNul ?_) (List.cons_ne_nil c a)
    rw [← h0, hc]
    exact List.mem_cons_self

/-- **`strcmp` is right for two empty strings only.**  It returns if and only if the first bytes differ, or
both strings are empty. -/
theorem strcmp_right {a b : List UInt8} (ha : CString mem s1 a) (hb : CString mem s2 b) :
    ((∃ fuel r i, strcmp mem s1 s2 0 fuel = some (r, i) ∧ StrcmpRight mem s1 s2 a b r i) ↔
      a = [] ∧ b = []) ∧
    ((∃ fuel r i, strcmp mem s1 s2 0 fuel = some (r, i)) ↔ mem s1 ≠ mem s2 ∨ (a = [] ∧ b = [])) := by
  have hsome : ∀ {fuel x}, strcmp mem s1 s2 0 fuel = some x →
      (if mem s1 ≠ mem s2 then some (byteDiff mem s2 s1 0, 0)
        else if mem s1 = 0 then some (0, 0) else none) = some x := by
    intro fuel x h
    cases fuel with
    | zero => exact nomatch h
    | succ fuel =>
      rw [strcmp_eq] at h
      exact h
  have hempty : a = [] ∧ b = [] → strcmp mem s1 s2 0 1 = some (0, 0) := by
    rintro ⟨h1, h2⟩
    have h1 := ha.head.mpr h1
    have h2 := hb.head.mpr h2
    rw [strcmp_eq, Nat.add_zero, Nat.add_zero, if_neg (not_not.mpr (h1.trans h2.symm)), if_pos h1]
  constructor
  · constructor
    · rintro ⟨fuel, r, i, hr, hright⟩
      have hval := hsome hr
      split_ifs at hval with hne h0
      · -- the first bytes differ: the sign is the opposite one
        obtain ⟨rfl, rfl⟩ := Prod.mk.inj (Option.some.inj hval)
        have hfirst : FirstDiff mem s1 s2 0 := ⟨fun i hi => absurd hi (Nat.not_lt_zero i), hne⟩
        have hsign := hright.sign 0 hfirst (Nat.zero_le _) (Nat.zero_le _)
        rw [byteDiff_swap] at hsign
        exact absurd (byteDiff_eq_zero.mp (eq_zero_of_sign_neg hsign)) hne
      · exact ⟨ha.head.mp h0, hb.head.mp (not_not.mp hne ▸ h0)⟩
    · intro h
      refine ⟨1, 0, 0, hempty h, fun j hj => absurd hj (Nat.not_lt_zero j), ?_, ?_⟩
      · exact iff_of_true rfl (h.1.trans h.2.symm)
      · intro k hk h1 _
        rw [h.1] at h1
        have h0 : k = 0 := Nat.le_zero.mp h1
        have hsame : mem s1 = mem s2 := (ha.head.mpr h.1).trans (hb.head.mpr h.2).symm
        rw [h0] at hk
        exact absurd hsame hk.diff
  · constructor
    · rintro ⟨fuel, r, i, hr⟩
      have hval := hsome hr
      split_ifs at hval with hne h0
      · exact Or.inl hne
      · exact Or.inr ⟨ha.head.mp h0, hb.head.mp (not_not.mp hne ▸ h0)⟩
    · rintro (hne | h)
      · refine ⟨1, byteDiff mem s2 s1 0, 0, ?_⟩
        rw [strcmp_eq]
        exact if_pos hne
      · exact ⟨1, 0, 0, hempty h⟩

end

/-- the string `"a"` twice -/
def twoStrings : Nat → UInt8 := memOf 0 [97, 0, 97, 0]

theorem twoStrings_at {a : Nat} (h : a = 0 ∨ a = 2) : CString twoStrings a [97] := by
  have hall : HoldsAt twoStrings 0 ([97, 0] ++ [97, 0]) := holdsAt_memOf 0 _
  obtain ⟨h0, h2⟩ := holdsAt_append.mp hall
  rcases h with rfl | rfl
  · exact ⟨h0, by decide⟩
  · exact ⟨h2, by decide⟩

theorem strcmp_right_empty : ∃ fuel r i, strcmp (memOf 0 [0]) 0 0 0 fuel = some (r, i) ∧
    StrcmpRight (memOf 0 [0]) 0 0 [] [] r i := by
  have h : CString (memOf 0 [0]) 0 [] := ⟨holdsAt_memOf 0 _, List.not_mem_nil⟩
  exact (strcmp_right h h).1.mpr ⟨rfl, rfl⟩

/-- two equal strings are compared for ever -/
theorem strcmp_wrong : ¬ ∀ mem s1 s2 a b, CString mem s1 a → CString mem s2 b →
    ∃ fuel r i, strcmp mem s1 s2 0 fuel = some (r, i) ∧ StrcmpRight mem s1 s2 a b r i := by
  intro h
  obtain ⟨fuel, r, i, hr, -⟩ :=
    h twoStrings 0 2 [97] [97] (twoStrings_at (Or.inl rfl)) (twoStrings_at (Or.inr rfl))
  cases fuel with
  | zero => exact nomatch hr
  | succ fuel =>
    rw [strcmp_eq] at hr
    exact nomatch hr

/-! ## `memmove` -/

section
variable {mem : Nat → UInt8} {dst src i n size : Nat}

theorem update_eq_store (mem : Nat → UInt8) (p : Nat) (b : UInt8) : Function.update mem p b = store mem p [b] := by
  funext q
  rcases Nat.lt_trichotomy q p with h | rfl | h
  · rw [store_of_lt _ _ h, Function.update_of_ne (Nat.ne_of_lt h)]
  · have hat := holdsAt_store mem q [b] 0 Nat.one_pos
    rw [Function.update_self]
    exact hat.symm
  · rw [store_of_ge _ _ h, Function.update_of_ne (Nat.ne_of_gt h)]

/-- bytes beside a store -/
theorem fetch_update_beside {p : Nat} (b : UInt8) (h : p < src ∨ src + n ≤ p) :
    fetch (Function.update mem p b) src n = fetch mem src n := by
  refine fetch_congr fun j hj => ?_
  rw [Function.update_of_ne (by omega)]

/-- stores beside each other -/
theorem store_comm (mem : Nat → UInt8) {a b : Nat} (l r : List UInt8) (h : a + l.length ≤ b) :
    store (store mem b r) a l = store (store mem a l) b r := by
  funext p
  by_cases hl : a ≤ p ∧ p < a + l.length
  · rw [store_of_lt (store mem a l) r (by omega)]
    unfold store
    have hin : p - a < l.length := by omega
    rw [if_pos hl.1, if_pos hl.1, List.getElem?_eq_getElem hin, Option.getD_some, Option.getD_some]
  · have hout : ∀ m : Nat → UInt8, store m a l p = m p := fun m => by
      rcases Nat.lt_or_ge p a with hlt | hge
      · exact store_of_lt m l hlt
      · exact store_of_ge m l (by omega)
    rw [hout]
    unfold store
    exact if_congr Iff.rfl (congrArg _ (hout mem).symm) (hout mem).symm

/-- copying upwards, to below the source or behind all of it -/
theorem copyUp_eq (h : dst ≤ src ∨ src + n ≤ dst) :
    copyUp mem dst src i n = store mem (dst + i) (fetch mem (src + i) n) := by
  induction n generalizing mem i with
  | zero => exact (store_nil mem (dst + i)).symm
  | succ n ih =>
    have hbeside : dst + i < src + (i + 1) ∨ src + (i + 1) + n ≤ dst + i := by omega
    have happend := store_append mem (dst + i) [mem (src + i)] (fetch mem (src + (i + 1)) n)
    rw [copyUp, ih (by omega), fetch_update_beside _ hbeside, update_eq_store]
    exact happend

/-- copying downwards, to above the source -/
theorem copyDown_eq (h : src ≤ dst) : copyDown mem dst src n = store mem dst (fetch mem src n) := by
  induction n generalizing mem with
  | zero => exact (store_nil mem dst).symm
  | succ n ih =>
    have hlast : fetch mem src (n + 1) = fetch mem src n ++ [mem (src + n)] := by
      refine List.ext_getElem (by simp [length_fetch]) fun j h1 h2 => ?_
      rw [getElem_fetch, List.getElem_append]
      rw [length_fetch] at h1
      split_ifs with hj
      · rw [getElem_fetch]
      · rw [length_fetch] at hj
        have hjn : j = n := by omega
        rw [List.getElem_singleton, hjn]
    have hlen := length_fetch mem src n
    rw [copyDown, ih, fetch_update_beside _ (Or.inr (by omega)), update_eq_store,
      store_comm _ _ _ (by omega), hlast, ← store_append, hlen]

/-- `memmove` copies the bytes that were there before. -/
theorem memmove_eq (hdst : dst + size ≤ 2^64) :
    (memmove mem dst src size).1 = store mem dst (fetch mem src size) := by
  unfold memmove
  dsimp only
  by_cases hup : dst < src ∨ (src + size) % 2^64 ≤ dst
  · -- a source that ends at `2^64` ends at `0` for the test, but there is no room for a target above it
    rw [if_pos hup, copyUp_eq (by omega)]
    rfl
  · rw [if_neg hup, copyDown_eq (by omega)]

/-- **`memmove`**: the destination holds what the source held before, and nothing else changes. -/
theorem memmove_copies (_ : src + size ≤ 2^64) (hdst : dst + size ≤ 2^64) :
    (∀ i < size, (memmove mem dst src size).1 (dst + i) = mem (src + i)) ∧
      ∀ p, p < dst ∨ dst + size ≤ p → (memmove mem dst src size).1 p = mem p := by
  rw [memmove_eq hdst]
  have hlen := length_fetch mem src size
  refine ⟨fun i hi => ?_, fun p hp => ?_⟩
  · have hat := holdsAt_store mem dst (fetch mem src size) i (by rwa [hlen])
    rw [hat, getElem_fetch]
  · rcases hp with hp | hp
    · exact store_of_lt mem _ hp
    · exact store_of_ge mem _ (by rwa [hlen])

end

/-- three bytes moved up by one, within the last four of the address space -/
theorem memmove_copies_overlap :
    (∀ i < 3, (memmove (memOf (2^64 - 4) [1, 2, 3]) (2^64 - 3) (2^64 - 4) 3).1 (2^64 - 3 + i) =
        memOf (2^64 - 4) [1, 2, 3] (2^64 - 4 + i)) ∧
      ∀ p, p < 2^64 - 3 ∨ 2^64 - 3 + 3 ≤ p →
        (memmove (memOf (2^64 - 4) [1, 2, 3]) (2^64 - 3) (2^64 - 4) 3).1 p = memOf (2^64 - 4) [1, 2, 3] p :=
  memmove_copies (by decide) (by decide)

end FuseeOS
