import Mathlib.Algebra.GroupWithZero.Nat
import Mathlib.Algebra.BigOperators.Group.List.Basic
import Mathlib.Data.List.DropRight
import Mathlib.Data.List.Pairwise

/-!
# Blocks that tile an interval

A list of blocks, each with a length, laid out one behind the other from an address `base`.

* `starts base bs`     the blocks with their addresses;
* `mem_starts`         a block is where the blocks before it end;
* `starts_sorted`      blocks do not overlap, so that an address determines its block;
* `keptEnd_starts`     dropping blocks from the end, by a scan from the front.
-/

namespace Tiling
variable {β : Type} (len : β → Nat)

/-- sum of the lengths -/
def total (bs : List β) : Nat := (bs.map len).sum

def starts (base : Nat) : List β → List (Nat × β)
  | [] => []
  | b :: bs => (base, b) :: starts (base + len b) bs

theorem total_cons (b : β) (bs : List β) : total len (b :: bs) = len b + total len bs := by
  unfold total
  rw [List.map_cons, List.sum_cons]

theorem total_append (bs cs : List β) : total len (bs ++ cs) = total len bs + total len cs := by
  unfold total
  rw [List.map_append, List.sum_append]

theorem total_singleton (b : β) : total len [b] = len b := by
  unfold total
  rw [List.map_singleton, List.sum_singleton]

theorem starts_append (base : Nat) (bs cs : List β) :
    starts len base (bs ++ cs) = starts len base bs ++ starts len (base + total len bs) cs := by
  induction bs generalizing base with
  | nil => rfl
  | cons b bs ih =>
    rw [List.cons_append, starts, starts, ih, total_cons, List.cons_append, Nat.add_assoc]

theorem length_le_total {m : Nat} (bs : List β) (h : ∀ b ∈ bs, m ≤ len b) :
    m * bs.length ≤ total len bs := by
  induction bs with
  | nil => exact Nat.zero_le _
  | cons b bs ih =>
    have hb := h b (List.mem_cons_self ..)
    have ih' := ih fun c hc => h c (List.mem_cons_of_mem _ hc)
    rw [total_cons, List.length_cons, Nat.mul_succ]
    omega

variable {len}

/-- a block is where the blocks before it end -/
theorem mem_starts {base a : Nat} {b : β} {bs : List β} :
    (a, b) ∈ starts len base bs ↔ ∃ l r, bs = l ++ b :: r ∧ a = base + total len l := by
  constructor
  · intro h
    induction bs generalizing base with
    | nil => exact nomatch h
    | cons c bs ih =>
      rcases List.mem_cons.mp h with e | h
      · obtain ⟨rfl, rfl⟩ := Prod.mk.inj e
        exact ⟨[], bs, rfl, rfl⟩
      · obtain ⟨l, r, rfl, rfl⟩ := ih h
        refine ⟨c :: l, r, rfl, ?_⟩
        rw [total_cons, Nat.add_assoc]
  · rintro ⟨l, r, rfl, rfl⟩
    rw [starts_append]
    exact List.mem_append_right _ (List.mem_cons_self ..)

theorem total_mod {m : Nat} {bs : List β} (hm : ∀ b ∈ bs, len b % m = 0) :
    total len bs % m = 0 := by
  induction bs with
  | nil => exact Nat.zero_mod m
  | cons c bs ih =>
    have hc := hm c (List.mem_cons_self ..)
    rw [total_cons, Nat.add_mod, hc, ih fun b hb => hm b (List.mem_cons_of_mem _ hb)]
    exact Nat.zero_mod m

section
variable {base : Nat} {bs : List β} {x y : Nat × β}

theorem starts_mem (h : x ∈ starts len base bs) : x.2 ∈ bs := by
  obtain ⟨l, r, rfl, _⟩ := mem_starts.mp h
  exact List.mem_append_right _ (List.mem_cons_self ..)

/-- every block lies in the interval that the blocks tile -/
theorem starts_range (h : x ∈ starts len base bs) :
    base ≤ x.1 ∧ x.1 + len x.2 ≤ base + total len bs := by
  obtain ⟨l, r, rfl, e⟩ := mem_starts.mp h
  rw [e, total_append, total_cons]
  omega

theorem starts_mod {m : Nat} (hm : ∀ b ∈ bs, len b % m = 0) (h : x ∈ starts len base bs) :
    x.1 % m = base % m := by
  obtain ⟨l, r, rfl, e⟩ := mem_starts.mp h
  have hl := total_mod fun b hb => hm b (List.mem_append_left _ hb)
  rw [e, Nat.add_mod, hl, Nat.add_zero, Nat.mod_mod]

/-- the blocks follow each other -/
theorem starts_sorted (base : Nat) (bs : List β) :
    (starts len base bs).Pairwise fun x y => x.1 + len x.2 ≤ y.1 := by
  induction bs generalizing base with
  | nil => exact List.Pairwise.nil
  | cons b bs ih =>
    refine List.pairwise_cons.mpr ⟨fun y hy => ?_, ih _⟩
    exact (starts_range hy).1

theorem starts_apart (hx : x ∈ starts len base bs) (hy : y ∈ starts len base bs) :
    x = y ∨ x.1 + len x.2 ≤ y.1 ∨ y.1 + len y.2 ≤ x.1 := by
  by_cases e : x = y
  · exact .inl e
  · have hsym : (starts len base bs).Pairwise
        fun x y => x.1 + len x.2 ≤ y.1 ∨ y.1 + len y.2 ≤ x.1 :=
      (starts_sorted base bs).imp .inl
    have : Std.Symm fun x y : Nat × β => x.1 + len x.2 ≤ y.1 ∨ y.1 + len y.2 ≤ x.1 :=
      ⟨fun _ _ h => h.symm⟩
    exact .inr (hsym.forall hx hy e)

end

/-! ## changing the list -/

section
variable {base : Nat} {bs l r : List β} {b c : β} {x : Nat × β}

theorem mem_starts_concat :
    x ∈ starts len base (bs ++ [b]) ↔ x ∈ starts len base bs ∨ x = (base + total len bs, b) := by
  rw [starts_append, List.mem_append]
  exact or_congr_right List.mem_singleton

/-- a block is replaced by one of the same length -/
theorem mem_starts_replace (hpos : ∀ d ∈ l ++ b :: r, 0 < len d) (hlen : len c = len b) :
    x ∈ starts len base (l ++ c :: r) ↔ x = (base + total len l, c) ∨
      x ∈ starts len base (l ++ b :: r) ∧ x.1 ≠ base + total len l := by
  rw [starts_append, starts_append, starts, starts, hlen, List.mem_append, List.mem_append,
    List.mem_cons, List.mem_cons]
  have hl : x ∈ starts len base l → x.1 ≠ base + total len l := by
    intro hx
    have h1 := starts_range hx
    have h2 := hpos _ (List.mem_append_left _ (starts_mem hx))
    omega
  have hr : x ∈ starts len (base + total len l + len b) r → x.1 ≠ base + total len l := by
    intro hx
    have h1 := starts_range hx
    have h2 := hpos b (List.mem_append_right _ (List.mem_cons_self ..))
    omega
  constructor
  · rintro (hx | rfl | hx)
    · exact .inr ⟨.inl hx, hl hx⟩
    · exact .inl rfl
    · exact .inr ⟨.inr (.inr hx), hr hx⟩
  · rintro (rfl | ⟨hx | rfl | hx, hne⟩)
    · exact .inr (.inl rfl)
    · exact .inl hx
    · exact absurd rfl hne
    · exact .inr (.inr hx)

theorem starts_mono (h : l <+: bs) (hx : x ∈ starts len base l) : x ∈ starts len base bs := by
  obtain ⟨t, rfl⟩ := h
  rw [starts_append]
  exact List.mem_append_left _ hx

/-- blocks that are not to be dropped stay -/
theorem mem_starts_rdropWhile {drop : β → Bool} (hx : x ∈ starts len base bs)
    (hd : drop x.2 = false) : x ∈ starts len base (bs.rdropWhile drop) := by
  induction bs using List.reverseRecOn with
  | nil => exact nomatch hx
  | append_singleton bs b ih =>
    by_cases hb : drop b = true
    · rw [List.rdropWhile_concat_pos _ _ _ hb]
      rcases mem_starts_concat.mp hx with hx | rfl
      · exact ih hx
      · rw [hb] at hd
        exact nomatch hd
    · rwa [List.rdropWhile_concat_neg _ _ _ hb]

end

/-! ## dropping blocks from the end -/

variable (len)

/-- end of the last block that is not dropped, by a scan from the front -/
def keptEnd (drop : β → Bool) (base : Nat) (xs : List (Nat × β)) : Nat :=
  xs.foldl (fun acc x => if drop x.2 then acc else x.1 + len x.2 - base) 0

theorem keptEnd_append (drop : β → Bool) (base : Nat) (xs : List (Nat × β)) (x : Nat × β) :
    keptEnd len drop base (xs ++ [x]) =
      if drop x.2 then keptEnd len drop base xs else x.1 + len x.2 - base := by
  unfold keptEnd
  rw [List.foldl_append]
  rfl

theorem keptEnd_starts (drop : β → Bool) (base : Nat) (bs : List β) :
    keptEnd len drop base (starts len base bs) = total len (bs.rdropWhile drop) := by
  induction bs using List.reverseRecOn with
  | nil => rfl
  | append_singleton bs b ih =>
    rw [starts_append, starts, starts, keptEnd_append]
    by_cases hb : drop b = true
    · rw [if_pos hb, List.rdropWhile_concat_pos _ _ _ hb, ih]
    · rw [if_neg hb, List.rdropWhile_concat_neg _ _ _ hb, total_append, total_singleton]
      show base + total len bs + len b - base = _
      omega

end Tiling
