import Mathlib.Tactic.Ring

/-!
# Pyramids of bits

`n` levels of bits; node `k` of level `j + 1` has the children `2 * k` and `2 * k + 1` of level `j`.
In a pyramid (`Ok`) a node is set exactly if one of its children is.

A pyramid is repaired from the bottom up.  `ClearBut n t j o`: every link is right except, perhaps,
the one below node `o` of level `j`, whose children are both clear; `SetBut` is the same with a
child that is set.  Each lemma is one step of a repair loop: `climb` goes one level up, `stop` and
`top` are the two ways to be done.

* `Ok.group`   node `k` of level `j` is set exactly if some leaf of its `2^j` leaves is.
-/

namespace Pyramid

/-- the other child of the same node -/
def buddy (o : Nat) : Nat := if o % 2 = 0 then o + 1 else o - 1

/-- write one bit -/
def upd (t : Nat → Nat → Bool) (j o : Nat) (v : Bool) : Nat → Nat → Bool :=
  fun i k => if i = j ∧ k = o then v else t i k

theorem upd_same (t : Nat → Nat → Bool) (j o : Nat) (v : Bool) : upd t j o v j o = v := by
  simp [upd]

theorem upd_level (t : Nat → Nat → Bool) (j o : Nat) (v : Bool) (i k : Nat) (h : i ≠ j) :
    upd t j o v i k = t i k := by
  simp [upd, h]

theorem upd_node (t : Nat → Nat → Bool) (j o : Nat) (v : Bool) (i k : Nat) (h : k ≠ o) :
    upd t j o v i k = t i k := by
  simp [upd, h]

/-- the children of the parent of `o` are `o` and its buddy -/
theorem children_half (t : Nat → Bool) (o : Nat) :
    (t (2 * (o / 2)) || t (2 * (o / 2) + 1)) = (t o || t (buddy o)) := by
  unfold buddy
  by_cases h : o % 2 = 0
  · have e : 2 * (o / 2) = o := by omega
    rw [if_pos h, e]
  · have e : 2 * (o / 2) = o - 1 := by omega
    have e' : o - 1 + 1 = o := by omega
    rw [if_neg h, e, e', Bool.or_comm]

theorem buddy_ne (o : Nat) : buddy o ≠ o := by
  unfold buddy; split <;> omega

theorem child_half {o k : Nat} (h : 2 * k = o ∨ 2 * k + 1 = o) : k = o / 2 := by omega

def Link (t : Nat → Nat → Bool) (j k : Nat) : Prop :=
  t (j + 1) k = (t j (2 * k) || t j (2 * k + 1))

/-- every node above the bottom is set exactly if one of its children is -/
def Ok (n : Nat) (t : Nat → Nat → Bool) : Prop := ∀ j, j + 1 < n → ∀ k, Link t j k

structure ClearBut (n : Nat) (t : Nat → Nat → Bool) (j o : Nat) : Prop where
  links : ∀ i, i + 1 < n → ∀ k, ¬ (i + 1 = j ∧ k = o) → Link t i k
  below : ∀ i, i + 1 = j → t i (2 * o) = false ∧ t i (2 * o + 1) = false

structure SetBut (n : Nat) (t : Nat → Nat → Bool) (j o : Nat) : Prop where
  links : ∀ i, i + 1 < n → ∀ k, ¬ (i + 1 = j ∧ k = o) → Link t i k
  below : ∀ i, i + 1 = j → (t i (2 * o) || t i (2 * o + 1)) = true

variable {n j o : Nat} {t : Nat → Nat → Bool}

theorem Ok.clearBut (h : Ok n t) (o : Nat) : ClearBut n t 0 o :=
  ⟨fun i hi k _ => h i hi k, fun i hi => absurd hi (by omega)⟩

theorem Ok.setBut (h : Ok n t) (o : Nat) : SetBut n t 0 o :=
  ⟨fun i hi k _ => h i hi k, fun i hi => absurd hi (by omega)⟩

/-- writing node `o` of level `j` leaves alone every link that does not touch it -/
theorem link_upd (v : Bool) (i k : Nat) (h1 : ¬ (i + 1 = j ∧ k = o)) (h2 : ¬ (i = j ∧ k = o / 2))
    (h : Link t i k) : Link (upd t j o v) i k := by
  unfold Link at *
  have hp : upd t j o v (i + 1) k = t (i + 1) k := if_neg h1
  have hl : upd t j o v i (2 * k) = t i (2 * k) := by
    apply if_neg
    rintro ⟨hi, hk⟩
    exact h2 ⟨hi, child_half (.inl hk)⟩
  have hr : upd t j o v i (2 * k + 1) = t i (2 * k + 1) := by
    apply if_neg
    rintro ⟨hi, hk⟩
    exact h2 ⟨hi, child_half (.inr hk)⟩
  rw [hp, hl, hr, h]

/-- after node `o` of level `j` is cleared, only the link above it can be wrong -/
theorem ClearBut.links_clear (h : ClearBut n t j o) (i : Nat) (hi : i + 1 < n) (k : Nat)
    (hk : ¬ (i = j ∧ k = o / 2)) : Link (upd t j o false) i k := by
  by_cases e : i + 1 = j ∧ k = o
  · obtain ⟨hij, hko⟩ := e
    obtain ⟨h1, h2⟩ := h.below i hij
    have hne : i ≠ j := by omega
    unfold Link
    rw [upd_level _ _ _ _ _ _ hne, upd_level _ _ _ _ _ _ hne, hij, hko, upd_same, h1, h2]
    rfl
  · exact link_upd false i k e hk (h.links i hi k e)

theorem ClearBut.stop (h : ClearBut n t j o) (hb : t j (buddy o) = true) :
    Ok n (upd t j o false) := by
  intro i hi k
  by_cases hk : i = j ∧ k = o / 2
  · obtain ⟨rfl, rfl⟩ := hk
    have hl : Link t i (o / 2) := h.links i hi _ (by omega)
    unfold Link at *
    rw [children_half, upd_same, upd_node _ _ _ _ _ _ (buddy_ne o), hb,
      upd_level _ _ _ _ _ _ (by omega), hl, children_half, hb]
    simp
  · exact h.links_clear i hi k hk

theorem ClearBut.climb (h : ClearBut n t j o) (hb : t j (buddy o) = false) :
    ClearBut n (upd t j o false) (j + 1) (o / 2) := by
  refine ⟨fun i hi k hk => h.links_clear i hi k (by omega), fun i hi => ?_⟩
  have hij : i = j := by omega
  subst hij
  have e := children_half (upd t i o false i) o
  rw [upd_same, upd_node _ _ _ _ _ _ (buddy_ne o), hb] at e
  exact Bool.or_eq_false_iff.mp e

theorem ClearBut.top (h : ClearBut n t j o) (hj : n ≤ j + 1) : Ok n (upd t j o false) :=
  fun i hi k => h.links_clear i hi k (by omega)

theorem SetBut.stop (h : SetBut n t j o) (hs : t j o = true) : Ok n t := by
  intro i hi k
  by_cases e : i + 1 = j ∧ k = o
  · obtain ⟨rfl, rfl⟩ := e
    unfold Link
    rw [hs, h.below i rfl]
  · exact h.links i hi k e

theorem SetBut.climb (h : SetBut n t j o) : SetBut n (upd t j o true) (j + 1) (o / 2) := by
  refine ⟨fun i hi k hk => ?_, fun i hi => ?_⟩
  · by_cases e : i + 1 = j ∧ k = o
    · obtain ⟨hij, hko⟩ := e
      have hne : i ≠ j := by omega
      unfold Link
      rw [upd_level _ _ _ _ _ _ hne, upd_level _ _ _ _ _ _ hne, hij, hko, upd_same, h.below i hij]
    · exact link_upd true i k e (by omega) (h.links i hi k e)
  · have hij : i = j := by omega
    subst hij
    rw [children_half, upd_same, Bool.true_or]

theorem SetBut.top (h : SetBut n t j o) (hj : n ≤ j) : Ok n t :=
  fun i hi k => h.links i hi k (by omega)

/-- in a pyramid a node is set exactly if some leaf below it is -/
theorem Ok.group (h : Ok n t) (j : Nat) (hj : j < n) (k : Nat) :
    t j k = true ↔ ∃ i, i < 2^j ∧ t 0 (2^j * k + i) = true := by
  induction j generalizing k with
  | zero =>
    constructor
    · intro hk
      exact ⟨0, by simp, by simpa using hk⟩
    · rintro ⟨i, hi, ht⟩
      have e : i = 0 := by simpa using hi
      subst e
      simpa using ht
  | succ j ih =>
    have hl : t (j + 1) k = (t j (2 * k) || t j (2 * k + 1)) := h j hj k
    have e0 : 2^j * (2 * k) = 2^(j + 1) * k := by ring
    have e1 : 2^j * (2 * k + 1) = 2^(j + 1) * k + 2^j := by ring
    have ep : 2^(j + 1) = 2^j + 2^j := by ring
    rw [hl, Bool.or_eq_true, ih (by omega), ih (by omega), e0, e1]
    constructor
    · rintro (⟨i, hi, ht⟩ | ⟨i, hi, ht⟩)
      · exact ⟨i, by omega, ht⟩
      · exact ⟨2^j + i, by omega, by rw [← Nat.add_assoc]; exact ht⟩
    · rintro ⟨i, hi, ht⟩
      by_cases hlt : i < 2^j
      · exact .inl ⟨i, hlt, ht⟩
      · refine .inr ⟨i - 2^j, by omega, ?_⟩
        have e : 2^(j + 1) * k + 2^j + (i - 2^j) = 2^(j + 1) * k + i := by omega
        rw [e]; exact ht

end Pyramid
