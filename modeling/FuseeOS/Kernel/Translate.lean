import FuseeOS.Kernel.PageOps

/-!
# What the processor makes of the page tables

`translate` walks the four levels; here it is read off the entries of the tree.

* `translate_congr`      two roots with one top entry translate alike;
* `translate_walk`       an address is translated by the four entries on the way to its page;
* `translate_leaf`       a mapped page: its frame, and the permissions of its four entries;
* `translate_none`       a page without a leaf is not mapped;
* `translate_user`       a page whose last entry keeps users out is closed to users;
* `Grown.translate`      tables that are added change no translation.
-/

namespace FuseeOS
open Radix

/-- canonical addresses of the kernel's half -/
def upperHalf (va : Nat) : Prop := 2^64 - 2^47 ≤ va ∧ va < 2^64

instance (va : Nat) : Decidable (upperHalf va) := inferInstanceAs (Decidable (_ ∧ _))

theorem upperHalf.canonical {va : Nat} (h : upperHalf va) : canonical va := .inr h

/-- the upper half is behind the entries 256 to 511 -/
theorem upperHalf.index {va : Nat} (h : upperHalf va) : 256 ≤ (pageIndex (va / 4096) 3).val := by
  show 256 ≤ va / 4096 / 512^3 % 512
  unfold upperHalf at h
  omega

/-- **Two roots with one top entry translate alike.** -/
theorem translate_congr {mem : PhysMem} {root root' va : Nat}
    (h : mem root (pageIndex (va / 4096) 3) = mem root' (pageIndex (va / 4096) 3)) :
    translate mem root va = translate mem root' va := by
  unfold translate
  refine if_congr Iff.rfl ?_ rfl
  unfold translateFrom
  rw [h]

/-! ## the entries on the way to a page -/

/-- the entry of level `k` on the way to page `v` -/
def entryOf (m : Machine) (v k : Nat) : Option (BitVec 64) := m.entry (stem v (3 - k)) (pageIndex v k)

theorem entryOf_zero (m : Machine) (v : Nat) : entryOf m v 0 = leaf m v := rfl

/-- what is left of `perm` behind an entry -/
def allow (perm : Translation) (w : BitVec 64) : Translation :=
  ⟨perm.addr, perm.write && writable w, perm.user && userOk w, perm.noExec || noExec w⟩

/-- the walk, if the entry of level `k` is `e k` -/
def walkFrom (va : Nat) (e : Nat → Option (BitVec 64)) : Nat → Translation → Option Translation
  | 0, perm => (e 0).map fun w => { allow perm w with addr := frameOf w + va % 4096 }
  | k + 1, perm => (e (k + 1)).bind fun w =>
    if large w then
      if k + 1 = 3 then none
      else
        let size := 4096 * 512^(k + 1)
        some { allow perm w with addr := frameOf w / size * size + va % size }
    else walkFrom va e k (allow perm w)

section
variable {m : Machine} {R : Nat → Prop} {va : Nat}

/-- by induction on the levels that are left -/
theorem translateFrom_walk (k t : Nat) (perm : Translation) (hk : k ≤ 3)
    (ht : m.nodeAt (stem (va / 4096) (3 - k)) = some t) :
    translateFrom m.mem va k t perm = walkFrom va (entryOf m (va / 4096)) k perm := by
  have he : entryOf m (va / 4096) k = if present (m.mem t (pageIndex (va / 4096) k)) then
      some (m.mem t (pageIndex (va / 4096) k)) else none := entry_of_node ht
  induction k generalizing t perm with
  | zero =>
    unfold translateFrom walkFrom
    rw [he]
    by_cases hp : present (m.mem t (pageIndex (va / 4096) 0)) = true
    · simp only [hp, if_true]
      rfl
    · simp only [if_neg hp]
      rfl
  | succ k ih =>
    unfold walkFrom
    rw [he]
    conv_lhs => unfold translateFrom
    by_cases hp : present (m.mem t (pageIndex (va / 4096) (k + 1))) = true
    · simp only [hp, if_true, Option.bind_some]
      by_cases hl : large (m.mem t (pageIndex (va / 4096) (k + 1))) = true
      · rw [if_pos hl, if_pos hl]
        rfl
      · have hnext : m.nodeAt (stem (va / 4096) (3 - k)) =
            some (frameOf (m.mem t (pageIndex (va / 4096) (k + 1)))) := by
          have hs := nodeAt_stem_succ (show 3 - (k + 1) < 3 by omega) ht
          rw [show 3 - (k + 1) + 1 = 3 - k by omega, show 3 - (3 - (k + 1)) = k + 1 by omega] at hs
          rw [hs]
          unfold next
          rw [hp, (by simpa using hl : large _ = false)]
          rfl
        rw [if_neg hl, if_neg hl]
        exact ih _ _ (by omega) hnext (entry_of_node hnext)
    · simp only [if_neg hp]
      rfl

/-- **An address is translated by the four entries on the way to its page.** -/
theorem translate_walk (m : Machine) (va : Nat) : translate m.mem m.cr3 va =
    if canonical va then walkFrom va (entryOf m (va / 4096)) 3 ⟨0, true, true, false⟩ else none :=
  if_congr Iff.rfl (translateFrom_walk 3 m.cr3 _ (le_refl 3) rfl) rfl

/-- behind an absent entry there are no others -/
theorem entryOf_none {v k : Nat} (hk : k < 3) (h : entryOf m v (k + 1) = none) : entryOf m v k = none := by
  unfold entryOf Machine.entry
  have hs : stem v (3 - k) = stem v (3 - (k + 1)) ++ [pageIndex v (k + 1)] := by
    rw [show 3 - k = 3 - (k + 1) + 1 by omega, stem_succ v (by omega),
      show 3 - (3 - (k + 1)) = k + 1 by omega]
  unfold entryOf at h
  rw [hs, nodeAt_succ, h]
  rfl

end

/-! ## pages below plain tables -/

section
variable {m : Machine} {R : Nat → Prop} {va v : Nat}

theorem PlainOn.small (h : PlainOn R m) (hv : R v) {k : Nat} (hk : k < 3) {w : BitVec 64}
    (hw : entryOf m v (k + 1) = some w) : large w = false := by
  refine (h v hv (2 - k) (by omega) w ?_).small
  rw [show 3 - (2 - k) = k + 1 by omega]
  rw [← hw]
  unfold entryOf
  rw [show 3 - (k + 1) = 2 - k by omega]

/-- **A mapped page**: what is allowed is what all four entries allow. -/
theorem translate_leaf {e₀ e₁ e₂ e₃ : BitVec 64} (h : PlainOn R m) (hv : R (va / 4096))
    (hc : canonical va) (h₃ : entryOf m (va / 4096) 3 = some e₃) (h₂ : entryOf m (va / 4096) 2 = some e₂)
    (h₁ : entryOf m (va / 4096) 1 = some e₁) (h₀ : leaf m (va / 4096) = some e₀) :
    translate m.mem m.cr3 va = some {
      addr := frameOf e₀ + va % 4096
      write := writable e₃ && writable e₂ && writable e₁ && writable e₀
      user := userOk e₃ && userOk e₂ && userOk e₁ && userOk e₀
      noExec := noExec e₃ || noExec e₂ || noExec e₁ || noExec e₀ } := by
  have l₃ := h.small hv (show 2 < 3 by decide) h₃
  have l₂ := h.small hv (show 1 < 3 by decide) h₂
  have l₁ := h.small hv (show 0 < 3 by decide) h₁
  rw [translate_walk, if_pos hc]
  simp only [walkFrom, h₃, h₂, h₁, l₃, l₂, l₁, Option.bind_some, Bool.false_eq_true, if_false,
    entryOf_zero, h₀, Option.map_some]
  rfl

/-- a mapped page has entries on every level -/
theorem entryOf_isSome {w : BitVec 64} (h : leaf m v = some w) {k : Nat} (hk : k ≤ 3) :
    ∃ w', entryOf m v k = some w' := by
  induction k with
  | zero => exact ⟨w, h⟩
  | succ k ih =>
    obtain ⟨w', hw'⟩ := ih (by omega)
    cases e : entryOf m v (k + 1) with
    | some w'' => exact ⟨w'', rfl⟩
    | none =>
      rw [entryOf_none (by omega) e] at hw'
      exact nomatch hw'

/-- **A page without a leaf is not mapped.** -/
theorem translate_none (h : PlainOn R m) (hv : R (va / 4096)) (hl : leaf m (va / 4096) = none) :
    translate m.mem m.cr3 va = none := by
  have key : ∀ k, k ≤ 3 → ∀ perm, walkFrom va (entryOf m (va / 4096)) k perm = none := by
    intro k
    induction k with
    | zero =>
      intro _ perm
      unfold walkFrom
      rw [entryOf_zero, hl]
      rfl
    | succ k ih =>
      intro hk perm
      unfold walkFrom
      cases e : entryOf m (va / 4096) (k + 1) with
      | none => rfl
      | some w =>
        rw [Option.bind_some, h.small hv (by omega) e]
        exact ih (by omega) _
  rw [translate_walk, key 3 (le_refl 3), ite_self]

/-- the address that a page shows, whatever the rights -/
theorem translate_addr (h : PlainOn R m) (hv : R (va / 4096)) (hc : canonical va) :
    (translate m.mem m.cr3 va).map Translation.addr =
      (leaf m (va / 4096)).map fun w => frameOf w + va % 4096 := by
  cases e : leaf m (va / 4096) with
  | none =>
    rw [translate_none h hv e]
    rfl
  | some w =>
    obtain ⟨e₁, h₁⟩ := entryOf_isSome e (show 1 ≤ 3 by decide)
    obtain ⟨e₂, h₂⟩ := entryOf_isSome e (show 2 ≤ 3 by decide)
    obtain ⟨e₃, h₃⟩ := entryOf_isSome e (show 3 ≤ 3 by decide)
    rw [translate_leaf h hv hc h₃ h₂ h₁ e]
    rfl

end

/-! ## user access -/

/-- The last entry of every walk through the upper half, that of a large page included, keeps users
out. -/
def NoUser (m : Machine) : Prop :=
  ∀ a p i w, 256 ≤ a.val → p.length ≤ 2 → m.entry (a :: p) i = some w →
    p.length = 2 ∨ large w = true → userOk w = false

/-- **No address of the upper half is open to users.** -/
theorem translate_user {m : Machine} {va : Nat} (h : NoUser m) (hva : upperHalf va) {r : Translation}
    (hr : translate m.mem m.cr3 va = some r) : r.user = false := by
  -- the entries below the top table
  have hentry : ∀ k < 3, ∀ w, entryOf m (va / 4096) k = some w → k = 0 ∨ large w = true →
      userOk w = false := by
    intro k hk w he hl
    have hs : stem (va / 4096) (3 - k) = pageIndex (va / 4096) 3 :: (stem (va / 4096) (3 - k)).tail := by
      match k, hk with
      | 0, _ => rfl
      | 1, _ => rfl
      | 2, _ => rfl
    have hlen : (stem (va / 4096) (3 - k)).tail.length = 2 - k := by
      rw [List.length_tail, length_stem (by omega)]
      omega
    unfold entryOf at he
    rw [hs] at he
    exact h _ _ _ _ hva.index (by omega) he (hl.imp (fun h0 => by omega) id)
  have hand (b : Bool) {w : BitVec 64} (hw : userOk w = false) : (b && userOk w) = false := by
    rw [hw, Bool.and_false]
  -- by induction on the levels that are left
  have key : ∀ k, k ≤ 3 → ∀ perm, walkFrom va (entryOf m (va / 4096)) k perm = some r →
      r.user = false := by
    intro k
    induction k with
    | zero =>
      intro _ perm hr
      obtain ⟨w, hw, rfl⟩ := Option.map_eq_some_iff.mp hr
      exact hand _ (hentry 0 (by decide) w hw (.inl rfl))
    | succ k ih =>
      intro hk perm hr
      obtain ⟨w, hw, hr⟩ := Option.bind_eq_some_iff.mp hr
      by_cases hl : large w = true
      · rw [if_pos hl] at hr
        by_cases h3 : k + 1 = 3
        · rw [if_pos h3] at hr
          exact nomatch hr
        · rw [if_neg h3] at hr
          rw [← Option.some.inj hr]
          exact hand _ (hentry (k + 1) (by omega) w hw (.inr hl))
      · rw [if_neg hl] at hr
        exact ih (by omega) _ hr
  rw [translate_walk, if_pos hva.canonical] at hr
  exact key 3 (le_refl 3) _ hr

/-! ## changes that keep the frames -/

/-- entries with other flags lead to the same address -/
theorem walkFrom_addr {va : Nat} {e e' : Nat → Option (BitVec 64)} {k : Nat}
    (h : ∀ j ≤ k, ∃ g : BitVec 64 → BitVec 64, e' j = (e j).map g ∧
      ∀ w, large (g w) = large w ∧ frameOf (g w) = frameOf w) (perm perm' : Translation) :
    (walkFrom va e' k perm').map Translation.addr = (walkFrom va e k perm).map Translation.addr := by
  induction k generalizing perm perm' with
  | zero =>
    obtain ⟨g, he, hg⟩ := h 0 (le_refl 0)
    unfold walkFrom
    rw [he]
    cases e 0 with
    | none => rfl
    | some w =>
      simp only [Option.map_some]
      rw [(hg w).2]
  | succ k ih =>
    obtain ⟨g, he, hg⟩ := h (k + 1) (le_refl _)
    unfold walkFrom
    rw [he]
    cases e (k + 1) with
    | none => rfl
    | some w =>
      simp only [Option.map_some, Option.bind_some]
      rw [(hg w).1, (hg w).2]
      by_cases hl : large w = true
      · rw [if_pos hl, if_pos hl]
        by_cases h3 : k + 1 = 3
        · rw [if_pos h3, if_pos h3]
        · rw [if_neg h3, if_neg h3]
          rfl
      · rw [if_neg hl, if_neg hl]
        exact ih (fun j hj => h j (by omega)) _ _

theorem walkFrom_none {va : Nat} {e : Nat → Option (BitVec 64)} {k : Nat} {perm : Translation}
    (h : e k = none) : walkFrom va e k perm = none := by
  cases k with
  | zero =>
    unfold walkFrom
    rw [h]
    rfl
  | succ k =>
    unfold walkFrom
    rw [h]
    rfl

/-- **Tables that are added change no translation**: they have no pages. -/
theorem Grown.translate {R : Nat → Prop} {m m' : Machine} (g : Grown R m m') (va : Nat) :
    FuseeOS.translate m'.mem m'.cr3 va = FuseeOS.translate m.mem m.cr3 va := by
  have key : ∀ k, k ≤ 3 → ∀ perm, walkFrom va (entryOf m' (va / 4096)) k perm =
      walkFrom va (entryOf m (va / 4096)) k perm := by
    intro k
    induction k with
    | zero =>
      intro _ perm
      unfold walkFrom
      rw [entryOf_zero, entryOf_zero, g.leaf]
    | succ k ih =>
      intro hk perm
      cases e : entryOf m (va / 4096) (k + 1) with
      | some w =>
        have e' : entryOf m' (va / 4096) (k + 1) = some w := g.kept _ _ w length_stem_le e
        unfold walkFrom
        rw [e, e', Option.bind_some, Option.bind_some]
        exact if_congr Iff.rfl rfl (ih (by omega) _)
      | none =>
        rw [walkFrom_none e]
        cases e' : entryOf m' (va / 4096) (k + 1) with
        | none => exact walkFrom_none e'
        | some w =>
          -- the entry is that of a new table
          have hl : large w = false := by
            rcases g.new _ _ w length_stem_le e' with h | ⟨-, h⟩
            · unfold entryOf at e
              rw [e] at h
              exact nomatch h
            · exact h
          unfold walkFrom
          rw [e', Option.bind_some, hl]
          refine (ih (by omega) _).trans ?_
          exact walkFrom_none (entryOf_none (by omega) e)
  rw [translate_walk, translate_walk]
  exact if_congr Iff.rfl (key 3 (le_refl 3) _) rfl

end FuseeOS
