import Mathlib.Order.Lattice
import Mathlib.Data.List.Basic

/-!
# The first of the smallest elements

Among the elements of a list that qualify, the first one with the least key: what a scan from the
front keeps that replaces its candidate by strictly smaller ones only.

* `FirstMin.skip`, `FirstMin.replace`   the two branches of the scan;
* `FirstMin.le`                         no element that qualifies has a smaller key.
-/

/-- `x`, between `l` and `r`, is the first of the elements that qualify with the least key -/
structure FirstMin {α κ : Type*} [LinearOrder κ] (p : α → Prop) (key : α → κ) (l : List α) (x : α)
    (r : List α) : Prop where
  holds : p x
  before : ∀ y ∈ l, p y → key x < key y
  after : ∀ y ∈ r, p y → key x ≤ key y

namespace FirstMin
variable {α κ : Type*} [LinearOrder κ] {p : α → Prop} {key : α → κ} {l r : List α} {x y : α}

theorem le (h : FirstMin p key l x r) (hy : y ∈ l ++ x :: r) (hp : p y) : key x ≤ key y := by
  rcases List.mem_append.mp hy with hy | hy
  · exact le_of_lt (h.before y hy hp)
  · rcases List.mem_cons.mp hy with rfl | hy
    · exact le_rfl
    · exact h.after y hy hp

/-- the first element that qualifies -/
theorem first (hl : ∀ y ∈ l, ¬ p y) (hp : p x) : FirstMin p key l x [] :=
  ⟨hp, fun y hy h => absurd h (hl y hy), fun _ hy => (nomatch hy)⟩

/-- an element that does not qualify, or is no smaller, is passed by -/
theorem skip (h : FirstMin p key l x r) (hy : p y → key x ≤ key y) :
    FirstMin p key l x (r ++ [y]) := by
  refine ⟨h.holds, h.before, fun z hz hp => ?_⟩
  rcases List.mem_append.mp hz with hz | hz
  · exact h.after z hz hp
  · obtain rfl := List.mem_singleton.mp hz
    exact hy hp

/-- a strictly smaller one is taken instead -/
theorem replace (h : FirstMin p key l x r) (hp : p y) (hlt : key y < key x) :
    FirstMin p key (l ++ x :: r) y [] :=
  ⟨hp, fun _ hz hz' => lt_of_lt_of_le hlt (h.le hz hz'), fun _ hz => (nomatch hz)⟩

end FirstMin
