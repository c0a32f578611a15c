import FuseeOS.Lib.Outcome

/-!
# Programs as sequences of steps

A program performs operations one after the other; which one is next may depend on the results of those
before it.  What an operation does to a state is given by a step function, and it may stop the program.

* `Program.run_bind`, `Program.along_bind`   one program behind another;
* `Program.Along`                            every operation of a run is `ok` in the state before it;
* `Program.ends_iff_along`                   where an operation keeps a property of the state exactly if it is
                                             `ok`, and none brings it back, so does a run.
-/

open Outcome

/-- programs over the operations `O`, of which `op` has a result in `R op` -/
inductive Program (O : Type) (R : O → Type) (α : Type) : Type where
  | ret (a : α)
  | step (op : O) (next : R op → Program O R α)

namespace Program
variable {O : Type} {R : O → Type} {α β σ ε : Type}

def bind : Program O R α → (α → Program O R β) → Program O R β
  | .ret a, f => f a
  | .step op next, f => .step op fun x => (next x).bind f

instance : Monad (Program O R) where
  pure := .ret
  bind := bind

/-- one operation -/
def perform (op : O) : Program O R (R op) := .step op .ret

variable (step : (op : O) → σ → Except ε (R op × σ))

def run : Program O R α → σ → Except ε (α × σ)
  | .ret a, s => .ok (a, s)
  | .step op next, s => (step op s).bind fun r => (next r.1).run r.2

/-- every operation of the run is `ok` in the state before it -/
def Along (ok : O → σ → Prop) : Program O R α → σ → Prop
  | .ret _, _ => True
  | .step op next, s => ok op s ∧ ∀ x s', step op s = .ok (x, s') → (next x).Along ok s'

variable {step}

@[simp] theorem run_pure (a : α) (s : σ) : (pure a : Program O R α).run step s = .ok (a, s) := rfl

@[simp] theorem run_bind (p : Program O R α) (f : α → Program O R β) (s : σ) :
    (p >>= f).run step s = (p.run step s).bind fun r => (f r.1).run step r.2 := by
  show (p.bind f).run step s = _
  induction p generalizing s with
  | ret a => rfl
  | step op next ih =>
    show (step op s).bind _ = ((step op s).bind _).bind _
    cases step op s with
    | error e => rfl
    | ok x => exact ih x.1 x.2

@[simp] theorem run_perform (op : O) (s : σ) :
    (perform op : Program O R (R op)).run step s = step op s := by
  show (step op s).bind _ = _
  cases step op s with
  | error e => rfl
  | ok x => rfl

/-- the operations of one program, then those of the other -/
theorem along_bind {ok : O → σ → Prop} (p : Program O R α) (f : α → Program O R β) {s : σ} :
    (p >>= f).Along step ok s ↔
      p.Along step ok s ∧ ∀ a s', p.run step s = .ok (a, s') → (f a).Along step ok s' := by
  show (p.bind f).Along step ok s ↔ _
  induction p generalizing s with
  | ret a =>
    constructor
    · intro h
      refine ⟨trivial, fun b s' e => ?_⟩
      obtain ⟨rfl, rfl⟩ := Prod.mk.inj (Except.ok.inj e)
      exact h
    · intro h
      exact h.2 a s rfl
  | step op next ih =>
    constructor
    · intro h
      refine ⟨⟨h.1, fun x s' e => ((ih x).mp (h.2 x s' e)).1⟩, fun a s' e => ?_⟩
      have e' : ((step op s).bind fun r => (next r.1).run step r.2) = .ok (a, s') := e
      cases hr : step op s with
      | error e =>
        rw [hr] at e'
        exact nomatch e'
      | ok r =>
        rw [hr] at e'
        exact ((ih r.1).mp (h.2 r.1 r.2 hr)).2 a s' e'
    · intro h
      refine ⟨h.1.1, fun x s' e => (ih x).mpr ⟨h.1.2 x s' e, fun a s'' e' => h.2 a s'' ?_⟩⟩
      show ((step op s).bind fun r => (next r.1).run step r.2) = _
      rw [e]
      exact e'

variable {I : σ → Prop} {S : ε → Prop} {ok : O → σ → Prop}

/-- a property that no operation brings back was there from the start -/
theorem ends_start (hback : ∀ op s, Ends S (fun x => I x.2) (step op s) → I s) (p : Program O R α) {s : σ}
    (h : Ends S (fun x => I x.2) (p.run step s)) : I s := by
  induction p generalizing s with
  | ret a => exact h.ok _ rfl
  | step op next ih =>
    have h' : Ends S (fun x => I x.2) ((step op s).bind fun r => (next r.1).run step r.2) := h
    refine hback op s ?_
    cases hr : step op s with
    | error e =>
      rw [hr] at h'
      exact Ends.of_error (h'.error e rfl)
    | ok x =>
      rw [hr] at h'
      exact Ends.of_ok (ih x.1 h')

/-- **A run keeps the property exactly if its operations are `ok`.** -/
theorem ends_iff_along (hback : ∀ op s, Ends S (fun x => I x.2) (step op s) → I s)
    (hok : ∀ op s, I s → (Ends S (fun x => I x.2) (step op s) ↔ ok op s)) (p : Program O R α) {s : σ}
    (hs : I s) : Ends S (fun x => I x.2) (p.run step s) ↔ p.Along step ok s := by
  induction p generalizing s with
  | ret a => exact ⟨fun _ => trivial, fun _ => Ends.of_ok hs⟩
  | step op next ih =>
    show Ends S (fun x => I x.2) ((step op s).bind fun r => (next r.1).run step r.2) ↔
      ok op s ∧ ∀ x s', step op s = .ok (x, s') → (next x).Along step ok s'
    have hstep := hok op s hs
    cases hr : step op s with
    | error e =>
      rw [hr] at hstep
      constructor
      · intro h
        exact ⟨hstep.mp (Ends.of_error (h.error e rfl)), fun _ _ e' => nomatch e'⟩
      · intro h
        exact Ends.of_error ((hstep.mpr h.1).error e rfl)
    | ok x =>
      rw [hr] at hstep
      constructor
      · intro h
        have hx := ends_start hback (next x.1) h
        refine ⟨hstep.mp (Ends.of_ok hx), fun y s' e' => ?_⟩
        obtain rfl := Except.ok.inj e'
        exact (ih y hx).mp h
      · intro h
        exact (ih x.1 ((hstep.mpr h.1).ok x rfl)).mpr (h.2 x.1 x.2 rfl)

end Program
