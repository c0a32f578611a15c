/-!
# Computations that may stop

`Ends S Q r`: the computation `r` stops for a reason in `S`, or has a result in `Q`.

* `Ends.bind`     one computation behind another;
* `Ends.foldlM`   an invariant of the steps of a run;
* `Ends.result`   without a reason to stop there is a result;
* `foldlM_range`  a counting loop whose rounds all have a result.
-/

namespace Outcome

structure Ends {ε α : Type} (S : ε → Prop) (Q : α → Prop) (r : Except ε α) : Prop where
  error : ∀ s, r = .error s → S s
  ok : ∀ a, r = .ok a → Q a

section
variable {ε α β σ : Type} {S S' : ε → Prop} {Q Q' : α → Prop} {R : β → Prop} {r : Except ε α}

theorem Ends.of_ok {a : α} (h : Q a) : Ends S Q (.ok a) := by
  constructor
  · intro s e
    exact nomatch e
  · intro b e
    rw [← Except.ok.inj e]
    exact h

theorem Ends.of_error {s : ε} (h : S s) : Ends S Q (.error s) := by
  constructor
  · intro t e
    rw [← Except.error.inj e]
    exact h
  · intro a e
    exact nomatch e

theorem Ends.mono (h : Ends S Q r) (hS : ∀ s, S s → S' s) (hQ : ∀ a, Q a → Q' a) : Ends S' Q' r :=
  ⟨fun s e => hS s (h.error s e), fun a e => hQ a (h.ok a e)⟩

theorem Ends.self (h : Ends S Q r) : Ends S (fun a => r = .ok a ∧ Q a) r :=
  ⟨h.error, fun a e => ⟨e, h.ok a e⟩⟩

theorem Ends.bind {k : α → Except ε β} (h : Ends S Q r) (hk : ∀ a, Q a → Ends S R (k a)) :
    Ends S R (r.bind k) := by
  cases r with
  | error s => exact Ends.of_error (h.error s rfl)
  | ok a => exact hk a (h.ok a rfl)

theorem ok_then (a : α) (k : α → Except ε β) : (Except.ok a >>= k) = k a := rfl

/-- a computation that is known to have a result -/
theorem Ends.bind_of_eq {a : α} {k : α → Except ε β} (e : r = .ok a) (hk : Ends S R (k a)) :
    Ends S R (r.bind k) := by
  rw [e]
  exact hk

/-- `I` relates the steps that are done to the state -/
theorem Ends.foldlM {γ : Type} {I : List γ → σ → Prop} {step : σ → γ → Except ε σ} (cs : List γ)
    (hstep : ∀ c ∈ cs, ∀ done s, I done s → Ends S (I (done ++ [c])) (step s c)) {done : List γ} {s : σ}
    (h : I done s) : Ends S (I (done ++ cs)) (cs.foldlM step s) := by
  induction cs generalizing done s with
  | nil =>
    rw [List.append_nil]
    exact Ends.of_ok h
  | cons c cs ih =>
    rw [List.append_cons, List.foldlM_cons]
    exact (hstep c List.mem_cons_self done s h).bind fun s' h' =>
      ih (fun d hd => hstep d (List.mem_cons_of_mem c hd)) h'

theorem Ends.and (h : Ends S Q r) (h' : Ends S' Q' r) : Ends (fun s => S s ∧ S' s) (fun a => Q a ∧ Q' a) r :=
  ⟨fun s e => ⟨h.error s e, h'.error s e⟩, fun a e => ⟨h.ok a e, h'.ok a e⟩⟩

/-- `I n` holds behind `n` rounds -/
theorem foldlM_range {I : Nat → σ → Prop} {step : σ → Nat → Except ε σ} (n : Nat)
    (hstep : ∀ k < n, ∀ s, I k s → ∃ s', step s k = .ok s' ∧ I (k + 1) s') {s : σ} (h : I 0 s) :
    ∃ s', (List.range n).foldlM step s = .ok s' ∧ I n s' := by
  induction n with
  | zero => exact ⟨s, rfl, h⟩
  | succ n ih =>
    obtain ⟨s₁, e₁, h₁⟩ := ih fun k hk => hstep k (Nat.lt_succ_of_lt hk)
    obtain ⟨s', e', h'⟩ := hstep n (Nat.lt_succ_self n) s₁ h₁
    refine ⟨s', ?_, h'⟩
    rw [List.range_succ, List.foldlM_append, e₁]
    show List.foldlM step s₁ [n] = _
    rw [List.foldlM_cons, e']
    rfl

theorem Ends.result (h : Ends S Q r) (hs : ∀ s, S s → r ≠ .error s) : ∃ a, r = .ok a ∧ Q a := by
  cases r with
  | error s => exact absurd rfl (hs s (h.error s rfl))
  | ok a => exact ⟨a, rfl, h.ok a rfl⟩

end

end Outcome
