/-!
# Runs of a partial step function

A system is a step function `step : σ → α → Option σ` (`none`: the step is not defined there: it
faults, or leaves the memory it may touch).  A run is a list of events, head first.

* `Along ok s as`        every event of the run `as` from `s` satisfies `ok` where it happens;
* `Always I R s as`      every step of the run is taken and satisfies `R`, and every state of the
                         run, the first one included, satisfies `I`;
* `always_of_step`       one step keeps `I` and satisfies `R`: so does every run;
* `always_iff_along`     when a step that keeps `I` must be `ok`, the two say the same;
* `along_of_budget`      what events need, out of a resource that they use up.
-/

namespace StepRun
variable {σ α : Type} (step : σ → α → Option σ)

/-- every event of the run satisfies `ok` in the state it happens in -/
def Along (ok : σ → α → Prop) : σ → List α → Prop
  | _, [] => True
  | s, a :: as => ok s a ∧ ∀ s', step s a = some s' → Along ok s' as

/-- no step of the run gets stuck, every state satisfies `I`, every step satisfies `R` -/
def Always (I : σ → Prop) (R : σ → α → σ → Prop) : σ → List α → Prop
  | s, [] => I s
  | s, a :: as => I s ∧ ∃ s', step s a = some s' ∧ R s a s' ∧ Always I R s' as

/-- the state a run ends in -/
def run : σ → List α → Option σ
  | s, [] => some s
  | s, a :: as => (step s a).bind fun s' => run s' as

variable {step}

theorem Always.here {I : σ → Prop} {R : σ → α → σ → Prop} {s : σ} {as : List α}
    (h : Always step I R s as) : I s := by
  cases as with
  | nil => exact h
  | cons a as => exact h.1

theorem always_of_step {I : σ → Prop} {R : σ → α → σ → Prop} {ok : σ → α → Prop}
    (hstep : ∀ s a, I s → ok s a → ∃ s', step s a = some s' ∧ R s a s' ∧ I s')
    (as : List α) (s : σ) (h0 : I s) (hok : Along step ok s as) : Always step I R s as := by
  induction as generalizing s with
  | nil => exact h0
  | cons a as ih =>
    obtain ⟨hoka, hrest⟩ := hok
    obtain ⟨s', hs', hR, hI⟩ := hstep s a h0 hoka
    exact ⟨h0, s', hs', hR, ih s' hI (hrest s' hs')⟩

/-- When a legal step that keeps `I` must be `ok`, a legal run keeps `I` exactly if it is `ok`.  `J`
is what an `ok` step keeps besides. -/
theorem always_iff_along {I J : σ → Prop} {R : σ → α → σ → Prop} {legal ok : σ → α → Prop}
    (hstep : ∀ s a, J s → I s → legal s a → ok s a → ∃ s', step s a = some s' ∧ R s a s' ∧ I s' ∧ J s')
    (hconv : ∀ s a s', J s → I s → legal s a → step s a = some s' → R s a s' → I s' → ok s a)
    (as : List α) (s : σ) (hJ : J s) (hI : I s) (hl : Along step legal s as) :
    Always step I R s as ↔ Along step ok s as := by
  induction as generalizing s with
  | nil => exact ⟨fun _ => trivial, fun _ => hI⟩
  | cons a as ih =>
    obtain ⟨hla, hlrest⟩ := hl
    constructor
    · rintro ⟨_, s', hs', hR, hrest⟩
      have hok := hconv s a s' hJ hI hla hs' hR hrest.here
      obtain ⟨t, ht, _, hIt, hJt⟩ := hstep s a hJ hI hla hok
      have e : t = s' := Option.some.inj (ht.symm.trans hs')
      subst e
      refine ⟨hok, fun u hu => ?_⟩
      have e : t = u := Option.some.inj (ht.symm.trans hu)
      subst e
      exact (ih t hJt hIt (hlrest t ht)).mp hrest
    · rintro ⟨hok, hrest⟩
      obtain ⟨t, ht, hR, hIt, hJt⟩ := hstep s a hJ hI hla hok
      exact ⟨hI, t, ht, hR, (ih t hJt hIt (hlrest t ht)).mpr (hrest t ht)⟩

/-- the state that a run ends in satisfies the invariant too -/
theorem Always.last {I : σ → Prop} {R : σ → α → σ → Prop} {as : List α} {s s' : σ}
    (h : Always step I R s as) (e : run step s as = some s') : I s' := by
  induction as generalizing s with
  | nil =>
    rw [run, Option.some.injEq] at e
    exact e ▸ h
  | cons a as ih =>
    obtain ⟨-, t, ht, -, hrest⟩ := h
    rw [run, ht] at e
    exact ih hrest e

/-- a run whose steps are all taken has an end, which satisfies the invariant -/
theorem Always.end {I : σ → Prop} {R : σ → α → σ → Prop} {as : List α} {s : σ}
    (h : Always step I R s as) : ∃ s', run step s as = some s' ∧ I s' := by
  induction as generalizing s with
  | nil => exact ⟨s, rfl, h⟩
  | cons a as ih =>
    obtain ⟨-, t, ht, -, hrest⟩ := h
    obtain ⟨s', e, hI⟩ := ih hrest
    exact ⟨s', by rw [run, ht, Option.bind_some, e], hI⟩

/-- a run in two parts -/
theorem run_append (as bs : List α) (s : σ) :
    run step s (as ++ bs) = (run step s as).bind fun s' => run step s' bs := by
  induction as generalizing s with
  | nil => rfl
  | cons a as ih =>
    rw [List.cons_append, run, run, Option.bind_assoc]
    simp only [ih]

theorem along_append {ok : σ → α → Prop} {as bs : List α} {s : σ} :
    Along step ok s (as ++ bs) ↔ Along step ok s as ∧ ∀ s', run step s as = some s' → Along step ok s' bs := by
  induction as generalizing s with
  | nil =>
    constructor
    · intro h
      refine ⟨trivial, fun s' e => ?_⟩
      rw [run, Option.some.injEq] at e
      exact e ▸ h
    · intro h
      exact h.2 s rfl
  | cons a as ih =>
    constructor
    · rintro ⟨ha, hrest⟩
      refine ⟨⟨ha, fun t ht => (ih.mp (hrest t ht)).1⟩, fun s' e => ?_⟩
      obtain ⟨t, ht, e'⟩ := Option.bind_eq_some_iff.mp e
      exact (ih.mp (hrest t ht)).2 s' e'
    · rintro ⟨⟨ha, hrest⟩, hend⟩
      refine ⟨ha, fun t ht => ih.mpr ⟨hrest t ht, fun s' e => hend s' ?_⟩⟩
      rw [run, ht, Option.bind_some, e]

/-- every event is `ok` wherever it happens -/
theorem along_of_forall {ok : σ → α → Prop} (as : List α) (h : ∀ a ∈ as, ∀ s, ok s a) (s : σ) :
    Along step ok s as := by
  induction as generalizing s with
  | nil => exact trivial
  | cons a as ih =>
    exact ⟨h a (List.mem_cons_self ..) s, fun s' _ => ih (fun b hb => h b (List.mem_cons_of_mem _ hb)) s'⟩

theorem Always.mono {I J : σ → Prop} {R Q : σ → α → σ → Prop} (hI : ∀ s, I s → J s)
    (hR : ∀ s a s', I s → R s a s' → I s' → Q s a s') (as : List α) (s : σ)
    (h : Always step I R s as) : Always step J Q s as := by
  induction as generalizing s with
  | nil => exact hI s h
  | cons a as ih =>
    obtain ⟨h0, s', hs', hr, hrest⟩ := h
    exact ⟨hI s h0, s', hs', hR s a s' h0 hr hrest.here, ih s' hrest⟩

theorem Along.mono {p q : σ → α → Prop} (hpq : ∀ s a, p s a → q s a) (as : List α) (s : σ)
    (h : Along step p s as) : Along step q s as := by
  induction as generalizing s with
  | nil => exact trivial
  | cons a as ih => exact ⟨hpq s a h.1, fun s' hs' => ih s' (h.2 s' hs')⟩

theorem Along.and {p q : σ → α → Prop} (as : List α) (s : σ) (hp : Along step p s as)
    (hq : Along step q s as) : Along step (fun s a => p s a ∧ q s a) s as := by
  induction as generalizing s with
  | nil => exact trivial
  | cons a as ih =>
    exact ⟨⟨hp.1, hq.1⟩, fun s' hs' => ih s' (hp.2 s' hs') (hq.2 s' hs')⟩

/-- A resource of which every event uses up one: `I n` says that there are `n` left.  What an event needs then
follows along the run, and what is left at its end. -/
theorem along_of_budget {I : Nat → σ → Prop} {p q : σ → α → Prop}
    (h : ∀ n s a, I (n + 1) s → p s a → q s a ∧ ∀ s', step s a = some s' → I n s') {n : Nat} (as : List α) (s : σ)
    (h0 : I (as.length + n) s) (hp : Along step p s as) :
    Along step q s as ∧ ∀ s', run step s as = some s' → I n s' := by
  induction as generalizing s with
  | nil =>
    refine ⟨trivial, fun s' e => ?_⟩
    rw [run, Option.some.injEq] at e
    rw [List.length_nil, Nat.zero_add] at h0
    exact e ▸ h0
  | cons a as ih =>
    rw [List.length_cons, Nat.add_right_comm] at h0
    obtain ⟨hq, hnext⟩ := h _ s a h0 hp.1
    refine ⟨⟨hq, fun t ht => (ih t (hnext t ht) (hp.2 t ht)).1⟩, fun s' e => ?_⟩
    obtain ⟨t, ht, e'⟩ := Option.bind_eq_some_iff.mp e
    exact (ih t (hnext t ht) (hp.2 t ht)).2 s' e'

/-- what an event needs follows from an invariant -/
theorem Along.of_inv {I : σ → Prop} {p q : σ → α → Prop}
    (h : ∀ s a, I s → p s a → q s a ∧ ∀ s', step s a = some s' → I s') (as : List α) (s : σ) (h0 : I s)
    (hp : Along step p s as) : Along step q s as :=
  (along_of_budget (I := fun _ => I) (n := 0) (fun _ => h) as s h0 hp).1

/-! ## runs that can be evaluated -/

instance decidableAlong (ok : σ → α → Prop) [∀ s a, Decidable (ok s a)] :
    (s : σ) → (as : List α) → Decidable (Along step ok s as)
  | _, [] => isTrue trivial
  | s, a :: as =>
    haveI : Decidable (∀ s', step s a = some s' → Along step ok s' as) :=
      match step s a with
      | none => isTrue fun _ h' => nomatch h'
      | some t =>
        haveI := decidableAlong ok t as
        decidable_of_iff (Along step ok t as)
          ⟨fun ht _ e => Option.some.inj e ▸ ht, fun ht => ht t rfl⟩
    inferInstanceAs (Decidable (ok s a ∧ ∀ s', step s a = some s' → Along step ok s' as))

instance decidableAlways (I : σ → Prop) [DecidablePred I] (R : σ → α → σ → Prop)
    [∀ s a s', Decidable (R s a s')] : (s : σ) → (as : List α) → Decidable (Always step I R s as)
  | s, [] => inferInstanceAs (Decidable (I s))
  | s, a :: as =>
    haveI : Decidable (∃ s', step s a = some s' ∧ R s a s' ∧ Always step I R s' as) :=
      match step s a with
      | none => isFalse fun ⟨_, h', _⟩ => nomatch h'
      | some t =>
        haveI := decidableAlways I R t as
        decidable_of_iff (R s a t ∧ Always step I R t as)
          ⟨fun ht => ⟨t, rfl, ht⟩, fun ⟨_, e, ht⟩ => Option.some.inj e ▸ ht⟩
    inferInstanceAs (Decidable (I s ∧ ∃ s', step s a = some s' ∧ R s a s' ∧ Always step I R s' as))

end StepRun
