import Mathlib.Data.List.Induction
import Mathlib.Logic.Function.Basic

/-!
# Trees of tables in memory

A memory `M` gives every node one word per index; `next w` is the node that a word points to, if it
points to one.  `nodeAt next M root p` is the node that the indices of `p` lead to from `root`.

* `nodeAt_congr`     memories with the same pointers have the same nodes;
* `Proper`           short paths lead to different nodes: the nodes are a tree;
* `nodeAt_frame`     writing to a node that is not an inner one changes no path;
* `nodeAt_graft`     writing a pointer to an empty node into an empty word adds one path;
* `nodeAt_relink`    writing a pointer to a new node into a word of the lowest tables changes one path;
* `nodeAt_replant`   a word of the root that gets a tree of new nodes changes the paths behind it.
-/

namespace Radix
variable {N ι W : Type} (next : W → Option N)

/-- the node at the end of a path -/
def nodeAt (M : N → ι → W) : N → List ι → Option N
  | n, [] => some n
  | n, i :: p => (next (M n i)).bind fun t => nodeAt M t p

/-- paths of at most `d` steps lead to different nodes -/
def Proper (M : N → ι → W) (root : N) (d : Nat) : Prop :=
  ∀ p q t, p.length ≤ d → q.length ≤ d → nodeAt next M root p = some t →
    nodeAt next M root q = some t → p = q

/-- a node that a path of at most `d` steps leads to -/
def IsNode (M : N → ι → W) (root : N) (d : Nat) (t : N) : Prop :=
  ∃ p, p.length ≤ d ∧ nodeAt next M root p = some t

variable {next} {M M' : N → ι → W} {root : N} {d : Nat}

@[simp] theorem nodeAt_nil (n : N) : nodeAt next M n [] = some n := rfl

theorem nodeAt_append (n : N) (p q : List ι) :
    nodeAt next M n (p ++ q) = (nodeAt next M n p).bind fun t => nodeAt next M t q := by
  induction p generalizing n with
  | nil => rfl
  | cons i p ih =>
    show (next (M n i)).bind _ = ((next (M n i)).bind _).bind _
    rw [Option.bind_assoc]
    exact congrArg _ (funext fun t => ih t)

theorem nodeAt_concat (n : N) (p : List ι) (i : ι) :
    nodeAt next M n (p ++ [i]) = (nodeAt next M n p).bind fun t => next (M t i) := by
  rw [nodeAt_append]
  refine congrArg _ (funext fun t => ?_)
  show (next (M t i)).bind some = _
  rw [Option.bind_fun_some]

/-- a path to a node that is extended by a pointer of that node -/
theorem nodeAt_step {p : List ι} {i : ι} {s t : N} (hp : nodeAt next M root p = some s)
    (hi : next (M s i) = some t) : nodeAt next M root (p ++ [i]) = some t := by
  rw [nodeAt_concat, hp]
  exact hi

/-- a path that leads somewhere does so step by step -/
theorem nodeAt_concat_some {p : List ι} {i : ι} {t : N}
    (h : nodeAt next M root (p ++ [i]) = some t) :
    ∃ s, nodeAt next M root p = some s ∧ next (M s i) = some t := by
  rw [nodeAt_concat] at h
  exact Option.bind_eq_some_iff.mp h

/-- memories that agree on the pointers of the nodes above depth `d` have the same nodes -/
theorem nodeAt_congr
    (h : ∀ p t i, p.length < d → nodeAt next M root p = some t → next (M' t i) = next (M t i))
    (p : List ι) (hp : p.length ≤ d) : nodeAt next M' root p = nodeAt next M root p := by
  induction p using List.reverseRecOn with
  | nil => rfl
  | append_singleton p i ih =>
    rw [List.length_append, List.length_singleton] at hp
    rw [nodeAt_concat, nodeAt_concat, ih (by omega)]
    cases e : nodeAt next M root p with
    | none => rfl
    | some t => exact h p t i (by omega) e

/-- behind a node without pointers there is nothing -/
theorem nodeAt_leaf {n t : N} (h : ∀ i, next (M n i) = none) {p : List ι}
    (e : nodeAt next M n p = some t) : p = [] ∧ n = t := by
  cases p with
  | nil => exact ⟨rfl, Option.some.inj e⟩
  | cons i p =>
    unfold nodeAt at e
    rw [h i] at e
    exact nomatch e

/-- in a tree, a node at depth `d` is not above depth `d` as well -/
theorem Proper.not_inner (hM : Proper next M root d) {q : List ι} {t : N} (hq : q.length = d)
    (ht : nodeAt next M root q = some t) {p : List ι} (hp : p.length < d) :
    nodeAt next M root p ≠ some t := by
  intro e
  have hpq := hM p q t (by omega) (by omega) e ht
  rw [hpq, hq] at hp
  exact Nat.lt_irrefl _ hp

/-- nodes above depth `d` are left alone: the paths are the same -/
theorem nodeAt_frame (t : N) (h : ∀ p, p.length < d → nodeAt next M root p ≠ some t)
    (hM : ∀ s, s ≠ t → M' s = M s) (p : List ι) (hp : p.length ≤ d) :
    nodeAt next M' root p = nodeAt next M root p := by
  refine nodeAt_congr (fun q s i hq e => ?_) p hp
  have hne : s ≠ t := fun hs => h q hq (hs ▸ e)
  rw [hM s hne]

/-- a tree in which one path leads to a new node is a tree -/
theorem proper_of_one [DecidableEq ι] {r : List ι} {n : N} (hM : Proper next M root d)
    (hfresh : ∀ p, p.length ≤ d → nodeAt next M root p ≠ some n)
    (h : ∀ p, p.length ≤ d → nodeAt next M' root p = if p = r then some n else nodeAt next M root p) :
    Proper next M' root d := by
  intro p s u hp hs ep es
  rw [h p hp] at ep
  rw [h s hs] at es
  by_cases hpr : p = r
  · by_cases hsr : s = r
    · rw [hpr, hsr]
    · rw [if_pos hpr] at ep
      rw [if_neg hsr, ← Option.some.inj ep] at es
      exact absurd es (hfresh s hs)
  · rw [if_neg hpr] at ep
    by_cases hsr : s = r
    · rw [if_pos hsr] at es
      rw [← Option.some.inj es] at ep
      exact absurd ep (hfresh p hp)
    · rw [if_neg hsr] at es
      exact hM p s u hp hs ep es

section write
variable [DecidableEq N] [DecidableEq ι]

/-- the memory after a word was written -/
def setWord (M : N → ι → W) (t : N) (i : ι) (w : W) : N → ι → W :=
  Function.update M t (Function.update (M t) i w)

theorem setWord_same (M : N → ι → W) (t : N) (i : ι) (w : W) : setWord M t i w t i = w := by
  unfold setWord
  rw [Function.update_self, Function.update_self]

theorem setWord_of_ne (M : N → ι → W) (w : W) {t s : N} {i j : ι} (h : ¬ (s = t ∧ j = i)) :
    setWord M t i w s j = M s j := by
  unfold setWord
  by_cases hs : s = t
  · subst hs
    rw [Function.update_self, Function.update_of_ne fun hj => h ⟨rfl, hj⟩]
  · rw [Function.update_of_ne hs]

theorem setWord_node_ne (M : N → ι → W) (w : W) {t s : N} (i : ι) (h : s ≠ t) :
    setWord M t i w s = M s := Function.update_of_ne h _ _

/-- A word without a pointer, in the node at `q`, gets one to a node `n` that was not in the tree and
has no pointers itself. -/
structure Graft (next : W → Option N) (M : N → ι → W) (root : N) (d : Nat) (q : List ι) (i : ι)
    (t n : N) (w : W) (M' : N → ι → W) : Prop where
  depth : q.length < d
  node : nodeAt next M root q = some t
  absent : next (M t i) = none
  fresh : ∀ p, p.length ≤ d → nodeAt next M root p ≠ some n
  target : next w = some n
  empty : ∀ j, next (M' n j) = none
  word : M' t i = w
  frame : ∀ s j, s ≠ n → ¬ (s = t ∧ j = i) → M' s j = M s j

variable {q : List ι} {i : ι} {t n : N} {w : W}

/-- **A graft adds one path.** -/
theorem nodeAt_graft (hM : Proper next M root d) (g : Graft next M root d q i t n w M') (p : List ι)
    (hp : p.length ≤ d) :
    nodeAt next M' root p = if p = q ++ [i] then some n else nodeAt next M root p := by
  induction p using List.reverseRecOn with
  | nil => rw [if_neg (fun h => by simpa using congrArg List.length h)]; rfl
  | append_singleton p j ih =>
    rw [List.length_append, List.length_singleton] at hp
    rw [nodeAt_concat, ih (by omega)]
    have hgone : nodeAt next M root (q ++ [i]) = none := by
      rw [nodeAt_concat, g.node]
      exact g.absent
    by_cases hpq : p = q ++ [i]
    · -- below the new node there is nothing
      have hne : p ++ [j] ≠ q ++ [i] := by
        intro h
        have hl := congrArg List.length h
        rw [hpq] at hl
        simp at hl
      rw [if_pos hpq, if_neg hne, Option.bind_some, g.empty, nodeAt_concat, hpq, hgone]
      rfl
    · rw [if_neg hpq]
      cases e : nodeAt next M root p with
      | none =>
        have hne : p ++ [j] ≠ q ++ [i] := by
          intro h
          rw [(List.append_inj' h rfl).1, g.node] at e
          exact nomatch e
        rw [if_neg hne, nodeAt_concat, e]
        rfl
      | some s =>
        have hsn : s ≠ n := fun h => g.fresh p (by omega) (h ▸ e)
        by_cases hs : s = t ∧ j = i
        · obtain ⟨rfl, rfl⟩ := hs
          have hp' := hM p q s (by omega) (by have := g.depth; omega) e g.node
          rw [if_pos (by rw [hp']), Option.bind_some, g.word, g.target]
        · have hne : p ++ [j] ≠ q ++ [i] := by
            intro h
            obtain ⟨h1, h2⟩ := List.append_inj' h rfl
            have h2' : j = i := by simpa using h2
            rw [h1, g.node] at e
            exact hs ⟨(Option.some.inj e).symm, h2'⟩
          rw [if_neg hne, Option.bind_some, g.frame s j hsn hs, nodeAt_concat, e]
          rfl

/-- a graft leaves a tree -/
theorem Graft.proper (hM : Proper next M root d) (g : Graft next M root d q i t n w M') :
    Proper next M' root d := proper_of_one hM g.fresh (nodeAt_graft hM g)

/-- A word of the lowest tables, whatever it pointed to, gets a pointer to a node that was not in the
tree. -/
structure Relink (next : W → Option N) (M : N → ι → W) (root : N) (d : Nat) (q : List ι) (i : ι)
    (t n : N) (w : W) (M' : N → ι → W) : Prop where
  depth : q.length + 1 = d
  node : nodeAt next M root q = some t
  fresh : ∀ p, p.length ≤ d → nodeAt next M root p ≠ some n
  target : next w = some n
  word : M' t i = w
  frame : ∀ s j, s ≠ n → ¬ (s = t ∧ j = i) → M' s j = M s j

/-- **Relinking changes one path.** -/
theorem nodeAt_relink (hM : Proper next M root d) (g : Relink next M root d q i t n w M') (p : List ι)
    (hp : p.length ≤ d) :
    nodeAt next M' root p = if p = q ++ [i] then some n else nodeAt next M root p := by
  have hd := g.depth
  induction p using List.reverseRecOn with
  | nil => rw [if_neg (fun h => by simpa using congrArg List.length h)]; rfl
  | append_singleton p j ih =>
    rw [List.length_append, List.length_singleton] at hp
    have hpq : p ≠ q ++ [i] := by
      intro h
      rw [h, List.length_append, List.length_singleton] at hp
      omega
    rw [nodeAt_concat, ih (by omega), if_neg hpq]
    cases e : nodeAt next M root p with
    | none =>
      have hne : p ++ [j] ≠ q ++ [i] := by
        intro h
        rw [(List.append_inj' h rfl).1, g.node] at e
        exact nomatch e
      rw [if_neg hne, nodeAt_concat, e]
      rfl
    | some s =>
      have hsn : s ≠ n := fun h => g.fresh p (by omega) (h ▸ e)
      by_cases hs : s = t ∧ j = i
      · obtain ⟨rfl, rfl⟩ := hs
        have hp' := hM p q s (by omega) (by omega) e g.node
        rw [if_pos (by rw [hp']), Option.bind_some, g.word, g.target]
      · have hne : p ++ [j] ≠ q ++ [i] := by
          intro h
          obtain ⟨h1, h2⟩ := List.append_inj' h rfl
          have h2' : j = i := by simpa using h2
          rw [h1, g.node] at e
          exact hs ⟨(Option.some.inj e).symm, h2'⟩
        rw [if_neg hne, Option.bind_some, g.frame s j hsn hs, nodeAt_concat, e]
        rfl

theorem Relink.proper (hM : Proper next M root d) (g : Relink next M root d q i t n w M') :
    Proper next M' root d := proper_of_one hM g.fresh (nodeAt_relink hM g)
end write

/-- Word `i` of the root points to a tree of new nodes, whatever it pointed to before. -/
structure Replant (next : W → Option N) (M : N → ι → W) (root : N) (d : Nat) (i : ι) (n : N)
    (M' : N → ι → W) : Prop where
  target : next (M' root i) = some n
  others : ∀ j, j ≠ i → next (M' root j) = next (M root j)
  frame : ∀ s, IsNode next M root (d + 1) s → s ≠ root → M' s = M s
  fresh : ∀ s, IsNode next M' n d s → ¬ IsNode next M root (d + 1) s
  tree : Proper next M' n d

section replant
variable [DecidableEq ι] {i : ι} {n : N}

/-- **A new tree below the root changes the paths behind its word.** -/
theorem nodeAt_replant (hM : Proper next M root (d + 1)) (g : Replant next M root d i n M') (j : ι)
    (p : List ι) (hp : p.length ≤ d) :
    nodeAt next M' root (j :: p) = if j = i then nodeAt next M' n p else nodeAt next M root (j :: p) := by
  show (next (M' root j)).bind (fun t => nodeAt next M' t p) = _
  by_cases hj : j = i
  · rw [if_pos hj, hj, g.target]
    rfl
  · rw [if_neg hj, g.others j hj]
    show _ = (next (M root j)).bind fun t => nodeAt next M t p
    cases e : next (M root j) with
    | none => rfl
    | some t =>
      refine nodeAt_congr (fun q s k hq hs => ?_) p hp
      have hpath : nodeAt next M root (j :: q) = some s := by
        show (next (M root j)).bind _ = _
        rw [e]
        exact hs
      have hlen : (j :: q).length ≤ d + 1 := Nat.succ_le_succ (Nat.le_of_lt hq)
      have hne : s ≠ root := fun h =>
        List.cons_ne_nil j q (hM _ [] s hlen (Nat.zero_le _) hpath (h ▸ rfl))
      rw [g.frame s ⟨_, hlen, hpath⟩ hne]

/-- it leaves a tree -/
theorem Replant.proper (hM : Proper next M root (d + 1)) (g : Replant next M root d i n M') :
    Proper next M' root (d + 1) := by
  have hroot : IsNode next M root (d + 1) root := ⟨[], Nat.zero_le _, rfl⟩
  -- a path is an old one, or one through the new tree
  have key : ∀ p t, p.length ≤ d + 1 → nodeAt next M' root p = some t →
      (nodeAt next M root p = some t ∧ IsNode next M root (d + 1) t) ∨
        ∃ q, p = i :: q ∧ q.length ≤ d ∧ nodeAt next M' n q = some t := by
    intro p t hp e
    cases p with
    | nil =>
      have et : root = t := Option.some.inj e
      exact .inl ⟨e, et ▸ hroot⟩
    | cons j q =>
      have hq : q.length ≤ d := Nat.le_of_succ_le_succ hp
      rw [nodeAt_replant hM g j q hq] at e
      by_cases hj : j = i
      · rw [if_pos hj] at e
        exact .inr ⟨q, by rw [hj], hq, e⟩
      · rw [if_neg hj] at e
        exact .inl ⟨e, _, hp, e⟩
  intro p q t hp hq ep eq
  rcases key p t hp ep with ⟨ep', ht⟩ | ⟨p', rfl, hp', ep'⟩
  · rcases key q t hq eq with ⟨eq', -⟩ | ⟨q', rfl, hq', eq'⟩
    · exact hM p q t hp hq ep' eq'
    · exact absurd ht (g.fresh t ⟨q', hq', eq'⟩)
  · rcases key q t hq eq with ⟨-, ht⟩ | ⟨q', rfl, hq', eq'⟩
    · exact absurd ht (g.fresh t ⟨p', hp', ep'⟩)
    · rw [g.tree p' q' t hp' hq' ep' eq']

end replant

end Radix
