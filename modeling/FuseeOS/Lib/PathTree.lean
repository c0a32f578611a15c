import Mathlib.Algebra.BigOperators.Group.Finset.Basic
import Mathlib.Algebra.Order.BigOperators.Group.Finset
import Mathlib.Data.List.Infix

/-!
# Trees of paths

Paths are lists of names.  Paths that are put in one after the other make a tree of directories; a directory
has its names in the order in which they came.

* `names ps d`        the names in the directory `d`;
* `directories ps`    the directories;
* `DirTree.opened ps d`  the tree of `ps` in which `d` was also made a directory: it grows by one directory
                      (`opened_concat`) or by one file (`ofPaths_concat`) at a time;
* `DirTree.total f`      the sum of `f` over the names of each directory.
-/

namespace PathTree
variable {α : Type}

/-- what a path goes through -/
def properPrefixes (p : List α) : List (List α) := (List.range p.length).map p.take

theorem mem_properPrefixes {d p : List α} : d ∈ properPrefixes p ↔ ∃ n, d ++ [n] <+: p := by
  unfold properPrefixes
  rw [List.mem_map]
  constructor
  · intro h
    obtain ⟨k, hk, rfl⟩ := h
    have hlt := List.mem_range.mp hk
    refine ⟨p[k], ?_⟩
    rw [List.take_append_getElem hlt]
    exact List.take_prefix (k + 1) p
  · intro h
    obtain ⟨n, r, rfl⟩ := h
    refine ⟨d.length, List.mem_range.mpr ?_, ?_⟩
    · simp
    · rw [List.append_assoc, List.take_left]

variable [DecidableEq α]

/-- the name that a path has behind `d`, where it begins with `d` and goes on -/
def nextAfter : List α → List α → Option α
  | [], p => p.head?
  | x :: d, y :: p => if x = y then nextAfter d p else none
  | _ :: _, [] => none

/-- the names that paths put into the directory `d`, in order -/
def names (ps : List (List α)) (d : List α) : List α := (ps.filterMap (nextAfter d)).eraseDups

/-- the root, and what the paths go through -/
def directories (ps : List (List α)) : Finset (List α) := insert [] (ps.flatMap properPrefixes).toFinset

/-! ## one path -/

section
variable {d p q : List α} {n : α}

theorem nextAfter_eq_some : nextAfter d p = some n ↔ d ++ [n] <+: p := by
  induction d generalizing p with
  | nil =>
    rw [nextAfter, List.nil_append]
    cases p with
    | nil => simp
    | cons y p => simp [List.cons_prefix_cons, eq_comm]
  | cons x d ih =>
    cases p with
    | nil => simp [nextAfter]
    | cons y p =>
      rw [nextAfter, List.cons_append, List.cons_prefix_cons]
      by_cases hxy : x = y
      · rw [if_pos hxy, ih]
        exact ⟨fun h => ⟨hxy, h⟩, fun h => h.2⟩
      · rw [if_neg hxy]
        exact ⟨fun h => (Option.some_ne_none n h.symm).elim, fun h => absurd h.1 hxy⟩

theorem nextAfter_self (d : List α) : nextAfter d d = none := by
  cases h : nextAfter d d with
  | none => rfl
  | some n =>
    have hlen := (nextAfter_eq_some.mp h).length_le
    rw [List.length_append, List.length_singleton] at hlen
    omega

/-- a path with one more name -/
theorem nextAfter_concat (d q : List α) (n : α) :
    nextAfter q (d ++ [n]) = if q = d then some n else nextAfter q d := by
  by_cases hq : q = d
  · rw [if_pos hq, hq]
    exact nextAfter_eq_some.mpr (List.prefix_refl _)
  · rw [if_neg hq]
    apply Option.ext
    intro m
    rw [nextAfter_eq_some, nextAfter_eq_some, List.prefix_concat_iff]
    constructor
    · intro h
      rcases h with h | h
      · exact absurd (List.append_inj_left' h rfl) hq
      · exact h
    · exact Or.inr

theorem nextAfter_mono (h : d <+: p) (hn : nextAfter q d = some n) : nextAfter q p = some n :=
  nextAfter_eq_some.mpr ((nextAfter_eq_some.mp hn).trans h)

end

/-! ## directories -/

section
variable {ps : List (List α)} {d p q : List α} {n : α}

theorem mem_names : n ∈ names ps d ↔ ∃ p ∈ ps, d ++ [n] <+: p := by
  unfold names
  rw [List.mem_eraseDups, List.mem_filterMap]
  simp only [nextAfter_eq_some]

theorem mem_directories : d ∈ directories ps ↔ d = [] ∨ ∃ p ∈ ps, ∃ n, d ++ [n] <+: p := by
  unfold directories
  rw [Finset.mem_insert, List.mem_toFinset, List.mem_flatMap]
  simp only [mem_properPrefixes]

theorem nil_mem_directories (ps : List (List α)) : [] ∈ directories ps := mem_directories.mpr (Or.inl rfl)

theorem eraseDups_concat (l : List α) (x : α) :
    (l ++ [x]).eraseDups = if x ∈ l then l.eraseDups else l.eraseDups ++ [x] := by
  rw [List.eraseDups_append]
  split_ifs with hx
  · simp [List.removeAll, hx]
  · simp [List.removeAll, hx, List.eraseDups_cons]

/-- the first that satisfies `f` is not a repetition -/
theorem find_eraseDups (f : α → Bool) (l : List α) : l.eraseDups.find? f = l.find? f := by
  induction l using List.reverseRecOn with
  | nil => rfl
  | append_singleton l x ih =>
    rw [eraseDups_concat, List.find?_append]
    split_ifs with hx
    · rw [ih]
      cases hl : l.find? f with
      | some y => rfl
      | none =>
        have hfx := List.find?_eq_none.mp hl x hx
        simp [hfx]
    · rw [List.find?_append, ih]

/-- one more path -/
theorem names_concat (ps : List (List α)) (p d : List α) : names (ps ++ [p]) d =
    (nextAfter d p).elim (names ps d) fun n => if n ∈ names ps d then names ps d else names ps d ++ [n] := by
  unfold names
  rw [List.filterMap_append]
  cases h : nextAfter d p with
  | none => simp [h]
  | some n =>
    have hone : [p].filterMap (nextAfter d) = [n] := by simp [h]
    rw [hone, eraseDups_concat, Option.elim_some]
    simp only [List.mem_eraseDups]

/-- the names that are there stay, in their order -/
theorem names_append (ps qs : List (List α)) (d : List α) : names ps d <+: names (ps ++ qs) d := by
  unfold names
  rw [List.filterMap_append, List.eraseDups_append]
  exact List.prefix_append _ _

theorem directories_append (ps qs : List (List α)) : directories ps ⊆ directories (ps ++ qs) := by
  intro d hd
  rw [mem_directories] at hd ⊢
  exact hd.imp_right fun ⟨p, hp, h⟩ => ⟨p, List.mem_append_left qs hp, h⟩

theorem directories_concat (ps : List (List α)) (d : List α) (n : α) :
    directories (ps ++ [d ++ [n]]) = insert d (directories (ps ++ [d])) := by
  apply Finset.ext
  intro q
  rw [Finset.mem_insert, mem_directories, mem_directories]
  simp only [List.mem_append, List.mem_singleton, or_and_right, exists_or, exists_eq_left]
  have hlast : (∃ m, q ++ [m] <+: d ++ [n]) ↔ q = d ∨ ∃ m, q ++ [m] <+: d := by
    simp only [← nextAfter_eq_some, nextAfter_concat]
    by_cases hq : q = d
    · simp [hq]
    · simp [hq]
  rw [hlast, or_left_comm (b := q = d), or_left_comm (b := q = d)]

/-- what is not a directory has no names -/
theorem names_eq_nil (h : d ∉ directories ps) : names ps d = [] := by
  apply List.eq_nil_iff_forall_not_mem.mpr
  intro n hn
  obtain ⟨p, hp, hpre⟩ := mem_names.mp hn
  exact h (mem_directories.mpr (Or.inr ⟨p, hp, n, hpre⟩))

/-- where no path is a part of `p`, what `p` goes through is a directory as soon as it is there -/
theorem mem_directories_of_names (hn : n ∈ names ps d) (hp : d ++ [n] <+: p) (hps : ∀ q ∈ ps, ¬ q <+: p) :
    d ++ [n] ∈ directories ps := by
  obtain ⟨q, hq, r, rfl⟩ := mem_names.mp hn
  cases r with
  | nil =>
    rw [List.append_nil] at hq
    exact absurd hp (hps _ hq)
  | cons m r =>
    refine mem_directories.mpr (Or.inr ⟨_, hq, m, r, ?_⟩)
    simp

theorem names_of_mem_directories {m : α} (h : d ++ [n] ∈ directories (ps ++ [d ++ [m]])) : n ∈ names ps d := by
  rcases mem_directories.mp h with h | ⟨q, hq, m', hpre⟩
  · simp at h
  · rcases List.mem_append.mp hq with hq | hq
    · exact mem_names.mpr ⟨q, hq, (List.prefix_append _ _).trans hpre⟩
    · rw [List.mem_singleton.mp hq] at hpre
      have hlen := hpre.length_le
      simp at hlen

end

/-! ## trees -/

structure DirTree (α : Type) where
  names : List α → List α
  dirs : Finset (List α)

namespace DirTree

/-- one more name in a directory -/
def add (t : DirTree α) (d : List α) (n : α) : DirTree α :=
  { t with names := Function.update t.names d (t.names d ++ [n]) }

/-- one more directory -/
def mkdir (t : DirTree α) (d : List α) (n : α) : DirTree α := { t.add d n with dirs := insert (d ++ [n]) t.dirs }

def ofPaths (ps : List (List α)) : DirTree α := ⟨PathTree.names ps, directories ps⟩

/-- the tree of the paths, and the directory `d` -/
def opened (ps : List (List α)) (d : List α) : DirTree α :=
  ⟨PathTree.names (ps ++ [d]), insert d (directories (ps ++ [d]))⟩

/-- the directories of `t` are there, and begin as they do in `t` -/
structure Le (t u : DirTree α) : Prop where
  dirs : t.dirs ⊆ u.dirs
  names : ∀ d, t.names d <+: u.names d

/-- the sum over the directories -/
def total (f : List α → Nat) (t : DirTree α) : Nat := ∑ d ∈ t.dirs, f (t.names d)

section
variable {t u : DirTree α} {ps : List (List α)} {d p q : List α} {n : α} {f : List α → Nat}

theorem add_self (t : DirTree α) (d : List α) (n : α) : (t.add d n).names d = t.names d ++ [n] :=
  Function.update_self ..

theorem add_ne (t : DirTree α) (n : α) (h : q ≠ d) : (t.add d n).names q = t.names q := Function.update_of_ne h ..

theorem opened_nil (ps : List (List α)) : opened ps [] = ofPaths ps := by
  have hnames : PathTree.names (ps ++ [[]]) = PathTree.names ps := by
    funext q
    cases q <;> rw [names_concat] <;> rfl
  have hdirs : directories (ps ++ [[]]) = directories ps := by
    unfold directories
    rw [List.flatMap_append]
    simp [properPrefixes]
  unfold opened ofPaths
  rw [hnames, hdirs, Finset.insert_eq_of_mem (nil_mem_directories ps)]

/-- the names of a directory are those that the paths have put there -/
theorem opened_names_self (ps : List (List α)) (d : List α) : (opened ps d).names d = PathTree.names ps d := by
  show PathTree.names (ps ++ [d]) d = _
  rw [names_concat, nextAfter_self]
  rfl

theorem names_snoc (ps : List (List α)) (d : List α) (n : α) : PathTree.names (ps ++ [d ++ [n]]) =
    if n ∈ PathTree.names ps d then (opened ps d).names else ((opened ps d).add d n).names := by
  funext q
  have hself := opened_names_self ps d
  have hq : PathTree.names (ps ++ [d ++ [n]]) q = if q = d then
      (if n ∈ PathTree.names ps d then PathTree.names ps d else PathTree.names ps d ++ [n])
      else (opened ps d).names q := by
    rw [names_concat, nextAfter_concat]
    split_ifs with hqd hn
    · rw [hqd, Option.elim_some, if_pos hn]
    · rw [hqd, Option.elim_some, if_neg hn]
    · exact (names_concat ps d q).symm
  rw [hq]
  by_cases hqd : q = d
  · rw [if_pos hqd, hqd]
    split_ifs
    · exact hself.symm
    · rw [add_self, hself]
  · rw [if_neg hqd]
    split_ifs
    · rfl
    · exact (add_ne _ n hqd).symm

/-- **a directory that is there** -/
theorem opened_enter (hn : n ∈ PathTree.names ps d) (hd : d ++ [n] ∈ directories ps) :
    opened ps (d ++ [n]) = opened ps d := by
  have hsub := directories_append ps [d]
  have hd' : d ∈ directories (ps ++ [d]) := by
    obtain ⟨p, hp, hpre⟩ := mem_names.mp hn
    exact hsub (mem_directories.mpr (Or.inr ⟨p, hp, n, hpre⟩))
  have hdirs : insert (d ++ [n]) (directories (ps ++ [d ++ [n]])) = insert d (directories (ps ++ [d])) := by
    rw [directories_concat, Finset.insert_eq_of_mem hd', Finset.insert_eq_of_mem (hsub hd)]
  have hnames := names_snoc ps d n
  rw [if_pos hn] at hnames
  show DirTree.mk _ _ = DirTree.mk _ _
  rw [hnames, hdirs]
  rfl

/-- what has no name is not there -/
theorem not_mem_opened (hn : n ∉ PathTree.names ps d) : d ++ [n] ∉ (opened ps d).dirs := by
  intro h
  have hdirs : (opened ps d).dirs = directories (ps ++ [d ++ [n]]) := (directories_concat ps d n).symm
  rw [hdirs] at h
  exact hn (names_of_mem_directories h)

theorem opened_names_nil (h : q ∉ (opened ps d).dirs) : (opened ps d).names q = [] :=
  names_eq_nil fun hq => h (Finset.mem_insert_of_mem hq)

/-- **a new directory** -/
theorem opened_concat (hn : n ∉ PathTree.names ps d) : opened ps (d ++ [n]) = (opened ps d).mkdir d n := by
  have hnames := names_snoc ps d n
  rw [if_neg hn] at hnames
  show DirTree.mk _ _ = DirTree.mk _ _
  rw [hnames, directories_concat]
  rfl

/-- **a new file** -/
theorem ofPaths_concat (hn : n ∉ PathTree.names ps d) : ofPaths (ps ++ [d ++ [n]]) = (opened ps d).add d n := by
  have hnames := names_snoc ps d n
  rw [if_neg hn] at hnames
  show DirTree.mk _ _ = DirTree.mk _ _
  rw [hnames, directories_concat]
  rfl

/-- the paths that come later only add to it -/
theorem opened_le (ps qs : List (List α)) (h : d ++ [n] <+: p) : (opened ps d).Le (ofPaths (ps ++ p :: qs)) := by
  have hd : d <+: p := (List.prefix_append d [n]).trans h
  have hassoc : ps ++ p :: qs = ps ++ [p] ++ qs := by simp
  constructor
  · intro q hq
    rcases Finset.mem_insert.mp hq with rfl | hq
    · exact mem_directories.mpr (Or.inr ⟨p, by simp, n, h⟩)
    · rw [ofPaths, hassoc]
      apply directories_append
      rw [mem_directories] at hq ⊢
      refine hq.imp_right fun ⟨r, hr, m, hm⟩ => ?_
      rcases List.mem_append.mp hr with hr | hr
      · exact ⟨r, List.mem_append_left _ hr, m, hm⟩
      · rw [List.mem_singleton.mp hr] at hm
        exact ⟨p, by simp, m, hm.trans hd⟩
  · intro q
    show PathTree.names (ps ++ [d]) q <+: PathTree.names (ps ++ p :: qs) q
    rw [hassoc]
    apply List.IsPrefix.trans _ (names_append (ps ++ [p]) qs q)
    rw [names_concat]
    cases hq : nextAfter q d with
    | none => exact names_append ps [p] q
    | some m =>
      rw [names_concat, nextAfter_mono hd hq]

/-! ### sums -/

omit [DecidableEq α] in
theorem total_le (hf : ∀ l l' : List α, l <+: l' → f l ≤ f l') (h : t.Le u) : t.total f ≤ u.total f :=
  (Finset.sum_le_sum fun d _ => hf _ _ (h.names d)).trans (Finset.sum_le_sum_of_subset h.dirs)

theorem total_add (hd : d ∈ t.dirs) :
    (t.add d n).total f + f (t.names d) = t.total f + f (t.names d ++ [n]) := by
  have hrest : ∑ q ∈ t.dirs.erase d, f ((t.add d n).names q) = ∑ q ∈ t.dirs.erase d, f (t.names q) :=
    Finset.sum_congr rfl fun q hq => by rw [add_ne t n (Finset.ne_of_mem_erase hq)]
  have hadd := Finset.add_sum_erase t.dirs (fun q => f ((t.add d n).names q)) hd
  have ht := Finset.add_sum_erase t.dirs (fun q => f (t.names q)) hd
  have htotal : (t.add d n).total f = ∑ q ∈ t.dirs, f ((t.add d n).names q) := rfl
  rw [htotal, ← hadd, hrest, add_self, total, ← ht]
  omega

theorem total_mkdir (hq : d ++ [n] ∉ t.dirs) (hempty : t.names (d ++ [n]) = []) :
    (t.mkdir d n).total f = (t.add d n).total f + f [] := by
  have hne : d ++ [n] ≠ d := fun h => by simp at h
  have hnew : (t.add d n).names (d ++ [n]) = [] := (add_ne t n hne).trans hempty
  show ∑ q ∈ insert (d ++ [n]) t.dirs, f ((t.add d n).names q) = _
  rw [Finset.sum_insert hq, hnew, Nat.add_comm]
  rfl

end

end DirTree

end PathTree
