import FuseeOS.Lib.PathTree
import FuseeOS.Tools.VolumeCheck
import FuseeOS.Tools.VolumeTool

/-!
# The tree of directories

What `copy_file` makes of the volume, path by path: a tree with a directory for each directory on a path and
a file for each path, as long as `find_file_dir` finds nothing but the name that it looks for
(`FirstExact`).

* `TreeOn a t files num`   the store `a` holds the tree `t` and the files, at the inodes `num`;
* `TreeOn.enterDir`        a directory on a path, found or created;
* `TreeOn.copyFile`        a file with its path;
* **`copyFiles_tree`**     all the files, one after the other.
-/

namespace FuseeOS
open Bytes PathTree

/-- the names on the way to a file -/
abbrev Path : Type := List (List UInt8)

/-- the names in a path -/
def components (path : List UInt8) : Path := (relative path).splitOn SLASH

/-- the first of the paths that puts an initial part of the name into the directory puts there the name itself -/
def ExactIn (ps : List Path) (d : Path) (n : List UInt8) : Prop :=
  ∀ m, (ps.filterMap (nextAfter d)).find? (·.isPrefixOf n) = some m → m = n

/-- every directory on a path is looked up among earlier names of which none is an initial part of its own, or
the first of them is its own -/
def FirstExact (ps : List Path) : Prop :=
  ∀ (done : List Path) (p : Path) (todo : List Path) (d : Path) (n : List UInt8), ps = done ++ p :: todo →
    d ++ [n] <+: p → d ++ [n] ≠ p → ExactIn done d n

/-! ## the loop over the path, name by name -/

section
variable {σ ε : Type} {enter : σ → Nat → List UInt8 → Except ε (Nat × σ)}

/-- the directories on a path, each in the last -/
def enterAll (enter : σ → Nat → List UInt8 → Except ε (Nat × σ)) (s : σ) (d : Nat) : Path → Except ε (Nat × σ)
  | [] => .ok (d, s)
  | n :: p => (enter s d n).bind fun (d, s) => enterAll enter s d p

theorem enterAll_append (s : σ) (d : Nat) (p q : Path) :
    enterAll enter s d (p ++ q) = (enterAll enter s d p).bind fun (d, s) => enterAll enter s d q := by
  induction p generalizing s d with
  | nil => rfl
  | cons n p ih =>
    rw [List.cons_append, enterAll, enterAll, bind_assoc]
    simp only [ih]

/-- a loop over the characters enters the directories, and has the name of the file in the end -/
theorem loop_enterAll {loop : σ → Nat → List UInt8 → List UInt8 → Except ε ((Nat × List UInt8) × σ)}
    (hnil : ∀ s d e, loop s d e [] = .ok ((d, e), s))
    (hcons : ∀ s d e c path, loop s d e (c :: path) =
      if c = SLASH then (enter s d e).bind fun (d, s) => loop s d [] path else loop s d (e ++ [c]) path)
    (s : σ) (d : Nat) (e path : List UInt8) {p : Path} {n : List UInt8}
    (h : (path.splitOn SLASH).modifyHead (e ++ ·) = p ++ [n]) :
    loop s d e path = (enterAll enter s d p).bind fun (d, s) => .ok ((d, n), s) := by
  induction path generalizing s d e p with
  | nil =>
    rw [List.splitOn_nil, List.modifyHead_cons, List.append_nil] at h
    have h' : [] ++ [e] = p ++ [n] := h
    obtain ⟨hp, hn⟩ := List.append_inj' h' rfl
    rw [← hp, ← (List.cons.inj hn).1]
    exact hnil s d e
  | cons c path ih =>
    have hne := List.splitOn_ne_nil SLASH path
    rw [List.splitOn_cons_eq_if_modifyHead] at h
    rw [hcons]
    by_cases hc : c = SLASH
    · rw [if_pos (beq_iff_eq.mpr hc), List.modifyHead_cons, List.append_nil] at h
      cases p with
      | nil => exact absurd (List.cons.inj h).2 hne
      | cons m p =>
        obtain ⟨rfl, hrest⟩ := List.cons.inj h
        have hid : (path.splitOn SLASH).modifyHead ([] ++ ·) = p ++ [n] :=
          (congrFun List.modifyHead_id _).trans hrest
        rw [if_pos hc, enterAll, bind_assoc]
        congr 1
        funext x
        exact ih x.2 x.1 [] hid
    · rw [if_neg (fun hb => hc (beq_iff_eq.mp hb)), List.modifyHead_modifyHead] at h
      rw [if_neg hc]
      refine ih s d (e ++ [c]) (Eq.trans ?_ h)
      congr 1
      funext l
      simp

end

section
variable {path : List UInt8} {p : Path} {n : List UInt8}

theorem components_eq (h : components path = p ++ [n]) :
    ((relative path).splitOn SLASH).modifyHead ([] ++ ·) = p ++ [n] := (congrFun List.modifyHead_id _).trans h

theorem pathLoop_enterAll (v : MfsVolume) (d : Nat) (h : components path = p ++ [n]) :
    pathLoop v d [] (relative path) = (enterAll enterDir v d p).bind fun (d, v) => .ok ((d, n), v) :=
  loop_enterAll (fun _ _ _ => rfl) (fun _ _ _ _ _ => rfl) v d [] _ (components_eq h)

theorem FileStore.pathLoop_enterAll (a : FileStore) (d : Nat) (h : components path = p ++ [n]) :
    a.pathLoop d [] (relative path) = (enterAll FileStore.enterDir a d p).bind fun (d, a) => .ok ((d, n), a) :=
  loop_enterAll (fun _ _ _ => rfl) (fun _ _ _ _ _ => rfl) a d [] _ (components_eq h)

end

/-! ## one more file or directory -/

theorem pagesFor_mono {m n : Nat} (h : m ≤ n) : pagesFor m ≤ pagesFor n := by
  unfold pagesFor
  split_ifs <;> omega

/-- a new file with the content `c`, and its entry in the directory -/
structure Planted (a b : FileStore) (d : Nat) (s : StoredFile) (name c : List UInt8) : Prop where
  even : b.Even
  new : ∃ t, b.file (nextPage a.next) = some t ∧ t.content = c
  dir : ∃ t, b.file d = some t ∧ t.content = s.content ++ entryBytes name (nextPage a.next)
  other : ∀ g, g ≠ d → g ≠ nextPage a.next → b.file g = a.file g
  next : b.next = nextPage^[1 + pagesFor c.length +
    (pagesFor (s.content.length + (Mfs.dirEntry + name.length)) - pagesFor s.content.length)] a.next

section
variable {a b : FileStore} {d : Nat} {s : StoredFile} {name c : List UInt8}

theorem length_entryBytes (name : List UInt8) (inode : Nat) :
    (entryBytes name inode).length = Mfs.dirEntry + name.length := by
  rw [entryBytes, List.length_append, length_dirEntryBytes]

/-- **A new file and its entry.** -/
theorem exists_planted (ha : a.Even) (hd : a.file d = some s) (hdle : d ≤ a.next) (hc : c.length ≤ 528 * 4096)
    (hsize : s.content.length + (Mfs.dirEntry + name.length) ≤ 528 * 4096) :
    ∃ t b₁ b, a.create.2.append (nextPage a.next) .empty c = .ok (t, b₁) ∧
      b₁.link d name (nextPage a.next) = .ok ((), b) ∧ Planted a b d s name c := by
  have hne : d ≠ nextPage a.next := Nat.ne_of_lt (Nat.lt_of_le_of_lt hdle (nextPage_spec a.next).1)
  have hnew : a.create.2.file (nextPage a.next) = some .empty := FileStore.set_self ..
  obtain ⟨t, b₁, e₁, heven₁, ht, hct, hnext₁⟩ := ha.create.append hnew (l := c) (by
    show 0 + c.length ≤ _
    omega)
  have hd₁ : b₁.file d = some s := (append_other hne e₁).trans ((create_other hne).trans hd)
  have hlen := length_entryBytes name (nextPage a.next)
  obtain ⟨u, b, e₂, heven₂, hu, hcu, hnext₂⟩ := heven₁.append hd₁ (l := entryBytes name (nextPage a.next)) (by
    rw [hlen]
    exact hsize)
  refine ⟨t, b₁, b, e₁, ?_, ?_⟩
  · rw [FileStore.link, hd₁]
    dsimp only
    rw [e₂, ok_bind]
  · constructor
    · exact heven₂
    · exact ⟨t, (append_other hne.symm e₂).trans ht, hct⟩
    · exact ⟨u, hu, hcu⟩
    · intro g hgd hgn
      exact (append_other hgd e₂).trans ((append_other hgn e₁).trans (create_other hgn))
    · rw [hnext₂, hnext₁, hlen, ← Function.iterate_add_apply]
      show nextPage^[_] (nextPage a.next) = _
      rw [← Function.iterate_succ_apply]
      congr 1
      show _ + (pagesFor (0 + c.length) - 0) + 1 = _
      rw [Nat.zero_add]
      omega

end

/-! ## the tree in the store -/

/-- the bytes of the entries with these names -/
def dirSize (names : List (List UInt8)) : Nat := (names.map fun n => Mfs.dirEntry + n.length).sum

/-- the entries of the directory `d` -/
def entriesOf (num : Path → Nat) (d : Path) (names : List (List UInt8)) : List (List UInt8 × Nat) :=
  names.map fun n => (n, num (d ++ [n]))

/-- the pages of the directories: their inodes, and those for their entries -/
def treePages (t : DirTree (List UInt8)) : Nat := t.total fun names => 1 + pagesFor (dirSize names)

/-- the pages of the files -/
def contentPages (files : List (Path × List UInt8)) : Nat := (files.map fun f => 1 + pagesFor f.2.length).sum

/-- a directory or a file -/
def Node (t : DirTree (List UInt8)) (files : List (Path × List UInt8)) (q : Path) : Prop :=
  q ∈ t.dirs ∨ ∃ f ∈ files, f.1 = q

/-- **the store holds the tree and the files**, at the inodes `num`, and has no other pages -/
structure TreeOn (a : FileStore) (t : DirTree (List UInt8)) (files : List (Path × List UInt8))
    (num : Path → Nat) : Prop where
  even : a.Even
  next : a.next = nextPage^[treePages t + contentPages files] 0
  top : [] ∈ t.dirs
  root : num [] = 1
  dir : ∀ d ∈ t.dirs, ∃ s, a.file (num d) = some s ∧ s.content = dirBytes (entriesOf num d (t.names d))
  file : ∀ f ∈ files, ∃ s, a.file (num f.1) = some s ∧ s.content = f.2
  used : ∀ q, Node t files q → 0 < num q ∧ num q ≤ a.next
  apart : ∀ q r, Node t files q → Node t files r → num q = num r → q = r
  closed : ∀ d ∈ t.dirs, ∀ n ∈ t.names d, Node t files (d ++ [n])
  plain : ∀ f ∈ files, f.1 ∉ t.dirs

section
variable {num : Path → Nat} {d q : Path} {n m : List UInt8} {l l' : List (List UInt8)}

theorem dirSize_append (l l' : List (List UInt8)) : dirSize (l ++ l') = dirSize l + dirSize l' := by
  unfold dirSize
  rw [List.map_append, List.sum_append]

theorem dirSize_singleton (n : List UInt8) : dirSize [n] = Mfs.dirEntry + n.length := by
  unfold dirSize
  simp

theorem dirSize_mono (h : l <+: l') : dirSize l ≤ dirSize l' := by
  obtain ⟨r, rfl⟩ := h
  rw [dirSize_append]
  exact Nat.le_add_right _ _

theorem length_entriesOf (num : Path → Nat) (d : Path) (l : List (List UInt8)) :
    (dirBytes (entriesOf num d l)).length = dirSize l := by
  induction l with
  | nil => rfl
  | cons n l ih =>
    have hcons : dirSize (n :: l) = Mfs.dirEntry + n.length + dirSize l := List.sum_cons
    rw [hcons, entriesOf, List.map_cons, entry_length]
    exact congrArg _ ih

/-- one more entry -/
theorem entriesOf_concat (num : Path → Nat) (d : Path) (l : List (List UInt8)) (n : List UInt8) :
    dirBytes (entriesOf num d (l ++ [n])) = dirBytes (entriesOf num d l) ++ entryBytes n (num (d ++ [n])) := by
  unfold entriesOf
  rw [List.map_append, dirBytes_append]
  congr 1
  exact List.flatMap_singleton ..

/-- entries with other inodes elsewhere -/
theorem entriesOf_congr {num' : Path → Nat} (h : ∀ n ∈ l, num' (d ++ [n]) = num (d ++ [n])) :
    entriesOf num' d l = entriesOf num d l :=
  List.map_congr_left fun n hn => by rw [h n hn]

theorem firstPrefix_entriesOf (num : Path → Nat) (d : Path) (l : List (List UInt8)) (n : List UInt8) :
    firstPrefix (entriesOf num d l) n =
      (l.find? (·.isPrefixOf n)).map fun m => (m, num (d ++ [m])) := by
  unfold firstPrefix entriesOf
  rw [List.find?_map]
  rfl

variable {a b : FileStore} {t t' : DirTree (List UInt8)} {files files' : List (Path × List UInt8)} {c : List UInt8}

/-- a lookup gives the first name that the given one begins with -/
theorem TreeOn.find_first (h : TreeOn a t files num) (hd : d ∈ t.dirs)
    (hnames : ∀ m ∈ t.names d, 0 ∉ m ∧ m.length < 1024) (hsmall : a.next < 2^63) (n : List UInt8) :
    a.find (num d) n =
      .ok ((((t.names d).find? (·.isPrefixOf n)).map fun m => num (d ++ [m])).getD 0, a) := by
  obtain ⟨s, hs, hc⟩ := h.dir d hd
  have hes : ∀ e ∈ entriesOf num d (t.names d), 0 ∉ e.1 ∧ e.1.length ≤ 1024 ∧ e.2 < 2^64 := by
    intro e he
    obtain ⟨m, hm, rfl⟩ := List.mem_map.mp he
    obtain ⟨h0, hlen⟩ := hnames m hm
    have hle := (h.used _ (h.closed d hd m hm)).2
    exact ⟨h0, Nat.le_of_lt hlen, by omega⟩
  have hscan := scanDir_entries hes n .start (Nat.lt_succ_of_le (length_le_dirBytes _))
  rw [FileStore.find, hs]
  dsimp only
  rw [hc, hscan, firstPrefix_entriesOf, Option.map_map]
  rfl

/-- **The lookup of a name in a directory**, where it is exact. -/
theorem TreeOn.find (h : TreeOn a t files num) (hd : d ∈ t.dirs) (hnames : ∀ m ∈ t.names d, 0 ∉ m ∧ m.length < 1024)
    (hsmall : a.next < 2^63) (hexact : ∀ m, (t.names d).find? (·.isPrefixOf n) = some m → m = n) :
    a.find (num d) n = .ok (if n ∈ t.names d then num (d ++ [n]) else 0, a) := by
  rw [h.find_first hd hnames hsmall]
  cases hfind : (t.names d).find? (·.isPrefixOf n) with
  | none =>
    have hn : n ∉ t.names d := fun hn =>
      List.find?_eq_none.mp hfind n hn (List.isPrefixOf_iff_prefix.mpr (List.prefix_refl n))
    rw [if_neg hn]
    rfl
  | some m =>
    obtain rfl := hexact m hfind
    rw [if_pos (List.mem_of_find?_eq_some hfind)]
    rfl

/-- the pages after something was planted -/
theorem treePages_add (hd : d ∈ t.dirs) : treePages (t.add d n) =
    treePages t + (pagesFor (dirSize (t.names d) + (Mfs.dirEntry + n.length)) - pagesFor (dirSize (t.names d))) := by
  have hadd := DirTree.total_add (f := fun names => 1 + pagesFor (dirSize names)) (n := n) hd
  have hmono := pagesFor_mono (Nat.le_add_right (dirSize (t.names d)) (Mfs.dirEntry + n.length))
  rw [dirSize_append, dirSize_singleton] at hadd
  unfold treePages
  omega

theorem le_iterate_nextPage (k n : Nat) : n ≤ nextPage^[k] n := by
  induction k with
  | zero => exact Nat.le_refl n
  | succ k ih =>
    rw [Function.iterate_succ_apply']
    exact Nat.le_trans ih (Nat.le_of_lt (nextPage_spec _).1)

/-- there is a new file or directory `d ++ [n]`, with the content `c`, in the directory `d` -/
structure OneMore (t t' : DirTree (List UInt8)) (files files' : List (Path × List UInt8)) (d : Path)
    (n c : List UInt8) : Prop where
  node : ∀ q, Node t' files' q ↔ Node t files q ∨ q = d ++ [n]
  names : t'.names = (t.add d n).names
  top : [] ∈ t'.dirs
  dir : ∀ q ∈ t'.dirs, q ∈ t.dirs ∨ q = d ++ [n] ∧ c = [] ∧ t.names q = []
  file : ∀ f ∈ files', f ∈ files ∨ f = (d ++ [n], c)
  plain : ∀ f ∈ files', f.1 ∉ t'.dirs
  pages : treePages t' + contentPages files' =
    treePages (t.add d n) + contentPages files + (1 + pagesFor c.length)

theorem TreeOn.mkdir (h : TreeOn a t files num) (hq : ¬ Node t files (d ++ [n])) (hempty : t.names (d ++ [n]) = []) :
    OneMore t (t.mkdir d n) files files d n [] where
  node := fun q => by
    show (q ∈ insert (d ++ [n]) t.dirs ∨ _) ↔ _
    rw [Finset.mem_insert, or_assoc, or_comm]
    rfl
  names := rfl
  top := Finset.mem_insert_of_mem h.top
  dir := fun q hq' => by
    rcases Finset.mem_insert.mp hq' with rfl | hq'
    · exact Or.inr ⟨rfl, rfl, hempty⟩
    · exact Or.inl hq'
  file := fun f hf => Or.inl hf
  plain := fun f hf hd => by
    rcases Finset.mem_insert.mp hd with e | hd
    · exact hq (Or.inr ⟨f, hf, e⟩)
    · exact h.plain f hf hd
  pages := by
    have htotal := DirTree.total_mkdir (f := fun names => 1 + pagesFor (dirSize names))
      (fun hd => hq (Or.inl hd)) hempty
    have hzero : pagesFor (dirSize []) = 0 := rfl
    have hnil : pagesFor ([] : List UInt8).length = 0 := rfl
    unfold treePages
    omega

theorem TreeOn.addFile (h : TreeOn a t files num) (hq : ¬ Node t files (d ++ [n])) (c : List UInt8) :
    OneMore t (t.add d n) files (files ++ [(d ++ [n], c)]) d n c where
  node := fun q => by
    show (q ∈ t.dirs ∨ _) ↔ _
    simp only [Node, List.mem_append, List.mem_singleton, or_and_right, exists_or, exists_eq_left]
    rw [or_assoc, eq_comm (a := q)]
  names := rfl
  top := h.top
  dir := fun q hq' => Or.inl hq'
  file := fun f hf => by
    rcases List.mem_append.mp hf with hf | hf
    · exact Or.inl hf
    · exact Or.inr (List.mem_singleton.mp hf)
  plain := fun f hf hd => by
    rcases List.mem_append.mp hf with hf | hf
    · exact h.plain f hf hd
    · rw [List.mem_singleton.mp hf] at hd
      exact hq (Or.inl hd)
  pages := by
    have hpages : contentPages (files ++ [(d ++ [n], c)]) = contentPages files + (1 + pagesFor c.length) := by
      unfold contentPages
      simp
    omega

/-- the names in the directories are names of nodes -/
theorem OneMore.closed (hg : OneMore t t' files files' d n c)
    (h : ∀ q ∈ t.dirs, ∀ m ∈ t.names q, Node t files (q ++ [m])) :
    ∀ q ∈ t'.dirs, ∀ m ∈ t'.names q, Node t' files' (q ++ [m]) := by
  intro q hq m hm
  rw [hg.names] at hm
  rw [hg.node]
  rcases hg.dir q hq with hqt | ⟨rfl, -, hempty⟩
  · by_cases hqd : q = d
    · subst hqd
      rw [DirTree.add_self] at hm
      rcases List.mem_append.mp hm with hm | hm
      · exact Or.inl (h q hqt m hm)
      · rw [List.mem_singleton.mp hm]
        exact Or.inr rfl
    · rw [DirTree.add_ne t n hqd] at hm
      exact Or.inl (h q hqt m hm)
  · have hne : d ++ [n] ≠ d := fun e => by simp at e
    rw [DirTree.add_ne t n hne, hempty] at hm
    cases hm

/-- what is read from a directory of the tree -/
theorem TreeOn.content {s : StoredFile} (h : TreeOn a t files num) (hd : d ∈ t.dirs)
    (hs : a.file (num d) = some s) : s.content = dirBytes (entriesOf num d (t.names d)) := by
  obtain ⟨s', hs', hc⟩ := h.dir d hd
  cases hs.symm.trans hs'
  exact hc

/-- the nodes of before keep their numbers -/
theorem update_node {r : Path} (hr : ¬ Node t files r) (hq : Node t files q) (k : Nat) :
    Function.update num r k q = num q :=
  Function.update_of_ne (fun e => hr (by rwa [← e])) _ _

theorem TreeOn.ne_nextPage (h : TreeOn a t files num) (hq : Node t files q) : num q ≠ nextPage a.next :=
  Nat.ne_of_lt (Nat.lt_of_le_of_lt (h.used q hq).2 (nextPage_spec a.next).1)

/-- the new number is behind all others -/
theorem TreeOn.apart_update (h : TreeOn a t files num) (hq : ¬ Node t files (d ++ [n]))
    (hg : OneMore t t' files files' d n c) {q r : Path} (hq' : Node t' files' q) (hr : Node t' files' r)
    (e : Function.update num (d ++ [n]) (nextPage a.next) q =
      Function.update num (d ++ [n]) (nextPage a.next) r) : q = r := by
  rcases (hg.node q).mp hq' with hq' | rfl
  · rcases (hg.node r).mp hr with hr | rfl
    · rw [update_node hq hq', update_node hq hr] at e
      exact h.apart q r hq' hr e
    · rw [update_node hq hq', Function.update_self] at e
      exact absurd e (h.ne_nextPage hq')
  · rcases (hg.node r).mp hr with hr | rfl
    · rw [Function.update_self, update_node hq hr] at e
      exact absurd e.symm (h.ne_nextPage hr)
    · rfl

/-- the other nodes are where they were -/
theorem TreeOn.planted_other {s : StoredFile} (h : TreeOn a t files num) (hb : Planted a b (num d) s n c)
    (hd : d ∈ t.dirs) (hq : Node t files q) (hne : q ≠ d) : b.file (num q) = a.file (num q) :=
  hb.other _ (fun e => hne (h.apart q d hq (Or.inl hd) e)) (h.ne_nextPage hq)

/-- the pages that were handed out -/
theorem TreeOn.planted_next {s : StoredFile} (h : TreeOn a t files num) (hd : d ∈ t.dirs)
    (hs : a.file (num d) = some s) (hb : Planted a b (num d) s n c) :
    b.next = nextPage^[1 + pagesFor c.length + (pagesFor (dirSize (t.names d) +
      (Mfs.dirEntry + n.length)) - pagesFor (dirSize (t.names d)))] a.next := by
  have hsc := h.content hd hs
  rw [← length_entriesOf num d, ← hsc]
  exact hb.next

/-- the directories: one has an entry more, and one may be new -/
theorem TreeOn.planted_dir {s : StoredFile} (h : TreeOn a t files num) (hd : d ∈ t.dirs)
    (hs : a.file (num d) = some s) (hb : Planted a b (num d) s n c) (hq : ¬ Node t files (d ++ [n]))
    (hg : OneMore t t' files files' d n c) (hq' : q ∈ t'.dirs) :
    ∃ u, b.file (Function.update num (d ++ [n]) (nextPage a.next) q) = some u ∧ u.content =
      dirBytes (entriesOf (Function.update num (d ++ [n]) (nextPage a.next)) q (t'.names q)) := by
  have hentries : ∀ q ∈ t.dirs, entriesOf (Function.update num (d ++ [n]) (nextPage a.next)) q (t.names q) =
      entriesOf num q (t.names q) := fun q hqt =>
    entriesOf_congr fun m hm => update_node hq (h.closed q hqt m hm) _
  rw [hg.names]
  rcases hg.dir q hq' with hqt | ⟨rfl, rfl, hempty⟩
  · rw [update_node hq (Or.inl hqt)]
    by_cases hqd : q = d
    · subst hqd
      obtain ⟨u, hu, hcu⟩ := hb.dir
      refine ⟨u, hu, ?_⟩
      rw [hcu, h.content hqt hs, DirTree.add_self, entriesOf_concat, hentries q hqt, Function.update_self]
    · obtain ⟨u, hu, hcu⟩ := h.dir q hqt
      refine ⟨u, (h.planted_other hb hd (Or.inl hqt) hqd).trans hu, ?_⟩
      rw [hcu, DirTree.add_ne t n hqd, hentries q hqt]
  · obtain ⟨u, hu, hcu⟩ := hb.new
    have hne : d ++ [n] ≠ d := fun e => by simp at e
    refine ⟨u, by rwa [Function.update_self], ?_⟩
    rw [hcu, DirTree.add_ne t n hne, hempty]
    rfl

/-- **Something new in a directory.** -/
theorem TreeOn.plant {s : StoredFile} (h : TreeOn a t files num) (hd : d ∈ t.dirs) (hs : a.file (num d) = some s)
    (hb : Planted a b (num d) s n c) (hq : ¬ Node t files (d ++ [n])) (hg : OneMore t t' files files' d n c) :
    TreeOn b t' files' (Function.update num (d ++ [n]) (nextPage a.next)) := by
  have hlt := (nextPage_spec a.next).1
  have hgrown := h.planted_next hd hs hb
  have hroom : nextPage a.next ≤ b.next := by
    rw [hgrown, Nat.add_assoc, Nat.add_comm 1, Function.iterate_succ_apply]
    exact le_iterate_nextPage _ _
  constructor
  · exact hb.even
  · rw [hgrown, h.next, ← Function.iterate_add_apply, hg.pages, treePages_add hd]
    congr 1
    omega
  · exact hg.top
  · rw [update_node hq (Or.inl h.top)]
    exact h.root
  · intro q hq'
    exact h.planted_dir hd hs hb hq hg hq'
  · intro f hf
    rcases hg.file f hf with hf' | rfl
    · have hfn : Node t files f.1 := Or.inr ⟨f, hf', rfl⟩
      obtain ⟨u, hu, hcu⟩ := h.file f hf'
      rw [update_node hq hfn, h.planted_other hb hd hfn fun e => h.plain f hf' (e ▸ hd)]
      exact ⟨u, hu, hcu⟩
    · obtain ⟨u, hu, hcu⟩ := hb.new
      exact ⟨u, by rwa [Function.update_self], hcu⟩
  · intro q hq'
    rcases (hg.node q).mp hq' with hq' | rfl
    · obtain ⟨hpos, hle⟩ := h.used q hq'
      rw [update_node hq hq']
      exact ⟨hpos, by omega⟩
    · rw [Function.update_self]
      exact ⟨by omega, hroom⟩
  · intro q r hq' hr e
    exact h.apart_update hq hg hq' hr e
  · exact hg.closed h.closed
  · exact hg.plain

end

/-! ## files with their paths -/

/-- the paths of the files -/
def pathsOf (files : List (Path × List UInt8)) : List Path := files.map Prod.fst

/-- as many pages as it takes -/
def treeSize (files : List (Path × List UInt8)) : Nat := treePages (.ofPaths (pathsOf files)) + contentPages files

/-- what is copied: the names are C strings that fit `namebuf`, no path is a part of another, and the files and
the directories are not too long -/
structure Copyable (files : List (Path × List UInt8)) : Prop where
  names : ∀ f ∈ files, ∀ n ∈ f.1, 0 ∉ n ∧ n.length < 1024
  paths : ∀ f ∈ files, f.1 ≠ []
  apart : files.Pairwise fun f g => ¬ f.1 <+: g.1 ∧ ¬ g.1 <+: f.1
  contents : ∀ f ∈ files, f.2.length ≤ 528 * 4096
  sizes : ∀ d, dirSize (PathTree.names (pathsOf files) d) ≤ 4096
  small : nextPage^[treeSize files] 0 < 2^63

section
variable {num : Path → Nat} {d : Path} {n : List UInt8} {a : FileStore} {done todo : List (Path × List UInt8)}
  {f : Path × List UInt8}

theorem pathsOf_append (l l' : List (Path × List UInt8)) : pathsOf (l ++ l') = pathsOf l ++ pathsOf l' :=
  List.map_append

theorem contentPages_append (l l' : List (Path × List UInt8)) :
    contentPages (l ++ l') = contentPages l + contentPages l' := by
  unfold contentPages
  rw [List.map_append, List.sum_append]

theorem iterate_nextPage_mono {i j : Nat} (h : i ≤ j) : nextPage^[i] 0 ≤ nextPage^[j] 0 := by
  obtain ⟨k, rfl⟩ := Nat.exists_eq_add_of_le h
  rw [Nat.add_comm, Function.iterate_add_apply]
  exact le_iterate_nextPage k _

/-- the directory of a path, before the path is done -/
theorem Copyable.small_opened (h : Copyable (done ++ f :: todo)) (ha : TreeOn a (.opened (pathsOf done) d) done num)
    (hp : d ++ [n] <+: f.1) : a.next < 2^63 := by
  have hle := DirTree.opened_le (pathsOf done) (pathsOf todo) hp
  have hpages : treePages (.opened (pathsOf done) d) ≤ treePages (.ofPaths (pathsOf (done ++ f :: todo))) := by
    rw [pathsOf_append]
    exact DirTree.total_le (fun l l' hl => Nat.add_le_add_left (pagesFor_mono (dirSize_mono hl)) 1) hle
  have hcontent := contentPages_append done (f :: todo)
  have hsmall := h.small
  unfold treeSize at hsmall
  rw [ha.next]
  exact Nat.lt_of_le_of_lt (iterate_nextPage_mono (by omega)) hsmall

/-- the earlier paths are not a part of this one, and this one not of them -/
theorem Copyable.earlier (h : Copyable (done ++ f :: todo)) : ∀ p ∈ pathsOf done, ¬ p <+: f.1 ∧ ¬ f.1 <+: p := by
  intro p hp
  obtain ⟨g, hg, rfl⟩ := List.mem_map.mp hp
  exact (List.pairwise_append.mp h.apart).2.2 g hg f List.mem_cons_self

/-- the names in a directory are names of paths -/
theorem Copyable.name (h : Copyable (done ++ f :: todo)) (hn : n ∈ PathTree.names (pathsOf done) d) :
    0 ∉ n ∧ n.length < 1024 := by
  obtain ⟨p, hp, hpre⟩ := mem_names.mp hn
  obtain ⟨g, hg, rfl⟩ := List.mem_map.mp hp
  exact h.names g (List.mem_append_left _ hg) n (hpre.subset (by simp))

/-- the directory with one more name -/
theorem Copyable.room (h : Copyable (done ++ f :: todo)) (hp : d ++ [n] <+: f.1)
    (hn : n ∉ PathTree.names (pathsOf done) d) :
    dirSize (PathTree.names (pathsOf done) d) + (Mfs.dirEntry + n.length) ≤ 4096 := by
  have hpre := names_append (pathsOf done ++ [f.1]) (pathsOf todo) d
  have hnames : PathTree.names (pathsOf done ++ [f.1]) d = PathTree.names (pathsOf done) d ++ [n] := by
    rw [names_concat, nextAfter_eq_some.mpr hp, Option.elim_some, if_neg hn]
  have hpaths : pathsOf done ++ [f.1] ++ pathsOf todo = pathsOf (done ++ f :: todo) := by
    rw [pathsOf_append, List.append_assoc]
    rfl
  rw [hnames, hpaths] at hpre
  have hsize := h.sizes d
  have hle := dirSize_mono hpre
  rw [dirSize_append, dirSize_singleton] at hle
  omega

/-- what is not a name in the directory is not there -/
theorem not_node (hn : n ∉ PathTree.names (pathsOf done) d) :
    ¬ Node (.opened (pathsOf done) d) done (d ++ [n]) := by
  intro h
  rcases h with h | ⟨g, hg, e⟩
  · exact DirTree.not_mem_opened hn h
  · exact hn (mem_names.mpr ⟨g.1, List.mem_map_of_mem hg, e ▸ List.prefix_refl _⟩)

/-- **Something new on the path.** -/
theorem TreeOn.planted {c : List UInt8} (h : Copyable (done ++ f :: todo))
    (ha : TreeOn a (.opened (pathsOf done) d) done num) (hp : d ++ [n] <+: f.1)
    (hn : n ∉ PathTree.names (pathsOf done) d) (hc : c.length ≤ 528 * 4096) :
    ∃ s t b₁ b, a.create.2.append (nextPage a.next) .empty c = .ok (t, b₁) ∧
      b₁.link (num d) n (nextPage a.next) = .ok ((), b) ∧ a.file (num d) = some s ∧
      Planted a b (num d) s n c := by
  have hd : d ∈ (DirTree.opened (pathsOf done) d).dirs := Finset.mem_insert_self ..
  obtain ⟨s, hs, hsc⟩ := ha.dir d hd
  have hsize : s.content.length = dirSize (PathTree.names (pathsOf done) d) := by
    rw [hsc, length_entriesOf, DirTree.opened_names_self]
  have hroom := h.room hp hn
  obtain ⟨t, b₁, b, e₁, e₂, hb⟩ := exists_planted ha.even hs (ha.used d (Or.inl hd)).2 hc
    (by omega : s.content.length + (Mfs.dirEntry + n.length) ≤ 528 * 4096)
  exact ⟨s, t, b₁, b, e₁, e₂, hs, hb⟩

/-- **A directory on a path**, found or created. -/
theorem TreeOn.enterDir (h : Copyable (done ++ f :: todo)) (ha : TreeOn a (.opened (pathsOf done) d) done num)
    (hp : d ++ [n] <+: f.1) (hexact : ExactIn (pathsOf done) d n) : ∃ b num',
      a.enterDir (num d) n = .ok (num' (d ++ [n]), b) ∧ TreeOn b (.opened (pathsOf done) (d ++ [n])) done num' := by
  have hd : d ∈ (DirTree.opened (pathsOf done) d).dirs := Finset.mem_insert_self ..
  have hself := DirTree.opened_names_self (pathsOf done) d
  have hfind : a.find (num d) n = .ok (if n ∈ PathTree.names (pathsOf done) d then num (d ++ [n]) else 0, a) := by
    rw [← hself]
    refine ha.find hd (fun m hm => h.name (hself ▸ hm)) (h.small_opened ha hp) fun m hm => ?_
    rw [hself, PathTree.names, find_eraseDups] at hm
    exact hexact m hm
  unfold FileStore.enterDir
  rw [hfind, ok_bind]
  dsimp only
  by_cases hn : n ∈ PathTree.names (pathsOf done) d
  · have hdir := mem_directories_of_names hn hp fun q hq => (h.earlier q hq).1
    have hopen := DirTree.opened_enter hn hdir
    have hused := ha.used (d ++ [n]) (Or.inl (by
      rw [← hopen]
      exact Finset.mem_insert_self ..))
    rw [if_pos hn, if_neg (Nat.pos_iff_ne_zero.mp hused.1), hopen]
    exact ⟨a, num, rfl, ha⟩
  · obtain ⟨s, t, b₁, b, e₁, e₂, hs, hb⟩ := ha.planted h hp hn (c := []) (by decide)
    have hnode := not_node hn
    have hnil : (DirTree.opened (pathsOf done) d).names (d ++ [n]) = [] :=
      DirTree.opened_names_nil fun hq => hnode (Or.inl hq)
    have hnew := ha.plant hd hs hb hnode (ha.mkdir hnode hnil)
    rw [← DirTree.opened_concat hn] at hnew
    rw [FileStore.append, dif_pos rfl] at e₁
    cases e₁
    rw [if_neg hn, if_pos rfl]
    refine ⟨b, _, ?_, hnew⟩
    rw [FileStore.createFile, ok_bind]
    have hlink : a.create.2.link (num d) n a.create.1 = .ok ((), b) := e₂
    rw [hlink, ok_bind, Function.update_self]
    rfl

/-- **The directories on a path.** -/
theorem TreeOn.enterAll (h : Copyable (done ++ f :: todo)) {rest : Path}
    (ha : TreeOn a (.opened (pathsOf done) d) done num) (hp : d ++ rest <+: f.1)
    (hexact : ∀ e n, e ++ [n] <+: d ++ rest → ExactIn (pathsOf done) e n) :
    ∃ b num', FuseeOS.enterAll FileStore.enterDir a (num d) rest = .ok (num' (d ++ rest), b) ∧
      TreeOn b (.opened (pathsOf done) (d ++ rest)) done num' := by
  induction rest generalizing a d num with
  | nil =>
    rw [List.append_nil]
    exact ⟨a, num, rfl, ha⟩
  | cons n rest ih =>
    have hassoc : d ++ [n] ++ rest = d ++ n :: rest := by simp
    have hpre : d ++ [n] <+: d ++ n :: rest := ⟨rest, hassoc⟩
    obtain ⟨b, num', e, hb⟩ := ha.enterDir h (hpre.trans hp) (hexact d n hpre)
    rw [← hassoc] at hp hexact ⊢
    rw [FuseeOS.enterAll, e, ok_bind]
    exact ih hb hp hexact

theorem length_relative_le (path : List UInt8) : (relative path).length ≤ path.length := by
  unfold relative
  split_ifs
  · rw [List.length_tail]
    omega
  · exact Nat.le_refl _

/-- **A file with its path.** -/
theorem TreeOn.copyFile (h : Copyable (done ++ f :: todo)) (ha : TreeOn a (.ofPaths (pathsOf done)) done num)
    {path : List UInt8} (hpath : components path = f.1) (hshort : path.length < 1024)
    (hexact : ∀ d n, d ++ [n] <+: f.1 → d ++ [n] ≠ f.1 → ExactIn (pathsOf done) d n) :
    ∃ b num', a.copyFile 1 path f.2 = .ok ((), b) ∧
      TreeOn b (.ofPaths (pathsOf (done ++ [f]))) (done ++ [f]) num' := by
  have hlen := length_relative_le path
  have hmem : f ∈ done ++ f :: todo := List.mem_append_right _ List.mem_cons_self
  obtain ⟨d, n, hp⟩ := (List.eq_nil_or_concat' f.1).resolve_left (h.paths f hmem)
  have hwalk := FileStore.pathLoop_enterAll a 1 (hpath.trans hp)
  rw [← DirTree.opened_nil] at ha
  have hd : [] ++ d <+: f.1 := hp ▸ List.prefix_append d [n]
  obtain ⟨b, num₁, e, hb⟩ := ha.enterAll h hd fun e x hx => by
    refine hexact e x (hx.trans (hp ▸ List.prefix_append d [n])) fun heq => ?_
    have hle := hx.length_le
    rw [heq, hp, List.nil_append, List.length_append, List.length_singleton] at hle
    omega
  rw [ha.root, List.nil_append] at e
  rw [List.nil_append] at hb
  have hn : n ∉ PathTree.names (pathsOf done) d := fun hn => by
    obtain ⟨p, hpd, hpre⟩ := mem_names.mp hn
    exact (h.earlier p hpd).2 (hp ▸ hpre)
  obtain ⟨s, t, b₁, b₂, e₁, e₂, hs, hb₂⟩ :=
    hb.planted h (hp ▸ List.prefix_refl _) hn (h.contents f hmem)
  have hnode := not_node hn
  have hnew := hb.plant (Finset.mem_insert_self ..) hs hb₂ hnode (hb.addFile hnode f.2)
  have hf : (d ++ [n], f.2) = f := Prod.ext hp.symm rfl
  have hpaths : pathsOf (done ++ [f]) = pathsOf done ++ [d ++ [n]] := by
    rw [pathsOf_append, ← hp]
    rfl
  rw [hf, ← DirTree.ofPaths_concat hn, ← hpaths] at hnew
  refine ⟨b₂, _, ?_, hnew⟩
  rw [FileStore.copyFile, if_neg (by omega), hwalk, e, ok_bind, ok_bind]
  dsimp only
  rw [FileStore.createFile, ok_bind]
  have happ : b.create.2.append b.create.1 .empty f.2 = .ok (t, b₁) := e₁
  rw [happ, ok_bind]
  exact e₂

end

/-! ## all the files -/

/-- the files with the names in their paths -/
def byPath (files : List (List UInt8 × List UInt8)) : List (Path × List UInt8) :=
  files.map fun f => (components f.1, f.2)

/-- the root directory only -/
theorem TreeOn.initial : TreeOn .initial (.ofPaths []) [] fun _ => 1 := by
  have hdirs : ∀ d ∈ (DirTree.ofPaths ([] : List Path)).dirs, d = [] := fun d hd => by
    rcases mem_directories.mp hd with hd | ⟨p, hp, -⟩
    · exact hd
    · cases hp
  have hnode : ∀ q, Node (.ofPaths []) [] q → q = [] := fun q hq => by
    rcases hq with hq | ⟨f, hf, -⟩
    · exact hdirs q hq
    · cases hf
  constructor
  · exact FileStore.Even.create fun f t hf => by cases hf
  · rfl
  · exact nil_mem_directories []
  · rfl
  · intro d hd
    rw [hdirs d hd]
    exact ⟨.empty, FileStore.set_self .., rfl⟩
  · intro f hf
    cases hf
  · intro q _
    exact ⟨Nat.one_pos, Nat.le_refl 1⟩
  · intro q r hq hr _
    rw [hnode q hq, hnode r hr]
  · intro d hd n hn
    cases hn
  · intro f hf
    cases hf

/-- some of the files, before the others -/
theorem TreeOn.copyFiles {a : FileStore} {done rest : List (Path × List UInt8)} {num : Path → Nat}
    {files : List (List UInt8 × List UInt8)} (h : Copyable (done ++ byPath files ++ rest))
    (hshort : ∀ f ∈ files, f.1.length < 1024) (hexact : FirstExact (pathsOf (done ++ byPath files)))
    (ha : TreeOn a (.ofPaths (pathsOf done)) done num) : ∃ b num', a.copyFiles 1 files = .ok ((), b) ∧
      TreeOn b (.ofPaths (pathsOf (done ++ byPath files))) (done ++ byPath files) num' := by
  induction files generalizing a done num with
  | nil =>
    refine ⟨a, num, rfl, ?_⟩
    rw [byPath, List.map_nil, List.append_nil]
    exact ha
  | cons f files ih =>
    have hcons : byPath (f :: files) = (components f.1, f.2) :: byPath files := rfl
    have hassoc : done ++ byPath (f :: files) = done ++ [(components f.1, f.2)] ++ byPath files := by
      rw [hcons, List.append_assoc]
      rfl
    have hone : Copyable (done ++ (components f.1, f.2) :: (byPath files ++ rest)) := by
      rw [hcons, List.append_assoc] at h
      exact h
    obtain ⟨b, num₁, e, hb⟩ := ha.copyFile hone rfl (hshort f List.mem_cons_self) fun d n =>
      hexact _ _ _ d n (pathsOf_append ..)
    rw [hassoc] at h hexact ⊢
    obtain ⟨b', num', e', hb'⟩ := ih h (fun g hg => hshort g (List.mem_cons_of_mem _ hg)) hexact hb
    refine ⟨b', num', ?_, hb'⟩
    rw [FileStore.copyFiles, e, ok_bind]
    exact e'

/-- **All the files**, one after the other. -/
theorem copyFiles_tree {files : List (List UInt8 × List UInt8)} {rest : List (Path × List UInt8)}
    (h : Copyable (byPath files ++ rest)) (hshort : ∀ f ∈ files, f.1.length < 1024)
    (hexact : FirstExact (pathsOf (byPath files))) : ∃ b num,
      FileStore.initial.copyFiles 1 files = .ok ((), b) ∧
      TreeOn b (.ofPaths (pathsOf (byPath files))) (byPath files) num := by
  have hnil : Copyable ([] ++ byPath files ++ rest) := h
  exact TreeOn.initial.copyFiles hnil hshort hexact

end FuseeOS
