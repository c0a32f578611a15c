import FuseeOS.Tools.VolumeMisled

/-!
# The first mistaken lookup

Up to the first directory that is looked up after a name that is an initial part of its own, the volume holds the
tree of the paths.  There the name is not in the directory, and something else is found in its place: the
file behind it ends up elsewhere, and nothing that is copied later makes up for it.

* `exists_firstMistake`      the first lookup that is not exact;
* `TreeOn.listed`            the entries of a tree of empty files;
* `TreeOn.misled`            what they are at the first mistake;
* **`copyFiles_misled`**     in the end, one of the paths leads nowhere.
-/

namespace FuseeOS
open Bytes PathTree

/-! ## paths -/

/-- after the paths `done`, the lookup of `n` in `d` is the first one on the path `p` that is not exact -/
structure FirstMistake (done : List Path) (p d : Path) (n : List UInt8) : Prop where
  onPath : d ++ [n] <+: p
  further : d ++ [n] ≠ p
  inexact : ¬ ExactIn done d n
  before : FirstExact done
  above : ∀ e x, e ++ [x] <+: d → ExactIn done e x

section
variable {ps done : List Path} {p d : Path} {n : List UInt8}

/-- one more path -/
theorem exists_firstMistake_concat (hdone : FirstExact done) (h : ¬ FirstExact (done ++ [p])) :
    ∃ d n, FirstMistake done p d n := by
  have hex : ∃ k d n, d.length = k ∧ d ++ [n] <+: p ∧ d ++ [n] ≠ p ∧ ¬ ExactIn done d n := by
    by_contra hnone
    push Not at hnone
    refine h fun done' q todo d n hsplit hpre hne => ?_
    rcases List.eq_nil_or_concat' todo with rfl | ⟨todo, x, rfl⟩
    · obtain ⟨rfl, hq⟩ := List.append_inj' hsplit rfl
      cases hq
      exact hnone _ d n rfl hpre hne
    · have hassoc : done ++ [p] = done' ++ q :: todo ++ [x] := by
        rw [hsplit, List.append_assoc]
        rfl
      obtain ⟨rfl, -⟩ := List.append_inj' hassoc rfl
      exact hdone done' q todo d n rfl hpre hne
  classical
  obtain ⟨d, n, hlen, hpre, hne, hinexact⟩ := Nat.find_spec hex
  refine ⟨d, n, hpre, hne, hinexact, hdone, fun e x hx => ?_⟩
  -- of the lookups on the path it is the first
  by_contra hbad
  have hle := hx.length_le
  have hle' := hpre.length_le
  rw [List.length_append, List.length_singleton] at hle hle'
  refine Nat.find_min hex (m := e.length) (by omega) ⟨e, x, rfl, ?_, fun heq => ?_, hbad⟩
  · exact hx.trans ((List.prefix_append d [n]).trans hpre)
  · rw [← heq, List.length_append, List.length_singleton] at hle'
    omega

/-- **The first mistake**, by induction on the paths. -/
theorem exists_firstMistake (h : ¬ FirstExact ps) :
    ∃ done p todo d n, ps = done ++ p :: todo ∧ FirstMistake done p d n := by
  induction ps using List.reverseRecOn with
  | nil => exact absurd (fun done p todo d n hsplit => absurd hsplit (by simp)) h
  | append_singleton ps p ih =>
    by_cases hps : FirstExact ps
    · obtain ⟨d, n, hm⟩ := exists_firstMistake_concat hps h
      exact ⟨ps, p, [], d, n, rfl, hm⟩
    · obtain ⟨done, q, todo, d, n, rfl, hm⟩ := ih hps
      exact ⟨done, q, todo ++ [p], d, n, by simp, hm⟩

/-- **The name is not there**: it would have been looked up before. -/
theorem FirstMistake.not_mem_names (h : FirstMistake done p d n) (hapart : ∀ q ∈ done, ¬ q <+: p) :
    n ∉ names done d := by
  intro hn
  obtain ⟨q, hq, hpre⟩ := mem_names.mp hn
  have hne : d ++ [n] ≠ q := fun heq => hapart q hq (heq ▸ h.onPath)
  obtain ⟨l, r, rfl⟩ := List.append_of_mem hq
  have hexact := h.before l q r d n rfl hpre hne
  refine h.inexact fun m hm => ?_
  rw [List.filterMap_append, List.filterMap_cons_some (nextAfter_eq_some.mpr hpre), List.find?_append] at hm
  cases hl : (l.filterMap (nextAfter d)).find? (·.isPrefixOf n) with
  | some x =>
    rw [hl] at hm
    cases hm
    exact hexact m hl
  | none =>
    have hself : n.isPrefixOf n = true := List.isPrefixOf_iff_prefix.mpr (List.prefix_refl n)
    rw [hl, Option.none_or, List.find?_cons, hself] at hm
    cases hm
    rfl

end

/-! ## the entries of a tree -/

/-- the entries are those of the tree -/
structure Lists (es : Listing) (t : DirTree (List UInt8)) (files : List (Path × List UInt8)) (num : Path → Nat) :
    Prop where
  node : ∀ q, Node t files q → es (num q) = some (entriesOf num q (t.names q))
  only : ∀ f l, es f = some l → ∃ q, Node t files q ∧ num q = f ∧ entriesOf num q (t.names q) = l

section
variable {v : MfsVolume} {a : FileStore} {t : DirTree (List UInt8)} {files : List (Path × List UInt8)} {num : Path → Nat}
  {es : Listing} {d : Path} {n : List UInt8}

theorem TreeOn.exists_lists (h : TreeOn a t files num) : ∃ es, Lists es t files num := by
  classical
  refine ⟨fun f => if hf : ∃ q, Node t files q ∧ num q = f then
    some (entriesOf num hf.choose (t.names hf.choose)) else none, fun q hq => ?_, fun f l hl => ?_⟩
  · have hex : ∃ q', Node t files q' ∧ num q' = num q := ⟨q, hq, rfl⟩
    have hq' : hex.choose = q := h.apart _ _ hex.choose_spec.1 hq hex.choose_spec.2
    rw [dif_pos hex, hq']
  · split_ifs at hl with hf
    exact ⟨hf.choose, hf.choose_spec.1, hf.choose_spec.2, Option.some.inj hl⟩

/-- **The entries of a tree**, where the files are empty. -/
theorem TreeOn.listed (h : TreeOn a t files num) (hes : Lists es t files num) {c : Contents} (hst : Stores v c a)
    (hroot : v.root = 1) (hempty : ∀ f ∈ files, f.2 = []) (hnames : ∀ q, ∀ n ∈ t.names q, 0 ∉ n ∧ n.length < 1024)
    (hplain : ∀ q, q ∉ t.dirs → t.names q = []) : Listed v es := by
  refine ⟨⟨c, a, hst, fun f l hl => ?_⟩, hroot, fun f l hl e he => ?_, fun f l hl e he => ?_⟩
  · obtain ⟨q, hq, rfl, rfl⟩ := hes.only f l hl
    rw [hst.contents]
    rcases hq with hq | ⟨g, hg, rfl⟩
    · obtain ⟨s, hs, hc⟩ := h.dir q hq
      rw [hs, ← hc]
      rfl
    · obtain ⟨s, hs, hc⟩ := h.file g hg
      rw [hs, hplain g.1 (h.plain g hg)]
      exact congrArg some (hc.trans (hempty g hg))
  · obtain ⟨q, -, -, rfl⟩ := hes.only f l hl
    obtain ⟨m, hm, rfl⟩ := List.mem_map.mp he
    exact hnames q m hm
  · obtain ⟨q, -, -, rfl⟩ := hes.only f l hl
    obtain ⟨m, hm, rfl⟩ := List.mem_map.mp he
    have hq : q ∈ t.dirs := by
      by_contra hq
      rw [hplain q hq] at hm
      cases hm
    rw [hes.node _ (h.closed q hq m hm)]
    rfl

/-- **The lookup finds something else.** -/
theorem TreeOn.misled (h : TreeOn a t files num) (hes : Lists es t files num) (hd : d ∈ t.dirs) (hn : n ∉ t.names d)
    (hother : ∃ m, (t.names d).find? (·.isPrefixOf n) = some m ∧ m ≠ n) :
    Misled es (num d) n ∧ Live es (num d) n (num d) := by
  have hlive : ∀ i l, es (num d) = some l → (n, i) ∉ l := fun i l hl hmem => by
    rw [hes.node d (Or.inl hd)] at hl
    cases hl
    obtain ⟨m, hm, e⟩ := List.mem_map.mp hmem
    cases e
    exact hn hm
  have hthere : ∀ q ∈ t.dirs, (es (num q)).isSome := fun q hq => by
    rw [hes.node q (Or.inl hq)]
    rfl
  obtain ⟨m, hm, hne⟩ := hother
  refine ⟨⟨⟨_, (m, num (d ++ [m])), hes.node d (Or.inl hd), ?_, hne⟩, fun l p hl hp => absurd hp (hlive p l hl), ?_⟩,
    hthere d hd, hlive _⟩
  · rw [firstPrefix_entriesOf, hm]
    rfl
  · rw [← h.root]
    exact ⟨hthere [] h.top, hlive _⟩

/-- **A path in the tree**, name by name. -/
theorem Lists.follow (hes : Lists es t files num) {rest : Path}
    (h : ∀ e x, e ++ [x] <+: d ++ rest → e ∈ t.dirs ∧ x ∈ t.names e) :
    FuseeOS.follow es (num d) rest = some (num (d ++ rest)) := by
  induction rest generalizing d with
  | nil => rw [List.append_nil, FuseeOS.follow]
  | cons x rest ih =>
    have hassoc : d ++ [x] ++ rest = d ++ x :: rest := by simp
    obtain ⟨hd, hx⟩ := h d x ⟨rest, hassoc⟩
    rw [← hassoc] at h ⊢
    have hfind : (entriesOf num d (t.names d)).find? (fun e => e.1 = x) = some (x, num (d ++ [x])) := by
      cases hf : (entriesOf num d (t.names d)).find? (fun e => e.1 = x) with
      | none => exact absurd (decide_eq_true rfl) (List.find?_eq_none.mp hf _ (List.mem_map_of_mem hx))
      | some e =>
        have hname := List.find?_some hf
        obtain ⟨m, -, rfl⟩ := List.mem_map.mp (List.mem_of_find?_eq_some hf)
        obtain rfl : m = x := of_decide_eq_true hname
        rfl
    rw [FuseeOS.follow, hes.node d (Or.inl hd), Option.bind_some, hfind, Option.bind_some]
    exact ih h

end

/-! ## the run -/

section
variable {v v' : MfsVolume} {a : FileStore}

theorem enterAll_grows (a : FileStore) (d : Nat) (path : Path) :
    Grows a.next (enterAll FileStore.enterDir a d path) := by
  induction path generalizing a d with
  | nil => exact Nat.le_refl a.next
  | cons n path ih => exact (enterDir_grows a d n).bind fun d b => ih b d

theorem enterAll_simulates (h : Refines v a) (d : Nat) (path : Path) :
    Simulates v (fun p q _ => p = q) (enterAll enterDir v d path) (enterAll FileStore.enterDir a d path) := by
  induction path generalizing v a d with
  | nil => exact Simulates.pure h rfl
  | cons n path ih =>
    refine (enterDir_simulates h d n).bind (fun d b => enterAll_grows b d path) fun p q v' b hr _ hpq => ?_
    subst hpq
    exact ih hr p

theorem copyFiles_append (v : MfsVolume) (files files' : List (List UInt8 × List UInt8)) :
    copyFiles v (files ++ files') = (copyFiles v files).bind fun (_, v) => copyFiles v files' := by
  induction files generalizing v with
  | nil => rfl
  | cons f files ih =>
    rw [List.cons_append, copyFiles, copyFiles, bind_assoc]
    simp only [ih]

theorem pathsOf_byPath (files : List (List UInt8 × List UInt8)) :
    pathsOf (byPath files) = files.map fun f => components f.1 := List.map_map

/-- the names in a directory are names of the paths -/
theorem Copyable.name_opened {files rest : List (Path × List UInt8)} {f : Path × List UInt8}
    (h : Copyable (files ++ f :: rest)) {d q : Path} {m : List UInt8} (hd : d <+: f.1)
    (hm : m ∈ (DirTree.opened (pathsOf files) d).names q) : 0 ∉ m ∧ m.length < 1024 := by
  obtain ⟨p, hp, hpre⟩ := mem_names.mp hm
  have hmem : m ∈ q ++ [m] := by simp
  rcases List.mem_append.mp hp with hp | hp
  · obtain ⟨g, hg, rfl⟩ := List.mem_map.mp hp
    exact h.names g (List.mem_append_left _ hg) m (hpre.subset hmem)
  · rw [List.mem_singleton.mp hp] at hpre
    exact h.names f (by simp) m ((hpre.trans hd).subset hmem)

/-- **The volume at the first mistake**: the tool is in the directory `d`, where it looks up `n` and finds something
else. -/
theorem enterAll_misled {files : List (List UInt8 × List UInt8)} {rest : List (Path × List UInt8)}
    {f : Path × List UInt8} {d : Path} {n : List UInt8} {i : Nat} {u : MfsVolume} (hr : Refines v .initial)
    (hroot : v.root = 1) (hsize : v.size % 4096 = 0 ∧ 0 < v.size ∧ v.size < 2^31)
    (h : Copyable (byPath files ++ f :: rest)) (hnil : ∀ g ∈ files, g.2 = []) (hshort : ∀ g ∈ files, g.1.length < 1024)
    (hm : FirstMistake (pathsOf (byPath files)) f.1 d n) (e : copyFiles v files = .ok ((), u))
    (e' : enterAll enterDir u u.root d = .ok (i, v')) :
    ∃ es, Kept v v' ∧ Listed v' es ∧ Misled es i n ∧ Live es i n i ∧ follow es 1 d = some i := by
  obtain ⟨b, num, hb, htree⟩ := copyFiles_tree h hshort hm.before
  have hsim := copyFiles_simulates hr hroot files
  rw [hb] at hsim
  obtain ⟨_, b', hbb, hru, hku, -⟩ := hsim.of_ok nofun e
  cases hbb
  -- the directories up to `d` are those of the path
  have hpre : d <+: f.1 := (List.prefix_append d [n]).trans hm.onPath
  rw [← DirTree.opened_nil] at htree
  obtain ⟨c, num', hc, htree'⟩ := htree.enterAll h hpre hm.above
  rw [htree.root, List.nil_append] at hc
  rw [List.nil_append] at htree'
  have hsim' := enterAll_simulates hru 1 d
  rw [hc] at hsim'
  rw [hku.root, hroot] at e'
  obtain ⟨_, c', hcc, hrv, hkv, hi⟩ := hsim'.of_ok nofun e'
  cases hcc
  subst hi
  have hst : Stores v' (fun g => (c.file g).map StoredFile.content) c :=
    ⟨hrv, fun _ => rfl, by rw [hkv.size, hku.size]; exact hsize⟩
  obtain ⟨es, hes⟩ := htree'.exists_lists
  have hd : d ∈ (DirTree.opened (pathsOf (byPath files)) d).dirs := Finset.mem_insert_self ..
  have hself := DirTree.opened_names_self (pathsOf (byPath files)) d
  have hlisted := htree'.listed hes hst (hkv.root.trans (hku.root.trans hroot)) (fun g hg => by
    obtain ⟨g', hg', rfl⟩ := List.mem_map.mp hg
    exact hnil g' hg') (fun q m => h.name_opened hpre) fun q => DirTree.opened_names_nil
  have hother : ∃ m, ((DirTree.opened (pathsOf (byPath files)) d).names d).find? (·.isPrefixOf n) = some m ∧ m ≠ n := by
    have hinexact := hm.inexact
    unfold ExactIn at hinexact
    push Not at hinexact
    rw [hself, PathTree.names, find_eraseDups]
    exact hinexact
  have hn : n ∉ (DirTree.opened (pathsOf (byPath files)) d).names d := by
    rw [hself]
    exact hm.not_mem_names fun q hq => (h.earlier q hq).1
  obtain ⟨hmisled, hlive⟩ := htree'.misled hes hd hn hother
  refine ⟨es, hku.trans hkv, hlisted, hmisled, hlive, ?_⟩
  have hmem : d ∈ pathsOf (byPath files) ++ [d] := by simp
  have hfollow : follow es (num' []) d = some (num' ([] ++ d)) := hes.follow fun e x hx =>
    ⟨Finset.mem_insert_of_mem (mem_directories.mpr (Or.inr ⟨d, hmem, x, hx⟩)), mem_names.mpr ⟨d, hmem, hx⟩⟩
  rw [htree'.root] at hfollow
  exact hfollow

/-- **A path leads nowhere** in the end. -/
theorem copyFiles_misled {files : List (List UInt8 × List UInt8)} (hr : Refines v .initial) (hroot : v.root = 1)
    (hsize : v.size % 4096 = 0 ∧ 0 < v.size ∧ v.size < 2^31) (hcopy : Copyable (byPath files))
    (hnil : ∀ f ∈ files, f.2 = []) (hshort : ∀ f ∈ files, f.1.length < 1024)
    (hnot : ¬ FirstExact (pathsOf (byPath files))) (e : copyFiles v files = .ok ((), v')) :
    ∃ es, Kept v v' ∧ Listed v' es ∧ (es 1).isSome ∧ ∃ f ∈ files, follow es 1 (components f.1) = none := by
  obtain ⟨done, p, todo, d, n, hsplit, hm⟩ := exists_firstMistake hnot
  rw [pathsOf_byPath] at hsplit
  obtain ⟨l, r, rfl, rfl, hr'⟩ := List.map_eq_append_iff.mp hsplit
  obtain ⟨f, r, rfl, rfl, rfl⟩ := List.map_eq_cons_iff.mp hr'
  have hf : f ∈ l ++ f :: r := by simp
  have hsub : ∀ g ∈ r, g ∈ l ++ f :: r := fun g hg => List.mem_append_right _ (List.mem_cons_of_mem _ hg)
  have hnames : ∀ g ∈ l ++ f :: r, ∀ m ∈ components g.1, 0 ∉ m ∧ m.length < 1024 := fun g hg =>
    hcopy.names (components g.1, g.2) (List.mem_map_of_mem hg)
  -- the path goes on behind `n`
  obtain ⟨mid, name, hpath⟩ : ∃ mid name, components f.1 = d ++ n :: mid ++ [name] := by
    obtain ⟨rest, hrest⟩ := hm.onPath
    obtain ⟨mid, name, rfl⟩ := (List.eq_nil_or_concat' rest).resolve_left fun hnil => hm.further (by
      rw [← hrest, hnil, List.append_nil])
    exact ⟨mid, name, by rw [← hrest]; simp⟩
  rw [copyFiles_append] at e
  obtain ⟨⟨_, v₁⟩, e₁, e⟩ := bind_eq_ok e
  obtain ⟨⟨_, v₂⟩, e₂, e₃⟩ := bind_eq_ok e
  rw [hnil f hf, copyFile_empty v₁ hpath (hshort f hf), enterAll_append, bind_assoc] at e₂
  obtain ⟨⟨i, u⟩, e₄, e₅⟩ := bind_eq_ok e₂
  rw [← pathsOf_byPath] at hm
  rw [byPath, List.map_append, List.map_cons] at hcopy
  obtain ⟨es, hk, hl, hmis, hlive, hfollow⟩ := enterAll_misled hr hroot hsize hcopy
    (fun g hg => hnil g (List.mem_append_left _ hg)) (fun g hg => hshort g (List.mem_append_left _ hg)) hm e₁ e₄
  obtain ⟨es₁, hs₁⟩ := hmis.copy hl hlive (fun m hm => hnames f hf m (by
    rw [hpath, List.append_assoc]
    exact List.mem_append_right d hm)) e₅
  obtain ⟨es₂, hs₂⟩ := hs₁.misled.copyFiles hs₁.listed (fun g hg => hnil g (hsub g hg))
    (fun g hg => hshort g (hsub g hg)) (fun g hg => hnames g (hsub g hg)) e₃
  refine ⟨es₂, hk.trans (hs₁.trans hs₂).kept, hs₂.listed, hs₂.misled.root.1, f, hf, ?_⟩
  rw [hpath, List.append_assoc, follow_append, follow_extends (hs₁.trans hs₂).more hfollow, Option.bind_some]
  exact hs₂.misled.follow_none (by simp)

end

end FuseeOS
