import FuseeOS.Tools.VolumeTree

/-!
# After a mistaken lookup

`find_file_dir` has taken another directory for the one with the name.  From then on the name is looked up in
vain, whatever else is copied: a directory of this name is never made there, and what else gets the name is a
file that the tool never opens as a directory.  The files are empty here, so that what is read as a directory is
always made of entries.

* `Listed v es`          the volume has the entries `es`;
* `Misled es d n`        the name `n` leads to no directory from `d`;
* `Misled.enterDir`      one step on a path, and `Misled.copyFiles` all of them;
* `follow`               the exact lookup of a path.
-/

namespace FuseeOS
open Bytes PathTree

/-- the entries of files, as far as they are known -/
abbrev Listing : Type := Nat → Option (List (List UInt8 × Nat))

/-- the volume has the entries, whose inodes are those of files with entries -/
structure Listed (v : MfsVolume) (es : Listing) : Prop where
  stores : ∃ c a, Stores v c a ∧ ∀ f l, es f = some l → c f = some (dirBytes l)
  root : v.root = 1
  names : ∀ f l, es f = some l → ∀ e ∈ l, 0 ∉ e.1 ∧ e.1.length < 1024
  inodes : ∀ f l, es f = some l → ∀ e ∈ l, (es e.2).isSome

/-- entries are only added, behind the others -/
def Extends (es es' : Listing) : Prop := ∀ f l, es f = some l → ∃ r, es' f = some (l ++ r)

/-- the file has no entries, and its own entry is the one with the name `n` in `d` -/
def Dead (es : Listing) (d : Nat) (n : List UInt8) (p : Nat) : Prop :=
  es p = some [] ∧ ∀ g l x, es g = some l → (x, p) ∈ l → g = d ∧ x = n

/-- no entry of this name in `d` is for the file -/
def Live (es : Listing) (d : Nat) (n : List UInt8) (i : Nat) : Prop :=
  (es i).isSome ∧ ∀ l, es d = some l → (n, i) ∉ l

/-- a lookup of `n` in `d` finds another name, and what has the name is dead -/
structure Misled (es : Listing) (d : Nat) (n : List UInt8) : Prop where
  other : ∃ l e, es d = some l ∧ firstPrefix l n = some e ∧ e.1 ≠ n
  dead : ∀ l p, es d = some l → (n, p) ∈ l → Dead es d n p
  root : Live es d n 1

/-- the entries after a file was created at `p`, and linked in `g` -/
def Listing.link (es : Listing) (g : Nat) (l : List (List UInt8 × Nat)) (name : List UInt8) (p : Nat) : Listing :=
  Function.update (Function.update es p (some [])) g (some (l ++ [(name, p)]))

theorem Extends.refl (es : Listing) : Extends es es := fun f l hl => ⟨[], by rw [hl, List.append_nil]⟩

theorem Extends.trans {es es' es'' : Listing} (h : Extends es es') (h' : Extends es' es'') : Extends es es'' := by
  intro f l hl
  obtain ⟨r, hr⟩ := h f l hl
  obtain ⟨r', hr'⟩ := h' f _ hr
  exact ⟨r ++ r', by rw [hr', List.append_assoc]⟩

/-! ## calls of the tool -/

section
variable {v v' : MfsVolume} {es : Listing} {d g p : Nat} {l : List (List UInt8 × Nat)} {name : List UInt8}

theorem firstPrefix_append (l r : List (List UInt8 × Nat)) (name : List UInt8) :
    firstPrefix (l ++ r) name = (firstPrefix l name).or (firstPrefix r name) := List.find?_append

/-- a name that begins with `n` finds what `n` finds, or something before it -/
theorem firstPrefix_longer {n : List UInt8} {e e' : List UInt8 × Nat} (h : firstPrefix l n = some e)
    (hn : n <+: name) (h' : firstPrefix l name = some e') (he' : e'.1 = n) : e.1 = n := by
  induction l with
  | nil => cases h
  | cons x l ih =>
    unfold firstPrefix at h h'
    rw [List.find?_cons] at h h'
    by_cases hx : x.1.isPrefixOf n = true
    · have hx' : x.1.isPrefixOf name = true :=
        List.isPrefixOf_iff_prefix.mpr ((List.isPrefixOf_iff_prefix.mp hx).trans hn)
      rw [hx] at h
      rw [hx'] at h'
      cases h
      cases h'
      exact he'
    · have hxn : x.1 ≠ n := fun e => hx (e ▸ List.isPrefixOf_iff_prefix.mpr (List.prefix_refl _))
      rw [Bool.not_eq_true] at hx
      rw [hx] at h
      cases hx' : x.1.isPrefixOf name with
      | true =>
        rw [hx'] at h'
        cases h'
        exact absurd he' hxn
      | false =>
        rw [hx'] at h'
        exact ih h h'

/-- the file of the store -/
theorem Listed.file (h : Listed v es) (hd : es d = some l) :
    ∃ a s, Refines v a ∧ a.file d = some s ∧ s.content = dirBytes l ∧ d ≠ 0 ∧ d < 2^63 := by
  obtain ⟨c, a, hst, hc⟩ := h.stores
  obtain ⟨s, hs, hsc⟩ := hst.file (hc d l hd)
  have hret := hst.refines.owned d _ (hst.refines.shape d s hs).ownsInode
  have hle := hret.le
  have hroom := hst.refines.room
  have hsmall := hst.refines.small
  exact ⟨a, s, hst.refines, hs, hsc, Nat.pos_iff_ne_zero.mp hret.pos, by omega⟩

theorem Listed.find (h : Listed v es) (hd : es d = some l) (name : List UInt8) :
    findFileDir v d name = .ok (((firstPrefix l name).map Prod.snd).getD 0, v) := by
  obtain ⟨c, a, hst, hc⟩ := h.stores
  refine hst.find (hc d l hd) ⟨h.names d l hd, fun e he => ?_⟩ name
  obtain ⟨k, hk⟩ := Option.isSome_iff_exists.mp (h.inodes d l hd e he)
  obtain ⟨-, -, -, -, -, -, hlt⟩ := h.file hk
  omega

/-- what holds of the new list, and of the others -/
theorem forall_update {P : Nat → List (List UInt8 × Nat) → Prop} (hnew : P p l)
    (hold : ∀ f k, f ≠ p → es f = some k → P f k) :
    ∀ f k, Function.update es p (some l) f = some k → P f k := by
  intro f k hf
  by_cases hfp : f = p
  · rw [hfp, Function.update_self] at hf
    cases hf
    rw [hfp]
    exact hnew
  · rw [Function.update_of_ne hfp] at hf
    exact hold f k hfp hf

theorem isSome_update {q : Nat} (h : (es q).isSome) : (Function.update es p (some l) q).isSome := by
  by_cases hqp : q = p
  · rw [hqp, Function.update_self]
    rfl
  · rw [Function.update_of_ne hqp]
    exact h

theorem Listed.create {mode : Nat} (h : Listed v es) (e : createFileRaw v mode = .ok (p, v')) :
    es p = none ∧ Kept v v' ∧ Listed v' (Function.update es p (some [])) := by
  obtain ⟨c, a, hst, hc⟩ := h.stores
  obtain ⟨q, b, -, -, hk, -⟩ := (createFileRaw_simulates hst.refines mode).of_ok nofun e
  obtain ⟨rfl, hst'⟩ := hst.create e
  have hnone : es (nextPage a.next) = none := by
    cases hp : es (nextPage a.next) with
    | none => rfl
    | some l =>
      obtain ⟨s, hs, -⟩ := hst.file (hc _ l hp)
      have hle := (hst.refines.owned _ _ (hst.refines.shape _ s hs).ownsInode).le
      exact absurd hle (Nat.not_le.mpr (nextPage_spec a.next).1)
  refine ⟨hnone, hk, ⟨_, _, hst', forall_update (Function.update_self ..) fun f k hf hk => ?_⟩, hk.root.trans h.root,
    forall_update nofun fun f k _ => h.names f k, forall_update nofun fun f k _ hk x hx => ?_⟩
  · rw [Function.update_of_ne hf]
    exact hc f k hk
  · exact isSome_update (h.inodes f k hk x hx)

theorem Listed.append (h : Listed v es) (hd : es d = some l) (hp : (es p).isSome)
    (hname : 0 ∉ name ∧ name.length < 1024) (e : appendDir v d name p = .ok ((), v')) :
    Kept v v' ∧ Listed v' (Function.update es d (some (l ++ [(name, p)]))) := by
  obtain ⟨c, a, hst, hc⟩ := h.stores
  obtain ⟨s, hs, hsc⟩ := hst.file (hc d l hd)
  obtain ⟨t, b, -, -, hk, -⟩ :=
    (appendDir_simulates hst.refines hs name p).of_ok (append_ne_stray _ _ _ _) e
  obtain ⟨t', b', -, hst'⟩ := hst.link hs e
  have hbytes : dirBytes (l ++ [(name, p)]) = s.content ++ entryBytes name p := by
    rw [dirBytes_append, hsc]
    congr 1
    exact List.flatMap_singleton ..
  refine ⟨hk, ⟨_, _, hst', forall_update ?_ fun f k hf hk => ?_⟩, hk.root.trans h.root,
    forall_update (fun x hx => ?_) fun f k _ => h.names f k,
    forall_update (fun x hx => isSome_update ?_) fun f k _ hk x hx => isSome_update (h.inodes f k hk x hx)⟩
  · rw [Function.update_self, hbytes]
  · rw [Function.update_of_ne hf]
    exact hc f k hk
  · rcases List.mem_append.mp hx with hx | hx
    · exact h.names d l hd x hx
    · rw [List.mem_singleton.mp hx]
      exact hname
  · rcases List.mem_append.mp hx with hx | hx
    · exact h.inodes d l hd x hx
    · rw [List.mem_singleton.mp hx]
      exact hp

/-- **A new file and its entry.** -/
theorem Listed.link {mode : Nat} {u : MfsVolume} (h : Listed v es) (hg : es g = some l)
    (hname : 0 ∉ name ∧ name.length < 1024) (e : createFileRaw v mode = .ok (p, u))
    (e' : appendDir u g name p = .ok ((), v')) :
    es p = none ∧ Kept v v' ∧ Listed v' (es.link g l name p) := by
  obtain ⟨hnone, hk, hu⟩ := h.create e
  have hne : g ≠ p := fun heq => by rw [heq, hnone] at hg; cases hg
  have hp : (Function.update es p (some []) p).isSome := by
    rw [Function.update_self]
    rfl
  obtain ⟨hk', hv⟩ := hu.append ((Function.update_of_ne hne _ _).trans hg) hp hname e'
  exact ⟨hnone, hk.trans hk', hv⟩

end

/-! ## what is kept -/

section
variable {v v' : MfsVolume} {es : Listing} {d g i j p : Nat} {l : List (List UInt8 × Nat)} {n name : List UInt8}

theorem link_self : es.link g l name p g = some (l ++ [(name, p)]) := Function.update_self ..

theorem link_new (hne : p ≠ g) : es.link g l name p p = some [] := by
  rw [Listing.link, Function.update_of_ne hne, Function.update_self]

theorem link_other {f : Nat} (hg : f ≠ g) (hp : f ≠ p) : es.link g l name p f = es f := by
  rw [Listing.link, Function.update_of_ne hg, Function.update_of_ne hp]

/-- an entry is an old one, or the new one -/
theorem entry_of_link (hg : es g = some l) {f : Nat} {k : List (List UInt8 × Nat)} {x : List UInt8 × Nat}
    (hf : es.link g l name p f = some k) (hx : x ∈ k) :
    (∃ k', es f = some k' ∧ x ∈ k') ∨ f = g ∧ x = (name, p) := by
  by_cases hfg : f = g
  · rw [hfg, link_self] at hf
    cases hf
    rcases List.mem_append.mp hx with hx | hx
    · exact Or.inl ⟨l, hfg ▸ hg, hx⟩
    · exact Or.inr ⟨hfg, List.mem_singleton.mp hx⟩
  · by_cases hfp : f = p
    · rw [hfp, link_new (fun e => hfg (hfp.trans e))] at hf
      cases hf
      cases hx
    · rw [link_other hfg hfp] at hf
      exact Or.inl ⟨k, hf, hx⟩

theorem extends_link (hg : es g = some l) (hp : es p = none) (name : List UInt8) : Extends es (es.link g l name p) := by
  intro f k hf
  have hfp : f ≠ p := fun e => by rw [e, hp] at hf; cases hf
  by_cases hfg : f = g
  · rw [hfg] at hf
    cases hg.symm.trans hf
    exact ⟨[(name, p)], hfg ▸ link_self⟩
  · exact ⟨[], by rw [link_other hfg hfp, hf, List.append_nil]⟩

/-- the entries in the directory that is looked up in -/
theorem Extends.first {es' : Listing} {e : List UInt8 × Nat} (h : Extends es es') (hd : es d = some l)
    (hfirst : firstPrefix l n = some e) : ∃ l', es' d = some l' ∧ firstPrefix l' n = some e := by
  obtain ⟨r, hr⟩ := h d l hd
  refine ⟨_, hr, ?_⟩
  rw [firstPrefix_append, hfirst]
  rfl

theorem Live.link (h : Live es d n i) (hg : es g = some l) (hp : es p = none) :
    Live (es.link g l name p) d n i := by
  obtain ⟨k, hk⟩ := Option.isSome_iff_exists.mp h.1
  obtain ⟨r, hr⟩ := extends_link hg hp name i k hk
  refine ⟨Option.isSome_iff_exists.mpr ⟨_, hr⟩, fun l' hl' hmem => ?_⟩
  rcases entry_of_link hg hl' hmem with ⟨k', hk', hx⟩ | ⟨-, hx⟩
  · exact h.2 k' hk' hx
  · cases hx
    rw [hp] at hk
    cases hk

/-- **A new entry in a directory that the tool has opened.** -/
theorem Misled.link (h : Misled es d n) (hl : Listed v es) (hg : es g = some l) (hlive : Live es d n g)
    (hp : es p = none) : Misled (es.link g l name p) d n := by
  -- no entry is for a file that was not there
  have hfresh : ∀ f k x, es f = some k → (x, p) ∉ k := fun f k x hf hx => by
    have hsome := hl.inodes f k hf _ hx
    rw [hp] at hsome
    cases hsome
  have hgp : g ≠ p := fun e => by rw [e, hp] at hg; cases hg
  obtain ⟨ld, e, hd, hfirst, hne⟩ := h.other
  constructor
  · obtain ⟨l', hl', hf'⟩ := (extends_link hg hp name).first hd hfirst
    exact ⟨l', e, hl', hf', hne⟩
  · intro l' q hl' hq
    rcases entry_of_link hg hl' hq with ⟨k, hk, hx⟩ | ⟨hdg, hx⟩
    · obtain ⟨hempty, hentries⟩ := h.dead k q hk hx
      have hqp : q ≠ p := fun e => hfresh d k n hk (e ▸ hx)
      have hqg : q ≠ g := fun e => hlive.2 k hk (e ▸ hx)
      refine ⟨(link_other hqg hqp).trans hempty, fun f k' x hf hxf => ?_⟩
      rcases entry_of_link hg hf hxf with ⟨k'', hk'', hx''⟩ | ⟨-, hx''⟩
      · exact hentries f k'' x hk'' hx''
      · cases hx''
        exact absurd rfl hqp
    · cases hx
      refine ⟨link_new hgp.symm, fun f k' x hf hxf => ?_⟩
      rcases entry_of_link hg hf hxf with ⟨k'', hk'', hx''⟩ | ⟨hfg, hx''⟩
      · exact absurd hx'' (hfresh f k'' x hk'')
      · cases hx''
        exact ⟨hfg.trans hdg.symm, rfl⟩
  · exact h.root.link hg hp

/-- what the tool does from one state to another -/
structure Steps (v v' : MfsVolume) (es es' : Listing) (d : Nat) (n : List UInt8) : Prop where
  kept : Kept v v'
  listed : Listed v' es'
  misled : Misled es' d n
  more : Extends es es'

theorem Steps.trans {v'' : MfsVolume} {es' es'' : Listing} (h : Steps v v' es es' d n)
    (h' : Steps v' v'' es' es'' d n) : Steps v v'' es es'' d n :=
  ⟨h.kept.trans h'.kept, h'.listed, h'.misled, h.more.trans h'.more⟩

theorem Misled.steps_refl (h : Misled es d n) (hl : Listed v es) : Steps v v es es d n :=
  ⟨.refl v, hl, h, .refl es⟩

/-- **One step on a path** leads to no file that is dead. -/
theorem Misled.enterDir (h : Misled es d n) (hl : Listed v es) (hi : Live es d n i)
    (hname : 0 ∉ name ∧ name.length < 1024) (e : enterDir v i name = .ok (j, v')) :
    ∃ es', Steps v v' es es' d n ∧ Live es' d n j := by
  obtain ⟨l, hl'⟩ := Option.isSome_iff_exists.mp hi.1
  rw [FuseeOS.enterDir, hl.find hl' name, ok_bind] at e
  dsimp only at e
  obtain ⟨ld, x, hd, hfirst, hne⟩ := h.other
  cases hfind : firstPrefix l name with
  | some y =>
    have hmem : y ∈ l := List.mem_of_find?_eq_some hfind
    obtain ⟨k, hk⟩ := Option.isSome_iff_exists.mp (hl.inodes i l hl' y hmem)
    obtain ⟨-, -, -, -, -, hpos, -⟩ := hl.file hk
    rw [hfind] at e
    have hy : ((some y).map Prod.snd).getD 0 = y.2 := rfl
    rw [hy, if_neg hpos] at e
    cases e
    refine ⟨es, h.steps_refl hl, hl.inodes i l hl' y hmem, fun k' hk' hdead => ?_⟩
    -- the entry that was found would be that of `n` in `d`
    obtain ⟨rfl, hyn⟩ := (h.dead k' y.2 hk' hdead).2 i l y.1 hl' hmem
    cases hl'.symm.trans hd
    have hfind' : l.find? (fun e => e.1.isPrefixOf name) = some y := hfind
    have hpre := List.find?_some hfind'
    exact hne (firstPrefix_longer hfirst (hyn ▸ List.isPrefixOf_iff_prefix.mp hpre) hfind hyn)
  | none =>
    rw [hfind] at e
    have hnone : ((none : Option (List UInt8 × Nat)).map Prod.snd).getD 0 = 0 := rfl
    rw [hnone, if_pos rfl] at e
    obtain ⟨⟨p, u⟩, hcreate, e⟩ := bind_eq_ok e
    obtain ⟨⟨x', u'⟩, hlink, e⟩ := bind_eq_ok e
    cases e
    obtain ⟨hp, hk₁, hl₁⟩ := hl.link hl' hname hcreate hlink
    refine ⟨es.link i l name p, ⟨hk₁, hl₁, h.link hl hl' hi hp, extends_link hl' hp name⟩, ?_, fun k hk hx => ?_⟩
    · rw [link_new fun e => by rw [e, hl'] at hp; cases hp]
      rfl
    · rcases entry_of_link hl' hk hx with ⟨k', hk', hx'⟩ | ⟨rfl, hx'⟩
      · have hsome := hl.inodes d k' hk' _ hx'
        rw [hp] at hsome
        cases hsome
      · cases hx'
        cases hl'.symm.trans hd
        rw [hfind] at hfirst
        cases hfirst

/-- **The directories on a path.** -/
theorem Misled.enterAll (h : Misled es d n) (hl : Listed v es) (hi : Live es d n i) {path : Path}
    (hpath : ∀ m ∈ path, 0 ∉ m ∧ m.length < 1024) (e : FuseeOS.enterAll FuseeOS.enterDir v i path = .ok (j, v')) :
    ∃ es', Steps v v' es es' d n ∧ Live es' d n j := by
  induction path generalizing v es i with
  | nil =>
    cases e
    exact ⟨es, h.steps_refl hl, hi⟩
  | cons m path ih =>
    obtain ⟨⟨k, u⟩, e₁, e₂⟩ := bind_eq_ok e
    obtain ⟨es₁, hs, hk⟩ := h.enterDir hl hi (hpath m List.mem_cons_self) e₁
    obtain ⟨es₂, hs', hj⟩ := ih hs.misled hs.listed hk (fun x hx => hpath x (List.mem_cons_of_mem _ hx)) e₂
    exact ⟨es₂, hs.trans hs', hj⟩

/-- what `copy_file` does in a directory, when the file is empty -/
def emptyFile (v : MfsVolume) (dirInode : Nat) (name : List UInt8) : Outcome Unit :=
  (createFile v).bind fun (fileInode, v) =>
    (inodeOpen v fileInode).bind fun _ => appendDir v dirInode name fileInode

theorem copyFile_empty (v : MfsVolume) {path : List UInt8} {dirs : Path} (hpath : components path = dirs ++ [name])
    (hshort : path.length < 1024) : copyFile v path [] =
      (FuseeOS.enterAll FuseeOS.enterDir v v.root dirs).bind fun (d, v) => emptyFile v d name := by
  have hlen := length_relative_le path
  rw [copyFile, if_neg (by omega), pathLoop_enterAll v v.root hpath, bind_assoc]
  have hnil : ∀ u f, copyLoop u f [] = .ok (f, u) := fun u f => by rw [copyLoop, dif_pos rfl]
  simp only [hnil, ok_bind]
  rfl

/-- **A file, in a directory that the tool has opened.** -/
theorem Misled.emptyFile (h : Misled es d n) (hl : Listed v es) (hi : Live es d n i)
    (hname : 0 ∉ name ∧ name.length < 1024) (e : emptyFile v i name = .ok ((), v')) :
    ∃ es', Steps v v' es es' d n := by
  obtain ⟨l, hl'⟩ := Option.isSome_iff_exists.mp hi.1
  obtain ⟨⟨p, u⟩, hcreate, e⟩ := bind_eq_ok e
  obtain ⟨f, -, hlink⟩ := bind_eq_ok e
  obtain ⟨hp, hk₁, hl₁⟩ := hl.link hl' hname hcreate hlink
  exact ⟨es.link i l name p, hk₁, hl₁, h.link hl hl' hi hp, extends_link hl' hp name⟩

/-- **The rest of a path.** -/
theorem Misled.copy (h : Misled es d n) (hl : Listed v es) (hi : Live es d n i) {dirs : Path}
    (hnames : ∀ m ∈ dirs ++ [name], 0 ∉ m ∧ m.length < 1024)
    (e : ((FuseeOS.enterAll FuseeOS.enterDir v i dirs).bind fun (d, v) => FuseeOS.emptyFile v d name) = .ok ((), v')) :
    ∃ es', Steps v v' es es' d n := by
  obtain ⟨⟨k, u⟩, e₁, e₂⟩ := bind_eq_ok e
  obtain ⟨es₁, hs, hk⟩ := h.enterAll hl hi (fun m hm => hnames m (List.mem_append_left _ hm)) e₁
  obtain ⟨es₂, hs'⟩ := hs.misled.emptyFile hs.listed hk (hnames name (by simp)) e₂
  exact ⟨es₂, hs.trans hs'⟩

/-- **All that is copied later.** -/
theorem Misled.copyFiles {files : List (List UInt8 × List UInt8)} (h : Misled es d n) (hl : Listed v es)
    (hnil : ∀ f ∈ files, f.2 = []) (hshort : ∀ f ∈ files, f.1.length < 1024)
    (hnames : ∀ f ∈ files, ∀ m ∈ components f.1, 0 ∉ m ∧ m.length < 1024)
    (e : FuseeOS.copyFiles v files = .ok ((), v')) : ∃ es', Steps v v' es es' d n := by
  induction files generalizing v es with
  | nil =>
    cases e
    exact ⟨es, h.steps_refl hl⟩
  | cons f files ih =>
    obtain ⟨⟨x, u⟩, e₁, e₂⟩ := bind_eq_ok e
    obtain ⟨dirs, name, hpath⟩ := (List.eq_nil_or_concat' (components f.1)).resolve_left (List.splitOn_ne_nil _ _)
    rw [hnil f List.mem_cons_self, copyFile_empty v hpath (hshort f List.mem_cons_self), hl.root] at e₁
    obtain ⟨es₁, hs⟩ := h.copy hl h.root (fun m hm => hnames f List.mem_cons_self m (hpath ▸ hm)) e₁
    obtain ⟨es₂, hs'⟩ := ih hs.misled hs.listed (fun g hg => hnil g (List.mem_cons_of_mem _ hg))
      (fun g hg => hshort g (List.mem_cons_of_mem _ hg)) (fun g hg => hnames g (List.mem_cons_of_mem _ hg)) e₂
    exact ⟨es₂, hs.trans hs'⟩

/-! ## exact lookups -/

/-- the file that the path leads to, by the first entry with each name -/
def follow (es : Listing) (i : Nat) : Path → Option Nat
  | [] => some i
  | n :: p => (es i).bind fun l => (l.find? fun e => e.1 = n).bind fun e => follow es e.2 p

theorem follow_append (es : Listing) (i : Nat) (p q : Path) :
    follow es i (p ++ q) = (follow es i p).bind fun j => follow es j q := by
  induction p generalizing i with
  | nil => rfl
  | cons n p ih =>
    rw [List.cons_append, follow, follow, Option.bind_assoc]
    simp only [ih, Option.bind_assoc]

theorem follow_extends {es' : Listing} (h : Extends es es') {path : Path} (hf : follow es i path = some j) :
    follow es' i path = some j := by
  induction path generalizing i with
  | nil => exact hf
  | cons m path ih =>
    rw [follow] at hf ⊢
    obtain ⟨l, hl, hf⟩ := Option.bind_eq_some_iff.mp hf
    obtain ⟨x, hx, hf⟩ := Option.bind_eq_some_iff.mp hf
    obtain ⟨r, hr⟩ := h i l hl
    rw [hr, Option.bind_some, List.find?_append, hx]
    exact ih hf

/-- **The name leads nowhere.** -/
theorem Misled.follow_none (h : Misled es d n) {rest : Path} (hrest : rest ≠ []) : follow es d (n :: rest) = none := by
  cases hf : follow es d (n :: rest) with
  | none => rfl
  | some j =>
    rw [follow] at hf
    obtain ⟨l, hl, hf⟩ := Option.bind_eq_some_iff.mp hf
    obtain ⟨x, hx, hf⟩ := Option.bind_eq_some_iff.mp hf
    have hname := List.find?_some hx
    rw [decide_eq_true_eq] at hname
    obtain ⟨hempty, -⟩ := h.dead l x.2 hl (hname ▸ List.mem_of_find?_eq_some hx)
    cases rest with
    | nil => exact absurd rfl hrest
    | cons m rest =>
      rw [follow, hempty] at hf
      cases hf

end

end FuseeOS
