import FuseeOS.Boot.MfsLookup
import FuseeOS.Tools.VolumeMistake

/-!
# From the tool to the bootloader

`mkvolume` copies files into a volume, each under its path; the bootloader looks a path up name by name and
reads the file.  The two are written apart from each other, and agree on the format.

* `lookupPath`             `mfs_lookup_root`, and `mfs_lookup_at` for the other names;
* `TreeOn.lookup`          a name in a directory of the tree is found;
* `lookupNames_spec`       so is every path;
* `roundTrip_of_exact`     every file is found and read as it was copied, as long as the tool looks up no
                           directory after a name that is an initial part of its own (`FirstExact`);
* `lookupNames_follow`     what is found has the names of the path;
* `not_roundTrip`          so a path that leads nowhere is not found;
* **`volume_round_trip`**  the paths whose files are all found and read, whatever their contents.
-/

namespace FuseeOS
open Bytes PathTree

/-! ## the code -/

section
variable (disk : (Nat → UInt8) → Nat → Nat → Nat → (Nat → UInt8)) (gMetadata gPages : Nat)

def Lookup.inode : Lookup → Option Nat
  | .found inode => some inode
  | .outside => none
  | .running => none

/-- the memory after `mfs_lookup_at` -/
def lookedUp (mem : Nat → UInt8) (inode : Nat) : Nat → UInt8 :=
  let mem := mfsReadPage disk mem gPages inode
  mfsReadPage disk mem gPages (readLe mem (gPages + Mfs.data 0) 8)

/-- `mfs_lookup_at` of each name in what was found last -/
def lookupNames (mem : Nat → UInt8) (inode rounds : Nat) : Path → Option (Nat × (Nat → UInt8))
  | [] => some (inode, mem)
  | n :: p => (mfsLookupAt disk gPages mem inode n rounds).inode.bind fun found =>
      lookupNames (lookedUp disk gPages mem inode) found rounds p

/-- `mfs_lookup_root` of the first name, and `mfs_lookup_at` of the others -/
def lookupPath (mem : Nat → UInt8) (rounds : Nat) : Path → Option (Nat × (Nat → UInt8))
  | [] => none
  | n :: p => (mfsLookupRoot disk gMetadata gPages mem n rounds).inode.bind fun found =>
      lookupNames disk gPages (lookedUp disk gPages mem (readLe mem (gMetadata + Mfs.root) 8)) found rounds p

/-- The path is found, `mfs_file_size` gives the number of bytes, and `mfs_read` the bytes and what there is up to
the end of the last page. -/
def Delivered (mem : Nat → UInt8) (p : Path) (content : List UInt8) : Prop :=
  ∃ rounds inode mem', lookupPath disk gMetadata gPages mem rounds p = some (inode, mem') ∧
    (mfsFileSize disk gPages mem' inode).1 = content.length ∧
    ∀ dst, dst + 4096 * ((content.length + 4095) / 4096) ≤ gPages ∨ gPages + 2 * 4096 ≤ dst →
      ∃ l, l.length = 4096 * ((content.length + 4095) / 4096) ∧ l.take content.length = content ∧
        ReadTo gPages dst l (mfsFileSize disk gPages mem' inode).2
          (mfsRead disk gPages (mfsFileSize disk gPages mem' inode).2 dst inode)

end

/-- **the round trip**: the files are copied into a new volume, and every one of them is read again, from any
memory in which the metadata is as `mfs_init` has read it -/
def RoundTrip (size now : Nat) (files : List (List UInt8 × List UInt8)) : Prop :=
  ∃ v, ((makeVolume size now).bind fun (_, v) => copyFiles v files) = .ok ((), v) ∧
    ∀ disk, DiskReads disk v → ∀ gMetadata gPages mem₀ mem,
      (∀ i < 4096, mem (gMetadata + i) = mfsInit disk gMetadata mem₀ (gMetadata + i)) →
      ∀ f ∈ files, Delivered disk gMetadata gPages mem (components f.1) f.2

/-- files that the volume can hold: the paths are made of C strings, and no path is a part of another; the
pointers of a file and the first page of a directory are enough -/
structure FileTree (files : List (List UInt8 × List UInt8)) : Prop where
  names : ∀ f ∈ files, ∀ n ∈ components f.1, n ≠ [] ∧ 0 ∉ n
  short : ∀ f ∈ files, f.1.length < 1024
  apart : files.Pairwise fun f g => ¬ components f.1 <+: components g.1 ∧ ¬ components g.1 <+: components f.1
  contents : ∀ f ∈ files, f.2.length ≤ 528 * 4096
  sizes : ∀ d ∈ directories (pathsOf (byPath files)), dirSize (PathTree.names (pathsOf (byPath files)) d) ≤ 4096

/-- the volume has the pages: an inode for each file and directory, and what their bytes take -/
def HasRoom (size : Nat) (files : List (List UInt8 × List UInt8)) : Prop :=
  64 + nextPage^[treeSize (byPath files)] 0 < (size + 4095) / 4096

/-! ## names -/

theorem length_le_of_mem_splitOn {n l : List UInt8} {c : UInt8} (h : n ∈ l.splitOn c) : n.length ≤ l.length := by
  induction l generalizing n with
  | nil =>
    rw [List.splitOn_nil, List.mem_singleton] at h
    rw [h]
  | cons x l ih =>
    rw [List.splitOn_cons_eq_if_modifyHead] at h
    rw [List.length_cons]
    split_ifs at h
    · rcases List.mem_cons.mp h with rfl | h
      · exact Nat.zero_le _
      · exact Nat.le_succ_of_le (ih h)
    · cases hs : l.splitOn c with
      | nil => exact absurd hs (List.splitOn_ne_nil c l)
      | cons m r =>
        rw [hs] at h ih
        rcases List.mem_cons.mp h with rfl | h
        · exact Nat.succ_le_succ (ih List.mem_cons_self)
        · exact Nat.le_succ_of_le (ih (List.mem_cons_of_mem _ h))

theorem components_ne_nil (path : List UInt8) : components path ≠ [] := List.splitOn_ne_nil _ _

theorem length_le_of_mem_components {n path : List UInt8} (h : n ∈ components path) : n.length ≤ path.length :=
  (length_le_of_mem_splitOn h).trans (length_relative_le path)

theorem mem_byPath {files : List (List UInt8 × List UInt8)} {g : Path × List UInt8} :
    g ∈ byPath files ↔ ∃ f ∈ files, (components f.1, f.2) = g := List.mem_map

theorem FileTree.copyable {files : List (List UInt8 × List UInt8)} (h : FileTree files)
    (hsmall : nextPage^[treeSize (byPath files)] 0 < 2^63) : Copyable (byPath files) where
  names := fun g hg n hn => by
    obtain ⟨f, hf, rfl⟩ := mem_byPath.mp hg
    exact ⟨(h.names f hf n hn).2, Nat.lt_of_le_of_lt (length_le_of_mem_components hn) (h.short f hf)⟩
  paths := fun g hg => by
    obtain ⟨f, -, rfl⟩ := mem_byPath.mp hg
    exact components_ne_nil f.1
  apart := List.pairwise_map.mpr h.apart
  contents := fun g hg => by
    obtain ⟨f, hf, rfl⟩ := mem_byPath.mp hg
    exact h.contents f hf
  sizes := fun d => by
    by_cases hd : d ∈ directories (pathsOf (byPath files))
    · exact h.sizes d hd
    · rw [names_eq_nil hd]
      exact Nat.zero_le _
  small := hsmall

/-! ## looking up paths -/

section
variable {v : MfsVolume} {c : Contents} {a : FileStore} {t : DirTree (List UInt8)} {files : List (Path × List UInt8)}
  {num : Path → Nat} {d p : Path} {n : List UInt8} {gPages : Nat}
  {disk : (Nat → UInt8) → Nat → Nat → Nat → (Nat → UInt8)}

theorem entryWithin_entriesOf {l : List (List UInt8)} (hn : n ∈ l) {room : Nat} (hroom : dirSize l ≤ room) :
    entryWithin n (entriesOf num d l) room = some (num (d ++ [n])) := by
  induction l generalizing room with
  | nil => cases hn
  | cons m l ih =>
    have hcons : dirSize (m :: l) = Mfs.dirEntry + m.length + dirSize l := List.sum_cons
    have h12 : Mfs.dirEntry = 12 := rfl
    rw [entriesOf, List.map_cons, entryWithin]
    dsimp only
    by_cases hm : m = n
    · rw [if_pos hm, if_pos (by rw [← hm]; omega), hm]
    · rw [if_neg hm]
      exact ih ((List.mem_cons.mp hn).resolve_left (Ne.symm hm)) (by omega)

theorem mfsLookupAt_more {mem : Nat → UInt8} {inode found rounds : Nat}
    (h : mfsLookupAt disk gPages mem inode n rounds = .found found) (more : Nat) :
    mfsLookupAt disk gPages mem inode n (rounds + more) = .found found := by
  unfold mfsLookupAt at h ⊢
  dsimp only at h ⊢
  rw [mfsLookupLoop_more _ _ _ _ (by rw [h]; exact nofun), h]

/-- **A name in a directory of the tree is found.** -/
theorem TreeOn.lookup (h : TreeOn a t files num) (gPages : Nat) (hst : Stores v c a)
    (hdisk : DiskReads disk v) (hd : d ∈ t.dirs) (hn : n ∈ t.names d) (hsize : dirSize (t.names d) ≤ 4096) (mem : Nat → UInt8) :
    ∃ rounds, mfsLookupAt disk gPages mem (num d) n rounds = .found (num (d ++ [n])) := by
  obtain ⟨s, hs, hc⟩ := h.dir d hd
  have hcd : c (num d) = some (dirBytes (entriesOf num d (t.names d))) := by
    rw [hst.contents, hs, ← hc]
    rfl
  have hinodes : ∀ e ∈ entriesOf num d (t.names d), e.2 < 2^64 := fun e he => by
    obtain ⟨m, hm, rfl⟩ := List.mem_map.mp he
    have hle := (h.used _ (h.closed d hd m hm)).2
    have hroom := hst.refines.room
    have hsmall := hst.refines.small
    dsimp only
    omega
  have hlen : n.length < 2^32 := by
    have hle := name_length_le (@List.mem_map_of_mem _ _ _ _ (fun m => (m, num (d ++ [m]))) hn)
    have hdir : (dirBytes (entriesOf num d (t.names d))).length = dirSize (t.names d) := length_entriesOf ..
    unfold entriesOf at hdir
    dsimp only at hle
    omega
  rw [hst.lookup hcd hinodes hdisk, Nat.mod_eq_of_lt hlen, List.take_length, length_entriesOf, Nat.min_eq_left hsize]
  exact entryWithin_entriesOf hn (Nat.le_refl _)

/-- **So is every path.** -/
theorem lookupNames_spec {ps : List Path} (h : TreeOn a (.ofPaths ps) files num) (gPages : Nat)
    (hst : Stores v c a) (hdisk : DiskReads disk v)
    (hsizes : ∀ d ∈ directories ps, dirSize (PathTree.names ps d) ≤ 4096) (hp : p ∈ ps)
    {rest : Path} (hd : d ++ rest = p) (mem : Nat → UInt8) :
    ∃ rounds mem', ∀ more, lookupNames disk gPages mem (num d) (rounds + more) rest = some (num p, mem') := by
  induction rest generalizing d mem with
  | nil =>
    rw [List.append_nil] at hd
    exact ⟨0, mem, fun more => by rw [lookupNames, hd]⟩
  | cons n rest ih =>
    have hassoc : d ++ [n] ++ rest = p := by
      rw [List.append_assoc]
      exact hd
    have hpre : d ++ [n] <+: p := ⟨rest, hassoc⟩
    have hdir : d ∈ directories ps := mem_directories.mpr (Or.inr ⟨p, hp, n, hpre⟩)
    obtain ⟨r, hr⟩ := h.lookup gPages hst hdisk hdir (mem_names.mpr ⟨p, hp, hpre⟩) (hsizes d hdir) mem
    obtain ⟨r', mem', hr'⟩ := ih hassoc (lookedUp disk gPages mem (num d))
    refine ⟨r + r', mem', fun more => ?_⟩
    have hfound := mfsLookupAt_more hr (r' + more)
    have hrest := hr' (r + more)
    rw [← Nat.add_assoc] at hfound
    rw [← Nat.add_assoc, Nat.add_comm r' r] at hrest
    rw [lookupNames, hfound, Lookup.inode, Option.bind_some]
    exact hrest

theorem lookupPath_eq {gMetadata root rounds : Nat} {mem : Nat → UInt8} (hne : p ≠ [])
    (hroot : readLe mem (gMetadata + Mfs.root) 8 = root) :
    lookupPath disk gMetadata gPages mem rounds p = lookupNames disk gPages mem root rounds p := by
  cases p with
  | nil => exact absurd rfl hne
  | cons n p => rw [lookupPath, mfsLookupRoot, hroot, lookupNames]

/-- **What the lookup finds is the file.** -/
theorem delivered {ps : List Path} {gMetadata : Nat} {mem : Nat → UInt8} {f : Path × List UInt8}
    (h : TreeOn a (.ofPaths ps) files num) (hst : Stores v c a) (hdisk : DiskReads disk v)
    (hsizes : ∀ d ∈ directories ps, dirSize (PathTree.names ps d) ≤ 4096) (hf : f ∈ files) (hp : f.1 ∈ ps)
    (hne : f.1 ≠ []) (hroot : readLe mem (gMetadata + Mfs.root) 8 = num []) :
    Delivered disk gMetadata gPages mem f.1 f.2 := by
  have hpagesize : MFS_PAGE_SIZE = 4096 := rfl
  have hsmall : v.pageCount < 2^61 := by
    have hsize := hst.size
    rw [MfsVolume.pageCount, hpagesize]
    omega
  obtain ⟨rounds, mem', hlook⟩ := lookupNames_spec h gPages hst hdisk hsizes hp (List.nil_append f.1) mem
  obtain ⟨s, hs, hc⟩ := h.file f hf
  have hlen : (mfsFileSize disk gPages mem' (num f.1)).1 = s.content.length :=
    (mfsFileSize_spec hdisk hsmall hst.refines hs mem').1
  refine ⟨rounds, num f.1, mem', ?_, hc ▸ hlen, fun dst hdst => ?_⟩
  · rw [lookupPath_eq hne hroot]
    exact hlook 0
  · rw [← hc] at hdst ⊢
    exact ⟨_, length_filePages .., (hst.refines.file _ s hs).pages (by omega),
      mfsRead_spec hdisk hsmall hst.refines hs _ hdst⟩

end

/-! ## the round trip -/

section
variable {v : MfsVolume} {size now : Nat} {files : List (List UInt8 × List UInt8)}
  {disk : (Nat → UInt8) → Nat → Nat → Nat → (Nat → UInt8)}

theorem makeVolume_metadata (h : makeVolume size now = .ok ((), v)) (hroot : v.root < 2^64) :
    get64 (v.pages MFS_METADATA_PAGE) Mfs.root = v.root := by
  unfold makeVolume at h
  dsimp only at h
  split_ifs at h
  obtain ⟨x, -, h⟩ := bind_eq_ok h
  obtain ⟨root, u⟩ := x
  cases h
  show get64 (MfsVolume.pages (MfsVolume.put u .metadata MFS_METADATA_PAGE Mfs.root (le 8 root)) MFS_METADATA_PAGE)
    Mfs.root = root
  rw [MfsVolume.put_self]
  exact readLe_store _ _ hroot

/-- the root inode, where `mfs_init` has read it -/
theorem mfsInit_root (hdisk : DiskReads disk v) (hpages : 63 < v.pageCount) {gMetadata : Nat} {mem₀ mem : Nat → UInt8}
    (hmem : ∀ i < 4096, mem (gMetadata + i) = mfsInit disk gMetadata mem₀ (gMetadata + i)) :
    readLe mem (gMetadata + Mfs.root) 8 = get64 (v.pages MFS_METADATA_PAGE) Mfs.root := by
  have hsize : v.pageCount = v.size / 4096 := rfl
  have hread := hdisk mem₀ gMetadata (8 * 63) 8 (by omega)
  rw [sectorBytes_page hpages] at hread
  have hinit := readLe_fetched hread.copied (by decide : Mfs.root + 8 ≤ 4096)
  refine Eq.trans (readLe_congr fun i hi => ?_) hinit
  rw [Nat.add_assoc]
  exact hmem _ (by unfold Mfs.root; omega)

/-- the files in a new volume, as the store has them -/
theorem copied {b : FileStore} (now : Nat) (hsize : size + 4095 < 2^31)
    (hcopy : FileStore.initial.copyFiles 1 files = .ok ((), b)) (hroom : 64 + b.next < (size + 4095) / 4096) :
    ∃ v, ((makeVolume size now).bind fun (_, v) => copyFiles v files) = .ok ((), v) ∧
      Stores v (fun f => (b.file f).map StoredFile.content) b ∧ 63 < v.pageCount ∧
      get64 (v.pages MFS_METADATA_PAGE) Mfs.root = 1 := by
  have hone : 1 ≤ b.next := by
    have hgrow := copyFiles_grows .initial 1 files
    rw [hcopy] at hgrow
    exact hgrow
  have hspec := makeVolume_spec hsize now
  rw [if_pos (by omega)] at hspec
  obtain ⟨v, hmake, hr, hroot, hv, -⟩ := hspec
  have hcount : v.pageCount = (size + 4095) / 4096 := by
    rw [MfsVolume.pageCount, hv]
    exact Nat.mul_div_cancel _ (by decide)
  have hsim := copyFiles_simulates hr hroot files
  rw [hcopy] at hsim
  change if 64 + b.next < v.pageCount then _ else _ at hsim
  rw [if_pos (hcount ▸ hroom)] at hsim
  obtain ⟨_, v', hv', hr', hk, -⟩ := hsim
  refine ⟨v', ?_, ⟨hr', fun f => rfl, ?_⟩, ?_, ?_⟩
  · rw [hmake, ok_bind]
    exact hv'
  · rw [hk.size, hv]
    omega
  · rw [hk.pageCount, hcount]
    omega
  · rw [hk.reserved _ (by decide), makeVolume_metadata hmake (by rw [hroot]; decide), hroot]

/-- **The round trip.**  Every file is found under its path and read as it was copied, if the tool looks up no
directory after a name that is an initial part of its own. -/
theorem roundTrip_of_exact (hsize : size + 4095 < 2^31) (hf : FileTree files) (hfits : HasRoom size files)
    (hexact : FirstExact (pathsOf (byPath files))) : RoundTrip size now files := by
  have hcopyable := hf.copyable (by
    unfold HasRoom at hfits
    omega)
  have hnil : Copyable (byPath files ++ []) := by
    rw [List.append_nil]
    exact hcopyable
  obtain ⟨b, num, hcopy, htree⟩ := copyFiles_tree hnil hf.short hexact
  obtain ⟨v, hv, hst, hpages, hroot⟩ := copied now hsize hcopy (by
    rw [htree.next]
    exact hfits)
  refine ⟨v, hv, fun disk hdisk gMetadata gPages mem₀ mem hmem f hmemf => ?_⟩
  have hfm : (components f.1, f.2) ∈ byPath files := mem_byPath.mpr ⟨f, hmemf, rfl⟩
  refine delivered htree hst hdisk hf.sizes hfm (List.mem_map_of_mem hfm) (components_ne_nil f.1) ?_
  rw [mfsInit_root hdisk hpages hmem, hroot, htree.root]

end

/-! ## paths that are not found -/

section
variable {v : MfsVolume} {es : Listing} {disk : (Nat → UInt8) → Nat → Nat → Nat → (Nat → UInt8)} {gPages : Nat}

/-- what the bootloader finds is the first entry with the name -/
theorem mfsLookupAt_follow (h : Listed v es) (hdisk : DiskReads disk v) {mem : Nat → UInt8} {i rounds found : Nat}
    {l : List (List UInt8 × Nat)} (hi : es i = some l) {n : List UInt8} (hn : n.length < 1024)
    (e : mfsLookupAt disk gPages mem i n rounds = .found found) :
    ∃ x, l.find? (fun x => x.1 = n) = some x ∧ x.2 = found := by
  obtain ⟨c, a, hst, hc⟩ := h.stores
  have hinodes : ∀ x ∈ l, x.2 < 2^64 := fun x hx => by
    obtain ⟨k, hk⟩ := Option.isSome_iff_exists.mp (h.inodes i l hi x hx)
    obtain ⟨-, -, -, -, -, -, hlt⟩ := h.file hk
    omega
  have hwithin := (hst.lookup (hc i l hi) hinodes hdisk mem n found).mp ⟨rounds, e⟩
  rw [Nat.mod_eq_of_lt (by omega), List.take_length] at hwithin
  obtain ⟨l', x, r, rfl, hx, hl', -, rfl⟩ := entryWithin_some hwithin
  refine ⟨x, List.find?_eq_some_iff_append.mpr ⟨decide_eq_true hx, l', r, rfl, fun y hy => ?_⟩, rfl⟩
  rw [decide_eq_false (hl' y hy)]
  rfl

/-- **What is found has the names of the path.** -/
theorem lookupNames_follow (h : Listed v es) (hdisk : DiskReads disk v) {mem mem' : Nat → UInt8} {i j rounds : Nat}
    {p : Path} (hi : (es i).isSome) (hp : ∀ n ∈ p, n.length < 1024)
    (e : lookupNames disk gPages mem i rounds p = some (j, mem')) : follow es i p = some j := by
  induction p generalizing mem i with
  | nil =>
    cases e
    rfl
  | cons n p ih =>
    obtain ⟨l, hl⟩ := Option.isSome_iff_exists.mp hi
    rw [lookupNames] at e
    cases hfound : mfsLookupAt disk gPages mem i n rounds with
    | found k =>
      rw [hfound] at e
      obtain ⟨x, hx, rfl⟩ := mfsLookupAt_follow h hdisk hl (hp n List.mem_cons_self) hfound
      rw [follow, hl, Option.bind_some, hx, Option.bind_some]
      exact ih (h.inodes i l hl x (List.mem_of_find?_eq_some hx)) (fun m hm => hp m (List.mem_cons_of_mem _ hm)) e
    | outside =>
      rw [hfound] at e
      cases e
    | running =>
      rw [hfound] at e
      cases e

/-- a disk with the volume -/
theorem exists_diskReads (v : MfsVolume) : ∃ disk, DiskReads disk v :=
  ⟨fun mem dst lba sectors => store mem dst (sectorBytes v.bytes lba sectors), fun mem dst _ _ _ =>
    ⟨holdsAt_store mem dst _, fun _ ha => ha.elim (store_of_lt mem _) (store_of_ge mem _)⟩⟩

variable {size now : Nat} {files : List (List UInt8 × List UInt8)}

/-- **No round trip**: with empty files, one of the paths leads nowhere as soon as a lookup of the tool is not
exact. -/
theorem not_roundTrip (hsize : size + 4095 < 2^31) (hf : FileTree files) (hfits : HasRoom size files)
    (hnil : ∀ f ∈ files, f.2 = []) (hnot : ¬ FirstExact (pathsOf (byPath files))) : ¬ RoundTrip size now files := by
  rintro ⟨v, hv, hall⟩
  obtain ⟨⟨_, u⟩, hmake, hcopy⟩ := bind_eq_ok hv
  unfold HasRoom at hfits
  have hspec := makeVolume_spec hsize now
  split_ifs at hspec with hpages
  swap
  · cases hmake.symm.trans hspec
  obtain ⟨u', hmake', hr, hroot, hu, -⟩ := hspec
  cases hmake.symm.trans hmake'
  obtain ⟨es, hk, hl, htop, f, hmem, hnone⟩ := copyFiles_misled hr hroot (by omega) (hf.copyable (by omega)) hnil
    hf.short hnot hcopy
  have hcount : 63 < v.pageCount := by
    have hpagesize : MFS_PAGE_SIZE = 4096 := rfl
    rw [MfsVolume.pageCount, hk.size, hu, hpagesize]
    omega
  -- any disk and any memory will do
  obtain ⟨disk, hdisk⟩ := exists_diskReads v
  obtain ⟨rounds, inode, mem', hfound, -⟩ := hall disk hdisk 0 0 (fun _ => 0) _ (fun _ _ => rfl) f hmem
  have hmeta : readLe (mfsInit disk 0 fun _ => 0) (0 + Mfs.root) 8 = 1 := by
    rw [mfsInit_root hdisk hcount fun _ _ => rfl, hk.reserved _ (by decide),
      makeVolume_metadata hmake (by rw [hroot]; decide), hroot]
  rw [lookupPath_eq (components_ne_nil f.1) hmeta] at hfound
  have hlen : ∀ n ∈ components f.1, n.length < 1024 := fun n hn =>
    Nat.lt_of_le_of_lt (length_le_of_mem_components hn) (hf.short f hmem)
  rw [lookupNames_follow hl hdisk htop hlen hfound] at hnone
  cases hnone

/-! ## the paths that make the round trip -/

/-- the files with nothing in them -/
def emptied (files : List (List UInt8 × List UInt8)) : List (List UInt8 × List UInt8) := files.map fun f => (f.1, [])

theorem pathsOf_emptied (files : List (List UInt8 × List UInt8)) :
    pathsOf (byPath (emptied files)) = pathsOf (byPath files) := by
  rw [pathsOf_byPath, pathsOf_byPath, emptied, List.map_map]
  rfl

theorem emptied_nil (files : List (List UInt8 × List UInt8)) : ∀ f ∈ emptied files, f.2 = [] := fun f hf => by
  obtain ⟨g, -, rfl⟩ := List.mem_map.mp hf
  rfl

theorem FileTree.emptied (h : FileTree files) : FileTree (emptied files) where
  names := fun f hf => by
    obtain ⟨g, hg, rfl⟩ := List.mem_map.mp hf
    exact h.names g hg
  short := fun f hf => by
    obtain ⟨g, hg, rfl⟩ := List.mem_map.mp hf
    exact h.short g hg
  apart := List.pairwise_map.mpr h.apart
  contents := fun f hf => by
    rw [emptied_nil files f hf]
    decide
  sizes := by
    rw [pathsOf_emptied]
    exact h.sizes

theorem HasRoom.emptied (h : HasRoom size files) : HasRoom size (emptied files) := by
  have hpages : contentPages (byPath (FuseeOS.emptied files)) ≤ contentPages (byPath files) := by
    unfold contentPages byPath FuseeOS.emptied
    rw [List.map_map, List.map_map, List.map_map]
    exact List.sum_le_sum fun f _ => Nat.add_le_add_left (pagesFor_mono (Nat.zero_le _)) 1
  have hsize : treeSize (byPath (FuseeOS.emptied files)) ≤ treeSize (byPath files) := by
    unfold treeSize
    rw [pathsOf_emptied]
    omega
  have hmono := iterate_nextPage_mono hsize
  unfold HasRoom at h ⊢
  omega

/-- **The paths that make the round trip**: in every volume with the pages, and whatever the files hold, they are all
found and read, if and only if the tool looks up no directory after a name that is an initial part of its own. -/
theorem volume_round_trip (hsize : size + 4095 < 2^31) (hf : FileTree files) (hfits : HasRoom size files) :
    (∀ files', files'.map Prod.fst = files.map Prod.fst → FileTree files' → HasRoom size files' →
      RoundTrip size now files') ↔ FirstExact (pathsOf (byPath files)) := by
  have hpaths : ∀ files' : List (List UInt8 × List UInt8), files'.map Prod.fst = files.map Prod.fst →
      pathsOf (byPath files') = pathsOf (byPath files) := fun files' hfst => by
    have hcomp : ∀ l : List (List UInt8 × List UInt8), l.map (fun f => components f.1) =
        (l.map Prod.fst).map components := fun l => by
      rw [List.map_map]
      rfl
    rw [pathsOf_byPath, pathsOf_byPath, hcomp, hcomp, hfst]
  constructor
  · intro h
    by_contra hnot
    have hempty := h (emptied files) (List.map_map.trans rfl) hf.emptied hfits.emptied
    exact not_roundTrip hsize hf.emptied hfits.emptied (emptied_nil files) (by rwa [pathsOf_emptied]) hempty
  · intro hexact files' hfst hf' hfits'
    exact roundTrip_of_exact hsize hf' hfits' (by rwa [hpaths files' hfst])

end

/-- `a/b` and `a/bc`: the directory is looked up for the second file, whose own name has the first one in front -/
theorem volume_round_trip_two : RoundTrip 300000 0 [([97, 47, 98], [7]), ([97, 47, 98, 99], [8, 9])] := by
  have hf : FileTree [([97, 47, 98], [7]), ([97, 47, 98, 99], [8, 9])] := by
    constructor
    all_goals decide
  have hpaths : pathsOf (byPath [([97, 47, 98], [7]), ([97, 47, 98, 99], [8, 9])]) =
      [[[97], [98]], [[97], [98, 99]]] := by decide
  have hexact : FirstExact (pathsOf (byPath [([97, 47, 98], [7]), ([97, 47, 98, 99], [8, 9])])) := by
    rw [hpaths]
    intro done p todo d n hsplit hpre hne
    cases done with
    | nil => exact fun m hm => nomatch hm
    | cons q done =>
      obtain ⟨rfl, hrest⟩ := List.cons.inj hsplit
      cases done with
      | nil =>
        -- the second file, in the directory that the first one has made
        obtain ⟨rfl, -⟩ := List.cons.inj hrest
        have hlen : (d ++ [n]).length < 2 := Nat.lt_of_le_of_ne hpre.length_le fun e => hne (hpre.eq_of_length e)
        rw [List.length_append, List.length_singleton] at hlen
        obtain rfl : d = [] := List.eq_nil_of_length_eq_zero (by omega)
        obtain rfl : n = [97] := (List.cons_prefix_cons.mp hpre).1
        intro m hm
        exact (Option.some.inj hm).symm
      | cons q' done =>
        have hnil : done ++ p :: todo = [] := (List.cons.inj hrest).2.symm
        cases (List.append_eq_nil_iff.mp hnil).2
  exact (volume_round_trip (by decide) hf (by unfold HasRoom; decide)).mpr hexact _ rfl hf
    (by unfold HasRoom; decide)

/-- the paths `a/x` and `ab/y`: the second file ends up in the directory `a` -/
theorem volume_round_trip_prefix : ¬ ∀ files, FileTree files → HasRoom 300000 files → RoundTrip 300000 0 files := by
  intro h
  have hf : FileTree [([97, 47, 120], []), ([97, 98, 47, 121], [])] := by
    constructor
    all_goals decide
  have hfits : HasRoom 300000 [([97, 47, 120], []), ([97, 98, 47, 121], [])] := by
    unfold HasRoom
    decide
  refine not_roundTrip (by decide) hf hfits (by decide) (fun hexact => ?_) (h _ hf hfits)
  have hab := hexact [[[97], [120]]] [[97, 98], [121]] [] [] [97, 98] (by decide) (by decide) (by decide)
  have ha := hab [97] (by decide)
  cases ha

end FuseeOS
