import FuseeOS.Tools.MkInitram
import FuseeOS.Libc.String
import Mathlib.Data.List.Nodup

/-!
# Looking up a file in the initial ramdisk

`initram_lookup` of `libboot` walks the entry table of the image that `mkinitram` wrote, and
compares every name with the string it is given.  It compares only as many bytes as the entry's
name has, so an entry matches every string that begins with its name.

* `memcmp_name`: an entry matches a string that begins with its name;
* `firstMatch files s` is the first file whose name the string begins with;
  **`initramLookup_eq`**: the lookup returns the data of that file;
* **`initram_lookup_right`**: a lookup finds the right data if and only if the first match is the
  file of that name (or starts with the same data);
* `initram_lookup_wrong`: so the round trip fails for two files `a` and `ab`.
-/

namespace FuseeOS
open Bytes

/-! ## the code -/

def readHeader (mem : Nat → UInt8) (base : Nat) : InitRamHeader where
  magic := fetch mem base 8
  fhCnt := readLe mem (base + 8) 8
  fhOff := readLe mem (base + 16) 8
  fhSize := readLe mem (base + 24) 8
  shOff := readLe mem (base + 32) 8
  shSize := readLe mem (base + 40) 8
  dataOff := readLe mem (base + 48) 8
  dataSize := readLe mem (base + 56) 8

def readEntry (mem : Nat → UInt8) (fe : Nat) : InitRamFileEntry where
  nameOff := readLe mem fe 8
  nameSize := readLe mem (fe + 8) 8
  dataOff := readLe mem (fe + 16) 8
  dataSize := readLe mem (fe + 24) 8

/-- the loop of `initram_lookup` with `n` entries to go, the first of them at `fe` -/
def lookupLoop (mem : Nat → UInt8) (base name : Nat) (h : InitRamHeader) (fe : Nat) :
    Nat → Option Nat
  | 0 => none
  | n + 1 =>
    let e := readEntry mem fe
    if memcmp mem name (base + h.shOff + e.nameOff) e.nameSize = 0 then
      some (base + h.dataOff + e.dataOff)
    else lookupLoop mem base name h (fe + ENTRY_SIZE) n

/-- `none` is `NULL`; `base` is `gBootParams.initram` -/
def initramLookup (mem : Nat → UInt8) (base name : Nat) : Option Nat :=
  let h := readHeader mem base
  lookupLoop mem base name h (base + h.fhOff) h.fhCnt

/-! ## what a lookup is asked to do -/

/-- the image lies at `base`, its end is an address -/
structure Loaded (mem : Nat → UInt8) (base : Nat) (image : List UInt8) : Prop where
  holds : HoldsAt mem base image
  fits : base + image.length < 2^64

/-- the result of a lookup is right: the file's contents follow, `NULL` for a name that no file
has -/
def LookupRight (mem : Nat → UInt8) (files : List InitRamFile) (s : List UInt8)
    (r : Option Nat) : Prop :=
  (∀ f ∈ files, f.name = s → ∃ p, r = some p ∧ HoldsAt mem p f.content) ∧
    ((∀ f ∈ files, f.name ≠ s) → r = none)

/-- the first file whose name the string begins with, with the files behind it -/
def firstMatch (s : List UInt8) : List InitRamFile → Option (InitRamFile × List InitRamFile)
  | [] => none
  | f :: fs => if f.name.isPrefixOf s then some (f, fs) else firstMatch s fs

/-- the first match is the file itself, or what follows from its data on starts with the data of
the file -/
def Discriminates (files : List InitRamFile) (s : List UInt8) : Prop :=
  ∀ f fs, firstMatch s files = some (f, fs) →
    f.name = s ∨ ∃ g ∈ fs, g.name = s ∧ g.content <+: f.content ++ dataArea fs

/-! ## comparing names -/

/-- comparing a string with a NUL-free name asks whether it begins with the name -/
theorem memcmp_name {mem : Nat → UInt8} {a b : Nat} {s name : List UInt8} (hs : CString mem a s)
    (hname : HoldsAt mem b name) (h0 : 0 ∉ name) :
    memcmp mem a b name.length = 0 ↔ name <+: s := by
  rw [memcmp_eq_zero]
  have hs' : HoldsAt mem a s := (holdsAt_append.1 hs.holds).1
  constructor
  · intro h
    have hat : HoldsAt mem a name := fun i hi => by rw [h i hi, hname i hi]
    by_cases hlen : name.length ≤ s.length
    · exact hat.isPrefix hs' hlen
    · -- the string ends within the name, where the name has no NUL
      have hz := hs.holds s.length (by simp)
      rw [hat s.length (by omega)] at hz
      simp only [List.getElem_concat_length] at hz
      exact absurd (hz ▸ List.getElem_mem _) h0
  · intro h i hi
    have hat := hs'.of_isPrefix h
    rw [hat i hi, hname i hi]

/-! ## the loaded image -/

/-- the parts of the image of `files` in memory, for the entries from the `k`-th on -/
structure Parts (mem : Nat → UInt8) (names data : Nat) (n d : Nat) (files : List InitRamFile) :
    Prop where
  names : HoldsAt mem (names + n) (nameTable files)
  data : HoldsAt mem (data + d) (dataArea files)
  noNul : ∀ f ∈ files, 0 ∉ f.name
  nsize : n + (nameTable files).length < 2^64
  dsize : d + (dataArea files).length < 2^64

theorem Parts.tail {mem : Nat → UInt8} {names data n d : Nat} {f : InitRamFile}
    {fs : List InitRamFile} (h : Parts mem names data n d (f :: fs)) :
    Parts mem names data (n + (f.name.length + 1)) (d + f.content.length) fs := by
  have hn : nameTable (f :: fs) = (f.name ++ [0]) ++ nameTable fs := rfl
  have hd : dataArea (f :: fs) = f.content ++ dataArea fs := rfl
  have hn1 := h.names
  have hd1 := h.data
  have hs1 := h.nsize
  have hs2 := h.dsize
  rw [hn] at hn1 hs1
  rw [hd] at hd1 hs2
  rw [holdsAt_append] at hn1 hd1
  rw [List.length_append] at hs1 hs2
  refine ⟨?_, ?_, fun g hg => h.noNul g (List.mem_cons_of_mem _ hg), ?_, ?_⟩
  · have := hn1.2
    rwa [List.length_append, List.length_singleton, Nat.add_assoc] at this
  · have := hd1.2
    rwa [Nat.add_assoc] at this
  · rw [List.length_append, List.length_singleton] at hs1
    omega
  · omega

theorem readEntry_eq {mem : Nat → UInt8} {fe : Nat} {e : InitRamFileEntry}
    (h : HoldsAt mem fe e.bytes) (h1 : e.nameOff < 2^64) (h2 : e.nameSize < 2^64)
    (h3 : e.dataOff < 2^64) (h4 : e.dataSize < 2^64) : readEntry mem fe = e := by
  unfold InitRamFileEntry.bytes at h
  rw [holdsAt_append, holdsAt_append, holdsAt_append] at h
  simp only [length_le] at h
  obtain ⟨ha, hb, hc, hd⟩ := h
  unfold readEntry
  rw [readLe_of_holdsAt ha (by omega), readLe_of_holdsAt hb (by omega),
    readLe_of_holdsAt hc (by omega), readLe_of_holdsAt hd (by omega)]

theorem readHeader_eq {mem : Nat → UInt8} {base : Nat} {h : InitRamHeader}
    (hh : HoldsAt mem base h.bytes) (hm : h.magic.length = 8) (h1 : h.fhCnt < 2^64)
    (h2 : h.fhOff < 2^64) (h3 : h.fhSize < 2^64) (h4 : h.shOff < 2^64) (h5 : h.shSize < 2^64)
    (h6 : h.dataOff < 2^64) (h7 : h.dataSize < 2^64) : readHeader mem base = h := by
  unfold InitRamHeader.bytes at hh
  rw [holdsAt_append, holdsAt_append, holdsAt_append, holdsAt_append, holdsAt_append,
    holdsAt_append, holdsAt_append] at hh
  simp only [length_le, hm] at hh
  obtain ⟨h0, ha, hb, hc, hd, he, hf, hg⟩ := hh
  have hmag := fetch_of_holdsAt h0
  rw [hm] at hmag
  unfold readHeader
  rw [hmag, readLe_of_holdsAt ha (by omega), readLe_of_holdsAt hb (by omega),
    readLe_of_holdsAt hc (by omega), readLe_of_holdsAt hd (by omega),
    readLe_of_holdsAt he (by omega), readLe_of_holdsAt hf (by omega),
    readLe_of_holdsAt hg (by omega)]

/-- what the loop returns: the data of the first match, `d` bytes into the data area -/
def matchAddr (s : List UInt8) : Nat → List InitRamFile → Option Nat
  | _, [] => none
  | d, f :: fs => if f.name.isPrefixOf s then some d else matchAddr s (d + f.content.length) fs

theorem lookupLoop_eq {mem : Nat → UInt8} {base name : Nat} {s : List UInt8} {h : InitRamHeader}
    (hs : CString mem name s) (fe n d : Nat) (files : List InitRamFile)
    (hp : Parts mem (base + h.shOff) (base + h.dataOff) n d files)
    (hfe : HoldsAt mem fe ((entryTable n d files).flatMap InitRamFileEntry.bytes)) :
    lookupLoop mem base name h fe files.length
      = (matchAddr s d files).map (base + h.dataOff + ·) := by
  induction files generalizing fe n d with
  | nil => rfl
  | cons f fs ih =>
    rw [entryTable, List.flatMap_cons, holdsAt_append, length_entry_bytes] at hfe
    have hns := hp.nsize
    have hds := hp.dsize
    have hn : nameTable (f :: fs) = (f.name ++ [0]) ++ nameTable fs := rfl
    have hd : dataArea (f :: fs) = f.content ++ dataArea fs := rfl
    rw [hn, List.length_append, List.length_append] at hns
    rw [hd, List.length_append] at hds
    have he := readEntry_eq hfe.1 (by simp only; omega) (by simp only; omega)
      (by simp only; omega) (by simp only; omega)
    have hname : HoldsAt mem (base + h.shOff + n) f.name := by
      have := hp.names
      rw [hn, List.append_assoc, holdsAt_append] at this
      exact this.1
    have hcmp := memcmp_name hs hname (hp.noNul f List.mem_cons_self)
    rw [List.length_cons, lookupLoop, he, matchAddr]
    dsimp only
    by_cases hpre : f.name <+: s
    · rw [if_pos (hcmp.2 hpre), if_pos (List.isPrefixOf_iff_prefix.2 hpre), Option.map_some]
    · rw [if_neg (fun h0 => hpre (hcmp.1 h0)),
        if_neg (fun h0 => hpre (List.isPrefixOf_iff_prefix.1 h0)), ih _ _ _ hp.tail hfe.2]

/-- **the lookup returns the data of the first match** -/
theorem initramLookup_eq {files : List InitRamFile} {image : List UInt8} (hok : FilesOk files)
    (himage : mkinitram files = some image) {mem : Nat → UInt8} {base : Nat}
    (hload : Loaded mem base image) {name : Nat} {s : List UInt8} (hs : CString mem name s) :
    ∃ data, data + (dataArea files).length = base + image.length ∧ HoldsAt mem data (dataArea files) ∧
      initramLookup mem base name = (matchAddr s 0 files).map (data + ·) := by
  have hh := hload.holds
  have hfit := hload.fits
  rw [image_eq himage] at hh
  rw [length_image himage] at hfit
  rw [holdsAt_append, holdsAt_append, holdsAt_append] at hh
  obtain ⟨hhead, hnames, hentries, hdata⟩ := hh
  rw [length_header_bytes] at hnames hentries hdata
  rw [length_entries_bytes, length_entryTable] at hdata
  have hcount := hok.count
  unfold MAX_ENTRIES at hcount
  unfold HEADER_SIZE at hfit hnames hentries hdata
  unfold ENTRY_SIZE at hfit hdata
  have hH : readHeader mem base = (built files).header.placed := by
    apply readHeader_eq hhead <;>
      simp only [InitRamHeader.placed, built, INITRAM_MAGIC, ENTRY_SIZE, HEADER_SIZE] <;>
      first
        | rfl
        | omega
  refine ⟨base + 64 + (nameTable files).length + 32 * files.length, ?_, hdata, ?_⟩
  · rw [length_image himage, HEADER_SIZE, ENTRY_SIZE]
    omega
  unfold initramLookup
  rw [hH]
  have hfh : (built files).header.placed.fhOff = 64 + (nameTable files).length := by
    simp only [InitRamHeader.placed, built, HEADER_SIZE]
    omega
  have hda : (built files).header.placed.dataOff
      = 64 + (nameTable files).length + 32 * files.length := by
    simp only [InitRamHeader.placed, built, HEADER_SIZE, ENTRY_SIZE]
    omega
  have hsh : (built files).header.placed.shOff = 64 := rfl
  have hcnt : (built files).header.placed.fhCnt = files.length := rfl
  dsimp only
  rw [hcnt, hfh, lookupLoop_eq hs _ 0 0 files]
  · rw [hda, ← Nat.add_assoc, ← Nat.add_assoc]
  · rw [hsh, hda]
    refine ⟨hnames, ?_, hok.noNul, ?_, ?_⟩
    · rwa [Nat.add_zero, ← Nat.add_assoc, ← Nat.add_assoc]
    · omega
    · omega
  · rwa [← Nat.add_assoc]

/-! ## the first match -/

/-- the first match splits the list; no earlier file matches -/
theorem firstMatch_split {s : List UInt8} {files : List InitRamFile} {f : InitRamFile}
    {fs : List InitRamFile} (h : firstMatch s files = some (f, fs)) (d : Nat) :
    ∃ before, files = before ++ f :: fs ∧ (∀ g ∈ before, ¬ g.name <+: s) ∧
      matchAddr s d files = some (d + (dataArea before).length) := by
  induction files generalizing d with
  | nil => cases h
  | cons g gs ih =>
    rw [firstMatch] at h
    by_cases hpre : g.name.isPrefixOf s
    · rw [if_pos hpre, Option.some.injEq, Prod.mk.injEq] at h
      obtain ⟨rfl, rfl⟩ := h
      refine ⟨[], rfl, fun _ hx => absurd hx List.not_mem_nil, ?_⟩
      rw [matchAddr, if_pos hpre]
      rfl
    · rw [if_neg hpre] at h
      obtain ⟨before, rfl, hno, haddr⟩ := ih h (d + g.content.length)
      refine ⟨g :: before, rfl, fun x hx => ?_, ?_⟩
      · rcases List.mem_cons.1 hx with rfl | hx
        · exact fun hp => hpre (List.isPrefixOf_iff_prefix.2 hp)
        · exact hno x hx
      · have hd : dataArea (g :: before) = g.content ++ dataArea before := rfl
        rw [matchAddr, if_neg hpre, haddr, hd, List.length_append, Nat.add_assoc]

theorem firstMatch_none {s : List UInt8} {files : List InitRamFile}
    (h : firstMatch s files = none) (d : Nat) :
    (∀ g ∈ files, ¬ g.name <+: s) ∧ matchAddr s d files = none := by
  induction files generalizing d with
  | nil => exact ⟨fun _ hx => absurd hx List.not_mem_nil, rfl⟩
  | cons g gs ih =>
    rw [firstMatch] at h
    by_cases hpre : g.name.isPrefixOf s
    · rw [if_pos hpre] at h
      cases h
    · rw [if_neg hpre] at h
      obtain ⟨hno, haddr⟩ := ih h (d + g.content.length)
      refine ⟨fun x hx => ?_, ?_⟩
      · rcases List.mem_cons.1 hx with rfl | hx
        · exact fun hp => hpre (List.isPrefixOf_iff_prefix.2 hp)
        · exact hno x hx
      · rw [matchAddr, if_neg hpre, haddr]

/-- two files of one name are one file -/
theorem FilesOk.eq_of_name {files : List InitRamFile} (h : FilesOk files) {f g : InitRamFile}
    (hf : f ∈ files) (hg : g ∈ files) (hn : f.name = g.name) : f = g :=
  List.inj_on_of_nodup_map h.distinct hf hg hn

/-- the data that a file of the list has room for -/
theorem length_content_le {g : InitRamFile} {fs : List InitRamFile} (h : g ∈ fs) :
    g.content.length ≤ (dataArea fs).length := by
  obtain ⟨a, b, rfl⟩ := List.append_of_mem h
  rw [dataArea_append]
  have hd : dataArea (g :: b) = g.content ++ dataArea b := rfl
  rw [hd, List.length_append, List.length_append]
  omega

/-- the data of the file of that name -/
theorem lookupRight_of_named {files : List InitRamFile} (hok : FilesOk files) {mem : Nat → UInt8} {p : Nat}
    {s : List UInt8} {f : InitRamFile} (hf : f ∈ files) (hfs : f.name = s) (hat : HoldsAt mem p f.content) :
    LookupRight mem files s (some p) := by
  refine ⟨fun f' hf' hn => ⟨p, rfl, ?_⟩, fun hall => absurd hfs (hall f hf)⟩
  rw [hok.eq_of_name hf' hf (hn.trans hfs.symm)]
  exact hat

/-- a file of that name is behind the first match, unless it is the match -/
theorem named_behind {before fs : List InitRamFile} {f g : InitRamFile} {s : List UInt8}
    (hno : ∀ g ∈ before, ¬ g.name <+: s) (hfs : f.name ≠ s) (hg : g ∈ before ++ f :: fs) (hgs : g.name = s) :
    g ∈ fs := by
  rcases List.mem_append.1 hg with hb | hb
  · exact absurd (hgs ▸ List.prefix_rfl) (hno g hb)
  · rcases List.mem_cons.1 hb with rfl | hb
    · exact absurd hgs hfs
    · exact hb

/-- **a lookup is right if and only if the first match is the file, or starts with its data** -/
theorem initram_lookup_right {files : List InitRamFile} {image : List UInt8}
    (hok : FilesOk files) (himage : mkinitram files = some image) {mem : Nat → UInt8} {base : Nat}
    (hload : Loaded mem base image) {name : Nat} {s : List UInt8} (hs : CString mem name s) :
    LookupRight mem files s (initramLookup mem base name) ↔ Discriminates files s := by
  obtain ⟨data, -, hdata, hres⟩ := initramLookup_eq hok himage hload hs
  rw [hres]
  cases hfm : firstMatch s files with
  | none =>
    obtain ⟨hno, haddr⟩ := firstMatch_none hfm 0
    rw [haddr]
    constructor
    · intro _ f fs hsome
      rw [hfm] at hsome
      cases hsome
    · intro _
      refine ⟨fun f hf hn => ?_, fun _ => rfl⟩
      exact absurd (hn ▸ List.prefix_rfl) (hno f hf)
  | some m =>
    obtain ⟨f, fs⟩ := m
    obtain ⟨before, hsplit, hno, haddr⟩ := firstMatch_split hfm 0
    have hat : HoldsAt mem (data + (dataArea before).length) (f.content ++ dataArea fs) := by
      rw [hsplit, dataArea_append, holdsAt_append] at hdata
      exact hdata.2
    rw [haddr, Nat.zero_add, Option.map_some]
    constructor
    · intro ⟨hlisted, hother⟩ f' fs' hsome
      rw [hfm, Option.some.injEq, Prod.mk.injEq] at hsome
      obtain ⟨rfl, rfl⟩ := hsome
      by_cases hfs : f.name = s
      · exact Or.inl hfs
      · -- something is returned, so the string is a listed name, behind the match
        right
        by_contra hcon
        apply absurd (hother ?_) (Option.some_ne_none _)
        intro g hg hgs
        have hgfs := named_behind hno hfs (hsplit ▸ hg) hgs
        obtain ⟨p, hp, hgat⟩ := hlisted g hg hgs
        rw [Option.some.injEq] at hp
        subst hp
        refine hcon ⟨g, hgfs, hgs, hgat.isPrefix hat ?_⟩
        have := length_content_le hgfs
        rw [List.length_append]
        omega
    · intro hdis
      rcases hdis f fs hfm with hfs | ⟨g, hg, hgs, hpre⟩
      · have hf : f ∈ files := by
          rw [hsplit]
          exact List.mem_append_right _ List.mem_cons_self
        exact lookupRight_of_named hok hf hfs (holdsAt_append.1 hat).1
      · have hg' : g ∈ files := by
          rw [hsplit]
          exact List.mem_append_right _ (List.mem_cons_of_mem _ hg)
        exact lookupRight_of_named hok hg' hgs (hat.of_isPrefix hpre)

/-! ## two files -/

/-- files `a` and `ab`, with data `x` and `y` -/
def twoFiles : List InitRamFile := [⟨[97], [120]⟩, ⟨[97, 98], [121]⟩]

theorem twoFiles_ok : FilesOk twoFiles where
  count := by decide
  nonempty := by decide
  noNul := by decide
  distinct := by decide
  names := by decide

/-- the string `s` with the image of the two files behind it, in memory -/
theorem twoFiles_loaded (s : List UInt8) (hs : 0 ∉ s) (hlen : s.length < 2^32) :
    ∃ image mem base name, mkinitram twoFiles = some image ∧ Loaded mem base image ∧
      CString mem name s := by
  obtain ⟨image, himage⟩ := mkinitram_isSome twoFiles_ok (by decide)
  have hat := holdsAt_memOf 4096 ((s ++ [0]) ++ image)
  rw [holdsAt_append] at hat
  refine ⟨image, _, _, 4096, himage, ⟨hat.2, ?_⟩, hat.1, hs⟩
  have hlen' : image.length = 135 := length_image himage
  rw [hlen', List.length_append, List.length_singleton]
  omega

theorem initram_lookup_right_two : ∃ mem base name image,
    mkinitram twoFiles = some image ∧ Loaded mem base image ∧
      CString mem name [97] ∧ LookupRight mem twoFiles [97] (initramLookup mem base name) := by
  obtain ⟨image, mem, base, name, himage, hload, hs⟩ :=
    twoFiles_loaded [97] (by decide) (by decide)
  refine ⟨mem, base, name, image, himage, hload, hs, ?_⟩
  refine (initram_lookup_right twoFiles_ok himage hload hs).2 ?_
  intro f fs h
  have hf : firstMatch [97] twoFiles = some (⟨[97], [120]⟩, [⟨[97, 98], [121]⟩]) := by decide
  rw [hf, Option.some.injEq, Prod.mk.injEq] at h
  obtain ⟨rfl, -⟩ := h
  exact Or.inl rfl

/-- looking up `ab` finds the data of `a` -/
theorem initram_lookup_wrong :
    ¬ ∀ (files : List InitRamFile) (image : List UInt8), FilesOk files →
      mkinitram files = some image → ∀ (mem : Nat → UInt8) (base : Nat), Loaded mem base image →
      ∀ (name : Nat) (s : List UInt8), CString mem name s →
        LookupRight mem files s (initramLookup mem base name) := by
  intro hall
  obtain ⟨image, mem, base, name, himage, hload, hs⟩ :=
    twoFiles_loaded [97, 98] (by decide) (by decide)
  have hright := hall twoFiles image twoFiles_ok himage mem base hload name [97, 98] hs
  obtain ⟨data, -, hdata, hres⟩ := initramLookup_eq twoFiles_ok himage hload hs
  have haddr : matchAddr [97, 98] 0 twoFiles = some 0 := by decide
  obtain ⟨p, hp, hpat⟩ := hright.1 ⟨[97, 98], [121]⟩ (by decide) rfl
  rw [hres, haddr, Option.map_some, Option.some.injEq] at hp
  subst hp
  have h1 : mem (data + 0) = 120 := hdata 0 (by decide)
  have h2 : mem (data + 0) = 121 := hpat 0 (by decide)
  rw [h1] at h2
  exact absurd h2 (by decide)

end FuseeOS
