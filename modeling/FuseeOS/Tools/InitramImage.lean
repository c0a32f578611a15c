import FuseeOS.Boot.Initram

/-!
# The shape of the initial ramdisk

What `tools/mkinitram.c` has written, read back with the structures of `initram.h`.

* `entryTable_split`        the offsets of an entry are the lengths of what lies before;
* `imageHeader_eq`          the header with the three offsets that `save_initram` fills in;
* `imageEntry_split`        the entry of every file;
* **`mkinitram_image`**     the image of every list of files that fits the tables is well formed.
-/

namespace FuseeOS
open Bytes

/-- the image as a memory that starts at address 0 -/
abbrev imageMem (image : List UInt8) : Nat → UInt8 := memOf 0 image

def imageHeader (image : List UInt8) : InitRamHeader := readHeader (imageMem image) 0

def imageEntry (image : List UInt8) (i : Nat) : InitRamFileEntry :=
  readEntry (imageMem image) ((imageHeader image).fhOff + ENTRY_SIZE * i)

/-- header, string table, entry table and data, one behind the other up to the end -/
structure SectionsOf (files : List InitRamFile) (image : List UInt8) : Prop where
  magic : (imageHeader image).magic = INITRAM_MAGIC
  fhCnt : (imageHeader image).fhCnt = files.length
  shOff : (imageHeader image).shOff = HEADER_SIZE
  shSize : (imageHeader image).shSize = (nameTable files).length
  fhOff : (imageHeader image).fhOff = (imageHeader image).shOff + (imageHeader image).shSize
  fhSize : (imageHeader image).fhSize = ENTRY_SIZE * files.length
  dataOff : (imageHeader image).dataOff = (imageHeader image).fhOff + (imageHeader image).fhSize
  dataSize : (imageHeader image).dataSize = (dataArea files).length
  ends : image.length = (imageHeader image).dataOff + (imageHeader image).dataSize

/-- entry `i` gives the name and the contents of the file; both lie inside their sections -/
structure EntryOf (image : List UInt8) (i : Nat) (f : InitRamFile) : Prop where
  nameSize : (imageEntry image i).nameSize = f.name.length
  name : CString (imageMem image) ((imageHeader image).shOff + (imageEntry image i).nameOff) f.name
  nameInside : (imageEntry image i).nameOff + (f.name.length + 1) ≤ (imageHeader image).shSize
  dataSize : (imageEntry image i).dataSize = f.content.length
  data : HoldsAt (imageMem image) ((imageHeader image).dataOff + (imageEntry image i).dataOff) f.content
  dataInside : (imageEntry image i).dataOff + f.content.length ≤ (imageHeader image).dataSize

/-- name and contents of entry `i` end before those of entry `j` begin -/
structure EntryBefore (image : List UInt8) (i j : Nat) : Prop where
  name : (imageEntry image i).nameOff + ((imageEntry image i).nameSize + 1) ≤ (imageEntry image j).nameOff
  data : (imageEntry image i).dataOff + (imageEntry image i).dataSize ≤ (imageEntry image j).dataOff

/-- a well formed image of the files -/
structure ImageOf (files : List InitRamFile) (image : List UInt8) : Prop where
  sections : SectionsOf files image
  entry : ∀ i (h : i < files.length), EntryOf image i files[i]
  before : ∀ i j, i < j → j < files.length → EntryBefore image i j

/-! ## sizes -/

theorem nameTable_cons (f : InitRamFile) (fs : List InitRamFile) :
    (nameTable (f :: fs)).length = f.name.length + 1 + (nameTable fs).length := by
  rw [nameTable, List.flatMap_cons, List.length_append, List.length_append, List.length_singleton]
  rfl

theorem dataArea_cons (f : InitRamFile) (fs : List InitRamFile) :
    (dataArea (f :: fs)).length = f.content.length + (dataArea fs).length := by
  simp [dataArea]

/-- `add_file` never makes more data than a size can count -/
theorem addFile_dataArea {fs : List InitRamFile} {f : InitRamFile} {rd : InitRamDisk}
    (h : addFile (built fs) f = some rd) : (dataArea (fs ++ [f])).length < 2^64 := by
  unfold addFile at h
  dsimp only at h
  split at h
  · cases h
  · split at h
    · cases h
    · next hsize =>
      rw [dataArea_append, List.length_append, dataArea_cons]
      simp only [built, not_le] at hsize
      exact hsize

theorem addFiles_dataArea {fs gs : List InitRamFile} {rd : InitRamDisk}
    (hfs : (dataArea fs).length < 2^64) (h : addFiles (built fs) gs = some rd) :
    (dataArea (fs ++ gs)).length < 2^64 := by
  induction gs generalizing fs with
  | nil => rwa [List.append_nil]
  | cons g gs ih =>
    rw [addFiles] at h
    obtain ⟨rd1, h1, h2⟩ := Option.bind_eq_some_iff.1 h
    rw [addFile_built fs g rd1 h1] at h2
    have hlong := ih (addFile_dataArea h1) h2
    rwa [List.append_assoc, List.singleton_append] at hlong

theorem mkinitram_dataArea {files : List InitRamFile} {image : List UInt8}
    (h : mkinitram files = some image) : (dataArea files).length < 2^64 := by
  obtain ⟨rd, hrd, -⟩ := Option.map_eq_some_iff.1 h
  rw [← built_nil] at hrd
  have hnil : (dataArea []).length < 2^64 := by decide
  exact addFiles_dataArea hnil hrd

/-! ## the entries -/

/-- the entry behind those of `fs` -/
def entryAfter (fs : List InitRamFile) (f : InitRamFile) : InitRamFileEntry :=
  ⟨(nameTable fs).length, f.name.length, (dataArea fs).length, f.content.length⟩

theorem entryTable_split (fs : List InitRamFile) (f : InitRamFile) (gs : List InitRamFile) :
    entryTable 0 0 (fs ++ f :: gs) = entryTable 0 0 fs ++ entryAfter fs f ::
      entryTable ((nameTable fs).length + (f.name.length + 1))
        ((dataArea fs).length + f.content.length) gs := by
  rw [entryTable_append, entryTable, Nat.zero_add, Nat.zero_add]
  rfl

section
variable {files : List InitRamFile} {image : List UInt8}

/-- the sections of the image, where they lie -/
theorem image_parts (h : mkinitram files = some image) :
    HoldsAt (imageMem image) 0 (built files).header.placed.bytes ∧
      HoldsAt (imageMem image) HEADER_SIZE (nameTable files) ∧
      HoldsAt (imageMem image) (HEADER_SIZE + (nameTable files).length)
        ((entryTable 0 0 files).flatMap InitRamFileEntry.bytes) ∧
      HoldsAt (imageMem image) (HEADER_SIZE + (nameTable files).length + ENTRY_SIZE * files.length)
        (dataArea files) := by
  have hall : HoldsAt (imageMem image) 0 image := holdsAt_memOf 0 image
  have himage := image_eq h
  generalize imageMem image = mem at hall
  rw [himage, holdsAt_append, holdsAt_append, holdsAt_append, length_header_bytes,
    length_entries_bytes, length_entryTable, Nat.zero_add] at hall
  exact hall

theorem imageHeader_eq (hc : files.length ≤ MAX_ENTRIES) (hn : (nameTable files).length ≤ MAX_NAMES)
    (h : mkinitram files = some image) : imageHeader image = (built files).header.placed := by
  have hd := mkinitram_dataArea h
  unfold MAX_ENTRIES at hc
  unfold MAX_NAMES at hn
  refine readHeader_eq (image_parts h).1 rfl ?_ ?_ ?_ ?_ ?_ ?_ ?_
  all_goals
    simp only [InitRamHeader.placed, built, ENTRY_SIZE, HEADER_SIZE]
    omega

/-- the offsets do not wrap -/
theorem sections_built (hc : files.length ≤ MAX_ENTRIES) (hn : (nameTable files).length ≤ MAX_NAMES)
    (h : mkinitram files = some image) : SectionsOf files image := by
  have hlen := length_image h
  have hhead := imageHeader_eq hc hn h
  unfold MAX_ENTRIES at hc
  unfold MAX_NAMES at hn
  unfold HEADER_SIZE ENTRY_SIZE at hlen
  refine ⟨?_, ?_, ?_, ?_, ?_, ?_, ?_, ?_, ?_⟩
  all_goals
    rw [hhead]
  · rfl
  · rfl
  · rfl
  · rfl
  · simp only [InitRamHeader.placed, built, HEADER_SIZE]
    omega
  · rfl
  · simp only [InitRamHeader.placed, built, HEADER_SIZE, ENTRY_SIZE]
    omega
  · rfl
  · simp only [InitRamHeader.placed, built, HEADER_SIZE, ENTRY_SIZE]
    omega

/-- **the entry of a file**, by the files before it -/
theorem imageEntry_split {fs gs : List InitRamFile} {f : InitRamFile} (hs : files = fs ++ f :: gs)
    (hn : (nameTable files).length ≤ MAX_NAMES) (hsec : SectionsOf files image)
    (h : mkinitram files = some image) : imageEntry image fs.length = entryAfter fs f := by
  have hd := mkinitram_dataArea h
  have hent := (image_parts h).2.2.1
  unfold MAX_NAMES at hn
  unfold imageEntry
  rw [hsec.fhOff, hsec.shOff, hsec.shSize]
  rw [hs, entryTable_split, List.flatMap_append, List.flatMap_cons, holdsAt_append, holdsAt_append,
    length_entries_bytes, length_entryTable, ← hs] at hent
  rw [hs, nameTable_append, List.length_append, nameTable_cons] at hn
  rw [hs, dataArea_append, List.length_append, dataArea_cons] at hd
  refine readEntry_eq hent.2.1 ?_ ?_ ?_ ?_
  all_goals
    simp only [entryAfter]
    omega

/-- **what the entry of a file gives** -/
theorem entryOf_split {fs gs : List InitRamFile} {f : InitRamFile} (hs : files = fs ++ f :: gs)
    (h0 : 0 ∉ f.name) (hn : (nameTable files).length ≤ MAX_NAMES) (hsec : SectionsOf files image)
    (h : mkinitram files = some image) : EntryOf image fs.length f := by
  obtain ⟨-, hnames, -, hdata⟩ := image_parts h
  have hentry := imageEntry_split hs hn hsec h
  have hnt : nameTable files = nameTable fs ++ ((f.name ++ [0]) ++ nameTable gs) := by
    rw [hs, nameTable_append]
    rfl
  have hda : dataArea files = dataArea fs ++ (f.content ++ dataArea gs) := by
    rw [hs, dataArea_append]
    rfl
  have hlenN : (nameTable files).length =
      (nameTable fs).length + (f.name.length + 1 + (nameTable gs).length) := by
    rw [hs, nameTable_append, List.length_append, nameTable_cons]
  have hlenD : (dataArea files).length =
      (dataArea fs).length + (f.content.length + (dataArea gs).length) := by
    rw [hs, dataArea_append, List.length_append, dataArea_cons]
  have hoff : (imageHeader image).dataOff =
      HEADER_SIZE + (nameTable files).length + ENTRY_SIZE * files.length := by
    rw [hsec.dataOff, hsec.fhOff, hsec.fhSize, hsec.shOff, hsec.shSize]
  rw [hnt, holdsAt_append, holdsAt_append] at hnames
  rw [hda, holdsAt_append, holdsAt_append] at hdata
  have hdataAt := hdata.2.1
  rw [← hoff] at hdataAt
  refine ⟨?_, ⟨?_, h0⟩, ?_, ?_, ?_, ?_⟩
  all_goals
    rw [hentry]
  · rfl
  · rw [hsec.shOff]
    exact hnames.2.1
  · rw [hsec.shSize, hlenN]
    simp only [entryAfter]
    omega
  · rfl
  · exact hdataAt
  · rw [hsec.dataSize, hlenD]
    simp only [entryAfter]
    omega

/-- more files take more room in both tables -/
theorem tables_le {i j : Nat} (h : i ≤ j) :
    (nameTable (files.take i)).length ≤ (nameTable (files.take j)).length ∧
      (dataArea (files.take i)).length ≤ (dataArea (files.take j)).length := by
  obtain ⟨k, rfl⟩ := Nat.exists_eq_add_of_le h
  rw [List.take_add, nameTable_append, dataArea_append, List.length_append, List.length_append]
  exact ⟨Nat.le_add_right .., Nat.le_add_right ..⟩

theorem split_at {i : Nat} (hi : i < files.length) :
    files = files.take i ++ files[i] :: files.drop (i + 1) ∧ (files.take i).length = i := by
  refine ⟨?_, List.length_take_of_le hi.le⟩
  rw [List.getElem_cons_drop, List.take_append_drop]

/-- the slices of an entry end where those of a later one can begin -/
theorem entryBefore_of_lt {i j : Nat} (hij : i < j) (hj : j < files.length)
    (hn : (nameTable files).length ≤ MAX_NAMES) (hsec : SectionsOf files image)
    (h : mkinitram files = some image) : EntryBefore image i j := by
  have hi : i < files.length := Nat.lt_trans hij hj
  obtain ⟨hsi, hleni⟩ := split_at hi
  obtain ⟨hsj, hlenj⟩ := split_at hj
  have hei := imageEntry_split hsi hn hsec h
  have hej := imageEntry_split hsj hn hsec h
  rw [hleni] at hei
  rw [hlenj] at hej
  obtain ⟨hnames, hdata⟩ := @tables_le files (i + 1) j hij
  rw [List.take_succ_eq_append_getElem hi] at hnames hdata
  rw [nameTable_append, List.length_append, nameTable_cons] at hnames
  rw [dataArea_append, List.length_append, dataArea_cons] at hdata
  constructor
  · rw [hei, hej]
    simp only [entryAfter]
    omega
  · rw [hei, hej]
    simp only [entryAfter]
    omega

end

/-! ## the image -/

/-- **`mkinitram` writes a well formed image** of every list of files that fits its two tables, unless
the data has more bytes than a size can count. -/
theorem mkinitram_image (files : List InitRamFile) (hc : files.length ≤ MAX_ENTRIES)
    (h0 : ∀ f ∈ files, 0 ∉ f.name) (hn : (nameTable files).length ≤ MAX_NAMES) :
    match mkinitram files with
    | some image => ImageOf files image
    | none => 2^64 ≤ (dataArea files).length := by
  cases h : mkinitram files with
  | none =>
    by_contra hd
    obtain ⟨rd, hrd⟩ := addFiles_isSome [] files hc hn (Nat.lt_of_not_le hd)
    rw [mkinitram, ← built_nil, hrd] at h
    cases h
  | some image =>
    have hsec := sections_built hc hn h
    refine ⟨hsec, fun i hi => ?_, fun i j hij hj => entryBefore_of_lt hij hj hn hsec h⟩
    obtain ⟨hs, hlen⟩ := split_at hi
    have hent := entryOf_split hs (h0 _ (List.getElem_mem hi)) hn hsec h
    rwa [hlen] at hent

/-- the images of two files -/
theorem mkinitram_image_two :
    match mkinitram twoFiles with
    | some image => ImageOf twoFiles image
    | none => 2^64 ≤ (dataArea twoFiles).length :=
  mkinitram_image twoFiles (by decide) (by decide) (by decide)

end FuseeOS
