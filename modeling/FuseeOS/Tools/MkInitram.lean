import FuseeOS.Lib.Bytes

/-!
# The initial ramdisk builder

`tools/mkinitram.c`: `addFile` appends a name to the name table, an entry to the entry table and
the contents to the data; `saveInitram` writes header, names, entries and data one behind the
other.

* `mkinitram files` is the image of a list of files;
* `addFiles_built`: the disk after a list of files in closed form (`built`);
* `mkinitram_isSome`: every list of files that fits the tables (`FilesOk`) has an image;
* **`image_eq`**: the image is header, names, entries and data of the closed form.
-/

namespace FuseeOS
open Bytes

/-- magic, then seven `uint64_t` -/
structure InitRamHeader where
  magic : List UInt8
  fhCnt : Nat
  fhOff : Nat
  fhSize : Nat
  shOff : Nat
  shSize : Nat
  dataOff : Nat
  dataSize : Nat
deriving DecidableEq, Repr

structure InitRamFileEntry where
  nameOff : Nat
  nameSize : Nat
  dataOff : Nat
  dataSize : Nat
deriving DecidableEq, Repr

/-- the `entries` and `names` of a disk are allocated once, with 256 entries and 4096 bytes -/
structure InitRamDisk where
  header : InitRamHeader
  entries : List InitRamFileEntry
  names : List UInt8
  data : List UInt8
deriving DecidableEq, Repr

/-- a name without its terminating NUL, and the contents of the file at the path -/
structure InitRamFile where
  name : List UInt8
  content : List UInt8
deriving DecidableEq, Repr

def INITRAM_MAGIC : List UInt8 := [73, 78, 73, 84, 82, 65, 77, 127]

def HEADER_SIZE : Nat := 64
def ENTRY_SIZE : Nat := 32
def MAX_ENTRIES : Nat := 256
def MAX_NAMES : Nat := 4096

def initInitram : InitRamDisk where
  header := ⟨INITRAM_MAGIC, 0, 0, 0, 0, 0, 0, 0⟩
  entries := List.replicate MAX_ENTRIES ⟨0, 0, 0, 0⟩
  names := List.replicate MAX_NAMES 0
  data := []

/-- `memcpy` into a buffer -/
def overwrite (buf : List UInt8) (off : Nat) (l : List UInt8) : List UInt8 :=
  buf.take off ++ l ++ buf.drop (off + l.length)

/-- `none` where the C code writes behind one of its two tables, or where `realloc` cannot
succeed because the size has no 64-bit value -/
def addFile (rd : InitRamDisk) (f : InitRamFile) : Option InitRamDisk :=
  let h := rd.header
  if MAX_ENTRIES ≤ h.fhCnt ∨ MAX_NAMES < h.shSize + (f.name.length + 1) then none
  else if 2^64 ≤ h.dataSize + f.content.length then none
  else
    some {
      header := { h with
        fhCnt := h.fhCnt + 1
        fhSize := h.fhSize + ENTRY_SIZE
        shSize := h.shSize + (f.name.length + 1)
        dataSize := h.dataSize + f.content.length }
      entries := rd.entries.set h.fhCnt
        ⟨h.shSize, f.name.length, h.dataSize, f.content.length⟩
      names := overwrite rd.names h.shSize (f.name ++ [0])
      data := rd.data.take h.dataSize ++ f.content }

def InitRamHeader.bytes (h : InitRamHeader) : List UInt8 :=
  h.magic ++ (le 8 h.fhCnt ++ (le 8 h.fhOff ++ (le 8 h.fhSize ++ (le 8 h.shOff ++ (le 8 h.shSize
    ++ (le 8 h.dataOff ++ le 8 h.dataSize))))))

def InitRamFileEntry.bytes (e : InitRamFileEntry) : List UInt8 :=
  le 8 e.nameOff ++ (le 8 e.nameSize ++ (le 8 e.dataOff ++ le 8 e.dataSize))

/-- the three offsets that `save_initram` fills in -/
def InitRamHeader.placed (h : InitRamHeader) : InitRamHeader :=
  { h with
    shOff := HEADER_SIZE
    fhOff := (HEADER_SIZE + h.shSize) % 2^64
    dataOff := (HEADER_SIZE + h.shSize + h.fhSize) % 2^64 }

def saveInitram (rd : InitRamDisk) : List UInt8 :=
  let h := rd.header.placed
  h.bytes ++ (rd.names.take h.shSize ++ ((rd.entries.flatMap InitRamFileEntry.bytes).take h.fhSize
    ++ rd.data.take h.dataSize))

def addFiles (rd : InitRamDisk) : List InitRamFile → Option InitRamDisk
  | [] => some rd
  | f :: fs => (addFile rd f).bind fun rd => addFiles rd fs

/-- the image that the tool writes for a list of files -/
def mkinitram (files : List InitRamFile) : Option (List UInt8) :=
  (addFiles initInitram files).map saveInitram

/-! ## closed form -/

/-- the name table: every name with its NUL -/
def nameTable (files : List InitRamFile) : List UInt8 := files.flatMap fun f => f.name ++ [0]

def dataArea (files : List InitRamFile) : List UInt8 := files.flatMap InitRamFile.content

/-- the entries of a list of files whose names and data start at the given offsets -/
def entryTable : Nat → Nat → List InitRamFile → List InitRamFileEntry
  | _, _, [] => []
  | n, d, f :: fs =>
    ⟨n, f.name.length, d, f.content.length⟩
      :: entryTable (n + (f.name.length + 1)) (d + f.content.length) fs

/-- the disk after the given files -/
def built (files : List InitRamFile) : InitRamDisk where
  header := ⟨INITRAM_MAGIC, files.length, 0, ENTRY_SIZE * files.length, 0,
    (nameTable files).length, 0, (dataArea files).length⟩
  entries := entryTable 0 0 files ++ List.replicate (MAX_ENTRIES - files.length) ⟨0, 0, 0, 0⟩
  names := nameTable files ++ List.replicate (MAX_NAMES - (nameTable files).length) 0
  data := dataArea files

theorem nameTable_append (fs gs : List InitRamFile) :
    nameTable (fs ++ gs) = nameTable fs ++ nameTable gs := by
  simp [nameTable]

theorem dataArea_append (fs gs : List InitRamFile) :
    dataArea (fs ++ gs) = dataArea fs ++ dataArea gs := by
  simp [dataArea]

@[simp] theorem length_entryTable (n d : Nat) (fs : List InitRamFile) :
    (entryTable n d fs).length = fs.length := by
  induction fs generalizing n d with
  | nil => rfl
  | cons f fs ih => rw [entryTable, List.length_cons, ih, List.length_cons]

theorem entryTable_append (n d : Nat) (fs gs : List InitRamFile) :
    entryTable n d (fs ++ gs) = entryTable n d fs
      ++ entryTable (n + (nameTable fs).length) (d + (dataArea fs).length) gs := by
  induction fs generalizing n d with
  | nil => rfl
  | cons f fs ih =>
    rw [List.cons_append, entryTable, ih, entryTable, List.cons_append]
    congr 3
    · simp [nameTable]
      omega
    · simp [dataArea]
      omega

/-- writing behind the used part of a padded table extends the used part -/
theorem overwrite_padded (l r : List UInt8) {n : Nat} (h : l.length + r.length ≤ n) :
    overwrite (l ++ List.replicate (n - l.length) 0) l.length r
      = (l ++ r) ++ List.replicate (n - (l ++ r).length) 0 := by
  unfold overwrite
  rw [List.take_left' rfl, List.drop_append, List.drop_eq_nil_of_le (by omega), List.nil_append,
    List.drop_replicate, List.length_append]
  congr 2
  omega

theorem set_padded {β : Type} (l : List β) (x d : β) {n : Nat} (h : l.length < n) :
    (l ++ List.replicate (n - l.length) d).set l.length x
      = (l ++ [x]) ++ List.replicate (n - (l.length + 1)) d := by
  obtain ⟨k, hk⟩ : ∃ k, n - l.length = k + 1 := ⟨n - l.length - 1, by omega⟩
  have hk' : n - (l.length + 1) = k := by omega
  rw [hk, hk', List.replicate_succ, List.set_append_right _ _ (Nat.le_refl _), Nat.sub_self,
    List.set_cons_zero, List.append_assoc, List.singleton_append]

theorem addFile_built (fs : List InitRamFile) (f : InitRamFile) (rd : InitRamDisk)
    (h : addFile (built fs) f = some rd) : rd = built (fs ++ [f]) := by
  unfold addFile at h
  dsimp only at h
  split at h
  · cases h
  · next hroom =>
    split at h
    · cases h
    · have hc : fs.length < MAX_ENTRIES := by
        have := hroom
        simp only [built] at this
        omega
      have hn : (nameTable fs).length + (f.name ++ [0]).length ≤ MAX_NAMES := by
        have := hroom
        simp only [built] at this
        rw [List.length_append, List.length_singleton]
        omega
      have hnames := overwrite_padded (nameTable fs) (f.name ++ [0]) hn
      have hset := set_padded (entryTable 0 0 fs)
        ⟨(nameTable fs).length, f.name.length, (dataArea fs).length, f.content.length⟩
        (⟨0, 0, 0, 0⟩ : InitRamFileEntry) (n := MAX_ENTRIES) (by rwa [length_entryTable])
      have htab : nameTable (fs ++ [f]) = nameTable fs ++ (f.name ++ [0]) := by
        simp [nameTable]
      have hdata : dataArea (fs ++ [f]) = dataArea fs ++ f.content := by
        simp [dataArea]
      have hent : entryTable 0 0 (fs ++ [f]) = entryTable 0 0 fs
          ++ [⟨(nameTable fs).length, f.name.length, (dataArea fs).length, f.content.length⟩] := by
        simp [entryTable_append, entryTable]
      rw [length_entryTable] at hset
      cases h
      simp only [built, htab, hdata, hent, hnames, hset, List.take_length, List.length_append,
        List.length_singleton, ENTRY_SIZE, Nat.mul_add]

/-- the lists of files that fit the tables of `mkinitram` -/
structure FilesOk (files : List InitRamFile) : Prop where
  count : files.length ≤ MAX_ENTRIES
  nonempty : ∀ f ∈ files, f.name ≠ []
  noNul : ∀ f ∈ files, 0 ∉ f.name
  distinct : (files.map InitRamFile.name).Nodup
  names : (nameTable files).length ≤ MAX_NAMES

theorem addFiles_built (fs gs : List InitRamFile) (rd : InitRamDisk)
    (h : addFiles (built fs) gs = some rd) : rd = built (fs ++ gs) := by
  induction gs generalizing fs with
  | nil =>
    rw [addFiles, Option.some.injEq] at h
    rw [List.append_nil, h]
  | cons g gs ih =>
    rw [addFiles] at h
    obtain ⟨rd1, h1, h2⟩ := Option.bind_eq_some_iff.1 h
    rw [addFile_built fs g rd1 h1] at h2
    rw [ih (fs ++ [g]) h2, List.append_assoc, List.singleton_append]

theorem addFiles_isSome (fs gs : List InitRamFile) (hc : (fs ++ gs).length ≤ MAX_ENTRIES)
    (hn : (nameTable (fs ++ gs)).length ≤ MAX_NAMES) (hd : (dataArea (fs ++ gs)).length < 2^64) :
    ∃ rd, addFiles (built fs) gs = some rd := by
  induction gs generalizing fs with
  | nil => exact ⟨_, rfl⟩
  | cons g gs ih =>
    have hsplit : fs ++ g :: gs = (fs ++ [g]) ++ gs := by
      rw [List.append_assoc, List.singleton_append]
    have hstep : ∃ rd, addFile (built fs) g = some rd := by
      rw [hsplit, nameTable_append, nameTable_append, List.length_append,
        List.length_append] at hn
      rw [hsplit, dataArea_append, dataArea_append, List.length_append, List.length_append] at hd
      rw [List.length_append, List.length_cons] at hc
      simp only [nameTable, dataArea, List.flatMap_cons, List.flatMap_nil, List.append_nil,
        List.length_append, List.length_singleton] at hn hd
      refine ⟨_, (if_neg ?_).trans ((if_neg ?_).trans rfl)⟩
      · simp only [built, nameTable]
        omega
      · simp only [built, dataArea]
        omega
    obtain ⟨rd, hrd⟩ := hstep
    rw [hsplit] at hc hn hd
    obtain ⟨rd', hrd'⟩ := ih (fs ++ [g]) hc hn hd
    refine ⟨rd', ?_⟩
    rw [addFiles, hrd, Option.bind_some, addFile_built fs g rd hrd, hrd']

theorem built_nil : built [] = initInitram := rfl

theorem length_entry_bytes (e : InitRamFileEntry) : e.bytes.length = ENTRY_SIZE := by
  simp [InitRamFileEntry.bytes, ENTRY_SIZE]

theorem length_entries_bytes (es : List InitRamFileEntry) :
    (es.flatMap InitRamFileEntry.bytes).length = ENTRY_SIZE * es.length := by
  induction es with
  | nil => rfl
  | cons e es ih =>
    rw [List.flatMap_cons, List.length_append, length_entry_bytes, ih, List.length_cons]
    ring

/-- an image is made of every list of files that fits -/
theorem mkinitram_isSome {files : List InitRamFile} (h : FilesOk files)
    (hd : (dataArea files).length < 2^64) : ∃ image, mkinitram files = some image := by
  obtain ⟨rd, hrd⟩ := addFiles_isSome [] files h.count h.names hd
  refine ⟨saveInitram rd, ?_⟩
  rw [mkinitram, ← built_nil, hrd, Option.map_some]

/-- **the image of a list of files** -/
theorem image_eq {files : List InitRamFile} {image : List UInt8}
    (h : mkinitram files = some image) :
    image = (built files).header.placed.bytes ++ (nameTable files
      ++ ((entryTable 0 0 files).flatMap InitRamFileEntry.bytes ++ dataArea files)) := by
  obtain ⟨rd, hrd, rfl⟩ := Option.map_eq_some_iff.1 h
  rw [← built_nil] at hrd
  rw [addFiles_built [] files rd hrd, List.nil_append]
  have hsize : ((entryTable 0 0 files).flatMap InitRamFileEntry.bytes).length
      = ENTRY_SIZE * files.length := by
    rw [length_entries_bytes, length_entryTable]
  unfold saveInitram
  dsimp only [built, InitRamHeader.placed]
  rw [List.take_left' rfl, List.flatMap_append, List.take_left' hsize, List.take_length]

theorem length_header_bytes (files : List InitRamFile) :
    (built files).header.placed.bytes.length = HEADER_SIZE := by
  simp [InitRamHeader.bytes, InitRamHeader.placed, built, INITRAM_MAGIC, HEADER_SIZE]

theorem length_image {files : List InitRamFile} {image : List UInt8}
    (h : mkinitram files = some image) : image.length = HEADER_SIZE + ((nameTable files).length
      + (ENTRY_SIZE * files.length + (dataArea files).length)) := by
  rw [image_eq h, List.length_append, List.length_append, List.length_append,
    length_header_bytes, length_entries_bytes, length_entryTable]

end FuseeOS
