import FuseeOS.Boot.LoaderFiles

/-!
# The bootloader, from the disk to the kernel

`bmain` maps the low memory in place, reads the ramdisk from the volume to the upper half, and loads the
kernel from the ramdisk.

* `elfLoadAt_kept`        `elf_load` leaves the low half alone;
* `initramInit_spec`      `initram_init` puts the file `boot/initram` of the volume at `INITRAM_ADDR`;
* `elfLoad_ramdisk`       `elf_load` finds the kernel there;
* **`bmain_loads`**       from the files that the tools were given to the image of the kernel.
-/

namespace FuseeOS
open Bytes Radix BootMemRegion Outcome

/-! ## the code -/

/-- `(void*)(-0x100000000)` -/
abbrev INITRAM_ADDR : Nat := 0xffffffff00000000

/-- `"boot"` -/
def bootName : List UInt8 := [98, 111, 111, 116]

/-- `"initram"` -/
def initramName : List UInt8 := [105, 110, 105, 116, 114, 97, 109]

/-- `"/boot/kernel"` -/
def kernelName : List UInt8 := [47, 98, 111, 111, 116, 47, 107, 101, 114, 110, 101, 108]

section
variable (disk : Loader → Nat → Nat → Nat → Except LoadStop Loader) (gMetadata gPages : Nat)

/-- `initram_init`, with the size of the ramdisk -/
def Loader.initramInit (m : Loader) (rounds : Nat) : Except LoadStop (Nat × Loader) := do
  let (inode, m) ← m.mfsLookupRoot disk gPages gMetadata bootName rounds
  let (inode, m) ← m.mfsLookupAt disk gPages inode initramName rounds
  let m := { m with initram := INITRAM_ADDR }
  let (size, m) ← m.mfsFileSize disk gPages inode
  let m ← m.valloc m.initram size
  let m ← m.mfsRead disk gPages m.initram inode
  return (size, m)

/-- what `bmain` leaves to the kernel -/
structure BootResult where
  entry : Nat
  initramSize : Nat
  boot : BootParams
  loader : Loader

/-- `bmain` from `memory_detect` on; `name` is the address of `"/boot/kernel"` -/
def bmain (replies : List E820Reply) (e : EarlyLoader) (name rounds : Nat) : Except LoadStop BootResult :=
  (memoryDetect replies).elim (.error .undefined) fun boot => do
    let e ← EarlyLoader.memoryIdentityMap { e with memFree := boot.memFree }
    let m ← e.toLoader.mfsInit disk gMetadata
    let (size, m) ← m.initramInit disk gMetadata gPages rounds
    let (entry, m) ← m.elfLoad name
    return ⟨entry, size, boot, m⟩

end

/-! ## `elf_load` and the low half -/

section
variable {us : List BootMemRegion} {m m' m₁ : Loader} {base : Nat} {file : List UInt8}

/-- `memcpy` to the upper half, if it has a result -/
theorem memcpy_kept {dst src n : Nat} (h : LoaderOk us m) (hdst : ∀ i < n, upperHalf (dst + i)) :
    Ends (fun _ => True) (LoaderKeeps us m) (m.memcpy dst src n) := by
  induction n generalizing m dst src with
  | zero => exact Ends.of_ok ⟨h, TreeKept.refl m⟩
  | succ n ih =>
    rw [Loader.memcpy]
    cases hb : (m.load src).bind fun b => m.storeByte dst b with
    | none => exact Ends.of_error trivial
    | some m₁ =>
      obtain ⟨b, -, hstore⟩ := Option.bind_eq_some_iff.mp hb
      have hup : upperHalf dst := hdst 0 (Nat.succ_pos n)
      have hmap : (m.load dst).isSome := by
        unfold Loader.storeByte at hstore
        unfold Loader.load
        rw [Option.isSome_map]
        obtain ⟨p, hp, -⟩ := Option.map_eq_some_iff.mp hstore
        rw [hp]
        rfl
      obtain ⟨m₁', hrun, hkeeps, -⟩ := storeByte_upper h hup hmap b
      obtain rfl : m₁ = m₁' := Option.some.inj (hstore.symm.trans hrun)
      refine (ih hkeeps.1 fun i hi => ?_).mono (fun _ hs => hs) fun m' g => hkeeps.trans g
      rw [Nat.add_assoc, Nat.add_comm 1 i]
      exact hdst (i + 1) (by omega)

/-- a header whose pages lie in the upper half -/
theorem valloc_segment_kept {h : Elf64Phdr} (hm : LoaderOk us m) (hlt : h.vaddr < 2^64)
    (hup : h.pages ≠ 0 → 2^64 - 2^47 ≤ h.vaddr ∧ h.vaddr + h.memsz ≤ 2^64)
    (hint : h.Counted) :
    Ends (fun _ => True) (LoaderKeeps us m) (m.valloc h.vaddr h.memsz) := by
  by_cases h0 : h.pages = 0
  · rw [valloc_none h0]
    exact Ends.of_ok ⟨hm, TreeKept.refl m⟩
  · obtain ⟨hlow, hupto⟩ := hup h0
    exact (valloc_kept hm ⟨hlow, hupto, hlt, hint.int h0⟩).mono (fun _ _ => trivial) fun m' g => g.2

/-- a reason to stop, and the low half if the run goes on -/
theorem Ends.kept {α : Type} {S : LoadStop → Prop} {Q Q' : α → Prop} {r : Except LoadStop α} (h : Ends S Q r)
    (h' : Ends (fun _ => True) Q' r) : Ends S (fun x => Q x ∧ Q' x) r :=
  (h.and h').mono (fun _ hs => hs.1) fun _ hx => hx

/-- **One header.** -/
theorem loadSegment_kept {p : Nat} (hm : LoaderOk us m) (hf : m.Holds base file)
    (hp : p + PHDR_SIZE ≤ file.length) (hok : (phdrAt file p).Ok file)
    (hint : (phdrAt file p).Counted)
    (hclear : ∀ i < file.length, ¬ (phdrAt file p).Touches ((base + i) / 4096)) :
    Ends (fun _ => True) (LoaderKeeps us m) (m.loadSegment base (base + p)) := by
  obtain ⟨h, hh⟩ : ∃ h, h = phdrAt file p := ⟨_, rfl⟩
  unfold PHDR_SIZE at hp
  have hvaddr : m.read (base + p + 16) 8 = .ok h.vaddr := by
    rw [Nat.add_assoc, hf.read (by omega), hh]
    rfl
  have hmemsz : m.read (base + p + 40) 8 = .ok h.memsz := by
    rw [Nat.add_assoc, hf.read (by omega), hh]
    rfl
  have hlt : h.vaddr < 2^64 := by
    rw [hh]
    exact fieldAt_lt file (p + 16) 8
  rw [← hh] at hok hint hclear
  unfold Loader.loadSegment
  refine Ends.bind_of_eq hvaddr (Ends.bind_of_eq hmemsz ?_)
  refine ((valloc_segment hm.toLoaderInv hlt hok.upper hint).and (valloc_segment_kept hm hlt hok.upper hint)).mono
    (fun _ _ => trivial) (fun _ hx => hx) |>.bind ?_
  rintro m₁ ⟨⟨hm₁, -, hload⟩, hkeeps⟩
  have hf₁ : m₁.Holds base file := hf.congr fun i hi => by
    rw [hload _ (hf i hi).1, if_neg (hclear i hi)]
  have hoffset : m₁.read (base + p + 8) 8 = .ok h.offset := by
    rw [Nat.add_assoc, hf₁.read (by omega), hh]
    rfl
  have hfilesz : m₁.read (base + p + 32) 8 = .ok h.filesz := by
    rw [Nat.add_assoc, hf₁.read (by omega), hh]
    rfl
  refine Ends.bind_of_eq hoffset (Ends.bind_of_eq hfilesz ?_)
  exact (memcpy_kept hkeeps.1 fun i hi => hok.upperHalf hint hi).mono (fun _ hs => hs) fun m' g => hkeeps.trans g

/-- **The loop of `elf_load`.** -/
theorem loadSegments_kept (hok : ElfOk file) (hl : Loadable base file) {i n : Nat} (hm : LoaderOk us m)
    (hf : m.Holds base file) :
    Ends (fun _ => True) (LoaderKeeps us m) (m.loadSegments base (base + fieldAt file 32 8) i n) := by
  have hheader := hok.header
  unfold EHDR_SIZE at hheader
  induction n generalizing m i with
  | zero => exact Ends.of_ok ⟨hm, TreeKept.refl m⟩
  | succ n ih =>
    rw [Loader.loadSegments]
    refine Ends.bind_of_eq (hf.read (by omega)) ?_
    by_cases hi : i < fieldAt file 56 2
    · rw [if_pos hi, Nat.add_assoc]
      obtain ⟨p, hp⟩ : ∃ p, p = fieldAt file 32 8 + PHDR_SIZE * i := ⟨_, rfl⟩
      have hmem : phdrAt file p ∈ phdrs file := by
        rw [hp]
        exact List.mem_map.mpr ⟨i, List.mem_range.mpr hi, rfl⟩
      have hin : p + PHDR_SIZE ≤ file.length := by
        have htable := hok.table
        unfold PHDR_SIZE at htable hp ⊢
        omega
      rw [← hp]
      have hspec := loadSegment_spec hm.toLoaderInv hf hin (hok.segments _ hmem) (hl.int _ hmem) (hl.clear _ hmem)
      have hkept := loadSegment_kept hm hf hin (hok.segments _ hmem) (hl.int _ hmem) (hl.clear _ hmem)
      refine (hspec.and hkept).mono (fun _ _ => trivial) (fun _ hx => hx) |>.bind ?_
      rintro m₁ ⟨g, hkeeps⟩
      exact (ih hkeeps.1 g.holds).mono (fun _ hs => hs) fun m' g' => hkeeps.trans g'
    · rw [if_neg hi]
      exact Ends.of_ok ⟨hm, TreeKept.refl m⟩

/-- **`elf_load` leaves the low half alone.** -/
theorem elfLoadAt_kept (hok : ElfOk file) (hl : Loadable base file) (hm : LoaderOk us m) (hf : m.Holds base file) :
    Ends (Short m (4 * pagesOfAll (phdrs file)))
      (fun x => (x.1 = fieldAt file 24 8 ∧
        Behind us base file (pagesOfAll (phdrs file)) ((phdrs file).foldl (placed file) m.load) m x.2) ∧
        LoaderKeeps us m x.2) (m.elfLoadAt base) := by
  have hheader := hok.header
  have hcount : fieldAt file 56 2 < 0 + 2^16 := by
    have hlt := fieldAt_lt file 56 2
    omega
  unfold EHDR_SIZE at hheader
  refine Ends.kept (elfLoadAt_spec hok hl hm.toLoaderInv hf) ?_
  unfold Loader.elfLoadAt
  refine Ends.bind_of_eq (hf.read (by omega)) ?_
  refine ((loadSegments_spec hok hl hcount hm.toLoaderInv hf).and (loadSegments_kept hok hl hm hf)).mono
    (fun _ _ => trivial) (fun _ hx => hx) |>.bind ?_
  rintro m' ⟨g, hkeeps⟩
  exact Ends.bind_of_eq (g.holds.read (by omega)) (Ends.of_ok hkeeps)

end

/-! ## what the disk writes -/

/-- what the disk writes does not depend on the memory, and lies in the sectors that it was asked for -/
def DiskOverlays (disk : (Nat → UInt8) → Nat → Nat → Nat → (Nat → UInt8)) : Prop :=
  ∀ dst lba sectors, ∃ f : Nat → Option UInt8, (∀ a, a < dst ∨ dst + 512 * sectors ≤ a → f a = none) ∧
    ∀ mem a, disk mem dst lba sectors a = (f a).getD (mem a)

theorem store_overlay (mem : Nat → UInt8) (dst : Nat) (l : List UInt8) (a : Nat) :
    store mem dst l a = (if dst ≤ a then l[a - dst]? else none).getD (mem a) := by
  unfold store
  split_ifs <;> rfl

/-- whatever the BIOS returns -/
theorem diskLoop_overlays (bios : Bios) (bootDrive buffer dap : Nat) (dst lba sectors : Nat) :
    ∃ f : Nat → Option UInt8, (∀ a, a < dst ∨ dst + 512 * sectors ≤ a → f a = none) ∧
      ∀ mem a, diskLoop bios bootDrive buffer dap mem dst lba sectors a = (f a).getD (mem a) := by
  induction sectors using Nat.strong_induction_on generalizing dst lba with
  | _ sectors ih =>
    by_cases h0 : sectors = 0
    · refine ⟨fun _ => none, fun _ _ => rfl, fun mem a => ?_⟩
      rw [diskLoop, dif_pos h0]
      rfl
    · generalize hn : (if sectors > 8 then 8 else sectors) = n
      have hle : n ≤ sectors ∧ 1 ≤ n := by
        rw [← hn]
        split <;> omega
      obtain ⟨f, hout, hf⟩ := ih (sectors - n) (by omega) (dst + n * 512) ((lba + n) % 2^64)
      obtain ⟨read, hread⟩ : ∃ read, read = (bios ⟨0x4200, bootDrive, dap % 2^32, 0⟩
          ⟨16, 0, n, buffer % 2^16, 0, lba &&& 0xffffffff, lba >>> 32⟩).take (n * 512) := ⟨_, rfl⟩
      have hlen : read.length ≤ n * 512 := by
        rw [hread]
        exact List.length_take_le _ _
      refine ⟨fun a => (f a).or (if dst ≤ a then read[a - dst]? else none), fun a ha => ?_, fun mem a => ?_⟩
      · have hnone : (if dst ≤ a then read[a - dst]? else none) = none := by
          split_ifs with hge
          · exact List.getElem?_eq_none (by omega)
          · rfl
        show (f a).or _ = none
        rw [hout a (by omega), hnone, Option.or_none]
      · rw [diskLoop, dif_neg h0]
        dsimp only
        rw [hn, ← hread, hf, store_overlay]
        cases f a <;> rfl

theorem diskReadRaw_overlays (bios : Bios) (bootDrive buffer dap : Nat) (part : BootPartitionRecord) :
    DiskOverlays (diskReadRaw bios bootDrive buffer dap part) :=
  fun dst lba sectors => diskLoop_overlays bios bootDrive buffer dap dst ((lba + part.lbaStart) % 2^64) sectors

section
variable {disk : (Nat → UInt8) → Nat → Nat → Nat → (Nat → UInt8)} {gPages inode a : Nat} {mem : Nat → UInt8}

theorem mfsReadPage_within (hd : DiskOverlays disk) {page : Nat} (ha : a < page ∨ page + 4096 ≤ a) :
    mfsReadPage disk mem page inode a = mem a := by
  obtain ⟨f, hout, hf⟩ := hd page ((MFS_RESERVED_PAGES + inode) * 8 % 2^64) (MFS_PAGE_SIZE / 512)
  have hnone := hout a ha
  unfold mfsReadPage
  rw [hf, hnone, Option.getD_none]

theorem lookedUp_within (hd : DiskOverlays disk) (ha : a < gPages ∨ gPages + 4096 ≤ a) :
    lookedUp disk gPages mem inode a = mem a :=
  (mfsReadPage_within hd ha).trans (mfsReadPage_within hd ha)

/-- reading a page again changes nothing -/
theorem mfsReadPage_again (hd : DiskOverlays disk) (page : Nat) :
    mfsReadPage disk (mfsReadPage disk mem page inode) page inode = mfsReadPage disk mem page inode := by
  obtain ⟨f, -, hf⟩ := hd page ((MFS_RESERVED_PAGES + inode) * 8 % 2^64) (MFS_PAGE_SIZE / 512)
  funext a
  unfold mfsReadPage
  rw [hf, hf]
  cases f a <;> rfl

end

/-! ## the ramdisk -/

/-- where the variables of the bootloader lie: below the tables, and apart from each other -/
structure BootStatics (gMetadata gPages name : Nat) : Prop where
  pages : gPages + 4 * 4096 ≤ ALLOC_PAGE_LO
  metadata : gMetadata + 4096 ≤ ALLOC_PAGE_LO
  string : name + (kernelName.length + 1) ≤ ALLOC_PAGE_LO
  apart : gPages + 4 * 4096 ≤ gMetadata ∨ gMetadata + 4096 ≤ gPages
  pages_string : gPages + 4 * 4096 ≤ name ∨ name + (kernelName.length + 1) ≤ gPages
  metadata_string : gMetadata + 4096 ≤ name ∨ name + (kernelName.length + 1) ≤ gMetadata

/-- the addresses below the tables -/
def Below (a : Nat) : Prop := a < ALLOC_PAGE_LO

/-- and `n` pages of the ramdisk -/
def WithRamdisk (n a : Nat) : Prop := a < ALLOC_PAGE_LO ∨ INITRAM_ADDR ≤ a ∧ a < INITRAM_ADDR + 4096 * n

theorem below_storable : Storable Below := fun _ ha => .inl ha

theorem withRamdisk_storable {n : Nat} (hn : n ≤ 2^20) : Storable (WithRamdisk n) := fun a ha => by
  rcases ha with hlt | ⟨hlo, hhi⟩
  · exact .inl hlt
  · refine .inr ⟨?_, ?_⟩
    · unfold INITRAM_ADDR at hlo
      omega
    · unfold INITRAM_ADDR at hhi
      omega

section
variable {us : List BootMemRegion} {m m' : Loader} {mem : Nat → UInt8} {gMetadata gPages name : Nat}
  {disk : (Nat → UInt8) → Nat → Nat → Nat → (Nat → UInt8)} {ldisk : Loader → Nat → Nat → Nat → Except LoadStop Loader}
  {image : List UInt8}

/-- a field that the proofs do not look at -/
theorem LoaderOk.withInitram (h : LoaderOk us m) (a : Nat) : LoaderOk us { m with initram := a } :=
  ⟨⟨h.free, h.root, h.tree, h.used, h.entries⟩, h.low, h.only, h.inside, h.level, h.bases⟩

theorem Mirrors.withInitram {G : Nat → Prop} (h : Mirrors us G m mem) (a : Nat) :
    Mirrors us G { m with initram := a } mem := ⟨h.ok.withInitram a, h.load⟩

/-- the pages of the ramdisk are mapped: they show zeros -/
theorem Mirrors.valloced {n : Nat} (h : Mirrors us Below m mem) (hn : n ≤ 2^20)
    (g : Valloced us (INITRAM_ADDR / 4096) n m m') (k : LoaderKeeps us m m')
    (hzero : ∀ a, INITRAM_ADDR ≤ a → mem a = 0) : Mirrors us (WithRamdisk n) m' mem := by
  have hid : ALLOC_PAGE_LO = 0x100000 ∧ IDENTITY_END = 0x100000000 ∧ INITRAM_ADDR = 0xffffffff00000000 := ⟨rfl, rfl, rfl⟩
  refine ⟨k.1, fun a ha => ?_⟩
  rcases ha with hlt | ⟨hlo, hhi⟩
  · have hold := h.load a hlt
    rw [h.ok.load_low (by omega)] at hold
    rw [k.1.load_low (by omega), k.2.mem a hlt, hold]
  · rw [g.load h.ok.toLoaderInv ⟨by omega, by omega⟩, if_pos ⟨by omega, by omega⟩, hzero a hlo]

/-- an address in a page of a ramdisk of `n` bytes -/
def InRamdisk (n a : Nat) : Prop := INITRAM_ADDR ≤ a ∧ a < INITRAM_ADDR + 4096 * spanPages INITRAM_ADDR n

/-- what `initram_init` leaves -/
structure RamdiskLoaded (us : List BootMemRegion) (gPages : Nat) (image : List UInt8) (m m' : Loader) : Prop where
  ok : LoaderOk us m'
  initram : m'.initram = INITRAM_ADDR
  holds : m'.Holds INITRAM_ADDR image
  mem : ∀ a < ALLOC_PAGE_LO, a < gPages ∨ gPages + 4 * 4096 ≤ a → m'.mem a = m.mem a
  room : m.room ≤ m'.room + 4 * spanPages INITRAM_ADDR image.length
  entries : EntriesKept FREE_SCAN m.memFree m'.memFree
  shown : ∀ a, upperHalf a → (m'.load a).isSome → (m.load a).isSome ∨ InRamdisk image.length a

theorem spanPages_ramdisk (n : Nat) : spanPages INITRAM_ADDR n = (n + 4095) / 4096 := by
  have hal : INITRAM_ADDR % 4096 = 0 := rfl
  unfold spanPages
  rw [hal, Nat.zero_add]

/-- what the loader has below the tables -/
theorem Mirrors.mem_low {G : Nat → Prop} (h : Mirrors us G m mem) {a : Nat} (ha : a < ALLOC_PAGE_LO) (hG : G a) :
    m.mem a = mem a := by
  have hid : ALLOC_PAGE_LO = 0x100000 ∧ IDENTITY_END = 0x100000000 := ⟨rfl, rfl⟩
  have hload := h.load a hG
  rw [h.ok.load_low (by omega)] at hload
  exact Option.some.inj hload

theorem pagesRead_eq {n : Nat} (hn : n ≤ 2^31) : pagesRead n = (n + 4095) / 4096 := by
  unfold pagesRead MFS_PAGE_SIZE
  omega

/-- **`initram_init`.**  The disk is one that both models read alike; the file is delivered by the volume. -/
theorem initramInit_spec (hs : BootStatics gMetadata gPages name) (ho : DiskOverlays disk)
    (hd : ∀ G, Storable G → DiskMirrors us G disk ldisk) (h : Mirrors us Below m mem)
    (hzero : ∀ a, INITRAM_ADDR ≤ a → mem a = 0) (hlen : image.length ≤ 2^31)
    (hdel : Delivered disk gMetadata gPages mem [bootName, initramName] image) :
    ∃ rounds, Ends (Short m (4 * spanPages INITRAM_ADDR image.length))
      (fun x => x.1 = image.length ∧ RamdiskLoaded us gPages image m x.2)
      (m.initramInit ldisk gMetadata gPages rounds) := by
  have hid : ALLOC_PAGE_LO = 0x100000 ∧ IDENTITY_END = 0x100000000 ∧ INITRAM_ADDR = 0xffffffff00000000 := ⟨rfl, rfl, rfl⟩
  have hpages := hs.pages
  have hmeta := hs.metadata
  have hb : BuffersIn Below gPages := fun i hi => by
    unfold Below
    omega
  obtain ⟨rounds, inode, mem₂, hlook, hsize, hread⟩ := hdel
  -- the two names
  rw [lookupPath] at hlook
  obtain ⟨found, hboot, hlook⟩ := Option.bind_eq_some_iff.mp hlook
  rw [lookupNames] at hlook
  obtain ⟨found', hfile, hlook⟩ := Option.bind_eq_some_iff.mp hlook
  rw [lookupNames] at hlook
  obtain ⟨rfl, rfl⟩ := Prod.mk.inj (Option.some.inj hlook)
  have hroot : m.read (gMetadata + Mfs.root) 8 = .ok (readLe mem (gMetadata + Mfs.root) 8) := by
    refine h.read fun i hi => ?_
    have hoff : Mfs.root + 8 ≤ 4096 := by decide
    unfold Below
    omega
  obtain ⟨m₁, hrun₁, g₁⟩ := mfsLookupAt_mirrors (hd _ below_storable) hb h hboot
  obtain ⟨m₂, hrun₂, g₂⟩ := mfsLookupAt_mirrors (hd _ below_storable) hb g₁.mirrors hfile
  obtain ⟨m₃, hrun₃, g₃⟩ := mfsFileSize_mirrors (hd _ below_storable) hb (g₂.mirrors.withInitram INITRAM_ADDR) found'
  have g₁₂ := g₁.trans g₂
  have hkept : ∀ a, a < gPages ∨ gPages + 4 * 4096 ≤ a →
      lookedUp disk gPages (lookedUp disk gPages mem (readLe mem (gMetadata + Mfs.root) 8)) found a = mem a :=
    fun a ha => (lookedUp_within ho (by omega)).trans (lookedUp_within ho (by omega))
  generalize lookedUp disk gPages (lookedUp disk gPages mem (readLe mem (gMetadata + Mfs.root) 8)) found = μ₂ at *
  have hagain : (mfsFileSize disk gPages (mfsFileSize disk gPages μ₂ found').2 found').1 = image.length := by
    rw [← hsize]
    exact congrArg (fun mem => readLe mem (gPages + Mfs.size) 8) (mfsReadPage_again ho gPages)
  have hkept₃ : ∀ a, a < gPages ∨ gPages + 4 * 4096 ≤ a → (mfsFileSize disk gPages μ₂ found').2 a = mem a :=
    fun a ha => (mfsReadPage_within ho (by omega)).trans (hkept a ha)
  generalize (mfsFileSize disk gPages μ₂ found').2 = μ₃ at *
  have hinitram : m₃.initram = INITRAM_ADDR := g₃.initram
  have hroom : m₃.room = m.room := by
    unfold Loader.room
    rw [g₃.memFree]
    exact congrArg roomOf g₁₂.memFree
  have hspan := spanPages_ramdisk image.length
  have hrange : VallocRange INITRAM_ADDR image.length := ⟨by decide, by omega, by decide, by omega⟩
  have e₁ : m.mfsLookupRoot ldisk gPages gMetadata bootName rounds = .ok (found, m₁) := by
    unfold Loader.mfsLookupRoot
    rw [hroot, ok_then]
    exact hrun₁
  refine ⟨rounds, ?_⟩
  unfold Loader.initramInit
  refine Ends.bind_of_eq e₁ (Ends.bind_of_eq hrun₂ (Ends.bind_of_eq hrun₃ ?_))
  dsimp only
  rw [hinitram, hsize]
  refine ((valloc_kept g₃.mirrors.ok hrange).mono (fun s hs => ⟨hs.1, hroom ▸ hs.2⟩) fun _ hx => hx).bind ?_
  rintro m₄ ⟨gv, gk⟩
  have hn : spanPages INITRAM_ADDR image.length ≤ 2^20 := by omega
  have h₄ : Mirrors us (WithRamdisk (spanPages INITRAM_ADDR image.length)) m₄ μ₃ :=
    g₃.mirrors.valloced hn gv gk fun a ha => (hkept₃ a (by omega)).trans (hzero a ha)
  have hdst : INITRAM_ADDR + 4096 * ((image.length + 4095) / 4096) ≤ gPages ∨ gPages + 2 * 4096 ≤ INITRAM_ADDR :=
    .inr (by omega)
  obtain ⟨l, hl, htake, hto⟩ := hread INITRAM_ADDR hdst
  have hb₄ : BuffersIn (WithRamdisk (spanPages INITRAM_ADDR image.length)) gPages := fun i hi => .inl (hb i hi)
  have hto₄ : ∀ k < 4096 * pagesRead (mfsFileSize disk gPages μ₃ found').1,
      WithRamdisk (spanPages INITRAM_ADDR image.length) (INITRAM_ADDR + k) := fun k hk => by
    rw [hagain, pagesRead_eq hlen] at hk
    exact .inr ⟨by omega, by omega⟩
  obtain ⟨m₅, hrun₅, g₅⟩ := mfsRead_mirrors (hd _ (withRamdisk_storable hn)) hb₄ h₄ hto₄
  have hinitram₄ : m₄.initram = INITRAM_ADDR := gv.initram.trans hinitram
  rw [← hinitram₄] at hrun₅
  refine Ends.bind_of_eq hrun₅ (Ends.of_ok ⟨rfl, g₅.mirrors.ok, g₅.initram.trans hinitram₄,
    fun i hi => ⟨⟨by omega, by omega⟩, ?_⟩, fun a ha hout => ?_, ?_, ?_, fun a ha hs => ?_⟩)
  · have hi' : i < l.length := by omega
    have hbyte : l[i] = image[i] := by
      have hget : (l.take image.length)[i]? = image[i]? := by rw [htake]
      rw [List.getElem?_take_of_lt hi, List.getElem?_eq_getElem hi', List.getElem?_eq_getElem hi] at hget
      exact Option.some.inj hget
    have hin : WithRamdisk (spanPages INITRAM_ADDR image.length) (INITRAM_ADDR + i) := .inr ⟨by omega, by omega⟩
    rw [g₅.mirrors.load _ hin, hto.copied i hi', hbyte]
  · rw [g₅.mirrors.mem_low ha (.inl ha), hto.kept a (.inl (by omega)) (by omega), hkept₃ a hout, h.mem_low ha ha]
  · have hsame : m₅.room = m₄.room := by
      unfold Loader.room
      rw [g₅.memFree]
    have hgrow := gv.room
    show m.room ≤ m₅.room + _
    omega
  · show EntriesKept FREE_SCAN m.memFree m₅.memFree
    rw [g₅.memFree, ← g₁₂.memFree, ← g₃.memFree]
    exact gk.2.entries
  · -- only `valloc` maps pages
    have hs₄ := (g₅.shown a ha).symm.trans hs
    rw [gv.load g₃.mirrors.ok.toLoaderInv ha] at hs₄
    split_ifs at hs₄ with hin
    · right
      unfold InRamdisk
      omega
    · left
      exact (g₁₂.shown a ha).symm.trans ((g₃.shown a ha).symm.trans hs₄)

end

/-! ## the kernel -/

/-- the first address that is `-2 GiB` or more -/
abbrev KERNEL_SPACE : Nat := 0xffffffff80000000

/-- every header with pages has them in the last 2 GiB, and no other one has something to load -/
structure InKernelSpace (file : List UInt8) : Prop where
  counted : ∀ h ∈ phdrs file, h.Counted
  space : ∀ h ∈ phdrs file, h.pages ≠ 0 → KERNEL_SPACE ≤ h.vaddr

section
variable {us : List BootMemRegion} {m m' : Loader} {base name : Nat} {file image : List UInt8}

theorem Elf64Phdr.Touches.pages {h : Elf64Phdr} {v : Nat} (ht : h.Touches v) : h.pages ≠ 0 := by
  unfold Elf64Phdr.Touches at ht
  omega

/-- the pages of the ramdisk are below those of the kernel -/
theorem InKernelSpace.not_touches (hk : InKernelSpace file) {a : Nat} (ha : a < KERNEL_SPACE) :
    ∀ h ∈ phdrs file, ¬ h.Touches (a / 4096) := by
  have hspace : KERNEL_SPACE = 0xffffffff80000000 := rfl
  intro h hmem ht
  have hlow := hk.space h hmem ht.pages
  have hle := ht.1
  omega

theorem InKernelSpace.loadable (hk : InKernelSpace file) (hbase : base + file.length ≤ KERNEL_SPACE) :
    Loadable base file where
  int := hk.counted
  clear h hmem i hi := hk.not_touches (by omega) h hmem

/-- what no header touches is shown as before -/
theorem placed_untouched {a : Nat} (h : ∀ h ∈ phdrs file, ¬ h.Touches (a / 4096)) (A : Nat → Option UInt8) :
    (phdrs file).foldl (placed file) A a = A a := by
  have hnone : lastTouch (phdrs file) (a / 4096) = none := by
    unfold lastTouch
    rw [List.find?_eq_none]
    intro g hg ht
    exact h g (List.mem_reverse.mp hg) (of_decide_eq_true ht)
  rw [placed_foldl, hnone]
  rfl

/-- the pages that a header touches are mapped -/
theorem page_touched (hok : ElfOk file) (hl : Loadable base file) (hm : LoaderInv us m) {A : Nat → Option UInt8}
    (hload : ∀ a, upperHalf a → m.load a = (phdrs file).foldl (placed file) A a) :
    ∀ h ∈ phdrs file, ∀ v, h.Touches v → (m.page v).isSome := by
  intro h hmem v hv
  have hpage : v * 4096 / 4096 = v := Nat.mul_div_cancel v (by decide)
  obtain ⟨hlow, hupto⟩ := (hok.segments h hmem).upper hv.pages
  have hup : upperHalf (v * 4096) := by
    have hcount : h.pages = spanPages h.vaddr h.memsz := vallocPages_eq ((hl.int h hmem).int hv.pages)
    unfold Elf64Phdr.Touches at hv
    rw [hcount] at hv
    unfold spanPages at hv
    exact ⟨by omega, by omega⟩
  obtain ⟨g, hg⟩ := lastTouch_isSome hmem hv
  have hshown := hload _ hup
  rw [placed_foldl, hpage, hg, hm.load hup, hpage] at hshown
  cases hp : m.page v with
  | none =>
    rw [hp] at hshown
    cases hshown
  | some f => rfl

/-- what `elf_load` leaves -/
structure KernelLoaded (us : List BootMemRegion) (image kernel : List UInt8) (m : Loader) (x : Nat × Loader) : Prop where
  entry : x.1 = fieldAt kernel 24 8
  keeps : LoaderKeeps us m x.2
  loaded : ImageLoaded kernel x.2 ↔ LastRight kernel
  ramdisk : x.2.Holds INITRAM_ADDR image
  pages : ∀ h ∈ phdrs kernel, ∀ v, h.Touches v → (x.2.page v).isSome
  room : m.room ≤ x.2.room + 4 * pagesOfAll (phdrs kernel)
  shown : ∀ a, upperHalf a → (x.2.load a).isSome → (m.load a).isSome ∨ ∃ h ∈ phdrs kernel, h.Touches (a / 4096)

/-- **`elf_load`** of the first entry of the ramdisk whose name `"/boot/kernel"` begins with -/
theorem elfLoad_ramdisk {files fs : List InitRamFile} {f : InitRamFile} (hfiles : FilesOk files)
    (himage : mkinitram files = some image) (hfirst : firstMatch kernelName files = some (f, fs))
    (hok : ElfOk f.content) (hk : InKernelSpace f.content) (hlen : image.length ≤ 2^31) (hm : LoaderOk us m)
    (hinitram : m.initram = INITRAM_ADDR) (hholds : m.Holds INITRAM_ADDR image) (hname : CString m.view name kernelName) :
    Ends (Short m (4 * pagesOfAll (phdrs f.content))) (KernelLoaded us image f.content m) (m.elfLoad name) := by
  have hid : INITRAM_ADDR = 0xffffffff00000000 ∧ KERNEL_SPACE = 0xffffffff80000000 := ⟨rfl, rfl⟩
  have hview : ∀ i (hi : i < image.length), m.view (INITRAM_ADDR + i) = image[i] := fun i hi => by
    rw [Loader.view, (hholds i hi).2, Option.getD_some]
  obtain ⟨data, hend, hdata, hlookup⟩ := initramLookup_eq hfiles himage ⟨hview, by omega⟩ hname
  obtain ⟨before, rfl, -, haddr⟩ := firstMatch_split hfirst 0
  rw [haddr, Option.map_some, Nat.zero_add] at hlookup
  have harea : dataArea (before ++ f :: fs) = dataArea before ++ (f.content ++ dataArea fs) :=
    dataArea_append before (f :: fs)
  have hsum : (dataArea (before ++ f :: fs)).length =
      (dataArea before).length + (f.content.length + (dataArea fs).length) := by
    rw [harea, List.length_append, List.length_append]
  have hsize := length_image himage
  rw [hsum] at hend hsize
  rw [harea] at hdata
  obtain ⟨-, hdata⟩ := holdsAt_append.mp hdata
  obtain ⟨hcontent, -⟩ := holdsAt_append.mp hdata
  obtain ⟨base, hbase⟩ : ∃ base, base = data + (dataArea before).length := ⟨_, rfl⟩
  rw [← hbase] at hlookup hcontent
  have hf : m.Holds base f.content := fun i hi => by
    obtain ⟨hup, hload⟩ := hholds (base + i - INITRAM_ADDR) (by omega)
    have hat : INITRAM_ADDR + (base + i - INITRAM_ADDR) = base + i := by omega
    have hbyte := hcontent i hi
    have hsame := hview (base + i - INITRAM_ADDR) (by omega)
    rw [hat] at hup hload hsame
    exact ⟨hup, by rw [hload, ← hbyte, hsame]⟩
  rw [Loader.elfLoad, hinitram, hlookup, Option.elim_some]
  have hbound : base + f.content.length ≤ KERNEL_SPACE := by omega
  have hloadable := hk.loadable hbound
  refine (elfLoadAt_kept hok hloadable hm hf).mono (fun _ hs => hs) fun x g => ?_
  obtain ⟨⟨hentry, hbehind⟩, hkeeps⟩ := g
  refine ⟨hentry, hkeeps, imageLoaded_iff hok hloadable hbehind.load, fun i hi => ?_,
    page_touched hok hloadable hbehind.inv hbehind.load, hbehind.room, fun a ha hs => ?_⟩
  · obtain ⟨hup, hload⟩ := hholds i hi
    refine ⟨hup, ?_⟩
    rw [hbehind.load _ hup, placed_untouched (hk.not_touches (by omega)), hload]
  · by_cases ht : ∃ h ∈ phdrs f.content, h.Touches (a / 4096)
    · exact .inr ht
    · rw [hbehind.load a ha, placed_untouched fun h hmem hno => ht ⟨h, hmem, hno⟩] at hs
      exact .inl hs

end

/-! ## the whole run -/

/-- the volume `v` is made of the files `vol`, with the ramdisk at `boot/initram` -/
structure BootVolume (size now : Nat) (vol : List (List UInt8 × List UInt8)) (v : MfsVolume) (image : List UInt8) :
    Prop where
  made : ((makeVolume size now).bind fun (_, v) => copyFiles v vol) = .ok ((), v)
  bound : size + 4095 < 2^31
  tree : FileTree vol
  room : HasRoom size vol
  exact : FirstExact (pathsOf (byPath vol))
  initram : ∃ f ∈ vol, components f.1 = [bootName, initramName] ∧ f.2 = image

/-- the ramdisk is made of `files`; the kernel is what a lookup of `"/boot/kernel"` finds first -/
structure BootRamdisk (files : List InitRamFile) (image kernel : List UInt8) : Prop where
  ok : FilesOk files
  made : mkinitram files = some image
  first : ∃ f fs, firstMatch kernelName files = some (f, fs) ∧ f.content = kernel
  elf : ElfOk kernel
  space : InKernelSpace kernel

/-- what the BIOS reports: disjoint ranges of whole pages -/
structure MemoryOk (replies : List E820Reply) : Prop extends UsableOk (usable replies) where
  whole : ∀ u ∈ usable replies, u.size % 4096 = 0

section
variable {size now : Nat} {vol : List (List UInt8 × List UInt8)} {v : MfsVolume} {image kernel mbr : List UInt8}
  {files : List InitRamFile} {replies : List E820Reply} {boot : BootParams} {bios : Bios}
  {bootDrive buffer dap gMetadata gPages name pml4 : Nat} {e : EarlyLoader}

/-- what `memory_detect` lists -/
theorem MemoryOk.free (h : MemoryOk replies) (hb : memoryDetect replies = some boot) :
    FreePages (usable replies) boot.memFree := by
  obtain ⟨boot', hb', htails⟩ := memoryDetect_tails h.toUsableOk
  obtain rfl : boot = boot' := Option.some.inj (hb.symm.trans hb')
  refine ⟨htails, fun f hf => ?_⟩
  by_cases h0 : f.size = 0
  · rw [h0]
  · have htail := htails.tail f hf h0
    obtain ⟨u, hu, -, hend⟩ := htail.of
    have hbase := h.aligned u hu
    have hsize := h.whole u hu
    have hf0 := htail.aligned
    omega

/-- whole pages -/
theorem BootVolume.stored (h : BootVolume size now vol v image) : v.size % 4096 = 0 ∧ 0 < v.size ∧ v.size < 2^31 := by
  have hroom := h.room
  have hbound := h.bound
  have hcopyable : Copyable (byPath vol ++ []) := by
    rw [List.append_nil]
    refine h.tree.copyable ?_
    unfold HasRoom at hroom
    omega
  obtain ⟨b, num, hcopy, htree⟩ := copyFiles_tree hcopyable h.tree.short h.exact
  obtain ⟨v', hv', hst, -⟩ := copied now hbound hcopy (by
    rw [htree.next]
    exact hroom)
  obtain rfl : v = v' := (Prod.mk.inj (Except.ok.inj (h.made.symm.trans hv'))).2
  exact hst.size

theorem MemoryOk.bases (h : MemoryOk replies) (hb : memoryDetect replies = some boot) : BasesOk boot.memFree := by
  have hfit : ([] ++ usable replies).length ≤ MAX_MEM_REGIONS := by
    have hcount := h.count
    rw [List.nil_append]
    unfold MAX_MEM_REGIONS
    omega
  obtain ⟨d, hd, hdet⟩ := @detectLoop_detects replies [] ⟨[], [], by decide, by decide⟩ ⟨rfl, rfl⟩ hfit
  rw [memoryDetect, hd, Option.map_some, Option.some.injEq] at hb
  intro f hf
  rw [← hb] at hf
  rcases List.mem_append.1 hf with hf | hf
  · rw [hdet.memFree, List.nil_append] at hf
    obtain ⟨u, hu, hc⟩ := List.mem_filterMap.1 hf
    have hshort := (clip_tail h.toUsableOk hu hc).1.short
    omega
  · rw [(List.mem_replicate.1 hf).2]
    decide

/-- the file is delivered, by the disk that has the image of the volume -/
theorem BootVolume.delivered (h : BootVolume size now vol v image) (hm : mbr.length = 512)
    (hbios : BiosReads (mkimage mbr v.bytes) bootDrive buffer dap bios) (mem₀ : Nat → UInt8) :
    Delivered (diskReadRaw bios bootDrive buffer dap (readRecord (((mkimage mbr v.bytes).drop 0x1be).take 16)))
      gMetadata gPages (FuseeOS.mfsInit (diskReadRaw bios bootDrive buffer dap
        (readRecord (((mkimage mbr v.bytes).drop 0x1be).take 16))) gMetadata mem₀) [bootName, initramName] image := by
  obtain ⟨v', hv', htrip⟩ := roundTrip_of_exact h.bound h.tree h.room h.exact
  obtain rfl : v = v' := (Prod.mk.inj (Except.ok.inj (h.made.symm.trans hv'))).2
  have hsize := h.stored
  have hlen : v.bytes.length = v.size := length_fetch ..
  have hrecord := (@mkimage_right _ v.bytes hm (by omega) (by omega)).record
  have hreads : DiskReads (diskReadRaw bios bootDrive buffer dap
      (readRecord (((mkimage mbr v.bytes).drop 0x1be).take 16))) v := by
    intro mem dst lba sectors hin
    rw [← hlen] at hin
    rw [← hrecord]
    exact mkimage_reads hm (List.ne_nil_of_length_pos (by omega)) (by omega) (by omega) hbios mem dst hin
  obtain ⟨f, hf, hpath, hcontent⟩ := h.initram
  have hdel := htrip _ hreads gMetadata gPages mem₀ _ (fun _ _ => rfl) f hf
  rwa [hpath, hcontent] at hdel

/-- the memory below the tables -/
def lowPart (mem : Nat → UInt8) : Nat → UInt8 := fun a => if a < ALLOC_PAGE_LO then mem a else 0

theorem lowPart_below {mem : Nat → UInt8} {a : Nat} (ha : a < ALLOC_PAGE_LO) : lowPart mem a = mem a := if_pos ha

theorem lowPart_above {mem : Nat → UInt8} {a : Nat} (ha : ALLOC_PAGE_LO ≤ a) : lowPart mem a = 0 :=
  if_neg (Nat.not_lt_of_le ha)

/-- what `bmain` leaves to the kernel -/
structure Started (boot : BootParams) (image kernel : List UInt8) (r : BootResult) : Prop where
  entry : r.entry = fieldAt kernel 24 8
  size : r.initramSize = image.length
  boot : r.boot = boot
  /-- the first four GiB are found in place -/
  low : ∀ va < IDENTITY_END, translate r.loader.words r.loader.cr3 va = some ⟨va, true, false, false⟩
  ramdisk : r.loader.Holds INITRAM_ADDR image
  kernel : ImageLoaded kernel r.loader ↔ LastRight kernel

/-- pages of free memory that `bmain` may take -/
def bmainPages (image kernel : List UInt8) : Nat :=
  1 + 4 * (spanPages INITRAM_ADDR image.length + pagesOfAll (phdrs kernel))

/-- its tables: the pages of the upper half that show are those of the ramdisk and of the kernel -/
structure TablesLeft (us : List BootMemRegion) (boot : BootParams) (image kernel : List UInt8) (r : BootResult) :
    Prop where
  ok : LoaderOk us r.loader
  pages : ∀ h ∈ phdrs kernel, ∀ v, h.Touches v → (r.loader.page v).isSome
  shown : ∀ a, upperHalf a → (r.loader.load a).isSome →
    InRamdisk image.length a ∨ ∃ h ∈ phdrs kernel, h.Touches (a / 4096)
  room : roomOf boot.memFree ≤ r.loader.room + bmainPages image kernel
  entries : EntriesKept FREE_SCAN boot.memFree r.loader.memFree

end

/-- the files that the tools are given, what they make, the BIOS, and the bootloader in its memory -/
structure BootSetting where
  size : Nat
  now : Nat
  vol : List (List UInt8 × List UInt8)
  files : List InitRamFile
  mbr : List UInt8
  volume : MfsVolume
  image : List UInt8
  kernel : List UInt8
  bios : Bios
  bootDrive : Nat
  buffer : Nat
  dap : Nat
  replies : List E820Reply
  boot : BootParams
  gMetadata : Nat
  gPages : Nat
  name : Nat
  pml4 : Nat
  start : EarlyLoader

namespace BootSetting
variable (b : BootSetting)

def disk : List UInt8 := mkimage b.mbr b.volume.bytes

/-- the record that the MBR passes on -/
def part : BootPartitionRecord := readRecord ((b.disk.drop 0x1be).take 16)

def run (rounds : Nat) : Except LoadStop BootResult :=
  bmain (fun m => m.diskReadRaw b.bios b.bootDrive b.buffer b.dap b.part) b.gMetadata b.gPages b.replies b.start
    b.name rounds

/-- the first entry of `mem_free` has fewer pages than the tables, the ramdisk and the kernel may need -/
def TooLittle (s : LoadStop) : Prop :=
  s = .noFrame ∧
    roomOf b.boot.memFree < 1 + 4 * (spanPages INITRAM_ADDR b.image.length + pagesOfAll (phdrs b.kernel))

structure Ok : Prop where
  volume : BootVolume b.size b.now b.vol b.volume b.image
  ramdisk : BootRamdisk b.files b.image b.kernel
  mbr : b.mbr.length = 512
  bios : BiosReads b.disk b.bootDrive b.buffer b.dap b.bios
  statics : BootStatics b.gMetadata b.gPages b.name
  memory : MemoryOk b.replies
  detected : memoryDetect b.replies = some b.boot
  first : FirstPage b.boot.memFree
  start : Bootstrapped b.pml4 b.start
  name : CString b.start.mem b.name kernelName

variable {b}

/-- `bmain`, from the disk with the image that the tools make of the files -/
theorem Ok.spec (h : b.Ok) : ∃ rounds, Ends b.TooLittle
    (fun r => Started b.boot b.image b.kernel r ∧ TablesLeft (usable b.replies) b.boot b.image b.kernel r)
    (b.run rounds) := by
  obtain ⟨hvol, hram, hm, hbios, hs, hmem, hb, hfirst, he, hname⟩ := h
  have hid : ALLOC_PAGE_LO = 0x100000 ∧ IDENTITY_END = 0x100000000 ∧ INITRAM_ADDR = 0xffffffff00000000 := ⟨rfl, rfl, rfl⟩
  have hmeta := hs.metadata
  have hstring := hs.string
  obtain ⟨f, fs, hfound, hkernel⟩ := hram.first
  have hlen : b.image.length ≤ 2^31 := by
    obtain ⟨g, hg, -, himage⟩ := hvol.initram
    rw [← himage]
    exact (hvol.tree.contents g hg).trans (by decide)
  -- the tables
  have hstart : EarlyStart (usable b.replies) b.pml4 { b.start with memFree := b.boot.memFree } :=
    ⟨⟨he.aligned, he.behind, he.mem, he.cpu, he.page⟩, hmem.free hb, hmem.bases hb⟩
  obtain ⟨-, e₁, hrun₁, g₁⟩ | ⟨hno, -⟩ := memoryIdentityMap_cases hstart
  swap
  · exact absurd hfirst hno
  have hroot := g₁.root
  have hhi : LOMEM_END = 0x1000000 := rfl
  have hroom₁ : roomOf b.boot.memFree ≤ e₁.room + 1 := g₁.room
  have hlow₁ : ∀ a < ALLOC_PAGE_LO, e₁.mem a = b.start.mem a := fun a ha => g₁.others a (.inl ha) (by omega)
  -- the metadata
  have h₁ : Mirrors (usable b.replies) Below e₁.toLoader (lowPart e₁.mem) := ⟨g₁.ok, fun a ha => by
    unfold Below at ha
    rw [g₁.ok.load_low (by omega), lowPart_below ha]⟩
  have ho := diskReadRaw_overlays b.bios b.bootDrive b.buffer b.dap b.part
  have hd : ∀ G, Storable G → DiskMirrors (usable b.replies) G (diskReadRaw b.bios b.bootDrive b.buffer b.dap b.part)
      (fun m => m.diskReadRaw b.bios b.bootDrive b.buffer b.dap b.part) := fun G hG =>
    diskReadRaw_mirrors hG b.bios b.bootDrive b.buffer b.dap b.part
  have hdel := @BootVolume.delivered _ _ _ _ _ _ _ _ b.buffer b.dap b.gMetadata b.gPages hvol hm hbios (lowPart e₁.mem)
  obtain ⟨m₂, hrun₂, g₂⟩ := hd Below below_storable e₁.toLoader (lowPart e₁.mem) b.gMetadata
    (MFS_METADATA_PAGE * 8) (MFS_PAGE_SIZE / 512) h₁ fun i hi => by
      have hi' : i < 4096 := hi
      unfold Below
      omega
  have houtside : ∀ a, a < b.gMetadata ∨ b.gMetadata + 4096 ≤ a →
      FuseeOS.mfsInit (diskReadRaw b.bios b.bootDrive b.buffer b.dap b.part) b.gMetadata (lowPart e₁.mem) a =
        lowPart e₁.mem a := fun a ha => by
    obtain ⟨f, hout, hf⟩ := ho b.gMetadata (MFS_METADATA_PAGE * 8) (MFS_PAGE_SIZE / 512)
    have hnone := hout a ha
    unfold FuseeOS.mfsInit
    rw [hf, hnone, Option.getD_none]
  obtain ⟨rounds, hinit⟩ := initramInit_spec hs ho hd g₂.mirrors (fun a ha => by
    have hout := houtside a (.inr (by omega))
    unfold FuseeOS.mfsInit at hout
    rw [hout, lowPart_above (by omega)]) hlen hdel
  have hroom₂ : m₂.room = e₁.room := by
    unfold Loader.room
    rw [g₂.memFree]
  refine ⟨rounds, ?_⟩
  unfold run bmain
  rw [hb, Option.elim_some]
  refine Ends.bind_of_eq hrun₁ (Ends.bind_of_eq hrun₂ ?_)
  -- the ramdisk
  refine (hinit.mono (fun s hstop => ⟨hstop.1, by
    have hshort := hstop.2
    omega⟩) fun _ hx => hx).bind fun x g₃ => ?_
  obtain ⟨n, m₃⟩ := x
  obtain ⟨rfl, g₃⟩ := g₃
  have hroom₃ : m₂.room ≤ m₃.room + 4 * spanPages INITRAM_ADDR b.image.length := g₃.room
  have hname₃ : CString m₃.view b.name kernelName := ⟨fun i hi => by
    rw [List.length_append, List.length_singleton] at hi
    have hbelow : b.name + i < ALLOC_PAGE_LO := by omega
    have hpages := hs.pages_string
    have hmetadata := hs.metadata_string
    rw [Loader.view, g₃.ok.load_low (by omega), Option.getD_some, g₃.mem _ hbelow (by omega),
      g₂.mirrors.mem_low hbelow hbelow]
    have hout := houtside (b.name + i) (by omega)
    unfold FuseeOS.mfsInit at hout
    rw [hout, lowPart_below hbelow, hlow₁ _ hbelow]
    exact hname.holds i (by rwa [List.length_append, List.length_singleton]), hname.noNul⟩
  -- the kernel
  have hload := elfLoad_ramdisk hram.ok hram.made hfound (hkernel ▸ hram.elf) (hkernel ▸ hram.space) hlen g₃.ok
    g₃.initram g₃.holds hname₃
  rw [hkernel] at hload
  refine (hload.mono (fun s hstop => ⟨hstop.1, by
      have hshort : m₃.room < 4 * pagesOfAll (phdrs b.kernel) := hstop.2
      omega⟩) fun _ hx => hx).bind fun x g₄ => ?_
  obtain ⟨entry, m₄⟩ := x
  have hroom₄ : m₃.room ≤ m₄.room + 4 * pagesOfAll (phdrs b.kernel) := g₄.room
  refine Ends.of_ok ⟨⟨g₄.entry, rfl, rfl, fun va hva => g₄.keeps.1.low.translate (by decide) hva, g₄.ramdisk,
    g₄.loaded⟩, g₄.keeps.1, g₄.pages, fun a ha hs => ?_, ?_, ?_⟩
  · -- nothing of the upper half is mapped at first
    have hnone : e₁.load a = none := by
      obtain ⟨hlo, hhi⟩ := ha
      unfold Loader.load Loader.addr
      rw [g₁.high a (by omega) (by omega)]
      rfl
    rcases g₄.shown a ha hs with hs | ht
    · rcases g₃.shown a ha hs with hs | hin
      · rw [g₂.shown a ha, hnone] at hs
        cases hs
      · exact .inl hin
    · exact .inr ht
  · show roomOf b.boot.memFree ≤ m₄.room + bmainPages b.image b.kernel
    unfold bmainPages
    omega
  · have hentries : EntriesKept FREE_SCAN e₁.memFree m₃.memFree := g₂.memFree ▸ g₃.entries
    exact (g₁.entries.trans hentries).trans g₄.keeps.2.entries

end BootSetting

/-- **`bmain` ends with the ramdisk at `INITRAM_ADDR` and the kernel at its addresses**, unless there is too little
memory. -/
theorem bmain_loads (b : BootSetting) (h : b.Ok) :
    ∃ rounds, Ends b.TooLittle (Started b.boot b.image b.kernel) (b.run rounds) := by
  obtain ⟨rounds, hrun⟩ := h.spec
  exact ⟨rounds, hrun.mono (fun _ hstop => hstop) fun _ hr => hr.1⟩

/-! ## a kernel of one segment -/

def loneFiles : List InitRamFile := [⟨kernelName, loneElf⟩]

@[irreducible] def loneImage : List UInt8 := (mkinitram loneFiles).getD []

/-- `"boot/initram"` -/
def loneVolume : List (List UInt8 × List UInt8) := [(bootName ++ 47 :: initramName, loneImage)]

/-- the string at `0x1000` -/
def loneMem : Nat → UInt8 := store (fun _ => 0) 0x1000 (kernelName ++ [0])

def loneEarly : EarlyLoader := earlyAt 0x10000 [] (bootstrapPaging 0x10000 loneMem)

theorem loneElf_space : InKernelSpace loneElf where
  counted h hmem := by
    rw [phdrs_lone] at hmem
    rw [List.mem_singleton.mp hmem]
    exact .inl (by decide)
  space h hmem _ := by
    rw [phdrs_lone] at hmem
    rw [List.mem_singleton.mp hmem]
    decide

theorem loneFiles_ok : FilesOk loneFiles := ⟨by decide, by decide, by decide, by decide, by decide⟩

theorem loneImage_made : mkinitram loneFiles = some loneImage := by
  have hdata : (dataArea loneFiles).length < 2^64 := by
    rw [show dataArea loneFiles = loneElf from List.append_nil _, length_lone]
    decide
  obtain ⟨image, h⟩ := mkinitram_isSome loneFiles_ok hdata
  unfold loneImage
  rw [h, Option.getD_some]

theorem length_loneImage : loneImage.length = 231 := by
  rw [length_image loneImage_made, show dataArea loneFiles = loneElf from List.append_nil _, length_lone]
  decide

theorem loneRamdisk : BootRamdisk loneFiles loneImage loneElf where
  ok := loneFiles_ok
  made := loneImage_made
  first := ⟨_, _, rfl, rfl⟩
  elf := loneElf_ok
  space := loneElf_space

theorem exists_loneVolume : ∃ v, BootVolume 300000 0 loneVolume v loneImage := by
  have hf : FileTree loneVolume := by
    refine ⟨by decide, by decide, by decide, fun f hf => ?_, by decide⟩
    rw [List.mem_singleton.mp hf]
    show loneImage.length ≤ _
    rw [length_loneImage]
    decide
  have hroom : HasRoom 300000 loneVolume := by
    unfold HasRoom
    decide +kernel
  have hexact : FirstExact (pathsOf (byPath loneVolume)) := by
    intro done p todo d n hsplit _ _
    cases done with
    | nil => exact fun q hq => by cases hq
    | cons q done => simp [pathsOf, byPath, loneVolume] at hsplit
  obtain ⟨v, hv, -⟩ := roundTrip_of_exact (by decide) hf hroom hexact
  exact ⟨v, hv, by decide, hf, hroom, hexact, (bootName ++ 47 :: initramName, loneImage),
    List.mem_cons_self, by decide, rfl⟩

theorem loneStatics : BootStatics 0xb000 0xc000 0x1000 :=
  ⟨by decide, by decide, by decide, by decide, by decide, by decide⟩

theorem loneEarly_bootstrapped : Bootstrapped 0x10000 loneEarly := earlyAt_bootstrapped (by decide) (by decide) rfl

/-- with 16 MiB of memory -/
def loneSetting (v : MfsVolume) : BootSetting where
  size := 300000
  now := 0
  vol := loneVolume
  files := loneFiles
  mbr := List.replicate 512 1
  volume := v
  image := loneImage
  kernel := loneElf
  bios := imageBios (mkimage (List.replicate 512 1) v.bytes)
  bootDrive := 0x80
  buffer := 0x6000
  dap := 0x5ff0
  replies := loneReply 0x1000000
  boot := (memoryDetect (loneReply 0x1000000)).get rfl
  gMetadata := 0xb000
  gPages := 0xc000
  name := 0x1000
  pml4 := 0x10000
  start := loneEarly

theorem loneSetting_ok {v : MfsVolume} (hv : BootVolume 300000 0 loneVolume v loneImage) : (loneSetting v).Ok where
  volume := hv
  ramdisk := loneRamdisk
  mbr := List.length_replicate
  bios := imageBios_reads _ _
  statics := loneStatics
  memory := ⟨loneReply_ok _ (by decide), fun u hu => by
    obtain rfl : u = ⟨LOMEM_END, 0x1000000⟩ := List.mem_singleton.1 hu
    rfl⟩
  detected := rfl
  first := ⟨_, rfl, by decide⟩
  start := loneEarly_bootstrapped
  name := by
    refine ⟨?_, by decide⟩
    show HoldsAt loneEarly.mem 0x1000 (kernelName ++ [0])
    unfold HoldsAt
    decide +kernel

theorem not_tooLittle_lone (v : MfsVolume) (s : LoadStop) : ¬ (loneSetting v).TooLittle s := by
  rintro ⟨-, hshort⟩
  have hneed : 1 + 4 * (spanPages INITRAM_ADDR loneImage.length + pagesOfAll (phdrs loneElf)) ≤ 4096 := by
    rw [phdrs_lone, length_loneImage]
    decide
  have hroom : roomOf (loneSetting v).boot.memFree = 4096 := rfl
  rw [hroom] at hshort
  exact absurd (Nat.lt_of_lt_of_le hshort hneed) (Nat.lt_irrefl _)

theorem bmain_loads_lone : ∃ v rounds r, (loneSetting v).run rounds = .ok r ∧ ImageLoaded loneElf r.loader := by
  obtain ⟨v, hv⟩ := exists_loneVolume
  obtain ⟨rounds, hrun⟩ := bmain_loads (loneSetting v) (loneSetting_ok hv)
  obtain ⟨r, hr, h⟩ := hrun.result fun s hs _ => not_tooLittle_lone v s hs
  refine ⟨v, rounds, r, hr, h.kernel.mpr (lastRight_of_apart loneElf_space.counted ?_)⟩
  show (phdrs loneElf).Pairwise _
  rw [phdrs_lone]
  exact List.pairwise_singleton _ _

end FuseeOS
