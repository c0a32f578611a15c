import FuseeOS.Kernel.EarlyRoom
import FuseeOS.Kernel.StartUp

/-!
# From the tools' files to the kernel's memory

`bmain` has loaded the ramdisk and the kernel; `kmain` builds the direct map and calls `init_mem` on the tables
and the free memory that it is left.

* `extract_readLe`        the kernel reads the bytes that the bootloader has written;
* `leaf_machine`          the pages of the upper half, in use and no tables (`LoaderOk.held`);
* `KernelFits.start`      `init_mem` finds what it asks for;
* **`kmain_memory`**      the ramdisk, the kernel image and its protection after `init_mem`, from the files on;
* **`init_mem_ready`**    the last part of it, for any tables and any kernel image.
-/

namespace FuseeOS
open Bytes Radix BootMemRegion Outcome

/-! ## bytes -/

theorem readLe_lt (mem : Nat → UInt8) (a w : Nat) : readLe mem a w < 256^w := by
  have h := ofLe_lt (fetch mem a w)
  rwa [length_fetch] at h

/-- a byte of a number in memory -/
theorem extract_readLe (mem : Nat → UInt8) (a : Nat) {k : Nat} (hk : k < 8) :
    (BitVec.ofNat 64 (readLe mem a 8)).extractLsb' (8 * k) 8 = (mem (a + k)).toBitVec := by
  obtain ⟨n, hn⟩ : ∃ n, 8 = k + (1 + n) := ⟨8 - k - 1, by omega⟩
  have hlow := readLe_lt mem a k
  have hone : readLe mem (a + k) 1 = (mem (a + k)).toNat := rfl
  have hbyte : (mem (a + k)).toNat < 256 := (mem (a + k)).toNat_lt
  have hpow : 2^(8 * k) = 256^k := Nat.pow_mul 2 8 k
  have hlt : readLe mem a 8 < 2^64 := readLe_lt mem a 8
  have hsplit : readLe mem a 8 =
      readLe mem a k + 256^k * ((mem (a + k)).toNat + 256 * readLe mem (a + k + 1) n) := by
    calc readLe mem a 8 = readLe mem a (k + (1 + n)) := congrArg (readLe mem a) hn
      _ = _ := by rw [readLe_add, readLe_add, hone, pow_one]
  apply BitVec.eq_of_toNat_eq
  rw [BitVec.extractLsb'_toNat, BitVec.toNat_ofNat, Nat.mod_eq_of_lt hlt, Nat.shiftRight_eq_div_pow, hpow, hsplit,
    Nat.add_mul_div_left _ _ (Nat.pos_of_ne_zero (pow_ne_zero k (by decide))), Nat.div_eq_of_lt hlow, Nat.zero_add,
    Nat.add_mul_mod_self_left]
  exact Nat.mod_eq_of_lt hbyte

section
variable {us : List BootMemRegion} {m : Loader} {pmem : PhysicalMemoryAllocator} {va v : Nat}

/-- **The kernel's machine reads the bytes of the loader's.** -/
theorem loadByte_machine (m : Loader) (pmem : PhysicalMemoryAllocator) (va : Nat) :
    loadByte (m.machine pmem) va = (m.load va).map UInt8.toBitVec := by
  unfold loadByte Loader.load Loader.addr
  rw [Option.map_map, Option.map_map]
  refine congrArg (Option.map · _) (funext fun t => ?_)
  have hframe : t.frame % 4096 = 0 := by
    unfold Translation.frame
    omega
  have hword : t.frame + 8 * (t.word : Nat) + t.addr % 8 = t.addr := by
    unfold Translation.frame Translation.word
    dsimp only
    omega
  have hw : (m.machine pmem).mem t.frame t.word = BitVec.ofNat 64 (readLe m.mem (t.frame + 8 * t.word) 8) :=
    if_pos hframe
  rw [hw, extract_readLe _ _ (Nat.mod_lt _ (by decide)), hword]
  rfl

/-! ## pages of the upper half -/

/-- **The frames of the kernel's machine are the loader's pages.** -/
theorem leaf_machine (h : LoaderOk us m) (hv : 256 ≤ (pageIndex v 3).val) :
    (leaf (m.machine pmem) v).map frameOf = m.page v := by
  have hup : InUpper (stem v 3 ++ [pageIndex v 0]) := ⟨pageIndex v 3, rfl, hv⟩
  unfold leaf Machine.entry Loader.page path Loader.nodeAt
  rw [nodeAt_concat]
  show Option.map frameOf ((m.nodeAt (stem v 3)).bind _) = (m.nodeAt (stem v 3)).bind _
  cases e : m.nodeAt (stem v 3) with
  | none => rfl
  | some t =>
    have hlen : (stem v 3).length < 4 := Nat.lt_succ_of_le length_stem_le
    have hentry := h.level (stem v 3) t (pageIndex v 0) hlen hup e
    show Option.map frameOf (if present (m.words t (pageIndex v 0)) then some (m.words t (pageIndex v 0)) else none) =
      next (m.words t (pageIndex v 0))
    cases hp : present (m.words t (pageIndex v 0)) with
    | false => rw [next_eq_none hp]; rfl
    | true => rw [(hentry.flags hp).plain.next hp]; rfl

/-- a page that the loader shows -/
theorem LoaderOk.held (h : LoaderOk us m) (hva : upperHalf va) (hs : (m.load va).isSome) :
    ∃ w, leaf (m.machine pmem) (va / 4096) = some w ∧ ¬ (m.machine pmem).IsTable (frameOf w) ∧
      ¬ InRegions m.memFree (frameOf w) := by
  rw [h.load hva, Option.isSome_map] at hs
  obtain ⟨f, hf⟩ := Option.isSome_iff_exists.mp hs
  have hleaf := @leaf_machine us m pmem (va / 4096) h hva.index
  rw [hf] at hleaf
  obtain ⟨w, hw, rfl⟩ := Option.map_eq_some_iff.mp hleaf
  refine ⟨w, hw, ?_, fun hr => h.used _ _ (Nat.le_of_eq (length_path _)) hf hr⟩
  rintro ⟨p, hp, e⟩
  have hpath := h.tree p _ _ (by omega) (Nat.le_of_eq (length_path _)) e hf
  have hlen := length_path (va / 4096)
  rw [← hpath] at hlen
  omega

/-- a page that it does not show -/
theorem LoaderOk.unmapped (h : LoaderOk us m) (hv : upperHalf (v * 4096)) (hs : m.load (v * 4096) = none) :
    leaf (m.machine pmem) v = none := by
  have hpage : v * 4096 / 4096 = v := Nat.mul_div_cancel v (by decide)
  have hindex := hv.index
  rw [hpage] at hindex
  rw [h.load hv, Option.map_eq_none_iff, hpage] at hs
  rw [← Option.map_eq_none_iff (f := frameOf), leaf_machine h hindex, hs]

end

/-! ## behind the direct map -/

section
variable {regs regs' : List BootMemRegion} {m m' : Machine} {v : Nat}

theorem PhysMapped.leaf (g : PhysMapped m regs m' regs') (ht : Proper next m.mem m.cr3 3) (hv : KernelPage v) :
    FuseeOS.leaf m' v = FuseeOS.leaf m v := by
  have hne : (pageIndex v 3).val ≠ PML4_PHYSICAL := Nat.ne_of_gt hv
  have hs : stem v 3 = pageIndex v 3 :: (stem v 3).tail := rfl
  unfold FuseeOS.leaf
  rw [hs]
  refine g.entry ht hne ?_ _
  rw [List.length_tail, length_stem (le_refl 3)]

theorem PhysMapped.bootFlags (g : PhysMapped m regs m' regs') (ht : Proper next m.mem m.cr3 3) (h : BootFlags m) :
    BootFlags m' where
  top w e := h.top w ((g.entry_top (by decide)).symm.trans e)
  below p i w hp hhead e := by
    cases p with
    | nil => cases hhead
    | cons a p =>
      obtain rfl : a = LAST := Option.some.inj hhead
      refine h.below (LAST :: p) i w hp rfl ?_
      rw [← e]
      exact (g.entry ht (by decide) (Nat.le_of_succ_le_succ hp) i).symm

end

/-! ## the start of the kernel -/

/-- `kmain` up to `init_mem`, on a processor with the NX flag; `gib` is the answer of `is_1gb_pages_supported`, and
`pmem` the allocator before it is set up -/
def kmainMemory (gib : Bool) (img : KernelImage) (video : BootVideo) (pmem : PhysicalMemoryAllocator)
    (r : BootResult) : Option KernelMemory := do
  let (m, memFree) ← archInitPhysicalMapping gib r.loader.cr3 (r.loader.machine pmem) r.loader.memFree
  if h : memFree.length = 64 then initMem (r.boot.withFree memFree h) r.initramSize video true img m else none

/-- pages of free memory that the kernel may take -/
def kernelPages (gib : Bool) (maps : List BootMemRegion) (size bytes : Nat) : Nat :=
  physMapPages gib + ((requests maps).sum + initPages size bytes)

/-- The kernel fits to what the bootloader is given: its sections lie in the pages of its headers, there are at
most 15 usable ranges of at most 4 GiB, all of them where the direct map shows them, and pages enough in the first
of them above 16 MiB. -/
structure KernelFits (b : BootSetting) (img : KernelImage) (gib : Bool) (video : BootVideo) : Prop where
  laid : img.Laid
  inFile : img.InFile b.kernel
  reach : ∀ s ∈ img.sections, s.count = 0 ∨ InReach s.first s.count
  count : (usable b.replies).length ≤ 15
  low : ∀ u ∈ usable b.replies, u.base + u.size ≤ 2^39
  sizes : ∀ u ∈ usable b.replies, u.size ≤ 2^32
  small : b.image.length + HEADER ≤ 2^30
  bytes : video.bytes ≤ 2^30
  physical : video.framebuffer + video.bytes ≤ 2^52
  pages : bmainPages b.image b.kernel + kernelPages gib (usable b.replies) b.image.length video.bytes ≤
    roomOf b.boot.memFree

/-- behind the direct map and the allocator's setup, with `n` free pages -/
structure EarlyDone (gib : Bool) (pmem : PhysicalMemoryAllocator) (r : BootResult) (n : Nat) (m : Machine)
    (memFree : List BootMemRegion) (a : PhysicalMemoryAllocator) : Prop where
  mapping : archInitPhysicalMapping gib r.loader.cr3 (r.loader.machine pmem) r.loader.memFree = some (m, memFree)
  mapped : PhysMapped (r.loader.machine pmem) r.loader.memFree m memFree
  data : m.ioSize = 0 ∧ ∀ f, f ≠ r.loader.cr3 → ¬ InRegions r.loader.memFree f → m.mem f = r.loader.words f
  init : ∃ h memFree', initPhysicalMemory (r.boot.withFree memFree h) = some (a, memFree')
  taken : TakenOver memFree a
  accounted : Accounted a
  pages : n ≤ a.pagesFree

section
variable {b : BootSetting} {img : KernelImage} {gib : Bool} {video : BootVideo} {r : BootResult}
  {pmem : PhysicalMemoryAllocator}

/-- memory ends below the high half -/
theorem KernelFits.lower (hk : KernelFits b img gib video) : ∀ u ∈ usable b.replies, u.base + u.size ≤ 2^47 :=
  fun u hu => Nat.le_trans (hk.low u hu) (by decide)

theorem roomOf_kept (hk : KernelFits b img gib video) (ht : TablesLeft (usable b.replies) b.boot b.image b.kernel r) :
    FirstRoom (kernelPages gib (usable b.replies) b.image.length video.bytes) r.loader.memFree := by
  have hroom := ht.room
  have hpages := hk.pages
  have hpos : 0 < physMapPages gib := by cases gib <;> decide
  have hkernel : physMapPages gib ≤ kernelPages gib (usable b.replies) b.image.length video.bytes :=
    Nat.le_add_right _ _
  unfold Loader.room at hroom
  exact (roomOf_first (by omega)).mono (by omega)

/-- **The steps before `init_mem` have pages enough.** -/
theorem KernelFits.early (hk : KernelFits b img gib video) (h : b.Ok) (hboot : r.boot = b.boot)
    (ht : TablesLeft (usable b.replies) b.boot b.image b.kernel r)
    (hs : BootSpace img (r.loader.machine pmem) (usable b.replies) r.loader.memFree) :
    ∃ m memFree a, EarlyDone gib pmem r (initPages b.image.length video.bytes) m memFree a := by
  have hroom := roomOf_kept hk ht
  have hroom₀ : physMapPages gib ≤ pagesOf (r.loader.memFree.take FREE_SCAN) :=
    (hroom.mono (Nat.le_add_right _ _)).le_pages
  -- the direct map
  have hsum : (List.replicate (physMapPages gib) 1).sum = physMapPages gib := by
    rw [List.sum_replicate_nat, Nat.mul_one]
  unfold kernelPages at hroom
  rw [← hsum] at hroom
  obtain ⟨memFree, ecarve, hroom₁⟩ := carveAll_room _ (fun k hk => by
    rw [List.eq_of_mem_replicate hk]
    exact Nat.one_pos) hroom hs.free
  obtain ⟨m, e⟩ : ∃ m,
      archInitPhysicalMapping gib r.loader.cr3 (r.loader.machine pmem) r.loader.memFree = some (m, memFree) :=
    physMapping_carve (r.loader.machine pmem) ecarve
  obtain ⟨m', memFree', e', g⟩ := physMapping_spec gib r.loader.cr3 (r.loader.machine pmem) hs.free hs.low hs.apart
    hroom₀
  obtain ⟨rfl, rfl⟩ := Prod.mk.inj (Option.some.inj (e.symm.trans e'))
  have hdata := physMapping_data hs.free hroom₀ e
  have hwf := hs.free.carveAll _ ecarve
  have hlen : memFree.length = 64 := by
    rw [carveAll_length _ ecarve, ht.entries.length]
    exact b.boot.freeCount
  have hrest : memFree.drop FREE_SCAN = b.boot.memFree.drop FREE_SCAN := by
    rw [carveAll_drop _ ecarve, ht.entries.rest]
  -- the bitmaps
  have hmaps := (h.memory.detects h.detected).1
  have hbootwf := bootWf_detected h.memory h.detected hk.lower hk.count hwf hrest hlen
  obtain ⟨memFree₂, ebits, hroom₂⟩ := carveAll_room _ (requests_pos (h.memory.mapWf hk.lower)) hroom₁ hwf
  have ecarved : carved (b.boot.withFree memFree hlen) = some memFree₂ := by
    unfold carved
    rw [← hmaps] at ebits
    exact ebits
  have hwf₂ := hwf.carveAll _ ebits
  have hcond := initCond_detected h.memory h.detected hk.sizes hk.lower hwf₂ hlen
  obtain ⟨a, einit, htaken⟩ := takenOver_init _ hbootwf ecarved hcond fun u hu => by
    rw [show mapRegions (b.boot.withFree memFree hlen).memMap = usable b.replies from hmaps] at hu
    exact hk.lower u hu
  obtain ⟨a', einit', -, -, hfree, hcount⟩ := hcond.transfer hbootwf ecarved
  obtain ⟨rfl, -⟩ := Prod.mk.inj (Option.some.inj (einit'.symm.trans einit))
  refine ⟨m, memFree, a', e, g, hdata, ⟨hlen, memFree₂, ?_⟩, htaken, hcond.accounted hbootwf ecarved einit, ?_⟩
  · rw [hboot]
    exact einit
  · rw [hcount]
    exact hroom₂.clearCount hwf₂ hfree

/-- the upper half is empty below the ramdisk -/
theorem TablesLeft.empty {us : List BootMemRegion} {boot : BootParams} {image kernel : List UInt8} {v : Nat}
    (ht : TablesLeft us boot image kernel r) (hspace : InKernelSpace kernel) (hlow : 2^52 - 2^35 ≤ v)
    (hhi : v < INITRAM_ADDR / 4096) : leaf (r.loader.machine pmem) v = none := by
  have hid : INITRAM_ADDR = 0xffffffff00000000 ∧ KERNEL_SPACE = 0xffffffff80000000 := ⟨rfl, rfl⟩
  have hup : upperHalf (v * 4096) := ⟨by omega, by omega⟩
  refine ht.ok.unmapped hup (Option.not_isSome_iff_eq_none.mp fun hs => ?_)
  rcases ht.shown _ hup hs with hin | ⟨g, hg, htouch⟩
  · unfold InRamdisk at hin
    omega
  · have hbase := hspace.space g hg htouch.pages
    unfold Elf64Phdr.Touches at htouch
    omega

variable {n : Nat} {m : Machine} {memFree : List BootMemRegion} {a : PhysicalMemoryAllocator} {va : Nat}

/-- the memory map that the kernel is given -/
theorem KernelFits.regions (hk : KernelFits b img gib video) (h : b.Ok) (hboot : r.boot = b.boot)
    (hlen : memFree.length = 64) : RegionsOk (mapRegions (r.boot.withFree memFree hlen).memMap) ∧
      ∀ u ∈ mapRegions (r.boot.withFree memFree hlen).memMap, u.base + u.size ≤ 2^39 := by
  have hmaps : mapRegions (r.boot.withFree memFree hlen).memMap = usable b.replies := by
    rw [hboot]
    exact (h.memory.detects h.detected).1
  rw [hmaps]
  exact ⟨⟨hk.count, h.memory.apart, h.memory.bound⟩, hk.low⟩

/-- tables and free pages are where the direct map shows them -/
theorem EarlyDone.below (hd : EarlyDone gib pmem r n m memFree a) (hk : KernelFits b img gib video) (h : b.Ok)
    (hboot : r.boot = b.boot) (ht : TablesLeft (usable b.replies) b.boot b.image b.kernel r)
    (hs : BootSpace img (r.loader.machine pmem) (usable b.replies) r.loader.memFree) :
    TablesBelow (2^39) { m with pmem := a } := by
  rintro p (hown | htable)
  · obtain ⟨hlen, memFree', hinit⟩ := hd.init
    obtain ⟨hregions, hlow⟩ := hk.regions h hboot hlen
    obtain ⟨c, hc, k, hlt, rfl⟩ := hown
    have hend : c.base + c.npages * 4096 ≤ 2^39 :=
      spans_init hregions hlow hinit c.span (List.mem_map_of_mem (mem_liveBlocks hc).1)
    show c.base + k * 4096 < 2^39
    omega
  · rcases hd.mapped.isTable hs.tree htable with ⟨q, hq, hold⟩ | ⟨hfree, -⟩
    · exact Nat.lt_trans (ht.ok.inside q p (Nat.le_succ_of_le hq) hold).2 (by decide)
    · exact ht.ok.free.below hk.low hfree

/-- what the loader shows is held, and read as it was written -/
theorem EarlyDone.held (hd : EarlyDone gib pmem r n m memFree a)
    (hs : BootSpace img (r.loader.machine pmem) (usable b.replies) r.loader.memFree)
    (ht : TablesLeft (usable b.replies) b.boot b.image b.kernel r) (hva : upperHalf va) (hv : KernelPage (va / 4096))
    (hshown : (r.loader.load va).isSome) :
    Held { m with pmem := a } (va / 4096) ∧ loadByte m va = (r.loader.load va).map UInt8.toBitVec := by
  obtain ⟨w, hw, hnode, hused⟩ := @LoaderOk.held _ r.loader pmem va ht.ok hva hshown
  have hleaf : leaf m (va / 4096) = some w := (hd.mapped.leaf hs.tree hv).trans hw
  refine ⟨⟨w, hleaf, fun hn => ?_, fun hfree => ?_⟩, ?_⟩
  · rcases hd.mapped.isTable hs.tree hn with hold | ⟨hr, -⟩
    · exact hnode hold
    · exact hused hr
  · exact hused (hd.mapped.sub _ (hd.taken.free _ hfree))
  · have hpl : PlainOn KernelPage m := (hs.booted hd.mapped hd.taken true).1.plain
    have hroot : frameOf w ≠ r.loader.cr3 := fun e => hnode ⟨[], Nat.zero_le _, congrArg some e.symm⟩
    rw [← loadByte_machine r.loader pmem,
      loadByte_leaf hpl (hd.mapped.cpu.trans hd.mapped.cr3.symm) hv hva.canonical hleaf,
      loadByte_leaf hs.plain rfl hv hva.canonical hw, hd.data.2 _ hroot hused]
    rfl

/-- **`init_mem` finds what it asks for.** -/
theorem KernelFits.start (hk : KernelFits b img gib video) (h : b.Ok) (hst : Started b.boot b.image b.kernel r)
    (ht : TablesLeft (usable b.replies) b.boot b.image b.kernel r)
    (hs : BootSpace img (r.loader.machine pmem) (usable b.replies) r.loader.memFree)
    (hd : EarlyDone gib pmem r (initPages b.image.length video.bytes) m memFree a) :
    InitStart img b.image.length video a m where
  booted := (hs.booted hd.mapped hd.taken true).1
  flags := hd.mapped.bootFlags hs.tree ht.ok.bootFlags
  running := hd.mapped.cpu.trans hd.mapped.cr3.symm
  reach := hk.reach
  heap v hv := by
    rw [hd.mapped.leaf hs.tree hv.kernelPage]
    unfold HeapRegion HEAP_BASE HEAP_END at hv
    exact ht.empty h.ramdisk.space (by omega) (by unfold INITRAM_ADDR; omega)
  io v hv := by
    rw [hd.mapped.leaf hs.tree hv.kernelPage]
    unfold IoPage IO_PAGE at hv
    exact ht.empty h.ramdisk.space (by omega) (by unfold INITRAM_ADDR; omega)
  ioSize := hd.data.1
  initram i hi := by
    obtain ⟨hup, hload⟩ := hst.ramdisk i hi
    have hsmall := hk.small
    obtain ⟨-, hv, -⟩ := initram_byte (show i < 2^32 by omega)
    exact (hd.held hs ht hup hv (by rw [hload]; rfl)).1
  small := hk.small
  bytes := hk.bytes
  physical := hk.physical
  pages := hd.pages

end

/-! ## the whole run -/

/-- the memory as the kernel reads it -/
def Machine.view (m : Machine) (a : Nat) : UInt8 := ((loadByte m a).map UInt8.ofBitVec).getD 0

/-- What the kernel has after `init_mem`: its image at the addresses of the headers and protected, the ramdisk in
the only block of the heap, where a lookup finds the first file that it matches, the frame buffer, and nothing in
the first 64 TiB. -/
structure KernelUp (b : BootSetting) (img : KernelImage) (video : BootVideo) (mem : KernelMemory) : Prop where
  running : mem.heap.vm.cpuCr3 = mem.heap.vm.cr3
  kernel : LastRight b.kernel → ∀ h ∈ phdrs b.kernel, h.type = PT_LOAD → ∀ i < h.memsz,
    loadByte mem.heap.vm (h.vaddr + i) =
      some (if i < h.filesz then b.kernel.getD (h.offset + i) 0 else 0).toBitVec
  text : Shows mem.heap.vm img.exec false false
  rodata : Shows mem.heap.vm img.rodata true false
  data : Shows mem.heap.vm img.data true true
  bss : Shows mem.heap.vm img.bss true true
  ramdisk : ∀ i (hi : i < b.image.length), loadByte mem.heap.vm (mem.initram + i) = some b.image[i].toBitVec
  found : ∀ name s f fs, CString mem.heap.vm.view name s → firstMatch s b.files = some (f, fs) →
    ∃ p, initramLookup mem.heap.vm.view mem.initram name = some p ∧ HoldsAt mem.heap.vm.view p f.content
  missing : ∀ name s, CString mem.heap.vm.view name s → firstMatch s b.files = none →
    initramLookup mem.heap.vm.view mem.initram name = none
  framebuffer : video.At mem.framebuffer mem.heap.vm
  lomem : ∀ va < 2^46, translate mem.heap.vm.mem mem.heap.vm.cr3 va = none
  /-- the tables, and the pages they may be made of, lie where the direct map shows them -/
  tables : TablesBelow (2^39) mem.heap.vm
  heap : HeapWf machineVM HeapBacked ⟨⟨mem.heap.vm.exact, mem.heap.heapSize⟩, [(mem.initram, b.image.length)]⟩
    [⟨blockLen b.image.length, true⟩]

section
variable {b : BootSetting} {img : KernelImage} {gib : Bool} {video : BootVideo} {r : BootResult}
  {pmem : PhysicalMemoryAllocator} {n : Nat} {m : Machine} {memFree : List BootMemRegion} {a : PhysicalMemoryAllocator}
  {mem : KernelMemory}

theorem view_eq {x : Machine} {va : Nat} {c : UInt8} (h : loadByte x va = some c.toBitVec) : x.view va = c := by
  unfold Machine.view
  rw [h]
  rfl

/-- **The memory that `init_mem` leaves, in terms of the files.** -/
theorem MemoryReady.up (hm : MemoryReady img b.image.length video a m mem) (hk : KernelFits b img gib video)
    (h : b.Ok) (hst : Started b.boot b.image b.kernel r)
    (ht : TablesLeft (usable b.replies) b.boot b.image b.kernel r)
    (hs : BootSpace img (r.loader.machine pmem) (usable b.replies) r.loader.memFree)
    (hd : EarlyDone gib pmem r n m memFree a) (hinitram : mem.initram = HEAP_BASE + HEADER) :
    KernelUp b img video mem := by
  have hsmall := hk.small
  have hramdisk : ∀ i (hi : i < b.image.length),
      loadByte mem.heap.vm (mem.initram + i) = some b.image[i].toBitVec := by
    intro i hi
    obtain ⟨hup, hload⟩ := hst.ramdisk i hi
    obtain ⟨-, hv, -⟩ := initram_byte (show i < 2^32 by omega)
    have hread := (hd.held hs ht hup hv (by rw [hload]; rfl)).2
    rw [hm.initram i hi, hread, hload]
    rfl
  have hloaded : Loaded mem.heap.vm.view mem.initram b.image := by
    refine ⟨fun i hi => view_eq (hramdisk i hi), ?_⟩
    rw [hinitram]
    unfold HEAP_BASE HEADER
    omega
  have hlookup {name : Nat} {s : List UInt8} (hname : CString mem.heap.vm.view name s) :=
    initramLookup_eq h.ramdisk.ok h.ramdisk.made hloaded hname
  exact {
    running := hm.running
    kernel := fun hlast g hg htype i hi => by
      have hload := hst.kernel.mpr hlast g hg htype i hi
      have hcount := h.ramdisk.space.counted g hg
      have htouch := hcount.touches (.inl htype) (show g.Has (g.vaddr + i) from ⟨Nat.le_add_right _ _, by omega⟩)
      have hpages := htouch.pages
      have hspace := h.ramdisk.space.space g hg hpages
      obtain ⟨hlo, hhi⟩ := (h.ramdisk.elf.segments g hg).upper hpages
      have hid : KERNEL_SPACE = 0xffffffff80000000 := rfl
      have hup : upperHalf (g.vaddr + i) := ⟨by omega, by omega⟩
      have hv : KernelPage ((g.vaddr + i) / 4096) := by
        show 256 < (g.vaddr + i) / 4096 / 512^3 % 512
        omega
      obtain ⟨hheld, hread⟩ := hd.held hs ht hup hv (by rw [hload]; rfl)
      rw [hm.kept _ hv hup.canonical hheld, hread, hload]
      rfl
    text := hm.text
    rodata := hm.rodata
    data := hm.data
    bss := hm.bss
    ramdisk := hramdisk
    found := fun name s f fs hname hfirst => by
      obtain ⟨data, -, hdata, hres⟩ := hlookup hname
      obtain ⟨before, hfiles, -, haddr⟩ := firstMatch_split hfirst 0
      rw [haddr, Option.map_some, Nat.zero_add] at hres
      refine ⟨_, hres, ?_⟩
      rw [hfiles, dataArea_append] at hdata
      have htail : dataArea (f :: fs) = f.content ++ dataArea fs := rfl
      rw [htail] at hdata
      exact (holdsAt_append.mp (holdsAt_append.mp hdata).2).1
    missing := fun name s hname hfirst => by
      obtain ⟨data, -, -, hres⟩ := hlookup hname
      rw [hres, (firstMatch_none hfirst 0).2]
      rfl
    framebuffer := hm.framebuffer
    lomem := hm.lomem
    tables := hm.below _ (hd.below hk h hst.boot ht hs)
    heap := hm.heap }

/-- **The bootloader ends, and the kernel comes to `init_mem`.** -/
theorem KernelFits.comes (hk : KernelFits b img gib video) (h : b.Ok) (pmem : PhysicalMemoryAllocator) :
    ∃ rounds r m memFree a, b.run rounds = .ok r ∧ Started b.boot b.image b.kernel r ∧
      TablesLeft (usable b.replies) b.boot b.image b.kernel r ∧
      BootSpace img (r.loader.machine pmem) (usable b.replies) r.loader.memFree ∧
      EarlyDone gib pmem r (initPages b.image.length video.bytes) m memFree a := by
  obtain ⟨rounds, hrun⟩ := h.spec
  have henough : ∀ s, ¬ b.TooLittle s := fun s hs => by
    have hshort := hs.2
    have hpages := hk.pages
    unfold bmainPages at hpages
    omega
  obtain ⟨r, hr, hst, ht⟩ := hrun.result fun s hs _ => henough s hs
  have hs : BootSpace img (r.loader.machine pmem) (usable b.replies) r.loader.memFree := by
    refine ht.ok.bootSpace (fun p hp => ht.ok.free.below hk.lower hp) hk.laid fun s hs j hj => ?_
    obtain ⟨g, hg, htouch⟩ := hk.inFile s hs j hj
    exact ht.pages g hg _ htouch
  obtain ⟨m, memFree, a, hd⟩ := hk.early h hst.boot ht hs
  exact ⟨rounds, r, m, memFree, a, hr, hst, ht, hs, hd⟩

end

/-- **From the files that the tools are given to the kernel's memory.** -/
theorem kmain_memory (b : BootSetting) (h : b.Ok) (img : KernelImage) (gib : Bool) (video : BootVideo)
    (pmem : PhysicalMemoryAllocator) (hk : KernelFits b img gib video) :
    ∃ rounds r mem, b.run rounds = .ok r ∧ kmainMemory gib img video pmem r = some mem ∧ KernelUp b img video mem := by
  obtain ⟨rounds, r, m, memFree, a, hr, hst, ht, hs, hd⟩ := hk.comes h pmem
  have hstart := hk.start h hst ht hs hd
  obtain ⟨hlen, memFree', hinit⟩ := hd.init
  obtain ⟨hregions, hlow⟩ := hk.regions h hst.boot hlen
  obtain ⟨n₁, heap, m₃, m₄, fb, k, hinitrun, hmem⟩ :=
    hstart.run hregions (fun u hu => (hlow u hu).trans (by decide)) hinit hd.accounted
  refine ⟨rounds, r, _, hr, ?_, (hinitrun.ready hstart k).up hk h hst ht hs hd rfl⟩
  unfold kmainMemory
  rw [hd.mapping, hst.size]
  show (if h : memFree.length = 64 then _ else _) = _
  rw [dif_pos hlen]
  exact hmem

/-! ## the kernel of one segment -/

theorem loneFits (v : MfsVolume) : KernelFits (loneSetting v) (pagesImage 1 0 0 0) true textVideo where
  laid := pagesImage_laid (by decide)
  inFile s hs j hj := by
    refine ⟨loneSegment, ?_, ?_⟩
    · show loneSegment ∈ phdrs loneElf
      rw [phdrs_lone]
      exact List.mem_singleton_self _
    · have hcount : ∀ s ∈ (pagesImage 1 0 0 0).sections, ∀ j < s.count, loneSegment.Touches (s.first + j) := by
        decide
      exact hcount s hs j hj
  reach := by decide
  count := by
    show (usable (loneReply 0x1000000)).length ≤ 15
    decide
  low u hu := by
    obtain rfl : u = ⟨LOMEM_END, 0x1000000⟩ := List.mem_singleton.1 hu
    decide
  sizes u hu := by
    obtain rfl : u = ⟨LOMEM_END, 0x1000000⟩ := List.mem_singleton.1 hu
    decide
  small := by
    show loneImage.length + HEADER ≤ 2^30
    rw [length_loneImage]
    decide
  bytes := by decide
  physical := by decide
  pages := by
    have hroom : roomOf (loneSetting v).boot.memFree = 4096 := rfl
    rw [hroom]
    show bmainPages loneImage loneElf + kernelPages true [⟨LOMEM_END, 0x1000000⟩] loneImage.length 0 ≤ 4096
    unfold bmainPages
    rw [phdrs_lone, length_loneImage]
    decide

theorem kmain_memory_lone : ∃ v rounds r mem, (loneSetting v).run rounds = .ok r ∧
    kmainMemory true (pagesImage 1 0 0 0) textVideo (freeAlloc 0 8) r = some mem ∧
    KernelUp (loneSetting v) (pagesImage 1 0 0 0) textVideo mem := by
  obtain ⟨v, hv⟩ := exists_loneVolume
  obtain ⟨rounds, r, mem, hr, hmem, hup⟩ := kmain_memory (loneSetting v) (loneSetting_ok hv) (pagesImage 1 0 0 0) true
    textVideo (freeAlloc 0 8) (loneFits v)
  exact ⟨v, rounds, r, mem, hr, hmem, hup⟩

/-! ## `init_mem` on its own -/

/-- **`init_mem` returns, and the kernel has its memory**: the image protected, the initram in its heap, the frame
buffer mapped, and every byte that was read in pages of the kernel where it was. -/
theorem init_mem_ready {boot : BootParams} {memFree : List BootMemRegion} {a : PhysicalMemoryAllocator}
    (hmap : RegionsOk (mapRegions boot.memMap)) (hlow : ∀ r ∈ mapRegions boot.memMap, r.base + r.size ≤ 2^52)
    (hinit : initPhysicalMemory boot = some (a, memFree)) (hacc : Accounted a) (img : KernelImage) (size : Nat)
    (video : BootVideo) (m : Machine) (h : InitStart img size video a m) :
    ∃ mem, initMem boot size video true img m = some mem ∧ MemoryReady img size video a m mem := by
  obtain ⟨n₁, heap, m₃, m₄, fb, k, hrun, e⟩ := h.run hmap hlow hinit hacc
  exact ⟨_, e, hrun.ready h k⟩

/-- the kernel of one segment, behind `bmain` and the direct map -/
theorem init_mem_ready_lone : ∃ boot m mem a,
    initMem boot loneImage.length textVideo true (pagesImage 1 0 0 0) m = some mem ∧
    MemoryReady (pagesImage 1 0 0 0) loneImage.length textVideo a m mem := by
  obtain ⟨v, hv⟩ := exists_loneVolume
  obtain ⟨rounds, r, m, memFree, a, -, hst, ht, hs, hd⟩ := (loneFits v).comes (loneSetting_ok hv) (freeAlloc 0 8)
  obtain ⟨hlen, memFree', hinit⟩ := hd.init
  obtain ⟨hregions, hlow⟩ := (loneFits v).regions (loneSetting_ok hv) hst.boot hlen
  obtain ⟨mem, e, hready⟩ :=
    init_mem_ready hregions (fun u hu => (hlow u hu).trans (by decide)) hinit hd.accounted _ _ _ m
      ((loneFits v).start (loneSetting_ok hv) hst ht hs hd)
  exact ⟨_, m, mem, a, e, hready⟩

end FuseeOS
