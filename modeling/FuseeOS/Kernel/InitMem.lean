import FuseeOS.Kernel.AllocFails
import FuseeOS.Kernel.KernelMem
import FuseeOS.Kernel.KernelClosed
import FuseeOS.Kernel.HeapPages
import FuseeOS.Boot.Video

/-!
# Setting up the memory

`init_mem`, and what it does to the account of free pages.  Page tables, heap and video mapping are
paid for page by page; the initram of the boot loader is given back by its virtual address.

* `Books`                what an allocation keeps: `pages_free` exceeds the clear bits by the same number;
* `forPages_keeps`       what every allocation keeps, a loop over page tables keeps;
* `Books.freePhysPages`  pages that are in no block are counted, but no bit is cleared for them;
* `initMem_returns`      on a screen in text mode, with enough pages;
* `init_mem_accounting`  the account is right in the end exactly if there is no initram.
-/

namespace FuseeOS
open BitMap

/-- `gBootParams.initram`, as `initram_init` sets it -/
abbrev INITRAM : Nat := 0xffffffff00000000

/-- what `init_mem` leaves: the machine with the heap, and the pointers in `gBootParams` -/
structure KernelMemory where
  heap : Heap Machine
  initram : Nat
  framebuffer : Nat

/-- `init_mem`; `nx` is what `init_nx` finds in `cpuid` -/
def initMem (boot : BootParams) (initramSize : Nat) (video : BootVideo) (nx : Bool) (img : KernelImage)
    (m : Machine) : Option KernelMemory := do
  let (pmem, _) ← initPhysicalMemory boot
  let m ← initKernelMemProt img { m with pmem := pmem, nx := nx }
  let (tmp, heap) ← kmalloc machineVM ⟨m, 0⟩ initramSize
  let m ← memcpy tmp INITRAM initramSize 0 heap.vm
  let m := { m with pmem := freePhys m.pmem INITRAM initramSize }
  -- the product is an `unsigned int`
  let size := video.pitch * video.height % 2^32
  let (framebuffer, m) ← kmap m 0 video.framebuffer size (KPROT_READ ||| KPROT_WRITE)
  return ⟨⟨unmapLomem m, heap.heapSize⟩, tmp, framebuffer⟩

/-! ## what the page tables cost -/

/-- `P` is kept by every page that is handed out -/
def PaysFor (P : PhysicalMemoryAllocator → Prop) : Prop :=
  ∀ a p a', P a → allocPhysPages a 1 = some (p, a') → p ≠ BADPAGE → P a'

section
variable {P : PhysicalMemoryAllocator → Prop} {m m' : Machine}

theorem allocZeroPage_keeps (hP : PaysFor P) {x : BitVec 64 × Machine} (h : P m.pmem)
    (e : allocZeroPage m = some x) : P x.2.pmem := by
  obtain ⟨⟨p, a⟩, ea, e⟩ := Option.bind_eq_some_iff.mp e
  dsimp only at e
  by_cases hp : p = BADPAGE
  · rw [if_pos hp] at e
    exact nomatch e
  · rw [if_neg hp] at e
    rw [← Option.some.inj e]
    exact hP _ _ _ h ea hp

theorem write_pmem {dir i : Nat} {w : BitVec 64} (e : m.write dir i w = some m') : m'.pmem = m.pmem := by
  unfold Machine.write at e
  split at e
  · rw [← Option.some.inj e]
    rfl
  · exact nomatch e

/-- entries that keep `P` -/
def EntryKeeps (P : PhysicalMemoryAllocator → Prop)
    (f : Machine → BitVec 64 → Option (BitVec 64 × Machine)) : Prop :=
  ∀ m w x, P m.pmem → f m w = some x → P x.2.pmem

theorem updateEntries_keeps {f : Machine → BitVec 64 → Option (BitVec 64 × Machine)}
    (hf : EntryKeeps P f) (dir n i : Nat) (h : P m.pmem) (e : updateEntries f dir n i m = some m') :
    P m'.pmem := by
  induction n generalizing i m with
  | zero =>
    rw [← Option.some.inj e]
    exact h
  | succ n ih =>
    obtain ⟨m₁, e₁, e⟩ := Option.bind_eq_some_iff.mp e
    refine ih (i + 1) ?_ e
    obtain ⟨w, -, e₁⟩ := Option.bind_eq_some_iff.mp e₁
    obtain ⟨x, ex, e₁⟩ := Option.bind_eq_some_iff.mp e₁
    rw [write_pmem e₁]
    exact hf m w x h ex

/-- **What the loop body keeps, the loop over the page tables keeps**, by induction on the visits. -/
theorem forPages_keeps {body : Machine → Visit → Option Machine}
    (hb : ∀ m v m', P m.pmem → body m v = some m' → P m'.pmem) {addr size : Nat} (h : P m.pmem)
    (e : forPages m addr size body = some m') : P m'.pmem := by
  have key : ∀ fuel (m : Machine) (it : PageIterator), P m.pmem → walkPages body fuel m it = some m' →
      P m'.pmem := by
    intro fuel
    induction fuel with
    | zero => exact fun _ _ _ e => nomatch e
    | succ fuel ih =>
      intro m it h e
      obtain ⟨⟨v, it'⟩, -, e⟩ := Option.bind_eq_some_iff.mp e
      cases v with
      | none =>
        rw [← Option.some.inj e]
        exact h
      | some v =>
        obtain ⟨m₁, e₁, e⟩ := Option.bind_eq_some_iff.mp e
        exact ih m₁ it' (hb m v m₁ h e₁) e
  exact key _ _ _ h e

variable (hP : PaysFor P)
include hP

theorem addTable_keeps : EntryKeeps P addTable := by
  intro m w x h e
  unfold addTable at e
  split at e
  · obtain ⟨y, ey, e⟩ := Option.bind_eq_some_iff.mp e
    have hy := allocZeroPage_keeps hP h ey
    rw [← Option.some.inj e]
    exact hy
  · rw [← Option.some.inj e]
    exact h

theorem addHalf_keeps : EntryKeeps P addHalf := by
  intro m w x h e
  unfold addHalf at e
  split at e
  · obtain ⟨y, ey, e⟩ := Option.bind_eq_some_iff.mp e
    have hy := allocZeroPage_keeps hP h ey
    rw [← Option.some.inj e]
    exact hy
  · rw [← Option.some.inj e]
    exact h

theorem addPage_keeps (flags : BitVec 64) : EntryKeeps P (addPage flags) := by
  intro m w x h e
  obtain ⟨y, ey, e⟩ := Option.bind_eq_some_iff.mp e
  have hy := allocZeroPage_keeps hP h ey
  rw [← Option.some.inj e]
  exact hy

theorem kmapanon_keeps {addr size prot : Nat} (h : P m.pmem)
    (e : kmapanon m addr size prot = some m') : P m'.pmem := by
  simp only [kmapanon, Option.map_eq_some_iff] at e
  obtain ⟨m₁, e, rfl⟩ := e
  have h₁ : P m₁.pmem := forPages_keeps (fun m v m' h e => by
    unfold anonVisit at e
    by_cases hv : v.depth ≠ 0
    · rw [if_pos hv] at e
      exact updateEntries_keeps (addTable_keeps hP) _ _ _ h e
    · rw [if_neg hv] at e
      exact updateEntries_keeps (addPage_keeps hP _) _ _ _ h e) h e
  exact h₁

theorem kmap_keeps {addr phys size prot : Nat} {x : Nat × Machine} (h : P m.pmem)
    (e : kmap m addr phys size prot = some x) : P x.2.pmem := by
  simp only [kmap_eq, Option.map_eq_some_iff] at e
  obtain ⟨m₁, e, rfl⟩ := e
  have hs : P (kmapStart m addr phys size).pmem := h
  have h₁ : P m₁.pmem := forPages_keeps (fun m v m' h e => by
    unfold mapVisit at e
    by_cases hv : v.depth ≠ 0
    · rw [if_pos hv] at e
      exact updateEntries_keeps (addTable_keeps hP) _ _ _ h e
    · rw [if_neg hv] at e
      refine updateEntries_keeps (fun m w x h e => ?_) _ _ _ h e
      rw [← Option.some.inj e]
      exact h) hs e
  exact h₁

omit hP in
theorem kmprotect_keeps {addr size prot : Nat} (h : P m.pmem)
    (e : kmprotect m addr size prot = some m') : P m'.pmem := by
  simp only [kmprotect, Option.map_eq_some_iff] at e
  obtain ⟨m₁, e, rfl⟩ := e
  have h₁ : P m₁.pmem := forPages_keeps (fun m v m' h e => by
    unfold lowVisit at e
    split at e
    · refine updateEntries_keeps (fun m w x h e => ?_) _ _ _ h e
      rw [← Option.some.inj e]
      exact h
    · rw [← Option.some.inj e]
      exact h) h e
  exact h₁

theorem initKernelMemProt_keeps {img : KernelImage} (h : P m.pmem)
    (e : initKernelMemProt img m = some m') : P m'.pmem := by
  simp only [initKernelMemProt, Option.bind_eq_bind, Option.bind_eq_some_iff] at e
  obtain ⟨m₁, e₁, w, -, m₂, e₂, m₃, e₃, m₄, e₄, e⟩ := e
  have h₁ : P m₁.pmem := updateEntries_keeps (addHalf_keeps hP) _ _ _ h e₁
  generalize setKernelHierarchyMemProt 2 _ m₁.mem = mem at e₂
  have h₂ : P m₂.pmem := kmprotect_keeps (show P (Machine.pmem { m₁ with mem := mem }) from h₁) e₂
  exact kmprotect_keeps (kmprotect_keeps (kmprotect_keeps h₂ e₃) e₄) e

theorem kmalloc_machine_keeps {s s' : Heap Machine} {size addr : Nat} (h : P s.vm.pmem)
    (e : kmalloc machineVM s size = some (addr, s')) : P s'.vm.pmem := by
  refine kmalloc_keeps (P := fun m => P m.pmem) (fun m a w m' h e => ?_) (fun m a n prot m' h e => ?_) h e
  · rw [machineVM_store, storeWord] at e
    split at e
    · obtain ⟨t, -, rfl⟩ := Option.map_eq_some_iff.mp e
      exact h
    · exact nomatch e
  · rw [machineVM_kmapanon] at e
    exact kmapanon_keeps hP h e

end

/-- a copy touches no bitmap, and reads only canonical addresses -/
theorem memcpy_pmem {dst src n i : Nat} {m m' : Machine} (e : memcpy dst src n i m = some m') :
    m'.pmem = m.pmem ∧ ∀ j < n, canonical ((src + (i + j)) % 2^64) := by
  induction n generalizing i m with
  | zero =>
    rw [← Option.some.inj e]
    exact ⟨rfl, fun j hj => absurd hj (Nat.not_lt_zero j)⟩
  | succ n ih =>
    obtain ⟨b, eb, e⟩ := Option.bind_eq_some_iff.mp e
    obtain ⟨m₁, e₁, e⟩ := Option.bind_eq_some_iff.mp e
    obtain ⟨hpm, hcan⟩ := ih e
    obtain ⟨t, -, rfl⟩ := Option.map_eq_some_iff.mp e₁
    refine ⟨hpm, fun j hj => ?_⟩
    cases j with
    | zero =>
      by_contra hc
      rw [Nat.add_zero] at hc
      unfold loadByte translate at eb
      rw [if_neg hc] at eb
      exact nomatch eb
    | succ j =>
      have h := hcan j (by omega)
      rwa [show i + 1 + j = i + (j + 1) by omega] at h

/-! ## the account -/

/-- `pages_free` is the number of clear order-0 bits -/
def Accounted (a : PhysicalMemoryAllocator) : Prop := a.pagesFree = clearCount a.blocks

/-- the blocks are `spans`, and `pages_free` exceeds the clear bits by `n` -/
structure Books (spans : List (Nat × Nat)) (n : Nat) (a : PhysicalMemoryAllocator) : Prop where
  ok : BlocksOk a.blocks
  span : a.blocks.map PhysicalMemoryBlock.span = spans
  pages : a.pagesFree = (clearCount a.blocks + n) % 2^64

section
variable {spans : List (Nat × Nat)} {n : Nat} {a : PhysicalMemoryAllocator}

/-- **An allocation keeps the account.** -/
theorem Books.alloc : PaysFor (Books spans n) := by
  intro a p a' h e hp
  rcases allocPhysPages_take h.ok with ⟨q, e', -, hq⟩ | ⟨e', -⟩
  · rw [e'] at e
    obtain ⟨rfl, rfl⟩ := Prod.mk.inj (Option.some.inj e)
    obtain ⟨b, hb, k, hk, rfl, hg⟩ := hq
    have hb' := (mem_liveBlocks hb).1
    have hof := blockOf_of_covers h.ok.apart hb' (covers_page (h.ok.fits b hb' k hk hg) hk)
    have hc := clearCount_use hof (by rwa [offset_page])
    refine ⟨h.ok.use _, (map_onBlock _ .use (fun _ _ => rfl) _ _).trans h.span, ?_⟩
    show (a.pagesFree + (2^64 - 1)) % 2^64 = (clearCount (onBlock .use (b.page k) a.blocks) + n) % 2^64
    rw [h.pages]
    omega
  · rw [e'] at e
    exact absurd (Prod.mk.inj (Option.some.inj e)).1.symm hp

/-- a page that is marked free adds a clear bit at most, and none if no block covers it -/
theorem clearCount_onBlock_free (ls : List PhysicalMemoryBlock) (p : Nat) :
    ∃ c ≤ 1, clearCount (onBlock .free p ls) = clearCount ls + c ∧
      ((∀ b ∈ ls, b.covers p = false) → c = 0) := by
  cases e : blockOf ls p with
  | none =>
    have hno : ∀ b ∈ ls, b.covers p = false := fun b hb => by
      simpa using List.find?_eq_none.mp e b hb
    exact ⟨0, Nat.zero_le 1, by rw [onBlock_of_not_covers _ _ _ hno]; rfl, fun _ => rfl⟩
  | some b =>
    refine ⟨_, ?_, clearCount_free e, fun hno => ?_⟩
    · split <;> omega
    · have hcov := blockOf_covers e
      rw [hno b (List.mem_of_find?_eq_some e)] at hcov
      exact nomatch hcov

/-- `c` clear bits more, and nothing else -/
structure MarkedFree (a : PhysicalMemoryAllocator) (c : Nat) (t : PhysicalMemoryAllocator) : Prop where
  ok : BlocksOk t.blocks
  span : t.blocks.map PhysicalMemoryBlock.span = a.blocks.map PhysicalMemoryBlock.span
  count : clearCount t.blocks = clearCount a.blocks + c
  pages : t.pagesFree = a.pagesFree

/-- one page more -/
theorem MarkedFree.step {t : PhysicalMemoryAllocator} {c : Nat} (h : MarkedFree a c t) (p : Nat) :
    ∃ d ≤ 1, MarkedFree a (c + d) (markPageFree t p) ∧ ((∀ b ∈ t.blocks, b.covers p = false) → d = 0) := by
  obtain ⟨d, hd, hclear, hnone⟩ := clearCount_onBlock_free t.blocks p
  have hspan : (onBlock .free p t.blocks).map PhysicalMemoryBlock.span =
      t.blocks.map PhysicalMemoryBlock.span := map_onBlock _ .free (fun _ _ => rfl) _ _
  refine ⟨d, hd, ⟨h.ok.free p, hspan.trans h.span, ?_, h.pages⟩, hnone⟩
  show clearCount (onBlock .free p t.blocks) = _
  rw [hclear, h.count, Nat.add_assoc]

/-- the loop over the pages; the first of them is in no block -/
theorem markedFree_foldl (h : BlocksOk a.blocks) {page : Nat}
    (hp : ∀ x ∈ a.blocks.map PhysicalMemoryBlock.span, x.1 + x.2 * 4096 ≤ page % 2^64) (k : Nat) :
    ∃ c ≤ k - 1, MarkedFree a c ((List.range k).foldl
      (fun a i => markPageFree a ((page + i * PAGESIZE) % 2^64)) a) := by
  induction k with
  | zero => exact ⟨0, le_refl 0, h, rfl, rfl, rfl⟩
  | succ k ih =>
    obtain ⟨c, hc, ih⟩ := ih
    obtain ⟨d, hd, g, hnone⟩ := ih.step ((page + k * PAGESIZE) % 2^64)
    rw [List.range_succ, List.foldl_append]
    refine ⟨c + d, ?_, g⟩
    rcases Nat.eq_zero_or_pos k with rfl | hk
    · have hd0 : d = 0 := hnone fun b hb => by
        have hle := hp b.span (ih.span ▸ List.mem_map_of_mem hb)
        have hle' : b.base + b.npages * 4096 ≤ page % 2^64 := hle
        refine Bool.eq_false_iff.mpr fun hcov => ?_
        have hr := covers_range hcov
        omega
      omega
    · omega

/-- **Pages are given back**: all of them are counted, but not for all of them a bit is cleared. -/
theorem Books.freePhysPages (h : Books spans n a) {page : Nat}
    (hp : ∀ x ∈ spans, x.1 + x.2 * 4096 ≤ page % 2^64) (k : Nat) :
    ∃ c ≤ k - 1, Books spans (n + (k - c)) (FuseeOS.freePhysPages a page k) := by
  obtain ⟨c, hc, g⟩ := markedFree_foldl h.ok (h.span ▸ hp) k
  refine ⟨c, hc, g.ok, g.span.trans h.span, ?_⟩
  show (PhysicalMemoryAllocator.pagesFree _ + k) % 2^64 = (clearCount (List.foldl _ a _).blocks + _) % 2^64
  rw [g.pages, h.pages, g.count]
  omega

end

/-- the frame behind page `i` of the initram -/
def initramFrame (m : Machine) (i : Nat) : Option Nat :=
  (translate m.mem m.cpuCr3 ((INITRAM + i * PAGESIZE) % 2^64)).map Translation.addr

/-- the frames that backed the initram are free, and no frame backed two pages of it -/
structure InitramFreed (m : Machine) (size : Nat) (a : PhysicalMemoryAllocator) : Prop where
  free : ∀ i < pageCount size, ∃ p, initramFrame m i = some p ∧ a.Free p
  once : ∀ i < pageCount size, ∀ j < pageCount size, initramFrame m i = initramFrame m j → i = j

section
variable {boot : BootParams} {a : PhysicalMemoryAllocator} {memFree : List BootMemRegion}

theorem clearCount_lt (h : ∀ x ∈ a.blocks.map PhysicalMemoryBlock.span, x.1 + x.2 * 4096 ≤ 2^52) :
    clearCount a.blocks < 2^63 := by
  refine lt_of_le_of_lt (clearCount_le a.blocks fun b hb => ?_) ?_
  · have hle : b.base + b.npages * 4096 ≤ 2^52 := h b.span (List.mem_map_of_mem hb)
    unfold PhysicalMemoryBlock.Fits
    omega
  · rw [a.count]
    decide

/-- the blocks end where the memory map does -/
theorem spans_init {n : Nat} (hmap : RegionsOk (mapRegions boot.memMap))
    (hlow : ∀ r ∈ mapRegions boot.memMap, r.base + r.size ≤ n)
    (hinit : initPhysicalMemory boot = some (a, memFree)) :
    ∀ x ∈ a.blocks.map PhysicalMemoryBlock.span, x.1 + x.2 * 4096 ≤ n := by
  obtain ⟨hlen, g⟩ := init_freed hmap hinit
  intro x hx
  rw [g.span] at hx
  obtain ⟨b, hb, rfl⟩ := List.mem_map.mp hx
  rcases List.mem_append.mp hb with hb | hb
  · obtain ⟨r, hr, rfl⟩ := List.mem_map.mp hb
    have hle := hlow r hr
    have hdiv := Nat.div_mul_le_self r.size 4096
    show r.base + r.size / 4096 * 4096 ≤ n
    omega
  · rw [(List.mem_replicate.mp hb).2]
    exact Nat.zero_le _

/-- the account when the physical memory is set up -/
theorem books_init (hmap : RegionsOk (mapRegions boot.memMap))
    (hlow : ∀ r ∈ mapRegions boot.memMap, r.base + r.size ≤ 2^52)
    (hinit : initPhysicalMemory boot = some (a, memFree)) (hacc : Accounted a) :
    Books (a.blocks.map PhysicalMemoryBlock.span) 0 a ∧
      ∀ x ∈ a.blocks.map PhysicalMemoryBlock.span, x.1 + x.2 * 4096 ≤ 2^52 := by
  obtain ⟨hlen, g⟩ := init_freed hmap hinit
  have hspan := spans_init hmap hlow hinit
  refine ⟨⟨g.ok, rfl, ?_⟩, hspan⟩
  have hlt := clearCount_lt hspan
  rw [Nat.add_zero, Nat.mod_eq_of_lt (by omega)]
  exact hacc

/-- **Pages of the initram are counted that no bit is cleared for.** -/
theorem initMem_books (hmap : RegionsOk (mapRegions boot.memMap))
    (hlow : ∀ r ∈ mapRegions boot.memMap, r.base + r.size ≤ 2^52)
    (hinit : initPhysicalMemory boot = some (a, memFree)) (hacc : Accounted a) {initramSize : Nat}
    {video : BootVideo} {nx : Bool} {img : KernelImage} {m : Machine} {mem : KernelMemory}
    (h : initMem boot initramSize video nx img m = some mem) :
    Accounted mem.heap.vm.pmem ↔ initramSize = 0 := by
  obtain ⟨hbooks, hspan⟩ := books_init hmap hlow hinit hacc
  simp only [initMem, hinit, Option.bind_eq_bind, Option.bind_some, Option.bind_eq_some_iff] at h
  obtain ⟨m₁, e₁, ⟨tmp, heap⟩, e₂, m₂, e₃, ⟨fb, m₃⟩, e₄, e₅⟩ := h
  obtain rfl := Option.some.inj e₅
  -- the page tables and the heap are paid for
  have h₁ := initKernelMemProt_keeps Books.alloc (m := { m with pmem := a, nx := nx }) hbooks e₁
  have h₂ := kmalloc_machine_keeps Books.alloc (s := ⟨m₁, 0⟩) h₁ e₂
  obtain ⟨hpm, hcan⟩ := memcpy_pmem e₃
  -- the initram ends before the canonical addresses do
  have hsize : initramSize ≤ 2^32 + 2^47 := by
    by_contra hgt
    have hc := hcan (2^32 + 2^47) (by omega)
    simp [canonical, INITRAM] at hc
  have hpages : pageCount initramSize = (initramSize + 4095) / 4096 := pageCount_of_lt (by omega)
  -- every block ends below the virtual address of the initram
  have hpage : ∀ x ∈ a.blocks.map PhysicalMemoryBlock.span, x.1 + x.2 * 4096 ≤ INITRAM % 2^64 :=
    fun x hx => le_trans (hspan x hx) (by decide)
  obtain ⟨c, hc, h₃⟩ := Books.freePhysPages (hpm ▸ h₂) hpage (pageCount initramSize)
  have h₄ : Books _ _ m₃.pmem := kmap_keeps Books.alloc
    (m := { m₂ with pmem := freePhys m₂.pmem INITRAM initramSize }) h₃ e₄
  have hlt := clearCount_lt (h₄.span ▸ hspan)
  have e := h₄.pages
  show m₃.pmem.pagesFree = clearCount m₃.pmem.blocks ↔ _
  omega

end

/-! ## when it returns -/

theorem HeapRegion.kernelPage {v : Nat} (h : HeapRegion v) : KernelPage v := by
  unfold HeapRegion HEAP_BASE HEAP_END at h
  show 256 < v / 512^3 % 512
  omega

section
variable {m m₁ m₂ m' : Machine} {img : KernelImage} {n size : Nat}

/-- no page of the kernel loses its mapping -/
theorem MemProt.leaf_isSome (h : MemProt img m m₁ m₂ m') (v : Nat) :
    (leaf m' v).isSome = (leaf m v).isSome := by
  obtain ⟨g, e, -⟩ := h.entry_map v 0 (Nat.zero_le 3)
  have e' : leaf m' v = (leaf m₁ v).map g := e
  rw [e', Option.isSome_map, h.grown.leaf]

/-- the first block of the heap, and the pages that it is not about -/
theorem kmalloc_first (h : HeapStart m) (hpl : PlainOn KernelPage m) (hg : CanGrow m 0 (blockLen size)) :
    ∃ heap, kmalloc machineVM ⟨m, 0⟩ size = some (HEAP_BASE + HEADER, heap) ∧
      HeapBacked heap.vm (blockLen size) ∧ PlainOn KernelPage heap.vm ∧
      ∀ v, ¬ Among (HEAP_BASE / 4096) (blockPages size) v → leaf heap.vm v = leaf m v := by
  have hpages : pagesIn (blockLen size) = blockPages size := pagesIn_blockLen size
  have hcov : covered (HEAP_BASE / 4096) (blockPages size) = blockPages size :=
    covered_eq.mpr (.inl hg.reach.reached)
  have hroom := hg.room
  obtain ⟨heap, e, hwf, -⟩ := h.kmalloc hg
  obtain ⟨m', e', a, -, hpl'⟩ := makeNewBlock_account h.tables h.wf.sound hpl hg.reach.span
    (fun v hv => (heapRegion_tables (le_refl _) (by
      have hb := (blockLen_page size).1
      unfold blockPages HEAP_BASE HEAP_END at *
      omega) hv).kernelPage)
    (by
      show missing m (HEAP_BASE / 4096) _ + covered (HEAP_BASE / 4096) _ ≤ _
      rw [hcov]
      exact hg.pages)
  rw [kmalloc_empty, e'] at e
  obtain ⟨-, rfl⟩ := Prod.mk.inj (Option.some.inj e)
  have hmaps : HeapBacked m' (0 + blockLen size) := hwf.maps
  rw [Nat.zero_add] at hmaps
  refine ⟨_, (kmalloc_empty m size).trans e', hmaps, hpl', fun v hv => a.others v ?_⟩
  show ¬ Among (HEAP_BASE / 4096) (covered (HEAP_BASE / 4096) (blockPages size)) v
  rwa [hcov]

/-! ### the copy -/

/-- the heap has `n` bytes, and the initram is mapped -/
structure CopyReady (m : Machine) (n size : Nat) : Prop where
  backed : HeapBacked m n
  plain : PlainOn KernelPage m
  source : ∀ i < size, (leaf m ((INITRAM + i) / 4096)).isSome

/-- a byte of the initram -/
theorem CopyReady.loadByte (h : CopyReady m n size) (hn : 0 < n) (hsize : size ≤ 2^32) {i : Nat} (hi : i < size) :
    ∃ b, loadByte m ((INITRAM + i) % 2^64) = some b := by
  have hva : (INITRAM + i) % 2^64 = INITRAM + i := Nat.mod_eq_of_lt (by unfold INITRAM; omega)
  have hv : KernelPage ((INITRAM + i) / 4096) := by
    show 256 < (INITRAM + i) / 4096 / 512^3 % 512
    unfold INITRAM
    omega
  have hcan : canonical (INITRAM + i) := by
    unfold canonical INITRAM
    omega
  obtain ⟨w, hw⟩ := Option.isSome_iff_exists.mp (h.source i hi)
  obtain ⟨t, ht, -⟩ := translate_page h.plain hv hcan hw
  have hcpu : m.cpuCr3 = m.cr3 := h.backed.running.resolve_left (by omega)
  rw [hva]
  unfold FuseeOS.loadByte
  rw [hcpu, ht]
  exact ⟨_, rfl⟩

/-- a byte of the heap is written -/
theorem CopyReady.storeByte (h : CopyReady m n size) {a : Nat} (ha : HEAP_BASE ≤ a) (hlt : a < HEAP_BASE + n)
    (b : BitVec 8) : ∃ m', storeByte m (a % 2^64) b = some m' ∧ CopyReady m' n size := by
  have hroom := h.backed.room
  have hbase := HEAP_BASE_mod
  have hwhole := h.backed.whole
  have hva : a % 2^64 = a := Nat.mod_eq_of_lt (by unfold HEAP_BASE HEAP_END at *; omega)
  -- the word that the byte is in
  have hin : InHeap n (a / 8 * 8) := ⟨by omega, by omega, by omega⟩
  obtain ⟨j, hj, w, he, hr, hc, hw, hf, hu⟩ := h.backed.word hin
  have hpage : a / 8 * 8 / 4096 = a / 4096 := by omega
  rw [hpage] at he hr
  have hcan : canonical a := by
    unfold canonical at *
    unfold HEAP_BASE HEAP_END at *
    omega
  obtain ⟨t, ht, -, hframe, hword⟩ := translate_page h.backed.plain hr hcan (he ▸ hw)
  obtain ⟨m', e, hb', -⟩ := h.backed.store hin (setByte (m.mem t.frame t.word) (t.addr % 8) b)
  have e' := storeWord_leaf h.backed.plain (h.backed.cpu hin) (hpage ▸ hr) hc hin.1 (hpage ▸ he ▸ hw)
    (setByte (m.mem t.frame t.word) (t.addr % 8) b)
  rw [e', Option.some.injEq] at e
  have hset := dataSet_setWord m (frameOf w) ⟨a / 8 * 8 % 4096 / 8, by omega⟩
    (setByte (m.mem t.frame t.word) (t.addr % 8) b)
  rw [e] at hset
  have hleaf (v : Nat) : leaf m' v = leaf m v := hset.leaf hf.table v
  refine ⟨m', ?_, hb', (hset.same hf.table).plain h.plain, fun i hi => (hleaf _).symm ▸ h.source i hi⟩
  have hidx : t.word = ⟨a / 8 * 8 % 4096 / 8, by omega⟩ := by
    apply Fin.ext
    rw [hword]
    show a % 4096 / 8 = a / 8 * 8 % 4096 / 8
    omega
  unfold FuseeOS.storeByte
  rw [hva, h.backed.cpu hin, ht, ← e, ← hframe, ← hidx]
  rfl

/-- **The initram is copied**, by induction on the bytes that are left. -/
theorem CopyReady.memcpy (hsize : size ≤ 2^32) (hroom : HEADER + size ≤ n) (k i : Nat) (hi : i + k = size)
    (h : CopyReady m n size) : ∃ m', memcpy (HEAP_BASE + HEADER) INITRAM k i m = some m' := by
  induction k generalizing i m with
  | zero => exact ⟨m, rfl⟩
  | succ k ih =>
    obtain ⟨b, hb⟩ := h.loadByte (by omega) hsize (show i < size by omega)
    obtain ⟨m₁, e, h₁⟩ := h.storeByte (show HEAP_BASE ≤ HEAP_BASE + HEADER + i by omega) (by omega) b
    obtain ⟨m', e'⟩ := ih (i + 1) (by omega) h₁
    refine ⟨m', ?_⟩
    unfold FuseeOS.memcpy
    simp only [hb, e, e', Option.bind_eq_bind, Option.bind_some]

/-- nothing is mapped for a framebuffer of no bytes -/
theorem kmap_nothing (m : Machine) (phys prot : Nat) : ∃ x, kmap m 0 phys 0 prot = some x := by
  unfold kmap
  simp only [if_pos]
  rw [forPages_empty rfl]
  exact ⟨_, rfl⟩

/-- **`init_mem` returns** on a machine whose screen is in text mode, where `pitch` is 0. -/
theorem initMem_returns {boot : BootParams} {a : PhysicalMemoryAllocator} {memFree : List BootMemRegion}
    {video : BootVideo} {nx : Bool} (hinit : initPhysicalMemory boot = some (a, memFree))
    (hb : Booted img { m with pmem := a, nx := nx }) (hspan : ∀ s ∈ img.sections, s.InSpan)
    (hpages : absentTops m 256 + (2 + tableCount (blockPages size)) + blockPages size ≤ a.pagesFree)
    (hheap : ∀ v, HeapRegion v → leaf m v = none)
    (hroom : HEAP_BASE + blockLen size ≤ HEAP_END) (hreach : InReach (HEAP_BASE / 4096) (blockPages size))
    (hsize : size ≤ 2^32) (hsource : ∀ i < size, (leaf m ((INITRAM + i) / 4096)).isSome)
    (htext : video.pitch = 0) : ∃ mem, initMem boot size video nx img m = some mem := by
  have habs : absentTops { m with pmem := a, nx := nx } 256 = absentTops m 256 := rfl
  rcases initKernelMemProt_spec hb.tables hb.plain hb.laid hb.mapped with
    ⟨-, m₁, m₂, m', e₁, hp⟩ | ⟨hno, -⟩
  swap
  · exact absurd ⟨by rw [habs]; show _ ≤ a.pagesFree; omega, hspan⟩ hno
  -- the heap
  have hi := hp.spaceInv
  have hleaf (v : Nat) : (leaf m' v).isSome = (leaf m v).isSome := hp.leaf_isSome v
  have hstart : HeapStart m' := by
    refine ⟨hi.tables, fun v hv => hi.plain v hv.kernelPage, fun v hv => ?_⟩
    rw [← Option.not_isSome_iff_eq_none, hleaf, hheap v hv]
    exact Bool.false_ne_true
  have hfree : m'.pmem.pagesFree + absentTops m 256 = a.pagesFree := by
    rw [hp.sections.pmem, hp.opened.pmem]
    exact hp.count
  have hmiss := missing_le m' (HEAP_BASE / 4096) (blockPages size)
  have hgrow : CanGrow m' 0 (blockLen size) := by
    refine ⟨(blockLen_page size).2, by rwa [Nat.zero_add], ?_, hreach⟩
    show missing m' (HEAP_BASE / 4096) (blockPages size) + blockPages size ≤ _
    omega
  obtain ⟨heap, e₂, hback, hpl, hother⟩ := kmalloc_first hstart hi.plain hgrow
  have hready : CopyReady heap.vm (blockLen size) size := by
    refine ⟨hback, hpl, fun i hi' => ?_⟩
    rw [hother, hleaf]
    · exact hsource i hi'
    · rintro ⟨j, hj, hsame⟩
      unfold SamePage at hsame
      unfold blockPages at hj
      unfold HEAP_BASE HEAP_END INITRAM at *
      omega
  have hlen : HEADER + size ≤ blockLen size := by
    unfold blockLen
    omega
  obtain ⟨m₃, e₃⟩ := hready.memcpy hsize hlen size 0 (Nat.zero_add size)
  obtain ⟨x, e₄⟩ := kmap_nothing { m₃ with pmem := freePhys m₃.pmem INITRAM size } video.framebuffer
    (KPROT_READ ||| KPROT_WRITE)
  refine ⟨⟨⟨unmapLomem x.2, heap.heapSize⟩, HEAP_BASE + HEADER, x.1⟩, ?_⟩
  have hzero : video.pitch * video.height % 2^32 = 0 := by
    rw [htext, Nat.zero_mul, Nat.zero_mod]
  simp only [initMem, hinit, hzero, Option.bind_eq_bind, Option.bind_some]
  rw [e₁, Option.bind_some, e₂, Option.bind_some, e₃, Option.bind_some, e₄, Option.bind_some]
  rfl

end

/-! ## the result -/

/-- **The account is right in the end if and only if there is no initram**: pages are given back by the
virtual address of the initram, which lies in no block. -/
theorem init_mem_accounting {boot : BootParams} {a : PhysicalMemoryAllocator} {memFree : List BootMemRegion}
    (hmap : RegionsOk (mapRegions boot.memMap))
    (hlow : ∀ r ∈ mapRegions boot.memMap, r.base + r.size ≤ 2^52)
    (hinit : initPhysicalMemory boot = some (a, memFree)) (hacc : Accounted a) (initramSize : Nat)
    (video : BootVideo) (nx : Bool) (img : KernelImage) (m : Machine) (mem : KernelMemory)
    (h : initMem boot initramSize video nx img m = some mem) :
    (Accounted mem.heap.vm.pmem ∧ InitramFreed m initramSize mem.heap.vm.pmem) ↔ initramSize = 0 := by
  have hbooks := initMem_books hmap hlow hinit hacc h
  constructor
  · intro hall
    exact hbooks.mp hall.1
  · intro h0
    have hnone : ∀ i, ¬ i < pageCount initramSize := by
      intro i
      rw [h0]
      exact Nat.not_lt_zero i
    exact ⟨hbooks.mpr h0, fun i hi => absurd hi (hnone i), fun i hi => absurd hi (hnone i)⟩


/-! ### an initram of one page -/

section
variable {boot : BootParams} {a : PhysicalMemoryAllocator} {memFree : List BootMemRegion}

theorem BootWf.regionsOk (h : BootWf boot) : RegionsOk (mapRegions boot.memMap) :=
  ⟨h.count, h.maps.disjoint, fun r hr => (h.maps.wf r hr).bound⟩

/-- what is set up exactly is accounted for, in the blocks behind the first short one as well -/
theorem InitCond.accounted (h : BootWf boot) (hroom : carved boot = some memFree) (hc : InitCond boot memFree)
    (hinit : initPhysicalMemory boot = some (a, memFree)) : Accounted a := by
  obtain ⟨a', e, -, hspan, -, hpages⟩ := hc.transfer h hroom
  rw [hinit] at e
  obtain ⟨rfl, -⟩ := Prod.mk.inj (Option.some.inj e)
  obtain ⟨hlen, g⟩ := init_freed h.regionsOk hinit
  -- the blocks behind the regions have no page
  have hdead : ∀ b ∈ deadBlocks a.blocks, b.clearBits.card = 0 := by
    have happ := g.span
    rw [← live_append_dead a.blocks, List.map_append] at happ
    have hinitial : (initAlloc ((mapRegions boot.memMap).map mapBlock) hlen).blocks.map PhysicalMemoryBlock.span =
        (mapRegions boot.memMap).map (fun m => (m.base, m.size / 4096)) ++
          List.replicate (PMB_COUNT - ((mapRegions boot.memMap).map mapBlock).length) (0, 0) := by
      show List.map _ (_ ++ List.replicate _ _) = _
      rw [List.map_append, List.map_map, List.map_replicate]
      rfl
    have hlive : (liveBlocks a.blocks).map PhysicalMemoryBlock.span =
        (mapRegions boot.memMap).map fun m => (m.base, m.size / 4096) := hspan
    rw [hinitial, hlive] at happ
    intro b hb
    have hz := List.eq_of_mem_replicate (List.append_cancel_left happ ▸ List.mem_map_of_mem hb)
    have hn : b.npages = 0 := congrArg Prod.snd hz
    unfold PhysicalMemoryBlock.clearBits
    rw [hn]
    rfl
  show a.pagesFree = clearCount a.blocks
  rw [hpages, ← live_append_dead a.blocks]
  unfold clearCount
  have hzero : ((deadBlocks a.blocks).map fun b => b.clearBits.card).sum = 0 := by
    apply List.sum_eq_zero
    intro x hx
    obtain ⟨b, hb, rfl⟩ := List.mem_map.mp hx
    exact hdead b hb
  rw [List.map_append, List.sum_append, hzero, Nat.add_zero]

end

/-- 4 MiB of free memory -/
def initBoot : BootParams := regionBoot 0x1000000 0x400000

/-- without the pages of the bitmaps -/
def initFree : List BootMemRegion := ⟨0x1008000, 0x3f8000⟩ :: List.replicate 63 ⟨0, 0⟩

theorem initBoot_wf : BootWf initBoot := bootWf_region (by decide) (by decide) (by decide) (by decide)

theorem mapRegions_initBoot : mapRegions initBoot.memMap = [⟨0x1000000, 0x400000⟩] :=
  mapRegions_region (by decide)

theorem initBoot_low : ∀ r ∈ mapRegions initBoot.memMap, r.base + r.size ≤ 2^52 := by
  rw [mapRegions_initBoot]
  simp

theorem initBoot_cond : InitCond initBoot initFree := by
  have hmem (r : BootMemRegion) (hr : r ∈ initFree) : r = ⟨0x1008000, 0x3f8000⟩ ∨ r = ⟨0, 0⟩ :=
    (List.mem_cons.mp hr).imp id fun hr => List.eq_of_mem_replicate hr
  constructor
  · rw [mapRegions_initBoot]
    simp only [List.mem_singleton, forall_eq]
    decide
  · intro r hr
    rcases hmem r hr with rfl | rfl
    · decide
    · decide
  · intro r hr _
    rw [mapRegions_initBoot]
    simp only [List.mem_singleton, forall_eq]
    intro _
    decide

/-- 1016 pages are free -/
theorem initPhysicalMemory_initBoot : ∃ a, initPhysicalMemory initBoot = some (a, initFree) ∧ PmemInv a ∧
    Accounted a ∧ (∀ p, a.Owns p → 0x1000000 ≤ p ∧ p < 0x1400000) ∧ 1016 ≤ a.pagesFree := by
  have hroom : carved initBoot = some initFree := rfl
  obtain ⟨a, e, hshape, hspan, hfree, hpages⟩ := initBoot_cond.transfer initBoot_wf hroom
  rw [mapRegions_initBoot] at hspan
  obtain ⟨b, hb, hs⟩ := List.map_eq_singleton_iff.mp hspan
  obtain ⟨hbase, hn⟩ := Prod.mk.inj hs
  dsimp only at hbase hn
  have hacc := initBoot_cond.accounted initBoot_wf hroom e
  refine ⟨a, e, ⟨hshape, fun c hc => ?_, hpages⟩, hacc, fun p hp => ?_, ?_⟩
  · rw [hb, List.mem_singleton] at hc
    subst hc
    unfold PhysicalMemoryBlock.Fits
    omega
  · obtain ⟨c, hc, k, hk, rfl⟩ := hp
    rw [hb, List.mem_singleton] at hc
    subst hc
    unfold PhysicalMemoryBlock.page
    omega
  · have hsub : Finset.Ico 8 1024 ⊆ b.clearBits := by
      intro k hk
      obtain ⟨h8, hk⟩ := Finset.mem_Ico.mp hk
      have hf : a.Free (b.page k) := by
        refine (hfree _).mpr ⟨?_, _, List.mem_cons_self, ?_⟩
        · unfold PhysicalMemoryBlock.page
          omega
        · unfold BootMemRegion.Has PhysicalMemoryBlock.page
          dsimp only
          omega
      obtain ⟨c, hc, i, hi, he, hg⟩ := hf
      rw [hb, List.mem_singleton] at hc
      subst hc
      unfold PhysicalMemoryBlock.page at he
      obtain rfl : k = i := by omega
      exact (mem_clearBits c k).mpr ⟨hi, hg⟩
    have hcard := Finset.card_le_card hsub
    rw [Nat.card_Ico] at hcard
    rw [hpages, hb]
    show 1016 ≤ b.clearBits.card + 0
    omega

/-- the machine before `init_mem`: the boot loader's `valloc` of the initram takes its pages below 7 MiB -/
theorem exists_initramMachine : ∃ m : Machine,
    (∀ a nx, PmemInv a → (∀ p, a.Owns p → 0x700000 ≤ p ∧ p < 2^47) →
      Booted (pagesImage 1 1 1 1) { m with pmem := a, nx := nx }) ∧
    (∀ v, HeapRegion v → leaf m v = none) ∧ (leaf m (INITRAM / 4096)).isSome := by
  let m₀ : Machine := { bootMachine with pmem := freeAlloc 0x600000 8 }
  have howns {p : Nat} (hp : m₀.pmem.Owns p) : 0x600000 ≤ p ∧ p < 0x608000 := freeAlloc_owns (by decide) hp
  have hinv : PmemInv m₀.pmem := freeAlloc_inv (by decide) (by decide) (by decide) (by decide)
  have ht₀ : Tables m₀ := bootTables_with hinv fun p hp => by
    have := howns hp
    omega
  have hmiss := missing_le m₀ (INITRAM / 4096) 1
  have hone : tableCount 1 = 1 := by decide
  have hcov : covered (INITRAM / 4096) 1 = 1 := by decide
  obtain ⟨m₁, m₂, -, g, -, hm⟩ := (kmapanon_spec ht₀ bootMachine_plain
    (show INITRAM / 4096 = INITRAM / 4096 from rfl) (by decide) (show (4096 + 4095) / 4096 = 1 from rfl) (by decide) (by decide)
    (fun v hv => by
      rw [InTablesOf, hone] at hv
      unfold INITRAM at hv
      show 256 < v / 512^3 % 512
      omega) (KPROT_READ ||| KPROT_WRITE)).resolve_right fun hno => by
        have h8 : m₀.pmem.pagesFree = 8 := rfl
        have := hno.2
        omega
  rw [hcov] at hm
  have hleaf (v : Nat) (hv : ¬ SamePage v (INITRAM / 4096)) : leaf m₂ v = leaf bootMachine v := by
    refine (hm.toOnlyLeaves.leaf fun j hj => ?_).trans (g.toGrown.leaf v)
    obtain rfl : j = 0 := by omega
    exact hv
  have hlow {a : PhysicalMemoryAllocator} (ho : ∀ p, a.Owns p → 0x700000 ≤ p ∧ p < 2^47) (p : Nat)
      (hp : a.Owns p) : p < 2^47 := (ho p hp).2
  refine ⟨m₂, fun a nx ha ho => ⟨⟨ha, hlow ho, hm.tables.tree, fun t ht hq => ?_, hm.tables.root⟩,
    hm.toOnlyLeaves.plain g.plain, pagesImage_laid (by decide), fun s hs j hj => ?_⟩, fun v hv => ?_, ?_⟩
  · -- the tables lie below the pages that are handed out
    have hlow := (ho t hq.inBlocks).1
    rcases g.fresh t ((isTable_congr hm.node t).mp ht) with ⟨p, hp, e⟩ | hf
    · rcases nodeAt_boot hp e with ⟨-, rfl⟩ | ⟨-, rfl⟩ | ⟨-, rfl⟩ | ⟨-, rfl⟩ | ⟨-, rfl⟩ <;> omega
    · have := howns hf.inBlocks
      omega
  · have hboot := (booted_pagesImage (t := 1) (r := 1) (d := 1) (b := 1) (by decide)).mapped s hs j hj
    have hpl := (pagesImage_laid (t := 1) (r := 1) (d := 1) (b := 1) (by decide)).placed hs
    have h1 := hpl.first_ge
    have h2 := hpl.last
    show (leaf m₂ _).isSome
    rw [hleaf]
    · exact hboot
    · unfold SamePage INITRAM
      omega
  · rw [hleaf]
    · exact heapMachine_start.unmapped v hv
    · unfold HeapRegion HEAP_BASE HEAP_END at hv
      unfold SamePage INITRAM
      omega
  · obtain ⟨p, hp, -⟩ := hm.mapped 0 (by decide)
    rw [show INITRAM / 4096 = INITRAM / 4096 + 0 from rfl, hp]
    rfl

/-- a screen in text mode -/
def textVideo : BootVideo := ⟨VIDEO_MODE_TEXT, 80, 25, 0, 0, 0, 0, 80, 25, 0xb8000⟩

/-- one byte of initram -/
theorem initMem_initBoot : ∃ m a memFree mem, initPhysicalMemory initBoot = some (a, memFree) ∧ Accounted a ∧
    initMem initBoot 1 textVideo true (pagesImage 1 1 1 1) m = some mem := by
  obtain ⟨m, hbooted, hheap, hsource⟩ := exists_initramMachine
  obtain ⟨a, e, hinv, hacc, howns, hpages⟩ := initPhysicalMemory_initBoot
  have habs := absentTops_le m 256
  have hlen : blockLen 1 = 4096 := by decide
  have hone : blockPages 1 = 1 := by decide
  have htables : tableCount (blockPages 1) = 1 := by decide
  have hroom : HEAP_BASE + blockLen 1 ≤ HEAP_END := by
    rw [hlen]
    unfold HEAP_BASE HEAP_END
    decide
  have hreach : InReach (HEAP_BASE / 4096) (blockPages 1) := by
    rw [hone]
    unfold HEAP_BASE
    decide
  obtain ⟨mem, hmem⟩ : ∃ mem, initMem initBoot 1 textVideo true (pagesImage 1 1 1 1) m = some mem := by
    refine initMem_returns e (hbooted a true hinv fun p hp => ?_) (by decide) (by omega) hheap hroom hreach
      (by decide) (fun i hi => ?_) rfl
    · have := howns p hp
      omega
    · obtain rfl : i = 0 := by omega
      exact hsource
  exact ⟨m, a, _, mem, e, hacc, hmem⟩

theorem init_mem_accounting_one : ∃ m a memFree mem, initPhysicalMemory initBoot = some (a, memFree) ∧
    initMem initBoot 1 textVideo true (pagesImage 1 1 1 1) m = some mem ∧
    ¬ (Accounted mem.heap.vm.pmem ∧ InitramFreed m 1 mem.heap.vm.pmem) := by
  obtain ⟨m, a, memFree, mem, hinit, hacc, hmem⟩ := initMem_initBoot
  refine ⟨m, a, memFree, mem, hinit, hmem, fun h => ?_⟩
  have h0 := (init_mem_accounting initBoot_wf.regionsOk initBoot_low hinit hacc 1 textVideo true _ m mem hmem).mp h
  exact absurd h0 Nat.one_ne_zero

/-- With one byte of initram one page is counted that is not free. -/
theorem init_mem_miscounts : ¬ ∀ (boot : BootParams) (a : PhysicalMemoryAllocator) (memFree : List BootMemRegion)
    (initramSize : Nat) (video : BootVideo) (nx : Bool) (img : KernelImage) (m : Machine) (mem : KernelMemory),
    RegionsOk (mapRegions boot.memMap) → (∀ r ∈ mapRegions boot.memMap, r.base + r.size ≤ 2^52) →
    initPhysicalMemory boot = some (a, memFree) → Accounted a →
    initMem boot initramSize video nx img m = some mem →
    Accounted mem.heap.vm.pmem ∧ InitramFreed m initramSize mem.heap.vm.pmem := by
  intro hall
  obtain ⟨m, a, memFree, mem, hinit, hacc, hmem⟩ := initMem_initBoot
  obtain ⟨h, -⟩ := hall initBoot a memFree 1 textVideo true _ m mem initBoot_wf.regionsOk initBoot_low hinit
    hacc hmem
  exact absurd ((initMem_books initBoot_wf.regionsOk initBoot_low hinit hacc hmem).mp h) Nat.one_ne_zero

end FuseeOS
