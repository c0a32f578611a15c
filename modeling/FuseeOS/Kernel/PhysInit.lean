import Mathlib.Algebra.BigOperators.Group.List.Basic
import FuseeOS.Kernel.PhysAlloc

/-!
# Setting up the page allocator

`alloc_phys_early` and `init_physical_memory`: the boot loader's memory map becomes the allocator's
blocks, and the free regions, less the pages carved out for the bitmaps, become free pages.

* `carveBitmaps_eq`   the bitmaps of a block are carved first-fit, unless one has `2^19` pages;
* `unmark_spec`       a region of at most `2^32` bytes is freed page by page;
* `unmarkRegions_within`   a larger one never beyond its first `2^32` bytes;
* `init_exact`        when the memory map is transferred exactly.
-/

namespace FuseeOS
open BitMap

structure BootMemRegion where
  base : Nat
  size : Nat

/-- what the kernel reads of `gBootParams`: two arrays of `MAX_MEM_REGIONS` entries -/
structure BootParams where
  memMap : List BootMemRegion
  memFree : List BootMemRegion
  mapCount : memMap.length = 64
  freeCount : memFree.length = 64

/-- number of `mem_free` entries that the kernel looks at -/
abbrev FREE_SCAN : Nat := 32

/-- the loop of `alloc_phys_early`: `n` entries are left to look at -/
def takeEarly (size : Nat) : Nat → List BootMemRegion → Option (Nat × List BootMemRegion)
  | 0, _ => none
  | _ + 1, [] => none
  | n + 1, reg :: rest =>
    if reg.size ≥ size then
      some (reg.base, ⟨(reg.base + size) % 2^64, (reg.size + (2^64 - size)) % 2^64⟩ :: rest)
    else (takeEarly size n rest).map fun (base, rest) => (base, reg :: rest)

/-- `size = npages * PAGESIZE` is computed in `int`; without a region that is large enough the
result is 0 -/
def allocPhysEarly (memFree : List BootMemRegion) (npages : Int) :
    Option (Nat × List BootMemRegion) := do
  let size ← CInt.intMul? npages PAGESIZE
  return (takeEarly (CInt.toU64 size) FREE_SCAN memFree).getD (0, memFree)

def freeBytes (memFree : List BootMemRegion) : Nat := (memFree.map (·.size)).sum

/-- The bitmaps of a block, `n` orders of them, the first of `bitmapSizePages` pages.  A bitmap is an
array of its own, filled with ones, where `memset` stays within the bytes that were carved out for
it; where it does not, the memory is overwritten and there is no result. -/
def carveBitmaps : Nat → Nat → List BootMemRegion → Option (List BootMemRegion)
  | 0, _, memFree => some memFree
  | n + 1, bitmapSizePages, memFree => do
    let (_, memFree') ← allocPhysEarly memFree (CInt.toInt bitmapSizePages)
    if bitmapSizePages * PAGESIZE % 2^64 ≤ freeBytes memFree - freeBytes memFree' then
      carveBitmaps n ((bitmapSizePages + 1) / 2) memFree'
    else none

/-- `(npages + PAGESIZE * 8 - 1) / (PAGESIZE * 8)` -/
def bitmapPages (npages : Nat) : Nat := (npages + PAGESIZE * 8 - 1) / (PAGESIZE * 8)

theorem bitmapPages_eq (npages : Nat) : bitmapPages npages = (npages + 32767) / 32768 := by
  simp only [bitmapPages, PAGESIZE]
  omega

/-- the loop over `mem_map`: `slots` blocks are left; running off either array is `none` -/
def initBlocks : List BootMemRegion → Nat → List BootMemRegion →
    Option (List PhysicalMemoryBlock × List BootMemRegion)
  | [], _, _ => none
  | reg :: rest, slots, memFree =>
    if reg.size = 0 then some ([], memFree)
    else
      match slots with
      | 0 => none
      | slots + 1 => do
        let npages := reg.size / PAGESIZE
        let memFree ← carveBitmaps PMB_MAX_ORDER (bitmapPages npages) memFree
        let (blocks, memFree) ← initBlocks rest slots memFree
        return (⟨reg.base, npages, fun _ => ones⟩ :: blocks, memFree)

/-- One region: `for (unsigned int j = 0; j < reg->size / PAGESIZE; ++j)`, with `j * PAGESIZE` an
`unsigned int` as well.  A loop that ends takes one step for each page, so that the fuel
`size / PAGESIZE + 1` only runs out where it does not end. -/
def unmarkPages (reg : BootMemRegion) : Nat → Nat → PhysicalMemoryAllocator →
    Option PhysicalMemoryAllocator
  | 0, _, _ => none
  | fuel + 1, j, alloc =>
    if j < reg.size / PAGESIZE then
      let page := (reg.base + j * PAGESIZE % 2^32) % 2^64
      unmarkPages reg fuel ((j + 1) % 2^32)
        { markPageFree alloc page with pagesFree := (alloc.pagesFree + 1) % 2^64 }
    else some alloc

def unmarkRegions : List BootMemRegion → PhysicalMemoryAllocator → Option PhysicalMemoryAllocator
  | [], alloc => some alloc
  | reg :: rest, alloc => do
    let alloc ← unmarkPages reg (reg.size / PAGESIZE + 1) 0 alloc
    unmarkRegions rest alloc

theorem length_initBlocks {maps memFree memFree' : List BootMemRegion} {slots : Nat}
    {blocks : List PhysicalMemoryBlock}
    (h : initBlocks maps slots memFree = some (blocks, memFree')) : blocks.length ≤ slots := by
  induction maps generalizing slots memFree memFree' blocks with
  | nil => exact nomatch h
  | cons reg rest ih =>
    unfold initBlocks at h
    by_cases h0 : reg.size = 0
    · rw [if_pos h0] at h
      obtain ⟨rfl, _⟩ := Prod.mk.inj (Option.some.inj h)
      exact Nat.zero_le _
    · rw [if_neg h0] at h
      cases slots with
      | zero => exact nomatch h
      | succ slots =>
        obtain ⟨m, _, h⟩ := Option.bind_eq_some_iff.mp h
        obtain ⟨⟨bs, m'⟩, hrec, h⟩ := Option.bind_eq_some_iff.mp h
        obtain ⟨rfl, _⟩ := Prod.mk.inj (Option.some.inj h)
        exact Nat.succ_le_succ (ih hrec)

/-- the allocator after the first loop; what is not set up is still zero -/
def initAlloc (blocks : List PhysicalMemoryBlock) (h : blocks.length ≤ PMB_COUNT) :
    PhysicalMemoryAllocator where
  blocks := blocks ++ List.replicate (PMB_COUNT - blocks.length) default
  pagesTotal := (blocks.map (·.npages)).sum % 2^64
  pagesFree := 0
  count := by
    rw [List.length_append, List.length_replicate]
    omega

/-- `init_physical_memory`: the allocator, and `mem_free` as it stands afterwards -/
def initPhysicalMemory (boot : BootParams) :
    Option (PhysicalMemoryAllocator × List BootMemRegion) :=
  match h : initBlocks boot.memMap PMB_COUNT boot.memFree with
  | none => none
  | some (blocks, memFree) =>
    (unmarkRegions (memFree.take FREE_SCAN) (initAlloc blocks (length_initBlocks h))).map
      fun alloc => (alloc, memFree)

/-! ## regions -/

namespace BootMemRegion

/-- the address lies in the region -/
def Has (r : BootMemRegion) (p : Nat) : Prop := r.base ≤ p ∧ p < r.base + r.size

def Apart (r s : BootMemRegion) : Prop := ∀ p, ¬ (r.Has p ∧ s.Has p)

/-- what is left of a region after `size` bytes were taken from its start -/
def rest (r : BootMemRegion) (size : Nat) : BootMemRegion :=
  ⟨(r.base + size) % 2^64, (r.size + (2^64 - size)) % 2^64⟩

theorem Apart.symm {r s : BootMemRegion} (h : r.Apart s) : s.Apart r := fun p hp => h p ⟨hp.2, hp.1⟩

instance : Std.Symm Apart := ⟨fun _ _ => Apart.symm⟩

/-- A region of whole pages inside the 64-bit addresses; nothing is said of the base of an unused entry.  The
bitmaps are lists here: in memory they are written through the direct map, which ends at 512 GiB. -/
structure Wf (r : BootMemRegion) : Prop where
  bound : r.base + r.size ≤ 2^64
  short : r.size < 2^64
  pages : r.size % 4096 = 0
  aligned : r.size ≠ 0 → r.base % 4096 = 0

section
variable {r : BootMemRegion} {size : Nat}

theorem rest_size (h : r.Wf) (hs : size ≤ r.size) : (r.rest size).size = r.size - size := by
  have := h.short
  unfold rest
  dsimp only
  omega

theorem rest_base (h : r.Wf) (hs : size < r.size) : (r.rest size).base = r.base + size := by
  have := h.bound
  unfold rest
  dsimp only
  omega

theorem rest_has (h : r.Wf) (hs : size ≤ r.size) {p : Nat} (hp : (r.rest size).Has p) : r.Has p := by
  obtain ⟨h1, h2⟩ := hp
  have hsz := rest_size h hs
  have hb := @rest_base r size h (by omega)
  unfold Has
  omega

theorem rest_wf (h : r.Wf) (hs : size ≤ r.size) (hp : size % 4096 = 0) : (r.rest size).Wf := by
  have hsz := rest_size h hs
  have h1 := h.bound
  have h2 := h.short
  have h3 := h.pages
  by_cases hlt : size < r.size
  · have hb := rest_base h hlt
    have h4 := h.aligned (by omega)
    exact ⟨by omega, by omega, by omega, fun _ => by omega⟩
  · have hb : (r.rest size).base < 2^64 := Nat.mod_lt _ (by decide)
    exact ⟨by omega, by omega, by omega, fun hne => absurd hne (by omega)⟩

end

end BootMemRegion

open BootMemRegion

/-- The free regions: whole pages, disjoint, each inside a region of `maps`. -/
structure FreeWf (maps memFree : List BootMemRegion) : Prop where
  wf : ∀ r ∈ memFree, r.Wf
  disjoint : memFree.Pairwise BootMemRegion.Apart
  inside : ∀ r ∈ memFree, r.size ≠ 0 → ∃ m ∈ maps, ∀ p, r.Has p → m.Has p

/-- where `alloc_phys_early` finds room -/
theorem takeEarly_some {size n base : Nat} {memFree memFree' : List BootMemRegion}
    (h : takeEarly size n memFree = some (base, memFree')) :
    ∃ l r t, memFree = l ++ r :: t ∧ size ≤ r.size ∧ base = r.base ∧
      memFree' = l ++ r.rest size :: t := by
  induction n generalizing memFree memFree' base with
  | zero => exact nomatch h
  | succ n ih =>
    cases memFree with
    | nil => exact nomatch h
    | cons r t =>
      unfold takeEarly at h
      by_cases hr : r.size ≥ size
      · rw [if_pos hr] at h
        obtain ⟨rfl, rfl⟩ := Prod.mk.inj (Option.some.inj h)
        exact ⟨[], r, t, rfl, hr, rfl, rfl⟩
      · rw [if_neg hr] at h
        obtain ⟨⟨b, t'⟩, ht, e⟩ := Option.map_eq_some_iff.mp h
        obtain ⟨rfl, rfl⟩ := Prod.mk.inj e
        obtain ⟨l, q, u, rfl, hq, rfl, rfl⟩ := ih ht
        exact ⟨r :: l, q, u, rfl, hq, rfl, rfl⟩

theorem FreeWf.takeEarly {maps memFree memFree' : List BootMemRegion} {size n base : Nat}
    (h : FreeWf maps memFree) (hp : size % 4096 = 0)
    (e : FuseeOS.takeEarly size n memFree = some (base, memFree')) : FreeWf maps memFree' := by
  obtain ⟨l, r, t, rfl, hr, -, rfl⟩ := takeEarly_some e
  have hmem : r ∈ l ++ r :: t := List.mem_append_right _ (List.mem_cons_self ..)
  have hwf := h.wf r hmem
  refine ⟨fun q hq => ?_, ?_, fun q hq hne => ?_⟩
  · rcases List.mem_append.mp hq with hq | hq
    · exact h.wf q (List.mem_append_left _ hq)
    · rcases List.mem_cons.mp hq with rfl | hq
      · exact rest_wf hwf hr hp
      · exact h.wf q (List.mem_append_right _ (List.mem_cons_of_mem _ hq))
  · obtain ⟨h1, h2, h3⟩ := List.pairwise_append.mp h.disjoint
    obtain ⟨h4, h5⟩ := List.pairwise_cons.mp h2
    refine List.pairwise_append.mpr ⟨h1, List.pairwise_cons.mpr ⟨fun q hq p hpq => ?_, h5⟩,
      fun q hq q' hq' => ?_⟩
    · exact h4 q hq p ⟨rest_has hwf hr hpq.1, hpq.2⟩
    · rcases List.mem_cons.mp hq' with rfl | hq'
      · exact fun p hpq => h3 q hq r (List.mem_cons_self ..) p ⟨hpq.1, rest_has hwf hr hpq.2⟩
      · exact h3 q hq q' (List.mem_cons_of_mem _ hq')
  · rcases List.mem_append.mp hq with hq | hq
    · exact h.inside q (List.mem_append_left _ hq) hne
    · rcases List.mem_cons.mp hq with rfl | hq
      · have hne' : r.size ≠ 0 := by
          have := rest_size hwf hr
          omega
        obtain ⟨m, hm, hin⟩ := h.inside r hmem hne'
        exact ⟨m, hm, fun p hp => hin p (rest_has hwf hr hp)⟩
      · exact h.inside q (List.mem_append_right _ (List.mem_cons_of_mem _ hq)) hne

theorem freeBytes_takeEarly {maps memFree memFree' : List BootMemRegion} {size n base : Nat}
    (h : FreeWf maps memFree) (e : takeEarly size n memFree = some (base, memFree')) :
    freeBytes memFree - freeBytes memFree' = size := by
  obtain ⟨l, r, t, rfl, hr, -, rfl⟩ := takeEarly_some e
  have hsz := rest_size (h.wf r (List.mem_append_right _ (List.mem_cons_self ..))) hr
  unfold freeBytes
  rw [List.map_append, List.map_append, List.map_cons, List.map_cons, List.sum_append,
    List.sum_append, List.sum_cons, List.sum_cons, hsz]
  omega

/-! ## carving the bitmaps -/

/-- bitmaps of the given sizes, in pages, taken first-fit -/
def carveAll : List Nat → List BootMemRegion → Option (List BootMemRegion)
  | [], memFree => some memFree
  | n :: ns, memFree => (takeEarly (n * 4096) FREE_SCAN memFree).bind fun (_, memFree) =>
      carveAll ns memFree

/-- sizes of the bitmaps of a block: each order has half the pages of the one before it -/
def orderPages : Nat → Nat → List Nat
  | 0, _ => []
  | n + 1, pages => pages :: orderPages n ((pages + 1) / 2)

theorem FreeWf.carveAll {maps : List BootMemRegion} (ns : List Nat)
    {memFree memFree' : List BootMemRegion} (h : FreeWf maps memFree)
    (e : FuseeOS.carveAll ns memFree = some memFree') : FreeWf maps memFree' := by
  induction ns generalizing memFree with
  | nil =>
    rw [← Option.some.inj e]
    exact h
  | cons n ns ih =>
    obtain ⟨⟨b, m⟩, ht, hm⟩ := Option.bind_eq_some_iff.mp e
    exact ih (h.takeEarly (Nat.mul_mod_left ..) ht) hm

theorem carveAll_append (ns ms : List Nat) (memFree : List BootMemRegion) :
    carveAll (ns ++ ms) memFree = (carveAll ns memFree).bind (carveAll ms) := by
  induction ns generalizing memFree with
  | nil => rfl
  | cons n ns ih =>
    show (takeEarly _ _ memFree).bind _ = ((takeEarly _ _ memFree).bind _).bind _
    cases takeEarly (n * 4096) FREE_SCAN memFree with
    | none => rfl
    | some x => exact ih x.2

/-- below `2^19` pages, `alloc_phys_early` takes what it is asked for -/
theorem allocPhysEarly_of_lt {n : Nat} (hn : n < 2^19) (memFree : List BootMemRegion) :
    allocPhysEarly memFree (CInt.toInt n) =
      some ((takeEarly (n * 4096) FREE_SCAN memFree).getD (0, memFree)) := by
  have hmul : CInt.intMul? (n : Int) PAGESIZE = some ((n * 4096 : Nat) : Int) := by
    unfold CInt.intMul?
    have e : (n : Int) * ((PAGESIZE : Nat) : Int) = ((n * 4096 : Nat) : Int) := by
      exact (Int.natCast_mul n 4096).symm
    rw [e, if_pos (by omega)]
  unfold allocPhysEarly
  rw [CInt.toInt_of_lt (by omega), hmul]
  show some _ = _
  rw [CInt.toU64_natCast (by omega)]

/-- one bitmap -/
theorem carveBitmaps_succ (n : Nat) {pages : Nat} {memFree : List BootMemRegion} {x : Nat × List BootMemRegion}
    (hpages : pages < 2^51) (h : allocPhysEarly memFree (CInt.toInt pages) = some x) :
    carveBitmaps (n + 1) pages memFree = if pages * 4096 ≤ freeBytes memFree - freeBytes x.2 then
      carveBitmaps n ((pages + 1) / 2) x.2 else none := by
  have hmod : pages * PAGESIZE % 2^64 = pages * 4096 := Nat.mod_eq_of_lt (by unfold PAGESIZE; omega)
  rw [carveBitmaps, h, hmod]
  rfl

theorem carveBitmaps_eq {maps : List BootMemRegion} (n pages : Nat) {memFree : List BootMemRegion}
    (h : FreeWf maps memFree) (h0 : 0 < pages) (hp : pages < 2^19) :
    carveBitmaps n pages memFree = carveAll (orderPages n pages) memFree := by
  induction n generalizing pages memFree with
  | zero => rfl
  | succ n ih =>
    rw [carveBitmaps_succ n (by omega) (allocPhysEarly_of_lt hp memFree)]
    show _ = (takeEarly _ _ _).bind _
    cases e : takeEarly (pages * 4096) FREE_SCAN memFree with
    | none =>
      show (if pages * 4096 ≤ freeBytes memFree - freeBytes memFree then _ else none) = none
      rw [if_neg (by omega)]
    | some x =>
      obtain ⟨b, m⟩ := x
      show (if pages * 4096 ≤ freeBytes memFree - freeBytes m then _ else none) = _
      rw [if_pos (Nat.le_of_eq (freeBytes_takeEarly h e).symm)]
      exact ih _ (h.takeEarly (Nat.mul_mod_left ..) e) (by omega) (by omega)

/-- the mapped regions: not empty, whole pages, disjoint -/
structure MapWf (maps : List BootMemRegion) : Prop where
  wf : ∀ r ∈ maps, r.Wf
  nonempty : ∀ r ∈ maps, r.size ≠ 0
  disjoint : maps.Pairwise BootMemRegion.Apart

theorem BootMemRegion.Apart.le {r s : BootMemRegion} (h : r.Apart s) (hr : r.size ≠ 0)
    (hs : s.size ≠ 0) : r.base + r.size ≤ s.base ∨ s.base + s.size ≤ r.base := by
  have h1 := h r.base
  have h2 := h s.base
  unfold Has at h1 h2
  omega

theorem BootMemRegion.Has.sub {r m : BootMemRegion} (h : ∀ p, r.Has p → m.Has p) (hr : r.size ≠ 0) :
    m.base ≤ r.base ∧ r.base + r.size ≤ m.base + m.size := by
  have h1 := h r.base
  have h2 := h (r.base + r.size - 1)
  unfold Has at h1 h2
  omega

/-- A block with a bitmap of `2^19` pages or more: the product in `alloc_phys_early` overflows, or
what is carved out is smaller than the bitmap.  A negative product would be a request for nearly all
of the address space, which is less than the block then has. -/
theorem carveBitmaps_none {maps memFree : List BootMemRegion} (hm : MapWf maps)
    (h : FreeWf maps memFree) {m : BootMemRegion} (hmem : m ∈ maps) (n : Nat)
    (hp : 2^19 ≤ bitmapPages (m.size / 4096)) :
    carveBitmaps (n + 1) (bitmapPages (m.size / 4096)) memFree = none := by
  have hmw := hm.wf m hmem
  have hshort := hmw.short
  have hpages : bitmapPages (m.size / 4096) = (m.size / 4096 + 32767) / 32768 :=
    bitmapPages_eq _
  generalize bitmapPages (m.size / 4096) = pages at hp hpages ⊢
  obtain ⟨hlo, hhi, q, hq⟩ := CInt.toInt_range pages
  have hsmall : pages < 2^51 := by omega
  generalize hi : CInt.toInt pages = i at hlo hhi hq
  by_cases hov : -2^31 ≤ i * 4096 ∧ i * 4096 < 2^31
  · obtain ⟨hov1, hov2⟩ := hov
    have hearly : allocPhysEarly memFree (CInt.toInt pages) =
        some ((takeEarly (CInt.toU64 (i * 4096)) FREE_SCAN memFree).getD (0, memFree)) := by
      rw [hi, allocPhysEarly, CInt.intMul?]
      exact congrArg (Option.bind · _) (if_pos ⟨hov1, hov2⟩)
    rw [carveBitmaps_succ n hsmall hearly]
    apply if_neg
    cases e : takeEarly (CInt.toU64 (i * 4096)) FREE_SCAN memFree with
    | none =>
      show ¬ pages * 4096 ≤ freeBytes memFree - freeBytes memFree
      omega
    | some x =>
      obtain ⟨b, memFree'⟩ := x
      show ¬ pages * 4096 ≤ freeBytes memFree - freeBytes memFree'
      rw [freeBytes_takeEarly h e]
      intro hle
      obtain ⟨l, r, t, rfl, hr, -, -⟩ := takeEarly_some e
      have hrm : r ∈ l ++ r :: t := List.mem_append_right _ (List.mem_cons_self ..)
      have hneg : i < 0 := by
        by_contra hi
        have hpos := CInt.toU64_of_nonneg (i := i * 4096) (by omega) (by omega)
        omega
      have hwrap := CInt.toU64_of_neg (i := i * 4096) (by omega) (by omega)
      clear hle hlo hhi e
      generalize CInt.toU64 (i * 4096) = size at hr hwrap
      obtain ⟨m', hm', hin⟩ := h.inside r hrm (by omega)
      obtain ⟨h1, h2⟩ := BootMemRegion.Has.sub hin (by omega)
      have hlarge : size ≤ m'.size := by omega
      by_cases hmm : m = m'
      · subst hmm
        omega
      · have hd := (hm.disjoint.forall hmem hm' hmm).le (hm.nonempty m hmem) (hm.nonempty m' hm')
        have hb := hmw.bound
        have hb' := (hm.wf m' hm').bound
        have hsum : m.size + m'.size ≤ 2^64 := by omega
        clear hd hb hb' h1 h2 hr
        omega
  · have hearly : allocPhysEarly memFree (CInt.toInt pages) = none := by
      rw [hi, allocPhysEarly, CInt.intMul?]
      exact congrArg (Option.bind · _) (if_neg hov)
    rw [carveBitmaps, hearly]
    rfl

/-! ## the blocks -/

/-- block of a mapped region, all its pages in use -/
def mapBlock (r : BootMemRegion) : PhysicalMemoryBlock := ⟨r.base, r.size / 4096, fun _ => ones⟩

/-- all bitmaps that are set up, in order -/
def requests (maps : List BootMemRegion) : List Nat :=
  maps.flatMap fun r => orderPages PMB_MAX_ORDER (bitmapPages (r.size / 4096))

/-- the entries of `mem_map` before the first empty one -/
def mapRegions (memMap : List BootMemRegion) : List BootMemRegion :=
  memMap.takeWhile fun r => decide (r.size ≠ 0)

theorem mapRegions_cons (r : BootMemRegion) (rest : List BootMemRegion) :
    mapRegions (r :: rest) = if r.size = 0 then [] else r :: mapRegions rest := by
  unfold mapRegions
  rw [List.takeWhile_cons]
  by_cases h : r.size = 0
  · simp [h]
  · simp [h]

/-- the bitmaps are carved as asked for if each has fewer than `2^19` pages -/
theorem initBlocks_eq {maps : List BootMemRegion} (hm : MapWf maps) (memMap : List BootMemRegion)
    (slots : Nat) {memFree : List BootMemRegion} (h : FreeWf maps memFree)
    (hsub : ∀ r ∈ mapRegions memMap, r ∈ maps)
    (hend : (mapRegions memMap).length < memMap.length)
    (hslots : (mapRegions memMap).length ≤ slots) :
    initBlocks memMap slots memFree =
      if ∀ r ∈ mapRegions memMap, bitmapPages (r.size / 4096) < 2^19 then
        (carveAll (requests (mapRegions memMap)) memFree).map fun memFree =>
          ((mapRegions memMap).map mapBlock, memFree)
      else none := by
  induction memMap generalizing slots memFree with
  | nil => exact absurd hend (Nat.not_lt_zero _)
  | cons r rest ih =>
    unfold initBlocks
    rw [mapRegions_cons] at hsub hend hslots ⊢
    by_cases h0 : r.size = 0
    · rw [if_pos h0, if_pos h0, if_pos (fun q hq => (nomatch hq))]
      rfl
    · rw [if_neg h0] at hsub hend hslots
      rw [if_neg h0, if_neg h0]
      obtain ⟨slots, rfl⟩ : ∃ n, slots = n + 1 :=
        ⟨slots - 1, by rw [List.length_cons] at hslots; omega⟩
      have hr := hsub r (List.mem_cons_self ..)
      have hpos : 0 < bitmapPages (r.size / 4096) := by
        have := (hm.wf r hr).pages
        rw [bitmapPages_eq]
        omega
      show (carveBitmaps PMB_MAX_ORDER (bitmapPages (r.size / 4096)) memFree).bind _ = _
      by_cases hlt : bitmapPages (r.size / 4096) < 2^19
      · rw [carveBitmaps_eq _ _ h hpos hlt]
        have hreq : requests (r :: mapRegions rest) =
            orderPages PMB_MAX_ORDER (bitmapPages (r.size / 4096)) ++ requests (mapRegions rest) := rfl
        rw [hreq, carveAll_append]
        cases e : carveAll (orderPages PMB_MAX_ORDER (bitmapPages (r.size / 4096))) memFree with
        | none =>
          rw [Option.bind_none, Option.bind_none, Option.map_none, ite_self]
        | some m =>
          have hrec := ih slots (h.carveAll _ e) (fun q hq => hsub q (List.mem_cons_of_mem _ hq))
            (Nat.lt_of_succ_lt_succ hend) (Nat.le_of_succ_le_succ hslots)
          rw [Option.bind_some, Option.bind_some, hrec]
          by_cases hall : ∀ q ∈ mapRegions rest, bitmapPages (q.size / 4096) < 2^19
          · have hall' : ∀ q ∈ r :: mapRegions rest, bitmapPages (q.size / 4096) < 2^19 := by
              rw [List.forall_mem_cons]
              exact ⟨hlt, hall⟩
            rw [if_pos hall, if_pos hall']
            cases carveAll (requests (mapRegions rest)) m with
            | none => rfl
            | some m' => rfl
          · rw [if_neg hall, if_neg fun hc => hall fun q hq => hc q (List.mem_cons_of_mem _ hq)]
            rfl
      · rw [carveBitmaps_none hm h hr _ (Nat.not_lt.mp hlt),
          if_neg fun hc => hlt (hc r (List.mem_cons_self ..))]
        rfl

/-! ## freeing the free regions -/

section
variable {a : PhysicalMemoryAllocator} {reg : BootMemRegion} {p q : Nat}

/-- `pages_free` plays no part in what is free -/
theorem Marked.setPagesFree {t : PhysicalMemoryAllocator} {page n : Nat} (m : Marked a page n t)
    (x : Nat) : Marked a page n { t with pagesFree := x } :=
  ⟨⟨m.shape.layout, m.shape.sentinel, m.shape.padding⟩, m.span, m.free, m.count⟩

/-- the loop from step `j` on, with `k` pages to go -/
theorem unmarkPages_steps (hsz : reg.size ≤ 2^32)
    (hr : ∀ i, i < reg.size / 4096 →
      Reaches a.live (reg.base + i * 4096) ∧ ¬ a.Free (reg.base + i * 4096))
    (hp : a.pagesFree + reg.size / 4096 < 2^64) (k j : Nat) (hjk : j + k = reg.size / 4096)
    (t : PhysicalMemoryAllocator) (m : Marked a reg.base j t) (ht : t.pagesFree = a.pagesFree + j) :
    ∃ a', unmarkPages reg (k + 1) j t = some a' ∧ Marked a reg.base (reg.size / 4096) a' ∧
      a'.pagesFree = a.pagesFree + reg.size / 4096 := by
  induction k generalizing j t with
  | zero =>
    rw [Nat.add_zero] at hjk
    subst hjk
    refine ⟨t, ?_, m, ht⟩
    unfold unmarkPages
    exact if_neg (Nat.lt_irrefl _)
  | succ k ih =>
    have hj : j < reg.size / 4096 := by omega
    obtain ⟨hreach, hfree⟩ := hr j hj
    have hlt := hreach.lt
    have hoff : j * PAGESIZE % 2^32 = j * 4096 := by
      simp only [PAGESIZE]
      omega
    have hnext : (j + 1) % 2^32 = j + 1 := by omega
    have hpages : (t.pagesFree + 1) % 2^64 = a.pagesFree + (j + 1) := by omega
    have m' := (m.next hreach hfree).setPagesFree ((t.pagesFree + 1) % 2^64)
    obtain ⟨a', e, hm, hpf⟩ := ih (j + 1) (by omega) _ m' hpages
    refine ⟨a', ?_, hm, hpf⟩
    unfold unmarkPages
    rw [if_pos hj, hoff, Nat.mod_eq_of_lt hlt, hnext]
    exact e

/-- **A region of at most `2^32` bytes is freed page by page.** -/
theorem unmark_spec (h : PmemShape a) (hsz : reg.size ≤ 2^32)
    (hr : ∀ i, i < reg.size / 4096 →
      Reaches a.live (reg.base + i * 4096) ∧ ¬ a.Free (reg.base + i * 4096))
    (hp : a.pagesFree + reg.size / 4096 < 2^64) :
    ∃ a', unmarkPages reg (reg.size / 4096 + 1) 0 a = some a' ∧
      Marked a reg.base (reg.size / 4096) a' ∧ a'.pagesFree = a.pagesFree + reg.size / 4096 :=
  unmarkPages_steps hsz hr hp _ 0 (Nat.zero_add _) a (Marked.refl h _) rfl

/-- the blocks lie inside the 64-bit addresses -/
def EndsIn (ls : List PhysicalMemoryBlock) : Prop := ∀ b ∈ ls, b.base + b.npages * 4096 ≤ 2^64

theorem endsIn_iff (ls : List PhysicalMemoryBlock) :
    EndsIn ls ↔ ∀ x ∈ ls.map PhysicalMemoryBlock.span, x.1 + x.2 * 4096 ≤ 2^64 := by
  rw [List.forall_mem_map]
  rfl

/-- marking frees no other page, and this one only where the range test finds it -/
theorem free_mark_sub (h : PmemShape a) (hend : EndsIn a.live) (hp : p % 4096 = 0)
    (hq : (markPageFree a p).Free q) : a.Free q ∨ q = p ∧ Reaches a.live q := by
  have hq' : FreePage (onBlock .free p a.live) q := by
    rw [← live_markPageFree]
    exact hq
  by_cases hc : ∃ b ∈ a.live, b.covers p = true
  · obtain ⟨b, hb, hc⟩ := hc
    obtain ⟨h1, h2⟩ := covers_range hc
    have hal := h.layout.aligned b hb
    have hbe := hend b hb
    have hf : b.Fits := by
      unfold PhysicalMemoryBlock.covers at hc
      simp only [Bool.and_eq_true, decide_eq_true_eq, PAGESIZE] at hc
      unfold PhysicalMemoryBlock.Fits
      by_contra hge
      have e : b.base + b.npages * 4096 = 2^64 := by omega
      rw [e] at hc
      omega
    have e : p = b.page ((p - b.base) / 4096) := by
      unfold PhysicalMemoryBlock.page
      omega
    have hk : (p - b.base) / 4096 < b.npages := by omega
    rw [e, freePage_markFree h.layout hb hf hk] at hq'
    refine hq'.imp_right fun hq => ⟨hq.trans e.symm, b, hb, hf, _, hk, hq⟩
  · rw [onBlock_of_not_covers _ _ _ fun b hb => ?_] at hq'
    · exact .inl hq'
    · by_contra hb'
      exact hc ⟨b, hb, by simpa using hb'⟩

/-- what the loops of `init_physical_memory` can have freed: pages that the range test finds, in the
first `2^32` bytes of a region -/
structure FreedWithin (a : PhysicalMemoryAllocator) (regs : List BootMemRegion)
    (a' : PhysicalMemoryAllocator) : Prop where
  shape : PmemShape a'
  span : a'.live.map PhysicalMemoryBlock.span = a.live.map PhysicalMemoryBlock.span
  free : ∀ q, a'.Free q → a.Free q ∨ Reaches a.live q ∧
    ∃ r ∈ regs, ∃ off, off < 2^32 ∧ off < r.size ∧ q = r.base + off

theorem FreedWithin.refl (h : PmemShape a) (regs : List BootMemRegion) : FreedWithin a regs a :=
  ⟨h, rfl, fun _ hq => .inl hq⟩

theorem FreedWithin.trans {t a' : PhysicalMemoryAllocator} {regs : List BootMemRegion}
    (h : FreedWithin a regs t) (h' : FreedWithin t regs a') : FreedWithin a regs a' := by
  refine ⟨h'.shape, h'.span.trans h.span, fun q hq => ?_⟩
  rcases h'.free q hq with hq | ⟨hr, hin⟩
  · exact h.free q hq
  · refine .inr ⟨?_, hin⟩
    rw [reaches_iff, ← h.span, ← reaches_iff]
    exact hr

theorem FreedWithin.mono {t : PhysicalMemoryAllocator} {regs regs' : List BootMemRegion}
    (h : FreedWithin a regs t) (hsub : ∀ r ∈ regs, r ∈ regs') : FreedWithin a regs' t :=
  ⟨h.shape, h.span, fun q hq => (h.free q hq).imp_right fun ⟨hr, r, hm, hin⟩ =>
    ⟨hr, r, hsub r hm, hin⟩⟩

theorem unmarkPages_within (hw : reg.Wf) (fuel j : Nat) (h : PmemShape a) (hend : EndsIn a.live)
    {a' : PhysicalMemoryAllocator} (e : unmarkPages reg fuel j a = some a') :
    FreedWithin a [reg] a' := by
  induction fuel generalizing j a with
  | zero => exact nomatch e
  | succ fuel ih =>
    unfold unmarkPages at e
    by_cases hj : j < reg.size / PAGESIZE
    · rw [if_pos hj] at e
      have hj' : j < reg.size / 4096 := hj
      have hal := hw.aligned (by omega)
      have hb := hw.bound
      have hoff : j * PAGESIZE % 2^32 ≤ j * 4096 := Nat.mod_le _ _
      have hoff' : j * PAGESIZE % 2^32 % 4096 = 0 := by
        simp only [PAGESIZE]
        omega
      have hpage : (reg.base + j * PAGESIZE % 2^32) % 2^64 = reg.base + j * PAGESIZE % 2^32 :=
        Nat.mod_eq_of_lt (by omega)
      have hlt : j * PAGESIZE % 2^32 < 2^32 := Nat.mod_lt _ (by decide)
      rw [hpage] at e
      generalize j * PAGESIZE % 2^32 = off at hoff hoff' hlt e
      have hshape := h.of_mark (live_markPageFree a (reg.base + off)) (fun _ _ => ⟨rfl, rfl⟩)
        fun b k i hik => by
          rw [get_free]
          simp [hik]
      have hspan := span_markPageFree a (reg.base + off)
      have hstep : FreedWithin a [reg] { markPageFree a (reg.base + off) with
          pagesFree := (a.pagesFree + 1) % 2^64 } := by
        refine ⟨⟨hshape.layout, hshape.sentinel, hshape.padding⟩, hspan, fun q hq => ?_⟩
        refine (free_mark_sub h hend (by omega) hq).imp_right fun ⟨hq, hr⟩ => ⟨hr, reg, ?_⟩
        exact ⟨List.mem_singleton_self _, off, hlt, by omega, hq⟩
      refine hstep.trans (ih _ hstep.shape ?_ e)
      rw [endsIn_iff, hstep.span, ← endsIn_iff]
      exact hend
    · rw [if_neg hj] at e
      rw [← Option.some.inj e]
      exact FreedWithin.refl h _

/-- **Beyond its first `2^32` bytes no page of a region is ever freed.** -/
theorem unmarkRegions_within (regs : List BootMemRegion) (hw : ∀ r ∈ regs, r.Wf) (h : PmemShape a)
    (hend : EndsIn a.live) {a' : PhysicalMemoryAllocator} (e : unmarkRegions regs a = some a') :
    FreedWithin a regs a' := by
  induction regs generalizing a with
  | nil =>
    rw [← Option.some.inj e]
    exact FreedWithin.refl h _
  | cons reg regs ih =>
    obtain ⟨t, ht, e⟩ := Option.bind_eq_some_iff.mp e
    have h1 := unmarkPages_within (hw reg (List.mem_cons_self ..)) _ _ h hend ht
    have hend' : EndsIn t.live := by
      rw [endsIn_iff, h1.span, ← endsIn_iff]
      exact hend
    have h2 := ih (fun r hr => hw r (List.mem_cons_of_mem _ hr)) h1.shape hend' e
    exact (h1.mono fun r hr => by rw [List.mem_singleton.mp hr]; exact List.mem_cons_self ..).trans
      (h2.mono fun r hr => List.mem_cons_of_mem _ hr)

/-- number of pages of the regions -/
def pagesOf (regs : List BootMemRegion) : Nat := (regs.map fun r => r.size / 4096).sum

theorem pagesOf_cons (r : BootMemRegion) (regs : List BootMemRegion) :
    pagesOf (r :: regs) = r.size / 4096 + pagesOf regs := by
  unfold pagesOf
  rw [List.map_cons, List.sum_cons]

theorem pagesOf_le (regs : List BootMemRegion) (h : ∀ r ∈ regs, r.size ≤ 2^32) :
    pagesOf regs ≤ 2^20 * regs.length := by
  induction regs with
  | nil => exact Nat.zero_le _
  | cons r regs ih =>
    have hr := h r (List.mem_cons_self ..)
    have ih' := ih fun q hq => h q (List.mem_cons_of_mem _ hq)
    rw [pagesOf_cons, List.length_cons]
    omega

/-- the allocator after exactly the pages of `regs` were freed -/
structure Freed (a : PhysicalMemoryAllocator) (regs : List BootMemRegion)
    (a' : PhysicalMemoryAllocator) : Prop where
  shape : PmemShape a'
  span : a'.live.map PhysicalMemoryBlock.span = a.live.map PhysicalMemoryBlock.span
  free : ∀ q, a'.Free q ↔
    a.Free q ∨ ∃ r ∈ regs, ∃ i, i < r.size / 4096 ∧ q = r.base + i * 4096
  count : clearCount a'.live = clearCount a.live + pagesOf regs
  pagesFree : a'.pagesFree = a.pagesFree + pagesOf regs

theorem unmarkRegions_spec (regs : List BootMemRegion) (h : PmemShape a)
    (hsz : ∀ r ∈ regs, r.size ≤ 2^32) (hd : regs.Pairwise BootMemRegion.Apart)
    (hr : ∀ r ∈ regs, ∀ i, i < r.size / 4096 →
      Reaches a.live (r.base + i * 4096) ∧ ¬ a.Free (r.base + i * 4096))
    (hp : a.pagesFree + pagesOf regs < 2^64) :
    ∃ a', unmarkRegions regs a = some a' ∧ Freed a regs a' := by
  induction regs generalizing a with
  | nil => exact ⟨a, rfl, h, rfl, by simp, rfl, rfl⟩
  | cons reg regs ih =>
    rw [pagesOf_cons] at hp
    obtain ⟨hd1, hd2⟩ := List.pairwise_cons.mp hd
    obtain ⟨t, e, m, ht⟩ := unmark_spec h (hsz reg (List.mem_cons_self ..))
      (hr reg (List.mem_cons_self ..)) (by omega)
    have hr' : ∀ r ∈ regs, ∀ i, i < r.size / 4096 →
        Reaches t.live (r.base + i * 4096) ∧ ¬ t.Free (r.base + i * 4096) := by
      intro r hmem i hi
      obtain ⟨hreach, hfree⟩ := hr r (List.mem_cons_of_mem _ hmem) i hi
      refine ⟨m.reaches.mpr hreach, fun hf => ?_⟩
      rcases (m.free _).mp hf with hf | ⟨k, hk, e⟩
      · exact hfree hf
      · refine hd1 r hmem (r.base + i * 4096) ⟨?_, ?_⟩ <;> unfold Has <;> omega
    obtain ⟨a', e', hfr⟩ := ih m.shape (fun r hmem => hsz r (List.mem_cons_of_mem _ hmem)) hd2 hr'
      (by rw [ht]; omega)
    refine ⟨a', ?_, hfr.shape, hfr.span.trans m.span, fun q => ?_, ?_, ?_⟩
    · show (unmarkPages reg (reg.size / 4096 + 1) 0 a).bind _ = _
      rw [e]
      exact e'
    · rw [hfr.free, m.free]
      constructor
      · rintro ((hf | hk) | ⟨r, hmem, hk⟩)
        · exact .inl hf
        · exact .inr ⟨reg, List.mem_cons_self .., hk⟩
        · exact .inr ⟨r, List.mem_cons_of_mem _ hmem, hk⟩
      · rintro (hf | ⟨r, hmem, hk⟩)
        · exact .inl (.inl hf)
        · rcases List.mem_cons.mp hmem with rfl | hmem
          · exact .inl (.inr hk)
          · exact .inr ⟨r, hmem, hk⟩
    · rw [hfr.count, m.count, pagesOf_cons, Nat.add_assoc]
    · rw [hfr.pagesFree, ht, pagesOf_cons, Nat.add_assoc]

end

/-! ## the blocks before anything is freed -/

section
variable {maps : List BootMemRegion}

theorem mapBlock_end (hm : MapWf maps) {m : BootMemRegion} (hmem : m ∈ maps) :
    (mapBlock m).base + (mapBlock m).npages * 4096 = m.base + m.size := by
  have hp := (hm.wf m hmem).pages
  show m.base + m.size / 4096 * 4096 = _
  omega

theorem live_initAlloc (hm : MapWf maps) (h : (maps.map mapBlock).length ≤ PMB_COUNT) :
    (initAlloc (maps.map mapBlock) h).live = maps.map mapBlock := by
  show liveBlocks (maps.map mapBlock ++ List.replicate _ default) = _
  unfold liveBlocks
  rw [List.takeWhile_append_of_pos]
  · have hnil : (List.replicate (PMB_COUNT - (maps.map mapBlock).length)
        (default : PhysicalMemoryBlock)).takeWhile (fun b => decide (b.npages ≠ 0)) = [] := by
      cases PMB_COUNT - (maps.map mapBlock).length with
      | zero => rfl
      | succ n => rfl
    rw [hnil, List.append_nil]
  · intro b hb
    obtain ⟨m, hmem, rfl⟩ := List.mem_map.mp hb
    have h0 := hm.nonempty m hmem
    have hp := (hm.wf m hmem).pages
    have hn : m.size / 4096 ≠ 0 := by omega
    exact decide_eq_true hn

theorem layout_maps (hm : MapWf maps) : Layout (maps.map mapBlock) := by
  refine ⟨fun b hb => ?_, ?_⟩
  · obtain ⟨m, hmem, rfl⟩ := List.mem_map.mp hb
    exact (hm.wf m hmem).aligned (hm.nonempty m hmem)
  · rw [List.pairwise_map]
    refine hm.disjoint.imp_of_mem fun {m m'} hmem hmem' hap => ?_
    have hle := hap.le (hm.nonempty m hmem) (hm.nonempty m' hmem')
    unfold PhysicalMemoryBlock.Apart
    rw [mapBlock_end hm hmem, mapBlock_end hm hmem']
    exact hle

theorem shape_initAlloc (hm : MapWf maps) (h : (maps.map mapBlock).length ≤ PMB_COUNT)
    (hcount : maps.length ≤ 15) : PmemShape (initAlloc (maps.map mapBlock) h) := by
  refine ⟨?_, ?_, ?_⟩ <;> rw [live_initAlloc hm h]
  · exact layout_maps hm
  · rw [List.length_map]
    exact Nat.lt_succ_of_le hcount
  · intro b hb k _ _
    obtain ⟨m, _, rfl⟩ := List.mem_map.mp hb
    exact get_ones k

theorem not_free_maps (p : Nat) : ¬ FreePage (maps.map mapBlock) p := by
  rintro ⟨b, hb, k, _, _, hg⟩
  obtain ⟨m, _, rfl⟩ := List.mem_map.mp hb
  rw [show (mapBlock m).bitmap 0 = ones from rfl, get_ones] at hg
  exact nomatch hg

theorem clearCount_maps : clearCount (maps.map mapBlock) = 0 := by
  by_contra h
  unfold clearCount at h
  obtain ⟨b, hb, hc⟩ : ∃ b ∈ maps.map mapBlock, b.clearBits.card ≠ 0 := by
    by_contra hno
    push Not at hno
    refine h (List.sum_eq_zero fun x hx => ?_)
    obtain ⟨b, hb, rfl⟩ := List.mem_map.mp hx
    exact hno b hb
  obtain ⟨k, hk⟩ := Finset.card_ne_zero.mp hc
  obtain ⟨hk, hg⟩ := (mem_clearBits b k).mp hk
  exact not_free_maps (b.page k) ⟨b, hb, k, hk, rfl, hg⟩

/-- the range test finds a page of a region inside `m` unless `m` ends at `2^64` -/
theorem reaches_maps (hm : MapWf maps) {m : BootMemRegion} (hmem : m ∈ maps) {p : Nat}
    (hp : m.Has p) (hal : p % 4096 = 0) :
    Reaches (maps.map mapBlock) p ↔ m.base + m.size ≠ 2^64 := by
  have hb := (hm.wf m hmem).bound
  have ha := (hm.wf m hmem).aligned (hm.nonempty m hmem)
  have hps := (hm.wf m hmem).pages
  obtain ⟨h1, h2⟩ := hp
  constructor
  · rintro ⟨b, hb', hf, k, hk, e⟩
    obtain ⟨m', hmem', rfl⟩ := List.mem_map.mp hb'
    have hend := mapBlock_end hm hmem'
    have hf' : (mapBlock m').base + (mapBlock m').npages * 4096 < 2^64 := hf
    have hm' : m' = m := by
      by_contra hne
      refine hm.disjoint.forall hmem' hmem hne p ⟨?_, h1, h2⟩
      have e' : p = m'.base + k * 4096 := e
      have hk' : k < m'.size / 4096 := hk
      unfold Has
      omega
    subst hm'
    omega
  · intro hne
    refine ⟨mapBlock m, List.mem_map_of_mem hmem, ?_, (p - m.base) / 4096, ?_, ?_⟩
    · unfold PhysicalMemoryBlock.Fits
      rw [mapBlock_end hm hmem]
      omega
    · show _ < m.size / 4096
      omega
    · show p = m.base + (p - m.base) / 4096 * 4096
      omega

end

/-! ## the memory map is transferred -/

/-- At most 15 mapped regions and 32 free ones, in whole pages; the mapped ones are disjoint, the
free ones as well, and each lies inside a mapped one. -/
structure BootWf (boot : BootParams) : Prop where
  maps : MapWf (mapRegions boot.memMap)
  count : (mapRegions boot.memMap).length ≤ 15
  free : FreeWf (mapRegions boot.memMap) boot.memFree
  unused : ∀ r ∈ boot.memFree.drop FREE_SCAN, r.size = 0

/-- `mem_free` less the bitmaps, each taken from the first region that has room for it -/
def carved (boot : BootParams) : Option (List BootMemRegion) :=
  carveAll (requests (mapRegions boot.memMap)) boot.memFree

/-- An order-0 bit is clear exactly if its page lies in a region of `mem_free` as it stands after the
setup, and `pages_free` is the number of clear bits. -/
def InitExact (boot : BootParams) : Prop :=
  ∃ alloc memFree, initPhysicalMemory boot = some (alloc, memFree) ∧
    (∀ p, alloc.Free p ↔ p % 4096 = 0 ∧ ∃ r ∈ memFree, r.Has p) ∧
    alloc.pagesFree = clearCount alloc.live

/-- No bitmap has `2^19` pages or more, and the free regions are of at most `2^32` bytes, none of them
inside a mapped region that ends with the address space. -/
structure InitCond (boot : BootParams) (memFree : List BootMemRegion) : Prop where
  bitmaps : ∀ m ∈ mapRegions boot.memMap, bitmapPages (m.size / 4096) < 2^19
  sizes : ∀ r ∈ memFree, r.size ≤ 2^32
  ends : ∀ r ∈ memFree, r.size ≠ 0 → ∀ m ∈ mapRegions boot.memMap, m.Has r.base →
    m.base + m.size ≠ 2^64

theorem initPhysicalMemory_eq {boot : BootParams} {blocks : List PhysicalMemoryBlock}
    {memFree : List BootMemRegion} (h : initBlocks boot.memMap PMB_COUNT boot.memFree = some (blocks, memFree)) :
    initPhysicalMemory boot =
      (unmarkRegions (memFree.take FREE_SCAN) (initAlloc blocks (length_initBlocks h))).map
        fun alloc => (alloc, memFree) := by
  unfold initPhysicalMemory
  split
  · rename_i h'
    rw [h] at h'
    exact nomatch h'
  · rename_i b m h'
    rw [h] at h'
    obtain ⟨rfl, rfl⟩ := Prod.mk.inj (Option.some.inj h')
    rfl

theorem takeEarly_drop {size n base : Nat} {l l' : List BootMemRegion}
    (h : takeEarly size n l = some (base, l')) : l'.drop n = l.drop n := by
  induction n generalizing l l' base with
  | zero => exact nomatch h
  | succ n ih =>
    cases l with
    | nil => exact nomatch h
    | cons r t =>
      unfold takeEarly at h
      by_cases hr : r.size ≥ size
      · rw [if_pos hr] at h
        obtain ⟨_, rfl⟩ := Prod.mk.inj (Option.some.inj h)
        rfl
      · rw [if_neg hr] at h
        obtain ⟨⟨b, t'⟩, ht, e⟩ := Option.map_eq_some_iff.mp h
        obtain ⟨_, rfl⟩ := Prod.mk.inj e
        exact ih ht

theorem carveAll_drop (ns : List Nat) {l l' : List BootMemRegion} (h : carveAll ns l = some l') :
    l'.drop FREE_SCAN = l.drop FREE_SCAN := by
  induction ns generalizing l with
  | nil => rw [← Option.some.inj h]
  | cons n ns ih =>
    obtain ⟨⟨b, m⟩, ht, hm⟩ := Option.bind_eq_some_iff.mp h
    rw [ih hm, takeEarly_drop ht]

/-- an address is in a region of whole pages exactly if it is on one of its pages -/
theorem has_iff_page {r : BootMemRegion} (hw : r.Wf) (p : Nat) :
    (∃ i, i < r.size / 4096 ∧ p = r.base + i * 4096) ↔ p % 4096 = 0 ∧ r.Has p := by
  have hps := hw.pages
  constructor
  · rintro ⟨i, hi, rfl⟩
    have ha := hw.aligned (by omega)
    refine ⟨by omega, ?_⟩
    unfold Has
    omega
  · rintro ⟨hp, h1, h2⟩
    have ha := hw.aligned (by omega)
    exact ⟨(p - r.base) / 4096, by omega, by omega⟩

section
variable {boot : BootParams} {memFree : List BootMemRegion}

/-- what is known after the first loop, if no bitmap is too large -/
theorem initBlocks_ok (h : BootWf boot) (hroom : carved boot = some memFree)
    (hbm : ∀ m ∈ mapRegions boot.memMap, bitmapPages (m.size / 4096) < 2^19) :
    initBlocks boot.memMap PMB_COUNT boot.memFree =
      some ((mapRegions boot.memMap).map mapBlock, memFree) := by
  have hcount := h.count
  rw [initBlocks_eq h.maps boot.memMap PMB_COUNT h.free (fun _ hr => hr)
    (by rw [boot.mapCount]; omega) (by simp only [PMB_COUNT]; omega), if_pos hbm,
    show carveAll (requests (mapRegions boot.memMap)) boot.memFree = some memFree from hroom,
    Option.map_some]

/-- a bitmap of `2^19` pages: there is no result -/
theorem InitExact.bitmaps (h : BootWf boot) (hex : InitExact boot) :
    ∀ m ∈ mapRegions boot.memMap, bitmapPages (m.size / 4096) < 2^19 := by
  by_contra hbm
  have hcount := h.count
  have hblocks := initBlocks_eq h.maps boot.memMap PMB_COUNT h.free (fun _ hr => hr)
    (by rw [boot.mapCount]; omega) (by simp only [PMB_COUNT]; omega)
  rw [if_neg hbm] at hblocks
  obtain ⟨alloc, fs, e, -⟩ := hex
  unfold initPhysicalMemory at e
  split at e
  · exact nomatch e
  · rename_i b m h'
    rw [hblocks] at h'
    exact nomatch h'

/-- what is transferred is at most `InitCond` allows for -/
theorem InitExact.cond (h : BootWf boot) (hroom : carved boot = some memFree)
    (hex : InitExact boot) : InitCond boot memFree := by
  have hwf : FreeWf (mapRegions boot.memMap) memFree := h.free.carveAll _ hroom
  have hbm := hex.bitmaps h
  have hblocks := initBlocks_ok h hroom hbm
  have hlive := live_initAlloc h.maps (length_initBlocks hblocks)
  have hend : EndsIn ((mapRegions boot.memMap).map mapBlock) := by
    intro b hb
    obtain ⟨m, hmem, rfl⟩ := List.mem_map.mp hb
    rw [mapBlock_end h.maps hmem]
    exact (h.maps.wf m hmem).bound
  obtain ⟨alloc, fs, e, hfree, -⟩ := hex
  rw [initPhysicalMemory_eq hblocks] at e
  obtain ⟨a', he, e'⟩ := Option.map_eq_some_iff.mp e
  obtain ⟨rfl, rfl⟩ := Prod.mk.inj e'
  have hwithin := unmarkRegions_within _ (fun r hr => hwf.wf r (List.mem_of_mem_take hr))
    (shape_initAlloc h.maps (length_initBlocks hblocks) h.count) (by rw [hlive]; exact hend) he
  have hfreed (p : Nat) (hp : p % 4096 = 0) (r : BootMemRegion) (hr : r ∈ memFree)
      (hpr : r.Has p) : Reaches ((mapRegions boot.memMap).map mapBlock) p ∧
        ∃ off, off < 2^32 ∧ p = r.base + off := by
    have hin := hwithin.free p ((hfree p).mpr ⟨hp, r, hr, hpr⟩)
    rw [show (initAlloc _ (length_initBlocks hblocks)).Free p =
      FreePage (initAlloc _ (length_initBlocks hblocks)).live p from rfl, hlive] at hin
    obtain ⟨hreach, r', hr', off, hoff, hoff', e⟩ := hin.resolve_left (not_free_maps p)
    have hrr : r' = r := by
      by_contra hne
      refine hwf.disjoint.forall (List.mem_of_mem_take hr') hr hne p ⟨?_, hpr⟩
      unfold Has
      omega
    exact ⟨hreach, off, hoff, hrr ▸ e⟩
  refine ⟨hbm, fun r hr => ?_, fun r hr hne m hm hin => ?_⟩
  · by_contra hlt
    have ha := (hwf.wf r hr).aligned (by omega)
    have hbig : r.Has (r.base + 2^32) := by
      unfold Has
      omega
    obtain ⟨_, off, hoff, e⟩ := hfreed (r.base + 2^32) (by omega) r hr hbig
    omega
  · have ha := (hwf.wf r hr).aligned hne
    have hb : r.Has r.base := by
      unfold Has
      omega
    exact (reaches_maps h.maps hm hin ha).mp (hfreed r.base ha r hr hb).1

/-- the regions that the second loop looks at are all there are -/
theorem has_take_iff (h : BootWf boot) (hroom : carved boot = some memFree) (p : Nat) :
    (∃ r ∈ memFree.take FREE_SCAN, r.Has p) ↔ ∃ r ∈ memFree, r.Has p := by
  have hunused : ∀ r ∈ memFree.drop FREE_SCAN, r.size = 0 := by
    rw [carveAll_drop _ hroom]
    exact h.unused
  constructor
  · rintro ⟨r, hr, hp⟩
    exact ⟨r, List.mem_of_mem_take hr, hp⟩
  · rintro ⟨r, hr, hp⟩
    rw [← List.take_append_drop FREE_SCAN memFree] at hr
    rcases List.mem_append.mp hr with hr | hr
    · exact ⟨r, hr, hp⟩
    · have h0 := hunused r hr
      unfold Has at hp
      omega

/-- under `InitCond` every page is freed, once -/
theorem InitCond.transfer (h : BootWf boot) (hroom : carved boot = some memFree)
    (hc : InitCond boot memFree) : ∃ alloc, initPhysicalMemory boot = some (alloc, memFree) ∧
      PmemShape alloc ∧ alloc.live.map PhysicalMemoryBlock.span =
        (mapRegions boot.memMap).map (fun m => (m.base, m.size / 4096)) ∧
      (∀ p, alloc.Free p ↔ p % 4096 = 0 ∧ ∃ r ∈ memFree, r.Has p) ∧
      alloc.pagesFree = clearCount alloc.live := by
  have hwf : FreeWf (mapRegions boot.memMap) memFree := h.free.carveAll _ hroom
  have hblocks := initBlocks_ok h hroom hc.bitmaps
  have hlen := length_initBlocks hblocks
  have hlive := live_initAlloc h.maps hlen
  have hsz : ∀ r ∈ memFree.take FREE_SCAN, r.size ≤ 2^32 := fun r hr =>
    hc.sizes r (List.mem_of_mem_take hr)
  have hpages : pagesOf (memFree.take FREE_SCAN) ≤ 2^20 * 32 := by
    have hle := pagesOf_le _ hsz
    have hlen : (memFree.take FREE_SCAN).length ≤ 32 := List.length_take_le ..
    omega
  have hreach : ∀ r ∈ memFree.take FREE_SCAN, ∀ i, i < r.size / 4096 →
      Reaches (initAlloc _ hlen).live (r.base + i * 4096) ∧
        ¬ (initAlloc _ hlen).Free (r.base + i * 4096) := by
    intro r hr i hi
    have hmem := List.mem_of_mem_take hr
    obtain ⟨hp, hin⟩ := (has_iff_page (hwf.wf r hmem) _).mp ⟨i, hi, rfl⟩
    have hne : r.size ≠ 0 := by omega
    obtain ⟨m, hm, hsub⟩ := hwf.inside r hmem hne
    have hbase : r.Has r.base := by
      unfold Has
      omega
    rw [show (initAlloc _ hlen).Free _ = FreePage (initAlloc _ hlen).live _ from rfl, hlive]
    exact ⟨(reaches_maps h.maps hm (hsub _ hin) hp).mpr
      (hc.ends r hmem hne m hm (hsub _ hbase)), not_free_maps _⟩
  obtain ⟨a', e, hfr⟩ := unmarkRegions_spec (memFree.take FREE_SCAN)
    (shape_initAlloc h.maps hlen h.count) hsz
    (hwf.disjoint.sublist (List.take_sublist ..)) hreach (by show 0 + _ < _; omega)
  refine ⟨a', ?_, hfr.shape, ?_, fun p => ?_, ?_⟩
  · rw [initPhysicalMemory_eq hblocks, e, Option.map_some]
  · rw [hfr.span, hlive, List.map_map]
    rfl
  · rw [hfr.free, show (initAlloc _ hlen).Free p = FreePage (initAlloc _ hlen).live p from rfl,
      hlive, ← has_take_iff h hroom]
    constructor
    · rintro (hf | ⟨r, hr, hi⟩)
      · exact absurd hf (not_free_maps p)
      · obtain ⟨hp, hin⟩ := (has_iff_page (hwf.wf r (List.mem_of_mem_take hr)) p).mp hi
        exact ⟨hp, r, hr, hin⟩
    · rintro ⟨hp, r, hr, hin⟩
      exact .inr ⟨r, hr, (has_iff_page (hwf.wf r (List.mem_of_mem_take hr)) p).mpr ⟨hp, hin⟩⟩
  · rw [hfr.pagesFree, hfr.count, hlive, clearCount_maps]
    rfl

theorem InitCond.exact (h : BootWf boot) (hroom : carved boot = some memFree)
    (hc : InitCond boot memFree) : InitExact boot := by
  obtain ⟨alloc, e, -, -, hfree, hpages⟩ := hc.transfer h hroom
  exact ⟨alloc, memFree, e, hfree, hpages⟩

end

/-- **The boot memory map is transferred exactly** if and only if `InitCond` holds. -/
theorem init_exact (boot : BootParams) (h : BootWf boot) (memFree : List BootMemRegion)
    (hroom : carved boot = some memFree) : InitExact boot ↔ InitCond boot memFree :=
  ⟨InitExact.cond h hroom, InitCond.exact h hroom⟩

/-- one region of free memory -/
def regionBoot (base size : Nat) : BootParams where
  memMap := ⟨base, size⟩ :: List.replicate 63 ⟨0, 0⟩
  memFree := ⟨base, size⟩ :: List.replicate 63 ⟨0, 0⟩
  mapCount := rfl
  freeCount := rfl

theorem mapRegions_region {base size : Nat} (h : size ≠ 0) :
    mapRegions (regionBoot base size).memMap = [⟨base, size⟩] := by
  show mapRegions (_ :: _) = _
  rw [mapRegions_cons, if_neg h]
  rfl

theorem bootWf_region {base size : Nat} (hb : base % 4096 = 0) (hp : size % 4096 = 0)
    (hs : base + size < 2^64) (h0 : size ≠ 0) : BootWf (regionBoot base size) := by
  have hwf : BootMemRegion.Wf ⟨base, size⟩ :=
    ⟨by dsimp only; omega, by dsimp only; omega, hp, fun _ => hb⟩
  have hno : BootMemRegion.Wf ⟨0, 0⟩ := ⟨by decide, by decide, rfl, fun _ => rfl⟩
  have hmem (r : BootMemRegion) (hr : r ∈ (regionBoot base size).memFree) :
      r = ⟨base, size⟩ ∨ r = ⟨0, 0⟩ :=
    (List.mem_cons.mp hr).imp id fun hr => List.eq_of_mem_replicate hr
  constructor
  · rw [mapRegions_region h0]
    exact ⟨by simpa using hwf, by simpa using h0, List.pairwise_singleton ..⟩
  · rw [mapRegions_region h0, List.length_singleton]
    decide
  · rw [mapRegions_region h0]
    refine ⟨fun r hr => ?_, ?_, fun r hr hne => ?_⟩
    · rcases hmem r hr with rfl | rfl
      · exact hwf
      · exact hno
    · have hapart (r : BootMemRegion) : r.Apart ⟨0, 0⟩ := fun p hp => Nat.not_lt_zero _ hp.2.2
      refine List.pairwise_cons.mpr ⟨fun r hr => ?_, ?_⟩
      · rw [List.eq_of_mem_replicate hr]
        exact hapart _
      · exact List.pairwise_replicate.mpr (.inr (hapart _))
    · rcases hmem r hr with rfl | rfl
      · exact ⟨_, List.mem_cons_self .., fun p hp => hp⟩
      · exact absurd rfl hne
  · intro r hr
    exact congrArg _ (List.eq_of_mem_replicate (List.mem_of_mem_drop hr))

/-- one region of free memory, from `0x100000` -/
def loneBoot (size : Nat) : BootParams where
  memMap := ⟨0x100000, size⟩ :: List.replicate 63 ⟨0, 0⟩
  memFree := ⟨0x100000, size⟩ :: List.replicate 63 ⟨0, 0⟩
  mapCount := rfl
  freeCount := rfl

theorem mapRegions_lone {size : Nat} (h : size ≠ 0) :
    mapRegions (loneBoot size).memMap = [⟨0x100000, size⟩] := mapRegions_region h

theorem bootWf_lone {size : Nat} (hp : size % 4096 = 0) (hs : size < 2^63) (h0 : size ≠ 0) :
    BootWf (loneBoot size) :=
  bootWf_region (Nat.mod_eq_zero_of_dvd ⟨256, rfl⟩) hp (by omega) h0

/-- 16 pages: eight are carved out for the bitmaps, the other eight are free -/
theorem init_exact_lone : InitExact (loneBoot 0x10000) := by
  have hc : InitCond (loneBoot 0x10000) (⟨0x108000, 0x8000⟩ :: List.replicate 63 ⟨0, 0⟩) := by
    have hmem (r : BootMemRegion) (hr : r ∈ _ :: List.replicate 63 ⟨0, 0⟩) :
        r = ⟨0x108000, 0x8000⟩ ∨ r = ⟨0, 0⟩ :=
      (List.mem_cons.mp hr).imp id fun hr => List.eq_of_mem_replicate hr
    constructor
    · rw [mapRegions_lone (by decide)]
      simp only [List.mem_singleton, forall_eq]
      decide
    · intro r hr
      rcases hmem r hr with rfl | rfl
      · decide
      · decide
    · intro r hr _
      rw [mapRegions_lone (by decide)]
      simp only [List.mem_singleton, forall_eq]
      intro _
      decide
  exact (init_exact (loneBoot 0x10000) (bootWf_lone rfl (by decide) (by decide)) _ rfl).mpr hc

/-- 8 GiB of free memory: the pages from the first `2^32` bytes on are never freed -/
theorem init_not_exact : ¬ ∀ boot, BootWf boot → ∀ memFree, carved boot = some memFree →
    InitExact boot := by
  intro h
  have hwf : BootWf (loneBoot 0x200000000) := bootWf_lone rfl (by decide) (by decide)
  have hroom : carved (loneBoot 0x200000000) =
      some (⟨0x180000, 0x1fff80000⟩ :: List.replicate 63 ⟨0, 0⟩) := rfl
  have hle := ((h _ hwf _ hroom).cond hwf hroom).sizes _ (List.mem_cons_self ..)
  exact absurd hle (by decide)

end FuseeOS
