import FuseeOS.Boot.Memory
import FuseeOS.Kernel.AllocFails

/-!
# The limits of the memory tables

`mem_map` and `mem_free` have 64 entries, `blocks` has 16.  `memory_detect` and the first loop of
`init_physical_memory` have no bound at all, and `alloc_phys_pages` stops at a block without pages.

* `memoryDetect_eq`        the two tables of the boot loader, unless there are more than 64 usable ranges;
* `initAccesses_inBounds`  the accesses of `init_physical_memory`;
* `reads_inside`           the blocks that `alloc_phys_pages` reads;
* `clip_covered`           a page of `mem_free` lies in the block of its range;
* `limits_agree`           all four agree for up to 15 ranges, and for 16 of which one is shorter than a
                           page.
-/

namespace FuseeOS
open BootMemRegion BitMap

/-! ## detection -/

theorem detectOne_full {us : List BootMemRegion} {d : Detected} (h : Detects us d) (mem : BiosMemRegion)
    (hfull : MAX_MEM_REGIONS < (us ++ usableOf [mem]).length) : detectOne d mem = none := by
  have hfits := d.mapFits
  rw [h.memMap] at hfits
  unfold detectOne
  by_cases hu : mem.size ≠ 0 ∧ mem.type = 1
  · have hone : (usableOf [mem]).length ≤ 1 := by
      unfold usableOf
      rw [List.length_map]
      exact List.length_filter_le _ _
    rw [List.length_append] at hfull
    rw [if_pos hu, dif_neg]
    intro hroom
    rw [h.memMap] at hroom
    omega
  · have hnone : usableOf [mem] = [] := by
      unfold usableOf
      rw [List.filter_cons_of_neg (by simpa using hu)]
      rfl
    rw [hnone, List.append_nil] at hfull
    omega

/-- with more than 64 usable ranges the loop writes behind `mem_map`; by induction on the replies -/
theorem detectLoop_full (replies : List E820Reply) {us : List BootMemRegion} {d : Detected} (h : Detects us d)
    (hfull : MAX_MEM_REGIONS < (us ++ usable replies).length) : detectLoop d replies = none := by
  have hfits := d.mapFits
  rw [h.memMap] at hfits
  induction replies generalizing us d with
  | nil =>
    rw [usable, reported, usableOf, List.filter_nil, List.map_nil, List.append_nil] at hfull
    omega
  | cons r rest ih =>
    rw [usable, reported] at hfull
    rw [detectLoop]
    by_cases hstop : r.failed = true ∨ r.eax ≠ SMAP
    · rw [if_pos hstop, usableOf, List.filter_nil, List.map_nil, List.append_nil] at hfull
      omega
    · obtain ⟨hf, he⟩ := not_or.mp hstop
      rw [if_neg hstop] at hfull
      rw [if_neg hf, if_neg he]
      by_cases hone : (us ++ usableOf [r.mem]).length ≤ MAX_MEM_REGIONS
      · obtain ⟨d', hd', h'⟩ := detectOne_detects h r.mem hone
        rw [hd']
        by_cases hb : r.ebx = 0
        · rw [if_pos hb] at hfull
          omega
        · rw [if_neg hb, ← List.singleton_append, usableOf_append, ← List.append_assoc] at hfull
          have hfits' := d'.mapFits
          rw [h'.memMap] at hfits'
          exact (if_neg hb).trans (ih h' hfull hfits')
      · rw [detectOne_full h r.mem (Nat.lt_of_not_le hone)]
        rfl

/-- **`memory_detect` stays in its tables for up to 64 usable ranges**, and records all of them. -/
theorem memoryDetect_eq {replies : List E820Reply} (h : (usable replies).length ≤ MAX_MEM_REGIONS) :
    ∃ boot, memoryDetect replies = some boot ∧
      boot.memMap = usable replies ++ List.replicate (MAX_MEM_REGIONS - (usable replies).length) ⟨0, 0⟩ ∧
      ∀ reg ∈ boot.memFree, reg.size ≠ 0 → ∃ u ∈ usable replies, clip u = some reg := by
  obtain ⟨d, hd, hdet⟩ := @detectLoop_detects replies [] ⟨[], [], by decide, by decide⟩ ⟨rfl, rfl⟩ h
  refine ⟨d.boot, ?_, ?_, fun reg hreg h0 => ?_⟩
  · rw [memoryDetect, hd, Option.map_some]
  · have e : d.boot.memMap = d.memMap ++ List.replicate (MAX_MEM_REGIONS - d.memMap.length) ⟨0, 0⟩ := rfl
    rw [e, hdet.memMap, List.nil_append]
  · rcases List.mem_append.mp hreg with hreg | hreg
    · rw [hdet.memFree, List.nil_append] at hreg
      exact List.mem_filterMap.mp hreg
    · rw [(List.mem_replicate.mp hreg).2] at h0
      exact absurd rfl h0

theorem memoryDetect_full {replies : List E820Reply} (h : MAX_MEM_REGIONS < (usable replies).length) :
    memoryDetect replies = none := by
  have hd := @detectLoop_full replies [] ⟨[], [], by decide, by decide⟩ ⟨rfl, rfl⟩ h
  rw [memoryDetect, hd, Option.map_none]

/-! ## the first loop of init_physical_memory -/

inductive TableAccess where
  /-- `mem_map[i]` is read -/
  | readMap (i : Nat)
  /-- `blocks[i]` is written -/
  | writeBlock (i : Nat)

def TableAccess.InBounds : TableAccess → Prop
  | .readMap i => i < MAX_MEM_REGIONS
  | .writeBlock i => i < PMB_COUNT

/-- the accesses of the loop from index `i` on, which reads behind the array where the list ends -/
def initAccesses : Nat → List BootMemRegion → List TableAccess
  | i, [] => [.readMap i]
  | i, reg :: rest => .readMap i :: if reg.size = 0 then [] else .writeBlock i :: initAccesses (i + 1) rest

theorem initAccesses_inBounds (i : Nat) (memMap : List BootMemRegion) :
    (∀ x ∈ initAccesses i memMap, x.InBounds) ↔ i + (mapRegions memMap).length < MAX_MEM_REGIONS ∧
      (mapRegions memMap = [] ∨ i + (mapRegions memMap).length ≤ PMB_COUNT) := by
  induction memMap generalizing i with
  | nil =>
    unfold initAccesses
    rw [List.forall_mem_singleton]
    exact ⟨fun h => ⟨h, .inl rfl⟩, fun h => h.1⟩
  | cons reg rest ih =>
    unfold initAccesses
    rw [mapRegions_cons, List.forall_mem_cons]
    by_cases h0 : reg.size = 0
    · rw [if_pos h0, if_pos h0]
      exact ⟨fun h => ⟨h.1, .inl rfl⟩, fun h => ⟨h.1, fun x hx => absurd hx List.not_mem_nil⟩⟩
    · rw [if_neg h0, if_neg h0, List.forall_mem_cons, ih, List.length_cons]
      unfold TableAccess.InBounds
      simp only [List.cons_ne_nil, false_or]
      cases hm : mapRegions rest with
      | nil =>
        simp only [List.length_nil, true_or, and_true]
        omega
      | cons r l =>
        simp only [List.length_cons, List.cons_ne_nil, false_or]
        omega

/-- where the loop has a result, it has stayed in both arrays -/
theorem initBlocks_inBounds {memMap memFree memFree' : List BootMemRegion} {slots i : Nat}
    {blocks : List PhysicalMemoryBlock} (h : initBlocks memMap slots memFree = some (blocks, memFree'))
    (hslots : i + slots ≤ PMB_COUNT) : ∀ x ∈ initAccesses i memMap, x.InBounds := by
  have hblocks := initBlocks_map h
  have hlen := length_initBlocks h
  rw [hblocks, List.length_map] at hlen
  refine (initAccesses_inBounds i memMap).mpr ⟨?_, .inr (by omega)⟩
  unfold PMB_COUNT at hslots
  unfold MAX_MEM_REGIONS
  omega

/-! ## the blocks -/

/-- the blocks that the loop sets up, and those that it leaves empty -/
def blockSpans (memMap : List BootMemRegion) : List (Nat × Nat) :=
  (mapRegions memMap).map (fun r => (r.base, r.size / PAGESIZE)) ++
    List.replicate (PMB_COUNT - (mapRegions memMap).length) (0, 0)

/-- The allocator has the blocks of `mem_map`; its bitmaps may hold anything. -/
def SetUp (boot : BootParams) (a : PhysicalMemoryAllocator) : Prop :=
  a.blocks.map PhysicalMemoryBlock.span = blockSpans boot.memMap

section
variable {boot : BootParams} {a a' : PhysicalMemoryAllocator} {memMap : List BootMemRegion}

theorem SetUp.free (h : SetUp boot a) {p : Nat} (e : a'.blocks = onBlock .free p a.blocks) : SetUp boot a' := by
  unfold SetUp
  rw [e, map_onBlock PhysicalMemoryBlock.span .free (fun _ _ => rfl)]
  exact h

theorem SetUp.unmarkPages {reg : BootMemRegion} (fuel j : Nat) (h : SetUp boot a)
    (e : FuseeOS.unmarkPages reg fuel j a = some a') : SetUp boot a' := by
  induction fuel generalizing j a with
  | zero => exact nomatch e
  | succ fuel ih =>
    unfold FuseeOS.unmarkPages at e
    by_cases hj : j < reg.size / PAGESIZE
    · rw [if_pos hj] at e
      exact ih _ (h.free rfl) e
    · rw [if_neg hj] at e
      rwa [← Option.some.inj e]

theorem SetUp.unmarkRegions (regs : List BootMemRegion) (h : SetUp boot a)
    (e : FuseeOS.unmarkRegions regs a = some a') : SetUp boot a' := by
  induction regs generalizing a with
  | nil => rwa [← Option.some.inj e]
  | cons reg rest ih =>
    obtain ⟨t, et, e⟩ := Option.bind_eq_some_iff.mp e
    exact ih (h.unmarkPages _ _ et) e

theorem setUp_initAlloc (h : ((mapRegions boot.memMap).map mapBlock).length ≤ PMB_COUNT) :
    SetUp boot (initAlloc ((mapRegions boot.memMap).map mapBlock) h) := by
  unfold SetUp initAlloc blockSpans
  rw [List.map_append, List.map_map, List.map_replicate, List.length_map]
  rfl

/-- **`init_physical_memory` sets the blocks up** -/
theorem initPhysicalMemory_setUp {memFree : List BootMemRegion}
    (h : initPhysicalMemory boot = some (a, memFree)) : SetUp boot a := by
  unfold initPhysicalMemory at h
  split at h
  · exact nomatch h
  · next blocks memFree' hblocks =>
    obtain ⟨t, ht, e⟩ := Option.map_eq_some_iff.mp h
    obtain ⟨rfl, rfl⟩ := Prod.mk.inj e
    have hb := initBlocks_map hblocks
    subst hb
    exact (setUp_initAlloc (length_initBlocks hblocks)).unmarkRegions _ ht

/-! ## alloc_phys_pages -/

theorem allocFrom_isSome {ls : List PhysicalMemoryBlock} (h : ∃ b ∈ ls, b.npages = 0) :
    (allocFrom a ls).isSome := by
  induction ls with
  | nil =>
    obtain ⟨b, hb, -⟩ := h
    exact absurd hb List.not_mem_nil
  | cons b ls ih =>
    unfold allocFrom
    by_cases h0 : b.npages = 0
    · rw [if_pos h0]
      rfl
    · rw [if_neg h0]
      cases b.findClear with
      | some k => rfl
      | none =>
        obtain ⟨c, hc, hz⟩ := h
        refine ih ⟨c, (List.mem_cons.mp hc).resolve_left fun e => h0 (e ▸ hz), hz⟩

/-- blocks that are all in use, with no empty one behind them -/
theorem allocFrom_full {ls : List PhysicalMemoryBlock} (h : ∀ b ∈ ls, b.npages ≠ 0 ∧ b.bitmap = fun _ => ones) :
    allocFrom a ls = none := by
  induction ls with
  | nil => rfl
  | cons b ls ih =>
    obtain ⟨⟨h0, hones⟩, hrest⟩ := List.forall_mem_cons.mp h
    have hnone : b.findClear = none := by
      by_contra hsome
      obtain ⟨k, hk⟩ := Option.ne_none_iff_exists'.mp hsome
      have hclear := (findClear_some (fun _ _ _ => by rw [hones, get_ones]) hk).2
      rw [hones, get_ones] at hclear
      exact Bool.noConfusion hclear
    unfold allocFrom
    rw [if_neg h0, hnone]
    exact ih hrest

/-- **`alloc_phys_pages` stays in `blocks`**, whatever the bitmaps hold, if and only if one of the blocks
has no pages. -/
theorem reads_inside (h : (mapRegions boot.memMap).length ≤ PMB_COUNT) :
    (∀ a, SetUp boot a → (allocPhysPages a 1).isSome) ↔ (mapRegions boot.memMap).length < PMB_COUNT ∨
      ∃ r ∈ mapRegions boot.memMap, r.size < PAGESIZE := by
  constructor
  · intro hall
    by_contra hno
    obtain ⟨hlen, hshort⟩ := not_or.mp hno
    have hlen' : ((mapRegions boot.memMap).map mapBlock).length ≤ PMB_COUNT := by rwa [List.length_map]
    have hsome := hall _ (setUp_initAlloc hlen')
    have hfull : ∀ b ∈ (initAlloc ((mapRegions boot.memMap).map mapBlock) hlen').blocks,
        b.npages ≠ 0 ∧ b.bitmap = fun _ => ones := by
      intro b hb
      rcases List.mem_append.mp hb with hb | hb
      · obtain ⟨r, hr, rfl⟩ := List.mem_map.mp hb
        refine ⟨fun h0 => hshort ⟨r, hr, ?_⟩, rfl⟩
        have h0' : r.size / 4096 = 0 := h0
        unfold PAGESIZE
        omega
      · rw [List.length_map, Nat.sub_eq_zero_of_le (Nat.le_of_not_lt hlen)] at hb
        exact absurd hb List.not_mem_nil
    unfold allocPhysPages at hsome
    rw [if_neg (fun hne => hne rfl), allocFrom_full hfull] at hsome
    exact nomatch hsome
  · intro hstop a ha
    have hzero : ∃ x ∈ blockSpans boot.memMap, x.2 = 0 := by
      rcases hstop with hlt | ⟨r, hr, hs⟩
      · exact ⟨(0, 0), List.mem_append_right _ (List.mem_replicate.mpr ⟨by omega, rfl⟩), rfl⟩
      · exact ⟨_, List.mem_append_left _ (List.mem_map_of_mem hr), Nat.div_eq_of_lt hs⟩
    obtain ⟨x, hx, h0⟩ := hzero
    rw [← ha] at hx
    obtain ⟨b, hb, rfl⟩ := List.mem_map.mp hx
    unfold allocPhysPages
    rw [if_neg (fun hne => hne rfl)]
    exact allocFrom_isSome ⟨b, hb, h0⟩

end

/-! ## mark_page_free -/

/-- a page of an entry of `mem_free` lies in the block of the range that it is the tail of -/
theorem clip_covered {u reg : BootMemRegion} (hu : u.base + u.size ≤ 2^64) (h : clip u = some reg)
    {b : PhysicalMemoryBlock} (hb : b.span = (u.base, u.size / PAGESIZE)) {j : Nat}
    (hj : j < reg.size / PAGESIZE) : b.covers ((reg.base + j * PAGESIZE) % 2^64) = true := by
  obtain ⟨hbase, hpages⟩ := Prod.mk.inj hb
  -- the tail ends where the range ends
  have htail : u.base ≤ reg.base ∧ reg.base + reg.size = u.base + u.size ∧ u.base + u.size < 2^64 := by
    unfold clip LOMEM_END at h
    by_cases hhi : (u.base + u.size) % 2^64 > 0x1000000
    · rw [if_pos hhi] at h
      by_cases hlow : u.base < 0x1000000
      · rw [if_pos hlow, Option.some.injEq] at h
        subst h
        dsimp only
        omega
      · rw [if_neg hlow, Option.some.injEq] at h
        subst h
        omega
    · rw [if_neg hhi] at h
      exact nomatch h
  unfold PAGESIZE at *
  unfold PhysicalMemoryBlock.covers
  rw [hbase, hpages, Bool.and_eq_true, decide_eq_true_eq, decide_eq_true_eq]
  unfold PAGESIZE
  omega

/-! ## all of them -/

/-- For the ranges that the BIOS reports: no table of the boot loader or of the kernel is left, and every
page of `mem_free` is found by `mark_page_free`. -/
def LimitsAgree (replies : List E820Reply) : Prop :=
  ∃ boot, memoryDetect replies = some boot ∧ (∀ x ∈ initAccesses 0 boot.memMap, x.InBounds) ∧
    ∀ a, SetUp boot a → (allocPhysPages a 1).isSome ∧
      ∀ reg ∈ boot.memFree, ∀ j < reg.size / PAGESIZE,
        ∃ b ∈ a.blocks, b.covers ((reg.base + j * PAGESIZE) % 2^64) = true

theorem usable_size {replies : List E820Reply} {u : BootMemRegion} (hu : u ∈ usable replies) : u.size ≠ 0 := by
  obtain ⟨mem, hmem, rfl⟩ := List.mem_map.mp hu
  have hp := (List.mem_filter.mp hmem).2
  simp only [decide_eq_true_eq] at hp
  exact hp.1

theorem mapRegions_append {us : List BootMemRegion} (h : ∀ u ∈ us, u.size ≠ 0) (n : Nat) :
    mapRegions (us ++ List.replicate n ⟨0, 0⟩) = us := by
  induction us with
  | nil =>
    cases n with
    | zero => rfl
    | succ n => exact (mapRegions_cons _ _).trans (if_pos rfl)
  | cons u us ih =>
    obtain ⟨hu, hus⟩ := List.forall_mem_cons.mp h
    rw [List.cons_append, mapRegions_cons, if_neg hu, ih hus]

/-- the tables of up to 64 usable ranges -/
theorem memoryDetect_regions {replies : List E820Reply} (h : (usable replies).length ≤ MAX_MEM_REGIONS) :
    ∃ boot, memoryDetect replies = some boot ∧ mapRegions boot.memMap = usable replies ∧
      ∀ reg ∈ boot.memFree, reg.size ≠ 0 → ∃ u ∈ usable replies, clip u = some reg := by
  obtain ⟨boot, e, hmap, hfree⟩ := memoryDetect_eq h
  refine ⟨boot, e, ?_, hfree⟩
  rw [hmap, mapRegions_append fun u hu => usable_size hu]

/-- no more ranges than blocks -/
theorem LimitsAgree.length_le {replies : List E820Reply} (h : LimitsAgree replies) :
    (usable replies).length ≤ PMB_COUNT := by
  obtain ⟨boot, e, hin, -⟩ := h
  by_cases hlen : (usable replies).length ≤ MAX_MEM_REGIONS
  · obtain ⟨boot', e', hregs, -⟩ := memoryDetect_regions hlen
    obtain rfl := Option.some.inj (e.symm.trans e')
    have hacc := (initAccesses_inBounds 0 boot.memMap).mp hin
    rw [hregs] at hacc
    rcases hacc.2 with h0 | hle
    · rw [h0]
      exact Nat.zero_le _
    · omega
  · rw [memoryDetect_full (Nat.lt_of_not_le hlen)] at e
    exact nomatch e

/-- **The limits agree** for up to 15 usable ranges, and for 16 if one of them is shorter than a page. -/
theorem limits_agree (replies : List E820Reply) (hb : ∀ u ∈ usable replies, u.base + u.size ≤ 2^64) :
    LimitsAgree replies ↔ (usable replies).length ≤ 15 ∨
      (usable replies).length = 16 ∧ ∃ u ∈ usable replies, u.size < PAGESIZE := by
  have hfit : (usable replies).length ≤ PMB_COUNT → (usable replies).length ≤ MAX_MEM_REGIONS := fun hle =>
    hle.trans (by decide)
  constructor
  · intro h
    have hle := h.length_le
    obtain ⟨boot, e, -, hall⟩ := h
    obtain ⟨boot', e', hregs, -⟩ := memoryDetect_regions (hfit hle)
    obtain rfl := Option.some.inj (e.symm.trans e')
    unfold PMB_COUNT at hle
    rcases (reads_inside (hregs ▸ hle)).mp fun a ha => (hall a ha).1 with hlt | hshort
    · rw [hregs] at hlt
      exact .inl (Nat.le_of_lt_succ hlt)
    · rw [hregs] at hshort
      by_cases h16 : (usable replies).length = 16
      · exact .inr ⟨h16, hshort⟩
      · exact .inl (by omega)
  · intro hcond
    have hle : (usable replies).length ≤ 16 := by omega
    obtain ⟨boot, e, hregs, hfree⟩ := memoryDetect_regions (hfit hle)
    have hacc := initAccesses_inBounds 0 boot.memMap
    rw [hregs, Nat.zero_add] at hacc
    refine ⟨boot, e, hacc.mpr ⟨Nat.lt_of_le_of_lt hle (by decide), .inr hle⟩,
      fun a ha => ⟨?_, fun reg hreg j hj => ?_⟩⟩
    · refine (reads_inside (hregs ▸ hle)).mpr ?_ a ha
      rw [hregs]
      exact hcond.imp Nat.lt_succ_of_le fun h => h.2
    · have h0 : reg.size ≠ 0 := by
        intro h0
        rw [h0, Nat.zero_div] at hj
        exact Nat.not_lt_zero j hj
      obtain ⟨u, hu, hclip⟩ := hfree reg hreg h0
      have hspan : (u.base, u.size / PAGESIZE) ∈ a.blocks.map PhysicalMemoryBlock.span := by
        rw [show a.blocks.map PhysicalMemoryBlock.span = blockSpans boot.memMap from ha]
        unfold blockSpans
        rw [hregs]
        exact List.mem_append_left _ (List.mem_map.mpr ⟨u, hu, rfl⟩)
      obtain ⟨b, hbm, hbs⟩ := List.mem_map.mp hspan
      exact ⟨b, hbm, clip_covered (hb u hu) hclip hbs hj⟩

/-- one range -/
theorem limits_agree_lone : LimitsAgree (loneReply 0x3000) :=
  (limits_agree (loneReply 0x3000) (loneReply_ok 0x3000 (by decide)).bound).mpr (.inl (by decide))

/-- `n` usable pages, one in each MiB -/
def sparseReplies (n : Nat) : List E820Reply :=
  (List.range n).map fun i => ⟨false, SMAP, if i + 1 = n then 0 else 1, ⟨i * 0x100000, 0x1000, 1, 0⟩⟩

/-- the block of the 17th range lies behind `blocks` -/
theorem limits_disagree : ¬ ∀ replies : List E820Reply, (∀ u ∈ usable replies, u.base + u.size ≤ 2^64) →
    LimitsAgree replies := by
  intro hall
  have hbound : ∀ u ∈ usable (sparseReplies 17), u.base + u.size ≤ 2^64 := by decide
  exact absurd (hall (sparseReplies 17) hbound).length_le (by decide)

end FuseeOS
