import FuseeOS.Kernel.PhysMap
import FuseeOS.Kernel.SpaceRun

/-!
# No kernel page is open to users

The upper entries of the page tables carry the user bit; what keeps users out is the last entry of
every walk, that of a large page included.

* `NoUser.step`            no operation opens a page unless it is asked to;
* `kernel_pages_closed`    from the boot loader's tables on, no address of the upper half is ever open
                           to users, in the kernel's address space and in that of every process.
-/

namespace FuseeOS
open Radix StepRun

/-! ## what keeps users out -/

section
variable {R : Nat → Prop} {m m₁ m₂ m' : Machine}

/-- tables that are added have no pages -/
theorem NoUser.grown (h : NoUser m) (g : Grown R m m') : NoUser m' := by
  intro a p i w ha hp e hl
  rcases g.new (a :: p) i w (Nat.succ_le_succ hp) e with e | ⟨hlt, hs⟩
  · exact h a p i w ha hp e hl
  · rcases hl with hl | hl
    · rw [List.length_cons] at hlt
      omega
    · rw [hs] at hl
      exact nomatch hl

/-- entries of pages were written, all closed to users -/
theorem NoUser.leaves {s n : Nat} (h : NoUser m) (g : OnlyLeaves m s n m')
    (hn : ∀ j < n, ∀ w, leaf m' (s + j) = some w → userOk w = false) : NoUser m' := by
  intro a p i w ha hp e hl
  by_cases hleaf : ∃ j < n, IsLeaf (s + j) (a :: p) i
  · obtain ⟨j, hj, hp', hi⟩ := hleaf
    rw [hp', hi] at e
    exact hn j hj w e
  · rw [g.other (a :: p) i (Nat.succ_le_succ hp) fun j hj hl => hleaf ⟨j, hj, hl⟩] at e
    exact h a p i w ha hp e hl

theorem NoUser.opened (h : NoUser m) (g : Opened m m') : NoUser m' := by
  intro a p i w ha hp e hl
  rw [g.entry (a :: p) i (Nat.succ_le_succ hp)] at e
  by_cases hh : (a :: p).head? = some LAST
  · rw [if_pos hh] at e
    obtain ⟨w', e', rfl⟩ := Option.map_eq_some_iff.mp e
    rw [large_orWrite] at hl
    rw [userOk_orWrite]
    exact h a p i w' ha hp e' hl
  · rw [if_neg hh] at e
    exact h a p i w ha hp e hl

theorem userOk_protect {prot : Nat} (hprot : prot &&& KPROT_USER = 0) (n : Machine) (w : BitVec 64) :
    userOk (setProt n prot w) = false := by
  rw [userOk_setProt, decide_eq_false (not_not.mpr hprot)]

/-- the sections of the image are protected without the user bit -/
theorem NoUser.sections {l : List (Section × Nat)} (h : NoUser m) (g : SectionsSet m l m')
    (hl : ∀ x ∈ l, x.2 &&& KPROT_USER = 0) : NoUser m' := by
  intro a p i w ha hp e hlast
  by_cases hp2 : p.length = 2
  swap
  · rw [g.upper (a :: p) i (by rw [List.length_cons]; omega)] at e
    exact h a p i w ha hp e hlast
  -- the entry of a page
  obtain ⟨v, hv, hi⟩ := page_of_path (a :: p) i (Nat.succ_le_succ hp)
  have hlen : (a :: p).length = 3 := by rw [List.length_cons, hp2]
  rw [hlen] at hv hi
  have e' : leaf m' v = some w := by
    unfold leaf
    rw [hv, hi]
    exact e
  by_cases hvis : ∀ x ∈ l, ∀ j < x.1.visited, ¬ SamePage v (x.1.first + j)
  · rw [g.rest v hvis] at e'
    unfold leaf at e'
    rw [hv, hi] at e'
    exact h a p i w ha hp e' hlast
  · push Not at hvis
    obtain ⟨x, hx, j, hj, hsame⟩ := hvis
    obtain ⟨h1, h2⟩ := (samePage_iff _ _).mp hsame
    have hset := g.set x hx j hj
    unfold leaf at e' hset
    rw [h1, h2, hset] at e'
    obtain ⟨w', -, rfl⟩ := Option.map_eq_some_iff.mp e'
    exact userOk_protect (hl x hx) m w'

/-- `init_kernel_mem_prot` opens no page -/
theorem MemProt.noUser {img : KernelImage} (g : MemProt img m m₁ m₂ m') (h : NoUser m) : NoUser m' := by
  refine ((h.grown g.grown).opened g.opened).sections g.sections ?_
  simp [KernelImage.calls, KPROT_READ, KPROT_WRITE, KPROT_EXECUTE, KPROT_USER]

end

/-! ## one operation -/

/-- the call does not ask for user pages -/
def SpaceOp.KernelOnly : SpaceOp → Prop
  | .kmapanon _ _ prot => prot &&& KPROT_USER = 0
  | .kmap _ _ _ prot => prot &&& KPROT_USER = 0
  | .kmprotect _ _ prot => prot &&& KPROT_USER = 0
  | .kunmapanon _ _ => True
  | .unmapLomem => True
  | .procCreate => True

/-- the entry of a page that is mapped without `KPROT_USER` -/
theorem userOk_entry {p prot : Nat} (hp : p % 4096 = 0) (hprot : prot &&& KPROT_USER = 0) (m : Machine) :
    userOk (BitVec.ofNat 64 p ||| (X86_PAGE_PRESENT ||| pageProtFlags m prot)) = false := by
  have hz : (p % 2^12).testBit 2 = false := by
    rw [show p % 2^12 = 0 from hp]
    exact Nat.zero_testBit 2
  rw [Nat.testBit_mod_two_pow, decide_eq_true (show 2 < 12 by decide), Bool.true_and] at hz
  have hflags : (pageProtFlags m prot).getLsbD 2 = false := by
    rw [getLsbD_protFlags m prot (by decide)]
    simp [hprot]
  unfold userOk
  rw [BitVec.getLsbD_or, BitVec.getLsbD_ofNat, hz, BitVec.getLsbD_or, hflags, Bool.and_false]
  rfl

section
variable {top : Fin 512 → BitVec 64} {s s' : Spaces} {op : SpaceOp}

/-- **No operation opens a page unless it is asked to.** -/
theorem NoUser.step (hu : NoUser s.machine) (h : SpaceInv top s) (hl : SpaceLegal s op)
    (hk : op.KernelOnly) (e : spaceStep s op = some s') : NoUser s'.machine := by
  cases op <;> simp only [spaceStep, Option.some.injEq, Option.map_eq_some_iff] at e
  case kmapanon addr size prot =>
    obtain ⟨m, e, rfl⟩ := e
    have hr := hl.1
    rcases kmapanon_spec h.tables h.plain rfl hr.size_lt rfl hr.pages_pos hr.inSpan
      (fun v hv => hr.kernelPage.congr (hv.congr hr.inSpan)) prot with ⟨m₁, m₂, e', g, -, hm⟩ | ⟨e', -⟩
    · rw [e', Option.some.injEq] at e
      subst e
      have hu₂ : NoUser m₂ := (hu.grown g.toGrown).leaves hm.toOnlyLeaves fun j hj w hw => by
        obtain ⟨p, hp, halign, -⟩ := hm.mapped j hj
        rw [Option.some.inj (hw.symm.trans hp)]
        exact userOk_entry halign hk s.machine
      exact hu₂
    · rw [e'] at e
      cases e
  case kmap addr phys size prot =>
    obtain ⟨x, e, rfl⟩ := e
    have hr := hl.1
    rcases kmap_spec h.tables h.plain rfl hr.size_lt rfl hr.pages_pos hr.inSpan
      (fun v hv => hr.kernelPage.congr (hv.congr hr.inSpan)) hl.2.2.1 prot with ⟨m₁, m₂, e', g, -, hm⟩ | ⟨e', -⟩
    · rw [e', Option.some.injEq] at e
      subst e
      have hu₁ : NoUser (kmapStart s.machine addr phys size) := hu
      have hphys : m₁.phys = phys - phys % 4096 := g.phys
      have hu₂ : NoUser m₂ := (hu₁.grown g.toGrown).leaves hm.toOnlyLeaves fun j hj w hw => by
        rw [Option.some.inj (hw.symm.trans (hm.mapped j hj))]
        exact userOk_entry (by omega) hk s.machine
      exact hu₂
    · rw [e'] at e
      cases e
  case kmprotect addr size prot =>
    obtain ⟨m, e, rfl⟩ := e
    have hr := hl.1
    obtain ⟨m₂, e', g⟩ := kmprotect_spec h.tables h.plain rfl hr.size_lt rfl hr.pages_pos hr.inSpan
      (fun v hv => hr.kernelPage.congr (hv.congr hr.inSpan)) prot
      fun j hj => hl.2 _ (Nat.le_add_right _ j) (hr.visited_le hj)
    rw [e', Option.some.injEq] at e
    subst e
    have hu₂ : NoUser m₂ := hu.leaves g.toOnlyLeaves fun j hj w hw => by
      rw [g.changed j hj] at hw
      obtain ⟨w', -, rfl⟩ := Option.map_eq_some_iff.mp hw
      exact userOk_protect hk s.machine w'
    exact hu₂
  case kunmapanon addr size =>
    obtain ⟨m, e, rfl⟩ := e
    obtain ⟨m₂, _, e', g, -⟩ := h.unmapped hl.1 hl.2
    rw [e', Option.some.injEq] at e
    subst e
    have hu₂ : NoUser m₂ := hu.leaves g.toOnlyLeaves fun j hj w hw => by
      rw [g.unmapped j hj] at hw
      cases hw
    exact hu₂
  case unmapLomem =>
    subst e
    have c := unmapLomem_spec h.tables
    intro a p i w ha hp e hlast
    rw [c.below a p i (by omega) hp] at e
    exact hu a p i w ha hp e hlast
  case procCreate =>
    obtain ⟨x, e, rfl⟩ := e
    rcases createCr3_spec h.tables with ⟨r, m', e', c⟩ | ⟨e', -⟩
    · rw [e', Option.some.injEq] at e
      subst e
      intro a p i w ha hp e hlast
      rw [c.entry (a :: p) i (Nat.succ_le_succ hp)] at e
      exact hu a p i w ha hp e hlast
    · rw [e'] at e
      cases e

end

/-! ## from the boot loader's tables on -/

/-- What the boot loader leaves: a tree of tables with 4 KiB pages and no user page in the upper half,
the kernel image mapped, and free regions of whole pages apart from the tables. -/
structure BootSpace (img : KernelImage) (m : Machine) (maps memFree : List BootMemRegion) : Prop where
  root : m.cr3 < 2^47
  tree : Proper next m.mem m.cr3 3
  plain : PlainOn KernelPage m
  noUser : NoUser m
  laid : img.Laid
  mapped : img.Mapped m
  free : FreeWf maps memFree
  low : ∀ p, InRegions memFree p → p < 2^47
  apart : ∀ t, m.IsTable t → ¬ InRegions memFree t

/-- `init_physical_memory` has taken over the free regions that were left -/
structure TakenOver (memFree : List BootMemRegion) (pmem : PhysicalMemoryAllocator) : Prop where
  inv : PmemInv pmem
  low : ∀ p, pmem.Owns p → p < 2^47
  free : ∀ p, pmem.Free p → InRegions memFree p

theorem takenOver_init (boot : BootParams) (h : BootWf boot) {memFree : List BootMemRegion}
    (hroom : carved boot = some memFree) (hc : InitCond boot memFree)
    (hlow : ∀ m ∈ mapRegions boot.memMap, m.base + m.size ≤ 2^47) :
    ∃ pmem, initPhysicalMemory boot = some (pmem, memFree) ∧ TakenOver boot.memFree pmem := by
  obtain ⟨pmem, e, hshape, hspan, hfree, hpages⟩ := hc.transfer h hroom
  -- the blocks are the regions of the memory map
  have hend : ∀ x ∈ pmem.live.map PhysicalMemoryBlock.span, x.1 + x.2 * 4096 ≤ 2^47 := by
    intro x hx
    rw [hspan] at hx
    obtain ⟨m, hm, rfl⟩ := List.mem_map.mp hx
    have hle := hlow m hm
    dsimp only
    omega
  refine ⟨pmem, e, ⟨hshape, (fits_iff _).mpr fun x hx => lt_of_le_of_lt (hend x hx) (by decide), hpages⟩,
    fun p hp => ?_, fun p hp => carveAll_sub _ h.free hroom ((hfree p).mp hp).2⟩
  obtain ⟨x, hx, k, hk, rfl⟩ := (inBlocks_iff _ _).mp hp
  have hle := hend x hx
  omega

/-- no address of the upper half is open to users, in any address space -/
def UserClosed (s : Spaces) : Prop :=
  ∀ r, r = s.machine.cr3 ∨ r ∈ s.procs → ∀ va, upperHalf va → ∀ t,
    translate s.machine.mem r va = some t → t.user = false

section
variable {img : KernelImage} {m m₁ : Machine} {maps memFree memFree₁ : List BootMemRegion}
  {pmem : PhysicalMemoryAllocator}

theorem BootSpace.booted (h : BootSpace img m maps memFree) (g : PhysMapped m memFree m₁ memFree₁)
    (hp : TakenOver memFree₁ pmem) (nx : Bool) :
    Booted img { m₁ with pmem := pmem, nx := nx } ∧ NoUser { m₁ with pmem := pmem, nx := nx } := by
  have hlast {v : Nat} (hv : KernelPage v) : (pageIndex v 3).val ≠ PML4_PHYSICAL := by
    have hv' : 256 < (pageIndex v 3).val := hv
    exact fun e => absurd (e ▸ hv') (Nat.lt_irrefl _)
  -- entries of kernel pages are the old ones
  have hentry (v : Nat) (hv : KernelPage v) (k : Nat) (hk : k ≤ 3) (i : Fin 512) (hi : k = 0 → i = pageIndex v 3) :
      m₁.entry (stem v k) i = m.entry (stem v k) i := by
    cases k with
    | zero =>
      rw [hi rfl]
      exact g.entry_top (hlast hv)
    | succ k =>
      have hs : stem v (k + 1) = pageIndex v 3 :: (stem v (k + 1)).tail := rfl
      rw [hs]
      refine g.entry h.tree (hlast hv) ?_ i
      rw [List.length_tail, length_stem hk]
      omega
  have htables : Tables { m₁ with pmem := pmem, nx := nx } := by
    refine ⟨hp.inv, hp.low, g.tree h.tree, fun t ht hf => ?_, ?_⟩
    · rcases g.isTable h.tree ht with ht | ⟨-, hn⟩
      · exact h.apart t ht (g.sub t (hp.free t hf))
      · exact hn (hp.free t hf)
    · show m₁.cr3 < 2^47
      rw [g.cr3]
      exact h.root
  refine ⟨⟨htables, fun v hv k hk w e => ?_, h.laid, fun s hs j hj => ?_⟩, g.noUser h.tree h.noUser⟩
  · refine h.plain v hv k hk w ?_
    rw [← hentry v hv k (by omega) _ fun h0 => by rw [h0]]
    exact e
  · have hpl := h.laid.placed hs
    have hv : KernelPage (s.first + j) :=
      hpl.kernelPage (Nat.le_add_right _ j) (by have := hpl.last; omega)
    have e : leaf m₁ (s.first + j) = leaf m (s.first + j) :=
      hentry _ hv 3 (le_refl 3) _ fun h0 => nomatch h0
    show (leaf m₁ (s.first + j)).isSome
    rw [e]
    exact h.mapped s hs j hj

end

/-- **No kernel page is open to users**, in every state of every run. -/
theorem kernel_pages_closed (img : KernelImage) (gib nx : Bool) (bootCr3 : Nat) (m m₁ m₂ : Machine)
    (maps memFree memFree₁ : List BootMemRegion) (pmem : PhysicalMemoryAllocator)
    (hb : BootSpace img { m with cr3 := bootCr3 } maps memFree)
    (hroom : physMapPages gib ≤ pagesOf (memFree.take FREE_SCAN))
    (hmap : archInitPhysicalMapping gib bootCr3 m memFree = some (m₁, memFree₁))
    (hp : TakenOver memFree₁ pmem)
    (hinit : initKernelMemProt img { m₁ with pmem := pmem, nx := nx } = some m₂) (ops : List SpaceOp)
    (hops : Along spaceStep (fun s op => SpaceLegal s op ∧ op.KernelOnly) ⟨m₂, [], ∅⟩ ops) :
    Always spaceStep UserClosed (fun _ _ _ => True) ⟨m₂, [], ∅⟩ ops := by
  obtain ⟨m₁', memFree₁', e, g⟩ := physMapping_spec gib bootCr3 m hb.free hb.low hb.apart hroom
  rw [hmap] at e
  obtain ⟨rfl, rfl⟩ := Prod.mk.inj (Option.some.inj e)
  obtain ⟨hbooted, hu⟩ := hb.booted g hp nx
  rcases initKernelMemProt_spec hbooted.tables hbooted.plain hbooted.laid hbooted.mapped with
    ⟨-, n₁, n₂, n', e, hprot⟩ | ⟨-, e⟩
  swap
  · rw [e] at hinit
    exact nomatch hinit
  rw [hinit] at e
  obtain rfl := Option.some.inj e
  have h := always_of_step (I := fun s => SpaceInv (fun i => m₂.mem m₂.cr3 i) s ∧ NoUser s.machine)
    (R := fun _ _ _ => True) (fun s op hs hl => by
      obtain ⟨s', e, hs', -⟩ := hs.1.step hl.1
      exact ⟨s', e, trivial, hs', hs.2.step hs.1 hl.1 hl.2 e⟩) ops _
    ⟨hprot.spaceInv, hprot.noUser hu⟩ hops
  refine h.mono (fun s hs r hr va hva t ht => ?_) fun _ _ _ _ _ _ => trivial
  rcases hr with rfl | hr
  · exact translate_user hs.2 hva ht
  · rw [hs.1.shared.same r hr va hva] at ht
    exact translate_user hs.2 hva ht

theorem noUser_boot : NoUser bootMachine := by
  intro a p i w ha hp e hl
  by_cases hp2 : (a :: p).length ≤ 2
  · have hw := (entry_boot hp2 e).imp (fun h => h.2.2) id
    exact (plain_boot w hw).2.2.2
  · -- a page
    have hbit (n : Nat) (hn : n % 4096 = 0) (hlt : n < 2^47) : userOk (BitVec.ofNat 64 n ||| 1) = false := by
      unfold userOk
      rw [bit_entry hn hlt (by decide)]
      decide
    obtain ⟨t, ht, hw, -⟩ := entry_eq_some.mp e
    rcases nodeAt_boot (show (a :: p).length ≤ 3 from Nat.succ_le_succ hp) ht with ⟨h, -⟩ | ⟨h, -⟩ | ⟨h, -⟩ | ⟨-, rfl⟩ | ⟨-, rfl⟩
    · exact absurd h (List.cons_ne_nil a p)
    · exact absurd (by rw [h]; decide) hp2
    · exact absurd (by rw [h]; decide) hp2
    · rw [← hw]
      exact hbit (0x100000 + i * 0x1000) (by omega) (by omega)
    · rw [← hw]
      exact hbit (0x300000 + i * 0x1000) (by omega) (by omega)

/-- the pages of the allocator, and one for the direct map -/
def bootRegions : List BootMemRegion := [⟨0xfff000, 513 * 4096⟩]

theorem bootSpace_boot : BootSpace (pagesImage 1 1 1 1) bootMachine bootRegions bootRegions where
  root := by decide
  tree := bootMachine_tables.tree
  plain := bootMachine_plain
  noUser := noUser_boot
  laid := pagesImage_laid (by decide)
  mapped := (booted_pagesImage (by decide)).mapped
  free := by
    refine ⟨fun r hr => ?_, List.pairwise_singleton _ _, fun r hr _ => ⟨r, hr, fun _ hp => hp⟩⟩
    rw [List.mem_singleton.mp hr]
    exact ⟨by decide, by decide, by decide, fun _ => by decide⟩
  low := by
    rintro p ⟨r, hr, hp⟩
    rw [List.mem_singleton.mp hr] at hp
    exact lt_trans hp.2 (by decide)
  apart := by
    rintro t ⟨p, hp, e⟩ ⟨r, hr, hhas⟩
    rw [List.mem_singleton.mp hr] at hhas
    have hlo : 0xfff000 ≤ t := hhas.1
    rcases nodeAt_boot hp e with ⟨-, rfl⟩ | ⟨-, rfl⟩ | ⟨-, rfl⟩ | ⟨-, rfl⟩ | ⟨-, rfl⟩ <;> omega

theorem takenOver_boot : TakenOver [⟨0x1000000, 512 * 4096⟩] bootAlloc where
  inv := bootAlloc_inv
  low _ hp := lt_trans (bootAlloc_owns hp).2 (by decide)
  free _ hp := ⟨_, List.mem_singleton_self _, bootAlloc_owns hp.inBlocks⟩

/-- a page is mapped and a process created, with a direct map of 1 GiB pages -/
theorem kernel_pages_closed_boot : ∃ m₁ m₂, archInitPhysicalMapping true 0x1000 bootMachine bootRegions =
      some (m₁, [⟨0x1000000, 512 * 4096⟩]) ∧
    initKernelMemProt (pagesImage 1 1 1 1) { m₁ with pmem := bootAlloc, nx := true } = some m₂ ∧
    Always spaceStep UserClosed (fun _ _ _ => True) ⟨m₂, [], ∅⟩
      [.kmapanon 0xffff900000000000 4096 3, .procCreate] := by
  have hmap : archInitPhysicalMapping true 0x1000 bootMachine bootRegions =
      some (_, [⟨0x1000000, 512 * 4096⟩]) := rfl
  obtain ⟨m₁, memFree₁, e, g⟩ := physMapping_spec true 0x1000 bootMachine bootSpace_boot.free
    bootSpace_boot.low bootSpace_boot.apart (by decide)
  rw [hmap] at e
  obtain ⟨rfl, rfl⟩ := Prod.mk.inj (Option.some.inj e)
  have hb := (bootSpace_boot.booted g takenOver_boot true).1
  obtain ⟨m₂, einit, hl⟩ := bootRun_legal hb rfl (g.entry bootSpace_boot.tree (by decide) (by decide) _)
  refine ⟨_, m₂, hmap, einit, kernel_pages_closed _ true true 0x1000 bootMachine _ m₂ _ _ _ _ bootSpace_boot
    (by decide) hmap takenOver_boot einit _ (Along.and _ _ hl ?_)⟩
  exact ⟨rfl, fun _ _ => ⟨trivial, fun _ _ => trivial⟩⟩

end FuseeOS
