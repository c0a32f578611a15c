import FuseeOS.Kernel.MemInv
import FuseeOS.Kernel.Recount

/-!
# kmapanon over a run

Everything that happens to the page tables after `init_kernel_mem_prot`: the operations on mappings, new
processes, stores to memory, and pages that are given back without having been taken.  The last make
`pages_free` wrong; what counts is the number of clear bits.

* `MemProt.memInv`     the tables that `init_kernel_mem_prot` leaves;
* `MemInv.memStep`     every legal operation has a result and keeps the invariant;
* `kmapanon_grants`    in every state of every run, what `kmapanon` gives is what was asked for exactly if
                       the entries that are there let it through.
-/

namespace FuseeOS
open Radix StepRun

/-! ## the number of free pages -/

/-- number of the clear bits -/
def Machine.freeBits (m : Machine) : Nat := clearCount m.pmem.live

/-- `m` with the right count -/
def Machine.exact (m : Machine) : Machine := m.recount m.freeBits

section
variable {m : Machine} {anon : Finset Nat}

theorem MemInv.exact (h : MemInv m anon) : m.exact = m := by
  have e : m.freeBits = m.pmem.pagesFree := h.wf.pmem.pages.symm
  unfold Machine.exact
  rw [e]
  rfl

theorem exact_recount (m : Machine) (k : Nat) : (m.recount k).exact = m.exact := rfl

/-- pages that are in no block: only the count changes -/
theorem freePhys_outside {a : PhysicalMemoryAllocator} {page size : Nat}
    (h : ∀ i < pageCount size, ∀ b ∈ a.blocks, b.covers ((page + i * PAGESIZE) % 2^64) = false) :
    ∃ k, freePhys a page size = a.recount k := by
  have hfold : ∀ n ≤ pageCount size, (List.range n).foldl
      (fun a i => markPageFree a ((page + i * PAGESIZE) % 2^64)) a = a := by
    intro n
    induction n with
    | zero => exact fun _ => rfl
    | succ n ih =>
      intro hn
      rw [List.range_succ, List.foldl_append, ih (by omega)]
      have e : onBlock .free ((page + n * PAGESIZE) % 2^64) a.blocks = a.blocks :=
        onBlock_of_not_covers _ _ _ (h n hn)
      show markPageFree a _ = a
      unfold markPageFree
      simp only [e]
  refine ⟨(a.pagesFree + pageCount size) % 2^64, ?_⟩
  unfold freePhys freePhysPages
  rw [hfold _ (le_refl _)]
  rfl

end

/-! ## operations -/

inductive MemOp where
  | space (op : SpaceOp)
  /-- a store to the word `i` of a page -/
  | store (page : Nat) (i : Fin 512) (w : BitVec 64)
  | freePhys (page size : Nat)

def memStep (s : Spaces) : MemOp → Option Spaces
  | .space op => spaceStep s op
  | .store page i w => some { s with machine := s.machine.setWord page i w }
  | .freePhys page size => some { s with
      machine := { s.machine with pmem := freePhys s.machine.pmem page size } }

/-- Mapping calls are made for ranges that are not mapped, with enough free pages, and `kmap` for frames
that the allocator has not; the others for mapped pages.  Page tables are not written otherwise, and
`free_phys` is called for pages in no block, as `init_mem` calls it. -/
def MemLegal (s : Spaces) : MemOp → Prop
  | .space (.kmapanon addr size _) => MemRange addr size ∧ NoPages s.machine addr size ∧
      missing s.machine (addr / 4096) (pagesIn size) + covered (addr / 4096) (pagesIn size) ≤
        s.machine.freeBits
  | .space (.kmap addr phys size _) => MemRange (kmapAddr s.machine addr size) size ∧
      NoPages s.machine (kmapAddr s.machine addr size) size ∧ phys < 2^64 ∧
      (∀ j < covered (kmapAddr s.machine addr size / 4096) (pagesIn size),
        ¬ s.machine.pmem.Owns (kmapFrame phys j)) ∧
      missing s.machine (kmapAddr s.machine addr size / 4096) (pagesIn size) ≤ s.machine.freeBits
  | .space (.kmprotect addr size _) => MemRange addr size ∧
      ∀ v ∈ visitedPages addr size, (leaf s.machine v).isSome
  | .space (.kunmapanon addr size) => MemRange addr size ∧ visitedPages addr size ⊆ s.anon
  | .space .unmapLomem => ∀ v ∈ s.anon, 128 ≤ (pageIndex v 3).val
  | .space .procCreate => 0 < s.machine.freeBits
  | .store page _ _ => ¬ s.machine.IsTable page
  | .freePhys page size => ∀ i < pageCount size, ∀ b ∈ s.machine.pmem.blocks,
      b.covers ((page + i * PAGESIZE) % 2^64) = false

section
variable {s : Spaces}

/-- the operations on mappings, where the count is right -/
theorem MemInv.spaceStep {op : SpaceOp} (h : MemInv s.machine s.anon) (hl : MemLegal s (.space op)) :
    ∃ s', FuseeOS.spaceStep s op = some s' ∧ MemInv s'.machine s'.anon := by
  have hcount : s.machine.freeBits = s.machine.pmem.pagesFree := h.wf.pmem.pages.symm
  cases op with
  | kmapanon addr size prot =>
    obtain ⟨m, e, hi⟩ := h.kmapanon prot hl.1 hl.2.1 (hcount ▸ hl.2.2)
    exact ⟨⟨m, s.procs, _⟩, by simp only [FuseeOS.spaceStep, e, Option.map_some], hi⟩
  | kmap addr phys size prot =>
    obtain ⟨x, e, hi⟩ := h.kmap prot hl.1 hl.2.1 hl.2.2.1 hl.2.2.2.1 (hcount ▸ hl.2.2.2.2)
    exact ⟨⟨x.2, s.procs, _⟩, by simp only [FuseeOS.spaceStep, e, Option.map_some], hi⟩
  | kmprotect addr size prot =>
    obtain ⟨m, e, hi⟩ := h.kmprotect prot hl.1 hl.2
    exact ⟨⟨m, s.procs, _⟩, by simp only [FuseeOS.spaceStep, e, Option.map_some], hi⟩
  | kunmapanon addr size =>
    obtain ⟨m, e, hi⟩ := h.kunmapanon hl.1 hl.2
    exact ⟨⟨m, s.procs, _⟩, by simp only [FuseeOS.spaceStep, e, Option.map_some], hi⟩
  | unmapLomem => exact ⟨_, rfl, h.unmapLomem hl⟩
  | procCreate =>
    obtain ⟨x, e, hi⟩ := h.createCr3 (hcount ▸ hl)
    exact ⟨⟨x.2, s.procs ++ [x.1], _⟩, by simp only [FuseeOS.spaceStep, e, Option.map_some], hi⟩

/-- legality does not look at the count -/
theorem MemLegal.recount {op : SpaceOp} (hl : MemLegal s (.space op)) (n : Nat) :
    MemLegal (s.recount n) (.space op) := by
  cases op <;> exact hl

/-- **Every legal operation has a result and keeps the invariant.** -/
theorem MemInv.memStep {op : MemOp} (h : MemInv s.machine.exact s.anon) (hl : MemLegal s op) :
    ∃ s', FuseeOS.memStep s op = some s' ∧ MemInv s'.machine.exact s'.anon := by
  cases op with
  | space op =>
    obtain ⟨t, e, ht⟩ := MemInv.spaceStep (s := s.recount s.machine.freeBits) h (hl.recount _)
    obtain ⟨k, ek⟩ := spaceStep_recount s op s.machine.freeBits
    rw [e] at ek
    obtain ⟨s', es, rfl⟩ := Option.map_eq_some_iff.mp ek.symm
    refine ⟨s', es, ?_⟩
    rw [← exact_recount s'.machine k, show (s'.machine.recount k).exact = s'.machine.recount k from ht.exact]
    exact ht
  | store page i w => exact ⟨_, rfl, h.setWord (m := s.machine.exact) hl i w⟩
  | freePhys page size =>
    obtain ⟨k, e⟩ := freePhys_outside hl
    refine ⟨_, rfl, ?_⟩
    show MemInv (Machine.exact { s.machine with pmem := freePhys s.machine.pmem page size }) s.anon
    rw [e]
    exact h

end

/-! ## the start -/

/-- The machine when `init_kernel_mem_prot` is called: besides `Booted`, the boot loader's tables are
well-formed and what it has mapped is in use. -/
structure BootTables (img : KernelImage) (m : Machine) : Prop extends Booted img m where
  entry : ∀ v k, k < 3 → ∀ w, entryOf m v (k + 1) = some w → Plain w ∨ large w = true ∧ k < 2
  leaves : LeavesUsed m

section
variable {img : KernelImage} {m m₁ m₂ m' : Machine}

theorem BootTables.wellFormed (h : BootTables img m) : WellFormed m := ⟨h.tables, h.entry⟩

/-- entries above the lowest level get the right to write at most -/
theorem MemProt.above (h : MemProt img m m₁ m₂ m') (v k : Nat) (hk : k < 3) {w : BitVec 64}
    (hw : entryOf m' v (k + 1) = some w) :
    ∃ w₁, entryOf m₁ v (k + 1) = some w₁ ∧ (w = w₁ ∨ w = w₁ ||| X86_PAGE_WRITE) := by
  have e : entryOf m' v (k + 1) = entryOf m₂ v (k + 1) :=
    h.sections.upper _ _ (by rw [length_stem (by omega)]; omega)
  have e₂ : entryOf m₂ v (k + 1) = _ := h.opened.entry _ _ length_stem_le
  rw [e, e₂] at hw
  by_cases hh : (stem v (3 - (k + 1))).head? = some LAST
  · rw [if_pos hh, Option.map_eq_some_iff] at hw
    obtain ⟨w₁, hw₁, rfl⟩ := hw
    exact ⟨w₁, hw₁, .inr rfl⟩
  · rw [if_neg hh] at hw
    exact ⟨w, hw, .inl rfl⟩

/-- **What `init_kernel_mem_prot` leaves.** -/
theorem MemProt.memInv (h : MemProt img m m₁ m₂ m') (hb : BootTables img m) : MemInv m' ∅ := by
  have wf₁ : WellFormed m₁ := by
    rcases setKernelHalf_spec hb.tables (plainOn_way m) with ⟨n, e, g, -⟩ | ⟨e, -⟩
    · obtain rfl := Option.some.inj (h.half.symm.trans e)
      exact g.wellFormed hb.wellFormed
    · rw [h.half] at e
      exact nomatch e
  refine ⟨⟨h.sections.tables, fun v k hk w hw => ?_⟩, fun v w hw hq => ?_,
    fun v hv => absurd hv (Finset.notMem_empty v), fun v hv => absurd hv (Finset.notMem_empty v),
    fun v hv => absurd hv (Finset.notMem_empty v)⟩
  · obtain ⟨w₁, hw₁, rfl | rfl⟩ := h.above v k hk hw
    · exact wf₁.entry v k hk w hw₁
    · rcases wf₁.entry v k hk w₁ hw₁ with hp | ⟨hl, hk2⟩
      · exact .inl hp.orWrite
      · exact .inr ⟨(large_orWrite w₁).trans hl, hk2⟩
  · obtain ⟨g, e, hg⟩ := h.entry_map v 0 (Nat.zero_le 3)
    have hw' : (entryOf m₁ v 0).map g = some w := e.symm.trans hw
    obtain ⟨w₁, hw₁, rfl⟩ := Option.map_eq_some_iff.mp hw'
    rw [(hg w₁).2, h.sections.pmem, h.opened.pmem] at hq
    exact hb.leaves v w₁ ((h.grown.leaf v).symm.trans hw₁) (h.grown.free _ hq)

end

/-! ## what kmapanon gives -/

/-- For every range that can be mapped and every protection, `kmapanon` gives what is asked for exactly if
`ok` holds. -/
def Grants (ok : Machine → Nat → Nat → Prop) (s : Spaces) : Prop :=
  ∀ addr size prot, AnonRange s.machine addr size →
    missing s.machine (addr / 4096) (size / 4096) + size / 4096 ≤ s.machine.freeBits →
    ((∃ frame m', kmapanon s.machine addr size prot = some m' ∧ Gives s.machine addr size prot frame m') ↔
      ok s.machine (addr / 4096) prot)

theorem MemInv.grants {s : Spaces} (h : MemInv s.machine.exact s.anon) : Grants LetsThrough s := by
  intro addr size prot hr hpages
  generalize hn : s.machine.freeBits = n at hpages
  have hx : MemInv (s.machine.recount n) s.anon := hn ▸ h
  have hr' : AnonRange (s.machine.recount n) addr size :=
    ⟨hr.pos, hr.aligned, hr.pages, hr.span, hr.half, hr.unmapped⟩
  have hgives := kmapanon_gives hx.wf hx.leaves hr' prot hpages
  obtain ⟨k, e⟩ := kmapanon_recount s.machine addr size prot n
  have hlet : LetsThrough (s.machine.recount n) (addr / 4096) prot ↔
      LetsThrough s.machine (addr / 4096) prot :=
    ⟨fun l => ⟨l.write, l.user, l.exec, l.noExec⟩, fun l => ⟨l.write, l.user, l.exec, l.noExec⟩⟩
  rw [← hlet, ← hgives, e]
  constructor
  · rintro ⟨frame, m', em, g⟩
    refine ⟨frame, m'.recount k, ?_, g.translated, g.free, g.zero, g.table, g.leaf, g.distinct, g.rest⟩
    rw [em]
    rfl
  · rintro ⟨frame, m', em, g⟩
    obtain ⟨m'', em'', rfl⟩ := Option.map_eq_some_iff.mp em
    exact ⟨frame, m'', em'', g.translated, g.free, g.zero, g.table, g.leaf, g.distinct, g.rest⟩

/-- **What `kmapanon` gives, in every state of every run.**  Pages of a range that was not mapped have fresh
frames, full of zeros, with exactly the rights of `prot`, if and only if the entries above them that were
there already let these rights through. -/
theorem kmapanon_grants (img : KernelImage) (m m' : Machine) (hb : BootTables img m)
    (hinit : initKernelMemProt img m = some m') (ops : List MemOp)
    (hops : Along memStep MemLegal ⟨m', [], ∅⟩ ops) :
    Always memStep (Grants LetsThrough) (fun _ _ _ => True) ⟨m', [], ∅⟩ ops := by
  rcases initKernelMemProt_spec hb.tables hb.plain hb.laid hb.mapped with
    ⟨-, m₁, m₂, m'', e, hp⟩ | ⟨-, e⟩
  swap
  · rw [e] at hinit
    exact nomatch hinit
  rw [hinit] at e
  obtain rfl := Option.some.inj e
  have hinv := hp.memInv hb
  have hstart : MemInv m'.exact ∅ := by rwa [hinv.exact]
  have h := always_of_step (I := fun s : Spaces => MemInv s.machine.exact s.anon) (R := fun _ _ _ => True)
    (fun s op hs hl => by
      obtain ⟨s', e, hs'⟩ := MemInv.memStep hs hl
      exact ⟨s', e, trivial, hs'⟩) ops ⟨m', [], ∅⟩ hstart hops
  exact h.mono (fun _ hs => hs.grants) fun _ _ _ _ _ _ => trivial

/-! ## the machine of the boot loader -/

theorem leavesUsed_boot : LeavesUsed bootMachine := by
  have hflags : IsFlags 1 := by
    unfold IsFlags
    decide
  intro v w hw hq
  have hlow := (bootAlloc_owns hq.inBlocks).1
  obtain ⟨t, ht, hmem, -⟩ := entry_eq_some.mp hw
  -- the frames of the two tables end below the free pages
  have hframe (b : Nat) (hb : b % 4096 = 0) (hle : b ≤ 0x300000)
      (e : BitVec.ofNat 64 (b + (pageIndex v 0).val * 0x1000) ||| 1 = w) : False := by
    have hi := (pageIndex v 0).isLt
    rw [← e, frameOf_entry (by omega) (by omega) hflags] at hlow
    omega
  rcases nodeAt_boot length_stem_le ht with ⟨h, -⟩ | ⟨h, -⟩ | ⟨h, -⟩ | ⟨-, rfl⟩ | ⟨-, rfl⟩
  · exact nomatch congrArg List.length h
  · exact absurd (congrArg List.length h) (by rw [length_stem (le_refl 3)]; decide)
  · exact absurd (congrArg List.length h) (by rw [length_stem (le_refl 3)]; decide)
  · exact hframe 0x100000 (by decide) (by decide) hmem
  · exact hframe 0x300000 (by decide) (by decide) hmem

theorem bootTables_boot : BootTables (pagesImage 1 1 1 1) bootMachine :=
  ⟨booted_pagesImage (by decide), wellFormed_boot.entry, leavesUsed_boot⟩

/-- a part of the upper half where the boot loader has mapped nothing, after `init_kernel_mem_prot` -/
theorem bootRange : ∃ m', initKernelMemProt (pagesImage 1 1 1 1) bootMachine = some m' ∧ MemInv m' ∅ ∧
    AnonRange m' 0xffff900000000000 4096 ∧ 256 ≤ m'.freeBits ∧
    ∃ w, entryOf m' (0xffff900000000000 / 4096) 3 = some w ∧ writable w = false := by
  have hb := bootTables_boot
  have habs := absentTops_le bootMachine 256
  have hpages : bootMachine.pmem.pagesFree = 512 := rfl
  rcases initKernelMemProt_spec hb.tables hb.plain hb.laid hb.mapped with
    ⟨-, m₁, m₂, m', e, hp⟩ | ⟨hno, -⟩
  swap
  · exact absurd ⟨by omega, by decide⟩ hno
  have hinv := hp.memInv hb
  refine ⟨m', e, hinv, ⟨by decide, by decide, by decide, by decide, by decide, fun va h1 h2 => ?_⟩, ?_, ?_⟩
  · have hc : canonical va := by
      unfold canonical
      omega
    have hnone := (noPage_iff hc).mp (noPages_boot (by decide) (by decide) va h1 h2)
    have haddr := hp.translate_addr va
    rw [hnone] at haddr
    exact Option.map_eq_none_iff.mp haddr
  · have hcount := hp.count
    have hbits : m'.freeBits = m'.pmem.pagesFree := hinv.wf.pmem.pages.symm
    rw [hbits, hp.sections.pmem, hp.opened.pmem]
    omega
  · -- the top entry is one of `set_kernel_half`
    obtain ⟨w, hw⟩ := Option.isSome_iff_exists.mp (hp.tops ⟨288, by decide⟩ (by decide))
    have hidx : pageIndex (0xffff900000000000 / 4096) 3 = ⟨288, by decide⟩ := rfl
    refine ⟨w, ?_, ?_⟩
    · show m'.entry [] (pageIndex _ 3) = some w
      rw [hidx, hp.sections.upper [] _ (by decide), hp.opened.top, hw]
    · rcases setKernelHalf_spec hb.tables hb.plain with ⟨n, en, -, hnew, -⟩ | ⟨en, -⟩
      · obtain rfl := Option.some.inj (hp.half.symm.trans en)
        rcases hnew [] _ w (by decide) hw with hold | hhalf
        · exact nomatch hold
        · exact hhalf.1
      · rw [hp.half] at en
        exact nomatch en

/-- a page is mapped and unmapped again -/
theorem kmapanon_grants_boot : ∃ m', initKernelMemProt (pagesImage 1 1 1 1) bootMachine = some m' ∧
    Always memStep (Grants LetsThrough) (fun _ _ _ => True) ⟨m', [], ∅⟩
      [.space (.kmapanon 0xffff900000000000 4096 3), .space (.kunmapanon 0xffff900000000000 4096)] := by
  obtain ⟨m', e, -, hr, hbits, -⟩ := bootRange
  have hmr : MemRange 0xffff900000000000 4096 := ⟨by decide, by decide, by decide⟩
  refine ⟨m', e, kmapanon_grants _ _ _ bootTables_boot e _
    ⟨⟨hmr, hr.noPages, ?_⟩, fun s' hs' => ⟨⟨hmr, ?_⟩, fun _ _ => trivial⟩⟩⟩
  · have hmiss := missing_le m' (0xffff900000000000 / 4096) (pagesIn 4096)
    have htables : tableCount (pagesIn 4096) = 1 := by decide
    have hcov : covered (0xffff900000000000 / 4096) (pagesIn 4096) = 1 := by decide
    show missing m' _ _ + _ ≤ m'.freeBits
    omega
  · obtain ⟨m'', -, rfl⟩ := Option.map_eq_some_iff.mp hs'
    exact Finset.subset_union_right

/-- a page that is to be written, behind an entry of `set_kernel_half` -/
theorem kmapanon_not_grants : ¬ ∀ (img : KernelImage) (m m' : Machine), BootTables img m →
    initKernelMemProt img m = some m' → ∀ ops, Along memStep MemLegal ⟨m', [], ∅⟩ ops →
    Always memStep (Grants fun _ _ _ => True) (fun _ _ _ => True) ⟨m', [], ∅⟩ ops := by
  intro hall
  obtain ⟨m', e, hinv, hr, hbits, w, hw, hwr⟩ := bootRange
  have hno : missing m' (0xffff900000000000 / 4096) (4096 / 4096) + 4096 / 4096 ≤ m'.freeBits := by
    have hmiss := missing_le m' (0xffff900000000000 / 4096) (4096 / 4096)
    have htables : tableCount (4096 / 4096) = 1 := by decide
    omega
  have hg := (hall _ _ _ bootTables_boot e [] trivial).here _ _ KPROT_WRITE hr hno
  have hlet := (MemInv.grants (s := ⟨m', [], ∅⟩) (by rwa [hinv.exact]) _ _ KPROT_WRITE hr hno).mp (hg.mpr trivial)
  have hopen := hlet.write (by decide) 2 (by decide) w hw
  rw [hwr] at hopen
  exact nomatch hopen

end FuseeOS
