import Mathlib.Order.Interval.Finset.Nat
import FuseeOS.Lib.Run
import FuseeOS.Kernel.WriteXorExec

/-!
# Address spaces over a run

The kernel's page tables and the top tables of the processes, while kernel mappings come and go.

* `SpaceInv`             the tables are a tree, the processes have the kernel's upper entries, and the
                         pages of `kmapanon` have frames of their own;
* `SpaceInv.step`        what every operation keeps;
* `kernel_half_shared`   all address spaces translate the upper half alike, at any time;
* `tables_below`         the tables stay below the end of memory.
-/

namespace FuseeOS
open Radix StepRun

structure Spaces where
  machine : Machine
  /-- `addr_space.cr3` of the processes -/
  procs : List Nat
  /-- the pages that `kmapanon` has mapped and `kunmapanon` has not unmapped since -/
  anon : Finset Nat

inductive SpaceOp where
  | kmapanon (addr size prot : Nat)
  | kmap (addr phys size prot : Nat)
  | kmprotect (addr size prot : Nat)
  | kunmapanon (addr size : Nat)
  | unmapLomem
  | procCreate

/-- number of pages that `page_iter` counts for `size` bytes -/
def pagesIn (size : Nat) : Nat := (size + 4095) / 4096

/-- the pages of a range that `page_iter` visits -/
def visitedPages (addr size : Nat) : Finset Nat :=
  Finset.Ico (addr / 4096) (addr / 4096 + covered (addr / 4096) (pagesIn size))

def spaceStep (s : Spaces) : SpaceOp → Option Spaces
  | .kmapanon addr size prot => (kmapanon s.machine addr size prot).map fun m =>
      { s with machine := m, anon := s.anon ∪ visitedPages addr size }
  | .kmap addr phys size prot => (kmap s.machine addr phys size prot).map fun x =>
      { s with machine := x.2 }
  | .kmprotect addr size prot => (kmprotect s.machine addr size prot).map fun m =>
      { s with machine := m }
  | .kunmapanon addr size => (kunmapanon s.machine addr size).map fun m =>
      { s with machine := m, anon := s.anon \ visitedPages addr size }
  | .unmapLomem => some { s with machine := unmapLomem s.machine }
  | .procCreate => (createCr3 s.machine).map fun x =>
      { s with machine := x.2, procs := s.procs ++ [x.1] }

/-! ## legal calls -/

/-- bytes of the upper half, inside one GiB and outside the direct map of physical memory -/
structure KernelRange (addr size : Nat) : Prop where
  pos : 0 < size
  upper : 2^64 - 2^47 ≤ addr
  stop : addr + size ≤ 2^64
  gib : addr / 2^30 = (addr + size - 1) / 2^30
  mapped : addr / 2^39 % 512 ≠ PML4_PHYSICAL

/-- no page that the range meets is mapped -/
def RangeUnmapped (m : Machine) (addr size : Nat) : Prop :=
  ∀ v, addr / 4096 ≤ v → v ≤ (addr + size - 1) / 4096 → leaf m v = none

/-- every page that the range meets is mapped -/
def RangeMapped (m : Machine) (addr size : Nat) : Prop :=
  ∀ v, addr / 4096 ≤ v → v ≤ (addr + size - 1) / 4096 → (leaf m v).isSome

/-- Mapping calls are made for unmapped ranges with enough free pages, protecting calls for mapped
ranges, unmapping calls for pages of `kmapanon`; a process needs a free page. -/
def SpaceLegal (s : Spaces) : SpaceOp → Prop
  | .kmapanon addr size _ => KernelRange addr size ∧ RangeUnmapped s.machine addr size ∧
      missing s.machine (addr / 4096) (pagesIn size) + covered (addr / 4096) (pagesIn size) ≤
        s.machine.pmem.pagesFree
  | .kmap addr phys size _ => KernelRange (kmapAddr s.machine addr size) size ∧
      RangeUnmapped s.machine (kmapAddr s.machine addr size) size ∧ phys < 2^64 ∧
      missing s.machine (kmapAddr s.machine addr size / 4096) (pagesIn size) ≤ s.machine.pmem.pagesFree
  | .kmprotect addr size _ => KernelRange addr size ∧ RangeMapped s.machine addr size
  | .kunmapanon addr size => KernelRange addr size ∧ visitedPages addr size ⊆ s.anon
  | .unmapLomem => True
  | .procCreate => 0 < s.machine.pmem.pagesFree

section
variable {addr size : Nat}

theorem KernelRange.kernelPage (h : KernelRange addr size) : KernelPage (addr / 4096) := by
  have h1 := h.upper
  have h2 := h.stop
  have h3 := h.pos
  have h4 := h.mapped
  show 256 < addr / 4096 / 512^3 % 512
  simp only [PML4_PHYSICAL] at h4
  omega

theorem KernelRange.inSpan (h : KernelRange addr size) : InSpan (addr / 4096) (pagesIn size) := by
  have h1 := h.gib
  have h3 := h.pos
  unfold InSpan tableCount pagesIn
  omega

theorem KernelRange.pages_pos (h : KernelRange addr size) : 0 < pagesIn size := by
  have := h.pos
  unfold pagesIn
  omega

theorem KernelRange.size_lt (h : KernelRange addr size) : size + 4095 < 2^64 := by
  have h1 := h.upper
  have h2 := h.stop
  omega

/-- a visited page is met by the range -/
theorem KernelRange.visited_le (h : KernelRange addr size) {j : Nat}
    (hj : j < covered (addr / 4096) (pagesIn size)) : addr / 4096 + j ≤ (addr + size - 1) / 4096 := by
  have h1 := h.pos
  have hle : covered (addr / 4096) (pagesIn size) ≤ (size + 4095) / 4096 := Nat.min_le_left _ _
  omega

/-- and is a page of the upper half -/
theorem KernelRange.visited_upper (h : KernelRange addr size) {v : Nat} (hv : v ∈ visitedPages addr size) :
    0xffff800000000 ≤ v ∧ v < 2^52 := by
  obtain ⟨h1, h2⟩ := Finset.mem_Ico.mp hv
  have h3 := h.upper
  have h4 := h.stop
  have h5 := h.visited_le (j := v - addr / 4096) (by omega)
  omega

theorem mem_visited {v : Nat} : v ∈ visitedPages addr size ↔
    ∃ j < covered (addr / 4096) (pagesIn size), v = addr / 4096 + j := by
  unfold visitedPages
  rw [Finset.mem_Ico]
  constructor
  · rintro ⟨h1, h2⟩
    exact ⟨v - addr / 4096, by omega, by omega⟩
  · rintro ⟨j, hj, rfl⟩
    exact ⟨by omega, by omega⟩

end

/-! ## the invariant -/

/-- the address bits of an entry, as the kernel reads them -/
def physFrame (w : BitVec 64) : Nat := (w &&& MMASK_PHYS).toNat

def frameAt (m : Machine) (v : Nat) : Option Nat := (leaf m v).map physFrame

/-- the top table of a process: a page of its own, with the kernel's upper entries -/
structure ProcRoot (m : Machine) (top : Fin 512 → BitVec 64) (r : Nat) : Prop where
  used : ¬ m.pmem.Free r
  apart : ¬ m.IsTable r
  half : ∀ i : Fin 512, 256 ≤ i.val → m.mem r i = top i

/-- frame `f` of an anonymous page -/
structure Backs (m : Machine) (procs : List Nat) (f : Nat) : Prop where
  owns : m.pmem.Owns f
  used : ¬ m.pmem.Free f
  apart : ¬ m.IsTable f
  proc : f ∉ procs

structure SpaceInv (top : Fin 512 → BitVec 64) (s : Spaces) : Prop where
  tables : Tables s.machine
  plain : PlainOn KernelPage s.machine
  cpu : s.machine.cpuCr3 = s.machine.cr3
  present : ∀ i : Fin 512, 256 ≤ i.val → present (top i) = true
  half : ∀ i : Fin 512, 256 ≤ i.val → s.machine.mem s.machine.cr3 i = top i
  procs : ∀ r ∈ s.procs, ProcRoot s.machine top r
  upper : ∀ v ∈ s.anon, 0xffff800000000 ≤ v ∧ v < 2^52
  backed : ∀ v ∈ s.anon, ∃ f, frameAt s.machine v = some f ∧ Backs s.machine s.procs f
  apart : ∀ v ∈ s.anon, ∀ u ∈ s.anon, frameAt s.machine v = frameAt s.machine u → v = u

/-- What an operation does to the machine: the upper entries stay, tables and written pages come from
the free ones, and no page is freed but the frames of the pages `gone`. -/
structure Stepped (m m' : Machine) (gone : Nat → Prop) : Prop where
  tables : Tables m'
  plain : PlainOn KernelPage m'
  cr3 : m'.cr3 = m.cr3
  cpu : m.cpuCr3 = m.cr3 → m'.cpuCr3 = m'.cr3
  half : ∀ i : Fin 512, 256 ≤ i.val → FuseeOS.present (m.mem m.cr3 i) = true →
    m'.mem m'.cr3 i = m.mem m.cr3 i
  fresh : ∀ t, m'.IsTable t → m.IsTable t ∨ m.pmem.Free t
  data : ∀ f, ¬ m.IsTable f → ¬ m.pmem.Free f → m'.mem f = m.mem f
  free : ∀ q, m'.pmem.Free q → m.pmem.Free q ∨ ∃ v, gone v ∧ frameAt m v = some q
  owns : ∀ q, m'.pmem.Owns q ↔ m.pmem.Owns q

/-- the allocator keeps its pages, and new tables are pages of it -/
structure AddsTables (m m' : Machine) : Prop where
  owns : ∀ q, m'.pmem.Owns q ↔ m.pmem.Owns q
  fresh : ∀ t, m'.IsTable t → m.IsTable t ∨ m.pmem.Owns t

/-- page `v` got a fresh frame -/
structure Fresh (m m' : Machine) (v f : Nat) : Prop where
  frame : frameAt m' v = some f
  free : m.pmem.Free f
  used : ¬ m'.pmem.Free f
  apart : ¬ m'.IsTable f

section
variable {top : Fin 512 → BitVec 64} {s : Spaces} {m m' : Machine} {gone : Nat → Prop}
  {anon : Finset Nat}

theorem Stepped.addsTables (st : Stepped m m' gone) : AddsTables m m' :=
  ⟨st.owns, fun t ht => (st.fresh t ht).imp_right fun hq => hq.inBlocks⟩

/-- **One step for all operations.**  An anonymous page afterwards is one from before, with its frame,
or has a fresh frame. -/
theorem SpaceInv.stepped (h : SpaceInv top s) (st : Stepped s.machine m' gone)
    (hgone : ∀ v, gone v → v ∈ s.anon)
    (hanon : ∀ v ∈ anon, (v ∈ s.anon ∧ ¬ gone v ∧ frameAt m' v = frameAt s.machine v) ∨
      ∃ f, Fresh s.machine m' v f)
    (hapart : ∀ v ∈ anon, ∀ u ∈ anon, ∀ f, Fresh s.machine m' v f → Fresh s.machine m' u f → v = u)
    (hupper : ∀ v ∈ anon, 0xffff800000000 ≤ v ∧ v < 2^52) :
    SpaceInv top ⟨m', s.procs, anon⟩ where
  tables := st.tables
  plain := st.plain
  cpu := st.cpu h.cpu
  present := h.present
  half i hi := by
    have he := h.half i hi
    rw [st.half i hi (by rw [he]; exact h.present i hi), he]
  procs r hr := by
    have hp := h.procs r hr
    refine ⟨fun hq => ?_, fun ht => (st.fresh r ht).elim hp.apart hp.used, fun i hi => ?_⟩
    · rcases st.free r hq with hq | ⟨v, hv, e⟩
      · exact hp.used hq
      · obtain ⟨f, e', hb⟩ := h.backed v (hgone v hv)
        rw [e] at e'
        exact hb.proc (Option.some.inj e' ▸ hr)
    · rw [st.data r hp.apart hp.used]
      exact hp.half i hi
  upper := hupper
  backed v hv := by
    rcases hanon v hv with ⟨hold, hng, e⟩ | ⟨f, hf⟩
    · obtain ⟨f, e', hb⟩ := h.backed v hold
      refine ⟨f, e.trans e', (st.owns f).mpr hb.owns, fun hq => ?_,
        fun ht => (st.fresh f ht).elim hb.apart hb.used, hb.proc⟩
      rcases st.free f hq with hq | ⟨u, hu, e''⟩
      · exact hb.used hq
      · have huv := h.apart u (hgone u hu) v hold (e''.trans e'.symm)
        exact hng (huv ▸ hu)
    · refine ⟨f, hf.frame, (st.owns f).mpr hf.free.inBlocks, hf.used, hf.apart, fun hr => ?_⟩
      exact (h.procs f hr).used hf.free
  apart v hv u hu e := by
    rcases hanon v hv with ⟨hv', -, ev⟩ | ⟨f, hf⟩
    · rcases hanon u hu with ⟨hu', -, eu⟩ | ⟨g, hg⟩
      · exact h.apart v hv' u hu' (ev.symm.trans (e.trans eu))
      · -- an old frame is in use, a fresh one was free
        obtain ⟨f, e', hb⟩ := h.backed v hv'
        have hfg := (e'.symm.trans (ev.symm.trans e)).trans hg.frame
        exact absurd (Option.some.inj hfg ▸ hg.free) hb.used
    · rcases hanon u hu with ⟨hu', -, eu⟩ | ⟨g, hg⟩
      · obtain ⟨g, e', hb⟩ := h.backed u hu'
        have hfg := (hf.frame.symm.trans e).trans (eu.trans e')
        exact absurd (Option.some.inj hfg ▸ hf.free) hb.used
      · have hfg := Option.some.inj ((hf.frame.symm.trans e).trans hg.frame)
        exact hapart v hv u hu f hf (hfg ▸ hg)

/-- a step that leaves no anonymous page with another frame -/
theorem SpaceInv.stepped_old (h : SpaceInv top s) (st : Stepped s.machine m' gone)
    (hgone : ∀ v, gone v → v ∈ s.anon)
    (hanon : ∀ v ∈ anon, v ∈ s.anon ∧ ¬ gone v ∧ frameAt m' v = frameAt s.machine v) :
    SpaceInv top ⟨m', s.procs, anon⟩ := by
  refine h.stepped st hgone (fun v hv => .inl (hanon v hv)) (fun v hv u hu f hf hf' => ?_)
    fun v hv => h.upper v (hanon v hv).1
  have hvf := (hanon v hv).2.2.symm.trans hf.frame
  have huf := (hanon u hu).2.2.symm.trans hf'.frame
  exact h.apart v (hanon v hv).1 u (hanon u hu).1 (hvf.trans huf.symm)

end

/-! ## the operations -/

section
variable {m m₁ m₂ : Machine} {gone : Nat → Prop} {addr size prot : Nat}

theorem top_word {i : Fin 512} (h : ∀ w, m.entry [] i = some w → m₁.entry [] i = some w)
    (hp : present (m.mem m.cr3 i) = true) : m₁.mem m₁.cr3 i = m.mem m.cr3 i := by
  have e := h _ ((entry_nil m i).trans (if_pos hp))
  obtain ⟨t, ht, hw, -⟩ := entry_eq_some.mp e
  rw [← hw, ← Option.some.inj ht]

/-- tables are added, then lowest entries written, then the tables are loaded again -/
theorem stepped_of {s n : Nat} (g : Grown KernelPage m m₁) (l : OnlyLeaves m₁ s n m₂)
    (hdata : ∀ f, ¬ m₁.IsTable f → ¬ m₁.pmem.Free f → m₂.mem f = m₁.mem f)
    (hfree : ∀ q, m₂.pmem.Free q → m₁.pmem.Free q ∨ ∃ v, gone v ∧ frameAt m₁ v = some q)
    (howns : ∀ q, m₂.pmem.Owns q ↔ m₁.pmem.Owns q) : Stepped m (reloadCr3 m₂) gone where
  tables := reload_tables l.tables
  plain := l.plain g.plain
  cr3 := l.regs.cr3.trans g.regs.cr3
  cpu _ := rfl
  half i _ hp := top_word (fun w e => (l.upper (by decide) i).trans (g.kept [] i w (by decide) e)) hp
  fresh t ht := g.fresh t ((isTable_congr l.node t).mp ht)
  data f hf hq := by
    have h1 : ¬ m₁.IsTable f := fun ht => (g.fresh f ht).elim hf hq
    have h2 : ¬ m₁.pmem.Free f := fun hq' => hq (g.free f hq')
    exact (hdata f h1 h2).trans (g.data f hf hq)
  free q hq := by
    rcases hfree q hq with hq | ⟨v, hv, e⟩
    · exact .inl (g.free q hq)
    · refine .inr ⟨v, hv, ?_⟩
      unfold frameAt at e ⊢
      rw [← g.leaf]
      exact e
  owns q := (howns q).trans (g.owns q)

/-- a page of the upper half that is not visited keeps its frame -/
theorem frame_other (hr : KernelRange addr size) (g : Grown KernelPage m m₁)
    (l : OnlyLeaves m₁ (addr / 4096) (covered (addr / 4096) (pagesIn size)) m₂) {v : Nat}
    (hv : 0xffff800000000 ≤ v ∧ v < 2^52) (hn : v ∉ visitedPages addr size) :
    frameAt (reloadCr3 m₂) v = frameAt m v := by
  have e : leaf m₂ v = leaf m₁ v := by
    refine l.other _ _ length_stem_le fun j hj hl => hn ?_
    have hj' := mem_visited.mpr ⟨j, hj, rfl⟩
    have hu := hr.visited_upper hj'
    have hsame : SamePage v (addr / 4096 + j) := (samePage_iff _ _).mpr ⟨hl.1, hl.2⟩
    rw [samePage_upper (by omega) (by omega) hv.2 hu.2] at hsame
    rw [hsame]
    exact hj'
  unfold frameAt
  rw [show leaf (reloadCr3 m₂) v = leaf m₂ v from rfl, e, g.leaf]

/-- the frame of a page that the kernel maps -/
theorem physFrame_entry {p : Nat} (hp : p % 4096 = 0) (hlt : p < 2^47) (m : Machine) (prot : Nat) :
    physFrame (BitVec.ofNat 64 p ||| (X86_PAGE_PRESENT ||| pageProtFlags m prot)) = p :=
  addr_entry hp hlt (pageFlags m prot)

/-- protecting a page keeps its frame -/
theorem physFrame_setProt (m : Machine) (prot : Nat) (w : BitVec 64) :
    physFrame (setProt m prot w) = physFrame w :=
  congrArg BitVec.toNat (and_setProt (by decide) (by decide) (by decide) m prot w)

end

section
variable {top : Fin 512 → BitVec 64} {s : Spaces} {addr size : Nat}

/-- mapped pages are not visited by a call for an unmapped range -/
theorem SpaceInv.not_visited (h : SpaceInv top s) (hr : KernelRange addr size)
    (hun : RangeUnmapped s.machine addr size) {v : Nat} (hv : v ∈ s.anon) :
    v ∉ visitedPages addr size := by
  intro hv'
  obtain ⟨j, hj, rfl⟩ := mem_visited.mp hv'
  obtain ⟨f, e, -⟩ := h.backed _ hv
  have hnone := hun _ (Nat.le_add_right _ j) (hr.visited_le hj)
  unfold frameAt at e
  rw [hnone] at e
  exact nomatch e

theorem SpaceInv.kmapanon (h : SpaceInv top s) (prot : Nat) (hr : KernelRange addr size)
    (hun : RangeUnmapped s.machine addr size)
    (hpages : missing s.machine (addr / 4096) (pagesIn size) + covered (addr / 4096) (pagesIn size) ≤
      s.machine.pmem.pagesFree) :
    ∃ m, FuseeOS.kmapanon s.machine addr size prot = some m ∧
      SpaceInv top ⟨m, s.procs, s.anon ∪ visitedPages addr size⟩ ∧ AddsTables s.machine m := by
  rcases kmapanon_spec h.tables h.plain rfl hr.size_lt rfl hr.pages_pos hr.inSpan
    (fun v hv => hr.kernelPage.congr (hv.congr hr.inSpan)) prot with ⟨m₁, m₂, e, g, -, hm⟩ | ⟨-, hlt⟩
  swap
  · exact absurd hlt (Nat.not_lt.mpr hpages)
  refine ⟨reloadCr3 m₂, e, ?_⟩
  have st : Stepped s.machine (reloadCr3 m₂) fun _ => False :=
    stepped_of g.toGrown hm.toOnlyLeaves hm.data (fun q hq => .inl (hm.free q hq)) hm.owns
  have hold : ∀ v ∈ s.anon, frameAt (reloadCr3 m₂) v = frameAt s.machine v := fun v hv =>
    frame_other hr g.toGrown hm.toOnlyLeaves (h.upper v hv) (h.not_visited hr hun hv)
  have hnew : ∀ j < covered (addr / 4096) (pagesIn size), ∃ p, Fresh s.machine (reloadCr3 m₂)
      (addr / 4096 + j) p ∧ leaf m₂ (addr / 4096 + j) =
        some (BitVec.ofNat 64 p ||| (X86_PAGE_PRESENT ||| pageProtFlags s.machine prot)) ∧
      p % 4096 = 0 ∧ p < 2^47 := by
    intro j hj
    obtain ⟨p, hp, h1, h2, h3, h4⟩ := hm.mapped j hj
    refine ⟨p, ⟨?_, g.free p h3, h4, fun ht => ?_⟩, hp, h1, h2⟩
    · show (leaf m₂ _).map physFrame = _
      rw [hp, Option.map_some, physFrame_entry h1 h2]
    · exact g.tables.used p ((isTable_congr hm.node p).mp ht) h3
  refine ⟨h.stepped st (fun v hv => hv.elim) (fun v hv => ?_) (fun v hv u hu f hf hf' => ?_)
    fun v hv => ?_, st.addsTables⟩
  · rcases Finset.mem_union.mp hv with hv | hv
    · exact .inl ⟨hv, id, hold v hv⟩
    · obtain ⟨j, hj, rfl⟩ := mem_visited.mp hv
      obtain ⟨p, hp, -⟩ := hnew j hj
      exact .inr ⟨p, hp⟩
  · -- fresh frames belong to visited pages, and to different ones
    have hvis : ∀ v ∈ s.anon ∪ visitedPages addr size, Fresh s.machine (reloadCr3 m₂) v f →
        ∃ j < covered (addr / 4096) (pagesIn size), v = addr / 4096 + j := by
      intro v hv hf
      rcases Finset.mem_union.mp hv with hv | hv
      · obtain ⟨f', e', hb⟩ := h.backed v hv
        have hff := (hf.frame.symm.trans (hold v hv)).trans e'
        exact absurd (Option.some.inj hff ▸ hf.free) hb.used
      · exact mem_visited.mp hv
    obtain ⟨i, hi, rfl⟩ := hvis v hv hf
    obtain ⟨j, hj, rfl⟩ := hvis u hu hf'
    obtain ⟨p, hp, hlp, hp1, hp2⟩ := hnew i hi
    obtain ⟨q, hq, hlq, hq1, hq2⟩ := hnew j hj
    have hpf := Option.some.inj (hp.frame.symm.trans hf.frame)
    have hqf := Option.some.inj (hq.frame.symm.trans hf'.frame)
    have hij := hm.apart i j _ _ hi hj hlp hlq (by
      rw [frameOf_entry hp1 hp2 (pageFlags _ _), frameOf_entry hq1 hq2 (pageFlags _ _), hpf, hqf])
    rw [hij]
  · rcases Finset.mem_union.mp hv with hv | hv
    · exact h.upper v hv
    · exact hr.visited_upper hv

theorem SpaceInv.kmap {phys : Nat} (h : SpaceInv top s) (prot : Nat)
    (hr : KernelRange (kmapAddr s.machine addr size) size)
    (hun : RangeUnmapped s.machine (kmapAddr s.machine addr size) size) (hphys : phys < 2^64)
    (hpages : missing s.machine (kmapAddr s.machine addr size / 4096) (pagesIn size) ≤
      s.machine.pmem.pagesFree) :
    ∃ x, FuseeOS.kmap s.machine addr phys size prot = some x ∧ SpaceInv top ⟨x.2, s.procs, s.anon⟩ ∧
      AddsTables s.machine x.2 := by
  rcases kmap_spec h.tables h.plain rfl hr.size_lt rfl hr.pages_pos hr.inSpan
    (fun v hv => hr.kernelPage.congr (hv.congr hr.inSpan)) hphys prot with ⟨m₁, m₂, e, g, -, hm⟩ | ⟨-, hlt⟩
  swap
  · exact absurd hlt (Nat.not_lt.mpr hpages)
  refine ⟨_, e, ?_⟩
  have st₁ : Stepped (kmapStart s.machine addr phys size) (reloadCr3 m₂) fun _ => False :=
    stepped_of g.toGrown hm.toOnlyLeaves (fun f hf _ => hm.data f hf)
      (fun q hq => .inl (by rw [hm.pmem] at hq; exact hq)) fun q => by rw [hm.pmem]
  have st : Stepped s.machine (reloadCr3 m₂) fun _ => False :=
    ⟨st₁.tables, st₁.plain, st₁.cr3, st₁.cpu, st₁.half, st₁.fresh, st₁.data, st₁.free, st₁.owns⟩
  refine ⟨h.stepped_old st (fun v hv => hv.elim) fun v hv => ⟨hv, id, ?_⟩, st.addsTables⟩
  exact frame_other hr g.toGrown hm.toOnlyLeaves (h.upper v hv) (h.not_visited hr hun hv)

theorem SpaceInv.kmprotect (h : SpaceInv top s) (prot : Nat) (hr : KernelRange addr size)
    (hmap : RangeMapped s.machine addr size) :
    ∃ m, FuseeOS.kmprotect s.machine addr size prot = some m ∧ SpaceInv top ⟨m, s.procs, s.anon⟩ ∧
      AddsTables s.machine m := by
  obtain ⟨m₂, e, g⟩ := kmprotect_spec h.tables h.plain rfl hr.size_lt rfl hr.pages_pos hr.inSpan
    (fun v hv => hr.kernelPage.congr (hv.congr hr.inSpan)) prot
    fun j hj => hmap _ (Nat.le_add_right _ j) (hr.visited_le hj)
  refine ⟨reloadCr3 m₂, e, ?_⟩
  have hrefl := Grown.refl h.tables h.plain
  have st : Stepped s.machine (reloadCr3 m₂) fun _ => False :=
    stepped_of hrefl g.toOnlyLeaves (fun f hf _ => g.data f hf)
      (fun q hq => .inl (by rw [g.pmem] at hq; exact hq)) fun q => by rw [g.pmem]
  refine ⟨h.stepped_old st (fun v hv => hv.elim) fun v hv => ⟨hv, id, ?_⟩, st.addsTables⟩
  by_cases hvis : v ∈ visitedPages addr size
  · obtain ⟨j, hj, rfl⟩ := mem_visited.mp hvis
    unfold frameAt
    rw [show leaf (reloadCr3 m₂) (addr / 4096 + j) = leaf m₂ (addr / 4096 + j) from rfl,
      g.changed j hj, Option.map_map]
    exact congrArg (Option.map · _) (funext fun w => physFrame_setProt s.machine prot w)
  · exact frame_other hr hrefl g.toOnlyLeaves (h.upper v hv) hvis

/-- pages of `kmapanon` are unmapped, and their frames given back -/
theorem SpaceInv.unmapped (h : SpaceInv top s) (hr : KernelRange addr size)
    (hanon : visitedPages addr size ⊆ s.anon) :
    ∃ m frame, FuseeOS.kunmapanon s.machine addr size = some (reloadCr3 m) ∧
      Unmapped s.machine (addr / 4096) (covered (addr / 4096) (pagesIn size)) frame m ∧
      ∀ j < covered (addr / 4096) (pagesIn size), frameAt s.machine (addr / 4096 + j) = some (frame j) := by
  have hback : ∀ j < covered (addr / 4096) (pagesIn size), ∃ f,
      frameAt s.machine (addr / 4096 + j) = some f ∧ Backs s.machine s.procs f :=
    fun j hj => h.backed _ (hanon (mem_visited.mpr ⟨j, hj, rfl⟩))
  choose! frame hframe hb using hback
  have hinj : ∀ i < covered (addr / 4096) (pagesIn size), ∀ j < covered (addr / 4096) (pagesIn size),
      frame i = frame j → i = j := by
    intro i hi j hj hij
    have hij' := h.apart _ (hanon (mem_visited.mpr ⟨i, hi, rfl⟩)) _
      (hanon (mem_visited.mpr ⟨j, hj, rfl⟩)) (by rw [hframe i hi, hframe j hj, hij])
    omega
  obtain ⟨m, e, g⟩ := kunmapanon_spec h.tables h.plain rfl hr.size_lt rfl hr.pages_pos hr.inSpan
    (fun v hv => hr.kernelPage.congr (hv.congr hr.inSpan)) (fun j hj => Option.map_eq_some_iff.mp (hframe j hj))
    (fun j hj => ⟨(hb j hj).owns, (hb j hj).used, (hb j hj).apart⟩) hinj
  exact ⟨m, frame, e, g, hframe⟩

theorem SpaceInv.kunmapanon (h : SpaceInv top s) (hr : KernelRange addr size)
    (hanon : visitedPages addr size ⊆ s.anon) :
    ∃ m, FuseeOS.kunmapanon s.machine addr size = some m ∧
      SpaceInv top ⟨m, s.procs, s.anon \ visitedPages addr size⟩ ∧ AddsTables s.machine m := by
  obtain ⟨m₂, frame, e, g, hframe⟩ := h.unmapped hr hanon
  refine ⟨reloadCr3 m₂, e, ?_⟩
  have hrefl := Grown.refl h.tables h.plain
  have st : Stepped s.machine (reloadCr3 m₂) (· ∈ visitedPages addr size) := by
    refine stepped_of hrefl g.toOnlyLeaves (fun f hf _ => g.data f hf) (fun q hq => ?_) g.owns
    rcases (g.free q).mp hq with hq | ⟨j, hj, rfl⟩
    · exact .inl hq
    · exact .inr ⟨_, mem_visited.mpr ⟨j, hj, rfl⟩, hframe j hj⟩
  refine ⟨h.stepped_old st (fun v hv => hanon hv) fun v hv => ?_, st.addsTables⟩
  obtain ⟨hv, hn⟩ := Finset.mem_sdiff.mp hv
  exact ⟨hv, hn, frame_other hr hrefl g.toOnlyLeaves (h.upper v hv) hn⟩

theorem SpaceInv.unmapLomem (h : SpaceInv top s) :
    SpaceInv top ⟨FuseeOS.unmapLomem s.machine, s.procs, s.anon⟩ ∧
      AddsTables s.machine (FuseeOS.unmapLomem s.machine) := by
  have c := unmapLomem_spec h.tables
  have st : Stepped s.machine (FuseeOS.unmapLomem s.machine) fun _ => False := by
    refine ⟨c.tables, c.plain h.plain, rfl, fun e => e, fun i hi _ => c.top i (by omega),
      fun t ht => .inl (c.fewer t ht), fun f hf _ => c.data f fun e => ?_,
      fun q hq => .inl hq, fun _ => Iff.rfl⟩
    rw [e] at hf
    exact hf ⟨[], by decide, rfl⟩
  refine ⟨h.stepped_old st (fun v hv => hv.elim) fun v hv => ⟨hv, id, ?_⟩, st.addsTables⟩
  obtain ⟨h1, h2⟩ := h.upper v hv
  have hidx : 128 ≤ (pageIndex v 3).val := by
    show 128 ≤ v / 512^3 % 512
    omega
  unfold frameAt leaf
  exact congrArg _ (c.below _ _ _ hidx (le_refl 2))

theorem SpaceInv.createCr3 (h : SpaceInv top s) (hpages : 0 < s.machine.pmem.pagesFree) :
    ∃ x, FuseeOS.createCr3 s.machine = some x ∧ SpaceInv top ⟨x.2, s.procs ++ [x.1], s.anon⟩ ∧
      AddsTables s.machine x.2 := by
  rcases createCr3_spec h.tables with ⟨r, m', e, c⟩ | ⟨-, h0⟩
  swap
  · omega
  refine ⟨(r, m'), e, ?_⟩
  have hfree : ∀ q, m'.pmem.Free q → s.machine.pmem.Free q := fun q hq => ((c.taken.free q).mp hq).1
  have htab : ∀ t, m'.IsTable t ↔ s.machine.IsTable t := isTable_congr c.node
  have st : Stepped s.machine m' fun _ => False := by
    refine ⟨c.tables h.tables c.taken.inv (fun q hq => (c.taken.owns q).mp hq) hfree, c.plain h.plain,
      c.regs.cr3, fun e => ?_, fun i _ _ => ?_, fun t ht => .inl ((htab t).mp ht),
      fun f hf hq => c.other f fun e => ?_, fun q hq => .inl (hfree q hq), c.taken.owns⟩
    · rw [c.regs.cpuCr3, c.regs.cr3, e]
    · rw [c.regs.cr3, c.mem _ ⟨[], by decide, rfl⟩]
    · exact hq (e ▸ c.free)
  have h' : SpaceInv top ⟨m', s.procs, s.anon⟩ := by
    refine h.stepped_old st (fun v hv => hv.elim) fun v hv => ⟨hv, id, ?_⟩
    unfold frameAt leaf
    rw [c.entry _ _ length_stem_le]
  -- the new top table
  have hr : ProcRoot m' top r := by
    refine ⟨fun hq => ((c.taken.free r).mp hq).2 rfl,
      fun ht => h.tables.used r ((htab r).mp ht) c.free, fun i hi => ?_⟩
    have hdir : direct s.machine.cpuCr3 = s.machine.cr3 := by
      rw [h.cpu]
      exact Nat.mod_eq_of_lt h.tables.root
    rw [c.half i hi, hdir]
    exact h.half i hi
  refine ⟨{ h' with procs := fun q hq => ?_, backed := fun v hv => ?_ }, st.addsTables⟩
  · rcases List.mem_append.mp hq with hq | hq
    · exact h'.procs q hq
    · rw [List.mem_singleton.mp hq]
      exact hr
  · obtain ⟨f, e', hb⟩ := h'.backed v hv
    obtain ⟨f₀, e₀, hb₀⟩ := h.backed v hv
    refine ⟨f, e', ⟨hb.owns, hb.used, hb.apart, fun hq => ?_⟩⟩
    rcases List.mem_append.mp hq with hq | hq
    · exact hb.proc hq
    · -- the frame was in use when the table was taken
      have hfr : frameAt m' v = frameAt s.machine v := by
        unfold frameAt leaf
        rw [c.entry _ _ length_stem_le]
      have hff := Option.some.inj ((e'.symm.trans hfr).trans e₀)
      rw [List.mem_singleton.mp hq] at hff
      exact hb₀.used (hff ▸ c.free)

/-- **Every legal operation has a result and keeps the invariant.** -/
theorem SpaceInv.step (h : SpaceInv top s) {op : SpaceOp} (hl : SpaceLegal s op) :
    ∃ s', spaceStep s op = some s' ∧ SpaceInv top s' ∧ AddsTables s.machine s'.machine := by
  cases op with
  | kmapanon addr size prot =>
    obtain ⟨m, e, hi⟩ := h.kmapanon prot hl.1 hl.2.1 hl.2.2
    exact ⟨_, by simp only [spaceStep, e, Option.map_some], hi⟩
  | kmap addr phys size prot =>
    obtain ⟨x, e, hi⟩ := h.kmap prot hl.1 hl.2.1 hl.2.2.1 hl.2.2.2
    exact ⟨_, by simp only [spaceStep, e, Option.map_some], hi⟩
  | kmprotect addr size prot =>
    obtain ⟨m, e, hi⟩ := h.kmprotect prot hl.1 hl.2
    exact ⟨_, by simp only [spaceStep, e, Option.map_some], hi⟩
  | kunmapanon addr size =>
    obtain ⟨m, e, hi⟩ := h.kunmapanon hl.1 hl.2
    exact ⟨_, by simp only [spaceStep, e, Option.map_some], hi⟩
  | unmapLomem => exact ⟨_, rfl, h.unmapLomem⟩
  | procCreate =>
    obtain ⟨x, e, hi⟩ := h.createCr3 hl
    exact ⟨_, by simp only [spaceStep, e, Option.map_some], hi⟩

end

/-! ## the kernel's half -/

/-- Every upper entry of the kernel's top table is present and is still `top i`, and every process
translates the upper half as the kernel does. -/
structure HalfShared (top : Fin 512 → BitVec 64) (s : Spaces) : Prop where
  present : ∀ i : Fin 512, 256 ≤ i.val → present (s.machine.mem s.machine.cr3 i) = true
  constant : ∀ i : Fin 512, 256 ≤ i.val → s.machine.mem s.machine.cr3 i = top i
  same : ∀ r ∈ s.procs, ∀ va, upperHalf va →
    translate s.machine.mem r va = translate s.machine.mem s.machine.cr3 va

section
variable {top : Fin 512 → BitVec 64} {s s' : Spaces} {img : KernelImage} {m m₁ m₂ m' : Machine}

theorem SpaceInv.shared (h : SpaceInv top s) : HalfShared top s where
  present i hi := by
    rw [h.half i hi]
    exact h.present i hi
  constant := h.half
  same r hr va hva := by
    apply translate_congr
    rw [(h.procs r hr).half _ hva.index, h.half _ hva.index]

/-- what `init_kernel_mem_prot` leaves -/
theorem MemProt.spaceInv (h : MemProt img m m₁ m₂ m') :
    SpaceInv (fun i => m'.mem m'.cr3 i) ⟨m', [], ∅⟩ where
  tables := h.sections.tables
  plain v hv k hk w e := h.opened.plain v hv k hk w (by
    rwa [h.sections.upper _ _ (by rw [length_stem (by omega)]; omega)] at e)
  cpu := (h.sections.cpu (List.cons_ne_nil _ _)).trans h.sections.cr3.symm
  present i hi := by
    obtain ⟨w, hw⟩ := Option.isSome_iff_exists.mp (h.tops i hi)
    have e : m'.entry [] i = some w := by
      rw [h.sections.upper [] i (by decide), h.opened.top, hw]
    obtain ⟨t, ht, hmem, hp⟩ := entry_eq_some.mp e
    rw [← Option.some.inj ht] at hmem
    show FuseeOS.present (m'.mem m'.cr3 i) = true
    rw [hmem]
    exact hp
  half _ _ := rfl
  procs _ hr := absurd hr List.not_mem_nil
  upper v hv := absurd hv (Finset.notMem_empty v)
  backed v hv := absurd hv (Finset.notMem_empty v)
  apart v hv := absurd hv (Finset.notMem_empty v)

/-- the tables of the upper half are pages of the allocator -/
theorem MemProt.addsTables (h : MemProt img m m₁ m₂ m') : AddsTables m m' where
  owns q := by
    rw [h.sections.pmem, h.opened.pmem]
    exact h.grown.owns q
  fresh t ht := by
    have ht₁ := (isTable_congr h.opened.node t).mp ((isTable_congr h.sections.node t).mp ht)
    exact (h.grown.fresh t ht₁).imp_right fun hq => hq.inBlocks

/-- the allocator's pages and the tables lie below `n` -/
def TablesBelow (n : Nat) (m : Machine) : Prop := ∀ p, m.pmem.Owns p ∨ m.IsTable p → p < n

theorem AddsTables.below (g : AddsTables m m') {n : Nat} (h : TablesBelow n m) : TablesBelow n m' := by
  rintro p (ho | ht)
  · exact h p (.inl ((g.owns p).mp ho))
  · exact h p ((g.fresh p ht).symm)

/-- processes stay -/
theorem procs_step {op : SpaceOp} (h : spaceStep s op = some s') : s.procs <+: s'.procs := by
  cases op <;> simp only [spaceStep, Option.some.injEq, Option.map_eq_some_iff] at h
  case unmapLomem =>
    rw [← h]
  case procCreate =>
    obtain ⟨x, -, rfl⟩ := h
    exact List.prefix_append _ _
  all_goals
    obtain ⟨x, -, rfl⟩ := h
    exact List.prefix_refl _

end

/-- **The kernel's half is shared by all address spaces**, in every state of every run. -/
theorem kernel_half_shared (img : KernelImage) (m m' : Machine) (hb : Booted img m)
    (hinit : initKernelMemProt img m = some m') (ops : List SpaceOp)
    (hops : Along spaceStep SpaceLegal ⟨m', [], ∅⟩ ops) :
    Always spaceStep (HalfShared fun i => m'.mem m'.cr3 i) (fun s _ s' => s.procs <+: s'.procs)
      ⟨m', [], ∅⟩ ops := by
  rcases initKernelMemProt_spec hb.tables hb.plain hb.laid hb.mapped with
    ⟨-, m₁, m₂, m'', e, hp⟩ | ⟨-, e⟩
  swap
  · rw [e] at hinit
    exact nomatch hinit
  rw [hinit] at e
  obtain rfl := Option.some.inj e
  have h := always_of_step (R := fun s _ s' => s.procs <+: s'.procs) (fun s op hs hl => by
    obtain ⟨s', e, hs', -⟩ := SpaceInv.step hs hl
    exact ⟨s', e, procs_step e, hs'⟩) ops _ hp.spaceInv hops
  exact h.mono (fun s hs => hs.shared) fun _ _ _ _ hr _ => hr

/-- **Tables stay below the end of memory.**  With `n = 2^39` that is the end of what the direct map shows: the
operations reach every table through `physical_to_virtual`. -/
theorem tables_below {n : Nat} (img : KernelImage) (m m' : Machine) (hb : Booted img m)
    (hinit : initKernelMemProt img m = some m') (hn : TablesBelow n m) (ops : List SpaceOp)
    (hops : Along spaceStep SpaceLegal ⟨m', [], ∅⟩ ops) :
    Always spaceStep (fun s => TablesBelow n s.machine) (fun _ _ _ => True) ⟨m', [], ∅⟩ ops := by
  obtain ⟨m₁, m₂, hp⟩ : ∃ m₁ m₂, MemProt img m m₁ m₂ m' := by
    rcases initKernelMemProt_spec hb.tables hb.plain hb.laid hb.mapped with ⟨-, m₁, m₂, m'', e, hp⟩ | ⟨-, e⟩
    · obtain rfl := Option.some.inj (e.symm.trans hinit)
      exact ⟨m₁, m₂, hp⟩
    · rw [e] at hinit
      cases hinit
  have h := always_of_step (I := fun s => SpaceInv (fun i => m'.mem m'.cr3 i) s ∧ TablesBelow n s.machine)
    (R := fun _ _ _ => True) (fun s op hs hl => by
      obtain ⟨s', e, hs', g⟩ := hs.1.step hl
      exact ⟨s', e, trivial, hs', g.below hs.2⟩) ops _ ⟨hp.spaceInv, hp.addsTables.below hn⟩ hops
  exact h.mono (fun s hs => hs.2) fun _ _ _ _ _ _ => trivial

section
variable {img : KernelImage} {m m₁ m₂ m' : Machine}

theorem missing_le (m : Machine) (s n : Nat) : missing m s n ≤ 2 + tableCount n := by
  unfold missing missingTables
  have h : ((List.range' 0 (tableCount n)).countP fun y =>
      (m.nodeAt (stem (tablePage s y) 3)).isNone) ≤ tableCount n :=
    List.countP_le_length.trans (List.length_range').le
  split <;> split <;> omega

/-- pages that are not below the last top entry are left alone -/
theorem MemProt.leaf_other (h : MemProt img m m₁ m₂ m') (hb : Booted img m) {v : Nat}
    (hv : pageIndex v 3 ≠ LAST) : leaf m' v = leaf m v := by
  have hlast : ∀ x ∈ img.calls, ∀ j < x.1.visited, ¬ SamePage v (x.1.first + j) := by
    intro x hx j hj hsame
    have hs := hb.laid.placed (mem_calls hx)
    have h1 := hs.first_ge
    have h2 := hs.last
    have h3 := x.1.visited_le
    apply hv
    apply Fin.ext
    show v / 512^3 % 512 = 511
    unfold SamePage at hsame
    omega
  have hopen : leaf m₂ v = _ := h.opened.entry (stem v 3) (pageIndex v 0) length_stem_le
  have hhead : (stem v 3).head? ≠ some LAST := fun e => hv (Option.some.inj e)
  rw [h.sections.rest v hlast, hopen, if_neg hhead, ← h.grown.leaf v]
  rfl

end

/-- a page of the upper half is mapped, and a process is created -/
theorem bootRun_legal (hb : Booted (pagesImage 1 1 1 1) m) (hpages : m.pmem.pagesFree = 512)
    (hnone : leaf m (0xffff900000000000 / 4096) = none) :
    ∃ m', initKernelMemProt (pagesImage 1 1 1 1) m = some m' ∧
      Along spaceStep SpaceLegal ⟨m', [], ∅⟩ [.kmapanon 0xffff900000000000 4096 3, .procCreate] := by
  have habs := absentTops_le m 256
  have hret : (pagesImage 1 1 1 1).Returns m := ⟨by omega, by decide⟩
  rcases initKernelMemProt_spec hb.tables hb.plain hb.laid hb.mapped with
    ⟨-, m₁, m₂, m', e, hp⟩ | ⟨hno, -⟩
  swap
  · exact absurd hret hno
  have hr : KernelRange 0xffff900000000000 4096 := ⟨by decide, by decide, by decide, by decide, by decide⟩
  have hun : RangeUnmapped m' 0xffff900000000000 4096 := by
    intro v h1 h2
    have hv : v = 0xffff900000000000 / 4096 := by omega
    subst hv
    rw [hp.leaf_other hb (by decide), hnone]
  have hfree : 256 ≤ m'.pmem.pagesFree := by
    have h2 := hp.count
    rw [hp.sections.pmem, hp.opened.pmem]
    omega
  have hmiss := missing_le m' (0xffff900000000000 / 4096) (pagesIn 4096)
  have htables : tableCount (pagesIn 4096) = 1 := by decide
  have hcov : covered (0xffff900000000000 / 4096) (pagesIn 4096) = 1 := by decide
  refine ⟨m', e, ⟨hr, hun, ?_⟩, fun s' hs' => ⟨?_, fun _ _ => trivial⟩⟩
  · show missing m' _ _ + _ ≤ m'.pmem.pagesFree
    omega
  · -- four pages at most were taken
    have hi := hp.spaceInv
    rcases kmapanon_spec hi.tables hi.plain rfl hr.size_lt rfl hr.pages_pos hr.inSpan
      (fun v hv => hr.kernelPage.congr (hv.congr hr.inSpan)) 3 with ⟨n₁, n₂, e', -, hc, hm⟩ | ⟨e', -⟩
    · have hc' : n₁.pmem.pagesFree + missing m' _ (pagesIn 4096) = m'.pmem.pagesFree := hc
      have hm' : n₂.pmem.pagesFree + covered _ (pagesIn 4096) = n₁.pmem.pagesFree := hm.count
      simp only [spaceStep, e', Option.map_some, Option.some.injEq] at hs'
      subst hs'
      show 0 < n₂.pmem.pagesFree
      omega
    · simp only [spaceStep, e', Option.map_none] at hs'
      exact nomatch hs'

theorem kernel_half_shared_boot : ∃ m', initKernelMemProt (pagesImage 1 1 1 1) bootMachine = some m' ∧
    Always spaceStep (HalfShared fun i => m'.mem m'.cr3 i) (fun s _ s' => s.procs <+: s'.procs)
      ⟨m', [], ∅⟩ [.kmapanon 0xffff900000000000 4096 3, .procCreate] := by
  obtain ⟨m', e, hl⟩ := bootRun_legal (booted_pagesImage (by decide)) rfl rfl
  exact ⟨m', e, kernel_half_shared _ _ _ (booted_pagesImage (by decide)) e _ hl⟩

end FuseeOS
