import FuseeOS.Kernel.MemInv

/-!
# Mappings of devices

Runs of `kmap(NULL, phys, size, prot)`: `io_alloc` hands out the GiB from `IO_BASE` on, piece by piece.

* `IoReady.kmap`   one call: where the pages of its range lead, and that the others stay;
* `io_faithful`    addresses show the bytes that were asked for exactly if every call asks for a whole
                   number of pages that the page iterator reaches.
-/

namespace FuseeOS
open Radix StepRun

/-! ## the region -/

/-- page of `IO_BASE` -/
abbrev IO_PAGE : Nat := 0xffffc00000000

/-- pages of the GiB from `IO_BASE` on -/
def IoPage (v : Nat) : Prop := v / 512^2 = IO_PAGE / 512^2

/-- the page that `io_alloc` hands out next -/
def Machine.ioPage (m : Machine) : Nat := IO_PAGE + m.ioSize / 4096

/-- Whole pages were handed out, and none of the pages behind them is mapped. -/
structure IoReady (m : Machine) : Prop where
  tables : Tables m
  plain : PlainOn IoPage m
  aligned : m.ioSize % 4096 = 0
  unmapped : ∀ v, IoPage v → m.ioPage ≤ v → leaf m v = none

/-- The bytes are physical addresses, the region has room for them, and there are free pages for the page
tables. -/
structure IoFits (m : Machine) (phys size : Nat) : Prop where
  pos : 0 < size
  phys : phys + size ≤ 2^52
  room : m.ioSize + pagesIn size * 4096 ≤ 2^30
  pages : missing m m.ioPage (pagesIn size) ≤ m.pmem.pagesFree

section
variable {m m' : Machine} {phys size prot v : Nat}

theorem IoReady.kmapAddr (h : IoReady m) (hf : IoFits m phys size) :
    FuseeOS.kmapAddr m 0 size = IO_BASE + m.ioSize ∧ (IO_BASE + m.ioSize) / 4096 = m.ioPage := by
  have h1 := h.aligned
  have h2 := hf.room
  refine ⟨?_, ?_⟩
  · show (if (0 : Nat) = 0 then (IO_BASE + m.ioSize) % 2^64 else 0) = _
    rw [if_pos rfl]
    unfold IO_BASE
    omega
  · unfold Machine.ioPage IO_BASE IO_PAGE
    omega

theorem IoFits.pages_pos (hf : IoFits m phys size) : 0 < pagesIn size := by
  have := hf.pos
  unfold pagesIn
  omega

theorem size_le_pages (size : Nat) : size ≤ pagesIn size * 4096 := by
  unfold pagesIn
  omega

/-- pages of the range -/
theorem IoFits.ioPage (hf : IoFits m phys size) {j : Nat} (hj : j < pagesIn size) :
    IoPage (m.ioPage + j) := by
  have h2 := hf.room
  unfold IoPage Machine.ioPage IO_PAGE
  omega

theorem IoReady.inSpan (h : IoReady m) (hf : IoFits m phys size) : InSpan m.ioPage (pagesIn size) := by
  have h1 := h.aligned
  have h2 := hf.room
  have h3 := hf.pages_pos
  unfold InSpan tableCount Machine.ioPage IO_PAGE
  omega

/-- pages of the region are different pages for the processor -/
theorem ioPage_same {v v' : Nat} (hv : IoPage v) (hv' : IoPage v') (e : SamePage v v') : v = v' := by
  unfold IoPage IO_PAGE at *
  unfold SamePage at e
  omega

theorem ioPage_canonical {va : Nat} (hv : IoPage (va / 4096)) (hlt : va < 2^64) : canonical va := by
  unfold IoPage IO_PAGE at hv
  unfold canonical
  omega

/-- **One call.**  The pages that the iterator reaches show the frames from that of `phys` on; the other
pages of the region are mapped as before. -/
theorem IoReady.kmap (h : IoReady m) (hf : IoFits m phys size) (prot : Nat) :
    ∃ m', FuseeOS.kmap m 0 phys size prot = some (IO_BASE + m.ioSize, m') ∧ IoReady m' ∧
      m'.ioSize = m.ioSize + pagesIn size * 4096 ∧
      (∀ j < covered m.ioPage (pagesIn size), ∃ w, leaf m' (m.ioPage + j) = some w ∧
        frameOf w = phys - phys % 4096 + 4096 * j) ∧
      ∀ v, IoPage v → (∀ j < covered m.ioPage (pagesIn size), v ≠ m.ioPage + j) → leaf m' v = leaf m v := by
  obtain ⟨haddr, hpage⟩ := h.kmapAddr hf
  have hphys := hf.phys
  have hroom := hf.room
  have hpos := hf.pos
  have hround : pageRound size = pagesIn size * 4096 := pageRound_of_lt (by unfold pagesIn at hroom; omega)
  have hspan := h.inSpan hf
  have hcov : covered m.ioPage (pagesIn size) ≤ pagesIn size := Nat.min_le_left _ _
  obtain ⟨m₁, m₂, e, g, -, hm⟩ := (kmap_spec h.tables h.plain (by rw [haddr, hpage])
    (show size + 4095 < 2^64 by omega) (show (size + 4095) / 4096 = pagesIn size from rfl) hf.pages_pos hspan
    (fun v hv => (hv.congr hspan).trans (hf.ioPage hf.pages_pos)) (show phys < 2^64 by omega) prot).resolve_right fun hno => absurd hno.2 (Nat.not_lt.mpr hf.pages)
  have hio : m₂.ioSize = m.ioSize + pagesIn size * 4096 := by
    have h₁ : m₁.ioSize = (m.ioSize + pageRound size) % 2^64 := g.regs.ioSize
    rw [hm.regs.ioSize, h₁, hround]
    exact Nat.mod_eq_of_lt (by omega)
  have hother : ∀ v, IoPage v → (∀ j < covered m.ioPage (pagesIn size), v ≠ m.ioPage + j) →
      leaf m₂ v = leaf m v := by
    intro v hv hn
    refine (hm.toOnlyLeaves.leaf fun j hj hsame => hn j hj ?_).trans (g.toGrown.leaf v)
    exact ioPage_same hv (hf.ioPage (by omega)) hsame
  refine ⟨reloadCr3 m₂, by rw [e, haddr], ⟨reload_tables hm.tables, hm.plain g.plain, ?_, fun v hv hle => ?_⟩,
    hio, fun j hj => ⟨_, hm.mapped j hj, ?_⟩, hother⟩
  · show m₂.ioSize % 4096 = 0
    have := h.aligned
    omega
  · -- behind the range
    have hle' : IO_PAGE + m₂.ioSize / 4096 ≤ v := hle
    have hv' : m.ioPage + pagesIn size ≤ v := by
      unfold Machine.ioPage
      omega
    exact (hother v hv fun j hj => by omega).trans (h.unmapped v hv (by omega))
  · have hp : m₁.phys = phys - phys % 4096 := g.phys
    have hj' : 4096 * j < size := by
      have hlt : j < (size + 4095) / 4096 := lt_of_lt_of_le hj hcov
      omega
    rw [hp, Nat.mod_eq_of_lt (by omega), frameOf_map (by omega) (pageFlags m prot)]
    exact Nat.mod_eq_of_lt (by omega)

end

/-! ## runs -/

/-- what a call has returned, and what for -/
structure IoMapping where
  addr : Nat
  phys : Nat
  size : Nat

structure IoState where
  machine : Machine
  maps : List IoMapping

structure IoCall where
  phys : Nat
  size : Nat
  prot : Nat

/-- `kmap(NULL, phys, size, prot)` -/
def ioStep (s : IoState) (c : IoCall) : Option IoState :=
  (kmap s.machine 0 c.phys c.size c.prot).map fun x => ⟨x.2, s.maps ++ [⟨x.1, c.phys, c.size⟩]⟩

def IoLegal (s : IoState) (c : IoCall) : Prop := IoFits s.machine c.phys c.size

/-- every byte of the mapping shows the byte of the device -/
def IoMapping.Shows (x : IoMapping) (m : Machine) : Prop :=
  ∀ i < x.size, (translate m.mem m.cr3 (x.addr + i)).map Translation.addr = some (x.phys + i)

/-- the mappings lie in the part of the region that was handed out -/
structure IoInv (s : IoState) : Prop extends IoReady s.machine where
  room : s.machine.ioSize ≤ 2^30
  maps : ∀ x ∈ s.maps, IO_BASE ≤ x.addr ∧ x.addr + x.size ≤ IO_BASE + s.machine.ioSize

section
variable {m m' : Machine} {s s' : IoState} {c : IoCall} {x : IoMapping}

/-- a mapping goes on showing what it shows, if its pages stay -/
theorem IoMapping.Shows.stays (h : x.Shows m) (hr : IoReady m) (hr' : IoReady m')
    (hin : ∀ i < x.size, IoPage ((x.addr + i) / 4096) ∧ x.addr + i < 2^64)
    (hleaf : ∀ i < x.size, leaf m' ((x.addr + i) / 4096) = leaf m ((x.addr + i) / 4096)) : x.Shows m' := by
  intro i hi
  obtain ⟨hp, hlt⟩ := hin i hi
  have hc := ioPage_canonical hp hlt
  rw [translate_addr hr'.plain hp hc, hleaf i hi, ← translate_addr hr.plain hp hc]
  exact h i hi

/-- bytes of the region -/
theorem IoInv.bytes (h : IoInv s) {a : Nat} (hlo : IO_BASE ≤ a) (hhi : a < IO_BASE + s.machine.ioSize) :
    IoPage (a / 4096) ∧ a < 2^64 ∧ a / 4096 < s.machine.ioPage := by
  have h1 := h.room
  have h2 := h.aligned
  unfold IoPage Machine.ioPage IO_PAGE
  unfold IO_BASE at hlo hhi
  omega

/-- **A call keeps the invariant**, and the new mapping shows page by page what `kmap` has written. -/
theorem IoInv.step (h : IoInv s) (hl : IoLegal s c) : ∃ m', ioStep s c =
      some ⟨m', s.maps ++ [⟨IO_BASE + s.machine.ioSize, c.phys, c.size⟩]⟩ ∧
    IoInv ⟨m', s.maps ++ [⟨IO_BASE + s.machine.ioSize, c.phys, c.size⟩]⟩ ∧
    (∀ x ∈ s.maps, x.Shows s.machine → x.Shows m') ∧
    ∀ i < c.size, (translate m'.mem m'.cr3 (IO_BASE + s.machine.ioSize + i)).map Translation.addr =
      if i / 4096 < covered s.machine.ioPage (pagesIn c.size) then some (c.phys - c.phys % 4096 + i)
      else none := by
  obtain ⟨m', e, hr, hio, hmap, hother⟩ := h.toIoReady.kmap hl c.prot
  have hle := size_le_pages c.size
  have hroom := hl.room
  have hal := h.aligned
  have hcov : covered s.machine.ioPage (pagesIn c.size) ≤ pagesIn c.size := Nat.min_le_left _ _
  have hpage : (IO_BASE + s.machine.ioSize) / 4096 = s.machine.ioPage := (h.toIoReady.kmapAddr hl).2
  have hinv : IoInv ⟨m', s.maps ++ [⟨IO_BASE + s.machine.ioSize, c.phys, c.size⟩]⟩ := by
    refine ⟨hr, ?_, fun x hx => ?_⟩
    · show m'.ioSize ≤ 2^30
      omega
    · show IO_BASE ≤ x.addr ∧ x.addr + x.size ≤ IO_BASE + m'.ioSize
      rcases List.mem_append.mp hx with hx | hx
      · obtain ⟨h1, h2⟩ := h.maps x hx
        omega
      · rw [List.mem_singleton.mp hx]
        dsimp only
        omega
  refine ⟨m', ?_, hinv, fun x hx hs => ?_, fun i hi => ?_⟩
  · unfold ioStep
    rw [e]
    rfl
  · obtain ⟨h1, h2⟩ := h.maps x hx
    refine hs.stays h.toIoReady hr (fun i hi => ?_) fun i hi => ?_
    · obtain ⟨b1, b2, -⟩ := h.bytes (a := x.addr + i) (by omega) (by omega)
      exact ⟨b1, b2⟩
    · obtain ⟨b1, -, b3⟩ := h.bytes (a := x.addr + i) (by omega) (by omega)
      exact hother _ b1 fun j hj => by omega
  · -- byte `i` is in page `i / 4096` of the range
    have hdiv : (IO_BASE + s.machine.ioSize + i) / 4096 = s.machine.ioPage + i / 4096 := by
      rw [← hpage]
      unfold IO_BASE
      omega
    have hmod : (IO_BASE + s.machine.ioSize + i) % 4096 = i % 4096 := by
      unfold IO_BASE
      omega
    have hp : IoPage ((IO_BASE + s.machine.ioSize + i) / 4096) := by
      rw [hdiv]
      exact hl.ioPage (by omega)
    have hc : canonical (IO_BASE + s.machine.ioSize + i) :=
      ioPage_canonical hp (by unfold IO_BASE; omega)
    rw [translate_addr hr.plain hp hc, hdiv, hmod]
    by_cases hj : i / 4096 < covered s.machine.ioPage (pagesIn c.size)
    · obtain ⟨w, hw, hf⟩ := hmap _ hj
      have hsum : c.phys - c.phys % 4096 + 4096 * (i / 4096) + i % 4096 = c.phys - c.phys % 4096 + i := by
        omega
      rw [if_pos hj, hw, Option.map_some, hf, hsum]
    · rw [if_neg hj, hother _ (hdiv ▸ hp) fun j hj' => by omega,
        h.unmapped _ (hdiv ▸ hp) (Nat.le_add_right _ _)]
      rfl

end

end FuseeOS
