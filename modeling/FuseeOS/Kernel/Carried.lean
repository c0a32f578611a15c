import FuseeOS.Kernel.InitMem
import FuseeOS.Kernel.IoMap
import FuseeOS.Kernel.MemRun

/-!
# What the steps of the start-up carry over

`init_mem` maps the heap, copies the initram and maps the frame buffer, each step on the tables that the one
before it has left.

* `Carried`             mapped pages of the kernel keep their entries on all four levels, and what is neither a
                        table nor free keeps its words;
* `Grown.carried`, `OnlyLeaves.carried`, `Carried.lomem`   the steps of `mmap.c` and `mem.c`;
* `Held`                a page whose frame is in use and no table: the kernel reads there what it has read
                        (`Carried.loadByte`, `MemProt.loadByte`);
* `HeapBacked.carried`  the heap stays in place, with its words.
-/

namespace FuseeOS
open Radix

/-- Pages of the kernel that are mapped keep their entries, tables are made of pages that were free, and what
is neither a table nor free keeps its words. -/
structure Carried (m m' : Machine) : Prop where
  tables : Tables m'
  plain : PlainOn KernelPage m'
  cr3 : m'.cr3 = m.cr3
  cpu : m.cpuCr3 = m.cr3 → m'.cpuCr3 = m.cr3
  entry : ∀ v, KernelPage v → ∀ k ≤ 3, ∀ w, entryOf m v k = some w → entryOf m' v k = some w
  fresh : ∀ t, m'.IsTable t → m.IsTable t ∨ m.pmem.Free t
  free : ∀ q, m'.pmem.Free q → m.pmem.Free q
  owns : ∀ q, m'.pmem.Owns q ↔ m.pmem.Owns q
  data : ∀ f, ¬ m.IsTable f → ¬ m.pmem.Free f → m'.mem f = m.mem f

section
variable {m m₁ m₂ m' : Machine} {v va n s : Nat} {w : BitVec 64}

theorem Carried.refl (h : Tables m) (hpl : PlainOn KernelPage m) : Carried m m where
  tables := h
  plain := hpl
  cr3 := rfl
  cpu hcpu := hcpu
  entry _ _ _ _ _ e := e
  fresh _ ht := .inl ht
  free _ hq := hq
  owns _ := Iff.rfl
  data _ _ _ := rfl

/-- new tables are pages of the allocator -/
theorem Carried.addsTables (c : Carried m m') : AddsTables m m' :=
  ⟨c.owns, fun t ht => (c.fresh t ht).imp_right fun hq => hq.inBlocks⟩

theorem Carried.trans (c : Carried m m₁) (c' : Carried m₁ m') : Carried m m' where
  tables := c'.tables
  plain := c'.plain
  cr3 := c'.cr3.trans c.cr3
  cpu hcpu := (c'.cpu ((c.cpu hcpu).trans c.cr3.symm)).trans c.cr3
  entry v hv k hk w e := c'.entry v hv k hk w (c.entry v hv k hk w e)
  fresh t ht := (c'.fresh t ht).elim (c.fresh t) fun hf => .inr (c.free t hf)
  free q hq := c.free q (c'.free q hq)
  owns q := (c'.owns q).trans (c.owns q)
  data f hf hu := by
    have ht : ¬ m₁.IsTable f := fun ht => (c.fresh f ht).elim hf hu
    rw [c'.data f ht fun hq => hu (c.free f hq), c.data f hf hu]

/-! ## the steps -/

theorem Grown.carried (g : Grown KernelPage m m') : Carried m m' where
  tables := g.tables
  plain := g.plain
  cr3 := g.regs.cr3
  cpu hcpu := g.regs.cpuCr3.trans hcpu
  entry _ _ _ _ w e := g.kept _ _ w length_stem_le e
  fresh := g.fresh
  free := g.free
  owns := g.owns
  data := g.data

/-- pages that had no entry were mapped -/
theorem OnlyLeaves.carried (g : OnlyLeaves m s n m') (hpl : PlainOn KernelPage m)
    (hnone : ∀ j < n, FuseeOS.leaf m (s + j) = none) (hfree : ∀ q, m'.pmem.Free q → m.pmem.Free q)
    (howns : ∀ q, m'.pmem.Owns q ↔ m.pmem.Owns q)
    (hdata : ∀ f, ¬ m.IsTable f → ¬ m.pmem.Free f → m'.mem f = m.mem f) : Carried m m' where
  tables := g.tables
  plain := g.plain hpl
  cr3 := g.regs.cr3
  cpu hcpu := g.regs.cpuCr3.trans hcpu
  entry v _ k hk w e := by
    cases k with
    | zero =>
      have e' : FuseeOS.leaf m v = some w := e
      have hout : ∀ j < n, ¬ SamePage v (s + j) := by
        intro j hj hsame
        rw [hsame.leaf, hnone j hj] at e'
        cases e'
      exact (g.leaf hout).trans e'
    | succ k =>
      have hlen : (stem v (3 - (k + 1))).length < 3 := by
        rw [length_stem (by omega)]
        omega
      exact (g.upper hlen _).trans e
  fresh t ht := .inl ((isTable_congr g.node t).mp ht)
  free := hfree
  owns := howns
  data := hdata

/-- the processor runs on the kernel's tables -/
theorem Carried.reload (c : Carried m m') : Carried m (reloadCr3 m') where
  tables := reload_tables c.tables
  plain := c.plain
  cr3 := c.cr3
  cpu _ := c.cr3
  entry := c.entry
  fresh := c.fresh
  free := c.free
  owns := c.owns
  data := c.data

/-- words of a page are written that was free at the start -/
theorem Carried.write {f : Nat} (c : Carried m m₁) (d : DataSet m₁ f m') (hf : m.pmem.Free f)
    (ht : ¬ m₁.IsTable f) : Carried m m' := by
  have same := d.same ht
  exact {
    tables := d.tables ht c.tables
    plain := same.plain c.plain
    cr3 := d.regs.cr3.trans c.cr3
    cpu := fun hcpu => d.regs.cpuCr3.trans (c.cpu hcpu)
    entry := fun v hv k hk w e => (same.entry _ _ length_stem_le).trans (c.entry v hv k hk w e)
    fresh := fun t hn => c.fresh t ((d.isTable ht t).mp hn)
    free := fun q hq => c.free q (by rwa [d.pmem] at hq)
    owns := fun q => by rw [d.pmem]; exact c.owns q
    data := fun g hg hu => by
      have hne : g ≠ f := fun e => hu (e ▸ hf)
      rw [d.other g hne, c.data g hg hu] }

/-- `unmap_lomem` -/
theorem Carried.lomem (c : Carried m m₁) : Carried m (unmapLomem m₁) := by
  have cut := unmapLomem_spec c.tables
  exact {
    tables := cut.tables
    plain := cut.plain c.plain
    cr3 := cut.regs.cr3.trans c.cr3
    cpu := fun hcpu => cut.regs.cpuCr3.trans (c.cpu hcpu)
    entry := fun v hv k hk w e => by
      have hidx : 256 < (pageIndex v 3).val := hv
      rw [entryOf_lomem c.tables v hk, if_neg (by omega)]
      exact c.entry v hv k hk w e
    fresh := fun t ht => c.fresh t (cut.fewer t ht)
    free := c.free
    owns := c.owns
    data := fun f hf hu => by
      have hne : f ≠ m₁.cr3 := fun e => hf ⟨[], Nat.zero_le _, by rw [e, c.cr3]; rfl⟩
      rw [unmapLomem_data hne, c.data f hf hu] }

/-! ## what the kernel reads -/

/-- the page is mapped to a frame that is in use and no table -/
def Held (m : Machine) (v : Nat) : Prop :=
  ∃ w, leaf m v = some w ∧ ¬ m.IsTable (frameOf w) ∧ ¬ m.pmem.Free (frameOf w)

/-- **Mapped pages go on being translated as they were.** -/
theorem Carried.translate (c : Carried m m') (hpl : PlainOn KernelPage m) (hv : KernelPage (va / 4096))
    (hc : canonical va) (hw : leaf m (va / 4096) = some w) :
    FuseeOS.translate m'.mem m'.cr3 va = FuseeOS.translate m.mem m.cr3 va := by
  obtain ⟨w₁, h₁⟩ := entryOf_isSome hw (show 1 ≤ 3 by decide)
  obtain ⟨w₂, h₂⟩ := entryOf_isSome hw (show 2 ≤ 3 by decide)
  obtain ⟨w₃, h₃⟩ := entryOf_isSome hw (show 3 ≤ 3 by decide)
  rw [translate_leaf hpl hv hc h₃ h₂ h₁ hw]
  exact translate_leaf c.plain hv hc (c.entry _ hv 3 (le_refl 3) _ h₃) (c.entry _ hv 2 (by decide) _ h₂)
    (c.entry _ hv 1 (by decide) _ h₁) (c.entry _ hv 0 (by decide) _ hw)

/-- a page that is held is read through its frame -/
theorem loadByte_leaf (hpl : PlainOn KernelPage m) (hcpu : m.cpuCr3 = m.cr3) (hv : KernelPage (va / 4096))
    (hc : canonical va) (hw : leaf m (va / 4096) = some w) :
    loadByte m va = some ((m.mem (frameOf w) ⟨va % 4096 / 8, by omega⟩).extractLsb' (8 * (va % 8)) 8) := by
  obtain ⟨t, ht, haddr, hframe, hword⟩ := translate_page hpl hv hc hw
  have hidx : t.word = ⟨va % 4096 / 8, by omega⟩ := Fin.ext hword
  have hmod := frameOf_mod w
  have hbyte : t.addr % 8 = va % 8 := by omega
  unfold loadByte
  rw [hcpu, ht, Option.map_some, hframe, hidx, hbyte]

/-- **What the kernel has read in a page that is held, it reads afterwards.** -/
theorem Carried.loadByte (c : Carried m m') (hpl : PlainOn KernelPage m) (hcpu : m.cpuCr3 = m.cr3)
    (hv : KernelPage (va / 4096)) (hc : canonical va) (h : Held m (va / 4096)) :
    FuseeOS.loadByte m' va = FuseeOS.loadByte m va := by
  obtain ⟨w, hw, ht, hu⟩ := h
  have hcpu' : m'.cpuCr3 = m'.cr3 := (c.cpu hcpu).trans c.cr3.symm
  rw [loadByte_leaf hpl hcpu hv hc hw,
    loadByte_leaf c.plain hcpu' hv hc (c.entry _ hv 0 (Nat.zero_le 3) w hw), c.data _ ht hu]

/-! ## the protection of the image -/

section
variable {img : KernelImage}

theorem MemProt.running (h : MemProt img m m₁ m₂ m') : m'.cpuCr3 = m'.cr3 := by
  have hcalls : img.calls ≠ [] := List.cons_ne_nil _ _
  rw [h.sections.cpu hcalls, h.sections.cr3]

theorem MemProt.cr3 (h : MemProt img m m₁ m₂ m') : m'.cr3 = m.cr3 := by
  rw [h.sections.cr3, h.opened.regs.cr3, h.grown.regs.cr3]

theorem MemProt.free (h : MemProt img m m₁ m₂ m') {q : Nat} (hq : m'.pmem.Free q) : m.pmem.Free q := by
  rw [h.sections.pmem, h.opened.pmem] at hq
  exact h.grown.free q hq

theorem MemProt.fresh (h : MemProt img m m₁ m₂ m') {t : Nat} (ht : m'.IsTable t) :
    m.IsTable t ∨ m.pmem.Free t := by
  have ht₂ := (isTable_congr h.sections.node t).mp ht
  exact h.grown.fresh t ((isTable_congr h.opened.node t).mp ht₂)

theorem MemProt.data (h : MemProt img m m₁ m₂ m') {f : Nat} (hf : ¬ m.IsTable f) (hu : ¬ m.pmem.Free f) :
    m'.mem f = m.mem f := by
  have hf₁ : ¬ m₁.IsTable f := fun ht => (h.grown.fresh f ht).elim hf hu
  have hf₂ : ¬ m₂.IsTable f := fun ht => hf₁ ((isTable_congr h.opened.node f).mp ht)
  rw [h.sections.data f hf₂, h.opened.data f hf₁, h.grown.data f hf hu]

theorem MemProt.held (h : MemProt img m m₁ m₂ m') (hv : Held m v) : Held m' v := by
  obtain ⟨w, hw, ht, hu⟩ := hv
  obtain ⟨g, e, hg⟩ := h.entry_map v 0 (Nat.zero_le 3)
  have e' : leaf m' v = (leaf m₁ v).map g := e
  rw [h.grown.leaf, hw, Option.map_some] at e'
  refine ⟨g w, e', ?_, ?_⟩
  · rw [(hg w).2]
    exact fun hn => (h.fresh hn).elim ht hu
  · rw [(hg w).2]
    exact fun hq => hu (h.free hq)

/-- the protection changes no byte that is read in a page that is held -/
theorem MemProt.loadByte (h : MemProt img m m₁ m₂ m') (hpl : PlainOn KernelPage m)
    (hpl' : PlainOn KernelPage m') (hcpu : m.cpuCr3 = m.cr3) (hv : KernelPage (va / 4096)) (hc : canonical va)
    (hheld : Held m (va / 4096)) : FuseeOS.loadByte m' va = FuseeOS.loadByte m va := by
  obtain ⟨w, hw, ht, hu⟩ := hheld
  obtain ⟨g, e, hg⟩ := h.entry_map (va / 4096) 0 (Nat.zero_le 3)
  have e' : leaf m' (va / 4096) = (leaf m₁ (va / 4096)).map g := e
  rw [h.grown.leaf, hw, Option.map_some] at e'
  rw [loadByte_leaf hpl hcpu hv hc hw, loadByte_leaf hpl' h.running hv hc e', (hg w).2, h.data ht hu]

end

/-! ## the heap -/

/-- **The heap stays in place, with its words.** -/
theorem HeapBacked.carried (h : HeapBacked m n) (c : Carried m m')
    (hnone : ∀ v, HeapRegion v → leaf m v = none → leaf m' v = none) :
    HeapBacked m' n ∧ ∀ b, InHeap n b → loadWord m' b = loadWord m b := by
  have hleaf {j : Nat} (hj : j < n / 4096) : leaf m' (HEAP_BASE / 4096 + j) = leaf m (HEAP_BASE / 4096 + j) := by
    obtain ⟨w, hw, -⟩ := h.frames j hj
    rw [hw]
    exact c.entry _ (heapRegion_add h.room hj).kernelPage 0 (Nat.zero_le 3) w hw
  have h' : HeapBacked m' n := by
    refine ⟨c.tables, fun v hv => c.plain v hv.kernelPage, h.whole, h.room, fun j hj => ?_,
      fun i hi j hj w w' hw hw' => h.once i hi j hj w w' (hleaf hi ▸ hw) (hleaf hj ▸ hw'),
      fun j hj hr => hnone _ hr (h.above j hj hr), ?_⟩
    · obtain ⟨w, hw, hf, hu⟩ := h.frames j hj
      refine ⟨w, (hleaf hj).trans hw, ⟨hf.phys, (c.owns _).mpr hf.owns, fun ht => ?_⟩, fun hq => hu (c.free _ hq)⟩
      exact (c.fresh _ ht).elim hf.table hu
    · exact h.running.imp id fun hcpu => (c.cpu hcpu).trans c.cr3.symm
  exact ⟨h', fun b hb => h.load_eq h' hb hb (fun j hj _ => hleaf hj) c.data⟩

end

end FuseeOS
