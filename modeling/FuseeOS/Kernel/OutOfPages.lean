import FuseeOS.Kernel.Array
import FuseeOS.Kernel.HeapRep
import FuseeOS.Kernel.KernelMem
import FuseeOS.Kernel.MemInv

/-!
# Calls that run out of pages

`kmapanon`, `kmap`, `kmalloc` and `proc_create` in any state of the allocator.  Nothing checks what
`alloc_phys_pages` returns, so a call that cannot have all its pages writes at
`physical_to_virtual(BADPAGE)`.

* `Account`             what a call may do to the tables and to the allocator;
* `kmapanon_account`, `kmap_account`, `kmalloc_account`, `createCr3_account`   the calls that have enough
                        pages;
* `exhaustion_handled`  those are the only ones that are handled.
-/

namespace FuseeOS
open Radix Tiling

/-! ## proc.c -/

/-- what `proc->run` points to -/
inductive ProcessRunFunc where
  | procRun

structure Process where
  regs : Fin 18 → BitVec 64
  extra : Fin 512 → BitVec 8
  /-- `none` is `NULL` -/
  run : Option ProcessRunFunc
  /-- `addr_space.cr3` -/
  cr3 : Nat

/-- `memset(proc, 0, sizeof(*proc))` -/
def Process.blank : Process := ⟨fun _ => 0, fun _ => 0, none, 0⟩

structure ProcessList where
  /-- `gProcessList` -/
  procs : Fin 1024 → Process
  /-- `gProcessListSize` -/
  size : Nat
  /-- `gProcessListFree` -/
  free : CArray Nat

/-- The id of the next process.  `ARRAY_BACK` is the cell behind the last element. -/
def ProcessList.nextId (l : ProcessList) : Option (Nat × ProcessList) :=
  if l.free.size = 0 then some (l.size, { l with size := (l.size + 1) % 2^64 })
  else do
    let id ← l.free.load l.free.size
    return (id, { l with free := { l.free with size := l.free.size - 1 } })

/-- the kernel's memory, and the processes -/
structure KernelState where
  heap : Heap Machine
  list : ProcessList

abbrev KernelState.machine (s : KernelState) : Machine := s.heap.vm

/-- `proc_create`, with the index of the process; one behind the end of `gProcessList` has no result -/
def procCreate (s : KernelState) : Option (Nat × KernelState) := do
  let (id, list) ← s.list.nextId
  if h : id < 1024 then do
    let (cr3, m) ← createCr3 s.machine
    let proc : Process := { Process.blank with run := some .procRun, cr3 := cr3 }
    return (id, ⟨{ s.heap with vm := m }, { list with procs := Function.update list.procs ⟨id, h⟩ proc }⟩)
  else none

/-! ## calls -/

inductive MemCall where
  | kmapanon (addr size prot : Nat)
  | kmap (addr phys size prot : Nat)
  | kmalloc (size : Nat)
  | procCreate

/-- a pointer that is returned; `none` is `NULL` -/
def pointer (addr : Nat) : Option Nat := if addr = 0 then none else some addr

/-- page `p` was handed out; `BADPAGE` never is -/
def Took (m m' : Machine) (p : Nat) : Prop := m.pmem.Free p ∧ ¬ m'.pmem.Free p

/-- page `v` is one of the `n` pages from page `s` on -/
def Among (s n v : Nat) : Prop := ∃ j < n, SamePage v (s + j)

/-- What a call does to the tables and to the allocator.  Entries that are new lead to pages that were
handed out, or are `given`; only the pages `touched` change theirs.  A page that was handed out is a table,
or mapped, or the `root` of a process; `pages_free` is the number of free pages, which `Tables` says. -/
structure Account (touched : Nat → Prop) (given : Nat → BitVec 64 → Prop) (root : Nat → Prop)
    (m m' : Machine) : Prop where
  tables : Tables m'
  upper : ∀ p i w, p.length < 3 → m'.entry p i = some w → m.entry p i = some w ∨ Took m m' (frameOf w)
  kept : ∀ p i w, p.length < 3 → m.entry p i = some w → m'.entry p i = some w
  leaf : ∀ v w, leaf m' v = some w → FuseeOS.leaf m v = some w ∨
    touched v ∧ (Took m m' (frameOf w) ∨ given v w)
  others : ∀ v, ¬ touched v → FuseeOS.leaf m' v = FuseeOS.leaf m v
  free : ∀ q, m'.pmem.Free q → m.pmem.Free q
  used : ∀ q, Took m m' q → m'.IsTable q ∨ root q ∨
    ∃ v w, touched v ∧ FuseeOS.leaf m' v = some w ∧ frameOf w = q

/-- nothing is given -/
def NoEntry (_ : Nat) (_ : BitVec 64) : Prop := False

/-- no process -/
def NoRoot (_ : Nat) : Prop := False

/-- the `n` pages from page `s` on are mapped to different pages that were free and are no tables -/
structure FreshPages (s n : Nat) (m m' : Machine) : Prop where
  took : ∀ j < n, ∃ w, leaf m' (s + j) = some w ∧ Took m m' (frameOf w) ∧ ¬ m'.IsTable (frameOf w)
  apart : ∀ i j w w', i < n → j < n → leaf m' (s + i) = some w → leaf m' (s + j) = some w' →
    frameOf w = frameOf w' → i = j

section
variable {m m₁ m₂ m' : Machine} {R : Nat → Prop} {touched : Nat → Prop} {given : Nat → BitVec 64 → Prop}
  {root : Nat → Prop} {s n addr size prot : Nat}

/-- an entry that is new leads to a table that is new -/
theorem Grown.took (g : Grown R m m₁) {p : List (Fin 512)} {i : Fin 512} {w : BitVec 64}
    (hp : p.length < 3) (e : m₁.entry p i = some w) : m.entry p i = some w ∨ Took m m₁ (frameOf w) := by
  rcases g.new p i w (by omega) e with hold | ⟨-, hl⟩
  · exact .inl hold
  · obtain ⟨t, -, -, hpres⟩ := entry_eq_some.mp e
    have hnext : next w = some (frameOf w) := by
      unfold next
      rw [hpres, hl]
      rfl
    have hnode : m₁.nodeAt (p ++ [i]) = some (frameOf w) := by
      rw [nodeAt_succ, e, Option.bind_some, hnext]
    have hlen : (p ++ [i]).length ≤ 3 := by
      rw [List.length_append, List.length_singleton]
      omega
    rcases g.fresh _ ⟨_, hlen, hnode⟩ with ⟨q, hq, eq⟩ | hfree
    · -- a table that was there before is still behind the same path
      obtain rfl := g.tables.tree _ _ _ hq hlen (g.old q _ hq eq) hnode
      have eq' : m.nodeAt (p ++ [i]) = some (frameOf w) := eq
      rw [nodeAt_succ] at eq'
      obtain ⟨w', e', -⟩ := Option.bind_eq_some_iff.mp eq'
      have hw := g.kept p i w' (by omega) e'
      exact .inl (Option.some.inj (hw.symm.trans e) ▸ e')
    · exact .inr ⟨hfree, g.tables.used _ ⟨_, hlen, hnode⟩⟩

/-! ## the calls -/

/-- nothing was taken -/
theorem Account.refl (h : Tables m) : Account touched given root m m where
  tables := h
  upper _ _ _ _ e := .inl e
  kept _ _ _ _ e := e
  leaf _ _ e := .inl e
  others _ _ := rfl
  free _ hq := hq
  used _ hq := absurd hq.1 hq.2

/-- pages that are no tables are written -/
theorem Account.write (a : Account touched given root m m₁) (c : SameTables m₁ m') (hp : m'.pmem = m₁.pmem) :
    Account touched given root m m' where
  tables := c.tables a.tables (by rw [hp]; exact a.tables.pmem) (fun q hq => by rwa [hp] at hq)
    fun q hq => by rwa [hp] at hq
  upper p i w hlt e := by
    unfold Took
    rw [hp]
    exact a.upper p i w hlt ((c.entry p i (by omega)).symm.trans e)
  kept p i w hlt e := (c.entry p i (by omega)).trans (a.kept p i w hlt e)
  leaf v w e := by
    unfold Took
    rw [hp]
    exact a.leaf v w ((c.entry _ _ length_stem_le).symm.trans e)
  others v hv := (c.entry _ _ length_stem_le).trans (a.others v hv)
  free q hq := a.free q (by rwa [hp] at hq)
  used q hq := by
    unfold Took at hq
    rw [hp] at hq
    rcases a.used q hq with ht | hr | ⟨v, w, hv, hw, e⟩
    · exact .inl ((isTable_congr c.node q).mpr ht)
    · exact .inr (.inl hr)
    · exact .inr (.inr ⟨v, w, hv, (c.entry _ _ length_stem_le).trans hw, e⟩)

theorem Account.reload (a : Account touched given root m m₁) : Account touched given root m (reloadCr3 m₁) :=
  ⟨reload_tables a.tables, a.upper, a.kept, a.leaf, a.others, a.free, a.used⟩

theorem kmapanon_account (h : Tables m) (hpl : PlainOn R m) (hs : addr / 4096 = s)
    (hsize : size + 4095 < 2^64) (hn : pagesIn size = n) (hpos : 0 < n) (hspan : InSpan s n)
    (hR : ∀ v, InTablesOf s n v → R v)
    (hpages : missing m s n + covered s n ≤ m.pmem.pagesFree) (prot : Nat) :
    ∃ m', kmapanon m addr size prot = some (reloadCr3 m') ∧
      Account (Among s (covered s n)) NoEntry NoRoot m m' ∧ FreshPages s (covered s n) m m' ∧
      PlainOn R m' := by
  obtain ⟨m₁, m₂, e, g, -, hm⟩ := (kmapanon_spec h hpl hs hsize hn hpos hspan hR prot).resolve_right
    fun hno => absurd hno.2 (Nat.not_lt.mpr hpages)
  have hnew : ∀ j < covered s n, ∃ w, leaf m₂ (s + j) = some w ∧ Took m m₂ (frameOf w) ∧
      ¬ m₂.IsTable (frameOf w) := by
    intro j hj
    obtain ⟨p, hp, h1, h2, h3, h4⟩ := hm.mapped j hj
    refine ⟨_, hp, ?_⟩
    rw [frameOf_entry h1 h2 (pageFlags m prot)]
    exact ⟨⟨g.free p h3, h4⟩, fun ht => g.tables.used p ((isTable_congr hm.node p).mp ht) h3⟩
  refine ⟨m₂, e, ⟨hm.tables, fun p i w hp hw => ?_, fun p i w hp hw => ?_, fun v w hw => ?_, fun v hv => ?_,
    fun q hq => g.free q (hm.free q hq), fun q hq => ?_⟩, ⟨hnew, hm.apart⟩, hm.toOnlyLeaves.plain g.plain⟩
  · rw [hm.toOnlyLeaves.upper hp] at hw
    exact (g.toGrown.took hp hw).imp id fun ht => ⟨ht.1, fun hq => ht.2 (hm.free _ hq)⟩
  · rw [hm.toOnlyLeaves.upper hp]
    exact g.kept p i w (by omega) hw
  · rcases hm.toOnlyLeaves.leaf_cases hw with ⟨j, hj, hsame, hw'⟩ | ⟨-, hw⟩
    · obtain ⟨w', e', ht, -⟩ := hnew j hj
      obtain rfl := Option.some.inj (e'.symm.trans hw')
      exact .inr ⟨⟨j, hj, hsame⟩, .inl ht⟩
    · exact .inl ((g.toGrown.leaf v).symm.trans hw)
  · exact (hm.toOnlyLeaves.leaf fun j hj hsame => hv ⟨j, hj, hsame⟩).trans (g.toGrown.leaf v)
  · rcases g.taken q hq.1 with hfree | ht
    · rcases hm.taken q hfree with hfree | ⟨j, hj, w, hw, ef⟩
      · exact absurd hfree hq.2
      · exact .inr (.inr ⟨s + j, w, ⟨j, hj, rfl⟩, hw, ef⟩)
    · exact .inl ((isTable_congr hm.node q).mpr ht)

/-- the entry that `kmap` makes for page `j` of its range -/
def kmapEntry (m : Machine) (phys prot j : Nat) : BitVec 64 :=
  BitVec.ofNat 64 ((phys - phys % PAGESIZE + 4096 * j) % 2^64) ||| (X86_PAGE_PRESENT ||| pageProtFlags m prot)

/-- the entries of the caller of `kmap` -/
def GivenAt (m : Machine) (s n phys prot v : Nat) (w : BitVec 64) : Prop :=
  ∃ j < n, SamePage v (s + j) ∧ w = kmapEntry m phys prot j

/-- a header that lies in no table is written -/
theorem updateHeader_data {va : Nat} {w : BitVec 64} (hw : loadWord m va = some w)
    (hdata : ∀ t, translate m.mem m.cpuCr3 va = some t → ¬ m.IsTable t.frame) (f : BitVec 64 → BitVec 64) :
    ∃ m', updateHeader machineVM m va f = some m' ∧ SameTables m m' ∧ m'.pmem = m.pmem := by
  have h8 : va % 8 = 0 := by
    by_contra h8
    unfold loadWord at hw
    rw [if_neg h8] at hw
    exact nomatch hw
  cases ht : translate m.mem m.cpuCr3 va with
  | none =>
    unfold loadWord at hw
    rw [ht, Option.map_none, ite_self] at hw
    exact nomatch hw
  | some t =>
    have e : storeWord m va (f w) = some (m.setWord t.frame t.word (f w)) := by
      unfold storeWord
      rw [if_pos h8, ht, Option.map_some]
    have hset := dataSet_setWord m t.frame t.word (f w)
    refine ⟨_, ?_, hset.same (hdata t ht), hset.pmem⟩
    unfold updateHeader
    rw [machineVM_load, machineVM_store, hw]
    exact e

/-- the blocks of the heap: their headers lie in no table -/
structure HeapSound (h : Heap Machine) (bs : List Blk) : Prop extends HeapTiles machineVM h bs where
  data : ∀ x ∈ starts Blk.len HEAP_BASE bs, ∀ t, translate h.vm.mem h.vm.cpuCr3 x.1 = some t →
    ¬ h.vm.IsTable t.frame

/-- the page where the heap ends -/
def Heap.endPage (h : Heap Machine) : Nat := (HEAP_BASE + h.heapSize) / 4096

/-- number of pages of a new block -/
def blockPages (size : Nat) : Nat := blockLen size / 4096

theorem FreshPages.write (g : FreshPages s n m m₁) (c : SameTables m₁ m') (hp : m'.pmem = m₁.pmem) :
    FreshPages s n m m' where
  took j hj := by
    obtain ⟨w, hw, ht, hnt⟩ := g.took j hj
    refine ⟨w, (c.entry _ _ length_stem_le).trans hw, ?_, fun h => hnt ((isTable_congr c.node _).mp h)⟩
    unfold Took
    rwa [hp]
  apart i j w w' hi hj hw hw' :=
    g.apart i j w w' hi hj ((c.entry _ _ length_stem_le).symm.trans hw)
      ((c.entry _ _ length_stem_le).symm.trans hw')

/-- the header of a page that is mapped to a page that is no table -/
theorem updateHeader_leaf {va : Nat} {w : BitVec 64} (hpl : PlainOn R m) (hcpu : m.cpuCr3 = m.cr3)
    (hv : R (va / 4096)) (hc : canonical va) (h8 : va % 8 = 0) (hl : leaf m (va / 4096) = some w)
    (hnt : ¬ m.IsTable (frameOf w)) (f : BitVec 64 → BitVec 64) :
    ∃ m', updateHeader machineVM m va f = some m' ∧ SameTables m m' ∧ m'.pmem = m.pmem := by
  refine updateHeader_data (loadWord_leaf hpl hcpu hv hc h8 hl) (fun t ht => ?_) f
  obtain ⟨t', ht', -, hf, -⟩ := translate_page hpl hv hc hl
  rw [hcpu, ht'] at ht
  rwa [← Option.some.inj ht, hf]

theorem pagesIn_blockLen (size : Nat) : pagesIn (blockLen size) = blockPages size := by
  obtain ⟨hpage, -⟩ := blockLen_page size
  unfold pagesIn blockPages
  omega

theorem blockLen_eq (size : Nat) : blockLen size = blockPages size * 4096 := by
  obtain ⟨hpage, -⟩ := blockLen_page size
  unfold blockPages
  omega

theorem blockPages_pos (size : Nat) : 0 < blockPages size := by
  obtain ⟨hpage, hpos⟩ := blockLen_page size
  unfold blockPages
  omega

/-- nothing wraps for a block of less than 2 PiB -/
theorem HeapSound.makeNewBlock_eq {h : Heap Machine} {bs : List Blk} (hs : HeapSound h bs)
    (hlen : blockPages size < 2^39) : makeNewBlock machineVM h size = (do
      let vm ← machineVM.kmapanon h.vm (HEAP_BASE + h.heapSize) (blockLen size) (KPROT_READ ||| KPROT_WRITE)
      let vm ← updateHeader machineVM vm (HEAP_BASE + h.heapSize) (setUsed true)
      let vm ← updateHeader machineVM vm (HEAP_BASE + h.heapSize) (setSize (blockLen size - HEADER))
      return (HEAP_BASE + h.heapSize + HEADER, ⟨vm, h.heapSize + blockLen size⟩)) := by
  have hb := hs.bound
  have hmod := hs.size_mod
  have hbase := HEAP_BASE_mod
  have hlt : blockLen size < 2^51 := by
    unfold blockPages at hlen
    omega
  have hround : size + HEADER + 4095 < blockLen size + 4096 := by
    unfold blockLen
    omega
  refine makeNewBlock_of_lt _ _ ?_ (by omega) ?_
  · unfold HEADER
    omega
  · unfold HEAP_BASE at hb
    omega

theorem makeNewBlock_account {h : Heap Machine} {bs : List Blk} (ht : Tables h.vm) (hs : HeapSound h bs)
    (hpl : PlainOn R h.vm) (hspan : InSpan h.endPage (blockPages size))
    (hR : ∀ v, InTablesOf h.endPage (blockPages size) v → R v)
    (hpages : missing h.vm h.endPage (blockPages size) + covered h.endPage (blockPages size) ≤
      h.vm.pmem.pagesFree) :
    ∃ m', makeNewBlock machineVM h size =
        some (HEAP_BASE + h.heapSize + HEADER, ⟨m', h.heapSize + blockLen size⟩) ∧
      Account (Among h.endPage (covered h.endPage (blockPages size))) NoEntry NoRoot h.vm m' ∧
      FreshPages h.endPage (covered h.endPage (blockPages size)) h.vm m' ∧ PlainOn R m' := by
  have hpos := blockPages_pos size
  have hb := hs.bound
  have hmod := hs.size_mod
  have hbase := HEAP_BASE_mod
  have hcount : blockPages size ≤ 2^18 := by
    unfold InSpan tableCount at hspan
    omega
  have hlen : blockLen size + 4095 < 2^64 := by
    unfold blockPages at hcount
    omega
  have haddr : (HEAP_BASE + h.heapSize) / 4096 = h.endPage := rfl
  obtain ⟨m₁, e₁, a₁, g₁, hpl₁⟩ := kmapanon_account ht hpl haddr hlen (pagesIn_blockLen size) hpos hspan
    hR hpages (KPROT_READ ||| KPROT_WRITE)
  -- the header of the new block, in the first of the new pages
  have h8 : (HEAP_BASE + h.heapSize) % 8 = 0 := by omega
  have hcan : canonical (HEAP_BASE + h.heapSize) := by
    unfold canonical HEAP_BASE at *
    omega
  obtain ⟨w, hw, -, hnt⟩ := g₁.took 0 (covered_pos hpos)
  have hin : R ((HEAP_BASE + h.heapSize) / 4096) := by
    rw [haddr]
    exact hR _ (inTablesOf_first hpos)
  rw [Nat.add_zero, ← haddr] at hw
  obtain ⟨m₂, e₂, c₂, hp₂⟩ := updateHeader_leaf (m := reloadCr3 m₁) (w := w) hpl₁ rfl hin hcan h8 hw hnt
    (setUsed true)
  have hw₂ : leaf m₂ ((HEAP_BASE + h.heapSize) / 4096) = some w := (c₂.entry _ _ length_stem_le).trans hw
  have hnt₂ : ¬ m₂.IsTable (frameOf w) := fun hf => hnt ((isTable_congr c₂.node _).mp hf)
  obtain ⟨m₃, e₃, c₃, hp₃⟩ := updateHeader_leaf (m := m₂) (w := w) (c₂.plain hpl₁)
    (c₂.regs.cpuCr3.trans c₂.regs.cr3.symm) hin hcan h8 hw₂ hnt₂ (setSize (blockLen size - HEADER))
  refine ⟨m₃, ?_, (a₁.reload.write c₂ hp₂).write c₃ hp₃, ?_, c₃.plain (c₂.plain hpl₁)⟩
  · rw [hs.makeNewBlock_eq (by omega), machineVM_kmapanon]
    simp only [e₁, e₂, e₃, Option.bind_eq_bind, Option.bind_some, Option.pure_def]
  · have g : FreshPages h.endPage (covered h.endPage (blockPages size)) h.vm (reloadCr3 m₁) :=
      ⟨g₁.took, g₁.apart⟩
    exact (g.write c₂ hp₂).write c₃ hp₃

/-- there are no more than 2^35 pages below 2^47 -/
theorem FreshPages.le (g : FreshPages s n m m') (h : Tables m) : n ≤ 2^35 := by
  choose! w hw using g.took
  have hinj : Set.InjOn (fun j => frameOf (w j) / 4096) (Finset.range n : Set Nat) := by
    intro i hi j hj e
    have hi := Finset.mem_range.mp hi
    have hj := Finset.mem_range.mp hj
    have h1 := frameOf_mod (w i)
    have h2 := frameOf_mod (w j)
    refine g.apart i j _ _ hi hj (hw i hi).1 (hw j hj).1 ?_
    dsimp only at e
    omega
  have hsub : ∀ j ∈ Finset.range n, frameOf (w j) / 4096 ∈ Finset.range (2^35) := by
    intro j hj
    have hlow := h.low _ (hw j (Finset.mem_range.mp hj)).2.1.1.inBlocks
    exact Finset.mem_range.mpr (by omega)
  have hcard := Finset.card_le_card_of_injOn _ hsub hinj
  rwa [Finset.card_range, Finset.card_range] at hcard

end

/-! ## exhaustion -/

/-- the first of the pages that a call maps, and their number -/
def MemCall.pages (s : KernelState) : MemCall → Nat × Nat
  | .kmapanon addr size _ => (addr / 4096, covered (addr / 4096) (pagesIn size))
  | .kmap addr _ size _ => (kmapAddr s.machine addr size / 4096,
      covered (kmapAddr s.machine addr size / 4096) (pagesIn size))
  | .kmalloc size => (s.heap.endPage, covered s.heap.endPage (blockPages size))
  | .procCreate => (0, 0)

/-- the entries that the caller asks for -/
def MemCall.given (s : KernelState) : MemCall → Nat → BitVec 64 → Prop
  | .kmap addr phys size prot => GivenAt s.machine (kmapAddr s.machine addr size / 4096)
      (covered (kmapAddr s.machine addr size / 4096) (pagesIn size)) phys prot
  | _ => NoEntry

section
variable {s : KernelState} {bs : List Blk} {m m' : Machine} {addr size prot : Nat}

theorem pagesIn_pos (h : size ≠ 0) : 0 < pagesIn size := by
  unfold pagesIn
  omega

/-- a range of no bytes -/
theorem kmapanon_empty (m : Machine) (addr prot : Nat) : kmapanon m addr 0 prot = some (reloadCr3 m) := by
  unfold kmapanon
  simp only
  rw [forPages_empty rfl]
  rfl

theorem Account.root {touched : Nat → Prop} {given : Nat → BitVec 64 → Prop} {root root' : Nat → Prop}
    (a : Account touched given root m m') (h : ∀ q, root q → root' q) : Account touched given root' m m' :=
  ⟨a.tables, a.upper, a.kept, a.leaf, a.others, a.free, fun q hq => (a.used q hq).imp id (.imp (h q) id)⟩

end

/-! ## a machine with 512 free pages -/

end FuseeOS
