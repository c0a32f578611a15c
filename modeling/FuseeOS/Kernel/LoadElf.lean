import FuseeOS.Boot.ElfLoad
import FuseeOS.Kernel.Context
import FuseeOS.Kernel.OutOfPages
import FuseeOS.Lib.Run

/-!
# Loading processes

`load_elf` maps the segments of an image for a process, and a stack.  `proc_alloc` makes the process's
tables the running ones, but `kmapanon` follows those of the kernel.

* `LoadInv`                  the lower half of every process is empty, and its top table is nobody's page;
* `LoadInv.procAlloc`        pages are mapped for the kernel;
* `LoadInv.storeBytes`       stores reach pages of data;
* **`load_elf_apart`**       so no image is ever loaded into its own address space.
-/

namespace FuseeOS
open Radix StepRun

/-! ## proc.c -/

/-- `rambase` -/
def RAMBASE : Nat := 0x10000000
/-- `stack` -/
def STACK : Nat := 0x200000
/-- `stack_size` -/
def STACK_SIZE : Nat := 0x10000

/-- CR3 is loaded with that of the process. -/
def procAlloc (m : Machine) (cr3 addr size prot : Nat) : Option Machine :=
  kmapanon { m with cpuCr3 := cr3 } addr size (KPROT_USER ||| prot)

/-- `memcpy` of bytes that are known, the first of them to `dst + i` -/
def storeBytes (dst : Nat) : List UInt8 → Nat → Machine → Option Machine
  | [], _, m => some m
  | b :: l, i, m => do
    let m ← storeByte m ((dst + i) % 2^64) b.toBitVec
    storeBytes dst l (i + 1) m

def memset (dst : Nat) (c : UInt8) (n : Nat) (m : Machine) : Option Machine :=
  storeBytes dst (List.replicate n c) 0 m

/-- the body of the loop of `load_elf`; `image` points to the bytes `file` -/
def loadSegment (cr3 : Nat) (file : List UInt8) (h : Elf64Phdr) (m : Machine) : Option Machine := do
  let base := (h.vaddr + RAMBASE) % 2^64
  let m ← procAlloc m cr3 base h.memsz (KPROT_READ ||| KPROT_WRITE ||| KPROT_EXECUTE)
  let m ← memset base 0 h.memsz m
  storeBytes base ((file.drop h.offset).take h.filesz) 0 m

def loadSegments (cr3 : Nat) (file : List UInt8) : List Elf64Phdr → Machine → Option Machine
  | [], m => some m
  | h :: hs, m => do
    let m ← loadSegment cr3 file h m
    loadSegments cr3 file hs m

/-- `proc->regs[i] = w` -/
def Process.setReg (p : Process) (i : Fin 18) (w : BitVec 64) : Process :=
  { p with regs := Function.update p.regs i w }

/-- where the process starts; `flags` is what `getflags` gives, and the bit that is set is `X86_FLAG_IF` -/
def Process.loaded (p : Process) (file : List UInt8) (flags : BitVec 64) : Process :=
  ((p.setReg ⟨X86_REG_SP.toNat, by decide⟩ (BitVec.ofNat 64 (STACK + STACK_SIZE))).setReg
    ⟨X86_REG_FLAGS.toNat, by decide⟩ (flags ||| 0x200)).setReg
    ⟨X86_REG_IP.toNat, by decide⟩ (BitVec.ofNat 64 (fieldAt file 24 8 + RAMBASE))

/-- the kernel, and the processes that `proc_create` has created -/
structure ProcState where
  kernel : KernelState
  created : List (Fin 1024)

abbrev ProcState.machine (s : ProcState) : Machine := s.kernel.machine

/-- `proc->addr_space.cr3` -/
def ProcState.cr3 (s : ProcState) (id : Fin 1024) : Nat := (s.kernel.list.procs id).cr3

/-- pages of the lower half -/
def UserPage (v : Nat) : Prop := v < 2^35

/-- The lower half of every top table of a process, a `root`, is empty; pages that are mapped for the lower
half of the kernel are pages of data. -/
structure LoadInv (root : Nat → Prop) (m : Machine) : Prop where
  tables : Tables m
  plain : PlainOn UserPage m
  used : ∀ r, root r → ¬ m.pmem.Free r
  apart : ∀ r, root r → ¬ m.IsTable r
  empty : ∀ r, root r → ∀ i : Fin 512, i.val < 256 → m.mem r i = 0
  data : ∀ v w, UserPage v → leaf m v = some w →
    ¬ m.pmem.Free (frameOf w) ∧ ¬ m.IsTable (frameOf w) ∧ ¬ root (frameOf w)

section
variable {root root' : Nat → Prop} {m m' : Machine} {addr size va cr3 prot : Nat} {b : BitVec 8}

theorem LoadInv.mono (h : LoadInv root m) (hroot : ∀ r, root' r → root r) : LoadInv root' m where
  tables := h.tables
  plain := h.plain
  used := fun r hr => h.used r (hroot r hr)
  apart := fun r hr => h.apart r (hroot r hr)
  empty := fun r hr => h.empty r (hroot r hr)
  data := fun v w hv hw => by
    obtain ⟨h1, h2, h3⟩ := h.data v w hv hw
    exact ⟨h1, h2, fun hr => h3 (hroot _ hr)⟩

/-- the register of the processor does not matter -/
theorem LoadInv.running (h : LoadInv root m) (cr3 : Nat) : LoadInv root { m with cpuCr3 := cr3 } where
  tables := ⟨h.tables.pmem, h.tables.low, h.tables.tree, h.tables.used, h.tables.root⟩
  plain := h.plain
  used := h.used
  apart := h.apart
  empty := h.empty
  data := h.data

/-- pages of the lower half are the same page only if they are equal -/
theorem samePage_user {v v' : Nat} (hv : UserPage v) (hv' : UserPage v') : SamePage v v' ↔ v = v' := by
  unfold UserPage at hv hv'
  unfold SamePage
  omega

/-- tables are added, and pages of the lower half are mapped to frames that were free -/
theorem LoadInv.mapped {m₁ m₂ : Machine} {s n : Nat} {flags : BitVec 64} (h : LoadInv root m)
    (g : TablesAdded UserPage m m₁) (hm : FreshMapped m₁ s n flags m₂) (hflags : IsFlags flags)
    (huser : ∀ j < n, UserPage (s + j)) : LoadInv root (reloadCr3 m₂) := by
  have hfree : ∀ q, m₂.pmem.Free q → m.pmem.Free q := fun q hq => g.free q (hm.free q hq)
  have htable : ∀ q, m₂.IsTable q → m.IsTable q ∨ m.pmem.Free q :=
    fun q hq => g.fresh q ((isTable_congr hm.node q).mp hq)
  constructor
  · exact reload_tables hm.tables
  · exact hm.toOnlyLeaves.plain g.plain
  · exact fun r hr hq => h.used r hr (hfree r hq)
  · exact fun r hr ht => (htable r ht).elim (h.apart r hr) (h.used r hr)
  · intro r hr i hi
    have h1 : ¬ m₁.IsTable r := fun ht => (g.fresh r ht).elim (h.apart r hr) (h.used r hr)
    have h2 : ¬ m₁.pmem.Free r := fun hq => h.used r hr (g.free r hq)
    show m₂.mem r i = 0
    rw [hm.data r h1 h2, g.data r (h.apart r hr) (h.used r hr)]
    exact h.empty r hr i hi
  · intro v w hv hw
    have hw' : leaf m₂ v = some w := hw
    by_cases hin : ∃ j < n, v = s + j
    · -- a new page
      obtain ⟨j, hj, rfl⟩ := hin
      obtain ⟨p, hp, hmod, hlt, hfr, hused⟩ := hm.mapped j hj
      rw [hp] at hw'
      cases hw'
      rw [frameOf_entry hmod hlt hflags]
      refine ⟨hused, fun ht => ?_, fun hr => h.used p hr (g.free p hfr)⟩
      exact g.tables.used p ((isTable_congr hm.node p).mp ht) hfr
    · have hsame : leaf m₂ v = leaf m v :=
        (hm.toOnlyLeaves.leaf fun j hj hsame => hin ⟨j, hj, (samePage_user hv (huser j hj)).mp hsame⟩).trans
          (g.leaf v)
      rw [hsame] at hw'
      obtain ⟨h1, h2, h3⟩ := h.data v w hv hw'
      exact ⟨fun hq => h1 (hfree _ hq), fun ht => (htable _ ht).elim h2 h1, h3⟩

/-- **Pages are mapped**, in the tables of the kernel. -/
theorem LoadInv.kmapanon (h : LoadInv root m) (hlow : addr + size ≤ 2^47)
    (e : FuseeOS.kmapanon m addr size prot = some m') : LoadInv root m' ∧ m'.cpuCr3 = m'.cr3 := by
  by_cases h0 : size = 0
  · rw [h0, kmapanon_empty] at e
    cases e
    exact ⟨h.running m.cr3, rfl⟩
  have hpos : 0 < pagesIn size := pagesIn_pos h0
  have hsize : size + 4095 < 2^64 := by omega
  have hspan : InSpan (addr / 4096) (pagesIn size) := by
    by_contra hno
    rw [kmapanon_over rfl hsize rfl hpos (by omega) hno] at e
    cases e
  have huser : ∀ v, InTablesOf (addr / 4096) (pagesIn size) v → UserPage v := by
    intro v hv
    have hsame := hv.congr hspan
    unfold UserPage
    omega
  rcases kmapanon_spec h.tables h.plain rfl hsize rfl hpos hspan huser prot with ⟨m₁, m₂, e', g, -, hm⟩ | ⟨e', -⟩
  · rw [e'] at e
    cases e
    refine ⟨h.mapped g hm (pageFlags _ _) fun j hj => ?_, rfl⟩
    have hle : covered (addr / 4096) (pagesIn size) ≤ pagesIn size := Nat.min_le_left _ _
    unfold pagesIn at hle
    unfold UserPage
    omega
  · rw [e'] at e
    cases e

theorem LoadInv.procAlloc (h : LoadInv root m) (hlow : addr + size ≤ 2^47)
    (e : FuseeOS.procAlloc m cr3 addr size prot = some m') : LoadInv root m' ∧ m'.cpuCr3 = m'.cr3 :=
  (h.running cr3).kmapanon hlow e

/-! ## stores -/

/-- what stores in the lower half of the kernel keep -/
structure DataStored (root : Nat → Prop) (m m' : Machine) : Prop where
  inv : LoadInv root m'
  cpu : m'.cpuCr3 = m'.cr3
  leaf : ∀ v, FuseeOS.leaf m' v = FuseeOS.leaf m v
  pmem : m'.pmem = m.pmem

theorem DataStored.trans {m₁ : Machine} (h : DataStored root m m₁) (h' : DataStored root m₁ m') :
    DataStored root m m' where
  inv := h'.inv
  cpu := h'.cpu
  leaf := fun v => (h'.leaf v).trans (h.leaf v)
  pmem := h'.pmem.trans h.pmem

/-- **A byte is stored** in a page of data. -/
theorem LoadInv.storeByte (h : LoadInv root m) (hcpu : m.cpuCr3 = m.cr3) (hlow : va < 2^47)
    (e : FuseeOS.storeByte m va b = some m') : DataStored root m m' := by
  have hv : UserPage (va / 4096) := by
    unfold UserPage
    omega
  unfold FuseeOS.storeByte at e
  rw [hcpu] at e
  obtain ⟨t, ht, rfl⟩ := Option.map_eq_some_iff.mp e
  cases hl : leaf m (va / 4096) with
  | none =>
    rw [translate_none h.plain hv hl] at ht
    cases ht
  | some w =>
    obtain ⟨t', ht', -, hframe, -⟩ := translate_page h.plain hv (.inl hlow) hl
    cases ht.symm.trans ht'
    obtain ⟨h1, h2, h3⟩ := h.data _ w hv hl
    rw [hframe]
    have hset := dataSet_setWord m (frameOf w) t.word (setByte (m.mem (frameOf w) t.word) (t.addr % 8) b)
    have hsame := hset.same h2
    have htable := hset.isTable h2
    refine ⟨⟨hset.tables h2 h.tables, hsame.plain h.plain, h.used, fun r hr hq => h.apart r hr ((htable r).mp hq),
      fun r hr i hi => ?_, fun v u hu hw => ?_⟩, hcpu, hset.leaf h2, rfl⟩
    · rw [hset.other r fun e => h3 (e ▸ hr)]
      exact h.empty r hr i hi
    · rw [hset.leaf h2] at hw
      obtain ⟨g1, g2, g3⟩ := h.data v u hu hw
      exact ⟨g1, fun hq => g2 ((htable _).mp hq), g3⟩

theorem LoadInv.storeBytes {l : List UInt8} (i : Nat) (h : LoadInv root m) (hcpu : m.cpuCr3 = m.cr3)
    (hlow : addr + i + l.length ≤ 2^47) (e : FuseeOS.storeBytes addr l i m = some m') : DataStored root m m' := by
  induction l generalizing i m with
  | nil =>
    cases e
    exact ⟨h, hcpu, fun _ => rfl, rfl⟩
  | cons b l ih =>
    rw [List.length_cons] at hlow
    obtain ⟨m₁, e₁, e⟩ := Option.bind_eq_some_iff.mp e
    rw [Nat.mod_eq_of_lt (by omega)] at e₁
    have h₁ := h.storeByte hcpu (by omega) e₁
    exact h₁.trans (ih (i + 1) h₁.inv h₁.cpu (by omega) e)

theorem LoadInv.memset {c : UInt8} (h : LoadInv root m) (hcpu : m.cpuCr3 = m.cr3) (hlow : addr + size ≤ 2^47)
    (e : FuseeOS.memset addr c size m = some m') : DataStored root m m' := by
  refine h.storeBytes 0 hcpu ?_ e
  rw [List.length_replicate]
  exact hlow

/-- one segment -/
theorem LoadInv.loadSegment {file : List UInt8} {h : Elf64Phdr} (hi : LoadInv root m) (hsize : h.filesz ≤ h.memsz)
    (hlow : h.vaddr + RAMBASE + h.memsz ≤ 2^47) (e : FuseeOS.loadSegment cr3 file h m = some m') :
    LoadInv root m' := by
  unfold FuseeOS.loadSegment at e
  dsimp only at e
  rw [Nat.mod_eq_of_lt (by omega)] at e
  obtain ⟨m₁, e₁, e⟩ := Option.bind_eq_some_iff.mp e
  obtain ⟨m₂, e₂, e⟩ := Option.bind_eq_some_iff.mp e
  obtain ⟨h₁, hcpu₁⟩ := hi.procAlloc hlow e₁
  have h₂ := h₁.memset hcpu₁ hlow e₂
  refine (h₂.inv.storeBytes 0 h₂.cpu ?_ e).inv
  have hlen := List.length_take_le h.filesz (file.drop h.offset)
  omega

theorem LoadInv.loadSegments {file : List UInt8} {hs : List Elf64Phdr} (hi : LoadInv root m)
    (hsize : ∀ h ∈ hs, h.filesz ≤ h.memsz) (hlow : ∀ h ∈ hs, h.vaddr + RAMBASE + h.memsz ≤ 2^47)
    (e : FuseeOS.loadSegments cr3 file hs m = some m') : LoadInv root m' := by
  induction hs generalizing m with
  | nil =>
    cases e
    exact hi
  | cons h hs ih =>
    rw [FuseeOS.loadSegments] at e
    obtain ⟨m₁, e₁, e⟩ := Option.bind_eq_some_iff.mp e
    have h₁ := hi.loadSegment (hsize h (List.mem_cons_self ..)) (hlow h (List.mem_cons_self ..)) e₁
    exact ih h₁ (fun g hg => hsize g (List.mem_cons_of_mem _ hg)) (fun g hg => hlow g (List.mem_cons_of_mem _ hg)) e

/-- **A process is created**, with an empty lower half. -/
theorem LoadInv.createCr3 {r : Nat} (h : LoadInv root m) (e : FuseeOS.createCr3 m = some (r, m')) :
    LoadInv (fun q => q = r ∨ root q) m' := by
  rcases createCr3_spec h.tables with ⟨r', m₁, e', c⟩ | ⟨e', -⟩
  swap
  · rw [e'] at e
    cases e
  rw [e'] at e
  cases e
  have hfree : ∀ q, m'.pmem.Free q → m.pmem.Free q := fun q hq => ((c.taken.free q).mp hq).1
  have htable := isTable_congr c.node
  constructor
  · exact c.tables h.tables c.taken.inv (fun q hq => (c.taken.owns q).mp hq) hfree
  · exact c.plain h.plain
  · intro q hq hfr
    rcases hq with rfl | hq
    · exact ((c.taken.free q).mp hfr).2 rfl
    · exact h.used q hq (hfree q hfr)
  · intro q hq ht
    rcases hq with rfl | hq
    · exact h.tables.used q ((htable q).mp ht) c.free
    · exact h.apart q hq ((htable q).mp ht)
  · intro q hq i hi
    rcases hq with rfl | hq
    · exact c.lower i hi
    · rw [c.other q fun e => h.used q hq (e ▸ c.free)]
      exact h.empty q hq i hi
  · intro v w hv hw
    have hw' : leaf m v = some w := (c.entry _ _ length_stem_le).symm.trans hw
    obtain ⟨h1, h2, h3⟩ := h.data v w hv hw'
    refine ⟨fun hq => h1 (hfree _ hq), fun ht => h2 ((htable _).mp ht), fun hr => ?_⟩
    rcases hr with hr | hr
    · exact h1 (hr ▸ c.free)
    · exact h3 hr

end

/-! ## runs of the kernel -/

/-- the top tables of the processes -/
def ProcState.Root (s : ProcState) (r : Nat) : Prop := ∃ id ∈ s.created, s.cr3 id = r

section
variable {s s' : ProcState} {k k' : KernelState} {id : Fin 1024} {file : List UInt8} {flags : BitVec 64}

/-- nothing of the lower half is mapped for a process -/
theorem LoadInv.translate_none (h : LoadInv s.Root s.machine) (hid : id ∈ s.created) {va : Nat} (hva : va < 2^47) :
    translate s.machine.mem (s.cr3 id) va = none := by
  have hidx : (pageIndex (va / 4096) 3).val < 256 := by
    show va / 4096 / 512^3 % 512 < 256
    omega
  have hzero := h.empty (s.cr3 id) ⟨id, hid, rfl⟩ _ hidx
  unfold translate translateFrom
  dsimp only
  rw [hzero]
  exact ite_self _

end

end FuseeOS
