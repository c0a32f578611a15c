import FuseeOS.Lib.Radix
import FuseeOS.Kernel.AllocPage

/-!
# Page tables

`mmap.c` over a machine with physical memory, and the address translation of the processor.

The kernel reaches physical memory through the direct map (`physical_to_virtual`).  Memory is a
function from page-aligned physical addresses to the 512 words of the page; an index of 512 or more
is an access behind the end of a page table and has no result.  A write that faults has no result
either.
-/

namespace FuseeOS

abbrev X86_PAGE_PRESENT : BitVec 64 := 0x01
abbrev X86_PAGE_WRITE : BitVec 64 := 0x02
abbrev X86_PAGE_USER : BitVec 64 := 0x04
abbrev X86_PAGE_LARGE : BitVec 64 := 0x80
abbrev X86_PAGE_NOEXEC : BitVec 64 := 0x8000000000000000
abbrev MMASK_PHYS : BitVec 64 := 0x7ffffffffffff000
abbrev IO_BASE : Nat := 0xffffc00000000000
abbrev PML4_PHYSICAL : Nat := 256

/-- entries of tables and levels are written as numerals -/
instance neZero_512 : NeZero 512 := ⟨by decide⟩
instance neZero_4 : NeZero 4 := ⟨by decide⟩

abbrev PhysMem := Nat → Fin 512 → BitVec 64

structure Machine where
  mem : PhysMem
  pmem : PhysicalMemoryAllocator
  /-- `gKernel.cr3` -/
  cr3 : Nat
  /-- the control register -/
  cpuCr3 : Nat
  /-- whether `init_nx` found the NX flag -/
  nx : Bool
  /-- `gKernel.io_size` -/
  ioSize : Nat
  /-- `phys`, the local variable of `kmap` -/
  phys : Nat

/-- `gKernel.nx_mask` -/
def Machine.nxMask (m : Machine) : BitVec 64 := if m.nx then X86_PAGE_NOEXEC else 0

/-- The physical address that `physical_to_virtual(physical)` shows.  Bits 47 to 63 of
`0xffff800000000000 | physical` are set whatever `physical` is.  The direct map holds those below 512 GiB
(`direct_map_exact`), and the tables stay there when memory ends there (`tables_below`). -/
def direct (physical : Nat) : Nat := physical % 2^47

/-- `dir[i]` -/
def Machine.read (m : Machine) (dir i : Nat) : Option (BitVec 64) :=
  if h : i < 512 then some (m.mem dir ⟨i, h⟩) else none

def Machine.setWord (m : Machine) (dir : Nat) (i : Fin 512) (w : BitVec 64) : Machine :=
  { m with mem := Radix.setWord m.mem dir i w }

/-- `dir[i] = w` -/
def Machine.write (m : Machine) (dir i : Nat) (w : BitVec 64) : Option Machine :=
  if h : i < 512 then some (m.setWord dir ⟨i, h⟩ w) else none

/-! ## page_iter -/

/-- what `page_iter_next` gives out: `len` entries of a table, from entry `offset` on -/
structure Visit where
  depth : Nat
  dir : Nat
  offset : Nat
  len : Int

structure PageIterator where
  dir : Fin 4 → Nat
  offset : Fin 4 → Nat
  len : Fin 4 → Int
  lenCurrent : Fin 4 → Int
  index : Fin 4 → Nat
  state : Nat

def pageIterCreate (cr3 vaddr len : Nat) : PageIterator :=
  let vpage := vaddr >>> 12
  let vlen := ((len + 4095) % 2^64) >>> 12
  { dir := fun i => if i = 3 then direct cr3 else 0
    offset := fun i => (vpage >>> (9 * i.val)) % 512
    len := fun i => CInt.toInt ((vlen + 2^(9 * i.val) - 1) >>> (9 * i.val))
    lenCurrent := fun _ => 0
    index := fun _ => 0
    state := 0 }

def iterComputeDir (m : Machine) (dir index offset : Nat) : Option Nat := do
  let e ← m.read dir (offset + index)
  return direct (e &&& MMASK_PHYS).toNat

def iterComputeLen (len : Int) (offset : Nat) : Option Int := do
  let len ← CInt.intAdd? len offset
  return (if len > 512 then 512 else len) - offset

/-- head of the body of the loop over `index[d + 1]`: the table below is given out -/
def iterVisit (m : Machine) (d up : Fin 4) (it : PageIterator) :
    Option (Option Visit × PageIterator) := do
  let dir ← iterComputeDir m (it.dir up) (it.index up) (it.offset up)
  let len ← iterComputeLen (it.len d) (it.offset d)
  return (some ⟨d, dir, it.offset d, len⟩,
    { it with
      dir := Function.update it.dir d dir
      lenCurrent := Function.update it.lenCurrent d len
      state := 4 - d })

/-- end of the body of the loop over `index[up]`, with the increment -/
def iterDone (d up : Fin 4) (it : PageIterator) : PageIterator :=
  { it with
    len := Function.update it.len d (it.len d - it.lenCurrent d)
    offset := Function.update it.offset d 0
    index := Function.update it.index up (it.index up + 1) }

def iterLoop3 (m : Machine) (it : PageIterator) : Option (Option Visit × PageIterator) :=
  if it.index 3 < it.len 3 then iterVisit m 2 3 it else some (none, it)

def iterLoop2 (m : Machine) (it : PageIterator) : Option (Option Visit × PageIterator) :=
  if it.index 2 < it.len 2 then iterVisit m 1 2 it else iterLoop3 m (iterDone 2 3 it)

def iterLoop1 (m : Machine) (it : PageIterator) : Option (Option Visit × PageIterator) :=
  if it.index 1 < it.len 1 then iterVisit m 0 1 it else iterLoop2 m (iterDone 1 2 it)

/-- `page_iter_next`: the next visit, `none` at the end.  The cases of the `switch` are places inside
the three loops. -/
def pageIterNext (m : Machine) (it : PageIterator) : Option (Option Visit × PageIterator) :=
  match it.state with
  | 0 => some (some ⟨3, it.dir 3, it.offset 3, it.len 3⟩, { it with state := 1 })
  | 1 => iterLoop3 m { it with index := Function.update it.index 3 0 }
  | 2 => iterLoop2 m { it with index := Function.update it.index 2 0 }
  | 3 => iterLoop1 m { it with index := Function.update it.index 1 0 }
  | 4 => iterLoop1 m (iterDone 0 1 it)
  | _ => some (none, it)

/-- `while (page_iter_next(...) == 0) body` -/
def walkPages (body : Machine → Visit → Option Machine) :
    Nat → Machine → PageIterator → Option Machine
  | 0, _, _ => none
  | fuel + 1, m, it => do
    match ← pageIterNext m it with
    | (none, _) => some m
    | (some v, it) =>
      let m ← body m v
      walkPages body fuel m it

/-- One visit of the top table, and one for each round of the three loops, whose lengths only get
smaller. -/
def visits (it : PageIterator) : Nat :=
  1 + (it.len 3).toNat * (1 + (it.len 2).toNat * (1 + (it.len 1).toNat))

def forPages (m : Machine) (addr size : Nat) (body : Machine → Visit → Option Machine) :
    Option Machine :=
  let it := pageIterCreate m.cr3 addr size
  walkPages body (visits it + 1) m it

/-! ## mmap.c -/

/-- A page that is handed out and zeroed.  Without a free page, `bzero` faults at the address that
`BADPAGE` gives. -/
def allocZeroPage (m : Machine) : Option (BitVec 64 × Machine) := do
  let (page, pmem) ← allocPhysPages m.pmem 1
  if page = BADPAGE then none
  else return (BitVec.ofNat 64 page,
    { m with pmem := pmem, mem := Function.update m.mem (direct page) fun _ => 0 })

def pageProtFlags (m : Machine) (prot : Nat) : BitVec 64 :=
  (if prot &&& KPROT_WRITE ≠ 0 then X86_PAGE_WRITE else 0) |||
  (if prot &&& KPROT_USER ≠ 0 then X86_PAGE_USER else 0) |||
  (if prot &&& KPROT_EXECUTE = 0 then m.nxMask else 0)

/-- an entry is read, changed and written back -/
def updateEntry (f : Machine → BitVec 64 → Option (BitVec 64 × Machine)) (dir i : Nat)
    (m : Machine) : Option Machine := do
  let tmp ← m.read dir i
  let (tmp, m) ← f m tmp
  m.write dir i tmp

/-- `for (int i = 0; i < page_count; ++i)` over the entries of a visit, from entry `i` on -/
def updateEntries (f : Machine → BitVec 64 → Option (BitVec 64 × Machine)) (dir : Nat) :
    Nat → Nat → Machine → Option Machine
  | 0, _, m => some m
  | n + 1, i, m => do
    let m ← updateEntry f dir i m
    updateEntries f dir n (i + 1) m

/-- an entry of a table above the lowest: a missing table is made -/
def addTable (m : Machine) (tmp : BitVec 64) : Option (BitVec 64 × Machine) :=
  if tmp &&& X86_PAGE_PRESENT = 0 then do
    let (page, m) ← allocZeroPage m
    return (page ||| (X86_PAGE_PRESENT ||| X86_PAGE_WRITE ||| X86_PAGE_USER), m)
  else some (tmp, m)

/-- an entry of a lowest table: a new page, whatever was there -/
def addPage (flags : BitVec 64) (m : Machine) (_ : BitVec 64) : Option (BitVec 64 × Machine) := do
  let (page, m) ← allocZeroPage m
  return (page ||| (X86_PAGE_PRESENT ||| flags), m)

/-- an entry of a lowest table: the page at `phys` -/
def mapPage (flags : BitVec 64) (m : Machine) (_ : BitVec 64) : Option (BitVec 64 × Machine) :=
  some (BitVec.ofNat 64 m.phys ||| (X86_PAGE_PRESENT ||| flags),
    { m with phys := (m.phys + PAGESIZE) % 2^64 })

def protectPage (mask flags : BitVec 64) (m : Machine) (tmp : BitVec 64) :
    Option (BitVec 64 × Machine) :=
  some (tmp &&& mask ||| flags, m)

def removePage (m : Machine) (tmp : BitVec 64) : Option (BitVec 64 × Machine) :=
  some (0, { m with pmem := freePhysPages m.pmem (tmp &&& MMASK_PHYS).toNat 1 })

/-- the loop body of `kmapanon` -/
def anonVisit (flags : BitVec 64) (m : Machine) (v : Visit) : Option Machine :=
  updateEntries (if v.depth ≠ 0 then addTable else addPage flags) v.dir v.len.toNat v.offset m

/-- the loop body of `kmap` -/
def mapVisit (flags : BitVec 64) (m : Machine) (v : Visit) : Option Machine :=
  updateEntries (if v.depth ≠ 0 then addTable else mapPage flags) v.dir v.len.toNat v.offset m

/-- the loop bodies of `kmprotect` and `kunmapanon`, which look at the lowest tables only -/
def lowVisit (f : Machine → BitVec 64 → Option (BitVec 64 × Machine)) (m : Machine) (v : Visit) :
    Option Machine :=
  if v.depth = 0 then updateEntries f v.dir v.len.toNat v.offset m else some m

/-- `cr3_write((uint64_t)gKernel.cr3)` -/
def reloadCr3 (m : Machine) : Machine := { m with cpuCr3 := m.cr3 }

def kmprotect (m : Machine) (addr size prot : Nat) : Option Machine :=
  let mask := ~~~(X86_PAGE_USER ||| X86_PAGE_WRITE ||| m.nxMask)
  let flags := pageProtFlags m prot
  (forPages m addr size (lowVisit (protectPage mask flags))).map reloadCr3

def kmapanon (m : Machine) (addr size prot : Nat) : Option Machine :=
  let flags := pageProtFlags m prot
  (forPages m addr size (anonVisit flags)).map reloadCr3

/-- `io_alloc` -/
def ioAlloc (m : Machine) (size : Nat) : Nat × Machine :=
  ((IO_BASE + m.ioSize) % 2^64, { m with ioSize := (m.ioSize + pageRound size) % 2^64 })

def kmap (m : Machine) (addr phys size prot : Nat) : Option (Nat × Machine) :=
  let flags := pageProtFlags m prot
  let m := { m with phys := phys - phys % PAGESIZE }
  let (addr, m) := if addr = 0 then ioAlloc m size else (addr, m)
  (forPages m addr size (mapVisit flags)).map fun m => (addr, reloadCr3 m)

def kunmapanon (m : Machine) (addr size : Nat) : Option Machine :=
  (forPages m addr size (lowVisit removePage)).map reloadCr3

/-! ## address translation -/

def present (w : BitVec 64) : Bool := w.getLsbD 0
def writable (w : BitVec 64) : Bool := w.getLsbD 1
def userOk (w : BitVec 64) : Bool := w.getLsbD 2
def large (w : BitVec 64) : Bool := w.getLsbD 7
def noExec (w : BitVec 64) : Bool := w.getLsbD 63

/-- the address bits of an entry, 12 to 51 -/
abbrev FRAME_MASK : BitVec 64 := 0x000ffffffffff000

def frameOf (w : BitVec 64) : Nat := (w &&& FRAME_MASK).toNat

/-- index of page `v` into a table of level `k` -/
def pageIndex (v k : Nat) : Fin 512 := ⟨v / 512^k % 512, Nat.mod_lt _ (by decide)⟩

structure Translation where
  addr : Nat
  write : Bool
  user : Bool
  noExec : Bool

/-- bit 47 and the bits above it are equal -/
def canonical (va : Nat) : Prop := va < 2^47 ∨ 2^64 - 2^47 ≤ va ∧ va < 2^64

instance (va : Nat) : Decidable (canonical va) := inferInstanceAs (Decidable (_ ∨ _))

/-- The tables from level `k` down; `perm` is what the tables above allow.  Bit 7 of an entry of
level 1 or 2 makes it a large page, in one of level 3 it is reserved. -/
def translateFrom (mem : PhysMem) (va : Nat) : Nat → Nat → Translation → Option Translation
  | k, table, perm =>
    let w := mem table (pageIndex (va / 4096) k)
    if present w then
      let perm : Translation := ⟨perm.addr, perm.write && writable w, perm.user && userOk w,
        perm.noExec || noExec w⟩
      match k with
      | 0 => some { perm with addr := frameOf w + va % 4096 }
      | k + 1 =>
        if large w then
          if k + 1 = 3 then none
          else
            let size := 4096 * 512^(k + 1)
            some { perm with addr := frameOf w / size * size + va % size }
        else translateFrom mem va k (frameOf w) perm
    else none

/-- what a virtual address is translated to, and what may be done there -/
def translate (mem : PhysMem) (cr3 va : Nat) : Option Translation :=
  if canonical va then translateFrom mem va 3 cr3 ⟨0, true, true, false⟩ else none

end FuseeOS
