import FuseeOS.Kernel.Mem

/-!
# The kernel heap

`kmalloc.c` over an interface to the memory the kernel runs in: 64-bit words at virtual addresses
(`none` is a page fault) and the two functions of `mmap.c` that the heap calls.

A `HeapBlock` header is one word: bit 0 is `used`, bits 1 to 63 are `size`; `sizeof(HeapBlock)` is 32.
The loops over the blocks run on fuel: a block more than the heap could hold.
-/

namespace FuseeOS

/-- what the heap uses of the kernel's memory -/
structure KernelVM (σ : Type) where
  load : σ → Nat → Option (BitVec 64)
  store : σ → Nat → BitVec 64 → Option σ
  /-- `kmapanon(addr, size, prot)` -/
  kmapanon : σ → Nat → Nat → Nat → Option σ
  /-- `kunmapanon(addr, size)` -/
  kunmapanon : σ → Nat → Nat → Option σ

/-- the kernel's memory with `gKernel.heap_size` -/
structure Heap (σ : Type) where
  vm : σ
  heapSize : Nat

/-- start of the heap region -/
@[irreducible] def HEAP_BASE : Nat := 0xffffa00000000000

/-- `sizeof(HeapBlock)` -/
abbrev HEADER : Nat := 32

/-! ## headers -/

def headerUsed (w : BitVec 64) : Bool := w.getLsbD 0

def headerSize (w : BitVec 64) : Nat := (w >>> 1).toNat

def setUsed (used : Bool) (w : BitVec 64) : BitVec 64 := w &&& ~~~1#64 ||| (if used then 1#64 else 0#64)

def setSize (size : Nat) (w : BitVec 64) : BitVec 64 := w &&& 1#64 ||| BitVec.ofNat 64 size <<< 1

variable {σ : Type} (V : KernelVM σ)

/-- a bit-field assignment: the word is read, changed and written back -/
def updateHeader (vm : σ) (blk : Nat) (f : BitVec 64 → BitVec 64) : Option σ := do
  let w ← V.load vm blk
  V.store vm blk (f w)

/-- `(char*)blk + sizeof(HeapBlock) + blk->size` -/
def nextBlock (blk : Nat) (w : BitVec 64) : Nat := (blk + HEADER + headerSize w) % 2^64

/-- `while (blk < end) { body; blk = next; }` -/
def walkBlocks {β : Type} (vm : σ) (body : β → Nat → BitVec 64 → Option β) (end_ : Nat) :
    Nat → Nat → β → Option β
  | 0, _, _ => none
  | fuel + 1, blk, acc =>
    if blk < end_ then do
      let w ← V.load vm blk
      let acc ← body acc blk w
      walkBlocks vm body end_ fuel (nextBlock blk w) acc
    else some acc

/-- the loop from `HEAP_BASE` to the end of the heap -/
def walkHeap {β : Type} (s : Heap σ) (body : β → Nat → BitVec 64 → Option β) (acc : β) : Option β :=
  walkBlocks V s.vm body ((HEAP_BASE + s.heapSize) % 2^64) (s.heapSize / HEADER + 1) HEAP_BASE acc

/-! ## kmalloc.c -/

def makeNewBlock (s : Heap σ) (size : Nat) : Option (Nat × Heap σ) := do
  let blk := (HEAP_BASE + s.heapSize) % 2^64
  let extraSize := pageRound ((size + HEADER) % 2^64)
  let heapSize := (s.heapSize + extraSize) % 2^64
  let vm ← V.kmapanon s.vm blk extraSize (KPROT_READ ||| KPROT_WRITE)
  let vm ← updateHeader V vm blk (setUsed true)
  let vm ← updateHeader V vm blk (setSize ((extraSize + (2^64 - HEADER)) % 2^64))
  return ((blk + HEADER) % 2^64, ⟨vm, heapSize⟩)

/-- loop body of `shrink`: the end of the last used block, from `HEAP_BASE` -/
def usedEnd (newSize blk : Nat) (w : BitVec 64) : Option Nat :=
  some (if headerUsed w then (nextBlock blk w + (2^64 - HEAP_BASE)) % 2^64 else newSize)

/-- the loop of `shrink` -/
def shrunkSize (s : Heap σ) : Option Nat := walkHeap V s usedEnd 0

def shrink (s : Heap σ) : Option (Heap σ) := do
  let newSize ← shrunkSize V s
  let vm ← V.kunmapanon s.vm ((HEAP_BASE + newSize) % 2^64) ((s.heapSize + (2^64 - newSize)) % 2^64)
  return ⟨vm, newSize⟩

/-- loop body of `kmalloc` for a request of `size` bytes; `best` is `none` where the pointer is
`NULL` -/
def betterFit (vm : σ) (size : Nat) (best : Option Nat) (blk : Nat) (w : BitVec 64) :
    Option (Option Nat) :=
  if !headerUsed w && decide (headerSize w ≥ size) then
    match best with
    | none => some (some blk)
    | some b => do
      let wb ← V.load vm b
      return if headerSize wb > headerSize w then some blk else some b
  else some best

/-- the loop of `kmalloc` -/
def findBest (s : Heap σ) (size : Nat) : Option (Option Nat) :=
  walkHeap V s (betterFit V s.vm size) none

def kmalloc (s : Heap σ) (size : Nat) : Option (Nat × Heap σ) := do
  match ← findBest V s size with
  | some best =>
    let vm ← updateHeader V s.vm best (setUsed true)
    return ((best + HEADER) % 2^64, { s with vm := vm })
  | none => makeNewBlock V s size

def kfree (s : Heap σ) (addr : Nat) : Option (Heap σ) :=
  if addr = 0 then some s
  else do
    let blk := (addr + (2^64 - HEADER)) % 2^64
    let vm ← updateHeader V s.vm blk (setUsed false)
    let w ← V.load vm blk
    if (addr + headerSize w) % 2^64 = (HEAP_BASE + s.heapSize) % 2^64 then
      shrink V { s with vm := vm }
    else return { s with vm := vm }

end FuseeOS
