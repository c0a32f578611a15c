import FuseeOS.Lib.BitMap
import FuseeOS.Lib.CInt
import FuseeOS.Kernel.Mem

/-!
# The physical page allocator

`PhysicalMemoryBlock`, `PhysicalMemoryAllocator` and the functions of `alloc_page.c` that run after
the allocator is set up.  A block keeps one bitmap per order; a set bit means "in use".  Each
bitmap is an array of bytes of its own (`initPhysicalMemory` carves it out of pages that are never
handed out, see `PhysInit`), so it is a function from byte index to byte.

The scans over `blocks[16]` are recursions over the list of the 16 blocks; running off the end of
the array is `none`.
-/

namespace FuseeOS
open BitMap

abbrev PMB_COUNT : Nat := 16
abbrev PMB_MAX_ORDER : Nat := 8

structure PhysicalMemoryBlock where
  base : Nat
  npages : Nat
  bitmap : Nat → Nat → BitVec 8

/-- a block that was never set up (static storage) -/
instance : Inhabited PhysicalMemoryBlock := ⟨⟨0, 0, fun _ _ => 0⟩⟩

structure PhysicalMemoryAllocator where
  blocks : List PhysicalMemoryBlock
  pagesTotal : Nat
  pagesFree : Nat
  count : blocks.length = PMB_COUNT

/-! ## marking pages -/

/-- `page >= mblock->base && page < mblock->base + mblock->npages * PAGESIZE` -/
def PhysicalMemoryBlock.covers (mblock : PhysicalMemoryBlock) (page : Nat) : Bool :=
  decide (mblock.base ≤ page) && decide (page < (mblock.base + mblock.npages * PAGESIZE) % 2^64)

/-- `bitmap_off` of a page of the block -/
def PhysicalMemoryBlock.offset (mblock : PhysicalMemoryBlock) (page : Nat) : Nat :=
  (page - mblock.base) / PAGESIZE

/-- the loop over the blocks: `f` is run on the first block that covers the page -/
def onBlock (f : PhysicalMemoryBlock → Nat → PhysicalMemoryBlock) (page : Nat) :
    List PhysicalMemoryBlock → List PhysicalMemoryBlock
  | [] => []
  | mblock :: rest =>
    if mblock.covers page then f mblock (mblock.offset page) :: rest
    else mblock :: onBlock f page rest

theorem length_onBlock (f : PhysicalMemoryBlock → Nat → PhysicalMemoryBlock) (page : Nat)
    (bs : List PhysicalMemoryBlock) : (onBlock f page bs).length = bs.length := by
  induction bs with
  | nil => rfl
  | cons b bs ih =>
    unfold onBlock
    split
    · rfl
    · rw [List.length_cons, List.length_cons, ih]

/-- `(bitmap[off / 8] & (3 << (off & ~1))) == 0`.  The shift is done on a 32-bit `int`, and the
machine shifts by the count modulo 32. -/
def buddyTest (m : Nat → BitVec 8) (off : Nat) : Bool :=
  (m (off / 8)).setWidth 32 &&& (3#32 <<< (off / 2 * 2 % 32)) == 0#32

/-- the order loop of `mark_page_free`: `n` orders are left, the first of them is `j` -/
def freeOrders : Nat → Nat → Nat → (Nat → Nat → BitVec 8) → (Nat → Nat → BitVec 8)
  | 0, _, _, bitmap => bitmap
  | n + 1, j, off, bitmap =>
    let bitmap := Function.update bitmap j (clear (bitmap j) off)
    if buddyTest (bitmap j) off then freeOrders n (j + 1) (off / 2) bitmap else bitmap

/-- the order loop of `mark_page_used` -/
def usedOrders : Nat → Nat → Nat → (Nat → Nat → BitVec 8) → (Nat → Nat → BitVec 8)
  | 0, _, _, bitmap => bitmap
  | n + 1, j, off, bitmap =>
    if get (bitmap j) off then bitmap
    else usedOrders n (j + 1) (off / 2) (Function.update bitmap j (set (bitmap j) off))

theorem freeOrders_succ (n j o : Nat) (bitmap : Nat → Nat → BitVec 8) :
    freeOrders (n + 1) j o bitmap =
      if buddyTest (Function.update bitmap j (clear (bitmap j) o) j) o then
        freeOrders n (j + 1) (o / 2) (Function.update bitmap j (clear (bitmap j) o))
      else Function.update bitmap j (clear (bitmap j) o) := rfl

theorem freeOrders_below (n j o i : Nat) (bitmap : Nat → Nat → BitVec 8) (hi : i < j) :
    freeOrders n j o bitmap i = bitmap i := by
  induction n generalizing j o bitmap with
  | zero => rfl
  | succ n ih =>
    rw [freeOrders_succ]
    split
    · rw [ih (j + 1) (o / 2) _ (by omega), Function.update_of_ne (by omega)]
    · rw [Function.update_of_ne (by omega)]

def PhysicalMemoryBlock.free (mblock : PhysicalMemoryBlock) (off : Nat) : PhysicalMemoryBlock :=
  { mblock with bitmap := freeOrders PMB_MAX_ORDER 0 off mblock.bitmap }

def PhysicalMemoryBlock.use (mblock : PhysicalMemoryBlock) (off : Nat) : PhysicalMemoryBlock :=
  { mblock with bitmap := usedOrders PMB_MAX_ORDER 0 off mblock.bitmap }

/-- the block that a page belongs to -/
def blockOf (bs : List PhysicalMemoryBlock) (page : Nat) : Option PhysicalMemoryBlock :=
  bs.find? fun mblock => mblock.covers page

/-- a property of all blocks survives a marking if the marked block has it -/
theorem forall_onBlock (Q : PhysicalMemoryBlock → Prop)
    (f : PhysicalMemoryBlock → Nat → PhysicalMemoryBlock) (page : Nat)
    (bs : List PhysicalMemoryBlock) (h : ∀ b ∈ bs, Q b) :
    (∀ b ∈ onBlock f page bs, Q b) ↔ ∀ b, blockOf bs page = some b → Q (f b (b.offset page)) := by
  induction bs with
  | nil => simp [onBlock, blockOf]
  | cons b bs ih =>
    have hb := h b (List.mem_cons_self ..)
    have ih' := ih (fun b' h' => h b' (List.mem_cons_of_mem _ h'))
    unfold onBlock blockOf
    rw [List.find?_cons]
    by_cases hc : b.covers page = true
    · rw [if_pos hc, hc]
      constructor
      · intro hall b' hb'
        rw [← Option.some.inj hb']
        exact hall _ (List.mem_cons_self ..)
      · intro hq b' hb'
        rcases List.mem_cons.mp hb' with e | e
        · rw [e]; exact hq b rfl
        · exact h b' (List.mem_cons_of_mem _ e)
    · have hc' : b.covers page = false := by simpa using hc
      rw [if_neg hc, hc']
      constructor
      · intro hall
        exact ih'.mp (fun b' h' => hall b' (List.mem_cons_of_mem _ h'))
      · intro hq b' hb'
        rcases List.mem_cons.mp hb' with e | e
        · rw [e]; exact hb
        · exact ih'.mpr hq b' e

theorem covers_npages {b : PhysicalMemoryBlock} {page : Nat} (h : b.covers page = true) :
    b.npages ≠ 0 := by
  unfold PhysicalMemoryBlock.covers at h
  simp only [Bool.and_eq_true, decide_eq_true_eq] at h
  intro e
  have h2 := h.2
  rw [e, Nat.zero_mul, Nat.add_zero] at h2
  have := Nat.mod_le b.base (2^64)
  omega

theorem blockOf_covers {bs : List PhysicalMemoryBlock} {page : Nat} {b : PhysicalMemoryBlock}
    (h : blockOf bs page = some b) : b.covers page = true := by
  unfold blockOf at h
  have hs := List.find?_some h
  exact hs

def markPageFree (alloc : PhysicalMemoryAllocator) (page : Nat) : PhysicalMemoryAllocator :=
  { alloc with
    blocks := onBlock .free page alloc.blocks
    count := (length_onBlock _ _ _).trans alloc.count }

def markPageUsed (alloc : PhysicalMemoryAllocator) (page : Nat) : PhysicalMemoryAllocator :=
  { alloc with
    blocks := onBlock .use page alloc.blocks
    count := (length_onBlock _ _ _).trans alloc.count }

/-! ## handing out and taking back pages -/

/-- the word loop of `alloc_phys_pages`: index of the first clear order-0 bit of a block -/
def PhysicalMemoryBlock.findClear (mblock : PhysicalMemoryBlock) : Option Nat :=
  (List.range ((mblock.npages + 63) / 64)).findSome? fun j =>
    let tmp := word (mblock.bitmap 0) j
    if tmp ≠ 0xffffffffffffffff#64 then
      ((List.range 64).find? fun k => !tmp.getLsbD k).map fun k => j * 64 + k
    else none

/-- `mark_page_used(page); alloc->pages_free--;` -/
def takePage (alloc : PhysicalMemoryAllocator) (page : Nat) : PhysicalMemoryAllocator :=
  { markPageUsed alloc page with pagesFree := (alloc.pagesFree + (2^64 - 1)) % 2^64 }

/-- the block loop of `alloc_phys_pages` -/
def allocFrom (alloc : PhysicalMemoryAllocator) :
    List PhysicalMemoryBlock → Option (Nat × PhysicalMemoryAllocator)
  | [] => none
  | mblock :: rest =>
    if mblock.npages = 0 then some (BADPAGE, alloc)
    else
      match mblock.findClear with
      | some off =>
        let page := (mblock.base + off * PAGESIZE) % 2^64
        some (page, takePage alloc page)
      | none => allocFrom alloc rest

def allocPhysPages (alloc : PhysicalMemoryAllocator) (npages : Int) :
    Option (Nat × PhysicalMemoryAllocator) :=
  if npages ≠ 1 then some (BADPAGE, alloc) else allocFrom alloc alloc.blocks

def allocPhys (alloc : PhysicalMemoryAllocator) (size : Nat) :
    Option (Nat × PhysicalMemoryAllocator) :=
  allocPhysPages alloc (CInt.toInt ((size + PAGESIZE - 1) % 2^64 / PAGESIZE))

def freePhysPages (alloc : PhysicalMemoryAllocator) (page npages : Nat) : PhysicalMemoryAllocator :=
  let freed := (List.range npages).foldl
    (fun alloc i => markPageFree alloc ((page + i * PAGESIZE) % 2^64)) alloc
  { freed with pagesFree := (freed.pagesFree + npages) % 2^64 }

def freePhys (alloc : PhysicalMemoryAllocator) (page size : Nat) : PhysicalMemoryAllocator :=
  freePhysPages alloc page (pageCount size)

end FuseeOS
