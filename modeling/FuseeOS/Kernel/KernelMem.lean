import FuseeOS.Kernel.Heap
import FuseeOS.Kernel.KernelHalf
import FuseeOS.Kernel.Translate

/-!
# The kernel's own memory

Loads and stores at virtual addresses, through the tables that are running, and the machine as the
memory of the heap.

* `loadWord_leaf`, `storeWord_leaf`   an access to a mapped page reaches the word in its frame;
* `DataSet.same`                      a write that is not to a table changes no translation;
* `kmalloc_keeps`                     what mapping and writing keep, `kmalloc` keeps.
-/

namespace FuseeOS
open Radix

/-- the frame that an address lies in -/
def Translation.frame (t : Translation) : Nat := t.addr - t.addr % 4096

/-- the word of the frame -/
def Translation.word (t : Translation) : Fin 512 := ⟨t.addr % 4096 / 8, by omega⟩

/-- A load of 64 bits at an aligned address.  The kernel's headers are aligned; other addresses have no
result here. -/
def loadWord (m : Machine) (va : Nat) : Option (BitVec 64) :=
  if va % 8 = 0 then (translate m.mem m.cpuCr3 va).map fun t => m.mem t.frame t.word else none

/-- A store of 64 bits at an aligned address.  `CR0.WP` is clear: the kernel writes to pages that are
not writable as well. -/
def storeWord (m : Machine) (va : Nat) (w : BitVec 64) : Option Machine :=
  if va % 8 = 0 then (translate m.mem m.cpuCr3 va).map fun t => m.setWord t.frame t.word w else none

def loadByte (m : Machine) (va : Nat) : Option (BitVec 8) :=
  (translate m.mem m.cpuCr3 va).map fun t => (m.mem t.frame t.word).extractLsb' (8 * (t.addr % 8)) 8

/-- byte `k` of a word -/
def setByte (w : BitVec 64) (k : Nat) (b : BitVec 8) : BitVec 64 :=
  w &&& ~~~(0xff#64 <<< (8 * k)) ||| b.setWidth 64 <<< (8 * k)

def storeByte (m : Machine) (va : Nat) (b : BitVec 8) : Option Machine :=
  (translate m.mem m.cpuCr3 va).map fun t =>
    m.setWord t.frame t.word (setByte (m.mem t.frame t.word) (t.addr % 8) b)

/-- the loop of `memcpy`: `n` bytes are left, the first of them is byte `i` -/
def memcpy (dst src : Nat) : Nat → Nat → Machine → Option Machine
  | 0, _, m => some m
  | n + 1, i, m => do
    let b ← loadByte m ((src + i) % 2^64)
    let m ← storeByte m ((dst + i) % 2^64) b
    memcpy dst src n (i + 1) m

/-- the machine under the heap -/
def machineVM : KernelVM Machine where
  load := loadWord
  store := storeWord
  kmapanon := kmapanon
  kunmapanon := kunmapanon

theorem machineVM_load : machineVM.load = loadWord := rfl
theorem machineVM_store : machineVM.store = storeWord := rfl
theorem machineVM_kmapanon : machineVM.kmapanon = kmapanon := by rw [machineVM]
theorem machineVM_kunmapanon : machineVM.kunmapanon = kunmapanon := by rw [machineVM]

/-! ## one access -/

section
variable {m m' : Machine} {R : Nat → Prop} {va : Nat} {w e : BitVec 64}

/-- the translation of an address in a mapped page -/
theorem translate_page (hpl : PlainOn R m) (hv : R (va / 4096)) (hc : canonical va)
    (hl : leaf m (va / 4096) = some e) : ∃ t, translate m.mem m.cr3 va = some t ∧
      t.addr = frameOf e + va % 4096 ∧ t.frame = frameOf e ∧ t.word.val = va % 4096 / 8 := by
  obtain ⟨e₁, h₁⟩ := entryOf_isSome hl (show 1 ≤ 3 by decide)
  obtain ⟨e₂, h₂⟩ := entryOf_isSome hl (show 2 ≤ 3 by decide)
  obtain ⟨e₃, h₃⟩ := entryOf_isSome hl (show 3 ≤ 3 by decide)
  have hmod := frameOf_mod e
  refine ⟨_, translate_leaf hpl hv hc h₃ h₂ h₁ hl, rfl, ?_, ?_⟩
  · unfold Translation.frame
    dsimp only
    omega
  · unfold Translation.word
    dsimp only
    omega

variable (hpl : PlainOn R m) (hcpu : m.cpuCr3 = m.cr3) (hv : R (va / 4096)) (hc : canonical va)
include hpl hcpu hv hc

/-- **An access to a mapped page reaches the word in its frame.** -/
theorem loadWord_leaf (h8 : va % 8 = 0) (hl : leaf m (va / 4096) = some e) :
    loadWord m va = some (m.mem (frameOf e) ⟨va % 4096 / 8, by omega⟩) := by
  obtain ⟨t, ht, -, hf, hw⟩ := translate_page hpl hv hc hl
  unfold loadWord
  rw [if_pos h8, hcpu, ht, Option.map_some, hf]
  exact congrArg (fun i => some (m.mem (frameOf e) i)) (Fin.ext hw)

theorem storeWord_leaf (h8 : va % 8 = 0) (hl : leaf m (va / 4096) = some e) (w : BitVec 64) :
    storeWord m va w = some (m.setWord (frameOf e) ⟨va % 4096 / 8, by omega⟩ w) := by
  obtain ⟨t, ht, -, hf, hw⟩ := translate_page hpl hv hc hl
  unfold storeWord
  rw [if_pos h8, hcpu, ht, Option.map_some, hf]
  exact congrArg (fun i => some (m.setWord (frameOf e) i w)) (Fin.ext hw)

end

/-! ## writing data -/

/-- words of page `f` were written -/
structure DataSet (m : Machine) (f : Nat) (m' : Machine) : Prop where
  regs : SameRegs m m'
  pmem : m'.pmem = m.pmem
  other : ∀ g, g ≠ f → m'.mem g = m.mem g

section
variable {m m' : Machine} {R : Nat → Prop} {f : Nat}

theorem dataSet_setWord (m : Machine) (f : Nat) (i : Fin 512) (w : BitVec 64) :
    DataSet m f (m.setWord f i w) :=
  ⟨⟨rfl, rfl, rfl, rfl⟩, rfl, fun _ hg => setWord_node_ne _ _ _ hg⟩

variable (h : DataSet m f m') (hf : ¬ m.IsTable f)
include h hf

/-- **A write that is not to a table leaves the tables alone.** -/
theorem DataSet.same : SameTables m m' where
  regs := h.regs
  mem g hg := h.other g fun e => hf (e ▸ hg)

theorem DataSet.tables (ht : Tables m) : Tables m' :=
  (h.same hf).tables ht (by rw [h.pmem]; exact ht.pmem) (fun q hq => by rwa [h.pmem] at hq)
    fun q hq => by rwa [h.pmem] at hq

theorem DataSet.leaf (v : Nat) : FuseeOS.leaf m' v = FuseeOS.leaf m v :=
  (h.same hf).entry _ _ length_stem_le

theorem DataSet.isTable (t : Nat) : m'.IsTable t ↔ m.IsTable t := isTable_congr (h.same hf).node t

end

/-- what mapping and writing keep, `kmalloc` keeps -/
theorem kmalloc_keeps {σ : Type} {V : KernelVM σ} {P : σ → Prop}
    (hstore : ∀ vm a w vm', P vm → V.store vm a w = some vm' → P vm')
    (hmap : ∀ vm a n prot vm', P vm → V.kmapanon vm a n prot = some vm' → P vm') {s s' : Heap σ}
    {size addr : Nat} (h : P s.vm) (e : kmalloc V s size = some (addr, s')) : P s'.vm := by
  have hup {vm vm' : σ} {blk : Nat} {f : BitVec 64 → BitVec 64} (hp : P vm)
      (e : updateHeader V vm blk f = some vm') : P vm' := by
    obtain ⟨w, -, e⟩ := Option.bind_eq_some_iff.mp e
    exact hstore _ _ _ _ hp e
  obtain ⟨best, -, e⟩ := Option.bind_eq_some_iff.mp e
  cases best with
  | some b =>
    obtain ⟨vm, e', e⟩ := Option.bind_eq_some_iff.mp e
    obtain ⟨-, rfl⟩ := Prod.mk.inj (Option.some.inj e)
    exact hup h e'
  | none =>
    obtain ⟨vm₁, e₁, e⟩ := Option.bind_eq_some_iff.mp e
    obtain ⟨vm₂, e₂, e⟩ := Option.bind_eq_some_iff.mp e
    obtain ⟨vm₃, e₃, e⟩ := Option.bind_eq_some_iff.mp e
    obtain ⟨-, rfl⟩ := Prod.mk.inj (Option.some.inj e)
    exact hup (hup (hmap _ _ _ _ _ h e₁) e₂) e₃

end FuseeOS
