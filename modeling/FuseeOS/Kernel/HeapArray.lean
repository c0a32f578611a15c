import FuseeOS.Kernel.HeapRun
import FuseeOS.Kernel.Sched

/-!
# Arrays in the heap

`common/array.c` over `kmalloc.c`: an `Array` is three words, and its cells are words of a block of
the heap.  The cells of all arrays of the kernel are 8 bytes long.

* `HeapWf.write`           a store to a live block keeps the heap in order;
* `memcpyWords_spec`       what `memcpy` from one live block to another one does;
* `HeapArray.Sim`          an array of the heap and the list of its cells;
* `HeapArray.Sim.push`     appending, with or without growth, is the same on both sides, and no
                           other block of the heap changes.
-/

namespace FuseeOS
open Tiling StepRun

/-- `Array` -/
structure HeapArray where
  data : Nat
  size : Nat
  capacity : Nat

section
variable {σ : Type} (V : KernelVM σ)

def heapArrayInit (s : Heap σ) (elementSize capacity : Nat) : Option (HeapArray × Heap σ) := do
  let (data, s) ← kmalloc V s (elementSize * capacity % 2^64)
  return (⟨data, 0, capacity⟩, s)

/-- `memcpy` of `n` words -/
def memcpyWords (vm : σ) (dst src : Nat) : Nat → Option σ
  | 0 => some vm
  | n + 1 => do
    let w ← V.load vm src
    let vm ← V.store vm dst w
    memcpyWords vm ((dst + 8) % 2^64) ((src + 8) % 2^64) n

/-- the capacity of an array that is full, when it has grown -/
def HeapArray.grownCapacity (array : HeapArray) : Nat := (array.capacity + array.capacity / 2) % 2^64

/-- the argument of `kmalloc` in `array_emplace` -/
def HeapArray.grownBytes (array : HeapArray) (elementSize : Nat) : Nat :=
  array.grownCapacity * elementSize % 2^64

/-- the end of `array_emplace`: the address of the next cell -/
def nextCell (s : Heap σ) (array : HeapArray) (elementSize : Nat) : Nat × HeapArray × Heap σ :=
  ((array.data + array.size * elementSize) % 2^64, { array with size := (array.size + 1) % 2^64 }, s)

def arrayEmplace (s : Heap σ) (array : HeapArray) (elementSize : Nat) : Option (Nat × HeapArray × Heap σ) :=
  if array.size < array.capacity then some (nextCell s array elementSize)
  else do
    let (data, s) ← kmalloc V s (array.grownBytes elementSize)
    let vm ← memcpyWords V s.vm data array.data (array.capacity * elementSize % 2^64 / 8)
    return nextCell { s with vm := vm } ⟨data, array.size, array.grownCapacity⟩ elementSize

/-- `*ARRAY_EMPLACE(array) = x` -/
def arrayPush (s : Heap σ) (array : HeapArray) (elementSize : Nat) (x : BitVec 64) :
    Option (HeapArray × Heap σ) := do
  let (p, array, s) ← arrayEmplace V s array elementSize
  let vm ← V.store s.vm p x
  return (array, { s with vm := vm })

/-- **What appending does to the array**: it is full, or it is not. -/
theorem arrayPush_cases {s s' : Heap σ} {array array' : HeapArray} {elementSize : Nat} {x : BitVec 64}
    (e : arrayPush V s array elementSize x = some (array', s')) :
    (array.size < array.capacity ∧ array' = { array with size := (array.size + 1) % 2^64 } ∧
      s'.heapSize = s.heapSize) ∨
    (¬ array.size < array.capacity ∧ ∃ data heap, kmalloc V s (array.grownBytes elementSize) = some (data, heap) ∧
      array' = ⟨data, (array.size + 1) % 2^64, array.grownCapacity⟩ ∧ s'.heapSize = heap.heapSize) := by
  unfold arrayPush at e
  obtain ⟨⟨p, array₁, s₁⟩, e₁, e⟩ := Option.bind_eq_some_iff.mp e
  obtain ⟨vm, -, e⟩ := Option.bind_eq_some_iff.mp e
  obtain ⟨rfl, rfl⟩ := Prod.mk.inj (Option.some.inj e)
  unfold arrayEmplace at e₁
  by_cases hlt : array.size < array.capacity
  · rw [if_pos hlt] at e₁
    simp only [nextCell, Option.some.injEq, Prod.mk.injEq] at e₁
    obtain ⟨-, rfl, rfl⟩ := e₁
    exact .inl ⟨hlt, rfl, rfl⟩
  · rw [if_neg hlt] at e₁
    obtain ⟨⟨data, heap⟩, ek, e₁⟩ := Option.bind_eq_some_iff.mp e₁
    obtain ⟨vm', -, e₁⟩ := Option.bind_eq_some_iff.mp e₁
    simp only [nextCell, pure, Option.some.injEq, Prod.mk.injEq] at e₁
    obtain ⟨-, rfl, rfl⟩ := e₁
    exact .inr ⟨hlt, data, heap, ek, rfl, rfl⟩

/-- the live allocations when `array` has become `array'`: a block that was too small stays -/
def arrayLive (live : List (Nat × Nat)) (array array' : HeapArray) (elementSize : Nat) : List (Nat × Nat) :=
  if array.size < array.capacity then live else (array'.data, array.grownBytes elementSize) :: live

end

/-! ## words of live blocks -/

section
variable {σ : Type} {V : KernelVM σ} {Maps : σ → Nat → Prop} {MapOk UnmapOk : σ → Nat → Nat → Prop}
  {s s' : HeapState σ} {bs : List Blk} {y z : Nat × Nat} {a p : Nat}

/-- where a live block lies -/
theorem HeapWf.range (h : HeapWf V Maps s bs) (hy : y ∈ s.live) :
    HEAP_BASE ≤ y.1 ∧ y.1 + y.2 ≤ HEAP_BASE + s.heap.heapSize ∧ y.1 % 8 = 0 := by
  obtain ⟨x, hx, hp, hlen⟩ := h.blocks.payload y hy
  obtain ⟨h1, h2, -, -, -⟩ := h.toHeapTiles.range hx
  have h32 := h.blocks.aligned y hy
  omega

/-- a word of a live block is a word of the heap -/
theorem HeapWf.inHeap (h : HeapWf V Maps s bs) (hy : y ∈ s.live) (h8 : a % 8 = 0) (hlo : y.1 ≤ a)
    (hhi : a < y.1 + y.2) : InHeap s.heap.heapSize a := by
  obtain ⟨h1, h2, -⟩ := h.range hy
  exact ⟨h8, by omega, by omega⟩

/-- two live blocks lie apart -/
theorem HeapWf.apart (h : HeapWf V Maps s bs) (hy : y ∈ s.live) (hz : z ∈ s.live) (hne : y.1 ≠ z.1) :
    y.1 + y.2 ≤ z.1 ∨ z.1 + z.2 ≤ y.1 := by
  have hsymm : Std.Symm fun y z : Nat × Nat => y.1 + y.2 ≤ z.1 ∨ z.1 + z.2 ≤ y.1 := ⟨fun _ _ hr => hr.symm⟩
  exact h.blocks.apart.forall hy hz fun e => hne (congrArg Prod.fst e)

/-- **A store to a live block keeps the heap in order.** -/
theorem HeapWf.write (hV : HeapVM V Maps MapOk UnmapOk) (h : HeapWf V Maps s bs) (hy : y ∈ s.live)
    (h8 : a % 8 = 0) (hlo : y.1 ≤ a) (hhi : a + 8 ≤ y.1 + y.2) (w : BitVec 64) :
    ∃ vm, V.store s.heap.vm a w = some vm ∧ HeapWf V Maps ⟨⟨vm, s.heap.heapSize⟩, s.live⟩ bs ∧
      ∀ b, InHeap s.heap.heapSize b → V.load vm b = if b = a then some w else V.load s.heap.vm b := by
  obtain ⟨vm, e, hm, hl⟩ := hV.store _ _ a w h.maps (h.inHeap hy h8 hlo (by omega))
  refine ⟨vm, e, ⟨⟨⟨fun x hx => ?_, h.size, h.pages, h.bound⟩, h.last⟩, hm, h.live⟩, hl⟩
  have hne : x.1 ≠ a := by
    have hap := h.blocks.headersApart y hy x hx
    unfold HEADER at hap
    omega
  show V.load vm x.1 = _
  rw [hl _ (h.toHeapTiles.inHeap hx), if_neg hne]
  exact h.headers x hx

/-- every live block but the one at `p` stays, with its words -/
def KeepsBut (V : KernelVM σ) (p : Nat) (s s' : HeapState σ) : Prop :=
  ∀ y ∈ s.live, y.1 ≠ p → y ∈ s'.live ∧
    ∀ a, a % 8 = 0 → y.1 ≤ a → a < y.1 + y.2 → V.load s'.heap.vm a = V.load s.heap.vm a

theorem KeepsBut.refl (p : Nat) (s : HeapState σ) : KeepsBut V p s s := fun _ hy _ => ⟨hy, fun _ _ _ _ => rfl⟩

theorem KeepsBut.trans {s₁ s₂ s₃ : HeapState σ} (h : KeepsBut V p s₁ s₂) (h' : KeepsBut V p s₂ s₃) :
    KeepsBut V p s₁ s₃ := by
  intro y hy hne
  obtain ⟨hy₂, hw⟩ := h y hy hne
  obtain ⟨hy₃, hw'⟩ := h' y hy₂ hne
  exact ⟨hy₃, fun a h8 hlo hhi => (hw' a h8 hlo hhi).trans (hw a h8 hlo hhi)⟩

/-- a call keeps all blocks but the one it frees -/
theorem HeapKeeps.but {op : HeapOp} (h : HeapKeeps V s op s') (hp : ∀ q, op = .kfree q → q = p) :
    KeepsBut V p s s' := by
  obtain ⟨hlive, hwords⟩ := h
  intro y hy hne
  have hop : op ≠ .kfree y.1 := fun e => hne (hp _ e)
  obtain ⟨w, -, hlen, -, hsame⟩ := hwords y hy hop
  refine ⟨?_, fun a h8 hlo hhi => hsame a h8 (Nat.le_trans (Nat.sub_le _ _) hlo) (by omega)⟩
  cases op with
  | kmalloc size =>
    obtain ⟨q, e⟩ := hlive
    rw [e]
    exact List.mem_cons_of_mem _ hy
  | kfree q =>
    have e : s'.live = s.live.filter fun z => z.1 ≠ q := hlive
    rw [e]
    exact List.mem_filter.mpr ⟨hy, by simpa [hp q rfl] using hne⟩

/-- when no word changes but those of the block at `y.1`, the others are kept -/
theorem HeapWf.keepsBut (h : HeapWf V Maps s bs) (hy : y ∈ s.live) {vm : σ}
    (hl : ∀ b, InHeap s.heap.heapSize b → b < y.1 ∨ y.1 + y.2 ≤ b → V.load vm b = V.load s.heap.vm b) :
    KeepsBut V y.1 s ⟨⟨vm, s.heap.heapSize⟩, s.live⟩ := by
  intro z hz hne
  refine ⟨hz, fun b h8 hlo hhi => ?_⟩
  have hap := h.apart hz hy hne
  exact hl b (h.inHeap hz h8 hlo hhi) (by omega)

/-! ## memcpy -/

/-- **`memcpy` from one live block to another one** -/
theorem memcpyWords_spec (hV : HeapVM V Maps MapOk UnmapOk) {dst src n : Nat} (h : HeapWf V Maps s bs)
    (hy : y ∈ s.live) (hz : z ∈ s.live) (hne : y.1 ≠ z.1) (hd8 : dst % 8 = 0) (hs8 : src % 8 = 0)
    (hd : y.1 ≤ dst ∧ dst + 8 * n ≤ y.1 + y.2) (hs : z.1 ≤ src ∧ src + 8 * n ≤ z.1 + z.2) :
    ∃ vm, memcpyWords V s.heap.vm dst src n = some vm ∧
      HeapWf V Maps ⟨⟨vm, s.heap.heapSize⟩, s.live⟩ bs ∧
      (∀ i < n, V.load vm (dst + 8 * i) = V.load s.heap.vm (src + 8 * i)) ∧
      ∀ b, InHeap s.heap.heapSize b → b < dst ∨ dst + 8 * n ≤ b → V.load vm b = V.load s.heap.vm b := by
  induction n generalizing s dst src with
  | zero => exact ⟨s.heap.vm, rfl, h, fun i hi => absurd hi (Nat.not_lt_zero i), fun _ _ _ => rfl⟩
  | succ n ih =>
    obtain ⟨-, hyend, -⟩ := h.range hy
    obtain ⟨-, hzend, -⟩ := h.range hz
    have hbound := h.bound
    have hap := h.apart hy hz hne
    have hin {i : Nat} (hi : i < n + 1) : InHeap s.heap.heapSize (src + 8 * i) :=
      h.inHeap hz (by omega) (by omega) (by omega)
    have hdst : InHeap s.heap.heapSize dst := h.inHeap hy hd8 hd.1 (by omega)
    obtain ⟨w, hw⟩ := hV.load _ _ src h.maps (hin (Nat.succ_pos n))
    obtain ⟨vm₁, e₁, h₁, hl₁⟩ := h.write hV hy hd8 hd.1 (by omega) w
    have hd8' : (dst + 8) % 8 = 0 := by omega
    have hs8' : (src + 8) % 8 = 0 := by omega
    obtain ⟨vm, e, h', hcopy, hrest⟩ := ih h₁ hy hz hd8' hs8' (by omega) (by omega)
    refine ⟨vm, ?_, h', fun i hi => ?_, fun b hb hout => ?_⟩
    · rw [memcpyWords, hw, Option.bind_eq_bind, Option.bind_some, e₁, Option.bind_eq_bind, Option.bind_some,
        Nat.mod_eq_of_lt (by omega), Nat.mod_eq_of_lt (by omega)]
      exact e
    · cases i with
      | zero =>
        rw [Nat.mul_zero, Nat.add_zero, Nat.add_zero, hrest dst hdst (by omega), hl₁ dst hdst, if_pos rfl, hw]
      | succ i =>
        have hsrc : src + 8 * (i + 1) ≠ dst := by omega
        have hc := hcopy i (by omega)
        rw [show dst + 8 * (i + 1) = dst + 8 + 8 * i by omega, hc,
          show src + 8 + 8 * i = src + 8 * (i + 1) by omega, hl₁ _ (hin hi), if_neg hsrc]
    · rw [hrest b hb (by omega), hl₁ b hb, if_neg (by omega)]

/-! ## an array and its cells -/

/-- the array `array` of the heap has the size, the capacity and the cells of `a` -/
structure HeapArray.Sim (V : KernelVM σ) (s : HeapState σ) (array : HeapArray) (a : CArray ProcPtr) : Prop where
  size : array.size = a.size
  capacity : array.capacity = a.capacity
  live : (array.data, 8 * a.capacity) ∈ s.live
  cells : a.data.length = a.capacity
  words : ∀ i x, a.data[i]? = some (some x) →
    x < 2^64 ∧ V.load s.heap.vm (array.data + 8 * i) = some (BitVec.ofNat 64 x)

variable {array : HeapArray} {c : CArray ProcPtr} {xs : List ProcPtr}

/-- an array whose block is kept -/
theorem HeapArray.Sim.kept (h : array.Sim V s c) (hw : HeapWf V Maps s bs) (hk : KeepsBut V p s s')
    (hne : array.data ≠ p) : array.Sim V s' c := by
  obtain ⟨hlive, hwords⟩ := hk _ h.live hne
  obtain ⟨-, -, h8⟩ := hw.range h.live
  refine ⟨h.size, h.capacity, hlive, h.cells, fun i x hi => ?_⟩
  obtain ⟨hx, hl⟩ := h.words i x hi
  obtain ⟨hlt, -⟩ := List.getElem?_eq_some_iff.mp hi
  rw [h.cells] at hlt
  have h8' : array.data % 8 = 0 := h8
  refine ⟨hx, (hwords _ (by omega) (Nat.le_add_right _ _) ?_).trans hl⟩
  show array.data + 8 * i < array.data + 8 * c.capacity
  omega

/-- a cell is read -/
theorem HeapArray.Sim.load (h : array.Sim V s c) {i : Nat} {x : ProcPtr} (e : c.load i = some x) :
    x < 2^64 ∧ V.load s.heap.vm (array.data + 8 * i) = some (BitVec.ofNat 64 x) := by
  refine h.words i x ?_
  unfold CArray.load at e
  exact Option.join_eq_some_iff.mp e

/-- the address of a cell does not wrap -/
theorem HeapArray.Sim.cell (h : array.Sim V s c) (hw : HeapWf V Maps s bs) {i : Nat} (hi : i < c.capacity) :
    (array.data + i * PTR_SIZE) % 2^64 = array.data + 8 * i := by
  obtain ⟨-, hend, -⟩ := hw.range h.live
  have hend' : array.data + 8 * c.capacity ≤ HEAP_BASE + s.heap.heapSize := hend
  have hb := hw.bound
  unfold PTR_SIZE
  omega

/-- a cell is written -/
theorem HeapArray.Sim.store (hV : HeapVM V Maps MapOk UnmapOk) (h : array.Sim V s c) (hw : HeapWf V Maps s bs)
    {i : Nat} (hi : i < c.capacity) {x : ProcPtr} (hx : x < 2^64) :
    ∃ vm, V.store s.heap.vm (array.data + 8 * i) (BitVec.ofNat 64 x) = some vm ∧
      HeapWf V Maps ⟨⟨vm, s.heap.heapSize⟩, s.live⟩ bs ∧
      array.Sim V ⟨⟨vm, s.heap.heapSize⟩, s.live⟩ { c with data := c.data.set i (some x) } ∧
      KeepsBut V array.data s ⟨⟨vm, s.heap.heapSize⟩, s.live⟩ := by
  obtain ⟨-, -, h8⟩ := hw.range h.live
  have h8' : array.data % 8 = 0 := h8
  have hhi {j : Nat} (hj : j < c.capacity) : array.data + 8 * j + 8 ≤ array.data + 8 * c.capacity := by omega
  obtain ⟨vm, e, hw', hl⟩ := hw.write hV h.live (a := array.data + 8 * i) (by omega) (Nat.le_add_right _ _)
    (hhi hi) (BitVec.ofNat 64 x)
  refine ⟨vm, e, hw', ⟨h.size, h.capacity, h.live, ?_, fun j y hj => ?_⟩,
    hw.keepsBut h.live fun b hb hout => ?_⟩
  · exact (List.length_set ..).trans h.cells
  · have hj' : (c.data.set i (some x))[j]? = some (some y) := hj
    obtain ⟨hlt, -⟩ := List.getElem?_eq_some_iff.mp hj'
    rw [List.length_set, h.cells] at hlt
    have hin := hw.inHeap h.live (a := array.data + 8 * j) (by omega) (Nat.le_add_right _ _)
      (Nat.lt_of_lt_of_le (Nat.lt_add_of_pos_right (by decide)) (hhi hlt))
    show y < 2^64 ∧ V.load vm (array.data + 8 * j) = _
    rw [hl _ hin]
    by_cases hij : i = j
    · subst hij
      rw [List.getElem?_set_self (h.cells ▸ hlt), Option.some.injEq, Option.some.injEq] at hj'
      rw [if_pos rfl, ← hj']
      exact ⟨hx, rfl⟩
    · rw [List.getElem?_set_ne hij] at hj'
      rw [if_neg (by omega)]
      exact h.words j y hj'
  · have hend := hhi hi
    have hout' : b < array.data ∨ array.data + 8 * c.capacity ≤ b := hout
    rw [hl b hb, if_neg (by omega)]

/-- a block is handed out: the others are kept -/
theorem HeapWf.allocated (hV : HeapVM V Maps MapOk UnmapOk) (h : HeapWf V Maps s bs) {size : Nat}
    (hok : ResizeOk V MapOk UnmapOk s (.kmalloc size)) :
    ∃ p heap bs', FuseeOS.kmalloc V s.heap size = some (p, heap) ∧
      HeapWf V Maps ⟨heap, (p, size) :: s.live⟩ bs' ∧ p ∉ s.live.map Prod.fst ∧
      ∀ q, KeepsBut V q s ⟨heap, (p, size) :: s.live⟩ := by
  obtain ⟨s', bs', e, hk, hw⟩ := heap_step hV h (show HeapLegal s (.kmalloc size) from trivial) hok
  have hk' (q : Nat) : KeepsBut V q s s' := hk.but fun q' e => HeapOp.noConfusion e
  have e' : (FuseeOS.kmalloc V s.heap size).map
      (fun r => (⟨r.2, (r.1, size) :: s.live⟩ : HeapState σ)) = some s' := e
  obtain ⟨⟨p, heap⟩, er, rfl⟩ := Option.map_eq_some_iff.mp e'
  refine ⟨p, heap, bs', er, hw, ?_, hk'⟩
  have hnd := hw.live.nodup
  rw [List.map_cons, List.nodup_cons] at hnd
  exact hnd.1

/-- `kmalloc(elementSize * capacity)` for the arrays of the kernel -/
theorem HeapArray.Sim.init (hV : HeapVM V Maps MapOk UnmapOk) (h : HeapWf V Maps s bs)
    (hok : ResizeOk V MapOk UnmapOk s (.kmalloc 128)) :
    ∃ array heap bs', heapArrayInit V s.heap PTR_SIZE 16 = some (array, heap) ∧
      HeapWf V Maps ⟨heap, (array.data, 128) :: s.live⟩ bs' ∧ array.data ∉ s.live.map Prod.fst ∧
      array.Sim V ⟨heap, (array.data, 128) :: s.live⟩ (CArray.init ProcPtr PTR_SIZE 16) ∧
      ∀ q, KeepsBut V q s ⟨heap, (array.data, 128) :: s.live⟩ := by
  obtain ⟨p, heap, bs', e, hw, hnew, hk⟩ := h.allocated hV hok
  refine ⟨⟨p, 0, 16⟩, heap, bs', ?_, hw, hnew, ⟨rfl, rfl, List.mem_cons_self .., rfl, fun i x hi => ?_⟩, hk⟩
  · unfold heapArrayInit
    rw [show PTR_SIZE * 16 % 2^64 = 128 from rfl, e]
    rfl
  · have hi' : (List.replicate 16 (none : Option ProcPtr))[i]? = some (some x) := hi
    obtain ⟨hlt, hx⟩ := List.getElem?_eq_some_iff.mp hi'
    rw [List.getElem_replicate] at hx
    cases hx

/-- the call of `kmalloc` in `array_init` -/
theorem HeapArray.Sim.init_step {heap : Heap σ} (e : heapArrayInit V s.heap PTR_SIZE 16 = some (array, heap)) :
    heapStep V s (.kmalloc 128) = some ⟨heap, (array.data, 128) :: s.live⟩ := by
  have e' : (FuseeOS.kmalloc V s.heap 128).bind (fun r => some ((⟨r.1, 0, 16⟩ : HeapArray), r.2)) =
      some (array, heap) := e
  obtain ⟨⟨p, heap'⟩, ek, er⟩ := Option.bind_eq_some_iff.mp e'
  rw [Option.some.injEq, Prod.mk.injEq] at er
  obtain ⟨rfl, rfl⟩ := er
  show (FuseeOS.kmalloc V s.heap 128).map _ = _
  rw [ek, Option.map_some]

/-- the capacity of a full array grows by half -/
theorem HeapArray.Sim.grownBytes (h : array.Sim V s c) (hc : c.Holds xs) :
    array.grownCapacity = c.capacity + c.capacity / 2 ∧
      array.grownBytes PTR_SIZE = 8 * (c.capacity + c.capacity / 2) := by
  have hsmall := hc.small
  have hcap := h.capacity
  unfold HeapArray.grownBytes HeapArray.grownCapacity PTR_SIZE
  omega

/-- the cells of a full array that has grown -/
theorem emplace_full (hc : c.Holds xs) (hfull : ¬ c.size < c.capacity) :
    c.emplace PTR_SIZE = some (c.size, ⟨c.data ++ List.replicate (c.capacity / 2) none, c.size + 1,
      c.capacity + c.capacity / 2⟩) := by
  have hsmall := hc.small
  have hfits := hc.fits
  have hsize := hc.size
  have hgrown : (c.capacity + c.capacity / 2) % 2^64 = c.capacity + c.capacity / 2 := by omega
  have hbytes : (c.capacity + c.capacity / 2) * 8 % 2^64 / 8 = c.capacity + c.capacity / 2 := by omega
  have hcopy : c.capacity * 8 % 2^64 / 8 = c.capacity := by omega
  have hsucc : (c.size + 1) % 2^64 = c.size + 1 := by omega
  unfold CArray.emplace PTR_SIZE kmallocCells memcpyCells
  rw [if_neg hfull]
  simp only [hgrown, hbytes, hcopy, hsucc]
  rw [if_pos ⟨by rw [List.length_replicate]; exact Nat.le_add_right _ _, hc.cells.ge⟩, Option.map_some,
    List.take_of_length_le hc.cells.le, List.drop_replicate, Nat.add_sub_cancel_left]

/-- **`array_emplace`**: the same cells, in a block that no other array has -/
theorem HeapArray.Sim.emplace (hV : HeapVM V Maps MapOk UnmapOk) (hw : HeapWf V Maps s bs) (h : array.Sim V s c)
    (hc : c.Holds xs)
    (hok : ¬ c.size < c.capacity → ResizeOk V MapOk UnmapOk s (.kmalloc (array.grownBytes PTR_SIZE)))
    {i : Nat} {c₁ : CArray ProcPtr} (e : c.emplace PTR_SIZE = some (i, c₁)) (hi : i < c₁.capacity) :
    ∃ array₁ heap bs₁, arrayEmplace V s.heap array PTR_SIZE = some (array₁.data + 8 * i, array₁, heap) ∧
      HeapWf V Maps ⟨heap, arrayLive s.live array array₁ PTR_SIZE⟩ bs₁ ∧
      array₁.Sim V ⟨heap, arrayLive s.live array array₁ PTR_SIZE⟩ c₁ ∧
      (array₁.data = array.data ∨ array₁.data ∉ s.live.map Prod.fst) ∧
      KeepsBut V array₁.data s ⟨heap, arrayLive s.live array array₁ PTR_SIZE⟩ := by
  have hcap := h.capacity
  have hsize := h.size
  unfold arrayEmplace arrayLive
  by_cases hlt : c.size < c.capacity
  · -- there is a cell left
    have hlt' : array.size < array.capacity := by omega
    unfold CArray.emplace at e
    rw [if_pos hlt, Option.some.injEq, Prod.mk.injEq] at e
    obtain ⟨rfl, rfl⟩ := e
    rw [if_pos hlt']
    refine ⟨{ array with size := (array.size + 1) % 2^64 }, s.heap, bs, ?_, ?_⟩
    · unfold nextCell
      rw [hsize, h.cell hw hlt]
    · rw [if_pos hlt']
      exact ⟨hw, ⟨congrArg (fun n => (n + 1) % 2^64) hsize, h.capacity, h.live, h.cells, h.words⟩, .inl rfl,
        KeepsBut.refl _ _⟩
  · -- the cells go to a new block
    have hlt' : ¬ array.size < array.capacity := by omega
    have hsmall := hc.small
    have hfits := hc.fits
    have hcsize := hc.size
    obtain ⟨hgrown, hbytes⟩ := h.grownBytes hc
    obtain ⟨p, heap, bs₁, em, hw₁, hnew, hk₁⟩ := hw.allocated hV (hok hlt)
    rw [emplace_full hc hlt, Option.some.injEq, Prod.mk.injEq] at e
    obtain ⟨rfl, rfl⟩ := e
    have hne : p ≠ array.data := by
      rintro rfl
      exact hnew (List.mem_map_of_mem h.live)
    have hp := List.mem_cons_self (a := (p, array.grownBytes PTR_SIZE)) (l := s.live)
    have h₁ : array.Sim V ⟨heap, (p, array.grownBytes PTR_SIZE) :: s.live⟩ c := h.kept hw (hk₁ p) hne.symm
    obtain ⟨-, hpend, hp8⟩ := hw₁.range hp
    obtain ⟨-, haend, ha8⟩ := hw₁.range h₁.live
    have hcopy : array.capacity * PTR_SIZE % 2^64 / 8 = c.capacity := by
      unfold PTR_SIZE
      omega
    obtain ⟨vm, ec, hw₂, hl, hrest⟩ := memcpyWords_spec hV (n := c.capacity) hw₁ hp h₁.live hne hp8 ha8
      ⟨Nat.le_refl p, by show p + _ ≤ p + array.grownBytes PTR_SIZE; omega⟩ ⟨Nat.le_refl _, Nat.le_refl _⟩
    have hk₂ : KeepsBut V p ⟨heap, (p, array.grownBytes PTR_SIZE) :: s.live⟩
        ⟨⟨vm, heap.heapSize⟩, (p, array.grownBytes PTR_SIZE) :: s.live⟩ := by
      refine hw₁.keepsBut hp fun b hb hout => hrest b hb ?_
      have hout' : b < p ∨ p + array.grownBytes PTR_SIZE ≤ b := hout
      show b < p ∨ p + 8 * c.capacity ≤ b
      omega
    refine ⟨⟨p, (array.size + 1) % 2^64, array.grownCapacity⟩, ⟨vm, heap.heapSize⟩, bs₁, ?_, ?_⟩
    · have ec' : memcpyWords V heap.vm p array.data c.capacity = some vm := ec
      have hend : p + array.grownBytes PTR_SIZE ≤ HEAP_BASE + heap.heapSize := hpend
      have hb : HEAP_BASE + heap.heapSize < 2^64 := hw₁.bound
      have haddr : (p + array.size * PTR_SIZE) % 2^64 = p + 8 * c.size := by
        unfold PTR_SIZE at *
        omega
      rw [if_neg hlt', em, Option.bind_eq_bind, Option.bind_some]
      simp only [hcopy, ec', Option.bind_eq_bind, Option.bind_some]
      unfold nextCell
      rw [haddr]
      rfl
    · rw [if_neg hlt']
      refine ⟨hw₂, ⟨?_, hgrown, ?_, ?_, fun j x hj => ?_⟩, .inr hnew, (hk₁ p).trans hk₂⟩
      · show (array.size + 1) % 2^64 = c.size + 1
        omega
      · show (p, 8 * (c.capacity + c.capacity / 2)) ∈ _
        rw [← hbytes]
        exact hp
      · show (c.data ++ List.replicate (c.capacity / 2) none).length = _
        rw [List.length_append, List.length_replicate, hc.cells]
      · have hj' : (c.data ++ List.replicate (c.capacity / 2) none)[j]? = some (some x) := hj
        by_cases hin : j < c.capacity
        · rw [List.getElem?_append_left (hc.cells ▸ hin)] at hj'
          obtain ⟨hx, hload⟩ := h₁.words j x hj'
          exact ⟨hx, (hl j hin).trans hload⟩
        · rw [List.getElem?_append_right (by rw [hc.cells]; omega)] at hj'
          obtain ⟨hlt₂, hx⟩ := List.getElem?_eq_some_iff.mp hj'
          rw [List.getElem_replicate] at hx
          cases hx

/-- **Appending**: the same on both sides, and no other block changes. -/
theorem HeapArray.Sim.push (hV : HeapVM V Maps MapOk UnmapOk) (hw : HeapWf V Maps s bs) (h : array.Sim V s c)
    (hc : c.Holds xs) (hlen : xs.length + 1 < 2^31) {x : ProcPtr} (hx : x < 2^64)
    (hok : ¬ c.size < c.capacity → ResizeOk V MapOk UnmapOk s (.kmalloc (array.grownBytes PTR_SIZE))) :
    ∃ array' heap bs' c', arrayPush V s.heap array PTR_SIZE (BitVec.ofNat 64 x) = some (array', heap) ∧
      c.push PTR_SIZE x = some c' ∧ c'.Holds (xs ++ [x]) ∧
      HeapWf V Maps ⟨heap, arrayLive s.live array array' PTR_SIZE⟩ bs' ∧
      array'.Sim V ⟨heap, arrayLive s.live array array' PTR_SIZE⟩ c' ∧
      (array'.data = array.data ∨ array'.data ∉ s.live.map Prod.fst) ∧
      KeepsBut V array'.data s ⟨heap, arrayLive s.live array array' PTR_SIZE⟩ := by
  obtain ⟨c', ec, hc'⟩ := hc.push (show 0 < PTR_SIZE by decide) (by decide) hlen x
  -- the cell that `array_emplace` hands out, and what is stored there
  have ec' : (c.emplace PTR_SIZE).bind (fun r => r.2.store r.1 x) = some c' := ec
  obtain ⟨⟨i, c₁⟩, ee, es⟩ := Option.bind_eq_some_iff.mp ec'
  have es' : (if i < c₁.data.length then some { c₁ with data := c₁.data.set i (some x) } else none) = some c' := es
  by_cases hi : i < c₁.data.length
  · rw [if_pos hi, Option.some.injEq] at es'
    subst es'
    have hcells : (c₁.data.set i (some x)).length = c₁.capacity := hc'.cells
    rw [List.length_set] at hcells
    rw [hcells] at hi
    obtain ⟨array₁, heap, bs₁, e₁, hw₁, h₁, hnew, hk₁⟩ := h.emplace hV hw hc hok ee hi
    obtain ⟨vm, e, hw', h', hk⟩ := h₁.store hV hw₁ hi hx
    refine ⟨array₁, ⟨vm, heap.heapSize⟩, bs₁, _, ?_, ec, hc', hw', h', hnew, hk₁.trans hk⟩
    have e' : V.store heap.vm (array₁.data + 8 * i) (BitVec.ofNat 64 x) = some vm := e
    unfold arrayPush
    simp only [e₁, e', Option.bind_eq_bind, Option.bind_some]
    rfl
  · rw [if_neg hi] at es'
    cases es'

end

end FuseeOS
