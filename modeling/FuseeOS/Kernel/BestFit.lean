import FuseeOS.Kernel.HeapRun

/-!
# kmalloc is best fit

One call of `kmalloc` on any heap whose blocks tile it, over a memory where mapping is exact.

* `kmalloc_reuse`     the first of the smallest blocks that fit is taken, one word is written;
* `kmalloc_grow`      with none that fits, a block behind the others;
* `kmalloc_best_fit`  both.
-/

namespace FuseeOS
open Tiling

variable {σ : Type} {V : KernelVM σ} {s : Heap σ} {bs : List Blk} {size : Nat}

theorem ExactVM.updateHeader (hV : ExactVM V) {vm : σ} {a : Nat} {w : BitVec 64} (ha : a % 8 = 0)
    (hw : V.load vm a = some w) (f : BitVec 64 → BitVec 64) :
    ∃ vm', FuseeOS.updateHeader V vm a f = some vm' ∧
      ∀ b, b % 8 = 0 → V.load vm' b = if b = a then some (f w) else V.load vm b := by
  obtain ⟨vm', e, hl⟩ := hV.store vm a (f w) ha (hw ▸ rfl)
  refine ⟨vm', ?_, hl⟩
  unfold FuseeOS.updateHeader
  rw [hw]
  exact e

/-- the block is marked used, and no other word of memory changes -/
theorem kmalloc_reuse (hV : ExactVM V) {l r : List Blk} {b : Blk} (h : HeapTiles V s (l ++ b :: r))
    (e : findBest V s size = some (some (HEAP_BASE + total Blk.len l))) :
    ∃ vm, kmalloc V s size = some (HEAP_BASE + total Blk.len l + HEADER, ⟨vm, s.heapSize⟩) ∧
      HeapTiles V ⟨vm, s.heapSize⟩ (l ++ ⟨b.len, true⟩ :: r) ∧
      ∀ a, a % 8 = 0 → a ≠ HEAP_BASE + total Blk.len l → V.load vm a = V.load s.vm a := by
  have hx : (HEAP_BASE + total Blk.len l, b) ∈ starts Blk.len HEAP_BASE (l ++ b :: r) :=
    mem_starts.mpr ⟨l, r, rfl, rfl⟩
  obtain ⟨_, hend, _, hlen, _⟩ := h.range hx
  have hb := h.bound
  dsimp only at hend hlen
  have hret : (HEAP_BASE + total Blk.len l + HEADER) % 2^64 = HEAP_BASE + total Blk.len l + HEADER :=
    Nat.mod_eq_of_lt (by unfold HEADER; omega)
  obtain ⟨vm, e', hl⟩ := hV.updateHeader (h.inHeap hx).1 (h.headers _ hx) (setUsed true)
  refine ⟨vm, ?_, h.setUsed true fun a ha => hl a ha.1, fun a ha hne => ?_⟩
  · unfold kmalloc
    rw [e]
    show (FuseeOS.updateHeader V s.vm _ (setUsed true)).bind _ = _
    rw [e', Option.bind_some, hret]
    rfl
  · rw [hl a ha, if_neg hne]

/-- a new block behind the others, and no word outside it changes -/
theorem kmalloc_grow (hV : ExactVM V) (h : HeapTiles V s bs)
    (hbound : HEAP_BASE + (s.heapSize + blockLen size) < 2^64)
    (e : findBest V s size = some none) :
    ∃ vm, kmalloc V s size = some (HEAP_BASE + s.heapSize + HEADER,
        ⟨vm, s.heapSize + blockLen size⟩) ∧
      HeapTiles V ⟨vm, s.heapSize + blockLen size⟩ (bs ++ [⟨blockLen size, true⟩]) ∧
      ∀ a, a % 8 = 0 →
        (a < HEAP_BASE + s.heapSize ∨ HEAP_BASE + (s.heapSize + blockLen size) ≤ a) →
        V.load vm a = V.load s.vm a := by
  obtain ⟨hpage, hpos⟩ := blockLen_page size
  have hmod := h.size_mod
  have hbase := HEAP_BASE_mod
  have h8 : (HEAP_BASE + s.heapSize) % 8 = 0 := by omega
  obtain ⟨vm₁, e₁, hl₁⟩ := hV.map s.vm (HEAP_BASE + s.heapSize) (blockLen size)
    (KPROT_READ ||| KPROT_WRITE) (by omega) hpage (by omega)
  have hold (a : Nat) (ha : a % 8 = 0)
      (hout : a < HEAP_BASE + s.heapSize ∨ HEAP_BASE + (s.heapSize + blockLen size) ≤ a) :
      V.load vm₁ a = V.load s.vm a := by
    have hla := hl₁ a ha
    rwa [if_neg (by omega)] at hla
  have hmapped := hl₁ _ h8
  rw [if_pos ⟨le_rfl, by omega⟩] at hmapped
  obtain ⟨w, hw⟩ := Option.isSome_iff_exists.mp hmapped
  obtain ⟨vm₂, e₂, hl₂⟩ := hV.updateHeader h8 hw (setUsed true)
  have hw₂ := hl₂ _ h8
  rw [if_pos rfl] at hw₂
  obtain ⟨vm₃, e₃, hl₃⟩ := hV.updateHeader h8 hw₂ (setSize (blockLen size - HEADER))
  have hkeep (a : Nat) (ha : a % 8 = 0)
      (hout : a < HEAP_BASE + s.heapSize ∨ HEAP_BASE + (s.heapSize + blockLen size) ≤ a) :
      V.load vm₃ a = V.load s.vm a := by
    have hne : a ≠ HEAP_BASE + s.heapSize := by omega
    rw [hl₃ a ha, if_neg hne, hl₂ a ha, if_neg hne, hold a ha hout]
  have hnew : V.load vm₃ (HEAP_BASE + s.heapSize) = some (Blk.header ⟨blockLen size, true⟩) := by
    rw [hl₃ _ h8, if_pos rfl, eq_header w, setUsed_header, setSize_header]
    rfl
  refine ⟨vm₃, ?_, h.concat ⟨hpage, hpos⟩ hbound (fun a ha => hkeep a ha.1 (.inl ha.2.2)) hnew,
    hkeep⟩
  unfold kmalloc
  rw [e]
  show makeNewBlock V s size = _
  rw [makeNewBlock_eq V s hbound]
  simp only [e₁, e₂, e₃, Option.bind_eq_bind, Option.bind_some]
  rfl

/-- **`kmalloc` is best fit.**  Where blocks fit, the lowest of the smallest of them is marked used;
otherwise a used block is appended at the end of the heap.  The other headers, and every word outside
the block, stay as they are. -/
theorem kmalloc_best_fit (hV : ExactVM V) (h : HeapTiles V s bs) (size : Nat)
    (hbound : HEAP_BASE + (s.heapSize + blockLen size) < 2^64) :
    ((∃ b ∈ bs, b.Fits size) → ∃ l b r vm, bs = l ++ b :: r ∧
      FirstMin (Blk.Fits size) Blk.len l b r ∧
      kmalloc V s size = some (HEAP_BASE + total Blk.len l + HEADER, ⟨vm, s.heapSize⟩) ∧
      HeapTiles V ⟨vm, s.heapSize⟩ (l ++ ⟨b.len, true⟩ :: r) ∧
      ∀ a, a % 8 = 0 → a ≠ HEAP_BASE + total Blk.len l → V.load vm a = V.load s.vm a) ∧
    ((∀ b ∈ bs, ¬ b.Fits size) → ∃ vm,
      kmalloc V s size = some (HEAP_BASE + s.heapSize + HEADER, ⟨vm, s.heapSize + blockLen size⟩) ∧
      HeapTiles V ⟨vm, s.heapSize + blockLen size⟩ (bs ++ [⟨blockLen size, true⟩]) ∧
      ∀ a, a % 8 = 0 →
        (a < HEAP_BASE + s.heapSize ∨ HEAP_BASE + (s.heapSize + blockLen size) ≤ a) →
        V.load vm a = V.load s.vm a) := by
  obtain ⟨best, e, hnone, hsome⟩ := findBest_spec h size
  constructor
  · rintro ⟨c, hc, hfit⟩
    cases best with
    | none => exact absurd hfit (hnone rfl c hc)
    | some a =>
      obtain ⟨l, b, r, rfl, rfl, hmin⟩ := hsome a rfl
      obtain ⟨vm, e', ht, hl⟩ := kmalloc_reuse hV h e
      exact ⟨l, b, r, vm, rfl, hmin, e', ht, hl⟩
  · intro hno
    exact kmalloc_grow hV h hbound (findBest_none h hno)

/-- a heap of three blocks, the last one used -/
def threeBlocks : Heap (Nat → Option (BitVec 64)) where
  vm a := if a = HEAP_BASE then some (header false (8192 - HEADER))
    else if a = HEAP_BASE + 8192 then some (header false (4096 - HEADER))
    else if a = HEAP_BASE + 12288 then some (header true (4096 - HEADER))
    else none
  heapSize := 16384

theorem threeBlocks_tiles :
    HeapTiles wordVM threeBlocks [⟨8192, false⟩, ⟨4096, false⟩, ⟨4096, true⟩] where
  headers x hx := by
    simp only [starts, List.mem_cons, List.not_mem_nil, or_false] at hx
    rcases hx with rfl | rfl | rfl <;> simp [wordVM, threeBlocks, Blk.header, Nat.add_assoc]
  size := rfl
  pages := by decide
  bound := by decide +kernel

/-- a hundred bytes in that heap: the second block is the smallest that fits -/
theorem threeBlocks_best_fit : ∃ l b r vm,
    [⟨8192, false⟩, ⟨4096, false⟩, ⟨4096, true⟩] = l ++ b :: r ∧
      FirstMin (Blk.Fits 100) Blk.len l b r ∧
      kmalloc wordVM threeBlocks 100 = some (HEAP_BASE + total Blk.len l + HEADER, ⟨vm, 16384⟩) := by
  have hbound : HEAP_BASE + (threeBlocks.heapSize + blockLen 100) < 2^64 := by decide +kernel
  obtain ⟨l, b, r, vm, hbs, hmin, e, _⟩ :=
    (kmalloc_best_fit wordVM_exact threeBlocks_tiles 100 hbound).1
      ⟨⟨4096, false⟩, by simp, rfl, by decide⟩
  exact ⟨l, b, r, vm, hbs, hmin, e⟩

end FuseeOS
