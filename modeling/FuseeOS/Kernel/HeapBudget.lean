import FuseeOS.Kernel.HeapPages

/-!
# How many pages the heap takes

A page of the heap takes four pages of the allocator at most: its frame, and the tables on the way to it.

* `HeapOp.bytes`, `HeapWf.step_size`   what a call adds to the heap;
* `Spare`, `machine_spareVM`   the heap over the machine, with the pages that were free when it was empty;
* `HeapModest`                 calls of one page, and of `kfree` for any block but the last one;
* `HeapBudget.step`            such a call finds room, and `page_iter` reaches its page.
-/

namespace FuseeOS
open Radix Tiling StepRun

/-! ## the end of the heap -/

/-- what a call adds to the heap at most -/
def HeapOp.bytes : HeapOp → Nat
  | .kmalloc size => blockLen size
  | .kfree _ => 0

theorem AllocStep.total_le {size off : Nat} {bs bs' : List Blk} (h : AllocStep size bs off bs') :
    total Blk.len bs' ≤ total Blk.len bs + blockLen size := by
  cases h with
  | reuse l r b =>
    simp only [total_append, total_cons]
    omega
  | grow bs =>
    rw [total_append, total_singleton]

theorem total_trim_le (bs : List Blk) : total Blk.len (trim bs) ≤ total Blk.len bs := by
  obtain ⟨r, hr⟩ := List.rdropWhile_prefix (fun b : Blk => !b.used) (l := bs)
  conv_rhs => rw [← hr, total_append]
  exact Nat.le_add_right _ _

theorem FreeStep.total_le {off : Nat} {bs bs' : List Blk} (h : FreeStep bs off bs') :
    total Blk.len bs' ≤ total Blk.len bs := by
  cases h with
  | free l r b =>
    refine (total_trim_le _).trans ?_
    simp only [total_append, total_cons]
    exact le_refl _

section
variable {σ : Type} {V : KernelVM σ} {Maps : σ → Nat → Prop} {MapOk UnmapOk : σ → Nat → Nat → Prop}
  {s s' : HeapState σ} {bs : List Blk} {op : HeapOp}

/-- **What a call adds to the heap.** -/
theorem HeapWf.step_size (hV : HeapVM V Maps MapOk UnmapOk) (h : HeapWf V Maps s bs) (hlegal : HeapLegal s op)
    (hok : ResizeOk V MapOk UnmapOk s op) (e : heapStep V s op = some s') :
    s'.heap.heapSize ≤ s.heap.heapSize + op.bytes := by
  have hsize := h.size
  cases op with
  | kmalloc size =>
    obtain ⟨⟨p, heap⟩, ek, rfl⟩ := Option.map_eq_some_iff.mp e
    obtain ⟨off, heap', bs', ek', hstep, -, hrep, -⟩ := kmalloc_spec hV h.toHeapRep h.maps size hok
    obtain ⟨-, rfl⟩ := Prod.mk.inj (Option.some.inj (ek.symm.trans ek'))
    have hle := hstep.total_le
    have hsize' := hrep.size
    show heap.heapSize ≤ s.heap.heapSize + blockLen size
    omega
  | kfree addr =>
    obtain ⟨heap, ef, rfl⟩ := Option.map_eq_some_iff.mp e
    by_cases h0 : addr = 0
    · rw [kfree, if_pos h0, Option.some.injEq] at ef
      exact (congrArg Heap.heapSize ef).ge
    · obtain ⟨y, hy, rfl⟩ := List.mem_map.mp (hlegal.resolve_left h0)
      obtain ⟨x, hx, hp, -⟩ := h.live.block y hy
      obtain ⟨off, hoff⟩ := Nat.exists_eq_add_of_le (starts_range hx).1
      have haddr : y.1 = HEAP_BASE + off + HEADER := by rw [hp, hoff]
      have hx' : (HEAP_BASE + off, x.2) ∈ starts Blk.len HEAP_BASE bs := by
        rw [← hoff]
        exact hx
      obtain ⟨heap', bs', ef', hstep, -, hrep, -⟩ := kfree_spec hV h.toHeapRep h.maps hx' (haddr ▸ hok h0)
      rw [← haddr] at ef'
      obtain rfl := Option.some.inj (ef.symm.trans ef')
      have hle := hstep.total_le
      have hsize' := hrep.size
      show heap.heapSize ≤ s.heap.heapSize + 0
      omega

/-- a live block that another one lies behind is not the last one -/
theorem HeapWf.not_last (h : HeapWf V Maps s bs) {y z : Nat × Nat} (hy : y ∈ s.live) (hz : z ∈ s.live)
    (hlt : y.1 < z.1) {bs' : List Blk} (ht : HeapTiles V s.heap bs') (off len : Nat) :
    ¬ Resizes bs' off len (.kfree y.1) := by
  rintro ⟨l, b, rfl, haddr, -, -⟩
  obtain ⟨x, hx, hp, -⟩ := h.live.block y hy
  obtain ⟨x', hx', hp', -⟩ := h.live.block z hz
  have hb : (HEAP_BASE + total Blk.len l, b) ∈ starts Blk.len HEAP_BASE (l ++ [b]) := mem_starts.mpr ⟨l, [], rfl, rfl⟩
  -- both lists have the block of `y` with the header that is in memory
  have hstart : x.1 = HEAP_BASE + total Blk.len l := by omega
  have hload := h.headers x hx
  rw [hstart, ht.headers _ hb, Option.some.injEq] at hload
  have hlen : x.2.len - HEADER = b.len - HEADER := by
    rw [← h.toHeapTiles.headerSize hx, ← ht.headerSize hb, hload]
  obtain ⟨-, -, -, h4, -⟩ := h.toHeapTiles.range hx
  obtain ⟨-, -, -, h4', -⟩ := ht.range hb
  obtain ⟨-, hend, -, hpos, -⟩ := h.toHeapTiles.range hx'
  have hsize := ht.size
  rw [total_append, total_singleton] at hsize
  rcases starts_apart hx hx' with rfl | hap | hap
  · omega
  · unfold HEADER at hlen
    omega
  · omega

end

/-! ## pages that are left -/

/-- The heap of `n` bytes is backed, and no more than four pages were taken for each page of it: `N` were free
when it was empty. -/
structure Spare (N : Nat) (m : Machine) (n : Nat) : Prop extends HeapBacked m n where
  pages : N ≤ m.pmem.pagesFree + 4 * (n / 4096)

/-- the heap grows, by 512 pages at most -/
def SpareGrow (m : Machine) (n e : Nat) : Prop := CanGrow m n e ∧ e / 4096 ≤ 512

/-- a store takes no page -/
theorem storeWord_pmem {m m' : Machine} {va : Nat} {w : BitVec 64} (e : storeWord m va w = some m') :
    m'.pmem = m.pmem := by
  unfold storeWord at e
  split at e
  · obtain ⟨t, -, rfl⟩ := Option.map_eq_some_iff.mp e
    rfl
  · cases e

/-- **The machine is a memory for a heap that only grows**, and the pages that it takes are counted. -/
theorem machine_spareVM (N : Nat) : HeapVM machineVM (Spare N) SpareGrow (fun _ _ _ => False) where
  load m n a h ha := machine_heapVM.load m n a h.toHeapBacked ha
  store m n a w h ha := by
    obtain ⟨m', e, h', hl⟩ := h.toHeapBacked.store ha w
    refine ⟨m', e, ⟨h', ?_⟩, hl⟩
    rw [storeWord_pmem e]
    exact h.pages
  map m n e h hn he _ hok := by
    rw [machineVM_kmapanon]
    obtain ⟨m', e', h', hl, hcount⟩ := h.toHeapBacked.grow he hok.1.pos hok.1.room hok.1.reach hok.1.pages
    refine ⟨m', e', ⟨h', ?_⟩, hl⟩
    -- one table of each level at most
    have hmiss := missing_le m ((HEAP_BASE + n) / 4096) (e / 4096)
    have htables : tableCount (e / 4096) ≤ 1 := by
      have h512 := hok.2
      unfold tableCount
      omega
    have hpos := hok.1.pos
    have hsum : (n + e) / 4096 = n / 4096 + e / 4096 := by omega
    have hpages := h.pages
    omega
  unmap m k n h hk hn hlt hb hno := hno.elim

/-! ## calls of one page -/

/-- a call of `kmalloc` for a block of one page, or of `kfree` for a block that is not the last one -/
def HeapModest (s : HeapState Machine) : HeapOp → Prop
  | .kmalloc size => blockPages size = 1
  | .kfree addr => HeapLegal s (.kfree addr) ∧
      ∀ bs, HeapTiles machineVM s.heap bs → ∀ off len, ¬ Resizes bs off len (.kfree addr)

/-- the heap may grow by `n` pages, up to `total` pages in all -/
structure HeapBudget (total n : Nat) (s : HeapState Machine) : Prop where
  wf : ∃ bs, HeapWf machineVM (Spare (4 * total)) s bs
  size : s.heap.heapSize / 4096 + n ≤ total

section
variable {s s' : HeapState Machine} {bs : List Blk} {op : HeapOp} {total n : Nat}

theorem HeapStart.budget {m : Machine} (h : HeapStart m) (hfree : 4 * total ≤ m.pmem.pagesFree) :
    HeapBudget total total ⟨⟨m, 0⟩, []⟩ := by
  have hw := h.wf
  refine ⟨⟨[], hw.toHeapRep, ⟨hw.maps, ?_⟩, hw.live⟩, ?_⟩
  · show 4 * total ≤ m.pmem.pagesFree + 4 * (0 / 4096)
    omega
  · show 0 / 4096 + total ≤ total
    omega

/-- a page behind the heap is there, and `page_iter` reaches it -/
theorem HeapBudget.grow (h : HeapBudget total (n + 1) s) (htotal : total ≤ 512) :
    CanGrow s.heap.vm s.heap.heapSize 4096 := by
  obtain ⟨bs, hw⟩ := h.wf
  have hbase := HEAP_BASE_mod
  have hwhole := hw.maps.whole
  have hsize := h.size
  have hs : (HEAP_BASE + s.heap.heapSize) / 4096 = HEAP_BASE / 4096 + s.heap.heapSize / 4096 := by omega
  have htables : tableCount (4096 / 4096) = 1 := rfl
  refine ⟨by decide, ?_, ?_, ?_, ?_⟩
  · unfold HEAP_BASE HEAP_END
    omega
  · have hmiss := missing_le s.heap.vm ((HEAP_BASE + s.heap.heapSize) / 4096) (4096 / 4096)
    have hpages := hw.maps.pages
    rw [htables] at hmiss
    omega
  · show (HEAP_BASE + s.heap.heapSize) / 4096 / 512 % 512 + tableCount (4096 / 4096) ≤ 512
    rw [hs, htables]
    unfold HEAP_BASE
    omega
  · show (HEAP_BASE + s.heap.heapSize) / 4096 % 512 + 4096 / 4096 ≤ 512 * tableCount (4096 / 4096)
    rw [hs, htables]
    unfold HEAP_BASE
    omega

/-- a block of one page -/
theorem blockLen_one {size : Nat} (h : blockPages size = 1) : blockLen size = 4096 := by
  rw [blockLen_eq, h]

/-- **A modest call has what it needs.** -/
theorem HeapBudget.call (h : HeapBudget total (n + 1) s) (htotal : total ≤ 512) (hop : HeapModest s op) :
    HeapLegal s op ∧ HeapRoom s op ∧ HeapReach s op := by
  cases op with
  | kmalloc size =>
    have hg := h.grow htotal
    have hlen := blockLen_one hop
    have hoff {bs : List Blk} (ht : HeapTiles machineVM s.heap bs) {off len : Nat}
        (hr : Resizes bs off len (.kmalloc size)) : off = s.heap.heapSize ∧ len = 4096 :=
      ⟨hr.2.1.trans ht.size, hr.2.2.trans hlen⟩
    refine ⟨trivial, fun bs ht off len hr => ?_, fun bs ht off len hr => ?_⟩
    · obtain ⟨rfl, rfl⟩ := hoff ht hr
      exact ⟨hg.room, hg.pages⟩
    · obtain ⟨rfl, rfl⟩ := hoff ht hr
      exact hg.reach
  | kfree addr => exact ⟨hop.1, trivial, fun bs ht off len hr => (hop.2 bs ht off len hr).elim⟩

/-- it keeps count of the pages -/
theorem HeapBudget.resizeOk (h : HeapBudget total (n + 1) s) (htotal : total ≤ 512) (hop : HeapModest s op)
    (hw : HeapWf machineVM (Spare (4 * total)) s bs) : ResizeOk machineVM SpareGrow (fun _ _ _ => False) s op := by
  obtain ⟨hlegal, hroom, hreach⟩ := h.call htotal hop
  cases op with
  | kmalloc size =>
    refine hw.growOk hroom hreach fun hg => ⟨hg, ?_⟩
    rw [blockLen_one hop]
    decide
  | kfree addr => exact hw.shrinkOk (machine_spareVM _) hlegal fun _ off len hr => hop.2 bs hw.toHeapTiles off len hr

/-- what it adds to the heap -/
theorem HeapBudget.size_le (h : HeapBudget total (n + 1) s) (htotal : total ≤ 512) (hop : HeapModest s op)
    (e : heapStep machineVM s op = some s') : s'.heap.heapSize / 4096 + n ≤ total := by
  obtain ⟨bs, hw⟩ := h.wf
  have hle := hw.step_size (machine_spareVM _) (h.call htotal hop).1 (h.resizeOk htotal hop hw) e
  have hsize := h.size
  have hbytes : op.bytes ≤ 4096 := by
    cases op with
    | kmalloc size => exact (blockLen_one hop).le
    | kfree addr => exact Nat.zero_le _
  omega

/-- **A modest call takes one page of the budget.** -/
theorem HeapBudget.step (h : HeapBudget total (n + 1) s) (htotal : total ≤ 512) (hop : HeapModest s op)
    (e : heapStep machineVM s op = some s') : HeapBudget total n s' := by
  refine ⟨?_, h.size_le htotal hop e⟩
  obtain ⟨bs, hw⟩ := h.wf
  obtain ⟨t, bs', e', -, hw'⟩ :=
    heap_step (machine_spareVM _) hw (h.call htotal hop).1 (h.resizeOk htotal hop hw)
  obtain rfl := Option.some.inj (e'.symm.trans e)
  exact ⟨bs', hw'⟩

/-- **Modest calls have what they need**, as long as the budget lasts. -/
theorem HeapBudget.along (htotal : total ≤ 512) (ops : List HeapOp) (h : HeapBudget total (ops.length + n) s)
    (hops : Along (heapStep machineVM) HeapModest s ops) :
    Along (heapStep machineVM) (fun s op => (HeapLegal s op ∧ HeapRoom s op ∧ HeapReach s op) ∧
      ResizeOk machineVM SpareGrow (fun _ _ _ => False) s op) s ops ∧
    ∀ s', run (heapStep machineVM) s ops = some s' → HeapBudget total n s' := by
  refine along_of_budget (fun n s op hb hop => ⟨⟨hb.call htotal hop, ?_⟩, fun _ e => hb.step htotal hop e⟩)
    ops s h hops
  obtain ⟨bs, hw⟩ := hb.wf
  exact hb.resizeOk htotal hop hw

end

end FuseeOS
