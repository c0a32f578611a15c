import FuseeOS.Kernel.HeapQueue
import FuseeOS.Kernel.HeapBudget

/-!
# Runs of the run queue in the heap

The kernel heap holds the arrays of the run queue, and other code uses it at the same time.

* `KernelQueue.Rep.step`   a step keeps the heap in order and the run queue in it;
* `KernelBudget.step`      what a step takes of the pages;
* `kernelQueue_fifo`       in every run the run queue of the heap is a queue, whatever else the heap
                           is used for.
-/

namespace FuseeOS
open Tiling StepRun

/-- the kernel's heap with its live allocations, the run queue in it, all processes scheduled so far,
oldest first, and how many of them were returned -/
structure KernelQueue (σ : Type) where
  heap : HeapState σ
  sched : HeapSched
  scheduled : List ProcPtr
  returned : Nat

inductive KernelOp where
  /-- other code calls `kmalloc` or `kfree` -/
  | heap (op : HeapOp)
  /-- other code stores a word -/
  | store (addr : Nat) (w : BitVec 64)
  | schedule (proc : ProcPtr)
  | next

section
variable {σ : Type} (V : KernelVM σ)

/-- the allocations that are live after `proc_schedule` -/
def scheduledLive (s : HeapState σ) (q q' : HeapSched) : List (Nat × Nat) :=
  arrayLive s.live q.back q'.back PTR_SIZE

def kernelStep (k : KernelQueue σ) : KernelOp → Option (KernelQueue σ)
  | .heap op => (heapStep V k.heap op).map fun s => { k with heap := s }
  | .store addr w => (V.store k.heap.heap.vm addr w).map fun vm =>
      { k with heap := ⟨⟨vm, k.heap.heap.heapSize⟩, k.heap.live⟩ }
  | .schedule proc => (k.sched.schedule V k.heap.heap proc).map fun (q, heap) =>
      { k with
        heap := ⟨heap, scheduledLive k.heap k.sched q⟩
        sched := q
        scheduled := k.scheduled ++ [proc] }
  | .next => (k.sched.next V k.heap.heap.vm).map fun (proc, q) =>
      { k with sched := q, returned := if proc = NULL then k.returned else k.returned + 1 }

/-- Other code frees no block of the arrays, and stores to live blocks other than these; a process is a
pointer other than `NULL`, and it finds a buffer with fewer than `2^31` entries. -/
def KernelLegal (k : KernelQueue σ) : KernelOp → Prop
  | .heap op => HeapLegal k.heap op ∧ ∀ d ∈ k.sched.blocks, op ≠ .kfree d
  | .store addr _ => ∃ y ∈ k.heap.live, y.1 ∉ k.sched.blocks ∧
      addr % 8 = 0 ∧ y.1 ≤ addr ∧ addr + 8 ≤ y.1 + y.2
  | .schedule proc => proc ≠ NULL ∧ proc < 2^64 ∧ k.sched.back.size + 1 < 2^31
  | .next => True

/-- the call of `kmalloc` or `kfree` in a step: `proc_schedule` makes one where the back array is full -/
def heapCall (k : KernelQueue σ) : KernelOp → Option HeapOp
  | .heap op => some op
  | .store _ _ => none
  | .schedule _ =>
      if k.sched.back.size < k.sched.back.capacity then none
      else some (.kmalloc (k.sched.back.grownBytes PTR_SIZE))
  | .next => none

/-- the two kinds of steps that call -/
theorem heapCall_cases {k : KernelQueue σ} {op : KernelOp} {call : HeapOp} (h : call ∈ heapCall k op) :
    op = .heap call ∨ ((∃ proc, op = .schedule proc) ∧
      ¬ k.sched.back.size < k.sched.back.capacity ∧
      call = .kmalloc (k.sched.back.grownBytes PTR_SIZE)) := by
  cases op with
  | heap op => exact .inl (congrArg KernelOp.heap (Option.some.inj h))
  | store addr w => cases h
  | schedule proc =>
    have h' : (if k.sched.back.size < k.sched.back.capacity then none
      else some (HeapOp.kmalloc (k.sched.back.grownBytes PTR_SIZE))) = some call := h
    by_cases hlt : k.sched.back.size < k.sched.back.capacity
    · rw [if_pos hlt] at h'
      cases h'
    · rw [if_neg hlt] at h'
      exact .inr ⟨⟨proc, rfl⟩, hlt, (Option.some.inj h').symm⟩
  | next => cases h

/-- what a step does to the heap and to the queue -/
def KernelFifo (k : KernelQueue σ) (op : KernelOp) (k' : KernelQueue σ) : Prop :=
  match op with
  | .heap op => HeapKeeps V k.heap op k'.heap ∧ k'.scheduled = k.scheduled ∧ k'.returned = k.returned
  | .store addr w => V.load k'.heap.heap.vm addr = some w ∧ k'.heap.live = k.heap.live ∧
      k'.scheduled = k.scheduled ∧ k'.returned = k.returned
  | .schedule proc => k'.scheduled = k.scheduled ++ [proc] ∧ k'.returned = k.returned
  | .next => ∃ proc, k.sched.next V k.heap.heap.vm = some (proc, k'.sched) ∧ k'.heap = k.heap ∧
      (proc = NULL ↔ k.returned = k.scheduled.length) ∧
      (proc ≠ NULL → k.scheduled[k.returned]? = some proc ∧ k'.returned = k.returned + 1) ∧
      (proc = NULL → k'.returned = k.returned) ∧ k'.scheduled = k.scheduled

/-- The heap is in order, the arrays are live blocks of it, and the entries in memory that were not
returned yet are the processes not yet returned, in order. -/
structure KernelFifoInv (k : KernelQueue σ) : Prop where
  heap : ∃ bs, HeapBlocks V k.heap bs
  arrays : ∀ d ∈ k.sched.blocks, d ∈ k.heap.live.map Prod.fst
  returned : k.returned ≤ k.scheduled.length
  queue : k.sched.queue V k.heap.heap.vm = (k.scheduled.drop k.returned).map some

/-- `proc_init` in the kernel's heap -/
def kernelStart (s : HeapState σ) : Option (KernelQueue σ) :=
  (HeapSched.init V s.heap).map fun (q, heap) => ⟨⟨heap, q.initLive s.live⟩, q, [], 0⟩

/-- what the steps keep: `t` is the run queue of lists -/
structure KernelQueue.Rep (Maps : σ → Nat → Prop) (k : KernelQueue σ) (bs : List Blk) (t : Sched) : Prop where
  heap : HeapWf V Maps k.heap bs
  sim : k.sched.Sim V k.heap t
  queue : RunQueue.Rep ⟨t, k.scheduled, k.returned⟩

variable {V} {Maps : σ → Nat → Prop} {MapOk UnmapOk : σ → Nat → Nat → Prop} {k : KernelQueue σ} {bs : List Blk}
  {t : Sched}

theorem KernelQueue.Rep.inv (h : k.Rep V Maps bs t) : KernelFifoInv V k :=
  ⟨⟨bs, h.heap.blocks⟩, fun _ hd => h.sim.live hd, h.queue.returned, h.sim.queue h.queue.queued⟩

/-- what is asked of the resizing in a step -/
def KernelResize (V : KernelVM σ) (MapOk UnmapOk : σ → Nat → Nat → Prop) (k : KernelQueue σ) (op : KernelOp) :
    Prop := ∀ call ∈ heapCall k op, ResizeOk V MapOk UnmapOk k.heap call

/-- other code calls `kmalloc` or `kfree` -/
theorem KernelQueue.Rep.heapOp (hV : HeapVM V Maps MapOk UnmapOk) {op : HeapOp} (h : k.Rep V Maps bs t)
    (hlegal : HeapLegal k.heap op) (hfree : ∀ d ∈ k.sched.blocks, op ≠ .kfree d)
    (hok : ResizeOk V MapOk UnmapOk k.heap op) :
    ∃ k' bs', kernelStep V k (.heap op) = some k' ∧ KernelFifo V k (.heap op) k' ∧ k'.Rep V Maps bs' t := by
  obtain ⟨s', bs', e, hkeeps, hw⟩ := heap_step hV h.heap hlegal hok
  have hsim : k.sched.Sim V s' t := by
    cases op with
    | kmalloc size =>
      -- a number that is no block of the arrays
      have hp : 0 ∉ k.sched.blocks := by
        intro h0
        obtain ⟨y, hy, e0⟩ := List.mem_map.mp (h.sim.live h0)
        have hlo := (h.heap.range hy).1
        rw [e0] at hlo
        unfold HEAP_BASE at hlo
        omega
      exact h.sim.kept h.heap (hkeeps.but fun q e => HeapOp.noConfusion e) hp
    | kfree addr =>
      exact h.sim.kept h.heap (hkeeps.but fun q e => (HeapOp.kfree.inj e).symm) fun hd => hfree addr hd rfl
  refine ⟨{ k with heap := s' }, bs', ?_, ⟨hkeeps, rfl, rfl⟩, hw, hsim, h.queue⟩
  show (heapStep V k.heap op).map _ = _
  rw [e, Option.map_some]

/-- **A step keeps the heap in order and the run queue in it.** -/
theorem KernelQueue.Rep.step (hV : HeapVM V Maps MapOk UnmapOk) {op : KernelOp} (h : k.Rep V Maps bs t)
    (hop : KernelLegal k op) (hok : KernelResize V MapOk UnmapOk k op) :
    ∃ k' bs' t', kernelStep V k op = some k' ∧ KernelFifo V k op k' ∧ k'.Rep V Maps bs' t' := by
  cases op with
  | heap op =>
    obtain ⟨k', bs', e, hr, hrep⟩ := h.heapOp hV hop.1 hop.2 (hok op rfl)
    exact ⟨k', bs', t, e, hr, hrep⟩
  | store addr w =>
    obtain ⟨y, hy, hnot, h8, hlo, hhi⟩ := hop
    obtain ⟨vm, e, hw, hl⟩ := h.heap.write hV hy h8 hlo hhi w
    have hin := h.heap.inHeap hy h8 hlo (by omega)
    have hkeep : KeepsBut V y.1 k.heap ⟨⟨vm, k.heap.heap.heapSize⟩, k.heap.live⟩ :=
      h.heap.keepsBut hy fun b hb hout => by rw [hl b hb, if_neg (by omega)]
    refine ⟨{ k with heap := ⟨⟨vm, k.heap.heap.heapSize⟩, k.heap.live⟩ }, bs, t, ?_, ⟨?_, rfl, rfl, rfl⟩, hw,
      h.sim.kept h.heap hkeep hnot, h.queue⟩
    · show (V.store k.heap.heap.vm addr w).map _ = _
      rw [e, Option.map_some]
    · show V.load vm addr = some w
      rw [hl addr hin, if_pos rfl]
  | schedule proc =>
    obtain ⟨hnull, hlt, hsize⟩ := hop
    obtain ⟨q', heap, bs', t', e, hq, hw, hsim⟩ :=
      h.sim.schedule hV h.heap h.queue.queued hsize hlt fun hfull => hok _ (if_neg hfull)
    refine ⟨⟨⟨heap, scheduledLive k.heap k.sched q'⟩, q', k.scheduled ++ [proc], k.returned⟩, bs', t', ?_,
      ⟨rfl, rfl⟩, hw, hsim, ?_, ?_, ?_⟩
    · unfold kernelStep
      simp only [e, Option.map_some]
    · show t'.Queued ((k.scheduled ++ [proc]).drop k.returned)
      rwa [List.drop_append_of_le_length h.queue.returned]
    · have hret := h.queue.returned
      show k.returned ≤ (k.scheduled ++ [proc]).length
      rw [List.length_append]
      exact Nat.le_trans hret (Nat.le_add_right _ _)
    · intro p hp
      rcases List.mem_append.mp hp with hp | hp
      · exact h.queue.nonnull p hp
      · rw [List.mem_singleton.mp hp]
        exact hnull
  | next =>
    -- the run queue of lists takes the same step
    obtain ⟨r', er, hfifo, hrep⟩ := h.queue.step (show QueueOk ⟨t, k.scheduled, k.returned⟩ .next from trivial)
    obtain ⟨proc, en, hnone, hsome, hstay, -⟩ := hfifo
    obtain ⟨q', e, hsim⟩ := h.sim.next h.heap en
    have er' : r' = ⟨r'.sched, k.scheduled, if proc = NULL then k.returned else k.returned + 1⟩ := by
      have er₂ : (nextProc t).map (fun r => (⟨r.2, k.scheduled,
          if r.1 = NULL then k.returned else k.returned + 1⟩ : RunQueue)) = some r' := er
      rw [en, Option.map_some, Option.some.injEq] at er₂
      rw [← er₂]
    rw [er'] at hrep hsome hstay
    refine ⟨{ k with sched := q', returned := if proc = NULL then k.returned else k.returned + 1 }, bs, r'.sched,
      ?_, ⟨proc, e, rfl, hnone, hsome, hstay, rfl⟩, h.heap, hsim, hrep⟩
    unfold kernelStep
    simp only [e, Option.map_some]

/-- the calls before `proc_init` and those in it -/
theorem kernelStart_rep {s : HeapState σ} (hV : HeapVM V Maps MapOk UnmapOk) (hs : HeapWf V Maps s bs)
    (before : List HeapOp) (hlegal : Along (heapStep V) HeapLegal s before)
    (hok : Along (heapStep V) (ResizeOk V MapOk UnmapOk) s (before ++ HeapSched.procInitCalls)) :
    ∃ k bs', (run (heapStep V) s before).bind (kernelStart V) = some k ∧ k.Rep V Maps bs' procInit := by
  obtain ⟨hok₁, hok₂⟩ := along_append.mp hok
  have hrun : Always (heapStep V) (fun s => ∃ bs, HeapWf V Maps s bs) (HeapKeeps V) s before := by
    refine always_of_step ?_ before _ ⟨bs, hs⟩ (hlegal.and _ _ hok₁)
    rintro s op ⟨bs, hs⟩ ⟨hl, hr⟩
    obtain ⟨s', bs', e, hk, hw⟩ := heap_step hV hs hl hr
    exact ⟨s', e, hk, bs', hw⟩
  obtain ⟨s', e, bs', hw⟩ := hrun.end
  obtain ⟨q, heap, bs'', ei, hw', hsim⟩ := HeapSched.Sim.init hV hw (hok₂ s' e)
  refine ⟨⟨⟨heap, q.initLive s'.live⟩, q, [], 0⟩, bs'', ?_, hw', hsim, procInit_queued, Nat.le_refl 0, ?_⟩
  · rw [e, Option.bind_some, kernelStart, ei, Option.map_some]
  · intro p hp
    cases hp

end

/-! ## `proc_init` -/

/-- three blocks of 128 bytes -/
theorem HeapSched.procInitCalls_along {σ : Type} {V : KernelVM σ} {ok : HeapState σ → HeapOp → Prop}
    (h : ∀ s, ok s (.kmalloc 128)) (s : HeapState σ) : Along (heapStep V) ok s procInitCalls := by
  refine along_of_forall _ (fun op hop s => ?_) s
  rw [List.eq_of_mem_replicate hop]
  exact h s

theorem HeapSched.init_run {σ : Type} {V : KernelVM σ} {s : HeapState σ} {q : HeapSched} {heap : Heap σ}
    (e : HeapSched.init V s.heap = some (q, heap)) :
    run (heapStep V) s procInitCalls = some ⟨heap, q.initLive s.live⟩ := by
  unfold HeapSched.init at e
  obtain ⟨⟨a, heap₁⟩, e₁, e⟩ := Option.bind_eq_some_iff.mp e
  obtain ⟨⟨b, heap₂⟩, e₂, e⟩ := Option.bind_eq_some_iff.mp e
  obtain ⟨⟨c, heap₃⟩, e₃, e⟩ := Option.bind_eq_some_iff.mp e
  obtain ⟨rfl, rfl⟩ := Prod.mk.inj (Option.some.inj e)
  have s₁ := HeapArray.Sim.init_step e₁
  have s₂ := HeapArray.Sim.init_step (s := ⟨heap₁, (a.data, 128) :: s.live⟩) e₂
  have s₃ := HeapArray.Sim.init_step (s := ⟨heap₂, (b.data, 128) :: (a.data, 128) :: s.live⟩) e₃
  show (heapStep V s (.kmalloc 128)).bind (fun s => (heapStep V s (.kmalloc 128)).bind fun s =>
    (heapStep V s (.kmalloc 128)).bind fun s => some s) = _
  rw [s₁, Option.bind_some, s₂, Option.bind_some, s₃, Option.bind_some]
  rfl

/-! ## the queue over the machine -/

/-- The heap region has room for what a step maps, there are enough free pages, and `page_iter` visits all
pages that are mapped or unmapped. -/
def KernelRoom (k : KernelQueue Machine) (op : KernelOp) : Prop :=
  ∀ call ∈ heapCall k op, HeapRoom k.heap call ∧ HeapReach k.heap call

section
variable {m : Machine} {k k' : KernelQueue Machine} {bs : List Blk} {t : Sched} {op : KernelOp} {total n : Nat}

theorem KernelQueue.Rep.resize (h : k.Rep machineVM HeapBacked bs t) (hop : KernelLegal k op)
    (hroom : KernelRoom k op) : KernelResize machineVM CanGrow CanCut k op := by
  intro call hcall
  have hlegal : HeapLegal k.heap call := by
    rcases heapCall_cases hcall with rfl | ⟨-, -, rfl⟩
    · exact hop.1
    · exact trivial
  obtain ⟨h1, h2⟩ := hroom call hcall
  exact h.heap.resizeOk hlegal h1 h2

/-! ### steps of one page -/

/-- a modest step: other code takes one page at a time, and frees no last block -/
def KernelModest (k : KernelQueue Machine) : KernelOp → Prop
  | .heap op => HeapModest k.heap op ∧ ∀ d ∈ k.sched.blocks, op ≠ .kfree d
  | .store addr w => KernelLegal k (.store addr w)
  | .schedule proc => proc ≠ NULL ∧ proc < 2^64
  | .next => True

/-- there are pages for `n` steps, and the arrays are so short that each of them fits into one page when it
has grown -/
structure KernelBudget (total n : Nat) (k : KernelQueue Machine) : Prop where
  rep : ∃ bs t, k.Rep machineVM (Spare (4 * total)) bs t
  size : k.heap.heap.heapSize / 4096 + n ≤ total
  sizes : ∀ i, (k.sched.procs i).size + n ≤ total
  capacity : ∀ i, (k.sched.procs i).capacity ≤ 384

theorem KernelBudget.heap (h : KernelBudget total n k) : HeapBudget total n k.heap := by
  obtain ⟨bs, t, hrep⟩ := h.rep
  exact ⟨⟨bs, hrep.heap⟩, h.size⟩

/-- a full array of fewer than 256 cells, when it has grown -/
theorem grown_small {array : HeapArray} (hsize : array.size < 256) (hfull : ¬ array.size < array.capacity) :
    array.grownCapacity ≤ 384 ∧ blockPages (array.grownBytes PTR_SIZE) = 1 := by
  have hgrown : array.grownCapacity = array.capacity + array.capacity / 2 := Nat.mod_eq_of_lt (by omega)
  have hbytes : array.grownBytes PTR_SIZE = (array.capacity + array.capacity / 2) * 8 := by
    unfold HeapArray.grownBytes
    rw [hgrown]
    exact Nat.mod_eq_of_lt (by unfold PTR_SIZE; omega)
  rw [hgrown, hbytes]
  unfold blockPages blockLen HEADER
  omega

/-- the calls of a modest step are modest -/
theorem KernelBudget.modest (h : KernelBudget total (n + 1) k) (htotal : total ≤ 256) (hop : KernelModest k op)
    {call : HeapOp} (hcall : call ∈ heapCall k op) : HeapModest k.heap call := by
  rcases heapCall_cases hcall with rfl | ⟨-, hfull, rfl⟩
  · exact hop.1
  · have hsize := h.sizes (1 - k.sched.front)
    have hlt : k.sched.back.size < 256 := by
      unfold HeapSched.back
      omega
    exact (grown_small hlt hfull).2

/-- **A modest step is legal and has what it needs.** -/
theorem KernelBudget.ok (h : KernelBudget total (n + 1) k) (htotal : total ≤ 256) (hop : KernelModest k op) :
    KernelLegal k op ∧ KernelRoom k op := by
  have hcalls (call : HeapOp) (hcall : call ∈ heapCall k op) :
      HeapLegal k.heap call ∧ HeapRoom k.heap call ∧ HeapReach k.heap call :=
    h.heap.call (by omega) (h.modest htotal hop hcall)
  refine ⟨?_, fun call hcall => (hcalls call hcall).2⟩
  cases op with
  | heap op => exact ⟨(hcalls op rfl).1, hop.2⟩
  | store addr w => exact hop
  | schedule proc =>
    have hsize := h.sizes (1 - k.sched.front)
    refine ⟨hop.1, hop.2, ?_⟩
    unfold HeapSched.back
    omega
  | next => exact trivial

/-- what a step adds to the heap -/
theorem KernelBudget.size_le (h : KernelBudget total (n + 1) k) (htotal : total ≤ 256) (hop : KernelModest k op)
    (e : kernelStep machineVM k op = some k') : k'.heap.heap.heapSize / 4096 + n ≤ total := by
  have hsize := h.size
  cases op with
  | heap op =>
    obtain ⟨s', es, rfl⟩ := Option.map_eq_some_iff.mp e
    exact h.heap.size_le (by omega) (h.modest htotal hop rfl) es
  | store addr w =>
    obtain ⟨vm, -, rfl⟩ := Option.map_eq_some_iff.mp e
    show k.heap.heap.heapSize / 4096 + n ≤ total
    omega
  | schedule proc =>
    obtain ⟨⟨q, heap⟩, eq, rfl⟩ := Option.map_eq_some_iff.mp e
    obtain ⟨⟨array, heap'⟩, ea, er⟩ := Option.map_eq_some_iff.mp eq
    obtain ⟨rfl, rfl⟩ := Prod.mk.inj er
    show heap'.heapSize / 4096 + n ≤ total
    rcases arrayPush_cases machineVM ea with ⟨-, -, hs⟩ | ⟨hfull, data, heap₁, ek, -, hs⟩
    · omega
    · have hstep : heapStep machineVM k.heap (.kmalloc (k.sched.back.grownBytes PTR_SIZE)) =
          some ⟨heap₁, (data, k.sched.back.grownBytes PTR_SIZE) :: k.heap.live⟩ := by
        show (kmalloc machineVM k.heap.heap _).map _ = _
        rw [show kmalloc machineVM k.heap.heap (k.sched.back.grownBytes PTR_SIZE) = some (data, heap₁) from ek,
          Option.map_some]
      have hcall : HeapOp.kmalloc (k.sched.back.grownBytes PTR_SIZE) ∈ heapCall k (.schedule proc) := if_neg hfull
      rw [hs]
      exact h.heap.size_le (by omega) (h.modest htotal hop hcall) hstep
  | next =>
    obtain ⟨r, -, rfl⟩ := Option.map_eq_some_iff.mp e
    show k.heap.heap.heapSize / 4096 + n ≤ total
    omega

/-- the entries that `next_proc` takes leave the arrays as they are, or empty one -/
theorem HeapSched.next_arrays {σ : Type} {V : KernelVM σ} {q q' : HeapSched} {vm : σ} {p : ProcPtr}
    (e : q.next V vm = some (p, q')) (i : Fin 2) :
    (q'.procs i).size ≤ (q.procs i).size ∧ (q'.procs i).capacity = (q.procs i).capacity := by
  have htake {u : HeapSched} (e : u.takeFront V vm = some (p, q')) : q'.procs = u.procs := by
    obtain ⟨w, -, e⟩ := Option.bind_eq_some_iff.mp e
    obtain ⟨j, -, e⟩ := Option.bind_eq_some_iff.mp e
    obtain ⟨-, rfl⟩ := Prod.mk.inj (Option.some.inj e)
    rfl
  have hswap : (q.swapBuffers.procs i).size ≤ (q.procs i).size ∧
      (q.swapBuffers.procs i).capacity = (q.procs i).capacity := by
    show (Function.update q.procs q.front _ i).size ≤ _ ∧ (Function.update q.procs q.front _ i).capacity = _
    by_cases hi : i = q.front
    · subst hi
      rw [Function.update_self]
      exact ⟨Nat.zero_le _, rfl⟩
    · rw [Function.update_of_ne hi]
      exact ⟨le_refl _, rfl⟩
  unfold HeapSched.next at e
  split at e
  · rw [htake e]
    exact ⟨le_refl _, rfl⟩
  · split at e
    · rw [htake e]
      exact hswap
    · obtain ⟨-, rfl⟩ := Prod.mk.inj (Option.some.inj e)
      exact hswap

/-- what a step adds to the arrays -/
theorem KernelBudget.arrays (h : KernelBudget total (n + 1) k) (htotal : total ≤ 256)
    (e : kernelStep machineVM k op = some k') (i : Fin 2) :
    (k'.sched.procs i).size + n ≤ total ∧ (k'.sched.procs i).capacity ≤ 384 := by
  have hsize := h.sizes i
  have hcap := h.capacity i
  cases op with
  | heap op =>
    obtain ⟨s', -, rfl⟩ := Option.map_eq_some_iff.mp e
    exact ⟨by show (k.sched.procs i).size + n ≤ total; omega, hcap⟩
  | store addr w =>
    obtain ⟨vm, -, rfl⟩ := Option.map_eq_some_iff.mp e
    exact ⟨by show (k.sched.procs i).size + n ≤ total; omega, hcap⟩
  | schedule proc =>
    obtain ⟨⟨q, heap⟩, eq, rfl⟩ := Option.map_eq_some_iff.mp e
    obtain ⟨⟨array, heap'⟩, ea, er⟩ := Option.map_eq_some_iff.mp eq
    obtain ⟨rfl, rfl⟩ := Prod.mk.inj er
    show (Function.update k.sched.procs _ array i).size + n ≤ total ∧
      (Function.update k.sched.procs _ array i).capacity ≤ 384
    by_cases hi : i = 1 - k.sched.front
    · subst hi
      rw [Function.update_self]
      rcases arrayPush_cases machineVM ea with ⟨-, rfl, -⟩ | ⟨hfull, data, heap₁, -, rfl, -⟩
      · exact ⟨by show ((k.sched.procs _).size + 1) % 2^64 + n ≤ total; omega, hcap⟩
      · exact ⟨by show ((k.sched.procs _).size + 1) % 2^64 + n ≤ total; omega,
          (grown_small (by omega) hfull).1⟩
    · rw [Function.update_of_ne hi]
      exact ⟨by omega, hcap⟩
  | next =>
    obtain ⟨⟨p, q⟩, eq, rfl⟩ := Option.map_eq_some_iff.mp e
    obtain ⟨h1, h2⟩ := HeapSched.next_arrays eq i
    show (q.procs i).size + n ≤ total ∧ (q.procs i).capacity ≤ 384
    omega

/-- **A modest step takes one page of the budget at most.** -/
theorem KernelBudget.step (h : KernelBudget total (n + 1) k) (htotal : total ≤ 256) (hop : KernelModest k op)
    (e : kernelStep machineVM k op = some k') : KernelBudget total n k' := by
  have harrays := h.arrays htotal e
  refine ⟨?_, h.size_le htotal hop e, fun i => (harrays i).1, fun i => (harrays i).2⟩
  obtain ⟨bs, t, hrep⟩ := h.rep
  have hresize : KernelResize machineVM SpareGrow (fun _ _ _ => False) k op := fun call hcall =>
    h.heap.resizeOk (by omega) (h.modest htotal hop hcall) hrep.heap
  obtain ⟨u, bs', t', e', -, hrep'⟩ := hrep.step (machine_spareVM _) (h.ok htotal hop).1 hresize
  obtain rfl := Option.some.inj (e'.symm.trans e)
  exact ⟨bs', t', hrep'⟩

/-- **Modest steps are legal and have what they need**, as long as the budget lasts. -/
theorem KernelBudget.along (htotal : total ≤ 256) (ops : List KernelOp) (h : KernelBudget total (ops.length + n) k)
    (hops : Along (kernelStep machineVM) KernelModest k ops) :
    Along (kernelStep machineVM) (fun k op => KernelLegal k op ∧ KernelRoom k op) k ops :=
  (along_of_budget (fun _ _ _ hb hop => ⟨hb.ok htotal hop, fun _ e => hb.step htotal hop e⟩) ops k h hops).1

/-! ### runs -/

/-- **The run queue of the heap is a queue**, after any calls of `kmalloc` and `kfree` before
`proc_init`, and for every interleaving of `proc_schedule` and `next_proc` with calls and stores of
other code: over the page tables of the machine, as long as the heap finds room and `page_iter` visits
the pages of every block. -/
theorem kernelQueue_fifo (hm : HeapStart m) (before : List HeapOp) (ops : List KernelOp)
    (hlegal : Along (heapStep machineVM) HeapLegal ⟨⟨m, 0⟩, []⟩ before)
    (hroom : Along (heapStep machineVM) (fun s op => HeapRoom s op ∧ HeapReach s op) ⟨⟨m, 0⟩, []⟩
      (before ++ HeapSched.procInitCalls))
    (hops : ∀ k ∈ (run (heapStep machineVM) ⟨⟨m, 0⟩, []⟩ before).bind (kernelStart machineVM),
      Along (kernelStep machineVM) (fun k op => KernelLegal k op ∧ KernelRoom k op) k ops) :
    ∃ k, (run (heapStep machineVM) ⟨⟨m, 0⟩, []⟩ before).bind (kernelStart machineVM) = some k ∧
      Always (kernelStep machineVM) (fun k => KernelFifoInv machineVM k ∧ HeapMapped k.heap)
        (KernelFifo machineVM) k ops := by
  -- what the calls need, by the blocks of the heap
  have hlegal' : Along (heapStep machineVM) HeapLegal ⟨⟨m, 0⟩, []⟩ (before ++ HeapSched.procInitCalls) :=
    along_append.mpr ⟨hlegal, fun s _ => HeapSched.procInitCalls_along (fun _ => trivial) s⟩
  have hok : Along (heapStep machineVM) (ResizeOk machineVM CanGrow CanCut) ⟨⟨m, 0⟩, []⟩
      (before ++ HeapSched.procInitCalls) := by
    refine Along.of_inv (I := fun s => ∃ bs, HeapWf machineVM HeapBacked s bs) ?_ _ _ ⟨[], hm.wf⟩
      (hlegal'.and _ _ hroom)
    rintro s op ⟨bs, hs⟩ ⟨hl, hr, hv⟩
    have hres := hs.resizeOk hl hr hv
    obtain ⟨s', bs', e, -, hs'⟩ := heap_step machine_heapVM hs hl hres
    exact ⟨hres, fun u hu => Option.some.inj (e.symm.trans hu) ▸ ⟨bs', hs'⟩⟩
  obtain ⟨k, bs, e, h⟩ := kernelStart_rep machine_heapVM hm.wf before hlegal hok
  have hrun : Always (kernelStep machineVM) (fun k => ∃ bs t, k.Rep machineVM HeapBacked bs t)
      (KernelFifo machineVM) k ops := by
    refine always_of_step ?_ ops k ⟨bs, procInit, h⟩ (hops k e)
    rintro k op ⟨bs, t, hrep⟩ ⟨hop, hr⟩
    obtain ⟨k', bs', t', es, hfifo, hrep'⟩ := hrep.step machine_heapVM hop (hrep.resize hop hr)
    exact ⟨k', es, hfifo, bs', t', hrep'⟩
  exact ⟨k, e, hrun.mono (fun _ ⟨_, _, hrep⟩ => ⟨hrep.inv, hrep.heap.mapped⟩) fun _ _ _ _ hr _ => hr⟩

/-- **A kernel that keeps to one page at a time**: what its steps need, from the number of pages that are free -/
theorem HeapStart.modest (hm : HeapStart m) (before : List HeapOp)
    (hfree : 4 * (before.length + 3 + n) ≤ m.pmem.pagesFree) (hn : before.length + 3 + n ≤ 256)
    (hbefore : Along (heapStep machineVM) HeapModest ⟨⟨m, 0⟩, []⟩ before) :
    Along (heapStep machineVM) (fun s op => HeapLegal s op ∧ HeapRoom s op ∧ HeapReach s op) ⟨⟨m, 0⟩, []⟩
      (before ++ HeapSched.procInitCalls) ∧
    ∀ k ∈ (run (heapStep machineVM) ⟨⟨m, 0⟩, []⟩ before).bind (kernelStart machineVM),
      KernelBudget (before.length + 3 + n) n k := by
  have hb := hm.budget hfree
  have hcalls : Along (heapStep machineVM) HeapModest ⟨⟨m, 0⟩, []⟩ (before ++ HeapSched.procInitCalls) :=
    along_append.mpr ⟨hbefore, fun s _ =>
      HeapSched.procInitCalls_along (fun _ => show blockPages 128 = 1 from rfl) s⟩
  have hbudget : HeapBudget (before.length + 3 + n) ((before ++ HeapSched.procInitCalls).length + n) ⟨⟨m, 0⟩, []⟩ := by
    rw [List.length_append]
    exact hb
  obtain ⟨hok, hend⟩ := HeapBudget.along (by omega) _ hbudget hcalls
  refine ⟨Along.mono (fun _ _ h => h.1) _ _ hok, fun k hk => ?_⟩
  -- the run queue after `proc_init`
  obtain ⟨bs, hw⟩ := hb.wf
  have hlegal := (along_append.mp (Along.mono (fun _ _ h => h.1.1) _ _ hok)).1
  obtain ⟨k', bs', e, hrep⟩ :=
    kernelStart_rep (machine_spareVM _) hw before hlegal (Along.mono (fun _ _ h => h.2) _ _ hok)
  obtain rfl := Option.some.inj (e.symm.trans hk)
  obtain ⟨s, es, ek⟩ := Option.bind_eq_some_iff.mp e
  obtain ⟨⟨q, heap⟩, eq, rfl⟩ := Option.map_eq_some_iff.mp ek
  have hlast := hend ⟨heap, q.initLive s.live⟩ (by rw [run_append, es, Option.bind_some, HeapSched.init_run eq])
  have hprocs (i : Fin 2) : (q.procs i).size = 0 ∧ (q.procs i).capacity = 16 :=
    ⟨(hrep.sim.procs i).size, (hrep.sim.procs i).capacity⟩
  refine ⟨⟨bs', procInit, hrep⟩, hlast.size, fun i => ?_, fun i => ?_⟩
  · have h0 := (hprocs i).1
    show (q.procs i).size + n ≤ _
    omega
  · have h16 := (hprocs i).2
    show (q.procs i).capacity ≤ 384
    omega

/-- the first block of the heap is not the last one: the arrays lie behind it -/
theorem KernelBudget.free_first (h : KernelBudget total n k) {y : Nat × Nat} (hy : y ∈ k.heap.live)
    (hfirst : y.1 = HEAP_BASE + HEADER) (hne : y.1 ∉ k.sched.blocks) : KernelModest k (.heap (.kfree y.1)) := by
  obtain ⟨bs, t, hrep⟩ := h.rep
  have hz := hrep.sim.listFree.live
  have hlt : y.1 < k.sched.listFree.data := by
    obtain ⟨x, hx, hp, -⟩ := hrep.heap.live.block _ hz
    have hlo := (starts_range hx).1
    have hz' : y.1 ≠ k.sched.listFree.data := fun e => hne (e ▸ List.mem_cons_self ..)
    have hp' : k.sched.listFree.data = x.1 + HEADER := hp
    omega
  refine ⟨⟨.inr (List.mem_map_of_mem hy), fun bs ht off len => hrep.heap.not_last hy hz hlt ht off len⟩,
    fun d hd e => hne ?_⟩
  rw [HeapOp.kfree.inj e]
  exact hd

/-- the run queue after one block was allocated -/
theorem kernelStart_first (hm : HeapStart m) {size : Nat} (hg : CanGrow m 0 (blockLen size))
    (hk : k ∈ (run (heapStep machineVM) ⟨⟨m, 0⟩, []⟩ [.kmalloc size]).bind (kernelStart machineVM)) :
    k.heap.live = k.sched.initLive [(HEAP_BASE + HEADER, size)] := by
  obtain ⟨heap, e, -, -⟩ := hm.kmalloc hg
  have hrun : run (heapStep machineVM) ⟨⟨m, 0⟩, []⟩ [.kmalloc size] = some ⟨heap, [(HEAP_BASE + HEADER, size)]⟩ := by
    show ((kmalloc machineVM ⟨m, 0⟩ size).map _).bind _ = _
    rw [e, Option.map_some, Option.bind_some, run]
  rw [hrun, Option.bind_some] at hk
  obtain ⟨⟨q, heap'⟩, -, rfl⟩ := Option.map_eq_some_iff.mp hk
  rfl

/-- A block is allocated before `proc_init`, written and freed; the back array grows. -/
theorem kernelQueue_fifo_grown :
    ∃ k, (run (heapStep machineVM) ⟨⟨heapMachine, 0⟩, []⟩ [.kmalloc 3000]).bind (kernelStart machineVM) = some k ∧
      Always (kernelStep machineVM) (fun k => KernelFifoInv machineVM k ∧ HeapMapped k.heap)
        (KernelFifo machineVM) k ([.store (HEAP_BASE + HEADER) 7, .heap (.kfree (HEAP_BASE + HEADER)), .schedule 0x1000,
          .next] ++ (List.range' 0x2000 17).map .schedule ++ [.next, .heap (.kmalloc 200), .next]) := by
  have hpage : blockPages 3000 = 1 := rfl
  have hg := heapMachine_grow (hpage.trans_le (by decide))
  obtain ⟨hroom, hbudget⟩ := heapMachine_start.modest (n := 24) [.kmalloc 3000] (by decide) (by decide)
    ⟨hpage, fun _ _ => trivial⟩
  refine kernelQueue_fifo heapMachine_start _ _ ⟨trivial, fun _ _ => trivial⟩
    (Along.mono (fun _ _ h => h.2) _ _ hroom) fun k hk => ?_
  have hb := hbudget k hk
  have hlive := kernelStart_first heapMachine_start hg hk
  -- the first block is none of the arrays
  have hfirst : HEAP_BASE + HEADER ∉ k.sched.blocks := by
    obtain ⟨bs, t, hrep⟩ := hb.rep
    have hnd := hrep.heap.live.nodup
    rw [hlive] at hnd
    simp only [HeapSched.initLive, List.map_cons, List.map_nil, List.nodup_cons, List.mem_cons, not_or] at hnd
    simp only [HeapSched.blocks, List.mem_cons, List.not_mem_nil, or_false, not_or]
    exact ⟨Ne.symm hnd.2.2.1.1, Ne.symm hnd.2.1.2.1, Ne.symm hnd.1.2.2.1⟩
  have hy : (HEAP_BASE + HEADER, 3000) ∈ k.heap.live := by
    rw [hlive]
    exact List.mem_append_right [_, _, _] (List.mem_singleton_self _)
  have hstore : KernelModest k (.store (HEAP_BASE + HEADER) 7) := by
    refine ⟨_, hy, hfirst, ?_, le_refl _, Nat.add_le_add_left (by decide) _⟩
    have hbase := HEAP_BASE_mod
    unfold HEADER
    omega
  -- what comes behind the first two steps is modest wherever it happens
  have hrest : ∀ op ∈ [KernelOp.schedule 0x1000, .next] ++ (List.range' 0x2000 17).map .schedule ++
      [.next, .heap (.kmalloc 200), .next], ∀ k, KernelModest k op := by
    intro op hop k
    simp only [List.mem_append, List.mem_cons, List.mem_map, List.mem_range'_1, List.not_mem_nil, or_false] at hop
    rcases hop with ((rfl | rfl) | ⟨p, hp, rfl⟩) | rfl | rfl | rfl
    · exact ⟨by decide, by decide⟩
    · exact trivial
    · exact ⟨Nat.ne_of_gt (Nat.lt_of_lt_of_le (by decide) hp.1), Nat.lt_trans hp.2 (by decide)⟩
    · exact trivial
    · exact ⟨rfl, fun d _ e => HeapOp.noConfusion e⟩
    · exact trivial
  refine KernelBudget.along (n := 0) (show 28 ≤ 256 by decide) _ hb ⟨hstore, fun k' e => ⟨?_, fun k'' _ =>
    along_of_forall _ hrest k''⟩⟩
  have hb' := hb.step (show 28 ≤ 256 by decide) hstore e
  obtain ⟨vm, -, rfl⟩ := Option.map_eq_some_iff.mp e
  exact hb'.free_first hy rfl hfirst

end
end FuseeOS
