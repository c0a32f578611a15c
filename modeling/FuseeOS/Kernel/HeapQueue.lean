import FuseeOS.Kernel.HeapArray

/-!
# The run queue in the heap

`proc_init`, `proc_schedule` and `next_proc` of `proc.c` on arrays that lie in the kernel heap.

* `HeapSched.Sim`          the run queue of the heap and the one of lists;
* `HeapSched.Sim.init`, `HeapSched.Sim.schedule`, `HeapSched.Sim.next`   the two do the same;
* `HeapSched.Sim.queue`    the entries in memory are those of the lists.
-/

namespace FuseeOS
open Tiling StepRun

/-- an index of `gScheduledProcs` is 0 or 1 -/
local instance neZero_buffers : NeZero 2 := ⟨Nat.succ_ne_zero 1⟩

/-- `gProcessListFree`, `gScheduledProcs`, `gScheduledProcsFront`, `gScheduledProcsIndex` -/
structure HeapSched where
  listFree : HeapArray
  procs : Fin 2 → HeapArray
  front : Fin 2
  index : Int

namespace HeapSched
section
variable {σ : Type} (V : KernelVM σ)

/-- `proc_init` -/
def init (s : Heap σ) : Option (HeapSched × Heap σ) := do
  let (listFree, s) ← heapArrayInit V s PTR_SIZE 16
  let (procs0, s) ← heapArrayInit V s PTR_SIZE 16
  let (procs1, s) ← heapArrayInit V s PTR_SIZE 16
  return (⟨listFree, fun i => if i = 0 then procs0 else procs1, 0, 0⟩, s)

/-- `proc_schedule` -/
def schedule (s : HeapSched) (heap : Heap σ) (proc : ProcPtr) : Option (HeapSched × Heap σ) :=
  (arrayPush V heap (s.procs (1 - s.front)) PTR_SIZE (BitVec.ofNat 64 proc)).map fun (array, heap) =>
    ({ s with procs := Function.update s.procs (1 - s.front) array }, heap)

/-- `*ARRAY_AT(&gScheduledProcs[gScheduledProcsFront], Process*, gScheduledProcsIndex++)` -/
def takeFront (s : HeapSched) (vm : σ) : Option (ProcPtr × HeapSched) := do
  let proc ← V.load vm (((s.procs s.front).data + CInt.toU64 s.index * PTR_SIZE) % 2^64)
  let index ← CInt.intAdd? s.index 1
  return (proc.toNat, { s with index := index })

/-- the front buffer is fully processed: the buffers are swapped -/
def swapBuffers (s : HeapSched) : HeapSched :=
  { s with
    procs := Function.update s.procs s.front { s.procs s.front with size := 0 }
    front := 1 - s.front
    index := 0 }

/-- `next_proc` -/
def next (s : HeapSched) (vm : σ) : Option (ProcPtr × HeapSched) :=
  if CInt.toU64 s.index < (s.procs s.front).size then s.takeFront V vm
  else if (s.swapBuffers.procs s.swapBuffers.front).size ≠ 0 then s.swapBuffers.takeFront V vm
  else some (NULL, s.swapBuffers)

/-- the cells of an array from the one at `lo` to the last one in use, as they are in memory -/
def cells (vm : σ) (array : HeapArray) (lo : Nat) : List (Option ProcPtr) :=
  (List.range' lo (array.size - lo)).map fun i => (V.load vm (array.data + 8 * i)).map BitVec.toNat

/-- entries that `next_proc` has not returned yet -/
def queue (s : HeapSched) (vm : σ) : List (Option ProcPtr) :=
  cells V vm (s.procs s.front) (CInt.toU64 s.index) ++ cells V vm (s.procs (1 - s.front)) 0

end

/-- the allocations that are live after `proc_init` -/
def initLive (s : HeapSched) (live : List (Nat × Nat)) : List (Nat × Nat) :=
  ((s.procs 1).data, 128) :: ((s.procs 0).data, 128) :: (s.listFree.data, 128) :: live

/-- the array that `proc_schedule` appends to -/
def back (s : HeapSched) : HeapArray := s.procs (1 - s.front)

/-- the calls of `kmalloc` in `proc_init` -/
def procInitCalls : List HeapOp := List.replicate 3 (.kmalloc (PTR_SIZE * 16))

/-- the blocks of the arrays -/
def blocks (s : HeapSched) : List Nat := [s.listFree.data, (s.procs 0).data, (s.procs 1).data]

/-! ## the two run queues -/

/-- the arrays of `q` are those of the run queue `t` of lists, each in a block of its own -/
structure Sim {σ : Type} (V : KernelVM σ) (s : HeapState σ) (q : HeapSched) (t : Sched) : Prop where
  listFree : q.listFree.Sim V s (CArray.init ProcPtr PTR_SIZE 16)
  procs : ∀ i, (q.procs i).Sim V s (t.procs i)
  front : q.front = t.front
  index : q.index = t.index
  listApart : ∀ i, q.listFree.data ≠ (q.procs i).data
  apart : ∀ i j, i ≠ j → (q.procs i).data ≠ (q.procs j).data

section
variable {σ : Type} {V : KernelVM σ} {Maps : σ → Nat → Prop} {MapOk UnmapOk : σ → Nat → Nat → Prop}
  {s s' : HeapState σ} {bs : List Blk} {q : HeapSched} {t : Sched} {p : Nat} {ps : List ProcPtr}

theorem mem_blocks (q : HeapSched) : (i : Fin 2) → (q.procs i).data ∈ q.blocks
  | 0 => by simp [blocks]
  | 1 => by simp [blocks]

theorem Sim.live (h : q.Sim V s t) {d : Nat} (hd : d ∈ q.blocks) : d ∈ s.live.map Prod.fst := by
  unfold blocks at hd
  simp only [List.mem_cons, List.not_mem_nil, or_false] at hd
  rcases hd with rfl | rfl | rfl
  · exact List.mem_map_of_mem h.listFree.live
  · exact List.mem_map_of_mem (h.procs 0).live
  · exact List.mem_map_of_mem (h.procs 1).live

/-- blocks of other code change -/
theorem Sim.kept (h : q.Sim V s t) (hw : HeapWf V Maps s bs) (hk : KeepsBut V p s s') (hp : p ∉ q.blocks) :
    q.Sim V s' t := by
  have hne {d : Nat} (hd : d ∈ q.blocks) : d ≠ p := fun e => hp (e ▸ hd)
  exact ⟨h.listFree.kept hw hk (hne (List.mem_cons_self ..)),
    fun i => (h.procs i).kept hw hk (hne (q.mem_blocks i)), h.front, h.index, h.listApart, h.apart⟩

/-- **`proc_schedule`** is the same on both sides -/
theorem Sim.schedule (hV : HeapVM V Maps MapOk UnmapOk) (hw : HeapWf V Maps s bs) (h : q.Sim V s t)
    (hq : t.Queued ps) {proc : ProcPtr} (hsize : q.back.size + 1 < 2^31) (hp : proc < 2^64)
    (hok : ¬ q.back.size < q.back.capacity →
      ResizeOk V MapOk UnmapOk s (.kmalloc (q.back.grownBytes PTR_SIZE))) :
    ∃ q' heap bs' t', q.schedule V s.heap proc = some (q', heap) ∧ t'.Queued (ps ++ [proc]) ∧
      HeapWf V Maps ⟨heap, arrayLive s.live q.back q'.back PTR_SIZE⟩ bs' ∧
      q'.Sim V ⟨heap, arrayLive s.live q.back q'.back PTR_SIZE⟩ t' := by
  obtain ⟨f, b, i, hrep, rfl⟩ := hq
  have hfront := h.front
  have hback := h.procs (1 - q.front)
  unfold back at hsize hok ⊢
  rw [hback.size] at hsize hok
  rw [hback.capacity] at hok
  rw [hfront] at hback hsize hok ⊢
  have hb := hrep.back.size
  obtain ⟨array, heap, bs', c, e, ec, hc, hw', ha, hnew, hk⟩ :=
    hback.push hV hw hrep.back (by omega) hp hok
  -- the block of no other array
  have hother {d : Nat} (hd : d ∈ s.live.map Prod.fst) (hne : d ≠ (q.procs (1 - t.front)).data) :
      d ≠ array.data := by
    rintro rfl
    exact hnew.elim hne fun hn => hn hd
  have hproc {j : Fin 2} (hj : j ≠ 1 - t.front) : (q.procs j).data ≠ array.data :=
    hother (List.mem_map_of_mem (h.procs j).live) (h.apart j _ hj)
  have hfree : q.listFree.data ≠ array.data :=
    hother (List.mem_map_of_mem h.listFree.live) (h.listApart _)
  have hupdate : Function.update q.procs (1 - t.front) array (1 - q.front) = array := by
    rw [hfront, Function.update_self]
  refine ⟨{ q with procs := Function.update q.procs (1 - t.front) array }, heap, bs',
    { t with procs := Function.update t.procs (1 - t.front) c }, ?_, ?_, ?_, ?_⟩
  · unfold HeapSched.schedule
    rw [hfront, e, Option.map_some]
  · obtain ⟨t', et, ht'⟩ := procSchedule_spec hrep (by omega) proc
    unfold procSchedule at et
    rw [ec, Option.map_some, Option.some.injEq] at et
    subst et
    exact ⟨f, b ++ [proc], i, ht', (List.append_assoc ..).symm⟩
  · show HeapWf V Maps ⟨heap, arrayLive s.live _ (Function.update q.procs _ array (1 - q.front)) PTR_SIZE⟩ bs'
    rw [hupdate]
    exact hw'
  · show HeapSched.Sim V ⟨heap, arrayLive s.live _ (Function.update q.procs _ array (1 - q.front)) PTR_SIZE⟩ _ _
    rw [hupdate]
    refine ⟨h.listFree.kept hw hk hfree, fun j => ?_, hfront, h.index, fun j => ?_, fun j k hjk => ?_⟩
    · show HeapArray.Sim V _ (Function.update q.procs _ array j) (Function.update t.procs _ c j)
      by_cases hj : j = 1 - t.front
      · subst hj
        rw [Function.update_self, Function.update_self]
        exact ha
      · rw [Function.update_of_ne hj, Function.update_of_ne hj]
        exact (h.procs j).kept hw hk (hproc hj)
    · show _ ≠ (Function.update q.procs _ array j).data
      by_cases hj : j = 1 - t.front
      · subst hj
        rw [Function.update_self]
        exact hfree
      · rw [Function.update_of_ne hj]
        exact h.listApart j
    · show (Function.update q.procs _ array j).data ≠ (Function.update q.procs _ array k).data
      by_cases hj : j = 1 - t.front
      · subst hj
        rw [Function.update_self, Function.update_of_ne hjk.symm]
        exact (hproc hjk.symm).symm
      · rw [Function.update_of_ne hj]
        by_cases hk : k = 1 - t.front
        · subst hk
          rw [Function.update_self]
          exact hproc hj
        · rw [Function.update_of_ne hk]
          exact h.apart j k hjk

/-- the entry at the cursor -/
theorem Sim.takeFront (hw : HeapWf V Maps s bs) (h : q.Sim V s t) {x : ProcPtr} {t' : Sched}
    (e : FuseeOS.takeFront t = some (x, t')) :
    ∃ q', q.takeFront V s.heap.vm = some (x, q') ∧ q'.Sim V s t' := by
  have e' : ((t.procs t.front).load (CInt.toU64 t.index)).bind (fun x => (CInt.intAdd? t.index 1).bind
      fun i => some (x, { t with index := i })) = some (x, t') := e
  obtain ⟨y, hy, e'⟩ := Option.bind_eq_some_iff.mp e'
  obtain ⟨i, hi, e'⟩ := Option.bind_eq_some_iff.mp e'
  rw [Option.some.injEq, Prod.mk.injEq] at e'
  obtain ⟨rfl, rfl⟩ := e'
  have hfront := h.procs t.front
  obtain ⟨hlt, hl⟩ := hfront.load hy
  have hin : CInt.toU64 t.index < (t.procs t.front).capacity := by
    unfold CArray.load at hy
    obtain ⟨hin, -⟩ := List.getElem?_eq_some_iff.mp (Option.join_eq_some_iff.mp hy)
    rwa [hfront.cells] at hin
  refine ⟨{ q with index := i }, ?_, h.listFree, h.procs, h.front, rfl, h.listApart, h.apart⟩
  unfold HeapSched.takeFront
  rw [h.front, h.index, hfront.cell hw hin, hl, Option.bind_eq_bind, Option.bind_some, hi,
    Option.bind_eq_bind, Option.bind_some, BitVec.toNat_ofNat, Nat.mod_eq_of_lt hlt]
  rfl

theorem Sim.swapBuffers (h : q.Sim V s t) : q.swapBuffers.Sim V s (FuseeOS.swapBuffers t) := by
  have hdata (j : Fin 2) : (q.swapBuffers.procs j).data = (q.procs j).data := by
    show (Function.update q.procs q.front _ j).data = _
    by_cases hj : j = q.front
    · subst hj
      rw [Function.update_self]
    · rw [Function.update_of_ne hj]
  refine ⟨h.listFree, fun j => ?_, congrArg (fun i => 1 - i) h.front, rfl, fun j => ?_, fun j k hjk => ?_⟩
  · show HeapArray.Sim V s (Function.update q.procs q.front _ j) (Function.update t.procs t.front _ j)
    rw [h.front]
    by_cases hj : j = t.front
    · subst hj
      have hs := h.procs t.front
      rw [Function.update_self, Function.update_self]
      exact ⟨rfl, hs.capacity, hs.live, hs.cells, hs.words⟩
    · rw [Function.update_of_ne hj, Function.update_of_ne hj]
      exact h.procs j
  · rw [hdata]
    exact h.listApart j
  · rw [hdata, hdata]
    exact h.apart j k hjk

/-- **`next_proc`** is the same on both sides -/
theorem Sim.next (hw : HeapWf V Maps s bs) (h : q.Sim V s t) {x : ProcPtr} {t' : Sched}
    (e : nextProc t = some (x, t')) : ∃ q', q.next V s.heap.vm = some (x, q') ∧ q'.Sim V s t' := by
  have hswap := h.swapBuffers
  unfold nextProc at e
  unfold HeapSched.next
  rw [h.index, h.front, (h.procs t.front).size, hswap.front, (hswap.procs _).size]
  by_cases hlt : CInt.toU64 t.index < (t.procs t.front).size
  · rw [if_pos hlt] at e ⊢
    exact h.takeFront hw e
  · rw [if_neg hlt] at e ⊢
    by_cases hne : ((FuseeOS.swapBuffers t).procs (FuseeOS.swapBuffers t).front).size ≠ 0
    · rw [if_pos hne] at e ⊢
      exact hswap.takeFront hw e
    · rw [if_neg hne, Option.some.injEq, Prod.mk.injEq] at e
      obtain ⟨rfl, rfl⟩ := e
      rw [if_neg hne]
      exact ⟨_, rfl, hswap⟩

/-- **`proc_init`** makes three calls of `kmalloc`; the arrays are empty -/
theorem Sim.init (hV : HeapVM V Maps MapOk UnmapOk) (hw : HeapWf V Maps s bs)
    (hok : Along (heapStep V) (ResizeOk V MapOk UnmapOk) s procInitCalls) :
    ∃ q heap bs', HeapSched.init V s.heap = some (q, heap) ∧ HeapWf V Maps ⟨heap, q.initLive s.live⟩ bs' ∧
      q.Sim V ⟨heap, q.initLive s.live⟩ procInit := by
  obtain ⟨a, heap₁, bs₁, e₁, hw₁, hn₁, ha₁, -⟩ := HeapArray.Sim.init hV hw hok.1
  have s₁ := HeapArray.Sim.init_step e₁
  have hok₂ := hok.2 _ s₁
  obtain ⟨b, heap₂, bs₂, e₂, hw₂, hn₂, hb₂, hk₂⟩ := HeapArray.Sim.init hV hw₁ hok₂.1
  have hok₃ := hok₂.2 _ (HeapArray.Sim.init_step e₂)
  obtain ⟨c, heap₃, bs₃, e₃, hw₃, hn₃, hc₃, hk₃⟩ := HeapArray.Sim.init hV hw₂ hok₃.1
  simp only [List.map_cons, List.mem_cons, not_or] at hn₂ hn₃
  refine ⟨⟨a, fun i => if i = 0 then b else c, 0, 0⟩, heap₃, bs₃, ?_, hw₃, ?_, fun i => ?_, rfl, rfl,
    fun i => ?_, fun i j hij => ?_⟩
  · unfold HeapSched.init
    simp only [e₁, e₂, e₃, Option.bind_eq_bind, Option.bind_some]
    rfl
  · have ha₂ := ha₁.kept hw₁ (hk₂ _) (Nat.ne_of_lt (Nat.lt_succ_self _))
    exact ha₂.kept hw₂ (hk₃ _) (Nat.ne_of_lt (Nat.lt_succ_self _))
  · match i with
    | 0 => exact hb₂.kept hw₂ (hk₃ _) (Nat.ne_of_lt (Nat.lt_succ_self _))
    | 1 => exact hc₃
  · match i with
    | 0 => exact Ne.symm hn₂.1
    | 1 => exact Ne.symm hn₃.2.1
  · match i, j with
    | 0, 0 => exact absurd rfl hij
    | 0, 1 => exact Ne.symm hn₃.1
    | 1, 0 => exact hn₃.1
    | 1, 1 => exact absurd rfl hij

/-- the cells in use are read back -/
theorem cells_eq {array : HeapArray} {c : CArray ProcPtr} {xs : List ProcPtr} (h : array.Sim V s c)
    (hc : c.Holds xs) (lo : Nat) : cells V s.heap.vm array lo = (xs.drop lo).map some := by
  refine List.ext_getElem ?_ fun i hi hi' => ?_
  · unfold cells
    rw [List.length_map, List.length_range', List.length_map, List.length_drop, h.size, hc.size]
  · rw [List.length_map, List.length_drop] at hi'
    obtain ⟨hx, hl⟩ := h.load (hc.load (lo + i) (by omega))
    rw [List.getElem_map, List.getElem_drop]
    simp only [cells, List.getElem_map, List.getElem_range', Nat.one_mul]
    rw [hl, Option.map_some, BitVec.toNat_ofNat, Nat.mod_eq_of_lt hx]

theorem Sim.queue (h : q.Sim V s t) (hq : t.Queued ps) : q.queue V s.heap.vm = ps.map some := by
  obtain ⟨f, b, i, hrep, rfl⟩ := hq
  have hfront := cells_eq (h.procs t.front) hrep.front i
  have hback := cells_eq (h.procs (1 - t.front)) hrep.back 0
  unfold HeapSched.queue
  rw [h.front, h.index, hrep.toU64_index, hfront, hback, List.drop_zero, List.map_append]

end

end HeapSched

end FuseeOS
