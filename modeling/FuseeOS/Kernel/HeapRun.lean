import FuseeOS.Lib.Run
import FuseeOS.Kernel.HeapRep

/-!
# Runs of the heap

The heap together with the live allocations, each with its pointer and the size it was requested
with.

* `LiveRep.alloc`, `LiveRep.free`   blocks marked used and live allocations stay the same thing;
* `heap_step`                       what a call keeps, over any memory that satisfies `HeapVM`;
* `heap_blocks`                     every run from an empty heap, when mapping is exact.
-/

namespace FuseeOS
open Tiling StepRun

/-! ## live allocations -/

/-- used blocks are the live allocations: `live` lists pointers and requested sizes -/
structure LiveRep (live : List (Nat × Nat)) (bs : List Blk) : Prop where
  used : ∀ x ∈ starts Blk.len HEAP_BASE bs, x.2.used = true ↔ x.1 + HEADER ∈ live.map Prod.fst
  block : ∀ y ∈ live, ∃ x ∈ starts Blk.len HEAP_BASE bs,
    y.1 = x.1 + HEADER ∧ y.2 + HEADER ≤ x.2.len
  nodup : (live.map Prod.fst).Nodup

section
variable {live : List (Nat × Nat)} {bs bs' : List Blk} {size off : Nat}

/-- the block of a live allocation is used -/
theorem LiveRep.used_block (h : LiveRep live bs) {y : Nat × Nat} (hy : y ∈ live) :
    ∃ x ∈ starts Blk.len HEAP_BASE bs, y.1 = x.1 + HEADER ∧ y.2 + HEADER ≤ x.2.len ∧
      x.2.used = true := by
  obtain ⟨x, hx, hp, hlen⟩ := h.block y hy
  exact ⟨x, hx, hp, hlen, (h.used x hx).mpr (hp ▸ List.mem_map_of_mem hy)⟩

/-- a step keeps the used blocks, and touches none of their addresses -/
theorem AllocStep.stay (hpos : ∀ b ∈ bs, 0 < b.len) (hstep : AllocStep size bs off bs')
    {x : Nat × Blk} (hx : x ∈ starts Blk.len HEAP_BASE bs) (hu : x.2.used = true) :
    x ∈ starts Blk.len HEAP_BASE bs' ∧
      (x.1 + x.2.len ≤ HEAP_BASE + off ∨ HEAP_BASE + off < x.1) := by
  cases hstep with
  | reuse l r b hfit hbest =>
    have hb : (HEAP_BASE + total Blk.len l, b) ∈ starts Blk.len HEAP_BASE (l ++ b :: r) :=
      mem_starts.mpr ⟨l, r, rfl, rfl⟩
    have hlen := hpos b (starts_mem hb)
    have hap : x.1 + x.2.len ≤ HEAP_BASE + total Blk.len l ∨ HEAP_BASE + total Blk.len l < x.1 := by
      rcases starts_apart hx hb with rfl | hap | hap
      · have hu' : b.used = true := hu
        rw [hfit.1] at hu'
        exact nomatch hu'
      · exact .inl hap
      · have hap' : HEAP_BASE + total Blk.len l + b.len ≤ x.1 := hap
        omega
    have hlx := hpos _ (starts_mem hx)
    exact ⟨(mem_starts_replace (c := ⟨b.len, true⟩) hpos rfl).mpr (.inr ⟨hx, by omega⟩), hap⟩
  | grow _ hnone => exact ⟨mem_starts_concat.mpr (.inl hx), .inl (starts_range hx).2⟩

theorem FreeStep.stay (hpos : ∀ b ∈ bs, 0 < b.len) (hstep : FreeStep bs off bs')
    {x : Nat × Blk} (hx : x ∈ starts Blk.len HEAP_BASE bs) (hu : x.2.used = true)
    (hne : x.1 ≠ HEAP_BASE + off) : x ∈ starts Blk.len HEAP_BASE bs' ∧
      (x.1 + x.2.len ≤ HEAP_BASE + off ∨ HEAP_BASE + off < x.1) := by
  obtain ⟨l, r, b⟩ := hstep
  have hb : (HEAP_BASE + total Blk.len l, b) ∈ starts Blk.len HEAP_BASE (l ++ b :: r) :=
    mem_starts.mpr ⟨l, r, rfl, rfl⟩
  have hlen := hpos b (starts_mem hb)
  have hrep : x ∈ starts Blk.len HEAP_BASE (l ++ ⟨b.len, false⟩ :: r) :=
    (mem_starts_replace (c := ⟨b.len, false⟩) hpos rfl).mpr (.inr ⟨hx, hne⟩)
  refine ⟨mem_starts_rdropWhile hrep (by rw [hu]; rfl), ?_⟩
  rcases starts_apart hx hb with rfl | hap | hap
  · exact absurd rfl hne
  · exact .inl hap
  · have hap' : HEAP_BASE + total Blk.len l + b.len ≤ x.1 := hap
    omega

theorem LiveRep.alloc (h : LiveRep live bs) (hpos : ∀ b ∈ bs, 0 < b.len)
    (hstep : AllocStep size bs off bs') :
    LiveRep ((HEAP_BASE + off + HEADER, size) :: live) bs' := by
  -- no live allocation starts at the block that is taken
  have key (hnot : HEAP_BASE + off + HEADER ∉ live.map Prod.fst) (b : Blk) (hb : b.used = true)
      (hlen : size + HEADER ≤ b.len)
      (hmem : ∀ x, x ∈ starts Blk.len HEAP_BASE bs' ↔ x = (HEAP_BASE + off, b) ∨
        x ∈ starts Blk.len HEAP_BASE bs ∧ x.1 ≠ HEAP_BASE + off) :
      LiveRep ((HEAP_BASE + off + HEADER, size) :: live) bs' := by
    refine ⟨fun x hx => ?_, fun y hy => ?_, ?_⟩
    · rw [List.map_cons, List.mem_cons]
      rcases (hmem x).mp hx with rfl | ⟨hx, hne⟩
      · exact ⟨fun _ => .inl rfl, fun _ => hb⟩
      · rw [h.used x hx]
        exact ⟨.inr, fun hor => hor.resolve_left fun e => hne (Nat.add_right_cancel e)⟩
    · rcases List.mem_cons.mp hy with rfl | hy
      · exact ⟨_, (hmem _).mpr (.inl rfl), rfl, hlen⟩
      · obtain ⟨x, hx, hp, hlen⟩ := h.block y hy
        refine ⟨x, (hmem x).mpr (.inr ⟨hx, fun e => hnot ?_⟩), hp, hlen⟩
        rw [← e, ← hp]
        exact List.mem_map_of_mem hy
    · rw [List.map_cons, List.nodup_cons]
      exact ⟨hnot, h.nodup⟩
  cases hstep with
  | reuse l r b hfit hbest =>
    have hx : (HEAP_BASE + total Blk.len l, b) ∈ starts Blk.len HEAP_BASE (l ++ b :: r) :=
      mem_starts.mpr ⟨l, r, rfl, rfl⟩
    refine key (fun hp => ?_) ⟨b.len, true⟩ rfl hfit.2 fun x => mem_starts_replace hpos rfl
    have hu := (h.used _ hx).mpr hp
    rw [hfit.1] at hu
    exact nomatch hu
  | grow _ hnone =>
    have hlt : ∀ x ∈ starts Blk.len HEAP_BASE bs, x.1 ≠ HEAP_BASE + total Blk.len bs := by
      intro x hx
      have hr := starts_range hx
      have hp := hpos _ (starts_mem hx)
      omega
    refine key (fun hp => ?_) ⟨blockLen size, true⟩ rfl ?_ fun x => ?_
    · obtain ⟨y, hy, e⟩ := List.mem_map.mp hp
      obtain ⟨x, hx, hp, _⟩ := h.block y hy
      exact hlt x hx (Nat.add_right_cancel (hp.symm.trans e))
    · show size + HEADER ≤ (size + HEADER + 4095) / 4096 * 4096
      omega
    · rw [mem_starts_concat]
      constructor
      · rintro (hx | hx)
        · exact .inr ⟨hx, hlt x hx⟩
        · exact .inl hx
      · rintro (hx | ⟨hx, _⟩)
        · exact .inr hx
        · exact .inl hx

theorem LiveRep.free (h : LiveRep live bs) (hpos : ∀ b ∈ bs, 0 < b.len)
    (hstep : FreeStep bs off bs') :
    LiveRep (live.filter fun y => y.1 ≠ HEAP_BASE + off + HEADER) bs' := by
  obtain ⟨l, r, b⟩ := hstep
  generalize hp : HEAP_BASE + total Blk.len l + HEADER = p
  have hfst : ∀ q, q ∈ (live.filter fun y => y.1 ≠ p).map Prod.fst ↔
      q ∈ live.map Prod.fst ∧ q ≠ p := by
    intro q
    constructor
    · intro hq
      obtain ⟨y, hy, rfl⟩ := List.mem_map.mp hq
      obtain ⟨hy, hne⟩ := List.mem_filter.mp hy
      exact ⟨List.mem_map_of_mem hy, by simpa using hne⟩
    · rintro ⟨hq, hne⟩
      obtain ⟨y, hy, rfl⟩ := List.mem_map.mp hq
      exact List.mem_map_of_mem (List.mem_filter.mpr ⟨hy, by simpa using hne⟩)
  have hmem (x : Nat × Blk) : x ∈ starts Blk.len HEAP_BASE (l ++ ⟨b.len, false⟩ :: r) ↔
      x = (HEAP_BASE + total Blk.len l, ⟨b.len, false⟩) ∨
        x ∈ starts Blk.len HEAP_BASE (l ++ b :: r) ∧ x.1 ≠ HEAP_BASE + total Blk.len l :=
    mem_starts_replace hpos rfl
  refine ⟨fun x hx => ?_, fun y hy => ?_, ?_⟩
  · rw [hfst]
    rcases (hmem x).mp (starts_mono (List.rdropWhile_prefix _ _) hx) with rfl | ⟨hx, hne⟩
    · exact ⟨fun hf => (nomatch hf), fun hq => absurd hp hq.2⟩
    · rw [h.used x hx]
      refine ⟨fun hq => ⟨hq, fun e => hne ?_⟩, fun hq => hq.1⟩
      exact Nat.add_right_cancel (e.trans hp.symm)
  · obtain ⟨hy, hne⟩ := List.mem_filter.mp hy
    obtain ⟨x, hx, hq, hlen, hu⟩ := h.used_block hy
    have hx1 : x.1 ≠ HEAP_BASE + total Blk.len l := by
      intro e
      have hne' : y.1 ≠ p := by simpa using hne
      exact hne' (by rw [hq, e, hp])
    refine ⟨x, mem_starts_rdropWhile ((hmem x).mpr (.inr ⟨hx, hx1⟩)) ?_, hq, hlen⟩
    rw [hu]
    rfl
  · exact h.nodup.sublist ((List.filter_sublist).map _)

end

/-! ## steps -/

structure HeapState (σ : Type) where
  heap : Heap σ
  live : List (Nat × Nat)

inductive HeapOp where
  | kmalloc (size : Nat)
  | kfree (addr : Nat)

variable {σ : Type} (V : KernelVM σ)

def heapStep (s : HeapState σ) : HeapOp → Option (HeapState σ)
  | .kmalloc size => (kmalloc V s.heap size).map fun (p, heap) => ⟨heap, (p, size) :: s.live⟩
  | .kfree addr => (kfree V s.heap addr).map fun heap =>
      ⟨heap, s.live.filter fun y => y.1 ≠ addr⟩

/-- `kfree` gets `NULL` or a live pointer -/
def HeapLegal (s : HeapState σ) : HeapOp → Prop
  | .kmalloc _ => True
  | .kfree addr => addr = 0 ∨ addr ∈ s.live.map Prod.fst

/-- the call, where it grows or shrinks the heap, does it by one that keeps to its range -/
def ResizeOk (MapOk UnmapOk : σ → Nat → Nat → Prop) (s : HeapState σ) : HeapOp → Prop
  | .kmalloc size => findBest V s.heap size = some none → GrowOk MapOk s.heap size
  | .kfree addr => addr ≠ 0 → ShrinkOk V UnmapOk s.heap addr

/-- The blocks from `HEAP_BASE` on, by their headers, tile the heap in whole pages, the last one is
used, and a block is used exactly when it is live; payloads of live allocations are as long as
requested, aligned, and overlap neither each other nor a header. -/
structure HeapBlocks (s : HeapState σ) (bs : List Blk) : Prop extends HeapTiles V s.heap bs where
  last : ∀ b, bs.getLast? = some b → b.used = true
  used : ∀ x ∈ starts Blk.len HEAP_BASE bs, x.2.used = true ↔ x.1 + HEADER ∈ s.live.map Prod.fst
  payload : ∀ y ∈ s.live, ∃ x ∈ starts Blk.len HEAP_BASE bs,
    y.1 = x.1 + HEADER ∧ y.2 + HEADER ≤ x.2.len
  aligned : ∀ y ∈ s.live, y.1 % 32 = 0
  apart : s.live.Pairwise fun y z => y.1 + y.2 ≤ z.1 ∨ z.1 + z.2 ≤ y.1
  headersApart : ∀ y ∈ s.live, ∀ x ∈ starts Blk.len HEAP_BASE bs,
    y.1 + y.2 ≤ x.1 ∨ x.1 + HEADER ≤ y.1

/-- Every live block other than the one that is freed keeps its words, header and payload, and ends
below what the heap is cut to. -/
def HeapKeeps (s : HeapState σ) (op : HeapOp) (s' : HeapState σ) : Prop :=
  (match op with
    | .kmalloc size => ∃ p, s'.live = (p, size) :: s.live
    | .kfree addr => s'.live = s.live.filter fun y => y.1 ≠ addr) ∧
  ∀ y ∈ s.live, op ≠ .kfree y.1 → ∃ w, V.load s.heap.vm (y.1 - HEADER) = some w ∧
    y.2 ≤ headerSize w ∧ y.1 + headerSize w ≤ HEAP_BASE + s'.heap.heapSize ∧
    ∀ a, a % 8 = 0 → y.1 - HEADER ≤ a → a < y.1 + headerSize w →
      V.load s'.heap.vm a = V.load s.heap.vm a

/-- what the steps keep -/
structure HeapWf (Maps : σ → Nat → Prop) (s : HeapState σ) (bs : List Blk) : Prop
    extends HeapRep V s.heap bs where
  maps : Maps s.heap.vm s.heap.heapSize
  live : LiveRep s.live bs

section
variable {V} {Maps : σ → Nat → Prop} {MapOk UnmapOk : σ → Nat → Nat → Prop} {s : HeapState σ}
  {bs : List Blk}

theorem HeapWf.blocks (h : HeapWf V Maps s bs) : HeapBlocks V s bs := by
  have hx0 {y : Nat × Nat} (hy : y ∈ s.live) := h.live.block y hy
  refine ⟨h.toHeapTiles, fun b hb => ?_, h.live.used, h.live.block, fun y hy => ?_, ?_,
    fun y hy x hx => ?_⟩
  · obtain ⟨l, rfl⟩ := List.getLast?_eq_some_iff.mp hb
    by_contra hu
    have ht := h.last
    unfold trim at ht
    rw [List.rdropWhile_concat_pos _ _ _ (by simpa using hu)] at ht
    have hp := (List.rdropWhile_prefix (fun b : Blk => !b.used) (l := l)).length_le
    rw [ht, List.length_append, List.length_singleton] at hp
    omega
  · obtain ⟨x, hx, hp, _⟩ := hx0 hy
    have hr := (h.toHeapTiles.range hx).2.2.1
    rw [hp]
    unfold HEADER
    omega
  · refine List.Pairwise.imp_of_mem ?_ (List.pairwise_map.mp h.live.nodup)
    intro y z hy hz hne
    obtain ⟨x, hx, hp, hlen⟩ := hx0 hy
    obtain ⟨x', hx', hp', hlen'⟩ := hx0 hz
    rcases starts_apart hx hx' with rfl | hap | hap
    · exact absurd (hp.trans hp'.symm) hne
    · omega
    · omega
  · obtain ⟨x', hx', hp, hlen⟩ := hx0 hy
    have h' := (h.toHeapTiles.range hx).2.2.2.1
    rcases starts_apart hx' hx with rfl | hap | hap
    · omega
    · omega
    · unfold HEADER at *
      omega

/-- a block that stays, and whose words are not written, keeps them -/
theorem HeapWf.keeps (h : HeapWf V Maps s bs) {s' : HeapState σ} {bs' : List Blk} {off : Nat}
    (hu : Untouched V s.heap (HEAP_BASE + off) s'.heap) (ht : HeapTiles V s'.heap bs')
    {y : Nat × Nat} (hy : y ∈ s.live)
    (hstay : ∀ x ∈ starts Blk.len HEAP_BASE bs, x.2.used = true → y.1 = x.1 + HEADER →
      x ∈ starts Blk.len HEAP_BASE bs' ∧
        (x.1 + x.2.len ≤ HEAP_BASE + off ∨ HEAP_BASE + off < x.1)) :
    ∃ w, V.load s.heap.vm (y.1 - HEADER) = some w ∧ y.2 ≤ headerSize w ∧
      y.1 + headerSize w ≤ HEAP_BASE + s'.heap.heapSize ∧
      ∀ a, a % 8 = 0 → y.1 - HEADER ≤ a → a < y.1 + headerSize w →
        V.load s'.heap.vm a = V.load s.heap.vm a := by
  obtain ⟨x, hx, hp, hlen, hused⟩ := h.live.used_block hy
  obtain ⟨hx', hap⟩ := hstay x hx hused hp
  obtain ⟨h1, h2, _, h4, _⟩ := h.toHeapTiles.range hx
  obtain ⟨_, h2', _, _, _⟩ := ht.range hx'
  have e1 : y.1 - HEADER = x.1 := by omega
  have e2 : y.1 + headerSize x.2.header = x.1 + x.2.len := by
    rw [h.toHeapTiles.headerSize hx, hp]
    unfold HEADER
    omega
  refine ⟨x.2.header, by rw [e1, h.headers x hx], ?_, by rw [e2]; exact h2', ?_⟩
  · rw [h.toHeapTiles.headerSize hx]
    omega
  · intro a ha8 hlo hhi
    rw [e1] at hlo
    rw [e2] at hhi
    refine hu a ⟨ha8, by omega, by omega⟩ ⟨ha8, by omega, by omega⟩ ?_
    omega

/-- **A call keeps the heap in order.** -/
theorem heap_step (hV : HeapVM V Maps MapOk UnmapOk) {op : HeapOp} (h : HeapWf V Maps s bs)
    (hlegal : HeapLegal s op) (hok : ResizeOk V MapOk UnmapOk s op) :
    ∃ s' bs', heapStep V s op = some s' ∧ HeapKeeps V s op s' ∧ HeapWf V Maps s' bs' := by
  have hpos := h.toHeapTiles.pos
  cases op with
  | kmalloc size =>
    obtain ⟨off, heap, bs', e, hstep, hm, hrep, hu⟩ := kmalloc_spec hV h.toHeapRep h.maps size hok
    refine ⟨⟨heap, (HEAP_BASE + off + HEADER, size) :: s.live⟩, bs', ?_,
      ⟨⟨_, rfl⟩, fun y hy _ => ?_⟩, hrep, hm, h.live.alloc hpos hstep⟩
    · show (kmalloc V s.heap size).map _ = _
      rw [e, Option.map_some]
    · exact h.keeps hu hrep.toHeapTiles hy fun x hx hused _ => hstep.stay hpos hx hused
  | kfree addr =>
    by_cases h0 : addr = 0
    · -- `NULL`: nothing happens
      subst h0
      have hne : ∀ y ∈ s.live, y.1 ≠ 0 := by
        intro y hy
        obtain ⟨x, hx, hp, _⟩ := h.live.block y hy
        rw [hp]
        exact Nat.succ_ne_zero _
      have hfilter : s.live.filter (fun y => y.1 ≠ 0) = s.live :=
        List.filter_eq_self.mpr fun y hy => by simpa using hne y hy
      refine ⟨s, bs, ?_, ⟨hfilter.symm, fun y hy _ => ?_⟩, h⟩
      · unfold heapStep kfree
        simp only [if_pos, Option.map_some, hfilter]
      · have hu : Untouched V s.heap (HEAP_BASE + total Blk.len bs) s.heap := fun _ _ _ _ => rfl
        exact h.keeps hu h.toHeapTiles hy fun x hx _ _ => ⟨hx, .inl (starts_range hx).2⟩
    · obtain ⟨y, hy, rfl⟩ := List.mem_map.mp (hlegal.resolve_left h0)
      obtain ⟨x, hx, hp, _⟩ := h.live.block y hy
      obtain ⟨off, hoff⟩ := Nat.exists_eq_add_of_le (starts_range hx).1
      have haddr : y.1 = HEAP_BASE + off + HEADER := by rw [hp, hoff]
      have hx' : (HEAP_BASE + off, x.2) ∈ starts Blk.len HEAP_BASE bs := by
        rw [← hoff]
        exact hx
      obtain ⟨heap, bs', e, hstep, hm, hrep, hu⟩ :=
        kfree_spec hV h.toHeapRep h.maps hx' (haddr ▸ hok h0)
      refine ⟨⟨heap, s.live.filter fun z => z.1 ≠ y.1⟩, bs', ?_, ⟨rfl, fun z hz hne => ?_⟩, hrep, hm,
        ?_⟩
      · show (kfree V s.heap y.1).map _ = _
        rw [haddr, e, Option.map_some]
      · refine h.keeps hu hrep.toHeapTiles hz fun x' hx' hused hq => ?_
        refine hstep.stay hpos hx' hused fun e => hne ?_
        rw [haddr, hq, e]
      · rw [haddr]
        exact h.live.free hpos hstep

end

/-! ## runs from an empty heap -/

/-- mapping and unmapping reach their pages, and no other word changes -/
structure ExactVM (V : KernelVM σ) : Prop where
  store : ∀ vm a w, a % 8 = 0 → (V.load vm a).isSome → ∃ vm', V.store vm a w = some vm' ∧
    ∀ b, b % 8 = 0 → V.load vm' b = if b = a then some w else V.load vm b
  map : ∀ vm addr size prot, addr % 4096 = 0 → size % 4096 = 0 → addr + size < 2^64 →
    ∃ vm', V.kmapanon vm addr size prot = some vm' ∧
      ∀ b, b % 8 = 0 → if addr ≤ b ∧ b < addr + size then (V.load vm' b).isSome
        else V.load vm' b = V.load vm b
  unmap : ∀ vm addr size, addr % 4096 = 0 → size % 4096 = 0 → addr + size < 2^64 →
    ∃ vm', V.kunmapanon vm addr size = some vm' ∧
      ∀ b, b % 8 = 0 → V.load vm' b = if addr ≤ b ∧ b < addr + size then none else V.load vm b

/-- the heap never reaches the end of the address space -/
def SizesFit (s : HeapState σ) : HeapOp → Prop
  | .kmalloc size => findBest V s.heap size = some none →
      HEAP_BASE + (s.heap.heapSize + blockLen size) < 2^64
  | .kfree _ => True

theorem ExactVM.heapVM {V : KernelVM σ} (h : ExactVM V) :
    HeapVM V (fun vm n => ∀ a, InHeap n a → (V.load vm a).isSome) (fun _ _ _ => True)
      (fun _ _ _ => True) where
  load vm n a hm ha := Option.isSome_iff_exists.mp (hm a ha)
  store vm n a w hm ha := by
    obtain ⟨vm', e, hl⟩ := h.store vm a w ha.1 (hm a ha)
    refine ⟨vm', e, fun b hb => ?_, fun b hb => hl b hb.1⟩
    rw [hl b hb.1]
    split
    · rfl
    · exact hm b hb
  map vm n e hm hn he hlt _ := by
    have hbase := HEAP_BASE_mod
    obtain ⟨vm', e', hl⟩ := h.map vm (HEAP_BASE + n) e (KPROT_READ ||| KPROT_WRITE) (by omega) he
      (by omega)
    have hold (b : Nat) (hb : InHeap n b) : V.load vm' b = V.load vm b := by
      have hlb := hl b hb.1
      rwa [if_neg (fun hr => absurd hb.2.2 (Nat.not_lt.mpr hr.1))] at hlb
    refine ⟨vm', e', fun b hb => ?_, hold⟩
    by_cases hin : b < HEAP_BASE + n
    · rw [hold b ⟨hb.1, hb.2.1, hin⟩]
      exact hm b ⟨hb.1, hb.2.1, hin⟩
    · have hlb := hl b hb.1
      have hlt := hb.2.2
      rwa [if_pos ⟨Nat.not_lt.mp hin, by omega⟩] at hlb
  unmap vm m n hm hmm hn hlt hb _ := by
    have hbase := HEAP_BASE_mod
    obtain ⟨vm', e', hl⟩ := h.unmap vm (HEAP_BASE + m) (n - m) (by omega) (by omega) (by omega)
    have hold (b : Nat) (hb : InHeap m b) : V.load vm' b = V.load vm b := by
      rw [hl b hb.1, if_neg (fun hr => absurd hb.2.2 (Nat.not_lt.mpr hr.1))]
    refine ⟨vm', e', fun b hb => ?_, hold⟩
    rw [hold b hb]
    exact hm b ⟨hb.1, hb.2.1, Nat.lt_trans hb.2.2 (by omega)⟩

/-- **The heap stays in order along every run from an empty heap.** -/
theorem heap_blocks (hV : ExactVM V) (vm : σ) (ops : List HeapOp)
    (hlegal : Along (heapStep V) HeapLegal ⟨⟨vm, 0⟩, []⟩ ops)
    (hfit : Along (heapStep V) (SizesFit V) ⟨⟨vm, 0⟩, []⟩ ops) :
    Always (heapStep V) (fun s => ∃ bs, HeapBlocks V s bs) (HeapKeeps V) ⟨⟨vm, 0⟩, []⟩ ops := by
  have hempty : HeapWf V (fun vm n => ∀ a, InHeap n a → (V.load vm a).isSome)
      ⟨⟨vm, 0⟩, []⟩ [] := by
    refine ⟨⟨⟨fun x hx => (nomatch hx), rfl, fun b hb => (nomatch hb), ?_⟩, rfl⟩, fun a ha => ?_,
      ⟨fun x hx => (nomatch hx), fun y hy => (nomatch hy), List.nodup_nil⟩⟩
    · show HEAP_BASE + 0 < 2^64
      unfold HEAP_BASE
      decide
    · exact absurd ha.2.2 (Nat.not_lt.mpr ha.2.1)
  have h := always_of_step (R := HeapKeeps V) (I := fun s => ∃ bs, HeapWf V _ s bs) ?_ ops
    ⟨⟨vm, 0⟩, []⟩ ⟨[], hempty⟩ (hlegal.and ops _ hfit)
  · exact h.mono (fun s ⟨bs, hs⟩ => ⟨bs, hs.blocks⟩) (fun _ _ _ _ hr _ => hr)
  · rintro s op ⟨bs, hs⟩ ⟨hlg, hft⟩
    have hok : ResizeOk V (fun _ _ _ => True) (fun _ _ _ => True) s op := by
      cases op with
      | kmalloc size => exact fun hb => ⟨hft hb, trivial⟩
      | kfree addr => exact fun _ _ _ _ _ _ => trivial
    obtain ⟨s', bs', e, hk, hw⟩ := heap_step hV.heapVM hs hlg hok
    exact ⟨s', e, hk, bs', hw⟩

/-! ## a run -/

/-- memory as a function of the address -/
def wordVM : KernelVM (Nat → Option (BitVec 64)) where
  load vm a := vm a
  store vm a w := if (vm a).isSome then some fun b => if b = a then some w else vm b else none
  kmapanon vm addr size _ := some fun b => if addr ≤ b ∧ b < addr + size then some 0 else vm b
  kunmapanon vm addr size := some fun b => if addr ≤ b ∧ b < addr + size then none else vm b

theorem wordVM_exact : ExactVM wordVM where
  store _ _ _ _ hs := ⟨_, if_pos hs, fun _ _ => rfl⟩
  map vm addr size _ _ _ _ := by
    refine ⟨_, rfl, fun b _ => ?_⟩
    by_cases hb : addr ≤ b ∧ b < addr + size
    · rw [if_pos hb]
      show (if addr ≤ b ∧ b < addr + size then some 0 else vm b).isSome
      rw [if_pos hb]
      rfl
    · rw [if_neg hb]
      exact if_neg hb
  unmap _ _ _ _ _ _ := ⟨_, rfl, fun _ _ => rfl⟩

instance (s : HeapState σ) : (op : HeapOp) → Decidable (HeapLegal s op)
  | .kmalloc _ => isTrue trivial
  | .kfree addr => inferInstanceAs (Decidable (addr = 0 ∨ addr ∈ s.live.map Prod.fst))

instance (s : HeapState σ) : (op : HeapOp) → Decidable (SizesFit V s op)
  | .kmalloc size => inferInstanceAs (Decidable (findBest V s.heap size = some none →
      HEAP_BASE + (s.heap.heapSize + blockLen size) < 2^64))
  | .kfree _ => isTrue trivial

/-- two blocks, the first one freed and reused, then both freed -/
theorem heap_blocks_two : Always (heapStep wordVM) (fun s => ∃ bs, HeapBlocks wordVM s bs)
    (HeapKeeps wordVM) ⟨⟨fun _ => none, 0⟩, []⟩
    [.kmalloc 5000, .kmalloc 100, .kfree 0xffffa00000000020, .kmalloc 50,
      .kfree 0xffffa00000002020, .kfree 0xffffa00000000020] :=
  heap_blocks wordVM wordVM_exact _ _ (by decide +kernel) (by decide +kernel)

end FuseeOS
