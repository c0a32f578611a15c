import FuseeOS.Lib.Run
import FuseeOS.Kernel.PhysAlloc

/-!
# Runs of the page allocator

The allocator together with the set of pages that are handed out.  Callers only give back pages of
that set.

* `freePage_allocatable`   a free page is returned after finitely many calls;
* `pages_safe`             what holds in every state and of every call of a run.
-/

namespace FuseeOS
open BitMap StepRun

structure PageState where
  pmem : PhysicalMemoryAllocator
  handed : Finset Nat

inductive PageOp where
  /-- `alloc_phys_pages(1)` -/
  | alloc
  /-- `free_phys_pages(page, npages)` -/
  | free (page npages : Nat)

def pagesFrom (page npages : Nat) : Finset Nat :=
  (Finset.range npages).image fun i => page + i * 4096

theorem mem_pagesFrom (page npages q : Nat) :
    q ∈ pagesFrom page npages ↔ ∃ i, i < npages ∧ q = page + i * 4096 := by
  unfold pagesFrom
  rw [Finset.mem_image]
  simp only [Finset.mem_range, eq_comm]

def pageStep (s : PageState) : PageOp → Option PageState
  | .alloc => (allocPhysPages s.pmem 1).map fun (page, pmem) =>
      ⟨pmem, if page = BADPAGE then s.handed else insert page s.handed⟩
  | .free page npages =>
      some ⟨freePhysPages s.pmem page npages, s.handed \ pagesFrom page npages⟩

/-- only pages that are handed out are given back -/
def PageLegal (s : PageState) : PageOp → Prop
  | .alloc => True
  | .free page npages => pagesFrom page npages ⊆ s.handed

/-- the pages that the next `n` calls return -/
def nextPages : Nat → PhysicalMemoryAllocator → Option (List Nat)
  | 0, _ => some []
  | n + 1, a => do
    let (page, a) ← allocPhysPages a 1
    let pages ← nextPages n a
    return page :: pages

def Allocatable (a : PhysicalMemoryAllocator) (p : Nat) : Prop :=
  ∃ n pages, nextPages n a = some pages ∧ p ∈ pages

/-- by induction on the number of free pages: a call returns `p` or leaves it free -/
theorem freePage_allocatable (a : PhysicalMemoryAllocator) (h : PmemInv a) (p : Nat)
    (hp : a.Free p) : Allocatable a p := by
  generalize hn : a.pagesFree = n
  induction n generalizing a with
  | zero =>
    have hpos := hp.clearCount_pos
    rw [← h.pages, hn] at hpos
    exact absurd hpos (Nat.lt_irrefl 0)
  | succ n ih =>
    rcases allocPhysPages_spec h with ⟨q, a', e, _, _, ht⟩ | ⟨_, hno⟩
    · by_cases hpq : p = q
      · refine ⟨1, [q], ?_, by rw [hpq]; exact List.mem_singleton_self q⟩
        unfold nextPages
        rw [e]
        rfl
      · have hcount := ht.pagesFree
        obtain ⟨m, pages, he, hmem⟩ := ih a' ht.inv ((ht.free p).mpr ⟨hp, hpq⟩) (by omega)
        refine ⟨m + 1, q :: pages, ?_, List.mem_cons_of_mem _ hmem⟩
        unfold nextPages
        rw [e]
        show (nextPages m a').bind _ = _
        rw [he]
        rfl
    · exact absurd hp (hno p)

/-- `pages_free` counts the clear order-0 bits, the pages handed out belong to a block and are in
use, and every free page can still be had -/
structure PagesInv (s : PageState) : Prop where
  pages : s.pmem.pagesFree = clearCount s.pmem.live
  handed : ∀ p ∈ s.handed, s.pmem.Owns p ∧ ¬ s.pmem.Free p
  allocatable : ∀ p, s.pmem.Free p → Allocatable s.pmem p

/-- a page that is returned lies in a block, was free and not handed out, and is handed out now;
there was no free page if none is returned; pages that are given back are free -/
def PagesStep (s : PageState) (op : PageOp) (s' : PageState) : Prop :=
  match op with
  | .alloc => ∃ page, allocPhysPages s.pmem 1 = some (page, s'.pmem) ∧
      (page ≠ BADPAGE → s.pmem.Owns page ∧ s.pmem.Free page ∧ page ∉ s.handed ∧
        s'.handed = insert page s.handed) ∧
      (page = BADPAGE → s'.handed = s.handed ∧ ∀ p, ¬ s.pmem.Free p)
  | .free page npages => s'.handed = s.handed \ pagesFrom page npages ∧
      ∀ p ∈ pagesFrom page npages, s'.pmem.Free p

/-- what the steps keep -/
structure PageWf (s : PageState) : Prop where
  pmem : PmemInv s.pmem
  handed : ∀ p ∈ s.handed, s.pmem.Owns p ∧ ¬ s.pmem.Free p

theorem PageWf.step {s : PageState} {op : PageOp} (h : PageWf s) (hop : PageLegal s op) :
    ∃ s', pageStep s op = some s' ∧ PagesStep s op s' ∧ PageWf s' := by
  cases op with
  | alloc =>
    rcases allocPhysPages_spec h.pmem with ⟨p, a', e, hbad, hfree, ht⟩ | ⟨e, hno⟩
    · refine ⟨⟨a', insert p s.handed⟩, ?_, ⟨p, e, fun _ => ?_, fun hp => absurd hp hbad⟩, ht.inv,
        fun q hq => ?_⟩
      · unfold pageStep
        rw [e, Option.map_some]
        simp only [if_neg hbad]
      · exact ⟨hfree.inBlocks, hfree, fun hp => (h.handed p hp).2 hfree, rfl⟩
      · rw [ht.owns, ht.free]
        rcases Finset.mem_insert.mp hq with rfl | hq
        · exact ⟨hfree.inBlocks, fun hf => hf.2 rfl⟩
        · exact ⟨(h.handed q hq).1, fun hf => (h.handed q hq).2 hf.1⟩
    · refine ⟨s, ?_, ⟨BADPAGE, e, fun hp => absurd rfl hp, fun _ => ⟨rfl, hno⟩⟩, h⟩
      unfold pageStep
      rw [e]
      rfl
  | free page npages =>
    have hall : ∀ i, i < npages → page + i * 4096 ∈ s.handed := fun i hi =>
      hop ((mem_pagesFrom _ _ _).mpr ⟨i, hi, rfl⟩)
    have hr := freePhysPages_spec h.pmem page npages fun i hi => h.handed _ (hall i hi)
    refine ⟨_, rfl, ⟨rfl, fun p hp => ?_⟩, hr.inv, fun p hp => ?_⟩
    · exact (hr.free p).mpr (.inr ((mem_pagesFrom _ _ _).mp hp))
    · obtain ⟨hp, hnot⟩ := Finset.mem_sdiff.mp hp
      refine ⟨(hr.owns p).mpr (h.handed p hp).1, fun hf => ?_⟩
      rcases (hr.free p).mp hf with hf | hf
      · exact (h.handed p hp).2 hf
      · exact hnot ((mem_pagesFrom _ _ _).mpr hf)

/-- **Every run of the page allocator is safe**, whatever pages are handed out at its start. -/
theorem pages_safe (s : PageState) (hshape : PmemShape s.pmem)
    (hfits : ∀ b ∈ s.pmem.live, b.Fits) (hpages : s.pmem.pagesFree = clearCount s.pmem.live)
    (hhanded : ∀ p ∈ s.handed, s.pmem.Owns p ∧ ¬ s.pmem.Free p) (ops : List PageOp)
    (hops : Along pageStep PageLegal s ops) : Always pageStep PagesInv PagesStep s ops := by
  have h : Always pageStep PageWf PagesStep s ops :=
    always_of_step (fun _ _ hs hop => hs.step hop) ops s ⟨⟨hshape, hfits, hpages⟩, hhanded⟩ hops
  refine h.mono (fun s hs => ?_) (fun _ _ _ _ hr _ => hr)
  exact ⟨hs.pmem.pages, hs.handed, freePage_allocatable s.pmem hs.pmem⟩

/-- one block of a single page, which is free -/
def loneAlloc (base : Nat) : PhysicalMemoryAllocator where
  blocks := ⟨base, 1, fun _ => clear ones 0⟩ :: List.replicate 15 default
  pagesTotal := 1
  pagesFree := 1
  count := rfl

theorem live_loneAlloc (base : Nat) : (loneAlloc base).live =
    [⟨base, 1, fun _ => clear ones 0⟩] := rfl

theorem loneAlloc_shape (base : Nat) (hbase : base % 4096 = 0) : PmemShape (loneAlloc base) := by
  refine ⟨⟨?_, ?_⟩, ?_, ?_⟩ <;> rw [live_loneAlloc]
  · intro b hb
    rw [List.mem_singleton.mp hb]
    exact hbase
  · exact List.pairwise_singleton _ _
  · exact (by decide : 1 < 16)
  · intro b hb k hk _
    rw [List.mem_singleton.mp hb] at hk ⊢
    have h1 : 1 ≤ k := hk
    rw [get_clear, get_ones]
    simp
    omega

instance (s : PageState) : (op : PageOp) → Decidable (PageLegal s op)
  | .alloc => isTrue trivial
  | .free page npages => inferInstanceAs (Decidable (pagesFrom page npages ⊆ s.handed))

/-- the page is handed out, given back and handed out again -/
theorem pages_safe_lone :
    Always pageStep PagesInv PagesStep ⟨loneAlloc 0x1000000, ∅⟩
      [.alloc, .free 0x1000000 1, .alloc] := by
  refine pages_safe _ (loneAlloc_shape _ (by decide)) ?_ (by decide) ?_ _ (by decide)
  · rw [live_loneAlloc]
    intro b hb
    rw [List.mem_singleton.mp hb]
    unfold PhysicalMemoryBlock.Fits
    decide
  · intro p hp
    exact absurd hp (Finset.notMem_empty p)

/-- the last page of the address space: no block ends behind it, so it is never marked -/
theorem pages_unsafe_at_end :
    ¬ ∀ (s : PageState) (ops : List PageOp), PmemShape s.pmem →
      s.pmem.pagesFree = clearCount s.pmem.live →
      (∀ p ∈ s.handed, s.pmem.Owns p ∧ ¬ s.pmem.Free p) → Along pageStep PageLegal s ops →
      Always pageStep PagesInv PagesStep s ops := by
  intro hall
  obtain ⟨_, s, hs, _, hinv⟩ := hall ⟨loneAlloc 0xfffffffffffff000, ∅⟩ [.alloc]
    (loneAlloc_shape _ (by decide)) (by decide) (fun p hp => absurd hp (Finset.notMem_empty p))
    ⟨trivial, fun _ _ => trivial⟩
  have e : (pageStep ⟨loneAlloc 0xfffffffffffff000, ∅⟩ .alloc).map
      (fun s => (s.pmem.pagesFree, clearCount s.pmem.live)) = some (0, 1) := by decide
  rw [hs] at e
  have hpages := hinv.pages
  have e' := Prod.mk.inj (Option.some.inj e)
  rw [e'.1, e'.2] at hpages
  exact absurd hpages (by decide)

end FuseeOS
