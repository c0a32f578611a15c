import FuseeOS.Kernel.PageRun
import FuseeOS.Kernel.PhysInit

/-!
# When an allocation fails

`alloc_phys_pages` takes a block without pages for the end of the table.  `init_physical_memory`
makes such a block of every region that is shorter than a page, so that the blocks behind it are
never looked at.  Here no region has to be aligned, or a whole number of pages long.

* `deadBlocks`                the blocks that the scan does not reach;
* `BlocksOk`                  what the set-up establishes and every marking keeps;
* `allocPhysPages_cases`      a call finds a free page of the blocks that it looks at, if there is one;
* `clearBit_dead_init`        which pages the set-up frees behind the first short region;
* **`alloc_fails_exactly`**   allocations fail exactly when memory is exhausted, in every run, if and
                              only if there is no such page.
-/

namespace FuseeOS
open BitMap StepRun

/-- some order-0 bit of a page is clear -/
def ClearBit (bs : List PhysicalMemoryBlock) : Prop :=
  ∃ b ∈ bs, ∃ k < b.npages, get (b.bitmap 0) k = false

/-- the blocks from the first empty one on -/
def deadBlocks (bs : List PhysicalMemoryBlock) : List PhysicalMemoryBlock :=
  bs.dropWhile fun b => decide (b.npages ≠ 0)

theorem live_append_dead (bs : List PhysicalMemoryBlock) : liveBlocks bs ++ deadBlocks bs = bs :=
  List.takeWhile_append_dropWhile

theorem clearBit_append {l r : List PhysicalMemoryBlock} :
    ClearBit (l ++ r) ↔ ClearBit l ∨ ClearBit r := by
  unfold ClearBit
  simp only [List.mem_append, or_and_right, exists_or]

theorem clearBit_iff_free {bs : List PhysicalMemoryBlock} : ClearBit bs ↔ ∃ p, FreePage bs p := by
  constructor
  · intro ⟨b, hb, k, hk, hg⟩
    exact ⟨b.page k, b, hb, k, hk, rfl, hg⟩
  · intro ⟨_, b, hb, k, hk, _, hg⟩
    exact ⟨b, hb, k, hk, hg⟩

/-! ## covering, by byte ranges -/

/-- disjoint blocks do not cover the same page -/
theorem covers_unique {bs : List PhysicalMemoryBlock}
    (hd : bs.Pairwise PhysicalMemoryBlock.Apart) {b c : PhysicalMemoryBlock} (hb : b ∈ bs)
    (hc : c ∈ bs) {p : Nat} (h1 : b.base ≤ p ∧ p < b.base + b.npages * 4096)
    (h2 : c.base ≤ p ∧ p < c.base + c.npages * 4096) : b = c := by
  by_contra hne
  have h := hd.forall hb hc hne
  unfold PhysicalMemoryBlock.Apart at h
  omega

theorem blockOf_of_covers {bs : List PhysicalMemoryBlock}
    (hd : bs.Pairwise PhysicalMemoryBlock.Apart) {b : PhysicalMemoryBlock} (hb : b ∈ bs) {p : Nat}
    (h : b.covers p = true) : blockOf bs p = some b := by
  cases hfind : blockOf bs p with
  | none => exact absurd h (List.find?_eq_none.mp hfind b hb)
  | some c =>
    have hc := covers_range (blockOf_covers hfind)
    rw [covers_unique hd hb (List.mem_of_find?_eq_some hfind) (covers_range h) hc]

/-- a page of a live block -/
theorem not_covers_dead {bs : List PhysicalMemoryBlock}
    (hd : bs.Pairwise PhysicalMemoryBlock.Apart) {p : Nat} (hp : InBlocks (liveBlocks bs) p)
    {c : PhysicalMemoryBlock} (hc : c ∈ deadBlocks bs) : c.covers p = false := by
  obtain ⟨b, hb, k, hk, rfl⟩ := hp
  by_contra hcov
  have h2 := covers_range (by simpa using hcov : c.covers (b.page k) = true)
  rw [← live_append_dead bs] at hd
  have hbc := (List.pairwise_append.mp hd).2.2 b hb c hc
  unfold PhysicalMemoryBlock.Apart at hbc
  unfold PhysicalMemoryBlock.page at h2
  omega

theorem onBlock_append_left (f : PhysicalMemoryBlock → Nat → PhysicalMemoryBlock) (p : Nat)
    (l : List PhysicalMemoryBlock) {r : List PhysicalMemoryBlock}
    (h : ∀ c ∈ r, c.covers p = false) : onBlock f p (l ++ r) = onBlock f p l ++ r := by
  induction l with
  | nil => exact onBlock_of_not_covers f p r h
  | cons b l ih =>
    rw [List.cons_append, onBlock, onBlock]
    by_cases hb : b.covers p = true
    · rw [if_pos hb, if_pos hb, List.cons_append]
    · rw [if_neg hb, if_neg hb, ih, List.cons_append]

section
variable {f : PhysicalMemoryBlock → Nat → PhysicalMemoryBlock}

/-- marking a page that no dead block covers leaves the dead blocks alone -/
theorem deadBlocks_onBlock (hf : ∀ b k, (f b k).npages = b.npages) {p : Nat}
    {bs : List PhysicalMemoryBlock} (h : ∀ c ∈ deadBlocks bs, c.covers p = false) :
    deadBlocks (onBlock f p bs) = deadBlocks bs := by
  have hsplit := onBlock_append_left f p (liveBlocks bs) h
  rw [live_append_dead, ← liveBlocks_onBlock f hf] at hsplit
  have hlive := live_append_dead (onBlock f p bs)
  rw [hsplit] at hlive
  rw [← hsplit] at hlive
  exact List.append_cancel_left (hlive.trans hsplit)

/-- marking a page of a dead block marks it there -/
theorem deadBlocks_onBlock_dead (hf : ∀ b k, (f b k).npages = b.npages) {p : Nat}
    {bs : List PhysicalMemoryBlock} (h : ∀ b ∈ liveBlocks bs, b.covers p = false) :
    deadBlocks (onBlock f p bs) = onBlock f p (deadBlocks bs) := by
  have hlive : onBlock f p (liveBlocks bs) = liveBlocks bs := onBlock_of_not_covers f p _ h
  have hsplit : onBlock f p bs = liveBlocks bs ++ onBlock f p (deadBlocks bs) := by
    conv_lhs => rw [← live_append_dead bs]
    generalize liveBlocks bs = l at h
    clear hlive
    induction l with
    | nil => rfl
    | cons b l ih =>
      rw [List.cons_append, onBlock, h b List.mem_cons_self, if_neg Bool.false_ne_true,
        ih fun c hc => h c (List.mem_cons_of_mem _ hc), List.cons_append]
  have hwhole := live_append_dead (onBlock f p bs)
  rw [liveBlocks_onBlock f hf, hlive, hsplit] at hwhole
  rw [hsplit]
  exact List.append_cancel_left hwhole

end

/-! ## what every marking keeps -/

/-- disjoint blocks inside the 64-bit addresses, fewer than 16 before the sentinel; the bits behind
the last page are set, and a block that ends at `2^64` has no clear bit -/
structure BlocksOk (bs : List PhysicalMemoryBlock) : Prop where
  apart : bs.Pairwise PhysicalMemoryBlock.Apart
  ends : ∀ b ∈ bs, b.base + b.npages * 4096 ≤ 2^64
  sentinel : (liveBlocks bs).length < PMB_COUNT
  padding : ∀ b ∈ bs, ∀ k, b.npages ≤ k → k < b.bitmapBits → get (b.bitmap 0) k = true
  fits : ∀ b ∈ bs, ∀ k < b.npages, get (b.bitmap 0) k = false → b.Fits

theorem covers_fits {b : PhysicalMemoryBlock} {p : Nat} (h : b.covers p = true)
    (hend : b.base + b.npages * 4096 ≤ 2^64) : b.Fits := by
  unfold PhysicalMemoryBlock.covers at h
  simp only [Bool.and_eq_true, decide_eq_true_eq, PAGESIZE] at h
  unfold PhysicalMemoryBlock.Fits
  by_contra hge
  have heq : b.base + b.npages * 4096 = 2^64 := by omega
  rw [heq, Nat.mod_self] at h
  omega

section
variable {bs : List PhysicalMemoryBlock} {f : PhysicalMemoryBlock → Nat → PhysicalMemoryBlock}

/-- `hget`: a marking changes no bit but the one of its page -/
theorem BlocksOk.onBlock (h : BlocksOk bs)
    (hspan : ∀ b k, (f b k).npages = b.npages ∧ (f b k).base = b.base)
    (hget : ∀ b k i, i ≠ k → get ((f b k).bitmap 0) i = get (b.bitmap 0) i) (p : Nat) :
    BlocksOk (FuseeOS.onBlock f p bs) := by
  have hs : (FuseeOS.onBlock f p bs).map PhysicalMemoryBlock.span
      = bs.map PhysicalMemoryBlock.span := by
    refine map_onBlock _ _ (fun b k => ?_) p _
    unfold PhysicalMemoryBlock.span
    rw [(hspan b k).1, (hspan b k).2]
  have hmem : ∀ c, blockOf bs p = some c → c ∈ bs := fun c hc => List.mem_of_find?_eq_some hc
  refine ⟨?_, ?_, ?_, ?_, ?_⟩
  · have hap := h.apart
    have hmap : ∀ ls : List PhysicalMemoryBlock, ls.Pairwise PhysicalMemoryBlock.Apart ↔
        (ls.map PhysicalMemoryBlock.span).Pairwise
          (fun x y => x.1 + x.2 * 4096 ≤ y.1 ∨ y.1 + y.2 * 4096 ≤ x.1) := fun ls => by
      rw [List.pairwise_map]
      rfl
    rw [hmap, hs, ← hmap]
    exact hap
  · rw [forall_onBlock _ _ _ _ h.ends]
    intro c hc
    rw [(hspan c _).1, (hspan c _).2]
    exact h.ends c (hmem c hc)
  · rw [liveBlocks_onBlock f fun b k => (hspan b k).1, length_onBlock]
    exact h.sentinel
  · rw [forall_onBlock (fun b => ∀ k, b.npages ≤ k → k < b.bitmapBits →
      get (b.bitmap 0) k = true) _ _ _ h.padding]
    intro c hc k hk hkb
    have hoff := offset_lt (blockOf_covers hc)
    unfold PhysicalMemoryBlock.bitmapBits at hkb
    rw [(hspan c _).1] at hk hkb
    rw [hget _ _ _ (by omega)]
    exact h.padding c (hmem c hc) k hk hkb
  · rw [forall_onBlock (fun b => ∀ k < b.npages, get (b.bitmap 0) k = false → b.Fits) _ _ _ h.fits]
    intro c hc k _ _
    have hfit := covers_fits (blockOf_covers hc) (h.ends c (hmem c hc))
    unfold PhysicalMemoryBlock.Fits at hfit ⊢
    rw [(hspan c _).1, (hspan c _).2]
    exact hfit

theorem BlocksOk.free (h : BlocksOk bs) (p : Nat) : BlocksOk (FuseeOS.onBlock .free p bs) := by
  refine h.onBlock (f := .free) (fun _ _ => ⟨rfl, rfl⟩) (fun b k i hik => ?_) p
  rw [get_free]
  simp [hik]

theorem BlocksOk.use (h : BlocksOk bs) (p : Nat) : BlocksOk (FuseeOS.onBlock .use p bs) := by
  refine h.onBlock (f := .use) (fun _ _ => ⟨rfl, rfl⟩) (fun b k i hik => ?_) p
  rw [get_use]
  simp [hik]

theorem BlocksOk.apartLive (h : BlocksOk bs) :
    (liveBlocks bs).Pairwise PhysicalMemoryBlock.Apart :=
  h.apart.sublist (List.takeWhile_sublist _)

end

/-! ## allocation -/

/-- what a successful call leaves -/
structure TakenFrom (a : PhysicalMemoryAllocator) (p : Nat) (a' : PhysicalMemoryAllocator) :
    Prop where
  page : InBlocks a.live p
  ok : BlocksOk a'.blocks
  dead : deadBlocks a'.blocks = deadBlocks a.blocks
  span : a'.live.map PhysicalMemoryBlock.span = a.live.map PhysicalMemoryBlock.span
  count : clearCount a'.live + 1 = clearCount a.live

theorem takenFrom_takePage {a : PhysicalMemoryAllocator} (h : BlocksOk a.blocks) {p : Nat}
    (hp : a.Free p) : TakenFrom a p (takePage a p) := by
  have hin := hp.inBlocks
  obtain ⟨b, hb, k, hk, rfl, hg⟩ := hp
  have hb' := (mem_liveBlocks hb).1
  have hcov := covers_page (h.fits b hb' k hk hg) hk
  have hof := blockOf_of_covers h.apartLive hb hcov
  refine ⟨hin, h.use _, ?_, span_takePage a _, ?_⟩
  · exact deadBlocks_onBlock (f := .use) (fun _ _ => rfl)
      fun c hc => not_covers_dead h.apart hin hc
  · rw [live_takePage]
    exact clearCount_use hof (by rwa [offset_page])

/-- a call finds a free page among the live blocks, or there is none -/
theorem allocPhysPages_take {a : PhysicalMemoryAllocator} (h : BlocksOk a.blocks) :
    (∃ p, allocPhysPages a 1 = some (p, takePage a p) ∧ p ≠ BADPAGE ∧ a.Free p) ∨
      (allocPhysPages a 1 = some (BADPAGE, a) ∧ ¬ ClearBit a.live) := by
  have hlen : a.live.length < a.blocks.length := a.count.symm ▸ h.sentinel
  have hsub : ∀ b ∈ a.live, b ∈ a.blocks := fun b hb => (mem_liveBlocks hb).1
  unfold allocPhysPages
  rw [if_neg (fun hne => hne rfl)]
  rcases allocFrom_spec (fun b hb => h.padding b (hsub b hb)) (fun b hb => h.ends b (hsub b hb))
    a.blocks List.suffix_rfl hlen with ⟨p, hp, hbad, e⟩ | ⟨e, hno⟩
  · exact Or.inl ⟨p, e, hbad, hp⟩
  · refine Or.inr ⟨e, fun hc => ?_⟩
    obtain ⟨p, hp⟩ := clearBit_iff_free.mp hc
    exact hno p hp

theorem allocPhysPages_cases {a : PhysicalMemoryAllocator} (h : BlocksOk a.blocks) :
    (∃ p a', allocPhysPages a 1 = some (p, a') ∧ p ≠ BADPAGE ∧ a.Free p ∧ TakenFrom a p a') ∨
      (allocPhysPages a 1 = some (BADPAGE, a) ∧ ¬ ClearBit a.live) :=
  (allocPhysPages_take h).imp
    (fun ⟨p, e, hbad, hp⟩ => ⟨p, _, e, hbad, hp, takenFrom_takePage h hp⟩) id

/-- a call fails exactly if no order-0 bit of any block is clear -/
def AllocExact (s : PageState) : Prop :=
  ∃ p a', allocPhysPages s.pmem 1 = some (p, a') ∧ (p = BADPAGE ↔ ¬ ClearBit s.pmem.blocks)

theorem allocExact_iff {s : PageState} (h : BlocksOk s.pmem.blocks) :
    AllocExact s ↔ (ClearBit (deadBlocks s.pmem.blocks) → ClearBit s.pmem.live) := by
  have hsplit : ClearBit s.pmem.blocks ↔
      ClearBit s.pmem.live ∨ ClearBit (deadBlocks s.pmem.blocks) := by
    rw [← clearBit_append, live_append_dead]
  unfold AllocExact
  rcases allocPhysPages_cases h with ⟨p, a', e, hbad, hp, -⟩ | ⟨e, hno⟩
  · have hlive : ClearBit s.pmem.live := clearBit_iff_free.mpr ⟨p, hp⟩
    refine ⟨fun _ _ => hlive, fun _ => ⟨p, a', e, ?_⟩⟩
    exact ⟨fun hb => absurd hb hbad, fun hn => absurd (hsplit.mpr (Or.inl hlive)) hn⟩
  · constructor
    · intro ⟨q, a', e', hq⟩ hdead
      rw [e, Option.some.injEq, Prod.mk.injEq] at e'
      exact absurd (hsplit.mpr (Or.inr hdead)) (hq.mp e'.1.symm)
    · intro himp
      refine ⟨_, _, e, fun _ hc => ?_, fun _ => rfl⟩
      rcases hsplit.mp hc with hl | hd
      · exact hno hl
      · exact hno (himp hd)

/-! ## runs -/

/-- the pages that are handed out belong to the live blocks, and no bit behind them is clear -/
structure RunOk (s : PageState) : Prop where
  ok : BlocksOk s.pmem.blocks
  dead : ¬ ClearBit (deadBlocks s.pmem.blocks)
  handed : ∀ p ∈ s.handed, InBlocks s.pmem.live p

theorem inBlocks_span {ls ls' : List PhysicalMemoryBlock}
    (h : ls'.map PhysicalMemoryBlock.span = ls.map PhysicalMemoryBlock.span) {p : Nat} :
    InBlocks ls' p ↔ InBlocks ls p := by
  rw [inBlocks_iff, h, ← inBlocks_iff]

/-- marking pages of the live blocks free -/
theorem free_live {a : PhysicalMemoryAllocator} (h : BlocksOk a.blocks) (page n : Nat)
    (hp : ∀ i < n, InBlocks a.live (page + i * 4096)) :
    let a' := (List.range n).foldl (fun a i => markPageFree a ((page + i * PAGESIZE) % 2^64)) a
    BlocksOk a'.blocks ∧ deadBlocks a'.blocks = deadBlocks a.blocks ∧
      a'.live.map PhysicalMemoryBlock.span = a.live.map PhysicalMemoryBlock.span := by
  induction n with
  | zero => exact ⟨h, rfl, rfl⟩
  | succ n ih =>
    obtain ⟨hok, hdead, hspan⟩ := ih fun i hi => hp i (by omega)
    rw [List.range_succ, List.foldl_append, List.foldl_cons, List.foldl_nil]
    generalize (List.range n).foldl
      (fun a i => markPageFree a ((page + i * PAGESIZE) % 2^64)) a = t at hok hdead hspan ⊢
    have hin := hp n (by omega)
    have hlt : page + n * 4096 < 2^64 := by
      obtain ⟨b, hb, k, hk, e⟩ := hin
      have hb := page_lt_of_le (h.ends b (mem_liveBlocks hb).1) hk
      unfold BADPAGE at hb
      omega
    have hmod : (page + n * PAGESIZE) % 2^64 = page + n * 4096 := Nat.mod_eq_of_lt hlt
    rw [← inBlocks_span hspan] at hin
    rw [hmod]
    refine ⟨hok.free _, ?_, (span_markPageFree t _).trans hspan⟩
    exact (deadBlocks_onBlock (f := .free) (fun _ _ => rfl)
      fun c hc => not_covers_dead hok.apart hin hc).trans hdead

theorem runOk_step {s : PageState} (h : RunOk s) {op : PageOp} (hl : PageLegal s op) :
    ∃ s', pageStep s op = some s' ∧ RunOk s' := by
  cases op with
  | alloc =>
    unfold pageStep
    rcases allocPhysPages_cases h.ok with ⟨p, a', e, hbad, -, ht⟩ | ⟨e, -⟩
    · rw [e]
      refine ⟨_, rfl, ht.ok, ?_, fun q hq => ?_⟩
      · show ¬ ClearBit (deadBlocks a'.blocks)
        rw [ht.dead]
        exact h.dead
      · show InBlocks a'.live q
        rw [inBlocks_span ht.span]
        simp only [if_neg hbad, Finset.mem_insert] at hq
        rcases hq with rfl | hq
        · exact ht.page
        · exact h.handed q hq
    · rw [e]
      refine ⟨_, rfl, h.ok, h.dead, fun q hq => ?_⟩
      exact h.handed q (by simpa using hq)
  | free page npages =>
    have hin : ∀ i < npages, InBlocks s.pmem.live (page + i * 4096) := fun i hi =>
      h.handed _ (hl ((mem_pagesFrom page npages _).mpr ⟨i, hi, rfl⟩))
    obtain ⟨hok, hdead, hspan⟩ := free_live h.ok page npages hin
    refine ⟨_, rfl, hok, ?_, fun q hq => ?_⟩
    · exact hdead.symm ▸ h.dead
    · exact (inBlocks_span hspan).mpr (h.handed q (Finset.mem_sdiff.mp hq).1)

/-- calls without end exhaust the live blocks, and leave the others alone -/
theorem exhaust (n : Nat) {s : PageState} (h : BlocksOk s.pmem.blocks)
    (hn : clearCount s.pmem.live ≤ n) :
    ∃ s', run pageStep s (List.replicate n .alloc) = some s' ∧ BlocksOk s'.pmem.blocks ∧
      ¬ ClearBit s'.pmem.live ∧ deadBlocks s'.pmem.blocks = deadBlocks s.pmem.blocks := by
  induction n generalizing s with
  | zero =>
    refine ⟨s, rfl, h, fun hc => ?_, rfl⟩
    obtain ⟨p, hp⟩ := clearBit_iff_free.mp hc
    have := hp.clearCount_pos
    omega
  | succ n ih =>
    rw [List.replicate_succ, run, pageStep]
    rcases allocPhysPages_cases h with ⟨p, a', e, -, -, ht⟩ | ⟨e, hno⟩
    · rw [e]
      have hcount := ht.count
      obtain ⟨s', hs', hok, hnone, hdead⟩ := @ih
        ⟨a', if p = BADPAGE then s.handed else insert p s.handed⟩ ht.ok (by dsimp only; omega)
      exact ⟨s', hs', hok, hnone, hdead.trans ht.dead⟩
    · rw [e]
      have hzero := clearCount_eq_zero s.pmem.live
        fun p hp => hno (clearBit_iff_free.mpr ⟨p, hp⟩)
      obtain ⟨s', hs', hok, hnone, hdead⟩ := @ih
        ⟨s.pmem, if BADPAGE = BADPAGE then s.handed else insert BADPAGE s.handed⟩ h
        (by dsimp only; omega)
      exact ⟨s', hs', hok, hnone, hdead⟩

/-! ## the set-up -/

theorem initBlocks_map {maps memFree memFree' : List BootMemRegion} {slots : Nat}
    {blocks : List PhysicalMemoryBlock}
    (h : initBlocks maps slots memFree = some (blocks, memFree')) :
    blocks = (mapRegions maps).map mapBlock := by
  induction maps generalizing slots memFree memFree' blocks with
  | nil => cases h
  | cons reg rest ih =>
    unfold initBlocks at h
    rw [mapRegions_cons]
    by_cases h0 : reg.size = 0
    · rw [if_pos h0] at h
      obtain ⟨rfl, _⟩ := Prod.mk.inj (Option.some.inj h)
      rw [if_pos h0]
      rfl
    · rw [if_neg h0] at h
      cases slots with
      | zero => cases h
      | succ slots =>
        obtain ⟨m, _, h⟩ := Option.bind_eq_some_iff.mp h
        obtain ⟨⟨bs, m'⟩, hrec, h⟩ := Option.bind_eq_some_iff.mp h
        obtain ⟨rfl, _⟩ := Prod.mk.inj (Option.some.inj h)
        rw [if_neg h0, List.map_cons, ih hrec]
        rfl

/-- regions as firmware reports them: up to 15 disjoint ranges of 64-bit addresses, of any length -/
structure RegionsOk (regs : List BootMemRegion) : Prop where
  count : regs.length ≤ 15
  apart : regs.Pairwise BootMemRegion.Apart
  bound : ∀ r ∈ regs, r.base + r.size ≤ 2^64

/-- every bit is set at first -/
theorem not_clearBit_initAlloc {memMap : List BootMemRegion}
    (hlen : ((mapRegions memMap).map mapBlock).length ≤ PMB_COUNT) :
    ¬ ClearBit (initAlloc ((mapRegions memMap).map mapBlock) hlen).blocks := by
  intro ⟨b, hb, k, hk, hg⟩
  rcases List.mem_append.mp hb with hb | hb
  · obtain ⟨r, -, rfl⟩ := List.mem_map.mp hb
    rw [show get ((mapBlock r).bitmap 0) k = true from get_ones k] at hg
    cases hg
  · rw [(List.mem_replicate.mp hb).2] at hk
    exact absurd hk (Nat.not_lt_zero _)

theorem liveBlocks_pad (l : List PhysicalMemoryBlock) (n : Nat) :
    liveBlocks (l ++ List.replicate n default) = liveBlocks l := by
  unfold liveBlocks
  induction l with
  | nil =>
    cases n with
    | zero => rfl
    | succ n => exact List.takeWhile_cons_of_neg (by simp [default])
  | cons b l ih =>
    rw [List.cons_append, List.takeWhile_cons, List.takeWhile_cons, ih]

theorem blocksOk_initAlloc {memMap : List BootMemRegion} (h : RegionsOk (mapRegions memMap))
    (hlen : ((mapRegions memMap).map mapBlock).length ≤ PMB_COUNT) :
    BlocksOk (initAlloc ((mapRegions memMap).map mapBlock) hlen).blocks := by
  have hmem : ∀ b ∈ (initAlloc ((mapRegions memMap).map mapBlock) hlen).blocks,
      (∃ r ∈ mapRegions memMap, b = mapBlock r) ∨ b = default := by
    intro b hb
    rcases List.mem_append.mp hb with hb | hb
    · obtain ⟨r, hr, rfl⟩ := List.mem_map.mp hb
      exact Or.inl ⟨r, hr, rfl⟩
    · exact Or.inr (List.mem_replicate.mp hb).2
  have hsize : ∀ r ∈ mapRegions memMap, r.size ≠ 0 := by
    intro r hr
    simpa using List.all_eq_true.mp
      (List.all_takeWhile (p := fun r : BootMemRegion => decide (r.size ≠ 0)) (l := memMap)) r hr
  refine ⟨?_, ?_, ?_, ?_, ?_⟩
  · refine List.pairwise_append.mpr ⟨?_, ?_, fun b _ c hc => ?_⟩
    · rw [List.pairwise_map]
      refine (List.Pairwise.and_mem.mp h.apart).imp ?_
      intro r s ⟨hr, hs, hrs⟩
      have hle := hrs.le (hsize r hr) (hsize s hs)
      unfold PhysicalMemoryBlock.Apart mapBlock
      dsimp only
      omega
    · rw [List.pairwise_replicate]
      exact Or.inr (Or.inl (Nat.le_refl _))
    · rw [(List.mem_replicate.mp hc).2]
      exact Or.inr (Nat.zero_le _)
  · intro b hb
    rcases hmem b hb with ⟨r, hr, rfl⟩ | rfl
    · have := h.bound r hr
      unfold mapBlock
      dsimp only
      omega
    · exact Nat.zero_le _
  · have hcount := h.count
    have hle := (List.takeWhile_sublist (fun b : PhysicalMemoryBlock => decide (b.npages ≠ 0))
      (l := (mapRegions memMap).map mapBlock)).length_le
    rw [List.length_map] at hle
    have hlive := liveBlocks_pad ((mapRegions memMap).map mapBlock)
      (PMB_COUNT - ((mapRegions memMap).map mapBlock).length)
    unfold initAlloc
    dsimp only
    rw [hlive]
    exact Nat.lt_of_le_of_lt (Nat.le_trans hle hcount) (by decide)
  · intro b hb k hk hkb
    rcases hmem b hb with ⟨r, hr, rfl⟩ | rfl
    · exact get_ones k
    · exact absurd hkb (Nat.not_lt_zero _)
  · intro b hb k hk hg
    exact absurd ⟨b, hb, k, hk, hg⟩ (not_clearBit_initAlloc hlen)

/-! ## freeing behind a short region -/

/-- a block behind the first empty one covers the page -/
def DeadCovers (bs : List PhysicalMemoryBlock) (p : Nat) : Prop :=
  ∃ c ∈ deadBlocks bs, c.covers p = true

theorem deadCovers_span {bs bs' : List PhysicalMemoryBlock}
    (h : bs'.map PhysicalMemoryBlock.span = bs.map PhysicalMemoryBlock.span) (p : Nat) :
    DeadCovers bs' p ↔ DeadCovers bs p := by
  have hspans : ∀ ls : List PhysicalMemoryBlock, DeadCovers ls p ↔
      ∃ x ∈ (ls.map PhysicalMemoryBlock.span).dropWhile (fun x => decide (x.2 ≠ 0)),
        (PhysicalMemoryBlock.mk x.1 x.2 fun _ => ones).covers p = true := by
    intro ls
    have hdead : (ls.map PhysicalMemoryBlock.span).dropWhile (fun x => decide (x.2 ≠ 0))
        = (deadBlocks ls).map PhysicalMemoryBlock.span := by
      rw [List.dropWhile_map]
      rfl
    rw [hdead]
    constructor
    · intro ⟨c, hc, hcov⟩
      exact ⟨c.span, List.mem_map_of_mem hc, hcov⟩
    · intro ⟨x, hx, hcov⟩
      obtain ⟨c, hc, rfl⟩ := List.mem_map.mp hx
      exact ⟨c, hc, hcov⟩
  rw [hspans, hspans, h]

theorem clearBit_dead_free {bs : List PhysicalMemoryBlock} (h : BlocksOk bs) (p : Nat) :
    ClearBit (deadBlocks (onBlock .free p bs)) ↔ ClearBit (deadBlocks bs) ∨ DeadCovers bs p := by
  by_cases hd : DeadCovers bs p
  · refine ⟨fun _ => Or.inr hd, fun _ => ?_⟩
    obtain ⟨c, hc, hcov⟩ := hd
    have hap := h.apart
    rw [← live_append_dead bs] at hap
    obtain ⟨-, hapDead, hcross⟩ := List.pairwise_append.mp hap
    have hlive : ∀ b ∈ liveBlocks bs, b.covers p = false := by
      intro b hb
      by_contra hbc
      have h1 := covers_range (by simpa using hbc : b.covers p = true)
      have h2 := covers_range hcov
      have h3 := hcross b hb c hc
      unfold PhysicalMemoryBlock.Apart at h3
      omega
    obtain ⟨l₁, l₂, -, e⟩ := onBlock_of_blockOf (blockOf_of_covers hapDead hc hcov) .free
    rw [deadBlocks_onBlock_dead (f := .free) (fun _ _ => rfl) hlive, e]
    refine ⟨_, List.mem_append_right _ List.mem_cons_self, c.offset p, offset_lt hcov, ?_⟩
    rw [get_free]
    simp
  · have hno : ∀ c ∈ deadBlocks bs, c.covers p = false := by
      intro c hc
      by_contra hcov
      exact hd ⟨c, hc, by simpa using hcov⟩
    rw [deadBlocks_onBlock (f := .free) (fun _ _ => rfl) hno]
    exact ⟨Or.inl, fun hor => hor.elim id fun hd' => absurd hd' hd⟩

/-- the blocks after the pages of `ps` were marked free -/
structure FreedPages (bs : List PhysicalMemoryBlock) (ps : Nat → Prop)
    (bs' : List PhysicalMemoryBlock) : Prop where
  ok : BlocksOk bs'
  span : bs'.map PhysicalMemoryBlock.span = bs.map PhysicalMemoryBlock.span
  clear : ClearBit (deadBlocks bs') ↔ ClearBit (deadBlocks bs) ∨ ∃ p, ps p ∧ DeadCovers bs p

theorem FreedPages.refl {bs : List PhysicalMemoryBlock} (h : BlocksOk bs) :
    FreedPages bs (fun _ => False) bs := by
  refine ⟨h, rfl, ?_⟩
  simp

theorem FreedPages.trans {bs bs' bs'' : List PhysicalMemoryBlock} {ps qs : Nat → Prop}
    (h : FreedPages bs ps bs') (h' : FreedPages bs' qs bs'') :
    FreedPages bs (fun p => ps p ∨ qs p) bs'' := by
  refine ⟨h'.ok, h'.span.trans h.span, ?_⟩
  rw [h'.clear, h.clear, or_assoc]
  simp only [deadCovers_span h.span, or_and_right, exists_or]

theorem FreedPages.congr {bs bs' : List PhysicalMemoryBlock} {ps qs : Nat → Prop}
    (h : FreedPages bs ps bs') (e : ∀ p, ps p ↔ qs p) : FreedPages bs qs bs' := by
  have heq : ps = qs := funext fun p => propext (e p)
  exact heq ▸ h

theorem freedPages_free {bs : List PhysicalMemoryBlock} (h : BlocksOk bs) (p : Nat) :
    FreedPages bs (fun q => q = p) (onBlock .free p bs) := by
  refine ⟨h.free p, map_onBlock _ .free (fun _ _ => rfl) p _, ?_⟩
  rw [clearBit_dead_free h p, exists_eq_left]

/-- the page that step `j` of the loop over a region frees -/
def freedPage (reg : BootMemRegion) (j : Nat) : Nat :=
  (reg.base + j * PAGESIZE % 2^32) % 2^64

/-- the loop over a region of `2^32` pages or more does not end -/
theorem unmarkPages_bound {reg : BootMemRegion} {fuel j : Nat} {a a' : PhysicalMemoryAllocator}
    (h : unmarkPages reg fuel j a = some a') (hj : j < 2^32) : reg.size / PAGESIZE < 2^32 := by
  induction fuel generalizing j a with
  | zero => exact nomatch h
  | succ fuel ih =>
    unfold unmarkPages at h
    by_cases hlt : j < reg.size / PAGESIZE
    · rw [if_pos hlt] at h
      exact ih h (Nat.mod_lt _ (by decide))
    · omega

theorem unmarkPages_freed {reg : BootMemRegion} (hn : reg.size / PAGESIZE < 2^32) {fuel j : Nat}
    {a a' : PhysicalMemoryAllocator} (hok : BlocksOk a.blocks)
    (h : unmarkPages reg fuel j a = some a') :
    FreedPages a.blocks (fun p => ∃ i, j ≤ i ∧ i < reg.size / PAGESIZE ∧ p = freedPage reg i)
      a'.blocks := by
  induction fuel generalizing j a with
  | zero => exact nomatch h
  | succ fuel ih =>
    unfold unmarkPages at h
    by_cases hlt : j < reg.size / PAGESIZE
    · have hnext : (j + 1) % 2^32 = j + 1 := Nat.mod_eq_of_lt (by omega)
      rw [if_pos hlt, hnext] at h
      have hfirst := freedPages_free hok (freedPage reg j)
      have hrest := ih (a := { markPageFree a (freedPage reg j) with
        pagesFree := (a.pagesFree + 1) % 2^64 }) hfirst.ok h
      refine (hfirst.trans hrest).congr fun p => ?_
      constructor
      · rintro (rfl | ⟨i, hi, hin, rfl⟩)
        · exact ⟨j, Nat.le_refl _, hlt, rfl⟩
        · exact ⟨i, by omega, hin, rfl⟩
      · rintro ⟨i, hi, hin, rfl⟩
        by_cases hij : i = j
        · exact Or.inl (by rw [hij])
        · exact Or.inr ⟨i, by omega, hin, rfl⟩
    · rw [if_neg hlt, Option.some.injEq] at h
      subst h
      refine (FreedPages.refl hok).congr fun p => ⟨False.elim, ?_⟩
      rintro ⟨i, hi, hin, -⟩
      omega

theorem unmarkRegions_freed {regs : List BootMemRegion} {a a' : PhysicalMemoryAllocator}
    (hok : BlocksOk a.blocks) (h : unmarkRegions regs a = some a') :
    FreedPages a.blocks
      (fun p => ∃ reg ∈ regs, ∃ j < reg.size / PAGESIZE, p = freedPage reg j) a'.blocks := by
  induction regs generalizing a with
  | nil =>
    rw [unmarkRegions, Option.some.injEq] at h
    subst h
    exact (FreedPages.refl hok).congr fun p => by simp
  | cons reg regs ih =>
    rw [unmarkRegions] at h
    obtain ⟨t, ht, h⟩ := Option.bind_eq_some_iff.mp h
    have hfirst := unmarkPages_freed (unmarkPages_bound ht (by decide)) hok ht
    refine (hfirst.trans (ih hfirst.ok h)).congr fun p => ?_
    simp

/-- the regions of the memory map from the first one shorter than a page on -/
def fromShort (memMap : List BootMemRegion) : List BootMemRegion :=
  (mapRegions memMap).dropWhile fun r => decide (r.size / 4096 ≠ 0)

/-- Some page that the set-up frees lies behind the first region shorter than a page.  `memFree` is
what is left of the free regions when the bitmaps are carved out. -/
def FreesBehind (memMap memFree : List BootMemRegion) : Prop :=
  ∃ reg ∈ memFree.take FREE_SCAN, ∃ j < reg.size / PAGESIZE,
    ∃ m ∈ fromShort memMap, (mapBlock m).covers (freedPage reg j) = true

theorem not_covers_default (p : Nat) : (default : PhysicalMemoryBlock).covers p = false := by
  by_contra h
  have := covers_range (by simpa using h : (default : PhysicalMemoryBlock).covers p = true)
  have h0 : (default : PhysicalMemoryBlock).npages = 0 := rfl
  have h1 : (default : PhysicalMemoryBlock).base = 0 := rfl
  rw [h0, h1] at this
  omega

theorem deadCovers_init (regs : List BootMemRegion) (n p : Nat) :
    DeadCovers (regs.map mapBlock ++ List.replicate n default) p ↔
      ∃ m ∈ regs.dropWhile (fun r => decide (r.size / 4096 ≠ 0)),
        (mapBlock m).covers p = true := by
  have hpad : ∀ c ∈ List.replicate n (default : PhysicalMemoryBlock), c.covers p = false := by
    intro c hc
    rw [(List.mem_replicate.mp hc).2]
    exact not_covers_default p
  unfold DeadCovers deadBlocks
  induction regs with
  | nil =>
    constructor
    · intro ⟨c, hc, hcov⟩
      rw [hpad c ((List.dropWhile_sublist _).subset hc)] at hcov
      cases hcov
    · intro ⟨m, hm, _⟩
      exact absurd hm List.not_mem_nil
  | cons m regs ih =>
    rw [List.map_cons, List.cons_append]
    by_cases h0 : m.size / 4096 = 0
    · rw [List.dropWhile_cons_of_neg (by simpa [mapBlock] using h0),
        List.dropWhile_cons_of_neg (by simpa using h0)]
      constructor
      · intro ⟨c, hc, hcov⟩
        rw [← List.cons_append, ← List.map_cons] at hc
        rcases List.mem_append.mp hc with hc | hc
        · obtain ⟨r, hr, rfl⟩ := List.mem_map.mp hc
          exact ⟨r, hr, hcov⟩
        · rw [hpad c hc] at hcov
          cases hcov
      · intro ⟨r, hr, hcov⟩
        refine ⟨mapBlock r, ?_, hcov⟩
        rw [← List.cons_append, ← List.map_cons]
        exact List.mem_append_left _ (List.mem_map_of_mem hr)
    · rw [List.dropWhile_cons_of_pos (by simpa [mapBlock] using h0),
        List.dropWhile_cons_of_pos (by simpa using h0)]
      exact ih

/-- the blocks that the set-up leaves -/
theorem init_freed {boot : BootParams} (hmap : RegionsOk (mapRegions boot.memMap))
    {a : PhysicalMemoryAllocator} {memFree : List BootMemRegion}
    (hinit : initPhysicalMemory boot = some (a, memFree)) :
    ∃ hlen, FreedPages (initAlloc ((mapRegions boot.memMap).map mapBlock) hlen).blocks
      (fun p => ∃ reg ∈ memFree.take FREE_SCAN, ∃ j < reg.size / PAGESIZE, p = freedPage reg j)
      a.blocks := by
  cases hblocks : initBlocks boot.memMap PMB_COUNT boot.memFree with
  | none =>
    unfold initPhysicalMemory at hinit
    split at hinit
    · cases hinit
    · rename_i h'
      rw [hblocks] at h'
      cases h'
  | some x =>
    obtain ⟨blocks, memFree'⟩ := x
    rw [initPhysicalMemory_eq hblocks] at hinit
    obtain ⟨t, ht, e⟩ := Option.map_eq_some_iff.mp hinit
    obtain ⟨rfl, rfl⟩ := Prod.mk.inj e
    have hb := initBlocks_map hblocks
    subst hb
    exact ⟨length_initBlocks hblocks,
      unmarkRegions_freed (blocksOk_initAlloc hmap (length_initBlocks hblocks)) ht⟩

/-- what the set-up leaves behind the first short region -/
theorem clearBit_dead_init {boot : BootParams} (hmap : RegionsOk (mapRegions boot.memMap))
    {a : PhysicalMemoryAllocator} {memFree : List BootMemRegion}
    (hinit : initPhysicalMemory boot = some (a, memFree)) :
    BlocksOk a.blocks ∧ (ClearBit (deadBlocks a.blocks) ↔ FreesBehind boot.memMap memFree) := by
  obtain ⟨hlen, hfreed⟩ := init_freed hmap hinit
  refine ⟨hfreed.ok, hfreed.clear.trans ?_⟩
  have hnone : ¬ ClearBit (deadBlocks
      (initAlloc ((mapRegions boot.memMap).map mapBlock) hlen).blocks) :=
    fun ⟨b, hb, hclear⟩ => not_clearBit_initAlloc hlen ⟨b, (List.dropWhile_sublist _).subset hb, hclear⟩
  unfold FreesBehind fromShort
  constructor
  · rintro (hc | ⟨p, ⟨reg, hreg, j, hj, rfl⟩, hcov⟩)
    · exact absurd hc hnone
    · exact ⟨reg, hreg, j, hj, (deadCovers_init _ _ _).mp hcov⟩
  · rintro ⟨reg, hreg, j, hj, hcov⟩
    exact Or.inr ⟨_, ⟨reg, hreg, j, hj, rfl⟩, (deadCovers_init _ _ _).mpr hcov⟩

/-- calls without end fail although a bit behind the short region is clear -/
theorem alloc_fails_early {a : PhysicalMemoryAllocator} (hok : BlocksOk a.blocks)
    (hdead : ClearBit (deadBlocks a.blocks)) : ∃ ops, Along pageStep PageLegal ⟨a, ∅⟩ ops ∧
      ¬ Always pageStep AllocExact (fun _ _ _ => True) ⟨a, ∅⟩ ops := by
  obtain ⟨s', hs', hok', hnone, hsame⟩ := exhaust (clearCount a.live) (s := ⟨a, ∅⟩) hok
    (Nat.le_refl _)
  have hl : Along pageStep PageLegal ⟨a, ∅⟩ (List.replicate (clearCount a.live) .alloc) := by
    refine along_of_forall _ (fun op hop s => ?_) _
    rw [List.eq_of_mem_replicate hop]
    exact trivial
  refine ⟨_, hl, fun hall => ?_⟩
  exact hnone ((allocExact_iff hok').mp (hall.last hs') (hsame.symm ▸ hdead))

/-- **in every run allocations fail exactly when no page is free, if and only if the set-up frees no
page behind the first region shorter than a page** -/
theorem alloc_fails_exactly {boot : BootParams} (hmap : RegionsOk (mapRegions boot.memMap))
    {a : PhysicalMemoryAllocator} {memFree : List BootMemRegion}
    (hinit : initPhysicalMemory boot = some (a, memFree)) :
    (∀ ops, Along pageStep PageLegal ⟨a, ∅⟩ ops →
        Always pageStep AllocExact (fun _ _ _ => True) ⟨a, ∅⟩ ops) ↔
      ¬ FreesBehind boot.memMap memFree := by
  obtain ⟨hok, hclear⟩ := clearBit_dead_init hmap hinit
  rw [← hclear]
  constructor
  · intro hall hdead
    obtain ⟨ops, hl, hnot⟩ := alloc_fails_early hok hdead
    exact hnot (hall ops hl)
  · intro hdead ops hl
    have hrun : Always pageStep RunOk (fun _ _ _ => True) ⟨a, ∅⟩ ops := by
      refine always_of_step (fun s op hI hl => ?_) ops _ ?_ hl
      · obtain ⟨s', hs', h'⟩ := runOk_step hI hl
        exact ⟨s', hs', trivial, h'⟩
      · exact ⟨hok, hdead, fun p hp => absurd hp (Finset.notMem_empty p)⟩
    refine hrun.mono (fun s hs => ?_) (fun _ _ _ _ _ _ => trivial)
    exact (allocExact_iff hs.ok).mpr fun hd => absurd hd hs.dead

theorem alloc_fails_exactly_lone : ∃ a memFree,
    initPhysicalMemory (loneBoot 0x10000) = some (a, memFree) ∧
      Always pageStep AllocExact (fun _ _ _ => True) ⟨a, ∅⟩ [.alloc, .alloc] := by
  have hmap : RegionsOk (mapRegions (loneBoot 0x10000).memMap) := by
    rw [mapRegions_lone (by decide)]
    exact ⟨by decide, List.pairwise_singleton _ _, by decide⟩
  refine ⟨_, _, rfl, ?_⟩
  refine (alloc_fails_exactly hmap rfl).mpr ?_ [.alloc, .alloc]
    ⟨trivial, fun _ _ => ⟨trivial, fun _ _ => trivial⟩⟩
  intro ⟨_, _, _, _, m, hm, _⟩
  have hnone : fromShort (loneBoot 0x10000).memMap = [] := rfl
  rw [hnone] at hm
  exact absurd hm List.not_mem_nil

/-- half a page of memory in front of 16 pages -/
def shortBoot : BootParams where
  memMap := [⟨0x9f000, 0x800⟩, ⟨0x1000000, 0x10000⟩] ++ List.replicate 62 ⟨0, 0⟩
  memFree := ⟨0x1000000, 0x10000⟩ :: List.replicate 63 ⟨0, 0⟩
  mapCount := rfl
  freeCount := rfl

/-- with eight pages free, an allocation fails -/
theorem alloc_fails_behind : ¬ ∀ boot : BootParams, RegionsOk (mapRegions boot.memMap) →
    ∀ a memFree, initPhysicalMemory boot = some (a, memFree) →
    ∀ ops, Along pageStep PageLegal ⟨a, ∅⟩ ops →
      Always pageStep AllocExact (fun _ _ _ => True) ⟨a, ∅⟩ ops := by
  intro hall
  have hregs : mapRegions shortBoot.memMap = [⟨0x9f000, 0x800⟩, ⟨0x1000000, 0x10000⟩] := rfl
  have hmap : RegionsOk (mapRegions shortBoot.memMap) := by
    rw [hregs]
    refine ⟨by decide, ?_, by decide⟩
    rw [List.pairwise_pair]
    intro p ⟨h1, h2⟩
    unfold BootMemRegion.Has at h1 h2
    dsimp only at h1 h2
    omega
  obtain ⟨hok, hclear⟩ := clearBit_dead_init hmap rfl
  obtain ⟨ops, hl, hnot⟩ := alloc_fails_early hok (hclear.mpr
    ⟨⟨0x1008000, 0x8000⟩, List.mem_cons_self, 0, by decide, ⟨0x1000000, 0x10000⟩,
      List.mem_cons_of_mem _ List.mem_cons_self, by decide⟩)
  exact hnot (hall shortBoot hmap _ _ rfl ops hl)

end FuseeOS
