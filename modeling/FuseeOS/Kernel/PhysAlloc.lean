import Mathlib.Data.Finset.Card
import Mathlib.Data.List.Pairwise
import FuseeOS.Kernel.AllocPage

/-!
# Handing out physical pages

The allocator as a set of free pages.  `FreePage ls p`: page `p` of one of the blocks `ls` has its
order-0 bit clear.

* `freePage_markFree`, `freePage_markUsed`   marking changes the status of its page and of no other;
* `allocPhysPages_spec`   a call returns a free page and takes it out of the set, or `BADPAGE`
                          when the set is empty;
* `freePhysPages_spec`    the pages given back join the set.
-/

namespace FuseeOS
open BitMap

/-! ## blocks and their pages -/

/-- address of page `k` of a block -/
def PhysicalMemoryBlock.page (b : PhysicalMemoryBlock) (k : Nat) : Nat := b.base + k * 4096

/-- the byte range `[base, base + npages * 4096)` ends before the 64-bit addresses do -/
def PhysicalMemoryBlock.Fits (b : PhysicalMemoryBlock) : Prop := b.base + b.npages * 4096 < 2^64

def PhysicalMemoryBlock.Apart (b c : PhysicalMemoryBlock) : Prop :=
  b.base + b.npages * 4096 ≤ c.base ∨ c.base + c.npages * 4096 ≤ b.base

/-- blocks at aligned addresses, pairwise disjoint -/
structure Layout (ls : List PhysicalMemoryBlock) : Prop where
  aligned : ∀ b ∈ ls, b.base % 4096 = 0
  disjoint : ls.Pairwise PhysicalMemoryBlock.Apart

/-- the blocks before the first empty one: those that `alloc_phys_pages` looks at -/
def liveBlocks (bs : List PhysicalMemoryBlock) : List PhysicalMemoryBlock :=
  bs.takeWhile fun b => decide (b.npages ≠ 0)

def FreePage (ls : List PhysicalMemoryBlock) (p : Nat) : Prop :=
  ∃ b ∈ ls, ∃ k, k < b.npages ∧ p = b.page k ∧ get (b.bitmap 0) k = false

def InBlocks (ls : List PhysicalMemoryBlock) (p : Nat) : Prop :=
  ∃ b ∈ ls, ∃ k, k < b.npages ∧ p = b.page k

theorem FreePage.inBlocks {ls : List PhysicalMemoryBlock} {p : Nat} (h : FreePage ls p) :
    InBlocks ls p := by
  obtain ⟨b, hb, k, hk, hp, _⟩ := h
  exact ⟨b, hb, k, hk, hp⟩

theorem mem_liveBlocks {bs : List PhysicalMemoryBlock} {b : PhysicalMemoryBlock}
    (h : b ∈ liveBlocks bs) : b ∈ bs ∧ b.npages ≠ 0 := by
  have h1 := List.all_takeWhile (p := fun b : PhysicalMemoryBlock => decide (b.npages ≠ 0)) (l := bs)
  exact ⟨(List.takeWhile_sublist _).subset h, by simpa using List.all_eq_true.mp h1 b h⟩

theorem covers_range {b : PhysicalMemoryBlock} {p : Nat} (h : b.covers p = true) :
    b.base ≤ p ∧ p < b.base + b.npages * 4096 := by
  unfold PhysicalMemoryBlock.covers at h
  simp only [Bool.and_eq_true, decide_eq_true_eq, PAGESIZE] at h
  exact ⟨h.1, lt_of_lt_of_le h.2 (Nat.mod_le _ _)⟩

theorem offset_lt {b : PhysicalMemoryBlock} {p : Nat} (h : b.covers p = true) :
    b.offset p < b.npages := by
  obtain ⟨h1, h2⟩ := covers_range h
  unfold PhysicalMemoryBlock.offset
  simp only [PAGESIZE]
  omega

theorem covers_page {b : PhysicalMemoryBlock} (hf : b.Fits) {k : Nat} (hk : k < b.npages) :
    b.covers (b.page k) = true := by
  unfold PhysicalMemoryBlock.Fits at hf
  unfold PhysicalMemoryBlock.covers PhysicalMemoryBlock.page
  simp only [Bool.and_eq_true, decide_eq_true_eq, PAGESIZE]
  rw [Nat.mod_eq_of_lt hf]
  omega

theorem offset_page (b : PhysicalMemoryBlock) (k : Nat) : b.offset (b.page k) = k := by
  unfold PhysicalMemoryBlock.offset PhysicalMemoryBlock.page
  simp only [PAGESIZE]
  omega

theorem page_lt_of_le {b : PhysicalMemoryBlock} (hend : b.base + b.npages * 4096 ≤ 2^64) {k : Nat}
    (hk : k < b.npages) : b.page k < BADPAGE := by
  have hnext : b.page k + 4096 ≤ b.base + b.npages * 4096 := by
    unfold PhysicalMemoryBlock.page
    omega
  unfold BADPAGE
  omega

theorem page_lt {b : PhysicalMemoryBlock} (hf : b.Fits) {k : Nat} (hk : k < b.npages) :
    b.page k < BADPAGE :=
  page_lt_of_le (Nat.le_of_lt hf) hk

theorem Apart.symm {b c : PhysicalMemoryBlock} (h : b.Apart c) : c.Apart b := Or.symm h

instance : Std.Symm PhysicalMemoryBlock.Apart := ⟨fun _ _ => Apart.symm⟩

/-- a page address belongs to one block, at one index -/
theorem Layout.unique {ls : List PhysicalMemoryBlock} (h : Layout ls) {b c : PhysicalMemoryBlock}
    (hb : b ∈ ls) (hc : c ∈ ls) {i j : Nat} (hi : i < b.npages) (hj : j < c.npages)
    (e : b.page i = c.page j) : b = c ∧ i = j := by
  unfold PhysicalMemoryBlock.page at e
  have hbc : b = c := by
    by_contra hne
    have hd := h.disjoint.forall hb hc hne
    unfold PhysicalMemoryBlock.Apart at hd
    omega
  subst hbc
  exact ⟨rfl, by omega⟩

theorem Layout.covers_page {ls : List PhysicalMemoryBlock} (h : Layout ls)
    {b c : PhysicalMemoryBlock} (hb : b ∈ ls) (hc : c ∈ ls) {k : Nat} (hk : k < b.npages)
    (hcov : c.covers (b.page k) = true) : c = b := by
  obtain ⟨h1, h2⟩ := covers_range hcov
  have ab := h.aligned b hb
  have ac := h.aligned c hc
  have e : c.page ((b.page k - c.base) / 4096) = b.page k := by
    unfold PhysicalMemoryBlock.page at *
    omega
  have hlt : (b.page k - c.base) / 4096 < c.npages := by omega
  exact (h.unique hc hb hlt hk e).1

/-- the first block that covers a page of `b` is `b` -/
theorem Layout.blockOf {ls : List PhysicalMemoryBlock} (h : Layout ls) {b : PhysicalMemoryBlock}
    (hb : b ∈ ls) (hf : b.Fits) {k : Nat} (hk : k < b.npages) :
    FuseeOS.blockOf ls (b.page k) = some b := by
  unfold FuseeOS.blockOf
  cases hfind : ls.find? (fun c => c.covers (b.page k)) with
  | none =>
    have hno := List.find?_eq_none.mp hfind b hb
    exact absurd (FuseeOS.covers_page hf hk) hno
  | some c =>
    have hcov : c.covers (b.page k) = true := blockOf_covers hfind
    rw [h.covers_page hb (List.mem_of_find?_eq_some hfind) hk hcov]

/-- a marking rewrites the first block that covers the page, and leaves the blocks around it -/
theorem onBlock_of_blockOf {ls : List PhysicalMemoryBlock} {p : Nat} {b : PhysicalMemoryBlock}
    (h : FuseeOS.blockOf ls p = some b)
    (f : PhysicalMemoryBlock → Nat → PhysicalMemoryBlock) :
    ∃ l₁ l₂, ls = l₁ ++ b :: l₂ ∧ onBlock f p ls = l₁ ++ f b (b.offset p) :: l₂ := by
  obtain ⟨hcov, l₁, l₂, e, hno⟩ := List.find?_eq_some_iff_append.mp h
  refine ⟨l₁, l₂, e, ?_⟩
  rw [e]
  clear h e
  induction l₁ with
  | nil =>
    rw [List.nil_append, List.nil_append, onBlock, if_pos hcov]
  | cons c l₁ ih =>
    have hc : ¬ c.covers p = true := by simpa using hno c (List.mem_cons_self ..)
    rw [List.cons_append, onBlock, if_neg hc,
      ih (fun a ha => hno a (List.mem_cons_of_mem _ ha)), List.cons_append]

/-- marking a page of `b` rewrites `b` and leaves the blocks around it -/
theorem Layout.onBlock_split {ls : List PhysicalMemoryBlock} (h : Layout ls)
    {b : PhysicalMemoryBlock} (hb : b ∈ ls) (hf : b.Fits) {k : Nat} (hk : k < b.npages)
    (f : PhysicalMemoryBlock → Nat → PhysicalMemoryBlock) :
    ∃ l₁ l₂, ls = l₁ ++ b :: l₂ ∧ onBlock f (b.page k) ls = l₁ ++ f b k :: l₂ := by
  have hsplit := onBlock_of_blockOf (h.blockOf hb hf hk) f
  rwa [offset_page] at hsplit

theorem onBlock_of_not_covers (f : PhysicalMemoryBlock → Nat → PhysicalMemoryBlock) (p : Nat)
    (ls : List PhysicalMemoryBlock) (h : ∀ b ∈ ls, b.covers p = false) : onBlock f p ls = ls := by
  induction ls with
  | nil => rfl
  | cons b ls ih =>
    rw [onBlock, h b (List.mem_cons_self ..), if_neg Bool.false_ne_true,
      ih (fun c hc => h c (List.mem_cons_of_mem _ hc))]

/-- marking never moves or resizes a block -/
theorem map_onBlock {β : Type} (g : PhysicalMemoryBlock → β)
    (f : PhysicalMemoryBlock → Nat → PhysicalMemoryBlock) (hg : ∀ b k, g (f b k) = g b) (p : Nat)
    (ls : List PhysicalMemoryBlock) : (onBlock f p ls).map g = ls.map g := by
  induction ls with
  | nil => rfl
  | cons b ls ih =>
    unfold onBlock
    split
    · rw [List.map_cons, List.map_cons, hg]
    · rw [List.map_cons, List.map_cons, ih]

theorem liveBlocks_onBlock (f : PhysicalMemoryBlock → Nat → PhysicalMemoryBlock)
    (hf : ∀ b k, (f b k).npages = b.npages) (p : Nat) (bs : List PhysicalMemoryBlock) :
    liveBlocks (onBlock f p bs) = onBlock f p (liveBlocks bs) := by
  induction bs with
  | nil => rfl
  | cons b bs ih =>
    unfold liveBlocks at *
    by_cases hc : b.covers p = true
    · have hn := covers_npages hc
      rw [onBlock, if_pos hc, List.takeWhile_cons_of_pos (by simpa [hf] using hn),
        List.takeWhile_cons_of_pos (by simpa using hn), onBlock, if_pos hc]
    · rw [onBlock, if_neg hc]
      by_cases hn : b.npages = 0
      · rw [List.takeWhile_cons_of_neg (by simpa using hn),
          List.takeWhile_cons_of_neg (by simpa using hn)]
        rfl
      · rw [List.takeWhile_cons_of_pos (by simpa using hn),
          List.takeWhile_cons_of_pos (by simpa using hn), ih, onBlock, if_neg hc]

/-! ## order 0 of a marking -/

theorem get_free (b : PhysicalMemoryBlock) (k i : Nat) :
    get ((b.free k).bitmap 0) i = (!decide (i = k) && get (b.bitmap 0) i) := by
  have h : (b.free k).bitmap 0 = clear (b.bitmap 0) k := by
    show freeOrders (7 + 1) 0 k b.bitmap 0 = _
    rw [freeOrders_succ]
    split
    · rw [freeOrders_below _ _ _ _ _ (by omega), Function.update_self]
    · rw [Function.update_self]
  rw [h, get_clear]

theorem usedOrders_below (n j o i : Nat) (bitmap : Nat → Nat → BitVec 8) (hi : i < j) :
    usedOrders n j o bitmap i = bitmap i := by
  induction n generalizing j o bitmap with
  | zero => rfl
  | succ n ih =>
    unfold usedOrders
    split
    · rfl
    · rw [ih (j + 1) (o / 2) _ (by omega), Function.update_of_ne (by omega)]

theorem get_use (b : PhysicalMemoryBlock) (k i : Nat) :
    get ((b.use k).bitmap 0) i = (decide (i = k) || get (b.bitmap 0) i) := by
  show get (usedOrders (7 + 1) 0 k b.bitmap 0) i = _
  unfold usedOrders
  split
  · rename_i hk
    by_cases e : i = k
    · subst e; simp [hk]
    · simp [e]
  · rw [usedOrders_below _ _ _ _ _ (by omega), Function.update_self, get_set]

theorem freePage_append (l₁ l₂ : List PhysicalMemoryBlock) (p : Nat) :
    FreePage (l₁ ++ l₂) p ↔ FreePage l₁ p ∨ FreePage l₂ p := by
  unfold FreePage
  simp only [List.mem_append, or_and_right, exists_or]

theorem freePage_cons (b : PhysicalMemoryBlock) (l : List PhysicalMemoryBlock) (p : Nat) :
    FreePage (b :: l) p ↔
      (∃ k, k < b.npages ∧ p = b.page k ∧ get (b.bitmap 0) k = false) ∨ FreePage l p := by
  unfold FreePage
  simp only [List.mem_cons, or_and_right, exists_or, exists_eq_left]

/-- **Releasing page `k` of `b` makes it free and changes no other page.** -/
theorem freePage_markFree {ls : List PhysicalMemoryBlock} (h : Layout ls) {b : PhysicalMemoryBlock}
    (hb : b ∈ ls) (hf : b.Fits) {k : Nat} (hk : k < b.npages) (q : Nat) :
    FreePage (onBlock .free (b.page k) ls) q ↔ FreePage ls q ∨ q = b.page k := by
  obtain ⟨l₁, l₂, e, e'⟩ := h.onBlock_split hb hf hk .free
  rw [e', e, freePage_append, freePage_append, freePage_cons, freePage_cons]
  have hcell : (∃ i, i < (b.free k).npages ∧ q = (b.free k).page i ∧
      get ((b.free k).bitmap 0) i = false) ↔
      (∃ i, i < b.npages ∧ q = b.page i ∧ get (b.bitmap 0) i = false) ∨ q = b.page k := by
    constructor
    · rintro ⟨i, hi, hq, hg⟩
      by_cases hik : i = k
      · subst hik; exact .inr hq
      · rw [get_free] at hg
        exact .inl ⟨i, hi, hq, by simpa [hik] using hg⟩
    · rintro (⟨i, hi, hq, hg⟩ | hq)
      · exact ⟨i, hi, hq, by rw [get_free, hg, Bool.and_false]⟩
      · exact ⟨k, hk, hq, by rw [get_free]; simp⟩
  rw [hcell]
  constructor
  · rintro (ha | (hc | hd) | hb)
    · exact .inl (.inl ha)
    · exact .inl (.inr (.inl hc))
    · exact .inr hd
    · exact .inl (.inr (.inr hb))
  · rintro ((ha | hc | hb) | hd)
    · exact .inl ha
    · exact .inr (.inl (.inl hc))
    · exact .inr (.inr hb)
    · exact .inr (.inl (.inr hd))

/-- **Taking page `k` of `b` makes it used and changes no other page.** -/
theorem freePage_markUsed {ls : List PhysicalMemoryBlock} (h : Layout ls) {b : PhysicalMemoryBlock}
    (hb : b ∈ ls) (hf : b.Fits) {k : Nat} (hk : k < b.npages) (q : Nat) :
    FreePage (onBlock .use (b.page k) ls) q ↔ FreePage ls q ∧ q ≠ b.page k := by
  obtain ⟨l₁, l₂, e, e'⟩ := h.onBlock_split hb hf hk .use
  have hnd := h.disjoint
  rw [e] at hnd
  obtain ⟨_, hd2, hd12⟩ := List.pairwise_append.mp hnd
  -- a page of another block is not page `k` of `b`
  have hne : ∀ c, c ∈ l₁ ∨ c ∈ l₂ → ∀ i, i < c.npages → c.page i ≠ b.page k := by
    intro c hc i hi hp
    have hd : c.Apart b := by
      rcases hc with hc | hc
      · exact hd12 c hc b (List.mem_cons_self ..)
      · exact Apart.symm ((List.pairwise_cons.mp hd2).1 c hc)
    unfold PhysicalMemoryBlock.Apart PhysicalMemoryBlock.page at *
    omega
  rw [e', e, freePage_append, freePage_append, freePage_cons, freePage_cons]
  have hcell : (∃ i, i < (b.use k).npages ∧ q = (b.use k).page i ∧
      get ((b.use k).bitmap 0) i = false) ↔
      (∃ i, i < b.npages ∧ q = b.page i ∧ get (b.bitmap 0) i = false) ∧ q ≠ b.page k := by
    constructor
    · rintro ⟨i, hi, hq, hg⟩
      rw [get_use, Bool.or_eq_false_iff] at hg
      have hik : i ≠ k := by simpa using hg.1
      refine ⟨⟨i, hi, hq, hg.2⟩, fun hqk => hik ?_⟩
      have hp : b.page i = b.page k := hq.symm.trans hqk
      unfold PhysicalMemoryBlock.page at hp
      omega
    · rintro ⟨⟨i, hi, hq, hg⟩, hqk⟩
      have hik : i ≠ k := fun hik => hqk (by rw [hq, hik])
      exact ⟨i, hi, hq, by rw [get_use, hg]; simp [hik]⟩
  have h1 : FreePage l₁ q → q ≠ b.page k := by
    rintro ⟨c, hc, i, hi, hq, _⟩ hqk
    exact hne c (.inl hc) i hi (hq.symm.trans hqk)
  have h2 : FreePage l₂ q → q ≠ b.page k := by
    rintro ⟨c, hc, i, hi, hq, _⟩ hqk
    exact hne c (.inr hc) i hi (hq.symm.trans hqk)
  rw [hcell]
  constructor
  · rintro (ha | ⟨hc, hd⟩ | hb)
    · exact ⟨.inl ha, h1 ha⟩
    · exact ⟨.inr (.inl hc), hd⟩
    · exact ⟨.inr (.inr hb), h2 hb⟩
  · rintro ⟨ha | hc | hb, hd⟩
    · exact .inl ha
    · exact .inr (.inl ⟨hc, hd⟩)
    · exact .inr (.inr hb)

/-! ## counting the clear bits -/

/-- the clear order-0 bits of a block -/
def PhysicalMemoryBlock.clearBits (b : PhysicalMemoryBlock) : Finset Nat :=
  (Finset.range b.npages).filter fun k => get (b.bitmap 0) k = false

/-- number of clear order-0 bits -/
def clearCount (ls : List PhysicalMemoryBlock) : Nat := (ls.map fun b => b.clearBits.card).sum

theorem mem_clearBits (b : PhysicalMemoryBlock) (k : Nat) :
    k ∈ b.clearBits ↔ k < b.npages ∧ get (b.bitmap 0) k = false := by
  unfold PhysicalMemoryBlock.clearBits
  rw [Finset.mem_filter, Finset.mem_range]

theorem clearCount_split (l₁ l₂ : List PhysicalMemoryBlock) (b : PhysicalMemoryBlock) :
    clearCount (l₁ ++ b :: l₂) = clearCount l₁ + b.clearBits.card + clearCount l₂ := by
  unfold clearCount
  rw [List.map_append, List.sum_append, List.map_cons, List.sum_cons, Nat.add_assoc]

/-- clearing a bit counts it, if it was set -/
theorem clearCount_free {ls : List PhysicalMemoryBlock} {p : Nat} {b : PhysicalMemoryBlock}
    (h : FuseeOS.blockOf ls p = some b) : clearCount (onBlock .free p ls) =
      clearCount ls + if get (b.bitmap 0) (b.offset p) = true then 1 else 0 := by
  obtain ⟨l₁, l₂, e, e'⟩ := onBlock_of_blockOf h .free
  have hk := offset_lt (blockOf_covers h)
  have hc : (b.free (b.offset p)).clearBits = insert (b.offset p) b.clearBits := by
    ext i
    have e : (b.free (b.offset p)).npages = b.npages := rfl
    rw [Finset.mem_insert, mem_clearBits, mem_clearBits, get_free, e]
    by_cases hik : i = b.offset p
    · subst hik; simpa using hk
    · simp [hik]
  rw [e', e, clearCount_split, clearCount_split, hc]
  by_cases hu : get (b.bitmap 0) (b.offset p) = true
  · have hn : b.offset p ∉ b.clearBits := by
      rw [mem_clearBits, hu]; simp
    rw [Finset.card_insert_of_notMem hn, if_pos hu]
    omega
  · have hm : b.offset p ∈ b.clearBits := (mem_clearBits b _).mpr ⟨hk, by simpa using hu⟩
    rw [Finset.insert_eq_of_mem hm, if_neg hu]
    rfl

theorem clearCount_markFree {ls : List PhysicalMemoryBlock} (h : Layout ls)
    {b : PhysicalMemoryBlock} (hb : b ∈ ls) (hf : b.Fits) {k : Nat} (hk : k < b.npages)
    (hu : get (b.bitmap 0) k = true) :
    clearCount (onBlock .free (b.page k) ls) = clearCount ls + 1 := by
  rw [clearCount_free (h.blockOf hb hf hk), offset_page, if_pos hu]

theorem clearCount_use {ls : List PhysicalMemoryBlock} {p : Nat} {b : PhysicalMemoryBlock}
    (h : FuseeOS.blockOf ls p = some b) (hu : get (b.bitmap 0) (b.offset p) = false) :
    clearCount (onBlock .use p ls) + 1 = clearCount ls := by
  obtain ⟨l₁, l₂, e, e'⟩ := onBlock_of_blockOf h .use
  have hk := offset_lt (blockOf_covers h)
  have hmem : b.offset p ∈ b.clearBits := (mem_clearBits b _).mpr ⟨hk, hu⟩
  have hc : (b.use (b.offset p)).clearBits = b.clearBits.erase (b.offset p) := by
    ext i
    have e : (b.use (b.offset p)).npages = b.npages := rfl
    rw [Finset.mem_erase, mem_clearBits, mem_clearBits, get_use, e]
    by_cases hik : i = b.offset p
    · simp [hik]
    · simp [hik]
  have hpos := Finset.card_pos.mpr ⟨_, hmem⟩
  rw [e', e, clearCount_split, clearCount_split, hc, Finset.card_erase_of_mem hmem]
  omega

theorem clearCount_markUsed {ls : List PhysicalMemoryBlock} (h : Layout ls)
    {b : PhysicalMemoryBlock} (hb : b ∈ ls) (hf : b.Fits) {k : Nat} (hk : k < b.npages)
    (hu : get (b.bitmap 0) k = false) :
    clearCount (onBlock .use (b.page k) ls) + 1 = clearCount ls :=
  clearCount_use (h.blockOf hb hf hk) (by rwa [offset_page])

/-- a free page is counted -/
theorem FreePage.clearCount_pos {ls : List PhysicalMemoryBlock} {p : Nat} (h : FreePage ls p) :
    0 < clearCount ls := by
  obtain ⟨b, hb, k, hk, _, hg⟩ := h
  obtain ⟨l₁, l₂, e⟩ := List.append_of_mem hb
  have hpos := Finset.card_pos.mpr ⟨k, (mem_clearBits b k).mpr ⟨hk, hg⟩⟩
  rw [e, clearCount_split]
  omega

theorem clearCount_eq_zero (ls : List PhysicalMemoryBlock) (h : ∀ p, ¬ FreePage ls p) :
    clearCount ls = 0 := by
  induction ls with
  | nil => rfl
  | cons b ls ih =>
    have hb : b.clearBits = ∅ := by
      refine Finset.eq_empty_of_forall_notMem fun k hk => ?_
      obtain ⟨hk1, hk2⟩ := (mem_clearBits b k).mp hk
      exact h (b.page k) ((freePage_cons b ls _).mpr (.inl ⟨k, hk1, rfl, hk2⟩))
    have ht := ih fun p hp => h p ((freePage_cons b ls p).mpr (.inr hp))
    show b.clearBits.card + clearCount ls = 0
    rw [hb, ht]
    rfl

theorem clearCount_le (ls : List PhysicalMemoryBlock) (hf : ∀ b ∈ ls, b.Fits) :
    clearCount ls ≤ ls.length * 2^52 := by
  induction ls with
  | nil => exact Nat.zero_le _
  | cons b ls ih =>
    have hb := hf b (List.mem_cons_self ..)
    have hc : b.clearBits.card ≤ b.npages := by
      have h := Finset.card_filter_le (Finset.range b.npages)
        fun k => get (b.bitmap 0) k = false
      rwa [Finset.card_range] at h
    have h := ih fun c hc => hf c (List.mem_cons_of_mem _ hc)
    have e : clearCount (b :: ls) = b.clearBits.card + clearCount ls := rfl
    unfold PhysicalMemoryBlock.Fits at hb
    rw [e, List.length_cons]
    omega

/-! ## the allocator's invariant -/

/-- bits that the order-0 bitmap has room for -/
def PhysicalMemoryBlock.bitmapBits (b : PhysicalMemoryBlock) : Nat :=
  (b.npages + 32767) / 32768 * 32768

abbrev PhysicalMemoryAllocator.live (a : PhysicalMemoryAllocator) : List PhysicalMemoryBlock :=
  liveBlocks a.blocks

/-- blocks that are disjoint, aligned, not empty, at most 15 and followed by an empty one; the bits
behind the last page are set -/
structure PmemShape (a : PhysicalMemoryAllocator) : Prop where
  layout : Layout a.live
  sentinel : a.live.length < PMB_COUNT
  padding : ∀ b ∈ a.live, ∀ k, b.npages ≤ k → k < b.bitmapBits → get (b.bitmap 0) k = true

/-- `PmemShape`, every block ends below `2^64`, and `pages_free` counts the clear order-0 bits -/
structure PmemInv (a : PhysicalMemoryAllocator) : Prop extends PmemShape a where
  fits : ∀ b ∈ a.live, b.Fits
  pages : a.pagesFree = clearCount a.live

/-- page `p` is one of the allocator's and its order-0 bit is clear -/
abbrev PhysicalMemoryAllocator.Free (a : PhysicalMemoryAllocator) (p : Nat) : Prop :=
  FreePage a.live p

/-- page `p` is one of the allocator's -/
abbrev PhysicalMemoryAllocator.Owns (a : PhysicalMemoryAllocator) (p : Nat) : Prop :=
  InBlocks a.live p

def PhysicalMemoryBlock.span (b : PhysicalMemoryBlock) : Nat × Nat := (b.base, b.npages)

theorem layout_iff (ls : List PhysicalMemoryBlock) :
    Layout ls ↔ (∀ x ∈ ls.map PhysicalMemoryBlock.span, x.1 % 4096 = 0) ∧
      (ls.map PhysicalMemoryBlock.span).Pairwise
        (fun x y => x.1 + x.2 * 4096 ≤ y.1 ∨ y.1 + y.2 * 4096 ≤ x.1) := by
  rw [List.forall_mem_map, List.pairwise_map]
  exact ⟨fun h => ⟨h.aligned, h.disjoint⟩, fun h => ⟨h.1, h.2⟩⟩

theorem inBlocks_iff (ls : List PhysicalMemoryBlock) (p : Nat) :
    InBlocks ls p ↔
      ∃ x ∈ ls.map PhysicalMemoryBlock.span, ∃ k, k < x.2 ∧ p = x.1 + k * 4096 := by
  constructor
  · rintro ⟨b, hb, k, hk, hp⟩
    exact ⟨b.span, List.mem_map_of_mem hb, k, hk, hp⟩
  · rintro ⟨x, hx, k, hk, hp⟩
    obtain ⟨b, hb, rfl⟩ := List.mem_map.mp hx
    exact ⟨b, hb, k, hk, hp⟩

theorem fits_iff (ls : List PhysicalMemoryBlock) :
    (∀ b ∈ ls, b.Fits) ↔ ∀ x ∈ ls.map PhysicalMemoryBlock.span, x.1 + x.2 * 4096 < 2^64 := by
  rw [List.forall_mem_map]
  rfl

section
variable {a : PhysicalMemoryAllocator} {p : Nat}

theorem live_markPageFree (a : PhysicalMemoryAllocator) (p : Nat) :
    (markPageFree a p).live = onBlock .free p a.live :=
  liveBlocks_onBlock PhysicalMemoryBlock.free (fun _ _ => rfl) p a.blocks

theorem live_markPageUsed (a : PhysicalMemoryAllocator) (p : Nat) :
    (markPageUsed a p).live = onBlock .use p a.live :=
  liveBlocks_onBlock PhysicalMemoryBlock.use (fun _ _ => rfl) p a.blocks

theorem live_takePage (a : PhysicalMemoryAllocator) (p : Nat) :
    (takePage a p).live = onBlock .use p a.live := live_markPageUsed a p

theorem span_markPageFree (a : PhysicalMemoryAllocator) (p : Nat) :
    (markPageFree a p).live.map PhysicalMemoryBlock.span = a.live.map PhysicalMemoryBlock.span := by
  rw [live_markPageFree]
  exact map_onBlock PhysicalMemoryBlock.span .free (fun _ _ => rfl) p _

theorem span_takePage (a : PhysicalMemoryAllocator) (p : Nat) :
    (takePage a p).live.map PhysicalMemoryBlock.span = a.live.map PhysicalMemoryBlock.span := by
  rw [live_takePage]
  exact map_onBlock PhysicalMemoryBlock.span .use (fun _ _ => rfl) p _

/-- what a marking keeps: `hget` says that it leaves the bits behind the last page alone -/
theorem PmemShape.of_mark {a' : PhysicalMemoryAllocator}
    {f : PhysicalMemoryBlock → Nat → PhysicalMemoryBlock} (h : PmemShape a)
    (hlive : a'.live = onBlock f p a.live)
    (hspan : ∀ b k, (f b k).npages = b.npages ∧ (f b k).base = b.base)
    (hget : ∀ b k i, i ≠ k → get ((f b k).bitmap 0) i = get (b.bitmap 0) i) : PmemShape a' := by
  have hs : a'.live.map PhysicalMemoryBlock.span = a.live.map PhysicalMemoryBlock.span := by
    rw [hlive]
    refine map_onBlock _ _ (fun b k => ?_) p _
    unfold PhysicalMemoryBlock.span
    rw [(hspan b k).1, (hspan b k).2]
  refine ⟨?_, ?_, ?_⟩
  · rw [layout_iff, hs, ← layout_iff]
    exact h.layout
  · have hl := congrArg List.length hs
    rw [List.length_map, List.length_map] at hl
    rw [hl]
    exact h.sentinel
  · rw [hlive, forall_onBlock (fun b => ∀ k, b.npages ≤ k → k < b.bitmapBits →
      get (b.bitmap 0) k = true) _ _ _ h.padding]
    intro b hb k hk hkb
    have hoff := offset_lt (blockOf_covers hb)
    rw [(hspan b _).1] at hk
    unfold PhysicalMemoryBlock.bitmapBits at hkb
    rw [(hspan b _).1] at hkb
    rw [hget _ _ _ (by omega)]
    exact h.padding b (List.mem_of_find?_eq_some hb) k hk hkb

theorem PmemInv.pagesFree_lt (h : PmemInv a) : a.pagesFree < 2^64 := by
  have hle := clearCount_le a.live h.fits
  have hlen : a.live.length < 16 := h.sentinel
  rw [h.pages]
  omega

/-- the state after a page was taken -/
structure Taken (a : PhysicalMemoryAllocator) (p : Nat) (a' : PhysicalMemoryAllocator) : Prop where
  inv : PmemInv a'
  free : ∀ q, a'.Free q ↔ a.Free q ∧ q ≠ p
  owns : ∀ q, a'.Owns q ↔ a.Owns q
  pagesFree : a'.pagesFree + 1 = a.pagesFree

theorem taken_takePage (h : PmemInv a) (hp : a.Free p) : Taken a p (takePage a p) := by
  obtain ⟨b, hb, k, hk, rfl, hg⟩ := hp
  have hf := h.fits b hb
  have hcount := clearCount_markUsed h.layout hb hf hk hg
  have hpages : (takePage a (b.page k)).pagesFree + 1 = a.pagesFree := by
    show (a.pagesFree + (2^64 - 1)) % 2^64 + 1 = a.pagesFree
    have hlt := h.pagesFree_lt
    have hp := h.pages
    omega
  refine ⟨⟨h.toPmemShape.of_mark (live_takePage a _) (fun _ _ => ⟨rfl, rfl⟩) ?_, ?_, ?_⟩, ?_, ?_,
    hpages⟩
  · intro b k i hik
    rw [get_use]
    simp [hik]
  · rw [fits_iff, span_takePage, ← fits_iff]
    exact h.fits
  · have := h.pages
    rw [live_takePage]
    omega
  · intro q
    show FreePage (takePage a (b.page k)).live q ↔ _
    rw [live_takePage, freePage_markUsed h.layout hb hf hk]
  · intro q
    show InBlocks (takePage a (b.page k)).live q ↔ _
    rw [inBlocks_iff, span_takePage, ← inBlocks_iff]

/-! ## handing out a page -/

theorem findClear_some {b : PhysicalMemoryBlock}
    (hpad : ∀ k, b.npages ≤ k → k < b.bitmapBits → get (b.bitmap 0) k = true) {k : Nat}
    (h : b.findClear = some k) : k < b.npages ∧ get (b.bitmap 0) k = false := by
  unfold PhysicalMemoryBlock.findClear at h
  obtain ⟨j, hj, hk⟩ := List.exists_of_findSome?_eq_some h
  rw [List.mem_range] at hj
  by_cases hw : word (b.bitmap 0) j ≠ 0xffffffffffffffff#64
  · rw [if_pos hw] at hk
    obtain ⟨i, hi, e⟩ := Option.map_eq_some_iff.mp hk
    have hi64 : i < 64 := List.mem_range.mp (List.mem_of_find?_eq_some hi)
    have hbit := List.find?_some hi
    rw [getLsbD_word _ _ _ hi64, Nat.mul_comm, e] at hbit
    have hclear : get (b.bitmap 0) k = false := by simpa using hbit
    refine ⟨?_, hclear⟩
    -- a clear bit behind the last page would be a padding bit
    by_contra hge
    have hset := hpad k (by omega) (by unfold PhysicalMemoryBlock.bitmapBits; omega)
    rw [hclear] at hset
    exact Bool.false_ne_true hset
  · rw [if_neg hw] at hk
    exact nomatch hk

theorem findClear_none {b : PhysicalMemoryBlock} (h : b.findClear = none) {k : Nat}
    (hk : k < b.npages) : get (b.bitmap 0) k = true := by
  unfold PhysicalMemoryBlock.findClear at h
  have hj := List.findSome?_eq_none_iff.mp h (k / 64) (List.mem_range.mpr (by omega))
  have hmod : k % 64 < 64 := Nat.mod_lt _ (by decide)
  have hbit : (word (b.bitmap 0) (k / 64)).getLsbD (k % 64) = true := by
    by_cases hw : word (b.bitmap 0) (k / 64) ≠ 0xffffffffffffffff#64
    · rw [if_pos hw, Option.map_eq_none_iff] at hj
      simpa using List.find?_eq_none.mp hj (k % 64) (List.mem_range.mpr hmod)
    · rw [not_not.mp hw, show (0xffffffffffffffff#64) = BitVec.allOnes 64 from rfl,
        BitVec.getLsbD_allOnes]
      simpa using hmod
  rw [getLsbD_word _ _ _ hmod, Nat.div_add_mod] at hbit
  exact hbit

/-- the scan over the blocks: `bs` is what is left of `blocks[16]`; nothing before it was free -/
theorem allocFrom_spec
    (hpad : ∀ b ∈ a.live, ∀ k, b.npages ≤ k → k < b.bitmapBits → get (b.bitmap 0) k = true)
    (hend : ∀ b ∈ a.live, b.base + b.npages * 4096 ≤ 2^64) (bs : List PhysicalMemoryBlock)
    (hsub : liveBlocks bs <:+ a.live) (hshort : (liveBlocks bs).length < bs.length) :
    (∃ p, a.Free p ∧ p ≠ BADPAGE ∧ allocFrom a bs = some (p, takePage a p)) ∨
      (allocFrom a bs = some (BADPAGE, a) ∧ ∀ p, ¬ FreePage (liveBlocks bs) p) := by
  induction bs with
  | nil => exact absurd hshort (Nat.not_lt_zero _)
  | cons b bs ih =>
    unfold allocFrom
    by_cases hn : b.npages = 0
    · refine .inr ⟨if_pos hn, fun p hp => ?_⟩
      unfold liveBlocks at hp
      rw [List.takeWhile_cons_of_neg (by simpa using hn)] at hp
      obtain ⟨c, hc, _⟩ := hp
      exact nomatch hc
    · have hlive : liveBlocks (b :: bs) = b :: liveBlocks bs := by
        unfold liveBlocks
        rw [List.takeWhile_cons_of_pos (by simpa using hn)]
      rw [hlive] at hsub hshort ⊢
      rw [if_neg hn]
      have hb : b ∈ a.live := hsub.subset (List.mem_cons_self ..)
      cases hfind : b.findClear with
      | some off =>
        obtain ⟨hoff, hclear⟩ := findClear_some (hpad b hb) hfind
        have hlt := page_lt_of_le (hend b hb) hoff
        have hmod : (b.base + off * PAGESIZE) % 2^64 = b.page off :=
          Nat.mod_eq_of_lt (hlt.trans (by decide))
        refine .inl ⟨b.page off, ⟨b, hb, off, hoff, rfl, hclear⟩, hlt.ne, ?_⟩
        show some ((b.base + off * PAGESIZE) % 2^64, _) = _
        rw [hmod]
      | none =>
        rcases ih ((List.suffix_cons b _).trans hsub) (by simpa using hshort) with hl | ⟨hr, hno⟩
        · exact .inl hl
        · refine .inr ⟨hr, fun p hp => ?_⟩
          rcases (freePage_cons b _ p).mp hp with ⟨k, hk, _, hg⟩ | hp
          · rw [findClear_none hfind hk] at hg
            exact Bool.false_ne_true hg.symm
          · exact hno p hp

/-- **A call returns a free page and takes it, or there is no free page.** -/
theorem allocPhysPages_spec (h : PmemInv a) :
    (∃ p a', allocPhysPages a 1 = some (p, a') ∧ p ≠ BADPAGE ∧ a.Free p ∧ Taken a p a') ∨
      (allocPhysPages a 1 = some (BADPAGE, a) ∧ ∀ p, ¬ a.Free p) := by
  have hlen : a.live.length < a.blocks.length := a.count.symm ▸ h.sentinel
  unfold allocPhysPages
  rw [if_neg (fun hne => hne rfl)]
  rcases allocFrom_spec h.padding (fun b hb => Nat.le_of_lt (h.fits b hb)) a.blocks
    List.suffix_rfl hlen with ⟨p, hp, hbad, e⟩ | hno
  · exact .inl ⟨p, _, e, hbad, hp, taken_takePage h hp⟩
  · exact .inr hno

/-! ## giving pages back -/

/-- page `p` belongs to a block that ends below `2^64`, so that the range test finds it -/
def Reaches (ls : List PhysicalMemoryBlock) (p : Nat) : Prop :=
  ∃ b ∈ ls, b.Fits ∧ ∃ k, k < b.npages ∧ p = b.page k

theorem reaches_iff (ls : List PhysicalMemoryBlock) (p : Nat) :
    Reaches ls p ↔ ∃ x ∈ ls.map PhysicalMemoryBlock.span,
      x.1 + x.2 * 4096 < 2^64 ∧ ∃ k, k < x.2 ∧ p = x.1 + k * 4096 := by
  constructor
  · rintro ⟨b, hb, hf, k, hk, hp⟩
    exact ⟨b.span, List.mem_map_of_mem hb, hf, k, hk, hp⟩
  · rintro ⟨x, hx, hf, k, hk, hp⟩
    obtain ⟨b, hb, rfl⟩ := List.mem_map.mp hx
    exact ⟨b, hb, hf, k, hk, hp⟩

theorem Reaches.lt {ls : List PhysicalMemoryBlock} (h : Reaches ls p) : p < 2^64 := by
  obtain ⟨b, hb, hf, k, hk, rfl⟩ := h
  exact (page_lt hf hk).trans (by decide)

theorem InBlocks.reaches {ls : List PhysicalMemoryBlock} (hfits : ∀ b ∈ ls, b.Fits)
    (h : InBlocks ls p) : Reaches ls p := by
  obtain ⟨b, hb, k, hk, hp⟩ := h
  exact ⟨b, hb, hfits b hb, k, hk, hp⟩

/-- the blocks after the pages `page`, `page + 4096`, … , `n` of them, were marked free -/
structure Marked (a : PhysicalMemoryAllocator) (page n : Nat) (a' : PhysicalMemoryAllocator) :
    Prop where
  shape : PmemShape a'
  span : a'.live.map PhysicalMemoryBlock.span = a.live.map PhysicalMemoryBlock.span
  free : ∀ q, a'.Free q ↔ a.Free q ∨ ∃ i, i < n ∧ q = page + i * 4096
  count : clearCount a'.live = clearCount a.live + n

theorem Marked.refl (h : PmemShape a) (page : Nat) : Marked a page 0 a :=
  ⟨h, rfl, by simp, rfl⟩

theorem Marked.trans {t a' : PhysicalMemoryAllocator} {page m n : Nat} (h : Marked a page m t)
    (h' : Marked t (page + m * 4096) n a') : Marked a page (m + n) a' := by
  refine ⟨h'.shape, h'.span.trans h.span, fun q => ?_, ?_⟩
  · rw [h'.free, h.free]
    constructor
    · rintro ((hf | ⟨i, hi, e⟩) | ⟨i, hi, e⟩)
      · exact .inl hf
      · exact .inr ⟨i, by omega, e⟩
      · exact .inr ⟨m + i, by omega, by omega⟩
    · rintro (hf | ⟨i, hi, e⟩)
      · exact .inl (.inl hf)
      · by_cases him : i < m
        · exact .inl (.inr ⟨i, him, e⟩)
        · exact .inr ⟨i - m, by omega, by omega⟩
  · rw [h'.count, h.count, Nat.add_assoc]

theorem Marked.reaches {a' : PhysicalMemoryAllocator} {page n q : Nat} (h : Marked a page n a') :
    Reaches a'.live q ↔ Reaches a.live q := by
  rw [reaches_iff, reaches_iff, h.span]

theorem marked_markPageFree (h : PmemShape a) (hr : Reaches a.live p) (hu : ¬ a.Free p) :
    Marked a p 1 (markPageFree a p) := by
  obtain ⟨b, hb, hf, k, hk, rfl⟩ := hr
  have hset : get (b.bitmap 0) k = true := by
    by_contra hclear
    exact hu ⟨b, hb, k, hk, rfl, by simpa using hclear⟩
  refine ⟨h.of_mark (live_markPageFree a _) (fun _ _ => ⟨rfl, rfl⟩) ?_, span_markPageFree a _, ?_, ?_⟩
  · intro b k i hik
    rw [get_free]
    simp [hik]
  · intro q
    show FreePage (markPageFree a (b.page k)).live q ↔ _
    rw [live_markPageFree, freePage_markFree h.layout hb hf hk]
    simp
  · rw [live_markPageFree]
    exact clearCount_markFree h.layout hb hf hk hset

/-- the next page after those marked so far -/
theorem Marked.next {t : PhysicalMemoryAllocator} {page n : Nat} (m : Marked a page n t)
    (hr : Reaches a.live (page + n * 4096)) (hu : ¬ a.Free (page + n * 4096)) :
    Marked a page (n + 1) (markPageFree t (page + n * 4096)) := by
  refine m.trans (marked_markPageFree m.shape (m.reaches.mpr hr) ?_)
  rw [m.free]
  rintro (hf | ⟨i, hi, e⟩)
  · exact hu hf
  · omega

/-- the loop of `free_phys_pages`, by induction on the pages marked so far -/
theorem marked_foldl (h : PmemInv a) (page n : Nat)
    (hu : ∀ i, i < n → a.Owns (page + i * 4096) ∧ ¬ a.Free (page + i * 4096)) :
    Marked a page n ((List.range n).foldl
      (fun a i => markPageFree a ((page + i * PAGESIZE) % 2^64)) a) := by
  induction n with
  | zero => exact Marked.refl h.toPmemShape page
  | succ n ih =>
    obtain ⟨ho, hfree⟩ := hu n (by omega)
    have hr := ho.reaches h.fits
    rw [List.range_succ, List.foldl_append, List.foldl_cons, List.foldl_nil, Nat.mod_eq_of_lt hr.lt]
    exact (ih fun i hi => hu i (by omega)).next hr hfree

theorem pagesFree_foldl (page n : Nat) (a : PhysicalMemoryAllocator) :
    ((List.range n).foldl (fun a i => markPageFree a ((page + i * PAGESIZE) % 2^64)) a).pagesFree =
      a.pagesFree := by
  induction n with
  | zero => rfl
  | succ n ih =>
    rw [List.range_succ, List.foldl_append]
    exact ih

/-- the state after pages were given back -/
structure Released (a : PhysicalMemoryAllocator) (page n : Nat) (a' : PhysicalMemoryAllocator) :
    Prop where
  inv : PmemInv a'
  free : ∀ q, a'.Free q ↔ a.Free q ∨ ∃ i, i < n ∧ q = page + i * 4096
  owns : ∀ q, a'.Owns q ↔ a.Owns q
  pagesFree : a'.pagesFree = a.pagesFree + n

/-- **Used pages that are given back join the free ones.** -/
theorem freePhysPages_spec (h : PmemInv a) (page n : Nat)
    (hu : ∀ i, i < n → a.Owns (page + i * 4096) ∧ ¬ a.Free (page + i * 4096)) :
    Released a page n (freePhysPages a page n) := by
  have m := marked_foldl h page n hu
  have hp := pagesFree_foldl page n a
  unfold freePhysPages
  generalize (List.range n).foldl
    (fun a i => markPageFree a ((page + i * PAGESIZE) % 2^64)) a = t at m hp ⊢
  have hfits : ∀ b ∈ t.live, b.Fits := by
    rw [fits_iff, m.span, ← fits_iff]
    exact h.fits
  have hcount : t.pagesFree + n = clearCount t.live := by
    rw [hp, m.count, h.pages]
  have hlt : t.pagesFree + n < 2^64 := by
    have hle := clearCount_le t.live hfits
    have hlen : t.live.length < 16 := m.shape.sentinel
    omega
  have hmod : (t.pagesFree + n) % 2^64 = t.pagesFree + n := Nat.mod_eq_of_lt hlt
  refine ⟨⟨⟨m.shape.layout, m.shape.sentinel, m.shape.padding⟩, hfits, hmod.trans hcount⟩, m.free,
    fun q => ?_, ?_⟩
  · show InBlocks t.live q ↔ InBlocks a.live q
    rw [inBlocks_iff, inBlocks_iff, m.span]
  · show (t.pagesFree + n) % 2^64 = _
    rw [hmod, hp]

end

end FuseeOS
