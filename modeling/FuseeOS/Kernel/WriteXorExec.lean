import FuseeOS.Kernel.KernelProt

/-!
# No kernel page is writable and executable

What the processor allows on the pages of the kernel image after `init_kernel_mem_prot`.

* `MemProt.translate_addr`   no page gets another frame;
* `MemProt.shows`            a page that the iterator visits is protected as its section asks;
* `MemProt.unreached`        one that it does not visit stays writable and executable;
* `kernel_wx`                the sections are protected exactly if the iterator reaches all their pages.
-/

namespace FuseeOS
open Radix

/-- What the boot loader leaves: a tree of tables with 4 KiB pages in the upper half, none of them
free, and the whole kernel image mapped. -/
structure Booted (img : KernelImage) (m : Machine) : Prop where
  tables : Tables m
  plain : PlainOn KernelPage m
  laid : img.Laid
  mapped : img.Mapped m

/-- The boot loader's flags on the way to the image: the top entry is writable, and nothing is closed to
execution. -/
structure BootFlags (m : Machine) : Prop where
  top : ∀ w, m.entry [] LAST = some w → writable w = true ∧ noExec w = false
  below : ∀ p i w, p.length ≤ 3 → p.head? = some LAST → m.entry p i = some w → noExec w = false

/-- some byte of the section lies in page `v` -/
def Section.Meets (s : Section) (v : Nat) : Prop := ∃ a, s.start ≤ a ∧ a < s.stop ∧ a / 4096 = v

/-- every page that meets the section is mapped, with these permissions -/
def Shows (m : Machine) (s : Section) (nx w : Bool) : Prop :=
  ∀ va, s.Meets (va / 4096) → ∃ t, translate m.mem m.cr3 va = some t ∧ t.noExec = nx ∧ t.write = w

/-- the kernel image in memory: code, constants, data, and every page where it was before -/
structure WriteXorExec (img : KernelImage) (m m' : Machine) : Prop where
  text : Shows m' img.exec false false
  rodata : Shows m' img.rodata true false
  data : Shows m' img.data true true
  bss : Shows m' img.bss true true
  frames : ∀ va, (translate m'.mem m'.cr3 va).map Translation.addr =
    (translate m.mem m.cr3 va).map Translation.addr

/-- `init_kernel_mem_prot` returns, and the image is protected -/
def WxAfter (img : KernelImage) (m : Machine) : Prop :=
  ∃ m', initKernelMemProt img m = some m' ∧ WriteXorExec img m m'

section
variable {img : KernelImage} {m m₁ m₂ m' : Machine} {s : Section}

theorem Section.Placed.meets_iff (h : s.Placed) (v : Nat) :
    s.Meets v ↔ s.first ≤ v ∧ v < s.first + s.count := by
  have h1 := h.aligned
  have h2 := h.le
  unfold Section.Meets Section.first Section.count Section.size
  constructor
  · rintro ⟨a, ha, hb, rfl⟩
    omega
  · rintro ⟨ha, hb⟩
    by_cases hv : s.start ≤ v * 4096
    · exact ⟨v * 4096, by omega, by omega, by omega⟩
    · omega

/-- one section ends where or before the other starts -/
def Section.Apart (s t : Section) : Prop := s.stop ≤ t.start ∨ t.stop ≤ s.start

instance : Std.Symm Section.Apart := ⟨fun _ _ => Or.symm⟩

theorem KernelImage.Laid.apart {t : Section} (h : img.Laid) (hs : s ∈ img.sections)
    (ht : t ∈ img.sections) (hne : s ≠ t) : s.Apart t := by
  have hp : img.sections.Pairwise Section.Apart := h.order.imp fun hst => Or.inl hst
  exact hp.forall hs ht hne

/-! ## frames -/

/-- the entries on the way to a page get other flags at most -/
theorem MemProt.entry_map (h : MemProt img m m₁ m₂ m') (v k : Nat) (hk : k ≤ 3) :
    ∃ g : BitVec 64 → BitVec 64, entryOf m' v k = (entryOf m₁ v k).map g ∧
      ∀ w, large (g w) = large w ∧ frameOf (g w) = frameOf w := by
  have hopen : ∃ g : BitVec 64 → BitVec 64, entryOf m₂ v k = (entryOf m₁ v k).map g ∧
      ∀ w, large (g w) = large w ∧ frameOf (g w) = frameOf w := by
    unfold entryOf
    rw [h.opened.entry _ _ length_stem_le]
    by_cases hh : (stem v (3 - k)).head? = some LAST
    · rw [if_pos hh]
      exact ⟨_, rfl, fun w => ⟨large_orWrite w, frameOf_orWrite w⟩⟩
    · rw [if_neg hh]
      exact ⟨id, Option.map_id'.symm, fun w => ⟨rfl, rfl⟩⟩
  obtain ⟨g, e, hg⟩ := hopen
  cases k with
  | succ k =>
    refine ⟨g, ?_, hg⟩
    rw [← e]
    exact h.sections.upper _ _ (by rw [length_stem (by omega)]; omega)
  | zero =>
    rw [entryOf_zero] at e ⊢
    by_cases hvis : ∀ x ∈ img.calls, ∀ j < x.1.visited, ¬ SamePage v (x.1.first + j)
    · rw [h.sections.rest v hvis]
      exact ⟨g, e, hg⟩
    · push Not at hvis
      obtain ⟨x, hx, j, hj, hsame⟩ := hvis
      obtain ⟨h1, h2⟩ := (samePage_iff _ _).mp hsame
      have hleaf : ∀ n : Machine, leaf n v = leaf n (x.1.first + j) := fun n => by
        unfold leaf
        rw [h1, h2]
      refine ⟨setProt m₂ x.2 ∘ g, ?_, fun w => ?_⟩
      · rw [hleaf m', h.sections.set x hx j hj, ← hleaf m₂, e, Option.map_map]
      · exact ⟨(large_setProt _ _ _).trans (hg w).1, (frameOf_setProt _ _ _).trans (hg w).2⟩

/-- **No page gets another frame.** -/
theorem MemProt.translate_addr (h : MemProt img m m₁ m₂ m') (va : Nat) :
    (translate m'.mem m'.cr3 va).map Translation.addr =
      (translate m.mem m.cr3 va).map Translation.addr := by
  rw [← h.grown.translate va, translate_walk, translate_walk]
  by_cases hc : canonical va
  · rw [if_pos hc, if_pos hc]
    exact walkFrom_addr (fun j hj => h.entry_map _ j hj) _ _
  · rw [if_neg hc, if_neg hc]

/-! ## permissions -/

/-- entries from level 1 on, after the recursive pass -/
theorem MemProt.upper (h : MemProt img m m₁ m₂ m') (hf : BootFlags m) {v : Nat} (hv : pageIndex v 3 = LAST)
    {e₀ : BitVec 64} (hl : leaf m v = some e₀) (k : Nat) (hk : k < 3) :
    ∃ w, entryOf m' v (k + 1) = some w ∧ writable w = true ∧ noExec w = false := by
  obtain ⟨w, hw⟩ := entryOf_isSome hl (show k + 1 ≤ 3 by omega)
  have hw₁ : entryOf m₁ v (k + 1) = some w := h.grown.kept _ _ w length_stem_le hw
  have hlast : entryOf m' v (k + 1) = entryOf m₂ v (k + 1) :=
    h.sections.upper _ _ (by rw [length_stem (by omega)]; omega)
  have hopen : entryOf m₂ v (k + 1) = if (stem v (3 - (k + 1))).head? = some LAST then
      (entryOf m₁ v (k + 1)).map (· ||| X86_PAGE_WRITE) else entryOf m₁ v (k + 1) :=
    h.opened.entry _ _ length_stem_le
  rw [hlast, hopen, hw₁]
  by_cases hk2 : k = 2
  · -- the top entry
    subst hk2
    have hw' : m.entry [] LAST = some w := by
      rw [← hv]
      exact hw
    exact ⟨w, rfl, (hf.top w hw').1, (hf.top w hw').2⟩
  · have hhead : (stem v (3 - (k + 1))).head? = some LAST := by
      rw [← hv]
      obtain rfl | rfl : k = 0 ∨ k = 1 := by omega
      · rfl
      · rfl
    rw [if_pos hhead]
    exact ⟨_, rfl, writable_orWrite w, (noExec_orWrite w).trans
      (hf.below _ _ w length_stem_le hhead hw)⟩

/-- what is allowed on a page of the image depends on its leaf alone -/
theorem MemProt.translate (h : MemProt img m m₁ m₂ m') (hf : BootFlags m) {va : Nat}
    (hva : 0xffffffff80000 ≤ va / 4096 ∧ va / 4096 < 2^52) {e₀ : BitVec 64}
    (hl : leaf m (va / 4096) = some e₀) {w : BitVec 64} (hw : leaf m' (va / 4096) = some w) :
    ∃ t, FuseeOS.translate m'.mem m'.cr3 va = some t ∧ t.noExec = noExec w ∧ t.write = writable w := by
  have hidx : pageIndex (va / 4096) 3 = LAST := by
    apply Fin.ext
    show va / 4096 / 512^3 % 512 = 511
    omega
  have hv : KernelPage (va / 4096) := by
    unfold KernelPage
    rw [hidx]
    decide
  obtain ⟨w₁, h₁, ww₁, wn₁⟩ := h.upper hf hidx hl 0 (by decide)
  obtain ⟨w₂, h₂, ww₂, wn₂⟩ := h.upper hf hidx hl 1 (by decide)
  obtain ⟨w₃, h₃, ww₃, wn₃⟩ := h.upper hf hidx hl 2 (by decide)
  have hplain : PlainOn KernelPage m' := fun u hu k hk w e =>
    h.opened.plain u hu k hk w (by rwa [h.sections.upper _ _ (by rw [length_stem (by omega)]; omega)] at e)
  have hc : canonical va := .inr (by omega)
  refine ⟨_, translate_leaf hplain hv hc h₃ h₂ h₁ hw, ?_, ?_⟩
  · show (noExec w₃ || noExec w₂ || noExec w₁ || noExec w) = _
    rw [wn₁, wn₂, wn₃]
    rfl
  · show (writable w₃ && writable w₂ && writable w₁ && writable w) = _
    rw [ww₁, ww₂, ww₃]
    rfl

/-- the leaf of a page of the image before the sections are protected -/
theorem MemProt.leaf_opened (h : MemProt img m m₁ m₂ m') {v : Nat} (hv : pageIndex v 3 = LAST)
    {e₀ : BitVec 64} (hl : leaf m v = some e₀) : leaf m₂ v = some (e₀ ||| X86_PAGE_WRITE) := by
  have hhead : (stem v 3).head? = some LAST := by
    rw [← hv]
    rfl
  have he : leaf m₂ v = _ := h.opened.entry (stem v 3) (pageIndex v 0) length_stem_le
  rw [if_pos hhead] at he
  have hg : leaf m₁ v = some e₀ := by rw [h.grown.leaf, hl]
  rw [he, show m₁.entry (stem v 3) (pageIndex v 0) = some e₀ from hg]
  rfl

theorem Section.Placed.last_index (h : s.Placed) {j : Nat} (hj : j < s.count) :
    pageIndex (s.first + j) 3 = LAST := by
  have h1 := h.first_ge
  have h2 := h.last
  apply Fin.ext
  show (s.first + j) / 512^3 % 512 = 511
  omega

/-- **A section whose pages are all visited** is protected as its call asks. -/
theorem MemProt.shows (h : MemProt img m m₁ m₂ m') (hb : Booted img m) (hf : BootFlags m)
    (hnx : m.nx = true) {x : Section × Nat} (hx : x ∈ img.calls) (hall : x.1.visited = x.1.count) :
    Shows m' x.1 (decide (x.2 &&& KPROT_EXECUTE = 0)) (decide (x.2 &&& KPROT_WRITE ≠ 0)) := by
  intro va hva
  have hs := hb.laid.placed (mem_calls hx)
  obtain ⟨h1, h2⟩ := (hs.meets_iff _).mp hva
  obtain ⟨j, hj⟩ : ∃ j, va / 4096 = x.1.first + j := ⟨va / 4096 - x.1.first, by omega⟩
  have hjc : j < x.1.count := by omega
  obtain ⟨e₀, hl⟩ := Option.isSome_iff_exists.mp (hb.mapped x.1 (mem_calls hx) j hjc)
  have hset := h.sections.set x hx j (by omega)
  rw [h.leaf_opened (hs.last_index hjc) hl, Option.map_some] at hset
  rw [← hj] at hset hl
  have hlo := hs.first_ge
  have hhi := hs.last
  obtain ⟨t, ht, htn, htw⟩ := h.translate hf (by omega) hl hset
  have hnx₂ : m₂.nx = true := by
    rw [h.opened.regs.nx, h.grown.regs.nx]
    exact hnx
  exact ⟨t, ht, htn.trans (noExec_setProt hnx₂ _ _), htw.trans (writable_setProt _ _ _)⟩

/-- **A page that is not visited** stays as the recursive pass left it. -/
theorem MemProt.unreached (h : MemProt img m m₁ m₂ m') (hb : Booted img m) (hf : BootFlags m)
    (hs : s ∈ img.sections) (hlt : s.visited < s.count) {nx w : Bool} (hshow : Shows m' s nx w) :
    nx = false ∧ w = true := by
  have hp := hb.laid.placed hs
  have hlo := hp.first_ge
  have hhi := hp.last
  obtain ⟨e₀, hl⟩ := Option.isSome_iff_exists.mp (hb.mapped s hs s.visited hlt)
  have hidx := hp.last_index hlt
  -- the page is in no other section
  have hrest : leaf m' (s.first + s.visited) = leaf m₂ (s.first + s.visited) := by
    refine h.sections.rest _ fun x hx j hj hsame => ?_
    have hq := hb.laid.placed (mem_calls hx)
    have hqlo := hq.first_ge
    have hqhi := hq.last
    have hjc := x.1.visited_le
    rw [samePage_upper (by omega) (by omega) (by omega) (by omega)] at hsame
    have hne : s ≠ x.1 := by
      rintro rfl
      omega
    rcases hb.laid.apart hs (mem_calls hx) hne with hord | hord
    · have := hp.apart hq hord
      omega
    · have := hq.apart hp hord
      omega
  rw [h.leaf_opened hidx hl] at hrest
  have hpage : (s.first + s.visited) * 4096 / 4096 = s.first + s.visited :=
    Nat.mul_div_cancel _ (by decide)
  obtain ⟨t, ht, htn, htw⟩ := hshow ((s.first + s.visited) * 4096) (by
    rw [hpage]
    exact (hp.meets_iff _).mpr ⟨by omega, by omega⟩)
  have hl' := hl
  rw [← hpage] at hl' hrest
  obtain ⟨t', ht', htn', htw'⟩ := h.translate hf (by omega) hl' hrest
  rw [ht] at ht'
  obtain rfl := Option.some.inj ht'
  have hhead : (stem (s.first + s.visited) 3).head? = some LAST := by
    rw [← hidx]
    rfl
  have hnx := hf.below _ _ e₀ length_stem_le hhead hl
  exact ⟨by rw [← htn, htn', noExec_orWrite, hnx], by rw [← htw, htw', writable_orWrite]⟩

end

/-! ## when the image is protected -/

/-- There are pages for the upper half of the top table, and `page_iter` visits every page of every
section. -/
structure KernelImage.Reachable (img : KernelImage) (m : Machine) : Prop where
  pages : absentTops m 256 ≤ m.pmem.pagesFree
  reach : ∀ s ∈ img.sections, s.count = 0 ∨ InReach s.first s.count

section
variable {img : KernelImage} {m : Machine}

theorem KernelImage.Reachable.visited (h : img.Reachable m) {s : Section} (hs : s ∈ img.sections) :
    s.visited = s.count :=
  covered_eq.mpr ((h.reach s hs).elim .inr fun hr => .inl hr.reached)

theorem KernelImage.Reachable.wx (h : img.Reachable m) (hb : Booted img m) (hf : BootFlags m)
    (hnx : m.nx = true) : WxAfter img m := by
  have hret : img.Returns m := ⟨h.pages, fun s hs => (h.reach s hs).imp id InReach.span⟩
  rcases initKernelMemProt_spec hb.tables hb.plain hb.laid hb.mapped with
    ⟨-, m₁, m₂, m', e, hp⟩ | ⟨hno, -⟩
  swap
  · exact absurd hret hno
  have hshow (s : Section) (prot : Nat) (hx : (s, prot) ∈ img.calls) {nx w : Bool}
      (hnx' : decide (prot &&& KPROT_EXECUTE = 0) = nx) (hw : decide (prot &&& KPROT_WRITE ≠ 0) = w) :
      Shows m' s nx w := by
    rw [← hnx', ← hw]
    exact hp.shows hb hf hnx hx (h.visited (mem_calls hx))
  refine ⟨m', e, hshow img.exec (KPROT_READ ||| KPROT_EXECUTE) ?_ (by decide) (by decide),
    hshow img.rodata KPROT_READ ?_ (by decide) (by decide),
    hshow img.data (KPROT_READ ||| KPROT_WRITE) ?_ (by decide) (by decide),
    hshow img.bss (KPROT_READ ||| KPROT_WRITE) ?_ (by decide) (by decide), hp.translate_addr⟩ <;>
    simp [KernelImage.calls]

theorem WxAfter.reachable (h : WxAfter img m) (hb : Booted img m) (hf : BootFlags m) :
    img.Reachable m := by
  obtain ⟨m', e, hwx⟩ := h
  rcases initKernelMemProt_spec hb.tables hb.plain hb.laid hb.mapped with
    ⟨hret, m₁, m₂, m'', e', hp⟩ | ⟨-, e'⟩
  swap
  · rw [e'] at e
    exact nomatch e
  rw [e] at e'
  obtain rfl := Option.some.inj e'
  -- a page that is left out is writable and executable, which suits no section
  have hno {s : Section} {nx w : Bool} (hs : s ∈ img.sections) (hshow : Shows m' s nx w)
      (hne : ¬ (nx = false ∧ w = true)) : s.visited = s.count := by
    have hle := s.visited_le
    by_contra hc
    exact hne (hp.unreached hb hf hs (by omega) hshow)
  have hall : ∀ s ∈ img.sections, s.visited = s.count := by
    intro s hs
    have hs' := hs
    unfold KernelImage.sections at hs'
    simp only [List.mem_cons, List.not_mem_nil, or_false] at hs'
    rcases hs' with rfl | rfl | rfl | rfl
    · exact hno hs hwx.text (by decide)
    · exact hno hs hwx.rodata (by decide)
    · exact hno hs hwx.data (by decide)
    · exact hno hs hwx.bss (by decide)
  refine ⟨hret.1, fun s hs => ?_⟩
  by_cases h0 : s.count = 0
  · exact .inl h0
  · exact .inr ⟨(hret.2 s hs).resolve_left h0, (covered_eq.mp (hall s hs)).resolve_right h0⟩

/-- **The kernel image is protected after `init_kernel_mem_prot`** exactly if `page_iter` reaches all of
it. -/
theorem kernel_wx (img : KernelImage) (m : Machine) (hb : Booted img m) (hf : BootFlags m)
    (hnx : m.nx = true) : WxAfter img m ↔ img.Reachable m :=
  ⟨fun h => h.reachable hb hf, fun h => h.wx hb hf hnx⟩

end

/-! ## a machine after boot -/

/-- 1024 pages from `0xffffffff80000000` on, in two page tables -/
def bootMem : PhysMem := fun t i =>
  if t = 0x1000 then if i = 511 then 0x2003 else 0
  else if t = 0x2000 then if i = 510 then 0x3003 else 0
  else if t = 0x3000 then if i = 0 then 0x4003 else if i = 1 then 0x5003 else 0
  else if t = 0x4000 then BitVec.ofNat 64 (0x100000 + i * 0x1000) ||| 1
  else if t = 0x5000 then BitVec.ofNat 64 (0x300000 + i * 0x1000) ||| 1
  else 0

/-- 512 free pages from `0x1000000` on -/
def bootAlloc : PhysicalMemoryAllocator where
  blocks := ⟨0x1000000, 512, fun _ i => if i < 64 then 0 else 0xff⟩ :: List.replicate 15 default
  pagesTotal := 512
  pagesFree := 512
  count := rfl

def bootMachine : Machine where
  mem := bootMem
  pmem := bootAlloc
  cr3 := 0x1000
  cpuCr3 := 0x1000
  nx := true
  ioSize := 0
  phys := 0

/-- `n` free pages from `base` on, a multiple of 8 -/
def freeAlloc (base n : Nat) : PhysicalMemoryAllocator where
  blocks := ⟨base, n, fun _ i => if i < n / 8 then 0 else 0xff⟩ :: List.replicate 15 default
  pagesTotal := n
  pagesFree := n
  count := rfl

section
variable {base n : Nat}

theorem live_freeAlloc (h : 0 < n) : (freeAlloc base n).live =
    [⟨base, n, fun _ i => if i < n / 8 then 0 else 0xff⟩] := by
  refine (List.takeWhile_cons_of_pos ?_).trans rfl
  exact decide_eq_true (Nat.pos_iff_ne_zero.mp h)

theorem get_freeAlloc (h8 : n % 8 = 0) (k : Nat) :
    BitMap.get (fun i => if i < n / 8 then (0 : BitVec 8) else 0xff) k = decide (n ≤ k) := by
  show (if k / 8 < n / 8 then (0 : BitVec 8) else 0xff).getLsbD (k % 8) = _
  by_cases hk : k / 8 < n / 8
  · rw [if_pos hk, show (0 : BitVec 8) = 0#8 from rfl, BitVec.getLsbD_zero, decide_eq_false (by omega)]
  · rw [if_neg hk, show (0xff : BitVec 8) = BitVec.allOnes 8 from rfl, BitVec.getLsbD_allOnes,
      decide_eq_true (Nat.mod_lt _ (by decide)), decide_eq_true (by omega)]

theorem freeAlloc_inv (h : 0 < n) (h8 : n % 8 = 0) (hb : base % 4096 = 0) (hend : base + n * 4096 < 2^64) :
    PmemInv (freeAlloc base n) := by
  refine ⟨⟨⟨?_, ?_⟩, ?_, ?_⟩, ?_, ?_⟩ <;> rw [live_freeAlloc h]
  · intro b hm
    rw [List.mem_singleton.mp hm]
    exact hb
  · exact List.pairwise_singleton _ _
  · exact (by decide : 1 < 16)
  · intro b hm k hk _
    rw [List.mem_singleton.mp hm] at hk ⊢
    rw [get_freeAlloc h8]
    exact decide_eq_true hk
  · intro b hm
    rw [List.mem_singleton.mp hm]
    exact hend
  · unfold clearCount PhysicalMemoryBlock.clearBits
    rw [List.map_singleton, List.sum_singleton, Finset.filter_true_of_mem, Finset.card_range]
    · rfl
    · intro k hk
      rw [get_freeAlloc h8]
      have hlt : k < n := Finset.mem_range.mp hk
      exact decide_eq_false (by omega)

theorem freeAlloc_owns (h : 0 < n) {p : Nat} (ho : (freeAlloc base n).Owns p) :
    base ≤ p ∧ p < base + n * 4096 := by
  obtain ⟨b, hb, k, hk, rfl⟩ := ho
  rw [live_freeAlloc h, List.mem_singleton] at hb
  subst hb
  unfold PhysicalMemoryBlock.page
  dsimp only at hk ⊢
  omega

end

theorem bootAlloc_inv : PmemInv bootAlloc :=
  freeAlloc_inv (show 0 < 512 by decide) (by decide) (show 0x1000000 % 4096 = 0 by decide) (by decide)

theorem bootAlloc_owns {p : Nat} (h : bootAlloc.Owns p) : 0x1000000 ≤ p ∧ p < 0x1200000 :=
  freeAlloc_owns (show 0 < 512 by decide) h

/-- the tables, with the paths to them -/
theorem nodeAt_boot {p : List (Fin 512)} {t : Nat} (hp : p.length ≤ 3)
    (h : bootMachine.nodeAt p = some t) : p = [] ∧ t = 0x1000 ∨ p = [511] ∧ t = 0x2000 ∨
      p = [511, 510] ∧ t = 0x3000 ∨ p = [511, 510, 0] ∧ t = 0x4000 ∨ p = [511, 510, 1] ∧ t = 0x5000 := by
  have h1 (i : Fin 512) {u : Nat} (e : next (bootMem 0x1000 i) = some u) : i = 511 ∧ u = 0x2000 := by
    by_cases hi : i = 511
    · subst hi
      exact ⟨rfl, (Option.some.inj e).symm⟩
    · rw [show bootMem 0x1000 i = 0 from if_neg hi] at e
      exact nomatch e
  have h2 (i : Fin 512) {u : Nat} (e : next (bootMem 0x2000 i) = some u) : i = 510 ∧ u = 0x3000 := by
    by_cases hi : i = 510
    · subst hi
      exact ⟨rfl, (Option.some.inj e).symm⟩
    · rw [show bootMem 0x2000 i = 0 from if_neg hi] at e
      exact nomatch e
  have h3 (i : Fin 512) {u : Nat} (e : next (bootMem 0x3000 i) = some u) :
      i = 0 ∧ u = 0x4000 ∨ i = 1 ∧ u = 0x5000 := by
    by_cases hi : i = 0
    · subst hi
      exact .inl ⟨rfl, (Option.some.inj e).symm⟩
    · by_cases hi' : i = 1
      · subst hi'
        exact .inr ⟨rfl, (Option.some.inj e).symm⟩
      · rw [show bootMem 0x3000 i = 0 from (if_neg hi).trans (if_neg hi')] at e
        exact nomatch e
  match p, hp with
  | [], _ => exact .inl ⟨rfl, (Option.some.inj h).symm⟩
  | a :: p, hp =>
    obtain ⟨u, hu, h⟩ := Option.bind_eq_some_iff.mp h
    obtain ⟨rfl, rfl⟩ := h1 a hu
    match p, hp with
    | [], _ => exact .inr (.inl ⟨rfl, (Option.some.inj h).symm⟩)
    | b :: p, hp =>
      obtain ⟨u, hu, h⟩ := Option.bind_eq_some_iff.mp h
      obtain ⟨rfl, rfl⟩ := h2 b hu
      match p, hp with
      | [], _ => exact .inr (.inr (.inl ⟨rfl, (Option.some.inj h).symm⟩))
      | c :: p, hp =>
        obtain ⟨u, hu, h⟩ := Option.bind_eq_some_iff.mp h
        obtain rfl : p = [] := by
          rw [← List.length_eq_zero_iff]
          simp only [List.length_cons] at hp
          omega
        rcases h3 c hu with ⟨rfl, rfl⟩ | ⟨rfl, rfl⟩
        · exact .inr (.inr (.inr (.inl ⟨rfl, (Option.some.inj h).symm⟩)))
        · exact .inr (.inr (.inr (.inr ⟨rfl, (Option.some.inj h).symm⟩)))

theorem bootNode_zero : bootMachine.nodeAt [511, 510, 0] = some 0x4000 := rfl

theorem bootNode_one : bootMachine.nodeAt [511, 510, 1] = some 0x5000 := rfl

/-- the tables of the boot loader, with pages above them to hand out -/
theorem bootTables_with {a : PhysicalMemoryAllocator} (ha : PmemInv a)
    (ho : ∀ p, a.Owns p → 0x500000 ≤ p ∧ p < 2^47) : Tables { bootMachine with pmem := a } where
  pmem := ha
  low p hp := (ho p hp).2
  tree p q t hp hq ep eq := by
    rcases nodeAt_boot hp ep with ⟨rfl, rfl⟩ | ⟨rfl, rfl⟩ | ⟨rfl, rfl⟩ | ⟨rfl, rfl⟩ | ⟨rfl, rfl⟩ <;>
      rcases nodeAt_boot hq eq with ⟨rfl, h⟩ | ⟨rfl, h⟩ | ⟨rfl, h⟩ | ⟨rfl, h⟩ | ⟨rfl, h⟩ <;>
      first | rfl | exact absurd h (by decide)
  used t := by
    rintro ⟨p, hp, e⟩ hq
    have := (ho t hq.inBlocks).1
    rcases nodeAt_boot hp e with ⟨-, rfl⟩ | ⟨-, rfl⟩ | ⟨-, rfl⟩ | ⟨-, rfl⟩ | ⟨-, rfl⟩ <;> omega
  root := show 0x1000 < 2^47 by decide

theorem bootMachine_tables : Tables bootMachine :=
  bootTables_with bootAlloc_inv fun _ hp => by
    have := bootAlloc_owns hp
    omega

/-- an entry of a table above the lowest level -/
theorem entry_boot {p : List (Fin 512)} {i : Fin 512} {w : BitVec 64} (hp : p.length ≤ 2)
    (h : bootMachine.entry p i = some w) :
    p = [] ∧ i = 511 ∧ w = 0x2003 ∨ w = 0x3003 ∨ w = 0x4003 ∨ w = 0x5003 := by
  obtain ⟨t, ht, hw, hpres⟩ := entry_eq_some.mp h
  have hzero : w ≠ 0 := by
    rintro rfl
    exact nomatch hpres
  have key {a b : BitVec 64} {P : Prop} [Decidable P] (e : (if P then a else b) = w) :
      (P ∧ w = a) ∨ b = w := by
    by_cases hP : P
    · rw [if_pos hP] at e
      exact .inl ⟨hP, e.symm⟩
    · rw [if_neg hP] at e
      exact .inr e
  rcases nodeAt_boot (by omega) ht with ⟨rfl, rfl⟩ | ⟨rfl, rfl⟩ | ⟨rfl, rfl⟩ | ⟨rfl, rfl⟩ | ⟨rfl, rfl⟩
  · rcases key (show (if i = 511 then (0x2003 : BitVec 64) else 0) = w from hw) with ⟨hi, e⟩ | e
    · exact .inl ⟨rfl, hi, e⟩
    · exact absurd e.symm hzero
  · rcases key (show (if i = 510 then (0x3003 : BitVec 64) else 0) = w from hw) with ⟨-, e⟩ | e
    · exact .inr (.inl e)
    · exact absurd e.symm hzero
  · rcases key (show (if i = 0 then (0x4003 : BitVec 64) else if i = 1 then 0x5003 else 0) = w from hw)
      with ⟨-, e⟩ | e
    · exact .inr (.inr (.inl e))
    · rcases key e with ⟨-, e⟩ | e
      · exact .inr (.inr (.inr e))
      · exact absurd e.symm hzero
  · exact absurd hp (by decide)
  · exact absurd hp (by decide)

theorem plain_boot (w : BitVec 64) (h : w = 0x2003 ∨ w = 0x3003 ∨ w = 0x4003 ∨ w = 0x5003) :
    Plain w ∧ writable w = true ∧ noExec w = false ∧ userOk w = false := by
  rcases h with rfl | rfl | rfl | rfl <;> exact ⟨⟨by decide, by decide⟩, by decide⟩

theorem bootMachine_plain {R : Nat → Prop} : PlainOn R bootMachine := by
  intro v _ k hk w e
  refine (plain_boot w ?_).1
  rcases entry_boot (by rw [length_stem (by omega)]; omega) e with ⟨-, -, h⟩ | h
  · exact .inl h
  · exact .inr h

/-- the pages of the two tables -/
theorem leaf_boot {j : Nat} (hj : j < 1024) : leaf bootMachine (0xffffffff80000 + j) =
    some (BitVec.ofNat 64 ((if j < 512 then 0x100000 else 0x300000) + j % 512 * 0x1000) ||| 1) := by
  have hpres (n : Nat) : present (BitVec.ofNat 64 n ||| 1) = true := by
    unfold present
    rw [BitVec.getLsbD_or]
    exact Bool.or_true _
  have hidx (k : Nat) (i : Fin 512) (h : (0xffffffff80000 + j) / 512^k % 512 = i) :
      pageIndex (0xffffffff80000 + j) k = i := Fin.ext h
  have h0 : (pageIndex (0xffffffff80000 + j) 0).val = j % 512 := by
    show (0xffffffff80000 + j) / 512^0 % 512 = _
    omega
  have hstem (i : Fin 512) (h : (0xffffffff80000 + j) / 512^1 % 512 = i) :
      stem (0xffffffff80000 + j) 3 = [511, 510, i] := by
    show [_, _, _] = [_, _, _]
    rw [hidx 3 511 (by show _ = 511; omega), hidx 2 510 (by show _ = 510; omega), hidx 1 i h]
  by_cases hlt : j < 512
  · unfold leaf
    rw [hstem 0 (by show _ = 0; omega), entry_of_node bootNode_zero, if_pos hlt]
    show (if present (BitVec.ofNat 64 (0x100000 + (pageIndex _ 0).val * 0x1000) ||| 1) then _ else none) = _
    rw [if_pos (hpres _)]
    show some (BitVec.ofNat 64 (0x100000 + (pageIndex _ 0).val * 0x1000) ||| 1) = _
    rw [h0]
  · unfold leaf
    rw [hstem 1 (by show _ = 1; omega), entry_of_node bootNode_one, if_neg hlt]
    show (if present (BitVec.ofNat 64 (0x300000 + (pageIndex _ 0).val * 0x1000) ||| 1) then _ else none) = _
    rw [if_pos (hpres _)]
    show some (BitVec.ofNat 64 (0x300000 + (pageIndex _ 0).val * 0x1000) ||| 1) = _
    rw [h0]

/-- an image within these pages -/
theorem booted_boot {img : KernelImage} (hl : img.Laid)
    (hin : ∀ s ∈ img.sections, s.first + s.count ≤ 0xffffffff80400) : Booted img bootMachine where
  tables := bootMachine_tables
  plain := bootMachine_plain
  laid := hl
  mapped s hs j hj := by
    have h1 := (hl.placed hs).first_ge
    have h2 := hin s hs
    obtain ⟨k, hk⟩ : ∃ k, s.first + j = 0xffffffff80000 + k := ⟨s.first + j - 0xffffffff80000, by omega⟩
    rw [hk, leaf_boot (by omega)]
    rfl

theorem bootFlags_boot : BootFlags bootMachine where
  top w e := by
    have h := entry_boot (show ([] : List (Fin 512)).length ≤ 2 by decide) e
    have hw : w = 0x2003 ∨ w = 0x3003 ∨ w = 0x4003 ∨ w = 0x5003 := h.imp (fun h => h.2.2) id
    exact ⟨(plain_boot w hw).2.1, (plain_boot w hw).2.2.1⟩
  below p i w hp hh e := by
    by_cases hp2 : p.length ≤ 2
    · have hw := (entry_boot hp2 e).imp (fun h => h.2.2) id
      exact (plain_boot w hw).2.2.1
    · -- a page
      obtain ⟨t, ht, hw, -⟩ := entry_eq_some.mp e
      have hbit (n : Nat) (hn : n < 2^63) : noExec (BitVec.ofNat 64 n ||| 1) = false := by
        unfold noExec
        rw [BitVec.getLsbD_or, BitVec.getLsbD_ofNat, Nat.testBit_lt_two_pow hn, Bool.and_false]
        decide
      rcases nodeAt_boot hp ht with ⟨rfl, -⟩ | ⟨rfl, -⟩ | ⟨rfl, -⟩ | ⟨-, rfl⟩ | ⟨-, rfl⟩
      · exact absurd hp2 (by decide)
      · exact absurd hp2 (by decide)
      · exact absurd hp2 (by decide)
      · rw [← hw]
        exact hbit (0x100000 + i * 0x1000) (by omega)
      · rw [← hw]
        exact hbit (0x300000 + i * 0x1000) (by omega)

theorem absentTops_le (m : Machine) (i : Nat) : absentTops m i ≤ 512 - i := by
  unfold absentTops
  refine List.countP_le_length.trans ?_
  rw [List.length_drop, List.length_finRange]

/-- sections of `t`, `r`, `d` and `b` pages, one after the other -/
def pagesImage (t r d b : Nat) : KernelImage where
  exec := ⟨0xffffffff80000000, 0xffffffff80000000 + t * 4096⟩
  rodata := ⟨0xffffffff80000000 + t * 4096, 0xffffffff80000000 + (t + r) * 4096⟩
  data := ⟨0xffffffff80000000 + (t + r) * 4096, 0xffffffff80000000 + (t + r + d) * 4096⟩
  bss := ⟨0xffffffff80000000 + (t + r + d) * 4096, 0xffffffff80000000 + (t + r + d + b) * 4096⟩

theorem pagesImage_laid {t r d b : Nat} (h : t + r + d + b ≤ 1024) : (pagesImage t r d b).Laid := by
  refine ⟨fun s hs => ?_, fun s hs => ?_, ?_⟩
  · unfold KernelImage.sections pagesImage at hs
    simp only [List.mem_cons, List.not_mem_nil, or_false] at hs
    rcases hs with rfl | rfl | rfl | rfl <;> dsimp only <;> omega
  · unfold KernelImage.sections pagesImage at hs
    simp only [List.mem_cons, List.not_mem_nil, or_false] at hs
    rcases hs with rfl | rfl | rfl | rfl <;> dsimp only <;> omega
  · unfold KernelImage.sections pagesImage
    simp only [List.pairwise_cons, List.mem_cons, List.not_mem_nil, or_false, forall_eq_or_imp, forall_eq,
      List.Pairwise.nil, and_true, false_implies, implies_true]
    omega

theorem booted_pagesImage {t r d b : Nat} (h : t + r + d + b ≤ 1024) :
    Booted (pagesImage t r d b) bootMachine := by
  refine booted_boot (pagesImage_laid h) fun s hs => ?_
  unfold KernelImage.sections pagesImage at hs
  simp only [List.mem_cons, List.not_mem_nil, or_false] at hs
  rcases hs with rfl | rfl | rfl | rfl <;> unfold Section.first Section.count Section.size <;>
    dsimp only <;> omega

/-- sections of one page each -/
theorem kernel_wx_pages : WxAfter (pagesImage 1 1 1 1) bootMachine := by
  refine (kernel_wx _ _ (booted_pagesImage (by decide)) bootFlags_boot rfl).mpr ⟨?_, ?_⟩
  · have h := absentTops_le bootMachine 256
    have hp : bootMachine.pmem.pagesFree = 512 := rfl
    omega
  · decide

/-- one page of code, then 512 pages of constants: they need two page tables, and one is visited -/
theorem kernel_not_wx : ¬ ∀ (img : KernelImage) (m : Machine), Booted img m → BootFlags m →
    m.nx = true → absentTops m 256 ≤ m.pmem.pagesFree → WxAfter img m := by
  intro hall
  have hb := booted_pagesImage (t := 1) (r := 512) (d := 1) (b := 1) (by decide)
  have hwx := hall _ _ hb bootFlags_boot rfl (by
    have h := absentTops_le bootMachine 256
    have hp : bootMachine.pmem.pagesFree = 512 := rfl
    omega)
  have hr := (hwx.reachable hb bootFlags_boot).reach (pagesImage 1 512 1 1).rodata (by
    unfold KernelImage.sections
    simp)
  exact absurd hr (by decide)

end FuseeOS
