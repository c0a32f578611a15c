import FuseeOS.Kernel.Carried
import FuseeOS.Kernel.HeapArray

/-!
# The memory of the kernel after `init_mem`

`init_mem` as a whole: the image is protected, the initram lies in the first block of the heap, the frame
buffer is mapped, and the first 64 TiB are closed: `unmap_lomem` clears 128 of the 256 entries of the low half.

* `extractLsb'_setByte`     a byte of a word is written;
* `HeapOver.storeByte`      a byte of the heap, whose pages were free before;
* `HeapOver.memcpy`         the copy of the initram;
* `kmap_carried`            the mapping of the frame buffer;
* **`InitStart.run`**       every step has what it needs;
* **`InitRun.ready`**       what is there in the end.
-/

namespace FuseeOS
open Radix Tiling

/-! ## bytes of words -/

theorem getLsbD_ff {i : Nat} : (0xff#64).getLsbD i = decide (i < 8) := by
  by_cases hi : i < 64
  · have key : ∀ i < 64, (0xff#64).getLsbD i = decide (i < 8) := by decide
    exact key i hi
  · rw [BitVec.getLsbD_of_ge _ _ (by omega), decide_eq_false (by omega)]

/-- **A byte of a word is written**, and the other seven stay. -/
theorem extractLsb'_setByte (w : BitVec 64) {k k' : Nat} (hk : k < 8) (hk' : k' < 8) (b : BitVec 8) :
    (setByte w k b).extractLsb' (8 * k') 8 = if k' = k then b else w.extractLsb' (8 * k') 8 := by
  have hbit (i : Nat) (hi : i < 8) : (setByte w k b).getLsbD (8 * k' + i) =
      if k' = k then b.getLsbD i else w.getLsbD (8 * k' + i) := by
    have hlt : 8 * k' + i < 64 := by omega
    unfold setByte
    simp only [BitVec.getLsbD_or, BitVec.getLsbD_and, BitVec.getLsbD_not, BitVec.getLsbD_shiftLeft,
      BitVec.getLsbD_setWidth, getLsbD_ff, decide_eq_true hlt, Bool.true_and]
    by_cases he : k' = k
    · subst he
      have h1 : ¬ 8 * k' + i < 8 * k' := by omega
      have h2 : 8 * k' + i - 8 * k' = i := by omega
      have h3 : i < 64 := by omega
      simp [h1, h2, h3, hi]
    · rw [if_neg he]
      by_cases hlo : 8 * k' + i < 8 * k
      · simp [hlo]
      · have h1 : ¬ 8 * k' + i - 8 * k < 8 := by omega
        have h2 : b.getLsbD (8 * k' + i - 8 * k) = false := BitVec.getLsbD_of_ge _ _ (by omega)
        simp [hlo, h1, h2]
  apply BitVec.eq_of_getLsbD_eq
  intro i hi
  rw [BitVec.getLsbD_extractLsb', hbit i hi]
  by_cases he : k' = k
  · simp [he, hi]
  · simp [he, hi]

/-! ## bytes of the heap -/

section
variable {m m₁ m₂ m' : Machine} {n a c : Nat}

/-- the word that a byte lies in -/
theorem inHeap_word (hn : n % 4096 = 0) (ha : HEAP_BASE ≤ a) (hlt : a < HEAP_BASE + n) : InHeap n (a / 8 * 8) := by
  have hbase := HEAP_BASE_mod
  exact ⟨by omega, by omega, by omega⟩

/-- where a byte of the heap lies: in the word that is loaded and stored there -/
theorem HeapBacked.byte (h : HeapBacked m n) (ha : HEAP_BASE ≤ a) (hlt : a < HEAP_BASE + n) :
    ∃ t, translate m.mem m.cpuCr3 a = some t ∧ t.addr % 8 = a % 8 ∧
      loadWord m (a / 8 * 8) = some (m.mem t.frame t.word) ∧
      ∀ w, storeWord m (a / 8 * 8) w = some (m.setWord t.frame t.word w) := by
  have hin := inHeap_word h.whole ha hlt
  obtain ⟨j, hj, x, he, hr, hc, hx, -, -⟩ := h.word hin
  have hx' := he ▸ hx
  have hload := loadWord_leaf h.plain (h.cpu hin) hr hc hin.1 hx'
  have hstore := storeWord_leaf h.plain (h.cpu hin) hr hc hin.1 hx'
  have hpage : a / 8 * 8 / 4096 = a / 4096 := by omega
  have hoff : a / 8 * 8 % 4096 / 8 = a % 4096 / 8 := by omega
  have hcan : canonical a := by
    unfold canonical at hc ⊢
    unfold HEAP_BASE at ha
    omega
  rw [hpage] at hr hx'
  obtain ⟨t, ht, haddr, hframe, hword⟩ := translate_page h.plain hr hcan hx'
  have hmod := frameOf_mod x
  have hidx : t.word = ⟨a / 8 * 8 % 4096 / 8, by omega⟩ := Fin.ext (hword.trans hoff.symm)
  refine ⟨t, (h.cpu hin) ▸ ht, by omega, ?_, fun w => ?_⟩
  · rw [hload, hframe, hidx]
  · rw [hstore w, hframe, hidx]

theorem HeapBacked.loadByte (h : HeapBacked m n) (ha : HEAP_BASE ≤ a) (hlt : a < HEAP_BASE + n) :
    FuseeOS.loadByte m a = (loadWord m (a / 8 * 8)).map fun w => w.extractLsb' (8 * (a % 8)) 8 := by
  obtain ⟨t, ht, hbyte, hload, -⟩ := h.byte ha hlt
  unfold FuseeOS.loadByte
  rw [hload, ht, Option.map_some, Option.map_some, hbyte]

theorem HeapBacked.storeByte (h : HeapBacked m n) (ha : HEAP_BASE ≤ a) (hlt : a < HEAP_BASE + n) (b : BitVec 8) :
    ∃ w, loadWord m (a / 8 * 8) = some w ∧
      FuseeOS.storeByte m a b = storeWord m (a / 8 * 8) (setByte w (a % 8) b) := by
  obtain ⟨t, ht, hbyte, hload, hstore⟩ := h.byte ha hlt
  refine ⟨_, hload, ?_⟩
  unfold FuseeOS.storeByte
  rw [hstore, ht, Option.map_some, hbyte]

/-! ## a heap in fresh pages -/

/-- The heap of `n` bytes lies in pages that were free in `m`, and apart from that `m` is carried over. -/
structure HeapOver (m : Machine) (n : Nat) (m' : Machine) : Prop where
  carried : Carried m m'
  backed : HeapBacked m' n
  fresh : ∀ j < n / 4096, ∀ w, leaf m' (HEAP_BASE / 4096 + j) = some w → m.pmem.Free (frameOf w)
  io : m'.ioSize = m.ioSize
  others : ∀ v, ¬ Among (HEAP_BASE / 4096) (n / 4096) v → leaf m' v = leaf m v

/-- a word of the heap is written -/
theorem HeapOver.storeWord (h : HeapOver m n m₁) (ha : InHeap n a) (w : BitVec 64) :
    ∃ m', FuseeOS.storeWord m₁ a w = some m' ∧ HeapOver m n m' ∧
      ∀ b, InHeap n b → loadWord m' b = if b = a then some w else loadWord m₁ b := by
  obtain ⟨m', e, hb, hl⟩ := h.backed.store ha w
  obtain ⟨j, hj, x, he, hr, hc, hx, hf, -⟩ := h.backed.word ha
  have e' := storeWord_leaf h.backed.plain (h.backed.cpu ha) hr hc ha.1 (he ▸ hx) w
  have hset := dataSet_setWord m₁ (frameOf x) ⟨a % 4096 / 8, by omega⟩ w
  obtain rfl := Option.some.inj (e.symm.trans e')
  have hleaf (v : Nat) := hset.leaf hf.table v
  refine ⟨_, e, ⟨h.carried.write hset (h.fresh j hj x hx) hf.table, hb, fun i hi y hy => ?_, h.io,
    fun v hv => (hleaf v).trans (h.others v hv)⟩, hl⟩
  exact h.fresh i hi y ((hleaf _).symm.trans hy)

theorem HeapOver.updateHeader (h : HeapOver m n m₁) (ha : InHeap n a) {f : BitVec 64 → BitVec 64}
    (e : FuseeOS.updateHeader machineVM m₁ a f = some m') : HeapOver m n m' := by
  obtain ⟨w, -, e⟩ := Option.bind_eq_some_iff.mp e
  obtain ⟨m'', e'', h', -⟩ := h.storeWord ha (f w)
  rw [machineVM_store, e''] at e
  obtain rfl := Option.some.inj e
  exact h'

/-- **A byte of the heap is written.** -/
theorem HeapOver.storeByte (h : HeapOver m n m₁) (ha : HEAP_BASE ≤ a) (hlt : a < HEAP_BASE + n) (b : BitVec 8) :
    ∃ m', FuseeOS.storeByte m₁ a b = some m' ∧ HeapOver m n m' ∧
      (∀ c, HEAP_BASE ≤ c → c < HEAP_BASE + n →
        loadByte m' c = if c = a then some b else loadByte m₁ c) ∧
      ∀ c, InHeap n c → c ≠ a / 8 * 8 → loadWord m' c = loadWord m₁ c := by
  have hin := inHeap_word h.backed.whole ha hlt
  obtain ⟨w, hw, e⟩ := h.backed.storeByte ha hlt b
  obtain ⟨m', e', h', hl⟩ := h.storeWord hin (setByte w (a % 8) b)
  refine ⟨m', e.trans e', h', fun c hc hclt => ?_, fun c hc hne => ?_⟩
  · rw [h'.backed.loadByte hc hclt, h.backed.loadByte hc hclt, hl _ (inHeap_word h.backed.whole hc hclt)]
    by_cases hword : c / 8 * 8 = a / 8 * 8
    · rw [if_pos hword, hword, hw, Option.map_some, Option.map_some,
        extractLsb'_setByte w (by omega) (by omega) b]
      by_cases hca : c = a
      · subst hca
        rw [if_pos rfl, if_pos rfl]
      · have hoff : c % 8 ≠ a % 8 := by omega
        rw [if_neg hca, if_neg hoff]
    · have hca : c ≠ a := fun e => hword (by rw [e])
      rw [if_neg hword, if_neg hca]
  · rw [hl c hc, if_neg hne]

/-! ## the first block -/

/-- `kmapanon` of pages of the kernel that were not mapped -/
theorem kmapanon_carried {addr size s n prot : Nat} (h : Tables m) (hpl : PlainOn KernelPage m)
    (hs : addr / 4096 = s) (hsize : size + 4095 < 2^64) (hn : (size + 4095) / 4096 = n) (hpos : 0 < n)
    (hspan : InSpan s n) (hv : ∀ v, InTablesOf s n v → KernelPage v)
    (hnone : ∀ j < covered s n, leaf m (s + j) = none) (e : kmapanon m addr size prot = some m') :
    Carried m m' ∧ m'.ioSize = m.ioSize ∧ (∀ v, ¬ Among s (covered s n) v → leaf m' v = leaf m v) ∧
      ∀ j < covered s n, ∀ w, leaf m' (s + j) = some w → m.pmem.Free (frameOf w) := by
  obtain ⟨m₁, m₂, e', g, -, hm⟩ | ⟨e', -⟩ := kmapanon_spec h hpl hs hsize hn hpos hspan hv prot
  swap
  · rw [e'] at e
    cases e
  obtain rfl := Option.some.inj (e'.symm.trans e)
  have c := g.toGrown.carried
  have hdata : ∀ f, ¬ m₁.IsTable f → ¬ m₁.pmem.Free f → m₂.mem f = m₁.mem f := hm.data
  have c₂ := hm.toOnlyLeaves.carried g.plain (fun j hj => (g.toGrown.leaf _).trans (hnone j hj)) hm.free hm.owns
    hdata
  refine ⟨(c.trans c₂).reload, hm.regs.ioSize.trans g.regs.ioSize, fun v hv => ?_, fun j hj w hw => ?_⟩
  · exact (hm.toOnlyLeaves.leaf fun j hj hsame => hv ⟨j, hj, hsame⟩).trans (g.toGrown.leaf v)
  · obtain ⟨p, hp, h1, h2, h3, -⟩ := hm.mapped j hj
    have hw' : leaf m₂ (s + j) = some w := hw
    rw [hp, Option.some.injEq] at hw'
    rw [← hw', frameOf_entry h1 h2 (pageFlags m prot)]
    exact g.free p h3

/-- **The first block of the heap** takes free pages, and changes nothing else. -/
theorem HeapStart.first (h : HeapStart m) (hpl : PlainOn KernelPage m) {size : Nat}
    (hg : CanGrow m 0 (blockLen size)) :
    ∃ heap, FuseeOS.kmalloc machineVM ⟨m, 0⟩ size = some (HEAP_BASE + HEADER, heap) ∧
      HeapWf machineVM HeapBacked ⟨heap, [(HEAP_BASE + HEADER, size)]⟩ [⟨blockLen size, true⟩] ∧
      HeapOver m (blockLen size) heap.vm ∧ heap.heapSize = blockLen size ∧
      heap.vm.pmem.pagesFree + (missing m (HEAP_BASE / 4096) (blockPages size) + blockPages size) =
        m.pmem.pagesFree := by
  obtain ⟨heap, e, hwf, hcount⟩ := h.kmalloc hg
  obtain ⟨hpage, hpos⟩ := blockLen_page size
  have hbase := HEAP_BASE_mod
  have hroom := hg.room
  have hcov : covered (HEAP_BASE / 4096) (blockPages size) = blockPages size := covered_eq.mpr (.inl hg.reach.reached)
  have hbound : HEAP_BASE + (0 + blockLen size) < 2^64 := by
    unfold HEAP_END at hroom
    omega
  have hregion : HEAP_BASE / 4096 + blockPages size ≤ HEAP_END / 4096 := by
    unfold blockPages
    unfold HEAP_END at *
    omega
  -- the calls of `make_new_block`
  have enew := (kmalloc_empty m size).symm.trans e
  rw [makeNewBlock_eq machineVM ⟨m, 0⟩ hbound, machineVM_kmapanon] at enew
  obtain ⟨m₁, e₁, enew⟩ := Option.bind_eq_some_iff.mp enew
  obtain ⟨m₂, e₂, enew⟩ := Option.bind_eq_some_iff.mp enew
  obtain ⟨m₃, e₃, enew⟩ := Option.bind_eq_some_iff.mp enew
  obtain ⟨-, rfl⟩ := Prod.mk.inj (Option.some.inj enew)
  obtain ⟨m₁', e₁', hb₁, -⟩ := h.wf.maps.grow hpage hpos hroom hg.reach hg.pages
  obtain rfl := Option.some.inj (e₁.symm.trans e₁')
  rw [Nat.zero_add] at hb₁
  obtain ⟨hc, hio, hothers, hfresh⟩ := kmapanon_carried h.tables hpl rfl
    (show blockLen size + 4095 < 2^64 by unfold HEAP_END at hroom; omega) (pagesIn_blockLen size)
    (blockPages_pos size) hg.reach.span
    (fun v hv => (heapRegion_tables (le_refl _) hregion hv).kernelPage)
    (fun j hj => h.unmapped _ ⟨Nat.le_add_right _ _, by
      have hle : j < blockPages size := hcov ▸ hj
      omega⟩) e₁
  have hover : HeapOver m (blockLen size) m₁ := by
    refine ⟨hc, hb₁, fun j hj => hfresh j ?_, hio, fun v hv => hothers v ?_⟩
    · show j < covered (HEAP_BASE / 4096) (blockPages size)
      rw [hcov]
      exact hj
    · show ¬ Among (HEAP_BASE / 4096) (covered (HEAP_BASE / 4096) (blockPages size)) v
      rw [hcov]
      exact hv
  have hin : InHeap (blockLen size) HEAP_BASE := ⟨by omega, le_refl _, by omega⟩
  exact ⟨_, e, hwf, (hover.updateHeader hin e₂).updateHeader hin e₃, Nat.zero_add _, hcount⟩

/-! ## the copy -/

/-- bytes of the initram -/
theorem initram_byte {i : Nat} (hi : i < 2^32) :
    (INITRAM + i) % 2^64 = INITRAM + i ∧ KernelPage ((INITRAM + i) / 4096) ∧ canonical (INITRAM + i) := by
  refine ⟨Nat.mod_eq_of_lt (by unfold INITRAM; omega), ?_, ?_⟩
  · show 256 < (INITRAM + i) / 4096 / 512^3 % 512
    unfold INITRAM
    omega
  · unfold canonical INITRAM
    omega

/-- **The initram is copied to the heap**, by induction on the bytes that are left: the bytes before them stay,
and so do the words before the block. -/
theorem HeapOver.memcpy {size : Nat} (hpl : PlainOn KernelPage m) (hcpu : m.cpuCr3 = m.cr3) (hsize : size ≤ 2^32)
    (hroom : HEADER + size ≤ n) (hsource : ∀ i < size, Held m ((INITRAM + i) / 4096)) (k i : Nat)
    (hi : i + k = size) (h : HeapOver m n m₁) :
    ∃ m', FuseeOS.memcpy (HEAP_BASE + HEADER) INITRAM k i m₁ = some m' ∧ HeapOver m n m' ∧
      m'.pmem = m₁.pmem ∧
      (∀ c, HEAP_BASE ≤ c → c < HEAP_BASE + HEADER + i → loadByte m' c = loadByte m₁ c) ∧
      (∀ c, InHeap n c → c < HEAP_BASE + HEADER → loadWord m' c = loadWord m₁ c) ∧
      ∀ j, i ≤ j → j < size → loadByte m' (HEAP_BASE + HEADER + j) = loadByte m (INITRAM + j) := by
  induction k generalizing i m₁ with
  | zero =>
    exact ⟨m₁, rfl, h, rfl, fun _ _ _ => rfl, fun _ _ _ => rfl, fun j hij hj => absurd hj (by omega)⟩
  | succ k ih =>
    have hbase := HEAP_BASE_mod
    have hend := h.backed.room
    obtain ⟨hmod, hv, hc⟩ := initram_byte (show i < 2^32 by omega)
    -- the byte that is read
    have hread : loadByte m₁ (INITRAM + i) = loadByte m (INITRAM + i) :=
      h.carried.loadByte hpl hcpu hv hc (hsource i (by omega))
    obtain ⟨w, hw, -⟩ := hsource i (by omega)
    have hbyte := loadByte_leaf hpl hcpu hv hc hw
    generalize BitVec.extractLsb' _ 8 (m.mem (frameOf w) _) = b at hbyte
    have hdst : (HEAP_BASE + HEADER + i) % 2^64 = HEAP_BASE + HEADER + i := by
      unfold HEAP_BASE HEAP_END HEADER at *
      omega
    obtain ⟨m₂, e₂, h₂, hb₂, hw₂⟩ := h.storeByte (show HEAP_BASE ≤ HEAP_BASE + HEADER + i by omega) (by omega) b
    obtain ⟨m', e', h', hp, hold, hwords, hnew⟩ := ih (i + 1) (by omega) h₂
    refine ⟨m', ?_, h', ?_, fun c hc hlt => ?_, fun c hc hlt => ?_, fun j hij hj => ?_⟩
    · unfold FuseeOS.memcpy
      simp only [hmod, hdst, hread, hbyte, e₂, e', Option.bind_eq_bind, Option.bind_some]
    · obtain ⟨t, -, rfl⟩ := Option.map_eq_some_iff.mp e₂
      exact hp
    · rw [hold c hc (by omega), hb₂ c hc (by omega), if_neg (by omega)]
    · have h8 := hc.1
      unfold HEADER at hlt hroom
      rw [hwords c hc (by unfold HEADER; omega), hw₂ c hc (by unfold HEADER; omega)]
    · by_cases hji : j = i
      · subst hji
        rw [hold _ (by omega) (by omega), hb₂ _ (by omega) (by omega), if_pos rfl, hbyte]
      · exact hnew j (by omega) hj

/-! ## the frame buffer -/

/-- **The frame buffer is mapped**, and the pages that were mapped stay. -/
theorem kmap_carried {phys size prot : Nat} {x : Nat × Machine} (hpl : PlainOn KernelPage m) (h : IoReady m)
    (hf : IoFits m phys size) (e : kmap m 0 phys size prot = some x) :
    Carried m x.2 ∧ ∀ v, (∀ j < covered m.ioPage (pagesIn size), ¬ SamePage v (m.ioPage + j)) →
      leaf x.2 v = leaf m v := by
  obtain ⟨haddr, hpage⟩ := h.kmapAddr hf
  have hphys := hf.phys
  have hspan := h.inSpan hf
  have hroom := hf.room
  have hpos := hf.pages_pos
  obtain ⟨m₁, m₂, e', g, -, hm⟩ := (kmap_spec h.tables hpl (by rw [haddr, hpage])
    (show size + 4095 < 2^64 by omega) (show (size + 4095) / 4096 = pagesIn size from rfl) hpos hspan
    (fun v hv => by
      have hio : IoPage v := (hv.congr hspan).trans (hf.ioPage hpos)
      unfold IoPage IO_PAGE at hio
      show 256 < v / 512^3 % 512
      omega) (show phys < 2^64 by omega) prot).resolve_right fun hno => absurd hno.2 (Nat.not_lt.mpr hf.pages)
  obtain rfl := Option.some.inj (e'.symm.trans e)
  have g₁ := g.toGrown.carried
  have c : Carried m m₁ := ⟨g₁.tables, g₁.plain, g₁.cr3, g₁.cpu, g₁.entry, g₁.fresh, g₁.free, g₁.owns, g₁.data⟩
  have hnone : ∀ j < covered m.ioPage (pagesIn size), leaf m₁ (m.ioPage + j) = none := by
    intro j hj
    have hle : covered m.ioPage (pagesIn size) ≤ pagesIn size := Nat.min_le_left _ _
    have hleaf : leaf m₁ (m.ioPage + j) = leaf m (m.ioPage + j) := g.toGrown.leaf _
    exact hleaf.trans (h.unmapped _ (hf.ioPage (by omega)) (Nat.le_add_right _ _))
  have c₂ := hm.toOnlyLeaves.carried g.plain hnone (fun q hq => hm.pmem ▸ hq) (fun q => by rw [hm.pmem])
    fun f hf _ => hm.data f hf
  exact ⟨(c.trans c₂).reload, fun v hv => (hm.toOnlyLeaves.leaf hv).trans (g.toGrown.leaf v)⟩

theorem IoPage.kernelPage {v : Nat} (h : IoPage v) : KernelPage v := by
  unfold IoPage IO_PAGE at h
  show 256 < v / 512^3 % 512
  omega

/-- nothing is mapped for a frame buffer of no bytes -/
theorem kmap_zero (m : Machine) (phys prot : Nat) :
    kmap m 0 phys 0 prot = some (kmapAddr m 0 0, reloadCr3 (kmapStart m 0 phys 0)) := by
  rw [kmap_eq, forPages_empty rfl]
  rfl

end

/-- bytes of the frame buffer; the product is an `unsigned int` -/
def BootVideo.bytes (video : BootVideo) : Nat := video.pitch * video.height % 2^32

/-- the frame buffer is found at `fb` -/
def BootVideo.At (video : BootVideo) (fb : Nat) (m : Machine) : Prop :=
  ∀ i < video.bytes, (translate m.mem m.cr3 (fb + i)).map Translation.addr =
    some (video.framebuffer - video.framebuffer % PAGESIZE + i)

section
variable {m m' : Machine} {video : BootVideo} {prot : Nat}

theorem video_step (hpl : PlainOn KernelPage m) (h : IoReady m) (hio : m.ioSize = 0)
    (hv : 0 < video.bytes → IoFits m video.framebuffer video.bytes) :
    ∃ fb m', kmap m 0 video.framebuffer video.bytes prot = some (fb, m') ∧ Carried m m' ∧
      (∀ v, HeapRegion v → leaf m' v = leaf m v) ∧ video.At fb (unmapLomem m') := by
  rcases Nat.eq_zero_or_pos video.bytes with h0 | hpos
  · have c := (Carried.refl h.tables hpl).reload
    have e : kmap m 0 video.framebuffer video.bytes prot =
        some (kmapAddr m 0 0, reloadCr3 (kmapStart m 0 video.framebuffer 0)) := by
      rw [h0]
      exact kmap_zero m video.framebuffer prot
    have ht : Tables (reloadCr3 (kmapStart m 0 video.framebuffer 0)) :=
      ⟨h.tables.pmem, h.tables.low, h.tables.tree, h.tables.used, h.tables.root⟩
    refine ⟨_, _, e, ⟨ht, c.plain, c.cr3, c.cpu, c.entry, c.fresh, c.free, c.owns, c.data⟩, fun v _ => rfl,
      fun i hi => ?_⟩
    rw [h0] at hi
    exact absurd hi (Nat.not_lt_zero i)
  · have hf := hv hpos
    obtain ⟨m', e, hready, -, hmap, -⟩ := h.kmap hf prot
    obtain ⟨c, hothers⟩ := kmap_carried hpl h hf e
    have hroom := hf.room
    have hpage : m.ioPage = IO_PAGE := by
      unfold Machine.ioPage
      omega
    have hcov : covered m.ioPage (pagesIn video.bytes) = pagesIn video.bytes := by
      refine covered_eq.mpr (.inl ?_)
      rw [hpage]
      unfold Reached tableCount IO_PAGE
      omega
    refine ⟨_, m', e, c, fun v hv => hothers v fun j hj hsame => ?_, fun i hi => ?_⟩
    · have hj' : j < pagesIn video.bytes := hcov ▸ hj
      rw [hpage] at hsame
      unfold HeapRegion HEAP_BASE HEAP_END at hv
      unfold SamePage IO_PAGE at hsame
      omega
    · have hlt : i / 4096 < pagesIn video.bytes := by
        unfold pagesIn
        omega
      have hdiv : (IO_BASE + m.ioSize + i) / 4096 = m.ioPage + i / 4096 := by
        rw [hpage, hio]
        unfold IO_BASE IO_PAGE
        omega
      have hmod : (IO_BASE + m.ioSize + i) % 4096 = i % 4096 := by
        rw [hio]
        unfold IO_BASE
        omega
      have hp : IoPage ((IO_BASE + m.ioSize + i) / 4096) := hdiv ▸ hf.ioPage hlt
      have hcan : canonical (IO_BASE + m.ioSize + i) := ioPage_canonical hp (by
        unfold IO_BASE
        unfold pagesIn at hlt hroom
        omega)
      obtain ⟨w, hw, hframe⟩ := hmap (i / 4096) (hcov.symm ▸ hlt)
      have clow := (Carried.refl c.tables c.plain).lomem
      have hleaf := clow.entry _ (hf.ioPage hlt).kernelPage 0 (Nat.zero_le 3) w hw
      have hleaf' : leaf (unmapLomem m') (m.ioPage + i / 4096) = some w := hleaf
      have hsum : frameOf w + i % 4096 = video.framebuffer - video.framebuffer % PAGESIZE + i := by
        rw [hframe]
        unfold PAGESIZE
        omega
      rw [translate_addr clow.plain hp.kernelPage hcan, hdiv, hleaf', hmod, Option.map_some, hsum]

end

/-! ## what stays -/

section
variable {m m' : Machine} {img : KernelImage} {t : Section} {nx w : Bool}

/-- a section goes on showing what it shows -/
theorem Carried.shows (c : Carried m m') (hpl : PlainOn KernelPage m) (hs : t.Placed)
    (hmap : ∀ j < t.count, (leaf m (t.first + j)).isSome) (h : Shows m t nx w) : Shows m' t nx w := by
  intro va hva
  obtain ⟨x, hx, hnx, hw⟩ := h va hva
  obtain ⟨hlo, hhi⟩ := (hs.meets_iff _).mp hva
  have hlast := hs.last
  have hcan : canonical va := by
    by_contra hno
    unfold FuseeOS.translate at hx
    rw [if_neg hno] at hx
    cases hx
  have hleaf := hmap (va / 4096 - t.first) (by omega)
  rw [Nat.add_sub_cancel' hlo] at hleaf
  obtain ⟨e, he⟩ := Option.isSome_iff_exists.mp hleaf
  refine ⟨x, ?_, hnx, hw⟩
  rw [c.translate hpl (hs.kernelPage hlo (by omega)) hcan he]
  exact hx

/-- where the headers stay, the heap does -/
theorem HeapWf.moved {σ : Type} {V : KernelVM σ} {Maps : σ → Nat → Prop} {s : HeapState σ} {bs : List Blk}
    (h : HeapWf V Maps s bs) {vm : σ} (hm : Maps vm s.heap.heapSize)
    (hload : ∀ x ∈ starts Blk.len HEAP_BASE bs, V.load vm x.1 = V.load s.heap.vm x.1) :
    HeapWf V Maps ⟨⟨vm, s.heap.heapSize⟩, s.live⟩ bs :=
  ⟨⟨⟨fun x hx => (hload x hx).trans (h.headers x hx), h.size, h.pages, h.bound⟩, h.last⟩, hm, h.live⟩

/-- the first 64 TiB are closed -/
theorem translate_lomem (h : Tables m) {va : Nat} (hva : va < 2^46) :
    translate (unmapLomem m).mem (unmapLomem m).cr3 va = none := by
  have htop : entryOf (unmapLomem m) (va / 4096) 3 = none := by
    rw [entryOf_lomem h _ (le_refl 3), if_pos]
    show va / 4096 / 512^3 % 512 < 128
    omega
  rw [translate_walk, walkFrom_none htop, ite_self]

/-- the spans of the blocks, as the allocator goes on -/
theorem spans_keep (spans : List (Nat × Nat)) :
    PaysFor fun a => BlocksOk a.blocks ∧ a.blocks.map PhysicalMemoryBlock.span = spans := by
  intro a p a' h e hp
  obtain ⟨q, e', -, -⟩ | ⟨e', -⟩ := allocPhysPages_take h.1
  · rw [e'] at e
    obtain ⟨rfl, rfl⟩ := Prod.mk.inj (Option.some.inj e)
    exact ⟨h.1.use _, (map_onBlock _ .use (fun _ _ => rfl) _ _).trans h.2⟩
  · rw [e'] at e
    exact absurd (Prod.mk.inj (Option.some.inj e)).1.symm hp

end

/-! ## the whole run -/

/-- pages that the start-up may take: the upper half of the top table, tables and pages of the first block of
the heap, tables of the frame buffer -/
def initPages (size bytes : Nat) : Nat :=
  256 + (2 + tableCount (blockPages size)) + blockPages size + (2 + tableCount (pagesIn bytes))

/-- What `init_mem` starts from when the pages of `a` are free: the tables that the boot loader has left, with
the initram in pages of their own. -/
structure InitStart (img : KernelImage) (size : Nat) (video : BootVideo) (a : PhysicalMemoryAllocator)
    (m : Machine) : Prop where
  booted : Booted img { m with pmem := a, nx := true }
  flags : BootFlags m
  running : m.cpuCr3 = m.cr3
  reach : ∀ s ∈ img.sections, s.count = 0 ∨ InReach s.first s.count
  heap : ∀ v, HeapRegion v → leaf m v = none
  io : ∀ v, IoPage v → leaf m v = none
  ioSize : m.ioSize = 0
  initram : ∀ i < size, Held { m with pmem := a } ((INITRAM + i) / 4096)
  small : size + HEADER ≤ 2^30
  bytes : video.bytes ≤ 2^30
  physical : video.framebuffer + video.bytes ≤ 2^52
  pages : initPages size video.bytes ≤ a.pagesFree

/-- What `init_mem` leaves: the image protected, the initram in the only block of the heap, the frame buffer
mapped, the first 64 TiB closed; all pages of the kernel that were held show the bytes that they have shown, and
tables and free pages lie as low as they did. -/
structure MemoryReady (img : KernelImage) (size : Nat) (video : BootVideo) (a : PhysicalMemoryAllocator)
    (m : Machine) (mem : KernelMemory) : Prop where
  running : mem.heap.vm.cpuCr3 = mem.heap.vm.cr3
  text : Shows mem.heap.vm img.exec false false
  rodata : Shows mem.heap.vm img.rodata true false
  data : Shows mem.heap.vm img.data true true
  bss : Shows mem.heap.vm img.bss true true
  kept : ∀ va, KernelPage (va / 4096) → canonical va → Held { m with pmem := a } (va / 4096) →
    loadByte mem.heap.vm va = loadByte m va
  initram : ∀ i < size, loadByte mem.heap.vm (mem.initram + i) = loadByte m (INITRAM + i)
  framebuffer : video.At mem.framebuffer mem.heap.vm
  lomem : ∀ va < 2^46, translate mem.heap.vm.mem mem.heap.vm.cr3 va = none
  below : ∀ n, TablesBelow n { m with pmem := a } → TablesBelow n mem.heap.vm
  heap : HeapWf machineVM HeapBacked ⟨⟨mem.heap.vm.exact, mem.heap.heapSize⟩, [(mem.initram, size)]⟩
    [⟨blockLen size, true⟩]

section
variable {m m₁ m₂ m₃ m₄ n₁ : Machine} {heap : Heap Machine} {fb : Nat} {img : KernelImage} {size : Nat}
  {video : BootVideo} {a : PhysicalMemoryAllocator}

/-- a block of the heap that fits into one page directory -/
theorem InitStart.block (h : InitStart img size video a m) : HEAP_BASE + blockLen size ≤ HEAP_END ∧
    InReach (HEAP_BASE / 4096) (blockPages size) ∧ HEADER + size ≤ blockLen size := by
  have hsmall := h.small
  have hlen : blockLen size ≤ 2^30 ∧ HEADER + size ≤ blockLen size := by
    unfold blockLen
    omega
  have hpages := blockLen_eq size
  refine ⟨?_, ⟨?_, ?_⟩, hlen.2⟩
  · unfold HEAP_BASE HEAP_END
    omega
  · unfold InSpan tableCount HEAP_BASE
    omega
  · unfold Reached tableCount HEAP_BASE
    omega

/-- the image is protected -/
theorem InitStart.protect (h : InitStart img size video a m) :
    ∃ m₁ m₂ n₁, initKernelMemProt img { m with pmem := a, nx := true } = some n₁ ∧
      MemProt img { m with pmem := a, nx := true } m₁ m₂ n₁ := by
  have hpages := h.pages
  have habs := absentTops_le { m with pmem := a, nx := true } 256
  have hret : img.Returns { m with pmem := a, nx := true } := by
    refine ⟨?_, fun s hs => (h.reach s hs).imp id InReach.span⟩
    show _ ≤ a.pagesFree
    unfold initPages at hpages
    omega
  obtain ⟨-, m₁, m₂, n₁, e, hp⟩ | ⟨hno, -⟩ :=
    initKernelMemProt_spec h.booted.tables h.booted.plain h.booted.laid h.booted.mapped
  · exact ⟨m₁, m₂, n₁, e, hp⟩
  · exact absurd hret hno

/-- what the protection leaves to the steps behind it -/
theorem InitStart.start (h : InitStart img size video a m)
    (hp : MemProt img { m with pmem := a, nx := true } m₁ m₂ n₁) :
    HeapStart n₁ ∧ PlainOn KernelPage n₁ ∧ CanGrow n₁ 0 (blockLen size) ∧
      initPages size video.bytes ≤ n₁.pmem.pagesFree + 256 := by
  obtain ⟨hroom, hreach, -⟩ := h.block
  have hi := hp.spaceInv
  have hleaf (v : Nat) : (leaf n₁ v).isSome = (leaf m v).isSome := hp.leaf_isSome v
  have habs := absentTops_le { m with pmem := a, nx := true } 256
  have hpages := h.pages
  have hfree : n₁.pmem.pagesFree + absentTops { m with pmem := a, nx := true } 256 = a.pagesFree := by
    rw [hp.sections.pmem, hp.opened.pmem]
    exact hp.count
  have hmiss := missing_le n₁ (HEAP_BASE / 4096) (blockPages size)
  refine ⟨⟨hi.tables, fun v hv => hi.plain v hv.kernelPage, fun v hv => ?_⟩, hi.plain,
    ⟨(blockLen_page size).2, by simpa only [Nat.zero_add] using hroom, ?_, hreach⟩, by omega⟩
  · rw [← Option.not_isSome_iff_eq_none, hleaf, h.heap v hv]
    exact Bool.false_ne_true
  · show missing n₁ (HEAP_BASE / 4096) (blockPages size) + blockPages size ≤ _
    unfold initPages at hpages
    omega

/-- the machines of a run: behind the protection, behind the copy and behind the mapping of the frame buffer -/
structure InitRun (img : KernelImage) (size : Nat) (video : BootVideo) (a : PhysicalMemoryAllocator)
    (m n₁ : Machine) (heap : Heap Machine) (m₃ m₄ : Machine) (fb : Nat) : Prop where
  protect : ∃ m₁ m₂, MemProt img { m with pmem := a, nx := true } m₁ m₂ n₁
  plain : PlainOn KernelPage n₁
  wf : HeapWf machineVM HeapBacked ⟨heap, [(HEAP_BASE + HEADER, size)]⟩ [⟨blockLen size, true⟩]
  length : heap.heapSize = blockLen size
  filled : HeapOver n₁ (blockLen size) m₃
  words : ∀ c, InHeap (blockLen size) c → c < HEAP_BASE + HEADER → loadWord m₃ c = loadWord heap.vm c
  bytes : ∀ i < size, loadByte m₃ (HEAP_BASE + HEADER + i) = loadByte n₁ (INITRAM + i)
  mapped : Carried m₃ m₄
  region : ∀ v, HeapRegion v → leaf m₄ v = leaf m₃ v
  framebuffer : video.At fb (unmapLomem m₄)

/-- **`init_mem` returns**: there are pages enough for each of its steps. -/
theorem InitStart.run {boot : BootParams} {memFree : List BootMemRegion}
    (hmap : RegionsOk (mapRegions boot.memMap)) (hlow : ∀ r ∈ mapRegions boot.memMap, r.base + r.size ≤ 2^52)
    (hinit : initPhysicalMemory boot = some (a, memFree)) (hacc : Accounted a)
    (h : InitStart img size video a m) :
    ∃ n₁ heap m₃ m₄ fb k, InitRun img size video a m n₁ heap m₃ m₄ fb ∧
      initMem boot size video true img m =
        some ⟨⟨unmapLomem (m₄.recount k), blockLen size⟩, HEAP_BASE + HEADER, fb⟩ := by
  obtain ⟨hroom, -, hlen⟩ := h.block
  obtain ⟨m₁, m₂, n₁, e₁, hp⟩ := h.protect
  obtain ⟨hstart, hpl, hgrow, hpages⟩ := h.start hp
  have hcpu := hp.running
  have hsize : size ≤ 2^32 := by
    have hsmall := h.small
    omega
  -- the copy of the initram
  obtain ⟨heap, e₂, hwf, hover₂, hheap, hcount⟩ := hstart.first hpl hgrow
  have hheld (i : Nat) (hi : i < size) : Held n₁ ((INITRAM + i) / 4096) := hp.held (h.initram i hi)
  obtain ⟨m₃, e₃, hover, hpmem, -, hwords, hbytes⟩ :=
    hover₂.memcpy hpl hcpu hsize hlen hheld size 0 (Nat.zero_add size)
  -- the initram is given back by pages that no block covers
  have hkeep := spans_keep (a.blocks.map PhysicalMemoryBlock.span)
  obtain ⟨hbooks, hspans⟩ := books_init hmap hlow hinit hacc
  have h₁ := initKernelMemProt_keeps hkeep (m := { m with pmem := a, nx := true }) ⟨hbooks.ok, rfl⟩ e₁
  have h₂ := kmalloc_machine_keeps hkeep (s := ⟨n₁, 0⟩) h₁ e₂
  rw [← hpmem] at h₂
  obtain ⟨k, ek⟩ : ∃ k, freePhys m₃.pmem INITRAM size = m₃.pmem.recount k := by
    refine freePhys_outside fun i hi b hb => Bool.eq_false_iff.mpr fun hcov => ?_
    have hle : b.base + b.npages * 4096 ≤ 2^52 := hspans b.span (h₂.2 ▸ List.mem_map_of_mem hb)
    have hr := covers_range hcov
    rw [pageCount_of_lt (by omega)] at hi
    unfold INITRAM PAGESIZE at hr
    omega
  -- the frame buffer
  have hio : m₃.ioSize = 0 := by
    rw [hover.io, hp.sections.ioSize, hp.opened.regs.ioSize, hp.grown.regs.ioSize]
    exact h.ioSize
  have hready : IoReady m₃ := by
    refine ⟨hover.carried.tables, fun v hv => hover.carried.plain v hv.kernelPage, by rw [hio], fun v hv _ => ?_⟩
    rw [hover.others]
    · rw [← Option.not_isSome_iff_eq_none, hp.leaf_isSome]
      show ¬ (leaf m v).isSome = true
      rw [h.io v hv]
      exact Bool.false_ne_true
    · rintro ⟨j, hj, hsame⟩
      unfold SamePage at hsame
      unfold IoPage IO_PAGE at hv
      unfold HEAP_BASE HEAP_END at *
      omega
  have hfits : 0 < video.bytes → IoFits m₃ video.framebuffer video.bytes := by
    intro hpos
    have hb := h.bytes
    have hmiss := missing_le m₃ m₃.ioPage (pagesIn video.bytes)
    have hmiss' := missing_le n₁ (HEAP_BASE / 4096) (blockPages size)
    have hn : m₃.pmem.pagesFree = heap.vm.pmem.pagesFree := by rw [hpmem]
    refine ⟨hpos, h.physical, ?_, ?_⟩
    · rw [hio]
      unfold pagesIn
      omega
    · unfold initPages at hpages
      omega
  obtain ⟨fb, m₄, e₄, c₄, hregion, hvideo⟩ := video_step hover.carried.plain hready hio hfits
  obtain ⟨k', ek'⟩ := @kmap_recount m₃ 0 video.framebuffer video.bytes (KPROT_READ ||| KPROT_WRITE) k
  rw [e₄, Option.map_some] at ek'
  refine ⟨n₁, heap, m₃, m₄, fb, k', ⟨⟨m₁, m₂, hp⟩, hpl, hwf, hheap, hover, hwords,
    fun i hi => hbytes i (Nat.zero_le i) hi, c₄, hregion, hvideo⟩, ?_⟩
  simp only [initMem, hinit, Option.bind_eq_bind, Option.bind_some]
  rw [e₁, Option.bind_some, e₂, Option.bind_some, e₃, Option.bind_some, ek]
  have ek'' : kmap { m₃ with pmem := m₃.pmem.recount k } 0 video.framebuffer
      (video.pitch * video.height % 2^32) (KPROT_READ ||| KPROT_WRITE) = some (fb, m₄.recount k') := ek'
  rw [ek'', Option.bind_some, hheap]
  rfl

/-- the end of the run, its pages counted -/
theorem InitRun.carried (h : InitRun img size video a m n₁ heap m₃ m₄ fb) : Carried n₁ (unmapLomem m₄) :=
  h.filled.carried.trans h.mapped.lomem

/-- the heap is where the first block was made -/
theorem InitRun.backed (h : InitRun img size video a m n₁ heap m₃ m₄ fb) :
    HeapBacked (unmapLomem m₄) (blockLen size) ∧
      ∀ b, InHeap (blockLen size) b → loadWord (unmapLomem m₄) b = loadWord m₃ b :=
  h.filled.backed.carried h.mapped.lomem fun v hv hnone => by
    have hidx := hv.kernelPage
    unfold KernelPage at hidx
    refine (entryOf_lomem h.mapped.tables v (Nat.zero_le 3)).trans ?_
    rw [if_neg (by omega), entryOf_zero, h.region v hv]
    exact hnone

/-- **What the run leaves is ready.** -/
theorem InitRun.ready (hs : InitStart img size video a m)
    (h : InitRun img size video a m n₁ heap m₃ m₄ fb) (k : Nat) :
    MemoryReady img size video a m ⟨⟨unmapLomem (m₄.recount k), blockLen size⟩, HEAP_BASE + HEADER, fb⟩ := by
  obtain ⟨m₁, m₂, hp⟩ := h.protect
  obtain ⟨-, -, hlen⟩ := hs.block
  have hcpu := hp.running
  have c := h.carried
  obtain ⟨hback, hload⟩ := h.backed
  have hM : (unmapLomem m₄).exact = unmapLomem m₄ := by
    unfold Machine.exact Machine.freeBits
    rw [← c.tables.pmem.pages]
    rfl
  have hflags : BootFlags { m with pmem := a, nx := true } := ⟨hs.flags.top, hs.flags.below⟩
  have hshow (s : Section) (prot : Nat) (hx : (s, prot) ∈ img.calls) {nx w : Bool}
      (hnx : decide (prot &&& KPROT_EXECUTE = 0) = nx) (hw : decide (prot &&& KPROT_WRITE ≠ 0) = w) :
      Shows (unmapLomem m₄) s nx w := by
    have hmem := mem_calls hx
    have hvisited : s.visited = s.count := covered_eq.mpr ((hs.reach s hmem).elim .inr fun hr => .inl hr.reached)
    have hshows := hp.shows hs.booted hflags rfl hx hvisited
    rw [hnx, hw] at hshows
    refine c.shows h.plain (hs.booted.laid.placed hmem) (fun j hj => ?_) hshows
    rw [hp.leaf_isSome]
    exact hs.booted.mapped s hmem j hj
  have hkept : ∀ va, KernelPage (va / 4096) → canonical va → Held { m with pmem := a } (va / 4096) →
      loadByte (unmapLomem m₄) va = loadByte m va := by
    intro va hv hc hheld
    have hheld' : Held { m with pmem := a, nx := true } (va / 4096) := hheld
    rw [c.loadByte h.plain hcpu hv hc (hp.held hheld')]
    exact hp.loadByte hs.booted.plain h.plain hs.running hv hc hheld'
  exact {
    running := (c.cpu hcpu).trans c.cr3.symm
    text := hshow img.exec (KPROT_READ ||| KPROT_EXECUTE) (by simp [KernelImage.calls]) (by decide) (by decide)
    rodata := hshow img.rodata KPROT_READ (by simp [KernelImage.calls]) (by decide) (by decide)
    data := hshow img.data (KPROT_READ ||| KPROT_WRITE) (by simp [KernelImage.calls]) (by decide) (by decide)
    bss := hshow img.bss (KPROT_READ ||| KPROT_WRITE) (by simp [KernelImage.calls]) (by decide) (by decide)
    kept := hkept
    initram := fun i hi => by
      have hsmall := hs.small
      obtain ⟨-, hv, hc⟩ := initram_byte (show i < 2^32 by omega)
      have hlo : HEAP_BASE ≤ HEAP_BASE + HEADER + i := by omega
      have hhi : HEAP_BASE + HEADER + i < HEAP_BASE + blockLen size := by omega
      show loadByte (unmapLomem m₄) (HEAP_BASE + HEADER + i) = loadByte m (INITRAM + i)
      rw [hback.loadByte hlo hhi, hload _ (inHeap_word hback.whole hlo hhi), ← h.filled.backed.loadByte hlo hhi,
        h.bytes i hi]
      exact hp.loadByte hs.booted.plain h.plain hs.running hv hc (hs.initram i hi)
    framebuffer := h.framebuffer
    lomem := fun va hva => translate_lomem h.mapped.tables hva
    below := fun n hn => c.addsTables.below (hp.addsTables.below (m := { m with pmem := a, nx := true }) hn)
    heap := by
      have hm : HeapBacked (unmapLomem m₄).exact heap.heapSize := by
        rw [hM, h.length]
        exact hback
      have hmoved : HeapWf machineVM HeapBacked ⟨⟨(unmapLomem m₄).exact, heap.heapSize⟩, [(HEAP_BASE + HEADER, size)]⟩
          [⟨blockLen size, true⟩] := h.wf.moved hm fun x hx => by
        obtain rfl := List.mem_singleton.mp hx
        have hin : InHeap (blockLen size) HEAP_BASE := by
          have hbase := HEAP_BASE_mod
          exact ⟨by omega, le_refl _, by unfold HEADER at hlen; omega⟩
        rw [machineVM_load, hM, hload _ hin, h.words _ hin (by unfold HEADER; omega)]
      rw [h.length] at hmoved
      exact hmoved }

end

end FuseeOS
