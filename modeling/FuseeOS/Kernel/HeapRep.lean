import FuseeOS.Lib.Tiling
import FuseeOS.Lib.FirstMin
import FuseeOS.Kernel.Heap

/-!
# The heap as a list of blocks

What `kmalloc` and `kfree` do, in two layers.  The abstract heap is a list of blocks that tile the
heap region; `AllocStep` and `FreeStep` are its operations.  `HeapRep V s bs`: the headers in the
memory of `s` are those of the blocks `bs`.

* `walkHeap_rule`    the loops over the blocks, by an invariant;
* `kmalloc_spec`     `kmalloc` is an `AllocStep` and writes one header;
* `kfree_spec`       `kfree` is a `FreeStep` and writes one header.

The memory is any one that satisfies `HeapVM`: the region maps exactly as many bytes as the heap
has, as long as the calls that grow and shrink it are ones that map and unmap exactly their range.
-/

namespace FuseeOS
open Tiling

/-! ## headers -/

/-- the header of a block -/
def header (used : Bool) (size : Nat) : BitVec 64 := BitVec.ofNat 64 (2 * size + used.toNat)

theorem getLsbD_header (u : Bool) (n i : Nat) :
    (header u n).getLsbD i = (decide (i < 64) && if i = 0 then u else n.testBit (i - 1)) := by
  unfold header
  rw [BitVec.getLsbD_ofNat]
  congr 1
  cases i with
  | zero =>
    rw [if_pos rfl, Nat.testBit_zero]
    cases u <;> simp
  | succ i =>
    rw [if_neg (Nat.succ_ne_zero i), Nat.testBit_succ, Nat.add_sub_cancel]
    congr 1
    cases u
    · simp
    · simp; omega

theorem headerUsed_header (u : Bool) (n : Nat) : headerUsed (header u n) = u := by
  unfold headerUsed
  rw [getLsbD_header]
  simp

theorem headerSize_header (u : Bool) (n : Nat) (h : n < 2^63) : headerSize (header u n) = n := by
  have hu : u.toNat < 2 := u.toNat_lt
  unfold headerSize header
  rw [BitVec.toNat_ushiftRight, BitVec.toNat_ofNat, Nat.mod_eq_of_lt (by omega),
    Nat.shiftRight_eq_div_pow]
  omega

theorem getLsbD_one64 (i : Nat) : (1#64).getLsbD i = decide (i = 0) := by
  rw [BitVec.getLsbD_one]; simp

theorem setUsed_header (u v : Bool) (n : Nat) : setUsed u (header v n) = header u n := by
  unfold setUsed
  apply BitVec.eq_of_getLsbD_eq
  intro i hi
  rw [BitVec.getLsbD_or, BitVec.getLsbD_and, BitVec.getLsbD_not, getLsbD_header, getLsbD_header,
    getLsbD_one64]
  cases i with
  | zero => cases u <;> simp
  | succ i => cases u <;> simp [hi]

theorem setSize_header (u : Bool) (m n : Nat) : setSize m (header u n) = header u m := by
  unfold setSize
  apply BitVec.eq_of_getLsbD_eq
  intro i hi
  rw [BitVec.getLsbD_or, BitVec.getLsbD_and, BitVec.getLsbD_shiftLeft, getLsbD_header,
    getLsbD_header, getLsbD_one64]
  cases i with
  | zero => simp
  | succ i =>
    have hi' : i < 64 := by omega
    rw [Nat.add_sub_cancel, BitVec.getLsbD_ofNat]
    simp [hi, hi']

/-- any word is a header -/
theorem eq_header (w : BitVec 64) : w = header (headerUsed w) (headerSize w) := by
  apply BitVec.eq_of_getLsbD_eq
  intro i hi
  rw [getLsbD_header]
  unfold headerUsed headerSize
  cases i with
  | zero => simp
  | succ i =>
    rw [if_neg (Nat.succ_ne_zero i), Nat.add_sub_cancel, BitVec.testBit_toNat,
      BitVec.getLsbD_ushiftRight, Nat.add_comm]
    have hlt : 1 + i < 64 := by omega
    simp [hlt]
/-! ## the abstract heap -/

/-- a block with its header -/
structure Blk where
  len : Nat
  used : Bool

/-- `page_round(size + sizeof(HeapBlock))`, without wrapping -/
def blockLen (size : Nat) : Nat := (size + HEADER + 4095) / 4096 * 4096

def Blk.Fits (size : Nat) (b : Blk) : Prop := b.used = false ∧ size + HEADER ≤ b.len

/-- an allocation of `size` bytes takes the block at an offset: a smallest one that fits, else a new
one behind the others -/
inductive AllocStep (size : Nat) : List Blk → Nat → List Blk → Prop
  | reuse (l r : List Blk) (b : Blk) (hfit : b.Fits size)
      (hbest : ∀ c ∈ l ++ b :: r, c.Fits size → b.len ≤ c.len) :
      AllocStep size (l ++ b :: r) (total Blk.len l) (l ++ ⟨b.len, true⟩ :: r)
  | grow (bs : List Blk) (hnone : ∀ b ∈ bs, ¬ b.Fits size) :
      AllocStep size bs (total Blk.len bs) (bs ++ [⟨blockLen size, true⟩])

/-- the heap without the free blocks at its end -/
def trim (bs : List Blk) : List Blk := bs.rdropWhile fun b => !b.used

/-- a release frees the block at an offset, and then the free blocks at the end are given back -/
inductive FreeStep : List Blk → Nat → List Blk → Prop
  | free (l r : List Blk) (b : Blk) :
      FreeStep (l ++ b :: r) (total Blk.len l) (trim (l ++ ⟨b.len, false⟩ :: r))

theorem HEAP_BASE_mod : HEAP_BASE % 4096 = 0 := by
  unfold HEAP_BASE
  rfl

theorem blockLen_page (size : Nat) : blockLen size % 4096 = 0 ∧ 0 < blockLen size := by
  unfold blockLen HEADER
  omega

theorem trim_concat_used (bs : List Blk) (b : Blk) (hb : b.used = true) :
    trim (bs ++ [b]) = bs ++ [b] := by
  unfold trim
  rw [List.rdropWhile_concat_neg]
  simpa using hb

theorem trim_trim (bs : List Blk) : trim (trim bs) = trim bs := List.rdropWhile_idempotent _ _

/-- with a used block at the end, a free block in front may be taken or left -/
theorem trim_replace {l r : List Blk} {b c : Blk} (h : trim (l ++ b :: r) = l ++ b :: r)
    (hr : r ≠ [] ∨ c.used = true) : trim (l ++ c :: r) = l ++ c :: r := by
  rcases List.eq_nil_or_concat' r with rfl | ⟨r, d, rfl⟩
  · exact trim_concat_used l c (hr.resolve_left fun hne => hne rfl)
  · have e (a : Blk) : l ++ a :: (r ++ [d]) = l ++ a :: r ++ [d] := by simp
    rw [e]
    refine trim_concat_used _ _ ?_
    rw [e] at h
    by_contra hd
    unfold trim at h
    rw [List.rdropWhile_concat_pos _ _ _ (by simpa using hd)] at h
    have hp := (List.rdropWhile_prefix (fun b : Blk => !b.used) (l := l ++ b :: r)).length_le
    rw [h, List.length_append, List.length_singleton] at hp
    omega

/-! ## the memory under the heap -/

/-- a word of the first `n` bytes of the heap region -/
def InHeap (n a : Nat) : Prop := a % 8 = 0 ∧ HEAP_BASE ≤ a ∧ a < HEAP_BASE + n

/-- `Maps vm n`: the first `n` bytes of the heap region are mapped.  Growing a heap of `n` bytes by
`e` keeps to its range when `MapOk vm n e`, shrinking one of `n` bytes to `m` when `UnmapOk vm m n`. -/
structure HeapVM {σ : Type} (V : KernelVM σ) (Maps : σ → Nat → Prop)
    (MapOk UnmapOk : σ → Nat → Nat → Prop) : Prop where
  load : ∀ vm n a, Maps vm n → InHeap n a → ∃ w, V.load vm a = some w
  store : ∀ vm n a w, Maps vm n → InHeap n a → ∃ vm', V.store vm a w = some vm' ∧ Maps vm' n ∧
    ∀ b, InHeap n b → V.load vm' b = if b = a then some w else V.load vm b
  map : ∀ vm n e, Maps vm n → n % 4096 = 0 → e % 4096 = 0 → HEAP_BASE + (n + e) < 2^64 →
    MapOk vm n e → ∃ vm',
    V.kmapanon vm (HEAP_BASE + n) e (KPROT_READ ||| KPROT_WRITE) = some vm' ∧ Maps vm' (n + e) ∧
    ∀ b, InHeap n b → V.load vm' b = V.load vm b
  unmap : ∀ vm m n, Maps vm n → m % 4096 = 0 → n % 4096 = 0 → m < n → HEAP_BASE + n < 2^64 →
    UnmapOk vm m n → ∃ vm',
    V.kunmapanon vm (HEAP_BASE + m) (n - m) = some vm' ∧ Maps vm' m ∧
    ∀ b, InHeap m b → V.load vm' b = V.load vm b

/-- the header of a block in memory -/
def Blk.header (b : Blk) : BitVec 64 := FuseeOS.header b.used (b.len - HEADER)

/-- the blocks `bs` tile the heap, and their headers are in memory -/
structure HeapTiles {σ : Type} (V : KernelVM σ) (s : Heap σ) (bs : List Blk) : Prop where
  headers : ∀ x ∈ starts Blk.len HEAP_BASE bs, V.load s.vm x.1 = some x.2.header
  size : total Blk.len bs = s.heapSize
  pages : ∀ b ∈ bs, b.len % 4096 = 0 ∧ 0 < b.len
  bound : HEAP_BASE + s.heapSize < 2^64

section
variable {σ : Type} {V : KernelVM σ} {s : Heap σ} {bs : List Blk} {x : Nat × Blk}

/-- where a block of the heap lies -/
theorem HeapTiles.range (h : HeapTiles V s bs) (hx : x ∈ starts Blk.len HEAP_BASE bs) :
    HEAP_BASE ≤ x.1 ∧ x.1 + x.2.len ≤ HEAP_BASE + s.heapSize ∧ x.1 % 4096 = 0 ∧
      4096 ≤ x.2.len ∧ x.2.len < 2^63 := by
  have hr := starts_range hx
  have hp := h.pages _ (starts_mem hx)
  have hm := starts_mod (fun b hb => (h.pages b hb).1) hx
  have hb := h.bound
  rw [h.size] at hr
  refine ⟨hr.1, hr.2, hm.trans HEAP_BASE_mod, by omega, ?_⟩
  unfold HEAP_BASE at hr hb
  omega

theorem HeapTiles.inHeap (h : HeapTiles V s bs) (hx : x ∈ starts Blk.len HEAP_BASE bs) :
    InHeap s.heapSize x.1 := by
  obtain ⟨h1, h2, h3, h4, _⟩ := h.range hx
  exact ⟨by omega, h1, by omega⟩

theorem HeapTiles.pos (h : HeapTiles V s bs) : ∀ b ∈ bs, 0 < b.len := fun b hb => (h.pages b hb).2

theorem HeapTiles.size_mod (h : HeapTiles V s bs) : s.heapSize % 4096 = 0 := by
  rw [← h.size]
  exact total_mod fun b hb => (h.pages b hb).1

theorem headerUsed_blk (b : Blk) : headerUsed b.header = b.used := headerUsed_header _ _

theorem HeapTiles.headerSize (h : HeapTiles V s bs) (hx : x ∈ starts Blk.len HEAP_BASE bs) :
    FuseeOS.headerSize x.2.header = x.2.len - HEADER := by
  obtain ⟨_, _, _, _, h5⟩ := h.range hx
  exact headerSize_header _ _ (by omega)

theorem HeapTiles.nextBlock (h : HeapTiles V s bs) (hx : x ∈ starts Blk.len HEAP_BASE bs) :
    FuseeOS.nextBlock x.1 x.2.header = x.1 + x.2.len := by
  obtain ⟨_, h2, _, h4, _⟩ := h.range hx
  have hb := h.bound
  unfold FuseeOS.nextBlock
  rw [h.headerSize hx]
  unfold HEADER
  omega

/-! ## the loops over the blocks -/

/-- by induction on the blocks that are left; `l` are the blocks done -/
theorem walkBlocks_rule {β : Type} (h : HeapTiles V s bs) (body : β → Nat → BitVec 64 → Option β)
    (P : List Blk → β → Prop)
    (hstep : ∀ l b acc, (HEAP_BASE + total Blk.len l, b) ∈ starts Blk.len HEAP_BASE bs → P l acc →
      ∃ acc', body acc (HEAP_BASE + total Blk.len l) b.header = some acc' ∧ P (l ++ [b]) acc')
    (l r : List Blk) (hbs : bs = l ++ r) (fuel : Nat) (hfuel : r.length < fuel) (acc : β)
    (hP : P l acc) :
    ∃ acc', walkBlocks V s.vm body (HEAP_BASE + s.heapSize) fuel (HEAP_BASE + total Blk.len l) acc =
      some acc' ∧ P bs acc' := by
  induction r generalizing l fuel acc with
  | nil =>
    obtain ⟨fuel, rfl⟩ := Nat.exists_eq_add_of_lt hfuel
    rw [List.append_nil] at hbs
    subst hbs
    refine ⟨acc, ?_, hP⟩
    unfold walkBlocks
    rw [h.size, if_neg (Nat.lt_irrefl _)]
  | cons b r ih =>
    obtain ⟨fuel, rfl⟩ : ∃ n, fuel = n + 1 := ⟨fuel - 1, by omega⟩
    have hx : (HEAP_BASE + total Blk.len l, b) ∈ starts Blk.len HEAP_BASE bs :=
      mem_starts.mpr ⟨l, r, hbs, rfl⟩
    obtain ⟨_, hend, _, hlen, _⟩ := h.range hx
    obtain ⟨acc', hbody, hP'⟩ := hstep l b acc hx hP
    have hlt : HEAP_BASE + total Blk.len l < HEAP_BASE + s.heapSize := by
      have hend' : HEAP_BASE + total Blk.len l + b.len ≤ HEAP_BASE + s.heapSize := hend
      have hlen' : 4096 ≤ b.len := hlen
      omega
    have hnext : FuseeOS.nextBlock (HEAP_BASE + total Blk.len l) b.header =
        HEAP_BASE + total Blk.len (l ++ [b]) := by
      rw [h.nextBlock hx, total_append, total_singleton, Nat.add_assoc]
    obtain ⟨acc'', e, hP''⟩ := ih (l ++ [b]) (by rw [hbs, List.append_assoc]; rfl) fuel
      (by rw [List.length_cons] at hfuel; omega) acc' hP'
    refine ⟨acc'', ?_, hP''⟩
    unfold walkBlocks
    rw [if_pos hlt, h.headers _ hx]
    show (body acc _ b.header).bind _ = _
    rw [hbody, Option.bind_some, hnext]
    exact e

/-- a loop over the blocks establishes an invariant that its body carries over -/
theorem walkHeap_rule {β : Type} (h : HeapTiles V s bs) (body : β → Nat → BitVec 64 → Option β)
    (P : List Blk → β → Prop) (acc : β) (h0 : P [] acc)
    (hstep : ∀ l b acc, (HEAP_BASE + total Blk.len l, b) ∈ starts Blk.len HEAP_BASE bs → P l acc →
      ∃ acc', body acc (HEAP_BASE + total Blk.len l) b.header = some acc' ∧ P (l ++ [b]) acc') :
    ∃ acc', walkHeap V s body acc = some acc' ∧ P bs acc' := by
  have hfuel : bs.length < s.heapSize / HEADER + 1 := by
    have hl := length_le_total Blk.len (m := 32) bs fun b hb => by
      have := h.pages b hb
      omega
    rw [h.size] at hl
    unfold HEADER
    omega
  unfold walkHeap
  rw [Nat.mod_eq_of_lt h.bound]
  exact walkBlocks_rule h body P hstep [] bs rfl _ hfuel acc h0

/-! ## writing a header -/

/-- the heap's words other than the one at `a` are the same in `s'`, as far as both heaps reach -/
def Untouched (V : KernelVM σ) (s : Heap σ) (a : Nat) (s' : Heap σ) : Prop :=
  ∀ b, InHeap s.heapSize b → InHeap s'.heapSize b → b ≠ a → V.load s'.vm b = V.load s.vm b

variable {Maps : σ → Nat → Prop} {MapOk UnmapOk : σ → Nat → Nat → Prop}

theorem updateHeader_spec (hV : HeapVM V Maps MapOk UnmapOk) {vm : σ} {n a : Nat} {w : BitVec 64}
    (hm : Maps vm n) (ha : InHeap n a) (hw : V.load vm a = some w) (f : BitVec 64 → BitVec 64) :
    ∃ vm', updateHeader V vm a f = some vm' ∧ Maps vm' n ∧
      ∀ b, InHeap n b → V.load vm' b = if b = a then some (f w) else V.load vm b := by
  obtain ⟨vm', e, hm', hload⟩ := hV.store vm n a (f w) hm ha
  refine ⟨vm', ?_, hm', hload⟩
  unfold updateHeader
  rw [hw]
  exact e

/-- a header is written whose block has the same length -/
theorem HeapTiles.setUsed {l r : List Blk} {b : Blk} (h : HeapTiles V s (l ++ b :: r)) (u : Bool)
    {vm' : σ} (hload : ∀ a, InHeap s.heapSize a → V.load vm' a =
      if a = HEAP_BASE + total Blk.len l then some (FuseeOS.setUsed u b.header)
      else V.load s.vm a) :
    HeapTiles V ⟨vm', s.heapSize⟩ (l ++ ⟨b.len, u⟩ :: r) := by
  have hx : (HEAP_BASE + total Blk.len l, b) ∈ starts Blk.len HEAP_BASE (l ++ b :: r) :=
    mem_starts.mpr ⟨l, r, rfl, rfl⟩
  refine ⟨?_, ?_, ?_, h.bound⟩
  · intro x hx'
    rcases (mem_starts_replace (c := ⟨b.len, u⟩) h.pos rfl).mp hx' with rfl | ⟨hx', hne⟩
    · show V.load vm' (HEAP_BASE + total Blk.len l) = _
      rw [hload _ (h.inHeap hx), if_pos rfl]
      exact congrArg some (setUsed_header u b.used _)
    · show V.load vm' x.1 = _
      rw [hload _ (h.inHeap hx'), if_neg hne, h.headers _ hx']
  · show total Blk.len (l ++ ⟨b.len, u⟩ :: r) = s.heapSize
    rw [← h.size, total_append, total_append, total_cons, total_cons]
  · intro c hc
    rcases List.mem_append.mp hc with hc | hc
    · exact h.pages c (List.mem_append_left _ hc)
    · rcases List.mem_cons.mp hc with rfl | hc
      · exact h.pages b (List.mem_append_right _ (List.mem_cons_self ..))
      · exact h.pages c (List.mem_append_right _ (List.mem_cons_of_mem _ hc))

/-- a block is put behind the others -/
theorem HeapTiles.concat (h : HeapTiles V s bs) {b : Blk} (hb : b.len % 4096 = 0 ∧ 0 < b.len)
    (hbound : HEAP_BASE + (s.heapSize + b.len) < 2^64) {vm' : σ}
    (hkeep : ∀ a, InHeap s.heapSize a → V.load vm' a = V.load s.vm a)
    (hnew : V.load vm' (HEAP_BASE + s.heapSize) = some b.header) :
    HeapTiles V ⟨vm', s.heapSize + b.len⟩ (bs ++ [b]) := by
  refine ⟨?_, ?_, ?_, hbound⟩
  · intro x hx
    show V.load vm' x.1 = _
    rcases mem_starts_concat.mp hx with hx | rfl
    · rw [hkeep _ (h.inHeap hx), h.headers _ hx]
    · rw [h.size, hnew]
  · show total Blk.len (bs ++ [_]) = s.heapSize + b.len
    rw [total_append, total_singleton, h.size]
  · intro c hc
    rcases List.mem_append.mp hc with hc | hc
    · exact h.pages c hc
    · rwa [List.mem_singleton.mp hc]

/-- the `used` bit of a block is set or cleared -/
theorem setUsed_spec (hV : HeapVM V Maps MapOk UnmapOk) {l r : List Blk} {b : Blk}
    (h : HeapTiles V s (l ++ b :: r)) (hm : Maps s.vm s.heapSize) (u : Bool) :
    ∃ vm', updateHeader V s.vm (HEAP_BASE + total Blk.len l) (setUsed u) = some vm' ∧
      Maps vm' s.heapSize ∧ HeapTiles V ⟨vm', s.heapSize⟩ (l ++ ⟨b.len, u⟩ :: r) ∧
      Untouched V s (HEAP_BASE + total Blk.len l) ⟨vm', s.heapSize⟩ := by
  have hx : (HEAP_BASE + total Blk.len l, b) ∈ starts Blk.len HEAP_BASE (l ++ b :: r) :=
    mem_starts.mpr ⟨l, r, rfl, rfl⟩
  obtain ⟨vm', e, hm', hload⟩ := updateHeader_spec hV hm (h.inHeap hx) (h.headers _ hx) (setUsed u)
  refine ⟨vm', e, hm', h.setUsed u hload, fun a ha _ hne => ?_⟩
  show V.load vm' a = V.load s.vm a
  rw [hload a ha, if_neg hne]

/-! ## kmalloc -/

theorem fits_header (h : HeapTiles V s bs) (hx : x ∈ starts Blk.len HEAP_BASE bs) (size : Nat) :
    (!headerUsed x.2.header && decide (headerSize x.2.header ≥ size)) = true ↔ x.2.Fits size := by
  obtain ⟨_, _, _, hlen, _⟩ := h.range hx
  rw [headerUsed_blk, h.headerSize hx, Bool.and_eq_true, decide_eq_true_eq]
  unfold Blk.Fits HEADER
  cases x.2.used <;> simp
  omega

/-- **The loop of `kmalloc` finds the first of the smallest blocks that fit.** -/
theorem findBest_spec (h : HeapTiles V s bs) (size : Nat) :
    ∃ best, findBest V s size = some best ∧
      (best = none → ∀ b ∈ bs, ¬ b.Fits size) ∧
      ∀ a, best = some a → ∃ l b r, bs = l ++ b :: r ∧ a = HEAP_BASE + total Blk.len l ∧
        FirstMin (Blk.Fits size) Blk.len l b r := by
  -- what is known of the blocks passed so far
  let P (done : List Blk) (best : Option Nat) : Prop :=
    (best = none → ∀ b ∈ done, ¬ b.Fits size) ∧
    ∀ a, best = some a → ∃ l b r, done = l ++ b :: r ∧ a = HEAP_BASE + total Blk.len l ∧
      (a, b) ∈ starts Blk.len HEAP_BASE bs ∧ FirstMin (Blk.Fits size) Blk.len l b r
  have hstep : ∀ done c best, (HEAP_BASE + total Blk.len done, c) ∈ starts Blk.len HEAP_BASE bs →
      P done best → ∃ best', betterFit V s.vm size best (HEAP_BASE + total Blk.len done) c.header =
        some best' ∧ P (done ++ [c]) best' := by
    intro done c best hc ⟨hnone, hsome⟩
    have hfits := fits_header h hc size
    unfold betterFit
    by_cases hfit : c.Fits size
    · rw [if_pos (hfits.mpr hfit)]
      cases best with
      | none =>
        refine ⟨some _, rfl, fun hn => (nomatch hn), fun a ha => ?_⟩
        obtain rfl := Option.some.inj ha
        exact ⟨done, c, [], rfl, rfl, hc, .first (hnone rfl) hfit⟩
      | some a =>
        obtain ⟨l, b, r, rfl, ha, hb, hmin⟩ := hsome a rfl
        have hsb := h.headerSize hb
        have hsc := h.headerSize hc
        have hlb : 4096 ≤ b.len := (h.range hb).2.2.2.1
        have hlc : 4096 ≤ c.len := (h.range hc).2.2.2.1
        show ∃ acc', (V.load s.vm a).bind _ = some acc' ∧ P _ acc'
        rw [h.headers _ hb, Option.bind_some, hsb, hsc]
        refine ⟨_, rfl, fun hn => ?_, fun a' ha' => ?_⟩
        · split at hn <;> exact nomatch hn
        · unfold HEADER at ha'
          by_cases hlt : b.len - 32 > c.len - 32
          · rw [if_pos hlt] at ha'
            obtain rfl := Option.some.inj ha'
            exact ⟨_, c, [], rfl, rfl, hc, hmin.replace hfit (by omega)⟩
          · rw [if_neg hlt] at ha'
            obtain rfl := Option.some.inj ha'
            refine ⟨l, b, r ++ [c], by simp, ha, hb, hmin.skip fun _ => by omega⟩
    · rw [if_neg (fun hf => hfit (hfits.mp hf))]
      refine ⟨best, rfl, fun hn b hb => ?_, fun a ha => ?_⟩
      · rcases List.mem_append.mp hb with hb | hb
        · exact hnone hn b hb
        · rwa [List.mem_singleton.mp hb]
      · obtain ⟨l, b, r, rfl, ha, hb, hmin⟩ := hsome a ha
        exact ⟨l, b, r ++ [c], by simp, ha, hb, hmin.skip fun hf => absurd hf hfit⟩
  obtain ⟨best, e, hnone, hsome⟩ := walkHeap_rule h (betterFit V s.vm size) P none
    ⟨fun _ x hx => (nomatch hx), fun a ha => (nomatch ha)⟩ hstep
  refine ⟨best, e, hnone, fun a ha => ?_⟩
  obtain ⟨l, b, r, hbs, ha, _, hmin⟩ := hsome a ha
  exact ⟨l, b, r, hbs, ha, hmin⟩

theorem findBest_none (h : HeapTiles V s bs) {size : Nat} (hno : ∀ b ∈ bs, ¬ b.Fits size) :
    findBest V s size = some none := by
  obtain ⟨best, e, -, hsome⟩ := findBest_spec h size
  cases best with
  | none => exact e
  | some a =>
    obtain ⟨l, b, r, rfl, -, hmin⟩ := hsome a rfl
    exact absurd hmin.holds (hno b (List.mem_append_right _ (List.mem_cons_self ..)))

/-- when no block fits, there is a new one -/
theorem kmalloc_new (h : HeapTiles V s bs) {size : Nat} (hno : ∀ b ∈ bs, ¬ b.Fits size) :
    kmalloc V s size = makeNewBlock V s size := by
  unfold kmalloc
  rw [findBest_none h hno, Option.bind_eq_bind, Option.bind_some]

/-- `make_new_block` where no sum wraps -/
theorem makeNewBlock_of_lt (V : KernelVM σ) (s : Heap σ) {size : Nat}
    (hbase : HEAP_BASE + s.heapSize + HEADER < 2^64) (hsize : size + HEADER + 4096 ≤ 2^64)
    (hheap : s.heapSize + blockLen size < 2^64) :
    makeNewBlock V s size = (do
      let vm ← V.kmapanon s.vm (HEAP_BASE + s.heapSize) (blockLen size) (KPROT_READ ||| KPROT_WRITE)
      let vm ← updateHeader V vm (HEAP_BASE + s.heapSize) (setUsed true)
      let vm ← updateHeader V vm (HEAP_BASE + s.heapSize) (setSize (blockLen size - HEADER))
      return (HEAP_BASE + s.heapSize + HEADER, ⟨vm, s.heapSize + blockLen size⟩)) := by
  obtain ⟨hpage, hpos⟩ := blockLen_page size
  have hround : pageRound ((size + HEADER) % 2^64) = blockLen size := by
    rw [Nat.mod_eq_of_lt (by omega), pageRound_of_lt hsize]
    rfl
  have hblk : (HEAP_BASE + s.heapSize) % 2^64 = HEAP_BASE + s.heapSize := Nat.mod_eq_of_lt (by omega)
  have hfield : (blockLen size + (2^64 - HEADER)) % 2^64 = blockLen size - HEADER := by
    unfold HEADER
    omega
  unfold makeNewBlock
  simp only [hround, hblk, Nat.mod_eq_of_lt hheap, hfield, Nat.mod_eq_of_lt hbase]

/-- `make_new_block` in a heap that stays in the address space -/
theorem makeNewBlock_eq (V : KernelVM σ) (s : Heap σ) {size : Nat}
    (hbound : HEAP_BASE + (s.heapSize + blockLen size) < 2^64) :
    makeNewBlock V s size = (do
      let vm ← V.kmapanon s.vm (HEAP_BASE + s.heapSize) (blockLen size) (KPROT_READ ||| KPROT_WRITE)
      let vm ← updateHeader V vm (HEAP_BASE + s.heapSize) (setUsed true)
      let vm ← updateHeader V vm (HEAP_BASE + s.heapSize) (setSize (blockLen size - HEADER))
      return (HEAP_BASE + s.heapSize + HEADER, ⟨vm, s.heapSize + blockLen size⟩)) := by
  obtain ⟨hpage, hpos⟩ := blockLen_page size
  have hlen : size + HEADER + 4095 < blockLen size + 4096 := by
    unfold blockLen
    omega
  refine makeNewBlock_of_lt V s ?_ ?_ (by omega)
  · unfold HEADER
    omega
  · unfold HEAP_BASE at hbound
    omega

/-- a new block behind the others -/
theorem makeNewBlock_spec (hV : HeapVM V Maps MapOk UnmapOk) (h : HeapTiles V s bs)
    (hm : Maps s.vm s.heapSize) (size : Nat)
    (hbound : HEAP_BASE + (s.heapSize + blockLen size) < 2^64)
    (hmap : MapOk s.vm s.heapSize (blockLen size)) :
    ∃ s', makeNewBlock V s size = some (HEAP_BASE + total Blk.len bs + HEADER, s') ∧
      Maps s'.vm s'.heapSize ∧ HeapTiles V s' (bs ++ [⟨blockLen size, true⟩]) ∧
      Untouched V s (HEAP_BASE + total Blk.len bs) s' := by
  obtain ⟨hpage, hpos⟩ := blockLen_page size
  have hmod := h.size_mod
  -- the header word of the new block
  have hin : InHeap (s.heapSize + blockLen size) (HEAP_BASE + s.heapSize) := by
    unfold InHeap HEAP_BASE
    omega
  obtain ⟨vm₁, e₁, hm₁, hl₁⟩ := hV.map _ _ _ hm hmod hpage hbound hmap
  obtain ⟨w, hw⟩ := hV.load _ _ _ hm₁ hin
  obtain ⟨vm₂, e₂, hm₂, hl₂⟩ := updateHeader_spec hV hm₁ hin hw (setUsed true)
  have hw₂ := hl₂ _ hin
  rw [if_pos rfl] at hw₂
  obtain ⟨vm₃, e₃, hm₃, hl₃⟩ := updateHeader_spec hV hm₂ hin hw₂ (setSize (blockLen size - HEADER))
  have hkeep : ∀ b, InHeap s.heapSize b → V.load vm₃ b = V.load s.vm b := by
    intro b hb
    have hb' : InHeap (s.heapSize + blockLen size) b := ⟨hb.1, hb.2.1, by have := hb.2.2; omega⟩
    have hne : b ≠ HEAP_BASE + s.heapSize := by have := hb.2.2; omega
    rw [hl₃ b hb', if_neg hne, hl₂ b hb', if_neg hne, hl₁ b hb]
  have hnew : V.load vm₃ (HEAP_BASE + s.heapSize) = some (Blk.header ⟨blockLen size, true⟩) := by
    rw [hl₃ _ hin, if_pos rfl, eq_header w, setUsed_header, setSize_header]
    rfl
  refine ⟨⟨vm₃, s.heapSize + blockLen size⟩, ?_, hm₃, h.concat ⟨hpage, hpos⟩ hbound hkeep hnew,
    fun b hb _ _ => hkeep b hb⟩
  rw [makeNewBlock_eq V s hbound, h.size]
  simp only [e₁, e₂, e₃, Option.bind_eq_bind, Option.bind_some]
  rfl

/-- the heap grows within the address space, by a call that maps exactly its range -/
def GrowOk (MapOk : σ → Nat → Nat → Prop) (s : Heap σ) (size : Nat) : Prop :=
  HEAP_BASE + (s.heapSize + blockLen size) < 2^64 ∧ MapOk s.vm s.heapSize (blockLen size)

/-- the blocks tile the heap, and the last one is used -/
structure HeapRep (V : KernelVM σ) (s : Heap σ) (bs : List Blk) : Prop extends HeapTiles V s bs where
  last : trim bs = bs

/-- **`kmalloc` is an `AllocStep`**, and writes no word but the header of the block it returns. -/
theorem kmalloc_spec (hV : HeapVM V Maps MapOk UnmapOk) (h : HeapRep V s bs)
    (hm : Maps s.vm s.heapSize) (size : Nat)
    (hgrow : findBest V s size = some none → GrowOk MapOk s size) :
    ∃ off s' bs', kmalloc V s size = some (HEAP_BASE + off + HEADER, s') ∧
      AllocStep size bs off bs' ∧ Maps s'.vm s'.heapSize ∧ HeapRep V s' bs' ∧
      Untouched V s (HEAP_BASE + off) s' := by
  obtain ⟨best, e, hnone, hsome⟩ := findBest_spec h.toHeapTiles size
  unfold kmalloc
  rw [e]
  cases best with
  | none =>
    obtain ⟨hbound, hmap⟩ := hgrow e
    obtain ⟨s', e', hm', ht, hu⟩ := makeNewBlock_spec hV h.toHeapTiles hm size hbound hmap
    exact ⟨_, s', _, e', .grow bs (hnone rfl), hm', ⟨ht, trim_concat_used _ _ rfl⟩, hu⟩
  | some a =>
    obtain ⟨l, b, r, rfl, ha, hmin⟩ := hsome a rfl
    have hx : (a, b) ∈ starts Blk.len HEAP_BASE (l ++ b :: r) := mem_starts.mpr ⟨l, r, rfl, ha⟩
    obtain ⟨_, hend, _, hlen, _⟩ := h.toHeapTiles.range hx
    obtain ⟨vm', e', hm', ht, hu⟩ := setUsed_spec hV h.toHeapTiles hm true
    have hret : (a + HEADER) % 2^64 = a + HEADER := by
      have hb := h.bound
      refine Nat.mod_eq_of_lt ?_
      unfold HEADER
      omega
    refine ⟨_, ⟨vm', s.heapSize⟩, _, ?_, .reuse l r b hmin.holds fun c => hmin.le, hm', ⟨ht, ?_⟩, hu⟩
    · show (updateHeader V s.vm a (setUsed true)).bind _ = _
      rw [← ha] at e' ⊢
      rw [e', Option.bind_some, hret]
      rfl
    · exact trim_replace h.last (.inr rfl)

/-! ## kfree -/

theorem shrunkSize_spec (h : HeapTiles V s bs) : shrunkSize V s = some (total Blk.len (trim bs)) := by
  have hstep : ∀ l b n, (HEAP_BASE + total Blk.len l, b) ∈ starts Blk.len HEAP_BASE bs →
      n = keptEnd Blk.len (fun b => !b.used) HEAP_BASE (starts Blk.len HEAP_BASE l) →
      ∃ n', usedEnd n (HEAP_BASE + total Blk.len l) b.header = some n' ∧
        n' = keptEnd Blk.len (fun b => !b.used) HEAP_BASE (starts Blk.len HEAP_BASE (l ++ [b])) := by
    intro l b n hx hn
    obtain ⟨hlo, hhi, _, _, _⟩ := h.range hx
    have hb := h.bound
    have hnext := h.nextBlock hx
    dsimp only at hlo hhi hnext
    have hsub : (HEAP_BASE + total Blk.len l + b.len + (2^64 - HEAP_BASE)) % 2^64 =
        HEAP_BASE + total Blk.len l + b.len - HEAP_BASE := by omega
    refine ⟨if b.used then HEAP_BASE + total Blk.len l + b.len - HEAP_BASE else n, ?_, ?_⟩
    · unfold usedEnd
      rw [headerUsed_blk, hnext, hsub]
    · rw [starts_append, starts, starts, keptEnd_append, ← hn]
      by_cases hu : b.used = true
      · rw [if_pos hu, if_neg (by simpa using hu)]
      · rw [if_neg hu, if_pos (by simpa using hu)]
  obtain ⟨n, e, hn⟩ := walkHeap_rule h usedEnd
    (fun l n => n = keptEnd Blk.len (fun b => !b.used) HEAP_BASE (starts Blk.len HEAP_BASE l)) 0 rfl
    hstep
  unfold shrunkSize
  rw [e, hn, keptEnd_starts]
  rfl

/-- the blocks at the end that are free are given back -/
theorem shrink_spec (hV : HeapVM V Maps MapOk UnmapOk) (h : HeapTiles V s bs)
    (hm : Maps s.vm s.heapSize) (hlt : total Blk.len (trim bs) < s.heapSize)
    (hunmap : UnmapOk s.vm (total Blk.len (trim bs)) s.heapSize) :
    ∃ s', shrink V s = some s' ∧ Maps s'.vm s'.heapSize ∧ HeapRep V s' (trim bs) ∧
      ∀ b, InHeap s'.heapSize b → V.load s'.vm b = V.load s.vm b := by
  have hb := h.bound
  have hpre : trim bs <+: bs := List.rdropWhile_prefix _ _
  have hmod : total Blk.len (trim bs) % 4096 = 0 :=
    total_mod fun b hb => (h.pages b (hpre.subset hb)).1
  obtain ⟨vm', e, hm', hl⟩ := hV.unmap _ _ _ hm hmod h.size_mod hlt hb hunmap
  have haddr : (HEAP_BASE + total Blk.len (trim bs)) % 2^64 = HEAP_BASE + total Blk.len (trim bs) :=
    Nat.mod_eq_of_lt (by omega)
  have hsize : (s.heapSize + (2^64 - total Blk.len (trim bs))) % 2^64 =
      s.heapSize - total Blk.len (trim bs) := by omega
  refine ⟨⟨vm', total Blk.len (trim bs)⟩, ?_, hm', ⟨⟨?_, rfl, ?_, ?_⟩, trim_trim bs⟩, hl⟩
  · unfold shrink
    rw [shrunkSize_spec h]
    simp only [Option.bind_eq_bind, Option.bind_some, haddr, hsize, e]
    rfl
  · intro x hx
    have hx' := starts_mono hpre hx
    have hr := starts_range hx
    obtain ⟨_, _, h3, h4, _⟩ := h.range hx'
    show V.load vm' x.1 = _
    rw [hl x.1 ⟨by omega, hr.1, by omega⟩, h.headers x hx']
  · exact fun b hb => h.pages b (hpre.subset hb)
  · show HEAP_BASE + total Blk.len (trim bs) < 2^64
    omega

/-- the call that gives pages back keeps to its range: `vm` is the memory after the `used` bit of the
block at `addr - 32` was cleared -/
def ShrinkOk (V : KernelVM σ) (UnmapOk : σ → Nat → Nat → Prop) (s : Heap σ) (addr : Nat) : Prop :=
  ∀ vm newSize, updateHeader V s.vm (addr - HEADER) (setUsed false) = some vm →
    shrunkSize V ⟨vm, s.heapSize⟩ = some newSize → newSize < s.heapSize → UnmapOk vm newSize s.heapSize

/-- `kfree` of the block at `blk` -/
theorem kfree_eq (V : KernelVM σ) (s : Heap σ) {blk len : Nat} (hlt : blk + len < 2^64)
    (hlen : 4096 ≤ len) {vm : σ} {w : BitVec 64} (e : updateHeader V s.vm blk (setUsed false) = some vm)
    (hw : V.load vm blk = some w) (hsz : headerSize w = len - HEADER)
    (hb : HEAP_BASE + s.heapSize < 2^64) :
    kfree V s (blk + HEADER) = if blk + len = HEAP_BASE + s.heapSize then shrink V ⟨vm, s.heapSize⟩
      else some ⟨vm, s.heapSize⟩ := by
  have hblk : (blk + HEADER + (2^64 - HEADER)) % 2^64 = blk := by
    unfold HEADER
    omega
  have hend : (blk + HEADER + (len - HEADER)) % 2^64 = blk + len := by
    unfold HEADER
    omega
  have hne : blk + HEADER ≠ 0 := Nat.succ_ne_zero _
  unfold kfree
  rw [if_neg hne]
  simp only [hblk, e, Option.bind_eq_bind, Option.bind_some, hw, hsz, hend, Nat.mod_eq_of_lt hb]
  rfl

/-- **`kfree` is a `FreeStep`**, and writes no word but the header of the block it frees. -/
theorem kfree_spec (hV : HeapVM V Maps MapOk UnmapOk) (h : HeapRep V s bs)
    (hm : Maps s.vm s.heapSize) {off : Nat} {b : Blk}
    (hx : (HEAP_BASE + off, b) ∈ starts Blk.len HEAP_BASE bs)
    (hshrink : ShrinkOk V UnmapOk s (HEAP_BASE + off + HEADER)) :
    ∃ s' bs', kfree V s (HEAP_BASE + off + HEADER) = some s' ∧ FreeStep bs off bs' ∧
      Maps s'.vm s'.heapSize ∧ HeapRep V s' bs' ∧ Untouched V s (HEAP_BASE + off) s' := by
  obtain ⟨_, hend, _, hlen, _⟩ := h.toHeapTiles.range hx
  obtain ⟨l, r, rfl, ha⟩ := mem_starts.mp hx
  have ha' : off = total Blk.len l := by
    have ha' : HEAP_BASE + off = HEAP_BASE + total Blk.len l := ha
    omega
  subst ha'
  have hb := h.bound
  obtain ⟨vm', e, hm', ht, hu⟩ := setUsed_spec hV h.toHeapTiles hm false
  have hx' : (HEAP_BASE + total Blk.len l, ⟨b.len, false⟩) ∈
      starts Blk.len HEAP_BASE (l ++ ⟨b.len, false⟩ :: r) := mem_starts.mpr ⟨l, r, rfl, rfl⟩
  have hw := ht.headers _ hx'
  have hsz := ht.headerSize hx'
  dsimp only at hw hsz hlen
  have hsize := h.size
  rw [total_append, total_cons] at hsize
  have hlt : HEAP_BASE + total Blk.len l + b.len < 2^64 := by omega
  rw [kfree_eq V s hlt hlen e hw hsz hb]
  by_cases hlast : HEAP_BASE + total Blk.len l + b.len = HEAP_BASE + s.heapSize
  · -- the block is the last one, and free now: there is something to give back
    have hr : r = [] := by
      cases r with
      | nil => rfl
      | cons c r =>
        have hc := (h.pages c (by simp)).2
        rw [total_cons] at hsize
        omega
    subst hr
    have hlt : total Blk.len (trim (l ++ [⟨b.len, false⟩])) < s.heapSize := by
      unfold trim
      rw [List.rdropWhile_concat_pos _ _ _ rfl]
      obtain ⟨t, ht⟩ := List.rdropWhile_prefix (fun b : Blk => !b.used) (l := l)
      have hle : total Blk.len (l.rdropWhile fun b => !b.used) ≤ total Blk.len l := by
        conv_rhs => rw [← ht, total_append]
        omega
      omega
    rw [← Nat.add_sub_cancel (n := HEAP_BASE + total Blk.len l) (m := HEADER)] at e
    have hun := hshrink vm' _ e (shrunkSize_spec ht) hlt
    obtain ⟨s', es, hms, hrep, hl⟩ := shrink_spec (s := ⟨vm', s.heapSize⟩) hV ht hm' hlt hun
    refine ⟨s', _, ?_, .free l [] b, hms, hrep, fun a ha ha' hne => ?_⟩
    · rw [if_pos hlast]
      exact es
    · rw [hl a ha']
      exact hu a ha ha hne
  · have hr : r ≠ [] := by
      rintro rfl
      have h0 : total Blk.len [] = 0 := rfl
      omega
    have htrim := trim_replace (c := ⟨b.len, false⟩) h.last (.inl hr)
    refine ⟨⟨vm', s.heapSize⟩, _, ?_, .free l r b, hm', ?_, hu⟩
    · rw [if_neg hlast]
    · rw [htrim]
      exact ⟨ht, htrim⟩

end

end FuseeOS
