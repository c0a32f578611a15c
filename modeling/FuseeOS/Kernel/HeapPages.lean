import FuseeOS.Kernel.HeapRun
import FuseeOS.Kernel.OutOfPages

/-!
# The heap and the page tables

The heap over the machine: what `kmalloc` and `kfree` map and unmap, against the blocks they keep.

* `HeapBacked`        the first `n` bytes of the heap region are mapped, each page to a frame of its own;
* `HeapBacked.grow`, `HeapBacked.cut`   `kmapanon` and `kunmapanon` at the end of the heap;
* `machine_heapVM`    the machine is a memory for the heap, as long as `page_iter` reaches the pages;
* `heap_mapped`       every run of the heap, with the page tables;
* `HeapWf.beyond`     a block that `page_iter` does not visit whole is not mapped whole.
-/

namespace FuseeOS
open Radix Tiling StepRun

/-! ## the heap region -/

/-- where the heap region ends: the I/O region is behind it -/
def HEAP_END : Nat := 0xffffc00000000000

/-- pages of the heap region -/
def HeapRegion (v : Nat) : Prop := HEAP_BASE / 4096 ≤ v ∧ v < HEAP_END / 4096

/-- The first `n` bytes of the heap region are mapped, every page to a frame that is in use, that is no
table and that no other page of them has; the rest of the region is not mapped. -/
structure HeapBacked (m : Machine) (n : Nat) : Prop where
  tables : Tables m
  plain : PlainOn HeapRegion m
  whole : n % 4096 = 0
  room : HEAP_BASE + n ≤ HEAP_END
  frames : ∀ j < n / 4096, ∃ w, leaf m (HEAP_BASE / 4096 + j) = some w ∧ AnonFrame m w ∧
    ¬ m.pmem.Free (frameOf w)
  once : ∀ i < n / 4096, ∀ j < n / 4096, ∀ w w', leaf m (HEAP_BASE / 4096 + i) = some w →
    leaf m (HEAP_BASE / 4096 + j) = some w' → frameOf w = frameOf w' → i = j
  above : ∀ j, n / 4096 ≤ j → HeapRegion (HEAP_BASE / 4096 + j) → leaf m (HEAP_BASE / 4096 + j) = none
  running : n = 0 ∨ m.cpuCr3 = m.cr3

section
variable {m m' : Machine} {n k e a b : Nat}

/-- different pages of the region have different entries -/
theorem HeapRegion.eq {v v' : Nat} (h : HeapRegion v) (h' : HeapRegion v') (e : SamePage v v') : v = v' := by
  unfold HeapRegion HEAP_BASE HEAP_END at *
  unfold SamePage at e
  omega

theorem heapRegion_add (h : HEAP_BASE + n ≤ HEAP_END) {j : Nat} (hj : j < n / 4096) :
    HeapRegion (HEAP_BASE / 4096 + j) := by
  unfold HeapRegion HEAP_BASE HEAP_END at *
  omega

/-- the tables of a range of the region belong to the region -/
theorem heapRegion_tables {s c : Nat} (hs : HEAP_BASE / 4096 ≤ s) (hend : s + c ≤ HEAP_END / 4096)
    (hv : InTablesOf s c a) : HeapRegion a := by
  unfold InTablesOf tableCount at hv
  unfold HeapRegion HEAP_BASE HEAP_END at *
  omega

/-- a word of the heap, and its page -/
theorem HeapBacked.word (h : HeapBacked m n) (ha : InHeap n a) : ∃ j < n / 4096, ∃ w,
    a / 4096 = HEAP_BASE / 4096 + j ∧ HeapRegion (a / 4096) ∧ canonical a ∧
      leaf m (HEAP_BASE / 4096 + j) = some w ∧ AnonFrame m w ∧ ¬ m.pmem.Free (frameOf w) := by
  obtain ⟨-, h1, h2⟩ := ha
  have hbase := HEAP_BASE_mod
  have hwhole := h.whole
  have hroom := h.room
  have hj : (a - HEAP_BASE) / 4096 < n / 4096 := by omega
  have he : a / 4096 = HEAP_BASE / 4096 + (a - HEAP_BASE) / 4096 := by omega
  obtain ⟨w, hw, hf, hu⟩ := h.frames _ hj
  refine ⟨_, hj, w, he, he ▸ heapRegion_add hroom hj, ?_, hw, hf, hu⟩
  unfold canonical
  unfold HEAP_BASE HEAP_END at *
  omega

/-- who reads the heap runs on the kernel's tables -/
theorem HeapBacked.cpu (h : HeapBacked m n) (ha : InHeap n a) : m.cpuCr3 = m.cr3 :=
  h.running.resolve_left fun h0 => by
    have h1 := ha.2.1
    have h2 := ha.2.2
    omega

/-- a word of the heap is a word of a page that is in use and no table -/
theorem HeapBacked.load (h : HeapBacked m n) (ha : InHeap n a) : ∃ j < n / 4096, ∃ w,
    a / 4096 = HEAP_BASE / 4096 + j ∧ leaf m (HEAP_BASE / 4096 + j) = some w ∧ AnonFrame m w ∧
      ¬ m.pmem.Free (frameOf w) ∧
      loadWord m a = some (m.mem (frameOf w) ⟨a % 4096 / 8, by omega⟩) := by
  obtain ⟨j, hj, w, he, hr, hc, hw, hf, hu⟩ := h.word ha
  exact ⟨j, hj, w, he, hw, hf, hu, loadWord_leaf h.plain (h.cpu ha) hr hc ha.1 (he ▸ hw)⟩

/-- words of pages that stay mapped, and whose frames are not written, stay -/
theorem HeapBacked.load_eq (h : HeapBacked m n) (h' : HeapBacked m' k) (hb : InHeap n b) (hb' : InHeap k b)
    (hleaf : ∀ j < n / 4096, j < k / 4096 → leaf m' (HEAP_BASE / 4096 + j) = leaf m (HEAP_BASE / 4096 + j))
    (hdata : ∀ f, ¬ m.IsTable f → ¬ m.pmem.Free f → m'.mem f = m.mem f) : loadWord m' b = loadWord m b := by
  obtain ⟨j, hj, w, e, hw, hf, hu, hl⟩ := h.load hb
  obtain ⟨j', hj', w', e', hw', -, -, hl'⟩ := h'.load hb'
  obtain rfl : j' = j := by omega
  rw [hleaf j' hj hj', hw, Option.some.injEq] at hw'
  rw [hl, hl', ← hw', hdata _ hf.table hu]

/-- **A word of the heap is written.** -/
theorem HeapBacked.store (h : HeapBacked m n) (ha : InHeap n a) (w : BitVec 64) :
    ∃ m', storeWord m a w = some m' ∧ HeapBacked m' n ∧
      ∀ b, InHeap n b → loadWord m' b = if b = a then some w else loadWord m b := by
  obtain ⟨j, hj, x, he, hr, hc, hx, hf, hu⟩ := h.word ha
  have e := storeWord_leaf h.plain (h.cpu ha) hr hc ha.1 (he ▸ hx) w
  have hset := dataSet_setWord m (frameOf x) ⟨a % 4096 / 8, by omega⟩ w
  have c := hset.same hf.table
  have hleaf (v : Nat) : leaf _ v = leaf m v := hset.leaf hf.table v
  have h' : HeapBacked (m.setWord (frameOf x) ⟨a % 4096 / 8, by omega⟩ w) n := by
    refine ⟨hset.tables hf.table h.tables, c.plain h.plain, h.whole, h.room, fun i hi => ?_,
      fun i hi j hj w w' hw hw' => h.once i hi j hj w w' (hleaf _ ▸ hw) (hleaf _ ▸ hw'),
      fun i hi hv => (hleaf _).trans (h.above i hi hv), h.running⟩
    obtain ⟨y, hy, hg, hv⟩ := h.frames i hi
    exact ⟨y, (hleaf _).trans hy, ⟨hg.phys, hg.owns, fun ht => hg.table ((hset.isTable hf.table _).mp ht)⟩, hv⟩
  refine ⟨_, e, h', fun b hb => ?_⟩
  obtain ⟨i, hi, y, ei, hy, hg, -, hl⟩ := h.load hb
  obtain ⟨i', hi', y', ei', hy', -, -, hl'⟩ := h'.load hb
  obtain rfl : i' = i := by omega
  rw [hleaf, hy, Option.some.injEq] at hy'
  rw [hl', ← hy', hl]
  by_cases hij : i' = j
  · -- a word of the page that is written
    subst hij
    obtain rfl : x = y := Option.some.inj (hx.symm.trans hy)
    by_cases hba : b = a
    · subst hba
      rw [if_pos rfl]
      exact congrArg some (setWord_same _ _ _ _)
    · have h8 := ha.1
      have h8' := hb.1
      rw [if_neg hba]
      refine congrArg some (setWord_of_ne _ _ fun hi => ?_)
      have hidx : b % 4096 / 8 = a % 4096 / 8 := Fin.mk.inj hi.2
      omega
  · have hba : b ≠ a := by
      rintro rfl
      omega
    have hne : frameOf y ≠ frameOf x := fun ef => hij (h.once i' hi j hj y x hy hx ef)
    rw [if_neg hba]
    exact congrArg some (congrFun (setWord_node_ne _ _ _ hne) _)

/-! ## the end of the heap -/

/-- pages of the region outside of a range stay as they were -/
theorem OnlyLeaves.region {s c j : Nat} (g : OnlyLeaves m s c m') (hs : ∀ i < c, HeapRegion (s + i))
    (hr : HeapRegion j) (hj : j < s ∨ s + c ≤ j) : FuseeOS.leaf m' j = FuseeOS.leaf m j := by
  refine g.leaf fun i hi hsame => ?_
  have := hr.eq (hs i hi) hsame
  omega

/-- the pages behind the heap, up to another end of it -/
theorem heapRegion_behind (hroom : HEAP_BASE + (n + e) ≤ HEAP_END) (he : e % 4096 = 0) {i : Nat}
    (hi : i < e / 4096) : HeapRegion (HEAP_BASE / 4096 + n / 4096 + i) := by
  have hr := heapRegion_add hroom (show n / 4096 + i < (n + e) / 4096 by omega)
  rwa [← Nat.add_assoc] at hr

/-- Tables are added, and pages mapped behind the heap. -/
theorem HeapBacked.mapped {m₁ m₂ : Machine} {frame : Nat → Nat} {flags : BitVec 64} (h : HeapBacked m n)
    (he : e % 4096 = 0) (hroom : HEAP_BASE + (n + e) ≤ HEAP_END) (g : TablesAdded HeapRegion m m₁)
    (hm : FreshMapped m₁ (HEAP_BASE / 4096 + n / 4096) (e / 4096) flags m₂)
    (hframes : Frames m₂ (HEAP_BASE / 4096 + n / 4096) (e / 4096) frame)
    (hframe : ∀ j < e / 4096, m₁.pmem.Free (frame j) ∧ ¬ m₂.pmem.Free (frame j)) :
    HeapBacked (reloadCr3 m₂) (n + e) := by
  have hn := h.whole
  have hc : (n + e) / 4096 = n / 4096 + e / 4096 := by omega
  have hout {j : Nat} (hr : HeapRegion (HEAP_BASE / 4096 + j)) (hj : j < n / 4096 ∨ (n + e) / 4096 ≤ j) :
      leaf m₂ (HEAP_BASE / 4096 + j) = leaf m (HEAP_BASE / 4096 + j) :=
    (hm.toOnlyLeaves.region (fun i hi => heapRegion_behind hroom he hi) hr (by omega)).trans (g.toGrown.leaf _)
  have hold {j : Nat} (hj : j < n / 4096) : leaf m₂ (HEAP_BASE / 4096 + j) = leaf m (HEAP_BASE / 4096 + j) :=
    hout (heapRegion_add hroom (by omega)) (.inl hj)
  have hnew {j : Nat} (hj : j < (n + e) / 4096) (hnj : ¬ j < n / 4096) : ∃ w,
      leaf m₂ (HEAP_BASE / 4096 + j) = some w ∧ physFrame w = frame (j - n / 4096) ∧
        frameOf w = frame (j - n / 4096) := by
    have hl := hframes.leaf (j - n / 4096) (by omega)
    rwa [Nat.add_assoc, Nat.add_sub_cancel' (Nat.not_lt.mp hnj)] at hl
  refine ⟨reload_tables hm.tables, hm.toOnlyLeaves.plain g.plain, by omega, hroom, fun j hj => ?_,
    fun i hi j hj w w' hw hw' ef => ?_, fun j hj hr => ?_, .inr rfl⟩
  · by_cases hjn : j < n / 4096
    · obtain ⟨w, hw, hf, hu⟩ := h.frames j hjn
      refine ⟨w, (hold hjn).trans hw, ⟨hf.phys, (hm.owns _).mpr ((g.owns _).mpr hf.owns), fun ht => ?_⟩,
        fun hq => hu (g.free _ (hm.free _ hq))⟩
      exact (g.fresh _ ((isTable_congr hm.node _).mp ht)).elim hf.table hu
    · obtain ⟨w, hw, hp, hf⟩ := hnew hj hjn
      obtain ⟨ho, hu, ht⟩ := hm.owned g.tables hframe (j := j - n / 4096) (by omega)
      exact ⟨w, hw, ⟨hp.trans hf.symm, hf ▸ ho, hf ▸ ht⟩, hf ▸ hu⟩
  · -- a frame from before is in use, a new one was free
    have hcross {i j : Nat} {w w' : BitVec 64} (hi : i < n / 4096) (hj : j < (n + e) / 4096)
        (hnj : ¬ j < n / 4096) (hw : leaf m₂ (HEAP_BASE / 4096 + i) = some w)
        (hw' : leaf m₂ (HEAP_BASE / 4096 + j) = some w') (ef : frameOf w = frameOf w') : False := by
      obtain ⟨x, hx, -, hu⟩ := h.frames i hi
      obtain ⟨y, hy, -, hf⟩ := hnew hj hnj
      rw [hold hi, hx, Option.some.injEq] at hw
      rw [hy, Option.some.injEq] at hw'
      obtain ⟨h1, -⟩ := hframe (j - n / 4096) (by omega)
      rw [← hf, hw', ← ef, ← hw] at h1
      exact hu (g.free _ h1)
    by_cases hi' : i < n / 4096
    · by_cases hj' : j < n / 4096
      · exact h.once i hi' j hj' w w' ((hold hi').symm.trans hw) ((hold hj').symm.trans hw') ef
      · exact (hcross hi' hj hj' hw hw' ef).elim
    · by_cases hj' : j < n / 4096
      · exact (hcross hj' hi hi' hw' hw ef.symm).elim
      · obtain ⟨x, hx, -, hf⟩ := hnew hi hi'
        obtain ⟨y, hy, -, hf'⟩ := hnew hj hj'
        obtain rfl := Option.some.inj (hx.symm.trans hw)
        obtain rfl := Option.some.inj (hy.symm.trans hw')
        have := hframes.apart _ (by omega) _ (by omega) (hf.symm.trans (ef.trans hf'))
        omega
  · exact (hout hr (.inr hj)).trans (h.above j (by omega) hr)

/-- **Pages are mapped behind the heap.** -/
theorem HeapBacked.grow (h : HeapBacked m n) (he : e % 4096 = 0) (hpos : 0 < e)
    (hroom : HEAP_BASE + (n + e) ≤ HEAP_END) (hreach : InReach ((HEAP_BASE + n) / 4096) (e / 4096))
    (hpages : missing m ((HEAP_BASE + n) / 4096) (e / 4096) + e / 4096 ≤ m.pmem.pagesFree) :
    ∃ m', kmapanon m (HEAP_BASE + n) e (KPROT_READ ||| KPROT_WRITE) = some m' ∧ HeapBacked m' (n + e) ∧
      (∀ b, InHeap n b → loadWord m' b = loadWord m b) ∧
      m'.pmem.pagesFree + (missing m ((HEAP_BASE + n) / 4096) (e / 4096) + e / 4096) = m.pmem.pagesFree := by
  have hbase := HEAP_BASE_mod
  have hn := h.whole
  have hs : (HEAP_BASE + n) / 4096 = HEAP_BASE / 4096 + n / 4096 := by omega
  have hend : HEAP_BASE / 4096 + n / 4096 + e / 4096 ≤ HEAP_END / 4096 := by
    unfold HEAP_END at *
    omega
  have hlt : e + 4095 < 2^64 := by
    unfold HEAP_BASE HEAP_END at hroom
    omega
  have hcov : covered ((HEAP_BASE + n) / 4096) (e / 4096) = e / 4096 := covered_eq.mpr (.inl hreach.reached)
  obtain ⟨m₁, m₂, em, g, hcount, hm⟩ := (kmapanon_spec h.tables h.plain rfl hlt (show (e + 4095) / 4096 = e / 4096 by omega)
    (by omega) hreach.span (fun v hv => heapRegion_tables (by omega) (by omega) hv)
    (KPROT_READ ||| KPROT_WRITE)).resolve_right fun hno => by
      have := hno.2
      omega
  rw [hcov, hs] at hm
  obtain ⟨frame, hframes, hframe⟩ := hm.frames
  have hb' := h.mapped he hroom g hm hframes hframe
  have hold {j : Nat} (hj : j < n / 4096) : leaf m₂ (HEAP_BASE / 4096 + j) = leaf m (HEAP_BASE / 4096 + j) :=
    (hm.toOnlyLeaves.region (fun i hi => heapRegion_behind hroom he hi) (heapRegion_add h.room hj)
      (by omega)).trans (g.toGrown.leaf _)
  have hmem : ∀ f, ¬ m.IsTable f → ¬ m.pmem.Free f → m₂.mem f = m.mem f := by
    intro f hf hu
    rw [hm.data f (fun ht => (g.fresh f ht).elim hf hu) fun hq => hu (g.free f hq), g.data f hf hu]
  refine ⟨_, em, hb', fun b hb => ?_, ?_⟩
  · exact h.load_eq hb' hb ⟨hb.1, hb.2.1, by have := hb.2.2; omega⟩ (fun j hj _ => hold hj) hmem
  · have hcount' : m₂.pmem.pagesFree + e / 4096 = m₁.pmem.pagesFree := hm.count
    show m₂.pmem.pagesFree + _ = _
    omega

/-- The pages from byte `k` of the heap on are unmapped; `frame` are their frames. -/
theorem HeapBacked.unmapped {m₂ : Machine} {frame : Nat → Nat} (h : HeapBacked m n) (hk : k % 4096 = 0)
    (hlt : k < n)
    (hframe : ∀ j < (n - k) / 4096, ∃ w, leaf m (HEAP_BASE / 4096 + k / 4096 + j) = some w ∧ frameOf w = frame j)
    (g : Unmapped m (HEAP_BASE / 4096 + k / 4096) ((n - k) / 4096) frame m₂) : HeapBacked (reloadCr3 m₂) k := by
  have hn := h.whole
  have hroom := h.room
  have hroom' : HEAP_BASE + (k + (n - k)) ≤ HEAP_END := by omega
  have hout {j : Nat} (hr : HeapRegion (HEAP_BASE / 4096 + j)) (hj : j < k / 4096 ∨ n / 4096 ≤ j) :
      leaf m₂ (HEAP_BASE / 4096 + j) = leaf m (HEAP_BASE / 4096 + j) :=
    g.toOnlyLeaves.region (fun i hi => heapRegion_behind hroom' (by omega) hi) hr (by omega)
  have hold {j : Nat} (hj : j < k / 4096) : leaf m₂ (HEAP_BASE / 4096 + j) = leaf m (HEAP_BASE / 4096 + j) :=
    hout (heapRegion_add hroom (by omega)) (.inl hj)
  refine ⟨reload_tables g.tables, g.toOnlyLeaves.plain h.plain, hk, by omega, fun j hj => ?_,
    fun i hi j hj w w' hw hw' => ?_, fun j hj hr => ?_, .inr rfl⟩
  · obtain ⟨w, hw, hf, hu⟩ := h.frames j (by omega)
    refine ⟨w, (hold hj).trans hw, ⟨hf.phys, (g.owns _).mpr hf.owns,
      fun ht => hf.table ((isTable_congr g.node _).mp ht)⟩, fun hq => ?_⟩
    rcases (g.free _).mp hq with hq | ⟨i, hi, ei⟩
    · exact hu hq
    · -- the frame of a page that stays is not given back
      obtain ⟨w', hw', ef'⟩ := hframe i hi
      rw [Nat.add_assoc] at hw'
      have := h.once j (by omega) _ (by omega) w w' hw hw' (ei.trans ef'.symm)
      omega
  · exact h.once i (by omega) j (by omega) w w' ((hold hi).symm.trans hw) ((hold hj).symm.trans hw')
  · by_cases hjn : j < n / 4096
    · have hl := g.unmapped (j - k / 4096) (by omega)
      rwa [Nat.add_assoc, Nat.add_sub_cancel' hj] at hl
    · exact (hout hr (.inr (Nat.not_lt.mp hjn))).trans (h.above j (Nat.not_lt.mp hjn) hr)

/-- **The pages at the end of the heap are unmapped.** -/
theorem HeapBacked.cut (h : HeapBacked m n) (hk : k % 4096 = 0) (hlt : k < n)
    (hreach : InReach ((HEAP_BASE + k) / 4096) ((n - k) / 4096)) :
    ∃ m', kunmapanon m (HEAP_BASE + k) (n - k) = some m' ∧ HeapBacked m' k ∧
      ∀ b, InHeap k b → loadWord m' b = loadWord m b := by
  have hbase := HEAP_BASE_mod
  have hn := h.whole
  have hroom := h.room
  have hs : (HEAP_BASE + k) / 4096 = HEAP_BASE / 4096 + k / 4096 := by omega
  have hend : HEAP_BASE / 4096 + n / 4096 ≤ HEAP_END / 4096 := by
    unfold HEAP_END at *
    omega
  have hsize : n - k + 4095 < 2^64 := by
    unfold HEAP_BASE HEAP_END at hroom
    omega
  have hcov : covered ((HEAP_BASE + k) / 4096) ((n - k) / 4096) = (n - k) / 4096 :=
    covered_eq.mpr (.inl hreach.reached)
  -- the frames of the pages
  have hback : ∀ j < (n - k) / 4096, ∃ f w, leaf m (HEAP_BASE / 4096 + k / 4096 + j) = some w ∧
      AnonFrame m w ∧ ¬ m.pmem.Free (frameOf w) ∧ frameOf w = f := by
    intro j hj
    obtain ⟨w, hw, hf, hu⟩ := h.frames (k / 4096 + j) (by omega)
    rw [← Nat.add_assoc] at hw
    exact ⟨_, w, hw, hf, hu, rfl⟩
  choose! frame hback using hback
  obtain ⟨m₂, em, g⟩ := kunmapanon_spec h.tables h.plain rfl hsize
    (show (n - k + 4095) / 4096 = (n - k) / 4096 by omega) (by omega) hreach.span
    (fun v hv => heapRegion_tables (by omega) (by omega) hv)
    (fun j hj => by
      rw [hcov] at hj
      obtain ⟨w, hw, hf, -, ef⟩ := hback j hj
      exact ⟨w, hs ▸ hw, hf.phys.trans ef⟩)
    (fun j hj => by
      rw [hcov] at hj
      obtain ⟨w, -, hf, hu, ef⟩ := hback j hj
      exact ⟨ef ▸ hf.owns, ef ▸ hu, ef ▸ hf.table⟩)
    (fun i hi j hj eij => by
      rw [hcov] at hi hj
      obtain ⟨w, hw, -, -, ef⟩ := hback i hi
      obtain ⟨w', hw', -, -, ef'⟩ := hback j hj
      rw [Nat.add_assoc] at hw hw'
      have := h.once _ (by omega) _ (by omega) w w' hw hw' (ef.trans (eij.trans ef'.symm))
      omega)
  rw [hcov, hs] at g
  have hb' := h.unmapped hk hlt (fun j hj => by
    obtain ⟨w, hw, -, -, ef⟩ := hback j hj
    exact ⟨w, hw, ef⟩) g
  refine ⟨_, em, hb', fun b hb => ?_⟩
  refine h.load_eq hb' ⟨hb.1, hb.2.1, by have := hb.2.2; omega⟩ hb (fun j hjn hj => ?_) fun f hf _ => g.data f hf
  have hroom' : HEAP_BASE + (k + (n - k)) ≤ HEAP_END := by omega
  exact g.toOnlyLeaves.region (fun i hi => heapRegion_behind hroom' (by omega) hi) (heapRegion_add hroom hjn) (by omega)

end

/-- the heap of `n` bytes can grow by `e`: there is room in the region, there are enough free pages, and
`page_iter` visits all pages of the range -/
structure CanGrow (m : Machine) (n e : Nat) : Prop where
  pos : 0 < e
  room : HEAP_BASE + (n + e) ≤ HEAP_END
  pages : missing m ((HEAP_BASE + n) / 4096) (e / 4096) + e / 4096 ≤ m.pmem.pagesFree
  reach : InReach ((HEAP_BASE + n) / 4096) (e / 4096)

/-- `page_iter` visits all pages between byte `k` of the region and byte `n` -/
def CanCut (_ : Machine) (k n : Nat) : Prop := InReach ((HEAP_BASE + k) / 4096) ((n - k) / 4096)

/-- **The machine is a memory for the heap.** -/
theorem machine_heapVM : HeapVM machineVM HeapBacked CanGrow CanCut where
  load m n a h ha := by
    obtain ⟨_, _, _, _, _, _, _, hl⟩ := h.load ha
    exact ⟨_, hl⟩
  store m n a w h ha := h.store ha w
  map m n e h _ he _ hok := by
    rw [machineVM_kmapanon]
    obtain ⟨m', e', h', hl, -⟩ := h.grow he hok.pos hok.room hok.reach hok.pages
    exact ⟨m', e', h', hl⟩
  unmap m k n h hk _ hlt _ hok := by
    rw [machineVM_kunmapanon]
    exact h.cut hk hlt hok

/-! ## what a call asks for -/

/-- The call moves the end of the heap, whose blocks are `bs`: it maps or unmaps the `len` bytes from byte
`off` of the region on. -/
def Resizes (bs : List Blk) (off len : Nat) : HeapOp → Prop
  | .kmalloc size => (∀ b ∈ bs, ¬ b.Fits size) ∧ off = total Blk.len bs ∧ len = blockLen size
  | .kfree addr => ∃ l b, bs = l ++ [b] ∧ addr = HEAP_BASE + total Blk.len l + HEADER ∧
      off = total Blk.len (trim l) ∧ off + len = total Blk.len bs

/-- there is room in the heap region and there are enough free pages for what the call maps -/
def HeapRoom (s : HeapState Machine) : HeapOp → Prop
  | .kmalloc size => ∀ bs, HeapTiles machineVM s.heap bs → ∀ off len, Resizes bs off len (.kmalloc size) →
      HEAP_BASE + (off + len) ≤ HEAP_END ∧
        missing s.heap.vm ((HEAP_BASE + off) / 4096) (len / 4096) + len / 4096 ≤ s.heap.vm.pmem.pagesFree
  | .kfree _ => True

/-- `page_iter` visits all pages that the call maps or unmaps -/
def HeapReach (s : HeapState Machine) (op : HeapOp) : Prop :=
  ∀ bs, HeapTiles machineVM s.heap bs → ∀ off len, Resizes bs off len op →
    InReach ((HEAP_BASE + off) / 4096) (len / 4096)

/-- Every page of the heap is mapped in the kernel's tables, to a frame that is in use, that is no table and
that no other page of the heap has; no page of the region behind the heap is; every byte of a live
allocation is. -/
structure HeapMapped (s : HeapState Machine) : Prop where
  mapped : ∀ va, HEAP_BASE ≤ va → va < HEAP_BASE + s.heap.heapSize →
    ∃ t, translate s.heap.vm.mem s.heap.vm.cr3 va = some t ∧ s.heap.vm.pmem.Owns t.frame ∧
      ¬ s.heap.vm.pmem.Free t.frame ∧ ¬ s.heap.vm.IsTable t.frame
  apart : ∀ va va' t t', HEAP_BASE ≤ va → va < HEAP_BASE + s.heap.heapSize → HEAP_BASE ≤ va' →
    va' < HEAP_BASE + s.heap.heapSize → translate s.heap.vm.mem s.heap.vm.cr3 va = some t →
    translate s.heap.vm.mem s.heap.vm.cr3 va' = some t' → t.frame = t'.frame → va / 4096 = va' / 4096
  unmapped : ∀ va, HEAP_BASE + s.heap.heapSize ≤ va → va < HEAP_END →
    translate s.heap.vm.mem s.heap.vm.cr3 va = none
  live : ∀ y ∈ s.live, ∀ i < y.2, (translate s.heap.vm.mem s.heap.vm.cr3 (y.1 + i)).isSome

section
variable {s : HeapState Machine} {bs : List Blk} {op : HeapOp}

/-- **Tables and heap agree.** -/
theorem HeapWf.mapped (h : HeapWf machineVM HeapBacked s bs) : HeapMapped s := by
  have hb := h.maps
  have hbase := HEAP_BASE_mod
  have hwhole := hb.whole
  have hroom := hb.room
  -- the translation of a byte of the heap
  have hbyte (va : Nat) (h1 : HEAP_BASE ≤ va) (h2 : va < HEAP_BASE + s.heap.heapSize) :
      ∃ j < s.heap.heapSize / 4096, ∃ w t, va / 4096 = HEAP_BASE / 4096 + j ∧
        leaf s.heap.vm (HEAP_BASE / 4096 + j) = some w ∧ AnonFrame s.heap.vm w ∧
        ¬ s.heap.vm.pmem.Free (frameOf w) ∧
        translate s.heap.vm.mem s.heap.vm.cr3 va = some t ∧ t.frame = frameOf w := by
    have hj : (va - HEAP_BASE) / 4096 < s.heap.heapSize / 4096 := by omega
    have he : va / 4096 = HEAP_BASE / 4096 + (va - HEAP_BASE) / 4096 := by omega
    obtain ⟨w, hw, hf, hu⟩ := hb.frames _ hj
    have hr : HeapRegion (va / 4096) := he ▸ heapRegion_add hroom hj
    have hc : canonical va := by
      unfold canonical
      unfold HEAP_BASE HEAP_END at *
      omega
    obtain ⟨t, ht, -, htf, -⟩ := translate_page hb.plain hr hc (he ▸ hw)
    exact ⟨_, hj, w, t, he, hw, hf, hu, ht, htf⟩
  refine ⟨fun va h1 h2 => ?_, fun va va' t t' h1 h2 h1' h2' ht ht' e => ?_, fun va h1 h2 => ?_,
    fun y hy i hi => ?_⟩
  · obtain ⟨_, _, w, t, _, _, hf, hu, ht, e⟩ := hbyte va h1 h2
    exact ⟨t, ht, e ▸ hf.owns, e ▸ hu, e ▸ hf.table⟩
  · obtain ⟨j, hj, w, x, ej, hw, _, _, hx, ef⟩ := hbyte va h1 h2
    obtain ⟨j', hj', w', x', ej', hw', _, _, hx', ef'⟩ := hbyte va' h1' h2'
    obtain rfl := Option.some.inj (hx.symm.trans ht)
    obtain rfl := Option.some.inj (hx'.symm.trans ht')
    have := hb.once j hj j' hj' w w' hw hw' (ef.symm.trans (e.trans ef'))
    omega
  · obtain ⟨j, hj⟩ : ∃ j, va / 4096 = HEAP_BASE / 4096 + j := ⟨va / 4096 - HEAP_BASE / 4096, by omega⟩
    have hr : HeapRegion (va / 4096) := by
      unfold HeapRegion HEAP_END at *
      omega
    exact translate_none hb.plain hr (hj ▸ hb.above j (by omega) (hj ▸ hr))
  · obtain ⟨x, hx, hp, hlen⟩ := h.live.block y hy
    obtain ⟨h1, h2, -⟩ := h.toHeapTiles.range hx
    obtain ⟨_, _, _, t, _, _, _, _, ht, _⟩ := hbyte (y.1 + i) (by omega) (by omega)
    rw [ht]
    rfl

section
variable {Maps : Machine → Nat → Prop} {MapOk UnmapOk : Machine → Nat → Nat → Prop}

/-- what is asked of `kmalloc` in terms of the blocks -/
theorem HeapWf.growOk {size : Nat} (h : HeapWf machineVM Maps s bs) (hroom : HeapRoom s (.kmalloc size))
    (hreach : HeapReach s (.kmalloc size)) (hok : CanGrow s.heap.vm s.heap.heapSize (blockLen size) →
      MapOk s.heap.vm s.heap.heapSize (blockLen size)) : ResizeOk machineVM MapOk UnmapOk s (.kmalloc size) := by
  intro hbest
  obtain ⟨best, e, hnone, -⟩ := findBest_spec h.toHeapTiles size
  rw [hbest, Option.some.injEq] at e
  have hr : Resizes bs s.heap.heapSize (blockLen size) (.kmalloc size) := ⟨hnone e.symm, h.size.symm, rfl⟩
  obtain ⟨h1, h2⟩ := hroom bs h.toHeapTiles _ _ hr
  refine ⟨?_, hok ⟨(blockLen_page size).2, h1, h2, hreach bs h.toHeapTiles _ _ hr⟩⟩
  unfold HEAP_END at h1
  omega

/-- what is asked of `kfree` in terms of the blocks -/
theorem HeapWf.shrinkOk {addr : Nat} (hV : HeapVM machineVM Maps MapOk UnmapOk) (h : HeapWf machineVM Maps s bs)
    (hlegal : HeapLegal s (.kfree addr))
    (hok : ∀ vm off len, Resizes bs off len (.kfree addr) → UnmapOk vm off (off + len)) :
    ResizeOk machineVM MapOk UnmapOk s (.kfree addr) := by
  intro h0 vm newSize e es hlt
  obtain ⟨y, hy, rfl⟩ := List.mem_map.mp (hlegal.resolve_left h0)
  obtain ⟨x, hx, hp, -⟩ := h.live.block y hy
  obtain ⟨l, r, rfl, hl⟩ := mem_starts.mp hx
  -- the blocks after the header was written
  obtain ⟨vm', e', -, ht, -⟩ := setUsed_spec hV h.toHeapTiles h.maps false
  have haddr : y.1 - HEADER = HEAP_BASE + total Blk.len l := by
    rw [hp, hl]
    omega
  rw [haddr, e', Option.some.injEq] at e
  subst e
  have hsize : newSize = total Blk.len (trim (l ++ ⟨x.2.len, false⟩ :: r)) :=
    Option.some.inj (es.symm.trans (shrunkSize_spec ht))
  cases r with
  | cons c r =>
    -- the last block is another one, and used
    have htrim := trim_replace (c := ⟨x.2.len, false⟩) h.last (.inl (List.cons_ne_nil c r))
    rw [htrim, ht.size] at hsize
    exact absurd hlt (by rw [hsize]; exact Nat.lt_irrefl _)
  | nil =>
    have htrim : trim (l ++ [⟨x.2.len, false⟩]) = trim l := by
      unfold trim
      exact List.rdropWhile_concat_pos _ _ _ rfl
    rw [htrim] at hsize
    have hsum : newSize + (s.heap.heapSize - newSize) = s.heap.heapSize := by omega
    have hr : Resizes (l ++ [x.2]) newSize (s.heap.heapSize - newSize) (.kfree y.1) :=
      ⟨l, x.2, rfl, by rw [hp, hl], hsize, by rw [h.size, hsum]⟩
    have hun := hok vm' _ _ hr
    rwa [hsum] at hun

end

/-- what is asked of a call in terms of the blocks is what the heap needs -/
theorem HeapWf.resizeOk (h : HeapWf machineVM HeapBacked s bs) (hlegal : HeapLegal s op)
    (hroom : HeapRoom s op) (hreach : HeapReach s op) : ResizeOk machineVM CanGrow CanCut s op := by
  cases op with
  | kmalloc size => exact h.growOk hroom hreach id
  | kfree addr =>
    refine h.shrinkOk machine_heapVM hlegal fun _ off len hr => ?_
    unfold CanCut
    rw [Nat.add_sub_cancel_left]
    exact hreach _ h.toHeapTiles _ _ hr

end

/-! ## runs -/

/-- the machine before the first call: the tables are a tree, and nothing is mapped in the heap region -/
structure HeapStart (m : Machine) : Prop where
  tables : Tables m
  plain : PlainOn HeapRegion m
  unmapped : ∀ v, HeapRegion v → leaf m v = none

theorem HeapStart.wf {m : Machine} (h : HeapStart m) : HeapWf machineVM HeapBacked ⟨⟨m, 0⟩, []⟩ [] := by
  have hno (j : Nat) : ¬ j < 0 / 4096 := Nat.not_lt_zero j
  refine ⟨⟨⟨fun x hx => (nomatch hx), rfl, fun b hb => (nomatch hb), ?_⟩, rfl⟩, ?_,
    ⟨fun x hx => (nomatch hx), fun y hy => (nomatch hy), List.nodup_nil⟩⟩
  · show HEAP_BASE + 0 < 2^64
    unfold HEAP_BASE
    decide
  · refine ⟨h.tables, h.plain, rfl, ?_, fun j hj => absurd hj (hno j), fun j hj => absurd hj (hno j),
      fun j _ hr => h.unmapped _ hr, .inl rfl⟩
    show HEAP_BASE + 0 ≤ HEAP_END
    unfold HEAP_BASE HEAP_END
    decide

/-- a store takes no page -/
theorem updateHeader_pmem {m m' : Machine} {va : Nat} {f : BitVec 64 → BitVec 64}
    (e : updateHeader machineVM m va f = some m') : m'.pmem = m.pmem := by
  obtain ⟨w, -, e⟩ := Option.bind_eq_some_iff.mp e
  have e : storeWord m va (f w) = some m' := e
  unfold storeWord at e
  split at e
  · obtain ⟨t, -, rfl⟩ := Option.map_eq_some_iff.mp e
    rfl
  · exact nomatch e

/-- the pages of a new block are taken by `kmapanon` -/
theorem makeNewBlock_pmem {h h' : Heap Machine} {size p : Nat}
    (hbound : HEAP_BASE + (h.heapSize + blockLen size) < 2^64) (e : makeNewBlock machineVM h size = some (p, h')) :
    ∃ m, kmapanon h.vm (HEAP_BASE + h.heapSize) (blockLen size) (KPROT_READ ||| KPROT_WRITE) = some m ∧
      h'.vm.pmem = m.pmem := by
  rw [makeNewBlock_eq machineVM h hbound, machineVM_kmapanon] at e
  obtain ⟨m₁, e₁, e⟩ := Option.bind_eq_some_iff.mp e
  obtain ⟨m₂, e₂, e⟩ := Option.bind_eq_some_iff.mp e
  obtain ⟨m₃, e₃, e⟩ := Option.bind_eq_some_iff.mp e
  obtain ⟨-, rfl⟩ := Prod.mk.inj (Option.some.inj e)
  exact ⟨m₁, e₁, (updateHeader_pmem e₃).trans (updateHeader_pmem e₂)⟩

/-- an empty heap has no block that fits -/
theorem kmalloc_empty (m : Machine) (size : Nat) :
    kmalloc machineVM ⟨m, 0⟩ size = makeNewBlock machineVM ⟨m, 0⟩ size := by
  have hbest : findBest machineVM ⟨m, 0⟩ size = some none := by
    unfold findBest walkHeap walkBlocks
    rw [if_neg]
    show ¬ HEAP_BASE < (HEAP_BASE + 0) % 2^64
    omega
  unfold kmalloc
  rw [hbest, Option.bind_eq_bind, Option.bind_some]

/-- the first block -/
theorem HeapStart.kmalloc {m : Machine} (h : HeapStart m) {size : Nat} (hg : CanGrow m 0 (blockLen size)) :
    ∃ heap, FuseeOS.kmalloc machineVM ⟨m, 0⟩ size = some (HEAP_BASE + HEADER, heap) ∧
      HeapWf machineVM HeapBacked ⟨heap, [(HEAP_BASE + HEADER, size)]⟩ [⟨blockLen size, true⟩] ∧
      heap.vm.pmem.pagesFree + (missing m (HEAP_BASE / 4096) (blockPages size) + blockPages size) =
        m.pmem.pagesFree := by
  have hbound : HEAP_BASE + (0 + blockLen size) < 2^64 := by
    have hroom := hg.room
    unfold HEAP_END at hroom
    omega
  obtain ⟨off, heap, bs, e, hstep, hm, hrep, -⟩ := kmalloc_spec machine_heapVM h.wf.toHeapRep h.wf.maps size
    fun _ => ⟨hbound, hg⟩
  have hgrow : off = 0 ∧ bs = [⟨blockLen size, true⟩] := by
    generalize hnil : ([] : List Blk) = bs₀ at hstep
    cases hstep with
    | reuse l r b => exact absurd hnil (by simp)
    | grow _ hnone =>
      subst hnil
      exact ⟨rfl, rfl⟩
  obtain ⟨rfl, rfl⟩ := hgrow
  have hlive := h.wf.live.alloc (fun b hb => (nomatch hb)) hstep
  rw [Nat.add_zero] at e hlive
  refine ⟨heap, e, ⟨hrep, hm, hlive⟩, ?_⟩
  have enew := (kmalloc_empty m size).symm.trans e
  obtain ⟨m₁, e₁, hp⟩ := makeNewBlock_pmem (h := ⟨m, 0⟩) hbound enew
  obtain ⟨m₂, e₂, -, -, hcount⟩ := h.wf.maps.grow (blockLen_page size).1 hg.pos hg.room hg.reach hg.pages
  obtain rfl := Option.some.inj (e₁.symm.trans e₂)
  rw [hp]
  exact hcount

/-- **Heap and page tables agree in every state of every run** from an empty heap whose calls map and unmap
only ranges that `page_iter` visits whole. -/
theorem heap_mapped (m : Machine) (h : HeapStart m) (ops : List HeapOp)
    (hlegal : Along (heapStep machineVM) HeapLegal ⟨⟨m, 0⟩, []⟩ ops)
    (hroom : Along (heapStep machineVM) HeapRoom ⟨⟨m, 0⟩, []⟩ ops)
    (hreach : Along (heapStep machineVM) HeapReach ⟨⟨m, 0⟩, []⟩ ops) :
    Always (heapStep machineVM) HeapMapped (fun _ _ _ => True) ⟨⟨m, 0⟩, []⟩ ops := by
  have hrun := always_of_step (I := fun s => ∃ bs, HeapWf machineVM HeapBacked s bs)
    (R := fun _ _ _ => True) ?_ ops ⟨⟨m, 0⟩, []⟩ ⟨[], h.wf⟩ (hlegal.and ops _ (hroom.and ops _ hreach))
  · exact hrun.mono (fun _ ⟨_, hs⟩ => hs.mapped) fun _ _ _ _ _ _ => trivial
  · rintro s op ⟨bs, hs⟩ ⟨hl, hr, hv⟩
    obtain ⟨s', bs', e, -, hs'⟩ := heap_step machine_heapVM hs hl (hs.resizeOk hl hr hv)
    exact ⟨s', e, trivial, bs', hs'⟩

/-- headers lie in no table -/
theorem HeapWf.sound {s : HeapState Machine} {bs : List Blk} (h : HeapWf machineVM HeapBacked s bs) :
    HeapSound s.heap bs := by
  refine ⟨h.toHeapTiles, fun x hx t ht => ?_⟩
  have hm := h.maps
  have hin := h.toHeapTiles.inHeap hx
  obtain ⟨j, hj, w, he, hr, hc, hl, hf, -⟩ := hm.word hin
  obtain ⟨t', ht', -, hframe, -⟩ := translate_page hm.plain hr hc (he ▸ hl)
  rw [hm.cpu hin] at ht
  rw [← Option.some.inj (ht'.symm.trans ht), hframe]
  exact hf.table

/-- **A block that `page_iter` does not visit whole** is handed out, and its last page is not mapped. -/
theorem HeapWf.beyond {s : HeapState Machine} {bs : List Blk} (h : HeapWf machineVM HeapBacked s bs) {size : Nat}
    (hfit : ∀ b ∈ bs, ¬ b.Fits size) (hroom : HEAP_BASE + (s.heap.heapSize + blockLen size) ≤ HEAP_END)
    (hspan : InSpan s.heap.endPage (blockPages size))
    (hpages : missing s.heap.vm s.heap.endPage (blockPages size) + blockPages size ≤
      s.heap.vm.pmem.pagesFree) (hno : ¬ Reached s.heap.endPage (blockPages size)) :
    ∃ s', heapStep machineVM s (.kmalloc size) = some s' ∧ ¬ HeapMapped s' := by
  have hm := h.maps
  have hbase := HEAP_BASE_mod
  have hwhole := hm.whole
  have hpos := blockPages_pos size
  have hlen := blockLen_eq size
  have hend : s.heap.endPage = HEAP_BASE / 4096 + s.heap.heapSize / 4096 := by
    show (HEAP_BASE + s.heap.heapSize) / 4096 = _
    omega
  have hcov : covered s.heap.endPage (blockPages size) < blockPages size := by
    refine lt_of_le_of_ne (Nat.min_le_left _ _) fun e => ?_
    exact (covered_eq.mp e).elim hno hpos.ne'
  have hregion : HEAP_BASE / 4096 + s.heap.heapSize / 4096 + blockPages size ≤ HEAP_END / 4096 := by
    rw [hlen] at hroom
    unfold HEAP_END at *
    omega
  obtain ⟨m', enew, acc, -, hpl⟩ := makeNewBlock_account hm.tables h.sound hm.plain hspan
    (fun v hv => heapRegion_tables (hend ▸ Nat.le_add_right _ _) (hend ▸ hregion) hv)
    (le_trans (Nat.add_le_add_left hcov.le _) hpages)
  refine ⟨⟨⟨m', s.heap.heapSize + blockLen size⟩, (HEAP_BASE + s.heap.heapSize + HEADER, size) :: s.live⟩, ?_,
    fun hmapped => ?_⟩
  · show (kmalloc machineVM s.heap size).map _ = _
    rw [kmalloc_new h.toHeapTiles hfit, enew, Option.map_some]
  · -- the last page of the block
    obtain ⟨k, hk⟩ : ∃ k, blockPages size = k + 1 := ⟨blockPages size - 1, by omega⟩
    rw [hk] at hlen hregion hcov
    have hva : (HEAP_BASE + (s.heap.heapSize + k * 4096)) / 4096 =
        HEAP_BASE / 4096 + (s.heap.heapSize / 4096 + k) := by omega
    have hr : HeapRegion (HEAP_BASE / 4096 + (s.heap.heapSize / 4096 + k)) := ⟨by omega, by omega⟩
    have hnone : leaf m' (HEAP_BASE / 4096 + (s.heap.heapSize / 4096 + k)) = none := by
      rw [acc.others]
      · exact hm.above _ (Nat.le_add_right _ _) hr
      · rintro ⟨j, hj, hsame⟩
        rw [hk] at hj
        rw [hend] at hsame
        have hr' : HeapRegion (HEAP_BASE / 4096 + s.heap.heapSize / 4096 + j) := ⟨by omega, by omega⟩
        have := hr.eq hr' hsame
        omega
    obtain ⟨t, ht, -⟩ := hmapped.mapped (HEAP_BASE + (s.heap.heapSize + k * 4096)) (Nat.le_add_right _ _) (by
      show _ < HEAP_BASE + (s.heap.heapSize + blockLen size)
      rw [hlen]
      omega)
    have htr : translate m'.mem m'.cr3 (HEAP_BASE + (s.heap.heapSize + k * 4096)) = none :=
      translate_none hpl (hva ▸ hr) (hva ▸ hnone)
    exact nomatch htr.symm.trans ht

/-! ## a machine with 1024 free pages -/

/-- the boot loader maps nothing in the heap region -/
theorem heapStart_boot {a : PhysicalMemoryAllocator} (ha : PmemInv a)
    (ho : ∀ p, a.Owns p → 0x500000 ≤ p ∧ p < 2^47) : HeapStart { bootMachine with pmem := a } where
  tables := bootTables_with ha ho
  plain := bootMachine_plain
  unmapped v hv := by
    refine entryOf_below (k := 3) (le_refl 3) ?_ (Nat.zero_le 3)
    have hidx : pageIndex v 3 ≠ 511 := by
      intro e
      have e' : v / 512^3 % 512 = 511 := congrArg Fin.val e
      unfold HeapRegion HEAP_BASE HEAP_END at hv
      omega
    show Machine.entry bootMachine [] (pageIndex v 3) = none
    rw [entry_nil, show bootMachine.mem bootMachine.cr3 (pageIndex v 3) = 0 from if_neg hidx]
    rfl

/-- 1024 free pages -/
def heapMachine : Machine := { bootMachine with pmem := freeAlloc 0x1000000 1024 }

theorem heapMachine_start : HeapStart heapMachine :=
  heapStart_boot (freeAlloc_inv (by decide) (by decide) (by decide) (by decide)) fun p hp => by
    have := freeAlloc_owns (show 0 < 1024 by decide) hp
    omega

/-- the first block of a heap may have 511 pages -/
theorem heapMachine_grow {size : Nat} (h : blockPages size ≤ 511) : CanGrow heapMachine 0 (blockLen size) := by
  have hb := blockPages_pos size
  have hmiss := missing_le heapMachine (HEAP_BASE / 4096) (blockPages size)
  have htables : tableCount (blockPages size) = 1 := by
    unfold tableCount
    omega
  have hlen := blockLen_eq size
  refine ⟨(blockLen_page size).2, ?_, ?_, ?_, ?_⟩
  · unfold HEAP_BASE HEAP_END
    omega
  · show missing heapMachine (HEAP_BASE / 4096) (blockPages size) + blockPages size ≤ 1024
    omega
  · show (HEAP_BASE + 0) / 4096 / 512 % 512 + tableCount (blockPages size) ≤ 512
    rw [htables]
    unfold HEAP_BASE
    decide
  · show (HEAP_BASE + 0) / 4096 % 512 + blockPages size ≤ 512 * tableCount (blockPages size)
    rw [htables]
    unfold HEAP_BASE
    omega

section
variable {m : Machine} {size : Nat}

/-- the first call has what it needs -/
theorem CanGrow.first (hg : CanGrow m 0 (blockLen size)) :
    HeapRoom ⟨⟨m, 0⟩, []⟩ (.kmalloc size) ∧ HeapReach ⟨⟨m, 0⟩, []⟩ (.kmalloc size) := by
  have hoff {bs : List Blk} (ht : HeapTiles machineVM ⟨m, 0⟩ bs) {off len : Nat}
      (hr : Resizes bs off len (.kmalloc size)) : off = 0 ∧ len = blockLen size :=
    ⟨hr.2.1.trans ht.size, hr.2.2⟩
  constructor
  · intro bs ht off len hr
    obtain ⟨rfl, rfl⟩ := hoff ht hr
    exact ⟨hg.room, hg.pages⟩
  · intro bs ht off len hr
    obtain ⟨rfl, rfl⟩ := hoff ht hr
    exact hg.reach

end

/-- a block is handed out and given back -/
theorem heap_mapped_one : Always (heapStep machineVM) HeapMapped (fun _ _ _ => True)
    ⟨⟨heapMachine, 0⟩, []⟩ [.kmalloc 100, .kfree (HEAP_BASE + HEADER)] := by
  have hg := heapMachine_grow (show blockPages 100 ≤ 511 by decide)
  obtain ⟨heap, e, hw, -⟩ := heapMachine_start.kmalloc hg
  have hstep : heapStep machineVM ⟨⟨heapMachine, 0⟩, []⟩ (.kmalloc 100) =
      some ⟨heap, [(HEAP_BASE + HEADER, 100)]⟩ := by
    show (kmalloc machineVM ⟨heapMachine, 0⟩ 100).map _ = _
    rw [e, Option.map_some]
  obtain ⟨hroom, hreach⟩ := hg.first
  have hnext {P : HeapState Machine → Prop} (h : P ⟨heap, [(HEAP_BASE + HEADER, 100)]⟩) (s : HeapState Machine)
      (es : heapStep machineVM ⟨⟨heapMachine, 0⟩, []⟩ (.kmalloc 100) = some s) : P s := by
    rw [hstep, Option.some.injEq] at es
    exact es ▸ h
  refine heap_mapped _ heapMachine_start _ ⟨trivial, hnext ⟨.inr (List.mem_singleton_self _), fun _ _ => trivial⟩⟩
    ⟨hroom, hnext ⟨trivial, fun _ _ => trivial⟩⟩ ⟨hreach, hnext ⟨?_, fun _ _ => trivial⟩⟩
  -- the one block is given back
  rintro bs ht off len ⟨l, b, rfl, ha, hoff, hlen⟩
  have hl : l = [] := by
    cases l with
    | nil => rfl
    | cons c l =>
      have hc := (ht.pages c (by simp)).2
      rw [total_cons] at ha
      omega
  subst hl
  have hsize : total Blk.len ([] ++ [b]) = 4096 := ht.size.trans hw.size.symm
  obtain rfl : off = 0 := hoff
  obtain rfl : len = 4096 := by omega
  unfold HEAP_BASE
  decide

theorem blockPages_511 : blockPages (511 * 4096 - 32) = 511 := by
  unfold blockPages blockLen HEADER
  omega

theorem blockPages_two : blockPages 4096 = 2 ∧ blockLen 4096 = 2 * 4096 := by
  unfold blockPages blockLen HEADER
  omega

/-- a heap of 511 pages, and two pages more -/
theorem heapMachine_beyond : ∃ s s', heapStep machineVM ⟨⟨heapMachine, 0⟩, []⟩ (.kmalloc (511 * 4096 - 32)) = some s ∧
    heapStep machineVM s (.kmalloc 4096) = some s' ∧ HeapRoom s (.kmalloc 4096) ∧ ¬ HeapMapped s' := by
  have hpages := blockPages_511
  obtain ⟨htwo, hlen₂⟩ := blockPages_two
  generalize 511 * 4096 - 32 = size at hpages ⊢
  obtain ⟨heap, e, hw, hcount⟩ := heapMachine_start.kmalloc (heapMachine_grow hpages.le)
  have hsize : heap.heapSize = 511 * 4096 := by
    have hlen : blockLen size = 511 * 4096 := by
      rw [blockLen_eq, hpages]
    exact hw.size.symm.trans ((total_singleton _ _).trans hlen)
  have hs : (HEAP_BASE + 511 * 4096) / 4096 = HEAP_BASE / 4096 + 511 := Nat.add_mul_div_right _ _ (by decide)
  have hend : heap.endPage = HEAP_BASE / 4096 + 511 := by
    unfold Heap.endPage
    rw [hsize, hs]
  have htop : HEAP_BASE + (511 * 4096 + 2 * 4096) ≤ HEAP_END := by
    unfold HEAP_BASE HEAP_END
    decide
  -- there are pages enough
  have hfree : missing heap.vm (HEAP_BASE / 4096 + 511) 2 + 2 ≤ heap.vm.pmem.pagesFree := by
    have h1 := missing_le heapMachine (HEAP_BASE / 4096) (blockPages size)
    have h2 := missing_le heap.vm (HEAP_BASE / 4096 + 511) 2
    rw [show heapMachine.pmem.pagesFree = 1024 from rfl, hpages] at hcount
    rw [hpages, show tableCount 511 = 1 from rfl] at h1
    rw [show tableCount 2 = 1 from rfl] at h2
    omega
  have hroom : HeapRoom ⟨heap, [(HEAP_BASE + HEADER, size)]⟩ (.kmalloc 4096) := by
    rintro bs ht off len ⟨-, rfl, rfl⟩
    rw [show total Blk.len bs = 511 * 4096 from ht.size.trans hsize, hs, hlen₂]
    exact ⟨htop, hfree⟩
  -- the one block is used
  have hfit : ∀ b ∈ [(⟨blockLen size, true⟩ : Blk)], ¬ b.Fits 4096 := by
    intro b hb hf
    rw [List.mem_singleton.mp hb] at hf
    exact nomatch hf.1
  have hspan : InSpan heap.endPage (blockPages 4096) := by
    rw [hend, htwo]
    unfold HEAP_BASE
    decide
  have hno : ¬ Reached heap.endPage (blockPages 4096) := by
    rw [hend, htwo]
    unfold HEAP_BASE
    decide
  have htop' : HEAP_BASE + (heap.heapSize + blockLen 4096) ≤ HEAP_END := by
    rw [hsize, hlen₂]
    exact htop
  have hfree' : missing heap.vm heap.endPage (blockPages 4096) + blockPages 4096 ≤ heap.vm.pmem.pagesFree := by
    rw [hend, htwo]
    exact hfree
  obtain ⟨s', e', hbad⟩ := hw.beyond hfit htop' hspan hfree' hno
  refine ⟨_, s', ?_, e', hroom, hbad⟩
  show (kmalloc machineVM ⟨heapMachine, 0⟩ size).map _ = _
  rw [e, Option.map_some]

/-- a heap of 511 pages grows by two: they need one page table, and the second page lies in the next one -/
theorem heap_not_mapped : ¬ ∀ (m : Machine), HeapStart m → ∀ ops,
    Along (heapStep machineVM) HeapLegal ⟨⟨m, 0⟩, []⟩ ops →
    Along (heapStep machineVM) HeapRoom ⟨⟨m, 0⟩, []⟩ ops →
    Always (heapStep machineVM) HeapMapped (fun _ _ _ => True) ⟨⟨m, 0⟩, []⟩ ops := by
  intro hall
  obtain ⟨heap, s₂, e, e₂, hroom, hbad⟩ := heapMachine_beyond
  have hg := heapMachine_grow (show blockPages (511 * 4096 - 32) ≤ 511 from blockPages_511.le)
  obtain ⟨hroom₁, -⟩ := hg.first
  obtain ⟨-, s, es, -, -, s', es', -, hlast⟩ := hall _ heapMachine_start
    [.kmalloc (511 * 4096 - 32), .kmalloc 4096] ⟨trivial, fun _ _ => ⟨trivial, fun _ _ => trivial⟩⟩
    ⟨hroom₁, fun s es => by
      rw [e, Option.some.injEq] at es
      exact es ▸ ⟨hroom, fun _ _ => trivial⟩⟩
  rw [e, Option.some.injEq] at es
  subst es
  rw [e₂, Option.some.injEq] at es'
  subst es'
  exact hbad hlast

end FuseeOS
