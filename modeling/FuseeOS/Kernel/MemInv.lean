import FuseeOS.Kernel.AnonRights

/-!
# Mapped frames over the operations

What all operations on mappings keep: the tables are a tree without surprises, frames of mapped pages are
in use, and a frame that `kmapanon` gave to a page is mapped once.

* `Grown.wellFormed`   tables that are added leave a well-formed tree;
* `MemInv.moved`       one step for all operations;
* `MemInv.kmapanon`, `MemInv.kmap`, `MemInv.kmprotect`, `MemInv.kunmapanon`, `MemInv.unmapLomem`,
  `MemInv.createCr3`   the operations.
-/

namespace FuseeOS
open Radix

/-! ## the way to a page -/

/-- the entries above the lowest level on the way to page `v` point to tables, as far as they are there -/
def PlainWay (m : Machine) (v : Nat) : Prop := ∀ k < 3, ∀ w, entryOf m v (k + 1) = some w → Plain w

section
variable {m m₁ m₂ : Machine} {R : Nat → Prop} {s n v v' k : Nat} {w : BitVec 64}

theorem plainOn_way (m : Machine) : PlainOn (PlainWay m) m := by
  intro v hv k hk w e
  refine hv (2 - k) (by omega) w ?_
  unfold entryOf
  rw [show 3 - (2 - k + 1) = k by omega, show 2 - k + 1 = 3 - k by omega]
  exact e

theorem PlainOn.way (h : PlainOn R m) (hv : R v) : PlainWay m v := by
  intro k hk w e
  refine h v hv (2 - k) (by omega) w ?_
  unfold entryOf at e
  rw [show 3 - (2 - k) = k + 1 by omega]
  rwa [show 3 - (k + 1) = 2 - k by omega] at e

theorem PlainWay.congr (h : PlainWay m v) (e : v' / 512 = v / 512) : PlainWay m v' :=
  fun k hk w hw => h k hk w ((entryOf_congr hk e).symm.trans hw)

/-- a large page has no tables behind it -/
theorem entryOf_large (hk : k < 3) (e : entryOf m v (k + 1) = some w) (hl : large w = true) :
    entryOf m v k = none := by
  have hs : stem v (3 - k) = stem v (3 - (k + 1)) ++ [pageIndex v (k + 1)] := by
    rw [show 3 - k = 3 - (k + 1) + 1 by omega, stem_succ v (by omega),
      show 3 - (3 - (k + 1)) = k + 1 by omega]
  have hnext : next w = none := by
    unfold next
    rw [hl, Bool.not_true, Bool.and_false]
    rfl
  unfold entryOf at e ⊢
  unfold Machine.entry
  rw [hs, nodeAt_succ, e, Option.bind_some, hnext]
  rfl

/-- there are tables on the way to an entry -/
theorem WellFormed.plain_above (h : WellFormed m) {i : Nat} (hi : i < k) (hk : k < 4) {w' : BitVec 64}
    (e : entryOf m v i = some w') (hw : entryOf m v k = some w) : Plain w := by
  obtain ⟨k, rfl⟩ : ∃ j, k = j + 1 := ⟨k - 1, by omega⟩
  refine (h.entry v k (by omega) w hw).resolve_right fun hl => ?_
  have hnone := entryOf_below (by omega) (entryOf_large (by omega) hw hl.1) (show i ≤ k by omega)
  rw [e] at hnone
  exact nomatch hnone

/-- and to a mapped page -/
theorem WellFormed.way (h : WellFormed m) (hl : leaf m v = some w) : PlainWay m v :=
  fun _ hk _ hw => h.plain_above (Nat.succ_pos _) (by omega) hl hw

/-- **Tables that are added leave a well-formed tree.** -/
theorem Grown.wellFormed (h : WellFormed m) (g : Grown (PlainWay m) m m₁) : WellFormed m₁ := by
  refine ⟨g.tables, fun v k hk w e => ?_⟩
  cases e₀ : entryOf m v (k + 1) with
  | some w₀ =>
    have e₁ : entryOf m₁ v (k + 1) = some w₀ := g.kept _ _ w₀ length_stem_le e₀
    rw [e] at e₁
    exact h.entry v k hk w (Option.some.inj e₁ ▸ e₀)
  | none =>
    -- the entry is new: those above it, old or new, lead to it
    refine .inl ((PlainOn.way g.plain fun i hi w' e' => ?_) k hk w e)
    have hki : k < i := by
      by_contra hc
      rw [entryOf_below (by omega) e₀ (show i + 1 ≤ k + 1 by omega)] at e'
      exact nomatch e'
    refine (h.entry v i hi w' e').resolve_right fun hl => ?_
    have e₁ : entryOf m₁ v (i + 1) = some w' := g.kept _ _ w' length_stem_le e'
    have hnone := entryOf_below (by omega) (entryOf_large (by omega) e₁ hl.1) (show k + 1 ≤ i by omega)
    rw [e] at hnone
    exact nomatch hnone

theorem OnlyLeaves.wellFormed (h : WellFormed m₁) (g : OnlyLeaves m₁ s n m₂) : WellFormed m₂ :=
  ⟨g.tables, fun v k hk w e => h.entry v k hk w (g.above v k hk ▸ e)⟩

/-- a machine with the same tables, with less or as much free -/
theorem SameTables.wellFormed (h : WellFormed m) (g : SameTables m m₁) (ht : Tables m₁) : WellFormed m₁ :=
  ⟨ht, fun v k hk w e => h.entry v k hk w ((g.entry _ _ length_stem_le).symm.trans e)⟩

/-! ## pages -/

/-- a table that the pages of a range need has one of the visited pages -/
theorem inTablesOf_visited (hn : 0 < n) (h : InTablesOf s n v) :
    ∃ j < covered s n, v / 512 = (s + j) / 512 := by
  unfold InTablesOf tableCount at h
  unfold covered tableCount
  by_cases h0 : v / 512 = s / 512
  · exact ⟨0, by omega, h0⟩
  · exact ⟨v / 512 * 512 - s, by omega, by omega⟩

/-- pages of canonical addresses -/
def CanonicalPage (v : Nat) : Prop := v < 2^35 ∨ 2^52 - 2^35 ≤ v ∧ v < 2^52

theorem CanonicalPage.eq (h : CanonicalPage v) (h' : CanonicalPage v') (e : SamePage v v') : v = v' := by
  unfold CanonicalPage at *
  unfold SamePage at e
  omega

end

/-! ## the invariant -/

/-- The frame of an anonymous page: the kernel and the processor agree on it, and it is a page of the
allocator and no table. -/
structure AnonFrame (m : Machine) (w : BitVec 64) : Prop where
  phys : physFrame w = frameOf w
  owns : m.pmem.Owns (frameOf w)
  table : ¬ m.IsTable (frameOf w)

/-- `anon` are the pages that `kmapanon` has mapped and `kunmapanon` has not unmapped since. -/
structure MemInv (m : Machine) (anon : Finset Nat) : Prop where
  wf : WellFormed m
  leaves : LeavesUsed m
  canonical : ∀ v ∈ anon, CanonicalPage v
  frames : ∀ v ∈ anon, ∃ w, leaf m v = some w ∧ AnonFrame m w
  once : ∀ v ∈ anon, ∀ u w w', leaf m v = some w → leaf m u = some w' → frameOf w = frameOf w' →
    SamePage u v

/-- entry `w` of page `v` is from before, up to its flags, and the page is none of those given back -/
structure OldLeaf (m : Machine) (gone : Nat → Prop) (v : Nat) (w : BitVec 64) : Prop where
  frame : ∃ w₀, leaf m v = some w₀ ∧ frameOf w = frameOf w₀ ∧ physFrame w = physFrame w₀
  stays : ∀ u, gone u → ¬ SamePage v u

/-- entry `w` leads to a page that was free before -/
structure NewLeaf (m m' : Machine) (w : BitVec 64) : Prop where
  phys : physFrame w = frameOf w
  free : m.pmem.Free (frameOf w)
  used : ¬ m'.pmem.Free (frameOf w)
  table : ¬ m'.IsTable (frameOf w)

/-- What an operation does to the mapped pages: their frames are from before, were free before, or do not
belong to the allocator; and no frame becomes free but those of the pages `gone`. -/
structure Moved (m m' : Machine) (gone : Nat → Prop) : Prop where
  wf : WellFormed m'
  leaf : ∀ v w, FuseeOS.leaf m' v = some w →
    OldLeaf m gone v w ∨ NewLeaf m m' w ∨ ¬ m.pmem.Owns (frameOf w)
  apart : ∀ v u w w', FuseeOS.leaf m' v = some w → FuseeOS.leaf m' u = some w' → NewLeaf m m' w →
    NewLeaf m m' w' → frameOf w = frameOf w' → SamePage u v
  table : ∀ t, m'.IsTable t → m.IsTable t ∨ m.pmem.Free t
  free : ∀ q, m'.pmem.Free q → m.pmem.Free q ∨
    ∃ v w, gone v ∧ FuseeOS.leaf m v = some w ∧ frameOf w = q
  owns : ∀ q, m'.pmem.Owns q ↔ m.pmem.Owns q

section
variable {m m' : Machine} {gone : Nat → Prop} {anon anon' : Finset Nat}

/-- **One step for all operations.** -/
theorem MemInv.moved (h : MemInv m anon) (gone : Nat → Prop) (mv : Moved m m' gone) (hgone : ∀ v, gone v → v ∈ anon)
    (hcan : ∀ v ∈ anon', CanonicalPage v)
    (hanon : ∀ v ∈ anon', ∃ w, leaf m' v = some w ∧ (v ∈ anon ∧ OldLeaf m gone v w ∨ NewLeaf m m' w)) :
    MemInv m' anon' where
  wf := mv.wf
  leaves v w hw hq := by
    rcases mv.leaf v w hw with ⟨⟨w₀, hw₀, hf, -⟩, hstay⟩ | hnew | hout
    · rcases mv.free _ hq with hq | ⟨u, wu, hu, hwu, e⟩
      · exact h.leaves v w₀ hw₀ (hf ▸ hq)
      · exact hstay u hu (h.once u (hgone u hu) v wu w₀ hwu hw₀ (e.trans hf))
    · exact hnew.used hq
    · exact hout ((mv.owns _).mp hq.inBlocks)
  canonical := hcan
  frames v hv := by
    obtain ⟨w, hw, ⟨hold, ⟨w₀, hw₀, hf, hp⟩, -⟩ | hnew⟩ := hanon v hv
    · obtain ⟨w₁, hw₁, ha⟩ := h.frames v hold
      obtain rfl := Option.some.inj (hw₀.symm.trans hw₁)
      refine ⟨w, hw, hp.trans (ha.phys.trans hf.symm), (mv.owns _).mpr (hf ▸ ha.owns), fun ht => ?_⟩
      rw [hf] at ht
      exact (mv.table _ ht).elim ha.table (h.leaves v w₀ hw₀)
    · exact ⟨w, hw, hnew.phys, (mv.owns _).mpr hnew.free.inBlocks, hnew.table⟩
  once v hv u w w' hw hw' e := by
    obtain ⟨w₁, hw₁, hcase⟩ := hanon v hv
    obtain rfl := Option.some.inj (hw.symm.trans hw₁)
    rcases hcase with ⟨hold, ⟨w₀, hw₀, hf, -⟩, -⟩ | hnew
    · obtain ⟨w₂, hw₂, ha⟩ := h.frames v hold
      obtain rfl := Option.some.inj (hw₀.symm.trans hw₂)
      rcases mv.leaf u w' hw' with ⟨⟨w₃, hw₃, hf', -⟩, -⟩ | hnew' | hout
      · exact h.once v hold u w₀ w₃ hw₀ hw₃ (hf.symm.trans (e.trans hf'))
      · -- an old frame is in use, a new one was free
        exact absurd (hf ▸ e ▸ hnew'.free) (h.leaves v w₀ hw₀)
      · exact absurd (e ▸ hf ▸ ha.owns) hout
    · rcases mv.leaf u w' hw' with ⟨⟨w₃, hw₃, hf', -⟩, -⟩ | hnew' | hout
      · exact absurd (hf' ▸ e ▸ hnew.free) (h.leaves u w₃ hw₃)
      · exact mv.apart v u w w' hw hw' hnew hnew' e
      · exact absurd (e ▸ hnew.free.inBlocks) hout

end

/-! ## ranges -/

/-- bytes inside one GiB of one half of the address space -/
structure MemRange (addr size : Nat) : Prop where
  pos : 0 < size
  gib : addr / 2^30 = (addr + size - 1) / 2^30
  half : addr + size ≤ 2^47 ∨ 2^64 - 2^47 ≤ addr ∧ addr + size ≤ 2^64

section
variable {addr size v : Nat}

theorem MemRange.inSpan (h : MemRange addr size) : InSpan (addr / 4096) (pagesIn size) := by
  have h1 := h.gib
  have h3 := h.pos
  unfold InSpan tableCount pagesIn
  omega

theorem MemRange.pages_pos (h : MemRange addr size) : 0 < pagesIn size := by
  have := h.pos
  unfold pagesIn
  omega

theorem MemRange.size_lt (h : MemRange addr size) : size + 4095 < 2^64 := by
  have h1 := h.gib
  omega

theorem MemRange.canonical (h : MemRange addr size) (hv : v ∈ visitedPages addr size) : CanonicalPage v := by
  obtain ⟨j, hj, rfl⟩ := mem_visited.mp hv
  have h1 := h.half
  have h2 := h.pos
  have hle : covered (addr / 4096) (pagesIn size) ≤ (size + 4095) / 4096 := Nat.min_le_left _ _
  unfold CanonicalPage
  omega

/-- the pages of a table that a range needs have tables on their way, if the visited pages have -/
theorem MemRange.way {m : Machine} (h : MemRange addr size)
    (hway : ∀ j < covered (addr / 4096) (pagesIn size), PlainWay m (addr / 4096 + j))
    (hv : InTablesOf (addr / 4096) (pagesIn size) v) : PlainWay m v := by
  obtain ⟨j, hj, e⟩ := inTablesOf_visited h.pages_pos hv
  exact (hway j hj).congr e

end

/-! ## the operations -/

section
variable {m m₁ m₂ m' : Machine} {anon : Finset Nat} {s n addr size v : Nat} {w : BitVec 64}

/-- a mapped page is one of those written, or is mapped as before -/
theorem OnlyLeaves.leaf_cases (g : OnlyLeaves m₁ s n m₂) (hw : FuseeOS.leaf m₂ v = some w) :
    (∃ j < n, SamePage v (s + j) ∧ FuseeOS.leaf m₂ (s + j) = some w) ∨
      (∀ j < n, ¬ SamePage v (s + j)) ∧ FuseeOS.leaf m₁ v = some w := by
  by_cases hs : ∃ j < n, SamePage v (s + j)
  · obtain ⟨j, hj, hsame⟩ := hs
    exact .inl ⟨j, hj, hsame, (hsame.leaf m₂) ▸ hw⟩
  · push Not at hs
    exact .inr ⟨hs, (g.leaf hs) ▸ hw⟩

theorem WellFormed.reload (h : WellFormed m) : WellFormed (reloadCr3 m) := ⟨reload_tables h.toTables, h.entry⟩

/-- the registers and `phys` do not matter -/
theorem MemInv.kmapStart (h : MemInv m anon) (addr phys size : Nat) :
    MemInv (FuseeOS.kmapStart m addr phys size) anon := by
  refine ⟨⟨⟨h.wf.pmem, h.wf.low, h.wf.tree, h.wf.used, h.wf.root⟩, h.wf.entry⟩, h.leaves, h.canonical,
    fun v hv => ?_, h.once⟩
  obtain ⟨w, hw, ha⟩ := h.frames v hv
  exact ⟨w, hw, ha.phys, ha.owns, ha.table⟩

/-- a page of a range that is not mapped is not anonymous -/
theorem MemInv.not_anon (h : MemInv m anon) (hun : NoPages m addr size) (hv : v ∈ anon) {j : Nat}
    (hj : j < covered (addr / 4096) (pagesIn size)) : ¬ SamePage v (addr / 4096 + j) := by
  intro hsame
  obtain ⟨w, hw, -⟩ := h.frames v hv
  rw [hsame.leaf m, h.wf.leaves hun (lt_of_lt_of_le hj (Nat.min_le_left _ _))] at hw
  exact nomatch hw

theorem MemInv.kmapanon (h : MemInv m anon) (prot : Nat) (hr : MemRange addr size)
    (hun : NoPages m addr size)
    (hpages : missing m (addr / 4096) (pagesIn size) + covered (addr / 4096) (pagesIn size) ≤
      m.pmem.pagesFree) :
    ∃ m', FuseeOS.kmapanon m addr size prot = some m' ∧ MemInv m' (anon ∪ visitedPages addr size) := by
  obtain ⟨m₁, m₂, e, g, -, hm⟩ := (kmapanon_spec h.wf.toTables (plainOn_way m) rfl hr.size_lt rfl
    hr.pages_pos hr.inSpan (fun v hv => (h.wf.plain hun).way hv) prot).resolve_right fun hno => by
      have := hno.2
      unfold pagesIn at hpages
      omega
  refine ⟨reloadCr3 m₂, e, ?_⟩
  have wf := (hm.toOnlyLeaves.wellFormed (g.toGrown.wellFormed h.wf)).reload
  obtain ⟨frame, ⟨hleaf, hinj⟩, hframe⟩ := hm.frames
  have hnew : ∀ j < covered (addr / 4096) (pagesIn size), ∃ w, leaf m₂ (addr / 4096 + j) = some w ∧
      frameOf w = frame j ∧ NewLeaf m (reloadCr3 m₂) w := by
    intro j hj
    obtain ⟨w, hw, hp, hf⟩ := hleaf j hj
    refine ⟨w, hw, hf, hp.trans hf.symm, hf ▸ g.free _ (hframe j hj).1, hf ▸ (hframe j hj).2, fun ht => ?_⟩
    exact g.tables.used _ ((isTable_congr hm.node _).mp ht) (hf ▸ (hframe j hj).1)
  have hold {v : Nat} {w : BitVec 64} (hw : leaf m₁ v = some w) : OldLeaf m (fun _ => False) v w :=
    ⟨⟨w, (g.toGrown.leaf v) ▸ hw, rfl, rfl⟩, fun _ hu => hu.elim⟩
  refine h.moved (fun _ => False) ⟨wf, fun v w hw => ?_, fun v u w w' hw hw' hn hn' ef => ?_,
    fun t ht => g.fresh t ((isTable_congr hm.node t).mp ht), fun q hq => .inl (g.free q (hm.free q hq)),
    fun q => (hm.owns q).trans (g.owns q)⟩ (fun v hv => hv.elim) (fun v hv => ?_) fun v hv => ?_
  · rcases hm.toOnlyLeaves.leaf_cases hw with ⟨j, hj, -, hw⟩ | ⟨-, hw⟩
    · obtain ⟨w', hw', -, hn⟩ := hnew j hj
      exact .inr (.inl (Option.some.inj (hw'.symm.trans hw) ▸ hn))
    · exact .inl (hold hw)
  · -- a page that was mapped before has no new frame
    have hvisit {v : Nat} {w : BitVec 64} (hw : leaf m₂ v = some w) (hn : NewLeaf m (reloadCr3 m₂) w) :
        ∃ j < covered (addr / 4096) (pagesIn size), SamePage v (addr / 4096 + j) ∧ frameOf w = frame j := by
      rcases hm.toOnlyLeaves.leaf_cases hw with ⟨j, hj, hsame, hw⟩ | ⟨-, hw⟩
      · obtain ⟨w', hw', hf, -⟩ := hnew j hj
        exact ⟨j, hj, hsame, Option.some.inj (hw'.symm.trans hw) ▸ hf⟩
      · exact absurd hn.free (h.leaves v w ((g.toGrown.leaf v) ▸ hw))
    obtain ⟨i, hi, hv, ei⟩ := hvisit hw hn
    obtain ⟨j, hj, hu, ej⟩ := hvisit hw' hn'
    obtain rfl := hinj i hi j hj (ei.symm.trans (ef.trans ej))
    exact Eq.trans hu (Eq.symm hv)
  · exact (Finset.mem_union.mp hv).elim (h.canonical v) hr.canonical
  · rcases Finset.mem_union.mp hv with hv | hv
    · obtain ⟨w, hw, -⟩ := h.frames v hv
      have e₁ := hm.toOnlyLeaves.leaf fun j hj => h.not_anon hun hv hj
      refine ⟨w, (e₁.trans (g.toGrown.leaf v)).trans hw, .inl ⟨hv, hold ((g.toGrown.leaf v).trans hw)⟩⟩
    · obtain ⟨j, hj, rfl⟩ := mem_visited.mp hv
      obtain ⟨w, hw, -, hn⟩ := hnew j hj
      exact ⟨w, hw, .inr hn⟩

/-- the frame that `kmap` gives to page `j`, as the processor reads it -/
def kmapFrame (phys j : Nat) : Nat := (phys - phys % 4096 + 4096 * j) % 2^52

/-- a page address keeps its low 52 bits in an entry -/
theorem frameOf_map {p : Nat} (hp : p % 4096 = 0) {flags : BitVec 64} (hf : IsFlags flags) :
    frameOf (BitVec.ofNat 64 p ||| flags) = p % 2^52 := by
  apply Nat.eq_of_testBit_eq
  intro i
  unfold frameOf
  rw [BitVec.testBit_toNat, BitVec.getLsbD_and, Nat.testBit_mod_two_pow]
  by_cases h64 : i < 64
  · rw [getLsbD_frameMask i h64, BitVec.getLsbD_or, BitVec.getLsbD_ofNat, decide_eq_true h64, Bool.true_and]
    by_cases h12 : i < 12
    · have hn : ¬ (12 ≤ i ∧ i < 52) := by omega
      have hz : (p % 2^12).testBit i = false := by
        rw [show p % 2^12 = 0 from hp]
        exact Nat.zero_testBit i
      rw [Nat.testBit_mod_two_pow, decide_eq_true h12, Bool.true_and] at hz
      rw [decide_eq_false hn, Bool.and_false, hz, Bool.and_false]
    · by_cases h52 : i < 52
      · rw [hf.bit (.inl ⟨by omega, by omega⟩), Bool.or_false, decide_eq_true ⟨by omega, h52⟩,
          decide_eq_true h52, Bool.and_true, Bool.true_and]
      · have hn : ¬ (12 ≤ i ∧ i < 52) := by omega
        rw [decide_eq_false hn, decide_eq_false h52, Bool.and_false, Bool.false_and]
  · have hn : ¬ i < 52 := by omega
    rw [BitVec.getLsbD_of_ge _ i (by omega), Bool.false_and, decide_eq_false hn, Bool.false_and]

theorem MemInv.kmap (h : MemInv m anon) {phys : Nat} (prot : Nat)
    (hr : MemRange (kmapAddr m addr size) size) (hun : NoPages m (kmapAddr m addr size) size)
    (hphys : phys < 2^64)
    (hdev : ∀ j < covered (kmapAddr m addr size / 4096) (pagesIn size), ¬ m.pmem.Owns (kmapFrame phys j))
    (hpages : missing m (kmapAddr m addr size / 4096) (pagesIn size) ≤ m.pmem.pagesFree) :
    ∃ x, FuseeOS.kmap m addr phys size prot = some x ∧ MemInv x.2 anon := by
  have h₀ := h.kmapStart addr phys size
  have hway : ∀ v, InTablesOf (kmapAddr m addr size / 4096) (pagesIn size) v → PlainWay m v :=
    fun v hv => (h.wf.plain hun).way hv
  obtain ⟨m₁, m₂, e, g, -, hm⟩ := (kmap_spec h.wf.toTables (plainOn_way m) rfl hr.size_lt rfl
    hr.pages_pos hr.inSpan hway hphys prot).resolve_right fun hno => absurd hno.2 (Nat.not_lt.mpr hpages)
  refine ⟨_, e, ?_⟩
  have wf := (hm.toOnlyLeaves.wellFormed (g.toGrown.wellFormed h₀.wf)).reload
  have hframe : ∀ j < covered (kmapAddr m addr size / 4096) (pagesIn size), ∀ w,
      leaf m₂ (kmapAddr m addr size / 4096 + j) = some w → ¬ m.pmem.Owns (frameOf w) := by
    intro j hj w hw
    have hp : m₁.phys = phys - phys % 4096 := g.phys
    rw [hm.mapped j hj, Option.some.injEq] at hw
    rw [← hw, hp, frameOf_map (by omega) (pageFlags m prot)]
    have hmod : (phys - phys % 4096 + 4096 * j) % 2^64 % 2^52 = kmapFrame phys j := by
      unfold kmapFrame
      omega
    rw [hmod]
    exact hdev j hj
  have hold {v : Nat} {w : BitVec 64} (hw : leaf m₁ v = some w) :
      OldLeaf (FuseeOS.kmapStart m addr phys size) (fun _ => False) v w :=
    ⟨⟨w, (g.toGrown.leaf v) ▸ hw, rfl, rfl⟩, fun _ hu => hu.elim⟩
  have hnone {w : BitVec 64} (hn : NewLeaf (FuseeOS.kmapStart m addr phys size) (reloadCr3 m₂) w) : False := by
    refine hn.used ?_
    show m₂.pmem.Free _
    rw [hm.pmem]
    rcases g.taken _ hn.free with hq | ht
    · exact hq
    · exact absurd ((isTable_congr hm.node _).mpr ht) hn.table
  refine h₀.moved (fun _ => False) ⟨wf, fun v w hw => ?_, fun v u w w' _ _ hn _ _ => (hnone hn).elim,
    fun t ht => g.fresh t ((isTable_congr hm.node t).mp ht),
    fun q hq => .inl (g.free q (hm.pmem ▸ (hq : m₂.pmem.Free q))), fun q => ?_⟩ (fun v hv => hv.elim)
    h.canonical fun v hv => ?_
  · rcases hm.toOnlyLeaves.leaf_cases hw with ⟨j, hj, -, hw⟩ | ⟨-, hw⟩
    · exact .inr (.inr (hframe j hj w hw))
    · exact .inl (hold hw)
  · rw [show (reloadCr3 m₂).pmem = m₁.pmem from hm.pmem]
    exact g.owns q
  · obtain ⟨w, hw, -⟩ := h.frames v hv
    have hl := (g.toGrown.leaf v).trans hw
    have e₁ := hm.toOnlyLeaves.leaf fun j hj => h.not_anon hun hv hj
    exact ⟨w, e₁.trans hl, .inl ⟨hv, hold hl⟩⟩

theorem MemInv.kmprotect (h : MemInv m anon) (prot : Nat) (hr : MemRange addr size)
    (hmap : ∀ v ∈ visitedPages addr size, (leaf m v).isSome) :
    ∃ m', FuseeOS.kmprotect m addr size prot = some m' ∧ MemInv m' anon := by
  have hsome : ∀ j < covered (addr / 4096) (pagesIn size), (leaf m (addr / 4096 + j)).isSome :=
    fun j hj => hmap _ (mem_visited.mpr ⟨j, hj, rfl⟩)
  have hway : ∀ v, InTablesOf (addr / 4096) (pagesIn size) v → PlainWay m v := fun v hv =>
    hr.way (fun j hj => h.wf.way (Option.get_mem (hsome j hj))) hv
  obtain ⟨m₂, e, g⟩ := kmprotect_spec h.wf.toTables (plainOn_way m) rfl hr.size_lt rfl hr.pages_pos
    hr.inSpan hway prot hsome
  refine ⟨reloadCr3 m₂, e, ?_⟩
  have wf := (g.toOnlyLeaves.wellFormed h.wf).reload
  -- every mapped page has its frame
  have hold {v : Nat} {w : BitVec 64} (hw : leaf m₂ v = some w) : OldLeaf m (fun _ => False) v w := by
    refine ⟨?_, fun _ hu => hu.elim⟩
    rcases g.toOnlyLeaves.leaf_cases hw with ⟨j, hj, hsame, hw⟩ | ⟨-, hw⟩
    · rw [g.changed j hj, Option.map_eq_some_iff] at hw
      obtain ⟨w₀, hw₀, rfl⟩ := hw
      exact ⟨w₀, (hsame.leaf m).trans hw₀, frameOf_setProt m prot w₀, physFrame_setProt m prot w₀⟩
    · exact ⟨w, hw, rfl, rfl⟩
  refine h.moved (fun _ => False) ⟨wf, fun v w hw => .inl (hold hw),
    fun v u w w' hw _ hn _ _ => ?_, fun t ht => .inl ((isTable_congr g.node t).mp ht),
    fun q hq => .inl (g.pmem ▸ (hq : m₂.pmem.Free q)), fun q => ?_⟩ (fun v hv => hv.elim) h.canonical fun v hv => ?_
  · obtain ⟨w₀, hw₀, hf, -⟩ := (hold hw).frame
    exact absurd (hf ▸ hn.free) (h.leaves v w₀ hw₀)
  · rw [show (reloadCr3 m₂).pmem = m.pmem from g.pmem]
  · obtain ⟨w, hw, -⟩ := h.frames v hv
    have hs : (leaf m₂ v).isSome := by
      by_cases hvis : ∃ j < covered (addr / 4096) (pagesIn size), SamePage v (addr / 4096 + j)
      · obtain ⟨j, hj, hsame⟩ := hvis
        rw [hsame.leaf m₂, g.changed j hj, Option.isSome_map]
        exact hsome j hj
      · push Not at hvis
        rw [g.toOnlyLeaves.leaf hvis, hw]
        rfl
    obtain ⟨w', hw'⟩ := Option.isSome_iff_exists.mp hs
    exact ⟨w', hw', .inl ⟨hv, hold hw'⟩⟩

theorem MemInv.kunmapanon (h : MemInv m anon) (hr : MemRange addr size)
    (hanon : visitedPages addr size ⊆ anon) :
    ∃ m', FuseeOS.kunmapanon m addr size = some m' ∧ MemInv m' (anon \ visitedPages addr size) := by
  have hback : ∀ j < covered (addr / 4096) (pagesIn size), ∃ f w, leaf m (addr / 4096 + j) = some w ∧
      AnonFrame m w ∧ frameOf w = f := by
    intro j hj
    obtain ⟨w, hw, ha⟩ := h.frames _ (hanon (mem_visited.mpr ⟨j, hj, rfl⟩))
    exact ⟨_, w, hw, ha, rfl⟩
  choose! frame hback using hback
  have hway : ∀ v, InTablesOf (addr / 4096) (pagesIn size) v → PlainWay m v := fun v hv => by
    refine hr.way (fun j hj => ?_) hv
    obtain ⟨w, hw, -⟩ := hback j hj
    exact h.wf.way hw
  have hleaf : ∀ j < covered (addr / 4096) (pagesIn size), ∃ w, leaf m (addr / 4096 + j) = some w ∧
      (w &&& MMASK_PHYS).toNat = frame j := fun j hj => by
    obtain ⟨w, hw, ha, hf⟩ := hback j hj
    exact ⟨w, hw, ha.phys.trans hf⟩
  obtain ⟨m₂, e, g⟩ := kunmapanon_spec h.wf.toTables (plainOn_way m) rfl hr.size_lt rfl hr.pages_pos hr.inSpan
    hway hleaf
    (fun j hj => by
      obtain ⟨w, hw, ha, hf⟩ := hback j hj
      exact ⟨hf ▸ ha.owns, hf ▸ h.leaves _ w hw, hf ▸ ha.table⟩)
    (fun i hi j hj eij => by
      obtain ⟨w, hw, -, hf⟩ := hback i hi
      obtain ⟨w', hw', -, hf'⟩ := hback j hj
      have hi' := mem_visited.mpr ⟨i, hi, rfl⟩
      have hj' := mem_visited.mpr ⟨j, hj, rfl⟩
      have hsame := h.once _ (hanon hi') _ w w' hw hw' (hf.trans (eij.trans hf'.symm))
      have heq := (h.canonical _ (hanon hj')).eq (h.canonical _ (hanon hi')) hsame
      omega)
  refine ⟨reloadCr3 m₂, e, ?_⟩
  have wf := (g.toOnlyLeaves.wellFormed h.wf).reload
  have hold {v : Nat} {w : BitVec 64} (hw : leaf m₂ v = some w) :
      OldLeaf m (· ∈ visitedPages addr size) v w := by
    rcases g.toOnlyLeaves.leaf_cases hw with ⟨j, hj, -, hw⟩ | ⟨hno, hw⟩
    · rw [g.unmapped j hj] at hw
      exact nomatch hw
    · refine ⟨⟨w, hw, rfl, rfl⟩, fun u hu => ?_⟩
      obtain ⟨j, hj, rfl⟩ := mem_visited.mp hu
      exact hno j hj
  refine h.moved (· ∈ visitedPages addr size) ⟨wf, fun v w hw => .inl (hold hw),
    fun v u w w' hw _ hn _ _ => ?_, fun t ht => .inl ((isTable_congr g.node t).mp ht), fun q hq => ?_,
    g.owns⟩ (fun v hv => hanon hv) (fun v hv => h.canonical v (Finset.mem_sdiff.mp hv).1) fun v hv => ?_
  · obtain ⟨w₀, hw₀, hf, -⟩ := (hold hw).frame
    exact absurd (hf ▸ hn.free) (h.leaves v w₀ hw₀)
  · rcases (g.free q).mp hq with hq | ⟨j, hj, rfl⟩
    · exact .inl hq
    · obtain ⟨w, hw, -, hf⟩ := hback j hj
      exact .inr ⟨_, w, mem_visited.mpr ⟨j, hj, rfl⟩, hw, hf⟩
  · obtain ⟨hv, hn⟩ := Finset.mem_sdiff.mp hv
    obtain ⟨w, hw, -⟩ := h.frames v hv
    have e₁ : leaf m₂ v = some w := by
      refine (g.toOnlyLeaves.leaf fun j hj hsame => hn ?_).trans hw
      have hj' := mem_visited.mpr ⟨j, hj, rfl⟩
      exact (h.canonical v hv).eq (hr.canonical hj') hsame ▸ hj'
    exact ⟨w, e₁, .inl ⟨hv, hold e₁⟩⟩

/-- `unmap_lomem` only takes entries away -/
theorem entryOf_lomem (h : Tables m) (v : Nat) {k : Nat} (hk : k ≤ 3) :
    entryOf (FuseeOS.unmapLomem m) v k = if (pageIndex v 3).val < 128 then none else entryOf m v k := by
  have c := unmapLomem_spec h
  by_cases hv : (pageIndex v 3).val < 128
  · have htop : entryOf (FuseeOS.unmapLomem m) v 3 = none := by
      have hword : (FuseeOS.unmapLomem m).mem (FuseeOS.unmapLomem m).cr3 (pageIndex v 3) = 0 := by
        show (FuseeOS.unmapLomem m).mem m.cr3 (pageIndex v 3) = 0
        unfold FuseeOS.unmapLomem
        simp only [Function.update_self, if_pos hv]
      show (FuseeOS.unmapLomem m).entry [] (pageIndex v 3) = none
      rw [entry_nil, hword]
      rfl
    rw [if_pos hv]
    exact entryOf_below (le_refl 3) htop hk
  · rw [if_neg hv]
    have hidx : 128 ≤ (pageIndex v 3).val := Nat.not_lt.mp hv
    match k, hk with
    | 0, _ => exact c.below _ _ _ hidx (le_refl 2)
    | 1, _ => exact c.below _ _ _ hidx (Nat.le_succ 1)
    | 2, _ => exact c.below _ _ _ hidx (Nat.zero_le 2)
    | 3, _ =>
      show (FuseeOS.unmapLomem m).entry [] _ = m.entry [] _
      rw [entry_nil, entry_nil, c.top _ hidx]

theorem MemInv.unmapLomem (h : MemInv m anon) (hup : ∀ v ∈ anon, 128 ≤ (pageIndex v 3).val) :
    MemInv (FuseeOS.unmapLomem m) anon := by
  have c := unmapLomem_spec h.wf.toTables
  have hentry (v : Nat) {k : Nat} (hk : k ≤ 3) {w : BitVec 64}
      (hw : entryOf (FuseeOS.unmapLomem m) v k = some w) : entryOf m v k = some w := by
    rw [entryOf_lomem h.wf.toTables v hk] at hw
    by_cases hv : (pageIndex v 3).val < 128
    · rw [if_pos hv] at hw
      exact nomatch hw
    · rwa [if_neg hv] at hw
  have hold {v : Nat} {w : BitVec 64} (hw : leaf (FuseeOS.unmapLomem m) v = some w) :
      OldLeaf m (fun _ => False) v w := ⟨⟨w, hentry v (Nat.zero_le 3) hw, rfl, rfl⟩, fun _ hu => hu.elim⟩
  refine h.moved (fun _ => False) ⟨⟨c.tables, fun v k hk w hw => h.wf.entry v k hk w (hentry v (by omega) hw)⟩,
    fun v w hw => .inl (hold hw), fun v u w w' hw _ hn _ _ => ?_, fun t ht => .inl (c.fewer t ht),
    fun q hq => .inl hq, fun _ => Iff.rfl⟩ (fun v hv => hv.elim) h.canonical fun v hv => ?_
  · exact absurd hn.free (h.leaves v w (hentry v (Nat.zero_le 3) hw))
  · obtain ⟨w, hw, -⟩ := h.frames v hv
    have e : leaf (FuseeOS.unmapLomem m) v = some w := by
      refine (entryOf_lomem h.wf.toTables v (Nat.zero_le 3)).trans ?_
      rw [if_neg (Nat.not_lt.mpr (hup v hv))]
      exact hw
    exact ⟨w, e, .inl ⟨hv, hold e⟩⟩

/-- pages that are no tables are written, and pages are taken -/
theorem MemInv.sameTables (h : MemInv m anon) (c : SameTables m m') (hinv : PmemInv m'.pmem)
    (howns : ∀ q, m'.pmem.Owns q ↔ m.pmem.Owns q) (hfree : ∀ q, m'.pmem.Free q → m.pmem.Free q) :
    MemInv m' anon := by
  have hleaf (v : Nat) : leaf m' v = leaf m v := c.entry _ _ length_stem_le
  have htab : ∀ t, m'.IsTable t ↔ m.IsTable t := isTable_congr c.node
  refine ⟨c.wellFormed h.wf (c.tables h.wf.toTables hinv (fun q => (howns q).mp) hfree),
    fun v w hw hq => h.leaves v w (hleaf v ▸ hw) (hfree _ hq), h.canonical, fun v hv => ?_,
    fun v hv u w w' hw hw' => h.once v hv u w w' (hleaf v ▸ hw) (hleaf u ▸ hw')⟩
  obtain ⟨w, hw, ha⟩ := h.frames v hv
  exact ⟨w, (hleaf v).trans hw, ha.phys, (howns _).mpr ha.owns, fun ht => ha.table ((htab _).mp ht)⟩

theorem MemInv.createCr3 (h : MemInv m anon) (hpages : 0 < m.pmem.pagesFree) :
    ∃ x, FuseeOS.createCr3 m = some x ∧ MemInv x.2 anon := by
  rcases createCr3_spec h.wf.toTables with ⟨r, m', e, c⟩ | ⟨-, h0⟩
  · exact ⟨(r, m'), e, h.sameTables c.toSameTables c.taken.inv c.taken.owns fun q hq =>
      ((c.taken.free q).mp hq).1⟩
  · omega

/-- a word of a page that is no table -/
theorem MemInv.setWord (h : MemInv m anon) {p : Nat} (hp : ¬ m.IsTable p) (i : Fin 512) (w : BitVec 64) :
    MemInv (m.setWord p i w) anon := by
  refine h.sameTables ⟨⟨rfl, rfl, rfl, rfl⟩, fun f hf => ?_⟩ h.wf.pmem (fun _ => Iff.rfl) fun _ hq => hq
  exact setWord_node_ne _ _ _ fun e => hp (e ▸ hf)

end

end FuseeOS
