import Mathlib.Data.Set.Card
import FuseeOS.Kernel.PageIter
import FuseeOS.Kernel.SpaceRun

/-!
# Anonymous pages

`kmapanon` and `kunmapanon` over a range of which no page is mapped.

* `WellFormed.plain`      no large page is in the way of such a range;
* `ncard_free`            `pages_free` is the number of free pages;
* `kunmapanon_undoes`     what the one maps, the other unmaps and gives back.
-/

namespace FuseeOS
open Radix

/-! ## ranges that are not mapped -/

/-- A tree of tables.  Every entry above the lowest level is a large page of 1 GiB or 2 MiB, or points to a
table that the kernel and the processor find at the same place. -/
structure WellFormed (m : Machine) : Prop extends Tables m where
  entry : ∀ v k, k < 3 → ∀ w, entryOf m v (k + 1) = some w → Plain w ∨ large w = true ∧ k < 2

/-- The four levels lead to no page at the 48 low bits of `va`; for a canonical address this says that
`translate` is `none`. -/
def NoPage (m : Machine) (va : Nat) : Prop := translateFrom m.mem va 3 m.cr3 ⟨0, true, true, false⟩ = none

theorem noPage_iff {m : Machine} {va : Nat} (hc : canonical va) :
    NoPage m va ↔ translate m.mem m.cr3 va = none := by
  unfold NoPage translate
  rw [if_pos hc]

section
variable {m m' : Machine} {v v' va k s n addr size : Nat}

/-- pages of one lowest table have the entries above it in common -/
theorem entryOf_congr (hk : k < 3) (h : v / 512 = v' / 512) : entryOf m v (k + 1) = entryOf m v' (k + 1) := by
  have hpow : v / 512^(k + 1) = v' / 512^(k + 1) := by
    rw [Nat.pow_succ', ← Nat.div_div_eq_div_mul, ← Nat.div_div_eq_div_mul, h]
  have hstem : stem v (3 - (k + 1)) = stem v' (3 - (k + 1)) := by
    refine stem_congr (by omega) ?_
    rw [show 4 - (3 - (k + 1)) = 1 + (k + 1) by omega, Nat.pow_add, Nat.pow_one, ← Nat.div_div_eq_div_mul,
      ← Nat.div_div_eq_div_mul, h]
  have hidx : pageIndex v (k + 1) = pageIndex v' (k + 1) := by
    apply Fin.ext
    show v / 512^(k + 1) % 512 = v' / 512^(k + 1) % 512
    rw [hpow]
  unfold entryOf
  rw [hstem, hidx]

/-- behind an absent entry there are no others -/
theorem entryOf_below (hk : k ≤ 3) (e : entryOf m v k = none) {i : Nat} (hi : i ≤ k) :
    entryOf m v i = none := by
  induction k with
  | zero => exact (Nat.le_zero.mp hi) ▸ e
  | succ k ih =>
    rcases Nat.lt_or_eq_of_le hi with hlt | rfl
    · exact ih (by omega) (entryOf_none (by omega) e) (by omega)
    · exact e

/-- the walk finds no page: by induction on the levels that are left -/
theorem WellFormed.walk_none (h : WellFormed m) (hk : k ≤ 3) (perm : Translation)
    (e : walkFrom va (entryOf m (va / 4096)) k perm = none) :
    (∀ i < k, ∀ w, entryOf m (va / 4096) (i + 1) = some w → Plain w) ∧ leaf m (va / 4096) = none := by
  induction k generalizing perm with
  | zero =>
    refine ⟨fun i hi => absurd hi (Nat.not_lt_zero i), ?_⟩
    unfold walkFrom at e
    rw [← entryOf_zero]
    exact Option.map_eq_none_iff.mp e
  | succ k ih =>
    cases he : entryOf m (va / 4096) (k + 1) with
    | none =>
      refine ⟨fun i hi w hw => ?_, entryOf_below (by omega) he (Nat.zero_le _)⟩
      rw [entryOf_below (by omega) he (by omega)] at hw
      cases hw
    | some w =>
      unfold walkFrom at e
      rw [he, Option.bind_some] at e
      have hplain : Plain w := by
        refine (h.entry _ k (by omega) w he).resolve_right fun hl => ?_
        rw [if_pos hl.1, if_neg (by omega)] at e
        cases e
      rw [hplain.small, if_neg Bool.false_ne_true] at e
      obtain ⟨habove, hleaf⟩ := ih (by omega) _ e
      refine ⟨fun i hi w' hw' => ?_, hleaf⟩
      by_cases hik : i = k
      · rw [hik, he] at hw'
        exact Option.some.inj hw' ▸ hplain
      · exact habove i (by omega) w' hw'

theorem WellFormed.noPage (h : WellFormed m) (e : NoPage m va) :
    (∀ i < 3, ∀ w, entryOf m (va / 4096) (i + 1) = some w → Plain w) ∧ leaf m (va / 4096) = none :=
  h.walk_none (le_refl 3) _ ((translateFrom_walk 3 m.cr3 _ (le_refl 3) rfl).symm.trans e)

/-- no page of the range is mapped -/
def NoPages (m : Machine) (addr size : Nat) : Prop := ∀ va, addr ≤ va → va < addr + size → NoPage m va

/-- the page `j` of a range -/
theorem NoPages.page (h : NoPages m addr size) {j : Nat}
    (hj : j < (size + 4095) / 4096) : ∃ va, NoPage m va ∧ va / 4096 = addr / 4096 + j := by
  by_cases h0 : j = 0
  · exact ⟨addr, h addr (le_refl _) (by omega), by omega⟩
  · exact ⟨(addr / 4096 + j) * 4096, h _ (by omega) (by omega), by omega⟩

/-- **No large page is in the way of a range that is not mapped.** -/
theorem WellFormed.plain (h : WellFormed m) (hun : NoPages m addr size) :
    PlainOn (InTablesOf (addr / 4096) ((size + 4095) / 4096)) m := by
  intro v hv k hk w hw
  -- the first page of the range in the same table
  obtain ⟨j, hj, e⟩ : ∃ j < (size + 4095) / 4096, v / 512 = (addr / 4096 + j) / 512 := by
    unfold InTablesOf tableCount at hv
    by_cases h0 : v / 512 = addr / 4096 / 512
    · exact ⟨0, by omega, h0⟩
    · exact ⟨v / 512 * 512 - addr / 4096, by omega, by omega⟩
  obtain ⟨va, hva, hpage⟩ := hun.page hj
  have he : entryOf m v (2 - k + 1) = some w := by
    unfold entryOf
    rw [show 3 - (2 - k + 1) = k by omega, show 2 - k + 1 = 3 - k by omega]
    exact hw
  rw [entryOf_congr (by omega) (e.trans (congrArg (· / 512) hpage.symm))] at he
  exact (h.noPage hva).1 (2 - k) (by omega) w he

theorem WellFormed.leaves (h : WellFormed m) (hun : NoPages m addr size) {j : Nat}
    (hj : j < (size + 4095) / 4096) : leaf m (addr / 4096 + j) = none := by
  obtain ⟨va, hva, hpage⟩ := hun.page hj
  exact hpage ▸ (h.noPage hva).2

/-- machines with the same entries translate alike -/
theorem translate_entries (h : ∀ p i, p.length ≤ 3 → m'.entry p i = m.entry p i) (va : Nat) :
    translate m'.mem m'.cr3 va = translate m.mem m.cr3 va := by
  have e : entryOf m' (va / 4096) = entryOf m (va / 4096) := funext fun k => h _ _ length_stem_le
  rw [translate_walk, translate_walk, e]

end

/-! ## the number of free pages -/

theorem finite_free (ls : List PhysicalMemoryBlock) : {p | FreePage ls p}.Finite := by
  induction ls with
  | nil =>
    refine Set.finite_empty.subset ?_
    rintro p ⟨b, hb, -⟩
    exact absurd hb List.not_mem_nil
  | cons b ls ih =>
    refine ((b.clearBits.finite_toSet.image b.page).union ih).subset fun p hp => ?_
    rcases (freePage_cons b ls p).mp hp with ⟨k, hk, rfl, hg⟩ | hp
    · exact .inl ⟨k, (mem_clearBits b k).mpr ⟨hk, hg⟩, rfl⟩
    · exact .inr hp

/-- blocks that are apart have no page in common -/
theorem ncard_freePage {ls : List PhysicalMemoryBlock} (h : ls.Pairwise PhysicalMemoryBlock.Apart) :
    {p | FreePage ls p}.ncard = clearCount ls := by
  induction ls with
  | nil =>
    refine Set.ncard_eq_zero (finite_free []) |>.mpr (Set.eq_empty_of_forall_notMem ?_)
    rintro p ⟨b, hb, -⟩
    exact absurd hb List.not_mem_nil
  | cons b ls ih =>
    obtain ⟨hb, hls⟩ := List.pairwise_cons.mp h
    have hsplit : {p | FreePage (b :: ls) p} = b.page '' ↑b.clearBits ∪ {p | FreePage ls p} := by
      ext p
      refine (freePage_cons b ls p).trans ?_
      refine or_congr ⟨?_, ?_⟩ Iff.rfl
      · rintro ⟨k, hk, rfl, hg⟩
        exact ⟨k, (mem_clearBits b k).mpr ⟨hk, hg⟩, rfl⟩
      · rintro ⟨k, hk, rfl⟩
        obtain ⟨h1, h2⟩ := (mem_clearBits b k).mp hk
        exact ⟨k, h1, rfl, h2⟩
    have hdisj : Disjoint (b.page '' ↑b.clearBits) {p | FreePage ls p} := by
      rw [Set.disjoint_left]
      rintro p ⟨k, hk, rfl⟩ ⟨c, hc, j, hj, e, -⟩
      have hk' := ((mem_clearBits b k).mp hk).1
      have hbc := hb c hc
      unfold PhysicalMemoryBlock.Apart at hbc
      unfold PhysicalMemoryBlock.page at e
      omega
    have hinj : Function.Injective b.page := by
      intro i j e
      unfold PhysicalMemoryBlock.page at e
      omega
    rw [hsplit, Set.ncard_union_eq hdisj (b.clearBits.finite_toSet.image _) (finite_free ls), ih hls,
      Set.ncard_image_of_injective _ hinj, Set.ncard_coe_finset]
    rfl

theorem ncard_free {a : PhysicalMemoryAllocator} (h : PmemInv a) : {p | a.Free p}.ncard = a.pagesFree :=
  (ncard_freePage h.layout.disjoint).trans h.pages.symm

/-! ## mapping and unmapping -/

/-- the page tables that `m'` has and `m` has not -/
def newTables (m m' : Machine) : Set Nat := {t | m'.IsTable t ∧ ¬ m.IsTable t}

/-- The frames of the `n` pages from page `s` on, which are given back one after the other: all of them are
in use, and no two are the same. -/
structure FreedOnce (m : Machine) (s n : Nat) : Prop where
  used : ∀ j < n, ∃ f, frameAt m (s + j) = some f ∧ m.pmem.Owns f ∧ ¬ m.pmem.Free f
  once : ∀ i < n, ∀ j < n, frameAt m (s + i) = frameAt m (s + j) → i = j

/-- `frame j` is the frame of page `s + j`, and no two are the same. -/
structure Frames (m : Machine) (s n : Nat) (frame : Nat → Nat) : Prop where
  leaf : ∀ j < n, ∃ w, leaf m (s + j) = some w ∧ physFrame w = frame j ∧ frameOf w = frame j
  apart : ∀ i < n, ∀ j < n, frame i = frame j → i = j

/-- Tables are added to `m`, and of these `n` pages are mapped, then unmapped. -/
structure Undone (R : Nat → Prop) (m m₁ m₂ m₃ : Machine) (s n : Nat) (flags : BitVec 64) (frame : Nat → Nat) :
    Prop where
  added : TablesAdded R m m₁
  mapped : FreshMapped m₁ s n flags m₂
  frames : Frames m₂ s n frame
  fresh : ∀ j < n, m₁.pmem.Free (frame j) ∧ ¬ m₂.pmem.Free (frame j)
  unmapped : Unmapped (reloadCr3 m₂) s n frame m₃

section
variable {m m₁ m₂ m₃ : Machine} {R : Nat → Prop} {s n addr size prot : Nat} {flags : BitVec 64}
  {frame : Nat → Nat}

/-- the frames of the pages that were mapped -/
theorem FreshMapped.frames (g : FreshMapped m₁ s n (X86_PAGE_PRESENT ||| pageProtFlags m prot) m₂) :
    ∃ frame : Nat → Nat, Frames m₂ s n frame ∧
      ∀ j < n, m₁.pmem.Free (frame j) ∧ ¬ m₂.pmem.Free (frame j) := by
  have hex : ∀ j < n, ∃ p, (∃ w, leaf m₂ (s + j) = some w ∧ physFrame w = p ∧ frameOf w = p) ∧
      m₁.pmem.Free p ∧ ¬ m₂.pmem.Free p := by
    intro j hj
    obtain ⟨p, hp, h1, h2, h3, h4⟩ := g.mapped j hj
    exact ⟨p, ⟨_, hp, physFrame_entry h1 h2 m prot, frameOf_entry h1 h2 (pageFlags m prot)⟩, h3, h4⟩
  choose! frame hleaf hfree using hex
  refine ⟨frame, ⟨hleaf, fun i hi j hj e => ?_⟩, hfree⟩
  obtain ⟨w, hw, -, hf⟩ := hleaf i hi
  obtain ⟨w', hw', -, hf'⟩ := hleaf j hj
  exact g.apart i j w w' hi hj hw hw' (hf.trans (e.trans hf'.symm))

theorem Frames.freedOnce (h : Frames m s n frame)
    (hown : ∀ j < n, m.pmem.Owns (frame j) ∧ ¬ m.pmem.Free (frame j)) : FreedOnce m s n := by
  have hframe : ∀ j < n, frameAt m (s + j) = some (frame j) := by
    intro j hj
    obtain ⟨w, hw, hf, -⟩ := h.leaf j hj
    unfold frameAt
    rw [hw, Option.map_some, hf]
  refine ⟨fun j hj => ⟨frame j, hframe j hj, hown j hj⟩, fun i hi j hj e => ?_⟩
  rw [hframe i hi, hframe j hj] at e
  exact h.apart i hi j hj (Option.some.inj e)

/-- a page that was free before is no table -/
theorem FreshMapped.owned (ht : Tables m₁) (g : FreshMapped m₁ s n flags m₂)
    (hfresh : ∀ j < n, m₁.pmem.Free (frame j) ∧ ¬ m₂.pmem.Free (frame j)) {j : Nat} (hj : j < n) :
    m₂.pmem.Owns (frame j) ∧ ¬ m₂.pmem.Free (frame j) ∧ ¬ m₂.IsTable (frame j) := by
  obtain ⟨hfree, hused⟩ := hfresh j hj
  exact ⟨(g.owns _).mpr hfree.inBlocks, hused, fun h => ht.used _ ((isTable_congr g.node _).mp h) hfree⟩

theorem Undone.isTable (u : Undone R m m₁ m₂ m₃ s n flags frame) (t : Nat) : m₃.IsTable t ↔ m₁.IsTable t :=
  (isTable_congr (m := reloadCr3 m₂) u.unmapped.node t).trans (isTable_congr u.mapped.node t)

/-- the entries are those with the tables that were added -/
theorem Undone.entry (u : Undone R m m₁ m₂ m₃ s n flags frame) (hno : ∀ j < n, leaf m (s + j) = none)
    (p : List (Fin 512)) (i : Fin 512) (hp : p.length ≤ 3) : m₃.entry p i = m₁.entry p i := by
  by_cases hl : ∃ j < n, IsLeaf (s + j) p i
  · obtain ⟨j, hj, rfl, rfl⟩ := hl
    exact (u.unmapped.unmapped j hj).trans ((u.added.leaf _).trans (hno j hj)).symm
  · have hl' : ∀ j < n, ¬ IsLeaf (s + j) p i := fun j hj h => hl ⟨j, hj, h⟩
    exact (u.unmapped.other p i hp hl').trans (u.mapped.other p i hp hl')

/-- what is free, was free and became no table -/
theorem Undone.free (h : Tables m) (u : Undone R m m₁ m₂ m₃ s n flags frame) (q : Nat) :
    m₃.pmem.Free q ↔ m.pmem.Free q ∧ q ∉ newTables m m₃ := by
  have hback : m₁.pmem.Free q → m.pmem.Free q ∧ q ∉ newTables m m₃ := fun hq =>
    ⟨u.added.free q hq, fun hnew => u.added.tables.used q ((u.isTable q).mp hnew.1) hq⟩
  rw [u.unmapped.free q]
  constructor
  · rintro (hq | ⟨j, hj, rfl⟩)
    · exact hback (u.mapped.free q hq)
    · exact hback (u.fresh j hj).1
  · rintro ⟨hq, hnew⟩
    have hq₁ : m₁.pmem.Free q := by
      refine (u.added.taken q hq).resolve_right fun ht => ?_
      exact hnew ⟨(u.isTable q).mpr ht, fun ht' => h.used q ht' hq⟩
    rcases u.mapped.taken q hq₁ with hq₂ | ⟨j, hj, w, hw, rfl⟩
    · exact .inl hq₂
    · obtain ⟨w', hw', -, hf⟩ := u.frames.leaf j hj
      rw [Option.some.inj (hw.symm.trans hw'), hf]
      exact .inr ⟨j, hj, rfl⟩

theorem Undone.count (h : Tables m) (u : Undone R m m₁ m₂ m₃ s n flags frame) :
    m₃.pmem.pagesFree + (newTables m m₃).ncard = m.pmem.pagesFree := by
  have hsub : newTables m m₃ ⊆ {q | m.pmem.Free q} := fun q hq =>
    (u.added.fresh q ((u.isTable q).mp hq.1)).resolve_left hq.2
  have hdiff : {q | m₃.pmem.Free q} = {q | m.pmem.Free q} \ newTables m m₃ := Set.ext (u.free h)
  rw [← ncard_free u.unmapped.inv, ← ncard_free h.pmem, hdiff]
  exact Set.ncard_sdiff_add_ncard_of_subset hsub (finite_free _)

/-- for no page, nothing is done -/
theorem kunmapanon_undoes_none (m : Machine) (addr prot : Nat) :
    ∃ m₁ m₂, kmapanon m addr 0 prot = some m₁ ∧ kunmapanon m₁ addr 0 = some m₂ ∧
      (∀ va, translate m₂.mem m₂.cr3 va = translate m.mem m.cr3 va) ∧
      (∀ q, m₂.pmem.Free q ↔ m.pmem.Free q ∧ q ∉ newTables m m₂) ∧
      m₂.pmem.pagesFree + (newTables m m₂).ncard = m.pmem.pagesFree ∧
      FreedOnce m₁ s 0 := by
  have hnone : newTables m (reloadCr3 (reloadCr3 m)) = ∅ :=
    Set.eq_empty_of_forall_notMem fun t ht => ht.2 ht.1
  refine ⟨reloadCr3 m, reloadCr3 (reloadCr3 m), ?_, ?_, fun va => rfl, fun q => ?_, ?_,
    ⟨fun j hj => absurd hj (Nat.not_lt_zero j), fun i hi => absurd hi (Nat.not_lt_zero i)⟩⟩
  · unfold kmapanon
    simp only
    rw [forPages_empty rfl]
    rfl
  · unfold kunmapanon
    rw [forPages_empty rfl, lowVisit_upper _ _ _ _ _ (by decide)]
    rfl
  · rw [hnone]
    exact ⟨fun hq => ⟨hq, Set.notMem_empty q⟩, fun hq => hq.1⟩
  · rw [hnone, Set.ncard_empty]
    rfl

/-- **`kunmapanon` undoes `kmapanon`**: all translations are as before, and the free pages but for the page
tables that are new. -/
theorem kunmapanon_undoes (m : Machine) (h : WellFormed m) (addr size prot : Nat) (hr : InGiB addr size)
    (hun : NoPages m addr size) (hpages : 0 < size → missing m (addr / 4096) ((size + 4095) / 4096) +
      covered (addr / 4096) ((size + 4095) / 4096) ≤ m.pmem.pagesFree) :
    ∃ m₁ m₂, kmapanon m addr size prot = some m₁ ∧ kunmapanon m₁ addr size = some m₂ ∧
      (∀ va, translate m₂.mem m₂.cr3 va = translate m.mem m.cr3 va) ∧
      (∀ q, m₂.pmem.Free q ↔ m.pmem.Free q ∧ q ∉ newTables m m₂) ∧
      m₂.pmem.pagesFree + (newTables m m₂).ncard = m.pmem.pagesFree ∧
      FreedOnce m₁ (addr / 4096) (covered (addr / 4096) ((size + 4095) / 4096)) := by
  have hle : size ≤ 2^30 := by
    have := hr.span
    omega
  rcases Nat.eq_zero_or_pos size with rfl | hpos
  · have hcov : covered (addr / 4096) ((0 + 4095) / 4096) = 0 := Nat.eq_zero_of_le_zero (Nat.min_le_left _ _)
    rw [hcov]
    exact kunmapanon_undoes_none m addr prot
  have hpl := h.plain hun
  obtain ⟨m₁, m₂, e₁, g₁, -, g₂⟩ := (kmapanon_spec h.toTables hpl rfl (by omega) rfl (by omega) hr.inSpan
    (fun v hv => hv) prot).resolve_right fun hno => by
      have := hpages hpos
      omega
  obtain ⟨frame, hframes, hfresh⟩ := g₂.frames
  have hown := fun j hj => g₂.owned g₁.tables hfresh (j := j) hj
  obtain ⟨m₃, e₃, g₃⟩ := kunmapanon_spec (m := reloadCr3 m₂) (reload_tables g₂.tables) (g₂.plain g₁.plain)
    rfl (by omega) rfl (by omega) hr.inSpan (fun v hv => hv)
    (fun j hj => by
      obtain ⟨w, hw, hf, -⟩ := hframes.leaf j hj
      exact ⟨w, hw, hf⟩) hown hframes.apart
  have u := Undone.mk g₁ g₂ hframes hfresh g₃
  have hno : ∀ j < covered (addr / 4096) ((size + 4095) / 4096), leaf m (addr / 4096 + j) = none :=
    fun j hj => h.leaves hun (lt_of_lt_of_le hj (Nat.min_le_left _ _))
  have hfree := u.free h.toTables
  have hcount := u.count h.toTables
  have hloaded : Frames (reloadCr3 m₂) _ _ frame := ⟨hframes.leaf, hframes.apart⟩
  refine ⟨reloadCr3 m₂, reloadCr3 m₃, e₁, e₃, fun va => ?_, hfree, hcount,
    hloaded.freedOnce fun j hj => ⟨(hown j hj).1, (hown j hj).2.1⟩⟩
  exact (translate_entries (u.entry hno) va).trans (g₁.translate va)

end

/-! ## the machine of the boot loader -/

theorem wellFormed_boot : WellFormed bootMachine := by
  refine ⟨bootMachine_tables, fun v k hk w e => .inl (plain_boot w ?_).1⟩
  unfold entryOf at e
  rcases entry_boot (by rw [length_stem (by omega)]; omega) e with ⟨-, -, h⟩ | h
  · exact .inl h
  · exact .inr h

/-- behind an absent top entry there is no page -/
theorem noPage_top {m : Machine} {va : Nat}
    (h : present (m.mem m.cr3 (pageIndex (va / 4096) 3)) = false) : NoPage m va := by
  unfold NoPage translateFrom
  simp only [h, Bool.false_eq_true, if_false]

theorem noPages_boot {addr size : Nat} (h : addr / 2^39 % 512 ≠ 511) (hr : addr % 2^39 + size ≤ 2^39) :
    NoPages bootMachine addr size := by
  intro va h1 h2
  refine noPage_top ?_
  have hne : pageIndex (va / 4096) 3 ≠ 511 := by
    intro e
    have e' : va / 4096 / 512^3 % 512 = 511 := congrArg Fin.val e
    omega
  rw [show bootMachine.mem bootMachine.cr3 (pageIndex (va / 4096) 3) = 0 from if_neg hne]
  rfl

/-- three pages in an empty part of the upper half -/
theorem kunmapanon_undoes_boot : ∃ m₁ m₂, kmapanon bootMachine 0xffff900000000000 0x3000 KPROT_WRITE = some m₁ ∧
    kunmapanon m₁ 0xffff900000000000 0x3000 = some m₂ ∧
    (∀ va, translate m₂.mem m₂.cr3 va = translate bootMachine.mem bootMachine.cr3 va) ∧
    (∀ q, m₂.pmem.Free q ↔ bootMachine.pmem.Free q ∧ q ∉ newTables bootMachine m₂) ∧
    m₂.pmem.pagesFree + (newTables bootMachine m₂).ncard = bootMachine.pmem.pagesFree ∧
    FreedOnce m₁ 0xffff900000000 3 := by
  refine kunmapanon_undoes bootMachine wellFormed_boot 0xffff900000000000 0x3000 KPROT_WRITE
    ⟨by decide, by decide⟩ (noPages_boot (by decide) (by decide)) fun _ => ?_
  have hmiss := missing_le bootMachine (0xffff900000000000 / 4096) ((0x3000 + 4095) / 4096)
  have htables : tableCount ((0x3000 + 4095) / 4096) = 1 := by decide
  have hcov : covered (0xffff900000000000 / 4096) ((0x3000 + 4095) / 4096) = 3 := by decide
  have hfree : bootMachine.pmem.pagesFree = 512 := rfl
  omega

end FuseeOS
