import FuseeOS.Kernel.PhysAlloc
import FuseeOS.Kernel.PageWalk

/-!
# The page tables as a tree

`next` is the table that an entry points to; `stem v k` are the first `k` indices of page `v`, so that
`m.nodeAt (stem v 3)` is the lowest table of page `v` and `leaf m v` its entry there.

* `Tables`             the tables are a tree, and no table is a free page;
* `leaf_setWord`       writing an entry of a lowest table changes one page.
-/

namespace FuseeOS
open Radix BitMap

/-! ## entries -/

/-- the table that an entry above the lowest level points to -/
def next (w : BitVec 64) : Option Nat := if present w && !large w then some (frameOf w) else none

/-- an entry that the kernel and the processor read alike: no large page, and no bit that `physical_to_virtual`
drops -/
structure Plain (w : BitVec 64) : Prop where
  small : large w = false
  low : (w &&& MMASK_PHYS).toNat < 2^47

theorem getLsbD_mmask : ∀ i < 64, MMASK_PHYS.getLsbD i = decide (12 ≤ i ∧ i < 63) := by decide

theorem getLsbD_frameMask : ∀ i < 64, FRAME_MASK.getLsbD i = decide (12 ≤ i ∧ i < 52) := by
  decide

theorem frameOf_mod (w : BitVec 64) : frameOf w % 4096 = 0 := by
  apply Nat.eq_of_testBit_eq
  intro i
  rw [Nat.zero_testBit, show (4096 : Nat) = 2^12 from rfl, Nat.testBit_mod_two_pow]
  by_cases hi : i < 12
  · have hn : ¬ (12 ≤ i ∧ i < 52) := by omega
    unfold frameOf
    rw [BitVec.testBit_toNat, BitVec.getLsbD_and, getLsbD_frameMask i (by omega), decide_eq_false hn,
      Bool.and_false, Bool.and_false]
  · rw [decide_eq_false hi, Bool.false_and]

theorem Plain.frame {w : BitVec 64} (h : Plain w) : (w &&& MMASK_PHYS).toNat = frameOf w := by
  unfold frameOf
  congr 1
  apply BitVec.eq_of_getLsbD_eq
  intro i hi
  rw [BitVec.getLsbD_and, BitVec.getLsbD_and, getLsbD_mmask i hi, getLsbD_frameMask i hi]
  by_cases hlt : i < 47
  · have h1 : decide (12 ≤ i ∧ i < 63) = decide (12 ≤ i ∧ i < 52) := by
      apply decide_eq_decide.mpr
      omega
    rw [h1]
  · -- the bits from 47 on are clear
    have hw : w.getLsbD i = false ∨ ¬ (12 ≤ i ∧ i < 63) := by
      by_contra hc
      obtain ⟨hc1, hc2⟩ := not_or.mp hc
      have hbit : (w &&& MMASK_PHYS).getLsbD i = true := by
        rw [BitVec.getLsbD_and, getLsbD_mmask i hi]
        simpa [not_not.mp hc2] using hc1
      rw [← BitVec.testBit_toNat, Nat.testBit_lt_two_pow (lt_of_lt_of_le h.low
        (Nat.pow_le_pow_right (by decide) (by omega)))] at hbit
      exact nomatch hbit
    rcases hw with hw | hw
    · rw [hw, Bool.false_and, Bool.false_and]
    · have h2 : ¬ (12 ≤ i ∧ i < 52) := by omega
      rw [decide_eq_false hw, decide_eq_false h2]

theorem Plain.direct {w : BitVec 64} (h : Plain w) :
    FuseeOS.direct (w &&& MMASK_PHYS).toNat = frameOf w := by
  unfold FuseeOS.direct
  rw [Nat.mod_eq_of_lt h.low, h.frame]

theorem Plain.next {w : BitVec 64} (h : Plain w) (hp : present w = true) :
    FuseeOS.next w = some (frameOf w) := by
  unfold FuseeOS.next
  rw [hp, h.small]
  rfl

theorem next_eq_none {w : BitVec 64} (h : present w = false) : next w = none := by
  unfold next
  rw [h]
  rfl

theorem present_iff (w : BitVec 64) : present w = true ↔ w &&& X86_PAGE_PRESENT ≠ 0 := by
  have key : w &&& 1#64 = if w.getLsbD 0 then 1#64 else 0#64 := by
    apply BitVec.eq_of_getLsbD_eq
    intro i hi
    rw [BitVec.getLsbD_and, BitVec.getLsbD_one]
    by_cases h0 : i = 0
    · subst h0
      cases w.getLsbD 0 <;> simp
    · cases w.getLsbD 0 <;> simp [h0]
  unfold present
  rw [show X86_PAGE_PRESENT = 1#64 from rfl, key]
  cases w.getLsbD 0 <;> simp

/-! ## entries that the kernel makes -/

/-- flags leave the address of an entry alone, and make no large page -/
def IsFlags (flags : BitVec 64) : Prop := flags &&& (MMASK_PHYS ||| X86_PAGE_LARGE) = 0

theorem IsFlags.bit {flags : BitVec 64} (h : IsFlags flags) {i : Nat} (hi : 12 ≤ i ∧ i < 63 ∨ i = 7) :
    flags.getLsbD i = false := by
  have hlt : i < 64 := by omega
  have hl : ∀ i < 64, X86_PAGE_LARGE.getLsbD i = decide (i = 7) := by decide
  have hz : (flags &&& (MMASK_PHYS ||| X86_PAGE_LARGE)).getLsbD i = (0#64).getLsbD i :=
    congrArg (fun w => w.getLsbD i) h
  rw [BitVec.getLsbD_and, BitVec.getLsbD_or, getLsbD_mmask i hlt, hl i hlt] at hz
  have hm : (decide (12 ≤ i ∧ i < 63) || decide (i = 7)) = true := by
    rw [Bool.or_eq_true, decide_eq_true_eq, decide_eq_true_eq]
    exact hi
  rw [hm, Bool.and_true] at hz
  simpa using hz

/-- a page address has no bits below 12 and none from 47 on -/
theorem getLsbD_pageAddr {p : Nat} (hp : p % 4096 = 0) (hlt : p < 2^47) {i : Nat}
    (hi : i < 12 ∨ 47 ≤ i) : (BitVec.ofNat 64 p).getLsbD i = false := by
  rw [BitVec.getLsbD_ofNat]
  rcases hi with hi | hi
  · have hz : (p % 2^12).testBit i = false := by
      rw [show p % 2^12 = 0 from hp]
      exact Nat.zero_testBit i
    rw [Nat.testBit_mod_two_pow, decide_eq_true hi, Bool.true_and] at hz
    rw [hz, Bool.and_false]
  · rw [Nat.testBit_lt_two_pow (lt_of_lt_of_le hlt (Nat.pow_le_pow_right (by decide) hi)),
      Bool.and_false]

section
variable {p : Nat} {flags : BitVec 64} (hp : p % 4096 = 0) (hlt : p < 2^47)
include hp hlt

theorem bit_entry {i : Nat} (hi : i < 12 ∨ 47 ≤ i) :
    (BitVec.ofNat 64 p ||| flags).getLsbD i = flags.getLsbD i := by
  rw [BitVec.getLsbD_or, getLsbD_pageAddr hp hlt hi, Bool.false_or]

variable (hf : IsFlags flags)
include hf

theorem addr_entry : ((BitVec.ofNat 64 p ||| flags) &&& MMASK_PHYS).toNat = p := by
  have e : (BitVec.ofNat 64 p ||| flags) &&& MMASK_PHYS = BitVec.ofNat 64 p := by
    apply BitVec.eq_of_getLsbD_eq
    intro i hi
    rw [BitVec.getLsbD_and, BitVec.getLsbD_or, getLsbD_mmask i hi]
    by_cases hr : 12 ≤ i ∧ i < 63
    · rw [hf.bit (.inl hr), Bool.or_false, decide_eq_true hr, Bool.and_true]
    · rw [decide_eq_false hr, Bool.and_false, getLsbD_pageAddr hp hlt (by omega)]
  rw [e, BitVec.toNat_ofNat]
  omega

theorem plain_entry : Plain (BitVec.ofNat 64 p ||| flags) := by
  constructor
  · unfold large
    rw [bit_entry hp hlt (by omega)]
    exact hf.bit (.inr rfl)
  · rw [addr_entry hp hlt hf]
    exact hlt

theorem frameOf_entry : frameOf (BitVec.ofNat 64 p ||| flags) = p := by
  rw [← (plain_entry hp hlt hf).frame, addr_entry hp hlt hf]

end

/-! ## the tree -/

/-- the table that a path leads to, from `gKernel.cr3` -/
def Machine.nodeAt (m : Machine) (p : List (Fin 512)) : Option Nat := Radix.nodeAt next m.mem m.cr3 p

/-- a page table of any level -/
def Machine.IsTable (m : Machine) (t : Nat) : Prop := IsNode next m.mem m.cr3 3 t

/-- entry `i` of the table that a path leads to, if it is present -/
def Machine.entry (m : Machine) (p : List (Fin 512)) (i : Fin 512) : Option (BitVec 64) :=
  (m.nodeAt p).bind fun t => if present (m.mem t i) then some (m.mem t i) else none

/-- the first `k` indices of page `v` -/
def stem (v k : Nat) : List (Fin 512) := [pageIndex v 3, pageIndex v 2, pageIndex v 1].take k

/-- the entry of page `v` in its lowest table, if the page is mapped -/
def leaf (m : Machine) (v : Nat) : Option (BitVec 64) := m.entry (stem v 3) (pageIndex v 0)

theorem length_stem {v k : Nat} (hk : k ≤ 3) : (stem v k).length = k := by
  unfold stem
  rw [List.length_take]
  show min k 3 = k
  omega

theorem length_stem_le {v k : Nat} : (stem v k).length ≤ 3 := by
  unfold stem
  rw [List.length_take]
  exact Nat.min_le_right _ _

theorem stem_succ (v : Nat) {k : Nat} (hk : k < 3) :
    stem v (k + 1) = stem v k ++ [pageIndex v (3 - k)] := by
  match k, hk with
  | 0, _ => rfl
  | 1, _ => rfl
  | 2, _ => rfl

/-- every entry of every table is on the way to some page -/
theorem page_of_path (p : List (Fin 512)) (i : Fin 512) (hp : p.length ≤ 3) :
    ∃ v, stem v p.length = p ∧ pageIndex v (3 - p.length) = i := by
  have hidx (v k : Nat) (j : Fin 512) (h : v / 512^k % 512 = j.val) : pageIndex v k = j := Fin.ext h
  match p, hp with
  | [], _ => exact ⟨i * 512^3, rfl, hidx _ 3 i (by omega)⟩
  | [a], _ =>
    refine ⟨a * 512^3 + i * 512^2, ?_, hidx _ 2 i (by omega)⟩
    show [_] = [_]
    rw [hidx _ 3 a (by omega)]
  | [a, b], _ =>
    refine ⟨a * 512^3 + b * 512^2 + i * 512, ?_, hidx _ 1 i (by omega)⟩
    show [_, _] = [_, _]
    rw [hidx _ 3 a (by omega), hidx _ 2 b (by omega)]
  | [a, b, c], _ =>
    refine ⟨a * 512^3 + b * 512^2 + c * 512 + i, ?_, hidx _ 0 i (by omega)⟩
    show [_, _, _] = [_, _, _]
    rw [hidx _ 3 a (by omega), hidx _ 2 b (by omega), hidx _ 1 c (by omega)]

/-- addresses are translated by 36 bits of the page number -/
def SamePage (v v' : Nat) : Prop := v % 2^36 = v' % 2^36

theorem samePage_iff (v v' : Nat) :
    SamePage v v' ↔ stem v 3 = stem v' 3 ∧ pageIndex v 0 = pageIndex v' 0 := by
  have hstem : stem v 3 = stem v' 3 ↔ pageIndex v 3 = pageIndex v' 3 ∧
      pageIndex v 2 = pageIndex v' 2 ∧ pageIndex v 1 = pageIndex v' 1 := by
    show [_, _, _] = [_, _, _] ↔ _
    simp
  have hidx (k : Nat) : pageIndex v k = pageIndex v' k ↔ v / 512^k % 512 = v' / 512^k % 512 :=
    Fin.ext_iff
  rw [hstem, hidx, hidx, hidx, hidx]
  unfold SamePage
  omega

/-- The tables are a tree, and none of their pages is free.  All of them are pages that `physical_to_virtual` keeps
apart: it drops the bits from 47 on. -/
structure Tables (m : Machine) : Prop where
  pmem : PmemInv m.pmem
  low : ∀ p, m.pmem.Owns p → p < 2^47
  tree : Proper next m.mem m.cr3 3
  used : ∀ t, m.IsTable t → ¬ m.pmem.Free t
  root : m.cr3 < 2^47

/-- the entries above the lowest level on the way to the pages `R` -/
def PlainOn (R : Nat → Prop) (m : Machine) : Prop :=
  ∀ v, R v → ∀ k < 3, ∀ w, m.entry (stem v k) (pageIndex v (3 - k)) = some w → Plain w

/-- what no operation on mappings changes for good -/
structure SameRegs (m m' : Machine) : Prop where
  cr3 : m'.cr3 = m.cr3
  cpuCr3 : m'.cpuCr3 = m.cpuCr3
  nx : m'.nx = m.nx
  ioSize : m'.ioSize = m.ioSize

theorem SameRegs.refl (m : Machine) : SameRegs m m := ⟨rfl, rfl, rfl, rfl⟩

theorem SameRegs.trans {m m₁ m' : Machine} (h : SameRegs m m₁) (h' : SameRegs m₁ m') : SameRegs m m' :=
  ⟨h'.cr3.trans h.cr3, h'.cpuCr3.trans h.cpuCr3, h'.nx.trans h.nx, h'.ioSize.trans h.ioSize⟩

section
variable {m m' : Machine} {p : List (Fin 512)} {i : Fin 512} {t : Nat} {w : BitVec 64}

theorem entry_of_node (ht : m.nodeAt p = some t) :
    m.entry p i = if present (m.mem t i) then some (m.mem t i) else none := by
  unfold Machine.entry
  rw [ht, Option.bind_some]

theorem entry_eq_some : m.entry p i = some w ↔
    ∃ t, m.nodeAt p = some t ∧ m.mem t i = w ∧ present w = true := by
  unfold Machine.entry
  rw [Option.bind_eq_some_iff]
  refine exists_congr fun t => and_congr_right fun _ => ?_
  by_cases hp : present (m.mem t i) = true
  · rw [if_pos hp, Option.some.injEq]
    exact ⟨fun e => ⟨e, e ▸ hp⟩, fun e => e.1⟩
  · rw [if_neg hp]
    exact ⟨fun e => (nomatch e), fun e => absurd (e.1 ▸ e.2) hp⟩

theorem nodeAt_succ : m.nodeAt (p ++ [i]) = (m.entry p i).bind next := by
  unfold Machine.nodeAt Machine.entry
  rw [nodeAt_concat, Option.bind_assoc]
  refine congrArg _ (funext fun t => ?_)
  by_cases hp : present (m.mem t i) = true
  · rw [if_pos hp, Option.bind_some]
  · rw [if_neg hp, Option.bind_none, next_eq_none (by simpa using hp)]

/-- machines with the same entries above the lowest level have the same tables -/
theorem entry_congr_node (hcr3 : m'.cr3 = m.cr3)
    (h : ∀ p t i, p.length < 3 → m.nodeAt p = some t → m'.mem t i = m.mem t i)
    (p : List (Fin 512)) (hp : p.length ≤ 3) : m'.nodeAt p = m.nodeAt p := by
  unfold Machine.nodeAt
  rw [hcr3]
  exact nodeAt_congr (fun q t i hq e => by rw [h q t i hq e]) p hp

/-- a lowest table is not above the lowest level as well -/
theorem Tables.not_inner (h : Tables m) {v : Nat} (ht : m.nodeAt (stem v 3) = some t)
    (p : List (Fin 512)) (hp : p.length < 3) : m.nodeAt p ≠ some t :=
  h.tree.not_inner (length_stem (le_refl 3)) ht hp

theorem Tables.tree_congr (h : Tables m) (hnode : ∀ p, p.length ≤ 3 → m'.nodeAt p = m.nodeAt p) :
    Proper next m'.mem m'.cr3 3 := fun p q t hp hq ep eq =>
  h.tree p q t hp hq ((hnode p hp).symm.trans ep) ((hnode q hq).symm.trans eq)

theorem isTable_congr (h : ∀ p, p.length ≤ 3 → m'.nodeAt p = m.nodeAt p) (t : Nat) :
    m'.IsTable t ↔ m.IsTable t := by
  constructor
  · rintro ⟨p, hp, e⟩
    exact ⟨p, hp, (h p hp).symm.trans e⟩
  · rintro ⟨p, hp, e⟩
    exact ⟨p, hp, (h p hp).trans e⟩

end

/-! ## the way to a page -/

section
variable {m m' : Machine} {R : Nat → Prop} {v k t u : Nat}

theorem nodeAt_stem_succ (hk : k < 3) (ht : m.nodeAt (stem v k) = some t) :
    m.nodeAt (stem v (k + 1)) = next (m.mem t (pageIndex v (3 - k))) := by
  unfold Machine.nodeAt at *
  rw [stem_succ v hk, nodeAt_concat, ht]
  rfl

/-- the node of a present entry, in the region where entries are plain -/
theorem PlainOn.node (h : PlainOn R m) (hv : R v) (hk : k < 3) (ht : m.nodeAt (stem v k) = some t)
    (hp : present (m.mem t (pageIndex v (3 - k))) = true) :
    m.nodeAt (stem v (k + 1)) = some (dirAt m t (pageIndex v (3 - k))) := by
  have hpl := h v hv k hk _ (entry_eq_some.mpr ⟨t, ht, rfl, hp⟩)
  rw [nodeAt_stem_succ hk ht, hpl.next hp]
  unfold dirAt
  rw [hpl.direct]

/-- the table that the kernel follows an entry to is the next node -/
theorem PlainOn.dirAt_eq (h : PlainOn R m) (hv : R v) (hk : k < 3)
    (ht : m.nodeAt (stem v k) = some t) (hu : m.nodeAt (stem v (k + 1)) = some u) :
    dirAt m t (pageIndex v (3 - k)) = u := by
  have hp : present (m.mem t (pageIndex v (3 - k))) = true := by
    rw [nodeAt_stem_succ hk ht] at hu
    by_contra hc
    rw [next_eq_none (by simpa using hc)] at hu
    exact nomatch hu
  rw [h.node hv hk ht hp] at hu
  exact Option.some.inj hu

/-- a mapped page has its tables -/
theorem node_of_leaf {w : BitVec 64} (h : leaf m v = some w) (hk : k ≤ 3) : ∃ t, m.nodeAt (stem v k) = some t := by
  obtain ⟨t, ht, -, -⟩ := entry_eq_some.mp h
  have hpre : ∀ j, j + k = 3 → ∃ t, m.nodeAt (stem v k) = some t := by
    intro j hj
    have hs : stem v 3 = stem v k ++ (stem v 3).drop k := by
      conv_lhs => rw [← List.take_append_drop k (stem v 3)]
      unfold stem
      rw [List.take_take, Nat.min_eq_left hk]
    unfold Machine.nodeAt at ht ⊢
    rw [hs, nodeAt_append] at ht
    obtain ⟨t', ht', -⟩ := Option.bind_eq_some_iff.mp ht
    exact ⟨t', ht'⟩
  exact hpre (3 - k) (by omega)

end

/-! ## an entry of a lowest table -/

/-- entry `i` of the table at `p` is that of page `v` -/
def IsLeaf (v : Nat) (p : List (Fin 512)) (i : Fin 512) : Prop := p = stem v 3 ∧ i = pageIndex v 0

/-- the entry of page `v` was written -/
structure LeafSet (m : Machine) (v : Nat) (w : BitVec 64) (m' : Machine) : Prop where
  tables : Tables m'
  regs : SameRegs m m'
  node : ∀ p, p.length ≤ 3 → m'.nodeAt p = m.nodeAt p
  same : leaf m' v = if present w then some w else none
  other : ∀ p i, p.length ≤ 3 → ¬ IsLeaf v p i → m'.entry p i = m.entry p i

/-- Entries of the `n` pages from page `s` on were written, and no others. -/
structure OnlyLeaves (m : Machine) (s n : Nat) (m' : Machine) : Prop where
  tables : Tables m'
  regs : SameRegs m m'
  node : ∀ p, p.length ≤ 3 → m'.nodeAt p = m.nodeAt p
  other : ∀ p i, p.length ≤ 3 → (∀ j < n, ¬ IsLeaf (s + j) p i) → m'.entry p i = m.entry p i

section
variable {m m₁ m' : Machine} {R : Nat → Prop} {s n v : Nat} {w : BitVec 64}

theorem OnlyLeaves.refl (h : Tables m) (s : Nat) : OnlyLeaves m s 0 m :=
  ⟨h, SameRegs.refl m, fun _ _ => rfl, fun _ _ _ _ => rfl⟩

/-- one page more -/
theorem OnlyLeaves.next (g : OnlyLeaves m s n m₁) (a : LeafSet m₁ (s + n) w m') : OnlyLeaves m s (n + 1) m' where
  tables := a.tables
  regs := g.regs.trans a.regs
  node p hp := (a.node p hp).trans (g.node p hp)
  other p i hp h := (a.other p i hp (h n (Nat.lt_succ_self n))).trans
    (g.other p i hp fun j hj => h j (Nat.lt_succ_of_lt hj))

/-- the pages of a range are different -/
theorem isLeaf_ne {j j' : Nat} (hj : j < 2^36) (hj' : j' < 2^36) (hne : j ≠ j') :
    ¬ IsLeaf (s + j') (stem (s + j) 3) (pageIndex (s + j) 0) := by
  intro h
  have hs := (samePage_iff (s + j) (s + j')).mpr ⟨h.1, h.2⟩
  unfold SamePage at hs
  omega

theorem LeafSet.old (a : LeafSet m₁ (s + n) w m') (hn : n < 2^36) {j : Nat} (hj : j < n) :
    leaf m' (s + j) = leaf m₁ (s + j) :=
  a.other _ _ length_stem_le (isLeaf_ne (by omega) hn (by omega))

/-- the entries above the lowest level are as before -/
theorem OnlyLeaves.upper (g : OnlyLeaves m s n m') {p : List (Fin 512)} (hp : p.length < 3) (i : Fin 512) :
    m'.entry p i = m.entry p i := by
  refine g.other p i (by omega) fun j _ hl => ?_
  rw [hl.1, length_stem (le_refl 3)] at hp
  exact Nat.lt_irrefl 3 hp

theorem SamePage.leaf {v' : Nat} (h : SamePage v v') (m : Machine) : FuseeOS.leaf m v = FuseeOS.leaf m v' := by
  obtain ⟨h1, h2⟩ := (samePage_iff v v').mp h
  unfold FuseeOS.leaf
  rw [h1, h2]

/-- pages that are not in the range stay as they were -/
theorem OnlyLeaves.leaf (g : OnlyLeaves m s n m') (hv : ∀ j < n, ¬ SamePage v (s + j)) :
    FuseeOS.leaf m' v = FuseeOS.leaf m v :=
  g.other _ _ length_stem_le fun j hj hl => hv j hj ((samePage_iff _ _).mpr hl)

theorem OnlyLeaves.plain (g : OnlyLeaves m s n m') (h : PlainOn R m) : PlainOn R m' := by
  intro v hv k hk w e
  have hlen : (stem v k).length < 3 := by
    rw [length_stem (by omega)]
    exact hk
  rw [g.upper hlen] at e
  exact h v hv k hk w e

/-- **Writing an entry of a lowest table changes one page.**  `m₁` is `m` but for pages that are no
tables, and for what is counted in `pmem`. -/
theorem leaf_setWord {t : Nat} (h : Tables m) (ht : m.nodeAt (stem v 3) = some t)
    (hregs : SameRegs m m₁) (hmem : ∀ f, m.IsTable f → m₁.mem f = m.mem f) (hinv : PmemInv m₁.pmem)
    (howns : ∀ q, m₁.pmem.Owns q ↔ m.pmem.Owns q) (hfree : ∀ t, m.IsTable t → ¬ m₁.pmem.Free t)
    (w : BitVec 64) : LeafSet m v w (m₁.setWord t (pageIndex v 0) w) := by
  -- the words of the tables
  have hword (f : Nat) (i : Fin 512) (hf : m.IsTable f) (hne : ¬ (f = t ∧ i = pageIndex v 0)) :
      (m₁.setWord t (pageIndex v 0) w).mem f i = m.mem f i :=
    (setWord_of_ne _ _ hne).trans (congrFun (hmem f hf) i)
  have hnode : ∀ p, p.length ≤ 3 → (m₁.setWord t (pageIndex v 0) w).nodeAt p = m.nodeAt p :=
    entry_congr_node hregs.cr3 fun q f i hq e =>
      hword f i ⟨q, by omega, e⟩ fun hft => h.not_inner ht q hq (hft.1 ▸ e)
  refine ⟨⟨hinv, fun p hp => h.low p ((howns p).mp hp), ?_, fun f hf => ?_, ?_⟩,
    ⟨hregs.cr3, hregs.cpuCr3, hregs.nx, hregs.ioSize⟩, hnode, ?_, fun p i hp hne => ?_⟩
  · exact h.tree_congr hnode
  · exact hfree f ((isTable_congr hnode f).mp hf)
  · show m₁.cr3 < _
    rw [hregs.cr3]
    exact h.root
  · have hw : (m₁.setWord t (pageIndex v 0) w).mem t (pageIndex v 0) = w := setWord_same _ _ _ _
    have ht' : (m₁.setWord t (pageIndex v 0) w).nodeAt (stem v 3) = some t := by
      rw [hnode _ length_stem_le, ht]
    unfold leaf
    rw [entry_of_node ht', hw]
  · unfold Machine.entry
    rw [hnode p hp]
    cases e : m.nodeAt p with
    | none => rfl
    | some f =>
      rw [Option.bind_some, Option.bind_some, hword f i ⟨p, hp, e⟩]
      rintro ⟨rfl, hi⟩
      exact hne ⟨h.tree _ _ f hp length_stem_le e ht, hi⟩

end

end FuseeOS
