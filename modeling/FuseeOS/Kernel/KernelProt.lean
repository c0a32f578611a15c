import FuseeOS.Kernel.KernelHalf

/-!
# The kernel's own pages

`init_kernel_mem_prot`: the upper half of the top table is filled, every entry below its last entry is
made writable, and the four sections of the kernel image are protected.

* `hierarchy_spec`            the recursive pass changes the tables below one table, and no others;
* `kmprotect_section`         a section is protected as far as the iterator reaches;
* `initKernelMemProt_spec`    what `init_kernel_mem_prot` leaves behind, and when it returns.
-/

namespace FuseeOS
open Radix

/-- one round of the loop of `set_kernel_hierarchy_mem_prot` -/
def protEntry (below : Nat → PhysMem → PhysMem) (dir : Nat) (mem : PhysMem) (i : Fin 512) : PhysMem :=
  if mem dir i &&& X86_PAGE_PRESENT ≠ 0 then
    let mem := setWord mem dir i (mem dir i ||| X86_PAGE_WRITE)
    below (direct (mem dir i &&& MMASK_PHYS).toNat) mem
  else mem

def protEntries (below : Nat → PhysMem → PhysMem) (dir : Nat) (mem : PhysMem) : PhysMem :=
  (List.finRange 512).foldl (protEntry below dir) mem

def setKernelHierarchyMemProt : Nat → Nat → PhysMem → PhysMem
  | 0 => protEntries fun _ mem => mem
  | depth + 1 => protEntries (setKernelHierarchyMemProt depth)

/-- `__KERNEL_SECTION_*_START` and `__KERNEL_SECTION_*_END` -/
structure Section where
  start : Nat
  stop : Nat

def Section.size (s : Section) : Nat := s.stop - s.start

structure KernelImage where
  exec : Section
  rodata : Section
  data : Section
  bss : Section

def initKernelMemProt (img : KernelImage) (m : Machine) : Option Machine := do
  let m ← setKernelHalf m
  let e ← m.read m.cr3 511
  let m := { m with mem := setKernelHierarchyMemProt 2 (direct (e &&& MMASK_PHYS).toNat) m.mem }
  let m ← kmprotect m img.exec.start img.exec.size (KPROT_READ ||| KPROT_EXECUTE)
  let m ← kmprotect m img.rodata.start img.rodata.size KPROT_READ
  let m ← kmprotect m img.data.start img.data.size (KPROT_READ ||| KPROT_WRITE)
  kmprotect m img.bss.start img.bss.size (KPROT_READ ||| KPROT_WRITE)

/-! ## entries that are made writable -/

def orWrite (w : BitVec 64) : BitVec 64 := if present w then w ||| X86_PAGE_WRITE else w

section
variable {w : BitVec 64}

/-- only bit 1 is set -/
theorem getLsbD_orWrite {i : Nat} (hi : i ≠ 1) : (w ||| X86_PAGE_WRITE).getLsbD i = w.getLsbD i := by
  have hbit : ∀ i < 64, X86_PAGE_WRITE.getLsbD i = decide (i = 1) := by decide
  rw [BitVec.getLsbD_or]
  by_cases h64 : i < 64
  · rw [hbit i h64, decide_eq_false hi, Bool.or_false]
  · rw [BitVec.getLsbD_of_ge X86_PAGE_WRITE i (by omega), Bool.or_false]

theorem present_orWrite (w : BitVec 64) : present (w ||| X86_PAGE_WRITE) = present w :=
  getLsbD_orWrite (by decide)

theorem large_orWrite (w : BitVec 64) : large (w ||| X86_PAGE_WRITE) = large w :=
  getLsbD_orWrite (by decide)

theorem userOk_orWrite (w : BitVec 64) : userOk (w ||| X86_PAGE_WRITE) = userOk w :=
  getLsbD_orWrite (by decide)

theorem noExec_orWrite (w : BitVec 64) : noExec (w ||| X86_PAGE_WRITE) = noExec w :=
  getLsbD_orWrite (by decide)

theorem writable_orWrite (w : BitVec 64) : writable (w ||| X86_PAGE_WRITE) = true := by
  unfold writable
  rw [BitVec.getLsbD_or]
  exact Bool.or_true _

/-- masks without bit 1 do not see it -/
theorem and_orWrite {mask : BitVec 64} (h : mask.getLsbD 1 = false) (w : BitVec 64) :
    (w ||| X86_PAGE_WRITE) &&& mask = w &&& mask := by
  apply BitVec.eq_of_getLsbD_eq
  intro i _
  rw [BitVec.getLsbD_and, BitVec.getLsbD_and]
  by_cases hi : i = 1
  · rw [hi, h, Bool.and_false, Bool.and_false]
  · rw [getLsbD_orWrite hi]

theorem mmask_orWrite (w : BitVec 64) : (w ||| X86_PAGE_WRITE) &&& MMASK_PHYS = w &&& MMASK_PHYS :=
  and_orWrite (by decide) w

theorem frameOf_orWrite (w : BitVec 64) : frameOf (w ||| X86_PAGE_WRITE) = frameOf w :=
  congrArg BitVec.toNat (and_orWrite (by decide) w)

theorem next_or_write (w : BitVec 64) : next (w ||| X86_PAGE_WRITE) = next w := by
  unfold next
  rw [present_orWrite, large_orWrite, frameOf_orWrite]

theorem Plain.orWrite (h : Plain w) : Plain (w ||| X86_PAGE_WRITE) where
  small := (large_orWrite w).trans h.small
  low := by
    rw [mmask_orWrite]
    exact h.low

theorem next_orWrite (w : BitVec 64) : next (orWrite w) = next w := by
  unfold orWrite
  by_cases hp : present w = true
  · rw [if_pos hp, next_or_write]
  · rw [if_neg hp]

theorem orWrite_orWrite (w : BitVec 64) : orWrite (orWrite w) = orWrite w := by
  unfold orWrite
  by_cases hp : present w = true
  · rw [if_pos hp, if_pos (by rw [present_orWrite]; exact hp), BitVec.or_assoc, BitVec.or_self]
  · rw [if_neg hp, if_neg hp]

end

/-! ## the recursive pass -/

section
variable {mem mem' : PhysMem} {root : Nat}

/-- some words were made writable -/
def OrOf (mem mem' : PhysMem) : Prop := ∀ f j, mem' f j = mem f j ∨ mem' f j = orWrite (mem f j)

/-- node `f` is at or below `q` -/
def Under (mem : PhysMem) (root : Nat) (q : List (Fin 512)) (f : Nat) : Prop :=
  ∃ p, q <+: p ∧ p.length ≤ 3 ∧ nodeAt next mem root p = some f

theorem OrOf.orWrite_eq (h : OrOf mem mem') (f : Nat) (j : Fin 512) :
    orWrite (mem' f j) = orWrite (mem f j) := by
  rcases h f j with e | e
  · rw [e]
  · rw [e, orWrite_orWrite]

theorem OrOf.or_eq (h : OrOf mem mem') {f : Nat} {j : Fin 512} (hp : present (mem f j) = true) :
    mem' f j ||| X86_PAGE_WRITE = mem f j ||| X86_PAGE_WRITE ∧ present (mem' f j) = true := by
  rcases h f j with e | e
  · exact ⟨by rw [e], by rw [e]; exact hp⟩
  · have ho : orWrite (mem f j) = mem f j ||| X86_PAGE_WRITE := if_pos hp
    rw [e, ho]
    exact ⟨by rw [BitVec.or_assoc, BitVec.or_self], by rw [present_orWrite]; exact hp⟩

theorem OrOf.absent (h : OrOf mem mem') {f : Nat} {j : Fin 512} (hp : present (mem f j) = false) :
    mem' f j = mem f j := by
  have ho : orWrite (mem f j) = mem f j := if_neg (by rw [hp]; exact Bool.false_ne_true)
  rcases h f j with e | e
  · exact e
  · rw [e, ho]

/-- more words are made writable -/
theorem OrOf.step {mem₁ : PhysMem} (h : OrOf mem mem') (h₁ : ∀ f j, mem₁ f j = mem' f j ∨
    mem₁ f j = orWrite (mem' f j)) : OrOf mem mem₁ := by
  intro f j
  rcases h₁ f j with e | e
  · rw [e]
    exact h f j
  · rw [e, h.orWrite_eq]
    exact .inr rfl

theorem Under.child {q : List (Fin 512)} {a : Fin 512} {f : Nat} (h : Under mem root (q ++ [a]) f) :
    Under mem root q f := by
  obtain ⟨p, hp, hlen, e⟩ := h
  exact ⟨p, (List.prefix_append q [a]).trans hp, hlen, e⟩

/-- below an absent entry there is nothing -/
theorem Under.present {q : List (Fin 512)} {a : Fin 512} {f t : Nat} (h : Under mem root (q ++ [a]) f)
    (ht : nodeAt next mem root q = some t) : present (mem t a) = true := by
  obtain ⟨p, ⟨r, rfl⟩, -, e⟩ := h
  rw [nodeAt_append, nodeAt_concat, ht] at e
  by_contra hc
  rw [Option.bind_some, next_eq_none (by simpa using hc)] at e
  exact nomatch e

/-- at or below `q`: the node itself, or below one of its entries -/
theorem under_iff {q : List (Fin 512)} {t f : Nat} (hq : q.length ≤ 3)
    (ht : nodeAt next mem root q = some t) :
    Under mem root q f ↔ f = t ∨ ∃ a, Under mem root (q ++ [a]) f := by
  constructor
  · rintro ⟨p, ⟨r, rfl⟩, hlen, e⟩
    cases r with
    | nil =>
      rw [List.append_nil, ht] at e
      exact .inl (Option.some.inj e).symm
    | cons a r => exact .inr ⟨a, q ++ a :: r, ⟨r, by simp⟩, hlen, e⟩
  · rintro (rfl | ⟨a, ha⟩)
    · exact ⟨q, List.prefix_refl q, hq, ht⟩
    · exact ha.child

/-- exactly the words of `P` are made writable -/
def OrWhere (P : Nat → Fin 512 → Prop) (mem mem' : PhysMem) : Prop :=
  ∀ f j, (P f j → mem' f j = orWrite (mem f j)) ∧ (¬ P f j → mem' f j = mem f j)

variable {P Q : Nat → Fin 512 → Prop} {mem₁ : PhysMem}

theorem OrWhere.orOf (h : OrWhere P mem' mem₁) (f : Nat) (j : Fin 512) :
    mem₁ f j = mem' f j ∨ mem₁ f j = orWrite (mem' f j) := by
  by_cases hP : P f j
  · exact .inr ((h f j).1 hP)
  · exact .inl ((h f j).2 hP)

/-- setting the bit twice does no harm -/
theorem OrWhere.trans (h : OrWhere P mem mem') (h₁ : OrWhere Q mem' mem₁) :
    OrWhere (fun f j => P f j ∨ Q f j) mem mem₁ := by
  intro f j
  by_cases hQ : Q f j
  · refine ⟨fun _ => ?_, fun hn => absurd (.inr hQ) hn⟩
    rw [(h₁ f j).1 hQ]
    rcases h.orOf f j with e | e
    · rw [e]
    · rw [e, orWrite_orWrite]
  · rw [(h₁ f j).2 hQ]
    exact ⟨fun hPQ => (h f j).1 (hPQ.resolve_right hQ), fun hn => (h f j).2 fun hP => hn (.inl hP)⟩

theorem OrWhere.congr (h : OrWhere P mem mem') (hPQ : ∀ f j, P f j ↔ Q f j) : OrWhere Q mem mem' :=
  fun f j => ⟨fun hQ => (h f j).1 ((hPQ f j).mpr hQ), fun hQ => (h f j).2 fun hP => hQ ((hPQ f j).mp hP)⟩

section
variable {below : Nat → PhysMem → PhysMem} {q : List (Fin 512)} {t : Nat}
  (ht : nodeAt next mem root q = some t)
  (hbelow : ∀ a, present (mem t a) = true → ∀ mem', OrOf mem mem' →
    OrWhere (fun f _ => Under mem root (q ++ [a]) f) mem'
      (below (direct ((mem t a ||| X86_PAGE_WRITE) &&& MMASK_PHYS).toNat) mem'))
include ht hbelow

/-- one entry, and what is below it -/
theorem protEntry_spec (a : Fin 512) (h : OrOf mem mem') :
    OrWhere (fun f j => (f = t ∧ j = a) ∨ Under mem root (q ++ [a]) f) mem'
      (protEntry below t mem' a) := by
  by_cases hp : present (mem t a) = true
  · obtain ⟨hor, hp'⟩ := h.or_eq hp
    have hset : OrWhere (fun f j => f = t ∧ j = a) mem'
        (setWord mem' t a (mem' t a ||| X86_PAGE_WRITE)) := by
      refine fun f j => ⟨?_, fun hn => setWord_of_ne _ _ hn⟩
      rintro ⟨rfl, rfl⟩
      rw [setWord_same]
      exact (if_pos hp').symm
    have e : protEntry below t mem' a =
        below (direct ((mem t a ||| X86_PAGE_WRITE) &&& MMASK_PHYS).toNat)
          (setWord mem' t a (mem' t a ||| X86_PAGE_WRITE)) := by
      unfold protEntry
      rw [if_pos ((present_iff _).mp hp')]
      simp only
      rw [setWord_same, hor]
    rw [e]
    exact hset.trans (hbelow a hp _ (h.step hset.orOf))
  · -- an absent entry: nothing is below it
    have habs : present (mem t a) = false := by simpa using hp
    have hsame := h.absent habs
    have e : protEntry below t mem' a = mem' := by
      refine if_neg ?_
      rw [hsame, ← present_iff]
      exact hp
    rw [e]
    refine fun f j => ⟨?_, fun _ => rfl⟩
    rintro (⟨rfl, rfl⟩ | hu)
    · refine (if_neg ?_).symm
      rw [hsame]
      exact hp
    · exact absurd (hu.present ht) hp

/-- the loop over entries, by induction on the list of those that are left -/
theorem protEntry_foldl (l : List (Fin 512)) (h : OrOf mem mem') :
    OrWhere (fun f j => ∃ a ∈ l, (f = t ∧ j = a) ∨ Under mem root (q ++ [a]) f) mem'
      (l.foldl (protEntry below t) mem') := by
  induction l generalizing mem' with
  | nil => exact fun f j => ⟨fun ⟨a, ha, _⟩ => absurd ha List.not_mem_nil, fun _ => rfl⟩
  | cons a l ih =>
    have hstep := protEntry_spec ht hbelow a h
    rw [List.foldl_cons]
    refine (hstep.trans (ih (h.step hstep.orOf))).congr fun f j => ?_
    simp only [List.mem_cons, exists_eq_or_imp]

theorem protEntries_spec (hq : q.length ≤ 3) (h : OrOf mem mem') :
    OrWhere (fun f _ => Under mem root q f) mem' (protEntries below t mem') := by
  refine (protEntry_foldl ht hbelow (List.finRange 512) h).congr fun f j => ?_
  rw [under_iff hq ht]
  constructor
  · rintro ⟨a, -, ⟨e, -⟩ | hu⟩
    · exact .inl e
    · exact .inr ⟨a, hu⟩
  · rintro (e | ⟨a, hu⟩)
    · exact ⟨j, List.mem_finRange j, .inl ⟨e, rfl⟩⟩
    · exact ⟨a, List.mem_finRange a, .inr hu⟩

end

/-- **The recursive pass** makes the present entries of the tables at or below `q` writable, by
induction on the depth. -/
theorem hierarchy_spec (depth : Nat) {q : List (Fin 512)} {t : Nat} (hq : q.length + depth = 3)
    (ht : nodeAt next mem root q = some t)
    (hpl : ∀ p s i, q <+: p → p.length < 3 → nodeAt next mem root p = some s →
      present (mem s i) = true → Plain (mem s i))
    (h : OrOf mem mem') :
    OrWhere (fun f _ => Under mem root q f) mem' (setKernelHierarchyMemProt depth t mem') := by
  induction depth generalizing q t mem' with
  | zero =>
    refine protEntries_spec ht (fun a _ mem'' _ => ?_) (by omega) h
    -- the lowest tables
    refine fun f j => ⟨?_, fun _ => rfl⟩
    rintro ⟨p, hp, hlen, -⟩
    have hle := hp.length_le
    rw [List.length_append, List.length_singleton] at hle
    omega
  | succ depth ih =>
    refine protEntries_spec ht (fun a hp mem'' h'' => ?_) (by omega) h
    have hplain := hpl q t a (List.prefix_refl q) (by omega) ht hp
    have hchild : direct ((mem t a ||| X86_PAGE_WRITE) &&& MMASK_PHYS).toNat = frameOf (mem t a) := by
      rw [mmask_orWrite, hplain.direct]
    have ha : nodeAt next mem root (q ++ [a]) = some (frameOf (mem t a)) := by
      rw [nodeAt_concat, ht]
      exact hplain.next hp
    rw [hchild]
    refine ih ?_ ha (fun p s i hpre => hpl p s i ((List.prefix_append q [a]).trans hpre)) h''
    rw [List.length_append, List.length_singleton]
    omega

end

/-! ## below the last top entry -/

/-- the index of the kernel image in the top table -/
abbrev LAST : Fin 512 := 511

/-- the entries below the last top entry were made writable -/
structure Opened (m m' : Machine) : Prop where
  tables : Tables m'
  plain : PlainOn KernelPage m'
  regs : SameRegs m m'
  pmem : m'.pmem = m.pmem
  node : ∀ p, p.length ≤ 3 → m'.nodeAt p = m.nodeAt p
  entry : ∀ p i, p.length ≤ 3 → m'.entry p i =
    if p.head? = some LAST then (m.entry p i).map (· ||| X86_PAGE_WRITE) else m.entry p i
  data : ∀ f, ¬ m.IsTable f → m'.mem f = m.mem f

section
variable {m m' : Machine}

theorem kernelPage_of_path {p : List (Fin 512)} {v : Nat} (hv : stem v p.length = p)
    (hp : p.head? = some LAST) : KernelPage v := by
  cases p with
  | nil => exact nomatch hp
  | cons a p =>
    have e : pageIndex v 3 = a := by
      have h := congrArg List.head? hv
      exact Option.some.inj h
    unfold KernelPage
    rw [e, Option.some.inj hp]
    decide

/-- the tables below the last top entry are those that a path through it leads to -/
theorem under_last_iff (h : Tables m) {p : List (Fin 512)} {f : Nat} (hp : p.length ≤ 3)
    (e : m.nodeAt p = some f) : Under m.mem m.cr3 [LAST] f ↔ p.head? = some LAST := by
  constructor
  · rintro ⟨r, ⟨s, rfl⟩, hlen, er⟩
    rw [h.tree p _ f hp hlen e er]
    rfl
  · intro hh
    refine ⟨p, ?_, hp, e⟩
    cases p with
    | nil => cases hh
    | cons a p =>
      rw [Option.some.inj hh]
      exact ⟨p, rfl⟩

/-- the pass over them -/
theorem opened_words {t : Nat} (hpl : PlainOn KernelPage m) (ht : m.nodeAt [LAST] = some t) :
    OrWhere (fun f _ => Under m.mem m.cr3 [LAST] f) m.mem (setKernelHierarchyMemProt 2 t m.mem) := by
  have hbelow : ∀ p s i, [LAST] <+: p → p.length < 3 → nodeAt next m.mem m.cr3 p = some s →
      present (m.mem s i) = true → Plain (m.mem s i) := by
    rintro p s i ⟨r, rfl⟩ hlen hs hp
    obtain ⟨v, hv, hi⟩ := page_of_path ([LAST] ++ r) i (by omega)
    refine hpl v (kernelPage_of_path hv rfl) _ hlen _ ?_
    rw [hv, hi]
    exact entry_eq_some.mpr ⟨s, hs, rfl, hp⟩
  exact hierarchy_spec 2 (show [LAST].length + 2 = 3 from rfl) ht hbelow
    (show OrOf m.mem m.mem from fun f j => .inl rfl)

/-- what is present stays present -/
theorem present_entry_orWrite (w : BitVec 64) : (if present (orWrite w) then some (orWrite w) else none) =
    (if present w then some w else none).map (· ||| X86_PAGE_WRITE) := by
  unfold orWrite
  by_cases hpr : present w = true
  · rw [if_pos hpr, present_orWrite, if_pos hpr, if_pos hpr]
    rfl
  · rw [if_neg hpr, if_neg hpr]
    rfl

theorem opened {t : Nat} (h : Tables m) (hpl : PlainOn KernelPage m) (ht : m.nodeAt [LAST] = some t) :
    Opened m { m with mem := setKernelHierarchyMemProt 2 t m.mem } := by
  have hset := opened_words hpl ht
  generalize setKernelHierarchyMemProt 2 t m.mem = mem' at hset
  have hnode : ∀ p, p.length ≤ 3 → Machine.nodeAt { m with mem := mem' } p = m.nodeAt p := by
    refine nodeAt_congr fun p f i _ _ => ?_
    rcases hset.orOf f i with e | e
    · exact congrArg next e
    · exact (congrArg next e).trans (next_orWrite _)
  have hentry : ∀ p i, p.length ≤ 3 → Machine.entry { m with mem := mem' } p i =
      if p.head? = some LAST then (m.entry p i).map (· ||| X86_PAGE_WRITE) else m.entry p i := by
    intro p i hp
    unfold Machine.entry
    rw [hnode p hp]
    cases e : m.nodeAt p with
    | none => simp only [Option.bind_none, Option.map_none, ite_self]
    | some f =>
      rw [Option.bind_some, Option.bind_some]
      by_cases hh : p.head? = some LAST
      · have hw : mem' f i = orWrite (m.mem f i) := (hset f i).1 ((under_last_iff h hp e).mpr hh)
        rw [if_pos hh]
        show (if present (mem' f i) then some (mem' f i) else none) = _
        rw [hw]
        exact present_entry_orWrite _
      · have hw : mem' f i = m.mem f i := (hset f i).2 fun hu => hh ((under_last_iff h hp e).mp hu)
        rw [if_neg hh]
        show (if present (mem' f i) then some (mem' f i) else none) = _
        rw [hw]
  refine ⟨⟨h.pmem, h.low, h.tree_congr hnode, fun f hf => h.used f ((isTable_congr hnode f).mp hf),
    h.root⟩, fun v hv k hk w e => ?_, ⟨rfl, rfl, rfl, rfl⟩, rfl, hnode, hentry, fun f hf => ?_⟩
  · rw [hentry _ _ length_stem_le] at e
    by_cases hh : (stem v k).head? = some LAST
    · rw [if_pos hh] at e
      obtain ⟨w', hw', rfl⟩ := Option.map_eq_some_iff.mp e
      exact (hpl v hv k hk w' hw').orWrite
    · rw [if_neg hh] at e
      exact hpl v hv k hk w e
  · funext j
    refine (hset f j).2 fun ⟨p, _, hp, e⟩ => hf ⟨p, hp, e⟩

/-- the top table itself is not below one of its entries -/
theorem Opened.top (o : Opened m m') (i : Fin 512) : m'.entry [] i = m.entry [] i :=
  (o.entry [] i (by decide)).trans (if_neg (by decide))

theorem Opened.leaf_isSome (o : Opened m m') (v : Nat) : (leaf m' v).isSome = (leaf m v).isSome := by
  unfold leaf
  rw [o.entry _ _ length_stem_le]
  by_cases hh : (stem v 3).head? = some LAST
  · rw [if_pos hh, Option.isSome_map]
  · rw [if_neg hh]

end

/-! ## the sections -/

/-- the first page of a section, and the number of its pages -/
def Section.first (s : Section) : Nat := s.start / 4096
def Section.count (s : Section) : Nat := (s.size + 4095) / 4096

def KernelImage.sections (img : KernelImage) : List Section :=
  [img.exec, img.rodata, img.data, img.bss]

/-- the calls of `kmprotect` -/
def KernelImage.calls (img : KernelImage) : List (Section × Nat) :=
  [(img.exec, KPROT_READ ||| KPROT_EXECUTE), (img.rodata, KPROT_READ),
    (img.data, KPROT_READ ||| KPROT_WRITE), (img.bss, KPROT_READ ||| KPROT_WRITE)]

/-- The sections as `kernel.ld` lays them out: in this order from `0xffffffff80000000` on, each from
the start of a page on, and below the end of the address space. -/
structure KernelImage.Laid (img : KernelImage) : Prop where
  aligned : ∀ s ∈ img.sections, s.start % 4096 = 0
  inside : ∀ s ∈ img.sections, 0xffffffff80000000 ≤ s.start ∧ s.start ≤ s.stop ∧ s.stop ≤ 2^64
  order : img.sections.Pairwise fun s t => s.stop ≤ t.start

/-- a section as it stands in a laid out image -/
structure Section.Placed (s : Section) : Prop where
  aligned : s.start % 4096 = 0
  base : 0xffffffff80000000 ≤ s.start
  le : s.start ≤ s.stop
  stop : s.stop ≤ 2^64

/-- what `kmprotect` makes of an entry -/
def setProt (m : Machine) (prot : Nat) (w : BitVec 64) : BitVec 64 :=
  w &&& ~~~(X86_PAGE_USER ||| X86_PAGE_WRITE ||| m.nxMask) ||| pageProtFlags m prot

theorem getLsbD_protFlags (m : Machine) (prot : Nat) {i : Nat} (hi : i < 64) :
    (pageProtFlags m prot).getLsbD i = decide (i = 1 ∧ prot &&& KPROT_WRITE ≠ 0 ∨
      i = 2 ∧ prot &&& KPROT_USER ≠ 0 ∨ i = 63 ∧ m.nx = true ∧ prot &&& KPROT_EXECUTE = 0) := by
  have hw : ∀ i < 64, X86_PAGE_WRITE.getLsbD i = decide (i = 1) := by decide
  have hu : ∀ i < 64, X86_PAGE_USER.getLsbD i = decide (i = 2) := by decide
  have hx : ∀ i < 64, X86_PAGE_NOEXEC.getLsbD i = decide (i = 63) := by decide
  have key (P : Prop) [Decidable P] (b : BitVec 64) {k : Nat} (hb : b.getLsbD i = decide (i = k)) :
      (if P then b else 0).getLsbD i = decide (i = k ∧ P) := by
    by_cases hP : P
    · rw [if_pos hP, hb, decide_eq_decide]
      exact ⟨fun h => ⟨h, hP⟩, fun h => h.1⟩
    · rw [if_neg hP, decide_eq_false fun h => hP h.2]
      exact BitVec.getLsbD_zero
  have hnx : m.nxMask.getLsbD i = decide (i = 63 ∧ m.nx = true) := key _ _ (hx i hi)
  have hthird : (if prot &&& KPROT_EXECUTE = 0 then m.nxMask else 0).getLsbD i =
      decide (i = 63 ∧ m.nx = true ∧ prot &&& KPROT_EXECUTE = 0) := by
    by_cases hP : prot &&& KPROT_EXECUTE = 0
    · rw [if_pos hP, hnx, decide_eq_decide]
      exact ⟨fun h => ⟨h.1, h.2, hP⟩, fun h => ⟨h.1, h.2.1⟩⟩
    · rw [if_neg hP, decide_eq_false fun h => hP h.2.2]
      exact BitVec.getLsbD_zero
  unfold pageProtFlags
  rw [BitVec.getLsbD_or, BitVec.getLsbD_or, key _ _ (hw i hi), key _ _ (hu i hi), hthird,
    ← Bool.decide_or, ← Bool.decide_or, decide_eq_decide, or_assoc]

theorem getLsbD_protMask (m : Machine) {i : Nat} (hi : i < 64) :
    (~~~(X86_PAGE_USER ||| X86_PAGE_WRITE ||| m.nxMask)).getLsbD i =
      !decide (i = 2 ∨ i = 1 ∨ i = 63 ∧ m.nx = true) := by
  have key : ∀ nx : Bool, ∀ i < 64, (~~~(X86_PAGE_USER ||| X86_PAGE_WRITE |||
      if nx then X86_PAGE_NOEXEC else 0)).getLsbD i =
      !decide (i = 2 ∨ i = 1 ∨ i = 63 ∧ nx = true) := by decide
  exact key m.nx i hi

/-- only the flags of the protection change -/
theorem getLsbD_setProt (m : Machine) (prot : Nat) (w : BitVec 64) {i : Nat} (h1 : i ≠ 1) (h2 : i ≠ 2)
    (h3 : i ≠ 63) : (setProt m prot w).getLsbD i = w.getLsbD i := by
  by_cases hi : i < 64
  · unfold setProt
    rw [BitVec.getLsbD_or, BitVec.getLsbD_and, getLsbD_protMask m hi, getLsbD_protFlags m prot hi,
      decide_eq_false (by omega), decide_eq_false (by omega), Bool.not_false, Bool.and_true,
      Bool.or_false]
  · rw [BitVec.getLsbD_of_ge _ _ (by omega), BitVec.getLsbD_of_ge _ _ (by omega)]

theorem large_setProt (m : Machine) (prot : Nat) (w : BitVec 64) :
    large (setProt m prot w) = large w :=
  getLsbD_setProt m prot w (by decide) (by decide) (by decide)

theorem and_setProt {mask : BitVec 64} (h1 : mask.getLsbD 1 = false) (h2 : mask.getLsbD 2 = false)
    (h3 : mask.getLsbD 63 = false) (m : Machine) (prot : Nat) (w : BitVec 64) :
    setProt m prot w &&& mask = w &&& mask := by
  apply BitVec.eq_of_getLsbD_eq
  intro i _
  rw [BitVec.getLsbD_and, BitVec.getLsbD_and]
  by_cases hi : i = 1 ∨ i = 2 ∨ i = 63
  · have hm : mask.getLsbD i = false := by
      rcases hi with rfl | rfl | rfl
      · exact h1
      · exact h2
      · exact h3
    rw [hm, Bool.and_false, Bool.and_false]
  · rw [getLsbD_setProt m prot w (by omega) (by omega) (by omega)]

theorem frameOf_setProt (m : Machine) (prot : Nat) (w : BitVec 64) :
    frameOf (setProt m prot w) = frameOf w :=
  congrArg BitVec.toNat (and_setProt (by decide) (by decide) (by decide) m prot w)

theorem userOk_setProt (m : Machine) (prot : Nat) (w : BitVec 64) :
    userOk (setProt m prot w) = decide (prot &&& KPROT_USER ≠ 0) := by
  unfold userOk setProt
  rw [BitVec.getLsbD_or, BitVec.getLsbD_and, getLsbD_protMask m (by decide),
    getLsbD_protFlags m prot (by decide), decide_eq_true (Or.inl rfl), Bool.not_true, Bool.and_false,
    Bool.false_or, decide_eq_decide]
  simp

theorem writable_setProt (m : Machine) (prot : Nat) (w : BitVec 64) :
    writable (setProt m prot w) = decide (prot &&& KPROT_WRITE ≠ 0) := by
  unfold writable setProt
  rw [BitVec.getLsbD_or, BitVec.getLsbD_and, getLsbD_protMask m (by decide),
    getLsbD_protFlags m prot (by decide), decide_eq_true (Or.inr (Or.inl rfl)), Bool.not_true,
    Bool.and_false, Bool.false_or, decide_eq_decide]
  simp

theorem noExec_setProt {m : Machine} (hnx : m.nx = true) (prot : Nat) (w : BitVec 64) :
    noExec (setProt m prot w) = decide (prot &&& KPROT_EXECUTE = 0) := by
  unfold noExec setProt
  rw [BitVec.getLsbD_or, BitVec.getLsbD_and, getLsbD_protMask m (by decide),
    getLsbD_protFlags m prot (by decide), decide_eq_true (Or.inr (Or.inr ⟨rfl, hnx⟩)), Bool.not_true,
    Bool.and_false, Bool.false_or, decide_eq_decide]
  simp [hnx]

/-- number of pages of a section that `kmprotect` visits -/
def Section.visited (s : Section) : Nat := covered s.first s.count

/-- the iterator gets through the section -/
def Section.InSpan (s : Section) : Prop := s.count = 0 ∨ FuseeOS.InSpan s.first s.count

instance (s : Section) : Decidable s.InSpan := inferInstanceAs (Decidable (_ ∨ _))

theorem KernelImage.Laid.placed {img : KernelImage} (h : img.Laid) {s : Section}
    (hs : s ∈ img.sections) : s.Placed :=
  ⟨h.aligned s hs, (h.inside s hs).1, (h.inside s hs).2.1, (h.inside s hs).2.2⟩

namespace Section
variable {s : Section}

theorem Placed.first_ge (h : s.Placed) : 0xffffffff80000 ≤ s.first := by
  have := h.base
  unfold first
  omega

theorem Placed.last (h : s.Placed) : s.first + s.count ≤ 2^52 := by
  have h1 := h.stop
  have h2 := h.aligned
  have h3 := h.le
  unfold first count size
  omega

theorem Placed.count_lt (h : s.Placed) : s.size + 4095 < 2^64 ∧ s.count < 2^39 := by
  have h1 := h.stop
  have h2 := h.base
  have h3 := h.le
  unfold count size
  omega

theorem Placed.kernelPage (h : s.Placed) {v : Nat} (hlo : s.first ≤ v) (hhi : v < 2^52) :
    KernelPage v := by
  have h1 := h.first_ge
  show 256 < v / 512^3 % 512
  omega

theorem visited_le (s : Section) : s.visited ≤ s.count := by
  unfold visited covered
  exact Nat.min_le_left _ _

/-- pages of sections that follow each other -/
theorem Placed.apart {t : Section} (h : s.Placed) (ht : t.Placed) (hst : s.stop ≤ t.start) :
    s.first + s.count ≤ t.first := by
  have h1 := h.aligned
  have h2 := ht.aligned
  have h3 := h.le
  unfold first count size
  omega

end Section

/-- pages at the end of the address space are told apart by the bits that are translated -/
theorem samePage_upper {v v' : Nat} (hv : 0xffff000000000 ≤ v) (hv' : 0xffff000000000 ≤ v')
    (hlt : v < 2^52) (hlt' : v' < 2^52) : SamePage v v' ↔ v = v' := by
  unfold SamePage
  omega

/-- the sections `l` were protected as far as the iterator reaches -/
structure SectionsSet (m : Machine) (l : List (Section × Nat)) (m' : Machine) : Prop where
  tables : Tables m'
  cr3 : m'.cr3 = m.cr3
  nx : m'.nx = m.nx
  ioSize : m'.ioSize = m.ioSize
  cpu : l ≠ [] → m'.cpuCr3 = m.cr3
  pmem : m'.pmem = m.pmem
  node : ∀ p, p.length ≤ 3 → m'.nodeAt p = m.nodeAt p
  upper : ∀ p i, p.length ≤ 2 → m'.entry p i = m.entry p i
  set : ∀ x ∈ l, ∀ j < x.1.visited, leaf m' (x.1.first + j) =
    (leaf m (x.1.first + j)).map (setProt m x.2)
  rest : ∀ v, (∀ x ∈ l, ∀ j < x.1.visited, ¬ SamePage v (x.1.first + j)) → leaf m' v = leaf m v
  data : ∀ f, ¬ m.IsTable f → m'.mem f = m.mem f

section
variable {m m' : Machine}

theorem SectionsSet.refl (h : Tables m) : SectionsSet m [] m :=
  ⟨h, rfl, rfl, rfl, fun hn => absurd rfl hn, rfl, fun _ _ => rfl, fun _ _ _ => rfl,
    fun _ hx => absurd hx List.not_mem_nil, fun _ _ => rfl, fun _ _ => rfl⟩

theorem reload_tables (h : Tables m) : Tables (reloadCr3 m) := ⟨h.pmem, h.low, h.tree, h.used, h.root⟩

/-- **One section**: the iterator either gets through it or leaves the page directory. -/
theorem kmprotect_section {s : Section} (h : Tables m) (hpl : PlainOn KernelPage m) (hs : s.Placed)
    (hmap : ∀ j < s.count, (leaf m (s.first + j)).isSome) (prot : Nat) :
    (s.InSpan ∧ ∃ m', kmprotect m s.start s.size prot = some (reloadCr3 m') ∧
      Protected m s.first s.visited (setProt m prot) m') ∨
      (¬ s.InSpan ∧ kmprotect m s.start s.size prot = none) := by
  obtain ⟨hsize, hlt⟩ := hs.count_lt
  by_cases h0 : s.count = 0
  · -- an empty section: only the top table is looked at
    refine .inl ⟨.inl h0, m, ?_, ?_⟩
    · have hz : s.size = 0 := by
        unfold Section.count at h0
        omega
      unfold kmprotect
      simp only
      rw [hz, forPages_empty rfl]
      exact congrArg (Option.map reloadCr3) (lowVisit_upper _ m _ _ _ (by decide))
    · have hv : s.visited = 0 := by
        have := s.visited_le
        omega
      rw [hv]
      exact Protected.refl h _ _
  · by_cases hspan : FuseeOS.InSpan s.first s.count
    · refine .inl ⟨.inr hspan, kmprotect_spec h hpl rfl hsize rfl (Nat.pos_of_ne_zero h0) hspan
        (fun v hv => ?_) prot fun j hj => hmap j (lt_of_lt_of_le hj s.visited_le)⟩
      have hf : KernelPage s.first := hs.kernelPage (le_refl _) (by have := hs.last; omega)
      exact hf.congr (hv.congr hspan)
    · refine .inr ⟨fun hin => hin.elim h0 hspan, ?_⟩
      unfold kmprotect
      simp only
      rw [forPages_over rfl hsize rfl (Nat.pos_of_ne_zero h0) hlt hspan]
      rfl

/-- the calls one after the other -/
def protectSections : List (Section × Nat) → Machine → Option Machine
  | [], m => some m
  | x :: l, m => (kmprotect m x.1.start x.1.size x.2).bind (protectSections l)

/-- sections that follow each other have no page in common -/
theorem Section.Placed.pages_apart {x y : Section} (hx : x.Placed) (hy : y.Placed) (hxy : x.stop ≤ y.start)
    {i j : Nat} (hi : i < x.visited) (hj : j < y.count) : ¬ SamePage (y.first + j) (x.first + i) := by
  intro hsame
  have h1 := hx.apart hy hxy
  have h2 := x.visited_le
  have h3 := hx.first_ge
  have h4 := hy.last
  rw [samePage_upper (by omega) (by omega) (by omega) (by omega)] at hsame
  omega

/-- mapped pages stay mapped -/
theorem Protected.isSome {s n v : Nat} {set : BitVec 64 → BitVec 64} (g : Protected m s n set m')
    (hv : (leaf m v).isSome) : (leaf m' v).isSome := by
  by_cases hc : ∀ i < n, ¬ SamePage v (s + i)
  · rw [g.toOnlyLeaves.leaf hc]
    exact hv
  · push Not at hc
    obtain ⟨i, hi, hsame⟩ := hc
    rw [hsame.leaf] at hv ⊢
    rw [g.changed i hi, Option.isSome_map]
    exact hv

/-- one section, then the others -/
theorem SectionsSet.cons {m₁ : Machine} {x : Section × Nat} {l : List (Section × Nat)}
    (s : SectionsSet (reloadCr3 m₁) l m') (g : Protected m x.1.first x.1.visited (setProt m x.2) m₁)
    (hlast : l = [] → m' = reloadCr3 m₁)
    (happart : ∀ y ∈ l, ∀ i < x.1.visited, ∀ j < y.1.count, ¬ SamePage (y.1.first + j) (x.1.first + i)) :
    SectionsSet m (x :: l) m' := by
  refine ⟨s.tables, s.cr3.trans g.regs.cr3, s.nx.trans g.regs.nx, s.ioSize.trans g.regs.ioSize, fun _ => ?_,
    s.pmem.trans g.pmem, fun p hp => (s.node p hp).trans (g.node p hp),
    fun p i hp => (s.upper p i hp).trans (g.toOnlyLeaves.upper (Nat.lt_succ_of_le hp) i), fun y hy j hj => ?_,
    fun v hv => ?_, fun f hf => (s.data f fun ht => hf ((isTable_congr g.node f).mp ht)).trans (g.data f hf)⟩
  · cases l with
    | nil =>
      rw [hlast rfl]
      exact g.regs.cr3
    | cons z l => exact (s.cpu (List.cons_ne_nil _ _)).trans g.regs.cr3
  · rcases List.mem_cons.mp hy with rfl | hy
    · rw [s.rest _ fun z hz i hi hsame => ?_]
      · exact g.changed j hj
      · have hlt := lt_of_lt_of_le hi z.1.visited_le
        refine happart z hz j hj i hlt ?_
        unfold SamePage at hsame ⊢
        exact hsame.symm
    · have hlt := lt_of_lt_of_le hj y.1.visited_le
      rw [s.set y hy j hj]
      have hset : setProt (reloadCr3 m₁) y.2 = setProt m y.2 := by
        unfold setProt pageProtFlags Machine.nxMask
        rw [show (reloadCr3 m₁).nx = m.nx from g.regs.nx]
      rw [hset]
      exact congrArg _ (g.toOnlyLeaves.leaf fun i hi => happart y hy i hi j hlt)
  · rw [s.rest v fun y hy => hv y (List.mem_cons_of_mem _ hy)]
    exact g.toOnlyLeaves.leaf (hv x List.mem_cons_self)

/-- **The sections**, by induction on the list of calls: they are disjoint, so each is left as its own
call left it. -/
theorem protectSections_spec (l : List (Section × Nat)) (h : Tables m) (hpl : PlainOn KernelPage m)
    (hs : ∀ x ∈ l, x.1.Placed) (hord : l.Pairwise fun x y => x.1.stop ≤ y.1.start)
    (hmap : ∀ x ∈ l, ∀ j < x.1.count, (leaf m (x.1.first + j)).isSome) :
    ((∀ x ∈ l, x.1.InSpan) ∧ ∃ m', protectSections l m = some m' ∧ SectionsSet m l m') ∨
      ((∃ x ∈ l, ¬ x.1.InSpan) ∧ protectSections l m = none) := by
  induction l generalizing m with
  | nil => exact .inl ⟨fun _ hx => absurd hx List.not_mem_nil, m, rfl, SectionsSet.refl h⟩
  | cons x l ih =>
    have hx := hs x List.mem_cons_self
    have hrest := fun y (hy : y ∈ l) => hs y (List.mem_cons_of_mem _ hy)
    obtain ⟨hx', hord'⟩ := List.pairwise_cons.mp hord
    unfold protectSections
    rcases kmprotect_section h hpl hx (hmap x List.mem_cons_self) x.2 with ⟨hin, m₁, e, g⟩ | ⟨hout, e⟩
    swap
    · rw [e]
      exact .inr ⟨⟨x, List.mem_cons_self, hout⟩, rfl⟩
    rw [e, Option.bind_some]
    have hind := ih (m := reloadCr3 m₁) (reload_tables g.tables) (g.plain hpl) hrest hord'
      fun y hy j hj => g.isSome (hmap y (List.mem_cons_of_mem _ hy) j hj)
    rcases hind with ⟨hall, m', e', s⟩ | ⟨⟨y, hy, hout⟩, e'⟩
    · refine .inl ⟨fun y hy => ?_, m', e', s.cons g (fun hl => ?_) fun y hy i hi j hj =>
        hx.pages_apart (hrest y hy) (hx' y hy) hi hj⟩
      · rcases List.mem_cons.mp hy with rfl | hy
        · exact hin
        · exact hall y hy
      · subst hl
        exact (Option.some.inj e').symm
    · exact .inr ⟨⟨y, List.mem_cons_of_mem _ hy, hout⟩, e'⟩

end

/-! ## init_kernel_mem_prot -/

/-- the sections of the image are mapped -/
def KernelImage.Mapped (img : KernelImage) (m : Machine) : Prop :=
  ∀ s ∈ img.sections, ∀ j < s.count, (leaf m (s.first + j)).isSome

/-- there are pages for the upper half of the top table, and the iterator gets through the sections -/
def KernelImage.Returns (img : KernelImage) (m : Machine) : Prop :=
  absentTops m 256 ≤ m.pmem.pagesFree ∧ ∀ s ∈ img.sections, s.InSpan

/-- `init_kernel_mem_prot` step by step: the top table filled, the entries below the last top entry made
writable, the sections protected -/
structure MemProt (img : KernelImage) (m m₁ m₂ m' : Machine) : Prop where
  half : setKernelHalf m = some m₁
  grown : Grown KernelPage m m₁
  tops : ∀ j : Fin 512, 256 ≤ j.val → (m₁.entry [] j).isSome
  count : m₁.pmem.pagesFree + absentTops m 256 = m.pmem.pagesFree
  opened : Opened m₁ m₂
  sections : SectionsSet m₂ img.calls m'

theorem mem_calls {img : KernelImage} {x : Section × Nat} (hx : x ∈ img.calls) :
    x.1 ∈ img.sections := by
  unfold KernelImage.calls at hx
  unfold KernelImage.sections
  simp only [List.mem_cons, List.not_mem_nil, or_false] at hx ⊢
  rcases hx with rfl | rfl | rfl | rfl <;> simp

theorem calls_of_mem {img : KernelImage} {s : Section} (hs : s ∈ img.sections) :
    ∃ prot, (s, prot) ∈ img.calls := by
  unfold KernelImage.sections at hs
  unfold KernelImage.calls
  simp only [List.mem_cons, List.not_mem_nil, or_false] at hs
  rcases hs with rfl | rfl | rfl | rfl
  · exact ⟨_, List.mem_cons_self⟩
  · exact ⟨_, List.mem_cons_of_mem _ List.mem_cons_self⟩
  · exact ⟨_, List.mem_cons_of_mem _ (List.mem_cons_of_mem _ List.mem_cons_self)⟩
  · exact ⟨_, List.mem_cons_of_mem _ (List.mem_cons_of_mem _ (List.mem_cons_of_mem _
      List.mem_cons_self))⟩

theorem pairwise_calls {img : KernelImage} (h : img.Laid) :
    img.calls.Pairwise fun x y => x.1.stop ≤ y.1.start := by
  have e : img.sections = img.calls.map Prod.fst := rfl
  have ho := h.order
  rw [e, List.pairwise_map] at ho
  exact ho

theorem initKernelMemProt_eq (img : KernelImage) (m : Machine) :
    initKernelMemProt img m = (setKernelHalf m).bind fun m => (m.read m.cr3 511).bind fun e =>
      protectSections img.calls
        { m with mem := setKernelHierarchyMemProt 2 (direct (e &&& MMASK_PHYS).toNat) m.mem } := by
  unfold initKernelMemProt KernelImage.calls
  simp only [protectSections, Option.bind_eq_bind, Option.bind_fun_some]

/-- **`init_kernel_mem_prot`** -/
theorem initKernelMemProt_spec {img : KernelImage} {m : Machine} (h : Tables m)
    (hpl : PlainOn KernelPage m) (hl : img.Laid) (hmap : img.Mapped m) :
    (img.Returns m ∧ ∃ m₁ m₂ m', initKernelMemProt img m = some m' ∧ MemProt img m m₁ m₂ m') ∨
      (¬ img.Returns m ∧ initKernelMemProt img m = none) := by
  rw [initKernelMemProt_eq]
  rcases setKernelHalf_spec h hpl with ⟨m₁, e₁, g₁, -, htops, hcount⟩ | ⟨e₁, hlt⟩
  swap
  · rw [e₁]
    refine .inr ⟨fun hr => ?_, rfl⟩
    have := hr.1
    omega
  rw [e₁]
  -- the table behind the last entry
  obtain ⟨w, hw⟩ := Option.isSome_iff_exists.mp (htops LAST (by decide))
  obtain ⟨t, ht, hmem, -⟩ := entry_eq_some.mp hw
  obtain rfl : m₁.cr3 = t := Option.some.inj ht
  have hplain : Plain w := by
    obtain ⟨v, hv, hi⟩ := page_of_path [LAST] 0 (by decide)
    have hidx : pageIndex v 3 = LAST := by
      have hh := congrArg List.head? hv
      exact Option.some.inj hh
    refine g₁.plain v (kernelPage_of_path hv rfl) 0 (by decide) w ?_
    show m₁.entry [] (pageIndex v 3) = some w
    rw [hidx]
    exact hw
  have hnode : m₁.nodeAt [LAST] = some (frameOf w) := by
    have hs : m₁.nodeAt ([] ++ [LAST]) = (m₁.entry [] LAST).bind next := nodeAt_succ
    rw [hw] at hs
    obtain ⟨_, _, _, hp⟩ := entry_eq_some.mp hw
    exact hs.trans (hplain.next hp)
  have hread : m₁.read m₁.cr3 511 = some w := by
    rw [← hmem]
    exact read_index m₁ m₁.cr3 LAST
  have o := opened g₁.tables g₁.plain hnode
  have hsec := protectSections_spec img.calls o.tables o.plain
    (fun x hx => hl.placed (mem_calls hx)) (pairwise_calls hl) fun x hx j hj => ?_
  · rw [Option.bind_some, hread, Option.bind_some, hplain.direct]
    rcases hsec with ⟨hall, m', e', s⟩ | ⟨⟨x, hx, hout⟩, e'⟩
    · refine .inl ⟨⟨by omega, fun s hs => ?_⟩, m₁, _, m', e', e₁, g₁, htops, hcount, o, s⟩
      obtain ⟨prot, hp⟩ := calls_of_mem hs
      exact hall _ hp
    · exact .inr ⟨fun hr => hout (hr.2 _ (mem_calls hx)), e'⟩
  · rw [o.leaf_isSome, g₁.leaf]
    exact hmap x.1 (mem_calls hx) j hj

end FuseeOS
