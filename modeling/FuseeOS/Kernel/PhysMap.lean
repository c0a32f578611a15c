import FuseeOS.Kernel.PhysInit
import FuseeOS.Kernel.Translate

/-!
# The direct map of physical memory

`arch_init_physical_mapping`: entry 256 of the top table gets a table of 1 GiB pages, or a table of
tables of 2 MiB pages, in pages taken from the boot loader's free memory.

* `allocPhysEarly_page`    a page is taken while one is left;
* `physDirs_spec`          the loop over the 512 directories;
* `physMapping_spec`       the new tree, and what stays of the old one;
* `PhysMapped.noUser`      the direct map is closed to users.
-/

namespace FuseeOS
open Radix BootMemRegion

/-- `addr | PAGE_PRESENT | PAGE_WRITE | PAGE_LARGE` -/
def largeEntry (addr : Nat) : BitVec 64 :=
  BitVec.ofNat 64 addr ||| X86_PAGE_PRESENT ||| X86_PAGE_WRITE ||| X86_PAGE_LARGE

/-- `table | PAGE_PRESENT | PAGE_WRITE` -/
def physEntry (table : Nat) : BitVec 64 :=
  BitVec.ofNat 64 table ||| X86_PAGE_PRESENT ||| X86_PAGE_WRITE

/-- the loop over the directories of 2 MiB pages; `is` are the values of `i` that are left -/
def physDirs (pdp : Nat) : List (Fin 512) → PhysMem → List BootMemRegion →
    Option (PhysMem × List BootMemRegion)
  | [], mem, memFree => some (mem, memFree)
  | i :: is, mem, memFree => do
    let (pd, memFree) ← allocPhysEarly memFree 1
    let mem := Function.update mem pd fun j => largeEntry ((i * 512 + j) * 0x200000)
    physDirs pdp is (setWord mem pdp i (physEntry pd)) memFree

/-- the entries of `pdp`; `gib` is the answer of `is_1gb_pages_supported` -/
def physTables (gib : Bool) (pdp : Nat) (mem : PhysMem) (memFree : List BootMemRegion) :
    Option (PhysMem × List BootMemRegion) :=
  if gib then some (Function.update mem pdp fun i => largeEntry (i * 0x40000000), memFree)
  else physDirs pdp (List.finRange 512) mem memFree

/-- `gKernel.cr3[PML4_PHYSICAL] = pdp | PAGE_PRESENT | PAGE_WRITE` -/
def setPhysical (mem : PhysMem) (cr3 pdp : Nat) : PhysMem :=
  setWord mem cr3 ⟨PML4_PHYSICAL, by decide⟩ (physEntry pdp)

/-- `arch_init_physical_mapping`; the tables are reached through the boot loader's identity map -/
def archInitPhysicalMapping (gib : Bool) (bootCr3 : Nat) (m : Machine) (memFree : List BootMemRegion) :
    Option (Machine × List BootMemRegion) := do
  let (pdp, memFree) ← allocPhysEarly memFree 1
  let (mem, memFree) ← physTables gib pdp m.mem memFree
  return ({ m with mem := setPhysical mem bootCr3 pdp, cr3 := bootCr3, cpuCr3 := bootCr3 }, memFree)

/-! ## pages of the boot loader's free memory -/

/-- the address lies in one of the regions -/
def InRegions (regs : List BootMemRegion) (p : Nat) : Prop := ∃ r ∈ regs, r.Has p

/-- page `p` was taken from the regions -/
structure Early (regs : List BootMemRegion) (p : Nat) (regs' : List BootMemRegion) : Prop where
  has : InRegions regs p
  gone : ¬ InRegions regs' p
  sub : ∀ q, InRegions regs' q → InRegions regs q
  aligned : p % 4096 = 0

section
variable {maps regs regs' : List BootMemRegion} {p : Nat}

/-- what is left are parts of the regions -/
theorem takeEarly_sub {size n : Nat} (h : FreeWf maps regs) (e : takeEarly size n regs = some (p, regs'))
    {q : Nat} (hq : InRegions regs' q) : InRegions regs q := by
  obtain ⟨l, r, t, rfl, hr, rfl, rfl⟩ := takeEarly_some e
  have hmem : r ∈ l ++ r :: t := List.mem_append_right _ (List.mem_cons_self ..)
  obtain ⟨s, hs, hhas⟩ := hq
  rcases List.mem_append.mp hs with hs | hs
  · exact ⟨s, List.mem_append_left _ hs, hhas⟩
  · rcases List.mem_cons.mp hs with rfl | hs
    · exact ⟨r, hmem, rest_has (h.wf r hmem) hr hhas⟩
    · exact ⟨s, List.mem_append_right _ (List.mem_cons_of_mem _ hs), hhas⟩

theorem carveAll_sub (ns : List Nat) (h : FreeWf maps regs) (e : carveAll ns regs = some regs') {q : Nat}
    (hq : InRegions regs' q) : InRegions regs q := by
  induction ns generalizing regs with
  | nil =>
    rw [Option.some.inj e]
    exact hq
  | cons n ns ih =>
    obtain ⟨⟨b, m⟩, ht, hm⟩ := Option.bind_eq_some_iff.mp e
    exact takeEarly_sub h ht (ih (h.takeEarly (Nat.mul_mod_left ..) ht) hm)

theorem takeEarly_early {n : Nat} (h : FreeWf maps regs) (e : takeEarly 4096 n regs = some (p, regs')) :
    Early regs p regs' := by
  have e₀ := e
  obtain ⟨l, r, t, rfl, hr, rfl, rfl⟩ := takeEarly_some e
  have hmem : r ∈ l ++ r :: t := List.mem_append_right _ (List.mem_cons_self ..)
  have hwf := h.wf r hmem
  have hbase : r.Has r.base := ⟨Nat.le_refl _, by omega⟩
  obtain ⟨-, h2, h3⟩ := List.pairwise_append.mp h.disjoint
  obtain ⟨h4, -⟩ := List.pairwise_cons.mp h2
  refine ⟨⟨r, hmem, hbase⟩, ?_, ?_, hwf.aligned (by omega)⟩
  · rintro ⟨q, hq, hhas⟩
    rcases List.mem_append.mp hq with hq | hq
    · exact h3 q hq r (List.mem_cons_self ..) _ ⟨hhas, hbase⟩
    · rcases List.mem_cons.mp hq with rfl | hq
      · -- the rest of the region starts behind the page
        obtain ⟨h5, h6⟩ := hhas
        have hsz := rest_size hwf hr
        have hb := @rest_base r 4096 hwf (by omega)
        omega
      · exact h4 q hq _ ⟨hbase, hhas⟩
  · exact fun q hq => takeEarly_sub h e₀ hq

/-- a page is found while there is one, and then there is one less -/
theorem takeEarly_count (n : Nat) (hwf : ∀ r ∈ regs, r.Wf) (h0 : 0 < pagesOf (regs.take n)) :
    ∃ p regs', takeEarly 4096 n regs = some (p, regs') ∧
      pagesOf (regs'.take n) + 1 = pagesOf (regs.take n) := by
  induction n generalizing regs with
  | zero => exact absurd h0 (Nat.lt_irrefl 0)
  | succ n ih =>
    cases regs with
    | nil => exact absurd h0 (Nat.lt_irrefl 0)
    | cons r t =>
      unfold takeEarly
      by_cases hr : r.size ≥ 4096
      · have hsz := rest_size (hwf r (List.mem_cons_self ..)) hr
        refine ⟨r.base, r.rest 4096 :: t, if_pos hr, ?_⟩
        rw [List.take_succ_cons, List.take_succ_cons, pagesOf_cons, pagesOf_cons]
        omega
      · rw [List.take_succ_cons, pagesOf_cons] at h0
        obtain ⟨p, t', e, hc⟩ := ih (fun q hq => hwf q (List.mem_cons_of_mem _ hq)) (by omega)
        refine ⟨p, r :: t', ?_, ?_⟩
        · rw [if_neg hr, e]
          rfl
        · rw [List.take_succ_cons, List.take_succ_cons, pagesOf_cons, pagesOf_cons]
          omega

/-- **A page is taken while one is left.** -/
theorem allocPhysEarly_page (h : FreeWf maps regs) (h0 : 0 < pagesOf (regs.take FREE_SCAN)) :
    ∃ p regs', allocPhysEarly regs 1 = some (p, regs') ∧ Early regs p regs' ∧ FreeWf maps regs' ∧
      pagesOf (regs'.take FREE_SCAN) + 1 = pagesOf (regs.take FREE_SCAN) := by
  obtain ⟨p, regs', e, hc⟩ := takeEarly_count FREE_SCAN h.wf h0
  refine ⟨p, regs', ?_, takeEarly_early h e, h.takeEarly (by decide) e, hc⟩
  have h1 := allocPhysEarly_of_lt (n := 1) (by decide) regs
  rw [show CInt.toInt 1 = 1 from rfl, show 1 * 4096 = 4096 from rfl, e] at h1
  exact h1

/-- the directories of 2 MiB pages `pd`, for the values `is` of the loop -/
structure Dirs (pdp : Nat) (is : List (Fin 512)) (mem : PhysMem) (regs : List BootMemRegion)
    (pd : Fin 512 → Nat) (mem' : PhysMem) (regs' : List BootMemRegion) : Prop where
  sub : ∀ q, InRegions regs' q → InRegions regs q
  has : ∀ i ∈ is, InRegions regs (pd i)
  gone : ∀ i ∈ is, ¬ InRegions regs' (pd i)
  aligned : ∀ i ∈ is, pd i % 4096 = 0
  inj : ∀ i ∈ is, ∀ j ∈ is, pd i = pd j → i = j
  word : ∀ i ∈ is, mem' pdp i = physEntry (pd i)
  dir : ∀ i ∈ is, ∀ j : Fin 512, mem' (pd i) j = largeEntry ((i * 512 + j) * 0x200000)
  others : ∀ i, i ∉ is → mem' pdp i = mem pdp i
  frame : ∀ f, f ≠ pdp → ¬ InRegions regs f → mem' f = mem f

/-- **The loop over the directories**, by induction on what is left of it. -/
theorem physDirs_spec {pdp : Nat} (is : List (Fin 512)) (hnd : is.Nodup) (mem : PhysMem)
    (h : FreeWf maps regs) (hroom : is.length ≤ pagesOf (regs.take FREE_SCAN))
    (hpdp : ¬ InRegions regs pdp) : ∃ mem' regs' pd, physDirs pdp is mem regs = some (mem', regs') ∧
      FreeWf maps regs' ∧ Dirs pdp is mem regs pd mem' regs' := by
  induction is generalizing mem regs with
  | nil =>
    exact ⟨mem, regs, fun _ => 0, rfl, h, fun _ h => h, fun _ h => (nomatch h), fun _ h => (nomatch h),
      fun _ h => (nomatch h), fun _ h => (nomatch h), fun _ h => (nomatch h), fun _ h => (nomatch h),
      fun _ _ => rfl, fun _ _ _ => rfl⟩
  | cons i is ih =>
    obtain ⟨hi, hnd⟩ := List.nodup_cons.mp hnd
    rw [List.length_cons] at hroom
    obtain ⟨p, regs₁, e, a, h₁, hc⟩ := allocPhysEarly_page h (by omega)
    obtain ⟨mem', regs', pd, e', h', d⟩ := ih hnd
      (setWord (Function.update mem p fun j => largeEntry ((i * 512 + j) * 0x200000)) pdp i
        (physEntry p)) h₁ (by omega) fun hp => hpdp (a.sub _ hp)
    have hne : p ≠ pdp := fun e => hpdp (e ▸ a.has)
    -- the new directory is none of the later ones
    have hpd : ∀ j ∈ is, pd j ≠ p := fun j hj e => a.gone (e ▸ d.has j hj)
    have hself : ∀ j ∈ is, Function.update pd i p j = pd j := fun j hj =>
      Function.update_of_ne (fun e : j = i => hi (e ▸ hj)) _ _
    have hall (P : Fin 512 → Nat → Prop) (h0 : P i p) (hs : ∀ j ∈ is, P j (pd j)) :
        ∀ j ∈ i :: is, P j (Function.update pd i p j) := by
      intro j hj
      rcases List.mem_cons.mp hj with rfl | hj
      · rw [Function.update_self]
        exact h0
      · rw [hself j hj]
        exact hs j hj
    refine ⟨mem', regs', Function.update pd i p, ?_, h', fun q hq => a.sub q (d.sub q hq),
      hall (fun _ q => InRegions regs q) a.has fun j hj => a.sub _ (d.has j hj),
      hall (fun _ q => ¬ InRegions regs' q) (fun hp => a.gone (d.sub _ hp)) d.gone,
      hall (fun _ q => q % 4096 = 0) a.aligned d.aligned, ?_, ?_, ?_, ?_, ?_⟩
    · rw [physDirs, e]
      exact e'
    · refine hall (fun j q => ∀ k ∈ i :: is, q = Function.update pd i p k → j = k) ?_ fun j hj => ?_
      · exact hall (fun k q => p = q → i = k) (fun _ => rfl) fun k hk e => absurd e.symm (hpd k hk)
      · exact hall (fun k q => pd j = q → j = k) (fun e => absurd e (hpd j hj)) (d.inj j hj)
    · refine hall (fun j q => mem' pdp j = physEntry q) ?_ d.word
      rw [d.others i hi, setWord_same]
    · refine hall (fun j q => ∀ k : Fin 512, mem' q k = largeEntry ((j * 512 + k) * 0x200000))
        (fun j => ?_) d.dir
      rw [d.frame p hne a.gone, setWord_node_ne _ _ _ hne, Function.update_self]
    · intro j hj
      obtain ⟨hji, hj⟩ := not_or.mp (fun h => hj (List.mem_cons.mpr h))
      rw [d.others j hj, setWord_of_ne _ _ fun h => hji h.2, Function.update_of_ne hne.symm]
    · intro f hf hreg
      rw [d.frame f hf fun h => hreg (a.sub f h), setWord_node_ne _ _ _ hf,
        Function.update_of_ne fun e : f = p => hreg (e ▸ a.has)]

end

/-! ## the entries -/

section
variable {p : Nat} (hp : p % 4096 = 0) (hlt : p < 2^47)
include hp hlt

theorem next_physEntry : next (physEntry p) = some p := by
  have hf : IsFlags (X86_PAGE_PRESENT ||| X86_PAGE_WRITE) := rfl
  have hpl := plain_entry hp hlt hf
  have hpres : present (BitVec.ofNat 64 p ||| (X86_PAGE_PRESENT ||| X86_PAGE_WRITE)) = true := by
    unfold present
    rw [bit_entry hp hlt (by decide)]
    decide
  unfold physEntry
  rw [BitVec.or_assoc, hpl.next hpres, frameOf_entry hp hlt hf]

theorem large_physEntry : large (physEntry p) = false := by
  unfold physEntry large
  rw [BitVec.or_assoc, bit_entry hp hlt (by decide)]
  decide

theorem large_largeEntry : large (largeEntry p) = true := by
  unfold largeEntry large
  rw [BitVec.or_assoc, BitVec.or_assoc, bit_entry hp hlt (by decide)]
  decide

theorem userOk_largeEntry : userOk (largeEntry p) = false := by
  unfold largeEntry userOk
  rw [BitVec.or_assoc, BitVec.or_assoc, bit_entry hp hlt (by decide)]
  decide

theorem next_largeEntry : next (largeEntry p) = none := by
  unfold next
  rw [large_largeEntry hp hlt, Bool.not_true, Bool.and_false]
  rfl

end

/-! ## the tables of the direct map -/

/-- The tables below entry 256: new pages, and every way through them ends where users may not go. -/
structure PhysTree (mem : PhysMem) (pdp : Nat) (regs regs' : List BootMemRegion) : Prop where
  tree : Proper next mem pdp 2
  fresh : ∀ p t, nodeAt next mem pdp p = some t → InRegions regs t ∧ ¬ InRegions regs' t
  closed : ∀ p t i, nodeAt next mem pdp p = some t → p.length = 2 ∨ large (mem t i) = true →
    userOk (mem t i) = false

section
variable {mem : PhysMem} {pdp : Nat} {regs regs₁ regs' : List BootMemRegion}

theorem physTree_gib (h : Early regs pdp regs') (hw : ∀ i, mem pdp i = largeEntry (i * 0x40000000)) :
    PhysTree mem pdp regs regs' := by
  have hnode : ∀ p t, nodeAt next mem pdp p = some t → p = [] ∧ pdp = t := fun p t e =>
    nodeAt_leaf (fun i => by rw [hw i, next_largeEntry (by omega) (by omega)]) e
  refine ⟨fun p q t _ _ ep eq => ?_, fun p t e => ?_, fun p t i e _ => ?_⟩
  · rw [(hnode p t ep).1, (hnode q t eq).1]
  · rw [← (hnode p t e).2]
    exact ⟨h.has, h.gone⟩
  · rw [← (hnode p t e).2, hw i, userOk_largeEntry (by omega) (by omega)]

theorem physTree_dirs {pd : Fin 512 → Nat} (h : Early regs pdp regs₁) (hlow : ∀ q, InRegions regs q → q < 2^47)
    {mem₀ mem₁ : PhysMem} (d : Dirs pdp (List.finRange 512) mem₀ regs₁ pd mem₁ regs')
    (hmem : ∀ f, InRegions regs f → mem f = mem₁ f) : PhysTree mem pdp regs regs' := by
  have hall (i : Fin 512) : i ∈ List.finRange 512 := List.mem_finRange i
  have hpd (i : Fin 512) : InRegions regs (pd i) := h.sub _ (d.has i (hall i))
  have hent (i : Fin 512) : pd i % 4096 = 0 ∧ pd i < 2^47 := ⟨d.aligned i (hall i), hlow _ (hpd i)⟩
  have hword (i : Fin 512) : mem pdp i = physEntry (pd i) := by
    rw [hmem pdp h.has, d.word i (hall i)]
  have hdir (i j : Fin 512) : mem (pd i) j = largeEntry ((i * 512 + j) * 0x200000) := by
    rw [hmem _ (hpd i), d.dir i (hall i)]
  have hbound (i j : Fin 512) : (i.val * 512 + j) * 0x200000 % 4096 = 0 ∧
      (i.val * 512 + j) * 0x200000 < 2^47 := by omega
  have hnode : ∀ p t, nodeAt next mem pdp p = some t → (p = [] ∧ pdp = t) ∨ ∃ i, p = [i] ∧ pd i = t := by
    intro p t e
    cases p with
    | nil => exact .inl ⟨rfl, Option.some.inj e⟩
    | cons i p =>
      unfold nodeAt at e
      rw [hword i, next_physEntry (hent i).1 (hent i).2, Option.bind_some] at e
      obtain ⟨rfl, et⟩ := nodeAt_leaf (fun j => by
        rw [hdir i j, next_largeEntry (hbound i j).1 (hbound i j).2]) e
      exact .inr ⟨i, rfl, et⟩
  have hne (i : Fin 512) : pd i ≠ pdp := fun e => h.gone (e ▸ d.has i (hall i))
  refine ⟨fun p q t _ _ ep eq => ?_, fun p t e => ?_, fun p t i e hl => ?_⟩
  · rcases hnode p t ep with ⟨rfl, rfl⟩ | ⟨i, rfl, rfl⟩
    · rcases hnode q _ eq with ⟨rfl, -⟩ | ⟨j, rfl, et⟩
      · rfl
      · exact absurd et (hne j)
    · rcases hnode q _ eq with ⟨rfl, et⟩ | ⟨j, rfl, et⟩
      · exact absurd et.symm (hne i)
      · rw [d.inj j (hall j) i (hall i) et]
  · rcases hnode p t e with ⟨-, rfl⟩ | ⟨i, -, rfl⟩
    · exact ⟨h.has, fun hg => h.gone (d.sub _ hg)⟩
    · exact ⟨hpd i, d.gone i (hall i)⟩
  · rcases hnode p t e with ⟨rfl, rfl⟩ | ⟨j, rfl, rfl⟩
    · rw [hword i, large_physEntry (hent i).1 (hent i).2] at hl
      rcases hl with hl | hl
      · cases hl
      · cases hl
    · rw [hdir j i, userOk_largeEntry (hbound j i).1 (hbound j i).2]

end

/-! ## the new top entry -/

/-- number of pages that the direct map takes -/
def physMapPages (gib : Bool) : Nat := if gib then 1 else 513

/-- what `arch_init_physical_mapping` makes of the tables of `m` and of the free regions `regs` -/
structure PhysMapped (m : Machine) (regs : List BootMemRegion) (m' : Machine)
    (regs' : List BootMemRegion) : Prop where
  sub : ∀ q, InRegions regs' q → InRegions regs q
  cr3 : m'.cr3 = m.cr3
  cpu : m'.cpuCr3 = m.cr3
  below : ∃ pdp, Replant next m.mem m.cr3 2 ⟨PML4_PHYSICAL, by decide⟩ pdp m'.mem ∧
    PhysTree m'.mem pdp regs regs'
  words : ∀ t i, m.IsTable t → ¬ (t = m.cr3 ∧ i.val = PML4_PHYSICAL) → m'.mem t i = m.mem t i

section
variable {maps regs regs' : List BootMemRegion} {m m' : Machine} {mem : PhysMem} {pdp : Nat}

theorem setPhysical_of_ne (mem : PhysMem) (cr3 pdp : Nat) {t : Nat} {i : Fin 512}
    (h : ¬ (t = cr3 ∧ i.val = PML4_PHYSICAL)) : setPhysical mem cr3 pdp t i = mem t i :=
  setWord_of_ne _ _ fun e => h ⟨e.1, congrArg Fin.val e.2⟩

theorem setPhysical_node (mem : PhysMem) (pdp : Nat) {cr3 t : Nat} (h : t ≠ cr3) :
    setPhysical mem cr3 pdp t = mem t := setWord_node_ne _ _ _ h

theorem physMapped_of (hapart : ∀ t, m.IsTable t → ¬ InRegions regs t)
    (hlow : ∀ q, InRegions regs q → q < 2^47) (hp : InRegions regs pdp) (halign : pdp % 4096 = 0)
    (hsub : ∀ q, InRegions regs' q → InRegions regs q)
    (hframe : ∀ f, ¬ InRegions regs f → mem f = m.mem f) (hcr3 : m'.cr3 = m.cr3)
    (hcpu : m'.cpuCr3 = m.cr3) (hmem : m'.mem = setPhysical mem m.cr3 pdp)
    (htree : PhysTree m'.mem pdp regs regs') : PhysMapped m regs m' regs' := by
  have hroot : m.IsTable m.cr3 := ⟨[], Nat.zero_le _, rfl⟩
  refine ⟨hsub, hcr3, hcpu, ⟨pdp, ⟨?_, fun j hj => ?_, fun s hs hne => ?_, ?_, htree.tree⟩, htree⟩, ?_⟩
  · rw [hmem, setPhysical, setWord_same, next_physEntry halign (hlow _ hp)]
  · rw [hmem, setPhysical_of_ne _ _ _ fun h => hj (Fin.ext h.2), hframe _ (hapart _ hroot)]
  · rw [hmem, setPhysical_node _ _ hne, hframe _ (hapart _ hs)]
  · rintro s ⟨p, -, e⟩ hs
    exact hapart s hs (htree.fresh p s e).1
  · intro t i ht hne
    rw [hmem, setPhysical_of_ne _ _ _ hne, hframe _ (hapart _ ht)]

/-- **The direct map is built** while there is room for its tables. -/
theorem physMapping_spec (gib : Bool) (bootCr3 : Nat) (m : Machine) (h : FreeWf maps regs)
    (hlow : ∀ q, InRegions regs q → q < 2^47)
    (hapart : ∀ t, Machine.IsTable { m with cr3 := bootCr3 } t → ¬ InRegions regs t)
    (hroom : physMapPages gib ≤ pagesOf (regs.take FREE_SCAN)) :
    ∃ m' regs', archInitPhysicalMapping gib bootCr3 m regs = some (m', regs') ∧
      PhysMapped { m with cr3 := bootCr3 } regs m' regs' := by
  have hpos : 0 < physMapPages gib := by cases gib <;> decide
  obtain ⟨pdp, regs₁, e, a, h₁, hc⟩ := allocPhysEarly_page h (by omega)
  have hroot : Machine.IsTable { m with cr3 := bootCr3 } bootCr3 := ⟨[], Nat.zero_le _, rfl⟩
  -- the top table is no page of the regions
  have hne {q : Nat} (hq : InRegions regs q) : q ≠ bootCr3 := fun e => hapart _ hroot (e ▸ hq)
  have hinit {mem : PhysMem} {regs' : List BootMemRegion}
      (e' : physTables gib pdp m.mem regs₁ = some (mem, regs')) :
      archInitPhysicalMapping gib bootCr3 m regs = some
        ({ m with mem := setPhysical mem bootCr3 pdp, cr3 := bootCr3, cpuCr3 := bootCr3 }, regs') := by
    rw [archInitPhysicalMapping, e]
    show (physTables gib pdp m.mem regs₁).bind _ = _
    rw [e']
    rfl
  cases gib with
  | true =>
    refine ⟨_, _, hinit rfl, physMapped_of hapart hlow a.has a.aligned a.sub (fun f hf => ?_) rfl rfl rfl
      (physTree_gib a fun i => ?_)⟩
    · exact Function.update_of_ne (fun e : f = pdp => hf (e ▸ a.has)) _ _
    · show setPhysical _ bootCr3 pdp pdp i = _
      rw [setPhysical_node _ _ (hne a.has), Function.update_self]
  | false =>
    have hroom' : 513 ≤ pagesOf (regs.take FREE_SCAN) := hroom
    obtain ⟨mem, regs', pd, e', -, d⟩ := physDirs_spec (List.finRange 512)
      (List.nodup_finRange 512) m.mem h₁ (by rw [List.length_finRange]; omega) a.gone
    have e'' : physTables false pdp m.mem regs₁ = some (mem, regs') := (if_neg Bool.false_ne_true).trans e'
    refine ⟨_, _, hinit e'', physMapped_of hapart hlow a.has a.aligned (fun q hq => a.sub q (d.sub q hq))
      (fun f hf => ?_) rfl rfl rfl (physTree_dirs a hlow d fun f hf => ?_)⟩
    · exact d.frame f (fun e => hf (e ▸ a.has)) fun hf' => hf (a.sub f hf')
    · exact setPhysical_node _ _ (hne hf)

/-! ## the tables afterwards -/

variable (h : PhysMapped m regs m' regs') (ht : Proper next m.mem m.cr3 3)
include h ht

theorem PhysMapped.tree : Proper next m'.mem m'.cr3 3 := by
  obtain ⟨pdp, g, -⟩ := h.below
  rw [h.cr3]
  exact g.proper ht

theorem PhysMapped.node {a : Fin 512} (ha : a.val ≠ PML4_PHYSICAL) {p : List (Fin 512)}
    (hp : p.length ≤ 2) : m'.nodeAt (a :: p) = m.nodeAt (a :: p) := by
  obtain ⟨pdp, g, -⟩ := h.below
  unfold Machine.nodeAt
  rw [h.cr3, nodeAt_replant ht g a p hp, if_neg fun e => ha (congrArg Fin.val e)]

/-- the entries behind the other entries of the top table stay -/
theorem PhysMapped.entry {a : Fin 512} (ha : a.val ≠ PML4_PHYSICAL) {p : List (Fin 512)}
    (hp : p.length ≤ 2) (i : Fin 512) : m'.entry (a :: p) i = m.entry (a :: p) i := by
  unfold Machine.entry
  rw [h.node ht ha hp]
  cases e : m.nodeAt (a :: p) with
  | none => rfl
  | some t =>
    have hlen : (a :: p).length ≤ 3 := Nat.succ_le_succ hp
    have hne : t ≠ m.cr3 := fun h =>
      List.cons_ne_nil a p (ht _ [] t hlen (Nat.zero_le _) e (h ▸ rfl))
    rw [Option.bind_some, Option.bind_some, h.words t i ⟨_, hlen, e⟩ fun h => hne h.1]

omit ht in
theorem PhysMapped.entry_top {a : Fin 512} (ha : a.val ≠ PML4_PHYSICAL) :
    m'.entry [] a = m.entry [] a := by
  have hroot : m.IsTable m.cr3 := ⟨[], Nat.zero_le _, rfl⟩
  rw [entry_of_node (show m'.nodeAt [] = some m'.cr3 from rfl),
    entry_of_node (show m.nodeAt [] = some m.cr3 from rfl), h.cr3, h.words _ a hroot fun h => ha h.2]

/-- the tables are old ones or pages from the free regions -/
theorem PhysMapped.isTable {t : Nat} (e : m'.IsTable t) :
    m.IsTable t ∨ InRegions regs t ∧ ¬ InRegions regs' t := by
  obtain ⟨pdp, g, w⟩ := h.below
  obtain ⟨p, hp, e⟩ := e
  cases p with
  | nil =>
    have et : m'.cr3 = t := Option.some.inj e
    exact .inl ⟨[], hp, by rw [← et, h.cr3]; rfl⟩
  | cons a p =>
    have hlen : p.length ≤ 2 := Nat.le_of_succ_le_succ hp
    by_cases ha : a.val = PML4_PHYSICAL
    · refine .inr (w.fresh p t ?_)
      rw [h.cr3, nodeAt_replant ht g a p hlen, if_pos (Fin.ext ha)] at e
      exact e
    · exact .inl ⟨_, hp, (h.node ht ha hlen).symm.trans e⟩

/-- **The direct map is closed to users**, large pages included. -/
theorem PhysMapped.noUser (hm : NoUser m) : NoUser m' := by
  intro a p i w ha hp e hl
  obtain ⟨pdp, g, u⟩ := h.below
  by_cases h256 : a.val = PML4_PHYSICAL
  · obtain ⟨t, hn, rfl, -⟩ := entry_eq_some.mp e
    unfold Machine.nodeAt at hn
    rw [h.cr3, nodeAt_replant ht g a p hp, if_pos (Fin.ext h256)] at hn
    exact u.closed p t i hn hl
  · rw [h.entry ht h256 hp] at e
    exact hm a p i w ha hp e hl

end

end FuseeOS
