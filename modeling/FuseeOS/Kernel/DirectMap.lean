import Mathlib.Tactic.NormNum
import FuseeOS.Kernel.KernelClosed

/-!
# The two layouts of the direct map

Tables of 1 GiB pages and of 2 MiB pages translate alike: `physical_to_virtual(p)` is `p`, for writing
and for the kernel alone.

* `DirsAt`             the words that the loop over the directories writes, for the pages it is given;
* `direct_map_exact`   every address below 512 GiB, by either layout.
-/

namespace FuseeOS
open Radix BootMemRegion

/-- `physical_to_virtual` -/
def physicalToVirtual (physical : Nat) : Nat := 0xffff800000000000 ||| physical

/-- the pages that `n` calls of `alloc_phys_early(1)` return -/
def earlyPages : Nat → List BootMemRegion → Option (List Nat × List BootMemRegion)
  | 0, memFree => some ([], memFree)
  | n + 1, memFree => (allocPhysEarly memFree 1).bind fun x =>
    (earlyPages n x.2).map fun y => (x.1 :: y.1, y.2)

/-- distinct page aligned frames below 4 GiB, none of them the boot loader's top table -/
structure FramesOk (bootCr3 : Nat) (ps : List Nat) : Prop where
  nodup : ps.Nodup
  aligned : ∀ p ∈ ps, p % 4096 = 0
  low : ∀ p ∈ ps, p < 2^32
  root : bootCr3 ∉ ps

/-- the boot loader's free regions have such frames -/
theorem earlyPages_ok {maps regs : List BootMemRegion} (n : Nat) (h : FreeWf maps regs)
    (hroom : n ≤ pagesOf (regs.take FREE_SCAN)) : ∃ ps regs', earlyPages n regs = some (ps, regs') ∧ ps.Nodup ∧
      ∀ p ∈ ps, p % 4096 = 0 ∧ InRegions regs p := by
  induction n generalizing regs with
  | zero => exact ⟨[], regs, rfl, List.nodup_nil, fun _ hp => absurd hp List.not_mem_nil⟩
  | succ n ih =>
    obtain ⟨p, regs₁, e, a, h₁, hc⟩ := allocPhysEarly_page h (by omega)
    obtain ⟨ps, regs', e', hnd, hps⟩ := ih h₁ (by omega)
    refine ⟨p :: ps, regs', ?_, ?_, fun q hq => ?_⟩
    · rw [earlyPages, e, Option.bind_some, e', Option.map_some]
    · exact List.nodup_cons.mpr ⟨fun hp => a.gone (hps p hp).2, hnd⟩
    · rcases List.mem_cons.mp hq with rfl | hq
      · exact ⟨a.aligned, a.has⟩
      · exact ⟨(hps q hq).1, a.sub q (hps q hq).2⟩

/-! ## the words of the directories -/

/-- what the loop writes for the indices `is`, with the pages `ps` -/
structure DirsAt (pdp : Nat) (is : List (Fin 512)) (ps : List Nat) (mem mem' : PhysMem) : Prop where
  word : ∀ x ∈ is.zip ps, mem' pdp x.1 = physEntry x.2
  dir : ∀ x ∈ is.zip ps, ∀ j : Fin 512, mem' x.2 j = largeEntry ((x.1 * 512 + j) * 0x200000)
  others : ∀ i, i ∉ is → mem' pdp i = mem pdp i
  frame : ∀ f, f ≠ pdp → f ∉ ps → mem' f = mem f

section
variable {pdp : Nat} {regs regs' : List BootMemRegion}

/-- the first call, and the others -/
theorem earlyPages_succ {n : Nat} {ps : List Nat} (h : earlyPages (n + 1) regs = some (ps, regs')) :
    ∃ p qs regs₁, allocPhysEarly regs 1 = some (p, regs₁) ∧ earlyPages n regs₁ = some (qs, regs') ∧
      ps = p :: qs := by
  rw [earlyPages] at h
  obtain ⟨⟨p, regs₁⟩, e, h⟩ := Option.bind_eq_some_iff.mp h
  obtain ⟨⟨qs, regs₂⟩, e₂, e'⟩ := Option.map_eq_some_iff.mp h
  obtain ⟨h1, h2⟩ := Prod.mk.inj e'
  exact ⟨p, qs, regs₁, e, h2 ▸ e₂, h1.symm⟩

/-- **The loop over the directories**, by induction on what is left of it. -/
theorem physDirs_at (is : List (Fin 512)) (hnd : is.Nodup) {ps : List Nat} (mem : PhysMem)
    (h : earlyPages is.length regs = some (ps, regs')) (hps : ps.Nodup) (hpdp : pdp ∉ ps) :
    ∃ mem', physDirs pdp is mem regs = some (mem', regs') ∧ DirsAt pdp is ps mem mem' := by
  induction is generalizing mem regs ps with
  | nil =>
    obtain ⟨rfl, rfl⟩ := Prod.mk.inj (Option.some.inj h)
    exact ⟨mem, rfl, fun _ hx => (nomatch hx), fun _ hx => (nomatch hx), fun _ _ => rfl, fun _ _ _ => rfl⟩
  | cons i is ih =>
    obtain ⟨hi, hnd⟩ := List.nodup_cons.mp hnd
    obtain ⟨p, qs, regs₁, e, h₁, rfl⟩ := earlyPages_succ h
    obtain ⟨hp, hps⟩ := List.nodup_cons.mp hps
    obtain ⟨hne, hqs⟩ := not_or.mp (fun e => hpdp (List.mem_cons.mpr e))
    obtain ⟨mem', e', d⟩ := ih hnd
      (setWord (Function.update mem p fun j => largeEntry ((i * 512 + j) * 0x200000)) pdp i
        (physEntry p)) h₁ hps hqs
    refine ⟨mem', ?_, fun x hx => ?_, fun x hx j => ?_, fun j hj => ?_, fun f hf hfps => ?_⟩
    · rw [physDirs, e]
      exact e'
    · rcases List.mem_cons.mp hx with rfl | hx
      · rw [d.others i hi, setWord_same]
      · exact d.word x hx
    · rcases List.mem_cons.mp hx with rfl | hx
      · -- the new directory is none of the later ones
        rw [d.frame p (Ne.symm hne) hp, setWord_node_ne _ _ _ (Ne.symm hne), Function.update_self]
      · exact d.dir x hx j
    · obtain ⟨hji, hj⟩ := not_or.mp (fun h => hj (List.mem_cons.mpr h))
      rw [d.others j hj, setWord_of_ne _ _ fun h => hji h.2, Function.update_of_ne hne]
    · obtain ⟨hfp, hf'⟩ := not_or.mp (fun h => hfps (List.mem_cons.mpr h))
      rw [d.frame f hf hf', setWord_node_ne _ _ _ hf, Function.update_of_ne hfp]

theorem length_earlyPages {n : Nat} {ps : List Nat} (h : earlyPages n regs = some (ps, regs')) :
    ps.length = n := by
  induction n generalizing regs ps with
  | zero =>
    obtain ⟨rfl, -⟩ := Prod.mk.inj (Option.some.inj h)
    rfl
  | succ n ih =>
    obtain ⟨p, qs, regs₁, -, h₁, rfl⟩ := earlyPages_succ h
    rw [List.length_cons, ih h₁]

/-- every index gets a page -/
theorem mem_zip_of_mem {is : List (Fin 512)} {ps : List Nat} (hlen : ps.length = is.length) {i : Fin 512}
    (hi : i ∈ is) : ∃ p, (i, p) ∈ is.zip ps := by
  induction is generalizing ps with
  | nil => exact nomatch hi
  | cons j is ih =>
    match ps, hlen with
    | p :: ps, hlen =>
      rcases List.mem_cons.mp hi with rfl | hi
      · exact ⟨p, List.mem_cons_self ..⟩
      · obtain ⟨q, hq⟩ := ih (Nat.succ.inj hlen) hi
        exact ⟨q, List.mem_cons_of_mem _ hq⟩

end

/-! ## the walk -/

section
variable {p : Nat} (hp : p % 4096 = 0) (hlt : p < 2^47)
include hp hlt

theorem frameOf_large : frameOf (largeEntry p) = p := by
  have e : largeEntry p &&& FRAME_MASK = BitVec.ofNat 64 p := by
    apply BitVec.eq_of_getLsbD_eq
    intro i hi
    unfold largeEntry
    rw [BitVec.getLsbD_and, getLsbD_frameMask i hi]
    by_cases hr : 12 ≤ i ∧ i < 52
    · have hflags : ∀ i < 64, 12 ≤ i → (X86_PAGE_PRESENT ||| (X86_PAGE_WRITE ||| X86_PAGE_LARGE)).getLsbD i = false := by
        decide
      rw [BitVec.or_assoc, BitVec.or_assoc, BitVec.getLsbD_or, hflags i hi hr.1, Bool.or_false,
        decide_eq_true hr, Bool.and_true]
    · rw [decide_eq_false hr, Bool.and_false, getLsbD_pageAddr hp hlt (by omega)]
  unfold frameOf
  rw [e, BitVec.toNat_ofNat]
  omega

theorem frameOf_phys : frameOf (physEntry p) = p := by
  have hf : IsFlags (X86_PAGE_PRESENT ||| X86_PAGE_WRITE) := rfl
  unfold physEntry
  rw [BitVec.or_assoc, frameOf_entry hp hlt hf]

/-- the permission bits of an entry of the direct map -/
theorem perm_largeEntry : present (largeEntry p) = true ∧ writable (largeEntry p) = true ∧
    noExec (largeEntry p) = false := by
  unfold present writable noExec largeEntry
  rw [BitVec.or_assoc, BitVec.or_assoc, bit_entry hp hlt (by decide), bit_entry hp hlt (by decide),
    bit_entry hp hlt (by decide)]
  decide

theorem perm_physEntry : present (physEntry p) = true ∧ writable (physEntry p) = true ∧
    userOk (physEntry p) = false ∧ noExec (physEntry p) = false := by
  unfold present writable userOk noExec physEntry
  rw [BitVec.or_assoc, bit_entry hp hlt (by decide), bit_entry hp hlt (by decide),
    bit_entry hp hlt (by decide), bit_entry hp hlt (by decide)]
  decide

end

/-- an address in the direct map -/
theorem physicalToVirtual_of_lt {p : Nat} (h : p < 2^39) : physicalToVirtual p = 0xffff800000000000 + p := by
  have hb : (0xffff800000000000 : Nat) = 2^47 * 131071 := by norm_num
  unfold physicalToVirtual
  rw [hb, Nat.two_pow_add_eq_or_of_lt (by omega)]

section
variable {mem : PhysMem} {va t k : Nat} {perm : Translation}

/-- an entry that points to a table -/
theorem translateFrom_table (hp : present (mem t (pageIndex (va / 4096) (k + 1))) = true)
    (hl : large (mem t (pageIndex (va / 4096) (k + 1))) = false) :
    translateFrom mem va (k + 1) t perm = translateFrom mem va k
      (frameOf (mem t (pageIndex (va / 4096) (k + 1)))) (allow perm (mem t (pageIndex (va / 4096) (k + 1)))) := by
  conv_lhs => unfold translateFrom
  simp only [hp, hl, if_true, Bool.false_eq_true, if_false]
  rfl

/-- an entry of a large page -/
theorem translateFrom_large (hp : present (mem t (pageIndex (va / 4096) (k + 1))) = true)
    (hl : large (mem t (pageIndex (va / 4096) (k + 1))) = true) (hk : k + 1 ≠ 3) :
    translateFrom mem va (k + 1) t perm = some { allow perm (mem t (pageIndex (va / 4096) (k + 1))) with
      addr := frameOf (mem t (pageIndex (va / 4096) (k + 1))) / (4096 * 512^(k + 1)) * (4096 * 512^(k + 1)) +
        va % (4096 * 512^(k + 1)) } := by
  conv_lhs => unfold translateFrom
  simp only [hp, hl, if_true, if_neg hk]
  rfl

end

section
variable {mem : PhysMem} {root pdp p : Nat}

/-- what the entry of a table of the direct map leaves of the permissions -/
theorem allow_physEntry {q : Nat} (hq : q % 4096 = 0) (hlt : q < 2^47) (u : Bool) :
    allow ⟨0, true, u, false⟩ (physEntry q) = ⟨0, true, false, false⟩ := by
  obtain ⟨-, h2, h3, h4⟩ := perm_physEntry hq hlt
  simp [allow, h2, h3, h4]

theorem allow_largeEntry {q : Nat} (hq : q % 4096 = 0) (hlt : q < 2^47) :
    allow ⟨0, true, false, false⟩ (largeEntry q) = ⟨0, true, false, false⟩ := by
  obtain ⟨-, h2, h3⟩ := perm_largeEntry hq hlt
  simp [allow, h2, h3]

/-- the walk down to the table behind entry 256 -/
theorem translate_direct (h : p < 2^39) (hpdp : pdp % 4096 = 0) (hlow : pdp < 2^47)
    (hroot : mem root ⟨PML4_PHYSICAL, by decide⟩ = physEntry pdp) :
    translate mem root (physicalToVirtual p) =
      translateFrom mem (0xffff800000000000 + p) 2 pdp ⟨0, true, false, false⟩ := by
  have hidx : pageIndex ((0xffff800000000000 + p) / 4096) 3 = ⟨PML4_PHYSICAL, by decide⟩ := by
    apply Fin.ext
    show (0xffff800000000000 + p) / 4096 / 512^3 % 512 = 256
    omega
  have hc : canonical (0xffff800000000000 + p) := by
    unfold canonical
    omega
  have hw : mem root (pageIndex ((0xffff800000000000 + p) / 4096) 3) = physEntry pdp := by rw [hidx, hroot]
  rw [physicalToVirtual_of_lt h, translate, if_pos hc, translateFrom_table
    (by rw [hw]; exact (perm_physEntry hpdp hlow).1) (by rw [hw]; exact large_physEntry hpdp hlow), hw,
    frameOf_phys hpdp hlow, allow_physEntry hpdp hlow]

/-- a page of 1 GiB -/
theorem direct_gib (h : p < 2^39) (hw : ∀ i : Fin 512, mem pdp i = largeEntry (i * 0x40000000)) :
    translateFrom mem (0xffff800000000000 + p) 2 pdp ⟨0, true, false, false⟩ =
      some ⟨p, true, false, false⟩ := by
  have hidx : (pageIndex ((0xffff800000000000 + p) / 4096) 2).val = p / 2^30 := by
    show (0xffff800000000000 + p) / 4096 / 512^2 % 512 = _
    omega
  have hw := hw (pageIndex ((0xffff800000000000 + p) / 4096) 2)
  rw [hidx] at hw
  have hal : p / 2^30 * 0x40000000 % 4096 = 0 := by omega
  have hlt : p / 2^30 * 0x40000000 < 2^47 := by omega
  rw [translateFrom_large (by rw [hw]; exact (perm_largeEntry hal hlt).1)
    (by rw [hw]; exact large_largeEntry hal hlt) (by decide), hw, allow_largeEntry hal hlt,
    frameOf_large hal hlt]
  simp only [Option.some.injEq, Translation.mk.injEq, and_true]
  omega

/-- a page of 2 MiB -/
theorem direct_mib {pd : Nat} {i : Fin 512} (h : p < 2^39) (hpd : pd % 4096 = 0) (hlow : pd < 2^47)
    (hi : i.val = p / 2^30) (hword : mem pdp i = physEntry pd)
    (hdir : ∀ j : Fin 512, mem pd j = largeEntry ((i * 512 + j) * 0x200000)) :
    translateFrom mem (0xffff800000000000 + p) 2 pdp ⟨0, true, false, false⟩ =
      some ⟨p, true, false, false⟩ := by
  have hidx : pageIndex ((0xffff800000000000 + p) / 4096) 2 = i := by
    apply Fin.ext
    show (0xffff800000000000 + p) / 4096 / 512^2 % 512 = i
    omega
  have hidx1 : (pageIndex ((0xffff800000000000 + p) / 4096) 1).val = p / 2^21 % 512 := by
    show (0xffff800000000000 + p) / 4096 / 512^1 % 512 = _
    omega
  rw [← hidx] at hword
  rw [translateFrom_table (by rw [hword]; exact (perm_physEntry hpd hlow).1)
    (by rw [hword]; exact large_physEntry hpd hlow), hword, frameOf_phys hpd hlow, allow_physEntry hpd hlow]
  have hw := hdir (pageIndex ((0xffff800000000000 + p) / 4096) 1)
  rw [hidx1, hi] at hw
  have hal : (p / 2^30 * 512 + p / 2^21 % 512) * 0x200000 % 4096 = 0 := by omega
  have hlt : (p / 2^30 * 512 + p / 2^21 % 512) * 0x200000 < 2^47 := by omega
  rw [translateFrom_large (by rw [hw]; exact (perm_largeEntry hal hlt).1)
    (by rw [hw]; exact large_largeEntry hal hlt) (by decide), hw, allow_largeEntry hal hlt,
    frameOf_large hal hlt]
  simp only [Option.some.injEq, Translation.mk.injEq, and_true]
  omega

end

/-! ## both layouts -/

/-- **Every address below 512 GiB is found at its direct address**, writable and closed to users, whatever
the layout; and the other entries of the top table stay. -/
theorem direct_map_exact (gib : Bool) (bootCr3 : Nat) (m : Machine) (regs regs' : List BootMemRegion)
    (ps : List Nat) (he : earlyPages (physMapPages gib) regs = some (ps, regs')) (hps : FramesOk bootCr3 ps) :
    ∃ m', archInitPhysicalMapping gib bootCr3 m regs = some (m', regs') ∧ m'.cr3 = bootCr3 ∧
      m'.cpuCr3 = bootCr3 ∧
      (∀ p < 2^39, translate m'.mem m'.cr3 (physicalToVirtual p) = some ⟨p, true, false, false⟩) ∧
      ∀ i : Fin 512, i.val ≠ PML4_PHYSICAL → m'.mem m'.cr3 i = m.mem bootCr3 i := by
  obtain ⟨k, hk⟩ : ∃ k, physMapPages gib = k + 1 := by
    cases gib
    · exact ⟨512, rfl⟩
    · exact ⟨0, rfl⟩
  rw [hk] at he
  obtain ⟨pdp, pds, regs₁, e, he₁, rfl⟩ := earlyPages_succ he
  obtain ⟨hpdp, hnd⟩ := List.nodup_cons.mp hps.nodup
  have hal := hps.aligned pdp (List.mem_cons_self ..)
  have hlow : pdp < 2^47 := lt_trans (hps.low pdp (List.mem_cons_self ..)) (by decide)
  have hne : pdp ≠ bootCr3 := fun e => hps.root (e ▸ List.mem_cons_self ..)
  have hinit {mem : PhysMem} (e' : physTables gib pdp m.mem regs₁ = some (mem, regs')) :
      archInitPhysicalMapping gib bootCr3 m regs = some
        ({ m with mem := setPhysical mem bootCr3 pdp, cr3 := bootCr3, cpuCr3 := bootCr3 }, regs') := by
    rw [archInitPhysicalMapping, e]
    show (physTables gib pdp m.mem regs₁).bind _ = _
    rw [e']
    rfl
  have hroot (mem : PhysMem) : setPhysical mem bootCr3 pdp bootCr3 ⟨PML4_PHYSICAL, by decide⟩ = physEntry pdp :=
    setWord_same _ _ _ _
  cases gib with
  | true =>
    obtain rfl : k = 0 := (Nat.succ.inj hk).symm
    obtain ⟨rfl, rfl⟩ := Prod.mk.inj (Option.some.inj he₁)
    refine ⟨_, hinit rfl, rfl, rfl, fun p hp => ?_, fun i hi => ?_⟩
    · refine (translate_direct hp hal hlow (hroot _)).trans (direct_gib hp fun i => ?_)
      show setPhysical _ bootCr3 pdp pdp i = _
      rw [setPhysical_node _ _ hne, Function.update_self]
    · show setPhysical _ bootCr3 pdp bootCr3 i = _
      rw [setPhysical_of_ne _ _ _ fun h => hi h.2, Function.update_of_ne (Ne.symm hne)]
  | false =>
    obtain rfl : k = 512 := (Nat.succ.inj hk).symm
    obtain ⟨mem, e', d⟩ := physDirs_at (List.finRange 512) (List.nodup_finRange 512) m.mem
      (by rw [List.length_finRange]; exact he₁) hnd hpdp
    have e'' : physTables false pdp m.mem regs₁ = some (mem, regs') := (if_neg Bool.false_ne_true).trans e'
    refine ⟨_, hinit e'', rfl, rfl, fun p hp => ?_, fun i hi => ?_⟩
    · have hlen : pds.length = (List.finRange 512).length := by
        rw [length_earlyPages he₁, List.length_finRange]
      obtain ⟨pd, hpd⟩ := mem_zip_of_mem hlen (List.mem_finRange ⟨p / 2^30, by omega⟩)
      have hmem : pd ∈ pdp :: pds := List.mem_cons_of_mem _ (List.of_mem_zip hpd).2
      have hpdne : pd ≠ bootCr3 := fun e => hps.root (e ▸ hmem)
      refine (translate_direct hp hal hlow (hroot _)).trans (direct_mib hp (hps.aligned pd hmem)
        (lt_trans (hps.low pd hmem) (by decide)) (i := ⟨p / 2^30, by omega⟩) rfl ?_ fun j => ?_)
      · show setPhysical _ bootCr3 pdp pdp _ = _
        rw [setPhysical_node _ _ hne, d.word _ hpd]
      · show setPhysical _ bootCr3 pdp pd j = _
        rw [setPhysical_node _ _ hpdne, d.dir _ hpd]
    · show setPhysical _ bootCr3 pdp bootCr3 i = _
      rw [setPhysical_of_ne _ _ _ fun h => hi h.2, d.frame bootCr3 (Ne.symm hne) fun h =>
        hps.root (List.mem_cons_of_mem _ h)]

/-- the layout of 2 MiB pages, with its 513 tables -/
theorem direct_map_exact_boot : ∃ m' regs', archInitPhysicalMapping false 0x1000 bootMachine bootRegions =
      some (m', regs') ∧ m'.cr3 = 0x1000 ∧ m'.cpuCr3 = 0x1000 ∧
      (∀ p < 2^39, translate m'.mem m'.cr3 (physicalToVirtual p) = some ⟨p, true, false, false⟩) ∧
      ∀ i : Fin 512, i.val ≠ PML4_PHYSICAL → m'.mem m'.cr3 i = bootMachine.mem 0x1000 i := by
  obtain ⟨ps, regs', e, hnd, hps⟩ := earlyPages_ok 513 bootSpace_boot.free (by decide)
  have hin (p : Nat) (hp : p ∈ ps) : 0xfff000 ≤ p ∧ p < 0x1200000 := by
    obtain ⟨r, hr, hhas⟩ := (hps p hp).2
    rw [List.mem_singleton.mp hr] at hhas
    exact hhas
  obtain ⟨m', h⟩ := direct_map_exact false 0x1000 bootMachine bootRegions regs' ps e ⟨hnd,
    fun p hp => (hps p hp).1, fun p hp => by have := hin p hp; omega, fun hp => by have := hin _ hp; omega⟩
  exact ⟨m', regs', h⟩

end FuseeOS
