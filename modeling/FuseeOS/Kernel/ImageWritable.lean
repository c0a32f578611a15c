import FuseeOS.Kernel.KernelProt

/-!
# The pass that makes the kernel image writable

`set_kernel_hierarchy_mem_prot(2, dir)`, with the table behind the last top entry.  It descends through
the tables that it writes to; the write bit is not one that it reads.

* `KernelTree`             pages of 4 KiB behind the last top entry;
* `translate_orOf`         the write bits take no part in the rest of a translation;
* **`kernel_image_writable`**  which words change, and what no translation notices.

The tables need not be distinct: the pass may come to one of them twice, or back to the top table.
-/

namespace FuseeOS
open Radix

/-- Behind the last top entry are tables of the direct map, and no large pages.  The entries of the lowest tables
are not looked at. -/
structure KernelTree (mem : PhysMem) (cr3 : Nat) : Prop where
  there : present (mem cr3 LAST) = true
  top : Plain (mem cr3 LAST)
  below : ∀ p f i, [LAST] <+: p → p.length < 3 → nodeAt next mem cr3 p = some f →
    present (mem f i) = true → Plain (mem f i)

/-- what a translation says but for the right to write -/
def Translation.unwritten (t : Translation) : Nat × Bool × Bool := (t.addr, t.user, t.noExec)

section
variable {mem mem' : PhysMem} {cr3 : Nat}

/-- what does not depend on bit 1 -/
theorem OrOf.same {α : Type} {g : BitVec 64 → α} (h : OrOf mem mem')
    (hg : ∀ w, g (w ||| X86_PAGE_WRITE) = g w) (f : Nat) (j : Fin 512) : g (mem' f j) = g (mem f j) := by
  rcases h f j with e | e
  · rw [e]
  · rw [e]
    unfold orWrite
    split_ifs
    · exact hg _
    · rfl

theorem OrOf.unwritten_allow (h : OrOf mem mem') {perm perm' : Translation} (hperm : perm'.unwritten = perm.unwritten)
    (f : Nat) (j : Fin 512) :
    (allow perm' (mem' f j)).unwritten = (allow perm (mem f j)).unwritten := by
  obtain ⟨haddr, huser, hexec⟩ :
      perm'.addr = perm.addr ∧ perm'.user = perm.user ∧ perm'.noExec = perm.noExec := by
    simpa [Translation.unwritten] using hperm
  have hu := h.same userOk_orWrite f j
  have hx := h.same noExec_orWrite f j
  simp only [Translation.unwritten, FuseeOS.allow, haddr, huser, hexec, hu, hx]

theorem unwritten_addr {t t' : Translation} (h : t'.unwritten = t.unwritten) (addr : Nat) :
    Translation.unwritten { t' with addr := addr } = Translation.unwritten { t with addr := addr } := by
  have hrights : (t'.user, t'.noExec) = (t.user, t.noExec) := congrArg Prod.snd h
  exact Prod.ext rfl hrights

/-- by induction on the levels that are left -/
theorem translateFrom_orOf (h : OrOf mem mem') (va k table : Nat) {perm perm' : Translation}
    (hperm : perm'.unwritten = perm.unwritten) :
    (translateFrom mem' va k table perm').map Translation.unwritten =
      (translateFrom mem va k table perm).map Translation.unwritten := by
  induction k generalizing table perm perm' with
  | zero =>
    have hallow := h.unwritten_allow hperm table (pageIndex (va / 4096) 0)
    unfold translateFrom
    dsimp only
    rw [h.same present_orWrite, h.same frameOf_orWrite]
    split_ifs
    · exact congrArg some (unwritten_addr hallow _)
    · rfl
  | succ k ih =>
    have hallow := h.unwritten_allow hperm table (pageIndex (va / 4096) (k + 1))
    unfold translateFrom
    dsimp only
    rw [h.same present_orWrite, h.same large_orWrite, h.same frameOf_orWrite]
    split_ifs
    · rfl
    · -- a large page
      exact congrArg some (unwritten_addr hallow _)
    · exact ih _ hallow
    · rfl

/-- **The write bits take no part in the rest of a translation.** -/
theorem translate_orOf (h : OrOf mem mem') (cr3 va : Nat) :
    (translate mem' cr3 va).map Translation.unwritten = (translate mem cr3 va).map Translation.unwritten := by
  unfold translate
  split_ifs
  · exact translateFrom_orOf h va 3 cr3 rfl
  · rfl

/-- the tables behind the last top entry, and no others -/
theorem KernelTree.orWhere (h : KernelTree mem cr3) :
    OrWhere (fun f _ => Under mem cr3 [LAST] f) mem
      (setKernelHierarchyMemProt 2 (direct (mem cr3 LAST &&& MMASK_PHYS).toNat) mem) := by
  have htop : nodeAt next mem cr3 [LAST] = some (frameOf (mem cr3 LAST)) := by
    rw [← List.nil_append [LAST], nodeAt_concat]
    exact h.top.next h.there
  rw [h.top.direct]
  exact hierarchy_spec 2 rfl htop h.below fun f j => Or.inl rfl

/-- **The pass over the kernel image**: the present entries of the tables behind the last top entry get the write
bit; no other bit, no absent entry and no other memory changes; and every address is translated to where it was, with
the same rights for users and for execution. -/
theorem kernel_image_writable (h : KernelTree mem cr3) :
    let mem' := setKernelHierarchyMemProt 2 (direct (mem cr3 LAST &&& MMASK_PHYS).toNat) mem
    (∀ f, Under mem cr3 [LAST] f → ∀ i, mem' f i =
      if present (mem f i) then mem f i ||| X86_PAGE_WRITE else mem f i) ∧
    (∀ f, ¬ Under mem cr3 [LAST] f → mem' f = mem f) ∧
    ∀ va, (translate mem' cr3 va).map Translation.unwritten = (translate mem cr3 va).map Translation.unwritten := by
  intro mem'
  have hw : OrWhere (fun f _ => Under mem cr3 [LAST] f) mem mem' := h.orWhere
  refine ⟨fun f hf i => (hw f i).1 hf, fun f hf => ?_, fun va => translate_orOf hw.orOf cr3 va⟩
  funext i
  exact (hw f i).2 hf

end

/-! ## a small tree -/

/-- one page at `0xffffffff80000000`, and an entry that is not present -/
def smallImage : PhysMem := fun f i =>
  if f = 0x1000 ∧ i = 511 then 0x2003
  else if f = 0x2000 ∧ i = 510 then 0x3003
  else if f = 0x3000 ∧ i = 0 then 0x4003
  else if f = 0x4000 ∧ i = 0 then 0x100001
  else if f = 0x4000 ∧ i = 1 then 0x101000
  else 0

theorem smallImage_tree : KernelTree smallImage 0x1000 := by
  have hplain : ∀ f i, Plain (smallImage f i) := by
    intro f i
    unfold smallImage
    split_ifs <;> exact ⟨by decide, by decide⟩
  exact ⟨by decide, hplain _ _, fun p f i _ _ _ _ => hplain f i⟩

theorem kernel_image_writable_small :
    let mem' := setKernelHierarchyMemProt 2 (direct (smallImage 0x1000 LAST &&& MMASK_PHYS).toNat) smallImage
    mem' 0x4000 0 = 0x100003 ∧ mem' 0x4000 1 = 0x101000 ∧
    (translate mem' 0x1000 0xffffffff80000123).map Translation.unwritten = some (0x100123, false, false) := by
  intro mem'
  obtain ⟨hset, -, htrans⟩ := kernel_image_writable smallImage_tree
  have hunder : Under smallImage 0x1000 [LAST] 0x4000 := ⟨[511, 510, 0], by decide, by decide, by decide⟩
  refine ⟨?_, ?_, ?_⟩
  · exact (hset _ hunder 0).trans (by decide)
  · exact (hset _ hunder 1).trans (by decide)
  · exact (htrans _).trans (by decide)

end FuseeOS
