import FuseeOS.Kernel.PageIter

/-!
# `kmprotect`

The rights of an entry have no part in where the iterator goes, so the walk over the tables that
`kmprotect` changes is the walk over the tables as they were.

* `kmprotect_eq`     the entries of the batches of depth 0 are set, and nothing else;
* `kmprotect_last`   of two calls for one range, the second alone counts.
-/

namespace FuseeOS

/-- the rights of the entries `es` are set -/
def protectAt (m : Machine) (prot : Nat) (es : List (Nat × Nat)) : Machine :=
  { m with mem := fun t i => if (t, i.val) ∈ es then setProt m prot (m.mem t i) else m.mem t i }

section
variable {m m' : Machine} {prot : Nat} {es : List (Nat × Nat)}

/-- mask and flags cover the same bits -/
theorem setProt_setProt (m : Machine) (p q : Nat) (w : BitVec 64) :
    setProt m q (setProt m p w) = setProt m q w := by
  apply BitVec.eq_of_getLsbD_eq
  intro i hi
  unfold setProt
  rw [BitVec.getLsbD_or, BitVec.getLsbD_or, BitVec.getLsbD_and, BitVec.getLsbD_and, BitVec.getLsbD_or,
    BitVec.getLsbD_and, getLsbD_protMask m hi, getLsbD_protFlags m p hi]
  by_cases hb : i = 2 ∨ i = 1 ∨ i = 63 ∧ m.nx = true
  · simp [hb]
  · have hoff : ¬(i = 1 ∧ p &&& KPROT_WRITE ≠ 0 ∨ i = 2 ∧ p &&& KPROT_USER ≠ 0 ∨
        i = 63 ∧ m.nx = true ∧ p &&& KPROT_EXECUTE = 0) := by tauto
    rw [decide_eq_false hb, decide_eq_false hoff]
    simp

theorem protectAt_nil (m : Machine) (prot : Nat) : protectAt m prot [] = m := by
  simp [protectAt]

theorem protectAt_of_mem {t : Nat} {i : Fin 512} (h : (t, i.val) ∈ es) :
    (protectAt m prot es).mem t i = setProt m prot (m.mem t i) := if_pos h

theorem protectAt_of_not_mem {t : Nat} {i : Fin 512} (h : (t, i.val) ∉ es) :
    (protectAt m prot es).mem t i = m.mem t i := if_neg h

/-- a second protection of the same entries -/
theorem protectAt_protectAt (m : Machine) (p q : Nat) (es : List (Nat × Nat)) :
    protectAt (protectAt m p es) q es = protectAt m q es := by
  have hmem : (protectAt (protectAt m p es) q es).mem = (protectAt m q es).mem := by
    funext t i
    by_cases h : (t, i.val) ∈ es
    · rw [protectAt_of_mem h, protectAt_of_mem h, protectAt_of_mem h]
      exact setProt_setProt m p q (m.mem t i)
    · rw [protectAt_of_not_mem h, protectAt_of_not_mem h, protectAt_of_not_mem h]
  exact congrArg (fun mem => { m with mem := mem }) hmem

/-! ## where the iterator goes -/

/-- the iterator sees the bits of the address only -/
theorem next_congr_frames (h : ∀ t i, m'.mem t i &&& MMASK_PHYS = m.mem t i &&& MMASK_PHYS)
    (it : PageIterator) : pageIterNext m' it = pageIterNext m it := by
  have hdir (dir index offset : Nat) :
      iterComputeDir m' dir index offset = iterComputeDir m dir index offset := by
    unfold iterComputeDir
    by_cases hi : offset + index < 512
    · rw [read_of_lt m' dir hi, read_of_lt m dir hi]
      show some (direct (m'.mem dir _ &&& MMASK_PHYS).toNat) = some (direct (m.mem dir _ &&& MMASK_PHYS).toNat)
      rw [h]
    · rw [read_of_ge m' dir hi, read_of_ge m dir hi]
  have hvisit (d up : Fin 4) (it : PageIterator) : iterVisit m' d up it = iterVisit m d up it := by
    unfold iterVisit
    rw [hdir]
  have h3 (it : PageIterator) : iterLoop3 m' it = iterLoop3 m it := by
    unfold iterLoop3
    rw [hvisit]
  have h2 (it : PageIterator) : iterLoop2 m' it = iterLoop2 m it := by
    unfold iterLoop2
    rw [hvisit, h3]
  have h1 (it : PageIterator) : iterLoop1 m' it = iterLoop1 m it := by
    unfold iterLoop1
    rw [hvisit, h2]
  unfold pageIterNext
  split
  · rfl
  · exact h3 _
  · exact h2 _
  · exact h1 _
  · exact h1 _
  · rfl

theorem frames_protectAt (m : Machine) (prot : Nat) (es : List (Nat × Nat)) (t : Nat) (i : Fin 512) :
    (protectAt m prot es).mem t i &&& MMASK_PHYS = m.mem t i &&& MMASK_PHYS := by
  by_cases h : (t, i.val) ∈ es
  · rw [protectAt_of_mem h]
    exact and_setProt (by decide) (by decide) (by decide) m prot _
  · rw [protectAt_of_not_mem h]

theorem iterBatches_congr (h : ∀ t i, m'.mem t i &&& MMASK_PHYS = m.mem t i &&& MMASK_PHYS) (fuel : Nat)
    (it : PageIterator) : iterBatches m' fuel it = iterBatches m fuel it := by
  induction fuel generalizing it with
  | zero => rfl
  | succ fuel ih =>
    rw [iterBatches, iterBatches, next_congr_frames h]
    cases pageIterNext m it with
    | none => rfl
    | some y =>
      obtain ⟨_ | v, it'⟩ := y
      · rfl
      · show (iterBatches m' fuel it').bind _ = (iterBatches m fuel it').bind _
        rw [ih]

theorem batches_congr (hcr3 : m'.cr3 = m.cr3) (h : ∀ t i, m'.mem t i &&& MMASK_PHYS = m.mem t i &&& MMASK_PHYS)
    (addr size : Nat) : batches m' addr size = batches m addr size := by
  unfold batches
  simp only
  rw [hcr3, iterBatches_congr h]

/-- a batch of depth 0 lies in its table -/
theorem next_bounded {it it' : PageIterator} {v : Visit} (h : pageIterNext m it = some (some v, it'))
    (hlow : v.depth = 0) : ∀ i < v.len.toNat, v.offset + i < 512 := by
  have hvisit {d up : Fin 4} {it : PageIterator} (h : iterVisit m d up it = some (some v, it')) :
      ∀ i < v.len.toNat, v.offset + i < 512 := by
    unfold iterVisit at h
    obtain ⟨dir, -, h⟩ := Option.bind_eq_some_iff.mp h
    obtain ⟨len, hlen, h⟩ := Option.bind_eq_some_iff.mp h
    obtain ⟨rfl, -⟩ : _ = v ∧ _ = it' := by simpa using h
    unfold iterComputeLen at hlen
    obtain ⟨c, -, hc⟩ := Option.bind_eq_some_iff.mp hlen
    have hc : (if c > 512 then 512 else c) - (it.offset d : Int) = len := Option.some.inj hc
    intro i hi
    dsimp only at hi ⊢
    split at hc <;> omega
  have h3 {it : PageIterator} (h : iterLoop3 m it = some (some v, it')) :
      ∀ i < v.len.toNat, v.offset + i < 512 := by
    unfold iterLoop3 at h
    split at h
    · exact hvisit h
    · exact nomatch h
  have h2 {it : PageIterator} (h : iterLoop2 m it = some (some v, it')) :
      ∀ i < v.len.toNat, v.offset + i < 512 := by
    unfold iterLoop2 at h
    split at h
    · exact hvisit h
    · exact h3 h
  have h1 {it : PageIterator} (h : iterLoop1 m it = some (some v, it')) :
      ∀ i < v.len.toNat, v.offset + i < 512 := by
    unfold iterLoop1 at h
    split at h
    · exact hvisit h
    · exact h2 h
  unfold pageIterNext at h
  split at h
  · -- the top table is not of depth 0
    obtain ⟨rfl, -⟩ : _ = v ∧ _ = it' := by simpa using h
    exact absurd hlow (Nat.succ_ne_zero 2)
  · exact h3 h
  · exact h2 h
  · exact h1 h
  · exact h1 h
  · exact nomatch h

/-! ## the walk -/

/-- one more entry -/
theorem updateEntry_protect {t i : Nat} (hi : i < 512) :
    updateEntry (protectPage (~~~(X86_PAGE_USER ||| X86_PAGE_WRITE ||| m.nxMask)) (pageProtFlags m prot))
      t i (protectAt m prot es) = some (protectAt m prot (es ++ [(t, i)])) := by
  have hw : setProt m prot ((protectAt m prot es).mem t ⟨i, hi⟩) = setProt m prot (m.mem t ⟨i, hi⟩) := by
    by_cases h : (t, i) ∈ es
    · rw [protectAt_of_mem h, setProt_setProt]
    · rw [protectAt_of_not_mem h]
  have hmem : Radix.setWord (protectAt m prot es).mem t ⟨i, hi⟩ (setProt m prot (m.mem t ⟨i, hi⟩)) =
      (protectAt m prot (es ++ [(t, i)])).mem := by
    funext t' i'
    by_cases he : t' = t ∧ i' = ⟨i, hi⟩
    · obtain ⟨rfl, rfl⟩ := he
      rw [Radix.setWord_same, protectAt_of_mem (by simp)]
    · rw [Radix.setWord_of_ne _ _ he]
      have hne : ¬(t' = t ∧ i'.val = i) := fun h => he ⟨h.1, Fin.ext h.2⟩
      unfold protectAt
      simp [hne]
  unfold updateEntry
  rw [read_of_lt _ _ hi]
  show Machine.write (protectAt m prot es) t i (setProt m prot ((protectAt m prot es).mem t ⟨i, hi⟩)) = _
  rw [hw]
  unfold Machine.write
  rw [dif_pos hi]
  exact congrArg (fun mem => some { m with mem := mem }) hmem

/-- the entries of a batch, by induction on their number -/
theorem updateEntries_protect (m : Machine) (prot : Nat) (es : List (Nat × Nat)) (t n off : Nat) (h : ∀ i < n, off + i < 512) :
    updateEntries (protectPage (~~~(X86_PAGE_USER ||| X86_PAGE_WRITE ||| m.nxMask)) (pageProtFlags m prot))
      t n off (protectAt m prot es) =
      some (protectAt m prot (es ++ (List.range n).map fun i => (t, off + i))) := by
  induction n generalizing off es with
  | zero =>
    rw [List.range_zero, List.map_nil, List.append_nil]
    rfl
  | succ n ih =>
    have hoff : off < 512 := h 0 (Nat.succ_pos n)
    rw [updateEntries, updateEntry_protect hoff]
    refine (ih (es ++ [(t, off)]) (off + 1) fun i hi => by have := h (i + 1) (by omega); omega).trans ?_
    have hlist : (t, off) :: (List.range n).map (fun i => (t, off + 1 + i)) =
        (List.range (n + 1)).map fun i => (t, off + i) := by
      rw [List.range_succ_eq_map, List.map_cons, List.map_map]
      refine List.cons_eq_cons.mpr ⟨rfl, List.map_congr_left fun i _ => ?_⟩
      exact congrArg (t, ·) (by show off + 1 + i = off + (i + 1); omega)
    rw [List.append_assoc, List.singleton_append, hlist]

/-- **The walk**: the entries of the batches of depth 0 are set, by induction on the calls. -/
theorem walkPages_protect (m : Machine) (prot : Nat) (es : List (Nat × Nat)) {vs : List Visit} (fuel : Nat) (it : PageIterator)
    (h : iterBatches m fuel it = some vs) :
    walkPages (lowVisit (protectPage (~~~(X86_PAGE_USER ||| X86_PAGE_WRITE ||| m.nxMask))
      (pageProtFlags m prot))) fuel (protectAt m prot es) it =
      some (protectAt m prot (es ++ leafEntries vs)) := by
  induction fuel generalizing it es vs with
  | zero => cases h
  | succ fuel ih =>
    have hnext := next_congr_frames (frames_protectAt m prot es) it
    cases e : pageIterNext m it with
    | none =>
      rw [iterBatches, e] at h
      cases h
    | some y =>
      obtain ⟨_ | v, it'⟩ := y
      · rw [iterBatches, e] at h
        obtain rfl : [] = vs := Option.some.inj h
        rw [walkPages, hnext, e, show leafEntries [] = [] from rfl, List.append_nil]
        rfl
      · rw [iterBatches_visit _ e] at h
        obtain ⟨vs', h', rfl⟩ := Option.map_eq_some_iff.mp h
        rw [walkPages_visit _ (hnext.trans e)]
        by_cases hlow : v.depth = 0
        · have hbody := updateEntries_protect m prot es v.dir _ _ (next_bounded e hlow)
          rw [lowVisit, if_pos hlow, hbody, Option.bind_some, ih _ it' h', leafEntries_low hlow,
            List.append_assoc]
          rfl
        · rw [lowVisit, if_neg hlow, Option.bind_some, ih _ it' h', leafEntries_high hlow]

theorem kmprotect_eq {addr size : Nat} {vs : List Visit} (h : batches m addr size = some vs) :
    kmprotect m addr size prot = some (reloadCr3 (protectAt m prot (leafEntries vs))) := by
  have hwalk := walkPages_protect m prot [] (visits (pageIterCreate m.cr3 addr size) + 1)
    (pageIterCreate m.cr3 addr size) h
  rw [protectAt_nil, List.nil_append] at hwalk
  unfold kmprotect forPages
  simp only
  rw [hwalk, Option.map_some]

end

/-- `m'` is `m` with the rights of the entries `es` set to `prot` -/
structure RightsOnly (m : Machine) (prot : Nat) (es : List (Nat × Nat)) (m' : Machine) : Prop where
  visited : ∀ t i, (t, i.val) ∈ es → m'.mem t i = setProt m prot (m.mem t i)
  others : ∀ t i, (t, i.val) ∉ es → m'.mem t i = m.mem t i
  frame : ∀ t i, frameOf (m'.mem t i) = frameOf (m.mem t i)
  isPresent : ∀ t i, present (m'.mem t i) = present (m.mem t i)
  /-- bits 1, 2 and 63 are write, user and no-execute -/
  bits : ∀ t i b, b ≠ 1 → b ≠ 2 → b ≠ 63 → (m'.mem t i).getLsbD b = (m.mem t i).getLsbD b
  rest : m' = { m with mem := m'.mem, cpuCr3 := m.cr3 }

theorem rightsOnly_protectAt (m : Machine) (prot : Nat) (es : List (Nat × Nat)) :
    RightsOnly m prot es (reloadCr3 (protectAt m prot es)) := by
  have hbits (t : Nat) (i : Fin 512) (b : Nat) (h1 : b ≠ 1) (h2 : b ≠ 2) (h3 : b ≠ 63) :
      ((protectAt m prot es).mem t i).getLsbD b = (m.mem t i).getLsbD b := by
    by_cases h : (t, i.val) ∈ es
    · rw [protectAt_of_mem h, getLsbD_setProt m prot _ h1 h2 h3]
    · rw [protectAt_of_not_mem h]
  refine ⟨fun t i h => protectAt_of_mem h, fun t i h => protectAt_of_not_mem h, fun t i => ?_,
    fun t i => hbits t i 0 (by decide) (by decide) (by decide), hbits, rfl⟩
  show frameOf ((protectAt m prot es).mem t i) = _
  by_cases h : (t, i.val) ∈ es
  · rw [protectAt_of_mem h, frameOf_setProt]
  · rw [protectAt_of_not_mem h]

/-- **`kmprotect` changes the rights of leaf entries of its range and nothing else, and the last call
wins**, whatever the tables look like.  The entries are those of all pages that `page_iter` covers. -/
theorem kmprotect_last (m : Machine) (addr size p q : Nat) (h : InGiB addr size) :
    ∃ vs m₁ m₂, batches m addr size = some vs ∧
      (∀ e ∈ leafEntries vs, ∃ j < (size + 4095) / 4096, e = leafEntry m (addr / 4096 + j)) ∧
      (∀ j < covered (addr / 4096) ((size + 4095) / 4096), leafEntry m (addr / 4096 + j) ∈ leafEntries vs) ∧
      kmprotect m addr size p = some m₁ ∧ RightsOnly m p (leafEntries vs) m₁ ∧
      kmprotect m₁ addr size q = some m₂ ∧ kmprotect m addr size q = some m₂ := by
  obtain ⟨vs, evs, hvs⟩ :
      Enumerates m addr size (addr / 4096) (covered (addr / 4096) ((size + 4095) / 4096)) := by
    rcases Nat.eq_zero_or_pos size with rfl | hpos
    · have h0 : covered (addr / 4096) ((0 + 4095) / 4096) = 0 := Nat.zero_min _
      rw [h0]
      exact batches_empty m addr
    · have hle : size ≤ 2^30 := by
        have := h.span
        omega
      exact batches_span rfl (by omega) rfl (by omega) h.inSpan
  -- the second call goes the same way
  have hagain : batches (reloadCr3 (protectAt m p (leafEntries vs))) addr size = some vs := by
    rw [← evs]
    apply batches_congr
    · rfl
    · exact frames_protectAt m p (leafEntries vs)
  have htwice : protectAt (reloadCr3 (protectAt m p (leafEntries vs))) q (leafEntries vs) =
      reloadCr3 (protectAt m q (leafEntries vs)) :=
    congrArg reloadCr3 (protectAt_protectAt m p q (leafEntries vs))
  refine ⟨vs, _, _, evs, fun e he => ?_, fun j hj => ?_, kmprotect_eq evs, rightsOnly_protectAt m p _, ?_,
    kmprotect_eq evs⟩
  · rw [hvs] at he
    obtain ⟨j, hj, rfl⟩ := List.mem_map.mp he
    exact ⟨j, lt_of_lt_of_le (List.mem_range.mp hj) (Nat.min_le_left _ _), rfl⟩
  · rw [hvs]
    exact List.mem_map.mpr ⟨j, List.mem_range.mpr hj, rfl⟩
  · rw [kmprotect_eq hagain, htwice]
    rfl

/-- three pages of the kernel image: read only, then writable -/
theorem kmprotect_last_image : ∃ vs m₁ m₂, batches bootMachine 0xffffffff80000000 0x3000 = some vs ∧
    (∀ e ∈ leafEntries vs, ∃ j < 3, e = leafEntry bootMachine (0xffffffff80000 + j)) ∧
    (∀ j < 3, leafEntry bootMachine (0xffffffff80000 + j) ∈ leafEntries vs) ∧
    kmprotect bootMachine 0xffffffff80000000 0x3000 KPROT_READ = some m₁ ∧
    RightsOnly bootMachine KPROT_READ (leafEntries vs) m₁ ∧
    kmprotect m₁ 0xffffffff80000000 0x3000 (KPROT_READ ||| KPROT_WRITE) = some m₂ ∧
    kmprotect bootMachine 0xffffffff80000000 0x3000 (KPROT_READ ||| KPROT_WRITE) = some m₂ :=
  kmprotect_last bootMachine 0xffffffff80000000 0x3000 KPROT_READ (KPROT_READ ||| KPROT_WRITE)
    ⟨by decide, by decide⟩

end FuseeOS
