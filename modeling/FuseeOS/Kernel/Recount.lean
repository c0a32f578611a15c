import FuseeOS.Kernel.SpaceRun

/-!
# The count of free pages

`pages_free` is written and never read: with another count every operation does the same.

* `forPages_blind`        a loop over the page tables, if its body does;
* `spaceStep_recount`     all operations on address spaces.
-/

namespace FuseeOS

def PhysicalMemoryAllocator.recount (n : Nat) (a : PhysicalMemoryAllocator) : PhysicalMemoryAllocator :=
  { a with pagesFree := n }

/-- `m` with the count `n` -/
def Machine.recount (n : Nat) (m : Machine) : Machine := { m with pmem := m.pmem.recount n }

/-- a step that does the same with every count -/
def Blind (f : Machine → Option Machine) : Prop := ∀ m n, ∃ k, f (m.recount n) = (f m).map (·.recount k)

/-- the same for what is done to an entry -/
def EntryBlind (f : Machine → BitVec 64 → Option (BitVec 64 × Machine)) : Prop :=
  ∀ m w n, ∃ k, f (m.recount n) w = (f m w).map fun x => (x.1, x.2.recount k)

/-! ## pages -/

theorem allocPhysPages_recount (a : PhysicalMemoryAllocator) (c : Int) (n : Nat) : ∃ k,
    allocPhysPages (a.recount n) c = (allocPhysPages a c).map fun x => (x.1, x.2.recount k) := by
  have hfrom : ∀ ls, ∃ k, allocFrom (a.recount n) ls = (allocFrom a ls).map fun x => (x.1, x.2.recount k) := by
    intro ls
    induction ls with
    | nil => exact ⟨n, rfl⟩
    | cons b ls ih =>
      unfold allocFrom
      by_cases h0 : b.npages = 0
      · rw [if_pos h0, if_pos h0]
        exact ⟨n, rfl⟩
      · rw [if_neg h0, if_neg h0]
        cases b.findClear with
        | none => exact ih
        | some off => exact ⟨(n + (2^64 - 1)) % 2^64, rfl⟩
  unfold allocPhysPages
  by_cases hc : c ≠ 1
  · rw [if_pos hc, if_pos hc]
    exact ⟨n, rfl⟩
  · rw [if_neg hc, if_neg hc]
    exact hfrom a.blocks

theorem freePhysPages_recount (a : PhysicalMemoryAllocator) (page c n : Nat) : ∃ k,
    freePhysPages (a.recount n) page c = (freePhysPages a page c).recount k := by
  have hfold : ∀ l : List Nat, l.foldl (fun a i => markPageFree a ((page + i * PAGESIZE) % 2^64))
      (a.recount n) = (l.foldl (fun a i => markPageFree a ((page + i * PAGESIZE) % 2^64)) a).recount n := by
    intro l
    induction l using List.reverseRecOn with
    | nil => rfl
    | append_singleton l i ih =>
      rw [List.foldl_append, List.foldl_append, ih]
      rfl
  unfold freePhysPages
  rw [hfold]
  exact ⟨_, rfl⟩

theorem allocZeroPage_recount (m : Machine) (n : Nat) : ∃ k,
    allocZeroPage (m.recount n) = (allocZeroPage m).map fun x => (x.1, x.2.recount k) := by
  obtain ⟨k, e⟩ := allocPhysPages_recount m.pmem 1 n
  refine ⟨k, ?_⟩
  have e' : allocPhysPages (m.recount n).pmem 1 = _ := e
  unfold allocZeroPage
  rw [e']
  cases allocPhysPages m.pmem 1 with
  | none => rfl
  | some x =>
    show (if x.1 = BADPAGE then none else _) = Option.map _ (if x.1 = BADPAGE then none else _)
    by_cases hp : x.1 = BADPAGE
    · rw [if_pos hp, if_pos hp]
      rfl
    · rw [if_neg hp, if_neg hp]
      rfl

/-! ## entries -/

theorem addTable_blind : EntryBlind addTable := by
  intro m w n
  unfold addTable
  by_cases hw : w &&& X86_PAGE_PRESENT = 0
  · rw [if_pos hw, if_pos hw]
    obtain ⟨k, e⟩ := allocZeroPage_recount m n
    refine ⟨k, ?_⟩
    rw [e]
    cases allocZeroPage m <;> rfl
  · rw [if_neg hw, if_neg hw]
    exact ⟨n, rfl⟩

theorem addPage_blind (flags : BitVec 64) : EntryBlind (addPage flags) := by
  intro m w n
  obtain ⟨k, e⟩ := allocZeroPage_recount m n
  refine ⟨k, ?_⟩
  unfold addPage
  rw [e]
  cases allocZeroPage m <;> rfl

theorem mapPage_blind (flags : BitVec 64) : EntryBlind (mapPage flags) := fun _ _ n => ⟨n, rfl⟩

theorem protectPage_blind (mask flags : BitVec 64) : EntryBlind (protectPage mask flags) :=
  fun _ _ n => ⟨n, rfl⟩

theorem removePage_blind : EntryBlind removePage := by
  intro m w n
  obtain ⟨k, e⟩ := freePhysPages_recount m.pmem (w &&& MMASK_PHYS).toNat 1 n
  refine ⟨k, ?_⟩
  unfold removePage
  have e' : freePhysPages (m.recount n).pmem (w &&& MMASK_PHYS).toNat 1 = _ := e
  rw [e']
  rfl

/-! ## loops -/

section
variable {f : Machine → BitVec 64 → Option (BitVec 64 × Machine)} {g h : Machine → Option Machine}

theorem Blind.bind (hg : Blind g) (hh : Blind h) : Blind fun m => (g m).bind h := by
  intro m n
  obtain ⟨k, e⟩ := hg m n
  simp only [e]
  cases g m with
  | none => exact ⟨k, rfl⟩
  | some m' => exact hh m' k

theorem Blind.none : Blind fun _ => none := fun _ n => ⟨n, rfl⟩

theorem Blind.some : Blind some := fun _ n => ⟨n, rfl⟩

theorem updateEntry_blind (hf : EntryBlind f) (dir i : Nat) : Blind (updateEntry f dir i) := by
  intro m n
  unfold updateEntry
  by_cases hi : i < 512
  · rw [read_of_lt _ _ hi, read_of_lt _ _ hi]
    obtain ⟨k, e⟩ := hf m (m.mem dir ⟨i, hi⟩) n
    refine ⟨k, ?_⟩
    show (f (m.recount n) (m.mem dir ⟨i, hi⟩)).bind _ = Option.map _ ((f m (m.mem dir ⟨i, hi⟩)).bind _)
    rw [e]
    cases f m (m.mem dir ⟨i, hi⟩) with
    | none => rfl
    | some x =>
      show Machine.write _ dir i x.1 = Option.map _ (Machine.write _ dir i x.1)
      unfold Machine.write
      rw [dif_pos hi, dif_pos hi]
      rfl
  · rw [read_of_ge _ _ hi, read_of_ge _ _ hi]
    exact ⟨n, rfl⟩

theorem updateEntries_blind (hf : EntryBlind f) (dir n i : Nat) : Blind (updateEntries f dir n i) := by
  induction n generalizing i with
  | zero => exact Blind.some
  | succ n ih => exact (updateEntry_blind hf dir i).bind (ih (i + 1))

/-- **A loop over the page tables**, by induction on the calls of the iterator. -/
theorem forPages_blind {body : Machine → Visit → Option Machine} (hb : ∀ v, Blind fun m => body m v)
    (addr size : Nat) : Blind fun m => forPages m addr size body := by
  have hwalk : ∀ fuel it, Blind fun m => walkPages body fuel m it := by
    intro fuel
    induction fuel with
    | zero => exact fun _ => Blind.none
    | succ fuel ih =>
      intro it m n
      have hnext : pageIterNext (m.recount n) it = pageIterNext m it := rfl
      simp only [walkPages, hnext]
      cases pageIterNext m it with
      | none => exact ⟨n, rfl⟩
      | some y =>
        obtain ⟨_ | v, it'⟩ := y
        · exact ⟨n, rfl⟩
        · exact (hb v).bind (ih it') m n
  exact fun m n => hwalk _ (pageIterCreate m.cr3 addr size) m n

end

theorem anonVisit_blind (flags : BitVec 64) (v : Visit) : Blind fun m => anonVisit flags m v := by
  unfold anonVisit
  by_cases hv : v.depth ≠ 0
  · rw [if_pos hv]
    exact updateEntries_blind addTable_blind _ _ _
  · rw [if_neg hv]
    exact updateEntries_blind (addPage_blind flags) _ _ _

theorem mapVisit_blind (flags : BitVec 64) (v : Visit) : Blind fun m => mapVisit flags m v := by
  unfold mapVisit
  by_cases hv : v.depth ≠ 0
  · rw [if_pos hv]
    exact updateEntries_blind addTable_blind _ _ _
  · rw [if_neg hv]
    exact updateEntries_blind (mapPage_blind flags) _ _ _

theorem lowVisit_blind {f : Machine → BitVec 64 → Option (BitVec 64 × Machine)} (hf : EntryBlind f)
    (v : Visit) : Blind fun m => lowVisit f m v := by
  unfold lowVisit
  by_cases hv : v.depth = 0
  · simp only [if_pos hv]
    exact updateEntries_blind hf _ _ _
  · simp only [if_neg hv]
    exact Blind.some

/-! ## the operations -/

section
variable (m : Machine) (addr phys size prot n : Nat)

theorem kmapanon_recount : ∃ k, kmapanon (m.recount n) addr size prot =
    (kmapanon m addr size prot).map (·.recount k) := by
  obtain ⟨k, e⟩ := forPages_blind (anonVisit_blind (pageProtFlags m prot)) addr size m n
  have hflags : pageProtFlags (m.recount n) prot = pageProtFlags m prot := rfl
  refine ⟨k, ?_⟩
  unfold kmapanon
  simp only [hflags] at e ⊢
  rw [e]
  cases forPages m addr size (anonVisit (pageProtFlags m prot)) <;> rfl

theorem kmap_recount : ∃ k, kmap (m.recount n) addr phys size prot =
    (kmap m addr phys size prot).map fun x => (x.1, x.2.recount k) := by
  have hflags : pageProtFlags (kmapStart (m.recount n) addr phys size) prot =
      pageProtFlags (kmapStart m addr phys size) prot := rfl
  have haddr : kmapAddr (m.recount n) addr size = kmapAddr m addr size := rfl
  have hstart : kmapStart (m.recount n) addr phys size = (kmapStart m addr phys size).recount n := rfl
  obtain ⟨k, e⟩ := forPages_blind (mapVisit_blind (pageProtFlags (kmapStart m addr phys size) prot))
    (kmapAddr m addr size) size (kmapStart m addr phys size) n
  refine ⟨k, ?_⟩
  rw [kmap_eq, kmap_eq, hflags, haddr, hstart]
  simp only at e
  rw [e]
  cases forPages (kmapStart m addr phys size) (kmapAddr m addr size) size _ <;> rfl

theorem kmprotect_recount : ∃ k, kmprotect (m.recount n) addr size prot =
    (kmprotect m addr size prot).map (·.recount k) := by
  obtain ⟨k, e⟩ := forPages_blind (lowVisit_blind (protectPage_blind
    (~~~(X86_PAGE_USER ||| X86_PAGE_WRITE ||| m.nxMask)) (pageProtFlags m prot))) addr size m n
  have hflags : pageProtFlags (m.recount n) prot = pageProtFlags m prot := rfl
  have hmask : (m.recount n).nxMask = m.nxMask := rfl
  refine ⟨k, ?_⟩
  unfold kmprotect
  simp only [hflags, hmask] at e ⊢
  rw [e]
  cases forPages m addr size _ <;> rfl

theorem kunmapanon_recount : ∃ k, kunmapanon (m.recount n) addr size =
    (kunmapanon m addr size).map (·.recount k) := by
  obtain ⟨k, e⟩ := forPages_blind (lowVisit_blind removePage_blind) addr size m n
  refine ⟨k, ?_⟩
  unfold kunmapanon
  simp only at e
  rw [e]
  cases forPages m addr size _ <;> rfl

theorem createCr3_recount : ∃ k, createCr3 (m.recount n) =
    (createCr3 m).map fun x => (x.1, x.2.recount k) := by
  obtain ⟨k, e⟩ := allocPhysPages_recount m.pmem 1 n
  refine ⟨k, ?_⟩
  have e' : allocPhys (m.recount n).pmem PAGESIZE = _ := e
  have e'' : allocPhys m.pmem PAGESIZE = allocPhysPages m.pmem 1 := rfl
  unfold createCr3
  rw [e', e'']
  cases allocPhysPages m.pmem 1 with
  | none => rfl
  | some x =>
    show (if x.1 = BADPAGE then none else _) = Option.map _ (if x.1 = BADPAGE then none else _)
    by_cases hp : x.1 = BADPAGE
    · rw [if_pos hp, if_pos hp]
      rfl
    · rw [if_neg hp, if_neg hp]
      rfl

end

def Spaces.recount (n : Nat) (s : Spaces) : Spaces := { s with machine := s.machine.recount n }

/-- **The operations do not read the count.** -/
theorem spaceStep_recount (s : Spaces) (op : SpaceOp) (n : Nat) : ∃ k,
    spaceStep (s.recount n) op = (spaceStep s op).map (·.recount k) := by
  cases op with
  | kmapanon addr size prot =>
    obtain ⟨k, e⟩ := kmapanon_recount s.machine addr size prot n
    refine ⟨k, ?_⟩
    simp only [spaceStep, Spaces.recount, e]
    cases kmapanon s.machine addr size prot <;> rfl
  | kmap addr phys size prot =>
    obtain ⟨k, e⟩ := kmap_recount s.machine addr phys size prot n
    refine ⟨k, ?_⟩
    simp only [spaceStep, Spaces.recount, e]
    cases kmap s.machine addr phys size prot <;> rfl
  | kmprotect addr size prot =>
    obtain ⟨k, e⟩ := kmprotect_recount s.machine addr size prot n
    refine ⟨k, ?_⟩
    simp only [spaceStep, Spaces.recount, e]
    cases kmprotect s.machine addr size prot <;> rfl
  | kunmapanon addr size =>
    obtain ⟨k, e⟩ := kunmapanon_recount s.machine addr size n
    refine ⟨k, ?_⟩
    simp only [spaceStep, Spaces.recount, e]
    cases kunmapanon s.machine addr size <;> rfl
  | unmapLomem => exact ⟨n, rfl⟩
  | procCreate =>
    obtain ⟨k, e⟩ := createCr3_recount s.machine n
    refine ⟨k, ?_⟩
    simp only [spaceStep, Spaces.recount, e]
    cases createCr3 s.machine <;> rfl

end FuseeOS
