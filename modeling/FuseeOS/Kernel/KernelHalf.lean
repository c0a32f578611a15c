import FuseeOS.Kernel.PageRange
import FuseeOS.Kernel.Translate

/-!
# The top table

`set_kernel_half` fills the upper half of the top table, `create_cr3` copies it for a process, and
`unmap_lomem` clears a part of the lower half.

* `setKernelHalf_spec`   afterwards every upper entry is present, or memory runs out;
* `createCr3_spec`       a fresh page with the upper entries of the running table;
* `unmapLomem_spec`      the kernel's half is left alone.
-/

namespace FuseeOS
open Radix

/-- an upper entry of the top table: a missing one gets an empty table -/
def addHalf (m : Machine) (tmp : BitVec 64) : Option (BitVec 64 × Machine) :=
  if tmp &&& X86_PAGE_PRESENT = 0 then do
    let (page, m) ← allocZeroPage m
    return (page ||| X86_PAGE_PRESENT ||| X86_PAGE_USER, m)
  else some (tmp, m)

def setKernelHalf (m : Machine) : Option Machine := updateEntries addHalf m.cr3 256 256 m

/-- `for (int i = 0; i < 128; ++i) gKernel.cr3[i] = 0` -/
def unmapLomem (m : Machine) : Machine :=
  { m with mem := Function.update m.mem m.cr3 fun i => if i.val < 128 then 0 else m.mem m.cr3 i }

/-- The lower half is cleared, the upper half copied from the table that is running.  Without a free
page, `memset` faults at the address that `BADPAGE` gives. -/
def createCr3 (m : Machine) : Option (Nat × Machine) := do
  let (cr3User, pmem) ← allocPhys m.pmem PAGESIZE
  if cr3User = BADPAGE then none
  else return (cr3User, { m with
    pmem := pmem
    mem := Function.update m.mem (direct cr3User) fun i =>
      if i.val < 256 then 0 else m.mem (direct m.cpuCr3) i })

/-- pages of the kernel's half that are not in the direct map of physical memory -/
def KernelPage (v : Nat) : Prop := 256 < (pageIndex v 3).val

theorem KernelPage.congr {v v' : Nat} (h : KernelPage v) (hv : v' / 512^2 = v / 512^2) :
    KernelPage v' := by
  unfold KernelPage at *
  have e : (pageIndex v' 3).val = (pageIndex v 3).val := by
    show v' / 512^3 % 512 = v / 512^3 % 512
    omega
  rw [e]
  exact h

/-! ## the upper half of the top table -/

/-- number of the entries of the top table, from entry `i` on, that are absent -/
def absentTops (m : Machine) (i : Nat) : Nat :=
  ((List.finRange 512).drop i).countP fun j => (m.entry [] j).isNone

section
variable {m m' : Machine} {R : Nat → Prop}

theorem entry_nil (m : Machine) (i : Fin 512) :
    m.entry [] i = if present (m.mem m.cr3 i) then some (m.mem m.cr3 i) else none := rfl

theorem absentTops_succ (m : Machine) (i : Fin 512) :
    absentTops m i = absentTops m (i + 1) + if (m.entry [] i).isNone then 1 else 0 := by
  unfold absentTops
  rw [List.drop_eq_getElem_cons (by rw [List.length_finRange]; exact i.isLt), List.countP_cons,
    List.getElem_finRange]
  rfl

theorem absentTops_congr {i : Nat} (h : ∀ j : Fin 512, i ≤ j.val → m'.entry [] j = m.entry [] j) :
    absentTops m' i = absentTops m i := by
  unfold absentTops
  refine List.countP_congr fun j hj => ?_
  obtain ⟨k, hk, e⟩ := List.getElem_of_mem hj
  rw [List.getElem_drop, List.getElem_finRange] at e
  have hij : i ≤ j.val := by
    rw [← e]
    exact Nat.le_add_right i k
  rw [h j hij]

theorem halfFlags : IsFlags (X86_PAGE_PRESENT ||| X86_PAGE_USER) := by
  unfold IsFlags
  decide

/-- an entry of `set_kernel_half`: the kernel may not write behind it -/
def HalfEntry (w : BitVec 64) : Prop := writable w = false ∧ userOk w = true ∧ noExec w = false

theorem halfEntry {p : Nat} (hp : p % 4096 = 0) (hlt : p < 2^47) :
    HalfEntry (BitVec.ofNat 64 p ||| (X86_PAGE_PRESENT ||| X86_PAGE_USER)) :=
  ⟨bit_entry hp hlt (by omega), bit_entry hp hlt (by omega), bit_entry hp hlt (by omega)⟩

theorem addHalf_step (h : Tables m) (hpl : PlainOn R m) (i : Fin 512) :
    (∃ m', updateEntry addHalf m.cr3 i m = some m' ∧ Grown R m m' ∧ NewEntries HalfEntry m m' ∧
      (m'.entry [] i).isSome ∧
      (∀ j, j ≠ i → m'.entry [] j = m.entry [] j) ∧
      m'.pmem.pagesFree + (if (m.entry [] i).isNone then 1 else 0) = m.pmem.pagesFree) ∨
      (updateEntry addHalf m.cr3 i m = none ∧ (m.entry [] i).isNone ∧ m.pmem.pagesFree = 0) := by
  rw [updateEntry_index, entry_nil]
  by_cases hp : present (m.mem m.cr3 i) = true
  · left
    have hadd : addHalf m (m.mem m.cr3 i) = some (m.mem m.cr3 i, m) :=
      if_neg ((present_iff _).mp hp)
    refine ⟨m, ?_, Grown.refl h hpl, NewEntries.refl _ m, ?_, fun _ _ => rfl, ?_⟩
    · rw [hadd]
      exact congrArg some (setWord_self m _ _)
    · rw [entry_nil, if_pos hp]
      rfl
    · rw [if_pos hp]
      rfl
  · have habs : present (m.mem m.cr3 i) = false := by simpa using hp
    have h0 : m.mem m.cr3 i &&& X86_PAGE_PRESENT = 0 := by
      by_contra hc
      exact hp ((present_iff _).mpr hc)
    have hadd : addHalf m (m.mem m.cr3 i) = (allocZeroPage m).bind fun x =>
        some (x.1 ||| X86_PAGE_PRESENT ||| X86_PAGE_USER, x.2) := if_pos h0
    rw [hadd, if_neg hp]
    rcases allocZeroPage_spec h with ⟨p, m₁, e, z⟩ | ⟨e, hfree⟩
    · left
      have hw := tableEntry z.page z.low halfFlags (by decide)
      have hroot : m.nodeAt [] = some m.cr3 := rfl
      obtain ⟨g, -, hnew⟩ := z.grown h hpl (q := []) (i := i) (by decide) hroot habs hw
      have n := z.grafted h (q := []) (i := i) (by decide) hroot habs hw
      refine ⟨_, ?_, g, hnew.mono fun w hw => ?_, ?_, fun j hj => ?_, z.taken.pagesFree⟩
      · rw [e]
        show some (Machine.setWord m₁ m.cr3 i _) = _
        rw [BitVec.or_assoc]
      · rw [hw]
        exact halfEntry z.page z.low
      · rw [n.entry]
        rfl
      · exact n.other [] j (by decide) fun hc => hj hc.2
    · right
      rw [e]
      exact ⟨rfl, rfl, hfree⟩

/-- the loop over the entries, by induction on those that are left -/
theorem addHalf_loop (h : Tables m) (hpl : PlainOn R m) (n i : Nat) (hi : i + n = 512) :
    (∃ m', updateEntries addHalf m.cr3 n i m = some m' ∧ Grown R m m' ∧ NewEntries HalfEntry m m' ∧
      (∀ j : Fin 512, i ≤ j.val → (m'.entry [] j).isSome) ∧
      m'.pmem.pagesFree + absentTops m i = m.pmem.pagesFree) ∨
      (updateEntries addHalf m.cr3 n i m = none ∧ m.pmem.pagesFree < absentTops m i) := by
  induction n generalizing i m with
  | zero =>
    refine .inl ⟨m, rfl, Grown.refl h hpl, NewEntries.refl _ m, fun j hj => absurd j.isLt (by omega), ?_⟩
    have h0 : absentTops m i = 0 := by
      unfold absentTops
      rw [List.drop_of_length_le (by rw [List.length_finRange]; omega)]
      rfl
    rw [h0, Nat.add_zero]
  | succ n ih =>
    have hlt : i < 512 := by omega
    have hsucc := absentTops_succ m ⟨i, hlt⟩
    have hstep := addHalf_step h hpl ⟨i, hlt⟩
    simp only at hsucc hstep
    unfold updateEntries
    rcases hstep with ⟨m₁, e, g, hnew, hin, hother, hcount⟩ | ⟨e, habs, h0⟩
    · rw [e]
      have hrest : absentTops m₁ (i + 1) = absentTops m (i + 1) := by
        refine absentTops_congr fun j hj => hother j fun hji => ?_
        rw [hji] at hj
        exact absurd hj (by simp)
      have hind := ih g.tables g.plain (i + 1) (by omega)
      rw [g.regs.cr3] at hind
      rcases hind with ⟨m', e', g', hnew', hall, hcount'⟩ | ⟨e', hlt'⟩
      · refine .inl ⟨m', e', g.trans g', hnew.trans hnew', fun j hj => ?_, by omega⟩
        by_cases hji : j = ⟨i, hlt⟩
        · obtain ⟨w, hw⟩ := Option.isSome_iff_exists.mp hin
          rw [hji, g'.kept [] _ w (by decide) hw]
          rfl
        · refine hall j ?_
          have hne : j.val ≠ i := fun e => hji (Fin.ext e)
          omega
      · exact .inr ⟨e', by omega⟩
    · right
      rw [e, hsucc, if_pos habs, h0]
      exact ⟨rfl, by omega⟩

/-- **`set_kernel_half`** -/
theorem setKernelHalf_spec (h : Tables m) (hpl : PlainOn R m) :
    (∃ m', setKernelHalf m = some m' ∧ Grown R m m' ∧ NewEntries HalfEntry m m' ∧
      (∀ j : Fin 512, 256 ≤ j.val → (m'.entry [] j).isSome) ∧
      m'.pmem.pagesFree + absentTops m 256 = m.pmem.pagesFree) ∨
      (setKernelHalf m = none ∧ m.pmem.pagesFree < absentTops m 256) :=
  addHalf_loop h hpl 256 256 rfl

end

/-! ## pages that are no tables -/

section
variable {m m' : Machine} {R : Nat → Prop}

/-- machines with the same tables -/
structure SameTables (m m' : Machine) : Prop where
  regs : SameRegs m m'
  mem : ∀ f, m.IsTable f → m'.mem f = m.mem f

theorem SameTables.node (h : SameTables m m') (p : List (Fin 512)) (hp : p.length ≤ 3) :
    m'.nodeAt p = m.nodeAt p :=
  entry_congr_node h.regs.cr3 (fun q f i hq e => by rw [h.mem f ⟨q, by omega, e⟩]) p hp

theorem SameTables.entry (h : SameTables m m') (p : List (Fin 512)) (i : Fin 512) (hp : p.length ≤ 3) :
    m'.entry p i = m.entry p i := by
  unfold Machine.entry
  rw [h.node p hp]
  cases e : m.nodeAt p with
  | none => rfl
  | some f => rw [Option.bind_some, Option.bind_some, h.mem f ⟨p, hp, e⟩]

theorem SameTables.plain (h : SameTables m m') (hpl : PlainOn R m) : PlainOn R m' :=
  fun v hv k hk w e => hpl v hv k hk w (by rwa [h.entry _ _ length_stem_le] at e)

theorem SameTables.tables (h : SameTables m m') (ht : Tables m) (hinv : PmemInv m'.pmem)
    (howns : ∀ q, m'.pmem.Owns q → m.pmem.Owns q) (hfree : ∀ q, m'.pmem.Free q → m.pmem.Free q) :
    Tables m' where
  pmem := hinv
  low p hp := ht.low p (howns p hp)
  tree := ht.tree_congr h.node
  used t ht' hq := ht.used t ((isTable_congr h.node t).mp ht') (hfree t hq)
  root := by
    rw [h.regs.cr3]
    exact ht.root

/-! ## a process -/

/-- page `r` was taken for the top table of a process -/
structure Cr3Created (m : Machine) (r : Nat) (m' : Machine) : Prop extends SameTables m m' where
  free : m.pmem.Free r
  low : r < 2^47
  taken : Taken m.pmem r m'.pmem
  half : ∀ i : Fin 512, 256 ≤ i.val → m'.mem r i = m.mem (direct m.cpuCr3) i
  lower : ∀ i : Fin 512, i.val < 256 → m'.mem r i = 0
  other : ∀ f, f ≠ r → m'.mem f = m.mem f

theorem createCr3_spec (h : Tables m) :
    (∃ r m', createCr3 m = some (r, m') ∧ Cr3Created m r m') ∨
      (createCr3 m = none ∧ m.pmem.pagesFree = 0) := by
  have hone : allocPhys m.pmem PAGESIZE = allocPhysPages m.pmem 1 := rfl
  unfold createCr3
  rw [hone]
  rcases allocPhysPages_spec h.pmem with ⟨r, pmem, e, hbad, hfree, ht⟩ | ⟨e, hno⟩
  · left
    have hlow := h.low r hfree.inBlocks
    have hdir : direct r = r := Nat.mod_eq_of_lt hlow
    rw [e]
    refine ⟨r, { m with
      pmem := pmem
      mem := Function.update m.mem r fun i => if i.val < 256 then 0 else m.mem (direct m.cpuCr3) i },
      ?_, ⟨⟨rfl, rfl, rfl, rfl⟩, fun f hf => ?_⟩, hfree, hlow, ht, fun i hi => ?_, fun i hi => ?_,
      fun f hf => Function.update_of_ne hf _ _⟩
    · show (if r = BADPAGE then none else some _) = _
      rw [if_neg hbad, hdir]
    · refine Function.update_of_ne (fun e => ?_) _ _
      rw [e] at hf
      exact h.used r hf hfree
    · simp only [Function.update_self]
      exact if_neg (by omega)
    · simp only [Function.update_self]
      exact if_pos hi
  · right
    rw [e]
    exact ⟨rfl, h.pmem.pages.trans (clearCount_eq_zero _ hno)⟩

/-! ## lomem -/

/-- what `unmap_lomem` leaves alone -/
structure Cut (m m' : Machine) : Prop where
  regs : SameRegs m m'
  pmem : m'.pmem = m.pmem
  tables : Tables m'
  fewer : ∀ f, m'.IsTable f → m.IsTable f
  top : ∀ i : Fin 512, 128 ≤ i.val → m'.mem m'.cr3 i = m.mem m.cr3 i
  below : ∀ a p i, 128 ≤ a.val → p.length ≤ 2 → m'.entry (a :: p) i = m.entry (a :: p) i
  data : ∀ f, f ≠ m.cr3 → m'.mem f = m.mem f

theorem unmapLomem_root (m : Machine) (i : Fin 512) :
    (unmapLomem m).mem m.cr3 i = if i.val < 128 then 0 else m.mem m.cr3 i := by
  unfold unmapLomem
  simp only [Function.update_self]

theorem unmapLomem_data {f : Nat} (hf : f ≠ m.cr3) : (unmapLomem m).mem f = m.mem f :=
  Function.update_of_ne hf _ _

/-- no path leads back to the top table -/
theorem Tables.ne_root (h : Tables m) {a : Fin 512} {p : List (Fin 512)} {t : Nat} (hp : p.length ≤ 2)
    (e : m.nodeAt (a :: p) = some t) : t ≠ m.cr3 := by
  rintro rfl
  have hlen : (a :: p).length ≤ 3 := by
    rw [List.length_cons]
    omega
  exact absurd (h.tree _ [] _ hlen (by decide) e rfl) (by simp)

/-- the paths that are left, by induction from the far end -/
theorem unmapLomem_node (h : Tables m) (a : Fin 512) {p : List (Fin 512)} (hp : p.length ≤ 2) :
    (unmapLomem m).nodeAt (a :: p) = if a.val < 128 then none else m.nodeAt (a :: p) := by
  induction p using List.reverseRecOn with
  | nil =>
    have e : (unmapLomem m).nodeAt [a] = next ((unmapLomem m).mem m.cr3 a) := nodeAt_concat _ [] _
    have e' : m.nodeAt [a] = next (m.mem m.cr3 a) := nodeAt_concat _ [] _
    rw [e, e', unmapLomem_root]
    split_ifs
    · exact next_eq_none rfl
    · rfl
  | append_singleton p i ih =>
    rw [List.length_append, List.length_singleton] at hp
    have e : (unmapLomem m).nodeAt (a :: (p ++ [i])) =
        ((unmapLomem m).nodeAt (a :: p)).bind fun t => next ((unmapLomem m).mem t i) := nodeAt_concat _ (a :: p) _
    have e' : m.nodeAt (a :: (p ++ [i])) = (m.nodeAt (a :: p)).bind fun t => next (m.mem t i) :=
      nodeAt_concat _ (a :: p) _
    rw [e, e', ih (by omega)]
    split_ifs
    · rfl
    · cases ht : m.nodeAt (a :: p) with
      | none => rfl
      | some t => rw [Option.bind_some, Option.bind_some, unmapLomem_data (h.ne_root (by omega) ht)]

theorem unmapLomem_old (h : Tables m) {p : List (Fin 512)} {t : Nat} (hp : p.length ≤ 3)
    (e : (unmapLomem m).nodeAt p = some t) : m.nodeAt p = some t := by
  cases p with
  | nil => exact e
  | cons a p =>
    rw [unmapLomem_node h a (Nat.le_of_succ_le_succ hp)] at e
    split_ifs at e
    exact e

theorem unmapLomem_spec (h : Tables m) : Cut m (unmapLomem m) := by
  have hfewer : ∀ f, (unmapLomem m).IsTable f → m.IsTable f := by
    rintro f ⟨p, hp, e⟩
    exact ⟨p, hp, unmapLomem_old h hp e⟩
  refine ⟨⟨rfl, rfl, rfl, rfl⟩, rfl, ⟨h.pmem, h.low, ?_, fun t ht => h.used t (hfewer t ht), h.root⟩,
    hfewer, fun i hi => ?_, fun a p i ha hp => ?_, fun f hf => unmapLomem_data hf⟩
  · intro p q t hp hq ep eq
    exact h.tree p q t hp hq (unmapLomem_old h hp ep) (unmapLomem_old h hq eq)
  · exact (unmapLomem_root m i).trans (if_neg (by omega))
  · unfold Machine.entry
    rw [unmapLomem_node h a hp, if_neg (by omega)]
    cases e : m.nodeAt (a :: p) with
    | none => rfl
    | some t => rw [Option.bind_some, Option.bind_some, unmapLomem_data (h.ne_root hp e)]

/-- the kernel's pages keep their entries -/
theorem Cut.plain (c : Cut m m') (hpl : PlainOn KernelPage m) : PlainOn KernelPage m' := by
  intro v hv k hk w e
  have hidx : 256 < (pageIndex v 3).val := hv
  cases k with
  | zero =>
    refine hpl v hv 0 hk w ?_
    have e' : m'.entry [] (pageIndex v 3) = some w := e
    rw [entry_nil, c.top _ (by omega)] at e'
    exact e'
  | succ k =>
    have hs : stem v (k + 1) = pageIndex v 3 :: (stem v (k + 1)).tail := rfl
    have hlen : (stem v (k + 1)).tail.length ≤ 2 := by
      rw [List.length_tail, length_stem (by omega)]
      omega
    refine hpl v hv (k + 1) hk w ?_
    rw [hs] at e ⊢
    rwa [c.below _ _ _ (by omega) hlen] at e

end

end FuseeOS
