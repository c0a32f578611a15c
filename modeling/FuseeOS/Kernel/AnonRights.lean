import FuseeOS.Kernel.Anon

/-!
# What `kmapanon` gives

The processor allows what all four entries on the way to a page allow.  `kmapanon` chooses the lowest one,
and the others as far as it has to add them.

* `mapped_translate`    what a new page is translated to;
* `kmapanon_gives`      fresh pages with the rights that were asked for, exactly if the entries that were
                        there before let them through.
-/

namespace FuseeOS
open Radix

/-- page-aligned bytes in one span of 2 MiB and in one half of the address space, and not mapped -/
structure AnonRange (m : Machine) (addr size : Nat) : Prop where
  pos : 0 < size
  aligned : addr % 4096 = 0
  pages : size % 4096 = 0
  span : addr % 2^21 + size ≤ 2^21
  half : addr + size ≤ 2^47 ∨ 2^64 - 2^47 ≤ addr ∧ addr + size ≤ 2^64
  unmapped : ∀ va, addr ≤ va → va < addr + size → translate m.mem m.cr3 va = none

/-- what a page with protection `prot` is translated to -/
def protTranslation (prot addr : Nat) : Translation where
  addr := addr
  write := decide (prot &&& KPROT_WRITE ≠ 0)
  user := decide (prot &&& KPROT_USER ≠ 0)
  noExec := decide (prot &&& KPROT_EXECUTE = 0)

/-- The pages of the range have fresh frames, full of zeros, with the rights of `prot`; all else is
translated as before. -/
structure Gives (m : Machine) (addr size prot : Nat) (frame : Nat → Nat) (m' : Machine) : Prop where
  translated : ∀ va, addr ≤ va → va < addr + size →
    translate m'.mem m'.cr3 va = some (protTranslation prot (frame (va / 4096 - addr / 4096) + va % 4096))
  free : ∀ j < size / 4096, m.pmem.Free (frame j)
  zero : ∀ j < size / 4096, m'.mem (frame j) = fun _ => 0
  table : ∀ j < size / 4096, ¬ m.IsTable (frame j)
  leaf : ∀ j < size / 4096, ∀ v w, leaf m v = some w → frameOf w ≠ frame j
  distinct : ∀ i < size / 4096, ∀ j < size / 4096, frame i = frame j → i = j
  rest : ∀ va, ¬ (addr ≤ va ∧ va < addr + size) →
    translate m'.mem m'.cr3 va = translate m.mem m.cr3 va

/-- The entries above the lowest level on the way to page `v` let the rights of `prot` through, as far as
they are there; and a page can be closed to execution. -/
structure LetsThrough (m : Machine) (v prot : Nat) : Prop where
  write : prot &&& KPROT_WRITE ≠ 0 → ∀ k < 3, ∀ w, entryOf m v (k + 1) = some w → writable w = true
  user : prot &&& KPROT_USER ≠ 0 → ∀ k < 3, ∀ w, entryOf m v (k + 1) = some w → userOk w = true
  exec : prot &&& KPROT_EXECUTE ≠ 0 → ∀ k < 3, ∀ w, entryOf m v (k + 1) = some w → noExec w = false
  noExec : prot &&& KPROT_EXECUTE = 0 → m.nx = true ∨ ∃ k < 3, ∃ w, entryOf m v (k + 1) = some w ∧
    noExec w = true

/-- the frames of mapped pages are in use -/
def LeavesUsed (m : Machine) : Prop := ∀ v w, leaf m v = some w → ¬ m.pmem.Free (frameOf w)

section
variable {m m₁ m₂ : Machine} {R : Nat → Prop} {addr size prot s n v va p : Nat}

theorem AnonRange.size_le (h : AnonRange m addr size) : size ≤ 2^21 := by
  have := h.span
  omega

theorem AnonRange.canonical (h : AnonRange m addr size) (h1 : addr ≤ va) (h2 : va < addr + size) :
    canonical va := by
  have := h.half
  unfold FuseeOS.canonical
  omega

theorem AnonRange.noPages (h : AnonRange m addr size) : NoPages m addr size := fun va h1 h2 =>
  (noPage_iff (h.canonical h1 h2)).mpr (h.unmapped va h1 h2)

theorem AnonRange.count (h : AnonRange m addr size) : (size + 4095) / 4096 = size / 4096 := by
  have := h.pages
  omega

theorem AnonRange.inSpan (h : AnonRange m addr size) : InSpan (addr / 4096) (size / 4096) := by
  have h1 := h.pos
  have h2 := h.span
  have h3 := h.pages
  unfold InSpan tableCount
  omega

/-- one page table is enough -/
theorem AnonRange.covered (h : AnonRange m addr size) :
    covered (addr / 4096) (size / 4096) = size / 4096 := by
  have h1 := h.pos
  have h2 := h.span
  have h3 := h.pages
  unfold FuseeOS.covered tableCount
  omega

theorem AnonRange.table (h : AnonRange m addr size) {j : Nat} (hj : j < size / 4096) :
    (addr / 4096 + j) / 512 = addr / 4096 / 512 := by
  have h1 := h.span
  have h2 := h.pages
  omega

/-- addresses of other pages are not meant -/
theorem AnonRange.other (h : AnonRange m addr size) (hc : FuseeOS.canonical va)
    (hn : ¬ (addr ≤ va ∧ va < addr + size)) {j : Nat} (hj : j < size / 4096) :
    ¬ SamePage (va / 4096) (addr / 4096 + j) := by
  have h1 := h.aligned
  have h2 := h.pages
  have h3 := h.half
  unfold FuseeOS.canonical at hc
  unfold SamePage
  omega

/-! ## the lowest entry -/

/-- the rights of a page that `kmapanon` or `kmap` maps -/
theorem rights_leaf (hp : p % 4096 = 0) (hlt : p < 2^47) (m : Machine) (prot : Nat) :
    writable (BitVec.ofNat 64 p ||| (X86_PAGE_PRESENT ||| pageProtFlags m prot)) =
      decide (prot &&& KPROT_WRITE ≠ 0) ∧
    userOk (BitVec.ofNat 64 p ||| (X86_PAGE_PRESENT ||| pageProtFlags m prot)) =
      decide (prot &&& KPROT_USER ≠ 0) ∧
    noExec (BitVec.ofNat 64 p ||| (X86_PAGE_PRESENT ||| pageProtFlags m prot)) =
      decide (m.nx = true ∧ prot &&& KPROT_EXECUTE = 0) := by
  have hpres : ∀ i < 64, i ≠ 0 → X86_PAGE_PRESENT.getLsbD i = false := by decide
  have hbit (i : Nat) (hi : i < 12 ∨ 47 ≤ i) (hlt64 : i < 64) (h0 : i ≠ 0) :
      (BitVec.ofNat 64 p ||| (X86_PAGE_PRESENT ||| pageProtFlags m prot)).getLsbD i =
        (pageProtFlags m prot).getLsbD i := by
    rw [bit_entry hp hlt hi, BitVec.getLsbD_or, hpres i hlt64 h0, Bool.false_or]
  unfold writable userOk FuseeOS.noExec
  rw [hbit 1 (by omega) (by omega) (by omega), hbit 2 (by omega) (by omega) (by omega),
    hbit 63 (by omega) (by omega) (by omega), getLsbD_protFlags m prot (by omega),
    getLsbD_protFlags m prot (by omega), getLsbD_protFlags m prot (by omega)]
  simp

/-! ## the entries above it -/

/-- pages that are not written are translated as before -/
theorem OnlyLeaves.translate (g : OnlyLeaves m₁ s n m₂) (h : ∀ j < n, ¬ SamePage (va / 4096) (s + j)) :
    translate m₂.mem m₂.cr3 va = FuseeOS.translate m₁.mem m₁.cr3 va := by
  have e : entryOf m₂ (va / 4096) = entryOf m₁ (va / 4096) := by
    funext k
    cases k with
    | zero => exact g.other _ _ length_stem_le fun j hj hl => h j hj ((samePage_iff _ _).mpr hl)
    | succ k =>
      refine g.upper ?_ _
      rw [length_stem (by omega)]
      omega
  rw [translate_walk, translate_walk, e]

theorem OnlyLeaves.above (g : OnlyLeaves m₁ s n m₂) (v k : Nat) (hk : k < 3) :
    entryOf m₂ v (k + 1) = entryOf m₁ v (k + 1) := by
  refine g.upper ?_ _
  rw [length_stem (by omega)]
  omega

/-- the three entries above a page, after tables were added and the page was mapped: each is from before
or takes nothing away, and those from before are still there -/
theorem above_mapped (g : TablesAdded R m m₁) (g₂ : OnlyLeaves m₁ s n m₂) {w₀ : BitVec 64}
    (hl : leaf m₂ v = some w₀) (k : Nat) (hk : k < 3) : ∃ w, entryOf m₂ v (k + 1) = some w ∧
      (entryOf m v (k + 1) = some w ∨ entryOf m v (k + 1) = none ∧ Opens w) := by
  obtain ⟨w, hw⟩ := entryOf_isSome hl (k := k + 1) (by omega)
  refine ⟨w, hw, ?_⟩
  rw [g₂.above v k hk] at hw
  cases e : entryOf m v (k + 1) with
  | some w' =>
    have e' : entryOf m₁ v (k + 1) = some w' := g.kept _ _ w' length_stem_le e
    exact .inl (e'.symm.trans hw)
  | none =>
    refine .inr ⟨rfl, (g.opens _ _ w length_stem_le hw).resolve_left fun h => ?_⟩
    unfold entryOf at e
    rw [e] at h
    exact nomatch h

/-- what holds of open entries, holds of the three entries if and only if it does of those from before -/
theorem above_iff {P : BitVec 64 → Prop} {e : Nat → Option (BitVec 64)} {w₁ w₂ w₃ : BitVec 64}
    (o₁ : e 1 = some w₁ ∨ e 1 = none ∧ Opens w₁) (o₂ : e 2 = some w₂ ∨ e 2 = none ∧ Opens w₂)
    (o₃ : e 3 = some w₃ ∨ e 3 = none ∧ Opens w₃) (hopen : ∀ w, Opens w → P w) :
    P w₁ ∧ P w₂ ∧ P w₃ ↔ ∀ k < 3, ∀ w, e (k + 1) = some w → P w := by
  have hone {w : BitVec 64} {k : Nat} (o : e k = some w ∨ e k = none ∧ Opens w) :
      P w ↔ ∀ w', e k = some w' → P w' := by
    rcases o with o | ⟨o, ho⟩
    · rw [o]
      exact ⟨fun h w' e => Option.some.inj e ▸ h, fun h => h w rfl⟩
    · rw [o]
      exact ⟨fun _ _ e => (by cases e), fun _ => hopen w ho⟩
  rw [hone o₁, hone o₂, hone o₃]
  constructor
  · rintro ⟨h1, h2, h3⟩ k hk
    match k, hk with
    | 0, _ => exact h1
    | 1, _ => exact h2
    | 2, _ => exact h3
  · intro h
    exact ⟨h 0 (by decide), h 1 (by decide), h 2 (by decide)⟩

/-- a right that was asked for is given, if all entries let it through -/
theorem and_eq_decide_iff (b₁ b₂ b₃ : Bool) (p : Prop) [Decidable p] :
    (b₃ && b₂ && b₁ && decide p) = decide p ↔ (p → b₁ = true ∧ b₂ = true ∧ b₃ = true) := by
  by_cases hp : p
  · simp only [hp, decide_true, Bool.and_true, Bool.and_eq_true, true_imp_iff]
    exact ⟨fun h => ⟨h.2, h.1.2, h.1.1⟩, fun h => ⟨⟨h.2.2, h.2.1⟩, h.1⟩⟩
  · simp only [hp, decide_false, Bool.and_false, false_imp_iff]

/-- and execution is forbidden as it was asked for, if no entry forbids it, or one can -/
theorem or_eq_decide_iff (b₁ b₂ b₃ nx : Bool) (p : Prop) [Decidable p] :
    (b₃ || b₂ || b₁ || decide (nx = true ∧ p)) = decide p ↔
      (¬ p → b₁ = false ∧ b₂ = false ∧ b₃ = false) ∧
      (p → nx = true ∨ ¬ (b₁ = false ∧ b₂ = false ∧ b₃ = false)) := by
  by_cases hp : p
  · have hor : (b₃ || b₂ || b₁ || nx) = true ↔ nx = true ∨ ¬ (b₁ = false ∧ b₂ = false ∧ b₃ = false) := by
      cases nx <;> cases b₁ <;> cases b₂ <;> cases b₃ <;> decide
    simpa [hp] using hor
  · have hor : (b₃ || b₂ || b₁) = false ↔ b₁ = false ∧ b₂ = false ∧ b₃ = false := by
      rw [Bool.or_eq_false_iff, Bool.or_eq_false_iff]
      exact ⟨fun h => ⟨h.2, h.1.2, h.1.1⟩, fun h => ⟨⟨h.2.2, h.2.1⟩, h.1⟩⟩
    simpa [hp] using hor

/-- **What a new page is translated to**: its rights are those of `prot`, exactly if the entries that were
there let them through. -/
theorem mapped_translate (g : TablesAdded R m m₁) (g₂ : OnlyLeaves m₁ s n m₂) (hv : R (va / 4096))
    (hc : canonical va) (hp : p % 4096 = 0) (hlt : p < 2^47)
    (hl : leaf m₂ (va / 4096) = some (BitVec.ofNat 64 p ||| (X86_PAGE_PRESENT ||| pageProtFlags m prot)))
    (a : Nat) : translate m₂.mem m₂.cr3 va = some (protTranslation prot a) ↔
      a = p + va % 4096 ∧ LetsThrough m (va / 4096) prot := by
  obtain ⟨w₁, h₁, o₁⟩ := above_mapped g g₂ hl 0 (by decide)
  obtain ⟨w₂, h₂, o₂⟩ := above_mapped g g₂ hl 1 (by decide)
  obtain ⟨w₃, h₃, o₃⟩ := above_mapped g g₂ hl 2 (by decide)
  obtain ⟨hw, hu, hx⟩ := rights_leaf hp hlt m prot
  have ht := translate_leaf (g₂.plain g.plain) hv hc h₃ h₂ h₁ hl
  rw [hw, hu, hx, frameOf_entry hp hlt (pageFlags m prot)] at ht
  have hwrite := above_iff (P := fun w => writable w = true) o₁ o₂ o₃ fun w ho => ho.1
  have huser := above_iff (P := fun w => userOk w = true) o₁ o₂ o₃ fun w ho => ho.2.1
  have hexec := above_iff (P := fun w => noExec w = false) o₁ o₂ o₃ fun w ho => ho.2.2
  have hnoexec : (∃ k < 3, ∃ w, entryOf m (va / 4096) (k + 1) = some w ∧ noExec w = true) ↔
      ¬ (noExec w₁ = false ∧ noExec w₂ = false ∧ noExec w₃ = false) := by
    rw [hexec]
    push Not
    simp only [ne_eq, Bool.not_eq_false]
  rw [ht, protTranslation, Option.some.injEq, Translation.mk.injEq, and_eq_decide_iff, and_eq_decide_iff,
    or_eq_decide_iff, hwrite, huser, ← hnoexec, hexec, eq_comm]
  exact and_congr Iff.rfl ⟨fun ⟨h1, h2, h3, h4⟩ => ⟨h1, h2, h3, h4⟩, fun h => ⟨h.write, h.user, h.exec, h.noExec⟩⟩

theorem LetsThrough.congr {v' : Nat} (h : LetsThrough m v prot) (e : v' / 512 = v / 512) :
    LetsThrough m v' prot := by
  have he (k : Nat) (hk : k < 3) : entryOf m v' (k + 1) = entryOf m v (k + 1) := entryOf_congr hk e
  refine ⟨fun hW k hk w hw => h.write hW k hk w (he k hk ▸ hw), fun hU k hk w hw => h.user hU k hk w (he k hk ▸ hw),
    fun hX k hk w hw => h.exec hX k hk w (he k hk ▸ hw), fun hX => (h.noExec hX).imp id ?_⟩
  rintro ⟨k, hk, w, hw, hn⟩
  exact ⟨k, hk, w, (he k hk).trans hw, hn⟩

/-- **What `kmapanon` gives**, in a state whose mapped frames are in use. -/
theorem kmapanon_gives (h : WellFormed m) (hu : LeavesUsed m) (hr : AnonRange m addr size) (prot : Nat)
    (hpages : missing m (addr / 4096) (size / 4096) + size / 4096 ≤ m.pmem.pagesFree) :
    (∃ frame m', kmapanon m addr size prot = some m' ∧ Gives m addr size prot frame m') ↔
      LetsThrough m (addr / 4096) prot := by
  have hsize := hr.size_le
  have hpos := hr.pos
  obtain ⟨m₁, m₂, e, g, -, g₂⟩ := (kmapanon_spec h.toTables (h.plain hr.noPages) rfl (by omega) rfl
    (by omega) (by rw [hr.count]; exact hr.inSpan) (fun v hv => hv) prot).resolve_right fun hno => by
      rw [hr.count, hr.covered] at hno
      omega
  rw [hr.count, hr.covered] at g₂
  have hR (j : Nat) (hj : j < size / 4096) :
      InTablesOf (addr / 4096) ((size + 4095) / 4096) (addr / 4096 + j) := by
    rw [hr.count]
    exact inTablesOf_covered (by rw [hr.covered]; exact hj)
  constructor
  · rintro ⟨frame, m', e', G⟩
    obtain rfl := Option.some.inj (e.symm.trans e')
    obtain ⟨p, hp, h1, h2, -⟩ := g₂.mapped 0 (by have := hr.pages; omega)
    exact ((mapped_translate g g₂.toOnlyLeaves (hR 0 (by have := hr.pages; omega))
      (hr.canonical (le_refl _) (by omega)) h1 h2 hp _).mp (G.translated addr (le_refl _) (by omega))).2
  · intro hlet
    obtain ⟨frame, ⟨hleaf, hinj⟩, hframe⟩ := g₂.frames
    have hfree (j : Nat) (hj : j < size / 4096) : m.pmem.Free (frame j) := g.free _ (hframe j hj).1
    refine ⟨frame, reloadCr3 m₂, e, fun va h1 h2 => ?_, hfree, fun j hj => ?_, fun j hj ht => ?_,
      fun j hj v w hw he => ?_, hinj, fun va hva => ?_⟩
    · obtain ⟨j, hj, ej⟩ : ∃ j < size / 4096, va / 4096 = addr / 4096 + j := by
        have hal := hr.aligned
        have hpg := hr.pages
        exact ⟨va / 4096 - addr / 4096, by omega, by omega⟩
      obtain ⟨p, hp, h3, h4, -⟩ := g₂.mapped j hj
      obtain ⟨w, hw, -, hf⟩ := hleaf j hj
      rw [Option.some.inj (hw.symm.trans hp), frameOf_entry h3 h4 (pageFlags m prot)] at hf
      rw [← ej] at hp
      refine (mapped_translate g g₂.toOnlyLeaves (ej ▸ hR j hj) (hr.canonical h1 h2) h3 h4 hp _).mpr ⟨?_, ?_⟩
      · rw [ej, Nat.add_sub_cancel_left, hf]
      · exact hlet.congr (ej ▸ hr.table hj)
    · obtain ⟨w, hw, -, hf⟩ := hleaf j hj
      exact hf ▸ g₂.zero j hj w hw
    · exact h.used _ ht (hfree j hj)
    · exact hu v w hw (he ▸ hfree j hj)
    · by_cases hc : canonical va
      · exact (g₂.toOnlyLeaves.translate fun j hj => hr.other hc hva hj).trans (g.translate va)
      · unfold FuseeOS.translate
        rw [if_neg hc, if_neg hc]

end

end FuseeOS
