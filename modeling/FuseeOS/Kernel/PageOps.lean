import FuseeOS.Kernel.PageTables

/-!
# Mapping and unmapping one page

What one round of the innermost loops of `mmap.c` does to the tree of tables.

* `allocZeroPage_spec`   a page is handed out and zeroed, or there is none;
* `addTable_step`        a table that is missing is added;
* `addPage_step`, `mapPage_step`, `removePage_step`, `protectPage_step`   the entry of one page is
                         written.
-/

namespace FuseeOS
open Radix

theorem updateEntry_index (f : Machine → BitVec 64 → Option (BitVec 64 × Machine)) (t : Nat)
    (i : Fin 512) (m : Machine) :
    updateEntry f t i m = (f m (m.mem t i)).map fun x => x.2.setWord t i x.1 := by
  unfold updateEntry
  rw [read_index]
  show (f m (m.mem t i)).bind _ = _
  cases f m (m.mem t i) with
  | none => rfl
  | some x => exact write_index _ _ _ _

theorem Tables.owns_page {m : Machine} (h : Tables m) {p : Nat} (hp : m.pmem.Owns p) :
    p % 4096 = 0 := by
  obtain ⟨b, hb, k, _, rfl⟩ := hp
  have ha := h.pmem.layout.aligned b hb
  unfold PhysicalMemoryBlock.page
  omega

/-! ## a fresh page -/

/-- page `p` was handed out and zeroed -/
structure Zeroed (m : Machine) (p : Nat) (m' : Machine) : Prop where
  free : m.pmem.Free p
  page : p % 4096 = 0
  low : p < 2^47
  taken : Taken m.pmem p m'.pmem
  mem : m'.mem = Function.update m.mem p fun _ => 0
  regs : SameRegs m m'
  phys : m'.phys = m.phys

section
variable {m m' : Machine} {R : Nat → Prop} {p t v k : Nat}

theorem allocZeroPage_spec (h : Tables m) :
    (∃ p m', allocZeroPage m = some (BitVec.ofNat 64 p, m') ∧ Zeroed m p m') ∨
      (allocZeroPage m = none ∧ m.pmem.pagesFree = 0) := by
  unfold allocZeroPage
  rcases allocPhysPages_spec h.pmem with ⟨p, pmem, e, hbad, hfree, ht⟩ | ⟨e, hno⟩
  · have hlow := h.low p hfree.inBlocks
    left
    rw [e]
    refine ⟨p, { m with pmem := pmem, mem := Function.update m.mem p fun _ => 0 }, ?_,
      ⟨hfree, h.owns_page hfree.inBlocks, hlow, ht, rfl, ⟨rfl, rfl, rfl, rfl⟩, rfl⟩⟩
    show (if p = BADPAGE then none else some _) = _
    rw [if_neg hbad, show direct p = p from Nat.mod_eq_of_lt hlow]
  · right
    rw [e]
    exact ⟨rfl, h.pmem.pages.trans (clearCount_eq_zero _ hno)⟩

/-- a page that was free is no table -/
theorem Zeroed.not_table (h : Tables m) (z : Zeroed m p m') : ¬ m.IsTable p := fun ht =>
  h.used p ht z.free

theorem Zeroed.mem_table (h : Tables m) (z : Zeroed m p m') {f : Nat} (hf : m.IsTable f) :
    m'.mem f = m.mem f := by
  rw [z.mem]
  refine Function.update_of_ne (fun e => ?_) _ _
  rw [e] at hf
  exact z.not_table h hf

/-! ## pages -/

/-- page `v` was mapped to the fresh page `p` -/
structure PageAdded (m : Machine) (v p : Nat) (flags : BitVec 64) (m' : Machine) : Prop
    extends LeafSet m v (BitVec.ofNat 64 p ||| flags) m' where
  free : m.pmem.Free p
  page : p % 4096 = 0
  low : p < 2^47
  taken : Taken m.pmem p m'.pmem
  data : ∀ f, ¬ m.IsTable f → f ≠ p → m'.mem f = m.mem f
  phys : m'.phys = m.phys

theorem addPage_step (h : Tables m) (ht : m.nodeAt (stem v 3) = some t) (flags : BitVec 64) :
    (∃ p m', updateEntry (addPage flags) t (pageIndex v 0) m = some m' ∧
      PageAdded m v p (X86_PAGE_PRESENT ||| flags) m' ∧ m'.mem p = fun _ => 0) ∨
      (updateEntry (addPage flags) t (pageIndex v 0) m = none ∧ m.pmem.pagesFree = 0) := by
  rw [updateEntry_index]
  unfold addPage
  rcases allocZeroPage_spec h with ⟨p, m₁, e, z⟩ | ⟨e, h0⟩
  · left
    have ht' : m.IsTable t := ⟨_, length_stem_le, ht⟩
    have hset := leaf_setWord h ht z.regs (fun _ hf => z.mem_table h hf) z.taken.inv z.taken.owns
      (fun t' ht' hf => h.used t' ht' ((z.taken.free t').mp hf).1)
      (BitVec.ofNat 64 p ||| (X86_PAGE_PRESENT ||| flags))
    have hpt : p ≠ t := fun e => z.not_table h (by rw [e]; exact ht')
    refine ⟨p, m₁.setWord t (pageIndex v 0) (BitVec.ofNat 64 p ||| (X86_PAGE_PRESENT ||| flags)), ?_,
      ⟨hset, z.free, z.page, z.low, z.taken, fun f hf hp => ?_, z.phys⟩, ?_⟩
    · rw [e]
      rfl
    · show setWord m₁.mem t _ _ f = _
      have hft : f ≠ t := fun e => hf (by rw [e]; exact ht')
      rw [setWord_node_ne _ _ _ hft, z.mem, Function.update_of_ne hp]
    · show setWord m₁.mem t _ _ p = _
      rw [setWord_node_ne _ _ _ hpt, z.mem, Function.update_self]
  · right
    rw [e]
    exact ⟨rfl, h0⟩

/-- page `v` was unmapped, and its frame `f` given back -/
structure PageRemoved (m : Machine) (v f : Nat) (m' : Machine) : Prop extends LeafSet m v 0 m' where
  released : Released m.pmem f 1 m'.pmem
  data : ∀ g, ¬ m.IsTable g → m'.mem g = m.mem g

theorem removePage_step (h : Tables m) (ht : m.nodeAt (stem v 3) = some t) {f : Nat}
    (hw : (m.mem t (pageIndex v 0) &&& MMASK_PHYS).toNat = f) (ho : m.pmem.Owns f)
    (hf : ¬ m.pmem.Free f) (hnt : ¬ m.IsTable f) :
    ∃ m', updateEntry removePage t (pageIndex v 0) m = some m' ∧ PageRemoved m v f m' := by
  have ht' : m.IsTable t := ⟨_, length_stem_le, ht⟩
  have hrel : Released m.pmem f 1 (freePhysPages m.pmem f 1) := by
    refine freePhysPages_spec h.pmem f 1 fun i hi => ?_
    rw [show f + i * 4096 = f by omega]
    exact ⟨ho, hf⟩
  have hset := leaf_setWord h ht
    (show SameRegs m { m with pmem := freePhysPages m.pmem f 1 } from ⟨rfl, rfl, rfl, rfl⟩)
    (fun _ _ => rfl) hrel.inv hrel.owns (fun t' ht' hf' => ?_) 0
  · refine ⟨Machine.setWord { m with pmem := freePhysPages m.pmem f 1 } t (pageIndex v 0) 0, ?_, hset,
      hrel, fun g hg => ?_⟩
    · rw [updateEntry_index]
      unfold removePage
      rw [hw]
      rfl
    · have hgt : g ≠ t := fun e => hg (by rw [e]; exact ht')
      exact setWord_node_ne _ _ _ hgt
  · rcases (hrel.free t').mp hf' with hf' | ⟨i, hi, e⟩
    · exact h.used t' ht' hf'
    · rw [show t' = f by omega] at ht'
      exact hnt ht'

/-- the entry of page `v` was set to `w`, and no page was handed out or given back -/
structure PageWritten (m : Machine) (v : Nat) (w : BitVec 64) (m' : Machine) : Prop
    extends LeafSet m v w m' where
  pmem : m'.pmem = m.pmem
  data : ∀ g, ¬ m.IsTable g → m'.mem g = m.mem g

theorem pageWritten (h : Tables m) (ht : m.nodeAt (stem v 3) = some t) (w : BitVec 64) (phys : Nat) :
    PageWritten m v w (Machine.setWord { m with phys := phys } t (pageIndex v 0) w) := by
  have ht' : m.IsTable t := ⟨_, length_stem_le, ht⟩
  have hset := leaf_setWord h ht
    (show SameRegs m { m with phys := phys } from ⟨rfl, rfl, rfl, rfl⟩) (fun _ _ => rfl) h.pmem (fun _ => Iff.rfl) h.used w
  refine ⟨hset, rfl, fun g hg => ?_⟩
  have hgt : g ≠ t := fun e => hg (by rw [e]; exact ht')
  exact setWord_node_ne _ _ _ hgt

theorem protectPage_step (h : Tables m) (ht : m.nodeAt (stem v 3) = some t) (mask flags : BitVec 64) :
    ∃ m', updateEntry (protectPage mask flags) t (pageIndex v 0) m = some m' ∧
      PageWritten m v (m.mem t (pageIndex v 0) &&& mask ||| flags) m' := by
  refine ⟨_, ?_, pageWritten h ht _ m.phys⟩
  rw [updateEntry_index]
  rfl

theorem mapPage_step (h : Tables m) (ht : m.nodeAt (stem v 3) = some t) (flags : BitVec 64) :
    ∃ m', updateEntry (mapPage flags) t (pageIndex v 0) m = some m' ∧
      PageWritten m v (BitVec.ofNat 64 m.phys ||| (X86_PAGE_PRESENT ||| flags)) m' ∧
      m'.phys = (m.phys + PAGESIZE) % 2^64 := by
  refine ⟨_, ?_, pageWritten h ht _ ((m.phys + PAGESIZE) % 2^64), rfl⟩
  rw [updateEntry_index]
  rfl

/-! ## tables -/

/-- Tables were added on the way to the pages `R`: entries that were present stay, and those that
are new point to tables. -/
structure Grown (R : Nat → Prop) (m m' : Machine) : Prop where
  tables : Tables m'
  plain : PlainOn R m'
  regs : SameRegs m m'
  phys : m'.phys = m.phys
  old : ∀ p t, p.length ≤ 3 → m.nodeAt p = some t → m'.nodeAt p = some t
  fresh : ∀ t, m'.IsTable t → m.IsTable t ∨ m.pmem.Free t
  kept : ∀ p i w, p.length ≤ 3 → m.entry p i = some w → m'.entry p i = some w
  new : ∀ p i w, p.length ≤ 3 → m'.entry p i = some w → m.entry p i = some w ∨
    p.length < 3 ∧ large w = false
  free : ∀ q, m'.pmem.Free q → m.pmem.Free q
  owns : ∀ q, m'.pmem.Owns q ↔ m.pmem.Owns q
  data : ∀ f, ¬ m.IsTable f → ¬ m.pmem.Free f → m'.mem f = m.mem f

theorem Grown.refl (h : Tables m) (hp : PlainOn R m) : Grown R m m :=
  ⟨h, hp, SameRegs.refl m, rfl, fun _ _ _ e => e, fun _ ht => .inl ht, fun _ _ _ _ e => e,
    fun _ _ _ _ e => .inl e, fun _ hq => hq, fun _ => Iff.rfl, fun _ _ _ => rfl⟩

theorem Grown.trans {m₁ : Machine} (g : Grown R m m₁) (g' : Grown R m₁ m') : Grown R m m' where
  tables := g'.tables
  plain := g'.plain
  regs := g.regs.trans g'.regs
  phys := g'.phys.trans g.phys
  old p t hp e := g'.old p t hp (g.old p t hp e)
  fresh t ht := (g'.fresh t ht).elim (g.fresh t) fun hf => .inr (g.free t hf)
  kept p i w hp e := g'.kept p i w hp (g.kept p i w hp e)
  new p i w hp e := (g'.new p i w hp e).elim (g.new p i w hp) .inr
  free q hq := g.free q (g'.free q hq)
  owns q := (g'.owns q).trans (g.owns q)
  data f hf hq := by
    have h1 : ¬ m₁.IsTable f := fun ht => (g.fresh f ht).elim hf hq
    rw [g'.data f h1 fun hq' => hq (g.free f hq'), g.data f hf hq]

/-- every entry that is new is one of `E` -/
def NewEntries (E : BitVec 64 → Prop) (m m' : Machine) : Prop :=
  ∀ p i w, p.length ≤ 3 → m'.entry p i = some w → m.entry p i = some w ∨ E w

theorem NewEntries.refl (E : BitVec 64 → Prop) (m : Machine) : NewEntries E m m := fun _ _ _ _ e => .inl e

theorem NewEntries.trans {E : BitVec 64 → Prop} {m₁ : Machine} (h : NewEntries E m m₁)
    (h' : NewEntries E m₁ m') : NewEntries E m m' :=
  fun p i w hp e => (h' p i w hp e).elim (h p i w hp) .inr

theorem NewEntries.mono {E E' : BitVec 64 → Prop} (h : NewEntries E m m') (hE : ∀ w, E w → E' w) :
    NewEntries E' m m' := fun p i w hp e => (h p i w hp e).imp id (hE w)

/-- an entry that takes no right away -/
def Opens (w : BitVec 64) : Prop := writable w = true ∧ userOk w = true ∧ noExec w = false

/-- What is added by `kmapanon` and `kmap`: the new entries are open, and the pages taken are tables. -/
structure TablesAdded (R : Nat → Prop) (m m' : Machine) : Prop extends Grown R m m' where
  opens : NewEntries Opens m m'
  taken : ∀ q, m.pmem.Free q → m'.pmem.Free q ∨ m'.IsTable q

theorem TablesAdded.refl (h : Tables m) (hp : PlainOn R m) : TablesAdded R m m :=
  ⟨Grown.refl h hp, NewEntries.refl _ m, fun _ hq => .inl hq⟩

theorem TablesAdded.trans {m₁ : Machine} (g : TablesAdded R m m₁) (g' : TablesAdded R m₁ m') :
    TablesAdded R m m' where
  toGrown := g.toGrown.trans g'.toGrown
  opens := g.opens.trans g'.opens
  taken q hq := by
    rcases g.taken q hq with hq | ⟨p, hp, e⟩
    · exact g'.taken q hq
    · exact .inr ⟨p, hp, g'.old p q hp e⟩

/-- no page is mapped or unmapped by that -/
theorem Grown.leaf (g : Grown R m m') (v : Nat) : leaf m' v = FuseeOS.leaf m v := by
  unfold FuseeOS.leaf
  cases e : m.entry (stem v 3) (pageIndex v 0) with
  | some w => exact g.kept _ _ w length_stem_le e
  | none =>
    cases e' : m'.entry (stem v 3) (pageIndex v 0) with
    | none => rfl
    | some w =>
      rcases g.new _ _ w length_stem_le e' with h | ⟨h, -⟩
      · rw [e] at h
        exact nomatch h
      · rw [length_stem (le_refl 3)] at h
        exact absurd h (Nat.lt_irrefl 3)

/-- flags of a table -/
theorem tableFlags : IsFlags (X86_PAGE_PRESENT ||| X86_PAGE_WRITE ||| X86_PAGE_USER) := by
  unfold IsFlags
  decide

theorem setWord_self (m : Machine) (t : Nat) (i : Fin 512) : m.setWord t i (m.mem t i) = m := by
  unfold Machine.setWord setWord
  rw [Function.update_eq_self, Function.update_eq_self]

/-- an entry of a table that is new -/
structure TableEntry (p : Nat) (w : BitVec 64) : Prop where
  present : present w = true
  plain : Plain w
  frame : frameOf w = p

theorem tableEntry {flags : BitVec 64} (hp : p % 4096 = 0) (hlt : p < 2^47) (hf : IsFlags flags)
    (hpres : present flags = true) : TableEntry p (BitVec.ofNat 64 p ||| flags) where
  present := by
    unfold present
    rw [bit_entry hp hlt (by omega)]
    exact hpres
  plain := plain_entry hp hlt hf
  frame := frameOf_entry hp hlt hf

/-- **A missing table is a graft.** -/
theorem Zeroed.graft {q : List (Fin 512)} {i : Fin 512} {w : BitVec 64} (h : Tables m) (hq : q.length < 3)
    (ht : m.nodeAt q = some t) (habs : present (m.mem t i) = false) {m₁ : Machine} (z : Zeroed m p m₁)
    (hw : TableEntry p w) :
    Graft next m.mem m.cr3 3 q i t p w (m₁.setWord t i w).mem := by
  have htp : t ≠ p := by
    rintro rfl
    exact z.not_table h ⟨_, by omega, ht⟩
  refine ⟨by omega, ht, next_eq_none habs, fun q hq e => z.not_table h ⟨q, hq, e⟩, ?_, fun j => ?_,
    setWord_same _ _ _ _, fun s j hs hj => ?_⟩
  · rw [hw.plain.next hw.present, hw.frame]
  · show next (setWord m₁.mem t _ _ p j) = none
    rw [setWord_node_ne _ _ _ htp.symm, z.mem, Function.update_self]
    rfl
  · show setWord m₁.mem t _ _ s j = _
    rw [setWord_of_ne _ _ hj, z.mem, Function.update_of_ne hs]

/-- The empty table `p` was put behind entry `i` of the table at `q`, by the word `w`. -/
structure TableGrafted (q : List (Fin 512)) (i : Fin 512) (w : BitVec 64) (p : Nat) (m m' : Machine) : Prop where
  node : ∀ r, r.length ≤ 3 → m'.nodeAt r = if r = q ++ [i] then some p else m.nodeAt r
  gone : m.nodeAt (q ++ [i]) = none
  before : m.entry q i = none
  entry : m'.entry q i = some w
  other : ∀ r j, r.length ≤ 3 → ¬ (r = q ∧ j = i) → m'.entry r j = m.entry r j

/-- one word of the old tables changes -/
theorem Zeroed.grafted {q : List (Fin 512)} {i : Fin 512} {w : BitVec 64} (h : Tables m)
    (hq : q.length < 3) (ht : m.nodeAt q = some t) (habs : present (m.mem t i) = false) {m₁ : Machine}
    (z : Zeroed m p m₁) (hw : TableEntry p w) : TableGrafted q i w p m (m₁.setWord t i w) := by
  have g := z.graft h hq ht habs hw
  have hnode : ∀ r, r.length ≤ 3 → (m₁.setWord t i w).nodeAt r =
      if r = q ++ [i] then some p else m.nodeAt r := by
    intro r hr
    have e := nodeAt_graft h.tree g r hr
    unfold Machine.nodeAt
    rw [← e, show (m₁.setWord t i w).cr3 = m.cr3 from z.regs.cr3]
  have hbefore : m.entry q i = none := by
    rw [entry_of_node ht, habs]
    rfl
  have hgone : m.nodeAt (q ++ [i]) = none := by
    rw [nodeAt_succ, hbefore]
    rfl
  -- a table of the machine is not the new one
  have hne {r : List (Fin 512)} {f : Nat} (hr : r.length ≤ 3) (e : m.nodeAt r = some f) : f ≠ p := by
    rintro rfl
    exact z.not_table h ⟨r, hr, e⟩
  have hzero (j : Fin 512) : (m₁.setWord t i w).mem p j = 0 := by
    show setWord m₁.mem t _ _ p j = 0
    rw [setWord_node_ne _ _ _ (hne (by omega) ht).symm, z.mem, Function.update_self]
  refine ⟨hnode, hgone, hbefore, ?_, fun r j hr hne' => ?_⟩
  · have hqn : q ≠ q ++ [i] := fun e => by simpa using congrArg List.length e
    rw [entry_eq_some]
    refine ⟨t, ?_, setWord_same _ _ _ _, hw.present⟩
    rw [hnode q (by omega), if_neg hqn, ht]
  · unfold Machine.entry
    rw [hnode r hr]
    by_cases hrs : r = q ++ [i]
    · rw [if_pos hrs, hrs, hgone, Option.bind_some, hzero]
      rfl
    · rw [if_neg hrs]
      cases e : m.nodeAt r with
      | none => rfl
      | some f =>
        rw [Option.bind_some, Option.bind_some, g.frame f j (hne hr e)]
        rintro ⟨rfl, hj⟩
        exact hne' ⟨h.tree _ _ f hr (by omega) e ht, hj⟩

section
variable {q r : List (Fin 512)} {i j : Fin 512} {w w' : BitVec 64}

theorem TableGrafted.isTable (n : TableGrafted q i w p m m') {f : Nat} (h : m'.IsTable f) : m.IsTable f ∨ f = p := by
  obtain ⟨r, hr, e⟩ := h
  replace e := (n.node r hr).symm.trans e
  split_ifs at e with hrs
  · exact .inr (Option.some.inj e).symm
  · exact .inl ⟨r, hr, e⟩

/-- an entry is from before, or the new one -/
theorem TableGrafted.entry_cases (n : TableGrafted q i w p m m') (hr : r.length ≤ 3) (e : m'.entry r j = some w') :
    m.entry r j = some w' ∨ r = q ∧ j = i ∧ w' = w := by
  by_cases hs : r = q ∧ j = i
  · obtain ⟨rfl, rfl⟩ := hs
    exact .inr ⟨rfl, rfl, Option.some.inj (e.symm.trans n.entry)⟩
  · exact .inl ((n.other r j hr hs).symm.trans e)

theorem TableGrafted.old (n : TableGrafted q i w p m m') (hr : r.length ≤ 3) {f : Nat} (e : m.nodeAt r = some f) :
    m'.nodeAt r = some f := by
  rw [n.node r hr, if_neg, e]
  rintro rfl
  rw [n.gone] at e
  cases e

theorem TableGrafted.kept (n : TableGrafted q i w p m m') (hr : r.length ≤ 3) (e : m.entry r j = some w') :
    m'.entry r j = some w' := by
  rw [n.other r j hr, e]
  rintro ⟨rfl, rfl⟩
  rw [n.before] at e
  cases e

end

/-- the tree after a graft -/
theorem Zeroed.grown {q : List (Fin 512)} {i : Fin 512} {w : BitVec 64} (h : Tables m) (hpl : PlainOn R m)
    (hq : q.length < 3) (ht : m.nodeAt q = some t) (habs : present (m.mem t i) = false) {m₁ : Machine}
    (z : Zeroed m p m₁) (hw : TableEntry p w) :
    Grown R m (m₁.setWord t i w) ∧
      (∀ r, r.length ≤ 3 → (m₁.setWord t i w).nodeAt r =
        if r = q ++ [i] then some p else m.nodeAt r) ∧
      NewEntries (· = w) m (m₁.setWord t i w) := by
  have n := z.grafted h hq ht habs hw
  have hfree : ∀ r, m₁.pmem.Free r → m.pmem.Free r := fun r hr => ((z.taken.free r).mp hr).1
  have htables : Tables (m₁.setWord t i w) := by
    refine ⟨z.taken.inv, fun r hr => h.low r ((z.taken.owns r).mp hr), ?_, fun f hf hr => ?_, ?_⟩
    · rw [show (m₁.setWord t i w).cr3 = m.cr3 from z.regs.cr3]
      exact (z.graft h hq ht habs hw).proper h.tree
    · rcases n.isTable hf with hf | rfl
      · exact h.used f hf (hfree f hr)
      · exact ((z.taken.free f).mp hr).2 rfl
    · show m₁.cr3 < _
      rw [z.regs.cr3]
      exact h.root
  have hplain : PlainOn R (m₁.setWord t i w) := by
    intro v hv k hk w' e
    rcases n.entry_cases length_stem_le e with e | ⟨-, -, rfl⟩
    · exact hpl v hv k hk w' e
    · exact hw.plain
  have hdata : ∀ f, ¬ m.IsTable f → ¬ m.pmem.Free f → (m₁.setWord t i w).mem f = m.mem f := by
    intro f hf hr
    have hft : f ≠ t := by
      rintro rfl
      exact hf ⟨_, by omega, ht⟩
    have hfp : f ≠ p := by
      rintro rfl
      exact hr z.free
    show setWord m₁.mem t _ _ f = _
    rw [setWord_node_ne _ _ _ hft, z.mem, Function.update_of_ne hfp]
  refine ⟨⟨htables, hplain, ⟨z.regs.cr3, z.regs.cpuCr3, z.regs.nx, z.regs.ioSize⟩, z.phys,
    fun r f hr e => n.old hr e, fun f hf => (n.isTable hf).imp id fun e : f = p => e ▸ z.free,
    fun r j w' hr e => n.kept hr e, fun r j w' hr e => ?_, hfree, z.taken.owns, hdata⟩, n.node,
    fun r j w' hr e => ?_⟩
  · rcases n.entry_cases hr e with e | ⟨rfl, -, rfl⟩
    · exact .inl e
    · exact .inr ⟨hq, hw.plain.small⟩
  · exact (n.entry_cases hr e).imp id fun hs => hs.2.2

/-- the flags of a table take no right away -/
theorem opens_table {p : Nat} (hp : p % 4096 = 0) (hlt : p < 2^47) :
    Opens (BitVec.ofNat 64 p ||| (X86_PAGE_PRESENT ||| X86_PAGE_WRITE ||| X86_PAGE_USER)) := by
  refine ⟨?_, ?_, ?_⟩
  · exact bit_entry hp hlt (by omega)
  · exact bit_entry hp hlt (by omega)
  · exact bit_entry hp hlt (by omega)

/-- one table on the way to page `v`: there afterwards, unless a page for it was wanting -/
theorem addTable_step (h : Tables m) (hpl : PlainOn R m) (hv : R v) (hk : k < 3)
    (ht : m.nodeAt (stem v k) = some t) :
    (∃ m' u, updateEntry addTable t (pageIndex v (3 - k)) m = some m' ∧ TablesAdded R m m' ∧
      m'.nodeAt (stem v (k + 1)) = some u ∧
      (∀ q, q.length ≤ 3 → q ≠ stem v (k + 1) → m'.nodeAt q = m.nodeAt q) ∧
      m'.pmem.pagesFree + (if (m.nodeAt (stem v (k + 1))).isNone then 1 else 0) = m.pmem.pagesFree) ∨
      (updateEntry addTable t (pageIndex v (3 - k)) m = none ∧
        (m.nodeAt (stem v (k + 1))).isNone ∧ m.pmem.pagesFree = 0) := by
  have hnext := nodeAt_stem_succ hk ht
  rw [updateEntry_index]
  by_cases hp : present (m.mem t (pageIndex v (3 - k))) = true
  · left
    have hadd : addTable m (m.mem t (pageIndex v (3 - k))) = some (m.mem t (pageIndex v (3 - k)), m) :=
      if_neg ((present_iff _).mp hp)
    have hnode := hpl.node hv hk ht hp
    refine ⟨m, _, ?_, TablesAdded.refl h hpl, hnode, fun _ _ _ => rfl, ?_⟩
    · rw [hadd]
      exact congrArg some (setWord_self m t _)
    · rw [hnode]
      rfl
  · have habs : present (m.mem t (pageIndex v (3 - k))) = false := by simpa using hp
    have h0 : m.mem t (pageIndex v (3 - k)) &&& X86_PAGE_PRESENT = 0 := by
      by_contra hc
      exact hp ((present_iff _).mpr hc)
    have hgone : m.nodeAt (stem v (k + 1)) = none := by rw [hnext, next_eq_none habs]
    have hadd : addTable m (m.mem t (pageIndex v (3 - k))) = (allocZeroPage m).bind fun x =>
        some (x.1 ||| (X86_PAGE_PRESENT ||| X86_PAGE_WRITE ||| X86_PAGE_USER), x.2) := if_pos h0
    rw [hadd, hgone]
    rcases allocZeroPage_spec h with ⟨p, m₁, e, z⟩ | ⟨e, hfree⟩
    · left
      obtain ⟨g, hnode, hword⟩ := z.grown h hpl (by rw [length_stem (by omega)]; exact hk) ht habs
        (tableEntry z.page z.low tableFlags (by decide))
      have hp' := (hnode _ (length_stem_le (v := v) (k := k + 1))).trans (if_pos (stem_succ v hk))
      refine ⟨_, p, ?_, ⟨g, hword.mono fun w hw => ?_, fun q hq => ?_⟩, ?_, fun q hq hne => ?_, z.taken.pagesFree⟩
      · rw [e]
        rfl
      · rw [hw]
        exact opens_table z.page z.low
      · by_cases hqp : q = p
        · subst hqp
          exact .inr ⟨_, length_stem_le, hp'⟩
        · exact .inl ((z.taken.free q).mpr ⟨hq, hqp⟩)
      · rw [hnode _ length_stem_le, if_pos (stem_succ v hk)]
      · rw [hnode q hq, if_neg fun e => hne (e.trans (stem_succ v hk).symm)]
    · right
      rw [e]
      exact ⟨rfl, rfl, hfree⟩

end

end FuseeOS
