import FuseeOS.Boot.LoaderMem

/-!
# Runs of `valloc`

* `VallocInv.step`          what one call does to the pages that are mapped;
* **`valloc_mapping`**      after any calls exactly the pages that they meet are mapped, each to a page of
                            its own that is no table; the last call leaves the other pages alone.
-/

namespace FuseeOS
open Bytes Radix BootMemRegion Outcome

structure VallocCall where
  addr : Nat
  size : Nat

/-- a range of the upper half, of any length that `valloc` can count -/
structure VallocCall.Legal (c : VallocCall) : Prop where
  pos : 1 ≤ c.size
  int : c.size < 2^31 - 4096
  low : 2^64 - 2^47 ≤ c.addr
  upto : c.addr + c.size ≤ 2^64

/-- a byte of the range lies in page `v` -/
def VallocCall.Meets (c : VallocCall) (v : Nat) : Prop :=
  ∃ a, c.addr ≤ a ∧ a < c.addr + c.size ∧ a / 4096 = v

def Loader.vallocs (m : Loader) (calls : List VallocCall) : Except LoadStop Loader :=
  calls.foldlM (fun m c => m.valloc c.addr c.size) m

theorem vallocs_cons (m : Loader) (c : VallocCall) (calls : List VallocCall) :
    m.vallocs (c :: calls) = (m.valloc c.addr c.size).bind fun m => m.vallocs calls := by
  unfold Loader.vallocs
  rw [List.foldlM_cons]
  rfl

theorem vallocs_one (m : Loader) (c : VallocCall) : m.vallocs [c] = m.valloc c.addr c.size := by
  unfold Loader.vallocs
  rw [List.foldlM_cons]
  exact bind_pure _

theorem VallocCall.Legal.range {c : VallocCall} (h : c.Legal) : VallocRange c.addr c.size := by
  obtain ⟨hpos, hint, hlow, hupto⟩ := h
  exact ⟨hlow, hupto, by omega, by omega⟩

/-- the pages that `valloc` maps are those that the range meets -/
theorem VallocCall.Legal.meets_iff {c : VallocCall} (h : c.Legal) (v : Nat) :
    c.Meets v ↔ c.addr / 4096 ≤ v ∧ v < c.addr / 4096 + spanPages c.addr c.size := by
  have hpos := h.pos
  unfold spanPages
  constructor
  · rintro ⟨a, h1, h2, rfl⟩
    omega
  · rintro ⟨h1, h2⟩
    by_cases hv : v = c.addr / 4096
    · exact ⟨c.addr, Nat.le_refl _, by omega, hv.symm⟩
    · exact ⟨v * 4096, by omega, by omega, by omega⟩

/-- what a run of calls has made of `m₀` -/
structure VallocInv (us : List BootMemRegion) (m₀ : Loader) (calls : List VallocCall) (m : Loader) : Prop where
  inv : LoaderInv us m
  mapped : ∀ v, UpperPage v → ((m.page v).isSome ↔ ∃ c ∈ calls, c.Meets v)
  handed : ∀ v f, UpperPage v → m.page v = some f → m₀.Free f
  free : ∀ a, m.Free a → m₀.Free a

/-- **one call more** -/
theorem VallocInv.step {us : List BootMemRegion} {m₀ m m' : Loader} {calls : List VallocCall} {c : VallocCall}
    (h : VallocInv us m₀ calls m) (hc : c.Legal)
    (g : Valloced us (c.addr / 4096) (spanPages c.addr c.size) m m') : VallocInv us m₀ (calls ++ [c]) m' where
  inv := g.inv
  mapped v hv := by
    by_cases hm : c.Meets v
    · obtain ⟨f, hf, -, -⟩ := g.new v ((hc.meets_iff v).mp hm).1 ((hc.meets_iff v).mp hm).2
      rw [hf]
      exact iff_of_true rfl ⟨c, List.mem_append_right _ List.mem_cons_self, hm⟩
    · rw [(g.old v hv fun hin => hm ((hc.meets_iff v).mpr hin)).1, h.mapped v hv]
      constructor
      · rintro ⟨d, hd, hdv⟩
        exact ⟨d, List.mem_append_left _ hd, hdv⟩
      · rintro ⟨d, hd, hdv⟩
        rcases List.mem_append.mp hd with hd | hd
        · exact ⟨d, hd, hdv⟩
        · rw [List.mem_singleton.mp hd] at hdv
          exact absurd hdv hm
  handed v f hv e := by
    by_cases hm : c.Meets v
    · obtain ⟨f', hf', hfree, -⟩ := g.new v ((hc.meets_iff v).mp hm).1 ((hc.meets_iff v).mp hm).2
      rw [e] at hf'
      rw [Option.some.inj hf']
      exact h.free f' hfree
    · rw [(g.old v hv fun hin => hm ((hc.meets_iff v).mpr hin)).1] at e
      exact h.handed v f hv e
  free a ha := h.free a (g.free a ha)

/-- `m'` is the state behind the calls `calls` and then `c`, `m` the one before `c` and `m₀` the first -/
structure VallocRight (m₀ : Loader) (calls : List VallocCall) (c : VallocCall) (m m' : Loader) : Prop where
  /-- exactly the pages that some range meets are mapped -/
  mapped : ∀ va, upperHalf va → ((m'.addr va).isSome ↔ ∃ d ∈ calls ++ [c], d.Meets (va / 4096))
  /-- each is mapped to a page that was handed out in the run, by this call if this call meets it -/
  handed : ∀ va p, upperHalf va → m'.addr va = some p →
    m₀.Free (p / 4096 * 4096) ∧ ¬ m'.Free (p / 4096 * 4096)
  new : ∀ va p, upperHalf va → c.Meets (va / 4096) → m'.addr va = some p → m.Free (p / 4096 * 4096)
  /-- different pages to different ones -/
  distinct : ∀ va va' p p', upperHalf va → upperHalf va' → m'.addr va = some p → m'.addr va' = some p' →
    p / 4096 = p' / 4096 → va / 4096 = va' / 4096
  /-- none of them is a table -/
  separate : ∀ va p, upperHalf va → m'.addr va = some p → ¬ IsNode next m'.words m'.cr3 3 (p / 4096 * 4096)
  /-- pages beside the last range keep their mapping and their bytes -/
  kept : ∀ va, upperHalf va → ¬ c.Meets (va / 4096) → m'.addr va = m.addr va ∧ m'.load va = m.load va

section
variable {us : List BootMemRegion} {m₀ m m' : Loader} {calls : List VallocCall} {c : VallocCall}

/-- the page that an address lies in -/
theorem LoaderInv.addr_page {va p : Nat} (h : LoaderInv us m) (hva : upperHalf va) (e : m.addr va = some p) :
    m.page (va / 4096) = some (p / 4096 * 4096) := by
  rw [h.addr hva] at e
  obtain ⟨f, hf, rfl⟩ := Option.map_eq_some_iff.mp e
  have hal := nodeAt_aligned h.root hf
  have hp : (f + va % 4096) / 4096 * 4096 = f := by omega
  rw [hp]
  exact hf

theorem VallocInv.right (h : VallocInv us m₀ calls m) (hc : c.Legal)
    (g : Valloced us (c.addr / 4096) (spanPages c.addr c.size) m m') : VallocRight m₀ calls c m m' where
  mapped va hva := by
    rw [g.inv.addr hva, Option.isSome_map]
    exact (h.step hc g).mapped _ hva.page
  handed va p hva e := by
    have hp := g.inv.addr_page hva e
    exact ⟨(h.step hc g).handed _ _ hva.page hp, g.inv.used _ _ (Nat.le_of_eq (length_path _)) hp⟩
  new va p hva hm e := by
    have hp := g.inv.addr_page hva e
    obtain ⟨f, hf, hfree, -⟩ := g.new _ ((hc.meets_iff _).mp hm).1 ((hc.meets_iff _).mp hm).2
    rw [hp] at hf
    rw [Option.some.inj hf]
    exact hfree
  distinct va va' p p' hva hva' e e' hpp := by
    have hp := g.inv.addr_page hva e
    rw [hpp] at hp
    exact g.inv.page_inj hva.page hva'.page hp (g.inv.addr_page hva' e')
  separate va p hva e := by
    rintro ⟨q, hq, hnode⟩
    exact g.inv.tree.not_inner (length_path _) (g.inv.addr_page hva e) (Nat.lt_succ_of_le hq) hnode
  kept va hva hm := by
    have hout := fun hin => hm ((hc.meets_iff _).mpr hin)
    constructor
    · rw [g.inv.addr hva, (g.old _ hva.page hout).1, h.inv.addr hva]
    · rw [g.load h.inv hva, if_neg hout]

/-- nothing is mapped behind empty entries -/
theorem LoaderInv.page_none (hzero : ∀ i : Fin 512, 256 ≤ i.val → m.words m.cr3 i = 0) {v : Nat}
    (hv : UpperPage v) : m.page v = none := by
  have hi : 256 ≤ (pageIndex v 3).val := by
    show 256 ≤ v / 512^3 % 512
    unfold UpperPage at hv
    omega
  show (next (m.words m.cr3 (pageIndex v 3))).bind _ = none
  rw [hzero _ hi, next_zero]
  rfl

/-- **`valloc` maps what it is asked to map, in every run with enough free pages.** -/
theorem valloc_mapping (h : LoaderInv us m₀) (hzero : ∀ i : Fin 512, 256 ≤ i.val → m₀.words m₀.cr3 i = 0)
    (hlegal : ∀ d ∈ calls ++ [c], d.Legal) (henough : m₀.vallocs (calls ++ [c]) ≠ .error .noFrame) :
    ∃ m m', m₀.vallocs calls = .ok m ∧ m.valloc c.addr c.size = .ok m' ∧ VallocRight m₀ calls c m m' := by
  have hstart : VallocInv us m₀ [] m₀ := by
    refine ⟨h, fun v hv => ?_, fun v f hv e => ?_, fun _ ha => ha⟩
    · rw [LoaderInv.page_none hzero hv]
      exact iff_of_false (fun hf => nomatch hf) (fun ⟨d, hd, _⟩ => nomatch hd)
    · rw [LoaderInv.page_none hzero hv] at e
      exact nomatch e
  have hc := hlegal c (List.mem_append_right _ List.mem_cons_self)
  have hrun : Ends (· = LoadStop.noFrame) (VallocInv us m₀ ([] ++ calls)) (m₀.vallocs calls) := by
    refine Ends.foldlM calls (fun d hd done m hm => ?_) hstart
    have hd' := hlegal d (List.mem_append_left _ hd)
    exact (valloc_spec hm.inv hd'.range).mono (fun s hs => hs.1) fun m' g => hm.step hd' g
  have hsplit : m₀.vallocs (calls ++ [c]) = (m₀.vallocs calls).bind fun m => m.valloc c.addr c.size := by
    unfold Loader.vallocs
    rw [List.foldlM_append]
    exact congrArg _ (funext fun m => vallocs_one m c)
  have hall : Ends (· = LoadStop.noFrame)
      (fun m' => ∃ m, m₀.vallocs calls = .ok m ∧ m.valloc c.addr c.size = .ok m' ∧
        VallocRight m₀ calls c m m')
      (m₀.vallocs (calls ++ [c])) := by
    rw [hsplit]
    refine hrun.self.bind ?_
    rintro m ⟨hm, hinv⟩
    refine (valloc_spec hinv.inv hc.range).self.mono (fun s hs => hs.1) ?_
    rintro m' ⟨hm', g⟩
    exact ⟨m, hm, hm', hinv.right hc g⟩
  obtain ⟨m', -, m, hm, hm', hright⟩ := hall.result fun s hs e => henough (hs ▸ e)
  exact ⟨m, m', hm, hm', hright⟩

/-- a run of calls finds enough pages if the first entry with memory has them: four for a page at the most -/
theorem vallocs_of_room (h : LoaderInv us m) (hlegal : ∀ d ∈ calls, d.Legal)
    (hroom : 4 * (calls.map fun d => spanPages d.addr d.size).sum ≤ m.room) :
    ∃ m', m.vallocs calls = .ok m' := by
  induction calls generalizing m with
  | nil => exact ⟨m, rfl⟩
  | cons d calls ih =>
    rw [List.map_cons, List.sum_cons] at hroom
    obtain ⟨m₁, hm₁, g⟩ := (valloc_spec h (hlegal d List.mem_cons_self).range).result fun s hs _ => by
      have hshort := hs.2
      omega
    have hleft := g.room
    obtain ⟨m', hm'⟩ := ih g.inv (fun d hd => hlegal d (List.mem_cons_of_mem _ hd)) (by omega)
    refine ⟨m', ?_⟩
    rw [vallocs_cons, hm₁]
    exact hm'

end

/-! ## a bootloader before its first call -/

/-- 16 MiB behind the top table are free -/
def blankFree : List BootMemRegion := [⟨0x1001000, 0x1000000⟩]

/-- the upper half is empty -/
def blankLoader : Loader := ⟨fun _ => 0, blankFree, 0x1000000, 0xffffffff00000000⟩

theorem blank_words (t : Nat) (i : Fin 512) : blankLoader.words t i = 0 := by
  unfold Loader.words
  rw [readLe_zero fun _ _ => rfl]
  exact ite_self _

theorem blank_tails : FreePages blankFree blankFree where
  tail f hf _ := by
    rw [List.mem_singleton.mp hf]
    exact ⟨by decide, by decide, by decide, _, List.mem_cons_self, by decide, rfl⟩
  apart := List.pairwise_singleton _ _
  whole f hf := by
    rw [List.mem_singleton.mp hf]
    exact (by decide : 0x1000000 % 4096 = 0)

theorem blank_inv : LoaderInv blankFree blankLoader := by
  have hroot : ∀ p t, blankLoader.nodeAt p = some t → p = [] ∧ 0x1000000 = t := fun p t e =>
    nodeAt_leaf (fun i => by rw [blank_words, next_zero]) e
  refine ⟨blank_tails, by decide, fun p q t _ _ ep eq => ?_, fun p t _ e => ?_, fun p t i _ _ _ => ?_⟩
  · rw [(hroot p t ep).1, (hroot q t eq).1]
  · rw [← (hroot p t e).2]
    rintro ⟨f, hf, h1, -⟩
    rw [List.mem_singleton.mp hf] at h1
    exact absurd h1 (by decide)
  · exact .inl (blank_words t i)

theorem blank_room : blankLoader.room = 4096 := by decide

/-- a range across the end of a page -/
def acrossPages : VallocCall := ⟨0xffffffff00000ff0, 0x20⟩

theorem acrossPages_legal : acrossPages.Legal := ⟨by decide, by decide, by decide, by decide⟩

/-- a range that starts in its second page -/
def overPages : VallocCall := ⟨0xffffffff00001800, 0x1000⟩

theorem overPages_legal : overPages.Legal := ⟨by decide, by decide, by decide, by decide⟩

/-- two calls that share a page -/
theorem valloc_mapping_two : ∃ m m', blankLoader.vallocs [acrossPages] = .ok m ∧
    m.valloc overPages.addr overPages.size = .ok m' ∧ VallocRight blankLoader [acrossPages] overPages m m' := by
  have hlegal : ∀ d ∈ [acrossPages] ++ [overPages], d.Legal := fun d hd => by
    rcases List.mem_pair.mp hd with rfl | rfl
    · exact acrossPages_legal
    · exact overPages_legal
  refine valloc_mapping blank_inv (fun i _ => blank_words _ i) hlegal ?_
  obtain ⟨m, hm⟩ := vallocs_of_room blank_inv hlegal (by decide)
  rw [hm]
  intro e
  cases e

end FuseeOS
