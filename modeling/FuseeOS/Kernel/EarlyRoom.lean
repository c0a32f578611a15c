import FuseeOS.Boot.Limits
import FuseeOS.Kernel.Handover
import FuseeOS.Kernel.KernelClosed
import FuseeOS.Kernel.InitMem

/-!
# Free memory before the allocator

Until `init_physical_memory` is done the kernel takes pages from the first entry of `mem_free` that is large
enough, as the bootloader did before it.

* `FirstRoom.take`      the first entry with memory serves, as long as it has the pages;
* `carveAll_room`       a list of requests;
* `physMapping_carve`   the pages of the direct map are such requests, and the frames that are not free stay;
* `card_le_clearCount`  free pages are counted;
* `bootWf_detected`     the parameters that the bootloader hands over.
-/

namespace FuseeOS
open BitMap BootMemRegion Radix

/-! ## the first entry with memory -/

/-- the first entry with memory has `n` pages, and the kernel looks at it -/
def FirstRoom (n : Nat) (memFree : List BootMemRegion) : Prop :=
  ∃ l r t, memFree = l ++ r :: t ∧ l.length < FREE_SCAN ∧ (∀ x ∈ l, x.size = 0) ∧ n * 4096 ≤ r.size

section
variable {maps regs regs' : List BootMemRegion} {n k : Nat}

/-- the entry from which the bootloader takes its pages -/
theorem roomOf_first (h : 0 < roomOf regs) : FirstRoom (roomOf regs) regs := by
  cases hfind : (regs.take FREE_SCAN).find? fun r => r.size ≠ 0 with
  | none =>
    unfold roomOf at h
    rw [hfind] at h
    exact absurd h (Nat.lt_irrefl 0)
  | some r =>
    obtain ⟨-, l, t, hl, hnone⟩ := List.find?_eq_some_iff_append.mp hfind
    have hlen : (l ++ r :: t).length ≤ FREE_SCAN := hl ▸ List.length_take_le ..
    rw [List.length_append, List.length_cons] at hlen
    refine ⟨l, r, t ++ regs.drop FREE_SCAN, ?_, by omega, fun x hx => ?_, ?_⟩
    · rw [← List.cons_append, ← List.append_assoc, ← hl, List.take_append_drop]
    · have hx' := hnone x hx
      simpa using hx'
    · unfold roomOf
      rw [hfind]
      dsimp only
      split_ifs
      · exact Nat.div_mul_le_self r.size 4096
      · rw [Nat.zero_mul]
        exact Nat.zero_le _

theorem FirstRoom.mono (h : FirstRoom n regs) (hk : k ≤ n) : FirstRoom k regs := by
  obtain ⟨l, r, t, e, hl, hz, hr⟩ := h
  exact ⟨l, r, t, e, hl, hz, (Nat.mul_le_mul_right 4096 hk).trans hr⟩

theorem FirstRoom.le_pages (h : FirstRoom n regs) : n ≤ pagesOf (regs.take FREE_SCAN) := by
  obtain ⟨l, r, t, rfl, hl, -, hr⟩ := h
  have hsplit : (l ++ r :: t).take FREE_SCAN = l ++ r :: t.take (FREE_SCAN - l.length - 1) := by
    rw [List.take_append, List.take_of_length_le (Nat.le_of_lt hl)]
    obtain ⟨d, hd⟩ : ∃ d, FREE_SCAN - l.length = d + 1 := ⟨FREE_SCAN - l.length - 1, by omega⟩
    rw [hd, List.take_succ_cons, Nat.add_sub_cancel]
  rw [hsplit]
  unfold pagesOf
  rw [List.map_append, List.sum_append, List.map_cons, List.sum_cons]
  omega

/-- the entries before are too small -/
theorem takeEarly_skip {size : Nat} (l : List BootMemRegion) (r : BootMemRegion) (t : List BootMemRegion) {s : Nat}
    (hl : l.length < s) (hsmall : ∀ x ∈ l, x.size < size) (hr : size ≤ r.size) :
    takeEarly size s (l ++ r :: t) = some (r.base, l ++ r.rest size :: t) := by
  induction l generalizing s with
  | nil =>
    obtain ⟨s, rfl⟩ : ∃ s', s = s' + 1 := ⟨s - 1, (Nat.sub_add_cancel hl).symm⟩
    exact if_pos hr
  | cons x l ih =>
    obtain ⟨s, rfl⟩ : ∃ s', s = s' + 1 := ⟨s - 1, (Nat.sub_add_cancel (Nat.zero_lt_of_lt hl)).symm⟩
    obtain ⟨hx, hsmall⟩ := List.forall_mem_cons.mp hsmall
    rw [List.cons_append, takeEarly, if_neg (Nat.not_le_of_lt hx),
      ih (Nat.lt_of_succ_lt_succ hl) hsmall, Option.map_some, List.cons_append]

/-- **The first entry with memory serves.** -/
theorem FirstRoom.take (h : FirstRoom (k + n) regs) (hk : 0 < k) (hwf : FreeWf maps regs) :
    ∃ p regs', takeEarly (k * 4096) FREE_SCAN regs = some (p, regs') ∧ FirstRoom n regs' := by
  obtain ⟨l, r, t, rfl, hl, hz, hr⟩ := h
  have hmem : r ∈ l ++ r :: t := List.mem_append_right _ (List.mem_cons_self ..)
  rw [Nat.add_mul] at hr
  have hle : k * 4096 ≤ r.size := (Nat.le_add_right _ _).trans hr
  refine ⟨_, _, takeEarly_skip l r t hl (fun x hx => ?_) hle, l, _, t, rfl, hl, hz, ?_⟩
  · rw [hz x hx]
    exact Nat.mul_pos hk (by decide)
  · rw [rest_size (hwf.wf r hmem) hle]
    exact Nat.le_sub_of_add_le' hr

/-- **A list of requests is served**, by induction on the list. -/
theorem carveAll_room (ns : List Nat) (hpos : ∀ k ∈ ns, 0 < k) (h : FirstRoom (ns.sum + n) regs)
    (hwf : FreeWf maps regs) : ∃ regs', carveAll ns regs = some regs' ∧ FirstRoom n regs' := by
  induction ns generalizing regs with
  | nil =>
    rw [List.sum_nil, Nat.zero_add] at h
    exact ⟨regs, rfl, h⟩
  | cons k ns ih =>
    obtain ⟨hk, hpos⟩ := List.forall_mem_cons.mp hpos
    rw [List.sum_cons, Nat.add_assoc] at h
    obtain ⟨p, regs₁, e, h₁⟩ := h.take hk hwf
    obtain ⟨regs', e', h'⟩ := ih hpos h₁ (hwf.takeEarly (Nat.mul_mod_left ..) e)
    refine ⟨regs', ?_, h'⟩
    rw [carveAll, e]
    exact e'

theorem carveAll_length (ns : List Nat) (e : carveAll ns regs = some regs') : regs'.length = regs.length := by
  induction ns generalizing regs with
  | nil => rw [Option.some.inj e]
  | cons k ns ih =>
    obtain ⟨⟨p, regs₁⟩, e₁, e⟩ := Option.bind_eq_some_iff.mp e
    obtain ⟨l, r, t, rfl, -, -, rfl⟩ := takeEarly_some e₁
    rw [ih e, List.length_append, List.length_append, List.length_cons, List.length_cons]

end

/-! ## the direct map -/

section
variable {maps regs regs' : List BootMemRegion} {m m' : Machine} {gib : Bool} {bootCr3 : Nat}

theorem allocPhysEarly_one (regs : List BootMemRegion) {x : Nat × List BootMemRegion}
    (e : takeEarly (1 * 4096) FREE_SCAN regs = some x) : allocPhysEarly regs 1 = some x := by
  have h := allocPhysEarly_of_lt (n := 1) (by decide) regs
  rw [e] at h
  exact h

/-- the loop over the directories takes a page for each of them -/
theorem physDirs_carve {pdp : Nat} (is : List (Fin 512)) (mem : PhysMem)
    (e : carveAll (List.replicate is.length 1) regs = some regs') :
    ∃ mem', physDirs pdp is mem regs = some (mem', regs') := by
  induction is generalizing mem regs with
  | nil =>
    rw [← Option.some.inj e]
    exact ⟨mem, rfl⟩
  | cons i is ih =>
    rw [List.length_cons, List.replicate_succ] at e
    obtain ⟨⟨p, regs₁⟩, e₁, e⟩ := Option.bind_eq_some_iff.mp e
    obtain ⟨mem', e'⟩ := ih (setWord (Function.update mem p fun j => largeEntry ((i * 512 + j) * 0x200000)) pdp i
      (physEntry p)) e
    refine ⟨mem', ?_⟩
    rw [physDirs, allocPhysEarly_one regs e₁]
    exact e'

/-- **The direct map takes its pages one by one.** -/
theorem physMapping_carve (m : Machine) (e : carveAll (List.replicate (physMapPages gib) 1) regs = some regs') :
    ∃ m', archInitPhysicalMapping gib bootCr3 m regs = some (m', regs') := by
  have hsucc : physMapPages gib = (physMapPages gib - 1) + 1 := by cases gib <;> rfl
  rw [hsucc, List.replicate_succ] at e
  obtain ⟨⟨pdp, regs₁⟩, e₁, e⟩ := Option.bind_eq_some_iff.mp e
  obtain ⟨mem', e'⟩ : ∃ mem', physTables gib pdp m.mem regs₁ = some (mem', regs') := by
    cases gib with
    | true =>
      obtain rfl := Option.some.inj e
      exact ⟨_, rfl⟩
    | false =>
      have hlen : physMapPages false - 1 = (List.finRange 512).length := by
        rw [List.length_finRange]
        decide
      rw [hlen] at e
      obtain ⟨mem', e'⟩ := @physDirs_carve _ _ pdp (List.finRange 512) m.mem e
      exact ⟨mem', (if_neg Bool.false_ne_true).trans e'⟩
  refine ⟨{ m with mem := setPhysical mem' bootCr3 pdp, cr3 := bootCr3, cpuCr3 := bootCr3 }, ?_⟩
  rw [archInitPhysicalMapping, allocPhysEarly_one regs e₁]
  show (physTables gib pdp m.mem regs₁).bind _ = _
  rw [e']
  rfl

/-- Frames that are not free stay, except for the top table. -/
theorem physMapping_data (h : FreeWf maps regs) (hroom : physMapPages gib ≤ pagesOf (regs.take FREE_SCAN))
    (e : archInitPhysicalMapping gib bootCr3 m regs = some (m', regs')) :
    m'.ioSize = m.ioSize ∧ ∀ f, f ≠ bootCr3 → ¬ InRegions regs f → m'.mem f = m.mem f := by
  have hpos : 0 < physMapPages gib := by cases gib <;> decide
  obtain ⟨pdp, regs₁, e₁, a, h₁, hc⟩ := allocPhysEarly_page h (by omega)
  rw [archInitPhysicalMapping, e₁] at e
  obtain ⟨⟨mem, regs₂⟩, e₂, e⟩ : ∃ x, physTables gib pdp m.mem regs₁ = some x ∧ _ := Option.bind_eq_some_iff.mp e
  obtain ⟨rfl, rfl⟩ := Prod.mk.inj (Option.some.inj e)
  refine ⟨rfl, fun f hf hno => ?_⟩
  show setPhysical mem bootCr3 pdp f = m.mem f
  rw [setPhysical_node _ _ hf]
  have hpdp : f ≠ pdp := fun he => hno (he ▸ a.has)
  cases gib with
  | true =>
    obtain ⟨rfl, -⟩ := Prod.mk.inj (Option.some.inj e₂)
    exact Function.update_of_ne hpdp _ _
  | false =>
    have hroom' : 513 ≤ pagesOf (regs.take FREE_SCAN) := hroom
    obtain ⟨mem', regs', pd, e', -, d⟩ := physDirs_spec (List.finRange 512)
      (List.nodup_finRange 512) m.mem h₁ (by rw [List.length_finRange]; omega) a.gone
    have e₂' : physDirs pdp (List.finRange 512) m.mem regs₁ = some (mem, regs₂) :=
      (if_neg Bool.false_ne_true).symm.trans e₂
    obtain ⟨rfl, -⟩ := Prod.mk.inj (Option.some.inj (e'.symm.trans e₂'))
    exact d.frame f hpdp fun hr => hno (a.sub f hr)

end

/-! ## the account -/

section
variable {maps memFree : List BootMemRegion} {a : PhysicalMemoryAllocator} {n : Nat}

/-- **Free pages are counted.** -/
theorem card_le_clearCount (ls : List PhysicalMemoryBlock) (S : Finset Nat) (h : ∀ p ∈ S, FreePage ls p) :
    S.card ≤ clearCount ls := by
  classical
  induction ls generalizing S with
  | nil =>
    have hempty : S = ∅ := Finset.eq_empty_of_forall_notMem fun p hp => by
      obtain ⟨b, hb, -⟩ := h p hp
      cases hb
    rw [hempty]
    exact Nat.zero_le _
  | cons b ls ih =>
    -- the pages of the block, and those of the others
    have hsplit : S ⊆ b.clearBits.image b.page ∪ S.filter fun p => FreePage ls p := by
      intro p hp
      rw [Finset.mem_union, Finset.mem_image, Finset.mem_filter]
      rcases (freePage_cons b ls p).mp (h p hp) with ⟨k, hk, rfl, hclear⟩ | hls
      · exact .inl ⟨k, (mem_clearBits b k).mpr ⟨hk, hclear⟩, rfl⟩
      · exact .inr ⟨hp, hls⟩
    have hrest := ih (S.filter fun p => FreePage ls p) fun p hp => (Finset.mem_filter.mp hp).2
    calc S.card ≤ (b.clearBits.image b.page ∪ S.filter fun p => FreePage ls p).card := Finset.card_le_card hsplit
      _ ≤ (b.clearBits.image b.page).card + (S.filter fun p => FreePage ls p).card := Finset.card_union_le _ _
      _ ≤ b.clearBits.card + clearCount ls := Nat.add_le_add Finset.card_image_le hrest

/-- the allocator has the pages of the first entry -/
theorem FirstRoom.clearCount (h : FirstRoom n memFree) (hwf : FreeWf maps memFree)
    (hfree : ∀ p, a.Free p ↔ p % 4096 = 0 ∧ ∃ r ∈ memFree, r.Has p) : n ≤ clearCount a.live := by
  obtain ⟨l, r, t, rfl, -, -, hr⟩ := h
  have hmem : r ∈ l ++ r :: t := List.mem_append_right _ (List.mem_cons_self ..)
  have hcard : ((Finset.range n).image fun i => r.base + i * 4096).card = n := by
    rw [Finset.card_image_of_injective _ fun i j hij => ?_, Finset.card_range]
    have hij' : r.base + i * 4096 = r.base + j * 4096 := hij
    omega
  refine hcard.symm.le.trans (card_le_clearCount a.live _ fun p hp => ?_)
  obtain ⟨i, hi, rfl⟩ := Finset.mem_image.mp hp
  have hlt : i * 4096 < n * 4096 := Nat.mul_lt_mul_of_pos_right (Finset.mem_range.mp hi) (by decide)
  have hal := (hwf.wf r hmem).aligned (by omega)
  refine (hfree _).mpr ⟨by omega, r, hmem, ?_⟩
  unfold Has
  omega

/-! ## the parameters -/

theorem orderPages_pos (n : Nat) {pages : Nat} (h : 0 < pages) : ∀ k ∈ orderPages n pages, 0 < k := by
  induction n generalizing pages with
  | zero =>
    intro k hk
    cases hk
  | succ n ih =>
    rw [orderPages]
    exact List.forall_mem_cons.mpr ⟨h, ih (by omega)⟩

theorem requests_pos (h : MapWf maps) : ∀ k ∈ requests maps, 0 < k := by
  intro k hk
  obtain ⟨r, hr, hk⟩ := List.mem_flatMap.mp hk
  have hpages := (h.wf r hr).pages
  have hsize := h.nonempty r hr
  refine orderPages_pos _ ?_ k hk
  rw [bitmapPages_eq]
  omega

/-- the parameters of the kernel, with what is left of `mem_free` -/
def BootParams.withFree (boot : BootParams) (memFree : List BootMemRegion) (h : memFree.length = 64) : BootParams :=
  { boot with memFree := memFree, freeCount := h }

variable {replies : List E820Reply} {boot : BootParams}

theorem MemoryOk.mapWf (h : MemoryOk replies) (hlow : ∀ u ∈ usable replies, u.base + u.size ≤ 2^47) :
    MapWf (usable replies) where
  wf u hu := by
    have hend := hlow u hu
    exact ⟨h.bound u hu, by omega, h.whole u hu, fun _ => h.aligned u hu⟩
  nonempty u hu := usable_size hu
  disjoint := h.apart

/-- what `memory_detect` writes -/
theorem MemoryOk.detects (h : MemoryOk replies) (hb : memoryDetect replies = some boot) :
    mapRegions boot.memMap = usable replies ∧ ∀ r ∈ boot.memFree.drop FREE_SCAN, r.size = 0 := by
  have hfit : ([] ++ usable replies).length ≤ MAX_MEM_REGIONS := by
    have hcount := h.count
    rw [List.nil_append]
    unfold MAX_MEM_REGIONS
    omega
  obtain ⟨d, hd, hdet⟩ := @detectLoop_detects replies [] ⟨[], [], by decide, by decide⟩ ⟨rfl, rfl⟩ hfit
  rw [memoryDetect, hd, Option.map_some, Option.some.injEq] at hb
  have hmap := hdet.memMap
  have hfree := hdet.memFree
  rw [List.nil_append] at hmap hfree
  rw [← hb]
  constructor
  · show mapRegions (d.memMap ++ List.replicate _ _) = usable replies
    rw [hmap, mapRegions_append fun u hu => usable_size hu]
  · intro r hr
    have hlen : d.memFree.length ≤ FREE_SCAN := by
      rw [hfree]
      exact (List.length_filterMap_le _ _).trans h.count
    unfold Detected.boot at hr
    rw [List.drop_append, List.drop_of_length_le hlen, List.nil_append] at hr
    rw [List.eq_of_mem_replicate (List.mem_of_mem_drop hr)]

/-- **The parameters that the bootloader hands over.** -/
theorem bootWf_detected (h : MemoryOk replies) (hb : memoryDetect replies = some boot)
    (hlow : ∀ u ∈ usable replies, u.base + u.size ≤ 2^47) (hcount : (usable replies).length ≤ 15)
    (hwf : FreeWf (usable replies) memFree) (hrest : memFree.drop FREE_SCAN = boot.memFree.drop FREE_SCAN)
    (hlen : memFree.length = 64) : BootWf (boot.withFree memFree hlen) := by
  obtain ⟨hmap, hunused⟩ := h.detects hb
  have hmaps : mapRegions (boot.withFree memFree hlen).memMap = usable replies := hmap
  refine ⟨?_, ?_, ?_, fun r hr => hunused r (hrest ▸ hr)⟩
  · rw [hmaps]
    exact h.mapWf hlow
  · rw [hmaps]
    exact hcount
  · rw [hmaps]
    exact hwf

/-- and the bitmaps of ranges of at most 4 GiB -/
theorem initCond_detected {memFree' : List BootMemRegion} (h : MemoryOk replies) (hb : memoryDetect replies = some boot)
    (hsize : ∀ u ∈ usable replies, u.size ≤ 2^32) (hlow : ∀ u ∈ usable replies, u.base + u.size ≤ 2^47)
    (hwf : FreeWf (usable replies) memFree') (hlen : memFree.length = 64) :
    InitCond (boot.withFree memFree hlen) memFree' := by
  have hmaps : mapRegions (boot.withFree memFree hlen).memMap = usable replies := (h.detects hb).1
  refine ⟨fun m hm => ?_, fun r hr => ?_, fun r hr _ m hm _ => ?_⟩
  · rw [hmaps] at hm
    have hle := hsize m hm
    rw [bitmapPages_eq]
    omega
  · by_cases h0 : r.size = 0
    · rw [h0]
      exact Nat.zero_le _
    · obtain ⟨m, hm, hin⟩ := hwf.inside r hr h0
      obtain ⟨hlo, hhi⟩ := BootMemRegion.Has.sub hin h0
      have hle := hsize m hm
      omega
  · rw [hmaps] at hm
    have hle := hlow m hm
    omega

end

end FuseeOS
