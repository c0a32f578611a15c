import FuseeOS.Lib.Run
import FuseeOS.Kernel.PhysInit

/-!
# Detecting and carving memory at boot

`memory_detect` writes the usable E820 ranges into `mem_map`, and what of them lies above 16 MiB into
`mem_free`.  `alloc_page_hi` of the bootloader and `alloc_phys_early` of the kernel then take pages
from the start of a `mem_free` entry.

* `memoryDetect_tails`   after the detection an entry is the tail of a usable range;
* `carve_take`           taking whole pages that fit keeps this, and is sound;
* **`carve_sound`**      a run of the two allocators is sound in every state if and only if no call
                         of `alloc_page_hi` meets a first entry that is shorter than a page;
* `carve_unsound`        which a usable range of 2048 bytes is.
-/

namespace FuseeOS
open StepRun BootMemRegion

structure BiosMemRegion where
  base : Nat
  size : Nat
  type : Nat
  attr : Nat
deriving DecidableEq, Repr

/-- one `int 0x15` with `eax = 0xe820`: the return value of `bios_call`, the registers and the
record behind it -/
structure E820Reply where
  failed : Bool
  eax : Nat
  ebx : Nat
  mem : BiosMemRegion
deriving DecidableEq, Repr

def SMAP : Nat := 0x534d4150
abbrev LOMEM_END : Nat := 0x1000000
abbrev MAX_MEM_REGIONS : Nat := 64

/-- what is written of the two arrays, up to the cursors -/
structure Detected where
  memMap : List BootMemRegion
  memFree : List BootMemRegion
  mapFits : memMap.length ≤ MAX_MEM_REGIONS
  freeFits : memFree.length ≤ MAX_MEM_REGIONS

/-- the part of a range that goes to `mem_free`, with the 64-bit sums of the code -/
def clip (r : BootMemRegion) : Option BootMemRegion :=
  if (r.base + r.size) % 2^64 > LOMEM_END then
    if r.base < LOMEM_END then
      some ⟨LOMEM_END, (r.size + (2^64 - (LOMEM_END - r.base))) % 2^64⟩
    else some r
  else none

/-- one record; `none` where an array is full -/
def detectOne (d : Detected) (mem : BiosMemRegion) : Option Detected :=
  if mem.size ≠ 0 ∧ mem.type = 1 then
    if h : d.memMap.length < MAX_MEM_REGIONS ∧ d.memFree.length < MAX_MEM_REGIONS then
      some {
        memMap := d.memMap ++ [⟨mem.base, mem.size⟩]
        memFree := d.memFree ++ (clip ⟨mem.base, mem.size⟩).toList
        mapFits := by
          rw [List.length_append, List.length_singleton]
          omega
        freeFits := by
          rw [List.length_append]
          have := Option.length_toList_le (o := clip ⟨mem.base, mem.size⟩)
          omega }
    else none
  else some d

/-- the loop over the replies of the BIOS -/
def detectLoop (d : Detected) : List E820Reply → Option Detected
  | [] => some d
  | r :: rest =>
    if r.failed then some d
    else if r.eax ≠ SMAP then some d
    else do
      let d ← detectOne d r.mem
      if r.ebx = 0 then return d else detectLoop d rest

/-- the arrays of `gBootParams`, whose other entries are zero -/
def Detected.boot (d : Detected) : BootParams where
  memMap := d.memMap ++ List.replicate (MAX_MEM_REGIONS - d.memMap.length) ⟨0, 0⟩
  memFree := d.memFree ++ List.replicate (MAX_MEM_REGIONS - d.memFree.length) ⟨0, 0⟩
  mapCount := by
    rw [List.length_append, List.length_replicate]
    exact Nat.add_sub_of_le d.mapFits
  freeCount := by
    rw [List.length_append, List.length_replicate]
    exact Nat.add_sub_of_le d.freeFits

def memoryDetect (replies : List E820Reply) : Option BootParams :=
  (detectLoop ⟨[], [], by decide, by decide⟩ replies).map Detected.boot

/-- the loop of `alloc_page_hi`, with `n` entries to look at -/
def takeHi : Nat → List BootMemRegion → Option (Nat × List BootMemRegion)
  | 0, _ => none
  | _ + 1, [] => none
  | n + 1, reg :: rest =>
    if reg.size ≠ 0 then
      some (reg.base, ⟨(reg.base + PAGESIZE) % 2^64, (reg.size + (2^64 - PAGESIZE)) % 2^64⟩ :: rest)
    else (takeHi n rest).map fun (base, rest) => (base, reg :: rest)

/-- the page, which `zero_page` clears; 0 when no entry has memory -/
def allocPageHi (memFree : List BootMemRegion) : Nat × List BootMemRegion :=
  (takeHi FREE_SCAN memFree).getD (0, memFree)

/-! ## runs of the two allocators -/

/-- `handed`: the ranges that calls have returned, the latest first -/
structure CarveState where
  memFree : List BootMemRegion
  handed : List BootMemRegion

inductive Carve where
  /-- `alloc_page_hi()` -/
  | hi
  /-- `alloc_phys_early(npages)` -/
  | early (npages : Nat)

/-- a result is recorded unless it is 0 -/
def CarveState.record (s : CarveState) (base size : Nat) (memFree : List BootMemRegion) :
    CarveState :=
  ⟨memFree, if base = 0 then s.handed else ⟨base, size⟩ :: s.handed⟩

def carveStep (s : CarveState) : Carve → Option CarveState
  | .hi =>
    let (base, memFree) := allocPageHi s.memFree
    some (s.record base PAGESIZE memFree)
  | .early npages => do
    let (base, memFree) ← allocPhysEarly s.memFree npages
    return s.record base (npages * PAGESIZE) memFree

/-- `alloc_phys_early` is called for `1 ≤ n < 2^19` pages -/
def CarveLegal (_ : CarveState) : Carve → Prop
  | .hi => True
  | .early npages => 1 ≤ npages ∧ npages < 2^19

/-- `alloc_page_hi` meets no first entry that is shorter than a page -/
def CarveFits (s : CarveState) : Carve → Prop
  | .hi => ∀ r, (s.memFree.take FREE_SCAN).find? (fun r => r.size ≠ 0) = some r →
      PAGESIZE ≤ r.size
  | .early _ => True

/-! ## what is reported -/

/-- the records that are read: up to a failure or the last one -/
def reported : List E820Reply → List BiosMemRegion
  | [] => []
  | r :: rest =>
    if r.failed ∨ r.eax ≠ SMAP then []
    else r.mem :: if r.ebx = 0 then [] else reported rest

def usableOf (mems : List BiosMemRegion) : List BootMemRegion :=
  (mems.filter fun m => m.size ≠ 0 ∧ m.type = 1).map fun m => ⟨m.base, m.size⟩

/-- the usable ranges of the replies -/
def usable (replies : List E820Reply) : List BootMemRegion := usableOf (reported replies)

/-- disjoint page aligned ranges of 64-bit addresses, of any length -/
structure UsableOk (usable : List BootMemRegion) : Prop where
  count : usable.length ≤ 32
  apart : usable.Pairwise Apart
  aligned : ∀ u ∈ usable, u.base % 4096 = 0
  bound : ∀ u ∈ usable, u.base + u.size ≤ 2^64

/-- what was handed out lies in usable ranges above 16 MiB, is disjoint, and
meets nothing that is listed -/
structure CarveSound (usable : List BootMemRegion) (s : CarveState) : Prop where
  inside : ∀ r ∈ s.handed, LOMEM_END ≤ r.base ∧ r.base % 4096 = 0 ∧
    ∃ u ∈ usable, u.base ≤ r.base ∧ r.base + r.size ≤ u.base + u.size
  apart : s.handed.Pairwise Apart
  unlisted : ∀ r ∈ s.handed, ∀ f ∈ s.memFree, r.Apart f

/-- an entry with memory is the tail of a usable range -/
structure Tail (usable : List BootMemRegion) (f : BootMemRegion) : Prop where
  low : LOMEM_END ≤ f.base
  aligned : f.base % 4096 = 0
  short : f.base + f.size < 2^64
  of : ∃ u ∈ usable, u.base ≤ f.base ∧ f.base + f.size = u.base + u.size

structure Tails (usable memFree : List BootMemRegion) : Prop where
  tail : ∀ f ∈ memFree, f.size ≠ 0 → Tail usable f
  apart : memFree.Pairwise Apart

/-! ## detection -/

/-- the cursors agree with the records so far -/
structure Detects (us : List BootMemRegion) (d : Detected) : Prop where
  memMap : d.memMap = us
  memFree : d.memFree = us.filterMap clip

theorem Detects.room {us : List BootMemRegion} {d : Detected} (h : Detects us d)
    (hlt : us.length < MAX_MEM_REGIONS) :
    d.memMap.length < MAX_MEM_REGIONS ∧ d.memFree.length < MAX_MEM_REGIONS := by
  rw [h.memMap, h.memFree]
  exact ⟨hlt, Nat.lt_of_le_of_lt (List.length_filterMap_le _ _) hlt⟩

theorem detectOne_detects {us : List BootMemRegion} {d : Detected} (h : Detects us d)
    (mem : BiosMemRegion) (hfit : (us ++ usableOf [mem]).length ≤ MAX_MEM_REGIONS) :
    ∃ d', detectOne d mem = some d' ∧ Detects (us ++ usableOf [mem]) d' := by
  unfold detectOne
  by_cases hu : mem.size ≠ 0 ∧ mem.type = 1
  · have hone : usableOf [mem] = [⟨mem.base, mem.size⟩] := by
      simp [usableOf, hu]
    rw [hone, List.length_append, List.length_singleton] at hfit
    rw [if_pos hu, dif_pos (h.room hfit), hone]
    refine ⟨_, rfl, ?_, ?_⟩
    · dsimp only
      rw [h.memMap]
    · dsimp only
      rw [h.memFree, List.filterMap_append]
      cases hc : clip ⟨mem.base, mem.size⟩ <;> simp [hc]
  · have hnone : usableOf [mem] = [] := by
      simp only [usableOf, List.map_eq_nil_iff, List.filter_eq_nil_iff, List.mem_singleton]
      intro m hm
      subst hm
      simpa using hu
    rw [if_neg hu, hnone, List.append_nil]
    exact ⟨d, rfl, h⟩

theorem usableOf_append (l r : List BiosMemRegion) :
    usableOf (l ++ r) = usableOf l ++ usableOf r := by
  simp [usableOf]

theorem detectLoop_detects (replies : List E820Reply) {us : List BootMemRegion} {d : Detected}
    (h : Detects us d) (hfit : (us ++ usable replies).length ≤ MAX_MEM_REGIONS) :
    ∃ d', detectLoop d replies = some d' ∧ Detects (us ++ usable replies) d' := by
  induction replies generalizing us d with
  | nil =>
    refine ⟨d, rfl, ?_⟩
    rwa [usable, reported, usableOf, List.filter_nil, List.map_nil, List.append_nil]
  | cons r rest ih =>
    rw [usable, reported] at hfit ⊢
    rw [detectLoop]
    by_cases hf : r.failed = true
    · rw [if_pos hf, if_pos (Or.inl hf)]
      refine ⟨d, rfl, ?_⟩
      rwa [usableOf, List.filter_nil, List.map_nil, List.append_nil]
    · by_cases he : r.eax ≠ SMAP
      · rw [if_neg hf, if_pos he, if_pos (Or.inr he)]
        refine ⟨d, rfl, ?_⟩
        rwa [usableOf, List.filter_nil, List.map_nil, List.append_nil]
      · have hno : ¬ (r.failed = true ∨ r.eax ≠ SMAP) := fun hor => hor.elim hf he
        rw [if_neg hno] at hfit ⊢
        rw [if_neg hf, if_neg he]
        by_cases hb : r.ebx = 0
        · rw [if_pos hb] at hfit ⊢
          obtain ⟨d', hd', h'⟩ := detectOne_detects h r.mem hfit
          rw [hd']
          exact ⟨d', if_pos hb, h'⟩
        · rw [if_neg hb, ← List.singleton_append, usableOf_append, ← List.append_assoc] at hfit ⊢
          have hone : (us ++ usableOf [r.mem]).length ≤ MAX_MEM_REGIONS := by
            rw [List.length_append] at hfit
            omega
          obtain ⟨d', hd', h'⟩ := detectOne_detects h r.mem hone
          obtain ⟨d'', hd'', h''⟩ := ih h' hfit
          rw [hd']
          exact ⟨d'', (if_neg hb).trans hd'', h''⟩

theorem clip_tail {us : List BootMemRegion} (hok : UsableOk us) {u f : BootMemRegion} (hu : u ∈ us)
    (h : clip u = some f) : Tail us f ∧ ∀ p, f.Has p → u.Has p := by
  have ha := hok.aligned u hu
  have hb := hok.bound u hu
  unfold clip at h
  by_cases hhi : (u.base + u.size) % 2^64 > LOMEM_END
  · rw [if_pos hhi] at h
    unfold LOMEM_END at hhi h
    by_cases hlow : u.base < 0x1000000
    · rw [if_pos hlow, Option.some.injEq] at h
      have hsize : (u.size + (2^64 - (0x1000000 - u.base))) % 2^64
          = u.base + u.size - 0x1000000 := by omega
      rw [hsize] at h
      subst h
      refine ⟨⟨Nat.le_refl _, ?_, ?_, u, hu, ?_, ?_⟩, fun p hp => ?_⟩
      · dsimp only
      · dsimp only
        omega
      · dsimp only
        omega
      · dsimp only
        omega
      · unfold Has at hp ⊢
        dsimp only at hp
        omega
    · rw [if_neg hlow, Option.some.injEq] at h
      subst h
      exact ⟨⟨by unfold LOMEM_END; omega, ha, by omega, u, hu, Nat.le_refl _, rfl⟩, fun p hp => hp⟩
  · rw [if_neg hhi] at h
    cases h

theorem not_has_empty (p : Nat) : ¬ (⟨0, 0⟩ : BootMemRegion).Has p := by
  unfold Has
  dsimp only
  omega

/-- **after the detection every entry of `mem_free` is the tail of a usable range** -/
theorem memoryDetect_tails {replies : List E820Reply} (hok : UsableOk (usable replies)) :
    ∃ boot, memoryDetect replies = some boot ∧ Tails (usable replies) boot.memFree := by
  have hfit : ([] ++ usable replies).length ≤ MAX_MEM_REGIONS := by
    have := hok.count
    rw [List.nil_append]
    unfold MAX_MEM_REGIONS
    omega
  obtain ⟨d, hd, hdet⟩ := @detectLoop_detects replies []
    ⟨[], [], by decide, by decide⟩ ⟨rfl, rfl⟩ hfit
  refine ⟨d.boot, ?_, ?_, ?_⟩
  · rw [memoryDetect, hd, Option.map_some]
  · intro f hf h0
    rcases List.mem_append.1 hf with hf | hf
    · rw [hdet.memFree, List.nil_append] at hf
      obtain ⟨u, hu, hc⟩ := List.mem_filterMap.1 hf
      exact (clip_tail hok hu hc).1
    · rw [(List.mem_replicate.1 hf).2] at h0
      exact absurd rfl h0
  · refine List.pairwise_append.2 ⟨?_, ?_, fun f _ g hg p hp => ?_⟩
    · rw [hdet.memFree, List.nil_append, List.pairwise_filterMap]
      refine (List.Pairwise.and_mem.1 hok.apart).imp ?_
      intro u v ⟨hu, hv, huv⟩ f hf g hg p hp
      exact huv p ⟨(clip_tail hok hu hf).2 p hp.1, (clip_tail hok hv hg).2 p hp.2⟩
    · rw [List.pairwise_replicate]
      exact Or.inr fun p hp => not_has_empty p hp.1
    · rw [(List.mem_replicate.1 hg).2] at hp
      exact not_has_empty p hp.2

/-! ## carving -/

theorem rest_eq {us : List BootMemRegion} {r : BootMemRegion} (h : Tail us r) {size : Nat}
    (hs : size ≤ r.size) : r.rest size = ⟨r.base + size, r.size - size⟩ := by
  have := h.short
  unfold rest
  congr 1
  · omega
  · omega

theorem rest_sub {us : List BootMemRegion} {r : BootMemRegion} (h : Tail us r) {size : Nat}
    (hs : size ≤ r.size) {p : Nat} (hp : (r.rest size).Has p) : r.Has p := by
  rw [rest_eq h hs] at hp
  unfold Has at hp ⊢
  dsimp only at hp
  omega

/-- replacing an entry by a part of itself keeps the entries apart from what they were apart of -/
theorem Tails.take {us l t : List BootMemRegion} {r : BootMemRegion} (h : Tails us (l ++ r :: t))
    {size : Nat} (hp : size % 4096 = 0) (hs : size ≤ r.size) (h0 : r.size ≠ 0) :
    Tails us (l ++ r.rest size :: t) := by
  have hmem : r ∈ l ++ r :: t := List.mem_append_right _ List.mem_cons_self
  have htail := h.tail r hmem h0
  have hsub : ∀ p, (r.rest size).Has p → r.Has p := fun p => rest_sub htail hs
  obtain ⟨h1, h2, h3⟩ := List.pairwise_append.1 h.apart
  obtain ⟨h4, h5⟩ := List.pairwise_cons.1 h2
  refine ⟨fun f hf hf0 => ?_, ?_⟩
  · rcases List.mem_append.1 hf with hf | hf
    · exact h.tail f (List.mem_append_left _ hf) hf0
    · rcases List.mem_cons.1 hf with rfl | hf
      · obtain ⟨u, hu, hlow, hend⟩ := htail.of
        have := htail.low
        have := htail.aligned
        have := htail.short
        rw [rest_eq htail hs]
        refine ⟨?_, ?_, ?_, u, hu, ?_, ?_⟩ <;> dsimp only <;> omega
      · exact h.tail f (List.mem_append_right _ (List.mem_cons_of_mem _ hf)) hf0
  · refine List.pairwise_append.2 ⟨h1, List.pairwise_cons.2 ⟨fun q hq p hpq => ?_, h5⟩,
      fun q hq g hg => ?_⟩
    · exact h4 q hq p ⟨hsub p hpq.1, hpq.2⟩
    · rcases List.mem_cons.1 hg with rfl | hg
      · exact fun p hpq => h3 q hq r List.mem_cons_self p ⟨hpq.1, hsub p hpq.2⟩
      · exact h3 q hq g (List.mem_cons_of_mem _ hg)

/-- **taking whole pages that fit is sound** -/
theorem carve_take {us l t handed : List BootMemRegion} {r : BootMemRegion}
    (hT : Tails us (l ++ r :: t)) (hS : CarveSound us ⟨l ++ r :: t, handed⟩) {size : Nat}
    (hp : size % 4096 = 0) (h0 : 0 < size) (hs : size ≤ r.size) :
    CarveSound us ((CarveState.mk (l ++ r :: t) handed).record r.base size
      (l ++ r.rest size :: t)) := by
  have hmem : r ∈ l ++ r :: t := List.mem_append_right _ List.mem_cons_self
  have htail := hT.tail r hmem (by omega)
  have hlow := htail.low
  have hne : r.base ≠ 0 := by
    unfold LOMEM_END at hlow
    omega
  have hin : ∀ p, (BootMemRegion.mk r.base size).Has p → r.Has p := by
    intro p hpp
    unfold Has at hpp ⊢
    dsimp only at hpp
    omega
  have hout : ∀ p, ¬ ((BootMemRegion.mk r.base size).Has p ∧ (r.rest size).Has p) := by
    intro p ⟨h1, h2⟩
    rw [rest_eq htail hs] at h2
    unfold Has at h1 h2
    dsimp only at h1 h2
    omega
  have hsub : ∀ p, (r.rest size).Has p → r.Has p := fun p => rest_sub htail hs
  obtain ⟨-, h2, h3⟩ := List.pairwise_append.1 hT.apart
  obtain ⟨h4, -⟩ := List.pairwise_cons.1 h2
  unfold CarveState.record
  rw [if_neg hne]
  refine ⟨fun q hq => ?_, ?_, fun q hq f hf => ?_⟩
  · rcases List.mem_cons.1 hq with rfl | hq
    · obtain ⟨u, hu, h6, h7⟩ := htail.of
      refine ⟨hlow, htail.aligned, u, hu, h6, ?_⟩
      dsimp only
      omega
    · exact hS.inside q hq
  · refine List.pairwise_cons.2 ⟨fun q hq p hpq => ?_, hS.apart⟩
    exact hS.unlisted q hq r hmem p ⟨hpq.2, hin p hpq.1⟩
  · rcases List.mem_cons.1 hq with rfl | hq
    · rcases List.mem_append.1 hf with hf | hf
      · exact fun p hpf => h3 f hf r List.mem_cons_self p ⟨hpf.2, hin p hpf.1⟩
      · rcases List.mem_cons.1 hf with rfl | hf
        · exact hout
        · exact fun p hpf => h4 f hf p ⟨hin p hpf.1, hpf.2⟩
    · rcases List.mem_append.1 hf with hf | hf
      · exact hS.unlisted q hq f (List.mem_append_left _ hf)
      · rcases List.mem_cons.1 hf with rfl | hf
        · exact fun p hpf => hS.unlisted q hq r hmem p ⟨hpf.1, hsub p hpf.2⟩
        · exact hS.unlisted q hq f (List.mem_append_right _ (List.mem_cons_of_mem _ hf))

/-- where `alloc_page_hi` finds memory: in the first entry that has any -/
theorem takeHi_cases (n : Nat) (memFree : List BootMemRegion) :
    ((memFree.take n).find? (fun r => r.size ≠ 0) = none ∧ takeHi n memFree = none) ∨
    ∃ l r t, memFree = l ++ r :: t ∧ r.size ≠ 0 ∧
      (memFree.take n).find? (fun r => r.size ≠ 0) = some r ∧
      takeHi n memFree = some (r.base, l ++ r.rest PAGESIZE :: t) := by
  induction n generalizing memFree with
  | zero => exact Or.inl ⟨rfl, rfl⟩
  | succ n ih =>
    cases memFree with
    | nil => exact Or.inl ⟨rfl, rfl⟩
    | cons r t =>
      rw [takeHi, List.take_succ_cons]
      by_cases h0 : r.size ≠ 0
      · right
        refine ⟨[], r, t, rfl, h0, ?_, if_pos h0⟩
        rw [List.find?_cons_of_pos (by simpa using h0)]
      · rw [List.find?_cons_of_neg (by simpa using h0), if_neg h0]
        rcases ih t with ⟨hf, ht⟩ | ⟨l, q, u, rfl, hq, hf, ht⟩
        · left
          rw [ht]
          exact ⟨hf, rfl⟩
        · right
          refine ⟨r :: l, q, u, rfl, hq, hf, ?_⟩
          rw [ht]
          rfl

/-- a result 0 is not recorded -/
theorem CarveSound.record_zero {us : List BootMemRegion} {s : CarveState} (h : CarveSound us s)
    (size : Nat) : CarveSound us (s.record 0 size s.memFree) := by
  unfold CarveState.record
  rw [if_pos rfl]
  exact h

theorem carveStep_ok {us : List BootMemRegion} {s : CarveState} {c : Carve}
    (hT : Tails us s.memFree) (hS : CarveSound us s) (hl : CarveLegal s c) (hf : CarveFits s c) :
    ∃ s', carveStep s c = some s' ∧ CarveSound us s' ∧ Tails us s'.memFree := by
  obtain ⟨memFree, handed⟩ := s
  cases c with
  | hi =>
    rcases takeHi_cases FREE_SCAN memFree with ⟨-, hnone⟩ | ⟨l, r, t, rfl, h0, hfind, htake⟩
    · refine ⟨_, congrArg some ?_, hS.record_zero PAGESIZE, hT⟩
      dsimp only [allocPageHi]
      rw [hnone]
    · have hfit : 4096 ≤ r.size := hf r hfind
      refine ⟨_, congrArg some ?_, carve_take hT hS (by decide) (by decide) hfit,
        hT.take (by decide) hfit h0⟩
      dsimp only [allocPageHi]
      rw [htake]
  | early npages =>
    obtain ⟨h1, h2⟩ := hl
    have hearly := allocPhysEarly_of_lt h2 memFree
    rw [CInt.toInt_of_lt (by omega)] at hearly
    unfold carveStep
    dsimp only
    rw [hearly]
    refine ⟨_, rfl, ?_⟩
    cases htake : takeEarly (npages * 4096) FREE_SCAN memFree with
    | none => exact ⟨hS.record_zero (npages * PAGESIZE), hT⟩
    | some x =>
      obtain ⟨base, memFree'⟩ := x
      obtain ⟨l, r, t, rfl, hfit, rfl, rfl⟩ := takeEarly_some htake
      have h0 : 0 < npages * 4096 := by omega
      have hr : r.size ≠ 0 := by omega
      have hp : npages * 4096 % 4096 = 0 := Nat.mul_mod_left _ _
      exact ⟨carve_take hT hS hp h0 hfit, hT.take hp hfit hr⟩

/-- a page of a shorter entry leaves its usable range -/
theorem carveFits_of_sound {us : List BootMemRegion} (hus : us.Pairwise Apart) {s s' : CarveState}
    {c : Carve} (hT : Tails us s.memFree) (hs : carveStep s c = some s') (hS' : CarveSound us s') :
    CarveFits s c := by
  obtain ⟨memFree, handed⟩ := s
  cases c with
  | early npages => exact trivial
  | hi =>
    intro r hr
    rcases takeHi_cases FREE_SCAN memFree with ⟨hnone, -⟩ | ⟨l, q, t, rfl, h0, hfind, htake⟩
    · rw [hnone] at hr
      cases hr
    · rw [hfind, Option.some.injEq] at hr
      subst hr
      have htail := hT.tail q (List.mem_append_right _ List.mem_cons_self) h0
      have hlow := htail.low
      have hne : q.base ≠ 0 := by
        unfold LOMEM_END at hlow
        omega
      unfold carveStep allocPageHi at hs
      rw [htake] at hs
      cases hs
      obtain ⟨-, -, v, hv, h1, h2⟩ := hS'.inside ⟨q.base, 4096⟩ (by
        unfold CarveState.record
        dsimp only [Option.getD_some]
        rw [if_neg hne]
        exact List.mem_cons_self)
      obtain ⟨u, hu, h3, h4⟩ := htail.of
      dsimp only at h1 h2
      have huv : u = v := by
        by_contra hcon
        refine hus.forall hu hv hcon q.base ⟨?_, ?_⟩ <;> unfold Has <;> omega
      subst huv
      show 4096 ≤ q.size
      omega

/-- **the two allocators are sound in every state of a run if and only if no call of
`alloc_page_hi` meets a first entry shorter than a page** -/
theorem carve_sound {replies : List E820Reply} (hok : UsableOk (usable replies)) {boot : BootParams}
    (hboot : memoryDetect replies = some boot) (cs : List Carve)
    (hl : Along carveStep CarveLegal ⟨boot.memFree, []⟩ cs) :
    Always carveStep (CarveSound (usable replies)) (fun _ _ _ => True) ⟨boot.memFree, []⟩ cs ↔
      Along carveStep CarveFits ⟨boot.memFree, []⟩ cs := by
  obtain ⟨boot', hboot', hT⟩ := memoryDetect_tails hok
  have e : boot = boot' := Option.some.inj (hboot.symm.trans hboot')
  subst e
  refine always_iff_along (J := fun s => Tails (usable replies) s.memFree) ?_ ?_ cs _ hT ?_ hl
  · intro s c hJ hI hlc hf
    obtain ⟨s', hs', hI', hJ'⟩ := carveStep_ok hJ hI hlc hf
    exact ⟨s', hs', trivial, hI', hJ'⟩
  · intro s c s' hJ _ _ hs' _ hI'
    exact carveFits_of_sound hok.apart hJ hs' hI'
  · exact ⟨fun _ hr => absurd hr List.not_mem_nil, List.Pairwise.nil,
      fun _ hr => absurd hr List.not_mem_nil⟩

/-! ## a short range -/

/-- one usable range of `size` bytes at 16 MiB -/
def loneReply (size : Nat) : List E820Reply := [⟨false, SMAP, 0, ⟨LOMEM_END, size, 1, 0⟩⟩]

theorem loneReply_ok (size : Nat) (h : size < 2^32) : UsableOk (usable (loneReply size)) := by
  have hmem : ∀ u ∈ usable (loneReply size), u.base = LOMEM_END ∧ u.size < 2^32 := by
    intro u hu
    obtain ⟨m, hm, rfl⟩ := List.mem_map.1 hu
    have hm' := List.mem_singleton.1 (List.mem_filter.1 hm).1
    subst hm'
    exact ⟨rfl, h⟩
  have hlen : (usable (loneReply size)).length ≤ 1 := by
    unfold usable usableOf
    rw [List.length_map]
    exact List.length_filter_le _ _
  refine ⟨Nat.le_trans hlen (by decide), ?_, fun u hu => ?_, fun u hu => ?_⟩
  · match husable : usable (loneReply size), hlen with
    | [], _ => exact List.Pairwise.nil
    | [_], _ => exact List.pairwise_singleton _ _
  · rw [(hmem u hu).1]
    rfl
  · have := hmem u hu
    unfold LOMEM_END at this
    omega

theorem carve_sound_lone : ∃ boot, memoryDetect (loneReply 0x3000) = some boot ∧
    Always carveStep (CarveSound (usable (loneReply 0x3000))) (fun _ _ _ => True)
      ⟨boot.memFree, []⟩ [.hi, .early 2] := by
  refine ⟨_, rfl, ?_⟩
  refine (carve_sound (loneReply_ok 0x3000 (by decide)) rfl [.hi, .early 2] ?_).2 ?_
  · exact ⟨trivial, fun _ _ => ⟨⟨by decide, by decide⟩, fun _ _ => trivial⟩⟩
  · refine ⟨fun r hr => ?_, fun _ _ => ⟨trivial, fun _ _ => trivial⟩⟩
    have hr' : r = ⟨LOMEM_END, 0x3000⟩ := (Option.some.inj hr).symm
    rw [hr']
    decide

/-- a page is taken from a range of 2048 bytes -/
theorem carve_unsound : ¬ ∀ (replies : List E820Reply), UsableOk (usable replies) →
    ∀ boot, memoryDetect replies = some boot → ∀ cs : List Carve,
    Along carveStep CarveLegal ⟨boot.memFree, []⟩ cs →
    Always carveStep (CarveSound (usable replies)) (fun _ _ _ => True) ⟨boot.memFree, []⟩ cs := by
  intro hall
  have h := hall (loneReply 2048) (loneReply_ok 2048 (by decide)) _ rfl [.hi]
    ⟨trivial, fun _ _ => trivial⟩
  obtain ⟨-, s', hs', -, hsound⟩ := h
  obtain ⟨-, -, u, hu, -, hend⟩ := hsound.inside ⟨LOMEM_END, 4096⟩ (by
    cases hs'
    exact List.mem_cons_self)
  have hu' : u = ⟨LOMEM_END, 2048⟩ := List.mem_singleton.1 hu
  subst hu'
  exact absurd hend (by decide)

end FuseeOS
