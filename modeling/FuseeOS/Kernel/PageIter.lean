import FuseeOS.Kernel.WriteXorExec

/-!
# What `page_iter` gives out

* `batches_span`         the batches of a range that starts in a page directory and needs no more of it;
* `page_iter_coverage`   they are the entries of all pages of the range exactly if its page tables are as
                         many as its length alone asks for;
* `page_iter_sound`      the walk stays in its tables exactly if these lie in one page directory.
-/

namespace FuseeOS

/-! ## the entries that are given out -/

/-- the batches of successive calls, until one returns 1 -/
def iterBatches (m : Machine) : Nat → PageIterator → Option (List Visit)
  | 0, _ => none
  | fuel + 1, it => do
    match ← pageIterNext m it with
    | (none, _) => some []
    | (some v, it) =>
      let vs ← iterBatches m fuel it
      return v :: vs

def batches (m : Machine) (addr size : Nat) : Option (List Visit) :=
  let it := pageIterCreate m.cr3 addr size
  iterBatches m (visits it + 1) it

/-- table and index of the entries of a batch -/
def Visit.entries (v : Visit) : List (Nat × Nat) := (List.range v.len.toNat).map fun i => (v.dir, v.offset + i)

/-- the entries of the batches of depth 0 -/
def leafEntries (vs : List Visit) : List (Nat × Nat) :=
  (vs.filter fun v => v.depth = 0).flatMap Visit.entries

/-- the page directory of page `v` -/
def pageDirectory (m : Machine) (v : Nat) : Nat :=
  dirAt m (dirAt m (direct m.cr3) (pageIndex v 3)) (pageIndex v 2)

/-- the leaf entry of page `v`, found by following the entries above it -/
def leafEntry (m : Machine) (v : Nat) : Nat × Nat :=
  (dirAt m (pageDirectory m v) (pageIndex v 1), pageIndex v 0)

/-- the batches of depth 0 are the leaf entries of the `n` pages from page `s` on, in this order -/
def Enumerates (m : Machine) (addr size s n : Nat) : Prop :=
  ∃ vs, batches m addr size = some vs ∧ leafEntries vs = (List.range n).map fun j => leafEntry m (s + j)

section
variable {m : Machine} {R : Nat → Prop} {s n : Nat} {it : PageIterator}

/-- pages of one page directory -/
theorem pageDirectory_congr {v v' : Nat} (h : v / 512^2 = v' / 512^2) :
    pageDirectory m v = pageDirectory m v' := by
  have hidx (k : Nat) (hk : v / 512^k = v' / 512^k) : pageIndex v k = pageIndex v' k := by
    apply Fin.ext
    show v / 512^k % 512 = v' / 512^k % 512
    rw [hk]
  unfold pageDirectory
  rw [hidx 3 (by omega), hidx 2 h]

theorem iterBatches_visit {it' : PageIterator} {v : Visit} (fuel : Nat)
    (h : pageIterNext m it = some (some v, it')) :
    iterBatches m (fuel + 1) it = (iterBatches m fuel it').map (v :: ·) := by
  rw [iterBatches, h]
  show (iterBatches m fuel it').bind (fun vs => some (v :: vs)) = _
  cases iterBatches m fuel it' <;> rfl

theorem leafEntries_low {v : Visit} (h : v.depth = 0) (vs : List Visit) :
    leafEntries (v :: vs) = v.entries ++ leafEntries vs := by
  unfold leafEntries
  rw [List.filter_cons_of_pos (by simpa using h), List.flatMap_cons]

theorem leafEntries_high {v : Visit} (h : v.depth ≠ 0) (vs : List Visit) :
    leafEntries (v :: vs) = leafEntries vs := by
  unfold leafEntries
  rw [List.filter_cons_of_neg (by simpa using h)]

/-- a batch of one page table -/
theorem entries_table {t off len x : Nat}
    (h : ∀ y < len, leafEntry m (s + (x + y)) = (t, off + y)) :
    Visit.entries ⟨0, t, off, len⟩ = (List.range' x len).map fun j => leafEntry m (s + j) := by
  unfold Visit.entries
  rw [Int.toNat_natCast, List.range'_eq_map_range, List.map_map]
  exact List.map_congr_left fun y hy => (h y (List.mem_range.mp hy)).symm

/-- the leaf entry of a page that lies behind the first table -/
theorem leafEntry_next {k x y : Nat} (i : Fin 512) (hi : (pageIndex s 1).val + (k + 1) = i)
    (hx : s + x = (s / 512 + (k + 1)) * 512) (hy : y < 512) :
    leafEntry m (s + (x + y)) = (dirAt m (pageDirectory m s) i, 0 + y) := by
  have hi' : s / 512^1 % 512 + (k + 1) = i := hi
  have hdir : pageDirectory m (s + (x + y)) = pageDirectory m s := by
    apply pageDirectory_congr
    omega
  have h1 : pageIndex (s + (x + y)) 1 = i := by
    apply Fin.ext
    show (s + (x + y)) / 512^1 % 512 = i
    omega
  have h0 : (pageIndex (s + (x + y)) 0).val = 0 + y := by
    show (s + (x + y)) / 512^0 % 512 = 0 + y
    omega
  unfold leafEntry
  rw [hdir, h1, h0]

/-- the leaf entry of a page in the first table -/
theorem leafEntry_first {y : Nat} (hy : s % 512 + y < 512) : leafEntry m (s + (0 + y)) =
    (dirAt m (pageDirectory m s) (pageIndex s 1), (pageIndex s 0).val + y) := by
  have hdir : pageDirectory m (s + (0 + y)) = pageDirectory m s := by
    apply pageDirectory_congr
    omega
  have h1 : pageIndex (s + (0 + y)) 1 = pageIndex s 1 := by
    apply Fin.ext
    show (s + (0 + y)) / 512^1 % 512 = s / 512^1 % 512
    omega
  have h0 : (pageIndex (s + (0 + y)) 0).val = (pageIndex s 0).val + y := by
    show (s + (0 + y)) / 512^0 % 512 = s / 512^0 % 512 + y
    omega
  unfold leafEntry
  rw [hdir, h1, h0]

/-- **The batches of the tables that follow**, by induction on their number; `x` pages were given out. -/
theorem Leaves.batches {k rem x : Nat} (h : Leaves s n (pageDirectory m s) k rem it) (hspan : InSpan s n)
    (hx : rem ≠ 0 → s + x = (s / 512 + (k + 1)) * 512) (j : Nat) (hj : k + 1 + j = tableCount n)
    (fuel : Nat) (hfuel : j < fuel) : ∃ vs, iterBatches m fuel it = some vs ∧
      leafEntries vs = (List.range' x (min rem (512 * j))).map fun y => leafEntry m (s + y) := by
  obtain ⟨fuel, rfl⟩ : ∃ f, fuel = f + 1 := ⟨fuel - 1, by omega⟩
  induction j generalizing k rem x it fuel with
  | zero =>
    obtain ⟨it', e⟩ := h.done (m := m) hj
    refine ⟨[], ?_, ?_⟩
    · rw [iterBatches, e]
      rfl
    · rw [Nat.mul_zero, Nat.min_zero]
      rfl
  | succ j ih =>
    have hi : (pageIndex s 1).val + (k + 1) < 512 := by
      unfold InSpan at hspan
      show s / 512^1 % 512 + (k + 1) < 512
      omega
    obtain ⟨it', e, h'⟩ := h.next (m := m) (by omega) ⟨_, hi⟩ rfl
    obtain ⟨fuel, rfl⟩ : ∃ f, fuel = f + 1 := ⟨fuel - 1, by omega⟩
    obtain ⟨vs, evs, hvs⟩ := ih (x := x + min rem 512) h' (fun hr => by
      have := hx (by omega)
      omega) (by omega) fuel (by omega)
    refine ⟨_ :: vs, by rw [iterBatches_visit _ e, evs, Option.map_some], ?_⟩
    rw [leafEntries_low rfl, hvs, entries_table fun y hy => leafEntry_next ⟨_, hi⟩ rfl
      (hx (by omega)) (by omega), ← List.map_append, List.range'_append_1]
    congr 2
    omega

/-- **The batches of a range**: the entries of the pages that are covered. -/
theorem batches_span {addr size : Nat} (hs : addr / 4096 = s) (hsize : size + 4095 < 2^64)
    (hn : (size + 4095) / 4096 = n) (hpos : 0 < n) (hspan : InSpan s n) :
    Enumerates m addr size s (covered s n) := by
  have h₀ := stage_created hs hsize hn hpos hspan m.cr3
  have hfuel : visits (pageIterCreate m.cr3 addr size) = tableCount n + 3 := by
    unfold visits
    rw [h₀.dirs, h₀.tops, h₀.tables]
    simp only [Int.toNat_natCast]
    omega
  unfold Enumerates batches
  simp only
  rw [hfuel]
  generalize pageIterCreate m.cr3 addr size = it at h₀
  obtain ⟨it₁, e₁, h₁⟩ := h₀.first (m := m)
  obtain ⟨it₂, e₂, h₂⟩ := h₁.top (m := m)
  obtain ⟨it₃, e₃, h₃⟩ := h₂.mid (m := m) hspan
  obtain ⟨it₄, e₄, h₄⟩ := h₃.low (m := m) hspan hpos
  obtain ⟨k, hk⟩ : ∃ k, tableCount n = k + 1 := ⟨tableCount n - 1, by unfold tableCount; omega⟩
  have hlow : (pageIndex s 0).val = s % 512 := by
    show s / 512^0 % 512 = _
    omega
  obtain ⟨vs, evs, hvs⟩ := Leaves.batches (x := min n (512 - (pageIndex s 0).val)) h₄ hspan (fun hr => by omega) k
    (by omega) (k + 1) (by omega)
  refine ⟨_ :: _ :: _ :: _ :: vs, by
    rw [hk, iterBatches_visit _ e₁, iterBatches_visit _ e₂, iterBatches_visit _ e₃, iterBatches_visit _ e₄,
      evs]
    rfl, ?_⟩
  have hsplit := List.range'_append_1 (s := 0) (m := min n (512 - (pageIndex s 0).val))
    (n := min (n - min n (512 - (pageIndex s 0).val)) (512 * k))
  rw [Nat.zero_add] at hsplit
  have hcov : min n (512 - (pageIndex s 0).val) +
      min (n - min n (512 - (pageIndex s 0).val)) (512 * k) = covered s n := by
    unfold covered
    omega
  rw [leafEntries_high (Nat.succ_ne_zero _), leafEntries_high (Nat.succ_ne_zero _),
    leafEntries_high (Nat.succ_ne_zero _), leafEntries_low rfl, hvs, entries_table (x := 0) fun y hy => ?_,
    ← List.map_append, List.range_eq_range', hsplit, hcov]
  exact leafEntry_first (by omega)

/-- no pages: there is no batch of depth 0 -/
theorem batches_empty (m : Machine) (addr : Nat) : Enumerates m addr 0 (addr / 4096) 0 := by
  have c := created m.cr3 addr 0 (addr / 4096) 0 rfl (by decide) rfl (by decide)
  have htops : (pageIterCreate m.cr3 addr 0).len 3 = (0 : Nat) := c.tops
  have hfuel : visits (pageIterCreate m.cr3 addr 0) = 1 := by
    unfold visits
    rw [htops]
    simp
  unfold Enumerates batches
  simp only
  rw [hfuel]
  generalize pageIterCreate m.cr3 addr 0 = it at c htops
  have e₁ : pageIterNext m { it with state := 1 } = some (none, loopStart 3 { it with state := 1 }) := by
    refine if_neg ?_
    show ¬ ((0 : Nat) : Int) < it.len 3
    rw [htops]
    exact Int.lt_irrefl _
  refine ⟨[⟨3, it.dir 3, it.offset 3, it.len 3⟩], ?_, leafEntries_high (Nat.succ_ne_zero _) []⟩
  rw [iterBatches_visit _ (next_first c.state), iterBatches, e₁]
  rfl

end

theorem Enumerates.pages {m : Machine} {addr size s k n : Nat} (h : Enumerates m addr size s k)
    (h' : Enumerates m addr size s n) : k = n := by
  obtain ⟨vs, e, hvs⟩ := h
  obtain ⟨vs', e', hvs'⟩ := h'
  obtain rfl := Option.some.inj (e.symm.trans e')
  have hlen := congrArg List.length (hvs.symm.trans hvs')
  simpa using hlen

/-- a page aligned range in one span of 1 GiB -/
structure InGiB (addr size : Nat) : Prop where
  aligned : addr % 4096 = 0
  span : addr % 2^30 + size ≤ 2^30

theorem InGiB.inSpan {addr size : Nat} (h : InGiB addr size) :
    InSpan (addr / 4096) ((size + 4095) / 4096) := by
  have := h.aligned
  have := h.span
  unfold InSpan tableCount
  omega

/-- **All leaf entries are given out, in order and once each, if and only if** the pages of the range lie
in no more page tables than a range of this length needs. -/
theorem page_iter_coverage (m : Machine) (addr size : Nat) (h : InGiB addr size) :
    Enumerates m addr size (addr / 4096) ((size + 4095) / 4096) ↔
      Reached (addr / 4096) ((size + 4095) / 4096) ∨ size = 0 := by
  rcases Nat.eq_zero_or_pos size with rfl | hpos
  · exact ⟨fun _ => .inr rfl, fun _ => batches_empty m addr⟩
  have hle : size ≤ 2^30 := by
    have := h.span
    omega
  have hcov := batches_span (m := m) rfl (by omega) rfl (by omega) h.inSpan
  have hiff : covered (addr / 4096) ((size + 4095) / 4096) = (size + 4095) / 4096 ↔
      Reached (addr / 4096) ((size + 4095) / 4096) ∨ size = 0 := by
    rw [covered_eq]
    exact or_congr_right (by omega)
  rw [← hiff]
  constructor
  · exact hcov.pages
  · intro e
    rw [e] at hcov
    exact hcov

/-- three pages of the kernel image -/
theorem page_iter_coverage_image : Enumerates bootMachine 0xffffffff80000000 0x3000 0xffffffff80000 3 :=
  (page_iter_coverage bootMachine 0xffffffff80000000 0x3000 ⟨by decide, by decide⟩).mpr (.inl (by decide))

/-- the last page of a table and the first one of the next: one table is looked at -/
theorem page_iter_misses : ¬ ∀ (m : Machine) (addr size : Nat), InGiB addr size →
    (∀ j < (size + 4095) / 4096, ∃ t, m.nodeAt (stem (addr / 4096 + j) 3) = some t) →
    Enumerates m addr size (addr / 4096) ((size + 4095) / 4096) := by
  intro hall
  have hcov := batches_span (m := bootMachine) (show 0xffffffff801ff000 / 4096 = 0xffffffff801ff from rfl)
    (show 0x2000 + 4095 < 2^64 by decide) rfl (by decide) (by decide)
  have h := hall bootMachine 0xffffffff801ff000 0x2000 ⟨by decide, by decide⟩ fun j hj => by
    obtain ⟨k, hk, e⟩ : ∃ k < 1024, 0xffffffff801ff000 / 4096 + j = 0xffffffff80000 + k :=
      ⟨511 + j, by omega, by omega⟩
    rw [e]
    exact node_of_leaf (leaf_boot hk) (le_refl 3)
  exact absurd (hcov.pages h) (by decide)

/-! ## the entries that are read -/

/-- `iterLoop3` goes down through an entry of level 3: level, table and index -/
def descent3 (it : PageIterator) : Option (Fin 4 × Nat × Nat) :=
  if it.index 3 < it.len 3 then some (3, it.dir 3, it.offset 3 + it.index 3) else none

def descent2 (it : PageIterator) : Option (Fin 4 × Nat × Nat) :=
  if it.index 2 < it.len 2 then some (2, it.dir 2, it.offset 2 + it.index 2) else descent3 (iterDone 2 3 it)

def descent1 (it : PageIterator) : Option (Fin 4 × Nat × Nat) :=
  if it.index 1 < it.len 1 then some (1, it.dir 1, it.offset 1 + it.index 1) else descent2 (iterDone 1 2 it)

/-- the entry that the next call of `page_iter_next` reads -/
def descent (it : PageIterator) : Option (Fin 4 × Nat × Nat) :=
  match it.state with
  | 1 => descent3 (loopStart 3 it)
  | 2 => descent2 (loopStart 2 it)
  | 3 => descent1 (loopStart 1 it)
  | 4 => descent1 (iterDone 0 1 it)
  | _ => none

/-- Successive calls, each with the memory of its time: the caller writes to the tables in between. -/
inductive IterRun (it₀ : PageIterator) : List Visit → PageIterator → Prop
  | start : IterRun it₀ [] it₀
  | next {vs : List Visit} {it it' : PageIterator} {v : Visit} (m : Machine) : IterRun it₀ vs it →
      pageIterNext m it = some (some v, it') → IterRun it₀ (vs ++ [v]) it'

/-- The batches so far lie in their tables, and the next call is defined and goes down through an entry
of one of them. -/
structure InTables (vs : List Visit) (it : PageIterator) : Prop where
  batch : ∀ v ∈ vs, 0 ≤ v.len ∧ v.offset + v.len ≤ 512
  defined : ∀ m, (pageIterNext m it).isSome
  read : ∀ up t i, descent it = some (up, t, i) → i < 512 ∧
    ∃ v ∈ vs, v.depth = up ∧ v.dir = t ∧ v.offset ≤ i ∧ (i : Int) < v.offset + v.len

/-- in every run over the range the iterator stays in its tables -/
def StaysInTables (cr3 addr size : Nat) : Prop :=
  ∀ vs it, IterRun (pageIterCreate cr3 addr size) vs it → InTables vs it

section
variable {s n : Nat} {it it' : PageIterator} {m m' : Machine}

/-- a call depends on the memory through the entry that it reads -/
theorem next_congr (h : ∀ up t i, descent it = some (up, t, i) → m.read t i = m'.read t i) :
    pageIterNext m it = pageIterNext m' it := by
  have hvisit {d up : Fin 4} {it : PageIterator} (e : m.read (it.dir up) (it.offset up + it.index up) =
      m'.read (it.dir up) (it.offset up + it.index up)) : iterVisit m d up it = iterVisit m' d up it := by
    unfold iterVisit iterComputeDir
    rw [e]
  have h3 {it : PageIterator} (h : ∀ up t i, descent3 it = some (up, t, i) → m.read t i = m'.read t i) :
      iterLoop3 m it = iterLoop3 m' it := by
    unfold iterLoop3
    unfold descent3 at h
    by_cases hlt : (it.index 3 : Int) < it.len 3
    · rw [if_pos hlt] at h
      rw [if_pos hlt, if_pos hlt]
      exact hvisit (h _ _ _ rfl)
    · rw [if_neg hlt, if_neg hlt]
  have h2 {it : PageIterator} (h : ∀ up t i, descent2 it = some (up, t, i) → m.read t i = m'.read t i) :
      iterLoop2 m it = iterLoop2 m' it := by
    unfold iterLoop2
    unfold descent2 at h
    by_cases hlt : (it.index 2 : Int) < it.len 2
    · rw [if_pos hlt] at h
      rw [if_pos hlt, if_pos hlt]
      exact hvisit (h _ _ _ rfl)
    · rw [if_neg hlt] at h
      rw [if_neg hlt, if_neg hlt]
      exact h3 h
  have h1 {it : PageIterator} (h : ∀ up t i, descent1 it = some (up, t, i) → m.read t i = m'.read t i) :
      iterLoop1 m it = iterLoop1 m' it := by
    unfold iterLoop1
    unfold descent1 at h
    by_cases hlt : (it.index 1 : Int) < it.len 1
    · rw [if_pos hlt] at h
      rw [if_pos hlt, if_pos hlt]
      exact hvisit (h _ _ _ rfl)
    · rw [if_neg hlt] at h
      rw [if_neg hlt, if_neg hlt]
      exact h2 h
  unfold descent at h
  unfold pageIterNext
  split <;> simp only [*] at h
  · rfl
  · exact h3 h
  · exact h2 h
  · exact h1 h
  · exact h1 h
  · rfl

/-- the states of a run over a range that stays in its page directory -/
inductive RunStage (s n cr3 : Nat) : List Visit → PageIterator → Prop
  | created {it : PageIterator} : Stage s n 0 3 cr3 it → RunStage s n cr3 [] it
  | top {it : PageIterator} : Stage s n 1 3 cr3 it → RunStage s n cr3 [⟨3, cr3, pageIndex s 3, 1⟩] it
  | mid {it : PageIterator} {d₂ : Nat} : Stage s n 2 2 d₂ it →
      RunStage s n cr3 [⟨3, cr3, pageIndex s 3, 1⟩, ⟨2, d₂, pageIndex s 2, 1⟩] it
  | low {it : PageIterator} {d₂ d₁ : Nat} : Stage s n 3 1 d₁ it → RunStage s n cr3
      [⟨3, cr3, pageIndex s 3, 1⟩, ⟨2, d₂, pageIndex s 2, 1⟩, ⟨1, d₁, pageIndex s 1, tableCount n⟩] it
  | leaves {it : PageIterator} {d₂ d₁ k rem : Nat} {ls : List Visit} : Leaves s n d₁ k rem it →
      k < tableCount n → (∀ v ∈ ls, 0 ≤ v.len ∧ v.offset + v.len ≤ 512) → RunStage s n cr3
      (⟨3, cr3, pageIndex s 3, 1⟩ :: ⟨2, d₂, pageIndex s 2, 1⟩ :: ⟨1, d₁, pageIndex s 1, tableCount n⟩ :: ls) it

/-- one call -/
theorem RunStage.step {cr3 : Nat} {vs : List Visit} {v : Visit} (h : RunStage s n cr3 vs it)
    (hspan : InSpan s n) (hpos : 0 < n) (e : pageIterNext m it = some (some v, it')) :
    RunStage s n cr3 (vs ++ [v]) it' := by
  cases h with
  | created h =>
    obtain ⟨it'', e', h'⟩ := h.first (m := m)
    rw [e'] at e
    obtain ⟨rfl, rfl⟩ : _ = v ∧ _ = it' := by simpa using e
    exact .top h'
  | top h =>
    obtain ⟨it'', e', h'⟩ := h.top (m := m)
    rw [e'] at e
    obtain ⟨rfl, rfl⟩ : _ = v ∧ _ = it' := by simpa using e
    exact .mid h'
  | mid h =>
    obtain ⟨it'', e', h'⟩ := h.mid (m := m) hspan
    rw [e'] at e
    obtain ⟨rfl, rfl⟩ : _ = v ∧ _ = it' := by simpa using e
    exact .low h'
  | low h =>
    obtain ⟨it'', e', h'⟩ := h.low (m := m) hspan hpos
    rw [e'] at e
    obtain ⟨rfl, rfl⟩ : _ = v ∧ _ = it' := by simpa using e
    refine .leaves h' (by unfold tableCount; omega) fun v hv => ?_
    rw [List.mem_singleton.mp hv]
    dsimp only
    omega
  | @leaves _ d₂ d₁ k rem ls h hk hls =>
    by_cases hlt : k + 1 < tableCount n
    · have hi : (pageIndex s 1).val + (k + 1) < 512 := by
        unfold InSpan at hspan
        show s / 512^1 % 512 + (k + 1) < 512
        omega
      obtain ⟨it'', e', h'⟩ := h.next (m := m) hlt ⟨_, hi⟩ rfl
      rw [e'] at e
      obtain ⟨rfl, rfl⟩ : _ = v ∧ _ = it' := by simpa using e
      refine .leaves h' hlt fun v hv => ?_
      rcases List.mem_append.mp hv with hv | hv
      · exact hls v hv
      · rw [List.mem_singleton.mp hv]
        dsimp only
        omega
    · obtain ⟨it'', e'⟩ := h.done (m := m) (by omega)
      rw [e'] at e
      exact nomatch e

/-- the first entry of a level -/
theorem Stage.descent {st dir : Nat} {up : Fin 4} (h : Stage s n st up dir it) (hpos : 0 < n)
    (hst : st + up = 4) (hup : up ≠ 0) : descent it = some (up, dir, (pageIndex s up).val) := by
  have htables : 0 < tableCount n := by
    unfold tableCount
    omega
  have h1 : ((0 : Nat) : Int) < it.len 1 := by
    rw [h.tables]
    omega
  have h2 : ((0 : Nat) : Int) < it.len 2 := by
    rw [h.dirs]
    decide
  have h3 : ((0 : Nat) : Int) < it.len 3 := by
    rw [h.tops]
    decide
  have e : FuseeOS.descent it = some (up, it.dir up, it.offset up + 0) := by
    have hs := h.state
    unfold FuseeOS.descent
    match up, hup with
    | 1, _ =>
      rw [show it.state = 3 from hs.trans (Nat.succ.inj hst)]
      exact if_pos h1
    | 2, _ =>
      rw [show it.state = 2 from hs.trans (Nat.succ.inj (Nat.succ.inj hst))]
      exact if_pos h2
    | 3, _ =>
      rw [show it.state = 1 from hs.trans (Nat.succ.inj (Nat.succ.inj (Nat.succ.inj hst)))]
      exact if_pos h3
  rw [e, h.dir, h.offset, Nat.add_zero]

theorem Leaves.descent_next {dir k rem : Nat} (h : Leaves s n dir k rem it) (hlt : k + 1 < tableCount n) :
    descent it = some (1, dir, (pageIndex s 1).val + (k + 1)) := by
  have hlow := h.low
  unfold descent
  rw [h.state]
  refine (if_pos ?_).trans ?_
  · show ((it.index 1 + 1 : Nat) : Int) < it.len 1
    rw [h.tables]
    omega
  · show some (1, it.dir 1, it.offset 1 + (it.index 1 + 1)) = _
    rw [h.dir, h.offset, hlow]

theorem Leaves.descent_end {dir k rem : Nat} (h : Leaves s n dir k rem it) (hk : k + 1 = tableCount n) :
    descent it = none := by
  unfold descent
  rw [h.state]
  refine (if_neg ?_).trans ((if_neg ?_).trans (if_neg ?_))
  · show ¬ ((it.index 1 + 1 : Nat) : Int) < it.len 1
    rw [h.low, h.tables, hk]
    exact Int.lt_irrefl _
  · show ¬ ((it.index 2 + 1 : Nat) : Int) < it.len 2
    rw [h.mid, h.dirs]
    exact Int.lt_irrefl _
  · show ¬ ((it.index 3 + 1 : Nat) : Int) < it.len 3
    rw [h.top, h.tops]
    exact Int.lt_irrefl _

/-- the next call goes down through an entry of a batch -/
theorem InTables.of_descent {vs : List Visit} {up : Fin 4} {t i : Nat} (hbatch : ∀ v ∈ vs, 0 ≤ v.len ∧ v.offset + v.len ≤ 512)
    (hdefined : ∀ m, (pageIterNext m it).isSome) (e : descent it = some (up, t, i)) (hi : i < 512)
    (hv : ∃ v ∈ vs, v.depth = up ∧ v.dir = t ∧ v.offset ≤ i ∧ (i : Int) < v.offset + v.len) : InTables vs it := by
  refine ⟨hbatch, hdefined, fun up' t' i' e' => ?_⟩
  rw [e] at e'
  cases e'
  exact ⟨hi, hv⟩

/-- in every stage the next call stays in the tables -/
theorem RunStage.inTables {cr3 : Nat} {vs : List Visit} (h : RunStage s n cr3 vs it)
    (hspan : InSpan s n) (hpos : 0 < n) : InTables vs it := by
  -- the batches of the upper levels
  have hin (d : Nat) : (0 : Int) ≤ 1 ∧ ((pageIndex s d).val : Int) + 1 ≤ 512 := by
    have := (pageIndex s d).isLt
    omega
  have hin₁ : (0 : Int) ≤ tableCount n ∧ ((pageIndex s 1).val : Int) + tableCount n ≤ 512 := by
    unfold InSpan at hspan
    show (0 : Int) ≤ tableCount n ∧ ((s / 512^1 % 512 : Nat) : Int) + tableCount n ≤ 512
    omega
  have htables : 0 < tableCount n := by
    unfold tableCount
    omega
  cases h with
  | created h =>
    refine ⟨fun v hv => absurd hv List.not_mem_nil, fun m => ?_, fun up t i e => ?_⟩
    · obtain ⟨it', e, -⟩ := h.first (m := m)
      rw [e]
      rfl
    · unfold descent at e
      rw [h.state] at e
      exact nomatch e
  | top h =>
    refine .of_descent (fun v hv => ?_) (fun m => ?_) (h.descent hpos rfl (by decide)) (pageIndex s 3).isLt
      ⟨_, List.mem_singleton_self _, rfl, rfl, le_refl _, Int.lt_succ _⟩
    · rw [List.mem_singleton.mp hv]
      exact hin 3
    · obtain ⟨it', e, -⟩ := h.top (m := m)
      rw [e]
      rfl
  | mid h =>
    refine .of_descent (fun v hv => ?_) (fun m => ?_) (h.descent hpos rfl (by decide)) (pageIndex s 2).isLt
      ⟨_, List.mem_cons_of_mem _ (List.mem_singleton_self _), rfl, rfl, le_refl _, Int.lt_succ _⟩
    · simp only [List.mem_cons, List.not_mem_nil, or_false] at hv
      rcases hv with rfl | rfl
      · exact hin 3
      · exact hin 2
    · obtain ⟨it', e, -⟩ := h.mid (m := m) hspan
      rw [e]
      rfl
  | low h =>
    refine .of_descent (fun v hv => ?_) (fun m => ?_) (h.descent hpos rfl (by decide)) (pageIndex s 1).isLt
      ⟨_, List.mem_cons_of_mem _ (List.mem_cons_of_mem _ (List.mem_singleton_self _)), rfl, rfl, le_refl _, ?_⟩
    · simp only [List.mem_cons, List.not_mem_nil, or_false] at hv
      rcases hv with rfl | rfl | rfl
      · exact hin 3
      · exact hin 2
      · exact hin₁
    · obtain ⟨it', e, -⟩ := h.low (m := m) hspan hpos
      rw [e]
      rfl
    · show ((pageIndex s 1).val : Int) < (pageIndex s 1).val + tableCount n
      omega
  | @leaves _ d₂ d₁ k rem ls h hk hls =>
    refine ⟨fun v hv => ?_, fun m => ?_, fun up t i e => ?_⟩
    · simp only [List.mem_cons] at hv
      rcases hv with rfl | rfl | rfl | hv
      · exact hin 3
      · exact hin 2
      · exact hin₁
      · exact hls v hv
    · by_cases hlt : k + 1 < tableCount n
      · obtain ⟨it', e, -⟩ := h.next (m := m) hlt ⟨(pageIndex s 1).val + (k + 1), by omega⟩ rfl
        rw [e]
        rfl
      · obtain ⟨it', e⟩ := h.done (m := m) (by omega)
        rw [e]
        rfl
    · by_cases hlt : k + 1 < tableCount n
      · rw [h.descent_next hlt] at e
        obtain ⟨rfl, rfl, rfl⟩ : _ = up ∧ _ = t ∧ _ = i := by simpa using e
        refine ⟨by omega, ⟨1, d₁, pageIndex s 1, tableCount n⟩, ?_, rfl, rfl, Nat.le_add_right _ _, ?_⟩
        · simp
        · dsimp only
          omega
      · rw [h.descent_end (by omega)] at e
        exact nomatch e

theorem IterRun.stage {cr3 : Nat} {vs : List Visit} {it₀ : PageIterator} (h₀ : Stage s n 0 3 cr3 it₀)
    (hspan : InSpan s n) (hpos : 0 < n) (h : IterRun it₀ vs it) : RunStage s n cr3 vs it := by
  induction h with
  | start => exact .created h₀
  | next m _ e ih => exact ih.step hspan hpos e

/-- The tables run over the end of the page directory: some call of the run goes wrong.  By induction on
the entries that are left in the page directory. -/
theorem stuck_over {it₀ : PageIterator} {vs : List Visit} (m : Machine) (k : Nat) (h : IterRun it₀ vs it)
    (hstate : it.state = 4) (hk : it.offset 1 + it.index 1 + 1 + k = 512)
    (hlen : (512 : Int) < it.offset 1 + it.len 1) :
    ∃ vs' it', IterRun it₀ vs' it' ∧ pageIterNext m it' = none := by
  have e : pageIterNext m it = iterVisit m 0 1 (iterDone 0 1 it) := by
    unfold pageIterNext
    rw [hstate]
    refine if_pos ?_
    show ((it.index 1 + 1 : Nat) : Int) < it.len 1
    omega
  induction k generalizing it vs with
  | zero =>
    refine ⟨vs, it, h, ?_⟩
    cases hv : pageIterNext m it with
    | none => rfl
    | some y =>
      obtain ⟨_, _, _, _, _, hlt⟩ := iterVisit_some (e.symm.trans hv)
      have hlt' : it.offset 1 + (it.index 1 + 1) < 512 := hlt
      omega
  | succ k ih =>
    cases hv : pageIterNext m it with
    | none => exact ⟨vs, it, h, hv⟩
    | some y =>
      obtain ⟨x, it'⟩ := y
      obtain ⟨⟨v, rfl⟩, hoff, hl, hidx, hst, _⟩ := iterVisit_some (e.symm.trans hv)
      have h1 : it'.offset 1 = it.offset 1 := by rw [hoff]; rfl
      have h2 : it'.len 1 = it.len 1 := by rw [hl]; rfl
      have h3 : it'.index 1 = it.index 1 + 1 := by rw [hidx]; rfl
      have hlen' : (512 : Int) < it'.offset 1 + it'.len 1 := by rw [h1, h2]; exact hlen
      refine ih (h.next m hv) hst (by omega) hlen' ?_
      unfold pageIterNext
      rw [hst]
      refine if_pos ?_
      show ((it'.index 1 + 1 : Nat) : Int) < it'.len 1
      omega

/-- from the first call on -/
theorem stuck_created {cr3 : Nat} (m : Machine) (c : Created it cr3 s n) (hlt : n < 2^39) (hpos : 0 < n)
    (hspan : ¬ InSpan s n) : ∃ vs' it', IterRun it vs' it' ∧ pageIterNext m it' = none := by
  have htables : (512 : Int) < it.offset 1 + it.len 1 := by
    rw [c.offset, c.tables]
    unfold InSpan at hspan
    show (512 : Int) < ((s / 512^1 % 512 : Nat) : Int) + _
    omega
  have hoff : it.offset 1 < 512 := by
    rw [c.offset]
    exact (pageIndex s 1).isLt
  have hdirs : 0 < it.len 2 := by
    rw [c.dirs]
    omega
  have htops : 0 < it.len 3 := by
    rw [c.tops]
    omega
  have h₁ : IterRun it _ { it with state := 1 } := IterRun.start.next m (next_first c.state)
  have e₂ : pageIterNext m { it with state := 1 } = iterVisit m 2 3 (loopStart 3 { it with state := 1 }) :=
    next_top rfl htops
  cases hv₂ : pageIterNext m { it with state := 1 } with
  | none => exact ⟨_, _, h₁, hv₂⟩
  | some y =>
    obtain ⟨x, it₂⟩ := y
    obtain ⟨⟨v₂, rfl⟩, hoff₂, hlen₂, -, hst₂, -⟩ := iterVisit_some (e₂.symm.trans hv₂)
    have h₂ := h₁.next m hv₂
    have e₃ := next_mid (m := m) hst₂ (by rw [hlen₂]; exact hdirs)
    cases hv₃ : pageIterNext m it₂ with
    | none => exact ⟨_, _, h₂, hv₃⟩
    | some y =>
      obtain ⟨x, it₃⟩ := y
      obtain ⟨⟨v₃, rfl⟩, hoff₃, hlen₃, -, hst₃, -⟩ := iterVisit_some (e₃.symm.trans hv₃)
      have h₃ := h₂.next m hv₃
      have ho₃ : it₃.offset 1 = it.offset 1 := by rw [hoff₃]; show it₂.offset 1 = _; rw [hoff₂]; rfl
      have hl₃ : it₃.len 1 = it.len 1 := by rw [hlen₃]; show it₂.len 1 = _; rw [hlen₂]; rfl
      have e₄ := next_low (m := m) hst₃ (by rw [hl₃]; omega)
      cases hv₄ : pageIterNext m it₃ with
      | none => exact ⟨_, _, h₃, hv₄⟩
      | some y =>
        obtain ⟨x, it₄⟩ := y
        obtain ⟨⟨v₄, rfl⟩, hoff₄, hlen₄, hidx₄, hst₄, -⟩ := iterVisit_some (e₄.symm.trans hv₄)
        have ho₄ : it₄.offset 1 = it.offset 1 := by rw [hoff₄]; exact ho₃
        have hl₄ : it₄.len 1 = it.len 1 := by rw [hlen₄]; exact hl₃
        have hi₄ : it₄.index 1 = 0 := by rw [hidx₄]; rfl
        exact stuck_over m (511 - it.offset 1) (h₃.next m hv₄) hst₄ (by omega) (by rw [ho₄, hl₄]; exact htables)

end

/-- a page aligned range that is not empty, in one half of the address space -/
structure InHalf (addr size : Nat) : Prop where
  aligned : addr % 4096 = 0
  pages : size % 4096 = 0
  pos : 0 < size
  half : addr + size ≤ 2^47 ∨ 2^64 - 2^47 ≤ addr ∧ addr + size ≤ 2^64

/-- **In every run the iterator stays in its tables, and follows entries that it gave out before, if and
only if** the page tables that it counts lie in one page directory. -/
theorem page_iter_sound (cr3 addr size : Nat) (h : InHalf addr size) :
    StaysInTables cr3 addr size ↔ InSpan (addr / 4096) (size / 4096) := by
  have hpages := h.pages
  have hpos := h.pos
  have hsize : size ≤ 2^47 := by
    have := h.half
    omega
  have hn : (size + 4095) / 4096 = size / 4096 := by omega
  constructor
  · intro hall
    by_contra hspan
    have c := created cr3 addr size _ _ rfl (by omega) hn (by omega)
    obtain ⟨vs, it, hrun, e⟩ := stuck_created bootMachine c (by omega) (by omega) hspan
    have hsome := (hall vs it hrun).defined bootMachine
    rw [e] at hsome
    exact nomatch hsome
  · intro hspan vs it hrun
    have h₀ := stage_created rfl (by omega) hn (by omega) hspan cr3
    exact (hrun.stage h₀ hspan (by omega)).inTables hspan (by omega)

/-- two pages from the last page of a page table on -/
theorem page_iter_sound_two : StaysInTables 0x1000 0x1ff000 0x2000 :=
  (page_iter_sound 0x1000 0x1ff000 0x2000 ⟨rfl, rfl, by decide, .inl (by decide)⟩).mpr (by decide)

/-- 513 pages from the last page table of a page directory on: entry 512 is read -/
theorem page_iter_leaves : ¬ ∀ cr3 addr size, InHalf addr size → StaysInTables cr3 addr size := by
  intro hall
  have c := created 0x1000 0x3fe00000 0x201000 _ _ rfl (by decide) rfl (by decide)
  obtain ⟨vs, it, hrun, e⟩ := stuck_created bootMachine c (by decide) (by decide) (by decide)
  have hsome := (hall 0x1000 0x3fe00000 0x201000 ⟨rfl, rfl, by decide, .inl (by decide)⟩ vs it hrun).defined
    bootMachine
  rw [e] at hsome
  exact nomatch hsome

end FuseeOS
