import FuseeOS.Boot.Memory
import FuseeOS.Kernel.DirectMap
import FuseeOS.Lib.Bytes
import FuseeOS.Lib.Outcome

/-!
# Mapping pages in the bootloader

`valloc` gives every page of a range a page of `alloc_page_hi`, whether it had one or not.
`map_single` finds the lowest table of a page, makes the tables that are missing on the way, and
writes its entry.

* `tableAt_spec`, `mapLast_spec`   one level of `map_single`;
* `mapSingle_spec`                 one page;
* **`valloc_spec`**                a range: its pages show new pages, all other pages of the upper half
                                   show what they showed.

`LoaderInv` is the invariant: the tables and the pages that they show are a tree.
-/

namespace FuseeOS
open Bytes Radix BootMemRegion Outcome

/-! ## the code -/

/-- the end of what `memory_identity_map` maps -/
abbrev IDENTITY_END : Nat := 0x100000000

/-- The bootloader in long mode: physical memory, which it reaches below `IDENTITY_END` through the
identity map, and what it uses of `gBootParams`. -/
structure Loader where
  mem : Nat → UInt8
  memFree : List BootMemRegion
  cr3 : Nat
  initram : Nat

/-- how a run of the model can end early -/
inductive LoadStop where
  /-- `alloc_page_hi` has no page that it can clear: it returns 0, or `zero_page` faults on a page
  above the identity map.  What the code does with page 0 is not followed. -/
  | noFrame
  /-- `i * PAGESIZE` overflows -/
  | undefined
  /-- an access to an address that is not mapped -/
  | fault

/-- the words of the page at `t` -/
def Loader.words (m : Loader) : PhysMem := fun t i =>
  if t % 4096 = 0 then BitVec.ofNat 64 (readLe m.mem (t + 8 * i) 8) else 0

/-- `tmp[i] = w` -/
def Loader.setWord (m : Loader) (tmp : Nat) (i : Fin 512) (w : BitVec 64) : Loader :=
  { m with mem := store m.mem (tmp + 8 * i) (le 8 w.toNat) }

/-- `alloc_page_hi`, with the page cleared -/
def Loader.allocPageHi (m : Loader) : Except LoadStop (Nat × Loader) :=
  let (page, memFree) := FuseeOS.allocPageHi m.memFree
  if page ≠ 0 ∧ page + PAGESIZE ≤ IDENTITY_END then
    .ok (page, { m with mem := store m.mem page (List.replicate PAGESIZE 0), memFree := memFree })
  else .error .noFrame

/-- `a`, `b`, `c`, `d` -/
def decomposeAddr (virtual : Nat) : Fin 512 × Fin 512 × Fin 512 × Fin 512 :=
  let page := virtual >>> 12
  (pageIndex page 3, pageIndex page 2, pageIndex page 1, pageIndex page 0)

/-- the table that an entry of `map_single` points to -/
def tableOf (tmp2 : BitVec 64) : Nat := (tmp2 &&& 0xfffffffffffff000).toNat

/-- one level of `map_single`: the table behind entry `i` of `tmp`, which is made if it is missing -/
def Loader.tableAt (m : Loader) (tmp : Nat) (i : Fin 512) : Except LoadStop (Nat × Loader) :=
  let tmp2 := m.words tmp i
  if tmp2 = 0 then do
    let (page, m) ← m.allocPageHi
    let tmp2 := BitVec.ofNat 64 page ||| 3
    return (tableOf tmp2, m.setWord tmp i tmp2)
  else return (tableOf tmp2, m)

def Loader.mapSingle (m : Loader) (virtual : Nat) : Except LoadStop Loader := do
  let (a, b, c, d) := decomposeAddr virtual
  let (tmp, m) ← m.tableAt m.cr3 a
  let (tmp, m) ← m.tableAt tmp b
  let (tmp, m) ← m.tableAt tmp c
  let (page, m) ← m.allocPageHi
  return m.setWord tmp d (BitVec.ofNat 64 page ||| 1)

/-- `map_single(vaddr + i * PAGESIZE)` -/
def Loader.mapRound (m : Loader) (vaddr i : Nat) : Except LoadStop Loader :=
  (CInt.intMul? i PAGESIZE).elim (.error .undefined) fun offset =>
    m.mapSingle ((vaddr + CInt.toU64 offset) % 2^64)

/-- the loop of `valloc` with `n` rounds to go -/
def Loader.mapPages (m : Loader) (vaddr i : Nat) : Nat → Except LoadStop Loader
  | 0 => .ok m
  | n + 1 => do
    let m ← m.mapRound vaddr i
    m.mapPages vaddr (i + 1) n

/-- `valloc`.  The processor sees the new tables from the reload of CR3 on. -/
def Loader.valloc (m : Loader) (addr size : Nat) : Except LoadStop Loader :=
  let size := (size + addr % PAGESIZE) % 2^64
  let vaddr := addr / PAGESIZE * PAGESIZE
  let npages := CInt.toInt (((size + PAGESIZE - 1) % 2^64) >>> 12)
  m.mapPages vaddr 0 npages.toNat

/-- number of rounds of the loop of `valloc`, which counts in an `int` -/
def vallocPages (addr size : Nat) : Nat :=
  (CInt.toInt ((((size + addr % PAGESIZE) % 2^64 + PAGESIZE - 1) % 2^64) >>> 12)).toNat

theorem valloc_eq (m : Loader) (addr size : Nat) :
    m.valloc addr size = m.mapPages (addr / PAGESIZE * PAGESIZE) 0 (vallocPages addr size) :=
  rfl

/-- nothing to map -/
theorem valloc_none {m : Loader} {addr size : Nat} (h : vallocPages addr size = 0) :
    m.valloc addr size = .ok m := by
  rw [valloc_eq, h]
  rfl

/-! ## free memory -/

/-- the entries with memory are tails of usable ranges, of whole pages -/
structure FreePages (us memFree : List BootMemRegion) : Prop extends Tails us memFree where
  whole : ∀ f ∈ memFree, f.size % 4096 = 0

/-- the address is listed as free -/
def Loader.Free (m : Loader) (a : Nat) : Prop := ∃ f ∈ m.memFree, f.Has a

/-- number of pages in the first entry with memory, if `zero_page` can clear them -/
def roomOf (memFree : List BootMemRegion) : Nat :=
  match (memFree.take FREE_SCAN).find? fun r => r.size ≠ 0 with
  | some r => if r.base + r.size ≤ IDENTITY_END then r.size / 4096 else 0
  | none => 0

def Loader.room (m : Loader) : Nat := roomOf m.memFree

/-- the reason why a run that needs `n` pages may stop -/
def Short (m : Loader) (n : Nat) (s : LoadStop) : Prop := s = .noFrame ∧ m.room < n

/-- the page at `p` was handed out and cleared -/
structure Got (m : Loader) (p : Nat) (m' : Loader) : Prop where
  page : p % 4096 = 0
  low : p + 4096 ≤ IDENTITY_END
  free : m.Free p
  taken : ∀ a, m'.Free a → m.Free a ∧ ¬ (p ≤ a ∧ a < p + 4096)
  mem : m'.mem = store m.mem p (List.replicate PAGESIZE 0)
  cr3 : m'.cr3 = m.cr3
  initram : m'.initram = m.initram
  room : m.room ≤ m'.room + 1

/-- what is left of the first entry with memory is still the first one with memory -/
theorem takeHi_first {n p : Nat} {memFree memFree' : List BootMemRegion} {r : BootMemRegion}
    (hfind : (memFree.take n).find? (fun r => r.size ≠ 0) = some r)
    (htake : takeHi n memFree = some (p, memFree')) (h0 : (r.rest PAGESIZE).size ≠ 0) :
    (memFree'.take n).find? (fun r => r.size ≠ 0) = some (r.rest PAGESIZE) := by
  induction n generalizing memFree memFree' with
  | zero => exact nomatch hfind
  | succ n ih =>
    cases memFree with
    | nil => exact nomatch hfind
    | cons q t =>
      rw [takeHi] at htake
      rw [List.take_succ_cons] at hfind
      by_cases hq : q.size ≠ 0
      · rw [List.find?_cons_of_pos (by simpa using hq)] at hfind
        rw [if_pos hq] at htake
        obtain ⟨-, rfl⟩ := Prod.mk.inj (Option.some.inj htake)
        rw [← Option.some.inj hfind] at h0 ⊢
        exact List.find?_cons_of_pos (decide_eq_true h0)
      · rw [List.find?_cons_of_neg (by simpa using hq)] at hfind
        rw [if_neg hq] at htake
        obtain ⟨⟨base, t'⟩, ht', e⟩ := Option.map_eq_some_iff.mp htake
        obtain ⟨rfl, rfl⟩ := Prod.mk.inj e
        rw [List.take_succ_cons, List.find?_cons_of_neg (by simpa using hq)]
        exact ih hfind ht'

section
variable {us : List BootMemRegion} {m m' : Loader} {p : Nat} {l t : List BootMemRegion} {r : BootMemRegion}

theorem FreePages.fit (h : FreePages us (l ++ r :: t)) (h0 : r.size ≠ 0) : 4096 ≤ r.size := by
  have hwhole := h.whole r (List.mem_append_right _ List.mem_cons_self)
  omega

theorem FreePages.rest_eq (h : FreePages us (l ++ r :: t)) (h0 : r.size ≠ 0) :
    r.rest PAGESIZE = ⟨r.base + 4096, r.size - 4096⟩ :=
  FuseeOS.rest_eq (h.tail r (List.mem_append_right _ List.mem_cons_self) h0) (h.fit h0)

/-- a page is taken from an entry -/
theorem FreePages.take (h : FreePages us (l ++ r :: t)) (h0 : r.size ≠ 0) :
    FreePages us (l ++ r.rest PAGESIZE :: t) := by
  have hfit := h.fit h0
  have hwhole := h.whole r (List.mem_append_right _ List.mem_cons_self)
  refine ⟨h.toTails.take (by decide) hfit h0, fun f hf => ?_⟩
  rcases List.mem_append.mp hf with hf | hf
  · exact h.whole f (List.mem_append_left _ hf)
  · rcases List.mem_cons.mp hf with rfl | hf
    · rw [h.rest_eq h0]
      show (r.size - 4096) % 4096 = 0
      omega
    · exact h.whole f (List.mem_append_right _ (List.mem_cons_of_mem _ hf))

/-- what is free then, was free and is not in the page -/
theorem FreePages.taken (h : FreePages us (l ++ r :: t)) (h0 : r.size ≠ 0) {a : Nat}
    (ha : ∃ f ∈ l ++ r.rest PAGESIZE :: t, f.Has a) :
    (∃ f ∈ l ++ r :: t, f.Has a) ∧ ¬ (r.base ≤ a ∧ a < r.base + 4096) := by
  have hmem : r ∈ l ++ r :: t := List.mem_append_right _ List.mem_cons_self
  have hfit := h.fit h0
  have hin : r.base ≤ a ∧ a < r.base + 4096 → r.Has a := fun ha => ⟨ha.1, by omega⟩
  have hsplit := List.pairwise_append.mp h.apart
  have hhead := (List.pairwise_cons.mp hsplit.2.1).1
  obtain ⟨f, hf, hfa⟩ := ha
  rcases List.mem_append.mp hf with hf | hf
  · exact ⟨⟨f, List.mem_append_left _ hf, hfa⟩, fun ha => hsplit.2.2 f hf r List.mem_cons_self a ⟨hfa, hin ha⟩⟩
  · rcases List.mem_cons.mp hf with rfl | hf
    · refine ⟨⟨r, hmem, rest_sub (h.tail r hmem h0) hfit hfa⟩, fun ha => ?_⟩
      rw [h.rest_eq h0] at hfa
      exact absurd hfa.1 (Nat.not_le_of_lt ha.2)
    · exact ⟨⟨f, List.mem_append_right _ (List.mem_cons_of_mem _ hf), hfa⟩, fun ha =>
        hhead f hf a ⟨hin ha, hfa⟩⟩

theorem room_first (hfind : (m.memFree.take FREE_SCAN).find? (fun r => r.size ≠ 0) = some r) :
    m.room = if r.base + r.size ≤ IDENTITY_END then r.size / 4096 else 0 := by
  unfold Loader.room roomOf
  rw [hfind]

/-- one page less is left -/
theorem room_take (h : FreePages us (l ++ r :: t)) (h0 : r.size ≠ 0)
    (hfind : (m.memFree.take FREE_SCAN).find? (fun r => r.size ≠ 0) = some r)
    (htake : takeHi FREE_SCAN m.memFree = some (r.base, l ++ r.rest PAGESIZE :: t)) :
    m.room ≤ roomOf (l ++ r.rest PAGESIZE :: t) + 1 := by
  have hrest := h.rest_eq h0
  rw [room_first hfind]
  split_ifs with hlow
  · by_cases h1 : r.size = 4096
    · rw [h1]
      exact Nat.le_add_left 1 _
    · have hfit := h.fit h0
      have hs : (r.rest PAGESIZE).size = r.size - 4096 := by rw [hrest]
      have hb : (r.rest PAGESIZE).base = r.base + 4096 := by rw [hrest]
      unfold roomOf
      rw [takeHi_first hfind htake (by omega)]
      dsimp only
      rw [hs, hb, if_pos (by omega)]
      omega
  · exact Nat.zero_le _

/-- **`alloc_page_hi` hands out a page that was free.** -/
theorem allocPageHi_spec (h : FreePages us m.memFree) :
    Ends (Short m 1) (fun x => Got m x.1 x.2 ∧ FreePages us x.2.memFree) m.allocPageHi := by
  unfold Loader.allocPageHi FuseeOS.allocPageHi
  rcases takeHi_cases FREE_SCAN m.memFree with ⟨hfind, hnone⟩ | ⟨l, r, t, hl, h0, hfind, htake⟩
  · rw [hnone]
    refine Ends.of_error ⟨rfl, ?_⟩
    unfold Loader.room roomOf
    rw [hfind]
    exact Nat.one_pos
  · rw [htake]
    dsimp only [Option.getD_some]
    have hmem : r ∈ m.memFree := hl ▸ List.mem_append_right _ List.mem_cons_self
    have htail := h.tail r hmem h0
    have hsplit : FreePages us (l ++ r :: t) := hl ▸ h
    have hfit := hsplit.fit h0
    have hne : r.base ≠ 0 := by
      have hlow := htail.low
      unfold LOMEM_END at hlow
      omega
    by_cases hc : r.base ≠ 0 ∧ r.base + PAGESIZE ≤ IDENTITY_END
    · rw [if_pos hc]
      have hfree : m.Free r.base := ⟨r, hmem, Nat.le_refl _, by omega⟩
      have htaken : ∀ a, (∃ f ∈ l ++ r.rest PAGESIZE :: t, f.Has a) →
          m.Free a ∧ ¬ (r.base ≤ a ∧ a < r.base + 4096) := by
        intro a ha
        rw [Loader.Free, hl]
        exact hsplit.taken h0 ha
      exact Ends.of_ok ⟨⟨htail.aligned, hc.2, hfree, htaken, rfl, rfl, rfl,
        room_take hsplit h0 hfind htake⟩, hsplit.take h0⟩
    · -- the page is not below the end of the identity mapping
      rw [if_neg hc]
      refine Ends.of_error ⟨rfl, ?_⟩
      have hhigh : ¬ r.base + r.size ≤ IDENTITY_END := fun hle =>
        hc ⟨hne, Nat.le_trans (Nat.add_le_add_left hfit r.base) hle⟩
      rw [room_first hfind, if_neg hhigh]
      exact Nat.one_pos

end

/-! ## words -/

section
variable {m m' : Loader} {p t : Nat}

theorem words_setWord (ht : t % 4096 = 0) (i : Fin 512) (w : BitVec 64) :
    (m.setWord t i w).words = Radix.setWord m.words t i w := by
  funext s j
  unfold Loader.words Loader.setWord
  have hi := i.isLt
  have hj := j.isLt
  by_cases hs : s % 4096 = 0
  · rw [if_pos hs]
    by_cases hst : s = t ∧ j = i
    · obtain ⟨rfl, rfl⟩ := hst
      rw [setWord_same, readLe_store _ _ w.isLt, BitVec.ofNat_toNat, BitVec.setWidth_eq]
    · have hb : s + 8 * j.val + 8 ≤ t + 8 * i.val ∨ t + 8 * i.val + (le 8 w.toNat).length ≤ s + 8 * j.val := by
        rw [length_le]
        by_cases hst' : s = t
        · have hji : j.val ≠ i.val := fun e => hst ⟨hst', Fin.ext e⟩
          omega
        · omega
      rw [setWord_of_ne _ _ hst, readLe_store_beside _ _ hb, if_pos hs]
  · have hst : ¬ (s = t ∧ j = i) := fun e => hs (e.1 ▸ ht)
    rw [if_neg hs, setWord_of_ne _ _ hst, if_neg hs]

/-- a page that was cleared -/
theorem words_cleared (hp : p % 4096 = 0) (hmem : m'.mem = store m.mem p (List.replicate PAGESIZE 0)) :
    m'.words = Function.update m.words p fun _ => 0 := by
  have hlen : (List.replicate PAGESIZE (0 : UInt8)).length = 4096 := List.length_replicate
  funext s j
  have hj := j.isLt
  unfold Loader.words
  rw [hmem]
  by_cases hs : s % 4096 = 0
  · rw [if_pos hs]
    by_cases hsp : s = p
    · rw [hsp, Function.update_self, readLe_zero]
      · rfl
      · intro k hk
        have hat := holdsAt_store m.mem p (List.replicate PAGESIZE 0) (8 * j.val + k) (by omega)
        rw [List.getElem_replicate, ← Nat.add_assoc] at hat
        exact hat
    · rw [Function.update_of_ne hsp, readLe_store_beside _ _ (by omega), if_pos hs]
  · have hsp : s ≠ p := fun e => hs (e ▸ hp)
    rw [if_neg hs, Function.update_of_ne hsp, if_neg hs]

theorem Got.words (g : Got m p m') : m'.words = Function.update m.words p fun _ => 0 :=
  words_cleared g.page g.mem

/-- bytes of other pages -/
theorem setWord_mem (ht : t % 4096 = 0) (i : Fin 512) (w : BitVec 64) {a : Nat}
    (ha : a / 4096 * 4096 ≠ t) : (m.setWord t i w).mem a = m.mem a := by
  have hi := i.isLt
  show store m.mem (t + 8 * i) (le 8 w.toNat) a = m.mem a
  rcases Nat.lt_or_ge a (t + 8 * i) with h | h
  · exact store_of_lt _ _ h
  · refine store_of_ge _ _ ?_
    rw [length_le]
    omega

theorem Got.mem_other (g : Got m p m') {a : Nat} (ha : a / 4096 * 4096 ≠ p) : m'.mem a = m.mem a := by
  have hp := g.page
  rw [g.mem]
  rcases Nat.lt_or_ge a p with h | h
  · exact store_of_lt _ _ h
  · refine store_of_ge _ _ ?_
    have hlen : (List.replicate PAGESIZE (0 : UInt8)).length = 4096 := List.length_replicate
    omega

theorem Got.zero (g : Got m p m') {j : Nat} (hj : j < 4096) : m'.mem (p + j) = 0 := by
  rw [g.mem, holdsAt_store m.mem p _ j (by rw [List.length_replicate]; exact hj), List.getElem_replicate]

/-! ## entries -/

/-- an entry that `map_single` and the processor read alike -/
structure LoaderEntry (w : BitVec 64) : Prop where
  present : present w = true
  small : large w = false
  table : tableOf w = frameOf w

theorem getLsbD_tableMask : ∀ i < 64, (0xfffffffffffff000 : BitVec 64).getLsbD i = decide (12 ≤ i) := by
  decide

theorem loaderEntry (hp : p % 4096 = 0) (hlt : p < 2^47) {flags : BitVec 64} (hf : IsFlags flags)
    (h0 : flags.getLsbD 0 = true) (h63 : ∀ i < 64, 52 ≤ i → flags.getLsbD i = false) :
    LoaderEntry (BitVec.ofNat 64 p ||| flags) ∧ frameOf (BitVec.ofNat 64 p ||| flags) = p := by
  refine ⟨⟨?_, ?_, ?_⟩, frameOf_entry hp hlt hf⟩
  · unfold FuseeOS.present
    rw [bit_entry hp hlt (by decide)]
    exact h0
  · exact (plain_entry hp hlt hf).small
  · unfold tableOf frameOf
    congr 1
    apply BitVec.eq_of_getLsbD_eq
    intro i hi
    rw [BitVec.getLsbD_and, BitVec.getLsbD_and, getLsbD_tableMask i hi, getLsbD_frameMask i hi]
    by_cases h12 : 12 ≤ i
    · by_cases h52 : i < 52
      · rw [decide_eq_true h12, decide_eq_true ⟨h12, h52⟩]
      · rw [bit_entry hp hlt (.inr (by omega)), h63 i hi (by omega), Bool.false_and, Bool.false_and]
    · rw [decide_eq_false h12, decide_eq_false (fun hc => h12 hc.1)]

end

/-! ## the tables -/

/-- the table or page that a path leads to -/
def Loader.nodeAt (m : Loader) (p : List (Fin 512)) : Option Nat := Radix.nodeAt next m.words m.cr3 p

/-- the indices of page `v` -/
def path (v : Nat) : List (Fin 512) := stem v 3 ++ [pageIndex v 0]

/-- the page that shows at page `v` -/
def Loader.page (m : Loader) (v : Nat) : Option Nat := m.nodeAt (path v)

/-- behind one of the entries 256 to 511 of the top table -/
def InUpper (p : List (Fin 512)) : Prop := ∃ a ∈ p.head?, 256 ≤ a.val

/-- The tables and the pages that they show are a tree, nothing of it is free, and the entries of the
upper half are those of `map_single`. -/
structure LoaderInv (us : List BootMemRegion) (m : Loader) : Prop where
  free : FreePages us m.memFree
  root : m.cr3 % 4096 = 0
  tree : Proper next m.words m.cr3 4
  used : ∀ p t, p.length ≤ 4 → m.nodeAt p = some t → ¬ m.Free t
  entries : ∀ p t i, p.length < 4 → InUpper (p ++ [i]) → m.nodeAt p = some t →
    m.words t i = 0 ∨ LoaderEntry (m.words t i)

theorem next_zero : next 0 = none := next_eq_none rfl

theorem LoaderEntry.next {w : BitVec 64} (h : LoaderEntry w) : next w = some (frameOf w) := by
  unfold FuseeOS.next
  rw [h.present, h.small]
  rfl

theorem InUpper.append {p : List (Fin 512)} (h : InUpper p) (q : List (Fin 512)) : InUpper (p ++ q) := by
  obtain ⟨a, ha, ha'⟩ := h
  refine ⟨a, ?_, ha'⟩
  rw [List.head?_append, Option.mem_def.mp ha]
  rfl

section
variable {us : List BootMemRegion} {m m' m₁ : Loader} {p : List (Fin 512)} {i : Fin 512} {t n : Nat} {w : BitVec 64}

theorem nodeAt_aligned (h : m.cr3 % 4096 = 0) (e : m.nodeAt p = some t) : t % 4096 = 0 := by
  rcases List.eq_nil_or_concat' p with rfl | ⟨q, i, rfl⟩
  · rw [← Option.some.inj e]
    exact h
  · obtain ⟨s, -, hs⟩ := nodeAt_concat_some e
    unfold FuseeOS.next at hs
    split at hs
    · rw [← Option.some.inj hs]
      exact frameOf_mod _
    · exact nomatch hs

/-- At most `k` tables were added on the way to a page.  The pages that are shown stay, with their
bytes. -/
structure TablesGrown (us : List BootMemRegion) (k : Nat) (m m' : Loader) : Prop where
  inv : LoaderInv us m'
  cr3 : m'.cr3 = m.cr3
  initram : m'.initram = m.initram
  page : ∀ p, p.length = 4 → m'.nodeAt p = m.nodeAt p
  data : ∀ p f, p.length = 4 → m.nodeAt p = some f → ∀ j < 4096, m'.mem (f + j) = m.mem (f + j)
  free : ∀ a, m'.Free a → m.Free a
  room : m.room ≤ m'.room + k

theorem TablesGrown.trans {k k' : Nat} (g : TablesGrown us k m m₁) (g' : TablesGrown us k' m₁ m') :
    TablesGrown us (k + k') m m' where
  inv := g'.inv
  cr3 := g'.cr3.trans g.cr3
  initram := g'.initram.trans g.initram
  page p hp := (g'.page p hp).trans (g.page p hp)
  data p f hp e j hj := by
    rw [g'.data p f hp ((g.page p hp).trans e) j hj, g.data p f hp e j hj]
  free a ha := g.free a (g'.free a ha)
  room := by
    have h := g.room
    have h' := g'.room
    omega

/-- a page that was handed out was not in the tree -/
theorem LoaderInv.got_fresh (h : LoaderInv us m) (g : Got m n m') (hp : p.length ≤ 4) : m.nodeAt p ≠ some n :=
  fun e => h.used p n hp e g.free

theorem LoaderInv.ne_of_got (h : LoaderInv us m) (g : Got m n m') (hp : p.length ≤ 4)
    (e : m.nodeAt p = some t) : t ≠ n := fun ht => h.got_fresh g hp (ht ▸ e)

/-- other words -/
theorem got_setWord_words (g : Got m n m₁) (ht : t % 4096 = 0) (i : Fin 512) (w : BitVec 64) :
    (m₁.setWord t i w).words = Radix.setWord (Function.update m.words n fun _ => 0) t i w := by
  rw [words_setWord ht, g.words]

/-- bytes of a page that is neither new nor written to -/
theorem got_setWord_mem (g : Got m n m₁) (ht : t % 4096 = 0) {f : Nat} (hf : f % 4096 = 0) (hfn : f ≠ n)
    (hft : f ≠ t) {j : Nat} (hj : j < 4096) : (m₁.setWord t i w).mem (f + j) = m.mem (f + j) := by
  have hpage : (f + j) / 4096 * 4096 = f := by omega
  rw [setWord_mem ht i w (by rw [hpage]; exact hft), g.mem_other (by rw [hpage]; exact hfn)]

/-- the entries after one was written -/
theorem LoaderInv.entries_write (h : LoaderInv us m) (g : Got m n m₁) (ht : t % 4096 = 0)
    (hw : LoaderEntry w) {q : List (Fin 512)}
    (hnode : ∀ p, p.length ≤ 4 → (m₁.setWord t i w).nodeAt p =
      if p = q ++ [i] then some n else m.nodeAt p) :
    ∀ p s j, p.length < 4 → InUpper (p ++ [j]) → (m₁.setWord t i w).nodeAt p = some s →
      (m₁.setWord t i w).words s j = 0 ∨ LoaderEntry ((m₁.setWord t i w).words s j) := by
  intro p s j hp hup e
  rw [got_setWord_words g ht]
  by_cases hst : s = t ∧ j = i
  · rw [hst.1, hst.2, setWord_same]
    exact .inr hw
  · rw [setWord_of_ne _ _ hst]
    rw [hnode p (by omega)] at e
    by_cases hpq : p = q ++ [i]
    · rw [if_pos hpq] at e
      rw [← Option.some.inj e, Function.update_self]
      exact .inl rfl
    · rw [if_neg hpq] at e
      rw [Function.update_of_ne (h.ne_of_got g (by omega) e)]
      exact h.entries p s j hp hup e

/-- the invariant after a path got a new node -/
theorem LoaderInv.write (h : LoaderInv us m) (g : Got m n m₁) (hfree : FreePages us m₁.memFree)
    (ht : t % 4096 = 0) (hw : LoaderEntry w) {q : List (Fin 512)}
    (htree : Proper next (m₁.setWord t i w).words m.cr3 4)
    (hnode : ∀ p, p.length ≤ 4 → (m₁.setWord t i w).nodeAt p =
      if p = q ++ [i] then some n else m.nodeAt p) : LoaderInv us (m₁.setWord t i w) where
  free := hfree
  root := by
    show m₁.cr3 % 4096 = 0
    rw [g.cr3]
    exact h.root
  tree := by
    show Proper next (m₁.setWord t i w).words m₁.cr3 4
    rw [g.cr3]
    exact htree
  used := by
    intro p s hp e hs
    have hs' := g.taken s hs
    rw [hnode p hp] at e
    by_cases hpq : p = q ++ [i]
    · rw [if_pos hpq] at e
      rw [← Option.some.inj e] at hs'
      exact hs'.2 ⟨Nat.le_refl n, by omega⟩
    · rw [if_neg hpq] at e
      exact h.used p s hp e hs'.1
  entries := h.entries_write g ht hw hnode

/-- **One level of `map_single`.** -/
theorem tableAt_spec (h : LoaderInv us m) (hp : p.length < 3) (hup : InUpper (p ++ [i]))
    (ht : m.nodeAt p = some t) :
    Ends (Short m 1) (fun x => TablesGrown us 1 m x.2 ∧ x.2.nodeAt (p ++ [i]) = some x.1)
      (m.tableAt t i) := by
  have hal := nodeAt_aligned h.root ht
  unfold Loader.tableAt
  by_cases h0 : m.words t i = 0
  · rw [if_pos h0]
    refine (allocPageHi_spec h.free).bind ?_
    rintro ⟨page, m₁⟩ ⟨g, hfree⟩
    dsimp only at g hfree
    have hlt : page < 2^47 := by
      have := g.low
      unfold IDENTITY_END at this
      omega
    have hflags : IsFlags 3 := by
      unfold IsFlags
      decide
    obtain ⟨hw, hframe⟩ := loaderEntry g.page hlt hflags rfl (by decide)
    have htn := h.ne_of_got g (by omega) ht
    have hg : Graft next m.words m.cr3 4 p i t page (BitVec.ofNat 64 page ||| 3)
        (m₁.setWord t i (BitVec.ofNat 64 page ||| 3)).words := by
      rw [got_setWord_words g hal]
      refine ⟨by omega, ht, ?_, fun q hq => h.got_fresh g hq, ?_, fun j => ?_, setWord_same _ _ _ _,
        fun s j hs hj => ?_⟩
      · rw [h0, next_zero]
      · rw [hw.next, hframe]
      · rw [setWord_node_ne _ _ _ htn.symm, Function.update_self]
        exact next_zero
      · rw [setWord_of_ne _ _ hj, Function.update_of_ne hs]
    have hnode : ∀ q, q.length ≤ 4 → (m₁.setWord t i (BitVec.ofNat 64 page ||| 3)).nodeAt q =
        if q = p ++ [i] then some page else m.nodeAt q := by
      intro q hq
      show Radix.nodeAt next _ m₁.cr3 q = _
      rw [g.cr3]
      exact nodeAt_graft h.tree hg q hq
    refine Ends.of_ok ⟨⟨h.write g hfree hal hw (hg.proper h.tree) hnode, g.cr3, g.initram, fun q hq => ?_,
      fun q f hq hqf j hj => ?_, fun a ha => (g.taken a ha).1, g.room⟩, ?_⟩
    · have hne : q ≠ p ++ [i] := by
        intro hqp
        rw [hqp, List.length_append, List.length_singleton] at hq
        omega
      rw [hnode q (by omega), if_neg hne]
    · refine got_setWord_mem g hal (nodeAt_aligned h.root hqf) (h.ne_of_got g (by omega) hqf) ?_ hj
      rintro rfl
      exact h.tree.not_inner hq hqf (by omega) ht
    · show _ = some (tableOf _)
      rw [hnode _ (by rw [List.length_append, List.length_singleton]; omega), if_pos rfl, hw.table, hframe]
  · rw [if_neg h0]
    have hentry := (h.entries p t i (by omega) hup ht).resolve_left h0
    refine Ends.of_ok ⟨⟨h, rfl, rfl, fun _ _ => rfl, fun _ _ _ _ _ _ => rfl, fun _ ha => ha,
      Nat.le_succ _⟩, ?_⟩
    show _ = some (tableOf _)
    rw [hentry.table]
    exact nodeAt_step ht hentry.next

/-- page `v` shows the new page `f`, and at most `k` pages were taken -/
structure PageMapped (us : List BootMemRegion) (k v f : Nat) (m m' : Loader) : Prop where
  inv : LoaderInv us m'
  cr3 : m'.cr3 = m.cr3
  initram : m'.initram = m.initram
  page : ∀ p, p.length = 4 → m'.nodeAt p = if p = path v then some f else m.nodeAt p
  zero : ∀ j < 4096, m'.mem (f + j) = 0
  data : ∀ p g, p.length = 4 → p ≠ path v → m.nodeAt p = some g →
    ∀ j < 4096, m'.mem (g + j) = m.mem (g + j)
  fresh : m.Free f
  free : ∀ a, m'.Free a → m.Free a
  room : m.room ≤ m'.room + k

/-- **The last level of `map_single`.** -/
theorem mapLast_spec {v : Nat} (h : LoaderInv us m) (ht : m.nodeAt (stem v 3) = some t) (g : Got m n m₁)
    (hfree : FreePages us m₁.memFree) :
    PageMapped us 1 v n m (m₁.setWord t (pageIndex v 0) (BitVec.ofNat 64 n ||| 1)) := by
  have hal := nodeAt_aligned h.root ht
  have hlt : n < 2^47 := by
    have := g.low
    unfold IDENTITY_END at this
    omega
  have hflags : IsFlags 1 := by
    unfold IsFlags
    decide
  obtain ⟨hw, hframe⟩ := loaderEntry g.page hlt hflags rfl (by decide)
  have hlen : (stem v 3).length = 3 := length_stem (Nat.le_refl 3)
  have htn := h.ne_of_got g (by omega) ht
  have hg : Relink next m.words m.cr3 4 (stem v 3) (pageIndex v 0) t n (BitVec.ofNat 64 n ||| 1)
      (m₁.setWord t (pageIndex v 0) (BitVec.ofNat 64 n ||| 1)).words := by
    rw [got_setWord_words g hal]
    refine ⟨by omega, ht, fun q hq => h.got_fresh g hq, ?_, setWord_same _ _ _ _, fun s j hs hj => ?_⟩
    · rw [hw.next, hframe]
    · rw [setWord_of_ne _ _ hj, Function.update_of_ne hs]
  have hnode : ∀ q, q.length ≤ 4 → (m₁.setWord t (pageIndex v 0) (BitVec.ofNat 64 n ||| 1)).nodeAt q =
      if q = path v then some n else m.nodeAt q := by
    intro q hq
    show Radix.nodeAt next _ m₁.cr3 q = _
    rw [g.cr3]
    exact nodeAt_relink h.tree hg q hq
  refine ⟨h.write g hfree hal hw (hg.proper h.tree) hnode, g.cr3, g.initram, fun q hq => hnode q (by omega),
    fun j hj => ?_, fun q f hq hne hqf j hj => ?_, g.free,
    fun a ha => (g.taken a ha).1, g.room⟩
  · have hn := g.page
    have hpage : (n + j) / 4096 * 4096 = n := by omega
    rw [setWord_mem hal _ _ (by rw [hpage]; exact htn.symm), g.zero hj]
  · refine got_setWord_mem g hal (nodeAt_aligned h.root hqf) (h.ne_of_got g (by omega) hqf) ?_ hj
    rintro rfl
    exact h.tree.not_inner hq hqf (by omega) ht

theorem TablesGrown.mapped {k k' v f : Nat} (g : TablesGrown us k m m₁) (x : PageMapped us k' v f m₁ m') :
    PageMapped us (k + k') v f m m' where
  inv := x.inv
  cr3 := x.cr3.trans g.cr3
  initram := x.initram.trans g.initram
  page p hp := by rw [x.page p hp, g.page p hp]
  zero := x.zero
  data p s hp hne e j hj := by
    rw [x.data p s hp hne ((g.page p hp).trans e) j hj, g.data p s hp e j hj]
  fresh := g.free f x.fresh
  free a ha := g.free a (x.free a ha)
  room := by
    have h := g.room
    have h' := x.room
    omega

/-- a reason to stop behind steps that took `k` pages -/
theorem Short.behind {k j l : Nat} {s : LoadStop} (hs : Short m₁ j s) (hroom : m.room ≤ m₁.room + k)
    (hl : k + j ≤ l) : Short m l s := ⟨hs.1, by
  have hlt := hs.2
  omega⟩

/-- **`map_single` gives a page of the upper half a new page.** -/
theorem mapSingle_spec {va : Nat} (h : LoaderInv us m) (hva : upperHalf va) :
    Ends (Short m 4) (fun m' => ∃ f, PageMapped us 4 (va / 4096) f m m') (m.mapSingle va) := by
  have hup : InUpper [pageIndex (va / 4096) 3] := ⟨_, rfl, hva.index⟩
  have hshift : va >>> 12 = va / 4096 := Nat.shiftRight_eq_div_pow va 12
  unfold Loader.mapSingle decomposeAddr
  rw [hshift]
  refine ((tableAt_spec (p := []) h (show 0 < 3 by decide) hup rfl).mono
    (fun s hs => hs.behind (Nat.le_add_right _ 0) (by decide)) fun _ hx => hx).bind ?_
  rintro ⟨t₁, m₁⟩ ⟨g₁, n₁⟩
  refine ((tableAt_spec (p := [pageIndex (va / 4096) 3]) g₁.inv (show 1 < 3 by decide) (hup.append _) n₁).mono
    (fun s hs => hs.behind g₁.room (by decide)) fun _ hx => hx).bind ?_
  rintro ⟨t₂, m₂⟩ ⟨g₂, n₂⟩
  have g₁₂ := g₁.trans g₂
  refine ((tableAt_spec (p := [pageIndex (va / 4096) 3, pageIndex (va / 4096) 2]) g₂.inv
    (show 2 < 3 by decide) ((hup.append _).append _) n₂).mono
    (fun s hs => hs.behind g₁₂.room (by decide)) fun _ hx => hx).bind ?_
  rintro ⟨t₃, m₃⟩ ⟨g₃, n₃⟩
  have g₁₃ := g₁₂.trans g₃
  refine ((allocPageHi_spec g₃.inv.free).mono
    (fun s hs => hs.behind g₁₃.room (by decide)) fun _ hx => hx).bind ?_
  rintro ⟨f, m₄⟩ ⟨g, hfree⟩
  exact Ends.of_ok ⟨f, g₁₃.mapped (mapLast_spec g₃.inv n₃ g hfree)⟩

end

/-! ## ranges -/

/-- a page of the upper half -/
def UpperPage (v : Nat) : Prop := 2^52 - 2^35 ≤ v ∧ v < 2^52

theorem upperHalf.page {va : Nat} (h : upperHalf va) : UpperPage (va / 4096) := by
  unfold upperHalf at h
  unfold UpperPage
  omega

theorem UpperPage.path_inj {v v' : Nat} (h : UpperPage v) (h' : UpperPage v') (e : path v = path v') : v = v' := by
  obtain ⟨hstem, hlast⟩ := List.append_inj' e rfl
  have hsame := (samePage_iff v v').mpr ⟨hstem, by simpa using hlast⟩
  unfold SamePage at hsame
  unfold UpperPage at h h'
  omega

theorem length_path (v : Nat) : (path v).length = 4 := by
  unfold path
  rw [List.length_append, length_stem (Nat.le_refl 3), List.length_singleton]

section
variable {us : List BootMemRegion} {m m' : Loader}

/-- Exactly the `n` pages from `lo` on show other pages than before: new ones, which are zero. -/
structure Valloced (us : List BootMemRegion) (lo n : Nat) (m m' : Loader) : Prop where
  inv : LoaderInv us m'
  cr3 : m'.cr3 = m.cr3
  initram : m'.initram = m.initram
  new : ∀ v, lo ≤ v → v < lo + n → ∃ f, m'.page v = some f ∧ m.Free f ∧ ∀ j < 4096, m'.mem (f + j) = 0
  old : ∀ v, UpperPage v → ¬ (lo ≤ v ∧ v < lo + n) → m'.page v = m.page v ∧
    ∀ f, m.page v = some f → ∀ j < 4096, m'.mem (f + j) = m.mem (f + j)
  free : ∀ a, m'.Free a → m.Free a
  room : m.room ≤ m'.room + 4 * n

theorem Valloced.refl (h : LoaderInv us m) (lo : Nat) : Valloced us lo 0 m m :=
  ⟨h, rfl, rfl, fun _ h1 h2 => absurd h1 (Nat.not_le_of_lt h2), fun _ _ _ => ⟨rfl, fun _ _ _ _ => rfl⟩,
    fun _ ha => ha, Nat.le_refl _⟩

/-- one page more at the front -/
theorem Valloced.cons {lo n f : Nat} {m₁ : Loader} (hup : ∀ v, lo ≤ v → v < lo + (n + 1) → UpperPage v)
    (x : PageMapped us 4 lo f m m₁) (g : Valloced us (lo + 1) n m₁ m') : Valloced us lo (n + 1) m m' where
  inv := g.inv
  cr3 := g.cr3.trans x.cr3
  initram := g.initram.trans x.initram
  new v h1 h2 := by
    by_cases hv : v = lo
    · obtain ⟨hpage, hdata⟩ := g.old v (hup v h1 h2) (by omega)
      have hf : m₁.page v = some f := by
        have hp := x.page (path v) (length_path v)
        rwa [hv, if_pos rfl, ← hv] at hp
      exact ⟨f, hpage.trans hf, x.fresh, fun j hj => (hdata f hf j hj).trans (x.zero j hj)⟩
    · obtain ⟨f', hp, hfree, hz⟩ := g.new v (by omega) (by omega)
      exact ⟨f', hp, x.free f' hfree, hz⟩
  old v hv hout := by
    obtain ⟨hpage, hdata⟩ := g.old v hv (by omega)
    have hne : path v ≠ path lo := fun e => by
      have hvlo := hv.path_inj (hup lo (Nat.le_refl lo) (by omega)) e
      omega
    have hp : m₁.page v = m.page v := by
      have hp := x.page (path v) (length_path v)
      rwa [if_neg hne] at hp
    refine ⟨hpage.trans hp, fun f' hf' j hj => ?_⟩
    rw [hdata f' (hp.trans hf') j hj]
    exact x.data (path v) f' (length_path v) hne hf' j hj
  free a ha := x.free a (g.free a ha)
  room := by
    have h := x.room
    have h' := g.room
    omega

theorem intMul_page {i : Nat} (h : i < 2^19) : CInt.intMul? i PAGESIZE = some ((i * PAGESIZE : Nat) : Int) := by
  unfold CInt.intMul?
  rw [← Int.natCast_mul, if_pos (by unfold PAGESIZE; omega)]

theorem mapRound_eq {vaddr i : Nat} (hi : i < 2^19) (hend : vaddr + i * 4096 < 2^64) :
    m.mapRound vaddr i = m.mapSingle (vaddr + i * 4096) := by
  have hvirt : (vaddr + CInt.toU64 ((i * PAGESIZE : Nat) : Int)) % 2^64 = vaddr + i * 4096 := by
    rw [CInt.toU64_natCast (by unfold PAGESIZE; omega)]
    unfold PAGESIZE
    omega
  rw [Loader.mapRound, intMul_page hi, Option.elim_some, hvirt]

/-- the loop of `valloc`, from round `i` on -/
theorem mapPages_spec {vaddr i n : Nat} (h : LoaderInv us m) (hal : vaddr % 4096 = 0)
    (hlow : 2^64 - 2^47 ≤ vaddr) (hend : vaddr / 4096 + (i + n) ≤ 2^52) (hint : i + n ≤ 2^19) :
    Ends (Short m (4 * n)) (Valloced us (vaddr / 4096 + i) n m) (m.mapPages vaddr i n) := by
  induction n generalizing m i with
  | zero => exact Ends.of_ok (Valloced.refl h _)
  | succ n ih =>
    have hva : upperHalf (vaddr + i * 4096) := ⟨by omega, by omega⟩
    have hpage : (vaddr + i * 4096) / 4096 = vaddr / 4096 + i := by omega
    rw [Loader.mapPages, mapRound_eq (by omega) (by omega)]
    refine ((mapSingle_spec h hva).mono
      (fun s hs => hs.behind (Nat.le_add_right _ 0) (by omega)) fun _ hx => hx).bind ?_
    rintro m₁ ⟨f, x⟩
    rw [hpage] at x
    refine (ih x.inv (by omega) (by omega)).mono (fun s hs => hs.behind x.room (by omega)) fun m' g => ?_
    exact Valloced.cons (fun v h1 h2 => ⟨by omega, by omega⟩) x g

/-- number of pages that a range touches -/
def spanPages (addr size : Nat) : Nat := (addr % 4096 + size + 4095) / 4096

/-- a range of the upper half that `valloc` can count -/
structure VallocRange (addr size : Nat) : Prop where
  low : 2^64 - 2^47 ≤ addr
  upto : addr + size ≤ 2^64
  inside : addr < 2^64
  int : addr % 4096 + size ≤ 2^31

/-- up to 2 GiB the count is that of the pages that the range touches -/
theorem vallocPages_eq {addr size : Nat} (hint : addr % 4096 + size ≤ 2^31) :
    vallocPages addr size = spanPages addr size := by
  have hsum : (size + addr % PAGESIZE) % 2^64 = addr % 4096 + size := by
    unfold PAGESIZE
    omega
  have hn : ((addr % 4096 + size + PAGESIZE - 1) % 2^64) >>> 12 = spanPages addr size := by
    unfold PAGESIZE spanPages
    rw [Nat.shiftRight_eq_div_pow]
    omega
  unfold vallocPages
  rw [hsum, hn, CInt.toInt_of_lt (by unfold spanPages; omega), Int.toNat_natCast]

/-- **`valloc` maps the pages that the range touches.** -/
theorem valloc_spec {addr size : Nat} (h : LoaderInv us m) (hr : VallocRange addr size) :
    Ends (Short m (4 * spanPages addr size)) (Valloced us (addr / 4096) (spanPages addr size) m)
      (m.valloc addr size) := by
  obtain ⟨hlow, hupto, hinside, hint⟩ := hr
  have hlo : addr / PAGESIZE * PAGESIZE / 4096 + 0 = addr / 4096 := by
    unfold PAGESIZE
    omega
  have hg : Ends (Short m (4 * spanPages addr size))
      (Valloced us (addr / PAGESIZE * PAGESIZE / 4096 + 0) (spanPages addr size) m)
      (m.mapPages (addr / PAGESIZE * PAGESIZE) 0 (spanPages addr size)) := by
    refine mapPages_spec h ?_ ?_ ?_ ?_
    · exact Nat.mul_mod_left _ _
    · unfold PAGESIZE
      omega
    · unfold PAGESIZE spanPages
      omega
    · unfold spanPages
      omega
  rw [hlo] at hg
  rw [valloc_eq, vallocPages_eq hint]
  exact hg

end

end FuseeOS
