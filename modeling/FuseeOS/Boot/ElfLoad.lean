import FuseeOS.Boot.VallocRun
import FuseeOS.Boot.Initram

/-!
# Loading the kernel

`elf_load` goes through the program headers of a file in the ramdisk.  It maps the pages of every
header, of whatever type, and copies the bytes of its segment.  Every header gives all the pages it
touches new pages: what an earlier one put there is gone.

* `loadSegment_spec`           one header;
* `elfLoad_spec`               a byte is what the last header that touches its page makes it
                               (`placed_foldl`);
* **`elf_load_image`**         so the image is right if and only if for every byte of a `PT_LOAD` segment
                               that header has the right byte;
* `elf_load_wrong`             which fails for two segments in one page;
* `phdrs_elfFile`              a file built from program headers has these headers.
-/

namespace FuseeOS
open Bytes Radix BootMemRegion Outcome

/-! ## the code -/

/-- what is used of a program header -/
structure Elf64Phdr where
  type : Nat
  offset : Nat
  vaddr : Nat
  filesz : Nat
  memsz : Nat
deriving DecidableEq, Repr

def PT_LOAD : Nat := 1
def EHDR_SIZE : Nat := 64
def PHDR_SIZE : Nat := 56

/-- the memory that `initram_lookup` reads -/
def Loader.view (m : Loader) (va : Nat) : UInt8 := (m.load va).getD 0

def Loader.fetch (m : Loader) (va : Nat) : Nat → Option (List UInt8)
  | 0 => some []
  | n + 1 => do
    let b ← m.load va
    let l ← m.fetch (va + 1) n
    return b :: l

/-- a number of `w` bytes at a virtual address -/
def Loader.read (m : Loader) (va w : Nat) : Except LoadStop Nat :=
  (m.fetch va w).elim (.error .fault) fun l => .ok (ofLe l)

/-- the body of the loop of `elf_load`; `ph` is `&phdr[i]` -/
def Loader.loadSegment (m : Loader) (base ph : Nat) : Except LoadStop Loader := do
  let tmp ← m.read (ph + 16) 8
  let memsz ← m.read (ph + 40) 8
  let m ← m.valloc tmp memsz
  let offset ← m.read (ph + 8) 8
  let filesz ← m.read (ph + 32) 8
  m.memcpy tmp (base + offset) filesz

/-- the loop of `elf_load`, from header `i` on, for at most `n` rounds -/
def Loader.loadSegments (m : Loader) (base phdr i : Nat) : Nat → Except LoadStop Loader
  | 0 => .ok m
  | n + 1 => do
    let phnum ← m.read (base + 56) 2
    if i < phnum then do
      let m ← m.loadSegment base (phdr + PHDR_SIZE * i)
      m.loadSegments base phdr (i + 1) n
    else .ok m

/-- behind `initram_lookup`: `e_phnum` has 16 bits, so that the loop ends within `2^16` rounds -/
def Loader.elfLoadAt (m : Loader) (base : Nat) : Except LoadStop (Nat × Loader) := do
  let phoff ← m.read (base + 32) 8
  let m ← m.loadSegments base (base + phoff) 0 (2^16)
  let entry ← m.read (base + 24) 8
  return (entry, m)

/-- A file that is not there leaves `base` null, and nothing checks that. -/
def Loader.elfLoad (m : Loader) (name : Nat) : Except LoadStop (Nat × Loader) :=
  (initramLookup m.view m.initram name).elim (.error .undefined) m.elfLoadAt

/-! ## the file -/

/-- the number of `w` bytes at offset `off` of the file -/
def fieldAt (file : List UInt8) (off w : Nat) : Nat := ofLe ((file.drop off).take w)

/-- the program header at offset `p` -/
def phdrAt (file : List UInt8) (p : Nat) : Elf64Phdr where
  type := fieldAt file p 4
  offset := fieldAt file (p + 8) 8
  vaddr := fieldAt file (p + 16) 8
  filesz := fieldAt file (p + 32) 8
  memsz := fieldAt file (p + 40) 8

/-- the program headers -/
def phdrs (file : List UInt8) : List Elf64Phdr :=
  (List.range (fieldAt file 56 2)).map fun i => phdrAt file (fieldAt file 32 8 + PHDR_SIZE * i)

/-- number of pages that `valloc` gives a header -/
def Elf64Phdr.pages (h : Elf64Phdr) : Nat := vallocPages h.vaddr h.memsz

/-- `valloc` counts the pages of the segment right, or finds no page for a header that has nothing to load -/
def Elf64Phdr.Counted (h : Elf64Phdr) : Prop :=
  h.vaddr % 4096 + h.memsz ≤ 2^31 ∨ h.pages = 0 ∧ h.filesz = 0 ∧ h.type ≠ PT_LOAD

/-- page `v` is one of them -/
def Elf64Phdr.Touches (h : Elf64Phdr) (v : Nat) : Prop := h.vaddr / 4096 ≤ v ∧ v < h.vaddr / 4096 + h.pages

instance (h : Elf64Phdr) (v : Nat) : Decidable (h.Touches v) := inferInstanceAs (Decidable (_ ∧ _))

/-- the byte that a header puts at address `a` of a page that it touches -/
def Elf64Phdr.byteAt (h : Elf64Phdr) (file : List UInt8) (a : Nat) : UInt8 :=
  if h.vaddr ≤ a ∧ a < h.vaddr + h.filesz then file.getD (h.offset + (a - h.vaddr)) 0 else 0

/-- what the upper half shows behind a header, if it showed `A` -/
def placed (file : List UInt8) (A : Nat → Option UInt8) (h : Elf64Phdr) : Nat → Option UInt8 := fun a =>
  if h.Touches (a / 4096) then some (h.byteAt file a) else A a

/-- the last header that touches page `v` -/
def lastTouch (hs : List Elf64Phdr) (v : Nat) : Option Elf64Phdr := hs.reverse.find? fun h => h.Touches v

/-- the bytes of the file are in its segment, which touches no page or pages of the upper half -/
structure Elf64Phdr.Ok (h : Elf64Phdr) (file : List UInt8) : Prop where
  size : h.filesz ≤ h.memsz
  inFile : h.filesz ≠ 0 → h.offset + h.filesz ≤ file.length
  upper : h.pages ≠ 0 → 2^64 - 2^47 ≤ h.vaddr ∧ h.vaddr + h.memsz ≤ 2^64

/-- `a` is a byte of the segment -/
def Elf64Phdr.Has (h : Elf64Phdr) (a : Nat) : Prop := h.vaddr ≤ a ∧ a < h.vaddr + h.memsz

/-- An ELF file whose `PT_LOAD` segments are disjoint ranges, with any other headers. -/
structure ElfOk (file : List UInt8) : Prop where
  header : EHDR_SIZE ≤ file.length
  table : fieldAt file 32 8 + PHDR_SIZE * fieldAt file 56 2 ≤ file.length
  segments : ∀ h ∈ phdrs file, h.Ok file
  disjoint : (phdrs file).Pairwise fun g h =>
    g.type = PT_LOAD → h.type = PT_LOAD → ∀ a, ¬ (g.Has a ∧ h.Has a)

/-- The file lies at `base`, in the upper half. -/
def Loader.Holds (m : Loader) (base : Nat) (file : List UInt8) : Prop :=
  ∀ i (hi : i < file.length), upperHalf (base + i) ∧ m.load (base + i) = some file[i]

/-- every byte of every `PT_LOAD` segment is that of the file, or zero behind it -/
def ImageLoaded (file : List UInt8) (m' : Loader) : Prop :=
  ∀ h ∈ phdrs file, h.type = PT_LOAD → ∀ i < h.memsz,
    m'.load (h.vaddr + i) = some (if i < h.filesz then file.getD (h.offset + i) 0 else 0)

/-- no header has more pages than `valloc` can count, or touches a page of the file itself -/
structure Loadable (base : Nat) (file : List UInt8) : Prop where
  int : ∀ h ∈ phdrs file, h.Counted
  clear : ∀ h ∈ phdrs file, ∀ i < file.length, ¬ h.Touches ((base + i) / 4096)

/-- the last header that touches the page of a byte of a `PT_LOAD` segment has the right byte there -/
def LastRight (file : List UInt8) : Prop :=
  ∀ h ∈ phdrs file, h.type = PT_LOAD → ∀ i < h.memsz, ∀ g,
    lastTouch (phdrs file) ((h.vaddr + i) / 4096) = some g →
      g.byteAt file (h.vaddr + i) = h.byteAt file (h.vaddr + i)

/-! ## reading the file -/

section
variable {us : List BootMemRegion} {m m' : Loader} {base : Nat} {file : List UInt8}

theorem fetch_spec {va n : Nat} {l : List UInt8} (hn : l.length = n)
    (h : ∀ i (hi : i < l.length), m.load (va + i) = some l[i]) : m.fetch va n = some l := by
  induction l generalizing va n with
  | nil =>
    rw [← hn]
    rfl
  | cons b l ih =>
    rw [← hn, List.length_cons, Loader.fetch]
    have hb : m.load va = some b := h 0 (Nat.succ_pos _)
    have hl : m.fetch (va + 1) l.length = some l := by
      refine ih rfl fun i hi => ?_
      rw [Nat.add_assoc, Nat.add_comm 1 i]
      exact h (i + 1) (Nat.succ_lt_succ hi)
    rw [hb, hl]
    rfl

theorem Loader.Holds.read (h : m.Holds base file) {off w : Nat} (hlen : off + w ≤ file.length) :
    m.read (base + off) w = .ok (fieldAt file off w) := by
  have hw : ((file.drop off).take w).length = w := by
    rw [List.length_take, List.length_drop]
    omega
  have hfetch : m.fetch (base + off) w = some ((file.drop off).take w) := by
    refine fetch_spec hw fun i hi => ?_
    rw [hw] at hi
    rw [List.getElem_take, List.getElem_drop, Nat.add_assoc]
    exact (h (off + i) (by omega)).2
  rw [Loader.read, hfetch, Option.elim_some, fieldAt]

theorem ofLe_lt (l : List UInt8) : ofLe l < 256^l.length := by
  induction l with
  | nil => exact Nat.one_pos
  | cons b l ih =>
    have hb := b.toNat_lt
    rw [ofLe, List.length_cons, Nat.pow_succ]
    omega

theorem fieldAt_lt (file : List UInt8) (off w : Nat) : fieldAt file off w < 256^w := by
  have h := ofLe_lt ((file.drop off).take w)
  rw [List.length_take] at h
  exact Nat.lt_of_lt_of_le h (Nat.pow_le_pow_right (by decide) (Nat.min_le_left _ _))

/-! ## one header -/

/-- a header with pages -/
theorem Elf64Phdr.Counted.int {h : Elf64Phdr} (hc : h.Counted) (h0 : h.pages ≠ 0) :
    h.vaddr % 4096 + h.memsz ≤ 2^31 :=
  hc.resolve_right fun hno => h0 hno.1

/-- a header with something to load -/
theorem Elf64Phdr.Counted.pages_eq {h : Elf64Phdr} (hc : h.Counted) (hsome : h.type = PT_LOAD ∨ h.filesz ≠ 0) :
    h.pages = spanPages h.vaddr h.memsz := by
  refine vallocPages_eq (hc.resolve_right ?_)
  rintro ⟨-, hfilesz, htype⟩
  exact hsome.elim htype fun hne => hne hfilesz

/-- behind headers that take `n` pages: the file is still there, and the upper half shows `A` -/
structure Behind (us : List BootMemRegion) (base : Nat) (file : List UInt8) (n : Nat)
    (A : Nat → Option UInt8) (m m' : Loader) : Prop where
  inv : LoaderInv us m'
  holds : m'.Holds base file
  load : ∀ a, upperHalf a → m'.load a = A a
  room : m.room ≤ m'.room + 4 * n

/-- the pages of a header after `valloc` -/
theorem valloc_segment {h : Elf64Phdr} (hm : LoaderInv us m) (hlt : h.vaddr < 2^64)
    (hup : h.pages ≠ 0 → 2^64 - 2^47 ≤ h.vaddr ∧ h.vaddr + h.memsz ≤ 2^64)
    (hint : h.Counted) :
    Ends (Short m (4 * h.pages)) (fun m' => LoaderInv us m' ∧ m.room ≤ m'.room + 4 * h.pages ∧
      ∀ a, upperHalf a → m'.load a = if h.Touches (a / 4096) then some 0 else m.load a)
      (m.valloc h.vaddr h.memsz) := by
  by_cases h0 : h.pages = 0
  · rw [valloc_none h0]
    refine Ends.of_ok ⟨hm, Nat.le_add_right _ _, fun a _ => ?_⟩
    have hno : ¬ h.Touches (a / 4096) := by
      rintro ⟨h1, h2⟩
      omega
    rw [if_neg hno]
  · obtain ⟨hlow, hupto⟩ := hup h0
    have hn : h.pages = spanPages h.vaddr h.memsz := vallocPages_eq (hint.int h0)
    have hrun := valloc_spec hm ⟨hlow, hupto, hlt, hint.int h0⟩
    rw [← hn] at hrun
    exact hrun.mono (fun _ hs => hs) fun m' g => ⟨g.inv, g.room, fun a ha => g.load hm ha⟩

/-- an address of the segment lies in a page of the header -/
theorem Elf64Phdr.Counted.touches {h : Elf64Phdr} {a : Nat} (hc : h.Counted)
    (hsome : h.type = PT_LOAD ∨ h.filesz ≠ 0) (ha : h.Has a) : h.Touches (a / 4096) := by
  obtain ⟨h1, h2⟩ := ha
  unfold Elf64Phdr.Touches
  rw [hc.pages_eq hsome]
  unfold spanPages
  omega

theorem Loader.Holds.congr (hf : m.Holds base file)
    (h : ∀ i < file.length, m'.load (base + i) = m.load (base + i)) : m'.Holds base file :=
  fun i hi => ⟨(hf i hi).1, (h i hi).trans (hf i hi).2⟩

/-- the bytes of a segment in the file -/
def Elf64Phdr.content (h : Elf64Phdr) (file : List UInt8) : List UInt8 := (file.drop h.offset).take h.filesz

section
variable {h : Elf64Phdr} {i : Nat}

theorem Elf64Phdr.Ok.inside (hok : h.Ok file) (hi : i < h.filesz) : h.offset + i < file.length := by
  have hin := hok.inFile (by omega)
  omega

theorem Elf64Phdr.Ok.touches (hok : h.Ok file) (hc : h.Counted) (hi : i < h.filesz) :
    h.Touches ((h.vaddr + i) / 4096) := by
  have hsize := hok.size
  exact hc.touches (.inr (by omega)) ⟨Nat.le_add_right _ _, by omega⟩

theorem Elf64Phdr.Ok.upperHalf (hok : h.Ok file) (hc : h.Counted) (hi : i < h.filesz) :
    upperHalf (h.vaddr + i) := by
  have hsize := hok.size
  obtain ⟨h1, h2⟩ := hok.touches hc hi
  obtain ⟨hlow, hupto⟩ := hok.upper (by omega)
  exact ⟨by omega, by omega⟩

theorem Elf64Phdr.Ok.length_content (hok : h.Ok file) : (h.content file).length = h.filesz := by
  unfold Elf64Phdr.content
  rw [List.length_take, List.length_drop]
  by_cases h0 : h.filesz = 0
  · rw [h0, Nat.zero_min]
  · have hin := hok.inFile h0
    omega

theorem Elf64Phdr.Ok.getElem_content (hok : h.Ok file) (hi : i < (h.content file).length) :
    (h.content file)[i] = file.getD (h.offset + i) 0 := by
  have hlt : i < h.filesz := hok.length_content ▸ hi
  have hat : (h.content file)[i]? = file[h.offset + i]? := by
    unfold Elf64Phdr.content
    rw [List.getElem?_take, if_pos hlt, List.getElem?_drop]
  rw [List.getD_eq_getElem?_getD, ← hat, List.getElem?_eq_getElem hi, Option.getD_some]

/-- a header that touches no page of the file copies from beside its segment -/
theorem Elf64Phdr.Ok.beside (hok : h.Ok file) (hcount : h.Counted)
    (hclear : ∀ i < file.length, ¬ h.Touches ((base + i) / 4096)) :
    base + h.offset + h.filesz ≤ h.vaddr ∨ h.vaddr + h.filesz ≤ base + h.offset := by
  by_contra hc
  obtain ⟨hc1, hc2⟩ := not_or.mp hc
  -- the higher one of the two starts lies in both ranges
  rcases Nat.le_total (base + h.offset) h.vaddr with hle | hle
  · have hlast : h.offset + (h.vaddr - (base + h.offset)) < file.length := hok.inside (by omega)
    refine hclear (h.vaddr - base) (by omega) ?_
    have heq : base + (h.vaddr - base) = h.vaddr + 0 := by omega
    rw [heq]
    exact hok.touches hcount (by omega)
  · refine hclear h.offset (hok.inside (i := 0) (by omega)) ?_
    have heq : base + h.offset = h.vaddr + (base + h.offset - h.vaddr) := by omega
    rw [heq]
    exact hok.touches hcount (by omega)

/-- cleared pages with the bytes of the segment copied to them -/
theorem Elf64Phdr.Ok.store_content (hok : h.Ok file) (hc : h.Counted) {A B : Nat → Option UInt8} {a : Nat}
    (hA : A a = if h.Touches (a / 4096) then some 0 else B a) :
    store A h.vaddr ((h.content file).map some) a = placed file B h a := by
  have hlen : ((h.content file).map some).length = h.filesz := by
    rw [List.length_map, hok.length_content]
  unfold placed Elf64Phdr.byteAt
  by_cases hin : h.vaddr ≤ a ∧ a < h.vaddr + h.filesz
  · obtain ⟨j, hj, rfl⟩ : ∃ j, j < h.filesz ∧ a = h.vaddr + j := ⟨a - h.vaddr, by omega, by omega⟩
    have hat := holdsAt_store A h.vaddr ((h.content file).map some) j (by omega)
    rw [hat, if_pos (hok.touches hc hj), if_pos hin, List.getElem_map, hok.getElem_content, Nat.add_sub_cancel_left]
  · have hout : store A h.vaddr ((h.content file).map some) a = A a := by
      rcases Nat.lt_or_ge a h.vaddr with hlt | hge
      · exact store_of_lt _ _ hlt
      · exact store_of_ge _ _ (by omega)
    rw [hout, hA, if_neg hin]

end

/-- **One round of the loop.** -/
theorem loadSegment_spec {p : Nat} (hm : LoaderInv us m) (hf : m.Holds base file)
    (hp : p + PHDR_SIZE ≤ file.length) (hok : (phdrAt file p).Ok file)
    (hint : (phdrAt file p).Counted)
    (hclear : ∀ i < file.length, ¬ (phdrAt file p).Touches ((base + i) / 4096)) :
    Ends (Short m (4 * (phdrAt file p).pages))
      (Behind us base file (phdrAt file p).pages (placed file m.load (phdrAt file p)) m)
      (m.loadSegment base (base + p)) := by
  obtain ⟨h, hh⟩ : ∃ h, h = phdrAt file p := ⟨_, rfl⟩
  unfold PHDR_SIZE at hp
  have hvaddr : m.read (base + p + 16) 8 = .ok h.vaddr := by
    rw [Nat.add_assoc, hf.read (by omega), hh]
    rfl
  have hmemsz : m.read (base + p + 40) 8 = .ok h.memsz := by
    rw [Nat.add_assoc, hf.read (by omega), hh]
    rfl
  have hlt : h.vaddr < 2^64 := by
    rw [hh]
    exact fieldAt_lt file (p + 16) 8
  rw [← hh] at hok hint hclear ⊢
  unfold Loader.loadSegment
  refine Ends.bind_of_eq hvaddr (Ends.bind_of_eq hmemsz ?_)
  refine (valloc_segment hm hlt hok.upper hint).bind ?_
  rintro m₁ ⟨hm₁, hroom, hload⟩
  have hf₁ : m₁.Holds base file := hf.congr fun i hi => by
    rw [hload _ (hf i hi).1, if_neg (hclear i hi)]
  have hoffset : m₁.read (base + p + 8) 8 = .ok h.offset := by
    rw [Nat.add_assoc, hf₁.read (by omega), hh]
    rfl
  have hfilesz : m₁.read (base + p + 32) 8 = .ok h.filesz := by
    rw [Nat.add_assoc, hf₁.read (by omega), hh]
    rfl
  refine Ends.bind_of_eq hoffset (Ends.bind_of_eq hfilesz ?_)
  have hlen := hok.length_content
  have hdst : ∀ i < (h.content file).length, upperHalf (h.vaddr + i) ∧ (m₁.load (h.vaddr + i)).isSome := by
    intro i hi
    rw [hlen] at hi
    have hup := hok.upperHalf hint hi
    refine ⟨hup, ?_⟩
    rw [hload _ hup, if_pos (hok.touches hint hi)]
    rfl
  have hsrc : ∀ i (hi : i < (h.content file).length), upperHalf (base + h.offset + i) ∧
      m₁.load (base + h.offset + i) = some (h.content file)[i] := by
    intro i hi
    have hin := hok.inside (hlen ▸ hi)
    rw [hok.getElem_content, List.getD_eq_getElem?_getD, List.getElem?_eq_getElem hin, Option.getD_some,
      Nat.add_assoc]
    exact hf₁ _ hin
  have hbeside := hok.beside hint hclear
  rw [← hlen] at hbeside
  obtain ⟨m', hm', g⟩ := memcpy_spec (h.content file) hm₁ hdst hsrc hbeside
  rw [hlen] at hm'
  have hload' : ∀ a, upperHalf a → m'.load a = placed file m.load h a := fun a ha =>
    (g.load a ha).trans (hok.store_content hint (hload a ha))
  have hroom' : m'.room = m₁.room := by
    unfold Loader.room
    rw [g.memFree]
  rw [hm']
  refine Ends.of_ok ⟨g.inv, hf.congr fun i hi => ?_, hload', by omega⟩
  rw [hload' _ (hf i hi).1, placed, if_neg (hclear i hi)]

/-! ## all headers -/

/-- number of pages that the headers touch, each for itself -/
def pagesOfAll (hs : List Elf64Phdr) : Nat := (hs.map Elf64Phdr.pages).sum

theorem placed_congr {A B : Nat → Option UInt8} {a : Nat} (h : A a = B a) (hs : List Elf64Phdr) :
    hs.foldl (placed file) A a = hs.foldl (placed file) B a := by
  induction hs generalizing A B with
  | nil => exact h
  | cons g hs ih =>
    refine ih ?_
    unfold placed
    rw [h]

theorem lastTouch_concat (hs : List Elf64Phdr) (h : Elf64Phdr) (v : Nat) :
    lastTouch (hs ++ [h]) v = if h.Touches v then some h else lastTouch hs v := by
  unfold lastTouch
  rw [List.reverse_append, List.reverse_singleton, List.singleton_append]
  by_cases ht : h.Touches v
  · rw [if_pos ht]
    exact List.find?_cons_of_pos (decide_eq_true ht)
  · rw [if_neg ht]
    exact List.find?_cons_of_neg (by simpa using ht)

/-- **what is shown at an address is what the last header that touches its page puts there** -/
theorem placed_foldl (hs : List Elf64Phdr) (A : Nat → Option UInt8) (a : Nat) :
    hs.foldl (placed file) A a = (lastTouch hs (a / 4096)).elim (A a) fun g => some (g.byteAt file a) := by
  induction hs using List.reverseRecOn with
  | nil => rfl
  | append_singleton hs h ih =>
    rw [List.foldl_append, List.foldl_cons, List.foldl_nil, placed, lastTouch_concat]
    by_cases ht : h.Touches (a / 4096)
    · rw [if_pos ht, if_pos ht]
      rfl
    · rw [if_neg ht, if_neg ht, ih]

theorem phdrs_length (file : List UInt8) : (phdrs file).length = fieldAt file 56 2 := by
  unfold phdrs
  rw [List.length_map, List.length_range]

theorem phdrs_drop {i : Nat} (hi : i < fieldAt file 56 2) :
    (phdrs file).drop i = phdrAt file (fieldAt file 32 8 + PHDR_SIZE * i) :: (phdrs file).drop (i + 1) := by
  have hlen : i < (phdrs file).length := phdrs_length file ▸ hi
  have hat : (phdrs file)[i]? = some (phdrAt file (fieldAt file 32 8 + PHDR_SIZE * i)) := by
    unfold phdrs
    rw [List.getElem?_map, List.getElem?_range hi]
    rfl
  rw [List.getElem?_eq_getElem hlen] at hat
  rw [List.drop_eq_getElem_cons hlen, Option.some.inj hat]

/-- **The loop of `elf_load`.** -/
theorem loadSegments_spec (hok : ElfOk file) (hl : Loadable base file) {i n : Nat}
    (hn : fieldAt file 56 2 < i + n) (hm : LoaderInv us m) (hf : m.Holds base file) :
    Ends (Short m (4 * pagesOfAll ((phdrs file).drop i)))
      (Behind us base file (pagesOfAll ((phdrs file).drop i)) (((phdrs file).drop i).foldl (placed file) m.load) m)
      (m.loadSegments base (base + fieldAt file 32 8) i n) := by
  have hheader := hok.header
  unfold EHDR_SIZE at hheader
  induction n generalizing m i with
  | zero =>
    have hend : (phdrs file).drop i = [] := by
      rw [List.drop_eq_nil_iff, phdrs_length]
      omega
    rw [hend]
    exact Ends.of_ok ⟨hm, hf, fun _ _ => rfl, Nat.le_refl _⟩
  | succ n ih =>
    rw [Loader.loadSegments]
    refine Ends.bind_of_eq (hf.read (by omega)) ?_
    by_cases hi : i < fieldAt file 56 2
    · rw [if_pos hi, phdrs_drop hi, Nat.add_assoc]
      obtain ⟨p, hp⟩ : ∃ p, p = fieldAt file 32 8 + PHDR_SIZE * i := ⟨_, rfl⟩
      have hmem : phdrAt file p ∈ phdrs file := by
        rw [hp]
        exact List.mem_map.mpr ⟨i, List.mem_range.mpr hi, rfl⟩
      have hin : p + PHDR_SIZE ≤ file.length := by
        have htable := hok.table
        unfold PHDR_SIZE at htable hp ⊢
        omega
      rw [← hp]
      have hsum : pagesOfAll (phdrAt file p :: (phdrs file).drop (i + 1)) =
          (phdrAt file p).pages + pagesOfAll ((phdrs file).drop (i + 1)) := by
        unfold pagesOfAll
        rw [List.map_cons, List.sum_cons]
      rw [hsum]
      refine ((loadSegment_spec hm hf hin (hok.segments _ hmem) (hl.int _ hmem) (hl.clear _ hmem)).mono
        (fun s hs => hs.behind (Nat.le_add_right _ 0) (by omega)) fun _ hx => hx).bind ?_
      intro m₁ g
      refine (ih (by omega) g.inv g.holds).mono (fun s hs => hs.behind g.room (by omega)) ?_
      intro m' g'
      refine ⟨g'.inv, g'.holds, fun a ha => ?_, ?_⟩
      · rw [g'.load a ha, List.foldl_cons]
        exact placed_congr (g.load a ha) _
      · have h1 := g.room
        have h2 := g'.room
        omega
    · have hend : (phdrs file).drop i = [] := by
        rw [List.drop_eq_nil_iff, phdrs_length]
        omega
      rw [if_neg hi, hend]
      exact Ends.of_ok ⟨hm, hf, fun _ _ => rfl, Nat.le_refl _⟩

/-- **`elf_load` behind the lookup** -/
theorem elfLoadAt_spec (hok : ElfOk file) (hl : Loadable base file) (hm : LoaderInv us m)
    (hf : m.Holds base file) :
    Ends (Short m (4 * pagesOfAll (phdrs file)))
      (fun x => x.1 = fieldAt file 24 8 ∧
        Behind us base file (pagesOfAll (phdrs file)) ((phdrs file).foldl (placed file) m.load) m x.2)
      (m.elfLoadAt base) := by
  have hheader := hok.header
  unfold EHDR_SIZE at hheader
  have hcount : fieldAt file 56 2 < 0 + 2^16 := by
    have hlt := fieldAt_lt file 56 2
    omega
  unfold Loader.elfLoadAt
  refine Ends.bind_of_eq (hf.read (by omega)) ?_
  have hloop := loadSegments_spec hok hl hcount hm hf
  rw [List.drop_zero] at hloop
  refine hloop.bind fun m' g => ?_
  exact Ends.bind_of_eq (g.holds.read (by omega)) (Ends.of_ok ⟨rfl, g⟩)

/-! ## the image -/

/-- the bytes that a segment asks for -/
theorem Elf64Phdr.byteAt_add (h : Elf64Phdr) (file : List UInt8) (i : Nat) :
    h.byteAt file (h.vaddr + i) = if i < h.filesz then file.getD (h.offset + i) 0 else 0 := by
  unfold Elf64Phdr.byteAt
  rw [Nat.add_sub_cancel_left]
  refine if_congr ?_ rfl rfl
  omega

/-- some header touches the page of a byte of a segment -/
theorem lastTouch_isSome {h : Elf64Phdr} {hs : List Elf64Phdr} (hmem : h ∈ hs) {v : Nat} (hv : h.Touches v) :
    ∃ g, lastTouch hs v = some g := by
  unfold lastTouch
  rw [← Option.isSome_iff_exists, List.find?_isSome]
  exact ⟨h, List.mem_reverse.mpr hmem, decide_eq_true hv⟩

/-- an image that shows what the headers put there is right if and only if the last ones are -/
theorem imageLoaded_iff (hok : ElfOk file) (hl : Loadable base file) {A : Nat → Option UInt8}
    (hload : ∀ a, upperHalf a → m'.load a = (phdrs file).foldl (placed file) A a) :
    ImageLoaded file m' ↔ LastRight file := by
  have key : ∀ h ∈ phdrs file, h.type = PT_LOAD → ∀ i < h.memsz,
      ∃ g, lastTouch (phdrs file) ((h.vaddr + i) / 4096) = some g ∧
        m'.load (h.vaddr + i) = some (g.byteAt file (h.vaddr + i)) := by
    intro h hmem ht i hi
    have hhas : h.Has (h.vaddr + i) := ⟨Nat.le_add_right _ _, by omega⟩
    have htouch := (hl.int h hmem).touches (.inl ht) hhas
    obtain ⟨g, hg⟩ := lastTouch_isSome hmem htouch
    have hpages : h.pages ≠ 0 := by
      obtain ⟨h1, h2⟩ := htouch
      omega
    obtain ⟨hlow, hupto⟩ := (hok.segments h hmem).upper hpages
    refine ⟨g, hg, ?_⟩
    rw [hload _ ⟨by omega, by omega⟩, placed_foldl, hg]
    rfl
  constructor
  · intro himage h hmem ht i hi g hg
    obtain ⟨g', hg', hshown⟩ := key h hmem ht i hi
    obtain rfl : g' = g := Option.some.inj (hg'.symm.trans hg)
    have hbyte := himage h hmem ht i hi
    rw [hshown, ← h.byteAt_add] at hbyte
    exact Option.some.inj hbyte
  · intro hlast h hmem ht i hi
    obtain ⟨g, hg, hshown⟩ := key h hmem ht i hi
    rw [hshown, hlast h hmem ht i hi g hg, h.byteAt_add]

/-- **`elf_load`** -/
theorem elfLoad_spec {name : Nat} (hm : LoaderInv us m)
    (hlookup : initramLookup m.view m.initram name = some base) (hf : m.Holds base file) (hok : ElfOk file)
    (hl : Loadable base file) :
    Ends (Short m (4 * pagesOfAll (phdrs file))) (fun x => ImageLoaded file x.2 ↔ LastRight file)
      (m.elfLoad name) := by
  rw [Loader.elfLoad, hlookup, Option.elim_some]
  exact (elfLoadAt_spec hok hl hm hf).mono (fun _ hs => hs) fun x g => imageLoaded_iff hok hl g.2.load

/-- a segment whose pages no later header touches -/
theorem lastTouch_of_apart {hs : List Elf64Phdr} {v : Nat}
    (hp : hs.Pairwise fun g h => g.type = PT_LOAD → ∀ v, ¬ (g.Touches v ∧ h.Touches v)) {g : Elf64Phdr}
    (hg : g ∈ hs) (ht : g.type = PT_LOAD) (hv : g.Touches v) : lastTouch hs v = some g := by
  induction hs using List.reverseRecOn with
  | nil => exact absurd hg List.not_mem_nil
  | append_singleton hs h ih =>
    obtain ⟨hfront, -, hlast⟩ := List.pairwise_append.mp hp
    rw [lastTouch_concat]
    rcases List.mem_append.mp hg with hg | hg
    · rw [if_neg fun hh => hlast g hg h List.mem_cons_self ht v ⟨hv, hh⟩]
      exact ih hfront hg
    · rw [List.mem_singleton.mp hg] at hv ⊢
      rw [if_pos hv]

/-- **An image whose `PT_LOAD` segments share no page with a later header is loaded right.** -/
theorem lastRight_of_apart (hint : ∀ h ∈ phdrs file, h.Counted)
    (hp : (phdrs file).Pairwise fun g h => g.type = PT_LOAD → ∀ v, ¬ (g.Touches v ∧ h.Touches v)) :
    LastRight file := by
  intro h hmem ht i hi g hg
  have htouch := (hint h hmem).touches (.inl ht) (show h.Has (h.vaddr + i) from ⟨Nat.le_add_right _ _, by omega⟩)
  rw [lastTouch_of_apart hp hmem ht htouch] at hg
  rw [Option.some.inj hg]

/-- **The image is right if and only if every byte of a `PT_LOAD` segment is put there by the last header
that touches its page.** -/
theorem elf_load_image {name : Nat} (hm : LoaderInv us m)
    (hlookup : initramLookup m.view m.initram name = some base) (hf : m.Holds base file) (hok : ElfOk file)
    (hl : Loadable base file) (henough : m.elfLoad name ≠ .error .noFrame) :
    (∃ entry m', m.elfLoad name = .ok (entry, m') ∧ ImageLoaded file m') ↔ LastRight file := by
  obtain ⟨⟨entry, m'⟩, hm', hiff⟩ :=
    (elfLoad_spec hm hlookup hf hok hl).result fun s hs e => henough (hs.1 ▸ e)
  rw [← hiff]
  constructor
  · rintro ⟨entry₁, m₁, hm₁, himage⟩
    rw [hm'] at hm₁
    obtain ⟨-, rfl⟩ := Prod.mk.inj (Except.ok.inj hm₁)
    exact himage
  · intro himage
    exact ⟨entry, m', hm', himage⟩

end

/-! ## an image in the ramdisk -/

/-- a ramdisk of one file, and the file's name behind it, in one page -/
theorem exists_ramdisk {f : InitRamFile} (hok : FilesOk [f])
    (hlen : 128 + 2 * f.name.length + f.content.length ≤ 4000) :
    ∃ m name base, LoaderInv blankFree m ∧ initramLookup m.view m.initram name = some base ∧
      m.Holds base f.content ∧ 4092 ≤ m.room ∧
      ∀ i < f.content.length, (base + i) / 4096 = 0xffffffff00000 := by
  obtain ⟨image, himage⟩ := mkinitram_isSome hok (by simp [dataArea]; omega)
  have hsize := length_image himage
  have htable : (nameTable [f]).length = f.name.length + 1 := by simp [nameTable]
  have hdata : dataArea [f] = f.content := by simp [dataArea]
  rw [htable, hdata, List.length_singleton] at hsize
  unfold HEADER_SIZE ENTRY_SIZE at hsize
  obtain ⟨l, hl⟩ : ∃ l, l = image ++ (f.name ++ [0]) := ⟨_, rfl⟩
  have hlast : l.length = image.length + (f.name.length + 1) := by
    rw [hl, List.length_append, List.length_append, List.length_singleton]
  -- the page of the ramdisk
  have hrange : VallocRange 0xffffffff00000000 4096 := ⟨by decide, by decide, by decide, by decide⟩
  obtain ⟨m₁, -, g₁⟩ := (valloc_spec blank_inv hrange).result fun s hs _ => by
    have hroom := hs.2
    rw [blank_room] at hroom
    exact absurd hroom (by decide)
  have hpages : spanPages 0xffffffff00000000 4096 = 1 := by decide
  rw [hpages] at g₁
  have hup : ∀ i < l.length, upperHalf (0xffffffff00000000 + i) := fun i hi => ⟨by omega, by omega⟩
  have hmap : ∀ i < l.length, upperHalf (0xffffffff00000000 + i) ∧
      (m₁.load (0xffffffff00000000 + i)).isSome := by
    intro i hi
    refine ⟨hup i hi, ?_⟩
    rw [g₁.load blank_inv (hup i hi), if_pos ⟨by omega, by omega⟩]
    rfl
  obtain ⟨m, g⟩ := exists_written l g₁.inv hmap
  have hinitram : m.initram = 0xffffffff00000000 := by
    rw [g.initram, g₁.initram]
    rfl
  have hbytes : ∀ i (hi : i < l.length), m.load (0xffffffff00000000 + i) = some l[i] := by
    intro i hi
    have hat := holdsAt_store m₁.load 0xffffffff00000000 (l.map some) i (by rwa [List.length_map])
    rw [g.load _ (hup i hi), hat, List.getElem_map]
  have hview : HoldsAt m.view 0xffffffff00000000 l := fun i hi => by
    rw [Loader.view, hbytes i hi, Option.getD_some]
  rw [hl, holdsAt_append] at hview
  have hstring : CString m.view (0xffffffff00000000 + image.length) f.name :=
    ⟨hview.2, hok.noNul f List.mem_cons_self⟩
  obtain ⟨base, hend, hat, hres⟩ := initramLookup_eq hok himage ⟨hview.1, by omega⟩ hstring
  have hmatch : matchAddr f.name 0 [f] = some 0 := by
    unfold matchAddr
    rw [if_pos (List.isPrefixOf_iff_prefix.mpr (List.prefix_refl _))]
  rw [hmatch, Option.map_some, Nat.add_zero] at hres
  rw [hdata] at hend hat
  refine ⟨m, _, base, g.inv, hinitram ▸ hres, fun i hi => ?_, ?_, fun i hi => by omega⟩
  · have hin : base + i - 0xffffffff00000000 < l.length := by omega
    have haddr : base + i = 0xffffffff00000000 + (base + i - 0xffffffff00000000) := by omega
    have hbyte := hbytes _ hin
    rw [← haddr] at hbyte
    have hcell := hat i hi
    rw [Loader.view, hbyte, Option.getD_some] at hcell
    refine ⟨?_, by rw [hbyte, hcell]⟩
    rw [haddr]
    exact hup _ hin
  · have hroom := g₁.room
    rw [blank_room] at hroom
    have hsame : m.room = m₁.room := by
      unfold Loader.room
      rw [g.memFree]
    omega

/-! ## files with given headers -/

/-- the ELF header of a file with `phnum` program headers right behind it -/
def ehdrBytes (phnum : Nat) : List UInt8 :=
  [0x7f, 69, 76, 70] ++ List.replicate 20 0 ++ le 8 0xffffffff80000000 ++ le 8 EHDR_SIZE ++
    List.replicate 16 0 ++ le 2 phnum ++ List.replicate 6 0

def Elf64Phdr.bytes (h : Elf64Phdr) : List UInt8 :=
  le 4 h.type ++ le 4 0 ++ le 8 h.offset ++ le 8 h.vaddr ++ le 8 0 ++ le 8 h.filesz ++ le 8 h.memsz ++ le 8 4096

/-- an ELF file with the given program headers -/
def elfFile (hs : List Elf64Phdr) (data : List UInt8) : List UInt8 :=
  ehdrBytes hs.length ++ hs.flatMap Elf64Phdr.bytes ++ data

/-- the numbers of a header fit its fields -/
def Elf64Phdr.InRange (h : Elf64Phdr) : Prop :=
  h.type < 256^4 ∧ h.offset < 256^8 ∧ h.vaddr < 256^8 ∧ h.filesz < 256^8 ∧ h.memsz < 256^8

instance (h : Elf64Phdr) : Decidable h.InRange := inferInstanceAs (Decidable (_ ∧ _))

theorem fieldAt_append (l r : List UInt8) {off w : Nat} (h : l.length ≤ off) :
    fieldAt (l ++ r) off w = fieldAt r (off - l.length) w := by
  rw [fieldAt, fieldAt, List.drop_append, List.drop_eq_nil_of_le h, List.nil_append]

theorem fieldAt_le {w n : Nat} (r : List UInt8) (h : n < 256^w) : fieldAt (le w n ++ r) 0 w = n := by
  rw [fieldAt, List.drop_zero, List.take_left' (length_le w n), ofLe_le_of_lt h]

theorem phdrAt_append (l r : List UInt8) (p : Nat) : phdrAt (l ++ r) (l.length + p) = phdrAt r p := by
  have hfield (k w : Nat) : fieldAt (l ++ r) (l.length + p + k) w = fieldAt r (p + k) w := by
    rw [fieldAt_append l r (by omega), Nat.add_assoc, Nat.add_sub_cancel_left]
  unfold phdrAt
  rw [hfield 8, hfield 16, hfield 32, hfield 40, ← Nat.add_zero (l.length + p), hfield 0, Nat.add_zero]

theorem phdrAt_bytes {h : Elf64Phdr} (hr : h.InRange) (r : List UInt8) : phdrAt (h.bytes ++ r) 0 = h := by
  obtain ⟨h1, h2, h3, h4, h5⟩ := hr
  unfold phdrAt Elf64Phdr.bytes
  simp only [List.append_assoc, fieldAt_append, length_le, Nat.reduceAdd, Nat.reduceSub, Nat.reduceLeDiff]
  rw [fieldAt_le _ h1, fieldAt_le _ h2, fieldAt_le _ h3, fieldAt_le _ h4, fieldAt_le _ h5]

theorem length_ehdrBytes (n : Nat) : (ehdrBytes n).length = EHDR_SIZE := by
  simp [ehdrBytes, EHDR_SIZE]

theorem length_phdrBytes (h : Elf64Phdr) : h.bytes.length = PHDR_SIZE := by
  simp [Elf64Phdr.bytes, PHDR_SIZE]

section
variable {hs : List Elf64Phdr} {data : List UInt8}

theorem length_elfFile : (elfFile hs data).length = EHDR_SIZE + PHDR_SIZE * hs.length + data.length := by
  have htable : (hs.flatMap Elf64Phdr.bytes).length = PHDR_SIZE * hs.length := by
    induction hs with
    | nil => rfl
    | cons h hs ih =>
      rw [List.flatMap_cons, List.length_append, length_phdrBytes, ih, List.length_cons, Nat.mul_succ, Nat.add_comm]
  rw [elfFile, List.length_append, List.length_append, length_ehdrBytes, htable]

theorem elfFile_eq : elfFile hs data = ehdrBytes hs.length ++ (hs.flatMap Elf64Phdr.bytes ++ data) :=
  List.append_assoc _ _ _

theorem fieldAt_phoff : fieldAt (elfFile hs data) 32 8 = EHDR_SIZE := by
  rw [elfFile_eq]
  simp only [ehdrBytes, List.append_assoc, fieldAt_append, length_le, List.length_cons, List.length_nil,
    List.length_replicate, Nat.reduceAdd, Nat.reduceSub, Nat.reduceLeDiff]
  exact fieldAt_le _ (by decide)

theorem fieldAt_phnum (hn : hs.length < 2^16) : fieldAt (elfFile hs data) 56 2 = hs.length := by
  rw [elfFile_eq]
  simp only [ehdrBytes, List.append_assoc, fieldAt_append, length_le, List.length_cons, List.length_nil,
    List.length_replicate, Nat.reduceAdd, Nat.reduceSub, Nat.reduceLeDiff]
  exact fieldAt_le _ hn

/-- header `i` of a table -/
theorem phdrAt_table (hr : ∀ h ∈ hs, h.InRange) :
    ((List.range hs.length).map fun i => phdrAt (hs.flatMap Elf64Phdr.bytes ++ data) (PHDR_SIZE * i)) = hs := by
  induction hs with
  | nil => rfl
  | cons h hs ih =>
    have hfirst : phdrAt ((h :: hs).flatMap Elf64Phdr.bytes ++ data) (PHDR_SIZE * 0) = h := by
      rw [List.flatMap_cons, List.append_assoc]
      exact phdrAt_bytes (hr h List.mem_cons_self) _
    have hnext (i : Nat) : phdrAt ((h :: hs).flatMap Elf64Phdr.bytes ++ data) (PHDR_SIZE * (i + 1)) =
        phdrAt (hs.flatMap Elf64Phdr.bytes ++ data) (PHDR_SIZE * i) := by
      have hp := phdrAt_append h.bytes (hs.flatMap Elf64Phdr.bytes ++ data) (PHDR_SIZE * i)
      rw [length_phdrBytes] at hp
      rw [List.flatMap_cons, List.append_assoc, Nat.mul_succ, Nat.add_comm, hp]
    rw [List.length_cons, List.range_succ_eq_map, List.map_cons, List.map_map, hfirst]
    congr 1
    refine Eq.trans (List.map_congr_left fun i _ => hnext i) ?_
    exact ih fun g hg => hr g (List.mem_cons_of_mem _ hg)

/-- the headers are read back -/
theorem phdrs_elfFile (hr : ∀ h ∈ hs, h.InRange) (hn : hs.length < 2^16) : phdrs (elfFile hs data) = hs := by
  unfold phdrs
  rw [fieldAt_phnum hn, fieldAt_phoff, elfFile_eq, ← length_ehdrBytes hs.length]
  exact Eq.trans (List.map_congr_left fun i _ => phdrAt_append _ _ _) (phdrAt_table hr)

theorem elfFile_ok (hr : ∀ h ∈ hs, h.InRange) (hn : hs.length < 2^16)
    (hsegments : ∀ h ∈ hs, h.filesz ≤ h.memsz ∧ (h.filesz ≠ 0 → h.offset + h.filesz ≤
      EHDR_SIZE + PHDR_SIZE * hs.length + data.length) ∧
      (h.pages ≠ 0 → 2^64 - 2^47 ≤ h.vaddr ∧ h.vaddr + h.memsz ≤ 2^64))
    (hdisjoint : hs.Pairwise fun g h => g.type = PT_LOAD → h.type = PT_LOAD → ∀ a, ¬ (g.Has a ∧ h.Has a)) :
    ElfOk (elfFile hs data) where
  header := by
    rw [length_elfFile, Nat.add_assoc]
    exact Nat.le_add_right _ _
  table := by
    rw [fieldAt_phoff, fieldAt_phnum hn, length_elfFile]
    exact Nat.le_add_right _ _
  segments h hmem := by
    rw [phdrs_elfFile hr hn] at hmem
    obtain ⟨hsize, hin, hupper⟩ := hsegments h hmem
    refine ⟨hsize, fun hne => ?_, hupper⟩
    rw [length_elfFile]
    exact hin hne
  disjoint := by rwa [phdrs_elfFile hr hn]

end

/-- a segment of two bytes, and two zeros behind them -/
def loneSegment : Elf64Phdr := ⟨PT_LOAD, 120, 0xffffffff80000000, 2, 4⟩

def loneElf : List UInt8 := elfFile [loneSegment] [7, 8]

/-- two segments of one byte in one page -/
def pageMates : List Elf64Phdr :=
  [⟨PT_LOAD, 176, 0xffffffff80000000, 1, 1⟩, ⟨PT_LOAD, 177, 0xffffffff80000010, 1, 1⟩]

def matesElf : List UInt8 := elfFile pageMates [7, 8]

theorem phdrs_lone : phdrs loneElf = [loneSegment] := phdrs_elfFile (by decide) (by decide)

theorem length_lone : loneElf.length = 122 := length_elfFile

theorem phdrs_mates : phdrs matesElf = pageMates := phdrs_elfFile (by decide) (by decide)

theorem length_mates : matesElf.length = 178 := length_elfFile

theorem loneElf_ok : ElfOk loneElf :=
  elfFile_ok (by decide) (by decide) (by decide) (List.pairwise_singleton _ _)

theorem matesElf_ok : ElfOk matesElf := by
  refine elfFile_ok (by decide) (by decide) (by decide) (List.pairwise_pair.mpr fun _ _ a ha => ?_)
  obtain ⟨⟨-, h1⟩, h2, -⟩ := ha
  dsimp only at h1 h2
  omega

/-- segments in the page at `0xffffffff80000000` do not touch the ramdisk -/
theorem loadable_of_page {base : Nat} {file : List UInt8}
    (hbase : ∀ i < file.length, (base + i) / 4096 = 0xffffffff00000)
    (h : ∀ h ∈ phdrs file, h.vaddr / 4096 = 0xffffffff80000 ∧ h.vaddr % 4096 + h.memsz ≤ 4096) :
    Loadable base file where
  int g hg := .inl (Nat.le_trans (h g hg).2 (by decide))
  clear g hg i hi := by
    rw [hbase i hi]
    rintro ⟨h1, -⟩
    rw [(h g hg).1] at h1
    exact absurd h1 (by decide)

/-- a segment of two zeros, and one of two bytes and two zeros that is laid over it -/
def zerosUnder : List Elf64Phdr :=
  [⟨PT_LOAD, 176, 0xffffffff80000010, 0, 2⟩, ⟨PT_LOAD, 176, 0xffffffff80000000, 2, 4⟩]

def underElf : List UInt8 := elfFile zerosUnder [7, 8]

theorem phdrs_under : phdrs underElf = zerosUnder := phdrs_elfFile (by decide) (by decide)

theorem length_under : underElf.length = 178 := length_elfFile

theorem underElf_ok : ElfOk underElf := by
  refine elfFile_ok (by decide) (by decide) (by decide) (List.pairwise_pair.mpr fun _ _ a ha => ?_)
  obtain ⟨⟨h1, -⟩, -, h2⟩ := ha
  dsimp only at h1 h2
  omega

/-- the header that is laid over the zeros leaves zeros there -/
theorem underElf_lastRight : LastRight underElf := by
  have hlast : ∀ h ∈ zerosUnder, ∀ i < h.memsz,
      ∃ g, lastTouch zerosUnder ((h.vaddr + i) / 4096) = some g ∧
        g.byteAt underElf (h.vaddr + i) = h.byteAt underElf (h.vaddr + i) := by
    intro h hmem i hi
    refine ⟨⟨PT_LOAD, 176, 0xffffffff80000000, 2, 4⟩, ?_⟩
    revert i
    rcases List.mem_pair.mp hmem with rfl | rfl <;> decide
  unfold LastRight
  rw [phdrs_under]
  intro h hmem _ i hi g hg
  obtain ⟨g', hg', hbyte⟩ := hlast h hmem i hi
  rw [← Option.some.inj (hg'.symm.trans hg)]
  exact hbyte

/-- an image with two segments in one page -/
theorem elf_load_image_under : ∃ m name entry m', Loader.elfLoad m name = .ok (entry, m') ∧
    ImageLoaded underElf m' := by
  have hfile : FilesOk [⟨[107], underElf⟩] :=
    ⟨by decide, by decide, by decide, by decide, by decide⟩
  obtain ⟨m, name, base, hm, hlookup, hf, hroom, hbase⟩ := exists_ramdisk hfile (by
    simp only [length_under]
    decide)
  have hl : Loadable base underElf := by
    refine loadable_of_page hbase fun h hmem => ?_
    rw [phdrs_under] at hmem
    rcases List.mem_pair.mp hmem with rfl | rfl <;> decide
  refine ⟨m, name, (elf_load_image hm hlookup hf underElf_ok hl fun e => ?_).mpr underElf_lastRight⟩
  have hshort := ((elfLoad_spec hm hlookup hf underElf_ok hl).error _ e).2
  rw [phdrs_under] at hshort
  have hpages : pagesOfAll zerosUnder = 2 := by decide
  omega

/-- the second segment clears the byte of the first one -/
theorem elf_load_wrong : ¬ ∀ us m name base file, LoaderInv us m →
    initramLookup m.view m.initram name = some base → m.Holds base file → ElfOk file →
    m.elfLoad name ≠ .error .noFrame →
    ∃ entry m', m.elfLoad name = .ok (entry, m') ∧ ImageLoaded file m' := by
  intro hall
  have hfile : FilesOk [⟨[107], matesElf⟩] :=
    ⟨by decide, by decide, by decide, by decide, by decide⟩
  obtain ⟨m, name, base, hm, hlookup, hf, hroom, hbase⟩ := exists_ramdisk hfile (by
    simp only [length_mates]
    decide)
  have hl : Loadable base matesElf := by
    refine loadable_of_page hbase fun h hmem => ?_
    rw [phdrs_mates] at hmem
    rcases List.mem_pair.mp hmem with rfl | rfl <;> decide
  have hends := elfLoad_spec hm hlookup hf matesElf_ok hl
  obtain ⟨entry, m', hm', himage⟩ := hall blankFree m name base matesElf hm hlookup hf matesElf_ok fun e => by
    have hshort := (hends.error _ e).2
    rw [phdrs_mates] at hshort
    have hpages : pagesOfAll pageMates = 2 := by decide
    omega
  have hlast := (hends.ok _ hm').mp himage
  unfold LastRight at hlast
  rw [phdrs_mates] at hlast
  have hbyte := hlast _ List.mem_cons_self rfl 0 (by decide) ⟨PT_LOAD, 177, 0xffffffff80000010, 1, 1⟩ (by decide)
  exact absurd hbyte (by decide)

end FuseeOS
