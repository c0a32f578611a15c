import FuseeOS.Boot.Bmain
import FuseeOS.Kernel.WriteXorExec

/-!
# From the bootloader to the kernel

What is proved of the kernel's memory is proved from tables of which `BootSpace` and `BootFlags` are assumed.
The tables that `bmain` leaves are such tables.

* `LevelEntry.present`    the flags of the entries that `map_single` writes;
* `LoaderOk.bootSpace`    the loader's tables, as the kernel's machine has them;
* `LoaderOk.bootFlags`    their flags on the way to the image;
* **`bmain_handover`**    both after `bmain`, for a kernel whose sections lie in the pages of its headers.
-/

namespace FuseeOS
open Bytes Radix BootMemRegion Outcome

/-- the machine that the kernel starts on; its allocator is not set up -/
def Loader.machine (m : Loader) (pmem : PhysicalMemoryAllocator) : Machine where
  mem := m.words
  pmem := pmem
  cr3 := m.cr3
  cpuCr3 := m.cr3
  nx := false
  ioSize := 0
  phys := 0

/-! ## flags -/

/-- an entry that is present, behind `d` others -/
structure LevelFlags (d : Nat) (w : BitVec 64) : Prop where
  plain : Plain w
  user : userOk w = false
  noExec : noExec w = false
  write : d < 3 → writable w = true

theorem levelFlags_entryTo {d n : Nat} (hn : n % 4096 = 0) (hlt : n < 2^47) :
    LevelFlags d (entryTo n (if d < 3 then 3 else 1)) := by
  have hf : IsFlags (if d < 3 then 3 else 1) := by
    split_ifs <;> rfl
  refine ⟨plain_entry hn hlt hf, ?_, ?_, fun hd => ?_⟩
  · unfold userOk entryTo
    rw [bit_entry hn hlt (by omega)]
    split_ifs <;> rfl
  · unfold FuseeOS.noExec entryTo
    rw [bit_entry hn hlt (by omega)]
    split_ifs <;> rfl
  · unfold writable entryTo
    rw [bit_entry hn hlt (by omega), if_pos hd]
    rfl

theorem LevelEntry.flags {d : Nat} {w : BitVec 64} (h : LevelEntry d w) (hp : present w = true) : LevelFlags d w := by
  rcases h with rfl | ⟨n, hn, hlt, rfl⟩
  · cases hp
  · exact levelFlags_entryTo hn hlt

/-! ## the tables -/

section
variable {us : List BootMemRegion} {m : Loader} {pmem : PhysicalMemoryAllocator} {img : KernelImage}

theorem machine_entry {p : List (Fin 512)} {i : Fin 512} {w : BitVec 64} (e : (m.machine pmem).entry p i = some w) :
    ∃ t, m.nodeAt p = some t ∧ m.words t i = w ∧ present w = true := by
  obtain ⟨t, ht, hw⟩ := Option.bind_eq_some_iff.mp e
  have hw' : (if present (m.words t i) then some (m.words t i) else none) = some w := hw
  split_ifs at hw' with hp
  obtain rfl := Option.some.inj hw'
  exact ⟨t, ht, rfl, hp⟩

/-- the entries of the upper half -/
theorem LoaderOk.flags (h : LoaderOk us m) {p : List (Fin 512)} {i : Fin 512} {w : BitVec 64} (hp : p.length < 4)
    (hup : InUpper (p ++ [i])) (e : (m.machine pmem).entry p i = some w) : LevelFlags p.length w := by
  obtain ⟨t, ht, rfl, hpresent⟩ := machine_entry e
  exact (h.level p t i hp hup ht).flags hpresent

/-- a page that shows has an entry -/
theorem leaf_of_page {v : Nat} (h : (m.page v).isSome) : (leaf (m.machine pmem) v).isSome := by
  obtain ⟨f, hf⟩ := Option.isSome_iff_exists.mp h
  obtain ⟨t, ht, hn⟩ := nodeAt_concat_some hf
  have hp : present (m.words t (pageIndex v 0)) = true := by
    by_contra hno
    rw [next_eq_none (Bool.eq_false_iff.mpr hno)] at hn
    cases hn
  refine Option.isSome_iff_exists.mpr ⟨m.words t (pageIndex v 0), ?_⟩
  refine Option.bind_eq_some_iff.mpr ⟨t, ht, ?_⟩
  exact if_pos hp

/-- the free regions, as the kernel takes them -/
theorem FreePages.freeWf {memFree : List BootMemRegion} (h : FreePages us memFree) (hb : BasesOk memFree) :
    FreeWf us memFree where
  wf r hr := by
    by_cases h0 : r.size = 0
    · have hbase := hb r hr
      exact ⟨by omega, by omega, by omega, fun hne => absurd h0 hne⟩
    · have htail := h.tail r hr h0
      have hshort := htail.short
      exact ⟨by omega, by omega, h.whole r hr, fun _ => htail.aligned⟩
  disjoint := h.apart
  inside r hr h0 := by
    obtain ⟨u, hu, hlow, hend⟩ := (h.tail r hr h0).of
    refine ⟨u, hu, fun p hp => ?_⟩
    unfold Has at hp ⊢
    omega

/-- **The loader's tables are such as the kernel starts from.** -/
theorem LoaderOk.bootSpace (h : LoaderOk us m) (hlow : ∀ p, InRegions m.memFree p → p < 2^47) (hlaid : img.Laid)
    (hpages : ∀ s ∈ img.sections, ∀ j < s.count, (m.page (s.first + j)).isSome) :
    BootSpace img (m.machine pmem) us m.memFree where
  root := h.rootLow
  tree p q t hp hq ep eq := h.tree p q t (by omega) (by omega) ep eq
  plain v hv k hk w e := by
    have hlen := @length_stem v k (by omega)
    have hup : InUpper (stem v k ++ [pageIndex v (3 - k)]) := by
      rw [← stem_succ v hk]
      exact ⟨pageIndex v 3, rfl, Nat.le_of_lt hv⟩
    exact (h.flags (by omega) hup e).plain
  noUser a p i w ha hp e _ := by
    refine (h.flags ?_ ⟨a, rfl, ha⟩ e).user
    rw [List.length_cons]
    omega
  laid := hlaid
  mapped s hs j hj := leaf_of_page (hpages s hs j hj)
  free := h.free.freeWf h.bases
  low := hlow
  apart t ht hfree := by
    obtain ⟨p, hp, e⟩ := ht
    exact h.used p t (by omega) e hfree

/-- the flags on the way to the image -/
theorem LoaderOk.bootFlags (h : LoaderOk us m) : BootFlags (m.machine pmem) where
  top w e := by
    have hflags := h.flags (by decide) ⟨LAST, rfl, by decide⟩ e
    exact ⟨hflags.write (by decide), hflags.noExec⟩
  below p i w hp hhead e := by
    refine (h.flags (by omega) ⟨LAST, ?_, by decide⟩ e).noExec
    rw [List.head?_append, hhead]
    rfl

end

/-! ## the kernel image -/

/-- every page of a section is one that a header of the file touches -/
def KernelImage.InFile (img : KernelImage) (kernel : List UInt8) : Prop :=
  ∀ s ∈ img.sections, ∀ j < s.count, ∃ h ∈ phdrs kernel, h.Touches (s.first + j)

/-- free memory lies below the end of usable memory -/
theorem FreePages.below {us memFree : List BootMemRegion} (h : FreePages us memFree) {n : Nat}
    (hn : ∀ u ∈ us, u.base + u.size ≤ n) {p : Nat} (hp : InRegions memFree p) : p < n := by
  obtain ⟨r, hr, hlow, hhigh⟩ := hp
  obtain ⟨u, hu, -, hend⟩ := (h.tail r hr (by omega)).of
  have hbound := hn u hu
  omega

/-- **`bmain` leaves tables such as the kernel starts from.** -/
theorem bmain_handover (b : BootSetting) (h : b.Ok) (hphys : ∀ u ∈ usable b.replies, u.base + u.size ≤ 2^47)
    (img : KernelImage) (hlaid : img.Laid) (hfile : img.InFile b.kernel) :
    ∃ rounds, Ends b.TooLittle
      (fun r => ∀ pmem, BootSpace img (r.loader.machine pmem) (usable b.replies) r.loader.memFree ∧
        BootFlags (r.loader.machine pmem)) (b.run rounds) := by
  obtain ⟨rounds, hrun⟩ := h.spec
  refine ⟨rounds, hrun.mono (fun _ hstop => hstop) fun r hr pmem => ?_⟩
  obtain ⟨-, hok, hpages, -, -, -⟩ := hr
  refine ⟨hok.bootSpace (fun p hp => hok.free.below hphys hp) hlaid fun s hs j hj => ?_, hok.bootFlags⟩
  obtain ⟨g, hg, ht⟩ := hfile s hs j hj
  exact hpages g hg _ ht

/-- code in the one page of the kernel -/
theorem bmain_handover_lone : ∃ v rounds r, (loneSetting v).run rounds = .ok r ∧
    ∀ pmem, BootSpace (pagesImage 1 0 0 0) (r.loader.machine pmem) (usable (loneReply 0x1000000)) r.loader.memFree := by
  obtain ⟨v, hv⟩ := exists_loneVolume
  have hphys : ∀ u ∈ usable (loneSetting v).replies, u.base + u.size ≤ 2^47 := fun u hu => by
    obtain rfl : u = ⟨LOMEM_END, 0x1000000⟩ := List.mem_singleton.1 hu
    decide
  have hfile : (pagesImage 1 0 0 0).InFile (loneSetting v).kernel := by
    intro s hs j hj
    refine ⟨loneSegment, ?_, ?_⟩
    · show loneSegment ∈ phdrs loneElf
      rw [phdrs_lone]
      exact List.mem_singleton_self _
    · have hcount : ∀ s ∈ (pagesImage 1 0 0 0).sections, ∀ j < s.count, loneSegment.Touches (s.first + j) := by
        decide
      exact hcount s hs j hj
  obtain ⟨rounds, hrun⟩ := bmain_handover (loneSetting v) (loneSetting_ok hv) hphys _ (pagesImage_laid (by decide)) hfile
  obtain ⟨r, hr, hall⟩ := hrun.result fun s hs _ => not_tooLittle_lone v s hs
  exact ⟨v, rounds, r, hr, fun pmem => (hall pmem).1⟩

end FuseeOS
