import FuseeOS.Boot.LowHalf
import FuseeOS.Boot.VolumeBoot
import FuseeOS.Boot.ElfLoad

/-!
# Reading files in long mode

The functions of `mfs.c` and `disk.c` store through the tables of the loader: to the variables of the
bootloader by the identity map, and to the ramdisk by the pages of `valloc`.  On a memory without tables they
are `mfsRead` and its like.

* `Mirrors`                    the loader shows a memory without tables at the addresses of `G`;
* `storeBytes_mirrors`         it still does when both have stored the same bytes;
* `diskReadRaw_mirrors`        so it does behind `disk_read_raw`, whatever the BIOS returns;
* `mfsFileSize_mirrors`, `mfsLookupAt_mirrors`, **`mfsRead_mirrors`**   and behind the functions of `mfs.c`.
-/

namespace FuseeOS
open Bytes Radix BootMemRegion Outcome

/-! ## the code -/

def Loader.storeBytes (m : Loader) (dst : Nat) : List UInt8 → Except LoadStop Loader
  | [] => .ok m
  | b :: l => (m.storeByte dst b).elim (.error .fault) fun m => m.storeBytes (dst + 1) l

section
variable (bios : Bios) (bootDrive buffer dap : Nat)

/-- the `while` loop; the local `buffer` is not followed: what the BIOS has read goes to `dst` -/
def Loader.diskLoop (m : Loader) (dst lba sectors : Nat) : Except LoadStop Loader :=
  if _h : sectors = 0 then .ok m
  else
    let nsectors := if sectors > 8 then 8 else sectors
    let packet : DiskAccessPacket :=
      ⟨16, 0, nsectors, buffer % 2^16, 0, lba &&& 0xffffffff, lba >>> 32⟩
    let read := bios ⟨0x4200, bootDrive, dap % 2^32, 0⟩ packet
    (m.storeBytes dst (read.take (nsectors * 512))).bind fun m =>
      m.diskLoop (dst + nsectors * 512) ((lba + nsectors) % 2^64) (sectors - nsectors)
termination_by sectors
decreasing_by
  split <;> omega

def Loader.diskReadRaw (part : BootPartitionRecord) (m : Loader) (dst lba sectors : Nat) : Except LoadStop Loader :=
  m.diskLoop bios bootDrive buffer dap dst ((lba + part.lbaStart) % 2^64) sectors

end

section
variable (disk : Loader → Nat → Nat → Nat → Except LoadStop Loader) (gPages : Nat)

-- `disk` is `disk_read_raw`, and `gPages` is the address of the buffers `gPages[4]`

def Loader.mfsReadPage (m : Loader) (page inode : Nat) : Except LoadStop Loader :=
  disk m page ((MFS_RESERVED_PAGES + inode) * 8 % 2^64) (MFS_PAGE_SIZE / 512)

def Loader.mfsInit (gMetadata : Nat) (m : Loader) : Except LoadStop Loader :=
  disk m gMetadata (MFS_METADATA_PAGE * 8) (MFS_PAGE_SIZE / 512)

/-- Where no inode is found within so many rounds, or bytes behind the directory are read, the run is not
followed (`Lookup.inode`). -/
def Loader.mfsLookupAt (m : Loader) (inode : Nat) (name : List UInt8) (rounds : Nat) :
    Except LoadStop (Nat × Loader) := do
  let m ← m.mfsReadPage disk gPages inode
  let size ← m.read (gPages + Mfs.size) 8
  let data ← m.read (gPages + Mfs.data 0) 8
  let m ← m.mfsReadPage disk gPages data
  let namelen := name.length % 2^32
  let found := mfsLookupLoop m.view (gPages + min size MFS_PAGE_SIZE) name namelen gPages rounds
  found.inode.elim (.error .undefined) fun inode => .ok (inode, m)

def Loader.mfsLookupRoot (gMetadata : Nat) (m : Loader) (name : List UInt8) (rounds : Nat) :
    Except LoadStop (Nat × Loader) := do
  let root ← m.read (gMetadata + Mfs.root) 8
  m.mfsLookupAt disk gPages root name rounds

def Loader.mfsFileSize (m : Loader) (inode : Nat) : Except LoadStop (Nat × Loader) := do
  let m ← m.mfsReadPage disk gPages inode
  let size ← m.read (gPages + Mfs.size) 8
  return (size, m)

/-- the loop of `mfs_read_idata` and `mfs_read_data` from round `i` on, with `n` rounds to go -/
def Loader.readSlots (m : Loader) (slots dst i : Nat) : Nat → Except LoadStop (Loader × Nat)
  | 0 => .ok (m, dst)
  | n + 1 => do
    let inode ← m.read (slots + 8 * i) 8
    let m ← m.mfsReadPage disk dst inode
    m.readSlots slots (dst + MFS_PAGE_SIZE) (i + 1) n

def Loader.mfsReadIdata (m : Loader) (dst count : Nat) : Except LoadStop (Loader × Nat) :=
  m.readSlots disk (gPages + MFS_PAGE_SIZE + Mfs.inodes 0) dst 0 count

def Loader.mfsReadData (m : Loader) (dst count : Nat) : Except LoadStop (Loader × Nat) :=
  m.readSlots disk (gPages + Mfs.data 0) dst 0 count

def Loader.mfsRead (m : Loader) (dst inode : Nat) : Except LoadStop Loader := do
  let (size, m) ← m.mfsFileSize disk gPages inode
  let npages := (size + MFS_PAGE_SIZE - 1) % 2^64 / MFS_PAGE_SIZE % 2^32
  if npages = 0 then return m
  else do
    let m ← m.mfsReadPage disk gPages inode
    let tmp := if npages > MFS_DATA_POINTERS then MFS_DATA_POINTERS else npages
    let (m, dst) ← m.mfsReadData disk gPages dst tmp
    let npages := npages - tmp
    if npages = 0 then return m
    else do
      let idata ← m.read (gPages + Mfs.idata) 8
      let m ← m.mfsReadPage disk (gPages + MFS_PAGE_SIZE) idata
      let tmp := if npages > MFS_IDATA_POINTERS then MFS_IDATA_POINTERS else npages
      let (m, _) ← m.mfsReadIdata disk gPages dst tmp
      return m

end

/-! ## a memory without tables -/

/-- at the addresses of `G` the loader shows the memory `mem` -/
structure Mirrors (us : List BootMemRegion) (G : Nat → Prop) (m : Loader) (mem : Nat → UInt8) : Prop where
  ok : LoaderOk us m
  load : ∀ a, G a → m.load a = some (mem a)

/-- addresses that can be stored to: below the tables, or in the upper half -/
def Storable (G : Nat → Prop) : Prop := ∀ a, G a → a < ALLOC_PAGE_LO ∨ upperHalf a

/-- The step has made `m'` of `m`, and the same of `mem`; nothing was handed out or mapped, and `mem` has not
changed outside of `G`. -/
structure Mirrored (us : List BootMemRegion) (G : Nat → Prop) (m : Loader) (mem : Nat → UInt8) (m' : Loader)
    (mem' : Nat → UInt8) : Prop where
  mirrors : Mirrors us G m' mem'
  memFree : m'.memFree = m.memFree
  cr3 : m'.cr3 = m.cr3
  initram : m'.initram = m.initram
  outside : ∀ a, ¬ G a → mem' a = mem a
  shown : ∀ a, upperHalf a → (m'.load a).isSome = (m.load a).isSome

section
variable {us : List BootMemRegion} {G : Nat → Prop} {m m' m₁ : Loader} {mem mem' mem₁ : Nat → UInt8} {a dst : Nat}

theorem Mirrored.refl (h : Mirrors us G m mem) : Mirrored us G m mem m mem :=
  ⟨h, rfl, rfl, rfl, fun _ _ => rfl, fun _ _ => rfl⟩

theorem Mirrored.trans (g : Mirrored us G m mem m₁ mem₁) (g' : Mirrored us G m₁ mem₁ m' mem') :
    Mirrored us G m mem m' mem' :=
  ⟨g'.mirrors, g'.memFree.trans g.memFree, g'.cr3.trans g.cr3, g'.initram.trans g.initram,
    fun a ha => (g'.outside a ha).trans (g.outside a ha), fun a ha => (g'.shown a ha).trans (g.shown a ha)⟩

/-- **A byte.** -/
theorem storeByte_mirrors (hG : Storable G) (h : Mirrors us G m mem) (ha : G a) (b : UInt8) :
    ∃ m', m.storeByte a b = some m' ∧ Mirrored us G m mem m' (Function.update mem a b) := by
  have hid : ALLOC_PAGE_LO = 0x100000 ∧ IDENTITY_END = 0x100000000 := ⟨rfl, rfl⟩
  have hout : ∀ c, ¬ G c → Function.update mem a b c = mem c := fun c hc =>
    Function.update_of_ne (fun e : c = a => hc (e ▸ ha)) b mem
  -- what the loader shows below the tables
  have hlow {m : Loader} {mem : Nat → UInt8} (h : Mirrors us G m mem) {c : Nat} (hc : G c) (hlt : c < ALLOC_PAGE_LO) :
      m.mem c = mem c := by
    have hc' := h.load c hc
    rw [h.ok.load_low (by omega)] at hc'
    exact Option.some.inj hc'
  rcases hG a ha with hlt | hup
  · obtain ⟨m', hrun, hok, hw, hupper⟩ := storeByte_low h.ok hlt b
    refine ⟨m', hrun, ⟨hok, fun c hc => ?_⟩, hw.memFree, hw.cr3, hw.initram, hout,
      fun c hc => by rw [hupper c hc]⟩
    rcases hG c hc with hclt | hcup
    · rw [hok.load_low (by omega), hw.mem]
      by_cases hca : c = a
      · rw [hca, Function.update_self, Function.update_self]
      · rw [Function.update_of_ne hca, Function.update_of_ne hca, hlow h hc hclt]
    · have hca : c ≠ a := by
        unfold upperHalf at hcup
        omega
      rw [hupper c hcup, h.load c hc, Function.update_of_ne hca]
  · obtain ⟨m', hrun, hkeeps, hshown⟩ := storeByte_upper h.ok hup (by rw [h.load a ha]; rfl) b
    have hsame : ∀ c, upperHalf c → (m'.load c).isSome = (m.load c).isSome := fun c hc => by
      rw [hshown.load c hc]
      split_ifs with hca
      · rw [hca, h.load a ha]
        rfl
      · rfl
    refine ⟨m', hrun, ⟨hkeeps.1, fun c hc => ?_⟩, hshown.memFree, hkeeps.2.cr3, hshown.initram, hout, hsame⟩
    rcases hG c hc with hclt | hcup
    · have hca : c ≠ a := by
        unfold upperHalf at hup
        omega
      rw [hkeeps.1.load_low (by omega), hkeeps.2.mem c hclt, hlow h hc hclt, Function.update_of_ne hca]
    · rw [hshown.load c hcup]
      by_cases hca : c = a
      · rw [if_pos hca, hca, Function.update_self]
      · rw [if_neg hca, Function.update_of_ne hca, h.load c hc]

theorem store_cons (mem : Nat → UInt8) (dst : Nat) (b : UInt8) (l : List UInt8) :
    store (Function.update mem dst b) (dst + 1) l = store mem dst (b :: l) := by
  have hone : Function.update mem dst b = store mem dst [b] := by
    funext c
    by_cases hc : c = dst
    · rw [hc, Function.update_self]
      exact (holdsAt_store mem dst [b] 0 Nat.one_pos).symm
    · rw [Function.update_of_ne hc]
      rcases Nat.lt_or_ge c dst with hlt | hge
      · exact (store_of_lt mem [b] hlt).symm
      · refine (store_of_ge mem [b] ?_).symm
        rw [List.length_singleton]
        omega
  rw [hone]
  exact store_append mem dst [b] l

/-- **Bytes, one behind the other.** -/
theorem storeBytes_mirrors (hG : Storable G) (l : List UInt8) {dst : Nat} (h : Mirrors us G m mem)
    (hdst : ∀ i < l.length, G (dst + i)) :
    ∃ m', m.storeBytes dst l = .ok m' ∧ Mirrored us G m mem m' (store mem dst l) := by
  induction l generalizing m mem dst with
  | nil =>
    rw [store_nil]
    exact ⟨m, rfl, Mirrored.refl h⟩
  | cons b l ih =>
    rw [List.length_cons] at hdst
    obtain ⟨m₁, hone, g₁⟩ := storeByte_mirrors hG h (hdst 0 (Nat.succ_pos _)) b
    have hnext : ∀ i < l.length, G (dst + 1 + i) := fun i hi => by
      rw [Nat.add_assoc, Nat.add_comm 1 i]
      exact hdst (i + 1) (by omega)
    obtain ⟨m', hrest, g'⟩ := ih g₁.mirrors hnext
    rw [← store_cons]
    refine ⟨m', ?_, g₁.trans g'⟩
    rw [Nat.add_zero] at hone
    rw [Loader.storeBytes, hone]
    exact hrest

/-- a number -/
theorem Mirrors.read (h : Mirrors us G m mem) {w : Nat} (ha : ∀ i < w, G (a + i)) :
    m.read a w = .ok (readLe mem a w) := by
  have hfetch : m.fetch a w = some (fetch mem a w) := by
    refine fetch_spec (length_fetch mem a w) fun i hi => ?_
    rw [length_fetch] at hi
    rw [h.load _ (ha i hi), getElem_fetch]
  unfold Loader.read
  rw [hfetch]
  rfl

/-! ## the disk -/

/-- **`disk_read_raw`**, whatever the BIOS returns -/
theorem diskLoop_mirrors (hG : Storable G) (bios : Bios) (bootDrive buffer dap : Nat) (h : Mirrors us G m mem)
    (lba sectors : Nat) (hdst : ∀ i < 512 * sectors, G (dst + i)) :
    ∃ m', m.diskLoop bios bootDrive buffer dap dst lba sectors = .ok m' ∧
      Mirrored us G m mem m' (FuseeOS.diskLoop bios bootDrive buffer dap mem dst lba sectors) := by
  induction sectors using Nat.strong_induction_on generalizing m mem dst lba with
  | _ sectors ih =>
    rw [Loader.diskLoop, FuseeOS.diskLoop]
    by_cases h0 : sectors = 0
    · rw [dif_pos h0, dif_pos h0]
      exact ⟨m, rfl, Mirrored.refl h⟩
    · rw [dif_neg h0, dif_neg h0]
      dsimp only
      generalize hn : (if sectors > 8 then 8 else sectors) = n
      have hle : n ≤ sectors ∧ 1 ≤ n := by
        rw [← hn]
        split <;> omega
      generalize hread : (bios ⟨0x4200, bootDrive, dap % 2^32, 0⟩
        ⟨16, 0, n, buffer % 2^16, 0, lba &&& 0xffffffff, lba >>> 32⟩).take (n * 512) = read
      have hlen : read.length ≤ n * 512 := by
        rw [← hread, List.length_take]
        exact Nat.min_le_left _ _
      obtain ⟨m₁, hone, g₁⟩ := storeBytes_mirrors hG read h fun i hi => hdst i (by omega)
      have hnext : ∀ i < 512 * (sectors - n), G (dst + n * 512 + i) := fun i hi => by
        rw [Nat.add_assoc]
        exact hdst _ (by omega)
      obtain ⟨m', hrest, g'⟩ := ih (sectors - n) (by omega) g₁.mirrors ((lba + n) % 2^64) hnext
      refine ⟨m', ?_, g₁.trans g'⟩
      rw [hone]
      exact hrest

/-- a disk that stores the same bytes through the tables -/
def DiskMirrors (us : List BootMemRegion) (G : Nat → Prop) (disk : (Nat → UInt8) → Nat → Nat → Nat → (Nat → UInt8))
    (loaderDisk : Loader → Nat → Nat → Nat → Except LoadStop Loader) : Prop :=
  ∀ m mem dst lba sectors, Mirrors us G m mem → (∀ i < 512 * sectors, G (dst + i)) →
    ∃ m', loaderDisk m dst lba sectors = .ok m' ∧ Mirrored us G m mem m' (disk mem dst lba sectors)

theorem diskReadRaw_mirrors (hG : Storable G) (bios : Bios) (bootDrive buffer dap : Nat) (part : BootPartitionRecord) :
    DiskMirrors us G (diskReadRaw bios bootDrive buffer dap part)
      (fun m => m.diskReadRaw bios bootDrive buffer dap part) :=
  fun _ _ _ lba sectors h hdst =>
    diskLoop_mirrors hG bios bootDrive buffer dap h ((lba + part.lbaStart) % 2^64) sectors hdst

/-! ## the functions of `mfs.c` -/

variable {disk : (Nat → UInt8) → Nat → Nat → Nat → (Nat → UInt8)}
  {ldisk : Loader → Nat → Nat → Nat → Except LoadStop Loader}
  {gPages inode : Nat}

theorem mfsReadPage_mirrors (hd : DiskMirrors us G disk ldisk) (h : Mirrors us G m mem) {page : Nat}
    (hpage : ∀ i < 4096, G (page + i)) (inode : Nat) :
    ∃ m', m.mfsReadPage ldisk page inode = .ok m' ∧ Mirrored us G m mem m' (mfsReadPage disk mem page inode) :=
  hd m mem page _ _ h hpage

/-- the buffers `gPages[0]` and `gPages[1]` -/
def BuffersIn (G : Nat → Prop) (gPages : Nat) : Prop := ∀ i < 2 * 4096, G (gPages + i)

theorem BuffersIn.first (hb : BuffersIn G gPages) : ∀ i < 4096, G (gPages + i) := fun i hi => hb i (by omega)

theorem BuffersIn.second (hb : BuffersIn G gPages) : ∀ i < 4096, G (gPages + MFS_PAGE_SIZE + i) := fun i hi => by
  unfold MFS_PAGE_SIZE
  rw [Nat.add_assoc]
  exact hb _ (by omega)

/-- a field of a buffer -/
theorem BuffersIn.field (hb : BuffersIn G gPages) {off : Nat} (hoff : off + 8 ≤ 2 * 4096) :
    ∀ i < 8, G (gPages + off + i) := fun i hi => by
  rw [Nat.add_assoc]
  exact hb _ (by omega)

/-- **`mfs_file_size`.** -/
theorem mfsFileSize_mirrors (hd : DiskMirrors us G disk ldisk) (hb : BuffersIn G gPages) (h : Mirrors us G m mem)
    (inode : Nat) : ∃ m', m.mfsFileSize ldisk gPages inode = .ok ((mfsFileSize disk gPages mem inode).1, m') ∧
      Mirrored us G m mem m' (mfsFileSize disk gPages mem inode).2 := by
  obtain ⟨m', hpage, g⟩ := mfsReadPage_mirrors hd h hb.first inode
  have hsize := g.mirrors.read (hb.field (by decide : Mfs.size + 8 ≤ 2 * 4096))
  refine ⟨m', ?_, g⟩
  unfold Loader.mfsFileSize
  rw [hpage, ok_then, hsize, ok_then]
  rfl

/-- a round of the lookup reads only what is before `stop` -/
theorem memcmpUntil_congr {stop : Nat} {p : Nat} (s : List UInt8) (h : ∀ a, p ≤ a → a < stop → mem a = mem' a) :
    memcmpUntil mem stop s p = memcmpUntil mem' stop s p := by
  induction s generalizing p with
  | nil => rfl
  | cons b s ih =>
    rw [memcmpUntil, memcmpUntil]
    by_cases hp : p < stop
    · rw [if_pos hp, if_pos hp, h p (Nat.le_refl _) hp, ih fun a ha => h a (by omega)]
    · rw [if_neg hp, if_neg hp]

theorem mfsLookupLoop_congr {stop : Nat} (name : List UInt8) (namelen : Nat) {dir : Nat} (rounds : Nat)
    (h : ∀ a, dir ≤ a → a < stop → mem a = mem' a) :
    mfsLookupLoop mem stop name namelen dir rounds = mfsLookupLoop mem' stop name namelen dir rounds := by
  induction rounds generalizing dir with
  | zero => rfl
  | succ rounds ih =>
    rw [mfsLookupLoop, mfsLookupLoop]
    have h12 : Mfs.dirEntry = 12 := rfl
    by_cases hin : dir + Mfs.dirEntry ≤ stop
    · have hlen : readLe mem (dir + 8) 4 = readLe mem' (dir + 8) 4 := readLe_congr fun i _ => h _ (by omega) (by omega)
      have hinode : readLe mem dir 8 = readLe mem' dir 8 := readLe_congr fun i _ => h _ (by omega) (by omega)
      have hname := @memcmpUntil_congr mem mem' stop (dir + Mfs.dirEntry) (name.take namelen) fun a ha => h a (by omega)
      rw [if_pos hin, if_pos hin]
      dsimp only
      rw [hlen, hinode, hname, ih fun a ha => h a (by omega)]
    · rw [if_neg hin, if_neg hin]

/-- **`mfs_lookup_at`.** -/
theorem mfsLookupAt_mirrors (hd : DiskMirrors us G disk ldisk) (hb : BuffersIn G gPages) (h : Mirrors us G m mem)
    {name : List UInt8} {rounds found : Nat} (hf : (mfsLookupAt disk gPages mem inode name rounds).inode = some found) :
    ∃ m', m.mfsLookupAt ldisk gPages inode name rounds = .ok (found, m') ∧
      Mirrored us G m mem m' (lookedUp disk gPages mem inode) := by
  obtain ⟨m₁, hpage, g₁⟩ := mfsReadPage_mirrors hd h hb.first inode
  have hsize := g₁.mirrors.read (hb.field (by decide : Mfs.size + 8 ≤ 2 * 4096))
  have hdata := g₁.mirrors.read (hb.field (by decide : Mfs.data 0 + 8 ≤ 2 * 4096))
  obtain ⟨m', hpage', g'⟩ := mfsReadPage_mirrors hd g₁.mirrors hb.first
    (readLe (mfsReadPage disk mem gPages inode) (gPages + Mfs.data 0) 8)
  have hpagesize : MFS_PAGE_SIZE = 4096 := rfl
  refine ⟨m', ?_, g₁.trans g'⟩
  unfold Loader.mfsLookupAt
  rw [hpage, ok_then, hsize, ok_then, hdata, ok_then, hpage', ok_then]
  dsimp only
  rw [@mfsLookupLoop_congr _ (mfsReadPage disk (mfsReadPage disk mem gPages inode) gPages
    (readLe (mfsReadPage disk mem gPages inode) (gPages + Mfs.data 0) 8)) _ name _ _ rounds fun a ha hlt => ?_]
  · unfold mfsLookupAt at hf
    dsimp only at hf
    rw [hf]
    rfl
  · have hin : G a := by
      have hin := hb.first (a - gPages) (by omega)
      rwa [Nat.add_sub_cancel' ha] at hin
    rw [Loader.view, g'.mirrors.load a hin, Option.getD_some]

/-- the loop over pointers -/
theorem readSlots_mirrors (hd : DiskMirrors us G disk ldisk) {slots i n : Nat} (h : Mirrors us G m mem)
    (hslots : ∀ j, i ≤ j → j < i + n → ∀ k < 8, G (slots + 8 * j + k)) (hdst : ∀ k < 4096 * n, G (dst + k)) :
    ∃ m', m.readSlots ldisk slots dst i n = .ok (m', (readSlots disk mem slots dst i n).2) ∧
      Mirrored us G m mem m' (readSlots disk mem slots dst i n).1 := by
  induction n generalizing m mem dst i with
  | zero => exact ⟨m, rfl, Mirrored.refl h⟩
  | succ n ih =>
    have hpagesize : MFS_PAGE_SIZE = 4096 := rfl
    have hslot := h.read (hslots i (Nat.le_refl i) (by omega))
    obtain ⟨m₁, hpage, g₁⟩ := mfsReadPage_mirrors hd h (fun k hk => hdst k (by omega)) (readLe mem (slots + 8 * i) 8)
    have hslots' : ∀ j, i + 1 ≤ j → j < i + 1 + n → ∀ k < 8, G (slots + 8 * j + k) :=
      fun j hj hjn => hslots j (by omega) (by omega)
    have hdst' : ∀ k < 4096 * n, G (dst + MFS_PAGE_SIZE + k) := fun k hk => by
      rw [Nat.add_assoc]
      exact hdst _ (by omega)
    obtain ⟨m', hrest, g'⟩ := ih g₁.mirrors hslots' hdst'
    refine ⟨m', ?_, g₁.trans g'⟩
    rw [Loader.readSlots, hslot, ok_then, hpage, ok_then]
    exact hrest

theorem readSlots_dst (disk : (Nat → UInt8) → Nat → Nat → Nat → (Nat → UInt8)) (mem : Nat → UInt8)
    (slots dst i n : Nat) : (readSlots disk mem slots dst i n).2 = dst + 4096 * n := by
  induction n generalizing mem dst i with
  | zero => rfl
  | succ n ih =>
    have hpagesize : MFS_PAGE_SIZE = 4096 := rfl
    rw [readSlots, ih]
    omega

/-- number of pages that `mfs_read` reads -/
def pagesRead (size : Nat) : Nat := (size + MFS_PAGE_SIZE - 1) % 2^64 / MFS_PAGE_SIZE % 2^32

/-- **`mfs_read`**, of a file whose pages can be stored to -/
theorem mfsRead_mirrors (hd : DiskMirrors us G disk ldisk) (hb : BuffersIn G gPages) (h : Mirrors us G m mem)
    (hdst : ∀ k < 4096 * pagesRead (mfsFileSize disk gPages mem inode).1, G (dst + k)) :
    ∃ m', m.mfsRead ldisk gPages dst inode = .ok m' ∧ Mirrored us G m mem m' (mfsRead disk gPages mem dst inode) := by
  have hpagesize : MFS_PAGE_SIZE = 4096 := rfl
  have hptrs : MFS_DATA_POINTERS = 16 := rfl
  have hiptrs : MFS_IDATA_POINTERS = 512 := rfl
  obtain ⟨m₁, hsize, g₁⟩ := mfsFileSize_mirrors hd hb h inode
  unfold Loader.mfsRead mfsRead
  rw [hsize, ok_then]
  unfold pagesRead at hdst
  dsimp only
  generalize (mfsFileSize disk gPages mem inode).1 = size at hdst ⊢
  generalize (mfsFileSize disk gPages mem inode).2 = mem₁ at g₁ ⊢
  generalize (size + MFS_PAGE_SIZE - 1) % 2^64 / MFS_PAGE_SIZE % 2^32 = npages at hdst ⊢
  by_cases h0 : npages = 0
  · rw [if_pos h0, if_pos h0]
    exact ⟨m₁, rfl, g₁⟩
  rw [if_neg h0, if_neg h0]
  obtain ⟨m₂, hpage, g₂⟩ := mfsReadPage_mirrors hd g₁.mirrors hb.first inode
  rw [hpage, ok_then]
  generalize mfsReadPage disk mem₁ gPages inode = mem₂ at g₂ ⊢
  generalize htmp : (if npages > MFS_DATA_POINTERS then MFS_DATA_POINTERS else npages) = tmp
  have hle : tmp ≤ npages ∧ tmp ≤ 16 := by
    rw [← htmp, hptrs]
    split_ifs <;> omega
  have hdata0 : Mfs.data 0 = 56 := rfl
  have hslots : ∀ j, 0 ≤ j → j < 0 + tmp → ∀ k < 8, G (gPages + Mfs.data 0 + 8 * j + k) := fun j _ hj k hk => by
    rw [Nat.add_assoc, Nat.add_assoc]
    exact hb _ (by omega)
  have hdst₃ : ∀ k < 4096 * tmp, G (dst + k) := fun k hk => hdst k (by omega)
  obtain ⟨m₃, hdirect, g₃⟩ := readSlots_mirrors hd g₂.mirrors hslots hdst₃
  have hdirect' : m₂.mfsReadData ldisk gPages dst tmp = .ok (m₃, (mfsReadData disk gPages mem₂ dst tmp).2) := hdirect
  have g₁₃ := (g₁.trans g₂).trans g₃
  have hnext : (mfsReadData disk gPages mem₂ dst tmp).2 = dst + 4096 * tmp := readSlots_dst disk ..
  rw [hdirect', ok_then, hnext]
  have hmem₃ : (readSlots disk mem₂ (gPages + Mfs.data 0) dst 0 tmp).1 = (mfsReadData disk gPages mem₂ dst tmp).1 := rfl
  rw [hmem₃] at g₁₃ g₃
  generalize (mfsReadData disk gPages mem₂ dst tmp).1 = mem₃ at g₁₃ g₃ ⊢
  by_cases hend : npages - tmp = 0
  · rw [if_pos hend, if_pos hend]
    exact ⟨m₃, rfl, g₁₃⟩
  rw [if_neg hend, if_neg hend]
  have hidata := g₃.mirrors.read (hb.field (by decide : Mfs.idata + 8 ≤ 2 * 4096))
  obtain ⟨m₄, hpage₄, g₄⟩ := mfsReadPage_mirrors hd g₃.mirrors hb.second (readLe mem₃ (gPages + Mfs.idata) 8)
  rw [hidata, ok_then, hpage₄, ok_then]
  generalize htmp' : (if npages - tmp > MFS_IDATA_POINTERS then MFS_IDATA_POINTERS else npages - tmp) = tmp'
  have hle' : tmp' ≤ npages - tmp ∧ tmp' ≤ 512 := by
    rw [← htmp', hiptrs]
    split_ifs <;> omega
  have hinodes : Mfs.inodes 0 = 0 := rfl
  have hislots : ∀ j, 0 ≤ j → j < 0 + tmp' → ∀ k < 8, G (gPages + MFS_PAGE_SIZE + Mfs.inodes 0 + 8 * j + k) :=
    fun j _ hj k hk => by
      rw [hinodes, hpagesize, Nat.add_zero, Nat.add_assoc, Nat.add_assoc]
      exact hb _ (by omega)
  have hdst₅ : ∀ k < 4096 * tmp', G (dst + 4096 * tmp + k) := fun k hk => by
    rw [Nat.add_assoc]
    exact hdst _ (by omega)
  obtain ⟨m', hindirect, g'⟩ := readSlots_mirrors hd g₄.mirrors hislots hdst₅
  have hindirect' : m₄.mfsReadIdata ldisk gPages (dst + 4096 * tmp) tmp' =
      .ok (m', (mfsReadIdata disk gPages (mfsReadPage disk mem₃ (gPages + MFS_PAGE_SIZE)
        (readLe mem₃ (gPages + Mfs.idata) 8)) (dst + 4096 * tmp) tmp').2) := hindirect
  rw [hindirect', ok_then]
  exact ⟨m', rfl, (g₁₃.trans g₄).trans g'⟩

end

end FuseeOS
