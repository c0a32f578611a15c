import FuseeOS.Boot.Disk
import FuseeOS.Tools.VolumeRun

/-!
# Reading files of the volume

`mfs_file_size` and `mfs_read` of the bootloader read the pages of a file from the disk, the first 16 by
the pointers in its inode and the others by those in its page of indirect slots.

* `readPage_spec`     a page of the volume, where the disk is known to hold the volume (`DiskReads`);
* `diskReads_image`   it does with the image that `mkimage` makes of the volume;
* `readSlots_spec`    the loop over pointers;
* `mfsRead_spec`      a file of the store is read as whole pages;
* **`file_boot`**     a file is read as the tool wrote it, whatever the parts.
-/

namespace FuseeOS
open Bytes

/-! ## the code -/

section
variable (disk : (Nat → UInt8) → Nat → Nat → Nat → (Nat → UInt8)) (gPages : Nat)

-- `disk` is `disk_read_raw`, and `gPages` is the address of the buffers `gPages[4]`

def mfsReadPage (mem : Nat → UInt8) (page inode : Nat) : Nat → UInt8 :=
  disk mem page ((MFS_RESERVED_PAGES + inode) * 8 % 2^64) (MFS_PAGE_SIZE / 512)

/-- `gMetadata` is the address of the buffer of this name -/
def mfsInit (gMetadata : Nat) (mem : Nat → UInt8) : Nat → UInt8 :=
  disk mem gMetadata (MFS_METADATA_PAGE * 8) (MFS_PAGE_SIZE / 512)

def mfsFileSize (mem : Nat → UInt8) (inode : Nat) : Nat × (Nat → UInt8) :=
  let mem := mfsReadPage disk mem gPages inode
  (readLe mem (gPages + Mfs.size) 8, mem)

/-- the loop of `mfs_read_idata` and `mfs_read_data` from round `i` on, with `n` rounds to go; the pointers
are at `slots` -/
def readSlots (mem : Nat → UInt8) (slots dst i : Nat) : Nat → (Nat → UInt8) × Nat
  | 0 => (mem, dst)
  | n + 1 =>
    readSlots (mfsReadPage disk mem dst (readLe mem (slots + 8 * i) 8)) slots (dst + MFS_PAGE_SIZE) (i + 1) n

def mfsReadIdata (mem : Nat → UInt8) (dst count : Nat) : (Nat → UInt8) × Nat :=
  readSlots disk mem (gPages + MFS_PAGE_SIZE + Mfs.inodes 0) dst 0 count

def mfsReadData (mem : Nat → UInt8) (dst count : Nat) : (Nat → UInt8) × Nat :=
  readSlots disk mem (gPages + Mfs.data 0) dst 0 count

def mfsRead (mem : Nat → UInt8) (dst inode : Nat) : Nat → UInt8 :=
  let (size, mem) := mfsFileSize disk gPages mem inode
  let npages := (size + MFS_PAGE_SIZE - 1) % 2^64 / MFS_PAGE_SIZE % 2^32
  if npages = 0 then mem
  else
    let mem := mfsReadPage disk mem gPages inode
    let tmp := if npages > MFS_DATA_POINTERS then MFS_DATA_POINTERS else npages
    let (mem, dst) := mfsReadData disk gPages mem dst tmp
    let npages := npages - tmp
    if npages = 0 then mem
    else
      let mem := mfsReadPage disk mem (gPages + MFS_PAGE_SIZE) (readLe mem (gPages + Mfs.idata) 8)
      let tmp := if npages > MFS_IDATA_POINTERS then MFS_IDATA_POINTERS else npages
      (mfsReadIdata disk gPages mem dst tmp).1

end

/-! ## the disk -/

/-- the volume as the tool writes it to its file -/
def MfsVolume.bytes (v : MfsVolume) : List UInt8 :=
  fetch (fun p => v.pages (p / MFS_PAGE_SIZE) (p % MFS_PAGE_SIZE)) 0 v.size

/-- the disk reads sectors of the volume -/
def DiskReads (disk : (Nat → UInt8) → Nat → Nat → Nat → (Nat → UInt8)) (v : MfsVolume) : Prop :=
  ∀ mem dst lba sectors, 512 * (lba + sectors) ≤ v.size →
    Delivers mem (disk mem dst lba sectors) dst (sectorBytes v.bytes lba sectors)

section
variable {mem mem' mem'' : Nat → UInt8} {dst : Nat} {l r : List UInt8}

theorem Delivers.trans (h : Delivers mem mem' dst l) (h' : Delivers mem' mem'' (dst + l.length) r) :
    Delivers mem mem'' dst (l ++ r) := by
  refine ⟨holdsAt_append.2 ⟨fun i hi => ?_, h'.copied⟩, fun a ha => ?_⟩
  · rw [h'.kept _ (Or.inl (Nat.add_lt_add_left hi dst))]
    exact h.copied i hi
  · rw [List.length_append] at ha
    rw [h'.kept a (by omega), h.kept a (by omega)]

theorem Delivers.nil (mem : Nat → UInt8) (dst : Nat) : Delivers mem mem dst [] :=
  ⟨holdsAt_nil mem dst, fun _ _ => rfl⟩

/-- what is read beside the bytes that were delivered -/
theorem Delivers.readLe (h : Delivers mem mem' dst l) {a w : Nat} (ha : a + w ≤ dst ∨ dst + l.length ≤ a) :
    readLe mem' a w = readLe mem a w :=
  readLe_congr fun i hi => h.kept _ (by omega)

end

/-- the bytes of the page of an inode -/
def MfsVolume.pageBytes (v : MfsVolume) (q : Nat) : List UInt8 := fetch (v.inode q) 0 4096

theorem length_pageBytes (v : MfsVolume) (q : Nat) : (v.pageBytes q).length = 4096 := length_fetch ..

section
variable {v : MfsVolume} {disk : (Nat → UInt8) → Nat → Nat → Nat → (Nat → UInt8)} {gPages : Nat}

/-- the sectors of a page -/
theorem sectorBytes_page {n : Nat} (hn : n < v.pageCount) :
    sectorBytes v.bytes (8 * n) 8 = fetch (v.pages n) 0 4096 := by
  have hsize : v.pageCount = v.size / 4096 := rfl
  unfold sectorBytes MfsVolume.bytes
  apply List.ext_getElem
  · rw [List.length_take, List.length_drop, length_fetch, length_fetch]
    omega
  · intro i h1 h2
    rw [length_fetch] at h2
    have hdiv : (0 + (512 * (8 * n) + i)) / MFS_PAGE_SIZE = n := by
      unfold MFS_PAGE_SIZE
      omega
    have hmod : (0 + (512 * (8 * n) + i)) % MFS_PAGE_SIZE = 0 + i := by
      unfold MFS_PAGE_SIZE
      omega
    rw [List.getElem_take, List.getElem_drop, getElem_fetch, getElem_fetch, hdiv, hmod]

/-- **a page of the volume** -/
theorem readPage_spec (hd : DiskReads disk v) (mem : Nat → UInt8) (page : Nat) {q : Nat}
    (hq : 64 + q < v.pageCount) (hsmall : v.pageCount < 2^61) :
    Delivers mem (mfsReadPage disk mem page q) page (v.pageBytes q) := by
  have hsize : v.pageCount = v.size / 4096 := rfl
  have hlba : (MFS_RESERVED_PAGES + q) * 8 % 2^64 = 8 * (64 + q) := by
    unfold MFS_RESERVED_PAGES
    omega
  have hread := hd mem page (8 * (64 + q)) 8 (by omega)
  rw [sectorBytes_page hq] at hread
  unfold mfsReadPage
  rw [hlba]
  exact hread

/-- the fields of a page in memory -/
theorem readLe_fetched {mem : Nat → UInt8} {page : Nat} {pg : Page} (h : HoldsAt mem page (fetch pg 0 4096))
    {off : Nat} (hoff : off + 8 ≤ 4096) : readLe mem (page + off) 8 = get64 pg off := by
  have hb : ∀ i < 8, mem (page + off + i) = pg (off + i) := fun i hi => by
    have hat := h (off + i) (by rw [length_fetch]; omega)
    rw [Nat.add_assoc, hat, getElem_fetch, Nat.zero_add]
  have hfetch : fetch mem (page + off) 8 = fetch pg off 8 := by
    apply List.ext_getElem
    · rw [length_fetch, length_fetch]
    · intro i h1 h2
      rw [length_fetch] at h1
      rw [getElem_fetch, getElem_fetch, hb i h1]
  rw [get64, readLe, readLe, hfetch]

theorem readLe_page {mem : Nat → UInt8} {page : Nat} {q : Nat} (h : HoldsAt mem page (v.pageBytes q)) {off : Nat}
    (hoff : off + 8 ≤ 4096) : readLe mem (page + off) 8 = get64 (v.inode q) off :=
  readLe_fetched h hoff

/-- the pages that pointers point to -/
def filePages (v : MfsVolume) (q : Nat → Nat) (i : Nat) : Nat → List UInt8
  | 0 => []
  | n + 1 => v.pageBytes (q i) ++ filePages v q (i + 1) n

theorem length_filePages (v : MfsVolume) (q : Nat → Nat) (i n : Nat) : (filePages v q i n).length = 4096 * n := by
  induction n generalizing i with
  | zero => rfl
  | succ n ih =>
    rw [filePages, List.length_append, length_pageBytes, ih]
    omega

theorem filePages_add (v : MfsVolume) (q : Nat → Nat) (i m n : Nat) :
    filePages v q i (m + n) = filePages v q i m ++ filePages v q (i + m) n := by
  induction m generalizing i with
  | zero => rw [Nat.zero_add, Nat.add_zero, filePages, List.nil_append]
  | succ m ih =>
    have hn : m + 1 + n = m + n + 1 := by omega
    have hi : i + 1 + m = i + (m + 1) := by omega
    rw [hn, filePages, filePages, ih, List.append_assoc, hi]

/-- **the loop over pointers** -/
theorem readSlots_spec (hd : DiskReads disk v) (hsmall : v.pageCount < 2^61) (q : Nat → Nat) {slots i n dst : Nat}
    (mem : Nat → UInt8) (hslots : ∀ j, i ≤ j → j < i + n → readLe mem (slots + 8 * j) 8 = q j)
    (hq : ∀ j, i ≤ j → j < i + n → 64 + q j < v.pageCount)
    (hsep : slots + 8 * (i + n) ≤ dst ∨ dst + 4096 * n ≤ slots + 8 * i) :
    Delivers mem (readSlots disk mem slots dst i n).1 dst (filePages v q i n) ∧
      (readSlots disk mem slots dst i n).2 = dst + 4096 * n := by
  induction n generalizing mem dst i with
  | zero => exact ⟨Delivers.nil mem dst, rfl⟩
  | succ n ih =>
    have h1 := readPage_spec hd mem dst (hq i (Nat.le_refl i) (by omega)) hsmall
    have hlen := length_pageBytes v (q i)
    rw [readSlots, hslots i (Nat.le_refl i) (by omega)]
    have hrest := @ih (i + 1) (dst + MFS_PAGE_SIZE) (mfsReadPage disk mem dst (q i)) (fun j hj hjn => ?_)
      (fun j hj hjn => hq j (by omega) (by omega)) (by unfold MFS_PAGE_SIZE; omega)
    · refine ⟨h1.trans ?_, ?_⟩
      · rw [hlen]
        exact hrest.1
      · rw [hrest.2]
        unfold MFS_PAGE_SIZE
        omega
    · rw [h1.readLe (by rw [hlen]; omega)]
      exact hslots j (by omega) (by omega)

theorem filePages_shift (v : MfsVolume) (q : Nat → Nat) (m i n : Nat) :
    filePages v (fun j => q (m + j)) i n = filePages v q (m + i) n := by
  induction n generalizing i with
  | zero => rfl
  | succ n ih => rw [filePages, filePages, ih, Nat.add_assoc]

/-- the disk that has the image of the volume reads its sectors -/
theorem diskReads_image {mbr : List UInt8} (hm : mbr.length = 512) {c : Contents} (hv : Built v c)
    {bios : Bios} {bootDrive buffer dap : Nat} (hbios : BiosReads (mkimage mbr v.bytes) bootDrive buffer dap bios) :
    DiskReads (diskReadRaw bios bootDrive buffer dap (readRecord (partitionRecord 32768 v.bytes.length))) v := by
  obtain ⟨a, -, -, hmod, hpos, hlt⟩ := hv.stores
  have hlen : v.bytes.length = v.size := length_fetch ..
  intro mem dst lba sectors hin
  rw [← hlen] at hin
  exact mkimage_reads hm (List.ne_nil_of_length_pos (hlen ▸ hpos)) (by omega) (by omega) hbios mem dst hin

/-! ## files -/

theorem filePages_holds (v : MfsVolume) (q : Nat → Nat) (i n : Nat) :
    HoldsAt (fun p => v.inode (q (p / 4096)) (p % 4096)) (4096 * i) (filePages v q i n) := by
  induction n generalizing i with
  | zero => exact holdsAt_nil _ _
  | succ n ih =>
    have hnext : 4096 * i + (v.pageBytes (q i)).length = 4096 * (i + 1) := by
      rw [length_pageBytes]
      omega
    refine holdsAt_append.2 ⟨fun j hj => ?_, hnext ▸ ih (i + 1)⟩
    rw [length_pageBytes] at hj
    have hdiv : (4096 * i + j) / 4096 = i := by omega
    have hmod : (4096 * i + j) % 4096 = 0 + j := by omega
    dsimp only
    rw [hdiv, hmod]
    exact (getElem_fetch ..).symm

variable {a : FileStore} {f : Nat} {s : StoredFile}

/-- the bytes of a file are the first of its pages -/
theorem FileAt.pages (h : FileAt v f s) {n : Nat} (hn : s.content.length ≤ 4096 * n) :
    (filePages v (fun i => s.data.getD i 0) 0 n).take s.content.length = s.content := by
  have hcontent : HoldsAt (fun p => v.inode (s.data.getD (p / 4096) 0) (p % 4096)) (4096 * 0) s.content :=
    fun i hi => by
      rw [Nat.mul_zero, Nat.zero_add]
      exact h.bytes i hi
  have hpre := hcontent.isPrefix (filePages_holds v (fun i => s.data.getD i 0) 0 n)
    (by rw [length_filePages]; exact hn)
  exact (List.prefix_iff_eq_take.mp hpre).symm

/-- the list was read to `dst`, and apart from it only the two buffers have changed -/
structure ReadTo (gPages dst : Nat) (l : List UInt8) (mem mem' : Nat → UInt8) : Prop where
  copied : HoldsAt mem' dst l
  kept : ∀ p, p < dst ∨ dst + l.length ≤ p → p < gPages ∨ gPages + 2 * 4096 ≤ p → mem' p = mem p

theorem mfsFileSize_spec (hd : DiskReads disk v) (hsmall : v.pageCount < 2^61) (h : Refines v a)
    (hf : a.file f = some s) (mem : Nat → UInt8) :
    (mfsFileSize disk gPages mem f).1 = s.content.length ∧
      Delivers mem (mfsFileSize disk gPages mem f).2 gPages (v.pageBytes f) := by
  have hpage := readPage_spec hd mem gPages (h.inside (h.shape f s hf).ownsInode) hsmall
  refine ⟨?_, hpage⟩
  exact (readLe_page hpage.copied (by decide)).trans (h.file f s hf).size

/-- the direct pointers of a file, in the first buffer -/
theorem readData_spec (hd : DiskReads disk v) (hsmall : v.pageCount < 2^61) (h : Refines v a)
    (hf : a.file f = some s) {mem : Nat → UInt8} (hbuf : HoldsAt mem gPages (v.pageBytes f)) {dst n : Nat}
    (h16 : n ≤ 16) (hn : n ≤ s.data.length) (hsep : dst + 4096 * n ≤ gPages ∨ gPages + 2 * 4096 ≤ dst) :
    Delivers mem (mfsReadData disk gPages mem dst n).1 dst (filePages v (fun i => s.data.getD i 0) 0 n) ∧
      (mfsReadData disk gPages mem dst n).2 = dst + 4096 * n := by
  have hdata : Mfs.data 0 = 56 := rfl
  refine readSlots_spec hd hsmall _ mem (fun j _ hj => ?_) (fun j _ hj => ?_) (by omega)
  · have hoff : gPages + Mfs.data 0 + 8 * j = gPages + Mfs.data j := by
      unfold Mfs.data
      omega
    rw [hoff, readLe_page hbuf (by unfold Mfs.data; omega)]
    exact (h.file f s hf).data j (by omega)
  · exact h.inside ((h.shape f s hf).data_owned (by omega : j < s.data.length))

/-- the indirect pointers of a file, in the second buffer -/
theorem readIdata_spec (hd : DiskReads disk v) (hsmall : v.pageCount < 2^61) (h : Refines v a)
    (hf : a.file f = some s) {mem : Nat → UInt8} (hind : s.indirect ≠ 0)
    (hbuf : HoldsAt mem (gPages + 4096) (v.pageBytes s.indirect)) {dst n : Nat}
    (hn : 16 + n ≤ s.data.length) (hsep : dst + 4096 * n ≤ gPages ∨ gPages + 2 * 4096 ≤ dst) :
    Delivers mem (mfsReadIdata disk gPages mem dst n).1 dst (filePages v (fun i => s.data.getD i 0) 16 n) := by
  have hs := h.shape f s hf
  have hfew := hs.few
  have hinodes : ∀ j, Mfs.inodes j = 8 * j := fun j => rfl
  have hpagesize : MFS_PAGE_SIZE = 4096 := rfl
  rw [← filePages_shift v (fun i => s.data.getD i 0) 16 0 n]
  refine (readSlots_spec hd hsmall (fun j => s.data.getD (16 + j) 0) mem (fun j _ hj => ?_) (fun j _ hj => ?_) ?_).1
  · have hoff : gPages + MFS_PAGE_SIZE + Mfs.inodes 0 + 8 * j = gPages + 4096 + Mfs.inodes j := by
      rw [hinodes, hinodes, hpagesize]
    rw [hoff, readLe_page hbuf (by rw [hinodes]; omega)]
    exact (h.file f s hf).inodes hind j (by omega)
  · exact h.inside (hs.data_owned (by omega : 16 + j < s.data.length))
  · rw [hinodes, hpagesize]
    omega

/-- a piece behind another, both outside of the buffers -/
theorem ReadTo.append {dst : Nat} {l l' : List UInt8} {mem mem1 mem2 : Nat → UInt8}
    (h : ReadTo gPages dst l mem mem1) (h' : ReadTo gPages (dst + l.length) l' mem1 mem2)
    (hsep : dst + l.length ≤ gPages ∨ gPages + 2 * 4096 ≤ dst) : ReadTo gPages dst (l ++ l') mem mem2 := by
  refine ⟨holdsAt_append.2 ⟨fun i hi => ?_, h'.copied⟩, fun p hp hout => ?_⟩
  · rw [h'.kept _ (by omega) (by omega)]
    exact h.copied i hi
  · rw [List.length_append] at hp
    rw [h'.kept p (by omega) hout, h.kept p (by omega) hout]

/-- the part behind the direct pointers: the page of the indirect slots is read first -/
theorem readIndirect_spec (hd : DiskReads disk v) (hsmall : v.pageCount < 2^61) (h : Refines v a)
    (hf : a.file f = some s) {mem : Nat → UInt8} {dst n : Nat} (hn : 16 + n ≤ s.data.length) (hpos : n ≠ 0)
    (hsep : dst + 4096 * n ≤ gPages ∨ gPages + 2 * 4096 ≤ dst) :
    ReadTo gPages dst (filePages v (fun i => s.data.getD i 0) 16 n) mem
      (mfsReadIdata disk gPages (mfsReadPage disk mem (gPages + 4096) s.indirect) dst n).1 := by
  have hs := h.shape f s hf
  have hind := hs.indirect (by omega)
  have hbuf := readPage_spec hd mem (gPages + 4096) (h.inside (hs.ownsIndirect hind)) hsmall
  have hlen := length_pageBytes v s.indirect
  have hidata := readIdata_spec hd hsmall h hf hind hbuf.copied hn hsep
  exact ⟨hidata.copied, fun p hp hout => (hidata.kept p hp).trans (hbuf.kept p (by omega))⟩

/-- **A file of the store is read as whole pages.** -/
theorem mfsRead_spec (hd : DiskReads disk v) (hsmall : v.pageCount < 2^61) (h : Refines v a)
    (hf : a.file f = some s) (mem : Nat → UInt8) {dst : Nat}
    (hsep : dst + 4096 * ((s.content.length + 4095) / 4096) ≤ gPages ∨ gPages + 2 * 4096 ≤ dst) :
    ReadTo gPages dst (filePages v (fun i => s.data.getD i 0) 0 ((s.content.length + 4095) / 4096)) mem
      (mfsRead disk gPages mem dst f) := by
  have hs := h.shape f s hf
  have hfew := hs.few
  have hpages := hs.pages
  have hsizes : (mfsFileSize disk gPages mem f).1 = s.content.length ∧
      Delivers mem (mfsFileSize disk gPages mem f).2 gPages (v.pageBytes f) :=
    mfsFileSize_spec hd hsmall h hf mem
  obtain ⟨hsize, hbuf0⟩ := hsizes
  have hcount : (s.content.length + MFS_PAGE_SIZE - 1) % 2^64 / MFS_PAGE_SIZE % 2^32 =
      (s.content.length + 4095) / 4096 := by
    unfold MFS_PAGE_SIZE
    omega
  have hlt : (s.content.length + 4095) / 4096 ≤ s.data.length := by omega
  unfold mfsRead
  dsimp only
  rw [hsize, hcount]
  generalize (mfsFileSize disk gPages mem f).2 = mem1 at hbuf0 ⊢
  generalize (s.content.length + 4095) / 4096 = k at hsep hlt ⊢
  have hlen := length_pageBytes v f
  by_cases h0 : k = 0
  · rw [if_pos h0, h0]
    exact ⟨holdsAt_nil _ _, fun p _ hp => hbuf0.kept p (by omega)⟩
  rw [if_neg h0]
  -- the page of the inode is read once more
  have hbuf := readPage_spec hd mem1 gPages (h.inside hs.ownsInode) hsmall
  generalize mfsReadPage disk mem1 gPages f = mem2 at hbuf ⊢
  have hptrs : MFS_DATA_POINTERS = 16 := rfl
  have hiptrs : MFS_IDATA_POINTERS = 512 := rfl
  have hpagesize : MFS_PAGE_SIZE = 4096 := rfl
  generalize htmp : (if k > MFS_DATA_POINTERS then MFS_DATA_POINTERS else k) = tmp
  have htmp16 : tmp = min k 16 := by
    rw [← htmp, hptrs]
    split_ifs <;> omega
  obtain ⟨hdata, hdst⟩ := readData_spec hd hsmall h hf hbuf.copied (by omega : tmp ≤ 16) (by omega)
    (by omega : dst + 4096 * tmp ≤ gPages ∨ gPages + 2 * 4096 ≤ dst)
  have hdirect : ReadTo gPages dst (filePages v (fun i => s.data.getD i 0) 0 tmp) mem
      (mfsReadData disk gPages mem2 dst tmp).1 := by
    refine ⟨hdata.copied, fun p hp hout => ?_⟩
    rw [hdata.kept p hp, hbuf.kept p (by omega), hbuf0.kept p (by omega)]
  rw [hdst]
  generalize (mfsReadData disk gPages mem2 dst tmp).1 = mem3 at hdata hdirect ⊢
  have hlen1 := length_filePages v (fun i => s.data.getD i 0) 0 tmp
  by_cases hend : k - tmp = 0
  · have hk : tmp = k := by omega
    rw [if_pos hend, ← hk]
    exact hdirect
  rw [if_neg hend]
  have ht : tmp = 16 := by omega
  have hmin : (if k - tmp > MFS_IDATA_POINTERS then MFS_IDATA_POINTERS else k - tmp) = k - tmp := by
    rw [hiptrs, if_neg (by omega)]
  -- the pointer to the indirect slots is still in the first buffer
  have hidata : readLe mem3 (gPages + Mfs.idata) 8 = s.indirect := by
    have hoff : Mfs.idata = 184 := rfl
    rw [hdata.readLe (by rw [hoff]; omega), readLe_page hbuf.copied (by decide)]
    exact (h.file f s hf).idata
  have hsplit : filePages v (fun i => s.data.getD i 0) 0 k =
      filePages v (fun i => s.data.getD i 0) 0 tmp ++ filePages v (fun i => s.data.getD i 0) 16 (k - tmp) := by
    have hk : k = tmp + (k - tmp) := by omega
    conv_lhs => rw [hk]
    rw [filePages_add, Nat.zero_add, ht]
  rw [hidata, hmin, hpagesize, hsplit]
  refine hdirect.append ?_ (by omega)
  rw [hlen1]
  exact readIndirect_spec hd hsmall h hf (by omega : 16 + (k - tmp) ≤ s.data.length) hend (by omega)

end

/-- **A file is read as the tool wrote it**, whatever the parts: its size, and as many whole pages as it
takes. -/
theorem file_boot {v v0 v1 : MfsVolume} {c : Contents} {mode p : Nat} (hv : Built v c)
    (hp : createFileRaw v mode = .ok (p, v0)) (chunks : List (List UInt8)) {g : MfsFile}
    (hw : writeAll v0 ⟨64 + p, 0⟩ chunks = .ok (g, v1))
    {disk : (Nat → UInt8) → Nat → Nat → Nat → (Nat → UInt8)} (hd : DiskReads disk v1) (mem : Nat → UInt8)
    {gPages dst : Nat} (hsep : dst + 4096 * ((chunks.flatten.length + 4095) / 4096) ≤ gPages ∨
      gPages + 2 * 4096 ≤ dst) :
    (mfsFileSize disk gPages mem p).1 = chunks.flatten.length ∧
      ∃ l, l.length = 4096 * ((chunks.flatten.length + 4095) / 4096) ∧
        l.take chunks.flatten.length = chunks.flatten ∧
        ReadTo gPages dst l mem (mfsRead disk gPages mem dst p) := by
  obtain ⟨a, ⟨hr, -, hsize⟩, hf, -⟩ := hv.fresh hp
  have hall : writeAll v0 ⟨64 + p, 0⟩ chunks = fileWrite v0 ⟨64 + p, 0⟩ chunks.flatten := writeAll_eq hr hf chunks
  rw [hall] at hw
  obtain ⟨t, b, -, hb, hk, ht, hc, -⟩ :=
    (fileWrite_simulates hr hf chunks.flatten).of_ok (append_ne_stray _ _ _ _) hw
  have hc' : t.content = chunks.flatten := hc
  have hsmall : v1.pageCount < 2^61 := by
    have hpage : MFS_PAGE_SIZE = 4096 := rfl
    rw [MfsVolume.pageCount, hk.size, hpage]
    omega
  rw [← hc'] at hsep ⊢
  refine ⟨(mfsFileSize_spec hd hsmall hb ht mem).1, _, length_filePages .., ?_, mfsRead_spec hd hsmall hb ht mem hsep⟩
  exact (hb.file p t ht).pages (by omega)

/-- the disk that gives the sectors of the volume -/
def volumeDisk (v : MfsVolume) (mem : Nat → UInt8) (dst lba sectors : Nat) : Nat → UInt8 :=
  store mem dst (sectorBytes v.bytes lba sectors)

theorem diskReads_volume (v : MfsVolume) : DiskReads (volumeDisk v) v := fun mem dst lba n _ =>
  ⟨holdsAt_store _ _ _, fun q hq => by
    rcases hq with hlt | hge
    · exact store_of_lt _ _ hlt
    · exact store_of_ge _ _ hge⟩

/-- a file of three bytes, from a disk that gives the sectors of the volume -/
theorem file_boot_three : ∃ v1 l, l.length = 4096 ∧ l.take 3 = [97, 98, 99] ∧
    ReadTo 0x8000 0x100000 l (fun _ => 0) (mfsRead (volumeDisk v1) 0x8000 (fun _ => 0) 0x100000 2) := by
  obtain ⟨v, c, v0, hv, hp, hcount⟩ := small_volume
  obtain ⟨a, hst, hf, hnext⟩ := hv.fresh hp
  have hwrite := @writeAll_fresh v0 a 2 hst.refines hf hnext [[97, 98], [99]] (by decide)
  rw [hcount, if_pos (by decide)] at hwrite
  obtain ⟨v1, b, t, hw, -⟩ := hwrite
  obtain ⟨-, l, hlen, htake, hread⟩ := file_boot hv hp _ hw (diskReads_volume v1) (fun _ => 0)
    (Or.inr (by decide : 0x8000 + 2 * 4096 ≤ 0x100000))
  exact ⟨v1, l, hlen, htake, hread⟩

end FuseeOS
