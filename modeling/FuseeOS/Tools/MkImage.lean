import FuseeOS.Lib.Bytes
import FuseeOS.Lib.File

/-!
# The disk image builder

`tools/mkimage.c`: the MBR padded to 64 sectors, the volume behind it, its partition record
patched into the MBR, and the whole padded to a cylinder.

* `append_eq`, `pad_eq`: appending and padding at the end of a file;
* `partitionRecord`, `record_lba`: the record as it is written, and what is read from it;
* **`record_chs`**: the CHS fields decode to the sectors of the volume;
* **`mkimage_eq`**: the image of an MBR and a volume.
-/

namespace FuseeOS
open Bytes

def BUFFERSIZE : Nat := 4096
def MAX_SECTORS : Nat := 63
def MAX_HEADS : Nat := 256

def pad (f : CFile) (amount : Nat) : CFile :=
  let n := f.ftell % amount
  if n = 0 then f else (f.seekCur (amount - n - 1)).fwrite [0]

/-- the loop of `append` on the rest `src` of the file that is read -/
def appendLoop (dst : CFile) (totalSize : Nat) (src : List UInt8) : CFile × Nat :=
  let buffer := src.take BUFFERSIZE
  if _h : buffer.length = 0 then (dst, totalSize)
  else appendLoop (dst.fwrite buffer) (totalSize + buffer.length) (src.drop BUFFERSIZE)
termination_by src.length
decreasing_by
  rw [List.length_take] at _h
  rw [List.length_drop]
  unfold BUFFERSIZE at _h ⊢
  omega

def append (dst : CFile) (src : List UInt8) : CFile × Nat := appendLoop dst 0 src

def makeMBR (dst : CFile) (mbr : List UInt8) : CFile := pad (append dst mbr).1 (512 * 64)

/-- cylinder, head and sector of a byte position, each cut to an `int` -/
def toChs (lba : Nat) : Nat × Nat × Nat :=
  (lba / (512 * 63 * 128) % 2^32, lba / (512 * 63) % 128, lba / 512 % 63 + 1)

/-- the sixteen bytes of `record` for a volume of `size` bytes at `base` -/
def partitionRecord (base size : Nat) : List UInt8 :=
  let (cyl, head, sec) := toChs base
  let (cyl', head', sec') := toChs (base + size - 512)
  let lba := base / 512
  let n := size / 512
  [0x80,
    UInt8.ofNat head, UInt8.ofNat ((sec &&& 0x3f) ||| ((cyl >>> 2) &&& 0xc0)), UInt8.ofNat cyl,
    0x60,
    UInt8.ofNat head', UInt8.ofNat ((sec' &&& 0x3f) ||| ((cyl' >>> 2) &&& 0xc0)), UInt8.ofNat cyl',
    UInt8.ofNat (lba &&& 0xff), UInt8.ofNat ((lba >>> 8) &&& 0xff),
    UInt8.ofNat ((lba >>> 16) &&& 0xff), UInt8.ofNat ((lba >>> 24) &&& 0xff),
    UInt8.ofNat (n &&& 0xff), UInt8.ofNat ((n >>> 8) &&& 0xff),
    UInt8.ofNat ((n >>> 16) &&& 0xff), UInt8.ofNat ((n >>> 24) &&& 0xff)]

def addVolume (dst : CFile) (volume : List UInt8) : CFile :=
  let base := dst.ftell
  let (dst, size) := append dst volume
  let dst := pad dst 512
  let tmp := dst.ftell
  let dst := (dst.seekSet 0x1be).fwrite (partitionRecord base size)
  dst.seekSet tmp

/-- the file that `main` writes -/
def mkimage (mbr volume : List UInt8) : List UInt8 :=
  (pad (addVolume (makeMBR CFile.empty mbr) volume) (512 * MAX_SECTORS * MAX_HEADS)).bytes

/-! ## appending and padding -/

theorem appendLoop_eq (l : List UInt8) (total : Nat) (src : List UInt8) :
    appendLoop (CFile.ofBytes l) total src
      = (CFile.ofBytes (l ++ src), total + src.length) := by
  induction hn : src.length using Nat.strong_induction_on generalizing l total src with
  | _ n ih =>
    rw [appendLoop]
    by_cases h0 : (src.take BUFFERSIZE).length = 0
    · have hsrc : src = [] := by
        rw [List.length_take] at h0
        unfold BUFFERSIZE at h0
        exact List.eq_nil_of_length_eq_zero (by omega)
      subst hsrc
      subst hn
      rw [dif_pos h0, List.append_nil]
      rfl
    · have hlen : (src.drop BUFFERSIZE).length < n := by
        rw [List.length_take] at h0
        rw [List.length_drop]
        unfold BUFFERSIZE at h0 ⊢
        omega
      have hsum := congrArg List.length (List.take_append_drop BUFFERSIZE src)
      rw [List.length_append] at hsum
      rw [dif_neg h0, CFile.fwrite_ofBytes, ih _ hlen _ _ _ rfl, List.append_assoc,
        List.take_append_drop, Nat.add_assoc, hsum, hn]

theorem append_eq (l src : List UInt8) :
    append (CFile.ofBytes l) src = (CFile.ofBytes (l ++ src), src.length) := by
  rw [append, appendLoop_eq, Nat.zero_add]

/-- the zero bytes that fill up to a multiple of `amount` -/
def padding (amount n : Nat) : List UInt8 :=
  if n % amount = 0 then [] else List.replicate (amount - n % amount) 0

theorem pad_eq (l : List UInt8) {amount : Nat} (ha : 0 < amount) :
    pad (CFile.ofBytes l) amount = CFile.ofBytes (l ++ padding amount l.length) := by
  have hlt := Nat.mod_lt l.length ha
  unfold pad padding CFile.ftell CFile.ofBytes
  dsimp only
  by_cases h0 : l.length % amount = 0
  · rw [if_pos h0, if_pos h0, List.append_nil]
  · have hgap : amount - l.length % amount = amount - l.length % amount - 1 + 1 := by omega
    have hhole := CFile.fwrite_hole l [0] (amount - l.length % amount - 1) (List.cons_ne_nil _ _)
    rw [← List.replicate_succ', ← hgap] at hhole
    rw [if_neg h0, if_neg h0]
    exact hhole

/-! ## the record -/

theorem length_record (base size : Nat) : (partitionRecord base size).length = 16 := rfl

/-- the four bytes of a number as the record has them -/
theorem le_four (n : Nat) : [UInt8.ofNat (n &&& 0xff), UInt8.ofNat ((n >>> 8) &&& 0xff),
    UInt8.ofNat ((n >>> 16) &&& 0xff), UInt8.ofNat ((n >>> 24) &&& 0xff)] = le 4 n := by
  have hand : ∀ k : Nat, UInt8.ofNat (k &&& 0xff) = UInt8.ofNat k := by
    intro k
    apply UInt8.toNat_inj.1
    have h := Nat.and_two_pow_sub_one_eq_mod k 8
    simp only [Nat.reducePow, Nat.reduceSub] at h
    rw [h]
    simp
  simp only [le, hand, Nat.shiftRight_eq_div_pow, Nat.div_div_eq_div_mul, Nat.reducePow,
    Nat.reduceMul]

/-- `uint8_t unused[8]`, then `lba_start` and `lba_size` -/
structure BootPartitionRecord where
  unused : List UInt8
  lbaStart : Nat
  lbaSize : Nat
deriving DecidableEq, Repr

/-- the record in sixteen bytes -/
def readRecord (l : List UInt8) : BootPartitionRecord where
  unused := l.take 8
  lbaStart := ofLe ((l.drop 8).take 4)
  lbaSize := ofLe ((l.drop 12).take 4)

theorem record_lba {base size : Nat} (hb : base / 512 < 2^32) (hs : size / 512 < 2^32) :
    (readRecord (partitionRecord base size)).lbaStart = base / 512 ∧
      (readRecord (partitionRecord base size)).lbaSize = size / 512 := by
  have h1 : ((partitionRecord base size).drop 8).take 4 = le 4 (base / 512) :=
    Eq.trans rfl (le_four (base / 512))
  have h2 : ((partitionRecord base size).drop 12).take 4 = le 4 (size / 512) :=
    Eq.trans rfl (le_four (size / 512))
  unfold readRecord
  dsimp only
  rw [h1, h2, ofLe_le_of_lt (by omega), ofLe_le_of_lt (by omega)]
  exact ⟨rfl, rfl⟩

/-! ## cylinders, heads and sectors -/

/-- the sector that the three bytes `head`, `sector`, `cylinder` of a CHS field stand for: 63 sectors and 128
heads per cylinder, the two high bits of the cylinder above the sector -/
def chsSector (head sector cylinder : UInt8) : Nat :=
  ((cylinder.toNat + 256 * (sector.toNat / 64)) * 128 + head.toNat) * 63 + sector.toNat % 64 - 1

/-- the CHS field in the bytes of `record` from `k` on -/
def chsField (record : List UInt8) (k : Nat) : Nat :=
  chsSector (record.getD k 0) (record.getD (k + 1) 0) (record.getD (k + 2) 0)

/-- the sector and the high bits of the cylinder share a byte -/
theorem toNat_sector {sec cyl : Nat} (hs : sec < 64) (hc : cyl < 1024) :
    (UInt8.ofNat ((sec &&& 0x3f) ||| ((cyl >>> 2) &&& 0xc0))).toNat = 64 * (cyl / 256) + sec := by
  have hlow : sec &&& 0x3f = sec := by
    have hmod := Nat.and_two_pow_sub_one_eq_mod sec 6
    rwa [Nat.mod_eq_of_lt hs] at hmod
  have hand : ∀ x < 256, x &&& 0xc0 = 64 * (x / 64) := by decide +kernel
  have hhigh : (cyl >>> 2) &&& 0xc0 = 2^6 * (cyl / 256) := by
    rw [Nat.shiftRight_eq_div_pow, hand _ (by omega)]
    omega
  have hor := Nat.two_pow_add_eq_or_of_lt (show sec < 2^6 from hs) (cyl / 256)
  rw [hlow, hhigh, Nat.or_comm, ← hor, UInt8.toNat_ofNat']
  omega

/-- **A CHS field** stands for the sector that it is made of. -/
theorem chsSector_toChs {lba : Nat} (h : lba / (512 * 63 * 128) < 1024) :
    chsSector (UInt8.ofNat (toChs lba).2.1)
      (UInt8.ofNat (((toChs lba).2.2 &&& 0x3f) ||| (((toChs lba).1 >>> 2) &&& 0xc0)))
      (UInt8.ofNat (toChs lba).1) = lba / 512 := by
  unfold toChs chsSector
  dsimp only
  have hq : lba / (512 * 63 * 128) = lba / 512 / 63 / 128 := by
    rw [Nat.div_div_eq_div_mul, Nat.div_div_eq_div_mul]
  have hh : lba / (512 * 63) = lba / 512 / 63 := by
    rw [Nat.div_div_eq_div_mul]
  rw [hq] at h ⊢
  rw [hh]
  obtain ⟨q, hq⟩ : ∃ q, q = lba / 512 := ⟨_, rfl⟩
  rw [← hq] at h ⊢
  rw [Nat.mod_eq_of_lt (show q / 63 / 128 < 2^32 by omega), toNat_sector (by omega) h, UInt8.toNat_ofNat',
    UInt8.toNat_ofNat']
  omega

theorem sector_byte {lba : Nat} (h : lba / (512 * 63 * 128) < 1024) :
    1 ≤ (UInt8.ofNat (((toChs lba).2.2 &&& 0x3f) ||| (((toChs lba).1 >>> 2) &&& 0xc0))).toNat % 64 := by
  unfold toChs
  dsimp only
  rw [Nat.mod_eq_of_lt (show lba / (512 * 63 * 128) < 2^32 by omega), toNat_sector (by omega) h]
  omega

/-- the record that `add_volume` writes into a file -/
theorem addVolume_record {l volume : List UInt8} (hl : 512 ≤ l.length) (hl512 : l.length % 512 = 0)
    (hv : volume.length % 512 = 0) :
    ((addVolume (CFile.ofBytes l) volume).bytes.drop 0x1be).take 16 =
      partitionRecord l.length volume.length := by
  have hpad : padding 512 (l ++ volume).length = [] := by
    rw [List.length_append, padding, if_pos (by omega)]
  have hlen := length_record l.length volume.length
  have hat : ((l ++ volume).take 0x1be).length = 0x1be := by
    rw [List.length_take, List.length_append]
    omega
  unfold addVolume
  rw [append_eq]
  dsimp only
  rw [pad_eq _ (by decide), hpad, List.append_nil]
  unfold CFile.ftell CFile.seekSet CFile.ofBytes
  dsimp only
  rw [CFile.bytes_fwrite (by rw [hlen, List.length_append]; omega), List.drop_left' hat, List.take_left' hlen]

/-- **The CHS fields of a partition record** decode to the first and the last sector of the volume. -/
theorem record_chs {l volume : List UInt8} (hl : l.length ≠ 0) (hl512 : l.length % 512 = 0)
    (hv : volume.length ≠ 0) (hv512 : volume.length % 512 = 0)
    (hcyl : (l.length + volume.length - 512) / (512 * 63 * 128) < 1024) :
    ∃ record, ((addVolume (CFile.ofBytes l) volume).bytes.drop 0x1be).take 16 = record ∧
      chsField record 1 = l.length / 512 ∧
      chsField record 5 = (l.length + volume.length) / 512 - 1 ∧
      1 ≤ (record.getD 2 0).toNat % 64 ∧ 1 ≤ (record.getD 6 0).toNat % 64 := by
  have hfirst : l.length / (512 * 63 * 128) < 1024 := by omega
  refine ⟨_, addVolume_record (by omega) hl512 hv512, chsSector_toChs hfirst, ?_, sector_byte hfirst,
    sector_byte hcyl⟩
  have hlast : (l.length + volume.length - 512) / 512 = (l.length + volume.length) / 512 - 1 := by omega
  exact (chsSector_toChs hcyl).trans hlast

/-- `n` sectors of zeros -/
def zeroSectors (n : Nat) : List UInt8 := List.replicate (512 * n) 0

/-- a volume of two sectors behind one -/
theorem record_chs_small : ∃ record,
    ((addVolume (CFile.ofBytes (zeroSectors 1)) (zeroSectors 2)).bytes.drop 0x1be).take 16 = record ∧
      chsField record 1 = (zeroSectors 1).length / 512 ∧
      chsField record 5 = ((zeroSectors 1).length + (zeroSectors 2).length) / 512 - 1 ∧
      1 ≤ (record.getD 2 0).toNat % 64 ∧ 1 ≤ (record.getD 6 0).toNat % 64 := by
  have hlen : ∀ n, (zeroSectors n).length = 512 * n := fun n => List.length_replicate
  refine record_chs ?_ ?_ ?_ ?_ ?_ <;> simp only [hlen] <;> decide

/-! ## the image -/

theorem makeMBR_eq {mbr : List UInt8} (hm : mbr.length = 512) :
    makeMBR CFile.empty mbr = CFile.ofBytes (mbr ++ List.replicate 32256 0) := by
  rw [makeMBR, CFile.empty_eq, append_eq, pad_eq _ (by decide), List.nil_append, hm]
  rfl

/-- the record is written into the MBR, and the position restored -/
theorem addVolume_eq {mbr volume : List UInt8} (hm : mbr.length = 512)
    (hv : volume.length % 512 = 0) :
    addVolume (CFile.ofBytes (mbr ++ List.replicate 32256 0)) volume
      = CFile.ofBytes (mbr.take 0x1be ++ (partitionRecord 32768 volume.length
          ++ (mbr.drop 0x1ce ++ (List.replicate 32256 0 ++ volume)))) := by
  have hbase : (mbr ++ List.replicate 32256 (0 : UInt8)).length = 32768 := by
    rw [List.length_append, List.length_replicate, hm]
  have hpad : padding 512 (mbr ++ List.replicate 32256 (0 : UInt8) ++ volume).length = [] := by
    rw [List.length_append, hbase, padding, if_pos (by omega)]
  have hsplit : mbr ++ List.replicate 32256 0 ++ volume
      = mbr.take 0x1be ++ ((mbr.drop 0x1be).take 16
          ++ (mbr.drop 0x1ce ++ (List.replicate 32256 0 ++ volume))) := by
    have h := List.take_append_drop 16 (mbr.drop 0x1be)
    rw [List.drop_drop] at h
    rw [← List.append_assoc _ (mbr.drop 0x1ce), h, ← List.append_assoc, List.take_append_drop,
      List.append_assoc]
  have hat : (mbr.take 0x1be).length = 0x1be := by
    rw [List.length_take, hm]
    rfl
  have hold : (partitionRecord 32768 volume.length).length = ((mbr.drop 0x1be).take 16).length := by
    rw [length_record, List.length_take, List.length_drop, hm]
    rfl
  have hwrite := CFile.fwrite_inside (mbr.take 0x1be) ((mbr.drop 0x1be).take 16)
    (mbr.drop 0x1ce ++ (List.replicate 32256 0 ++ volume)) hold
  rw [← hsplit, hat] at hwrite
  unfold addVolume
  rw [append_eq]
  dsimp only
  rw [pad_eq _ (by decide), hpad, List.append_nil]
  have hlen : (mbr.take 0x1be ++ (partitionRecord 32768 volume.length
      ++ (mbr.drop 0x1ce ++ (List.replicate 32256 0 ++ volume)))).length
      = (mbr ++ List.replicate 32256 0 ++ volume).length := by
    rw [hsplit]
    simp only [List.length_append, hold]
  unfold CFile.ftell CFile.seekSet CFile.ofBytes
  dsimp only
  rw [hbase, hwrite, hlen]

/-- **the image**: the MBR with the record of the volume in it, zeros up to sector 64, the volume,
zeros up to a cylinder -/
theorem mkimage_eq {mbr volume : List UInt8} (hm : mbr.length = 512)
    (hv : volume.length % 512 = 0) :
    ∃ n, mkimage mbr volume = mbr.take 0x1be ++ (partitionRecord 32768 volume.length
      ++ (mbr.drop 0x1ce ++ (List.replicate 32256 0 ++ (volume ++ List.replicate n 0)))) := by
  have hzeros : ∀ k m, ∃ n, padding k m = List.replicate n 0 := by
    intro k m
    unfold padding
    split
    · exact ⟨0, rfl⟩
    · exact ⟨_, rfl⟩
  rw [mkimage, makeMBR_eq hm, addVolume_eq hm hv, pad_eq _ (by decide)]
  obtain ⟨n, hn⟩ := hzeros (512 * MAX_SECTORS * MAX_HEADS)
    (mbr.take 0x1be ++ (partitionRecord 32768 volume.length
      ++ (mbr.drop 0x1ce ++ (List.replicate 32256 0 ++ volume)))).length
  rw [hn]
  refine ⟨n, ?_⟩
  unfold CFile.ofBytes
  simp only [List.append_assoc]

end FuseeOS
