import FuseeOS.Tools.MkImage

/-!
# Reading the disk image

`disk_read_raw` of the bootloader asks the BIOS for at most eight sectors at a time and copies
them to their destination.  The BIOS is a parameter (`BiosReads`).

* `diskLoop_eq`: the loop copies the addressed sectors;
* **`disk_image`**: what `mkimage` writes and what `disk_read_raw` reads agree.
-/

namespace FuseeOS
open Bytes

structure DiskAccessPacket where
  size : Nat
  zero : Nat
  transferSize : Nat
  dstOffset : Nat
  dstSegment : Nat
  lbaLo : Nat
  lbaHi : Nat
deriving DecidableEq, Repr

/-- the registers that the disk services look at -/
structure BiosArgs where
  eax : Nat
  edx : Nat
  esi : Nat
  es : Nat
deriving DecidableEq, Repr

/-- `int 0x13`: the bytes that the call stores at the packet's destination -/
abbrev Bios := BiosArgs → DiskAccessPacket → List UInt8

/-- the first sector that a packet asks for -/
def DiskAccessPacket.lba (dap : DiskAccessPacket) : Nat := dap.lbaHi * 2^32 + dap.lbaLo

section
variable (bios : Bios) (bootDrive buffer dap : Nat)

/-- the `while` loop; `buffer` and `dap` are the addresses of the local variables -/
def diskLoop (mem : Nat → UInt8) (dst lba sectors : Nat) : Nat → UInt8 :=
  if _h : sectors = 0 then mem
  else
    let nsectors := if sectors > 8 then 8 else sectors
    let packet : DiskAccessPacket :=
      ⟨16, 0, nsectors, buffer % 2^16, 0, lba &&& 0xffffffff, lba >>> 32⟩
    let read := bios ⟨0x4200, bootDrive, dap % 2^32, 0⟩ packet
    diskLoop (store mem dst (read.take (nsectors * 512))) (dst + nsectors * 512)
      ((lba + nsectors) % 2^64) (sectors - nsectors)
termination_by sectors
decreasing_by
  split <;> omega

def diskReadRaw (part : BootPartitionRecord) (mem : Nat → UInt8) (dst lba sectors : Nat) :
    Nat → UInt8 :=
  diskLoop bios bootDrive buffer dap mem dst ((lba + part.lbaStart) % 2^64) sectors

end

/-- The BIOS reads the addressed sectors of the image into the buffer, eight or fewer at a time, for the packet at
`es:esi`.  Buffer and packet are on the stack, which `_start.S` puts below `0x7c00`: real mode reaches them through
segment 0. -/
structure BiosReads (image : List UInt8) (bootDrive buffer dap : Nat) (bios : Bios) : Prop where
  buffer_low : buffer + 4096 ≤ 2^16
  dap_low : dap + 16 ≤ 2^16
  reads : ∀ (args : BiosArgs) (packet : DiskAccessPacket), args.eax = 0x4200 → args.edx = bootDrive →
    args.es = 0 → args.esi = dap → packet.size = 16 → packet.zero = 0 → packet.dstSegment = 0 →
    packet.dstOffset = buffer → 1 ≤ packet.transferSize → packet.transferSize ≤ 8 →
    512 * (packet.lba + packet.transferSize) ≤ image.length →
    bios args packet = (image.drop (512 * packet.lba)).take (512 * packet.transferSize)

/-- the bytes of a range of sectors -/
def sectorBytes (disk : List UInt8) (lba sectors : Nat) : List UInt8 :=
  (disk.drop (512 * lba)).take (512 * sectors)

theorem length_sectorBytes {disk : List UInt8} {lba sectors : Nat}
    (h : 512 * (lba + sectors) ≤ disk.length) :
    (sectorBytes disk lba sectors).length = 512 * sectors := by
  rw [sectorBytes, List.length_take, List.length_drop]
  omega

theorem sectorBytes_add (disk : List UInt8) (lba m n : Nat) :
    sectorBytes disk lba (m + n) = sectorBytes disk lba m ++ sectorBytes disk (lba + m) n := by
  unfold sectorBytes
  rw [Nat.mul_add, List.take_add, List.drop_drop, Nat.mul_add]

theorem lba_halves (lba : Nat) : (lba >>> 32) * 2^32 + (lba &&& 0xffffffff) = lba := by
  have h := Nat.and_two_pow_sub_one_eq_mod lba 32
  simp only [Nat.reducePow, Nat.reduceSub] at h
  rw [h, Nat.shiftRight_eq_div_pow]
  omega

/-- **the loop copies the addressed sectors** -/
theorem diskLoop_eq {image : List UInt8} {bootDrive buffer dap : Nat} {bios : Bios}
    (hbios : BiosReads image bootDrive buffer dap bios) (mem : Nat → UInt8)
    (dst lba sectors : Nat) (hin : 512 * (lba + sectors) ≤ image.length)
    (hlba : lba + sectors < 2^64) :
    diskLoop bios bootDrive buffer dap mem dst lba sectors
      = store mem dst (sectorBytes image lba sectors) := by
  induction sectors using Nat.strong_induction_on generalizing mem dst lba with
  | _ sectors ih =>
    rw [diskLoop]
    by_cases h0 : sectors = 0
    · subst h0
      rw [dif_pos rfl, sectorBytes, Nat.mul_zero, List.take_zero, store_nil]
    · rw [dif_neg h0]
      dsimp only
      generalize hn : (if sectors > 8 then 8 else sectors) = n
      have hle : n ≤ sectors ∧ 1 ≤ n ∧ n ≤ 8 := by
        rw [← hn]
        split <;> omega
      have hbuffer := hbios.buffer_low
      have hdap := hbios.dap_low
      have hread := hbios.reads ⟨0x4200, bootDrive, dap % 2^32, 0⟩
        ⟨16, 0, n, buffer % 2^16, 0, lba &&& 0xffffffff, lba >>> 32⟩ rfl rfl rfl
        (Nat.mod_eq_of_lt (by omega)) rfl rfl rfl (Nat.mod_eq_of_lt (by omega)) hle.2.1 hle.2.2
      unfold DiskAccessPacket.lba at hread
      dsimp only at hread
      rw [lba_halves] at hread
      have hsum : sectors = n + (sectors - n) := by omega
      have hfit : 512 * (lba + n) ≤ image.length := by omega
      have hnext : (lba + n) % 2^64 = lba + n := Nat.mod_eq_of_lt (by omega)
      have hrest := ih (sectors - n) (by omega) (store mem dst (sectorBytes image lba n))
        (dst + 512 * n) (lba + n) (by omega) (by omega)
      rw [hread hfit, Nat.mul_comm n 512, List.take_take, Nat.min_self, hnext]
      rw [sectorBytes] at hrest
      rw [hrest]
      conv_rhs => rw [hsum, sectorBytes_add, ← store_append, length_sectorBytes hfit]
      rfl

/-! ## the round trip -/

/-- what a disk image with the MBR and the volume has to look like -/
structure ImageRight (mbr volume image : List UInt8) (part : BootPartitionRecord) : Prop where
  kept : ∀ i < 512, i < 0x1be ∨ 0x1ce ≤ i → image[i]? = mbr[i]?
  record : part = readRecord ((image.drop 0x1be).take 16)
  behind : 512 ≤ 512 * part.lbaStart
  size : 512 * part.lbaSize = volume.length
  content : (image.drop (512 * part.lbaStart)).take volume.length = volume
  zero : ∀ i < image.length, 512 ≤ i →
    i < 512 * part.lbaStart ∨ 512 * part.lbaStart + volume.length ≤ i → image[i]? = some 0

/-- `mem'` is `mem` with the list copied to `dst` -/
structure Delivers (mem mem' : Nat → UInt8) (dst : Nat) (l : List UInt8) : Prop where
  copied : HoldsAt mem' dst l
  kept : ∀ a, a < dst ∨ dst + l.length ≤ a → mem' a = mem a

theorem getElem?_append_mid {β : Type} (a b c : List β) {i : Nat} (h1 : a.length ≤ i)
    (h2 : i < a.length + b.length) : (a ++ (b ++ c))[i]? = b[i - a.length]? := by
  rw [List.getElem?_append_right h1, List.getElem?_append_left (by omega)]

theorem mkimage_right {mbr volume : List UInt8} (hm : mbr.length = 512)
    (hv : volume.length % 512 = 0) (hsize : volume.length / 512 < 2^32) :
    ImageRight mbr volume (mkimage mbr volume)
      (readRecord (partitionRecord 32768 volume.length)) := by
  obtain ⟨n, himage⟩ := mkimage_eq hm hv
  have hbase : 32768 / 512 < 2^32 := by decide
  obtain ⟨hstart, hcount⟩ := record_lba hbase hsize
  have hhead : (mbr.take 0x1be).length = 446 := by
    rw [List.length_take, hm]
    rfl
  have htail : (mbr.drop 0x1ce).length = 50 := by
    rw [List.length_drop, hm]
  have hrec := length_record 32768 volume.length
  rw [himage]
  generalize partitionRecord 32768 volume.length = record at *
  refine ⟨fun i hi hout => ?_, ?_, ?_, ?_, ?_, fun i hi h512 hout => ?_⟩
  · rcases hout with hlt | hge
    · rw [List.getElem?_append_left (by omega), List.getElem?_take_of_lt hlt]
    · rw [List.getElem?_append_right (by omega), getElem?_append_mid _ _ _ (by omega) (by omega),
        List.getElem?_drop, hhead, hrec]
      have hidx : 0x1ce + (i - 446 - 16) = i := by omega
      rw [hidx]
  · rw [List.drop_left' hhead, List.take_left' hrec]
  · rw [hstart]
    decide
  · rw [hcount]
    omega
  · rw [hstart]
    rw [← List.append_assoc, ← List.append_assoc, ← List.append_assoc, List.drop_left',
      List.take_left]
    simp only [List.length_append, hhead, hrec, htail, List.length_replicate]
  · rw [hstart] at hout
    simp only [List.length_append, hhead, hrec, htail, List.length_replicate] at hi
    rw [List.getElem?_append_right (by omega), List.getElem?_append_right (by omega),
      List.getElem?_append_right (by omega), hhead, hrec, htail]
    rcases hout with hlt | hge
    · rw [List.getElem?_append_left (by rw [List.length_replicate]; omega),
        List.getElem?_replicate_of_lt (by omega)]
    · rw [List.getElem?_append_right (by rw [List.length_replicate]; omega), List.length_replicate,
        List.getElem?_append_right (by omega), List.getElem?_replicate_of_lt (by omega)]

/-- sectors of the volume are sectors of the image -/
theorem ImageRight.sectors {mbr volume image : List UInt8} {part : BootPartitionRecord}
    (h : ImageRight mbr volume image part) {lba sectors : Nat}
    (hin : 512 * (lba + sectors) ≤ volume.length) :
    sectorBytes image (lba + part.lbaStart) sectors = sectorBytes volume lba sectors := by
  unfold sectorBytes
  conv_rhs => rw [← h.content]
  rw [List.drop_take, List.take_take, List.drop_drop, Nat.min_eq_left (by omega)]
  congr 2
  ring

theorem ImageRight.length_le {mbr volume image : List UInt8} {part : BootPartitionRecord}
    (h : ImageRight mbr volume image part) (h0 : volume ≠ []) :
    512 * part.lbaStart + volume.length ≤ image.length := by
  have hlen := congrArg List.length h.content
  have hpos := List.length_pos_of_ne_nil h0
  rw [List.length_take, List.length_drop] at hlen
  omega

/-- reading sectors of the partition of an image delivers the volume's bytes -/
theorem mkimage_reads {mbr volume : List UInt8} (hm : mbr.length = 512) (h0 : volume ≠ [])
    (hv : volume.length % 512 = 0) (hsize : volume.length / 512 < 2^32) {bios : Bios} {bootDrive buffer dap : Nat}
    (hbios : BiosReads (mkimage mbr volume) bootDrive buffer dap bios) (mem : Nat → UInt8) (dst : Nat)
    {lba sectors : Nat} (hin : 512 * (lba + sectors) ≤ volume.length) :
    Delivers mem (diskReadRaw bios bootDrive buffer dap (readRecord (partitionRecord 32768 volume.length))
      mem dst lba sectors) dst (sectorBytes volume lba sectors) := by
  have hright := mkimage_right hm hv hsize
  have hbase : 32768 / 512 < 2^32 := by decide
  have hstart := (record_lba hbase hsize).1
  have hfit := hright.length_le h0
  generalize readRecord (partitionRecord 32768 volume.length) = part at hright hstart hfit ⊢
  have hread := diskLoop_eq hbios mem dst (lba + part.lbaStart) sectors (by omega)
    (by omega)
  rw [hright.sectors hin] at hread
  rw [diskReadRaw, Nat.mod_eq_of_lt (by omega), hread]
  refine ⟨holdsAt_store _ _ _, fun a ha => ?_⟩
  rcases ha with hlt | hge
  · exact store_of_lt _ _ hlt
  · exact store_of_ge _ _ hge

/-- **the image agrees with what is read from it**: the partition record names the volume, the
rest of the MBR is kept, all else is zero, and reading sectors of the partition delivers the
volume's bytes -/
theorem disk_image {mbr volume : List UInt8} (hm : mbr.length = 512) (h0 : volume ≠ [])
    (hv : volume.length % 512 = 0) (hsize : volume.length / 512 < 2^32) :
    ∃ part, ImageRight mbr volume (mkimage mbr volume) part ∧
      ∀ (bios : Bios) (bootDrive buffer dap : Nat), BiosReads (mkimage mbr volume) bootDrive buffer dap bios →
      ∀ (mem : Nat → UInt8) (dst lba sectors : Nat),
        512 * (lba + sectors) ≤ volume.length →
        Delivers mem (diskReadRaw bios bootDrive buffer dap part mem dst lba sectors) dst
          (sectorBytes volume lba sectors) :=
  ⟨_, mkimage_right hm hv hsize, fun _ _ _ _ hbios mem dst _ _ hin =>
    mkimage_reads hm h0 hv hsize hbios mem dst hin⟩

/-- the BIOS that reads the image -/
def imageBios (image : List UInt8) : Bios := fun _ dap =>
  sectorBytes image dap.lba dap.transferSize

theorem imageBios_reads (image : List UInt8) (bootDrive : Nat) :
    BiosReads image bootDrive 0x6000 0x5ff0 (imageBios image) :=
  ⟨by decide, by decide, fun _ _ _ _ _ _ _ _ _ _ _ _ _ => rfl⟩

theorem disk_image_lone : ∃ part mbr volume, ImageRight mbr volume (mkimage mbr volume) part ∧
    Delivers (fun _ => 0) (diskReadRaw (imageBios (mkimage mbr volume)) 0x80 0x6000 0x5ff0 part
      (fun _ => 0) 0x100000 0 1) 0x100000 (List.replicate 512 7) := by
  obtain ⟨part, hright, hread⟩ := @disk_image (List.replicate 512 1) (List.replicate 512 7)
    List.length_replicate (List.cons_ne_nil _ _)
    (by rw [List.length_replicate]) (by rw [List.length_replicate]; decide)
  refine ⟨part, _, _, hright, ?_⟩
  have h := hread (imageBios _) 0x80 0x6000 0x5ff0 (imageBios_reads _ _) (fun _ => 0) 0x100000 0 1
    (by rw [List.length_replicate])
  rw [sectorBytes, Nat.mul_zero, List.drop_zero,
    List.take_of_length_le (by rw [List.length_replicate])] at h
  exact h

end FuseeOS
