import FuseeOS.Lib.Bytes
import Mathlib.Logic.Function.Basic

/-!
# The volume builder

`tools/mkvolume.c`: pages are handed out one after the other (`allocPage`), a file has its pages in 16
direct slots and one page of indirect slots (`ptrFromDataIndex`), and directories are files of entries.

* `fileWrite`, `fileRead`      the streams of files;
* `findFileDir`, `appendDir`   directories;
* `mkvolume`                   the volume that the tool writes.
-/

namespace FuseeOS
open Bytes

abbrev MFS_PAGE_SIZE : Nat := 4096
abbrev MFS_RESERVED_PAGES : Nat := 64
abbrev MFS_METADATA_PAGE : Nat := 63
abbrev MFS_BITMAP_SIZE : Nat := MFS_PAGE_SIZE * 8
abbrev MFS_DATA_POINTERS : Nat := 16
abbrev MFS_IDATA_POINTERS : Nat := MFS_PAGE_SIZE / 8
abbrev MFS_TYPE_FILE : Nat := 0x00000000
abbrev MFS_TYPE_DIR : Nat := 0x00010000

/-- `"Meow"` -/
def MFS_MAGIC : List UInt8 := [77, 101, 111, 119]

/-! ## where the fields are in a page -/

namespace Mfs
abbrev version : Nat := 4
abbrev pageCount : Nat := 8
abbrev root : Nat := 16
abbrev mode : Nat := 0
abbrev size : Nat := 16
abbrev btime : Nat := 24
abbrev atime : Nat := 32
abbrev ctime : Nat := 40
abbrev mtime : Nat := 48
/-- `data[i]` -/
abbrev data (i : Nat) : Nat := 56 + 8 * i
abbrev idata : Nat := 184
/-- `inodes[i]` -/
abbrev inodes (i : Nat) : Nat := 8 * i
/-- `sizeof(MfsDirEntry)` -/
abbrev dirEntry : Nat := 12
end Mfs

abbrev Page : Type := Nat → UInt8

/-- a 64-bit field -/
def get64 (page : Page) (off : Nat) : Nat := readLe page off 8

/-- what a part of the volume is written for -/
inductive Writer where
  | metadata | vbr | files
deriving DecidableEq, Repr

/-- `written` is not in the source: it says which pages have been written, and for what -/
structure MfsVolume where
  size : Nat
  pages : Nat → Page
  now : Nat
  root : Nat
  nextInode : Nat
  written : Writer → Nat → Bool

/-- `file` is the number of the page that the pointer `file` points to -/
structure MfsFile where
  file : Nat
  pos : Nat
deriving DecidableEq, Repr

/-- how the tool can stop -/
inductive Failure where
  /-- the message `Unsupported: file too large`, and `exit(1)` -/
  | tooLarge (volume : MfsVolume)
  /-- an access outside the volume or outside a local buffer, or the use of what was never set -/
  | undefined

/-- a result and the volume after it -/
abbrev Outcome (α : Type) : Type := Except Failure (α × MfsVolume)

/-- `meta->page_count` -/
def MfsVolume.pageCount (v : MfsVolume) : Nat := v.size / MFS_PAGE_SIZE

/-- writes bytes into page `n` -/
def MfsVolume.put (v : MfsVolume) (w : Writer) (n off : Nat) (l : List UInt8) : MfsVolume :=
  { v with
    pages := Function.update v.pages n (store (v.pages n) off l)
    written := fun w' n' => v.written w' n' || (decide (w' = w) && decide (n' = n)) }

/-- the number of the page; it is used at once, so it has to be in the volume -/
def inodePage (v : MfsVolume) (inode : Nat) : Except Failure Nat :=
  if (MFS_RESERVED_PAGES + inode) % 2^64 < v.pageCount then .ok ((MFS_RESERVED_PAGES + inode) % 2^64)
  else .error .undefined

/-- the number behind `n` that is not that of a bitmap page -/
def nextPage (n : Nat) : Nat := if (n + 1) % MFS_BITMAP_SIZE = 0 then n + 2 else n + 1

def allocPage (v : MfsVolume) : Outcome Nat :=
  let next := nextPage v.nextInode
  let bit := next % MFS_BITMAP_SIZE
  let bitmap := next / MFS_BITMAP_SIZE * MFS_BITMAP_SIZE
  (inodePage v bitmap).bind fun n =>
    let byte := v.pages n (bit / 8) ||| 1 <<< UInt8.ofNat (bit % 8)
    .ok (next, { v with nextInode := next }.put .files n (bit / 8) [byte])

def inodeOpen (v : MfsVolume) (inode : Nat) : Except Failure MfsFile :=
  (inodePage v inode).bind fun n => .ok ⟨n, 0⟩

/-- the pointer at `off` of page `n`; where it is 0 a page is allocated for it -/
def pointerOrAlloc (v : MfsVolume) (n off : Nat) : Outcome Nat :=
  let inode := get64 (v.pages n) off
  if inode = 0 then (allocPage v).bind fun (inode, v) => .ok (inode, v.put .files n off (le 8 inode))
  else .ok (inode, v)

/-- the page that the pointer points to, whether it is new or not -/
def pointerPage (v : MfsVolume) (n off : Nat) : Outcome Nat :=
  (pointerOrAlloc v n off).bind fun (inode, v) => (inodePage v inode).bind fun m => .ok (m, v)

def ptrFromDataIndex (v : MfsVolume) (file index : Nat) : Outcome Nat :=
  if index < 16 then pointerPage v file (Mfs.data index)
  else if index < MFS_IDATA_POINTERS + 16 then
    (pointerPage v file Mfs.idata).bind fun (page, v) => pointerPage v page (Mfs.inodes (index - 16))
  else .error (.tooLarge v)

/-- the bytes that were read; their number is the result in C.  Behind the end `tmp` wraps. -/
def fileRead (v : MfsVolume) (f : MfsFile) (len : Nat) : Outcome (List UInt8 × MfsFile) :=
  if len = 0 ∨ f.pos = get64 (v.pages f.file) Mfs.size then .ok (([], f), v)
  else
    (ptrFromDataIndex v f.file (f.pos / MFS_PAGE_SIZE)).bind fun (src, v) =>
      let size := get64 (v.pages f.file) Mfs.size
      if size < f.pos then .error .undefined
      else
        let tmp := min (min (MFS_PAGE_SIZE - f.pos % MFS_PAGE_SIZE) len) (size - f.pos)
        if _h : tmp = 0 then .ok (([], f), v)
        else
          let bytes := fetch (v.pages src) (f.pos % MFS_PAGE_SIZE) tmp
          (fileRead v ⟨f.file, f.pos + tmp⟩ (len - tmp)).bind fun ((rest, f), v) =>
            .ok ((bytes ++ rest, f), v)
termination_by len
decreasing_by
  have := _h
  omega

/-- one round of the loop of `file_write`; all of `buf` is for one page -/
def writeChunk (v : MfsVolume) (f : MfsFile) (buf : List UInt8) : Outcome MfsFile :=
  (ptrFromDataIndex v f.file (f.pos / MFS_PAGE_SIZE)).bind fun (dst, v) =>
    let v := v.put .files dst (f.pos % MFS_PAGE_SIZE) buf
    let size := get64 (v.pages f.file) Mfs.size + buf.length
    .ok (⟨f.file, f.pos + buf.length⟩, v.put .files f.file Mfs.size (le 8 size))

/-- the result in C is the length of `buf` -/
def fileWrite (v : MfsVolume) (f : MfsFile) (buf : List UInt8) : Outcome MfsFile :=
  if _h : buf = [] then .ok (f, v)
  else
    let tmp := min (MFS_PAGE_SIZE - f.pos % MFS_PAGE_SIZE) buf.length
    (writeChunk v f (buf.take tmp)).bind fun (g, v) => fileWrite v g (buf.drop tmp)
termination_by buf.length
decreasing_by
  have hpos : 0 < buf.length := List.length_pos_iff.mpr _h
  have hoff : f.pos % MFS_PAGE_SIZE < MFS_PAGE_SIZE := Nat.mod_lt _ (by decide)
  rw [List.length_drop]
  omega

/-! ## files and directories -/

def createFileRaw (v : MfsVolume) (mode : Nat) : Outcome Nat :=
  (allocPage v).bind fun (inode, v) =>
    (inodePage v inode).bind fun n =>
      .ok (inode, ((((v.put .files n Mfs.mode (le 4 mode)).put .files n Mfs.btime (le 8 v.now)).put
        .files n Mfs.atime (le 8 v.now)).put .files n Mfs.ctime (le 8 v.now)).put
        .files n Mfs.mtime (le 8 v.now))

def createDirectory (v : MfsVolume) : Outcome Nat := createFileRaw v (MFS_TYPE_DIR ||| 0o755)

def createFile (v : MfsVolume) : Outcome Nat := createFileRaw v (MFS_TYPE_FILE ||| 0o644)

/-- the local variables of `find_file_dir`; `none` where nothing was written yet -/
structure DirScan where
  entry : Option (List UInt8)
  namebuf : List (Option UInt8)

def DirScan.start : DirScan := ⟨none, List.replicate 1024 none⟩

/-- reads an entry over the last one; what is not overwritten stays -/
def DirScan.readEntry (s : DirScan) (bytes : List UInt8) : Option (List UInt8) :=
  if bytes.length = Mfs.dirEntry then some bytes
  else s.entry.map fun old => bytes ++ old.drop bytes.length

/-- `strncmp(.., .., n) == 0`, where the characters are known; the second string is with its NUL -/
def strncmpEq : List (Option UInt8) → List UInt8 → Nat → Option Bool
  | _, _, 0 => some true
  | some a :: s1, b :: s2, n + 1 =>
    if a ≠ b then some false else if a = 0 then some true else strncmpEq s1 s2 n
  | _, _, _ + 1 => none

/-- the end of a round of the loop: the scan goes on, or `entry.inode` is returned -/
def DirScan.compare (entry bytes name : List UInt8) (namebuf : List (Option UInt8)) :
    Except Failure (DirScan ⊕ Nat) :=
  if 1024 < bytes.length then .error .undefined
  else
    let namebuf := bytes.map some ++ namebuf.drop bytes.length
    match strncmpEq namebuf (name ++ [0]) (readLe (memOf 0 entry) 8 4) with
    | none => .error .undefined
    | some true => .ok (.inr (readLe (memOf 0 entry) 0 8))
    | some false => .ok (.inl ⟨some entry, namebuf⟩)

/-- the loop of `find_file_dir`, which ends within as many rounds as the directory has bytes -/
def findLoop (v : MfsVolume) (f : MfsFile) (name : List UInt8) (s : DirScan) : Nat → Outcome Nat
  | 0 => .error .undefined
  | fuel + 1 =>
    if f.pos = get64 (v.pages f.file) Mfs.size then .ok (0, v)
    else
      (fileRead v f Mfs.dirEntry).bind fun ((bytes, f), v) =>
        match s.readEntry bytes with
        | none => .error .undefined
        | some entry =>
          (fileRead v f (readLe (memOf 0 entry) 8 4)).bind fun ((bytes, f), v) =>
            (DirScan.compare entry bytes name s.namebuf).bind fun
              | .inr inode => .ok (inode, v)
              | .inl s => findLoop v f name s fuel

def findFileDir (v : MfsVolume) (dirInode : Nat) (name : List UInt8) : Outcome Nat :=
  (inodeOpen v dirInode).bind fun f =>
    findLoop v f name .start (get64 (v.pages f.file) Mfs.size + 1)

/-- the bytes of an `MfsDirEntry`, without the name -/
def dirEntryBytes (inode namelen : Nat) : List UInt8 := le 8 inode ++ le 4 namelen

def appendDir (v : MfsVolume) (dirInode : Nat) (name : List UInt8) (fileInode : Nat) : Outcome Unit :=
  (inodeOpen v dirInode).bind fun f =>
    let f := { f with pos := get64 (v.pages f.file) Mfs.size }
    (fileWrite v f (dirEntryBytes fileInode name.length)).bind fun (f, v) =>
      (fileWrite v f name).bind fun (_, v) => .ok ((), v)

/-! ## the tool -/

/-- `size` is positive, and rounding it up does not overflow; `now` is the time -/
def makeVolume (size now : Nat) : Outcome Unit :=
  let size := (size + MFS_PAGE_SIZE - 1) / MFS_PAGE_SIZE * MFS_PAGE_SIZE
  let v : MfsVolume := ⟨size, fun _ _ => 0, now, 0, 0, fun _ _ => false⟩
  if v.pageCount ≤ MFS_METADATA_PAGE then .error .undefined
  else
    let v := ((v.put .metadata MFS_METADATA_PAGE 0 MFS_MAGIC).put .metadata MFS_METADATA_PAGE Mfs.version
      (le 4 0x01000000)).put .metadata MFS_METADATA_PAGE Mfs.pageCount (le 8 (size / MFS_PAGE_SIZE))
    (createDirectory v).bind fun (root, v) =>
      .ok ((), { v.put .metadata MFS_METADATA_PAGE Mfs.root (le 8 root) with root := root })

/-- the loop of `make_vbr`: `fread` fills a page, or gives what is left; `n` is the page of `dst` -/
def vbrLoop (v : MfsVolume) (n : Nat) (src : List UInt8) : Outcome Unit :=
  if _h : src = [] then .ok ((), v)
  else if n < v.pageCount then
    vbrLoop (v.put .vbr n 0 (src.take MFS_PAGE_SIZE)) (n + 1) (src.drop MFS_PAGE_SIZE)
  else .error .undefined
termination_by src.length
decreasing_by
  have hpos : 0 < src.length := List.length_pos_iff.mpr _h
  have hsize : 0 < MFS_PAGE_SIZE := by decide
  rw [List.length_drop]
  omega

def makeVbr (v : MfsVolume) (src : List UInt8) : Outcome Unit := vbrLoop v 0 src

def SLASH : UInt8 := 47

/-- the directory `name` in the given one, created if it is not found -/
def enterDir (v : MfsVolume) (dirInode : Nat) (name : List UInt8) : Outcome Nat :=
  (findFileDir v dirInode name).bind fun (tmp, v) =>
    if tmp = 0 then
      (createDirectory v).bind fun (tmp, v) =>
        (appendDir v dirInode name tmp).bind fun (_, v) => .ok (tmp, v)
    else .ok (tmp, v)

/-- the loop over the path; `e` holds the characters since the last slash -/
def pathLoop (v : MfsVolume) (dirInode : Nat) (e : List UInt8) : List UInt8 → Outcome (Nat × List UInt8)
  | [] => .ok ((dirInode, e), v)
  | c :: path =>
    if c = SLASH then (enterDir v dirInode e).bind fun (dirInode, v) => pathLoop v dirInode [] path
    else pathLoop v dirInode (e ++ [c]) path

/-- the loop that copies the file, a buffer at a time -/
def copyLoop (v : MfsVolume) (f : MfsFile) (src : List UInt8) : Outcome MfsFile :=
  if _h : src = [] then .ok (f, v)
  else (fileWrite v f (src.take 4096)).bind fun (f, v) => copyLoop v f (src.drop 4096)
termination_by src.length
decreasing_by
  have hpos : 0 < src.length := List.length_pos_iff.mpr _h
  rw [List.length_drop]
  omega

/-- the path without a slash in front -/
def relative (path : List UInt8) : List UInt8 := if path.head? = some SLASH then path.tail else path

/-- `src` is what the file holds; a path and its NUL have to fit `namebuf` -/
def copyFile (v : MfsVolume) (path src : List UInt8) : Outcome Unit :=
  if 1024 < (relative path).length + 1 then .error .undefined
  else
    (pathLoop v v.root [] (relative path)).bind fun ((dirInode, e), v) =>
      (createFile v).bind fun (fileInode, v) =>
        (inodeOpen v fileInode).bind fun f =>
          (copyLoop v f src).bind fun (_, v) => appendDir v dirInode e fileInode

/-- the loop of `main` -/
def copyFiles (v : MfsVolume) : List (List UInt8 × List UInt8) → Outcome Unit
  | [] => .ok ((), v)
  | f :: fs => (copyFile v f.1 f.2).bind fun (_, v) => copyFiles v fs

/-- `main`, up to the writing of the volume -/
def mkvolume (size now : Nat) (vbr : List UInt8) (files : List (List UInt8 × List UInt8)) : Outcome Unit :=
  (makeVolume size now).bind fun (_, v) => (makeVbr v vbr).bind fun (_, v) => copyFiles v files

end FuseeOS
