import FuseeOS.Lib.Program
import FuseeOS.Tools.VolumeTool

/-!
# The steps of the tool

`mkvolume` as a sequence of steps, each of which uses one page number of the volume: `next_inode`, an
inode that is opened, or a pointer in a page.

* `VolumeOp`                 the steps, and what they do to the volume;
* `StepInside`               where the page numbers of a step have to be;
* `mkvolumeSteps_run`        the tool is the sequence of its steps.
-/

namespace FuseeOS
open Bytes Program

/-- the page of an inode -/
def inodeNumber (inode : Nat) : Nat := (MFS_RESERVED_PAGES + inode) % 2^64

/-- the inode of the page with the bits of `inode` -/
def bitmapInode (inode : Nat) : Nat := inode / MFS_BITMAP_SIZE * MFS_BITMAP_SIZE

/-- what the tool does to the volume, one step at a time -/
inductive VolumeOp where
  /-- `calloc` has been called: a field of the metadata is written -/
  | metadata (off : Nat) (l : List UInt8)
  | setRoot (inode : Nat)
  /-- `fread` fills a page of the boot record -/
  | vbrPage (n : Nat) (l : List UInt8)
  /-- `create_file_raw` -/
  | create (mode : Nat)
  /-- `inode_open` -/
  | openInode (inode : Nat)
  /-- the pointer at `off` of page `n` is followed; where it is 0 it is set first -/
  | pointer (n off : Nat)
  | get (n off : Nat)
  | fetch (n off len : Nat)
  /-- bytes of the file in page `file` are written to page `n`, and its size -/
  | write (file n off : Nat) (l : List UInt8)
  | root
  /-- the message, and `exit(1)` -/
  | tooLarge
  /-- a local buffer is too small, or what is used was never set -/
  | undefined

/-- what a step gives back -/
abbrev VolumeOp.Result : VolumeOp → Type
  | .metadata _ _ => Unit
  | .setRoot _ => Unit
  | .vbrPage _ _ => Unit
  | .create _ => Nat
  | .openInode _ => Nat
  | .pointer _ _ => Nat
  | .get _ _ => Nat
  | .fetch _ _ _ => List UInt8
  | .write _ _ _ _ => Unit
  | .root => Nat
  | .tooLarge => Empty
  | .undefined => Empty

def volumeStep : (op : VolumeOp) → MfsVolume → Except Failure (op.Result × MfsVolume)
  | .metadata off l, v =>
    if v.pageCount ≤ MFS_METADATA_PAGE then .error .undefined
    else .ok ((), v.put .metadata MFS_METADATA_PAGE off l)
  | .setRoot inode, v =>
    .ok ((), { v.put .metadata MFS_METADATA_PAGE Mfs.root (le 8 inode) with root := inode })
  | .vbrPage n l, v => if n < v.pageCount then .ok ((), v.put .vbr n 0 l) else .error .undefined
  | .create mode, v => createFileRaw v mode
  | .openInode inode, v => (inodePage v inode).bind fun n => .ok (n, v)
  | .pointer n off, v => pointerPage v n off
  | .get n off, v => .ok (get64 (v.pages n) off, v)
  | .fetch n off len, v => .ok (Bytes.fetch (v.pages n) off len, v)
  | .write file n off l, v =>
    let v := v.put .files n off l
    .ok ((), v.put .files file Mfs.size (le 8 (get64 (v.pages file) Mfs.size + l.length)))
  | .root, v => .ok (v.root, v)
  | .tooLarge, v => .error (.tooLarge v)
  | .undefined, _ => .error .undefined

/-- a page for files -/
def FilePage (v : MfsVolume) (n : Nat) : Prop := MFS_RESERVED_PAGES ≤ n ∧ n < v.pageCount

/-- Where the page numbers of a step have to be: pages of files are written behind the metadata, the others
in their places, and a page that is read is in the volume. -/
def StepInside : VolumeOp → MfsVolume → Prop
  | .metadata _ _, v => MFS_METADATA_PAGE < v.pageCount
  | .vbrPage n _, v => n < MFS_METADATA_PAGE ∧ n < v.pageCount
  | .create _, v => FilePage v (inodeNumber (bitmapInode (nextPage v.nextInode))) ∧
      FilePage v (inodeNumber (nextPage v.nextInode))
  | .openInode inode, v => inodeNumber inode < v.pageCount
  | .pointer n off, v =>
    if get64 (v.pages n) off = 0 then
      FilePage v (inodeNumber (bitmapInode (nextPage v.nextInode))) ∧ FilePage v n ∧
        inodeNumber (nextPage v.nextInode) < v.pageCount
    else inodeNumber (get64 (v.pages n) off) < v.pageCount
  | .write file n _ _, v => FilePage v n ∧ FilePage v file
  | .undefined, _ => False
  | _, _ => True

/-! ## the tool in steps -/

abbrev VolumeProgram : Type → Type := Program VolumeOp VolumeOp.Result

def doStep (op : VolumeOp) : VolumeProgram op.Result := perform op

section
variable {α : Type}

def tooLargeStep : VolumeProgram α := .step .tooLarge fun x => x.elim

def undefinedStep : VolumeProgram α := .step .undefined fun x => x.elim

end

def inodeOpenSteps (inode : Nat) : VolumeProgram MfsFile := do
  let n ← doStep (.openInode inode)
  return ⟨n, 0⟩

def ptrFromDataIndexSteps (file index : Nat) : VolumeProgram Nat :=
  if index < 16 then doStep (.pointer file (Mfs.data index))
  else if index < MFS_IDATA_POINTERS + 16 then do
    let page ← doStep (.pointer file Mfs.idata)
    doStep (.pointer page (Mfs.inodes (index - 16)))
  else tooLargeStep

def fileReadSteps (f : MfsFile) (len : Nat) : VolumeProgram (List UInt8 × MfsFile) := do
  let size ← doStep (.get f.file Mfs.size)
  if len = 0 ∨ f.pos = size then return ([], f)
  else
    let src ← ptrFromDataIndexSteps f.file (f.pos / MFS_PAGE_SIZE)
    let size ← doStep (.get f.file Mfs.size)
    if size < f.pos then undefinedStep
    else
      let tmp := min (min (MFS_PAGE_SIZE - f.pos % MFS_PAGE_SIZE) len) (size - f.pos)
      if _h : tmp = 0 then return ([], f)
      else
        let bytes ← doStep (.fetch src (f.pos % MFS_PAGE_SIZE) tmp)
        let (rest, f) ← fileReadSteps ⟨f.file, f.pos + tmp⟩ (len - tmp)
        return (bytes ++ rest, f)
termination_by len
decreasing_by
  have := _h
  omega

def fileWriteSteps (f : MfsFile) (buf : List UInt8) : VolumeProgram MfsFile :=
  if _h : buf = [] then return f
  else do
    let dst ← ptrFromDataIndexSteps f.file (f.pos / MFS_PAGE_SIZE)
    let tmp := min (MFS_PAGE_SIZE - f.pos % MFS_PAGE_SIZE) buf.length
    doStep (.write f.file dst (f.pos % MFS_PAGE_SIZE) (buf.take tmp))
    fileWriteSteps ⟨f.file, f.pos + (buf.take tmp).length⟩ (buf.drop tmp)
termination_by buf.length
decreasing_by
  have hpos : 0 < buf.length := List.length_pos_iff.mpr _h
  have hoff : f.pos % MFS_PAGE_SIZE < MFS_PAGE_SIZE := Nat.mod_lt _ (by decide)
  rw [List.length_drop]
  omega

def findLoopSteps (f : MfsFile) (name : List UInt8) (s : DirScan) : Nat → VolumeProgram Nat
  | 0 => undefinedStep
  | fuel + 1 => do
    let size ← doStep (.get f.file Mfs.size)
    if f.pos = size then return 0
    else
      let (bytes, f) ← fileReadSteps f Mfs.dirEntry
      match s.readEntry bytes with
      | none => undefinedStep
      | some entry => do
        let (bytes, f) ← fileReadSteps f (readLe (memOf 0 entry) 8 4)
        match DirScan.compare entry bytes name s.namebuf with
        | .error _ => undefinedStep
        | .ok (.inr inode) => return inode
        | .ok (.inl s) => findLoopSteps f name s fuel

def findFileDirSteps (dirInode : Nat) (name : List UInt8) : VolumeProgram Nat := do
  let f ← inodeOpenSteps dirInode
  let size ← doStep (.get f.file Mfs.size)
  findLoopSteps f name .start (size + 1)

def appendDirSteps (dirInode : Nat) (name : List UInt8) (fileInode : Nat) : VolumeProgram Unit := do
  let f ← inodeOpenSteps dirInode
  let size ← doStep (.get f.file Mfs.size)
  let f ← fileWriteSteps { f with pos := size } (dirEntryBytes fileInode name.length)
  let _ ← fileWriteSteps f name

def vbrSteps (n : Nat) (src : List UInt8) : VolumeProgram Unit :=
  if _h : src = [] then return ()
  else do
    doStep (.vbrPage n (src.take MFS_PAGE_SIZE))
    vbrSteps (n + 1) (src.drop MFS_PAGE_SIZE)
termination_by src.length
decreasing_by
  have hpos : 0 < src.length := List.length_pos_iff.mpr _h
  have hsize : 0 < MFS_PAGE_SIZE := by decide
  rw [List.length_drop]
  omega

def enterDirSteps (dirInode : Nat) (name : List UInt8) : VolumeProgram Nat := do
  let tmp ← findFileDirSteps dirInode name
  if tmp = 0 then
    let tmp ← doStep (.create (MFS_TYPE_DIR ||| 0o755))
    appendDirSteps dirInode name tmp
    return tmp
  else return tmp

def pathSteps (dirInode : Nat) (e : List UInt8) : List UInt8 → VolumeProgram (Nat × List UInt8)
  | [] => return (dirInode, e)
  | c :: path =>
    if c = SLASH then do
      let dirInode ← enterDirSteps dirInode e
      pathSteps dirInode [] path
    else pathSteps dirInode (e ++ [c]) path

def copySteps (f : MfsFile) (src : List UInt8) : VolumeProgram MfsFile :=
  if _h : src = [] then return f
  else do
    let f ← fileWriteSteps f (src.take 4096)
    copySteps f (src.drop 4096)
termination_by src.length
decreasing_by
  have hpos : 0 < src.length := List.length_pos_iff.mpr _h
  rw [List.length_drop]
  omega

def copyFileSteps (path src : List UInt8) : VolumeProgram Unit :=
  if 1024 < (relative path).length + 1 then undefinedStep
  else do
    let root ← doStep .root
    let (dirInode, e) ← pathSteps root [] (relative path)
    let fileInode ← doStep (.create (MFS_TYPE_FILE ||| 0o644))
    let f ← inodeOpenSteps fileInode
    let _ ← copySteps f src
    appendDirSteps dirInode e fileInode

def copyFilesSteps : List (List UInt8 × List UInt8) → VolumeProgram Unit
  | [] => return ()
  | f :: fs => do
    copyFileSteps f.1 f.2
    copyFilesSteps fs

section
variable (v : MfsVolume)

theorem vbrPage_run (n : Nat) (l : List UInt8) : (doStep (.vbrPage n l)).run volumeStep v =
    if n < v.pageCount then .ok ((), v.put .vbr n 0 l) else .error .undefined := by
  rw [doStep, run_perform, volumeStep]

theorem create_run (mode : Nat) :
    (doStep (.create mode)).run volumeStep v = createFileRaw v mode := by
  rw [doStep, run_perform, volumeStep]

theorem openInode_run (inode : Nat) : (doStep (.openInode inode)).run volumeStep v =
    (inodePage v inode).bind fun n => .ok (n, v) := by
  rw [doStep, run_perform, volumeStep]

theorem pointer_run (n off : Nat) :
    (doStep (.pointer n off)).run volumeStep v = pointerPage v n off := by
  rw [doStep, run_perform, volumeStep]

theorem get_run (n off : Nat) :
    (doStep (.get n off)).run volumeStep v = .ok (get64 (v.pages n) off, v) := rfl

theorem fetch_run (n off len : Nat) :
    (doStep (.fetch n off len)).run volumeStep v = .ok (Bytes.fetch (v.pages n) off len, v) := rfl

theorem write_run (file n off : Nat) (l : List UInt8) : (doStep (.write file n off l)).run volumeStep v =
    .ok ((), (v.put .files n off l).put .files file Mfs.size
      (le 8 (get64 ((v.put .files n off l).pages file) Mfs.size + l.length))) := rfl

theorem root_run : (doStep .root).run volumeStep v = .ok (v.root, v) := rfl

theorem inodeOpenSteps_run (inode : Nat) :
    (inodeOpenSteps inode).run volumeStep v = (inodeOpen v inode).bind fun f => .ok (f, v) := by
  unfold inodeOpenSteps inodeOpen
  rw [run_bind, openInode_run, bind_assoc, bind_assoc]
  rfl

theorem ptrFromDataIndexSteps_run (file index : Nat) :
    (ptrFromDataIndexSteps file index).run volumeStep v = ptrFromDataIndex v file index := by
  unfold ptrFromDataIndexSteps ptrFromDataIndex
  split_ifs
  · rw [pointer_run]
  · rw [run_bind, pointer_run]
    exact congrArg (Except.bind _) (funext fun x => pointer_run x.2 x.1 _)
  · rfl

theorem fileReadSteps_run (f : MfsFile) (len : Nat) :
    (fileReadSteps f len).run volumeStep v = fileRead v f len := by
  induction len using Nat.strong_induction_on generalizing v f with
  | _ len ih =>
    rw [fileReadSteps, fileRead, run_bind, get_run, ok_bind]
    split_ifs
    · rfl
    · rw [run_bind, ptrFromDataIndexSteps_run]
      congr 1
      funext x
      rw [run_bind, get_run, ok_bind]
      dsimp only
      split_ifs
      · rfl
      · rfl
      · rw [run_bind, fetch_run, ok_bind, run_bind, ih _ (by omega)]
        rfl

theorem fileWriteSteps_run (f : MfsFile) (buf : List UInt8) :
    (fileWriteSteps f buf).run volumeStep v = fileWrite v f buf := by
  induction hn : buf.length using Nat.strong_induction_on generalizing v f buf with
  | _ n ih =>
    subst hn
    rw [fileWriteSteps, fileWrite]
    split_ifs with hbuf
    · rfl
    · have hpos := List.length_pos_iff.mpr hbuf
      have hoff : f.pos % MFS_PAGE_SIZE < MFS_PAGE_SIZE := Nat.mod_lt _ (by decide)
      unfold writeChunk
      rw [run_bind, ptrFromDataIndexSteps_run, bind_assoc]
      congr 1
      funext x
      rw [run_bind, write_run, ok_bind]
      exact ih _ (by rw [List.length_drop]; omega) _ _ _ rfl

theorem findLoopSteps_run (f : MfsFile) (name : List UInt8) (s : DirScan) (fuel : Nat) :
    (findLoopSteps f name s fuel).run volumeStep v = findLoop v f name s fuel := by
  induction fuel generalizing v f s with
  | zero => rfl
  | succ fuel ih =>
    rw [findLoopSteps, findLoop, run_bind, get_run, ok_bind]
    split_ifs
    · rfl
    · rw [run_bind, fileReadSteps_run]
      congr 1
      funext x
      obtain ⟨⟨bytes, g⟩, u⟩ := x
      dsimp only
      cases s.readEntry bytes with
      | none => rfl
      | some entry =>
        dsimp only
        rw [run_bind, fileReadSteps_run]
        congr 1
        funext y
        obtain ⟨⟨bytes', g'⟩, u'⟩ := y
        dsimp only
        cases hc : DirScan.compare entry bytes' name s.namebuf with
        | error e =>
          rw [compare_error hc]
          rfl
        | ok next =>
          cases next with
          | inr inode => rfl
          | inl s' => exact ih u' g' s'

theorem findFileDirSteps_run (d : Nat) (name : List UInt8) :
    (findFileDirSteps d name).run volumeStep v = findFileDir v d name := by
  unfold findFileDirSteps findFileDir
  rw [run_bind, inodeOpenSteps_run, bind_assoc]
  congr 1
  funext f
  rw [ok_bind, run_bind, get_run, ok_bind, findLoopSteps_run]

theorem appendDirSteps_run (d : Nat) (name : List UInt8) (p : Nat) :
    (appendDirSteps d name p).run volumeStep v = appendDir v d name p := by
  unfold appendDirSteps appendDir
  rw [run_bind, inodeOpenSteps_run, bind_assoc]
  congr 1
  funext f
  rw [ok_bind, run_bind, get_run, ok_bind, run_bind, fileWriteSteps_run]
  congr 1
  funext x
  rw [run_bind, fileWriteSteps_run]
  rfl

theorem enterDirSteps_run (d : Nat) (name : List UInt8) :
    (enterDirSteps d name).run volumeStep v = enterDir v d name := by
  unfold enterDirSteps enterDir
  rw [run_bind, findFileDirSteps_run]
  congr 1
  funext x
  dsimp only
  split_ifs
  · rw [run_bind, create_run]
    show (createDirectory x.2).bind _ = _
    congr 1
    funext y
    rw [run_bind, appendDirSteps_run]
    rfl
  · rfl

theorem pathSteps_run (d : Nat) (e path : List UInt8) :
    (pathSteps d e path).run volumeStep v = pathLoop v d e path := by
  induction path generalizing v d e with
  | nil => rfl
  | cons c path ih =>
    rw [pathSteps, pathLoop]
    split_ifs
    · rw [run_bind, enterDirSteps_run]
      congr 1
      funext x
      exact ih x.2 x.1 []
    · exact ih v d _

theorem copySteps_run (f : MfsFile) (src : List UInt8) :
    (copySteps f src).run volumeStep v = copyLoop v f src := by
  induction hn : src.length using Nat.strong_induction_on generalizing v f src with
  | _ n ih =>
    subst hn
    rw [copySteps, copyLoop]
    split_ifs with hsrc
    · rfl
    · have hpos := List.length_pos_iff.mpr hsrc
      rw [run_bind, fileWriteSteps_run]
      congr 1
      funext x
      exact ih _ (by rw [List.length_drop]; omega) _ _ _ rfl

theorem copyFileSteps_run (path src : List UInt8) :
    (copyFileSteps path src).run volumeStep v = copyFile v path src := by
  unfold copyFileSteps copyFile
  split_ifs
  · rfl
  · rw [run_bind, root_run, ok_bind, run_bind, pathSteps_run]
    congr 1
    funext x
    dsimp only
    rw [run_bind, create_run]
    show (createFile x.2).bind _ = _
    congr 1
    funext y
    rw [run_bind, inodeOpenSteps_run, bind_assoc]
    congr 1
    funext f
    rw [ok_bind, run_bind, copySteps_run]
    congr 1
    funext z
    exact appendDirSteps_run z.2 x.1.1 x.1.2 y.1

theorem copyFilesSteps_run (files : List (List UInt8 × List UInt8)) :
    (copyFilesSteps files).run volumeStep v = copyFiles v files := by
  induction files generalizing v with
  | nil => rfl
  | cons f files ih =>
    rw [copyFilesSteps, copyFiles, run_bind, copyFileSteps_run]
    congr 1
    funext x
    exact ih x.2

theorem vbrSteps_run (n : Nat) (src : List UInt8) :
    (vbrSteps n src).run volumeStep v = vbrLoop v n src := by
  induction hn : src.length using Nat.strong_induction_on generalizing v n src with
  | _ k ih =>
    subst hn
    rw [vbrSteps, vbrLoop]
    split_ifs with hsrc hlt
    · rfl
    · have hpos := List.length_pos_iff.mpr hsrc
      have hsize : MFS_PAGE_SIZE = 4096 := rfl
      rw [run_bind, vbrPage_run, if_pos hlt, ok_bind]
      exact ih _ (by rw [List.length_drop]; omega) _ _ _ rfl
    · rw [run_bind, vbrPage_run, if_neg hlt, error_bind]

end

end FuseeOS
