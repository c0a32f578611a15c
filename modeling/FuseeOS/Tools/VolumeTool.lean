import FuseeOS.Tools.Directory

/-!
# The tool over the store

What `mkvolume` does with its list of files, without a volume: as many pages are handed out as it takes.

* `FileStore.copyFiles`      the files are copied one after the other;
* `enterDir_simulates`       a directory on a path, found or created;
* `copyFile_simulates`       a file with its path;
* `copyFiles_simulates`      so the tool does with a volume what it does with the store.
-/

namespace FuseeOS
open Bytes

namespace FileStore

/-- a directory is looked through; what it is to be a directory is not checked, but it has to be a file -/
def find (a : FileStore) (d : Nat) (name : List UInt8) : StoreOutcome Nat :=
  match a.file d with
  | none => .error .stray
  | some s =>
    match scanDir name .start s.content (s.content.length + 1) with
    | .ok inode => .ok (inode, a)
    | .error _ => .error .undefined

def createFile (a : FileStore) : StoreOutcome Nat := .ok a.create

/-- one more entry -/
def link (a : FileStore) (d : Nat) (name : List UInt8) (p : Nat) : StoreOutcome Unit :=
  match a.file d with
  | none => .error .stray
  | some s => (a.append d s (entryBytes name p)).bind fun (_, a) => .ok ((), a)

def enterDir (a : FileStore) (d : Nat) (name : List UInt8) : StoreOutcome Nat :=
  (a.find d name).bind fun (tmp, a) =>
    if tmp = 0 then a.createFile.bind fun (p, a) => (a.link d name p).bind fun (_, a) => .ok (p, a)
    else .ok (tmp, a)

def pathLoop (a : FileStore) (d : Nat) (e : List UInt8) : List UInt8 → StoreOutcome (Nat × List UInt8)
  | [] => .ok ((d, e), a)
  | c :: path =>
    if c = SLASH then (a.enterDir d e).bind fun (d, a) => a.pathLoop d [] path
    else a.pathLoop d (e ++ [c]) path

def copyFile (a : FileStore) (root : Nat) (path src : List UInt8) : StoreOutcome Unit :=
  if 1024 < (relative path).length + 1 then .error .undefined
  else
    (a.pathLoop root [] (relative path)).bind fun ((d, e), a) =>
      a.createFile.bind fun (p, a) =>
        (a.append p .empty src).bind fun (_, a) => a.link d e p

def copyFiles (a : FileStore) (root : Nat) : List (List UInt8 × List UInt8) → StoreOutcome Unit
  | [] => .ok ((), a)
  | f :: fs => (a.copyFile root f.1 f.2).bind fun (_, a) => a.copyFiles root fs

end FileStore

section
variable (a : FileStore) (d root : Nat) (name : List UInt8)

theorem find_grows : Grows a.next (a.find d name) := by
  unfold FileStore.find
  cases a.file d with
  | none => trivial
  | some s =>
    dsimp only
    cases scanDir name .start s.content (s.content.length + 1) with
    | ok inode => exact Nat.le_refl a.next
    | error e => trivial

theorem createFile_grows : Grows a.next a.createFile := Nat.le_of_lt (nextPage_spec a.next).1

theorem link_grows (p : Nat) : Grows a.next (a.link d name p) := by
  unfold FileStore.link
  cases a.file d with
  | none => trivial
  | some s => exact (append_grows a d s _).bind fun _ b => Nat.le_refl b.next

theorem enterDir_grows : Grows a.next (a.enterDir d name) := by
  refine (find_grows a d name).bind fun tmp b => ?_
  dsimp only
  split_ifs
  · exact (createFile_grows b).bind fun p b => (link_grows b d name p).bind fun _ b => Nat.le_refl b.next
  · exact Nat.le_refl b.next

theorem pathLoop_grows (path : List UInt8) (e : List UInt8) : Grows a.next (a.pathLoop d e path) := by
  induction path generalizing a d e with
  | nil => exact Nat.le_refl a.next
  | cons c path ih =>
    rw [FileStore.pathLoop]
    split_ifs
    · exact (enterDir_grows a d e).bind fun d b => ih b d []
    · exact ih a d _

theorem copyFile_grows (path src : List UInt8) : Grows a.next (a.copyFile root path src) := by
  unfold FileStore.copyFile
  split_ifs
  · trivial
  · refine (pathLoop_grows a root _ _).bind fun x b => (createFile_grows b).bind fun p b => ?_
    exact (append_grows b p _ src).bind fun _ b => link_grows b _ _ p

theorem copyFiles_grows (files : List (List UInt8 × List UInt8)) : Grows a.next (a.copyFiles root files) := by
  induction files generalizing a with
  | nil => exact Nat.le_refl a.next
  | cons f files ih => exact (copyFile_grows a root f.1 f.2).bind fun _ b => ih b

end

theorem compare_error {entry bytes name : List UInt8} {namebuf : List (Option UInt8)} {e : Failure}
    (h : DirScan.compare entry bytes name namebuf = .error e) : e = .undefined := by
  unfold DirScan.compare at h
  split_ifs at h
  · cases h
    rfl
  · dsimp only at h
    split at h
    · cases h
      rfl
    · cases h
    · cases h

/-- the scan can only stop at what is not defined -/
theorem scanDir_error {name : List UInt8} {fuel : Nat} {s : DirScan} {rest : List UInt8} {e : Failure}
    (h : scanDir name s rest fuel = .error e) : e = .undefined := by
  induction fuel generalizing s rest with
  | zero =>
    cases h
    rfl
  | succ fuel ih =>
    rw [scanDir] at h
    split_ifs at h
    cases hentry : s.readEntry (rest.take Mfs.dirEntry) with
    | none =>
      rw [hentry] at h
      cases h
      rfl
    | some entry =>
      rw [hentry] at h
      dsimp only at h
      cases hc : DirScan.compare entry ((rest.drop Mfs.dirEntry).take (readLe (memOf 0 entry) 8 4)) name
          s.namebuf with
      | error e' =>
        rw [hc] at h
        cases h
        exact compare_error hc
      | ok next =>
        rw [hc] at h
        cases next with
        | inr inode => cases h
        | inl s' => exact ih h

/-! ## side by side -/

section
variable {v : MfsVolume} {a : FileStore} {f : Nat} {s : StoredFile}

theorem find_simulates (h : Refines v a) (d : Nat) (name : List UInt8) :
    Simulates v (fun i j _ => i = j) (findFileDir v d name) (a.find d name) := by
  unfold FileStore.find
  cases hd : a.file d with
  | none => trivial
  | some s =>
    rw [findFileDir_scan h hd]
    dsimp only
    cases hscan : scanDir name .start s.content (s.content.length + 1) with
    | ok inode => exact Simulates.pure h rfl
    | error e =>
      cases scanDir_error hscan
      rfl

theorem createFile_simulates (h : Refines v a) (mode : Nat) :
    Simulates v (fun p q b => p = q ∧ b.file q = some .empty) (createFileRaw v mode) a.createFile :=
  createFileRaw_simulates h mode

theorem link_simulates (h : Refines v a) (d : Nat) (name : List UInt8) (p : Nat) :
    Simulates v (fun _ _ _ => True) (appendDir v d name p) (a.link d name p) := by
  unfold FileStore.link
  cases hd : a.file d with
  | none => trivial
  | some s =>
    exact (appendDir_simulates h hd name p).mapStore (k := fun _ => ()) fun _ _ _ _ => trivial

/-- the loop that copies a file writes all of it -/
theorem copyLoop_eq (h : Refines v a) (hf : a.file f = some s) (src : List UInt8) :
    copyLoop v ⟨64 + f, s.content.length⟩ src = fileWrite v ⟨64 + f, s.content.length⟩ src := by
  induction hn : src.length using Nat.strong_induction_on generalizing v a s src with
  | _ n ih =>
    subst hn
    rw [copyLoop]
    by_cases hsrc : src = []
    · rw [dif_pos hsrc, hsrc, fileWrite_nil]
    · have hpos := List.length_pos_iff.mpr hsrc
      rw [dif_neg hsrc]
      conv_rhs => rw [← List.take_append_drop 4096 src, fileWrite_append h hf]
      cases hw : fileWrite v ⟨64 + f, s.content.length⟩ (src.take 4096) with
      | error e => rfl
      | ok x =>
        obtain ⟨g, v'⟩ := x
        obtain ⟨t, b, -, hr, -, ht, -, rfl⟩ := (fileWrite_simulates h hf _).of_ok (append_ne_stray _ _ _ _) hw
        exact ih _ (by rw [List.length_drop]; omega) hr ht _ rfl

/-- **a directory on a path** -/
theorem enterDir_simulates (h : Refines v a) (d : Nat) (name : List UInt8) :
    Simulates v (fun p q _ => p = q) (enterDir v d name) (a.enterDir d name) := by
  refine (find_simulates h d name).bind (fun tmp b => ?_) fun i j v' b hr _ hij => ?_
  · dsimp only
    split_ifs
    · exact (createFile_grows b).bind fun p b => (link_grows b d name p).bind fun _ b => Nat.le_refl b.next
    · exact Nat.le_refl b.next
  · subst hij
    dsimp only
    by_cases h0 : i = 0
    · rw [if_pos h0, if_pos h0]
      refine (createFile_simulates hr _).bind
        (fun p b => (link_grows b d name p).bind fun _ b => Nat.le_refl b.next) fun p q v' b hr _ hpq => ?_
      rw [hpq.1]
      exact (link_simulates hr d name q).bind (fun _ b => Nat.le_refl b.next) fun _ _ v' b hr _ _ =>
        Simulates.pure hr rfl
    · rw [if_neg h0, if_neg h0]
      exact Simulates.pure hr rfl

theorem pathLoop_simulates (h : Refines v a) (d : Nat) (e path : List UInt8) :
    Simulates v (fun x y _ => x = y) (pathLoop v d e path) (a.pathLoop d e path) := by
  induction path generalizing v a d e with
  | nil => exact Simulates.pure h rfl
  | cons c path ih =>
    rw [pathLoop, FileStore.pathLoop]
    by_cases hc : c = SLASH
    · rw [if_pos hc, if_pos hc]
      refine (enterDir_simulates h d e).bind (fun d b => pathLoop_grows b d path []) fun p q v' b hr _ hpq => ?_
      subst hpq
      exact ih hr p []
    · rw [if_neg hc, if_neg hc]
      exact ih h d _

/-- **a file with its path** -/
theorem copyFile_simulates (h : Refines v a) (path src : List UInt8) :
    Simulates v (fun _ _ _ => True) (copyFile v path src) (a.copyFile v.root path src) := by
  unfold copyFile FileStore.copyFile
  split_ifs
  · rfl
  · refine (pathLoop_simulates h v.root [] _).bind (fun x b => ?_) fun x y v' b hr _ hxy => ?_
    · exact (createFile_grows b).bind fun p b => (append_grows b p _ src).bind fun _ b => link_grows b _ _ p
    · subst hxy
      refine (createFile_simulates hr _).bind
        (fun p b => (append_grows b p _ src).bind fun _ b => link_grows b _ _ p) fun p q v' b hr _ hpq => ?_
      obtain ⟨rfl, hp⟩ := hpq
      have hcopy := copyLoop_eq hr hp src
      have hwrite := fileWrite_simulates hr hp src
      rw [← hcopy] at hwrite
      dsimp only
      rw [inodeOpen_file hr hp, ok_bind]
      exact hwrite.bind (fun _ b => link_grows b _ _ p) fun _ _ v' b hr _ _ => link_simulates hr _ _ _

/-- **The tool does with a volume what it does with the store.** -/
theorem copyFiles_simulates (h : Refines v a) {root : Nat} (hroot : v.root = root)
    (files : List (List UInt8 × List UInt8)) :
    Simulates v (fun _ _ _ => True) (copyFiles v files) (a.copyFiles root files) := by
  induction files generalizing v a with
  | nil => exact Simulates.pure h trivial
  | cons f files ih =>
    subst hroot
    refine (copyFile_simulates h f.1 f.2).bind (fun _ b => copyFiles_grows b _ files) fun _ _ v' b hr hk _ => ?_
    exact ih hr hk.root

end

end FuseeOS
