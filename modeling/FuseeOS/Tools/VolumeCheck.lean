import FuseeOS.Lib.Run
import FuseeOS.Tools.VolumeRun

/-!
# The consistency of the volume

What a file system check looks for: no page is used twice, the bitmaps say which pages are used, and every
page that is used can be reached.

* `Allocates`        stores beside the bitmap pages, and calls of `alloc_page` with what they returned;
* `FileStore.Whole`  every page that was handed out is the inode, the data or the slots of a file;
* `ToolState.Points` the pointers of the volume: entries, `data`, `idata` and the indirect slots;
* **`volume_check`** the check passes in every state of every run.
-/

namespace FuseeOS
open Bytes StepRun

/-! ## alloc_page -/

/-- `v'` comes from `v` by stores that are beside the bitmap pages, and by calls of `alloc_page`, which
returned `l` -/
inductive Allocates (v : MfsVolume) : List Nat → MfsVolume → Prop
  | refl : Allocates v [] v
  | put {l : List Nat} {u : MfsVolume} {p : Nat} (hp : p % MFS_BITMAP_SIZE ≠ 0) (off : Nat) (bytes : List UInt8) :
    Allocates v l u → Allocates v l (u.put .files (64 + p) off bytes)
  | alloc {l : List Nat} {u u' : MfsVolume} {p : Nat} :
    Allocates v l u → allocPage u = .ok (p, u') → Allocates v (l ++ [p]) u'

/-- the inodes between two values of `next_inode` -/
def handedOut (n m : Nat) : List Nat :=
  (List.range' (n + 1) (m - n)).filter fun p => decide (p % MFS_BITMAP_SIZE ≠ 0)

theorem mem_handedOut {n m p : Nat} : p ∈ handedOut n m ↔ n < p ∧ p ≤ m ∧ p % MFS_BITMAP_SIZE ≠ 0 := by
  unfold handedOut
  rw [List.mem_filter, List.mem_range'_1, decide_eq_true_eq]
  omega

theorem handedOut_sorted (n m : Nat) : (handedOut n m).Pairwise (· < ·) :=
  List.Pairwise.filter _ List.pairwise_lt_range'

theorem handedOut_self (n : Nat) : handedOut n n = [] := by
  unfold handedOut
  rw [Nat.sub_self]
  rfl

theorem handedOut_append {n m k : Nat} (h : n ≤ m) (h' : m ≤ k) :
    handedOut n k = handedOut n m ++ handedOut m k := by
  have hlen : k - n = m - n + (k - m) := by omega
  have hstart : n + 1 + (m - n) = m + 1 := by omega
  unfold handedOut
  rw [hlen, ← List.range'_append_1, List.filter_append, hstart]

/-- one call -/
theorem handedOut_next (n : Nat) : handedOut n (nextPage n) = [nextPage n] := by
  unfold handedOut nextPage
  by_cases h : (n + 1) % MFS_BITMAP_SIZE = 0
  · have h2 : (n + 2) % MFS_BITMAP_SIZE ≠ 0 := by
      unfold MFS_BITMAP_SIZE MFS_PAGE_SIZE at *
      omega
    have hlen : n + 2 - n = 2 := by omega
    rw [if_pos h, hlen]
    simp [List.range', h, h2]
  · have hlen : n + 1 - n = 1 := by omega
    rw [if_neg h, hlen]
    simp [List.range', h]

theorem allocPage_next {v v' : MfsVolume} {p : Nat} (h : allocPage v = .ok (p, v')) :
    p = nextPage v.nextInode ∧ v'.nextInode = nextPage v.nextInode := by
  unfold allocPage at h
  dsimp only at h
  cases e : inodePage v (nextPage v.nextInode / MFS_BITMAP_SIZE * MFS_BITMAP_SIZE) with
  | error x =>
    rw [e] at h
    cases h
  | ok n =>
    rw [e, ok_bind] at h
    cases h
    exact ⟨rfl, rfl⟩

section
variable {v v' u : MfsVolume} {l l' : List Nat}

theorem Allocates.trans (h : Allocates v l u) (h' : Allocates u l' v') : Allocates v (l ++ l') v' := by
  induction h' with
  | refl =>
    rw [List.append_nil]
    exact h
  | put hp off bytes _ ih => exact ih.put hp off bytes
  | alloc _ hp ih =>
    rw [← List.append_assoc]
    exact ih.alloc hp

/-- **What was returned follows from `next_inode`.** -/
theorem Allocates.handedOut (h : Allocates v l v') :
    v.nextInode ≤ v'.nextInode ∧ l = FuseeOS.handedOut v.nextInode v'.nextInode := by
  induction h with
  | refl => exact ⟨Nat.le_refl _, (handedOut_self _).symm⟩
  | put hp off bytes _ ih => exact ih
  | @alloc l u u' p _ hp ih =>
    obtain ⟨rfl, hnext⟩ := allocPage_next hp
    obtain ⟨hle, rfl⟩ := ih
    have hlt := Nat.le_of_lt (nextPage_spec u.nextInode).1
    rw [hnext]
    refine ⟨Nat.le_trans hle hlt, ?_⟩
    rw [handedOut_append hle hlt, handedOut_next]

end

/-- an outcome that is reached in this way -/
structure Allocating {α : Type} (v : MfsVolume) (r : Outcome α) : Prop where
  result : ∀ x v', r = .ok (x, v') → ∃ l, Allocates v l v'

section
variable {α β : Type} {v u : MfsVolume} {a : FileStore} {s : StoredFile} {f : Nat}

theorem Allocating.pure {l : List Nat} (h : Allocates v l u) (x : α) : Allocating v (.ok (x, u) : Outcome α) := by
  constructor
  intro y v' e
  cases e
  exact ⟨l, h⟩

theorem Allocating.error (v : MfsVolume) (e : Failure) : Allocating v (.error e : Outcome α) := by
  constructor
  intro x v' h
  cases h

theorem Allocating.bind {r : Outcome α} {k : α × MfsVolume → Outcome β} (h : Allocating v r)
    (hk : ∀ x u, r = .ok (x, u) → Allocating u (k (x, u))) : Allocating v (r.bind k) := by
  constructor
  intro y v' e
  cases r with
  | error x => cases e
  | ok x =>
    obtain ⟨l, hl⟩ := h.result x.1 x.2 rfl
    obtain ⟨l', hl'⟩ := (hk x.1 x.2 rfl).result y v' e
    exact ⟨l ++ l', hl.trans hl'⟩

theorem allocPage_allocating (v : MfsVolume) : Allocating v (allocPage v) := by
  constructor
  intro p v' e
  exact ⟨[] ++ [p], Allocates.refl.alloc e⟩

/-- a pointer that is in the page of an inode -/
theorem pointerPage_allocating (v : MfsVolume) {p : Nat} (hp : p % MFS_BITMAP_SIZE ≠ 0) (off : Nat) :
    Allocating v (pointerPage v (64 + p) off) := by
  unfold pointerPage
  apply Allocating.bind
  · unfold pointerOrAlloc
    dsimp only
    split_ifs
    · apply (allocPage_allocating v).bind
      intro q u _
      exact Allocating.pure (Allocates.refl.put hp ..) q
    · exact Allocating.pure Allocates.refl _
  · intro q u _
    dsimp only
    cases e : inodePage u q with
    | error x => exact Allocating.error u x
    | ok m => exact Allocating.pure Allocates.refl m

/-- the pages of a file are not bitmap pages -/
theorem Refines.proper (h : Refines v a) (hf : a.file f = some s) : f % MFS_BITMAP_SIZE ≠ 0 :=
  (h.owned f _ (h.shape f s hf).ownsInode).proper

/-- **The page behind the end of a file.** -/
theorem endPage_allocating (h : Refines v a) (hf : a.file f = some s) :
    Allocating v (ptrFromDataIndex v (64 + f) (s.content.length / 4096)) := by
  have hpages := (h.shape f s hf).pages
  unfold ptrFromDataIndex
  split_ifs with h16
  · exact pointerPage_allocating v (h.proper hf) _
  · apply (pointerPage_allocating v (h.proper hf) _).bind
    intro page u e
    have hind := indirectPage h hf (by omega)
    rw [e] at hind
    split_ifs at hind with hroom
    · obtain ⟨u', e', hr, -⟩ := hind
      cases e'
      have hs := hr.shape f _ (withIndirect_file hf)
      have hne : (a.withIndirect f s).1.indirect ≠ 0 := withIndirect_ne_zero (by omega)
      exact pointerPage_allocating u (hr.owned _ _ (hs.ownsIndirect hne)).proper _
  · exact Allocating.error ..

theorem writeChunk_allocating (h : Refines v a) (hf : a.file f = some s) (l : List UInt8) :
    Allocating v (writeChunk v ⟨64 + f, s.content.length⟩ l) := by
  apply (endPage_allocating h hf).bind
  intro m u e
  obtain ⟨t, b, -, hr, -, htf, -, hhere, rfl⟩ :=
    (endPage_simulates h hf).of_ok (endPage_ne_stray _ _ _) e
  have hdata := (hr.shape f t htf).data_owned hhere
  exact Allocating.pure ((Allocates.refl.put (hr.owned _ _ hdata).proper ..).put (hr.proper htf) ..) _

/-- **Writing at the end of a file**, a page at a time. -/
theorem fileWrite_allocating (h : Refines v a) (hf : a.file f = some s) (l : List UInt8) :
    Allocating v (fileWrite v ⟨64 + f, s.content.length⟩ l) := by
  induction a, s, l using FileStore.append.induct generalizing v with
  | case1 a s =>
    rw [fileWrite, dif_pos rfl]
    exact Allocating.pure Allocates.refl _
  | case2 a s l hl tmp =>
    rename_i ih
    have hmod : s.content.length % 4096 < 4096 := Nat.mod_lt _ (by decide)
    have hfit : s.content.length % 4096 +
        (l.take (min (4096 - s.content.length % 4096) l.length)).length ≤ 4096 := by
      rw [List.length_take]
      omega
    rw [fileWrite, dif_neg hl]
    apply (writeChunk_allocating h hf _).bind
    intro g u e
    obtain ⟨t, b, -, hr, -, htf, -, rfl⟩ :=
      (writeChunk_simulates h hf hfit).of_ok (appendChunk_ne_stray _ _ _ _) e
    exact ih t b hr htf

theorem createFileRaw_allocating (h : Refines v a) (mode : Nat) : Allocating v (createFileRaw v mode) := by
  unfold createFileRaw
  apply (allocPage_allocating v).bind
  intro p u e
  dsimp only
  cases e' : inodePage u p with
  | error x => exact Allocating.error u x
  | ok n =>
    obtain ⟨rfl, -⟩ := allocPage_next e
    have hmod := (nextPage_spec v.nextInode).2.1
    have hsmall := nextPage_small h
    have hn : 64 + nextPage v.nextInode = n := by
      rw [h.next] at e' ⊢
      unfold inodePage at e'
      split_ifs at e' with hin
      cases e'
      unfold MFS_RESERVED_PAGES
      omega
    rw [ok_bind, ← hn]
    exact Allocating.pure (((((Allocates.refl.put hmod ..).put hmod ..).put hmod ..).put hmod ..).put hmod ..) _

theorem appendFile_allocating (h : Refines v a) (hf : a.file f = some s) (l : List UInt8) :
    Allocating v (appendFile v f l) := by
  have hsize : get64 (v.pages (64 + f)) Mfs.size = s.content.length := (h.file f s hf).size
  rw [appendFile, inodeOpen_file h hf, ok_bind]
  dsimp only
  rw [hsize]
  exact fileWrite_allocating h hf l

theorem appendDir_allocating (h : Refines v a) (hf : a.file f = some s) (name : List UInt8) (p : Nat) :
    Allocating v (appendDir v f name p) := by
  have hsize : get64 (v.pages (64 + f)) Mfs.size = s.content.length := (h.file f s hf).size
  rw [appendDir, inodeOpen_file h hf, ok_bind]
  dsimp only
  rw [hsize]
  apply (fileWrite_allocating h hf _).bind
  intro g u e
  obtain ⟨t, b, -, hr, -, htf, -, rfl⟩ := (fileWrite_simulates h hf _).of_ok (append_ne_stray _ _ _ _) e
  apply (fileWrite_allocating hr htf name).bind
  intro _ u' _
  exact Allocating.pure Allocates.refl ()

end

/-! ## every page is used -/

/-- the page is the inode, a page of data or the page of the slots of the file -/
def StoredFile.Has (t : StoredFile) (f p : Nat) : Slot → Prop
  | .inode => p = f
  | .data i => t.data[i]? = some p
  | .indirect => t.indirect = p

/-- files have as many pages as their bytes need -/
def FileStore.Even (a : FileStore) : Prop :=
  ∀ f s, a.file f = some s → s.data.length = (s.content.length + 4095) / 4096 ∧ (s.indirect = 0 ↔ s.data.length ≤ 16)

/-- every page that was handed out is used by the file that owns it -/
structure FileStore.Whole (a : FileStore) : Prop where
  used : ∀ p, Returned a.next p → ∃ f slot t, a.owner p = some (f, slot) ∧ a.file f = some t ∧ t.Has f p slot

section
variable {a b : FileStore} {f p : Nat} {s t : StoredFile} {slot : Slot} {l : List UInt8}

/-- a page is handed out to a file that keeps all it has -/
theorem FileStore.Whole.take (h : a.Whole) (hkeep : ∀ q o s, 0 < q → a.file f = some s → s.Has f q o → t.Has f q o)
    (hnew : t.Has f (nextPage a.next) slot) : ((a.take (nextPage a.next) f slot).set f t).Whole := by
  constructor
  intro q hq
  rcases returned_nextPage.mp hq with hq | rfl
  · obtain ⟨g, o, u, howner, hfile, hhas⟩ := h.used q hq
    have hne : q ≠ nextPage a.next := Nat.ne_of_lt (Nat.lt_of_le_of_lt hq.le (nextPage_spec a.next).1)
    have howner' : (a.take (nextPage a.next) f slot).owner q = some (g, o) := (a.take_ne slot hne).trans howner
    by_cases hgf : g = f
    · subst hgf
      exact ⟨g, o, t, howner', FileStore.set_self .., hkeep q o u hq.pos hfile hhas⟩
    · exact ⟨g, o, u, howner', (FileStore.set_ne _ _ hgf).trans hfile, hhas⟩
  · exact ⟨f, slot, t, a.take_self .., FileStore.set_self .., hnew⟩

/-- the bytes of a file do not matter -/
theorem FileStore.Whole.set (h : a.Whole) (hf : a.file f = some s) (hdata : t.data = s.data)
    (hind : t.indirect = s.indirect) : (a.set f t).Whole := by
  constructor
  intro q hq
  obtain ⟨g, o, u, howner, hfile, hhas⟩ := h.used q hq
  by_cases hgf : g = f
  · subst hgf
    obtain rfl := Option.some.inj (hf.symm.trans hfile)
    refine ⟨g, o, t, howner, FileStore.set_self .., ?_⟩
    cases o with
    | inode => exact hhas
    | data i =>
      show t.data[i]? = some q
      rw [hdata]
      exact hhas
    | indirect => exact hind.trans hhas
  · exact ⟨g, o, u, howner, (FileStore.set_ne _ _ hgf).trans hfile, hhas⟩

theorem FileStore.Whole.create (h : a.Whole) (hnew : a.file (nextPage a.next) = none) : a.create.2.Whole := by
  refine h.take (fun q o s _ hs _ => ?_) rfl
  rw [hnew] at hs
  cases hs

theorem FileStore.Whole.withIndirect (h : a.Whole) (hf : a.file f = some s) : (a.withIndirect f s).2.Whole := by
  unfold FileStore.withIndirect
  split_ifs with hc
  · refine h.take (fun q o u hpos hu hhas => ?_) rfl
    obtain rfl := Option.some.inj (hf.symm.trans hu)
    cases o with
    | inode => exact hhas
    | data i => exact hhas
    | indirect =>
      -- there was no page of slots before
      have h0 : q = 0 := hhas.symm.trans hc.2
      omega
  · exact h

theorem FileStore.Whole.withPage (h : a.Whole) (hf : a.file f = some s) : (a.withPage f s).2.Whole := by
  refine h.take (fun q o u _ hu hhas => ?_) ?_
  · obtain rfl := Option.some.inj (hf.symm.trans hu)
    cases o with
    | inode => exact hhas
    | data i =>
      have hi : s.data[i]? = some q := hhas
      show (s.data ++ [nextPage a.next])[i]? = some q
      rw [List.getElem?_append_left (List.getElem?_eq_some_iff.mp hi).1, hi]
    | indirect => exact hhas
  · show (s.data ++ [nextPage a.next])[s.data.length]? = some (nextPage a.next)
    rw [List.getElem?_append_right (Nat.le_refl _), Nat.sub_self]
    rfl

theorem FileStore.Whole.endPage (h : a.Whole) (hf : a.file f = some s) (e : a.endPage f s = .ok (t, b)) :
    b.Whole ∧ b.file f = some t := by
  unfold FileStore.endPage at e
  split_ifs at e
  · cases e
    exact ⟨h, hf⟩
  · cases e
    exact ⟨(h.withIndirect hf).withPage (withIndirect_file hf), FileStore.set_self ..⟩

/-- **Appending keeps it**, page by page. -/
theorem FileStore.Whole.append (h : a.Whole) (hf : a.file f = some s) (e : a.append f s l = .ok (t, b)) :
    b.Whole := by
  induction a, s, l using FileStore.append.induct with
  | case1 a s =>
    rw [FileStore.append, dif_pos rfl] at e
    cases e
    exact h
  | case2 a s l hl tmp ih =>
    rw [FileStore.append, dif_neg hl] at e
    obtain ⟨y, hy, e⟩ := bind_eq_ok e
    obtain ⟨x, hend, hy⟩ := bind_eq_ok hy
    cases hy
    obtain ⟨hx, hfx⟩ := h.endPage hf hend
    let u : StoredFile := { x.1 with content := x.1.content ++ l.take tmp }
    exact ih u (x.2.set f u) (hx.set hfx rfl rfl) (FileStore.set_self ..) e

theorem FileStore.Even.create (h : a.Even) : a.create.2.Even := by
  intro g u hg
  by_cases hgf : g = nextPage a.next
  · rw [hgf] at hg
    cases (FileStore.set_self ..).symm.trans hg
    exact ⟨rfl, fun _ => Nat.zero_le _, fun _ => rfl⟩
  · exact h g u ((create_other hgf).symm.trans hg)

/-- **The pages that appending takes.** -/
theorem FileStore.Even.append (h : a.Even) (hf : a.file f = some s)
    (hmax : s.content.length + l.length ≤ 528 * 4096) :
    ∃ t b, a.append f s l = .ok (t, b) ∧ b.Even ∧ b.file f = some t ∧ t.content = s.content ++ l ∧
      b.next = nextPage^[pagesFor (s.content.length + l.length) - pagesFor s.content.length] a.next := by
  have hsince : SizedSince (pagesFor s.content.length) a.next f s a :=
    ⟨hf, (h f s hf).1, (h f s hf).2, Nat.le_refl _, by rw [Nat.sub_self, Function.iterate_zero_apply]⟩
  obtain ⟨t, b, e, ht, hc⟩ := hsince.append l hmax
  refine ⟨t, b, e, fun g u hg => ?_, ht.file, hc, ?_⟩
  · by_cases hgf : g = f
    · rw [hgf] at hg
      cases ht.file.symm.trans hg
      exact ⟨ht.data, ht.indirect⟩
    · exact h g u ((append_other hgf e).symm.trans hg)
  · rw [ht.next, hc, List.length_append]

end

/-! ## runs of the tool -/

/-- what a file is given: bytes by `file_write`, an entry by `append_dir` -/
inductive Added where
  | bytes (l : List UInt8)
  | entry (name : List UInt8) (inode : Nat)
deriving DecidableEq, Repr

def Added.text : Added → List UInt8
  | .bytes l => l
  | .entry name inode => entryBytes name inode

/-- all of it -/
def addedText (l : List Added) : List UInt8 := l.flatMap Added.text

/-- The volume, what `alloc_page` has returned so far, what the files and directories that were created have
been given, and which of them are directories. -/
structure ToolState where
  volume : MfsVolume
  allocs : List Nat
  files : Nat → Option (List Added)
  dirs : List Nat

/-- calls of the tool -/
inductive ToolOp where
  | createFile
  | createDirectory
  | write (inode : Nat) (buf : List UInt8)
  | link (dirInode : Nat) (name : List UInt8) (fileInode : Nat)

/-- `make_volume` calls `alloc_page` once, for the root directory -/
def ToolState.made (v : MfsVolume) : ToolState :=
  ⟨v, [v.root], Function.update (fun _ => none) v.root (some []), [v.root]⟩

def ToolState.after (s : ToolState) (v : MfsVolume) (files : Nat → Option (List Added)) (dirs : List Nat) :
    ToolState :=
  ⟨v, s.allocs ++ handedOut s.volume.nextInode v.nextInode, files, dirs⟩

def ToolState.add (s : ToolState) (f : Nat) (x : Added) : Nat → Option (List Added) :=
  Function.update s.files f ((s.files f).map (· ++ [x]))

/-- a call that returns -/
def toolStep (s : ToolState) : ToolOp → Option ToolState
  | .createFile => (createFile s.volume).toOption.map fun (p, v) =>
      s.after v (Function.update s.files p (some [])) s.dirs
  | .createDirectory => (createDirectory s.volume).toOption.map fun (p, v) =>
      s.after v (Function.update s.files p (some [])) (s.dirs ++ [p])
  | .write f buf => (appendFile s.volume f buf).toOption.map fun (_, v) => s.after v (s.add f (.bytes buf)) s.dirs
  | .link d name p => (appendDir s.volume d name p).toOption.map fun (_, v) =>
      s.after v (s.add d (.entry name p)) s.dirs

/-- where a pointer is: entry `k` of what a directory was given, or in the pages of a file -/
inductive Pointer where
  | entry (d k : Nat)
  | data (f i : Nat)
  | idata (f : Nat)
  | inodes (f i : Nat)
deriving DecidableEq, Repr

/-- what the pointer points to -/
def ToolState.Points (s : ToolState) (p : Nat) : Pointer → Prop
  | .entry d k => ∃ l name, s.files d = some l ∧ l[k]? = some (.entry name p)
  | .data f i => (s.files f).isSome ∧ i < 16 ∧ get64 (s.volume.inode f) (Mfs.data i) = p
  | .idata f => (s.files f).isSome ∧ get64 (s.volume.inode f) Mfs.idata = p
  | .inodes f i => (s.files f).isSome ∧ i < 512 ∧ get64 (s.volume.inode f) Mfs.idata ≠ 0 ∧
      get64 (s.volume.inode (get64 (s.volume.inode f) Mfs.idata)) (Mfs.inodes i) = p

/-- an entry for the inode -/
def ToolState.Linked (s : ToolState) (p : Nat) : Prop := ∃ d k, s.Points p (.entry d k)

/-- the size of the file -/
def ToolState.length (s : ToolState) (f : Nat) : Nat := (s.files f).elim 0 fun l => (addedText l).length

/-- the volume has a page for one more inode -/
def ToolState.RoomForFile (s : ToolState) : Prop := 64 + nextPage s.volume.nextInode < s.volume.pageCount

/-- the file has pointers, and the volume has pages, for `n` more bytes -/
def ToolState.Room (s : ToolState) (f n : Nat) : Prop :=
  s.length f + n ≤ 528 * 4096 ∧
    64 + nextPage^[pagesFor (s.length f + n) - pagesFor (s.length f)] s.volume.nextInode < s.volume.pageCount

/-- what the tool is used for: bytes and entries for what was created, and one entry for each inode -/
def ToolLegal (s : ToolState) : ToolOp → Prop
  | .createFile => s.RoomForFile
  | .createDirectory => s.RoomForFile
  | .write f buf => (s.files f).isSome ∧ s.Room f buf.length
  | .link d name p => d ∈ s.dirs ∧ (s.files p).isSome ∧ p ≠ s.volume.root ∧ ¬ s.Linked p ∧
      s.Room d (Mfs.dirEntry + name.length)

/-- the bit of an inode in the bitmap page of its group -/
def MfsVolume.bitmapBit (v : MfsVolume) (p : Nat) : Bool :=
  (v.inode (p / MFS_BITMAP_SIZE * MFS_BITMAP_SIZE) (p % MFS_BITMAP_SIZE / 8)).toNat.testBit (p % 8)

/-- **the file system check** -/
structure VolumeCheck (s : ToolState) : Prop where
  increasing : s.allocs.Pairwise (· < ·)
  proper : ∀ p ∈ s.allocs, p % MFS_BITMAP_SIZE ≠ 0
  /-- of the whole bitmap page, as far as the volume has it -/
  bitmap : ∀ p, 64 + p / MFS_BITMAP_SIZE * MFS_BITMAP_SIZE < s.volume.pageCount →
    (s.volume.bitmapBit p = true ↔ p ∈ s.allocs)
  targets : ∀ p x, p ≠ 0 → s.Points p x → p ∈ s.allocs
  once : ∀ p ∈ s.allocs, ∀ x y, s.Points p x → s.Points p y → x = y
  reached : (∀ f, (s.files f).isSome → f ≠ s.volume.root → s.Linked f) →
    ∀ p ∈ s.allocs, p ≠ s.volume.root → ∃ x, s.Points p x
  contents : ∀ f l, s.files f = some l → ∃ g, fileRead s.volume ⟨64 + f, 0⟩ (addedText l).length =
    .ok ((addedText l, g), s.volume)

/-! ## the check, over the store -/

/-- The store under the volume; what was added to the files makes their bytes, and no inode has two
entries. -/
structure ToolInv (s : ToolState) (a : FileStore) : Prop where
  stores : Stores s.volume (fun f => (s.files f).map addedText) a
  whole : a.Whole
  even : a.Even
  allocs : s.allocs = handedOut 0 a.next
  dirs : ∀ d ∈ s.dirs, (s.files d).isSome
  linked : ∀ p, s.Linked p → (s.files p).isSome
  single : ∀ p d k d' k', s.Points p (.entry d k) → s.Points p (.entry d' k') → d = d' ∧ k = k'

/-- what the page is for that a pointer to `p` points to -/
def Pointer.use (p : Nat) : Pointer → Nat × Slot
  | .entry _ _ => (p, .inode)
  | .data f i => (f, .data i)
  | .idata f => (f, .indirect)
  | .inodes f i => (f, .data (16 + i))

section
variable {s s' : ToolState} {a b : FileStore} {f p : Nat} {x y : Pointer}

theorem ToolInv.file_isSome (h : ToolInv s a) (f : Nat) : (s.files f).isSome = (a.file f).isSome := by
  have hc := congrArg Option.isSome (h.stores.contents f)
  rwa [Option.isSome_map, Option.isSome_map] at hc

/-- a file that was created, and what the store has of it -/
theorem ToolInv.file (h : ToolInv s a) (hf : (s.files f).isSome) :
    ∃ t, a.file f = some t ∧ FileAt s.volume f t ∧ Shape a.owner f t := by
  rw [h.file_isSome] at hf
  obtain ⟨t, ht⟩ := Option.isSome_iff_exists.mp hf
  exact ⟨t, ht, h.stores.refines.file f t ht, h.stores.refines.shape f t ht⟩

theorem ToolInv.mem_allocs (h : ToolInv s a) : p ∈ s.allocs ↔ Returned a.next p := by
  rw [h.allocs, mem_handedOut]
  exact ⟨fun ⟨h1, h2, h3⟩ => ⟨h1, h2, h3⟩, fun hr => ⟨hr.pos, hr.le, hr.proper⟩⟩

/-- a slot that is not 0 -/
theorem Shape.slot_owned {owner : Nat → Option (Nat × Slot)} {t : StoredFile} {i : Nat} (h : Shape owner f t)
    (hslot : t.data.getD i 0 = p) (hp : p ≠ 0) : owner p = some (f, .data i) := by
  have hi : i < t.data.length := by
    by_contra hge
    rw [List.getD_eq_getElem?_getD, List.getElem?_eq_none (Nat.le_of_not_lt hge)] at hslot
    exact hp hslot.symm
  rw [← hslot]
  exact h.data_owned hi

/-- **The owner of a page knows who points to it.** -/
theorem ToolInv.owner (h : ToolInv s a) (hp : p ≠ 0) (hx : s.Points p x) : a.owner p = some (x.use p) := by
  cases x with
  | entry d k =>
    obtain ⟨t, -, -, hs⟩ := h.file (h.linked p ⟨d, k, hx⟩)
    exact hs.ownsInode
  | data g i =>
    obtain ⟨hg, hi, e⟩ := hx
    obtain ⟨t, -, hat, hs⟩ := h.file hg
    rw [hat.data i hi] at e
    exact hs.slot_owned e hp
  | idata g =>
    obtain ⟨hg, e⟩ := hx
    obtain ⟨t, -, hat, hs⟩ := h.file hg
    rw [hat.idata] at e
    rw [← e]
    exact hs.ownsIndirect (e ▸ hp)
  | inodes g i =>
    obtain ⟨hg, hi, hne, e⟩ := hx
    obtain ⟨t, -, hat, hs⟩ := h.file hg
    rw [hat.idata] at hne e
    rw [hat.inodes hne i hi] at e
    exact hs.slot_owned e hp

/-- at most one pointer has a given use -/
theorem ToolInv.once (h : ToolInv s a) (hp : p ≠ 0) (hx : s.Points p x) (hy : s.Points p y) : x = y := by
  have e : x.use p = y.use p := Option.some.inj ((h.owner hp hx).symm.trans (h.owner hp hy))
  cases x with
  | entry d k =>
    cases y with
    | entry d' k' =>
      obtain ⟨rfl, rfl⟩ := h.single p d k d' k' hx hy
      rfl
    | data => cases e
    | idata => cases e
    | inodes => cases e
  | data g i =>
    cases y with
    | entry => cases e
    | data g' i' =>
      cases e
      rfl
    | idata => cases e
    | inodes g' j =>
      have hi := hx.2.1
      simp only [Pointer.use, Prod.mk.injEq, Slot.data.injEq] at e
      omega
  | idata g =>
    cases y with
    | entry => cases e
    | data => cases e
    | idata g' =>
      cases e
      rfl
    | inodes => cases e
  | inodes g j =>
    cases y with
    | entry => cases e
    | data g' i =>
      have hi := hy.2.1
      simp only [Pointer.use, Prod.mk.injEq, Slot.data.injEq] at e
      omega
    | idata => cases e
    | inodes g' j' =>
      simp only [Pointer.use, Prod.mk.injEq, Slot.data.injEq] at e
      obtain ⟨rfl, hj⟩ := e
      rw [Nat.add_left_cancel hj]

/-- **Every page is reached** once every inode has its entry. -/
theorem ToolInv.reached (h : ToolInv s a)
    (hall : ∀ f, (s.files f).isSome → f ≠ s.volume.root → s.Linked f) (hp : p ∈ s.allocs)
    (hroot : p ≠ s.volume.root) : ∃ x, s.Points p x := by
  obtain ⟨f, slot, t, -, ht, hhas⟩ := h.whole.used p (h.mem_allocs.mp hp)
  have hf : (s.files f).isSome := by
    rw [h.file_isSome, ht]
    rfl
  have hat := h.stores.refines.file f t ht
  have hs := h.stores.refines.shape f t ht
  cases slot with
  | inode =>
    obtain rfl : p = f := hhas
    obtain ⟨d, k, hx⟩ := hall p hf hroot
    exact ⟨.entry d k, hx⟩
  | indirect =>
    refine ⟨.idata f, hf, ?_⟩
    rw [hat.idata]
    exact hhas
  | data i =>
    have hi : t.data[i]? = some p := hhas
    have hlt : i < t.data.length := (List.getElem?_eq_some_iff.mp hi).1
    have hget : t.data.getD i 0 = p := by
      rw [List.getD_eq_getElem?_getD, hi]
      rfl
    by_cases h16 : i < 16
    · refine ⟨.data f i, hf, h16, ?_⟩
      rw [hat.data i h16]
      exact hget
    · have hne := hs.indirect (by omega)
      have hfew := hs.few
      refine ⟨.inodes f (i - 16), hf, by omega, ?_, ?_⟩
      · rw [hat.idata]
        exact hne
      · rw [hat.idata, hat.inodes hne _ (by omega), Nat.add_sub_cancel' (Nat.le_of_not_lt h16)]
        exact hget

theorem ToolInv.check (h : ToolInv s a) : VolumeCheck s where
  increasing := by
    rw [h.allocs]
    exact handedOut_sorted 0 a.next
  proper := fun p hp => (h.mem_allocs.mp hp).proper
  bitmap := fun p hin => (h.stores.refines.bitmap p hin).trans h.mem_allocs.symm
  targets := fun p x hp hx => h.mem_allocs.mpr (h.stores.refines.owned p _ (h.owner hp hx))
  once := fun p hp x y => h.once (Nat.pos_iff_ne_zero.mp (h.mem_allocs.mp hp).pos)
  reached := fun hall p hp hroot => h.reached hall hp hroot
  contents := fun f l hl => by
    have hc : ((s.files f).map addedText) = (a.file f).map StoredFile.content := h.stores.contents f
    rw [hl] at hc
    obtain ⟨t, ht, e⟩ := Option.map_eq_some_iff.mp hc.symm
    have hread := fileRead_spec h.stores.refines ht (addedText l).length (Nat.zero_le _)
    rw [List.drop_zero, e, List.take_length] at hread
    exact ⟨_, hread⟩

end

/-! ## one call -/

/-- what the call hands out is what `alloc_page` returned -/
def ToolState.HandsOut (s s' : ToolState) : Prop :=
  ∃ l, Allocates s.volume l s'.volume ∧ s'.allocs = s.allocs ++ l

theorem ToolState.HandsOut.after {s : ToolState} {v : MfsVolume} {l : List Nat} (h : Allocates s.volume l v)
    (files : Nat → Option (List Added)) (dirs : List Nat) : s.HandsOut (s.after v files dirs) := by
  obtain ⟨-, rfl⟩ := h.handedOut
  exact ⟨_, h, rfl⟩

theorem addedText_snoc (l : List Added) (x : Added) : addedText (l ++ [x]) = addedText l ++ x.text := by
  unfold addedText
  rw [List.flatMap_append, List.flatMap_singleton]

/-- the bytes after something was added -/
theorem map_addedText_add {s : ToolState} {f : Nat} {l : List Added} (x : Added) (hl : s.files f = some l) :
    (fun g => (s.add f x g).map addedText) =
      Function.update (fun g => (s.files g).map addedText) f (some (addedText l ++ x.text)) := by
  rw [← addedText_snoc, ToolState.add, hl]
  exact Function.comp_update (Option.map addedText) s.files f _

/-- the bytes after a file was created -/
theorem map_addedText_new (files : Nat → Option (List Added)) (p : Nat) :
    (fun g => (Function.update files p (some []) g).map addedText) =
      Function.update (fun g => (files g).map addedText) p (some []) :=
  Function.comp_update (Option.map addedText) files p (some [])

section
variable {s s' : ToolState} {a b : FileStore} {f p q d k : Nat} {v : MfsVolume}

/-- a new file has no entries -/
theorem ToolState.entry_of_new (hfiles : s'.files = Function.update s.files q (some []))
    (hx : s'.Points p (.entry d k)) : s.Points p (.entry d k) := by
  obtain ⟨l, name, hl, hk⟩ := hx
  rw [hfiles] at hl
  by_cases hd : d = q
  · rw [hd, Function.update_self] at hl
    cases hl
    cases hk
  · rw [Function.update_of_ne hd] at hl
    exact ⟨l, name, hl, hk⟩

/-- an entry is an old one, or what was added -/
theorem ToolState.entry_of_add {x : Added} (hfiles : s'.files = s.add f x) (hx : s'.Points p (.entry d k)) :
    s.Points p (.entry d k) ∨ ∃ l name, s.files f = some l ∧ d = f ∧ k = l.length ∧ x = .entry name p := by
  obtain ⟨l, name, hl, hk⟩ := hx
  rw [hfiles] at hl
  unfold ToolState.add at hl
  by_cases hd : d = f
  · rw [hd, Function.update_self] at hl
    obtain ⟨l', hl', rfl⟩ := Option.map_eq_some_iff.mp hl
    by_cases hlt : k < l'.length
    · rw [List.getElem?_append_left hlt] at hk
      exact Or.inl ⟨l', name, hd ▸ hl', hk⟩
    · rw [List.getElem?_append_right (Nat.le_of_not_lt hlt), List.getElem?_singleton] at hk
      split_ifs at hk with h0
      exact Or.inr ⟨l', name, hl', hd, by omega, Option.some.inj hk⟩
  · rw [Function.update_of_ne hd] at hl
    exact Or.inl ⟨l, name, hl, hk⟩

theorem ToolState.add_isSome (f : Nat) (x : Added) (g : Nat) :
    (s.add f x g).isSome = (s.files g).isSome := by
  unfold ToolState.add
  by_cases hg : g = f
  · rw [hg, Function.update_self, Option.isSome_map]
  · rw [Function.update_of_ne hg]

theorem ToolState.new_isSome {files : Nat → Option (List Added)} {g : Nat} (hg : (files g).isSome) :
    (Function.update files q (some []) g).isSome := by
  by_cases h : g = q
  · rw [h, Function.update_self]
    rfl
  · rw [Function.update_of_ne h]
    exact hg

/-- what was returned so far, after a call -/
theorem ToolInv.allocs_after {l : List Nat} {c : Contents} (h : ToolInv s a) (hall : Allocates s.volume l v)
    (hst : Stores v c b) :
    s.allocs ++ handedOut s.volume.nextInode v.nextInode = handedOut 0 b.next := by
  rw [h.allocs, h.stores.refines.next, ← hst.refines.next, ← handedOut_append (Nat.zero_le _)]
  rw [← h.stores.refines.next]
  exact hall.handedOut.1

/-- **A new file or directory.** -/
theorem ToolInv.create {mode : Nat} {dirs : List Nat} (h : ToolInv s a)
    (e : createFileRaw s.volume mode = .ok (p, v)) (hdirs : ∀ d ∈ dirs, d ∈ s.dirs ∨ d = p) :
    s.HandsOut (s.after v (Function.update s.files p (some [])) dirs) ∧
      ToolInv (s.after v (Function.update s.files p (some [])) dirs) a.create.2 := by
  obtain ⟨l, hall⟩ := (createFileRaw_allocating h.stores.refines mode).result p v e
  obtain ⟨rfl, hst⟩ := h.stores.create e
  have hnone : a.file (nextPage a.next) = none := by
    cases hf : a.file (nextPage a.next) with
    | none => rfl
    | some t =>
      have hown := (h.stores.refines.shape _ t hf).ownsInode
      rw [h.stores.refines.nextPage_free] at hown
      cases hown
  refine ⟨.after hall _ _, ?_⟩
  constructor
  · show Stores v (fun g => (Function.update s.files (nextPage a.next) (some []) g).map addedText) a.create.2
    rw [map_addedText_new]
    exact hst
  · exact h.whole.create hnone
  · exact h.even.create
  · exact h.allocs_after hall hst
  · intro d hd
    rcases hdirs d hd with hd | rfl
    · exact ToolState.new_isSome (h.dirs d hd)
    · show (Function.update s.files (nextPage a.next) (some []) (nextPage a.next)).isSome
      rw [Function.update_self]
      rfl
  · intro q hq
    obtain ⟨d, k, hx⟩ := hq
    exact ToolState.new_isSome (h.linked q ⟨d, k, ToolState.entry_of_new rfl hx⟩)
  · intro q d k d' k' hx hy
    exact h.single q d k d' k' (ToolState.entry_of_new rfl hx) (ToolState.entry_of_new rfl hy)

/-- **Something is added to a file.**  An entry is the first for its inode. -/
theorem ToolInv.add {x : Added} {l : List Nat} {c : List Added} (h : ToolInv s a)
    (hc : s.files f = some c) (hall : Allocates s.volume l v) (hw : b.Whole) (he : b.Even)
    (hst : Stores v (Function.update (fun g => (s.files g).map addedText) f (some (addedText c ++ x.text))) b)
    (hx : ∀ name p, x = .entry name p → (s.files p).isSome ∧ ¬ s.Linked p) :
    s.HandsOut (s.after v (s.add f x) s.dirs) ∧ ToolInv (s.after v (s.add f x) s.dirs) b := by
  refine ⟨.after hall _ _, ?_⟩
  constructor
  · show Stores v (fun g => (s.add f x g).map addedText) b
    rw [map_addedText_add x hc]
    exact hst
  · exact hw
  · exact he
  · exact h.allocs_after hall hst
  · intro d hd
    exact (ToolState.add_isSome f x d).trans (h.dirs d hd)
  · intro q hq
    obtain ⟨d, k, hp⟩ := hq
    refine (ToolState.add_isSome f x q).trans ?_
    rcases ToolState.entry_of_add rfl hp with hp | ⟨_, name, -, -, -, e⟩
    · exact h.linked q ⟨d, k, hp⟩
    · exact (hx name q e).1
  · intro q d k d' k' hp hq
    rcases ToolState.entry_of_add rfl hp with hp | ⟨m, name, hm, rfl, rfl, e⟩
    · rcases ToolState.entry_of_add rfl hq with hq | ⟨_, name, -, -, -, e⟩
      · exact h.single q d k d' k' hp hq
      · exact absurd ⟨d, k, hp⟩ (hx name q e).2
    · rcases ToolState.entry_of_add rfl hq with hq | ⟨m', -, hm', rfl, rfl, -⟩
      · exact absurd ⟨d', k', hq⟩ (hx name q e).2
      · rw [Option.some.inj (hm.symm.trans hm')]
        exact ⟨rfl, rfl⟩

/-- the file of the store that was given all that `c` is -/
theorem ToolInv.stored {c : List Added} (h : ToolInv s a) (hc : s.files f = some c) :
    ∃ t, a.file f = some t ∧ t.content = addedText c := by
  have e : (s.files f).map addedText = (a.file f).map StoredFile.content := h.stores.contents f
  rw [hc] at e
  exact Option.map_eq_some_iff.mp e.symm

theorem ToolInv.length_eq {t : StoredFile} (h : ToolInv s a) (ht : a.file f = some t) :
    s.length f = t.content.length := by
  have e : (s.files f).map addedText = (a.file f).map StoredFile.content := h.stores.contents f
  rw [ht] at e
  obtain ⟨c, hc, hcontent⟩ := Option.map_eq_some_iff.mp e
  rw [ToolState.length, hc, ← hcontent]
  rfl

/-- where there is room, a file is created -/
theorem ToolInv.create_ok (h : ToolInv s a) (hroom : s.RoomForFile) (mode : Nat) :
    ∃ p v, createFileRaw s.volume mode = .ok (p, v) := by
  have hsim := createFileRaw_simulates h.stores.refines mode
  change if 64 + nextPage a.next < s.volume.pageCount then _ else _ at hsim
  rw [ToolState.RoomForFile, h.stores.refines.next] at hroom
  rw [if_pos hroom] at hsim
  obtain ⟨p, v, e, -⟩ := hsim
  exact ⟨p, v, e⟩

/-- where there is room, the store gets the bytes -/
theorem ToolInv.append_ok {t : StoredFile} {l : List UInt8} (h : ToolInv s a) (ht : a.file f = some t)
    (hroom : s.Room f l.length) :
    ∃ u b, a.append f t l = .ok (u, b) ∧ b.Even ∧ 64 + b.next < s.volume.pageCount := by
  obtain ⟨hmax, hin⟩ := hroom
  rw [h.length_eq ht] at hmax hin
  rw [h.stores.refines.next] at hin
  obtain ⟨u, b, e, heven, -, -, hnext⟩ := h.even.append ht hmax
  rw [← hnext] at hin
  exact ⟨u, b, e, heven, hin⟩

/-- A call that appends something to a file returns, and keeps the invariant. -/
theorem ToolInv.append {β : Type} {R : β → StoredFile → FileStore → Prop} {r : Outcome β} {x : Added} {c : List Added}
    {t : StoredFile} (h : ToolInv s a) (hc : s.files f = some c) (ht : a.file f = some t)
    (hcontent : t.content = addedText c) (hroom : s.Room f x.text.length)
    (hsim : Simulates s.volume R r (a.append f t x.text)) (hall : Allocating s.volume r)
    (hstores : ∀ y v, r = .ok (y, v) → ∃ u b, a.append f t x.text = .ok (u, b) ∧
      Stores v (Function.update (fun g => (s.files g).map addedText) f (some (t.content ++ x.text))) b)
    (hx : ∀ name p, x = .entry name p → (s.files p).isSome ∧ ¬ s.Linked p) :
    ∃ y v b, r = .ok (y, v) ∧ s.HandsOut (s.after v (s.add f x) s.dirs) ∧
      ToolInv (s.after v (s.add f x) s.dirs) b := by
  obtain ⟨u, b, happ, heven, hin⟩ := h.append_ok ht hroom
  rw [happ] at hsim
  change if 64 + b.next < s.volume.pageCount then _ else _ at hsim
  rw [if_pos hin] at hsim
  obtain ⟨y, v, e, -⟩ := hsim
  obtain ⟨l, hl⟩ := hall.result y v e
  obtain ⟨u', b', happ', hst⟩ := hstores y v e
  cases happ.symm.trans happ'
  rw [hcontent] at hst
  exact ⟨y, v, b, e, h.add hc hl (h.whole.append ht happ) heven hst hx⟩

/-- **One call** returns, and keeps the invariant. -/
theorem ToolInv.step {op : ToolOp} (h : ToolInv s a) (hl : ToolLegal s op) :
    ∃ s', toolStep s op = some s' ∧ s.HandsOut s' ∧ ∃ b, ToolInv s' b := by
  unfold toolStep
  cases op with
  | createFile =>
    obtain ⟨p, v, e⟩ := h.create_ok hl (MFS_TYPE_FILE ||| 0o644)
    obtain ⟨hout, hinv⟩ := h.create e fun d hd => Or.inl hd
    rw [createFile, e]
    exact ⟨_, rfl, hout, _, hinv⟩
  | createDirectory =>
    obtain ⟨p, v, e⟩ := h.create_ok hl (MFS_TYPE_DIR ||| 0o755)
    obtain ⟨hout, hinv⟩ := h.create e fun d hd => (List.mem_append.mp hd).imp_right List.mem_singleton.mp
    rw [createDirectory, e]
    exact ⟨_, rfl, hout, _, hinv⟩
  | write f buf =>
    obtain ⟨hf, hroom⟩ := hl
    obtain ⟨c, hc⟩ := Option.isSome_iff_exists.mp hf
    obtain ⟨t, ht, hcontent⟩ := h.stored hc
    obtain ⟨g, v, b, e, hout, hinv⟩ := h.append (r := appendFile s.volume f buf) (x := .bytes buf) hc ht hcontent hroom
      (appendFile_simulates h.stores.refines ht) (appendFile_allocating h.stores.refines ht buf)
      (fun _ _ e => h.stores.append ht e) fun _ _ e => by cases e
    dsimp only
    rw [e]
    exact ⟨_, rfl, hout, _, hinv⟩
  | link d name p =>
    obtain ⟨hd, hp, -, hnew, hroom⟩ := hl
    obtain ⟨c, hc⟩ := Option.isSome_iff_exists.mp (h.dirs d hd)
    obtain ⟨t, ht, hcontent⟩ := h.stored hc
    have hlen : (entryBytes name p).length = Mfs.dirEntry + name.length := by
      rw [entryBytes, List.length_append]
      rfl
    rw [← hlen] at hroom
    obtain ⟨g, v, b, e, hout, hinv⟩ := h.append (x := .entry name p) hc ht hcontent hroom
      (appendDir_simulates h.stores.refines ht name p) (appendDir_allocating h.stores.refines ht name p)
      (fun _ _ e => h.stores.link ht e) fun _ _ e => by
        cases e
        exact ⟨hp, hnew⟩
    dsimp only
    rw [e]
    exact ⟨_, rfl, hout, _, hinv⟩

theorem ToolState.no_entry : ¬ (ToolState.made v).Points p (.entry d k) := by
  intro hx
  obtain ⟨l, name, hl, hk⟩ := hx
  have hl' : Function.update (fun _ => none) v.root (some []) d = some l := hl
  by_cases hd : d = v.root
  · rw [hd, Function.update_self] at hl'
    cases hl'
    cases hk
  · rw [Function.update_of_ne hd] at hl'
    cases hl'

theorem makeVolume_root {size now : Nat} (hsize : size + 4095 < 2^31)
    (hmake : makeVolume size now = .ok ((), v)) : v.root = 1 := by
  have hspec := makeVolume_spec hsize now
  split_ifs at hspec
  · obtain ⟨u, e, -, hroot, -⟩ := hspec
    cases hmake.symm.trans e
    exact hroot
  · cases hmake.symm.trans hspec

/-- the new volume -/
theorem ToolInv.made {size now : Nat} (hpos : 0 < size) (hsize : size + 4095 < 2^31)
    (hmake : makeVolume size now = .ok ((), v)) : ToolInv (.made v) .initial := by
  have hroot := makeVolume_root hsize hmake
  have hblank : FileStore.blank.Whole := ⟨fun p hp => absurd hp.pos (Nat.not_lt.mpr hp.le)⟩
  constructor
  · show Stores v (fun g => (Function.update (fun _ => none) v.root (some []) g).map addedText) .initial
    rw [map_addedText_new]
    exact Stores.make hpos hsize hmake
  · exact hblank.create rfl
  · exact FileStore.Even.create fun f t hf => by cases hf
  · show [v.root] = handedOut 0 (nextPage 0)
    rw [hroot, handedOut_next]
    rfl
  · intro d hd
    have hd' : d = v.root := List.mem_singleton.mp hd
    show (Function.update (fun _ => none) v.root (some []) d).isSome
    rw [hd', Function.update_self]
    rfl
  · intro p hp
    obtain ⟨d, k, hx⟩ := hp
    exact absurd hx ToolState.no_entry
  · intro p d k d' k' hx
    exact absurd hx ToolState.no_entry

end

/-- **The file system check passes** in every state of every run from a new volume: the pages that
`alloc_page` returned increase and are those whose bits are set, and no page has two pointers.  Once every
file and directory has its entry, each page but the root has one.  What is written is written beside the
bitmap pages. -/
theorem volume_check {size now : Nat} {v : MfsVolume} (hpos : 0 < size) (hsize : size + 4095 < 2^31)
    (hmake : makeVolume size now = .ok ((), v)) (ops : List ToolOp)
    (hops : Along toolStep ToolLegal (.made v) ops) :
    Always toolStep VolumeCheck (fun s _ s' => s.HandsOut s') (.made v) ops := by
  have hinv : Always toolStep (fun s => ∃ a, ToolInv s a) (fun s _ s' => s.HandsOut s') (.made v) ops := by
    refine always_of_step (fun s op hs hl => ?_) ops _ ⟨_, ToolInv.made hpos hsize hmake⟩ hops
    obtain ⟨a, ha⟩ := hs
    exact ha.step hl
  refine hinv.mono (fun s hs => ?_) (fun s op s' _ hout _ => hout) ops _
  obtain ⟨a, ha⟩ := hs
  exact ha.check

/-- a file, and its entry in the root directory -/
theorem volume_check_two : ∃ v, makeVolume 300000 0 = .ok ((), v) ∧
    Always toolStep VolumeCheck (fun s _ s' => s.HandsOut s') (.made v) [.createFile, .link 1 [97] 2] := by
  have hmake := @makeVolume_spec 300000 (by decide) 0
  rw [if_pos (by decide)] at hmake
  obtain ⟨v, hv, hr, hroot, hsize, -⟩ := hmake
  have hcount : v.pageCount = 74 := by
    rw [MfsVolume.pageCount, hsize]
    rfl
  have hroom : (ToolState.made v).RoomForFile := by
    show 64 + nextPage v.nextInode < v.pageCount
    rw [hr.next, hcount]
    decide
  have hinv := ToolInv.made (by decide) (by decide) hv
  refine ⟨v, hv, volume_check (by decide) (by decide) hv _ ⟨hroom, fun s h => ⟨?_, fun _ _ => trivial⟩⟩⟩
  obtain ⟨p, v₁, e⟩ := hinv.create_ok hroom (MFS_TYPE_FILE ||| 0o644)
  have e' : createFile v = .ok (p, v₁) := e
  have hs : (ToolState.made v).after v₁ (Function.update (ToolState.made v).files p (some []))
      (ToolState.made v).dirs = s := by
    rw [toolStep, ToolState.made, e'] at h
    exact Option.some.inj h
  subst hs
  have hinv₁ : ToolInv ((ToolState.made v).after v₁ _ (ToolState.made v).dirs) _ :=
    (hinv.create e fun d hd => Or.inl hd).2
  obtain ⟨q, b, hb, -, hk, rfl, -⟩ := (createFileRaw_simulates hr _).of_ok (fun h => by cases h) e'
  cases hb
  have hlen : ToolState.length _ 1 = 0 := hinv₁.length_eq (create_other (by decide : 1 ≠ nextPage FileStore.initial.next))
  refine ⟨?_, rfl, ?_, ?_, ?_, ?_⟩
  · show 1 ∈ [v.root]
    rw [hroot]
    exact List.mem_singleton_self 1
  · show 2 ≠ v₁.root
    rw [hk.root, hroot]
    decide
  · intro hlinked
    obtain ⟨d, k, hx⟩ := hlinked
    exact ToolState.no_entry (ToolState.entry_of_new rfl hx)
  · refine Nat.le_trans (Nat.add_le_add_right (Nat.le_of_eq hlen) _) ?_
    decide
  · have hnext : v₁.nextInode = 2 := hinv₁.stores.refines.next
    show 64 + nextPage^[pagesFor (ToolState.length _ 1 + _) - pagesFor (ToolState.length _ 1)] v₁.nextInode <
      v₁.pageCount
    rw [hlen, hnext, hk.pageCount, hcount]
    decide

end FuseeOS
