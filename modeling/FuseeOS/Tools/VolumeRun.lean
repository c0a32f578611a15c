import FuseeOS.Tools.VolumeStream

/-!
# Volumes as the tool builds them

* `makeVolume_spec`        the volume with the root directory only;
* `vbrLoop_spec`           the boot record, as long as it is in front of the metadata;
* `appendDir_simulates`    an entry at the end of a directory;
* `Built`                  the volumes that calls of the tool give, which all hold a store;
* `file_stream`            files are read as they were written, whatever the parts.
-/

namespace FuseeOS
open Bytes

/-! ## a new volume -/

/-- no file, and no page handed out -/
def FileStore.blank : FileStore := ⟨0, fun _ => none, fun _ => none⟩

/-- the root directory only -/
def FileStore.initial : FileStore := FileStore.blank.create.2

section
variable {v v' : MfsVolume} {a : FileStore} {f : Nat} {s : StoredFile}

/-- what is in front of the files does not matter -/
theorem Refines.congr (h : Refines v a) (hsize : v'.size = v.size) (hnext : v'.nextInode = v.nextInode)
    (hpages : ∀ n, 64 ≤ n → v'.pages n = v.pages n) (hw : v'.written .files = v.written .files) :
    Refines v' a := by
  have hcount : v'.pageCount = v.pageCount := by
    unfold MfsVolume.pageCount
    rw [hsize]
  have hinode : ∀ q, v'.inode q = v.inode q := fun q => hpages _ (Nat.le_add_right 64 q)
  refine {
    next := hnext.trans h.next
    room := by
      rw [hcount]
      exact h.room
    small := by
      rw [hcount]
      exact h.small
    owned := h.owned
    blank := fun p hlt hmod hin => by
      rw [hinode]
      exact h.blank p hlt hmod (hcount ▸ hin)
    shape := h.shape
    file := fun g t hg => (h.file g t hg).frame (h.shape g t hg) fun q _ _ => hinode q
    region := fun n hn => by
      rw [hcount]
      exact h.region n (hw ▸ hn)
    bitmap := fun p hin => by
      rw [hinode]
      exact h.bitmap p (hcount ▸ hin) }

theorem Refines.beside (h : Refines v a) {w : Writer} (hw : w ≠ .files) {n : Nat} (hn : n < 64) (off : Nat)
    (l : List UInt8) : Refines (v.put w n off l) a := by
  refine h.congr rfl rfl (fun m hm => v.put_ne _ _ _ (by omega)) (funext fun m => ?_)
  rw [v.put_written, decide_eq_false hw.symm, Bool.false_and, Bool.or_false]

/-- a volume of zeros -/
theorem Refines.zeros (size now : Nat) (hroom : 64 < size / 4096) (hsmall : size / 4096 < 2^63) :
    Refines ⟨size, fun _ _ => 0, now, 0, 0, fun _ _ => false⟩ .blank where
  next := rfl
  room := hroom
  small := hsmall
  owned := fun p o ho => by cases ho
  blank := fun p _ _ _ => rfl
  shape := fun g t hg => by cases hg
  file := fun g t hg => by cases hg
  region := fun n hn => by cases hn
  bitmap := fun p _ => by
    refine ⟨fun hbit => ?_, fun hret => absurd hret.pos (Nat.not_lt.mpr hret.le)⟩
    have hzero : (0 : UInt8).toNat.testBit (p % 8) = false := Nat.zero_testBit _
    exact absurd (hzero.symm.trans hbit) Bool.false_ne_true

/-- the first bitmap page is missing -/
theorem createDirectory_missing (hc : v.pageCount = 64) (hn : v.nextInode = 0) :
    createDirectory v = .error .undefined := by
  have hnone : inodePage v 0 = .error .undefined := inodePage_error (by decide) (by omega)
  have halloc : allocPage v = .error .undefined := by
    unfold allocPage
    rw [hn]
    exact congrArg (fun r => Except.bind r _) hnone
  rw [createDirectory, createFileRaw, halloc]
  rfl

/-- the root directory in a volume that has a metadata page, and nothing else -/
theorem rootDirectory_spec (hr : Refines v .blank) (hmeta : ∀ n, v.written .metadata n = true → n = 63)
    (hvbr : v.written .vbr = fun _ => false) :
    if 65 < v.pageCount then ∃ u, ((createDirectory v).bind fun (root, v) =>
        .ok ((), { v.put .metadata MFS_METADATA_PAGE Mfs.root (le 8 root) with root := root })) = .ok ((), u) ∧
      Refines u .initial ∧ u.root = 1 ∧ u.size = v.size ∧
      (∀ n, u.written .metadata n = true → n = 63) ∧ u.written .vbr = fun _ => false
    else createDirectory v = .error .undefined := by
  have hc := createFileRaw_simulates hr (MFS_TYPE_DIR ||| 0o755)
  change if 64 + 1 < v.pageCount then _ else _ at hc
  rw [createDirectory]
  by_cases h65 : 65 < v.pageCount
  · rw [if_pos h65] at hc ⊢
    obtain ⟨p, u, e, hu, hk, rfl, -⟩ := hc
    have hput := hu.beside (by decide : Writer.metadata ≠ .files) (by decide : MFS_METADATA_PAGE < 64) Mfs.root
      (le 8 (nextPage 0))
    rw [e, ok_bind]
    refine ⟨_, rfl, hput.congr rfl rfl (fun _ _ => rfl) rfl, rfl, hk.size, fun n hn => ?_, ?_⟩
    · have hor : (u.written .metadata n || decide (n = MFS_METADATA_PAGE)) = true := hn
      rw [hk.metadata] at hor
      rcases Bool.or_eq_true_iff.mp hor with hw | hw
      · exact hmeta n hw
      · exact of_decide_eq_true hw
    · funext n
      have hw : u.written .vbr n = false := (congrFun hk.vbr n).trans (congrFun hvbr n)
      exact (Bool.or_false _).trans hw
  · rw [if_neg h65] at hc ⊢
    exact hc

/-- **The volume with the root directory only.** -/
theorem makeVolume_spec {size : Nat} (hsize : size + 4095 < 2^31) (now : Nat) :
    if 65 < (size + 4095) / 4096 then ∃ v, makeVolume size now = .ok ((), v) ∧ Refines v .initial ∧
      v.root = 1 ∧ v.size = (size + 4095) / 4096 * 4096 ∧
      (∀ n, v.written .metadata n = true → n = 63) ∧ v.written .vbr = fun _ => false
    else makeVolume size now = .error .undefined := by
  have hround : (size + MFS_PAGE_SIZE - 1) / MFS_PAGE_SIZE * MFS_PAGE_SIZE = (size + 4095) / 4096 * 4096 := by
    have hp : MFS_PAGE_SIZE = 4096 := rfl
    rw [hp]
    omega
  have hdiv : (size + 4095) / 4096 * 4096 / 4096 = (size + 4095) / 4096 := Nat.mul_div_cancel _ (by decide)
  have hcount : ∀ u : MfsVolume, u.size = (size + 4095) / 4096 * 4096 → u.pageCount = (size + 4095) / 4096 :=
    fun u hu => by rw [MfsVolume.pageCount, hu, hdiv]
  unfold makeVolume
  dsimp only
  rw [hround]
  generalize hv : (((MfsVolume.put ⟨(size + 4095) / 4096 * 4096, fun _ _ => 0, now, 0, 0, fun _ _ => false⟩
    .metadata MFS_METADATA_PAGE 0 MFS_MAGIC).put .metadata MFS_METADATA_PAGE Mfs.version
      (le 4 0x01000000)).put .metadata MFS_METADATA_PAGE Mfs.pageCount
        (le 8 ((size + 4095) / 4096 * 4096 / MFS_PAGE_SIZE))) = v
  have hvs : v.size = (size + 4095) / 4096 * 4096 := by rw [← hv]; rfl
  have hvc : v.pageCount = (size + 4095) / 4096 := hcount v hvs
  have hvn : v.nextInode = 0 := by rw [← hv]; rfl
  have hmeta : MFS_METADATA_PAGE = 63 := rfl
  rw [hcount _ rfl]
  by_cases h63 : (size + 4095) / 4096 ≤ MFS_METADATA_PAGE
  · rw [if_pos h63, if_neg (by omega)]
  rw [if_neg h63]
  by_cases h64 : (size + 4095) / 4096 = 64
  · rw [if_neg (by omega), createDirectory_missing (hvc.trans h64) hvn]
    rfl
  · have hr : Refines v .blank := by
      rw [← hv]
      exact (((Refines.zeros _ now (by rw [hdiv]; omega) (by rw [hdiv]; omega)).beside (by decide) (by decide) _ _).beside
        (by decide) (by decide) _ _).beside (by decide) (by decide) _ _
    have hroot := rootDirectory_spec hr (fun n hn => by
      rw [← hv] at hn
      simpa only [MfsVolume.put_written, Bool.false_or, decide_true, Bool.true_and, Bool.or_self,
        decide_eq_true_eq] using hn) (by
      rw [← hv]
      rfl)
    rw [hvc, hvs] at hroot
    by_cases h65 : 65 < (size + 4095) / 4096
    · rw [if_pos h65] at hroot ⊢
      exact hroot
    · rw [if_neg h65] at hroot ⊢
      rw [hroot]
      rfl

/-! ## the boot record -/

/-- the boot record, as long as it is in front of the metadata -/
theorem vbrLoop_spec (h : Refines v a) {n : Nat} (hn : n ≤ 63) {src : List UInt8}
    (hlen : src.length ≤ (63 - n) * 4096) : ∃ v', vbrLoop v n src = .ok ((), v') ∧ Refines v' a ∧
      v'.root = v.root ∧ v'.size = v.size ∧ v'.written .metadata = v.written .metadata ∧
      ∀ m, v'.written .vbr m = true → v.written .vbr m = true ∨ m < 63 := by
  induction hk : src.length using Nat.strong_induction_on generalizing v n src with
  | _ k ih =>
    subst hk
    have hpagesize : MFS_PAGE_SIZE = 4096 := rfl
    rw [vbrLoop]
    by_cases hsrc : src = []
    · rw [dif_pos hsrc]
      exact ⟨v, rfl, h, rfl, rfl, rfl, fun m hm => Or.inl hm⟩
    · have hpos := List.length_pos_iff.mpr hsrc
      have hn63 : n < 63 := by omega
      have hroom := h.room
      rw [dif_neg hsrc, if_pos (by omega)]
      obtain ⟨v', e, hr, h1, h2, h3, h4⟩ := ih (src.drop MFS_PAGE_SIZE).length
        (by rw [List.length_drop, hpagesize]; omega)
        (h.beside (by decide : Writer.vbr ≠ .files) (by omega : n < 64) 0 (src.take MFS_PAGE_SIZE))
        (by omega : n + 1 ≤ 63) (by rw [List.length_drop, hpagesize]; omega) rfl
      refine ⟨v', e, hr, h1, h2, h3.trans ?_, fun m hm => ?_⟩
      · funext m
        exact Bool.or_false _
      · rcases h4 m hm with hw | hw
        · rcases Bool.or_eq_true_iff.mp hw with hw | hw
          · exact Or.inl hw
          · have hmn : m = n := of_decide_eq_true (Bool.and_eq_true_iff.mp hw).2
            exact Or.inr (hmn ▸ hn63)
        · exact Or.inr hw

/-! ## entries of directories -/

theorem inodeOpen_file (h : Refines v a) (hf : a.file f = some s) : inodeOpen v f = .ok ⟨64 + f, 0⟩ := by
  unfold inodeOpen
  rw [h.inodePage (h.owned _ _ (h.shape f s hf).ownsInode)]
  rfl

/-- the bytes of an entry -/
def entryBytes (name : List UInt8) (inode : Nat) : List UInt8 := dirEntryBytes inode name.length ++ name

/-- **An entry at the end of a directory.** -/
theorem appendDir_simulates (h : Refines v a) (hf : a.file f = some s) (name : List UInt8) (p : Nat) :
    Simulates v (fun _ t b => b.file f = some t ∧ t.content = s.content ++ entryBytes name p)
      (appendDir v f name p) (a.append f s (entryBytes name p)) := by
  have hw := fileWrite_simulates h hf (entryBytes name p)
  have hsize : get64 (v.pages (64 + f)) Mfs.size = s.content.length := (h.file f s hf).size
  rw [entryBytes, fileWrite_append h hf] at hw
  rw [appendDir, inodeOpen_file h hf, ok_bind]
  dsimp only
  rw [hsize, ← bind_assoc]
  have hmap := hw.map (k := fun _ => ())
    (S := fun _ t b => b.file f = some t ∧ t.content = s.content ++ entryBytes name p)
    fun g t b hg => ⟨hg.file, hg.content⟩
  exact hmap

end

/-! ## other files -/

section
variable {a b : FileStore} {f g : Nat} {s t : StoredFile} {l : List UInt8}

theorem grow_other (hg : g ≠ f) : (a.grow f s).2.file g = a.file g := by
  have hpage : ∀ (b : FileStore) t, (b.withPage f t).2.file g = b.file g := fun b t => FileStore.set_ne _ _ hg
  rw [FileStore.grow, hpage, FileStore.withIndirect]
  split_ifs
  · exact FileStore.set_ne _ _ hg
  · rfl

theorem appendChunk_other (hg : g ≠ f) (h : a.appendChunk f s l = .ok (t, b)) : b.file g = a.file g := by
  unfold FileStore.appendChunk FileStore.endPage at h
  split_ifs at h
  · cases h
    exact FileStore.set_ne _ _ hg
  · cases h
    exact (FileStore.set_ne _ _ hg).trans (grow_other hg)
  · cases h

theorem append_other (hg : g ≠ f) (h : a.append f s l = .ok (t, b)) : b.file g = a.file g := by
  induction a, s, l using FileStore.append.induct with
  | case1 a s =>
    rw [FileStore.append, dif_pos rfl] at h
    cases h
    rfl
  | case2 a s l hl tmp ih =>
    rw [FileStore.append, dif_neg hl] at h
    obtain ⟨x, hc, h⟩ := bind_eq_ok h
    exact (ih x.1 x.2 h).trans (appendChunk_other hg hc)

end

/-! ## what calls of the tool give -/

/-- `inode_open`, and `file_write` at the end -/
def appendFile (v : MfsVolume) (inode : Nat) (l : List UInt8) : Outcome MfsFile :=
  (inodeOpen v inode).bind fun f => fileWrite v { f with pos := get64 (v.pages f.file) Mfs.size } l

/-- the bytes of the files that were created -/
abbrev Contents : Type := Nat → Option (List UInt8)

/-- **the volumes that the tool builds**, with what its files and directories have been given so far -/
inductive Built : MfsVolume → Contents → Prop
  | make {size now : Nat} {v : MfsVolume} : 0 < size → size + 4095 < 2^31 →
    makeVolume size now = .ok ((), v) → Built v (Function.update (fun _ => none) v.root (some []))
  | vbr {v v' : MfsVolume} {c : Contents} {src : List UInt8} : Built v c → src.length ≤ 63 * 4096 →
    makeVbr v src = .ok ((), v') → Built v' c
  | create {v v' : MfsVolume} {c : Contents} {mode p : Nat} : Built v c →
    createFileRaw v mode = .ok (p, v') → Built v' (Function.update c p (some []))
  | append {v v' : MfsVolume} {c : Contents} {f : Nat} {bytes l : List UInt8} {g : MfsFile} : Built v c →
    c f = some bytes → appendFile v f l = .ok (g, v') → Built v' (Function.update c f (some (bytes ++ l)))
  | link {v v' : MfsVolume} {c : Contents} {d p : Nat} {bytes name : List UInt8} : Built v c →
    c d = some bytes → appendDir v d name p = .ok ((), v') →
    Built v' (Function.update c d (some (bytes ++ entryBytes name p)))

/-- the volume holds a store with the contents; its size is a number of pages, and fits an `int` -/
structure Stores (v : MfsVolume) (c : Contents) (a : FileStore) : Prop where
  refines : Refines v a
  contents : ∀ f, c f = (a.file f).map StoredFile.content
  size : v.size % 4096 = 0 ∧ 0 < v.size ∧ v.size < 2^31

section
variable {v v' : MfsVolume} {a b : FileStore} {c : Contents} {f : Nat} {s t : StoredFile} {l : List UInt8}

theorem appendFile_simulates (h : Refines v a) (hf : a.file f = some s) :
    Simulates v (Appended f s l) (appendFile v f l) (a.append f s l) := by
  have hsize : get64 (v.pages (64 + f)) Mfs.size = s.content.length := (h.file f s hf).size
  rw [appendFile, inodeOpen_file h hf, ok_bind]
  dsimp only
  rw [hsize]
  exact fileWrite_simulates h hf l

/-- a file with contents is in the store -/
theorem Stores.file (h : Stores v c a) {bytes : List UInt8} (hf : c f = some bytes) :
    ∃ s, a.file f = some s ∧ s.content = bytes := by
  rw [h.contents] at hf
  exact Option.map_eq_some_iff.mp hf

/-- one file has changed -/
theorem Stores.update (h : Stores v c a) (hr : Refines v' b) (hk : Kept v v') (hf : b.file f = some t)
    (hg : ∀ g, g ≠ f → b.file g = a.file g) : Stores v' (Function.update c f (some t.content)) b := by
  refine ⟨hr, fun g => ?_, ?_⟩
  · by_cases hgf : g = f
    · rw [hgf, Function.update_self, hf]
      rfl
    · rw [Function.update_of_ne hgf, hg g hgf]
      exact h.contents g
  · rw [hk.size]
    exact h.size

theorem create_other {g : Nat} (hg : g ≠ nextPage a.next) : a.create.2.file g = a.file g :=
  FileStore.set_ne _ _ hg

theorem Stores.create (h : Stores v c a) {mode p : Nat} (hp : createFileRaw v mode = .ok (p, v')) :
    p = nextPage a.next ∧ Stores v' (Function.update c p (some [])) a.create.2 := by
  obtain ⟨q, b, e, hb, hk, rfl, hnew⟩ := (createFileRaw_simulates h.refines mode).of_ok nofun hp
  cases e
  exact ⟨rfl, h.update hb hk hnew fun g hg => create_other hg⟩

theorem Stores.append (h : Stores v c a) (hf : a.file f = some s) {g : MfsFile}
    (hw : appendFile v f l = .ok (g, v')) :
    ∃ t b, a.append f s l = .ok (t, b) ∧ Stores v' (Function.update c f (some (s.content ++ l))) b := by
  obtain ⟨t, b, e, hb, hk, ht⟩ := (appendFile_simulates h.refines hf).of_ok (append_ne_stray _ _ _ _) hw
  refine ⟨t, b, e, ?_⟩
  rw [← ht.content]
  exact h.update hb hk ht.file fun g hg => append_other hg e

theorem Stores.link (h : Stores v c a) (hf : a.file f = some s) {name : List UInt8} {p : Nat}
    (hw : appendDir v f name p = .ok ((), v')) :
    ∃ t b, a.append f s (entryBytes name p) = .ok (t, b) ∧
      Stores v' (Function.update c f (some (s.content ++ entryBytes name p))) b := by
  obtain ⟨t, b, e, hb, hk, ht, hc⟩ := (appendDir_simulates h.refines hf name p).of_ok (append_ne_stray _ _ _ _) hw
  refine ⟨t, b, e, ?_⟩
  rw [← hc]
  exact h.update hb hk ht fun g hg => append_other hg e

theorem Stores.make {size now : Nat} (hpos : 0 < size) (hsize : size + 4095 < 2^31)
    (hmake : makeVolume size now = .ok ((), v)) :
    Stores v (Function.update (fun _ => none) v.root (some [])) .initial := by
  have hspec := makeVolume_spec hsize now
  split_ifs at hspec with hroom
  · obtain ⟨u, e, hr, hroot, hu, -⟩ := hspec
    cases hmake.symm.trans e
    refine ⟨hr, fun f => ?_, by omega⟩
    rw [hroot]
    by_cases hf : f = 1
    · rw [hf, Function.update_self]
      rfl
    · rw [Function.update_of_ne hf, FileStore.initial, create_other hf]
      rfl
  · cases hmake.symm.trans hspec

/-- **Every volume that the tool builds holds a store.** -/
theorem Built.stores (h : Built v c) : ∃ a, Stores v c a := by
  induction h with
  | @make size now v hpos hsize hmake => exact ⟨.initial, Stores.make hpos hsize hmake⟩
  | @vbr v v' c src _ hlen hvbr ih =>
    obtain ⟨a, hst⟩ := ih
    obtain ⟨u, e, hu, -, hsize, -⟩ := vbrLoop_spec hst.refines (Nat.zero_le 63) hlen
    cases hvbr.symm.trans e
    exact ⟨a, hu, hst.contents, hsize ▸ hst.size⟩
  | @create v v' c mode p _ hcreate ih =>
    obtain ⟨a, hst⟩ := ih
    exact ⟨_, (hst.create hcreate).2⟩
  | @append v v' c f bytes l g _ hf happ ih =>
    obtain ⟨a, hst⟩ := ih
    obtain ⟨s, hs, rfl⟩ := hst.file hf
    obtain ⟨t, b, -, hb⟩ := hst.append hs happ
    exact ⟨b, hb⟩
  | @link v v' c d p bytes name _ hd hlink ih =>
    obtain ⟨a, hst⟩ := ih
    obtain ⟨s, hs, rfl⟩ := hst.file hd
    obtain ⟨t, b, -, hb⟩ := hst.link hs hlink
    exact ⟨b, hb⟩

/-- a new file is empty, and the last page that was handed out -/
theorem Built.fresh (h : Built v c) {mode p : Nat} (hp : createFileRaw v mode = .ok (p, v')) :
    ∃ a, Stores v' (Function.update c p (some [])) a ∧ a.file p = some .empty ∧ a.next = p := by
  obtain ⟨a, hst⟩ := h.stores
  obtain ⟨rfl, hb⟩ := hst.create hp
  exact ⟨_, hb, FileStore.set_self .., rfl⟩

end

/-! ## files in parts -/

/-- `file_write` of each in turn -/
def writeAll (v : MfsVolume) (f : MfsFile) : List (List UInt8) → Outcome MfsFile
  | [] => .ok (f, v)
  | l :: ls => (fileWrite v f l).bind fun (f, v) => writeAll v f ls

/-- `file_read` with each of the lengths -/
def readAll (v : MfsVolume) (f : MfsFile) : List Nat → Outcome (List (List UInt8))
  | [] => .ok ([], v)
  | n :: ns =>
    (fileRead v f n).bind fun ((bytes, f), v) =>
      (readAll v f ns).bind fun (rest, v) => .ok (bytes :: rest, v)

/-- consecutive pieces of the given lengths, or of what is left -/
def pieces (l : List UInt8) : List Nat → List (List UInt8)
  | [] => []
  | n :: ns => l.take n :: pieces (l.drop n) ns

section
variable {v v' : MfsVolume} {a : FileStore} {f : Nat} {s : StoredFile}

theorem drop_min (l : List UInt8) (n pos : Nat) :
    l.drop (pos + min n (l.length - pos)) = (l.drop pos).drop n := by
  rw [List.drop_drop]
  rcases Nat.le_total n (l.length - pos) with hle | hle
  · rw [Nat.min_eq_left hle]
  · rw [Nat.min_eq_right hle, List.drop_eq_nil_of_le (by omega), List.drop_eq_nil_of_le (by omega)]

theorem writeAll_eq (h : Refines v a) (hf : a.file f = some s) (chunks : List (List UInt8)) :
    writeAll v ⟨64 + f, s.content.length⟩ chunks = fileWrite v ⟨64 + f, s.content.length⟩ chunks.flatten := by
  induction chunks generalizing v a s with
  | nil => rw [List.flatten_nil, fileWrite_nil, writeAll]
  | cons l ls ih =>
    rw [List.flatten_cons, fileWrite_append h hf, writeAll]
    cases hw : fileWrite v ⟨64 + f, s.content.length⟩ l with
    | error e => rfl
    | ok x =>
      obtain ⟨g, v'⟩ := x
      obtain ⟨t, b, -, hb, -, ht, -, rfl⟩ := (fileWrite_simulates h hf l).of_ok (append_ne_stray _ _ _ _) hw
      exact ih hb ht

theorem readAll_spec (h : Refines v a) (hf : a.file f = some s) (lens : List Nat) {pos : Nat}
    (hpos : pos ≤ s.content.length) :
    readAll v ⟨64 + f, pos⟩ lens = .ok (pieces (s.content.drop pos) lens, v) := by
  induction lens generalizing pos with
  | nil => rfl
  | cons n ns ih =>
    rw [readAll, fileRead_spec h hf n hpos, ok_bind]
    dsimp only
    rw [ih (by omega), ok_bind, drop_min]
    rfl

end

/-- what is written to an empty file -/
theorem writeAll_fresh {v : MfsVolume} {a : FileStore} {p : Nat} (hr : Refines v a)
    (hf : a.file p = some .empty) (hnext : a.next = p) {chunks : List (List UInt8)}
    (hlen : chunks.flatten.length ≤ 528 * 4096) :
    if 64 + nextPage^[pagesFor chunks.flatten.length] p < v.pageCount then
      ∃ v1 b t, writeAll v ⟨64 + p, 0⟩ chunks = .ok (⟨64 + p, chunks.flatten.length⟩, v1) ∧ Refines v1 b ∧
        b.file p = some t ∧ t.content = chunks.flatten
    else writeAll v ⟨64 + p, 0⟩ chunks = .error .undefined := by
  have hall : writeAll v ⟨64 + p, 0⟩ chunks = fileWrite v ⟨64 + p, 0⟩ chunks.flatten := writeAll_eq hr hf chunks
  obtain ⟨t, b, he, ht, hc⟩ := append_ok (Sized.empty hf) chunks.flatten (by rw [Nat.add_comm]; exact hlen)
  have hc' : t.content = chunks.flatten := hc
  have hsim := fileWrite_simulates hr hf chunks.flatten
  have hlast := ht.next
  rw [hc', hnext] at hlast
  rw [he] at hsim
  change if 64 + b.next < v.pageCount then _ else _ at hsim
  rw [hlast] at hsim
  rw [hall]
  split_ifs at hsim ⊢
  · obtain ⟨g, v1, hw, hb, -, htf, -, rfl⟩ := hsim
    rw [hc'] at hw
    exact ⟨v1, b, t, hw, hb, htf, hc'⟩
  · exact hsim

/-- **Files are read as they were written.**  Whatever the parts in which a new file is written, what they
leave in the volume depends on all of the bytes only; the file has their number as its size, and reading it
again gives consecutive pieces of them and changes nothing.  The page behind the last one that the volume
has cannot be written. -/
theorem file_stream {v v0 : MfsVolume} {c : Contents} {mode p : Nat} (hv : Built v c)
    (hp : createFileRaw v mode = .ok (p, v0)) (chunks : List (List UInt8))
    (hlen : chunks.flatten.length ≤ 528 * 4096) :
    (∀ chunks', chunks'.flatten = chunks.flatten →
      writeAll v0 ⟨64 + p, 0⟩ chunks' = writeAll v0 ⟨64 + p, 0⟩ chunks) ∧
    if 64 + nextPage^[pagesFor chunks.flatten.length] p < v0.pageCount then
      ∃ v1, writeAll v0 ⟨64 + p, 0⟩ chunks = .ok (⟨64 + p, chunks.flatten.length⟩, v1) ∧
        get64 (v1.pages (64 + p)) Mfs.size = chunks.flatten.length ∧
        ∀ lens, ((inodeOpen v1 p).bind fun f => readAll v1 f lens) = .ok (pieces chunks.flatten lens, v1)
    else writeAll v0 ⟨64 + p, 0⟩ chunks = .error .undefined := by
  obtain ⟨a, hst, hf, hnext⟩ := hv.fresh hp
  have hr := hst.refines
  have hall : ∀ c, writeAll v0 ⟨64 + p, 0⟩ c = fileWrite v0 ⟨64 + p, 0⟩ c.flatten := writeAll_eq hr hf
  refine ⟨fun chunks' he => by rw [hall, hall, he], ?_⟩
  have hwrite := writeAll_fresh hr hf hnext hlen
  split_ifs at hwrite ⊢
  · obtain ⟨v1, b, t, hw, hb, ht, hc⟩ := hwrite
    refine ⟨v1, hw, ?_, fun lens => ?_⟩
    · rw [← hc]
      exact (hb.file p t ht).size
    · rw [inodeOpen_file hb ht, ok_bind, readAll_spec hb ht lens (Nat.zero_le _), List.drop_zero, hc]
  · exact hwrite

/-- a volume of 74 pages with an empty file -/
theorem small_volume : ∃ v c v0, Built v c ∧ createFileRaw v 0o644 = .ok (2, v0) ∧ v0.pageCount = 74 := by
  have hmake := @makeVolume_spec 300000 (by decide) 0
  rw [if_pos (by decide)] at hmake
  obtain ⟨v, hv, hr, -, hsize, -⟩ := hmake
  have hcount : v.pageCount = 74 := by
    rw [MfsVolume.pageCount, hsize]
    rfl
  have hcreate := createFileRaw_simulates hr 0o644
  change if 64 + 2 < v.pageCount then _ else _ at hcreate
  rw [hcount, if_pos (by decide)] at hcreate
  obtain ⟨p, v0, hp, -, hk, rfl, -⟩ := hcreate
  exact ⟨v, _, v0, .make (by decide) (by decide) hv, hp, hk.pageCount.trans hcount⟩

/-- a file of three bytes, written in two parts and read in two others -/
theorem file_stream_three : ∃ v0 v1, writeAll v0 ⟨66, 0⟩ [[97, 98], [99]] = .ok (⟨66, 3⟩, v1) ∧
    ((inodeOpen v1 2).bind fun f => readAll v1 f [1, 5]) = .ok ([[97], [98, 99]], v1) := by
  obtain ⟨v, c, v0, hv, hp, hcount⟩ := small_volume
  have hroom : 64 + nextPage^[pagesFor [[(97 : UInt8), 98], [99]].flatten.length] 2 < v0.pageCount := by
    rw [hcount]
    decide
  have hstream := (file_stream hv hp [[97, 98], [99]] (by decide)).2
  rw [if_pos hroom] at hstream
  obtain ⟨v1, hw, -, hread⟩ := hstream
  exact ⟨v0, v1, hw, hread [1, 5]⟩

end FuseeOS
