import FuseeOS.Tools.VolumeRun
import Mathlib.Data.List.Induction

/-!
# Directories of the volume

`find_file_dir` reads the entries of a directory one after the other, and compares with `strncmp` only as
many characters as the entry's name has.  So an entry matches every name that begins with its own.

* `findFileDir_scan`         the lookup, over the bytes of the directory (`scanDir`);
* `scanDir_entries`          over entries, it gives the first whose name the given one begins with;
* **`find_file_dir_right`**  the lookup is exact if and only if this entry is the right one;
* `exists_directory`         every list of entries is that of a directory.
-/

namespace FuseeOS
open Bytes

/-! ## the lookup without the volume -/

/-- the loop of `find_file_dir` over the bytes that are left -/
def scanDir (name : List UInt8) (s : DirScan) (rest : List UInt8) : Nat → Except Failure Nat
  | 0 => .error .undefined
  | fuel + 1 =>
    if rest = [] then .ok 0
    else
      match s.readEntry (rest.take Mfs.dirEntry) with
      | none => .error .undefined
      | some entry =>
        let rest := rest.drop Mfs.dirEntry
        let namelen := readLe (memOf 0 entry) 8 4
        (DirScan.compare entry (rest.take namelen) name s.namebuf).bind fun
          | .inr inode => .ok inode
          | .inl s => scanDir name s (rest.drop namelen) fuel

section
variable {v : MfsVolume} {a : FileStore} {f : Nat} {s : StoredFile}

theorem findLoop_scan (h : Refines v a) (hf : a.file f = some s) (name : List UInt8) (fuel : Nat)
    (scan : DirScan) {pos : Nat} (hpos : pos ≤ s.content.length) :
    findLoop v ⟨64 + f, pos⟩ name scan fuel =
      (scanDir name scan (s.content.drop pos) fuel).bind fun inode => .ok (inode, v) := by
  induction fuel generalizing scan pos with
  | zero => rfl
  | succ fuel ih =>
    have hsize : get64 (v.pages (64 + f)) Mfs.size = s.content.length := (h.file f s hf).size
    rw [findLoop, scanDir]
    dsimp only
    rw [hsize]
    by_cases hend : pos = s.content.length
    · have hnil : s.content.drop pos = [] := List.drop_eq_nil_of_le (Nat.le_of_eq hend.symm)
      rw [if_pos hend, if_pos hnil]
      rfl
    · have hcons : s.content.drop pos ≠ [] := List.ne_nil_of_length_pos (by rw [List.length_drop]; omega)
      rw [if_neg hend, if_neg hcons, fileRead_spec h hf _ hpos, ok_bind]
      dsimp only
      cases hentry : scan.readEntry ((s.content.drop pos).take Mfs.dirEntry) with
      | none => rfl
      | some entry =>
        have hpos' : pos + min Mfs.dirEntry (s.content.length - pos) ≤ s.content.length := by omega
        have hpos'' : ∀ n, pos + min Mfs.dirEntry (s.content.length - pos) +
            min n (s.content.length - (pos + min Mfs.dirEntry (s.content.length - pos))) ≤ s.content.length :=
          fun n => by omega
        dsimp only
        rw [fileRead_spec h hf _ hpos', ok_bind]
        dsimp only
        rw [drop_min]
        cases DirScan.compare entry (((s.content.drop pos).drop Mfs.dirEntry).take (readLe (memOf 0 entry) 8 4)) name
          scan.namebuf with
        | error e => rfl
        | ok next =>
          cases next with
          | inr inode => rfl
          | inl scan' =>
            rw [ok_bind]
            dsimp only
            rw [ih scan' (hpos'' _), drop_min, drop_min]
            rfl

/-- **The lookup over the bytes of the directory.** -/
theorem findFileDir_scan (h : Refines v a) (hf : a.file f = some s) (name : List UInt8) :
    findFileDir v f name =
      (scanDir name .start s.content (s.content.length + 1)).bind fun inode => .ok (inode, v) := by
  have hsize : get64 (v.pages (64 + f)) Mfs.size = s.content.length := (h.file f s hf).size
  unfold findFileDir
  rw [inodeOpen_file h hf, ok_bind]
  dsimp only
  rw [hsize, findLoop_scan h hf name _ _ (Nat.zero_le _), List.drop_zero]

end

/-! ## entries -/

/-- the bytes of entries, each a name and an inode -/
def dirBytes (es : List (List UInt8 × Nat)) : List UInt8 := es.flatMap fun e => entryBytes e.1 e.2

theorem dirBytes_nil : dirBytes [] = [] := rfl

theorem dirBytes_cons (e : List UInt8 × Nat) (es : List (List UInt8 × Nat)) :
    dirBytes (e :: es) = dirEntryBytes e.2 e.1.length ++ (e.1 ++ dirBytes es) := by
  rw [dirBytes, List.flatMap_cons, entryBytes, List.append_assoc]
  rfl

theorem dirBytes_append (es es' : List (List UInt8 × Nat)) :
    dirBytes (es ++ es') = dirBytes es ++ dirBytes es' := List.flatMap_append

theorem length_dirEntryBytes (inode namelen : Nat) : (dirEntryBytes inode namelen).length = 12 := by
  rw [dirEntryBytes, List.length_append, length_le, length_le]

/-- the fields of an entry -/
theorem readLe_entry {inode namelen : Nat} (hi : inode < 2^64) (hn : namelen < 2^32) :
    readLe (memOf 0 (dirEntryBytes inode namelen)) 0 8 = inode ∧
      readLe (memOf 0 (dirEntryBytes inode namelen)) 8 4 = namelen := by
  obtain ⟨h1, h2⟩ := holdsAt_append.1 (holdsAt_memOf 0 (dirEntryBytes inode namelen))
  rw [length_le] at h2
  exact ⟨readLe_of_holdsAt h1 hi, readLe_of_holdsAt h2 hn⟩

/-- comparing with a name that has no NUL asks whether the other begins with it -/
theorem strncmpEq_prefix {s1 : List UInt8} (h0 : 0 ∉ s1) (s2 : List UInt8) (tail : List (Option UInt8)) :
    strncmpEq (s1.map some ++ tail) (s2 ++ [0]) s1.length = some (s1.isPrefixOf s2) := by
  induction s1 generalizing s2 with
  | nil => rw [List.length_nil, strncmpEq, List.isPrefixOf]
  | cons x s1 ih =>
    rw [List.mem_cons, not_or] at h0
    obtain ⟨hx, hs1⟩ := h0
    cases s2 with
    | nil =>
      rw [List.map_cons, List.cons_append, List.nil_append, List.length_cons, strncmpEq, if_pos (Ne.symm hx)]
      rfl
    | cons y s2 =>
      rw [List.map_cons, List.cons_append, List.cons_append, List.length_cons, strncmpEq, List.isPrefixOf_cons_cons]
      by_cases hxy : x = y
      · rw [if_neg (not_not.mpr hxy), if_neg (Ne.symm hx), ih hs1 s2, hxy, beq_self_eq_true, Bool.true_and]
      · rw [if_pos hxy, beq_eq_false_iff_ne.mpr hxy, Bool.false_and]

/-- the inode of the first entry whose name the given one begins with -/
def firstPrefix (es : List (List UInt8 × Nat)) (name : List UInt8) : Option (List UInt8 × Nat) :=
  es.find? fun e => e.1.isPrefixOf name

/-- **the first entry whose name the given one begins with** -/
theorem scanDir_entries {es : List (List UInt8 × Nat)}
    (hes : ∀ e ∈ es, 0 ∉ e.1 ∧ e.1.length ≤ 1024 ∧ e.2 < 2^64) (name : List UInt8) (scan : DirScan) {fuel : Nat}
    (hfuel : es.length < fuel) :
    scanDir name scan (dirBytes es) fuel = .ok (((firstPrefix es name).map Prod.snd).getD 0) := by
  induction es generalizing scan fuel with
  | nil =>
    obtain ⟨fuel, rfl⟩ := Nat.exists_eq_succ_of_ne_zero (Nat.pos_iff_ne_zero.mp hfuel)
    rw [scanDir, if_pos dirBytes_nil]
    rfl
  | cons e es ih =>
    obtain ⟨fuel, rfl⟩ := Nat.exists_eq_succ_of_ne_zero (Nat.pos_iff_ne_zero.mp (Nat.zero_lt_of_lt hfuel))
    obtain ⟨h0, hlen, hinode⟩ := hes e List.mem_cons_self
    obtain ⟨hr1, hr2⟩ := readLe_entry hinode (by omega : e.1.length < 2^32)
    have h12 := length_dirEntryBytes e.2 e.1.length
    have hne : dirBytes (e :: es) ≠ [] := List.ne_nil_of_length_pos (by
      rw [dirBytes_cons, List.length_append, h12]
      omega)
    have htake : (dirBytes (e :: es)).take Mfs.dirEntry = dirEntryBytes e.2 e.1.length := by
      rw [dirBytes_cons, List.take_left' h12]
    have hdrop : (dirBytes (e :: es)).drop Mfs.dirEntry = e.1 ++ dirBytes es := by
      rw [dirBytes_cons, List.drop_left' h12]
    rw [scanDir, if_neg hne, htake, DirScan.readEntry, if_pos h12]
    dsimp only
    rw [hdrop, hr2, List.take_left, List.drop_left, DirScan.compare, if_neg (Nat.not_lt.mpr hlen)]
    dsimp only
    rw [hr1, hr2, strncmpEq_prefix h0]
    unfold firstPrefix
    rw [List.find?_cons]
    cases e.1.isPrefixOf name with
    | true => rfl
    | false => exact ih (fun e he => hes e (List.mem_cons_of_mem _ he)) _ (Nat.lt_of_succ_lt_succ hfuel)

/-! ## when the lookup is exact -/

/-- what a lookup is to return: the inode of the first entry with the name, and 0 if there is none -/
def rightInode (es : List (List UInt8 × Nat)) (name : List UInt8) : Nat :=
  ((es.find? fun e => e.1 = name).map Prod.snd).getD 0

/-- entries as `append_dir` writes them: the names are C strings that fit `namebuf` -/
structure DirEntries (es : List (List UInt8 × Nat)) : Prop where
  names : ∀ e ∈ es, 0 ∉ e.1 ∧ e.1.length < 1024
  inodes : ∀ e ∈ es, e.2 < 2^64

/-- the first entry whose name is an initial part of the given one has this very name, or its inode is the one
to return -/
def Unshadowed (es : List (List UInt8 × Nat)) (name : List UInt8) : Prop :=
  ∀ e, firstPrefix es name = some e → e.1 = name ∨ e.2 = rightInode es name

theorem entry_length (e : List UInt8 × Nat) (es : List (List UInt8 × Nat)) :
    (dirBytes (e :: es)).length = 12 + e.1.length + (dirBytes es).length := by
  rw [dirBytes_cons, List.length_append, length_dirEntryBytes, List.length_append, Nat.add_assoc]

theorem length_le_dirBytes (es : List (List UInt8 × Nat)) : es.length ≤ (dirBytes es).length := by
  induction es with
  | nil => exact Nat.le_refl 0
  | cons e es ih =>
    rw [entry_length, List.length_cons]
    omega

/-- what the lookup returns -/
theorem Stores.find {v : MfsVolume} {c : Contents} {a : FileStore} {d : Nat} {es : List (List UInt8 × Nat)}
    (hst : Stores v c a) (hd : c d = some (dirBytes es)) (hes : DirEntries es) (name : List UInt8) :
    findFileDir v d name = .ok (((firstPrefix es name).map Prod.snd).getD 0, v) := by
  obtain ⟨s, hs, hc⟩ := hst.file hd
  have hscan := scanDir_entries (fun e he => ⟨(hes.names e he).1, Nat.le_of_lt (hes.names e he).2, hes.inodes e he⟩)
    name .start (Nat.lt_succ_of_le (length_le_dirBytes es))
  rw [findFileDir_scan hst.refines hs, hc, hscan, ok_bind]

theorem findFileDir_entries {v : MfsVolume} {c : Contents} {d : Nat} {es : List (List UInt8 × Nat)}
    (hv : Built v c) (hd : c d = some (dirBytes es)) (hes : DirEntries es) (name : List UInt8) :
    findFileDir v d name = .ok (((firstPrefix es name).map Prod.snd).getD 0, v) := by
  obtain ⟨a, hst⟩ := hv.stores
  exact hst.find hd hes name

theorem rightInode_absent {es : List (List UInt8 × Nat)} {name : List UInt8} (h : ∀ e ∈ es, e.1 ≠ name) :
    rightInode es name = 0 := by
  have hnone : (es.find? fun x => x.1 = name) = none := by
    rw [List.find?_eq_none]
    exact fun x hx heq => h x hx (of_decide_eq_true heq)
  rw [rightInode, hnone]
  rfl

/-- an entry with the name is among those whose names it begins with -/
theorem firstPrefix_eq_self {es : List (List UInt8 × Nat)} {name : List UInt8} {e : List UInt8 × Nat}
    (h : firstPrefix es name = some e) (he : e.1 = name) : e.2 = rightInode es name := by
  unfold rightInode
  induction es with
  | nil => cases h
  | cons x es ih =>
    unfold firstPrefix at h
    rw [List.find?_cons] at h
    rw [List.find?_cons]
    by_cases hx : x.1 = name
    · have hpre : x.1.isPrefixOf name = true := List.isPrefixOf_iff_prefix.mpr (hx ▸ List.prefix_refl name)
      rw [hpre] at h
      rw [decide_eq_true hx]
      cases h
      rfl
    · rw [decide_eq_false hx]
      by_cases hpre : x.1.isPrefixOf name = true
      · rw [hpre] at h
        cases h
        exact absurd he hx
      · rw [Bool.not_eq_true] at hpre
        rw [hpre] at h
        exact ih h

/-- without such entries there is none with the name -/
theorem rightInode_eq_zero {es : List (List UInt8 × Nat)} {name : List UInt8} (h : firstPrefix es name = none) :
    rightInode es name = 0 := by
  refine rightInode_absent fun e he heq => ?_
  have hpre := List.find?_eq_none.mp h e he
  rw [heq] at hpre
  exact hpre (List.isPrefixOf_iff_prefix.mpr (List.prefix_refl name))

/-- **When the lookup is exact.** -/
theorem find_file_dir_right {v : MfsVolume} {c : Contents} {d : Nat} {es : List (List UInt8 × Nat)}
    (hv : Built v c) (hd : c d = some (dirBytes es)) (hes : DirEntries es) (name : List UInt8) :
    findFileDir v d name = .ok (rightInode es name, v) ↔ Unshadowed es name := by
  rw [findFileDir_entries hv hd hes]
  constructor
  · intro h e he
    rw [he] at h
    exact Or.inr (congrArg Prod.fst (Except.ok.inj h))
  · intro h
    cases hp : firstPrefix es name with
    | none =>
      rw [rightInode_eq_zero hp]
      rfl
    | some e =>
      have hright : e.2 = rightInode es name := (h e hp).elim (firstPrefix_eq_self hp) id
      rw [← hright]
      rfl

/-! ## the tool makes every directory -/

theorem nextPage_iterate {n k : Nat} (h : n + k < 32768) : nextPage^[k] n = n + k := by
  induction k with
  | zero => rfl
  | succ k ih =>
    have hmod : (n + k + 1) % MFS_BITMAP_SIZE ≠ 0 := by
      have hsize : MFS_BITMAP_SIZE = 32768 := rfl
      rw [hsize]
      omega
    rw [Function.iterate_succ_apply', ih (by omega), nextPage, if_neg hmod, Nat.add_assoc]

/-- **every list of entries** that is not too long is that of a directory, linked one after the other -/
theorem exists_directory (es : List (List UInt8 × Nat)) (hlen : (dirBytes es).length ≤ 528 * 4096) :
    ∃ v c d, Built v c ∧ c d = some (dirBytes es) := by
  have hinv : ∃ v c a s, Built v c ∧ Stores v c a ∧ v.pageCount = 1024 ∧ Sized 1 1 s a ∧
      s.content = dirBytes es := by
    induction es using List.reverseRec with
    | nil =>
      have hmake := @makeVolume_spec 4194304 (by decide) 0
      rw [if_pos (by decide)] at hmake
      obtain ⟨v, hv, -, -, hsize, -⟩ := hmake
      have hroot : FileStore.initial.file 1 = some .empty := rfl
      have hempty : Sized 1 1 .empty .initial := Sized.empty hroot
      refine ⟨v, _, _, .empty, .make (by decide) (by decide) hv, .make (by decide) (by decide) hv, ?_, hempty, rfl⟩
      rw [MfsVolume.pageCount, hsize]
      rfl
    | append_singleton es e ih =>
      rw [dirBytes_append, List.length_append] at hlen
      obtain ⟨v, c, a, s, hb, hst, hcount, hs, hc⟩ := ih (Nat.le_trans (Nat.le_add_right ..) hlen)
      have he : dirBytes [e] = entryBytes e.1 e.2 := List.flatMap_singleton ..
      rw [he, ← hc] at hlen
      obtain ⟨t, b, happ, ht, htc⟩ := append_ok hs (entryBytes e.1 e.2) hlen
      have hfew : pagesFor t.content.length ≤ 529 := by
        rw [htc, List.length_append]
        unfold pagesFor
        split_ifs <;> omega
      have hnext : b.next = 1 + pagesFor t.content.length := by
        rw [ht.next, nextPage_iterate (by omega)]
      have hsim := appendDir_simulates hst.refines hs.file e.1 e.2
      rw [happ] at hsim
      change if 64 + b.next < v.pageCount then _ else _ at hsim
      rw [if_pos (by omega)] at hsim
      obtain ⟨u, v', hlink, hr, hk, htf, -⟩ := hsim
      have hcd : c 1 = some s.content := by
        rw [hst.contents, hs.file]
        rfl
      have hnew := hst.update hr hk htf fun g hg => append_other hg happ
      rw [htc] at hnew
      refine ⟨v', _, b, t, .link hb hcd hlink, hnew, hk.pageCount.trans hcount, ht, ?_⟩
      rw [htc, hc, dirBytes_append, he]
  obtain ⟨v, c, a, s, hb, hst, -, hs, hc⟩ := hinv
  refine ⟨v, c, 1, hb, ?_⟩
  rw [hst.contents, hs.file, ← hc]
  rfl

/-- a directory with the two entries `b` and `ab` -/
theorem find_file_dir_two : ∃ v d, findFileDir v d [97, 98] = .ok (7, v) := by
  obtain ⟨v, c, d, hv, hd⟩ := exists_directory [([98], 5), ([97, 98], 7)] (by decide)
  have hes : DirEntries [([98], 5), ([97, 98], 7)] := ⟨by decide, by decide⟩
  have hright := (find_file_dir_right hv hd hes [97, 98]).mpr (by
    intro e he
    cases he
    exact Or.inl rfl)
  exact ⟨v, d, hright⟩

/-- a directory with the entry `a` only, where `ab` is found -/
theorem find_file_dir_wrong : ∃ v c d, Built v c ∧ c d = some (dirBytes [([97], 5)]) ∧
    DirEntries [([97], 5)] ∧ findFileDir v d [97, 98] ≠ .ok (rightInode [([97], 5)] [97, 98], v) := by
  obtain ⟨v, c, d, hv, hd⟩ := exists_directory [([97], 5)] (by decide)
  have hes : DirEntries [([97], 5)] := ⟨by decide, by decide⟩
  refine ⟨v, c, d, hv, hd, hes, fun h => ?_⟩
  rw [findFileDir_entries hv hd hes] at h
  have hfive : 5 = 0 := congrArg Prod.fst (Except.ok.inj h)
  cases hfive

end FuseeOS
