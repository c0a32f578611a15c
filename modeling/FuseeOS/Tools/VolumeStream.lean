import FuseeOS.Tools.VolumeWrite

/-!
# The streams of files

* `fileRead_spec`        what is read is the next piece of the content, and nothing is changed;
* `writeChunk_append`    bytes that go into one page are written at once or in two parts;
* `fileWrite_append`     so the parts in which a file is written do not matter;
* `append_ok`            the pages that a file takes, by its length only.
-/

namespace FuseeOS
open Bytes

section
variable {α β : Type} {v v' : MfsVolume} {a : FileStore} {f : Nat} {s : StoredFile}

/-! ## outcomes -/

/-- a result comes with one of the store -/
theorem Simulates.of_ok {R : α → β → FileStore → Prop} {r : Outcome α} {ra : StoreOutcome β}
    (h : Simulates v R r ra) (hstray : ra ≠ .error .stray) {x : α} (hr : r = .ok (x, v')) :
    ∃ y b, ra = .ok (y, b) ∧ Refines v' b ∧ Kept v v' ∧ R x y b := by
  unfold Simulates at h
  cases ra with
  | ok y =>
    dsimp only at h
    split_ifs at h with hroom
    · obtain ⟨x', w, e, hw⟩ := h
      cases hr.symm.trans e
      exact ⟨y.1, y.2, rfl, hw⟩
    · cases hr.symm.trans h
  | error e =>
    cases e with
    | tooLarge b =>
      dsimp only at h
      split_ifs at h with hroom
      · obtain ⟨w, e, hw⟩ := h
        cases hr.symm.trans e
      · cases hr.symm.trans h
    | undefined => cases hr.symm.trans h
    | stray => exact absurd rfl hstray

theorem endPage_ne_stray (a : FileStore) (f : Nat) (s : StoredFile) : a.endPage f s ≠ .error .stray := by
  unfold FileStore.endPage
  intro h
  split_ifs at h
  cases h

theorem appendChunk_ne_stray (a : FileStore) (f : Nat) (s : StoredFile) (l : List UInt8) :
    a.appendChunk f s l ≠ .error .stray := by
  unfold FileStore.appendChunk
  cases he : a.endPage f s with
  | error e =>
    intro h
    exact endPage_ne_stray a f s (he.trans h)
  | ok x =>
    intro h
    cases h

/-- appending to a file opens no other -/
theorem append_ne_stray (a : FileStore) (f : Nat) (s : StoredFile) (l : List UInt8) :
    a.append f s l ≠ .error .stray := by
  induction a, s, l using FileStore.append.induct with
  | case1 a s =>
    rw [FileStore.append, dif_pos rfl]
    intro h
    cases h
  | case2 a s l hl tmp =>
    rename_i ih
    rw [FileStore.append, dif_neg hl]
    dsimp only
    cases hc : a.appendChunk f s (l.take (min (4096 - s.content.length % 4096) l.length)) with
    | error e =>
      intro h
      exact appendChunk_ne_stray _ _ _ _ (hc.trans h)
    | ok x => exact ih x.1 x.2

/-! ## reading -/

/-- the bytes of a piece that is in one page -/
theorem FileAt.fetch (h : FileAt v f s) {pos n : Nat} (hpage : pos % 4096 + n ≤ 4096)
    (hlen : pos + n ≤ s.content.length) :
    fetch (v.inode (s.data.getD (pos / 4096) 0)) (pos % 4096) n = (s.content.drop pos).take n := by
  apply List.ext_getElem
  · rw [length_fetch, List.length_take, List.length_drop]
    omega
  · intro i h1 h2
    rw [length_fetch] at h1
    have hi := h.bytes (pos + i) (by omega)
    have hdiv : (pos + i) / 4096 = pos / 4096 := by omega
    have hmod : (pos + i) % 4096 = pos % 4096 + i := by omega
    rw [hdiv, hmod] at hi
    rw [getElem_fetch, hi, List.getElem_take, List.getElem_drop]

/-- **Reading gives the next piece of the content**; the volume stays as it is. -/
theorem fileRead_spec (h : Refines v a) (hf : a.file f = some s) (n : Nat) {pos : Nat}
    (hpos : pos ≤ s.content.length) : fileRead v ⟨64 + f, pos⟩ n =
      .ok (((s.content.drop pos).take n, ⟨64 + f, pos + min n (s.content.length - pos)⟩), v) := by
  have hat := h.file f s hf
  have hs := h.shape f s hf
  have hsize : get64 (v.pages (64 + f)) Mfs.size = s.content.length := hat.size
  induction n using Nat.strong_induction_on generalizing pos with
  | _ n ih =>
    rw [fileRead]
    dsimp only
    rw [hsize]
    by_cases hend : n = 0 ∨ pos = s.content.length
    · have hmin : min n (s.content.length - pos) = 0 := by omega
      have htake : (s.content.drop pos).take n = [] := by
        apply List.eq_nil_of_length_eq_zero
        rw [List.length_take, List.length_drop, hmin]
      rw [if_pos hend, hmin, htake, Nat.add_zero]
    · have hlt : pos < s.content.length := by omega
      have hpage := hs.div_lt hlt
      have hoff : pos % 4096 < 4096 := Nat.mod_lt _ (by decide)
      rw [if_neg hend, ptrFromDataIndex_held h hf hpage, ok_bind]
      dsimp only
      rw [hsize, if_neg (Nat.not_lt.mpr hpos)]
      generalize ht : min (min (MFS_PAGE_SIZE - pos % MFS_PAGE_SIZE) n) (s.content.length - pos) = tmp
      have hpagesize : MFS_PAGE_SIZE = 4096 := rfl
      rw [hpagesize] at ht
      have htmp : 0 < tmp := by omega
      -- all of these bytes are in one page
      have hfetch : Bytes.fetch (v.pages (64 + s.data.getD (pos / MFS_PAGE_SIZE) 0)) (pos % MFS_PAGE_SIZE) tmp =
          (s.content.drop pos).take tmp := hat.fetch (by omega) (by omega)
      have hsplit : (s.content.drop pos).take tmp ++ (s.content.drop (pos + tmp)).take (n - tmp) =
          (s.content.drop pos).take n := by
        have hn : n = tmp + (n - tmp) := by omega
        rw [hn, List.take_add, List.drop_drop, Nat.add_sub_cancel_left]
      have hend : pos + tmp + min (n - tmp) (s.content.length - (pos + tmp)) =
          pos + min n (s.content.length - pos) := by omega
      rw [dif_neg (Nat.pos_iff_ne_zero.mp htmp), ih (n - tmp) (by omega) (by omega), ok_bind]
      dsimp only
      rw [hfetch, hsplit, hend]

/-! ## writes in two parts -/

theorem store_over (mem : Nat → UInt8) (o : Nat) {l r : List UInt8} (h : l.length = r.length) :
    store (store mem o l) o r = store mem o r := by
  funext p
  rcases Nat.lt_or_ge p o with hp | hp
  · rw [store_of_lt _ _ hp, store_of_lt _ _ hp, store_of_lt _ _ hp]
  · rcases Nat.lt_or_ge p (o + r.length) with hr | hr
    · have hat := holdsAt_store (store mem o l) o r (p - o) (by omega)
      have hat' := holdsAt_store mem o r (p - o) (by omega)
      have hsum : o + (p - o) = p := by omega
      rw [hsum] at hat hat'
      rw [hat, hat']
    · rw [store_of_ge _ _ hr, store_of_ge _ _ hr, store_of_ge _ _ (h ▸ hr)]

attribute [ext] MfsVolume

namespace MfsVolume
variable (v : MfsVolume) (w : Writer) {n m o : Nat} (l r : List UInt8)

/-- a page is written twice -/
theorem put_put {l' : List UInt8} (h : store (store (v.pages n) o l) m r = store (v.pages n) o l') :
    (v.put w n o l).put w n m r = v.put w n o l' := by
  refine MfsVolume.ext rfl (funext fun q => ?_) rfl rfl rfl (funext fun w' => funext fun n' => ?_)
  · by_cases hq : q = n
    · rw [hq, put_self, put_self, put_self, h]
    · rw [put_ne _ _ _ _ hq, put_ne _ _ _ _ hq, put_ne _ _ _ _ hq]
  · rw [put_written, put_written, put_written, Bool.or_assoc, Bool.or_self]

theorem put_append : (v.put w n o l).put w n (o + l.length) r = v.put w n o (l ++ r) :=
  put_put v w l r (store_append ..)

theorem put_over (h : l.length = r.length) : (v.put w n o l).put w n o r = v.put w n o r :=
  put_put v w l r (store_over _ o h)

theorem put_comm (o' : Nat) (h : n ≠ m) :
    (v.put w n o l).put w m o' r = (v.put w m o' r).put w n o l := by
  refine MfsVolume.ext rfl (funext fun q => ?_) rfl rfl rfl (funext fun w' => funext fun n' => ?_)
  · by_cases hq : q = n
    · rw [hq, put_ne _ _ _ _ h, put_self, put_self, put_ne _ _ _ _ h]
    · by_cases hm : q = m
      · rw [hm, put_self, put_ne _ _ _ _ h.symm, put_ne _ _ _ _ h.symm, put_self]
      · rw [put_ne _ _ _ _ hm, put_ne _ _ _ _ hq, put_ne _ _ _ _ hq, put_ne _ _ _ _ hm]
  · rw [put_written, put_written, put_written, put_written, Bool.or_right_comm]

end MfsVolume

/-- what is written for bytes and then for more of them in the same page -/
theorem put_chunks (v : MfsVolume) {d : Nat} (hd : d ≠ f) (n off : Nat) (x y : List UInt8) :
    (((v.put .files (64 + d) off x).put .files (64 + f) Mfs.size (le 8 (n + x.length))).put .files (64 + d)
      (off + x.length) y).put .files (64 + f) Mfs.size (le 8 (n + x.length + y.length)) =
    (v.put .files (64 + d) off (x ++ y)).put .files (64 + f) Mfs.size (le 8 (n + (x ++ y).length)) := by
  have hne : 64 + f ≠ 64 + d := by omega
  rw [MfsVolume.put_comm _ _ _ y _ hne, MfsVolume.put_append,
    MfsVolume.put_over _ _ _ _ (by rw [length_le, length_le]), List.length_append, Nat.add_assoc]

/-- **bytes that go into one page**, at once or in two parts -/
theorem writeChunk_append (h : Refines v a) (hf : a.file f = some s) {x y : List UInt8}
    (hx : s.content.length % 4096 + x.length < 4096) :
    writeChunk v ⟨64 + f, s.content.length⟩ (x ++ y) =
      (writeChunk v ⟨64 + f, s.content.length⟩ x).bind fun (g, v) => writeChunk v g y := by
  have hsim := endPage_simulates h hf
  unfold writeChunk
  dsimp only
  cases hp : ptrFromDataIndex v (64 + f) (s.content.length / MFS_PAGE_SIZE) with
  | error e => rfl
  | ok r =>
    obtain ⟨m, v'⟩ := r
    obtain ⟨t, b, -, hr, -, htf, htc, hhere, rfl⟩ := hsim.of_ok (endPage_ne_stray _ _ _) hp
    have hd := (hr.shape f t htf).data_ne_inode hhere
    have hsize : ∀ l, get64 ((v'.put .files (64 + t.data.getD (s.content.length / 4096) 0)
        (s.content.length % MFS_PAGE_SIZE) l).pages (64 + f)) Mfs.size = s.content.length := fun l => by
      have hpage : (v'.put .files (64 + t.data.getD (s.content.length / 4096) 0)
        (s.content.length % MFS_PAGE_SIZE) l).pages (64 + f) = v'.inode f := put_inode_ne v' _ _ hd.symm
      rw [hpage, (hr.file f t htf).size, htc]
    rw [ok_bind, ok_bind, ok_bind]
    dsimp only
    rw [hsize, hsize]
    -- the second part finds the page of the first
    have hr1 := hr.putChunk (l := x) htf (htc ▸ hhere) (htc ▸ Nat.le_of_lt hx)
    rw [htc] at hr1
    have hdiv : (s.content.length + x.length) / 4096 = s.content.length / 4096 := by omega
    have hmod : (s.content.length + x.length) % 4096 = s.content.length % 4096 + x.length := by omega
    have hheld := ptrFromDataIndex_held hr1 (FileStore.set_self ..) hhere
    have hsize1 := (hr1.file f _ (FileStore.set_self ..)).size
    have hpage := put_inode_ne ((v'.put .files (64 + t.data.getD (s.content.length / 4096) 0)
      (s.content.length % 4096) x).put .files (64 + f) Mfs.size (le 8 (s.content.length + x.length)))
      ((s.content.length + x.length) % 4096) y hd.symm
    dsimp only at hheld hsize1
    rw [List.length_append] at hsize1
    rw [hdiv, hheld, ok_bind]
    dsimp only
    rw [← hpage, MfsVolume.inode] at hsize1
    rw [hsize1, hmod, put_chunks v' hd, List.length_append, Nat.add_assoc]

theorem bind_ok (r : Outcome α) : (r.bind fun (x, v) => .ok (x, v)) = r := by
  cases r with
  | error e => rfl
  | ok x => rfl

theorem fileWrite_nil (v : MfsVolume) (g : MfsFile) : fileWrite v g [] = .ok (g, v) := by
  rw [fileWrite, dif_pos rfl]

theorem fileWrite_cons (v : MfsVolume) (g : MfsFile) {l : List UInt8} (hl : l ≠ []) : fileWrite v g l =
    (writeChunk v g (l.take (min (4096 - g.pos % 4096) l.length))).bind fun (g', v') =>
      fileWrite v' g' (l.drop (min (4096 - g.pos % 4096) l.length)) := by
  rw [fileWrite, dif_neg hl]

/-- bytes that go into one page are written in one round -/
theorem fileWrite_one (v : MfsVolume) (g : MfsFile) {l : List UInt8} (hl : l ≠ [])
    (hfit : g.pos % 4096 + l.length ≤ 4096) : fileWrite v g l = writeChunk v g l := by
  have hmin : min (4096 - g.pos % 4096) l.length = l.length := by omega
  rw [fileWrite_cons v g hl, hmin, List.take_length, List.drop_length]
  simp only [fileWrite_nil]
  exact bind_ok _

/-- **The parts in which a file is written do not matter.** -/
theorem fileWrite_append (h : Refines v a) (hf : a.file f = some s) (l r : List UInt8) :
    fileWrite v ⟨64 + f, s.content.length⟩ (l ++ r) =
      (fileWrite v ⟨64 + f, s.content.length⟩ l).bind fun (g, v) => fileWrite v g r := by
  induction hn : l.length using Nat.strong_induction_on generalizing v a s l with
  | _ n ih =>
    subst hn
    by_cases hl : l = []
    · rw [hl, List.nil_append, fileWrite_nil, ok_bind]
    by_cases hr : r = []
    · simp only [hr, List.append_nil, fileWrite_nil]
      exact (bind_ok _).symm
    have hpos := List.length_pos_iff.mpr hl
    have hmod : s.content.length % 4096 < 4096 := Nat.mod_lt _ (by decide)
    have hlr : l ++ r ≠ [] := fun e => hl (List.append_eq_nil_iff.mp e).1
    rw [fileWrite_cons _ _ hlr, List.length_append]
    dsimp only
    by_cases hfull : 4096 - s.content.length % 4096 ≤ l.length
    · -- the first page is full of `l`
      rw [fileWrite_cons _ _ hl, bind_assoc]
      dsimp only
      have hmin : min (4096 - s.content.length % 4096) (l.length + r.length) =
          4096 - s.content.length % 4096 := by omega
      have hmin' : min (4096 - s.content.length % 4096) l.length = 4096 - s.content.length % 4096 := by omega
      rw [hmin, hmin', List.take_append_of_le_length hfull, List.drop_append_of_le_length hfull]
      have hfit : s.content.length % 4096 + (l.take (4096 - s.content.length % 4096)).length ≤ 4096 := by
        rw [List.length_take]
        omega
      cases hw : writeChunk v ⟨64 + f, s.content.length⟩ (l.take (4096 - s.content.length % 4096)) with
      | error e => rfl
      | ok x =>
        obtain ⟨g, v'⟩ := x
        obtain ⟨t, b, -, hr', -, htf, -, rfl⟩ := (writeChunk_simulates h hf hfit).of_ok (appendChunk_ne_stray _ _ _ _) hw
        exact ih _ (by rw [List.length_drop]; omega) hr' htf _ rfl
    · -- the first page has room behind `l`
      have hfit : s.content.length % 4096 + l.length < 4096 := by omega
      rw [fileWrite_one v ⟨64 + f, s.content.length⟩ hl (Nat.le_of_lt hfit)]
      have hmin : min (4096 - s.content.length % 4096) (l.length + r.length) =
          l.length + min (4096 - s.content.length % 4096 - l.length) r.length := by omega
      rw [hmin, List.take_length_add_append, List.drop_length_add_append, writeChunk_append h hf hfit, bind_assoc]
      cases hw : writeChunk v ⟨64 + f, s.content.length⟩ l with
      | error e => rfl
      | ok x =>
        obtain ⟨g, v'⟩ := x
        obtain ⟨t, b, -, -, -, -, htc, rfl⟩ :=
          (writeChunk_simulates h hf (Nat.le_of_lt hfit)).of_ok (appendChunk_ne_stray _ _ _ _) hw
        have hroom : 4096 - t.content.length % 4096 = 4096 - s.content.length % 4096 - l.length := by
          rw [htc, List.length_append]
          omega
        rw [ok_bind, ok_bind, fileWrite_cons _ _ hr]
        dsimp only
        rw [hroom]

end

/-! ## the pages of a file -/

/-- how many pages are handed out for the data of a file with `n` bytes -/
def pagesFor (n : Nat) : Nat := (n + 4095) / 4096 + if 16 * 4096 < n then 1 else 0

/-- the file `f` has grown to `s` since the page `base` was handed out, and no other file -/
structure Sized (base f : Nat) (s : StoredFile) (a : FileStore) : Prop where
  file : a.file f = some s
  data : s.data.length = (s.content.length + 4095) / 4096
  indirect : s.indirect = 0 ↔ s.data.length ≤ 16
  next : a.next = nextPage^[pagesFor s.content.length] base

/-- the file `f` has grown to `s` since the page `base` was handed out, when it had `n` pages -/
structure SizedSince (n base f : Nat) (s : StoredFile) (a : FileStore) : Prop where
  file : a.file f = some s
  data : s.data.length = (s.content.length + 4095) / 4096
  indirect : s.indirect = 0 ↔ s.data.length ≤ 16
  more : n ≤ pagesFor s.content.length
  next : a.next = nextPage^[pagesFor s.content.length - n] base

section
variable {n base f : Nat} {s : StoredFile} {a : FileStore}

theorem Sized.since (h : Sized base f s a) : SizedSince 0 base f s a :=
  ⟨h.file, h.data, h.indirect, Nat.zero_le _, h.next⟩

theorem SizedSince.sized (h : SizedSince 0 base f s a) : Sized base f s a :=
  ⟨h.file, h.data, h.indirect, h.next⟩

theorem Sized.empty (hf : a.file f = some .empty) : Sized a.next f .empty a :=
  ⟨hf, rfl, ⟨fun _ => Nat.zero_le _, fun _ => rfl⟩, rfl⟩

theorem nextPage_ne_zero (n : Nat) : nextPage n ≠ 0 := Nat.pos_iff_ne_zero.mp (Nat.zero_lt_of_lt (nextPage_spec n).1)

/-- the page for the indirect slots comes with the 17th page of data -/
theorem SizedSince.grow (h : SizedSince n base f s a) : (a.grow f s).1.data.length = s.data.length + 1 ∧
    (a.grow f s).1.content = s.content ∧ ((a.grow f s).1.indirect = 0 ↔ s.data.length + 1 ≤ 16) ∧
    (a.grow f s).2.next = nextPage^[if s.data.length = 16 then 2 else 1] a.next := by
  have hind := h.indirect
  unfold FileStore.grow FileStore.withPage FileStore.withIndirect
  by_cases h16 : 16 ≤ s.data.length ∧ s.indirect = 0
  · have hlen : s.data.length = 16 := by omega
    rw [if_pos h16, if_pos hlen]
    refine ⟨?_, rfl, ⟨fun h0 => absurd h0 (nextPage_ne_zero _), fun hle => by omega⟩, rfl⟩
    exact List.length_append
  · have hlen : s.data.length ≠ 16 := fun e => h16 ⟨by omega, hind.mpr (by omega)⟩
    rw [if_neg h16, if_neg hlen]
    refine ⟨List.length_append, rfl, ?_, rfl⟩
    dsimp only
    rw [hind]
    omega

theorem SizedSince.appendChunk (h : SizedSince n base f s a) {l : List UInt8} (hl : l ≠ [])
    (hfit : s.content.length % 4096 + l.length ≤ 4096) (hmax : s.content.length + l.length ≤ 528 * 4096) :
    ∃ t b, a.appendChunk f s l = .ok (t, b) ∧ SizedSince n base f t b ∧ t.content = s.content ++ l := by
  have hpos := List.length_pos_iff.mpr hl
  have hdata := h.data
  have hmore := h.more
  have hnext := h.next
  unfold FileStore.appendChunk FileStore.endPage
  by_cases hin : s.content.length < 4096 * s.data.length
  · have hsame : pagesFor (s.content ++ l).length = pagesFor s.content.length := by
      rw [List.length_append]
      unfold pagesFor
      split_ifs <;> omega
    rw [if_pos hin, ok_bind]
    refine ⟨_, _, rfl, ⟨FileStore.set_self .., ?_, h.indirect, ?_, ?_⟩, rfl⟩
    · dsimp only
      rw [List.length_append]
      omega
    · dsimp only
      rw [hsame]
      exact hmore
    · dsimp only
      rw [hsame]
      exact hnext
  · obtain ⟨h1, h2, h3, h4⟩ := h.grow
    rw [if_neg hin, if_pos (by omega)]
    generalize a.grow f s = p at h1 h2 h3 h4 ⊢
    have hpages : pagesFor (s.content ++ l).length = (if s.data.length = 16 then 2 else 1) +
        pagesFor s.content.length := by
      rw [List.length_append]
      unfold pagesFor
      split_ifs <;> omega
    refine ⟨_, _, rfl, ⟨FileStore.set_self .., ?_, ?_, ?_, ?_⟩, congrArg (fun c => c ++ l) h2⟩
    · dsimp only
      rw [h1, h2, List.length_append]
      omega
    · dsimp only
      rw [h1]
      exact h3
    · dsimp only
      rw [h2, hpages]
      omega
    · dsimp only
      rw [h2, hpages, Nat.add_sub_assoc hmore, Function.iterate_add_apply, ← hnext]
      exact h4

/-- **The pages that a file takes.** -/
theorem SizedSince.append (h : SizedSince n base f s a) (l : List UInt8)
    (hmax : s.content.length + l.length ≤ 528 * 4096) :
    ∃ t b, a.append f s l = .ok (t, b) ∧ SizedSince n base f t b ∧ t.content = s.content ++ l := by
  induction hn : l.length using Nat.strong_induction_on generalizing a s l with
  | _ k ih =>
    subst hn
    rw [FileStore.append]
    by_cases hl : l = []
    · rw [dif_pos hl, hl]
      exact ⟨s, a, rfl, h, (List.append_nil _).symm⟩
    · have hpos := List.length_pos_iff.mpr hl
      have hmod : s.content.length % 4096 < 4096 := Nat.mod_lt _ (by decide)
      generalize htmp : min (4096 - s.content.length % 4096) l.length = tmp
      have htake : (l.take tmp).length = tmp := by
        rw [List.length_take]
        omega
      obtain ⟨t, b, e, ht, hc⟩ := h.appendChunk (l := l.take tmp)
        (List.ne_nil_of_length_pos (by omega)) (by omega) (by omega)
      obtain ⟨t', b', e', ht', hc'⟩ := ih _ (by rw [List.length_drop]; omega) ht (l.drop tmp)
        (by rw [hc, List.length_append, List.length_drop, htake]; omega) rfl
      refine ⟨t', b', ?_, ht', ?_⟩
      · rw [dif_neg hl]
        dsimp only
        rw [e, ok_bind]
        exact e'
      · rw [hc', hc, List.append_assoc, List.take_append_drop]

theorem append_ok (h : Sized base f s a) (l : List UInt8) (hmax : s.content.length + l.length ≤ 528 * 4096) :
    ∃ t b, a.append f s l = .ok (t, b) ∧ Sized base f t b ∧ t.content = s.content ++ l := by
  obtain ⟨t, b, e, ht, hc⟩ := h.since.append l hmax
  exact ⟨t, b, e, ht.sized, hc⟩

end

end FuseeOS
