import FuseeOS.Tools.FileStore

/-!
# The volume holds the store

`Refines v a`: the bytes of the volume are those of the files in the store, every page has one use, and
the pages that were not handed out are blank.

* `pointerPage_held`, `pointerPage_new`   following a pointer, or allocating a page for it;
* `Refines.update`, `Refines.alloc`       a file changes in its own pages; a page is handed out;
* `indirectPage`, `dataPage`              the next page of a file.
-/

namespace FuseeOS
open Bytes

/-! ## outcomes -/

section
variable {ε α β γ : Type}

theorem ok_bind (x : α) (k : α → Except ε β) : (Except.ok x).bind k = k x := rfl

theorem error_bind (e : ε) (k : α → Except ε β) : (Except.error e : Except ε α).bind k = .error e := rfl

theorem bind_eq_ok {r : Except ε α} {k : α → Except ε β} {y : β} (h : r.bind k = .ok y) :
    ∃ x, r = .ok x ∧ k x = .ok y := by
  cases r with
  | error e => cases h
  | ok x => exact ⟨x, rfl, h⟩

theorem bind_assoc (r : Except ε α) (k : α → Except ε β) (k' : β → Except ε γ) :
    (r.bind k).bind k' = r.bind fun x => (k x).bind k' := by
  cases r with
  | error e => rfl
  | ok x => rfl

end

/-! ## pages -/

namespace MfsVolume
variable (v : MfsVolume) (w : Writer) (n m off : Nat) (l : List UInt8)

/-- the page of an inode -/
def inode (p : Nat) : Page := v.pages (64 + p)

theorem put_self : (v.put w n off l).pages n = store (v.pages n) off l := Function.update_self ..

variable {n m} in
theorem put_ne (h : m ≠ n) : (v.put w n off l).pages m = v.pages m := Function.update_of_ne h ..

theorem put_size : (v.put w n off l).size = v.size := rfl
theorem put_now : (v.put w n off l).now = v.now := rfl
theorem put_root : (v.put w n off l).root = v.root := rfl
theorem put_nextInode : (v.put w n off l).nextInode = v.nextInode := rfl
theorem put_pageCount : (v.put w n off l).pageCount = v.pageCount := rfl

theorem put_written (w' : Writer) (n' : Nat) : (v.put w n off l).written w' n' =
    (v.written w' n' || (decide (w' = w) && decide (n' = n))) := rfl

/-- the volume after the page behind `nextInode` was allocated -/
def allocated (v : MfsVolume) : MfsVolume :=
  let p := nextPage v.nextInode
  let n := 64 + p / MFS_BITMAP_SIZE * MFS_BITMAP_SIZE
  { v with nextInode := p }.put .files n (p % MFS_BITMAP_SIZE / 8)
    [v.pages n (p % MFS_BITMAP_SIZE / 8) ||| 1 <<< UInt8.ofNat (p % MFS_BITMAP_SIZE % 8)]

end MfsVolume

theorem nextPage_spec (n : Nat) : n < nextPage n ∧ nextPage n % MFS_BITMAP_SIZE ≠ 0 ∧
    ∀ p, n < p → p < nextPage n → p % MFS_BITMAP_SIZE = 0 := by
  unfold nextPage MFS_BITMAP_SIZE MFS_PAGE_SIZE
  split_ifs with h
  · refine ⟨by omega, by omega, fun p h1 h2 => ?_⟩
    have hp : p = n + 1 := by omega
    rw [hp]
    exact h
  · exact ⟨by omega, h, fun p h1 h2 => by omega⟩

theorem inodePage_ok {v : MfsVolume} {p : Nat} (hs : v.pageCount < 2^63) (h : 64 + p < v.pageCount) :
    inodePage v p = .ok (64 + p) := by
  have hmod : (MFS_RESERVED_PAGES + p) % 2^64 = 64 + p := Nat.mod_eq_of_lt (by
    unfold MFS_RESERVED_PAGES
    omega)
  rw [inodePage, hmod, if_pos h]

theorem inodePage_error {v : MfsVolume} {p : Nat} (hp : p < 2^63) (h : ¬ 64 + p < v.pageCount) :
    inodePage v p = .error .undefined := by
  have hmod : (MFS_RESERVED_PAGES + p) % 2^64 = 64 + p := Nat.mod_eq_of_lt (by
    unfold MFS_RESERVED_PAGES
    omega)
  rw [inodePage, hmod, if_neg h]

theorem allocPage_ok {v : MfsVolume} (hs : v.pageCount < 2^63)
    (h : 64 + nextPage v.nextInode / MFS_BITMAP_SIZE * MFS_BITMAP_SIZE < v.pageCount) :
    allocPage v = .ok (nextPage v.nextInode, v.allocated) := by
  unfold allocPage
  dsimp only
  rw [inodePage_ok hs h]
  rfl

/-! ## what the bytes say -/

/-- the bytes of a file -/
structure FileAt (v : MfsVolume) (f : Nat) (s : StoredFile) : Prop where
  size : get64 (v.inode f) Mfs.size = s.content.length
  data : ∀ i < 16, get64 (v.inode f) (Mfs.data i) = s.data.getD i 0
  idata : get64 (v.inode f) Mfs.idata = s.indirect
  inodes : s.indirect ≠ 0 → ∀ i < 512, get64 (v.inode s.indirect) (Mfs.inodes i) = s.data.getD (16 + i) 0
  bytes : ∀ i (h : i < s.content.length), v.inode (s.data.getD (i / 4096) 0) (i % 4096) = s.content[i]

/-- the pages of a file, by the owners of pages -/
structure Shape (owner : Nat → Option (Nat × Slot)) (f : Nat) (s : StoredFile) : Prop where
  pages : s.content.length ≤ 4096 * s.data.length
  few : s.data.length ≤ 528
  indirect : 16 < s.data.length → s.indirect ≠ 0
  ownsInode : owner f = some (f, .inode)
  ownsData : ∀ i (h : i < s.data.length), owner s.data[i] = some (f, .data i)
  ownsIndirect : s.indirect ≠ 0 → owner s.indirect = some (f, .indirect)

/-- a page that `alloc_page` has returned -/
structure Returned (next p : Nat) : Prop where
  pos : 0 < p
  le : p ≤ next
  proper : p % MFS_BITMAP_SIZE ≠ 0

/-- **the volume holds the store** -/
structure Refines (v : MfsVolume) (a : FileStore) : Prop where
  next : v.nextInode = a.next
  room : 64 + a.next < v.pageCount
  small : v.pageCount < 2^63
  owned : ∀ p o, a.owner p = some o → Returned a.next p
  blank : ∀ p, a.next < p → p % MFS_BITMAP_SIZE ≠ 0 → 64 + p < v.pageCount → v.inode p = fun _ => 0
  shape : ∀ f s, a.file f = some s → Shape a.owner f s
  file : ∀ f s, a.file f = some s → FileAt v f s
  region : ∀ n, v.written .files n = true → 64 ≤ n ∧ n < v.pageCount
  bitmap : ∀ p, 64 + p / MFS_BITMAP_SIZE * MFS_BITMAP_SIZE < v.pageCount →
    ((v.inode (p / MFS_BITMAP_SIZE * MFS_BITMAP_SIZE) (p % MFS_BITMAP_SIZE / 8)).toNat.testBit (p % 8) = true ↔
      Returned a.next p)

/-- what the files leave alone -/
structure Kept (v v' : MfsVolume) : Prop where
  size : v'.size = v.size
  now : v'.now = v.now
  root : v'.root = v.root
  reserved : ∀ n < 64, v'.pages n = v.pages n
  metadata : v'.written .metadata = v.written .metadata
  vbr : v'.written .vbr = v.written .vbr

theorem Kept.refl (v : MfsVolume) : Kept v v := ⟨rfl, rfl, rfl, fun _ _ => rfl, rfl, rfl⟩

theorem Kept.trans {v v' v'' : MfsVolume} (h : Kept v v') (h' : Kept v' v'') : Kept v v'' where
  size := h'.size.trans h.size
  now := h'.now.trans h.now
  root := h'.root.trans h.root
  reserved := fun n hn => (h'.reserved n hn).trans (h.reserved n hn)
  metadata := h'.metadata.trans h.metadata
  vbr := h'.vbr.trans h.vbr

theorem Kept.pageCount {v v' : MfsVolume} (h : Kept v v') : v'.pageCount = v.pageCount := by
  unfold MfsVolume.pageCount
  rw [h.size]

theorem kept_put (v : MfsVolume) {n : Nat} (off : Nat) (l : List UInt8) (hn : 64 ≤ n) :
    Kept v (v.put .files n off l) where
  size := rfl
  now := rfl
  root := rfl
  reserved := fun m hm => v.put_ne _ _ _ (by omega)
  metadata := funext fun m => by simp [v.put_written]
  vbr := funext fun m => by simp [v.put_written]

theorem kept_allocated (v : MfsVolume) : Kept v v.allocated :=
  let k := kept_put { v with nextInode := nextPage v.nextInode } (nextPage v.nextInode % MFS_BITMAP_SIZE / 8)
    [v.pages (64 + nextPage v.nextInode / MFS_BITMAP_SIZE * MFS_BITMAP_SIZE)
      (nextPage v.nextInode % MFS_BITMAP_SIZE / 8) |||
        1 <<< UInt8.ofNat (nextPage v.nextInode % MFS_BITMAP_SIZE % 8)] (Nat.le_add_right 64 _)
  ⟨k.size, k.now, k.root, k.reserved, k.metadata, k.vbr⟩

section
variable {v v' : MfsVolume} {a : FileStore} {f g : Nat} {s s' : StoredFile}

/-! ## frames -/

theorem Shape.data_owned {owner : Nat → Option (Nat × Slot)} (h : Shape owner f s) {i : Nat}
    (hi : i < s.data.length) : owner (s.data.getD i 0) = some (f, .data i) := by
  rw [List.getD_eq_getElem?_getD, List.getElem?_eq_getElem hi]
  exact h.ownsData i hi

/-- the owners of other pages do not matter -/
theorem Shape.frame {owner owner' : Nat → Option (Nat × Slot)} (h : Shape owner f s)
    (ho : ∀ q slot, owner q = some (f, slot) → owner' q = some (f, slot)) : Shape owner' f s where
  pages := h.pages
  few := h.few
  indirect := h.indirect
  ownsInode := ho _ _ h.ownsInode
  ownsData := fun i hi => ho _ _ (h.ownsData i hi)
  ownsIndirect := fun hind => ho _ _ (h.ownsIndirect hind)

/-- the bytes of a file depend on its own pages only -/
theorem FileAt.frame {owner : Nat → Option (Nat × Slot)} (h : FileAt v f s) (hs : Shape owner f s)
    (hp : ∀ q slot, owner q = some (f, slot) → v'.inode q = v.inode q) : FileAt v' f s := by
  have hf := hp f _ hs.ownsInode
  refine ⟨?_, fun i hi => ?_, ?_, fun hind i hi => ?_, fun i hi => ?_⟩
  · rw [hf]
    exact h.size
  · rw [hf]
    exact h.data i hi
  · rw [hf]
    exact h.idata
  · rw [hp _ _ (hs.ownsIndirect hind)]
    exact h.inodes hind i hi
  · have hlt : i / 4096 < s.data.length := by
      have hlen := hs.pages
      omega
    rw [hp _ _ (hs.data_owned hlt)]
    exact h.bytes i hi

theorem bitmap_mod (p : Nat) : p / MFS_BITMAP_SIZE * MFS_BITMAP_SIZE % MFS_BITMAP_SIZE = 0 :=
  Nat.mul_mod_left ..

/-- a file changes in its own pages -/
theorem Refines.update (h : Refines v a) (hk : Kept v v') (hnext : v'.nextInode = v.nextInode)
    (hp : ∀ q, (∀ slot, a.owner q ≠ some (f, slot)) → v'.inode q = v.inode q)
    (hw : ∀ n, v'.written .files n = true → 64 ≤ n ∧ n < v.pageCount)
    (hat : FileAt v' f s') (hs : Shape a.owner f s') : Refines v' (a.set f s') := by
  have hcount := hk.pageCount
  refine {
    next := hnext.trans h.next
    room := by
      rw [hcount]
      exact h.room
    small := by
      rw [hcount]
      exact h.small
    owned := h.owned
    blank := fun p hlt hmod hin => ?_
    shape := fun g t hg => ?_
    file := fun g t hg => ?_
    region := fun n hn => by
      rw [hcount]
      exact hw n hn
    bitmap := fun p hin => ?_ }
  · rw [hcount] at hin
    rw [hp p fun slot ho => absurd (h.owned p _ ho).le (Nat.not_le.mpr hlt)]
    exact h.blank p hlt hmod hin
  · by_cases hgf : g = f
    · subst hgf
      cases (a.set_self g s').symm.trans hg
      exact hs
    · rw [a.set_ne s' hgf] at hg
      exact h.shape g t hg
  · by_cases hgf : g = f
    · subst hgf
      cases (a.set_self g s').symm.trans hg
      exact hat
    · rw [a.set_ne s' hgf] at hg
      refine (h.file g t hg).frame (h.shape g t hg) fun q slot hq => hp q fun slot' hq' => hgf ?_
      rw [hq] at hq'
      exact congrArg Prod.fst (Option.some.inj hq')
  · rw [hcount] at hin
    rw [hp _ fun slot ho => (h.owned _ _ ho).proper (bitmap_mod p)]
    exact h.bitmap p hin

/-! ## allocation -/

theorem Refines.nextPage_free (h : Refines v a) : a.owner (nextPage a.next) = none := by
  cases ho : a.owner (nextPage a.next) with
  | none => rfl
  | some o => exact absurd (h.owned _ _ ho).le (Nat.not_le.mpr (nextPage_spec a.next).1)

/-- the bits of a byte after one is set -/
theorem testBit_setBit (b : UInt8) {i j : Nat} (hi : i < 8) (hj : j < 8) :
    (b ||| 1 <<< UInt8.ofNat i).toNat.testBit j = (b.toNat.testBit j || decide (j = i)) := by
  have hshift : ∀ i < 8, ∀ j < 8, ((1 : UInt8) <<< UInt8.ofNat i).toNat.testBit j = decide (j = i) := by decide
  rw [UInt8.toNat_or, Nat.testBit_or, hshift i hi j hj]

theorem allocated_inode_of_ne {q : Nat}
    (hq : q ≠ nextPage v.nextInode / MFS_BITMAP_SIZE * MFS_BITMAP_SIZE) :
    v.allocated.inode q = v.inode q := by
  refine MfsVolume.put_ne _ _ _ _ fun e => hq ?_
  omega

theorem returned_nextPage {n p : Nat} : Returned (nextPage n) p ↔ Returned n p ∨ p = nextPage n := by
  obtain ⟨hlt, hmod, hbetween⟩ := nextPage_spec n
  constructor
  · intro h
    by_cases hn : p ≤ n
    · exact Or.inl ⟨h.pos, hn, h.proper⟩
    · refine Or.inr (Nat.le_antisymm h.le (Nat.le_of_not_lt fun hp => h.proper ?_))
      exact hbetween p (Nat.lt_of_not_le hn) hp
  · rintro (h | rfl)
    · exact ⟨h.pos, Nat.le_trans h.le (Nat.le_of_lt hlt), h.proper⟩
    · exact ⟨Nat.zero_lt_of_lt hlt, Nat.le_refl _, hmod⟩

/-- the bit of a page after an allocation -/
theorem bitmap_allocated (v : MfsVolume) (p : Nat) :
    (v.allocated.inode (p / MFS_BITMAP_SIZE * MFS_BITMAP_SIZE) (p % MFS_BITMAP_SIZE / 8)).toNat.testBit (p % 8) =
      ((v.inode (p / MFS_BITMAP_SIZE * MFS_BITMAP_SIZE) (p % MFS_BITMAP_SIZE / 8)).toNat.testBit (p % 8) ||
        decide (p = nextPage v.nextInode)) := by
  generalize hq : nextPage v.nextInode = q
  have hB : MFS_BITMAP_SIZE = 32768 := rfl
  have hp8 : p % 8 < 8 := Nat.mod_lt _ (by decide)
  have hq8 : q % MFS_BITMAP_SIZE % 8 = q % 8 := Nat.mod_mod_of_dvd _ (by decide)
  by_cases hpage : p / MFS_BITMAP_SIZE * MFS_BITMAP_SIZE = q / MFS_BITMAP_SIZE * MFS_BITMAP_SIZE
  · have hstore : v.allocated.inode (q / MFS_BITMAP_SIZE * MFS_BITMAP_SIZE) =
        store (v.inode (q / MFS_BITMAP_SIZE * MFS_BITMAP_SIZE)) (q % MFS_BITMAP_SIZE / 8)
          [v.inode (q / MFS_BITMAP_SIZE * MFS_BITMAP_SIZE) (q % MFS_BITMAP_SIZE / 8) |||
            1 <<< UInt8.ofNat (q % 8)] := by
      rw [← hq8, ← hq]
      exact MfsVolume.put_self ..
    rw [hpage, hstore]
    by_cases hbyte : p % MFS_BITMAP_SIZE / 8 = q % MFS_BITMAP_SIZE / 8
    · have hat := holdsAt_store (v.inode (q / MFS_BITMAP_SIZE * MFS_BITMAP_SIZE)) (q % MFS_BITMAP_SIZE / 8)
        [v.inode (q / MFS_BITMAP_SIZE * MFS_BITMAP_SIZE) (q % MFS_BITMAP_SIZE / 8) |||
          1 <<< UInt8.ofNat (q % 8)] 0 Nat.zero_lt_one
      rw [Nat.add_zero] at hat
      have hiff : p % 8 = q % 8 ↔ p = q := by
        rw [hB] at hpage hbyte
        omega
      rw [hbyte, hat, List.getElem_cons_zero, testBit_setBit _ (Nat.mod_lt _ (by decide)) hp8,
        decide_eq_decide.mpr hiff]
    · have hne : p ≠ q := fun e => hbyte (by rw [e])
      have hother : ∀ b, store (v.inode (q / MFS_BITMAP_SIZE * MFS_BITMAP_SIZE)) (q % MFS_BITMAP_SIZE / 8) [b]
          (p % MFS_BITMAP_SIZE / 8) =
            v.inode (q / MFS_BITMAP_SIZE * MFS_BITMAP_SIZE) (p % MFS_BITMAP_SIZE / 8) := by
        intro b
        rcases Nat.lt_or_gt_of_ne hbyte with hlt | hgt
        · exact store_of_lt _ _ hlt
        · exact store_of_ge _ _ hgt
      rw [hother, decide_eq_false hne, Bool.or_false]
  · have hne : p ≠ q := fun e => hpage (by rw [e])
    rw [allocated_inode_of_ne (by rw [hq]; exact hpage), decide_eq_false hne, Bool.or_false]

/-- **the page that was allocated** is handed out for something -/
theorem Refines.alloc (h : Refines v a) (hroom : 64 + nextPage a.next < v.pageCount) (f : Nat) (slot : Slot) :
    Refines v.allocated (a.take (nextPage a.next) f slot) := by
  have hk := kept_allocated v
  have hcount := hk.pageCount
  have hnext := h.next
  obtain ⟨hlt, hmod, hbetween⟩ := nextPage_spec a.next
  have hfree := h.nextPage_free
  have hproper : ∀ q, q % MFS_BITMAP_SIZE ≠ 0 → v.allocated.inode q = v.inode q := fun q hq =>
    allocated_inode_of_ne fun e => hq (e ▸ bitmap_mod _)
  refine {
    next := congrArg nextPage hnext
    room := by
      rw [hcount]
      exact hroom
    small := by
      rw [hcount]
      exact h.small
    owned := fun p o ho => ?_
    blank := fun p hp hpm hin => ?_
    shape := fun g t hg => ?_
    file := fun g t hg => ?_
    region := fun n hn => ?_
    bitmap := fun p hin => ?_ }
  · by_cases hp : p = nextPage a.next
    · rw [hp]
      exact ⟨by omega, Nat.le_refl _, hmod⟩
    · rw [a.take_ne slot hp] at ho
      have hret := h.owned p o ho
      exact ⟨hret.pos, Nat.le_trans hret.le (Nat.le_of_lt hlt), hret.proper⟩
  · rw [hcount] at hin
    rw [hproper p hpm]
    exact h.blank p (Nat.lt_trans hlt hp) hpm hin
  · refine (h.shape g t hg).frame fun q slot' hq => ?_
    have hne : q ≠ nextPage a.next := fun e => by
      rw [e, hfree] at hq
      cases hq
    rw [a.take_ne slot hne]
    exact hq
  · refine (h.file g t hg).frame (h.shape g t hg) fun q slot' hq => ?_
    exact hproper q (h.owned q _ hq).proper
  · rw [hcount]
    rw [MfsVolume.allocated, MfsVolume.put_written] at hn
    rcases Bool.or_eq_true_iff.mp hn with hn | hn
    · exact h.region n hn
    · have hn' : n = _ := of_decide_eq_true (Bool.and_eq_true_iff.mp hn).2
      have hle := Nat.div_mul_le_self (nextPage v.nextInode) MFS_BITMAP_SIZE
      rw [hnext] at hle hn'
      omega
  · rw [hcount] at hin
    have hbit := h.bitmap p hin
    rw [bitmap_allocated, hnext, Bool.or_eq_true, hbit, decide_eq_true_eq]
    exact returned_nextPage.symm

/-- the allocation of a page, which is then looked for in the volume -/
theorem allocPage_cases (h : Refines v a) : allocPage v = .ok (nextPage a.next, v.allocated) ∨
    (allocPage v = .error .undefined ∧ ¬ 64 + nextPage a.next < v.pageCount) := by
  have hle := Nat.div_mul_le_self (nextPage a.next) MFS_BITMAP_SIZE
  have hnext := h.next
  have hsmall := h.small
  by_cases hin : 64 + nextPage v.nextInode / MFS_BITMAP_SIZE * MFS_BITMAP_SIZE < v.pageCount
  · refine Or.inl ?_
    rw [allocPage_ok hsmall hin, hnext]
  · refine Or.inr ⟨?_, fun hroom => hin ?_⟩
    · have hlt : nextPage a.next < 2^63 := by
        have hroom := h.room
        unfold nextPage
        split <;> omega
      unfold allocPage
      dsimp only
      rw [inodePage_error (by rw [hnext]; omega) hin]
      rfl
    · rw [hnext]
      omega

theorem nextPage_small (h : Refines v a) : nextPage a.next < 2^63 := by
  have hroom := h.room
  have hsmall := h.small
  unfold nextPage
  split <;> omega

theorem Refines.returned_lt (h : Refines v a) {p : Nat} (hp : Returned a.next p) : 64 + p < v.pageCount :=
  Nat.lt_of_le_of_lt (Nat.add_le_add_left hp.le 64) h.room

/-- pages of files are inside the volume -/
theorem Refines.inside (h : Refines v a) {p : Nat} {o : Nat × Slot} (ho : a.owner p = some o) :
    64 + p < v.pageCount :=
  h.returned_lt (h.owned p o ho)

theorem Refines.inodePage (h : Refines v a) {p : Nat} (hp : Returned a.next p) :
    inodePage v p = .ok (64 + p) :=
  inodePage_ok h.small (h.returned_lt hp)

/-! ## pointers -/

/-- a pointer that is there -/
theorem pointerPage_held (h : Refines v a) {n off q : Nat} (hq : get64 (v.pages n) off = q)
    (hr : Returned a.next q) : pointerPage v n off = .ok (64 + q, v) := by
  have hne : q ≠ 0 := Nat.pos_iff_ne_zero.mp hr.pos
  unfold pointerPage pointerOrAlloc
  dsimp only
  rw [hq, if_neg hne, ok_bind]
  dsimp only
  rw [h.inodePage hr, ok_bind]

/-- a pointer that is 0 -/
theorem pointerPage_new (h : Refines v a) {n off : Nat} (h0 : get64 (v.pages n) off = 0) :
    pointerPage v n off = if 64 + nextPage a.next < v.pageCount then
      .ok (64 + nextPage a.next, v.allocated.put .files n off (le 8 (nextPage a.next)))
      else .error .undefined := by
  have hcount := (kept_allocated v).pageCount
  unfold pointerPage pointerOrAlloc
  dsimp only
  rw [if_pos h0]
  rcases allocPage_cases h with he | ⟨he, hno⟩
  · rw [he, ok_bind]
    dsimp only
    rw [ok_bind]
    dsimp only
    by_cases hroom : 64 + nextPage a.next < v.pageCount
    · rw [if_pos hroom, inodePage_ok (by rw [MfsVolume.put_pageCount, hcount]; exact h.small)
        (by rw [MfsVolume.put_pageCount, hcount]; exact hroom), ok_bind]
    · rw [if_neg hroom, inodePage_error (nextPage_small h)
        (by rw [MfsVolume.put_pageCount, hcount]; exact hroom), error_bind]
  · rw [he, if_neg hno]
    rfl

/-- the fields of a page after one was written -/
theorem get64_store (page : Page) {off o n : Nat} (h : off % 8 = 0) (ho : o % 8 = 0) (hn : n < 2^64) :
    get64 (store page off (le 8 n)) o = if o = off then n else get64 page o := by
  by_cases he : o = off
  · rw [if_pos he, he]
    exact readLe_store page off hn
  · rw [if_neg he]
    exact readLe_store_beside page (le 8 n) (by rw [length_le]; omega)

namespace Mfs
variable {i j : Nat}

theorem data_mod (i : Nat) : data i % 8 = 0 := by
  unfold data
  omega

theorem inodes_mod (i : Nat) : inodes i % 8 = 0 := by
  unfold inodes
  omega

theorem data_inj : data i = data j ↔ i = j := by
  unfold data
  omega

theorem inodes_inj : inodes i = inodes j ↔ i = j := by
  unfold inodes
  omega

theorem size_ne_data : size ≠ data i := by
  unfold size data
  omega

theorem data_ne_idata (h : i < 16) : data i ≠ idata := by
  unfold data idata
  omega

end Mfs

/-- a page of a file is written, after an allocation for it or not -/
theorem Refines.put (h : Refines v a) {m off : Nat} {l : List UInt8} {slot : Slot}
    (hm : a.owner m = some (f, slot)) (hat : FileAt (v.put .files (64 + m) off l) f s')
    (hs : Shape a.owner f s') : Refines (v.put .files (64 + m) off l) (a.set f s') := by
  have hret := h.owned m _ hm
  refine h.update (kept_put v off l (Nat.le_add_right 64 m)) rfl (fun q hq => ?_) (fun n hn => ?_) hat hs
  · refine v.put_ne _ _ _ fun e => hq slot ?_
    have hqm : q = m := by omega
    rw [hqm, hm]
  · rw [v.put_written] at hn
    rcases Bool.or_eq_true_iff.mp hn with hn | hn
    · exact h.region n hn
    · have hn' : n = 64 + m := of_decide_eq_true (Bool.and_eq_true_iff.mp hn).2
      have hroom := h.room
      have hle := hret.le
      omega

theorem put_inode_self (v : MfsVolume) (m off : Nat) (l : List UInt8) :
    (v.put .files (64 + m) off l).inode m = store (v.inode m) off l := v.put_self ..

theorem put_inode_ne (v : MfsVolume) {m q : Nat} (off : Nat) (l : List UInt8) (h : q ≠ m) :
    (v.put .files (64 + m) off l).inode q = v.inode q := v.put_ne _ _ _ (by omega)

theorem Shape.data_ne_inode {owner : Nat → Option (Nat × Slot)} (h : Shape owner f s) {i : Nat}
    (hi : i < s.data.length) : s.data.getD i 0 ≠ f := fun e => by
  have ho := h.data_owned hi
  rw [e, h.ownsInode] at ho
  cases ho

theorem Shape.data_ne_indirect {owner : Nat → Option (Nat × Slot)} (h : Shape owner f s) {i : Nat}
    (hi : i < s.data.length) (hind : s.indirect ≠ 0) : s.data.getD i 0 ≠ s.indirect := fun e => by
  have ho := h.data_owned hi
  rw [e, h.ownsIndirect hind] at ho
  cases ho

theorem Shape.indirect_ne_inode {owner : Nat → Option (Nat × Slot)} (h : Shape owner f s)
    (hind : s.indirect ≠ 0) : s.indirect ≠ f := fun e => by
  have ho := h.ownsIndirect hind
  rw [e, h.ownsInode] at ho
  cases ho

theorem Shape.div_lt {owner : Nat → Option (Nat × Slot)} (h : Shape owner f s) {i : Nat}
    (hi : i < s.content.length) : i / 4096 < s.data.length := by
  have hlen := h.pages
  omega

/-! ## the page of indirect slots -/

/-- the pointer to the indirect slots is written -/
theorem FileAt.putIndirect {owner : Nat → Option (Nat × Slot)} (h : FileAt v f s) (hs : Shape owner f s)
    {p : Nat} (hp : p < 2^64) (hpf : p ≠ f) (h16 : s.data.length ≤ 16) (hblank : v.inode p = fun _ => 0) :
    FileAt (v.put .files (64 + f) Mfs.idata (le 8 p)) f { s with indirect := p } := by
  refine ⟨?_, fun i hi => ?_, ?_, fun _ i hi => ?_, fun i hi => ?_⟩
  · rw [put_inode_self, get64_store _ (by decide) (by decide) hp, if_neg (by decide)]
    exact h.size
  · rw [put_inode_self, get64_store _ (by decide) (Mfs.data_mod i) hp, if_neg (Mfs.data_ne_idata hi)]
    exact h.data i hi
  · rw [put_inode_self, get64_store _ (by decide) (by decide) hp, if_pos rfl]
  · have hnone : s.data.getD (16 + i) 0 = 0 := by
      rw [List.getD_eq_getElem?_getD, List.getElem?_eq_none (by omega), Option.getD_none]
    rw [put_inode_ne v _ _ hpf, hblank]
    exact (readLe_zero fun _ _ => rfl).trans hnone.symm
  · rw [put_inode_ne v _ _ (hs.data_ne_inode (hs.div_lt hi))]
    exact h.bytes i hi

/-- **the page of indirect slots**, which is there or is allocated -/
theorem indirectPage (h : Refines v a) (hf : a.file f = some s) (h16 : 16 ≤ s.data.length) :
    if 64 + (a.withIndirect f s).2.next < v.pageCount then
      ∃ v', pointerPage v (64 + f) Mfs.idata = .ok (64 + (a.withIndirect f s).1.indirect, v') ∧
        Refines v' (a.withIndirect f s).2 ∧ Kept v v'
    else pointerPage v (64 + f) Mfs.idata = .error .undefined := by
  have hat := h.file f s hf
  have hs := h.shape f s hf
  by_cases h0 : s.indirect = 0
  · have hw : a.withIndirect f s = ({ s with indirect := nextPage a.next },
        (a.take (nextPage a.next) f .indirect).set f { s with indirect := nextPage a.next }) := by
      rw [FileStore.withIndirect, if_pos ⟨h16, h0⟩]
    have h16' : s.data.length ≤ 16 := Nat.le_of_not_lt fun hlt => hs.indirect hlt h0
    rw [hw, pointerPage_new h (hat.idata.trans h0)]
    dsimp only
    rw [FileStore.set_next, FileStore.take_next]
    by_cases hroom : 64 + nextPage a.next < v.pageCount
    · rw [if_pos hroom, if_pos hroom]
      have h1 := h.alloc hroom f .indirect
      have hown := a.take_self (nextPage a.next) f .indirect
      have hat1 := h1.file f s (by rw [FileStore.take_file]; exact hf)
      have hs1 := h1.shape f s (by rw [FileStore.take_file]; exact hf)
      have hpf : nextPage a.next ≠ f := fun e => by
        have hfree := h.nextPage_free
        rw [e, hs.ownsInode] at hfree
        cases hfree
      have hblank : v.allocated.inode (nextPage a.next) = fun _ => 0 := by
        obtain ⟨hlt, hmod, -⟩ := nextPage_spec a.next
        rw [allocated_inode_of_ne fun e => hmod (by rw [e]; exact bitmap_mod _)]
        exact h.blank _ hlt hmod hroom
      refine ⟨_, rfl, h1.put hs1.ownsInode ?_ ?_, (kept_allocated v).trans (kept_put _ _ _ (Nat.le_add_right ..))⟩
      · exact hat1.putIndirect hs1 (Nat.lt_trans (nextPage_small h) (by decide)) hpf h16' hblank
      · exact ⟨hs1.pages, hs1.few, fun _ => Nat.pos_iff_ne_zero.mp (Nat.zero_lt_of_lt (nextPage_spec a.next).1),
          hs1.ownsInode, hs1.ownsData, fun _ => hown⟩
    · rw [if_neg hroom, if_neg hroom]
  · have hw : a.withIndirect f s = (s, a) := by
      rw [FileStore.withIndirect, if_neg fun hc => h0 hc.2]
    rw [hw, if_pos h.room]
    exact ⟨v, pointerPage_held h hat.idata (h.owned _ _ (hs.ownsIndirect h0)), h, Kept.refl v⟩

/-! ## a page of data -/

/-- where the pointer to the `i`-th page of data is: the page, and the offset in it -/
def slotAt (f : Nat) (s : StoredFile) (i : Nat) : Nat × Nat :=
  if i < 16 then (f, Mfs.data i) else (s.indirect, Mfs.inodes (i - 16))

theorem getD_snoc (l : List Nat) (p j : Nat) :
    (l ++ [p]).getD j 0 = if j = l.length then p else l.getD j 0 := by
  rw [List.getD_eq_getElem?_getD, List.getD_eq_getElem?_getD]
  rcases Nat.lt_trichotomy j l.length with hlt | rfl | hgt
  · rw [List.getElem?_append_left hlt, if_neg (Nat.ne_of_lt hlt)]
  · rw [List.getElem?_concat_length, if_pos rfl, Option.getD_some]
  · rw [List.getElem?_eq_none (by rw [List.length_append, List.length_singleton]; omega),
      if_neg (Nat.ne_of_gt hgt), List.getElem?_eq_none (by omega)]

/-- the pointer to one more page is written -/
theorem FileAt.putData {owner : Nat → Option (Nat × Slot)} (h : FileAt v f s) (hs : Shape owner f s)
    {p : Nat} (hp : p < 2^64) (hlen : s.data.length < 528) (hind : 16 ≤ s.data.length → s.indirect ≠ 0) :
    FileAt (v.put .files (64 + (slotAt f s s.data.length).1) (slotAt f s s.data.length).2 (le 8 p)) f
      { s with data := s.data ++ [p] } := by
  have hold : ∀ i, i < s.content.length → (s.data ++ [p]).getD (i / 4096) 0 = s.data.getD (i / 4096) 0 :=
    fun i hi => by rw [getD_snoc, if_neg (Nat.ne_of_lt (hs.div_lt hi))]
  by_cases h16 : s.data.length < 16
  · rw [slotAt, if_pos h16]
    dsimp only
    refine ⟨?_, fun i hi => ?_, ?_, fun hne i hi => ?_, fun i hi => ?_⟩
    · rw [put_inode_self, get64_store _ (Mfs.data_mod _) (by decide) hp, if_neg Mfs.size_ne_data]
      exact h.size
    · rw [put_inode_self, get64_store _ (Mfs.data_mod _) (Mfs.data_mod i) hp, getD_snoc, h.data i hi]
      simp only [Mfs.data_inj]
    · rw [put_inode_self, get64_store _ (Mfs.data_mod _) (by decide) hp, if_neg (Mfs.data_ne_idata h16).symm]
      exact h.idata
    · dsimp only at hne ⊢
      rw [put_inode_ne v _ _ (hs.indirect_ne_inode hne), getD_snoc, if_neg (by omega)]
      exact h.inodes hne i hi
    · dsimp only at hi ⊢
      rw [hold i hi, put_inode_ne v _ _ (hs.data_ne_inode (hs.div_lt hi))]
      exact h.bytes i hi
  · have hne := hind (Nat.le_of_not_lt h16)
    have hnf := hs.indirect_ne_inode hne
    rw [slotAt, if_neg h16]
    dsimp only
    refine ⟨?_, fun i hi => ?_, ?_, fun _ i hi => ?_, fun i hi => ?_⟩
    · rw [put_inode_ne v _ _ hnf.symm]
      exact h.size
    · rw [put_inode_ne v _ _ hnf.symm, getD_snoc, if_neg (by omega)]
      exact h.data i hi
    · rw [put_inode_ne v _ _ hnf.symm]
      exact h.idata
    · dsimp only
      have hiff : i = s.data.length - 16 ↔ 16 + i = s.data.length := by omega
      rw [put_inode_self, get64_store _ (Mfs.inodes_mod _) (Mfs.inodes_mod i) hp, getD_snoc, h.inodes hne i hi]
      simp only [Mfs.inodes_inj, hiff]
    · dsimp only at hi ⊢
      rw [hold i hi, put_inode_ne v _ _ (hs.data_ne_indirect (hs.div_lt hi) hne)]
      exact h.bytes i hi

/-- **one more page of data** is allocated for the slot behind the last one -/
theorem dataPage (h : Refines v a) (hf : a.file f = some s) (hlen : s.data.length < 528)
    (hind : 16 ≤ s.data.length → s.indirect ≠ 0) :
    if 64 + (a.withPage f s).2.next < v.pageCount then
      ∃ v', pointerPage v (64 + (slotAt f s s.data.length).1) (slotAt f s s.data.length).2 =
          .ok (64 + nextPage a.next, v') ∧ Refines v' (a.withPage f s).2 ∧ Kept v v'
    else pointerPage v (64 + (slotAt f s s.data.length).1) (slotAt f s s.data.length).2 =
      .error .undefined := by
  have hat := h.file f s hf
  have hs := h.shape f s hf
  have hzero : get64 (v.pages (64 + (slotAt f s s.data.length).1)) (slotAt f s s.data.length).2 = 0 := by
    have hnone : ∀ j, s.data.length ≤ j → s.data.getD j 0 = 0 := fun j hj => by
      rw [List.getD_eq_getElem?_getD, List.getElem?_eq_none hj, Option.getD_none]
    by_cases h16 : s.data.length < 16
    · rw [slotAt, if_pos h16]
      exact (hat.data _ h16).trans (hnone _ (Nat.le_refl _))
    · rw [slotAt, if_neg h16]
      refine (hat.inodes (hind (Nat.le_of_not_lt h16)) (s.data.length - 16) (by omega)).trans ?_
      exact hnone _ (by omega)
  have hnext : (a.withPage f s).2.next = nextPage a.next := rfl
  rw [pointerPage_new h hzero, hnext]
  by_cases hroom : 64 + nextPage a.next < v.pageCount
  · rw [if_pos hroom, if_pos hroom]
    have h1 := h.alloc hroom f (.data s.data.length)
    have hown := a.take_self (nextPage a.next) f (.data s.data.length)
    have hat1 := h1.file f s (by rw [FileStore.take_file]; exact hf)
    have hs1 := h1.shape f s (by rw [FileStore.take_file]; exact hf)
    have hslot : ∃ slot, (a.take (nextPage a.next) f (.data s.data.length)).owner
        (slotAt f s s.data.length).1 = some (f, slot) := by
      by_cases h16 : s.data.length < 16
      · rw [slotAt, if_pos h16]
        exact ⟨_, hs1.ownsInode⟩
      · rw [slotAt, if_neg h16]
        exact ⟨_, hs1.ownsIndirect (hind (Nat.le_of_not_lt h16))⟩
    obtain ⟨slot, hslot⟩ := hslot
    refine ⟨_, rfl, h1.put hslot ?_ ?_, (kept_allocated v).trans (kept_put _ _ _ (Nat.le_add_right ..))⟩
    · exact hat1.putData hs1 (Nat.lt_trans (nextPage_small h) (by decide)) hlen hind
    · refine ⟨?_, ?_, fun hgt => ?_, hs1.ownsInode, fun i hi => ?_, hs1.ownsIndirect⟩
      · refine Nat.le_trans hs1.pages (Nat.mul_le_mul_left 4096 ?_)
        rw [List.length_append]
        exact Nat.le_add_right ..
      · rw [List.length_append, List.length_singleton]
        exact hlen
      · rw [List.length_append, List.length_singleton] at hgt
        exact hind (by omega)
      · rw [List.length_append, List.length_singleton] at hi
        by_cases hlast : i = s.data.length
        · subst hlast
          rw [List.getElem_concat_length rfl]
          exact hown
        · have hlt : i < s.data.length := by omega
          rw [List.getElem_append_left hlt]
          exact hs1.ownsData i hlt
  · rw [if_neg hroom, if_neg hroom]

end

end FuseeOS
