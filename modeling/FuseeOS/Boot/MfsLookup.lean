import FuseeOS.Boot.Mfs
import FuseeOS.Tools.Directory

/-!
# Looking up a name in a directory of the volume

`mfs_lookup_at` of the bootloader has one page of the directory in its buffer, and a loop that ends only
where it finds the name.

* `lookupLoop_entries`       over entries, it finds the name or reads behind them;
* `mfsLookupAt_found`        so it returns an inode only from an entry within the first page;
* **`mfs_lookup_right`**     it is right if and only if the name's entry is there.
-/

namespace FuseeOS
open Bytes

/-- what a lookup has come to: it has returned, or it has read behind the directory, or it is still going on -/
inductive Lookup where
  | found (inode : Nat)
  | outside
  | running
deriving DecidableEq, Repr

/-- `memcmp(.., .., n) == 0`, where the first string is given and the other is in memory; `none` where a byte
from `stop` on is read -/
def memcmpUntil (mem : Nat → UInt8) (stop : Nat) : List UInt8 → Nat → Option Bool
  | [], _ => some true
  | b :: s, p =>
    if p < stop then if mem p = b then memcmpUntil mem stop s (p + 1) else some false
    else none

/-- the loop of `mfs_lookup_at`, with so many rounds; `stop` is not in the source: the bytes from there on are
not in the directory -/
def mfsLookupLoop (mem : Nat → UInt8) (stop : Nat) (name : List UInt8) (namelen dir : Nat) : Nat → Lookup
  | 0 => .running
  | rounds + 1 =>
    if dir + Mfs.dirEntry ≤ stop then
      let n := readLe mem (dir + 8) 4
      match (if n = namelen then memcmpUntil mem stop (name.take namelen) (dir + Mfs.dirEntry) else some false) with
      | none => .outside
      | some true => .found (readLe mem dir 8)
      | some false => mfsLookupLoop mem stop name namelen (dir + Mfs.dirEntry + n) rounds
    else .outside

/-- `name` is without its NUL -/
def mfsLookupAt (disk : (Nat → UInt8) → Nat → Nat → Nat → (Nat → UInt8)) (gPages : Nat) (mem : Nat → UInt8)
    (inode : Nat) (name : List UInt8) (rounds : Nat) : Lookup :=
  let mem := mfsReadPage disk mem gPages inode
  let size := readLe mem (gPages + Mfs.size) 8
  let mem := mfsReadPage disk mem gPages (readLe mem (gPages + Mfs.data 0) 8)
  let namelen := name.length % 2^32
  mfsLookupLoop mem (gPages + min size MFS_PAGE_SIZE) name namelen gPages rounds

/-- `gMetadata` is the address of the buffer of this name -/
def mfsLookupRoot (disk : (Nat → UInt8) → Nat → Nat → Nat → (Nat → UInt8)) (gMetadata gPages : Nat)
    (mem : Nat → UInt8) (name : List UInt8) (rounds : Nat) : Lookup :=
  mfsLookupAt disk gPages mem (readLe mem (gMetadata + Mfs.root) 8) name rounds

/-! ## entries in memory -/

/-- the inode of the entry with the name, when `room` bytes of the entries can be read -/
def entryWithin (s : List UInt8) : List (List UInt8 × Nat) → Nat → Option Nat
  | [], _ => none
  | e :: es, room =>
    if e.1 = s then if 12 + s.length ≤ room then some e.2 else none
    else entryWithin s es (room - (12 + e.1.length))

/-- no entry is found where an entry does not fit -/
theorem entryWithin_short (s : List UInt8) (es : List (List UInt8 × Nat)) {room : Nat} (h : room < 12) :
    entryWithin s es room = none := by
  induction es generalizing room with
  | nil => rfl
  | cons e es ih =>
    rw [entryWithin]
    by_cases he : e.1 = s
    · rw [if_pos he, if_neg (by omega)]
    · rw [if_neg he]
      exact ih (by omega)

section
variable {mem : Nat → UInt8} {stop : Nat}

/-- bytes that can all be read are compared -/
theorem memcmpUntil_eq {s t : List UInt8} {p : Nat} (hlen : s.length = t.length) (hmem : HoldsAt mem p t)
    (hfit : p + s.length ≤ stop) : memcmpUntil mem stop s p = some (decide (s = t)) := by
  induction s generalizing t p with
  | nil =>
    have ht : t = [] := List.eq_nil_of_length_eq_zero hlen.symm
    rw [memcmpUntil, ht, decide_eq_true rfl]
  | cons b s ih =>
    cases t with
    | nil => cases hlen
    | cons x t =>
      obtain ⟨hx, ht⟩ := holdsAt_cons.1 hmem
      rw [List.length_cons] at hfit
      rw [memcmpUntil, if_pos (by omega), hx]
      by_cases hxb : x = b
      · rw [if_pos hxb, ih (Nat.succ.inj hlen) ht (by omega), hxb]
        simp only [List.cons.injEq, true_and]
      · rw [if_neg hxb, decide_eq_false fun e => hxb (List.cons.inj e).1.symm]

/-- no room for the name of an entry as long as the one that is looked for -/
theorem entryWithin_cut {s : List UInt8} {e : List UInt8 × Nat} (es : List (List UInt8 × Nat)) {room : Nat}
    (hlen : e.1.length = s.length) (h : room < 12 + s.length) : entryWithin s (e :: es) room = none := by
  rw [entryWithin]
  by_cases he : e.1 = s
  · rw [if_pos he, if_neg (Nat.not_le.mpr h)]
  · rw [if_neg he, entryWithin_short _ _ (by omega)]

/-- bytes that cannot all be read are not found to be those of the name -/
theorem memcmpUntil_short {s : List UInt8} {p : Nat} (hp : p ≤ stop) (hshort : stop < p + s.length) :
    memcmpUntil mem stop s p = none ∨ memcmpUntil mem stop s p = some false := by
  induction s generalizing p with
  | nil => exact absurd hshort (Nat.not_lt.mpr hp)
  | cons b s ih =>
    rw [List.length_cons] at hshort
    rw [memcmpUntil]
    by_cases hlt : p < stop
    · rw [if_pos hlt]
      by_cases hb : mem p = b
      · rw [if_pos hb]
        exact ih hlt (by omega)
      · rw [if_neg hb]
        exact Or.inr rfl
    · rw [if_neg hlt]
      exact Or.inl rfl

/-- a loop behind all that can be read -/
theorem mfsLookupLoop_behind (name : List UInt8) (namelen rounds : Nat) {dir : Nat}
    (hdir : stop < dir + Mfs.dirEntry) : mfsLookupLoop mem stop name namelen dir (rounds + 1) = .outside := by
  rw [mfsLookupLoop, if_neg (Nat.not_le.mpr hdir)]

/-- what `entryWithin` gives as the outcome of the loop -/
def outcomeOf : Option Nat → Lookup
  | some inode => .found inode
  | none => .outside

/-- what can be read is in the list -/
def ReadsIn (mem : Nat → UInt8) (stop dir : Nat) (l : List UInt8) : Prop :=
  ∀ i, dir + i < stop → l[i]? = some (mem (dir + i))

theorem ReadsIn.holdsAt {dir : Nat} {l r : List UInt8} (h : ReadsIn mem stop dir (l ++ r))
    (hfit : dir + l.length ≤ stop) : HoldsAt mem dir l := fun i hi => by
  have hread := h i (by omega)
  rw [List.getElem?_append_left hi, List.getElem?_eq_getElem hi] at hread
  exact (Option.some.inj hread).symm

theorem ReadsIn.drop {dir : Nat} {l r : List UInt8} (h : ReadsIn mem stop dir (l ++ r)) :
    ReadsIn mem stop (dir + l.length) r := fun i hi => by
  have hread := h (l.length + i) (by omega)
  rw [List.getElem?_append_right (Nat.le_add_right ..), Nat.add_sub_cancel_left, ← Nat.add_assoc] at hread
  exact hread

/-- **over entries, the loop finds the name or reads behind them** -/
theorem lookupLoop_entries {es : List (List UInt8 × Nat)} (hes : ∀ e ∈ es, e.1.length < 2^32 ∧ e.2 < 2^64)
    {name : List UInt8} {namelen : Nat} (hname : (name.take namelen).length = namelen) {dir rounds : Nat}
    (hrounds : es.length < rounds) (hmem : ReadsIn mem stop dir (dirBytes es)) :
    mfsLookupLoop mem stop name namelen dir rounds =
      outcomeOf (entryWithin (name.take namelen) es (stop - dir)) := by
  have h12 : Mfs.dirEntry = 12 := rfl
  induction es generalizing dir rounds with
  | nil =>
    obtain ⟨rounds, rfl⟩ := Nat.exists_eq_succ_of_ne_zero (Nat.pos_iff_ne_zero.mp hrounds)
    have hend : stop ≤ dir := Nat.le_of_not_lt fun hlt => by
      have hread := hmem 0 hlt
      cases hread
    exact mfsLookupLoop_behind name namelen rounds (by omega)
  | cons e es ih =>
    obtain ⟨rounds, rfl⟩ := Nat.exists_eq_succ_of_ne_zero (Nat.pos_iff_ne_zero.mp (Nat.zero_lt_of_lt hrounds))
    rw [dirBytes_cons] at hmem
    have he12 := length_dirEntryBytes e.2 e.1.length
    by_cases hin : dir + Mfs.dirEntry ≤ stop
    · obtain ⟨hlen32, hinode⟩ := hes e List.mem_cons_self
      -- the fields of the entry can be read
      obtain ⟨h8, h4⟩ := holdsAt_append.1 (hmem.holdsAt (by omega))
      rw [length_le] at h4
      have hname' := hmem.drop
      rw [he12] at hname'
      have hrest := ih (fun x hx => hes x (List.mem_cons_of_mem _ hx)) (Nat.lt_of_succ_lt_succ hrounds) hname'.drop
      have hroom : stop - (dir + 12 + e.1.length) = stop - dir - (12 + e.1.length) := by omega
      rw [mfsLookupLoop, if_pos hin, readLe_of_holdsAt h4 hlen32, readLe_of_holdsAt h8 hinode, entryWithin]
      dsimp only
      by_cases hlen : e.1.length = namelen
      · rw [if_pos hlen]
        rcases Nat.lt_or_ge stop (dir + 12 + (name.take namelen).length) with hshort | hfit
        · -- the name of the entry is cut
          have hcut := entryWithin_cut es (hlen.trans hname.symm) (by omega : stop - dir < 12 + (name.take namelen).length)
          rw [entryWithin] at hcut
          rw [hcut]
          have hmem : memcmpUntil mem stop (name.take namelen) (dir + 12) = none ∨
              memcmpUntil mem stop (name.take namelen) (dir + 12) = some false :=
            memcmpUntil_short hin hshort
          rcases hmem with hm | hm
          · rw [hm]
            rfl
          · rw [hm]
            rw [entryWithin_short _ _ (by omega)] at hrest
            exact hrest
        · have heq : (name.take namelen).length = e.1.length := hname.trans hlen.symm
          rw [memcmpUntil_eq heq (hname'.holdsAt (by omega)) hfit]
          by_cases he : e.1 = name.take namelen
          · rw [if_pos he, if_pos (by omega), decide_eq_true he.symm]
            rfl
          · rw [if_neg he, decide_eq_false (Ne.symm he), ← hroom]
            exact hrest
      · have hne : e.1 ≠ name.take namelen := fun heq => hlen (by rw [heq, hname])
        rw [if_neg hlen, if_neg hne, ← hroom]
        exact hrest
    · rw [mfsLookupLoop_behind name namelen rounds (Nat.not_le.mp hin), entryWithin_short _ _ (by omega)]
      rfl

/-- more rounds do not change what has been come to -/
theorem mfsLookupLoop_more (name : List UInt8) (namelen dir more : Nat) {rounds : Nat}
    (h : mfsLookupLoop mem stop name namelen dir rounds ≠ .running) :
    mfsLookupLoop mem stop name namelen dir (rounds + more) = mfsLookupLoop mem stop name namelen dir rounds := by
  induction rounds generalizing dir with
  | zero => exact absurd rfl h
  | succ rounds ih =>
    have hadd : rounds + 1 + more = rounds + more + 1 := by omega
    rw [hadd]
    rw [mfsLookupLoop] at h ⊢
    rw [mfsLookupLoop]
    by_cases hin : dir + Mfs.dirEntry ≤ stop
    · rw [if_pos hin] at h ⊢
      rw [if_pos hin]
      dsimp only at h ⊢
      revert h
      cases (if readLe mem (dir + 8) 4 = namelen then
        memcmpUntil mem stop (name.take namelen) (dir + Mfs.dirEntry) else some false) with
      | none => exact fun _ => rfl
      | some r =>
        cases r with
        | true => exact fun _ => rfl
        | false => exact fun h => ih _ h
    · rw [if_neg hin, if_neg hin]

end

/-! ## directories -/

/-- the first entry with the name ends within the first page of the directory -/
def InFirstPage (es : List (List UInt8 × Nat)) (name : List UInt8) : Prop :=
  ∃ l e r, es = l ++ e :: r ∧ e.1 = name ∧ (∀ x ∈ l, x.1 ≠ name) ∧
    (dirBytes l).length + 12 + name.length ≤ 4096

section
variable {es : List (List UInt8 × Nat)} {s name : List UInt8}

theorem entryWithin_some {room i : Nat} (h : entryWithin s es room = some i) :
    ∃ l e r, es = l ++ e :: r ∧ e.1 = s ∧ (∀ x ∈ l, x.1 ≠ s) ∧ (dirBytes l).length + 12 + s.length ≤ room ∧
      i = e.2 := by
  induction es generalizing room with
  | nil => cases h
  | cons e es ih =>
    rw [entryWithin] at h
    by_cases he : e.1 = s
    · rw [if_pos he] at h
      split_ifs at h with hroom
      cases h
      have hnil : (dirBytes []).length = 0 := rfl
      exact ⟨[], e, es, rfl, he, fun x hx => absurd hx List.not_mem_nil, by omega, rfl⟩
    · rw [if_neg he] at h
      obtain ⟨l, x, r, rfl, hx, hl, hroom, hi⟩ := ih h
      refine ⟨e :: l, x, r, rfl, hx, fun y hy => ?_, ?_, hi⟩
      · rcases List.mem_cons.mp hy with rfl | hy
        · exact he
        · exact hl y hy
      · rw [entry_length]
        omega

theorem entryWithin_split {l r : List (List UInt8 × Nat)} {e : List UInt8 × Nat} (he : e.1 = s)
    (hl : ∀ x ∈ l, x.1 ≠ s) {room : Nat} (hroom : (dirBytes l).length + 12 + s.length ≤ room) :
    entryWithin s (l ++ e :: r) room = some e.2 := by
  induction l generalizing room with
  | nil =>
    have hnil : (dirBytes []).length = 0 := rfl
    rw [List.nil_append, entryWithin, if_pos he, if_pos (by omega)]
  | cons x l ih =>
    rw [entry_length] at hroom
    rw [List.cons_append, entryWithin, if_neg (hl x List.mem_cons_self)]
    exact ih (fun y hy => hl y (List.mem_cons_of_mem _ hy)) (by omega)

theorem rightInode_split {l r : List (List UInt8 × Nat)} {e : List UInt8 × Nat} (he : e.1 = name)
    (hl : ∀ x ∈ l, x.1 ≠ name) : rightInode (l ++ e :: r) name = e.2 := by
  have hnone : (l.find? fun x => x.1 = name) = none := by
    rw [List.find?_eq_none]
    exact fun x hx heq => hl x hx (of_decide_eq_true heq)
  unfold rightInode
  rw [List.find?_append, hnone, Option.none_or, List.find?_cons, decide_eq_true he]
  rfl

theorem name_length_le {e : List UInt8 × Nat} (he : e ∈ es) : e.1.length ≤ (dirBytes es).length := by
  obtain ⟨l, r, rfl⟩ := List.append_of_mem he
  rw [dirBytes_append, List.length_append, entry_length]
  omega

variable {v : MfsVolume} {c : Contents} {d gPages : Nat}
  {disk : (Nat → UInt8) → Nat → Nat → Nat → (Nat → UInt8)}

/-- the first page of a directory in the buffer -/
theorem firstPage_reads {a : FileStore} {f : Nat} {t : StoredFile} (h : Refines v a) (hf : a.file f = some t)
    {mem : Nat → UInt8} (hbuf : HoldsAt mem gPages (v.pageBytes (t.data.getD 0 0))) :
    ReadsIn mem (gPages + min t.content.length 4096) gPages t.content := fun i hi => by
  have hlt : i < t.content.length := by omega
  have hdiv : i / 4096 = 0 := by omega
  have hmod : i % 4096 = i := by omega
  have hbyte := (h.file f t hf).bytes i hlt
  rw [hdiv, hmod] at hbyte
  have hmem := hbuf i (by rw [length_pageBytes]; omega)
  unfold MfsVolume.pageBytes at hmem
  rw [getElem_fetch, Nat.zero_add, hbyte] at hmem
  rw [hmem, List.getElem?_eq_getElem hlt]

/-- the first data page of a file is inside the volume, also when there is none -/
theorem Refines.firstPage_inside {a : FileStore} {f : Nat} {t : StoredFile} (h : Refines v a)
    (hf : a.file f = some t) : 64 + t.data.getD 0 0 < v.pageCount := by
  by_cases h0 : 0 < t.data.length
  · exact h.inside ((h.shape f t hf).data_owned h0)
  · have hroom := h.room
    have hnil : t.data = [] := List.eq_nil_of_length_eq_zero (by omega)
    rw [hnil, List.getD_nil]
    omega

/-- with a round for every entry, the lookup has a result -/
theorem Stores.lookup_rounds {a : FileStore} (hst : Stores v c a) (hd : c d = some (dirBytes es))
    (hinodes : ∀ e ∈ es, e.2 < 2^64) (hdisk : DiskReads disk v) (mem : Nat → UInt8) (name : List UInt8)
    {rounds : Nat} (hrounds : es.length < rounds) : mfsLookupAt disk gPages mem d name rounds =
      outcomeOf (entryWithin (name.take (name.length % 2^32)) es (min (dirBytes es).length 4096)) := by
  obtain ⟨t, ht, hc⟩ := hst.file hd
  have hr := hst.refines
  have hs := hr.shape d t ht
  have hpagesize : MFS_PAGE_SIZE = 4096 := rfl
  have hsmall : v.pageCount < 2^61 := by
    have hsize := hst.size
    rw [MfsVolume.pageCount, hpagesize]
    omega
  have hpage := readPage_spec hdisk mem gPages (hr.inside hs.ownsInode) hsmall
  have hsize : readLe (mfsReadPage disk mem gPages d) (gPages + Mfs.size) 8 = (dirBytes es).length :=
    (readLe_page hpage.copied (by decide)).trans ((hr.file d t ht).size.trans (congrArg List.length hc))
  have hdata : readLe (mfsReadPage disk mem gPages d) (gPages + Mfs.data 0) 8 = t.data.getD 0 0 :=
    (readLe_page hpage.copied (by decide)).trans ((hr.file d t ht).data 0 (by decide))
  have hbuf := readPage_spec hdisk (mfsReadPage disk mem gPages d) gPages (hr.firstPage_inside ht) hsmall
  have hreads := firstPage_reads hr ht hbuf.copied
  rw [hc] at hreads
  have hlen : ∀ e ∈ es, e.1.length < 2^32 ∧ e.2 < 2^64 := fun e he => by
    have hle := name_length_le he
    have hpages := hs.pages
    have hfew := hs.few
    rw [hc] at hpages
    exact ⟨by omega, hinodes e he⟩
  have htake : (name.take (name.length % 2^32)).length = name.length % 2^32 := by
    rw [List.length_take, Nat.min_eq_left (Nat.mod_le ..)]
  have hloop := lookupLoop_entries hlen htake hrounds hreads
  rw [Nat.add_sub_cancel_left] at hloop
  unfold mfsLookupAt
  dsimp only
  rw [hsize, hdata, hpagesize]
  exact hloop

/-- **what the lookup finds in the first page** of a directory of the store -/
theorem Stores.lookup {a : FileStore} (hst : Stores v c a) (hd : c d = some (dirBytes es))
    (hinodes : ∀ e ∈ es, e.2 < 2^64) (hdisk : DiskReads disk v) (mem : Nat → UInt8) (name : List UInt8)
    (inode : Nat) : (∃ rounds, mfsLookupAt disk gPages mem d name rounds = .found inode) ↔
      entryWithin (name.take (name.length % 2^32)) es (min (dirBytes es).length 4096) = some inode := by
  have hall : ∀ rounds, es.length < rounds → mfsLookupAt disk gPages mem d name rounds =
      outcomeOf (entryWithin (name.take (name.length % 2^32)) es (min (dirBytes es).length 4096)) :=
    fun _ hrounds => hst.lookup_rounds hd hinodes hdisk mem name hrounds
  constructor
  · intro h
    obtain ⟨rounds, hfound⟩ := h
    have hmore := mfsLookupLoop_more name (name.length % 2^32) gPages (es.length + 1) (fun hrun => by
      have hrun' : mfsLookupAt disk gPages mem d name rounds = .running := hrun
      rw [hfound] at hrun'
      cases hrun')
    have h1 := (hall (rounds + (es.length + 1)) (by omega)).symm.trans (hmore.trans hfound)
    cases he : entryWithin (name.take (name.length % 2^32)) es (min (dirBytes es).length 4096) with
    | none =>
      rw [he] at h1
      cases h1
    | some i =>
      rw [he] at h1
      cases h1
      rfl
  · intro h
    refine ⟨es.length + 1, ?_⟩
    rw [hall _ (Nat.lt_succ_self _), h]
    rfl

theorem mfsLookupAt_found (hv : Built v c) (hd : c d = some (dirBytes es)) (hinodes : ∀ e ∈ es, e.2 < 2^64)
    (hdisk : DiskReads disk v) (mem : Nat → UInt8) (name : List UInt8) (inode : Nat) :
    (∃ rounds, mfsLookupAt disk gPages mem d name rounds = .found inode) ↔
      entryWithin (name.take (name.length % 2^32)) es (min (dirBytes es).length 4096) = some inode := by
  obtain ⟨a, hst⟩ := hv.stores
  exact hst.lookup hd hinodes hdisk mem name inode

/-- **When the lookup of the bootloader is right**: it returns, without having read anything that is not in the
directory, the inode of the entry with the name, or 0 where there is none. -/
theorem mfs_lookup_right (hv : Built v c) (hd : c d = some (dirBytes es))
    (hinodes : ∀ e ∈ es, 0 < e.2 ∧ e.2 < 2^64) (hdisk : DiskReads disk v) (mem : Nat → UInt8) (name : List UInt8) :
    (∃ rounds, mfsLookupAt disk gPages mem d name rounds = .found (rightInode es name)) ↔
      InFirstPage es name := by
  rw [mfsLookupAt_found hv hd (fun e he => (hinodes e he).2) hdisk]
  obtain ⟨a, hst⟩ := hv.stores
  obtain ⟨t, ht, hc⟩ := hst.file hd
  have hlen : ∀ e ∈ es, e.1.length < 2^32 := fun e he => by
    have hle := name_length_le he
    have hpages := (hst.refines.shape d t ht).pages
    have hfew := (hst.refines.shape d t ht).few
    rw [hc] at hpages
    omega
  constructor
  · intro h
    obtain ⟨l, e, r, rfl, he, hl, hroom, hi⟩ := entryWithin_some h
    by_cases hshort : name.length < 2^32
    · rw [Nat.mod_eq_of_lt hshort, List.take_length] at he hl hroom
      exact ⟨l, e, r, rfl, he, hl, Nat.le_trans hroom (Nat.min_le_right ..)⟩
    · have habsent : ∀ x ∈ l ++ e :: r, x.1 ≠ name := fun x hx heq => by
        have hx' := hlen x hx
        rw [heq] at hx'
        exact hshort hx'
      rw [rightInode_absent habsent] at hi
      have hpos := (hinodes e (List.mem_append_right l List.mem_cons_self)).1
      omega
  · intro h
    obtain ⟨l, e, r, rfl, he, hl, hroom⟩ := h
    have hshort : name.length < 2^32 := he ▸ hlen e (List.mem_append_right l List.mem_cons_self)
    rw [rightInode_split he hl, Nat.mod_eq_of_lt hshort, List.take_length]
    refine entryWithin_split he hl (Nat.le_min.mpr ⟨?_, hroom⟩)
    rw [dirBytes_append, List.length_append, entry_length, he]
    omega

end

/-- two entries, the second of which is looked up -/
theorem mfs_lookup_second : ∃ v d rounds,
    mfsLookupAt (volumeDisk v) 0x8000 (fun _ => 0) d [98] rounds = .found 6 := by
  obtain ⟨v, c, d, hv, hd⟩ := exists_directory [([97], 5), ([98], 6)] (by decide)
  obtain ⟨rounds, h⟩ := (mfs_lookup_right hv hd (by decide) (diskReads_volume v) (fun _ => 0) [98]).mpr
    ⟨[([97], 5)], ([98], 6), [], rfl, rfl, by decide, by decide⟩
  exact ⟨v, d, rounds, h⟩

/-- a directory with one entry, and a name that is not there -/
theorem mfs_lookup_wrong : ∃ v c d, Built v c ∧ c d = some (dirBytes [([97], 5)]) ∧
    ¬ ∃ rounds, mfsLookupAt (volumeDisk v) 0x8000 (fun _ => 0) d [98] rounds =
      .found (rightInode [([97], 5)] [98]) := by
  obtain ⟨v, c, d, hv, hd⟩ := exists_directory [([97], 5)] (by decide)
  refine ⟨v, c, d, hv, hd, fun h => ?_⟩
  rw [mfsLookupAt_found hv hd (by decide) (diskReads_volume v)] at h
  obtain ⟨l, e, r, hes, he, -⟩ := entryWithin_some h
  have hmem : e ∈ [(([97] : List UInt8), 5)] := hes ▸ List.mem_append_right l List.mem_cons_self
  rw [List.mem_singleton.mp hmem] at he
  exact absurd he (by decide)

end FuseeOS
