import FuseeOS.Kernel.Paging

/-!
# Which entries `page_iter` gives out

The lengths of the iterator are computed from the number of pages alone; the tables that a range
really takes up depend on where it starts as well.

* `forPages_span`   a range whose page tables, counted that way, lie in one page directory: the
                    visits are one entry of each upper table and then the page tables in turn;
* `forPages_over`   any other range that is not empty leads behind the end of the page directory.
-/

namespace FuseeOS

/-- the table that an entry points to, as the kernel computes it -/
def dirAt (m : Machine) (dir : Nat) (i : Fin 512) : Nat := direct (m.mem dir i &&& MMASK_PHYS).toNat

/-- page tables that are looked at for `n` pages, wherever they start -/
def tableCount (n : Nat) : Nat := (n + 511) / 512

/-- the first `n` pages from page `s` on need no more of a page directory than is there -/
def InSpan (s n : Nat) : Prop := s / 512 % 512 + tableCount n ≤ 512

instance (s n : Nat) : Decidable (InSpan s n) := inferInstanceAs (Decidable (_ ≤ _))

/-- the visits of lowest tables: `k` entries of the page directory `dir` are left, from entry `i` on;
`rem` pages are left, from entry `off` of the first table on -/
def leafTables (body : Machine → Visit → Option Machine) (dir : Nat) :
    Nat → Nat → Nat → Nat → Machine → Option Machine
  | 0, _, _, _, m => some m
  | k + 1, i, off, rem, m => do
    let table ← iterComputeDir m dir 0 i
    let len := min rem (512 - off)
    let m ← body m ⟨0, table, off, len⟩
    leafTables body dir k (i + 1) 0 (rem - len) m

/-- the visits for `n` pages from page `s` on -/
def spanWalk (body : Machine → Visit → Option Machine) (s n : Nat) (m : Machine) : Option Machine := do
  let d3 := direct m.cr3
  let m ← body m ⟨3, d3, pageIndex s 3, 1⟩
  let d2 := dirAt m d3 (pageIndex s 3)
  let m ← body m ⟨2, d2, pageIndex s 2, 1⟩
  let d1 := dirAt m d2 (pageIndex s 2)
  let m ← body m ⟨1, d1, pageIndex s 1, tableCount n⟩
  leafTables body d1 (tableCount n) (pageIndex s 1) (pageIndex s 0) n m

/-- the visits of the upper tables, and the page directory -/
def upperWalk (body : Machine → Visit → Option Machine) (s n : Nat) (m : Machine) :
    Option (Machine × Nat) := do
  let d3 := direct m.cr3
  let m ← body m ⟨3, d3, pageIndex s 3, 1⟩
  let d2 := dirAt m d3 (pageIndex s 3)
  let m ← body m ⟨2, d2, pageIndex s 2, 1⟩
  let d1 := dirAt m d2 (pageIndex s 2)
  let m ← body m ⟨1, d1, pageIndex s 1, tableCount n⟩
  return (m, d1)

variable {body : Machine → Visit → Option Machine} {m : Machine}

theorem spanWalk_eq (s n : Nat) : spanWalk body s n m = (upperWalk body s n m).bind fun x =>
    leafTables body x.2 (tableCount n) (pageIndex s 1) (pageIndex s 0) n x.1 := by
  unfold spanWalk upperWalk
  simp only [Option.bind_eq_bind, Option.bind_assoc]
  rfl

theorem read_of_lt (m : Machine) (dir : Nat) {i : Nat} (h : i < 512) :
    m.read dir i = some (m.mem dir ⟨i, h⟩) := dif_pos h

theorem read_index (m : Machine) (dir : Nat) (i : Fin 512) : m.read dir i = some (m.mem dir i) :=
  dif_pos i.isLt

theorem write_index (m : Machine) (dir : Nat) (i : Fin 512) (w : BitVec 64) :
    m.write dir i w = some (m.setWord dir i w) := dif_pos i.isLt

theorem read_of_ge (m : Machine) (dir : Nat) {i : Nat} (h : ¬ i < 512) : m.read dir i = none :=
  dif_neg h

theorem computeLen_of_lt {len off : Nat} (h : len < 2^30) (ho : off < 512) :
    iterComputeLen len off = some ((min len (512 - off) : Nat) : Int) := by
  unfold iterComputeLen CInt.intAdd?
  rw [if_pos (by omega)]
  show some ((if (len : Int) + off > 512 then (512 : Int) else len + off) - off) = _
  split
  · exact congrArg some (by omega)
  · exact congrArg some (by omega)

/-! ## a range within one page directory -/

/-- the call that gives out the next lowest table -/
theorem next_leaf (it : PageIterator) (hstate : it.state = 4)
    (hlt : ((it.index 1 + 1 : Nat) : Int) < it.len 1) (rem : Nat) (hrem : rem < 2^30)
    (hlen : it.len 0 - it.lenCurrent 0 = rem) :
    pageIterNext m it = (iterComputeDir m (it.dir 1) (it.index 1 + 1) (it.offset 1)).map fun table =>
      (some ⟨0, table, 0, (min rem 512 : Nat)⟩, { iterDone 0 1 it with
        dir := Function.update it.dir 0 table
        lenCurrent := Function.update it.lenCurrent 0 (min rem 512 : Nat)
        state := 4 }) := by
  have h1 : (iterDone 0 1 it).len 1 = it.len 1 := rfl
  have h2 : (iterDone 0 1 it).index 1 = it.index 1 + 1 := rfl
  have h3 : (iterDone 0 1 it).offset 1 = it.offset 1 := rfl
  have h4 : (iterDone 0 1 it).offset 0 = 0 := rfl
  have h5 : (iterDone 0 1 it).len 0 = (rem : Int) := hlen
  have h6 : (iterDone 0 1 it).dir = it.dir := rfl
  unfold pageIterNext
  rw [hstate]
  simp only
  unfold iterLoop1
  rw [h1, h2, if_pos hlt]
  unfold iterVisit
  rw [h2, h3, h4, h5, h6, computeLen_of_lt hrem (by omega)]
  cases iterComputeDir m (it.dir 1) (it.index 1 + 1) (it.offset 1) with
  | none => rfl
  | some table => rfl

/-- the call after the last table -/
theorem next_end (it : PageIterator) (hstate : it.state = 4)
    (h1 : it.len 1 = (it.index 1 + 1 : Nat)) (h2 : it.len 2 = (it.index 2 + 1 : Nat))
    (h3 : it.len 3 = (it.index 3 + 1 : Nat)) :
    pageIterNext m it = some (none, iterDone 2 3 (iterDone 1 2 (iterDone 0 1 it))) := by
  have hd1 : iterLoop1 m (iterDone 0 1 it) = iterLoop2 m (iterDone 1 2 (iterDone 0 1 it)) := by
    refine if_neg ?_
    show ¬ ((it.index 1 + 1 : Nat) : Int) < it.len 1
    rw [h1]
    exact Int.lt_irrefl _
  have hd2 : iterLoop2 m (iterDone 1 2 (iterDone 0 1 it)) =
      iterLoop3 m (iterDone 2 3 (iterDone 1 2 (iterDone 0 1 it))) := by
    refine if_neg ?_
    show ¬ ((it.index 2 + 1 : Nat) : Int) < it.len 2
    rw [h2]
    exact Int.lt_irrefl _
  have hd3 : iterLoop3 m (iterDone 2 3 (iterDone 1 2 (iterDone 0 1 it))) =
      some (none, iterDone 2 3 (iterDone 1 2 (iterDone 0 1 it))) := by
    refine if_neg ?_
    show ¬ ((it.index 3 + 1 : Nat) : Int) < it.len 3
    rw [h3]
    exact Int.lt_irrefl _
  unfold pageIterNext
  rw [hstate]
  exact hd1.trans (hd2.trans hd3)

/-- a turn of the driver that gives out `v` -/
theorem walkPages_visit {it it' : PageIterator} {v : Visit} (fuel : Nat)
    (h : pageIterNext m it = some (some v, it')) :
    walkPages body (fuel + 1) m it = (body m v).bind fun m => walkPages body fuel m it' := by
  rw [walkPages, h]
  rfl

/-- the iterator at the start of a loop over `index[up]`, as `page_iter_next` enters it -/
def loopStart (up : Fin 4) (it : PageIterator) : PageIterator :=
  { it with index := Function.update it.index up 0 }

theorem next_first {it : PageIterator} (h : it.state = 0) :
    pageIterNext m it = some (some ⟨3, it.dir 3, it.offset 3, it.len 3⟩, { it with state := 1 }) := by
  unfold pageIterNext
  rw [h]
  rfl

theorem next_top {it : PageIterator} (h : it.state = 1) (hlen : 0 < it.len 3) :
    pageIterNext m it = iterVisit m 2 3 (loopStart 3 it) := by
  unfold pageIterNext
  rw [h]
  exact if_pos hlen

theorem next_mid {it : PageIterator} (h : it.state = 2) (hlen : 0 < it.len 2) :
    pageIterNext m it = iterVisit m 1 2 (loopStart 2 it) := by
  unfold pageIterNext
  rw [h]
  exact if_pos hlen

theorem next_low {it : PageIterator} (h : it.state = 3) (hlen : 0 < it.len 1) :
    pageIterNext m it = iterVisit m 0 1 (loopStart 1 it) := by
  unfold pageIterNext
  rw [h]
  exact if_pos hlen

/-- the first table of a loop -/
theorem iterVisit_start (d up : Fin 4) (it : PageIterator) {l : Nat} (i : Fin 512)
    (hi : it.offset up = i) (hl : it.len d = l) (hlt : l < 2^30) (hd : it.offset d < 512) :
    ∃ it', iterVisit m d up (loopStart up it) = some (some ⟨d, dirAt m (it.dir up) i, it.offset d,
        (min l (512 - it.offset d) : Nat)⟩, it') ∧
      it'.dir = Function.update it.dir d (dirAt m (it.dir up) i) ∧ it'.offset = it.offset ∧
      it'.len = it.len ∧ it'.index = Function.update it.index up 0 ∧
      it'.lenCurrent = Function.update it.lenCurrent d (min l (512 - it.offset d) : Nat) ∧
      it'.state = 4 - d := by
  have hoff : (loopStart up it).offset up + (loopStart up it).index up = i := by
    show it.offset up + Function.update it.index up 0 up = i
    rw [Function.update_self, hi, Nat.add_zero]
  have h1 : (loopStart up it).len d = l := hl
  have h2 : (loopStart up it).offset d = it.offset d := rfl
  unfold iterVisit iterComputeDir
  rw [hoff, read_index, h1, h2, computeLen_of_lt hlt hd]
  exact ⟨_, rfl, rfl, rfl, rfl, rfl, rfl, rfl⟩

/-- the iterator of a range of `n` pages from page `s` on -/
structure Created (it : PageIterator) (cr3 s n : Nat) : Prop where
  dir : it.dir 3 = direct cr3
  offset : ∀ i, it.offset i = (pageIndex s i).val
  pages : it.len 0 = CInt.toInt n
  tables : it.len 1 = tableCount n
  dirs : it.len 2 = ((n + 262143) / 262144 : Nat)
  tops : it.len 3 = ((n + 134217727) / 134217728 : Nat)
  state : it.state = 0

theorem created (cr3 addr size s n : Nat) (hs : addr / 4096 = s) (hsize : size + 4095 < 2^64)
    (hn : (size + 4095) / 4096 = n) (hlt : n < 2^39) : Created (pageIterCreate cr3 addr size) cr3 s n := by
  have hv : ((size + 4095) % 2^64) >>> 12 = n := by
    rw [Nat.mod_eq_of_lt hsize, Nat.shiftRight_eq_div_pow]
    exact hn
  have hlen (i : Fin 4) (k : Nat) (hk : 2^(9 * i.val) = k) (hk1 : 512 ≤ k) (hle : k ≤ 2^27) :
      (pageIterCreate cr3 addr size).len i = ((n + (k - 1)) / k : Nat) := by
    unfold pageIterCreate
    dsimp only
    rw [hv, Nat.shiftRight_eq_div_pow, hk, Nat.add_sub_assoc (show 1 ≤ k by omega)]
    refine CInt.toInt_of_lt ?_
    have hd := Nat.div_le_div_left (a := n + (k - 1)) hk1 (by decide)
    omega
  refine ⟨rfl, fun i => ?_, ?_, hlen 1 512 rfl (by decide) (by decide),
    hlen 2 262144 rfl (by decide) (by decide), hlen 3 134217728 rfl (by decide) (by decide), rfl⟩
  · show (addr >>> 12 >>> (9 * i.val)) % 512 = s / 512^i.val % 512
    rw [Nat.shiftRight_eq_div_pow, Nat.shiftRight_eq_div_pow, Nat.pow_mul]
    exact congrArg (· / 512^i.val % 512) hs
  · unfold pageIterCreate
    dsimp only
    rw [hv]
    rfl

/-! ## the calls for such a range -/

/-- The first table of level `d`, which is `dir`, is the last that was given out, in state `st`. -/
structure Stage (s n st : Nat) (d : Fin 4) (dir : Nat) (it : PageIterator) : Prop where
  state : it.state = st
  dir : it.dir d = dir
  offset : ∀ i : Fin 4, it.offset i = (pageIndex s i).val
  pages : it.len 0 = n
  tables : it.len 1 = tableCount n
  dirs : it.len 2 = (1 : Nat)
  tops : it.len 3 = (1 : Nat)
  index : ∀ i, d < i → it.index i = 0

/-- `k` more page tables than the first were given out, from the page directory `dir`; `rem` pages are
left. -/
structure Leaves (s n dir k rem : Nat) (it : PageIterator) : Prop where
  state : it.state = 4
  dir : it.dir 1 = dir
  offset : it.offset 1 = (pageIndex s 1).val
  tables : it.len 1 = tableCount n
  dirs : it.len 2 = (1 : Nat)
  tops : it.len 3 = (1 : Nat)
  low : it.index 1 = k
  mid : it.index 2 = 0
  top : it.index 3 = 0
  left : it.len 0 - it.lenCurrent 0 = rem
  bound : rem < 2^30

section stage
variable {s n st dir : Nat} {d : Fin 4} {it : PageIterator}

theorem Stage.first (h : Stage s n 0 3 dir it) :
    ∃ it', pageIterNext m it = some (some ⟨3, dir, pageIndex s 3, 1⟩, it') ∧ Stage s n 1 3 dir it' := by
  refine ⟨{ it with state := 1 }, ?_, ⟨rfl, h.dir, h.offset, h.pages, h.tables, h.dirs, h.tops, h.index⟩⟩
  rw [next_first h.state, h.dir, h.offset, h.tops]
  rfl

/-- a call that goes down one level -/
theorem Stage.visit {up : Fin 4} {l c : Nat} (h : Stage s n st up dir it) (hd : d < up)
    (hup : ∀ i, d < i → i = up ∨ up < i) (hl : it.len d = l) (hlt : l < 2^30)
    (hc : min l (512 - (pageIndex s d).val) = c) :
    ∃ it', iterVisit m d up (loopStart up it) =
        some (some ⟨d, dirAt m dir (pageIndex s up), pageIndex s d, c⟩, it') ∧
      Stage s n (4 - d) d (dirAt m dir (pageIndex s up)) it' ∧ it'.dir up = dir ∧
      it'.lenCurrent d = c := by
  obtain ⟨it', e, hdir, hoff, hlen, hidx, hcur, hst⟩ := iterVisit_start (m := m) d up it (pageIndex s up)
    (h.offset up) hl hlt (by rw [h.offset]; exact (pageIndex s d).isLt)
  rw [h.offset d, h.dir, hc] at e
  rw [h.dir] at hdir
  refine ⟨it', e, ⟨hst, ?_, fun i => ?_, ?_, ?_, ?_, ?_, fun i hi => ?_⟩, ?_, ?_⟩
  · rw [hdir, Function.update_self]
  · rw [hoff, h.offset]
  · rw [hlen, h.pages]
  · rw [hlen, h.tables]
  · rw [hlen, h.dirs]
  · rw [hlen, h.tops]
  · rw [hidx]
    rcases hup i hi with rfl | hi
    · exact Function.update_self ..
    · rw [Function.update_of_ne (Fin.ne_of_lt hi).symm]
      exact h.index i hi
  · rw [hdir, Function.update_of_ne (Fin.ne_of_lt hd).symm, h.dir]
  · rw [hcur, Function.update_self, h.offset, hc]

theorem Stage.top (h : Stage s n 1 3 dir it) : ∃ it', pageIterNext m it =
    some (some ⟨2, dirAt m dir (pageIndex s 3), pageIndex s 2, 1⟩, it') ∧
      Stage s n 2 2 (dirAt m dir (pageIndex s 3)) it' := by
  have hlt := (pageIndex s 2).isLt
  obtain ⟨it', e, h', -, -⟩ := h.visit (m := m) (d := 2) (c := 1) (by decide) (by decide) h.dirs
    (by decide) (show min 1 (512 - (pageIndex s 2).val) = 1 by omega)
  exact ⟨it', (next_top h.state (by rw [h.tops]; decide)).trans e, h'⟩

theorem Stage.mid (h : Stage s n 2 2 dir it) (hspan : InSpan s n) : ∃ it', pageIterNext m it =
    some (some ⟨1, dirAt m dir (pageIndex s 2), pageIndex s 1, tableCount n⟩, it') ∧
      Stage s n 3 1 (dirAt m dir (pageIndex s 2)) it' := by
  unfold InSpan at hspan
  obtain ⟨it', e, h', -, -⟩ := h.visit (m := m) (d := 1) (c := tableCount n) (by decide) (by decide)
    h.tables (by omega) (show min (tableCount n) (512 - s / 512^1 % 512) = _ by omega)
  exact ⟨it', (next_mid h.state (by rw [h.dirs]; decide)).trans e, h'⟩

theorem Stage.low (h : Stage s n 3 1 dir it) (hspan : InSpan s n) (hpos : 0 < n) : ∃ it',
    pageIterNext m it = some (some ⟨0, dirAt m dir (pageIndex s 1), pageIndex s 0,
      (min n (512 - pageIndex s 0) : Nat)⟩, it') ∧
      Leaves s n dir 0 (n - min n (512 - pageIndex s 0)) it' := by
  unfold InSpan tableCount at hspan
  obtain ⟨it', e, h', hdir, hcur⟩ := h.visit (m := m) (d := 0) (c := min n (512 - pageIndex s 0))
    (by decide) (by decide) h.pages (by omega) rfl
  refine ⟨it', (next_low h.state ?_).trans e, ⟨h'.state, hdir, h'.offset 1, h'.tables, h'.dirs, h'.tops,
    h'.index 1 (by decide), h'.index 2 (by decide), h'.index 3 (by decide), ?_, by omega⟩⟩
  · rw [h.tables]
    unfold tableCount
    omega
  · rw [h'.pages]
    exact (congrArg (fun c => (n : Int) - c) hcur).trans (by omega)

/-- the next page table -/
theorem Leaves.next {k rem : Nat} (h : Leaves s n dir k rem it) (hlt : k + 1 < tableCount n) (i : Fin 512)
    (hi : (pageIndex s 1).val + (k + 1) = i) : ∃ it', pageIterNext m it =
      some (some ⟨0, dirAt m dir i, 0, (min rem 512 : Nat)⟩, it') ∧
        Leaves s n dir (k + 1) (rem - min rem 512) it' := by
  have hread : iterComputeDir m (it.dir 1) (it.index 1 + 1) (it.offset 1) = some (dirAt m dir i) := by
    unfold iterComputeDir
    rw [h.dir, h.low, h.offset, hi, read_index]
    rfl
  have e := next_leaf (m := m) it h.state (by rw [h.low, h.tables]; omega) rem h.bound h.left
  rw [hread, Option.map_some] at e
  have hlow := h.low
  have hrem := h.bound
  refine ⟨_, e, ⟨rfl, ?_, h.offset, h.tables, h.dirs, h.tops, ?_, h.mid, h.top, ?_, by omega⟩⟩
  · show Function.update it.dir 0 (dirAt m dir i) 1 = dir
    rw [Function.update_of_ne (by decide), h.dir]
  · show it.index 1 + 1 = k + 1
    omega
  · show it.len 0 - it.lenCurrent 0 - ((min rem 512 : Nat) : Int) = _
    rw [h.left]
    omega

/-- the last page table was given out -/
theorem Leaves.done {k rem : Nat} (h : Leaves s n dir k rem it) (hk : k + 1 = tableCount n) :
    ∃ it', pageIterNext m it = some (none, it') :=
  ⟨_, next_end it h.state (by rw [h.low, h.tables, hk]) (by rw [h.mid, h.dirs]) (by rw [h.top, h.tops])⟩

/-- the visits of the page tables that follow, by induction on their number -/
theorem Leaves.walk {k rem : Nat} (h : Leaves s n dir k rem it) (hspan : InSpan s n) (j : Nat)
    (hj : k + 1 + j = tableCount n) (m : Machine) (fuel : Nat) (hfuel : j < fuel) :
    walkPages body fuel m it = leafTables body dir j ((pageIndex s 1).val + (k + 1)) 0 rem m := by
  obtain ⟨fuel, rfl⟩ : ∃ f, fuel = f + 1 := ⟨fuel - 1, by omega⟩
  induction j generalizing k rem it m fuel with
  | zero =>
    obtain ⟨it', e⟩ := h.done (m := m) hj
    rw [walkPages, e]
    rfl
  | succ j ih =>
    have hi : (pageIndex s 1).val + (k + 1) < 512 := by
      unfold InSpan at hspan
      show s / 512^1 % 512 + (k + 1) < 512
      omega
    obtain ⟨it', e, h'⟩ := h.next (m := m) (by omega) ⟨_, hi⟩ rfl
    have hread : iterComputeDir m dir 0 ((pageIndex s 1).val + (k + 1)) = some (dirAt m dir ⟨_, hi⟩) := by
      unfold iterComputeDir
      rw [Nat.add_zero, read_of_lt m dir hi]
      rfl
    rw [walkPages_visit _ e, leafTables, hread]
    refine congrArg _ (funext fun m' => ?_)
    obtain ⟨fuel, rfl⟩ : ∃ f, fuel = f + 1 := ⟨fuel - 1, by omega⟩
    exact ih h' (by omega) m' fuel (by omega)

/-- the first call for such a range -/
theorem stage_created {addr size : Nat} (hs : addr / 4096 = s) (hsize : size + 4095 < 2^64)
    (hn : (size + 4095) / 4096 = n) (hpos : 0 < n) (hspan : InSpan s n) (cr3 : Nat) :
    Stage s n 0 3 (direct cr3) (pageIterCreate cr3 addr size) := by
  have hcount : tableCount n ≤ 512 := by
    unfold InSpan at hspan
    omega
  have hle : n ≤ 262144 := by
    unfold tableCount at hcount
    omega
  have c := created cr3 addr size s n hs hsize hn (by omega)
  refine ⟨c.state, c.dir, c.offset, ?_, c.tables, ?_, ?_, fun i hi => ?_⟩
  · rw [c.pages]
    exact CInt.toInt_of_lt (by omega)
  · rw [c.dirs]
    exact congrArg Nat.cast (by omega)
  · rw [c.tops]
    exact congrArg Nat.cast (by omega)
  · exact absurd hi (by omega)

end stage

/-- **A range whose page tables lie in one page directory** is visited table by table. -/
theorem forPages_span {addr size s n : Nat} (hs : addr / 4096 = s) (hsize : size + 4095 < 2^64)
    (hn : (size + 4095) / 4096 = n) (hpos : 0 < n) (hspan : InSpan s n) :
    forPages m addr size body = spanWalk body s n m := by
  have h₀ := stage_created hs hsize hn hpos hspan m.cr3
  have hfuel : visits (pageIterCreate m.cr3 addr size) = tableCount n + 3 := by
    unfold visits
    rw [h₀.dirs, h₀.tops, h₀.tables]
    simp only [Int.toNat_natCast]
    omega
  unfold forPages
  simp only
  rw [hfuel]
  generalize pageIterCreate m.cr3 addr size = it at h₀
  obtain ⟨it₁, e₁, h₁⟩ := h₀.first (m := m)
  rw [walkPages_visit _ e₁]
  refine congrArg _ (funext fun m₁ => ?_)
  obtain ⟨it₂, e₂, h₂⟩ := h₁.top (m := m₁)
  rw [walkPages_visit _ e₂]
  refine congrArg _ (funext fun m₂ => ?_)
  obtain ⟨it₃, e₃, h₃⟩ := h₂.mid (m := m₂) hspan
  rw [walkPages_visit _ e₃]
  refine congrArg _ (funext fun m₃ => ?_)
  -- the first page table, and those after it
  obtain ⟨k, hk⟩ : ∃ k, tableCount n = k + 1 := ⟨tableCount n - 1, by unfold tableCount; omega⟩
  obtain ⟨it₄, e₄, h₄⟩ := h₃.low (m := m₃) hspan hpos
  rw [hk, walkPages_visit _ e₄, leafTables]
  have hread (dir : Nat) : iterComputeDir m₃ dir 0 (pageIndex s 1) = some (dirAt m₃ dir (pageIndex s 1)) := by
    unfold iterComputeDir
    rw [Nat.add_zero, read_index]
    rfl
  rw [hread]
  refine congrArg _ (funext fun m₄ => ?_)
  exact h₄.walk hspan k (by omega) m₄ _ (by omega)

/-- no pages: only the top table is given out, with no entries -/
theorem forPages_empty {addr s : Nat} (hs : addr / 4096 = s) :
    forPages m addr 0 body = body m ⟨3, direct m.cr3, pageIndex s 3, 0⟩ := by
  have c := created m.cr3 addr 0 s 0 hs (by decide) rfl (by decide)
  have htops : (pageIterCreate m.cr3 addr 0).len 3 = (0 : Nat) := c.tops
  have hfuel : visits (pageIterCreate m.cr3 addr 0) = 1 := by
    unfold visits
    rw [htops]
    simp
  unfold forPages
  simp only
  rw [hfuel]
  generalize pageIterCreate m.cr3 addr 0 = it at c htops
  have e0 : pageIterNext m it = some (some ⟨3, direct m.cr3, pageIndex s 3, 0⟩,
      { it with state := 1 }) := by
    rw [next_first c.state, c.dir, c.offset, htops]
    rfl
  rw [walkPages_visit _ e0]
  have e1 (m' : Machine) : pageIterNext m' { it with state := 1 } =
      some (none, loopStart 3 { it with state := 1 }) := by
    refine if_neg ?_
    show ¬ ((0 : Nat) : Int) < it.len 3
    rw [htops]
    exact Int.lt_irrefl _
  have hend (m' : Machine) : walkPages body 1 m' { it with state := 1 } = some m' := by
    rw [walkPages, e1]
    rfl
  rw [funext hend, Option.bind_fun_some]

/-! ## other ranges -/

/-- what a visit leaves alone -/
theorem iterVisit_some {d up : Fin 4} {it it' : PageIterator} {x : Option Visit}
    (h : iterVisit m d up it = some (x, it')) :
    (∃ v, x = some v) ∧ it'.offset = it.offset ∧ it'.len = it.len ∧ it'.index = it.index ∧
      it'.state = 4 - d ∧ it.offset up + it.index up < 512 := by
  unfold iterVisit iterComputeDir at h
  by_cases hi : it.offset up + it.index up < 512
  · rw [read_of_lt m _ hi] at h
    obtain ⟨_, _, h⟩ := Option.bind_eq_some_iff.mp h
    obtain ⟨_, _, h⟩ := Option.bind_eq_some_iff.mp h
    obtain ⟨rfl, rfl⟩ := Prod.mk.inj (Option.some.inj h)
    exact ⟨⟨_, rfl⟩, rfl, rfl, rfl, rfl, hi⟩
  · rw [read_of_ge m _ hi] at h
    exact nomatch h

/-- the driver has no result if it has none after the next visit -/
theorem walkPages_none {it : PageIterator} {fuel : Nat}
    (h : ∀ x it', pageIterNext m it = some (x, it') →
      (∃ v, x = some v) ∧ ∀ m', walkPages body fuel m' it' = none) :
    walkPages body (fuel + 1) m it = none := by
  rw [walkPages]
  cases e : pageIterNext m it with
  | none => rfl
  | some y =>
    obtain ⟨x, it'⟩ := y
    obtain ⟨⟨v, rfl⟩, hnone⟩ := h x it' e
    show (body m v).bind _ = none
    cases body m v with
    | none => rfl
    | some m' => exact hnone m'

/-- the tables run over the end of the page directory: by induction on the entries left in it -/
theorem walkPages_over (k : Nat) (it : PageIterator) (m : Machine) (fuel : Nat) (hstate : it.state = 4)
    (hk : it.offset 1 + it.index 1 + 1 + k = 512) (hlen : (512 : Int) < it.offset 1 + it.len 1) :
    walkPages body fuel m it = none := by
  induction k generalizing it m fuel with
  | zero =>
    cases fuel with
    | zero => rfl
    | succ fuel =>
      refine walkPages_none fun x it' e => ?_
      have e' : iterVisit m 0 1 (iterDone 0 1 it) = some (x, it') := by
        rw [← e]
        unfold pageIterNext
        rw [hstate]
        refine (if_pos ?_).symm
        show ((it.index 1 + 1 : Nat) : Int) < it.len 1
        omega
      obtain ⟨_, _, _, _, _, hlt⟩ := iterVisit_some e'
      have hlt' : it.offset 1 + (it.index 1 + 1) < 512 := hlt
      omega
  | succ k ih =>
    cases fuel with
    | zero => rfl
    | succ fuel =>
      refine walkPages_none fun x it' e => ?_
      have e' : iterVisit m 0 1 (iterDone 0 1 it) = some (x, it') := by
        rw [← e]
        unfold pageIterNext
        rw [hstate]
        refine (if_pos ?_).symm
        show ((it.index 1 + 1 : Nat) : Int) < it.len 1
        omega
      obtain ⟨hv, hoff, hl, hidx, hst, _⟩ := iterVisit_some e'
      have h1 : it'.offset 1 = it.offset 1 := by rw [hoff]; rfl
      have h2 : it'.len 1 = it.len 1 := by rw [hl]; rfl
      have h3 : it'.index 1 = it.index 1 + 1 := by rw [hidx]; rfl
      exact ⟨hv, fun m' => ih it' m' fuel hst (by rw [h1, h3]; omega) (by rw [h1, h2]; exact hlen)⟩

/-- **A range that is not empty and leaves the page directory** leads behind its end. -/
theorem forPages_over {addr size s n : Nat} (hs : addr / 4096 = s) (hsize : size + 4095 < 2^64)
    (hn : (size + 4095) / 4096 = n) (hpos : 0 < n) (hlt : n < 2^39) (hspan : ¬ InSpan s n) :
    forPages m addr size body = none := by
  have c := created m.cr3 addr size s n hs hsize hn hlt
  have htables : (512 : Int) < (pageIterCreate m.cr3 addr size).offset 1 +
      (pageIterCreate m.cr3 addr size).len 1 := by
    rw [c.offset, c.tables]
    unfold InSpan at hspan
    show (512 : Int) < ((s / 512^1 % 512 : Nat) : Int) + _
    omega
  have hoff1 : (pageIterCreate m.cr3 addr size).offset 1 < 512 := by
    rw [c.offset]
    exact (pageIndex s 1).isLt
  have hdirs : 0 < (pageIterCreate m.cr3 addr size).len 2 := by
    rw [c.dirs]
    omega
  have htops : 0 < (pageIterCreate m.cr3 addr size).len 3 := by
    rw [c.tops]
    omega
  unfold forPages
  simp only
  generalize visits (pageIterCreate m.cr3 addr size) = fuel
  generalize pageIterCreate m.cr3 addr size = it at c htables hoff1 hdirs htops
  -- state 0 to 3: the first visit of each level
  refine walkPages_none fun x it₁ e₁ => ?_
  rw [next_first c.state] at e₁
  obtain ⟨rfl, rfl⟩ := Prod.mk.inj (Option.some.inj e₁)
  refine ⟨⟨_, rfl⟩, fun m₁ => ?_⟩
  cases fuel with
  | zero => rfl
  | succ fuel =>
    refine walkPages_none fun x it₂ e₂ => ?_
    have e₂ := (next_top (m := m₁) (show PageIterator.state { it with state := 1 } = 1 from rfl) htops).symm.trans e₂
    obtain ⟨hv₂, hoff₂, hlen₂, _, hst₂, _⟩ := iterVisit_some e₂
    refine ⟨hv₂, fun m₂ => ?_⟩
    cases fuel with
    | zero => rfl
    | succ fuel =>
      refine walkPages_none fun x it₃ e₃ => ?_
      rw [next_mid hst₂ (by rw [hlen₂]; exact hdirs)] at e₃
      obtain ⟨hv₃, hoff₃, hlen₃, _, hst₃, _⟩ := iterVisit_some e₃
      refine ⟨hv₃, fun m₃ => ?_⟩
      have ho₃ : it₃.offset 1 = it.offset 1 := by rw [hoff₃]; show it₂.offset 1 = _; rw [hoff₂]; rfl
      have hl₃ : it₃.len 1 = it.len 1 := by rw [hlen₃]; show it₂.len 1 = _; rw [hlen₂]; rfl
      cases fuel with
      | zero => rfl
      | succ fuel =>
        refine walkPages_none fun x it₄ e₄ => ?_
        rw [next_low hst₃ (by rw [hl₃]; omega)] at e₄
        obtain ⟨hv₄, hoff₄, hlen₄, hidx₄, hst₄, _⟩ := iterVisit_some e₄
        refine ⟨hv₄, fun m₄ => ?_⟩
        have ho₄ : it₄.offset 1 = it.offset 1 := by rw [hoff₄]; exact ho₃
        have hl₄ : it₄.len 1 = it.len 1 := by rw [hlen₄]; exact hl₃
        have hi₄ : it₄.index 1 = 0 := by rw [hidx₄]; rfl
        exact walkPages_over (511 - it.offset 1) it₄ m₄ fuel hst₄ (by rw [ho₄, hi₄]; omega)
          (by rw [ho₄, hl₄]; exact htables)

end FuseeOS
