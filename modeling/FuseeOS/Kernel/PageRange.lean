import FuseeOS.Kernel.PageOps

/-!
# Mapping, unmapping and protecting a range

The three users of `page_iter` over a range of `n` pages from page `s` on.  The iterator looks at
`tableCount n` tables from the first one on, and so reaches `covered s n` of the pages: all of them
if `InReach s n`.

* `leafTables_rule`   what one page carries over, the pass over the lowest tables carries over;
* `kmapanon_spec`     the covered pages are mapped to fresh pages, or memory runs out;
* `kmap_spec`         they are mapped to the pages from `phys` on, or memory runs out;
* `kunmapanon_spec`   they are unmapped and their frames given back;
* `kmprotect_spec`    their flags are set.
-/

namespace FuseeOS
open Radix

/-- number of the `n` pages from page `s` on that are visited -/
def covered (s n : Nat) : Nat := min n (512 * tableCount n - s % 512)

/-- all pages of the range are visited: it starts early enough in its first table -/
def Reached (s n : Nat) : Prop := s % 512 + n ≤ 512 * tableCount n

instance (s n : Nat) : Decidable (Reached s n) := inferInstanceAs (Decidable (_ ≤ _))

/-- the iterator visits the `n` pages from page `s` on, and nothing else -/
structure InReach (s n : Nat) : Prop where
  span : InSpan s n
  reached : Reached s n

instance (s n : Nat) : Decidable (InReach s n) :=
  decidable_of_iff (InSpan s n ∧ Reached s n) ⟨fun h => ⟨h.1, h.2⟩, fun h => ⟨h.span, h.reached⟩⟩

/-- page `v` lies in one of the tables that are looked at for the `n` pages from page `s` on -/
def InTablesOf (s n v : Nat) : Prop := s / 512 ≤ v / 512 ∧ v / 512 < s / 512 + tableCount n

theorem InTablesOf.congr {s n v : Nat} (h : InTablesOf s n v) (hspan : InSpan s n) :
    v / 512^2 = s / 512^2 := by
  unfold InTablesOf at h
  unfold InSpan at hspan
  omega

/-- the first page is there -/
theorem inTablesOf_first {s n : Nat} (hpos : 0 < n) : InTablesOf s n s := by
  unfold InTablesOf tableCount
  omega

theorem covered_pos {s n : Nat} (hpos : 0 < n) : 0 < covered s n := by
  unfold covered tableCount
  omega

theorem covered_eq {s n : Nat} : covered s n = n ↔ Reached s n ∨ n = 0 := by
  unfold covered Reached tableCount
  omega

section rule
variable {f : Machine → BitVec 64 → Option (BitVec 64 × Machine)}
  {body : Machine → Visit → Option Machine} {P : Nat → Machine → Prop}
  {Fail : Prop} {tab : Nat → Nat} {s c d : Nat}

/-- the loop over some entries of one table -/
theorem updateEntries_rule
    (hstep : ∀ j m, j < c → P j m → (∃ m', updateEntry f (tab j) (pageIndex (s + j) 0) m = some m' ∧
      P (j + 1) m') ∨ (updateEntry f (tab j) (pageIndex (s + j) 0) m = none ∧ Fail))
    (n i j : Nat) (m : Machine) (hm : P j m) (hjn : j + n ≤ c) (hi : n ≠ 0 → (s + j) % 512 = i)
    (hin : i + n ≤ 512) (htab : ∀ x < n, tab (j + x) = d) :
    (∃ m', updateEntries f d n i m = some m' ∧ P (j + n) m') ∨
      (updateEntries f d n i m = none ∧ Fail) := by
  induction n generalizing i j m with
  | zero => exact .inl ⟨m, rfl, hm⟩
  | succ n ih =>
    have hidx : (pageIndex (s + j) 0).val = i := by
      show (s + j) / 512^0 % 512 = i
      rw [Nat.pow_zero, Nat.div_one]
      exact hi (Nat.succ_ne_zero n)
    have hd := htab 0 (Nat.succ_pos n)
    rw [Nat.add_zero] at hd
    have hs := hstep j m (by omega) hm
    rw [hd, hidx] at hs
    unfold updateEntries
    rcases hs with ⟨m', e, hm'⟩ | ⟨e, hf⟩
    · have hrec := ih (i + 1) (j + 1) m' hm' (by omega) (fun hn => ?_) (by omega) fun x hx => ?_
      · rw [e, show j + (n + 1) = j + 1 + n by omega]
        exact hrec
      · have := hi (Nat.succ_ne_zero n)
        omega
      · rw [show j + 1 + x = j + (x + 1) by omega]
        exact htab (x + 1) (by omega)
    · right
      rw [e]
      exact ⟨rfl, hf⟩

variable (s tab) in
/-- **The pass over the lowest tables**, by induction on the tables that are left.  `tab j` is the
table of page `s + j`; after `j` pages `P j` holds. -/
theorem leafTables_rule
    (hbody : ∀ m dir off len, body m ⟨0, dir, off, len⟩ = updateEntries f dir len.toNat off m)
    (hdir : ∀ j m, P j m → ∀ x, x < c → iterComputeDir m d 0 (pageIndex (s + x) 1) = some (tab x))
    (hstep : ∀ j m, j < c → P j m → (∃ m', updateEntry f (tab j) (pageIndex (s + j) 0) m = some m' ∧
      P (j + 1) m') ∨ (updateEntry f (tab j) (pageIndex (s + j) 0) m = none ∧ Fail))
    (k i off rem j : Nat) (m : Machine) (hm : P j m) (hik : i + k ≤ 512) (hoff : off < 512)
    (hc : c = j + min rem (512 * k - off))
    (hat : rem ≠ 0 → k ≠ 0 → (s + j) % 512 = off ∧ (s + j) / 512 % 512 = i) :
    (∃ m', leafTables body d k i off rem m = some m' ∧ P c m') ∨
      (leafTables body d k i off rem m = none ∧ Fail) := by
  induction k generalizing i off rem j m with
  | zero =>
    left
    rw [show c = j by omega]
    exact ⟨m, rfl, hm⟩
  | succ k ih =>
    unfold leafTables
    have hread : iterComputeDir m d 0 i = some (dirAt m d ⟨i, by omega⟩) := by
      unfold iterComputeDir
      rw [Nat.add_zero, read_of_lt m d (by omega)]
      rfl
    rw [hread]
    show (∃ m', ((body m _).bind _) = some m' ∧ P c m') ∨ ((body m _).bind _) = none ∧ Fail
    rw [hbody, Int.toNat_natCast]
    -- the table that is read is the table of the pages that follow
    have htab : ∀ x < min rem (512 - off), tab (j + x) = dirAt m d ⟨i, by omega⟩ := by
      intro x hx
      obtain ⟨h1, h2⟩ := hat (by omega) (Nat.succ_ne_zero k)
      have hx' := hdir j m hm (j + x) (by omega)
      have hi : (pageIndex (s + (j + x)) 1).val = i := by
        show (s + (j + x)) / 512^1 % 512 = i
        omega
      rw [hi, hread] at hx'
      exact (Option.some.inj hx').symm
    rcases updateEntries_rule hstep (min rem (512 - off)) off j m hm (by omega)
      (fun hn => (hat (by omega) (Nat.succ_ne_zero k)).1) (by omega) htab with ⟨m', e, hm'⟩ | ⟨e, hf⟩
    · rw [e]
      refine ih (i + 1) 0 (rem - min rem (512 - off)) (j + min rem (512 - off)) m' hm' (by omega)
        (by decide) (by omega) fun hr hk => ?_
      obtain ⟨h1, h2⟩ := hat (by omega) (Nat.succ_ne_zero k)
      omega
    · right
      rw [e]
      exact ⟨rfl, hf⟩

end rule

/-! ## the stems of a range -/

/-- pages of one table have the stem in common, and so on upwards -/
theorem stem_congr {v v' : Nat} {k : Nat} (hk : k ≤ 3) (h : v / 512^(4 - k) = v' / 512^(4 - k)) :
    stem v k = stem v' k := by
  have hidx (i : Nat) (hi : v / 512^i = v' / 512^i) : pageIndex v i = pageIndex v' i := by
    apply Fin.ext
    show v / 512^i % 512 = v' / 512^i % 512
    rw [hi]
  match k, hk with
  | 0, _ => rfl
  | 1, _ =>
    show [_] = [_]
    rw [hidx 3 h]
  | 2, _ =>
    have h2 : v / 512^2 = v' / 512^2 := h
    show [_, _] = [_, _]
    rw [hidx 2 h2, hidx 3 (by omega)]
  | 3, _ =>
    have h1 : v / 512^1 = v' / 512^1 := h
    show [_, _, _] = [_, _, _]
    rw [hidx 1 h1, hidx 2 (by omega), hidx 3 (by omega)]

/-- first page of table `x` of a range from page `s` on -/
def tablePage (s x : Nat) : Nat := (s / 512 + x) * 512

section
variable {s x y k n : Nat}

theorem stem_tablePage_two (h : s / 512 % 512 + x < 512) : stem (tablePage s x) 2 = stem s 2 := by
  refine stem_congr (by decide) ?_
  show tablePage s x / 512^2 = s / 512^2
  unfold tablePage
  omega

theorem stem_tablePage_ne (hx : s / 512 % 512 + x < 512) (hy : s / 512 % 512 + y < 512)
    (hne : x ≠ y) : stem (tablePage s x) 3 ≠ stem (tablePage s y) 3 := by
  intro h
  have h3 : (pageIndex (tablePage s x) 1).val = (pageIndex (tablePage s y) 1).val := by
    have e : [pageIndex (tablePage s x) 3, pageIndex (tablePage s x) 2, pageIndex (tablePage s x) 1] =
        [pageIndex (tablePage s y) 3, pageIndex (tablePage s y) 2, pageIndex (tablePage s y) 1] := h
    simp only [List.cons.injEq] at e
    rw [e.2.2.1]
  have h4 : tablePage s x / 512^1 % 512 = tablePage s y / 512^1 % 512 := h3
  unfold tablePage at h4
  omega

/-- the table of a page of the range -/
theorem stem_page (j : Nat) : stem (s + j) 3 = stem (tablePage s ((s + j) / 512 - s / 512)) 3 := by
  refine stem_congr (by decide) ?_
  show (s + j) / 512^1 = tablePage s _ / 512^1
  unfold tablePage
  omega

theorem covered_table {j : Nat} (hj : j < covered s n) :
    (s + j) / 512 - s / 512 < tableCount n := by
  unfold covered at hj
  omega

end

/-! ## the tables of a range -/

/-- how many of the tables `x`, … , `x + k - 1` of a range are missing -/
def missingTables (m : Machine) (s x k : Nat) : Nat :=
  (List.range' x k).countP fun y => (m.nodeAt (stem (tablePage s y) 3)).isNone

/-- how many tables are missing for the visited pages of a range -/
def missing (m : Machine) (s n : Nat) : Nat :=
  (if (m.nodeAt (stem s 1)).isNone then 1 else 0) + (if (m.nodeAt (stem s 2)).isNone then 1 else 0) +
    missingTables m s 0 (tableCount n)

section
variable {m : Machine} {R : Nat → Prop} {s x k n t : Nat}

theorem missingTables_succ (m : Machine) (s x k : Nat) : missingTables m s x (k + 1) =
    missingTables m s (x + 1) k +
      (if (m.nodeAt (stem (tablePage s x) 3)).isNone then 1 else 0) := by
  unfold missingTables
  rw [List.range'_succ, List.countP_cons]

/-- the loop over the entries of the page directory -/
theorem addTables_spec (h : Tables m) (hpl : PlainOn R m) (ht : m.nodeAt (stem s 2) = some t)
    (k x : Nat) (hR : ∀ y < x + k, R (tablePage s y)) (hk : s / 512 % 512 + x + k ≤ 512) :
    (∃ m', updateEntries addTable t k (s / 512 % 512 + x) m = some m' ∧ TablesAdded R m m' ∧
      (∀ y, x ≤ y → y < x + k → ∃ u, m'.nodeAt (stem (tablePage s y) 3) = some u) ∧
      m'.pmem.pagesFree + missingTables m s x k = m.pmem.pagesFree) ∨
      (updateEntries addTable t k (s / 512 % 512 + x) m = none ∧
        m.pmem.pagesFree < missingTables m s x k) := by
  induction k generalizing x m with
  | zero => exact .inl ⟨m, rfl, TablesAdded.refl h hpl, fun y h1 h2 => absurd h2 (by omega), rfl⟩
  | succ k ih =>
    have hidx : (pageIndex (tablePage s x) (3 - 2)).val = s / 512 % 512 + x := by
      show tablePage s x / 512^1 % 512 = _
      unfold tablePage
      omega
    have hstem := stem_tablePage_two (s := s) (x := x) (by omega)
    have hstep := addTable_step (v := tablePage s x) (k := 2) h hpl (hR x (by omega)) (by decide)
      (by rw [hstem]; exact ht)
    rw [hidx] at hstep
    simp only [Nat.reduceAdd] at hstep
    unfold updateEntries
    rw [missingTables_succ]
    rcases hstep with ⟨m₁, u, e, g, hu, hother, hcount⟩ | ⟨e, habs, h0⟩
    · rw [e]
      -- the tables that follow are not the one that was added
      have hlater : missingTables m₁ s (x + 1) k = missingTables m s (x + 1) k := by
        unfold missingTables
        refine List.countP_congr fun y hy => ?_
        obtain ⟨hy1, hy2⟩ := List.mem_range'_1.mp hy
        rw [hother _ (length_stem (le_refl 3)).le
          (stem_tablePage_ne (by omega) (by omega) (by omega))]
      have ht₁ : m₁.nodeAt (stem s 2) = some t :=
        g.old _ _ (by rw [length_stem (by decide)]; decide) ht
      rcases ih g.tables g.plain ht₁ (x + 1) (fun y hy => hR y (by omega)) (by omega) with ⟨m', e', g', hall, hcount'⟩ | ⟨e', hlt⟩
      · refine .inl ⟨m', e', g.trans g', fun y h1 h2 => ?_, by omega⟩
        by_cases hy : y = x
        · subst hy
          exact ⟨u, g'.old _ _ (length_stem (le_refl 3)).le hu⟩
        · exact hall y (by omega) (by omega)
      · exact .inr ⟨e', by omega⟩
    · right
      rw [e, habs, h0]
      refine ⟨rfl, ?_⟩
      rw [if_pos rfl]
      omega

end

/-! ## the pass over the lowest tables of a range -/

section
variable {f : Machine → BitVec 64 → Option (BitVec 64 × Machine)}
  {body : Machine → Visit → Option Machine} {P : Nat → Machine → Prop}
  {Fail : Prop} {m : Machine} {R : Nat → Prop} {s n d : Nat}

theorem covered_le (hspan : InSpan s n) : covered s n ≤ 2^18 := by
  unfold covered tableCount
  unfold InSpan tableCount at hspan
  omega

theorem covered_span (hspan : InSpan s n) {x : Nat} (hx : x < covered s n) :
    (s + x) / 512^2 = s / 512^2 := by
  unfold covered at hx
  unfold InSpan at hspan
  omega

/-- a covered page lies in a table that is looked at -/
theorem inTablesOf_covered {x : Nat} (hx : x < covered s n) : InTablesOf s n (s + x) := by
  unfold covered at hx
  unfold InTablesOf
  omega

variable (body P Fail) in
/-- the tables of the range are all there, and only leaves are written -/
theorem leafPass_rule (hpl : PlainOn R m) (hspan : InSpan s n)
    (hR : ∀ v, InTablesOf s n v → R v) (hd : m.nodeAt (stem s 2) = some d)
    (htabs : ∀ x < covered s n, ∃ u, m.nodeAt (stem (s + x) 3) = some u)
    (hbody : ∀ m dir off len, body m ⟨0, dir, off, len⟩ = updateEntries f dir len.toNat off m)
    (h0 : P 0 m) (hP : ∀ j m', P j m' → OnlyLeaves m s j m')
    (hstep : ∀ j m' t, j < covered s n → P j m' → m'.nodeAt (stem (s + j) 3) = some t →
      (∃ m'', updateEntry f t (pageIndex (s + j) 0) m' = some m'' ∧ P (j + 1) m'') ∨
        (updateEntry f t (pageIndex (s + j) 0) m' = none ∧ Fail)) :
    (∃ m', leafTables body d (tableCount n) (pageIndex s 1) (pageIndex s 0) n m = some m' ∧
      P (covered s n) m') ∨
      (leafTables body d (tableCount n) (pageIndex s 1) (pageIndex s 0) n m = none ∧ Fail) := by
  choose! tab htab using htabs
  refine leafTables_rule tab s hbody (fun j m' g x hx => ?_) (fun j m' hj g => ?_) (tableCount n)
    (pageIndex s 1) (pageIndex s 0) n 0 m h0 ?_ (pageIndex s 0).isLt ?_ fun _ _ => ⟨?_, ?_⟩
  · have hstem : stem (s + x) 2 = stem s 2 := stem_congr (by decide) (covered_span hspan hx)
    have ht' : m'.nodeAt (stem (s + x) 2) = some d := by
      rw [(hP j m' g).node _ length_stem_le, hstem, hd]
    have hu' : m'.nodeAt (stem (s + x) (2 + 1)) = some (tab x) := by
      rw [(hP j m' g).node _ length_stem_le]
      exact htab x hx
    have hdir := ((hP j m' g).plain hpl).dirAt_eq (k := 2) (hR _ (inTablesOf_covered hx)) (by decide)
      ht' hu'
    unfold iterComputeDir
    rw [Nat.add_zero, read_index]
    exact congrArg some hdir
  · refine hstep j m' (tab j) hj g ?_
    rw [(hP j m' g).node _ length_stem_le]
    exact htab j hj
  · exact hspan
  · show covered s n = 0 + min n (512 * tableCount n - s / 512^0 % 512)
    unfold covered
    omega
  · show (s + 0) % 512 = s / 512^0 % 512
    omega
  · show (s + 0) / 512 % 512 = s / 512^1 % 512
    omega

end

/-! ## the tables above them -/

section
variable {body : Machine → Visit → Option Machine} {m : Machine} {R : Nat → Prop} {s n : Nat}

theorem updateEntries_one (f : Machine → BitVec 64 → Option (BitVec 64 × Machine)) (d i : Nat)
    (m : Machine) : updateEntries f d 1 i m = updateEntry f d i m := by
  show (updateEntry f d i m).bind some = _
  exact Option.bind_fun_some _

variable (body) in
/-- The visits of the upper tables by `kmapanon` and `kmap`: the tables of the range are there
afterwards. -/
theorem upperWalk_grow (h : Tables m) (hpl : PlainOn R m) (hpos : 0 < n) (hspan : InSpan s n)
    (hR : ∀ v, InTablesOf s n v → R v)
    (hbody : ∀ m k dir off len, k ≠ 0 → body m ⟨k, dir, off, len⟩ =
      updateEntries addTable dir len.toNat off m) :
    (∃ m₁ d, upperWalk body s n m = some (m₁, d) ∧ TablesAdded R m m₁ ∧
      m₁.nodeAt (stem s 2) = some d ∧
      (∀ x < covered s n, ∃ u, m₁.nodeAt (stem (s + x) 3) = some u) ∧
      m₁.pmem.pagesFree + missing m s n = m.pmem.pagesFree) ∨
      (upperWalk body s n m = none ∧ m.pmem.pagesFree < missing m s n) := by
  have hlen {v v' j k : Nat} (hj : j ≤ 3) (hk : k ≤ 3) (hjk : j ≠ k) : stem v j ≠ stem v' k := by
    intro e
    have hlen := congrArg List.length e
    rw [length_stem hj, length_stem hk] at hlen
    exact hjk hlen
  have hRs : R s := hR s (inTablesOf_first hpos)
  have hRt : ∀ y < 0 + tableCount n, R (tablePage s y) := by
    intro y hy
    refine hR _ ?_
    unfold InTablesOf tablePage
    omega
  have hroot : direct m.cr3 = m.cr3 := Nat.mod_eq_of_lt h.root
  have hone (m' : Machine) (k d : Nat) (i : Fin 512) (hk : k ≠ 0) :
      body m' ⟨k, d, i, 1⟩ = updateEntry addTable d i m' := by
    rw [hbody m' k d i 1 hk]
    exact updateEntries_one addTable d i m'
  unfold upperWalk missing
  simp only [Option.bind_eq_bind, hroot]
  -- the table behind the top entry
  have ht₃ : m.nodeAt (stem s 0) = some m.cr3 := rfl
  rw [hone m 3 m.cr3 _ (by decide)]
  rcases addTable_step h hpl hRs (show 0 < 3 by decide) ht₃ with
    ⟨m₁, t₂, e₁, g₁, hn₂, ho₁, hc₁⟩ | ⟨e₁, habs₁, hz₁⟩
  swap
  · right
    rw [e₁, hz₁, if_pos habs₁]
    exact ⟨rfl, by omega⟩
  have hr₁ : m₁.nodeAt (stem s 0) = some m.cr3 := g₁.old _ _ length_stem_le ht₃
  have hd₁ : dirAt m₁ m.cr3 (pageIndex s 3) = t₂ := g₁.plain.dirAt_eq (k := 0) hRs (by decide) hr₁ hn₂
  rw [e₁, Option.bind_some, hd₁, hone m₁ 2 t₂ _ (by decide)]
  -- the table behind the entry of the page directory pointers
  have hmiss₂ : m₁.nodeAt (stem s 2) = m.nodeAt (stem s 2) :=
    ho₁ _ length_stem_le (hlen (by decide) (by decide) (by decide))
  rcases addTable_step g₁.tables g₁.plain hRs (show 1 < 3 by decide) hn₂ with
    ⟨m₂, t₁, e₂, g₂, hn₁, ho₂, hc₂⟩ | ⟨e₂, habs₂, hz₂⟩
  swap
  · right
    rw [e₂]
    have habs : (m.nodeAt (stem s 2)).isNone := by rw [← hmiss₂]; exact habs₂
    rw [if_pos habs]
    simp only [Nat.reduceAdd] at hc₁
    exact ⟨rfl, by omega⟩
  have hr₂ : m₂.nodeAt (stem s 1) = some t₂ := g₂.old _ _ length_stem_le hn₂
  have hd₂ : dirAt m₂ t₂ (pageIndex s 2) = t₁ := g₂.plain.dirAt_eq (k := 1) hRs (by decide) hr₂ hn₁
  rw [e₂, Option.bind_some, hd₂]
  -- the tables behind the entries of the page directory
  have hmiss : missingTables m₂ s 0 (tableCount n) = missingTables m s 0 (tableCount n) := by
    unfold missingTables
    refine List.countP_congr fun y hy => ?_
    rw [ho₂ _ length_stem_le (hlen (by decide) (by decide) (by decide)),
      ho₁ _ length_stem_le (hlen (by decide) (by decide) (by decide))]
  have hidx : (pageIndex s 1).val = s / 512 % 512 + 0 := by
    show s / 512^1 % 512 = _
    omega
  have htables := addTables_spec g₂.tables g₂.plain hn₁ (tableCount n) 0 hRt
    (by unfold InSpan at hspan; omega)
  rw [← hidx, hmiss] at htables
  simp only [Nat.reduceAdd, hmiss₂] at hc₁ hc₂
  have hlast : body m₂ ⟨1, t₁, pageIndex s 1, tableCount n⟩ =
      updateEntries addTable t₁ (tableCount n) (pageIndex s 1) m₂ := hbody m₂ 1 t₁ _ _ (by decide)
  rw [hlast]
  rcases htables with ⟨m₃, e₃, g₃, hall, hc₃⟩ | ⟨e₃, hlt₃⟩
  · left
    rw [e₃]
    refine ⟨m₃, t₁, rfl, (g₁.trans g₂).trans g₃, g₃.old _ _ length_stem_le hn₁, fun x hx => ?_, by omega⟩
    rw [stem_page]
    exact hall _ (Nat.zero_le _) (by have := covered_table hx; omega)
  · right
    rw [e₃]
    exact ⟨rfl, by omega⟩

/-- the visits of the upper tables by `kmprotect` and `kunmapanon` do nothing -/
theorem upperWalk_low (h : Tables m) (hpl : PlainOn R m) (hRs : R s) {d : Nat}
    (hd : m.nodeAt (stem s 2) = some d)
    (hbody : ∀ m k dir off len, k ≠ 0 → body m ⟨k, dir, off, len⟩ = some m) :
    upperWalk body s n m = some (m, d) := by
  have hroot : direct m.cr3 = m.cr3 := Nat.mod_eq_of_lt h.root
  obtain ⟨t, ht⟩ : ∃ t, m.nodeAt (stem s 1) = some t := by
    have e : m.nodeAt (stem s 1 ++ [pageIndex s 2]) = some d := hd
    unfold Machine.nodeAt at e
    rw [nodeAt_append] at e
    obtain ⟨t, ht, -⟩ := Option.bind_eq_some_iff.mp e
    exact ⟨t, ht⟩
  have h1 : dirAt m m.cr3 (pageIndex s 3) = t := hpl.dirAt_eq (k := 0) hRs (by decide) rfl ht
  have h2 : dirAt m t (pageIndex s 2) = d := hpl.dirAt_eq (k := 1) hRs (by decide) ht hd
  unfold upperWalk
  simp only [Option.bind_eq_bind, hroot]
  rw [hbody m 3 _ _ _ (by decide), Option.bind_some, h1, hbody m 2 _ _ _ (by decide), Option.bind_some,
    h2, hbody m 1 _ _ _ (by decide)]
  rfl

end

/-! ## mapping -/

/-- the flags of a page -/
theorem pageFlags (m : Machine) (prot : Nat) :
    IsFlags (X86_PAGE_PRESENT ||| pageProtFlags m prot) := by
  unfold IsFlags pageProtFlags Machine.nxMask
  cases m.nx <;> split <;> split <;> split <;> decide

theorem pageFlags_present (m : Machine) (prot : Nat) :
    present (X86_PAGE_PRESENT ||| pageProtFlags m prot) = true := by
  unfold present
  rw [BitVec.getLsbD_or]
  rfl

/-- a page that is protected stays mapped -/
theorem present_protect {m : Machine} {w : BitVec 64} (h : present w = true) (flags : BitVec 64) :
    present (w &&& ~~~(X86_PAGE_USER ||| X86_PAGE_WRITE ||| m.nxMask) ||| flags) = true := by
  have hmask : (~~~(X86_PAGE_USER ||| X86_PAGE_WRITE ||| m.nxMask)).getLsbD 0 = true := by
    unfold Machine.nxMask
    cases m.nx <;> rfl
  unfold present at *
  rw [BitVec.getLsbD_or, BitVec.getLsbD_and, h, hmask]
  rfl

/-- The `n` pages from page `s` on were mapped to fresh pages. -/
structure Mapped (m : Machine) (s n : Nat) (flags : BitVec 64) (m' : Machine) : Prop
    extends OnlyLeaves m s n m' where
  mapped : ∀ j < n, ∃ p, leaf m' (s + j) = some (BitVec.ofNat 64 p ||| flags) ∧ p % 4096 = 0 ∧
    p < 2^47 ∧ m.pmem.Free p ∧ ¬ m'.pmem.Free p
  apart : ∀ i j w w', i < n → j < n → leaf m' (s + i) = some w → leaf m' (s + j) = some w' →
    frameOf w = frameOf w' → i = j
  free : ∀ q, m'.pmem.Free q → m.pmem.Free q
  owns : ∀ q, m'.pmem.Owns q ↔ m.pmem.Owns q
  data : ∀ f, ¬ m.IsTable f → ¬ m.pmem.Free f → m'.mem f = m.mem f
  count : m'.pmem.pagesFree + n = m.pmem.pagesFree

/-- The fresh pages hold zeros, and no other page was taken. -/
structure FreshMapped (m : Machine) (s n : Nat) (flags : BitVec 64) (m' : Machine) : Prop
    extends Mapped m s n flags m' where
  zero : ∀ j < n, ∀ w, leaf m' (s + j) = some w → m'.mem (frameOf w) = fun _ => 0
  taken : ∀ q, m.pmem.Free q → m'.pmem.Free q ∨ ∃ j < n, ∃ w, leaf m' (s + j) = some w ∧ frameOf w = q

/-- The `n` pages from page `s` on were mapped to the physical pages from `m.phys` on. -/
structure MappedAt (m : Machine) (s n : Nat) (flags : BitVec 64) (m' : Machine) : Prop
    extends OnlyLeaves m s n m' where
  mapped : ∀ j < n, leaf m' (s + j) =
    some (BitVec.ofNat 64 ((m.phys + 4096 * j) % 2^64) ||| flags)
  phys : m'.phys = (m.phys + 4096 * n) % 2^64
  pmem : m'.pmem = m.pmem
  data : ∀ f, ¬ m.IsTable f → m'.mem f = m.mem f

/-- The `n` pages from page `s` on, which had the frames `frame j`, were unmapped. -/
structure Unmapped (m : Machine) (s n : Nat) (frame : Nat → Nat) (m' : Machine) : Prop
    extends OnlyLeaves m s n m' where
  unmapped : ∀ j < n, leaf m' (s + j) = none
  inv : PmemInv m'.pmem
  free : ∀ q, m'.pmem.Free q ↔ m.pmem.Free q ∨ ∃ j < n, q = frame j
  owns : ∀ q, m'.pmem.Owns q ↔ m.pmem.Owns q
  data : ∀ f, ¬ m.IsTable f → m'.mem f = m.mem f
  count : m'.pmem.pagesFree = m.pmem.pagesFree + n

/-- The entries of the `n` pages from page `s` on were changed by `set`. -/
structure Protected (m : Machine) (s n : Nat) (set : BitVec 64 → BitVec 64) (m' : Machine) : Prop
    extends OnlyLeaves m s n m' where
  changed : ∀ j < n, leaf m' (s + j) = (leaf m (s + j)).map set
  pmem : m'.pmem = m.pmem
  data : ∀ f, ¬ m.IsTable f → m'.mem f = m.mem f

section
variable {m m₁ m' : Machine} {R : Nat → Prop} {s n p : Nat} {flags w : BitVec 64}

theorem Mapped.refl (h : Tables m) (s : Nat) (flags : BitVec 64) : Mapped m s 0 flags m :=
  ⟨OnlyLeaves.refl h s, fun _ hj => absurd hj (Nat.not_lt_zero _),
    fun _ _ _ _ hi => absurd hi (Nat.not_lt_zero _), fun _ hq => hq, fun _ => Iff.rfl,
    fun _ _ _ => rfl, rfl⟩

/-- one page more -/
theorem Mapped.next (g : Mapped m s n flags m₁) (a : PageAdded m₁ (s + n) p flags m')
    (hf : IsFlags flags) (hp : present flags = true) (hn : n < 2^36) :
    Mapped m s (n + 1) flags m' := by
  have hlast : leaf m' (s + n) = some (BitVec.ofNat 64 p ||| flags) := by
    rw [a.same]
    refine if_pos ?_
    unfold present
    rw [bit_entry a.page a.low (by omega)]
    exact hp
  have hold : ∀ j < n, leaf m' (s + j) = leaf m₁ (s + j) := fun j hj => a.old hn hj
  have hfree : ∀ q, m'.pmem.Free q → m₁.pmem.Free q := fun q hq => ((a.taken.free q).mp hq).1
  -- the new frame is none of the earlier ones
  have hfresh : ∀ j < n, ∀ w, leaf m₁ (s + j) = some w → frameOf w ≠ p := by
    intro j hj w hw he
    obtain ⟨q, hq, h1, h2, _, hnf⟩ := g.mapped j hj
    rw [hw] at hq
    rw [Option.some.inj hq, frameOf_entry h1 h2 hf] at he
    rw [he] at hnf
    exact hnf a.free
  refine ⟨g.toOnlyLeaves.next a.toLeafSet, fun j hj => ?_,
    fun i j w w' hi hj hw hw' he => ?_, fun q hq => g.free q (hfree q hq),
    fun q => (a.taken.owns q).trans (g.owns q), fun f hf hq => ?_, ?_⟩
  · by_cases hjn : j = n
    · subst hjn
      exact ⟨p, hlast, a.page, a.low, g.free p a.free, fun hp => ((a.taken.free p).mp hp).2 rfl⟩
    · obtain ⟨q, hq, h1, h2, h3, h4⟩ := g.mapped j (by omega)
      exact ⟨q, (hold j (by omega)).trans hq, h1, h2, h3, fun hq => h4 (hfree q hq)⟩
  · by_cases hin : i = n
    · by_cases hjn : j = n
      · omega
      · rw [hold j (by omega)] at hw'
        rw [hin, hlast] at hw
        rw [← Option.some.inj hw, frameOf_entry a.page a.low hf] at he
        exact absurd he.symm (hfresh j (by omega) w' hw')
    · rw [hold i (by omega)] at hw
      by_cases hjn : j = n
      · rw [hjn, hlast] at hw'
        rw [← Option.some.inj hw', frameOf_entry a.page a.low hf] at he
        exact absurd he (hfresh i (by omega) w hw)
      · rw [hold j (by omega)] at hw'
        exact g.apart i j w w' (by omega) (by omega) hw hw' he
  · have hf₁ : ¬ m₁.IsTable f := fun ht => hf ((isTable_congr g.node f).mp ht)
    have hfp : f ≠ p := by
      rintro rfl
      exact hq (g.free f a.free)
    rw [a.data f hf₁ hfp, g.data f hf hq]
  · have h1 := a.taken.pagesFree
    have h2 := g.count
    omega

theorem FreshMapped.refl (h : Tables m) (s : Nat) (flags : BitVec 64) : FreshMapped m s 0 flags m :=
  ⟨Mapped.refl h s flags, fun _ hj => absurd hj (Nat.not_lt_zero _), fun _ hq => .inl hq⟩

theorem FreshMapped.next (h : Tables m) (g : FreshMapped m s n flags m₁)
    (a : PageAdded m₁ (s + n) p flags m') (hz : m'.mem p = fun _ => 0) (hf : IsFlags flags)
    (hp : present flags = true) (hn : n < 2^36) : FreshMapped m s (n + 1) flags m' := by
  have hold : ∀ j < n, leaf m' (s + j) = leaf m₁ (s + j) := fun j hj => a.old hn hj
  have hlast : leaf m' (s + n) = some (BitVec.ofNat 64 p ||| flags) := by
    rw [a.same]
    refine if_pos ?_
    unfold present
    rw [bit_entry a.page a.low (by omega)]
    exact hp
  refine ⟨g.toMapped.next a hf hp hn, fun j hj w hw => ?_, fun q hq => ?_⟩
  · by_cases hjn : j = n
    · rw [hjn, hlast] at hw
      rw [← Option.some.inj hw, frameOf_entry a.page a.low hf]
      exact hz
    · rw [hold j (by omega)] at hw
      obtain ⟨q, hq, h1, h2, h3, h4⟩ := g.mapped j (by omega)
      have hwq : frameOf w = q := by
        rw [hq] at hw
        rw [← Option.some.inj hw, frameOf_entry h1 h2 hf]
      have hzero := g.zero j (by omega) w hw
      rw [hwq] at hzero ⊢
      -- an earlier page is neither a table nor the new one
      have hqt : ¬ m₁.IsTable q := fun ht => h.used q ((isTable_congr g.node q).mp ht) h3
      have hqp : q ≠ p := by
        rintro rfl
        exact h4 a.free
      rw [a.data q hqt hqp, hzero]
  · rcases g.taken q hq with hq | ⟨j, hj, w, hw, e⟩
    · by_cases hqp : q = p
      · exact .inr ⟨n, Nat.lt_succ_self n, _, hlast, by rw [hqp, frameOf_entry a.page a.low hf]⟩
      · exact .inl ((a.taken.free q).mpr ⟨hq, hqp⟩)
    · exact .inr ⟨j, by omega, w, (hold j hj).trans hw, e⟩

theorem MappedAt.refl (h : Tables m) (hphys : m.phys < 2^64) (s : Nat) (flags : BitVec 64) :
    MappedAt m s 0 flags m :=
  ⟨OnlyLeaves.refl h s, fun _ hj => absurd hj (Nat.not_lt_zero _),
    by rw [Nat.mul_zero, Nat.add_zero, Nat.mod_eq_of_lt hphys], rfl, fun _ _ => rfl⟩

theorem MappedAt.next (g : MappedAt m s n flags m₁)
    (a : PageWritten m₁ (s + n) (BitVec.ofNat 64 m₁.phys ||| flags) m')
    (hphys : m'.phys = (m₁.phys + PAGESIZE) % 2^64) (hp : present flags = true) (hn : n < 2^36) :
    MappedAt m s (n + 1) flags m' := by
  refine ⟨g.toOnlyLeaves.next a.toLeafSet, fun j hj => ?_, ?_, a.pmem.trans g.pmem, fun f hf => ?_⟩
  · by_cases hjn : j = n
    · subst hjn
      rw [a.same, g.phys]
      refine if_pos ?_
      unfold present at hp ⊢
      rw [BitVec.getLsbD_or, hp, Bool.or_true]
    · rw [a.old hn (by omega)]
      exact g.mapped j (by omega)
  · rw [hphys, g.phys]
    show ((m.phys + 4096 * n) % 2^64 + 4096) % 2^64 = _
    omega
  · exact (a.data f fun ht => hf ((isTable_congr g.node f).mp ht)).trans (g.data f hf)

theorem Unmapped.refl (h : Tables m) (s : Nat) (frame : Nat → Nat) : Unmapped m s 0 frame m :=
  ⟨OnlyLeaves.refl h s, fun _ hj => absurd hj (Nat.not_lt_zero _), h.pmem,
    fun _ => ⟨.inl, fun hq => hq.elim id fun ⟨_, hj, _⟩ => absurd hj (Nat.not_lt_zero _)⟩,
    fun _ => Iff.rfl, fun _ _ => rfl, rfl⟩

theorem Unmapped.next {frame : Nat → Nat} (g : Unmapped m s n frame m₁)
    (a : PageRemoved m₁ (s + n) (frame n) m') (hn : n < 2^36) : Unmapped m s (n + 1) frame m' := by
  refine ⟨g.toOnlyLeaves.next a.toLeafSet, fun j hj => ?_, a.released.inv, fun q => ?_,
    fun q => (a.released.owns q).trans (g.owns q), fun f hf => ?_, ?_⟩
  · by_cases hjn : j = n
    · subst hjn
      rw [a.same]
      rfl
    · rw [a.old hn (by omega)]
      exact g.unmapped j (by omega)
  · rw [a.released.free q, g.free q]
    constructor
    · rintro ((hq | ⟨j, hj, e⟩) | ⟨i, hi, e⟩)
      · exact .inl hq
      · exact .inr ⟨j, by omega, e⟩
      · exact .inr ⟨n, by omega, by omega⟩
    · rintro (hq | ⟨j, hj, e⟩)
      · exact .inl (.inl hq)
      · by_cases hjn : j = n
        · exact .inr ⟨0, by omega, by rw [e, hjn]; omega⟩
        · exact .inl (.inr ⟨j, by omega, e⟩)
  · exact (a.data f fun ht => hf ((isTable_congr g.node f).mp ht)).trans (g.data f hf)
  · rw [a.released.pagesFree, g.count]
    omega

theorem Protected.refl (h : Tables m) (s : Nat) (set : BitVec 64 → BitVec 64) : Protected m s 0 set m :=
  ⟨OnlyLeaves.refl h s, fun _ hj => absurd hj (Nat.not_lt_zero _), rfl, fun _ _ => rfl⟩

theorem Protected.next {set : BitVec 64 → BitVec 64} (g : Protected m s n set m₁)
    (hw : leaf m (s + n) = some w) (a : PageWritten m₁ (s + n) (set w) m') (hp : present (set w) = true)
    (hn : n < 2^36) : Protected m s (n + 1) set m' := by
  refine ⟨g.toOnlyLeaves.next a.toLeafSet, fun j hj => ?_, a.pmem.trans g.pmem, fun f hf => ?_⟩
  · by_cases hjn : j = n
    · subst hjn
      rw [a.same, if_pos hp, hw]
      rfl
    · rw [a.old hn (by omega)]
      exact g.changed j (by omega)
  · exact (a.data f fun ht => hf ((isTable_congr g.node f).mp ht)).trans (g.data f hf)

end

/-! ## the four operations -/

theorem anonVisit_upper (flags : BitVec 64) (m : Machine) {k : Nat} (dir off : Nat) (len : Int)
    (hk : k ≠ 0) : anonVisit flags m ⟨k, dir, off, len⟩ = updateEntries addTable dir len.toNat off m := by
  unfold anonVisit
  exact congrArg (fun f => updateEntries f dir len.toNat off m) (if_pos hk)

theorem mapVisit_upper (flags : BitVec 64) (m : Machine) {k : Nat} (dir off : Nat) (len : Int)
    (hk : k ≠ 0) : mapVisit flags m ⟨k, dir, off, len⟩ = updateEntries addTable dir len.toNat off m := by
  unfold mapVisit
  exact congrArg (fun f => updateEntries f dir len.toNat off m) (if_pos hk)

theorem lowVisit_upper (f : Machine → BitVec 64 → Option (BitVec 64 × Machine)) (m : Machine) {k : Nat}
    (dir off : Nat) (len : Int) (hk : k ≠ 0) : lowVisit f m ⟨k, dir, off, len⟩ = some m := by
  unfold lowVisit
  exact if_neg hk

section
variable {m : Machine} {R : Nat → Prop} {s n addr size : Nat}

/-- **`kmapanon`** adds the tables that are missing and maps the covered pages, or runs out of
memory. -/
theorem kmapanon_spec (h : Tables m) (hpl : PlainOn R m) (hs : addr / 4096 = s)
    (hsize : size + 4095 < 2^64) (hn : (size + 4095) / 4096 = n) (hpos : 0 < n) (hspan : InSpan s n)
    (hR : ∀ v, InTablesOf s n v → R v) (prot : Nat) :
    (∃ m₁ m₂, kmapanon m addr size prot = some (reloadCr3 m₂) ∧ TablesAdded R m m₁ ∧
      m₁.pmem.pagesFree + missing m s n = m.pmem.pagesFree ∧
      FreshMapped m₁ s (covered s n) (X86_PAGE_PRESENT ||| pageProtFlags m prot) m₂) ∨
      (kmapanon m addr size prot = none ∧ m.pmem.pagesFree < missing m s n + covered s n) := by
  unfold kmapanon
  simp only
  rw [forPages_span hs hsize hn hpos hspan, spanWalk_eq]
  rcases upperWalk_grow (anonVisit (pageProtFlags m prot)) h hpl hpos hspan hR
    (fun m' k dir off len hk => anonVisit_upper _ m' dir off len hk) with
    ⟨m₁, d, e₁, g₁, hd, hall, hc⟩ | ⟨e₁, hlt⟩
  · rw [e₁, Option.bind_some]
    have hpass := leafPass_rule (anonVisit (pageProtFlags m prot))
      (fun j m' => FreshMapped m₁ s j (X86_PAGE_PRESENT ||| pageProtFlags m prot) m')
      (m.pmem.pagesFree < missing m s n + covered s n) g₁.plain hspan hR hd hall
      (fun _ _ _ _ => rfl) (FreshMapped.refl g₁.tables s _) (fun _ _ g => g.toOnlyLeaves)
      fun j m' t hj g ht => ?_
    · rcases hpass with ⟨m₂, e₂, g₂⟩ | ⟨e₂, hlt⟩
      · left
        rw [e₂]
        exact ⟨m₁, m₂, rfl, g₁, hc, g₂⟩
      · right
        rw [e₂]
        exact ⟨rfl, hlt⟩
    · have hle := covered_le hspan
      rcases addPage_step g.tables ht (pageProtFlags m prot) with ⟨p, m'', e, a, hz⟩ | ⟨e, h0⟩
      · exact .inl ⟨m'', e, g.next g₁.tables a hz (pageFlags m prot) (pageFlags_present m prot) (by omega)⟩
      · refine .inr ⟨e, ?_⟩
        have := g.count
        omega
  · right
    rw [e₁]
    exact ⟨rfl, by omega⟩

/-- a range that leaves its page directory is not mapped -/
theorem kmapanon_over (hs : addr / 4096 = s) (hsize : size + 4095 < 2^64) (hn : (size + 4095) / 4096 = n)
    (hpos : 0 < n) (hlt : n < 2^39) (hspan : ¬ InSpan s n) (prot : Nat) : kmapanon m addr size prot = none := by
  unfold kmapanon
  simp only
  rw [forPages_over hs hsize hn hpos hlt hspan, Option.map_none]

/-- the walk of `kmap` -/
theorem mapWalk_spec (h : Tables m) (hpl : PlainOn R m) (hs : addr / 4096 = s)
    (hsize : size + 4095 < 2^64) (hn : (size + 4095) / 4096 = n) (hpos : 0 < n) (hspan : InSpan s n)
    (hR : ∀ v, InTablesOf s n v → R v) (hphys : m.phys < 2^64) (prot : Nat) :
    (∃ m₁ m₂, forPages m addr size (mapVisit (pageProtFlags m prot)) = some m₂ ∧ TablesAdded R m m₁ ∧
      m₁.pmem.pagesFree + missing m s n = m.pmem.pagesFree ∧
      MappedAt m₁ s (covered s n) (X86_PAGE_PRESENT ||| pageProtFlags m prot) m₂) ∨
      (forPages m addr size (mapVisit (pageProtFlags m prot)) = none ∧
        m.pmem.pagesFree < missing m s n) := by
  rw [forPages_span hs hsize hn hpos hspan, spanWalk_eq]
  rcases upperWalk_grow (mapVisit (pageProtFlags m prot)) h hpl hpos hspan hR
    (fun m' k dir off len hk => mapVisit_upper _ m' dir off len hk) with
    ⟨m₁, d, e₁, g₁, hd, hall, hc⟩ | ⟨e₁, hlt⟩
  · rw [e₁, Option.bind_some]
    have hpass := leafPass_rule (mapVisit (pageProtFlags m prot))
      (fun j m' => MappedAt m₁ s j (X86_PAGE_PRESENT ||| pageProtFlags m prot) m') False
      g₁.plain hspan hR hd hall (fun _ _ _ _ => rfl)
      (MappedAt.refl g₁.tables (by rw [g₁.phys]; exact hphys) s _) (fun _ _ g => g.toOnlyLeaves)
      fun j m' t hj g ht => ?_
    · rcases hpass with ⟨m₂, e₂, g₂⟩ | ⟨-, hf⟩
      · exact .inl ⟨m₁, m₂, e₂, g₁, hc, g₂⟩
      · exact hf.elim
    · have hle := covered_le hspan
      obtain ⟨m'', e, a, hp⟩ := mapPage_step g.tables ht (pageProtFlags m prot)
      exact .inl ⟨m'', e, g.next a hp (pageFlags_present m prot) (by omega)⟩
  · right
    rw [e₁]
    exact ⟨rfl, hlt⟩

/-- the address that `kmap` maps -/
def kmapAddr (m : Machine) (addr size : Nat) : Nat := if addr = 0 then (ioAlloc m size).1 else addr

/-- the state in which `kmap` starts to walk -/
def kmapStart (m : Machine) (addr phys size : Nat) : Machine :=
  { m with
    phys := phys - phys % PAGESIZE
    ioSize := if addr = 0 then (ioAlloc m size).2.ioSize else m.ioSize }

theorem kmap_eq (m : Machine) (addr phys size prot : Nat) : kmap m addr phys size prot =
    (forPages (kmapStart m addr phys size) (kmapAddr m addr size) size
      (mapVisit (pageProtFlags (kmapStart m addr phys size) prot))).map fun m' =>
        (kmapAddr m addr size, reloadCr3 m') := by
  unfold kmap kmapAddr kmapStart
  by_cases h : addr = 0
  · simp only [if_pos h]
    rfl
  · simp only [if_neg h]
    rfl

/-- **`kmap`** adds the tables that are missing and maps the covered pages, or runs out of memory. -/
theorem kmap_spec {phys : Nat} (h : Tables m) (hpl : PlainOn R m) (hs : kmapAddr m addr size / 4096 = s)
    (hsize : size + 4095 < 2^64) (hn : (size + 4095) / 4096 = n) (hpos : 0 < n) (hspan : InSpan s n)
    (hR : ∀ v, InTablesOf s n v → R v) (hphys : phys < 2^64) (prot : Nat) :
    (∃ m₁ m₂, kmap m addr phys size prot = some (kmapAddr m addr size, reloadCr3 m₂) ∧
      TablesAdded R (kmapStart m addr phys size) m₁ ∧
      m₁.pmem.pagesFree + missing m s n = m.pmem.pagesFree ∧
      MappedAt m₁ s (covered s n) (X86_PAGE_PRESENT ||| pageProtFlags m prot) m₂) ∨
      (kmap m addr phys size prot = none ∧ m.pmem.pagesFree < missing m s n) := by
  have h' : Tables (kmapStart m addr phys size) := ⟨h.pmem, h.low, h.tree, h.used, h.root⟩
  have hphys' : (kmapStart m addr phys size).phys < 2^64 := by
    show phys - phys % PAGESIZE < 2^64
    omega
  rw [kmap_eq]
  rcases mapWalk_spec h' hpl hs hsize hn hpos hspan hR hphys' prot with
    ⟨m₁, m₂, e, g, hc, hm⟩ | ⟨e, hlt⟩
  · rw [e]
    exact .inl ⟨m₁, m₂, rfl, g, hc, hm⟩
  · rw [e]
    exact .inr ⟨rfl, hlt⟩

/-- **`kunmapanon`** unmaps the covered pages, which are mapped to different frames of the
allocator that are in use. -/
theorem kunmapanon_spec {frame : Nat → Nat} (h : Tables m) (hpl : PlainOn R m) (hs : addr / 4096 = s)
    (hsize : size + 4095 < 2^64) (hn : (size + 4095) / 4096 = n) (hpos : 0 < n) (hspan : InSpan s n)
    (hR : ∀ v, InTablesOf s n v → R v)
    (hleaf : ∀ j < covered s n, ∃ w, leaf m (s + j) = some w ∧ (w &&& MMASK_PHYS).toNat = frame j)
    (hown : ∀ j < covered s n, m.pmem.Owns (frame j) ∧ ¬ m.pmem.Free (frame j) ∧ ¬ m.IsTable (frame j))
    (hinj : ∀ i < covered s n, ∀ j < covered s n, frame i = frame j → i = j) :
    ∃ m', kunmapanon m addr size = some (reloadCr3 m') ∧ Unmapped m s (covered s n) frame m' := by
  have hle := covered_le hspan
  obtain ⟨w₀, hw₀, -⟩ := hleaf 0 (covered_pos hpos)
  obtain ⟨d, hd⟩ := node_of_leaf hw₀ (show 2 ≤ 3 by decide)
  unfold kunmapanon
  rw [forPages_span hs hsize hn hpos hspan, spanWalk_eq, upperWalk_low h hpl (hR s (inTablesOf_first hpos)) hd
    (fun m' k dir off len hk => lowVisit_upper _ m' dir off len hk), Option.bind_some]
  have hpass := leafPass_rule (lowVisit removePage) (fun j m' => Unmapped m s j frame m') False hpl
    hspan hR hd (fun x hx => ?_) (fun _ _ _ _ => rfl) (Unmapped.refl h s frame)
    (fun _ _ g => g.toOnlyLeaves) fun j m' t hj g ht => ?_
  · rcases hpass with ⟨m', e, g⟩ | ⟨-, hf⟩
    · exact ⟨m', by rw [e]; rfl, g⟩
    · exact hf.elim
  · obtain ⟨w, hw, -⟩ := hleaf x hx
    exact node_of_leaf hw (le_refl 3)
  · -- the page that is next still has its frame
    obtain ⟨w, hw, hf⟩ := hleaf j hj
    obtain ⟨ho, hnf, hnt⟩ := hown j hj
    have hw' : leaf m' (s + j) = some w := by
      rw [← hw]
      exact g.other _ _ length_stem_le fun i hi => isLeaf_ne (by omega) (by omega) (by omega)
    obtain ⟨t', ht', hmem, -⟩ := entry_eq_some.mp hw'
    rw [ht'] at ht
    obtain rfl := Option.some.inj ht
    rw [← hmem] at hf
    have hnf' : ¬ m'.pmem.Free (frame j) := by
      intro hq
      rcases (g.free _).mp hq with hq | ⟨i, hi, he⟩
      · exact hnf hq
      · have := hinj j hj i (by omega) he
        omega
    obtain ⟨m'', e, a⟩ := removePage_step g.tables ht' hf ((g.owns _).mpr ho) hnf'
      fun ht => hnt ((isTable_congr g.node _).mp ht)
    exact .inl ⟨m'', e, g.next a (by omega)⟩

/-- **`kmprotect`** changes the flags of the covered pages, which are mapped. -/
theorem kmprotect_spec (h : Tables m) (hpl : PlainOn R m) (hs : addr / 4096 = s)
    (hsize : size + 4095 < 2^64) (hn : (size + 4095) / 4096 = n) (hpos : 0 < n) (hspan : InSpan s n)
    (hR : ∀ v, InTablesOf s n v → R v) (prot : Nat)
    (hleaf : ∀ j < covered s n, (leaf m (s + j)).isSome) :
    ∃ m', kmprotect m addr size prot = some (reloadCr3 m') ∧
      Protected m s (covered s n) (fun w => w &&& ~~~(X86_PAGE_USER ||| X86_PAGE_WRITE ||| m.nxMask) |||
        pageProtFlags m prot) m' := by
  have hle := covered_le hspan
  obtain ⟨w₀, hw₀⟩ := Option.isSome_iff_exists.mp (hleaf 0 (covered_pos hpos))
  obtain ⟨d, hd⟩ := node_of_leaf hw₀ (show 2 ≤ 3 by decide)
  unfold kmprotect
  simp only
  rw [forPages_span hs hsize hn hpos hspan, spanWalk_eq, upperWalk_low h hpl (hR s (inTablesOf_first hpos)) hd
    (fun m' k dir off len hk => lowVisit_upper _ m' dir off len hk), Option.bind_some]
  have hpass := leafPass_rule (lowVisit (protectPage (~~~(X86_PAGE_USER ||| X86_PAGE_WRITE ||| m.nxMask))
      (pageProtFlags m prot))) (fun j m' => Protected m s j (fun w => w &&& ~~~(X86_PAGE_USER |||
        X86_PAGE_WRITE ||| m.nxMask) ||| pageProtFlags m prot) m') False hpl
    hspan hR hd (fun x hx => ?_) (fun _ _ _ _ => rfl) (Protected.refl h s _)
    (fun _ _ g => g.toOnlyLeaves) fun j m' t hj g ht => ?_
  · rcases hpass with ⟨m', e, g⟩ | ⟨-, hf⟩
    · exact ⟨m', by rw [e]; rfl, g⟩
    · exact hf.elim
  · obtain ⟨w, hw⟩ := Option.isSome_iff_exists.mp (hleaf x hx)
    exact node_of_leaf hw (le_refl 3)
  · obtain ⟨w, hw⟩ := Option.isSome_iff_exists.mp (hleaf j hj)
    have hw' : leaf m' (s + j) = some w := by
      rw [← hw]
      exact g.other _ _ length_stem_le fun i hi => isLeaf_ne (by omega) (by omega) (by omega)
    obtain ⟨t', ht', hmem, hpres⟩ := entry_eq_some.mp hw'
    rw [ht'] at ht
    obtain rfl := Option.some.inj ht
    obtain ⟨m'', e, a⟩ := protectPage_step g.tables ht' (~~~(X86_PAGE_USER ||| X86_PAGE_WRITE |||
      m.nxMask)) (pageProtFlags m prot)
    rw [hmem] at a
    refine .inl ⟨m'', e, g.next hw a (present_protect hpres _) (by omega)⟩

end

end FuseeOS
