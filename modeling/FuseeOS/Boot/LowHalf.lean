import FuseeOS.Boot.IdentityMap

/-!
# The low half in the bootloader

`valloc` and writes through the upper half leave the identity map alone, and with it all that lies below the
first page of `alloc_page_lo`: the code, the stack and the variables of the bootloader.

* `TreeKept`                   what a step does to the tables: those of the low half stay, and every other table
                               was there or was free;
* `tableAt_kept`, `mapSingle_kept`, `valloc_kept`   for the steps of `valloc`;
* `storeByte_low`              a byte of the low half;
* **`identity_kept`**          so after any calls of `valloc` the first four GiB are still found in place.
-/

namespace FuseeOS
open Bytes Radix BootMemRegion Outcome

/-- an entry that `map_single` writes behind `d` others -/
def LevelEntry (d : Nat) (w : BitVec 64) : Prop :=
  w = 0 ∨ ∃ n, n % 4096 = 0 ∧ n < 2^47 ∧ w = entryTo n (if d < 3 then 3 else 1)

/-- the tables of the low half stay, with their words; other nodes are old or were free -/
structure TreeKept (m m' : Loader) : Prop where
  cr3 : m'.cr3 = m.cr3
  words : ∀ q s j, q.length < 4 → m.nodeAt q = some s → ¬ InUpper (q ++ [j]) → m'.words s j = m.words s j
  nodes : ∀ p t, p.length ≤ 4 → m'.nodeAt p = some t → m.nodeAt p = some t ∨ m.Free t ∧ t < IDENTITY_END
  free : ∀ a, m'.Free a → m.Free a
  mem : ∀ a < ALLOC_PAGE_LO, m'.mem a = m.mem a
  entry : ∀ p t i, p.length < 4 → InUpper (p ++ [i]) → m'.nodeAt p = some t →
    m.nodeAt p = some t ∧ m'.words t i = m.words t i ∨ LevelEntry p.length (m'.words t i)
  entries : EntriesKept FREE_SCAN m.memFree m'.memFree

/-- The loader with its identity map: `LoaderInv`, the tables of the low half, every node between the first page of
`alloc_page_lo` and the end of the identity map, and in the upper half the entries of `map_single`. -/
structure LoaderOk (us : List BootMemRegion) (m : Loader) : Prop extends LoaderInv us m where
  low : LowMap m.words true m.cr3 ALLOC_PAGE_LO dirPage 4
  only : LowOnly m.words m.cr3 ALLOC_PAGE_LO 4 256
  inside : ∀ p t, p.length ≤ 4 → m.nodeAt p = some t → ALLOC_PAGE_LO ≤ t ∧ t < IDENTITY_END
  level : ∀ p t i, p.length < 4 → InUpper (p ++ [i]) → m.nodeAt p = some t → LevelEntry p.length (m.words t i)
  bases : BasesOk m.memFree

theorem TreeKept.refl (m : Loader) : TreeKept m m :=
  ⟨rfl, fun _ _ _ _ _ _ => rfl, fun _ _ _ e => .inl e, fun _ ha => ha, fun _ _ => rfl, fun _ _ _ _ _ e => .inl ⟨e, rfl⟩,
    EntriesKept.refl _ _⟩

/-- a prefix of a path of the low half -/
theorem not_inUpper_of_append {p q : List (Fin 512)} (h : ¬ InUpper (p ++ q)) : ¬ InUpper p :=
  fun hp => h (hp.append q)

section
variable {us : List BootMemRegion} {m m' m₁ : Loader} {t : Nat} {i : Fin 512}

theorem LoaderOk.above (h : LoaderOk us m) (p : List (Fin 512)) (t : Nat) (hp : p.length ≤ 4)
    (e : m.nodeAt p = some t) : ALLOC_PAGE_LO ≤ t :=
  (h.inside p t hp e).1

theorem LoaderOk.rootLow (h : LoaderOk us m) : m.cr3 < 2^47 :=
  Nat.lt_trans (h.inside [] m.cr3 (by decide) rfl).2 (by decide)

/-- the nodes of the low half stay -/
theorem TreeKept.nodeAt_low (g : TreeKept m m') (p : List (Fin 512)) (hp : p.length ≤ 4) (hlow : ¬ InUpper p) :
    m'.nodeAt p = m.nodeAt p := by
  induction p using List.reverseRecOn with
  | nil => exact congrArg some g.cr3
  | append_singleton q i ih =>
    rw [List.length_append, List.length_singleton] at hp
    have hq := ih (by omega) (not_inUpper_of_append hlow)
    unfold Loader.nodeAt at hq ⊢
    rw [nodeAt_concat, nodeAt_concat, hq]
    refine Option.bind_congr fun s e => ?_
    have hw := g.words q s i (by omega) e hlow
    rw [hw]

theorem TreeKept.trans (g : TreeKept m m₁) (g' : TreeKept m₁ m') : TreeKept m m' where
  cr3 := g'.cr3.trans g.cr3
  words q s j hq e hlow := by
    have e₁ : m₁.nodeAt q = some s :=
      (g.nodeAt_low q (Nat.le_of_lt hq) (not_inUpper_of_append hlow)).trans e
    rw [g'.words q s j hq e₁ hlow, g.words q s j hq e hlow]
  nodes p t hp e := by
    rcases g'.nodes p t hp e with h | ⟨h, hlow⟩
    · exact g.nodes p t hp h
    · exact .inr ⟨g.free t h, hlow⟩
  free a ha := g.free a (g'.free a ha)
  mem a ha := (g'.mem a ha).trans (g.mem a ha)
  entry p t i hp hup e := by
    rcases g'.entry p t i hp hup e with ⟨e₁, hw₁⟩ | hlevel
    · rw [hw₁]
      exact g.entry p t i hp hup e₁
    · exact .inr hlevel
  entries := g.entries.trans g'.entries

/-- free memory lies above the low pages -/
theorem FreePages.low {memFree : List BootMemRegion} (h : FreePages us memFree) {a : Nat}
    (ha : ∃ f ∈ memFree, f.Has a) : LOMEM_END ≤ a := by
  obtain ⟨f, hf, hfa⟩ := ha
  have hbase := (h.tail f hf fun hz => by
    unfold BootMemRegion.Has at hfa
    omega).low
  exact Nat.le_trans hbase hfa.1

/-- the words of the identity map are words of the low half -/
theorem LoaderOk.kept (h : LoaderOk us m) (g : TreeKept m m') (hinv : LoaderInv us m') : LoaderOk us m' := by
  have hlo : ALLOC_PAGE_LO % 4096 = 0 ∧ ALLOC_PAGE_LO < 2^47 := by decide
  have htop : next (m.words m.cr3 0) = some ALLOC_PAGE_LO := by
    rw [h.low.top]
    exact next_entryTo hlo.1 hlo.2
  have hpdp : m.nodeAt [0] = some ALLOC_PAGE_LO := nodeAt_step (p := []) rfl htop
  have hpd {i : Fin 512} (hi : i.val < 4) : m.nodeAt [0, i] = some (dirPage i) := by
    refine nodeAt_step (p := [0]) hpdp ?_
    rw [h.low.dir i hi]
    exact next_entryTo (h.low.dirs i hi).1 (h.low.dirs i hi).2
  have hup {i : Fin 512} (hi : i.val < 256) {q : List (Fin 512)} : ¬ InUpper (i :: q) := by
    rintro ⟨a, ha, hge⟩
    rw [← Option.some.inj ha] at hge
    exact absurd hge (Nat.not_le_of_lt hi)
  have hzero : (0 : Fin 512).val < 256 := by decide
  refine ⟨hinv, ⟨h.low.aligned, h.low.dirs, ?_, fun i hi => ?_, fun i hi j => ?_⟩,
    ⟨fun i hi hlt => ?_, fun i hi => ?_⟩, fun p t hp e => ?_, fun p t i hp hup e => ?_,
    g.entries.bases h.bases⟩
  · rw [g.cr3, g.words [] m.cr3 0 (by decide) rfl (hup hzero)]
    exact h.low.top
  · rw [g.words [0] _ i (by decide) hpdp (hup hzero)]
    exact h.low.dir i hi
  · rw [g.words [0, i] _ j (by simp) (hpd hi) (hup hzero)]
    exact h.low.page i hi j
  · rw [g.cr3, g.words [] m.cr3 i (by decide) rfl (hup hlt)]
    exact h.only.top i hi hlt
  · rw [g.words [0] _ i (by decide) hpdp (hup hzero)]
    exact h.only.dir i hi
  · rcases g.nodes p t hp e with hnode | ⟨hfree, hlow⟩
    · exact h.inside p t hp hnode
    · exact ⟨Nat.le_trans (by decide) (h.free.low hfree), hlow⟩
  · rcases g.entry p t i hp hup e with ⟨e₁, hw⟩ | hlevel
    · rw [hw]
      exact h.level p t i hp hup e₁
    · exact hlevel

/-- a page is cleared and one word is made to point to it: every other node is an old one -/
theorem LoaderInv.write_nodes (h : LoaderInv us m) {n : Nat} (g : Got m n m₁) {q : List (Fin 512)}
    (hq : q.length < 4) (ht : m.nodeAt q = some t) {w : BitVec 64} (hw : next w = some n) (p : List (Fin 512))
    (hp : p.length ≤ 4) {s : Nat} (e : (m₁.setWord t i w).nodeAt p = some s) : m.nodeAt p = some s ∨ s = n := by
  have hal := nodeAt_aligned h.root ht
  have htn := h.ne_of_got g (Nat.le_of_lt hq) ht
  induction p using List.reverseRecOn generalizing s with
  | nil => exact .inl (by rw [← e]; exact congrArg some g.cr3.symm)
  | append_singleton p j ih =>
    rw [List.length_append, List.length_singleton] at hp
    obtain ⟨u, hu, hs⟩ := nodeAt_concat_some e
    rw [got_setWord_words g hal] at hs
    rcases ih (by omega) hu with hold | rfl
    · by_cases hut : u = t ∧ j = i
      · rw [hut.1, hut.2, setWord_same, hw] at hs
        exact .inr (Option.some.inj hs).symm
      · rw [setWord_of_ne _ _ hut, Function.update_of_ne (h.ne_of_got g (by omega) hold)] at hs
        exact .inl (nodeAt_step hold hs)
    · rw [setWord_node_ne _ _ _ htn.symm, Function.update_self, next_zero] at hs
      cases hs

/-- a step that takes a page and makes one word of the upper half point to it -/
theorem LoaderOk.write_kept (h : LoaderOk us m) {n : Nat} (g : Got m n m₁) {q : List (Fin 512)} (hq : q.length < 4)
    (hup : InUpper (q ++ [i])) (ht : m.nodeAt q = some t) {w : BitVec 64} (hw : next w = some n)
    (hlevel : LevelEntry q.length w) (hentries : EntriesKept FREE_SCAN m.memFree m₁.memFree) :
    TreeKept m (m₁.setWord t i w) := by
  have hal := nodeAt_aligned h.root ht
  have hlo : ALLOC_PAGE_LO = 0x100000 := rfl
  have hhi : LOMEM_END = 0x1000000 := rfl
  refine ⟨g.cr3, fun p s j hp e hlow => ?_, fun p s hp e => ?_, fun a ha => (g.taken a ha).1, fun a ha => ?_,
    fun p s j hp _ e => ?_, hentries⟩
  · rw [got_setWord_words g hal, setWord_of_ne _ _ fun hst => ?_, Function.update_of_ne ?_]
    · exact h.toLoaderInv.ne_of_got g (Nat.le_of_lt hp) e
    · -- the word is one of the upper half
      obtain ⟨rfl, rfl⟩ := hst
      rw [h.tree p q s (by omega) (by omega) e ht] at hlow
      exact hlow hup
  · rcases h.toLoaderInv.write_nodes g hq ht hw p hp e with hold | rfl
    · exact .inl hold
    · have hlow := g.low
      exact .inr ⟨g.free, by omega⟩
  · have hn := h.free.low g.free
    have ht' := h.above q t (Nat.le_of_lt hq) ht
    rw [setWord_mem hal i w (by omega), g.mem_other (by omega)]
  · have htn := h.toLoaderInv.ne_of_got g (Nat.le_of_lt hq) ht
    rw [got_setWord_words g hal]
    rcases h.toLoaderInv.write_nodes g hq ht hw p (Nat.le_of_lt hp) e with hold | rfl
    · by_cases hst : s = t ∧ j = i
      · obtain ⟨rfl, rfl⟩ := hst
        rw [h.tree p q s (by omega) (by omega) hold ht, setWord_same]
        exact .inr hlevel
      · rw [setWord_of_ne _ _ hst, Function.update_of_ne (h.toLoaderInv.ne_of_got g (Nat.le_of_lt hp) hold)]
        exact .inl ⟨hold, rfl⟩
    · rw [setWord_node_ne _ _ _ htn.symm, Function.update_self]
      exact .inr (.inl rfl)

theorem Got.lt {n : Nat} (g : Got m n m') : n < 2^47 := by
  have hlow := g.low
  unfold IDENTITY_END at hlow
  omega

/-- the entries that `map_single` writes -/
theorem Got.entry {n : Nat} (g : Got m n m') {flags : BitVec 64} (hf : flags = 3 ∨ flags = 1) :
    next (BitVec.ofNat 64 n ||| flags) = some n := by
  have hlt := g.lt
  rcases hf with rfl | rfl
  · obtain ⟨hw, hframe⟩ := @loaderEntry _ g.page hlt 3 rfl rfl (by decide)
    exact hw.next.trans (congrArg some hframe)
  · obtain ⟨hw, hframe⟩ := @loaderEntry _ g.page hlt 1 rfl rfl (by decide)
    exact hw.next.trans (congrArg some hframe)

theorem allocPageHi_entries {x : Nat × Loader} (h : m.allocPageHi = .ok x) :
    EntriesKept FREE_SCAN m.memFree x.2.memFree := by
  unfold Loader.allocPageHi FuseeOS.allocPageHi at h
  cases htake : takeHi FREE_SCAN m.memFree with
  | none =>
    rw [htake] at h
    cases h
  | some y =>
    obtain ⟨p, memFree⟩ := y
    rw [htake] at h
    dsimp only [Option.getD_some] at h
    split_ifs at h
    cases h
    exact takeHi_kept htake

/-- a page is handed out -/
theorem allocPageHi_kept (h : LoaderOk us m) :
    Ends (fun _ => True) (fun x => Got m x.1 x.2 ∧ EntriesKept FREE_SCAN m.memFree x.2.memFree) m.allocPageHi := by
  cases e : m.allocPageHi with
  | error s => exact Ends.of_error trivial
  | ok x => exact Ends.of_ok ⟨((allocPageHi_spec h.free).ok x e).1, allocPageHi_entries e⟩

/-- a step of `valloc` for which the loader stays right -/
abbrev LoaderKeeps (us : List BootMemRegion) (m m' : Loader) : Prop := LoaderOk us m' ∧ TreeKept m m'

theorem LoaderKeeps.trans (g : LoaderKeeps us m m₁) (g' : LoaderKeeps us m₁ m') : LoaderKeeps us m m' :=
  ⟨g'.1, g.2.trans g'.2⟩

/-- **One level of `map_single`.** -/
theorem tableAt_kept {p : List (Fin 512)} (h : LoaderOk us m) (hp : p.length < 3) (hup : InUpper (p ++ [i]))
    (ht : m.nodeAt p = some t) :
    Ends (Short m 1) (fun x => LoaderKeeps us m x.2 ∧ TablesGrown us 1 m x.2 ∧ x.2.nodeAt (p ++ [i]) = some x.1)
      (m.tableAt t i) := by
  have hkept : Ends (fun _ => True) (fun x : Nat × Loader => TreeKept m x.2) (m.tableAt t i) := by
    unfold Loader.tableAt
    by_cases h0 : m.words t i = 0
    · rw [if_pos h0]
      refine (allocPageHi_kept h).bind ?_
      rintro ⟨page, m₁⟩ ⟨g, hentries⟩
      exact Ends.of_ok (h.write_kept g (by omega) hup ht (g.entry (.inl rfl))
        (.inr ⟨page, g.page, g.lt, by rw [if_pos hp]; rfl⟩) hentries)
    · rw [if_neg h0]
      exact Ends.of_ok (TreeKept.refl m)
  refine ((tableAt_spec h.toLoaderInv hp hup ht).and hkept).mono (fun s hs => hs.1) fun x hx => ?_
  exact ⟨⟨h.kept hx.2 hx.1.1.inv, hx.2⟩, hx.1⟩

/-- **`map_single`.** -/
theorem mapSingle_kept {va : Nat} (h : LoaderOk us m) (hva : upperHalf va) :
    Ends (fun _ => True) (TreeKept m) (m.mapSingle va) := by
  have hup : InUpper [pageIndex (va / 4096) 3] := ⟨_, rfl, hva.index⟩
  have hshift : va >>> 12 = va / 4096 := Nat.shiftRight_eq_div_pow va 12
  unfold Loader.mapSingle decomposeAddr
  rw [hshift]
  refine ((tableAt_kept (p := []) h (show 0 < 3 by decide) hup rfl).mono (fun _ _ => trivial) fun _ hx => hx).bind ?_
  rintro ⟨t₁, m₁⟩ ⟨k₁, -, n₁⟩
  refine ((tableAt_kept (p := [pageIndex (va / 4096) 3]) k₁.1 (show 1 < 3 by decide) (hup.append _) n₁).mono
    (fun _ _ => trivial) fun _ hx => hx).bind ?_
  rintro ⟨t₂, m₂⟩ ⟨k₂, -, n₂⟩
  refine ((tableAt_kept (p := [pageIndex (va / 4096) 3, pageIndex (va / 4096) 2]) k₂.1 (show 2 < 3 by decide)
    ((hup.append _).append _) n₂).mono (fun _ _ => trivial) fun _ hx => hx).bind ?_
  rintro ⟨t₃, m₃⟩ ⟨k₃, -, n₃⟩
  refine (allocPageHi_kept k₃.1).bind ?_
  rintro ⟨f, m₄⟩ ⟨g, hentries⟩
  exact Ends.of_ok (((k₁.trans k₂).trans k₃).2.trans
    (k₃.1.write_kept (q := [pageIndex (va / 4096) 3, pageIndex (va / 4096) 2, pageIndex (va / 4096) 1]) g
      (show 3 < 4 by decide) (hup.append [pageIndex (va / 4096) 2, pageIndex (va / 4096) 1, pageIndex (va / 4096) 0])
      n₃ (g.entry (.inr rfl)) (.inr ⟨f, g.page, g.lt, rfl⟩) hentries))

/-- the loop of `valloc` -/
theorem mapPages_kept {vaddr i n : Nat} (h : LoaderOk us m) (hlow : 2^64 - 2^47 ≤ vaddr)
    (hal : vaddr % 4096 = 0) (hend : vaddr / 4096 + (i + n) ≤ 2^52) (hint : i + n ≤ 2^19) :
    Ends (fun _ => True) (TreeKept m) (m.mapPages vaddr i n) := by
  induction n generalizing m i with
  | zero => exact Ends.of_ok (TreeKept.refl m)
  | succ n ih =>
    have hva : upperHalf (vaddr + i * 4096) := ⟨by omega, by omega⟩
    rw [Loader.mapPages, mapRound_eq (by omega) (by omega)]
    refine (((mapSingle_spec h.toLoaderInv hva).and (mapSingle_kept h hva)).mono (fun _ _ => trivial)
      fun _ hx => hx).bind ?_
    rintro m₁ ⟨⟨f, x⟩, g⟩
    exact (ih (h.kept g x.inv) (by omega) (by omega)).mono (fun _ _ => trivial) fun m' g' => g.trans g'

/-- **`valloc` leaves the low half alone.** -/
theorem valloc_kept {addr size : Nat} (h : LoaderOk us m) (hr : VallocRange addr size) :
    Ends (Short m (4 * spanPages addr size))
      (fun m' => Valloced us (addr / 4096) (spanPages addr size) m m' ∧ LoaderKeeps us m m') (m.valloc addr size) := by
  have hkept : Ends (fun _ => True) (TreeKept m) (m.valloc addr size) := by
    obtain ⟨hlow, hupto, hinside, hint⟩ := hr
    have hsum : (size + addr % PAGESIZE) % 2^64 = addr % 4096 + size := by
      unfold PAGESIZE
      omega
    have hn : ((addr % 4096 + size + PAGESIZE - 1) % 2^64) >>> 12 = spanPages addr size := by
      unfold PAGESIZE spanPages
      rw [Nat.shiftRight_eq_div_pow]
      omega
    have hpages : addr / PAGESIZE * PAGESIZE / 4096 = addr / 4096 := by
      unfold PAGESIZE
      omega
    unfold Loader.valloc
    dsimp only
    rw [hsum, hn, CInt.toInt_of_lt (by unfold spanPages; omega), Int.toNat_natCast]
    refine mapPages_kept h ?_ (Nat.mul_mod_left _ _) ?_ ?_
    · unfold PAGESIZE
      omega
    · rw [hpages]
      unfold spanPages
      omega
    · unfold spanPages
      omega
  refine ((valloc_spec h.toLoaderInv hr).and hkept).mono (fun s hs => hs.1) fun m' g => ?_
  exact ⟨g.1, h.kept g.2 g.1.inv, g.2⟩

/-! ## addresses of the low half -/

theorem LoaderOk.addr_low (h : LoaderOk us m) {a : Nat} (ha : a < IDENTITY_END) : m.addr a = some a := by
  unfold Loader.addr
  rw [h.low.translate (by decide) ha, Option.map_some]

theorem LoaderOk.load_low (h : LoaderOk us m) {a : Nat} (ha : a < IDENTITY_END) : m.load a = some (m.mem a) := by
  unfold Loader.load
  rw [h.addr_low ha, Option.map_some]

/-- a byte was written below the tables -/
structure LowWritten (m : Loader) (a : Nat) (b : UInt8) (m' : Loader) : Prop where
  mem : m'.mem = Function.update m.mem a b
  cr3 : m'.cr3 = m.cr3
  memFree : m'.memFree = m.memFree
  initram : m'.initram = m.initram

variable {a : Nat} {b : UInt8}

theorem LowWritten.words (w : LowWritten m a b m') (ha : a < ALLOC_PAGE_LO) {s : Nat} (hs : ALLOC_PAGE_LO ≤ s) :
    m'.words s = m.words s := by
  funext j
  unfold Loader.words
  rw [w.mem]
  by_cases hs0 : s % 4096 = 0
  · rw [if_pos hs0, if_pos hs0, readLe_congr fun k _ => Function.update_of_ne (by omega) b m.mem]
  · rw [if_neg hs0, if_neg hs0]

theorem LowWritten.nodeAt (w : LowWritten m a b m') (h : LoaderOk us m) (ha : a < ALLOC_PAGE_LO)
    {p : List (Fin 512)} (hp : p.length ≤ 4) : m'.nodeAt p = m.nodeAt p := by
  unfold Loader.nodeAt
  rw [w.cr3]
  refine nodeAt_congr (fun q s j hq e => ?_) p hp
  rw [w.words ha (h.above q s (Nat.le_of_lt hq) e)]

theorem LowWritten.ok (w : LowWritten m a b m') (h : LoaderOk us m) (ha : a < ALLOC_PAGE_LO) : LoaderOk us m' := by
  have hnode {p : List (Fin 512)} (hp : p.length ≤ 4) := w.nodeAt h ha hp
  have hwords {p : List (Fin 512)} {s : Nat} (hp : p.length ≤ 4) (e : m.nodeAt p = some s) :=
    w.words ha (h.above p s hp e)
  have hlow : ALLOC_PAGE_LO ≤ m.cr3 := h.above [] m.cr3 (by decide) rfl
  refine ⟨⟨?_, ?_, fun p q s hp hq ep eq => ?_, fun p s hp e hs => ?_, fun p s j hp hup e => ?_⟩, ⟨h.low.aligned,
    h.low.dirs, ?_, fun i hi => ?_, fun i hi j => ?_⟩, ⟨fun i hi hlt => ?_, fun i hi => ?_⟩,
    fun p s hp e => h.inside p s hp ((hnode hp).symm.trans e), fun p s j hp hup e => ?_, w.memFree ▸ h.bases⟩
  · rw [w.memFree]
    exact h.free
  · rw [w.cr3]
    exact h.root
  · exact h.tree p q s hp hq ((hnode hp).symm.trans ep) ((hnode hq).symm.trans eq)
  · unfold Loader.Free at hs
    rw [w.memFree] at hs
    exact h.used p s hp ((hnode hp).symm.trans e) hs
  · rw [hnode (Nat.le_of_lt hp)] at e
    rw [hwords (Nat.le_of_lt hp) e]
    exact h.entries p s j hp hup e
  · rw [w.cr3, w.words ha hlow]
    exact h.low.top
  · rw [w.words ha (Nat.le_refl _)]
    exact h.low.dir i hi
  · rw [w.words ha (by unfold dirPage; omega)]
    exact h.low.page i hi j
  · rw [w.cr3, w.words ha hlow]
    exact h.only.top i hi hlt
  · rw [w.words ha (Nat.le_refl _)]
    exact h.only.dir i hi
  · rw [hnode (Nat.le_of_lt hp)] at e
    rw [hwords (Nat.le_of_lt hp) e]
    exact h.level p s j hp hup e

/-- **A byte is written to an address of the low half.** -/
theorem storeByte_low (h : LoaderOk us m) (ha : a < ALLOC_PAGE_LO) (b : UInt8) :
    ∃ m', m.storeByte a b = some m' ∧ LoaderOk us m' ∧ LowWritten m a b m' ∧
      ∀ va, upperHalf va → m'.load va = m.load va := by
  have hlo : ALLOC_PAGE_LO = 0x100000 := rfl
  have hid : IDENTITY_END = 0x100000000 := rfl
  have hw : LowWritten m a b { m with mem := Function.update m.mem a b } := ⟨rfl, rfl, rfl, rfl⟩
  refine ⟨_, ?_, hw.ok h ha, hw, fun va hva => ?_⟩
  · rw [Loader.storeByte, h.addr_low (by omega), Option.map_some]
  · rw [(hw.ok h ha).toLoaderInv.load hva, h.toLoaderInv.load hva, Loader.page,
      hw.nodeAt h ha (Nat.le_of_eq (length_path _))]
    cases e : m.nodeAt (path (va / 4096)) with
    | none =>
      rw [Loader.page, e]
      rfl
    | some f =>
      have hf := h.above _ f (Nat.le_of_eq (length_path _)) e
      rw [Loader.page, e, Option.map_some, Option.map_some]
      exact congrArg some (Function.update_of_ne (by omega) b m.mem)

/-- **A byte is written to a mapped address of the upper half.** -/
theorem storeByte_upper (h : LoaderOk us m) {va : Nat} (hva : upperHalf va) (hmap : (m.load va).isSome) (b : UInt8) :
    ∃ m', m.storeByte va b = some m' ∧ LoaderKeeps us m m' ∧
      Shown us (fun a => if a = va then some b else m.load a) m m' := by
  obtain ⟨m', hrun, hshown⟩ := storeByte_spec h.toLoaderInv hva hmap b
  obtain ⟨f, hf⟩ : ∃ f, m.page (va / 4096) = some f := by
    rw [h.toLoaderInv.load hva, Option.isSome_map] at hmap
    exact Option.isSome_iff_exists.mp hmap
  have hal := nodeAt_aligned h.root hf
  have hm' : m' = { m with mem := Function.update m.mem (f + va % 4096) b } := by
    rw [Loader.storeByte, h.toLoaderInv.addr hva, hf, Option.map_some, Option.map_some] at hrun
    exact (Option.some.inj hrun).symm
  have hw : DataWritten m f m' := by
    rw [hm']
    refine ⟨fun a ha => Function.update_of_ne ?_ _ _, rfl, rfl⟩
    omega
  have hkept : TreeKept m m' := by
    refine ⟨hw.cr3, fun q s j hq e _ => ?_, fun p s hp e => .inl ((hw.nodeAt h.toLoaderInv hf hp).symm.trans e),
      fun a ha => ?_, fun a ha => hw.mem a ?_, fun q s j hq _ e => ?_,
      hw.memFree ▸ EntriesKept.refl _ _⟩
    · have hsf : s ≠ f := fun hsf => h.tree.not_inner (length_path _) hf hq (hsf ▸ e)
      rw [hw.words hsf]
    · unfold Loader.Free at ha ⊢
      rwa [hw.memFree] at ha
    · have habove := h.above _ f (Nat.le_of_eq (length_path _)) hf
      omega
    · have hold := (hw.nodeAt h.toLoaderInv hf (Nat.le_of_lt hq)).symm.trans e
      have hsf : s ≠ f := fun hsf => h.tree.not_inner (length_path _) hf hq (hsf ▸ hold)
      rw [hw.words hsf]
      exact .inl ⟨hold, rfl⟩
  exact ⟨m', hrun, ⟨h.kept hkept hshown.inv, hkept⟩, hshown⟩

end

/-! ## from the identity map on -/

section
variable {us : List BootMemRegion} {e e' : EarlyLoader} {m m' : Loader} {boot : Nat}

/-- behind `memory_identity_map` -/
theorem IdentityMapped.ok (h : IdentityMapped us e e') : LoaderOk us e'.toLoader := by
  obtain ⟨hmap, honly⟩ := h.built.lowMap
  have hroot := h.root
  have hlo : ALLOC_PAGE_LO = 0x100000 := rfl
  have hhi : LOMEM_END = 0x1000000 := rfl
  refine ⟨h.inv, hmap, ⟨fun i hi _ => honly.top i hi i.isLt, honly.dir⟩, fun p t _ hp => ?_, fun p t i _ hup hp => ?_,
    h.bases⟩
  · have hbelow := h.below
    have hend : IDENTITY_END = 0x100000000 := rfl
    rcases h.built.nodes hp with ⟨-, rfl⟩ | ⟨-, rfl⟩ | ⟨i, hi, -, rfl⟩
    · exact ⟨by omega, by omega⟩
    · exact ⟨Nat.le_refl _, by omega⟩
    · unfold dirPage
      exact ⟨by omega, by omega⟩
  · obtain ⟨a, ha, hupper⟩ := hup
    rcases h.built.nodes hp with ⟨rfl, rfl⟩ | ⟨rfl, -⟩ | ⟨j, -, rfl, -⟩
    · obtain rfl : i = a := Option.some.inj ha
      refine .inl (honly.top i (fun hi => ?_) i.isLt)
      rw [hi] at hupper
      exact absurd hupper (by decide)
    · obtain rfl : 0 = a := Option.some.inj ha
      exact absurd hupper (by decide)
    · obtain rfl : 0 = a := Option.some.inj ha
      exact absurd hupper (by decide)

/-- no page of the upper half is mapped yet -/
theorem IdentityMapped.start (h : IdentityMapped us e e') : VallocInv us e'.toLoader [] e'.toLoader where
  inv := h.inv
  mapped v _ := by
    have hnone : e'.toLoader.page v = none := by
      cases hp : e'.toLoader.page v with
      | none => rfl
      | some f =>
        have hlen := length_path v
        rcases h.built.nodes hp with ⟨e₁, -⟩ | ⟨e₁, -⟩ | ⟨i, -, e₁, -⟩
        all_goals
          rw [e₁] at hlen
          cases hlen
    rw [hnone]
    exact iff_of_false Bool.false_ne_true fun ⟨c, hc, _⟩ => List.not_mem_nil hc
  handed v f hv hp := by
    have hlen := length_path v
    rcases h.built.nodes hp with ⟨e₁, -⟩ | ⟨e₁, -⟩ | ⟨i, -, e₁, -⟩
    all_goals
      rw [e₁] at hlen
      cases hlen
  free _ ha := ha

/-- the loader after any calls of `valloc` -/
structure LoaderRun (us : List BootMemRegion) (m₀ : Loader) (calls : List VallocCall) (m : Loader) : Prop where
  calls : VallocInv us m₀ calls m
  keeps : LoaderKeeps us m₀ m

theorem vallocs_kept (calls : List VallocCall) (hc : ∀ c ∈ calls, c.Legal) (h : LoaderOk us m)
    (h₀ : VallocInv us m [] m) : Ends (fun _ => True) (LoaderRun us m calls) (m.vallocs calls) := by
  refine Ends.foldlM (I := LoaderRun us m) calls (fun c hmem done m₁ h₁ => ?_) ⟨h₀, h, TreeKept.refl m⟩
  have hlegal := hc c hmem
  refine (valloc_kept h₁.keeps.1 hlegal.range).mono (fun _ _ => trivial) fun m₂ h₂ => ?_
  exact ⟨h₁.calls.step hlegal h₂.1, h₁.keeps.trans h₂.2⟩

/-- what holds of the loader in a run -/
structure IdentityKept (e : EarlyLoader) (calls : List VallocCall) (m : Loader) : Prop where
  /-- the first 4 GiB are found in place, for reading and writing -/
  low : ∀ va < IDENTITY_END, translate m.words m.cr3 va = some ⟨va, true, false, false⟩
  /-- the rest of the low half is not mapped -/
  rest : ∀ va, IDENTITY_END ≤ va → va < 2^47 → translate m.words m.cr3 va = none
  /-- and of the upper half what the calls meet -/
  upper : ∀ va, upperHalf va → ((m.addr va).isSome ↔ ∃ c ∈ calls, c.Meets (va / 4096))
  /-- below the first page of `alloc_page_lo` nothing is written -/
  mem : ∀ a < ALLOC_PAGE_LO, m.mem a = e.mem a

/-- **After `memory_identity_map` and any calls of `valloc` the identity map is what it was.** -/
theorem identity_kept (h : EarlyStart us boot e) (hrun : e.memoryIdentityMap = .ok e') (calls : List VallocCall)
    (hc : ∀ c ∈ calls, c.Legal) (hm : e'.toLoader.vallocs calls = .ok m) : IdentityKept e calls m := by
  have hid := h.mapped hrun
  have hroot := hid.root
  have hlo : ALLOC_PAGE_LO = 0x100000 := rfl
  have hhi : LOMEM_END = 0x1000000 := rfl
  obtain ⟨hcalls, hok, hkept⟩ := (vallocs_kept calls hc hid.ok hid.start).ok m hm
  refine ⟨fun va hva => hok.low.translate (by decide) hva, fun va hva hlt => ?_, fun va hva => ?_, fun a ha => ?_⟩
  · exact hok.low.translate_none hok.only hva (by omega) (by omega)
  · rw [hok.toLoaderInv.addr hva, Option.isSome_map]
    exact hcalls.mapped _ hva.page
  · rw [hkept.mem a ha]
    exact hid.others a (.inl ha) (by omega)

end

/-- a range across two pages -/
theorem identity_kept_two : ∃ e' m, lowStart.memoryIdentityMap = .ok e' ∧ e'.toLoader.vallocs [acrossPages] = .ok m ∧
    IdentityKept lowStart [acrossPages] m := by
  obtain ⟨-, e', hrun, hid⟩ | ⟨hno, -⟩ := memoryIdentityMap_cases lowStart_early
  swap
  · exact absurd lowStart_first hno
  have hroom := hid.room
  have hstart : lowStart.room = 4096 := by decide
  obtain ⟨m, hm, -⟩ := (valloc_spec hid.inv acrossPages_legal.range).result fun s hs _ => by
    have hshort := hs.2
    have hpages : spanPages acrossPages.addr acrossPages.size = 2 := by decide
    omega
  have hcalls : e'.toLoader.vallocs [acrossPages] = .ok m := (vallocs_one ..).trans hm
  refine ⟨e', m, hrun, hcalls, identity_kept lowStart_early hrun [acrossPages] (fun c hc => ?_) hcalls⟩
  obtain rfl := List.mem_singleton.mp hc
  exact acrossPages_legal

end FuseeOS
