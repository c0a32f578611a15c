import FuseeOS.Boot.Valloc

/-!
# The upper half in the bootloader

What the processor finds behind an address of the upper half, before and after `valloc` and `memcpy`.

* `LoaderInv.addr`, `LoaderInv.load`   the walk of the processor ends at the page that shows;
* `Valloced.load`                      `valloc` clears the pages it touches;
* `memcpy_spec`                        `memcpy` stores what it reads.
-/

namespace FuseeOS
open Bytes Radix BootMemRegion Outcome

/-! ## the code -/

/-- the physical address behind a virtual one -/
def Loader.addr (m : Loader) (va : Nat) : Option Nat :=
  (translate m.words m.cr3 va).map Translation.addr

def Loader.load (m : Loader) (va : Nat) : Option UInt8 := (m.addr va).map m.mem

/-- CR0.WP is clear in the bootloader, so that a page need not be writable -/
def Loader.storeByte (m : Loader) (va : Nat) (b : UInt8) : Option Loader :=
  (m.addr va).map fun p => { m with mem := Function.update m.mem p b }

def Loader.memcpy (m : Loader) (dst src : Nat) : Nat → Except LoadStop Loader
  | 0 => .ok m
  | n + 1 => ((m.load src).bind fun b => m.storeByte dst b).elim (.error .fault) fun m =>
    m.memcpy (dst + 1) (src + 1) n

/-! ## the walk of the processor -/

/-- the last `k + 1` indices of page `v` -/
def pathFrom (v : Nat) : Nat → List (Fin 512)
  | 0 => [pageIndex v 0]
  | k + 1 => pageIndex v (k + 1) :: pathFrom v k

theorem upperHalf.inUpper {va : Nat} (h : upperHalf va) {k : Nat} (hk : k ≤ 3) :
    InUpper (stem (va / 4096) (3 - k) ++ [pageIndex (va / 4096) k]) := by
  match k, hk with
  | 0, _ => exact ⟨_, rfl, h.index⟩
  | 1, _ => exact ⟨_, rfl, h.index⟩
  | 2, _ => exact ⟨_, rfl, h.index⟩
  | 3, _ => exact ⟨_, rfl, h.index⟩

section
variable {us : List BootMemRegion} {m m' : Loader} {va t : Nat}

/-- the walk of the processor, by induction on the levels that are left -/
theorem LoaderInv.walk (h : LoaderInv us m) (hva : upperHalf va) (k : Nat) (hk : k ≤ 3) {perm : Translation}
    (ht : m.nodeAt (stem (va / 4096) (3 - k)) = some t) :
    (translateFrom m.words va k t perm).map Translation.addr =
      (Radix.nodeAt next m.words t (pathFrom (va / 4096) k)).map (· + va % 4096) := by
  have hlen : (stem (va / 4096) (3 - k)).length < 4 := Nat.lt_succ_of_le length_stem_le
  have hw := h.entries _ t _ hlen (hva.inUpper hk) ht
  induction k generalizing t perm with
  | zero =>
    unfold translateFrom pathFrom Radix.nodeAt
    rcases hw with hw | hw
    · rw [hw]
      rfl
    · simp only [hw.present, if_true, hw.next]
      rfl
  | succ k ih =>
    unfold pathFrom Radix.nodeAt
    rcases hw with hw | hw
    · unfold translateFrom
      rw [hw]
      rfl
    · have hnode : m.nodeAt (stem (va / 4096) (3 - k)) =
          some (frameOf (m.words t (pageIndex (va / 4096) (k + 1)))) := by
        have hs := stem_succ (va / 4096) (show 3 - (k + 1) < 3 by omega)
        rw [show 3 - (k + 1) + 1 = 3 - k by omega, show 3 - (3 - (k + 1)) = k + 1 by omega] at hs
        rw [hs]
        exact nodeAt_step ht hw.next
      have hlen' : (stem (va / 4096) (3 - k)).length < 4 := Nat.lt_succ_of_le length_stem_le
      rw [translateFrom_table hw.present hw.small, hw.next, Option.bind_some]
      exact ih (by omega) hnode hlen' (h.entries _ _ _ hlen' (hva.inUpper (by omega)) hnode)

theorem LoaderInv.addr (h : LoaderInv us m) (hva : upperHalf va) :
    m.addr va = (m.page (va / 4096)).map (· + va % 4096) := by
  unfold Loader.addr translate
  rw [if_pos hva.canonical]
  exact h.walk hva 3 (Nat.le_refl 3) rfl

theorem LoaderInv.load (h : LoaderInv us m) (hva : upperHalf va) :
    m.load va = (m.page (va / 4096)).map fun f => m.mem (f + va % 4096) := by
  unfold Loader.load
  rw [h.addr hva, Option.map_map]
  rfl

/-- `valloc` clears the pages it touches and leaves the others alone -/
theorem Valloced.load {lo n : Nat} (g : Valloced us lo n m m') (h : LoaderInv us m) (hva : upperHalf va) :
    m'.load va = if lo ≤ va / 4096 ∧ va / 4096 < lo + n then some 0 else m.load va := by
  have hj : va % 4096 < 4096 := Nat.mod_lt _ (by decide)
  rw [g.inv.load hva]
  by_cases hv : lo ≤ va / 4096 ∧ va / 4096 < lo + n
  · obtain ⟨f, hf, -, hz⟩ := g.new _ hv.1 hv.2
    rw [if_pos hv, hf, Option.map_some, hz _ hj]
  · obtain ⟨hpage, hdata⟩ := g.old _ hva.page hv
    rw [if_neg hv, hpage, h.load hva]
    cases e : m.page (va / 4096) with
    | none => rfl
    | some f => rw [Option.map_some, Option.map_some, hdata f e _ hj]

/-! ## copying -/

/-- The bytes of the upper half are those of `A`. -/
structure Shown (us : List BootMemRegion) (A : Nat → Option UInt8) (m m' : Loader) : Prop where
  inv : LoaderInv us m'
  initram : m'.initram = m.initram
  memFree : m'.memFree = m.memFree
  load : ∀ a, upperHalf a → m'.load a = A a

/-- different pages of the upper half show different pages -/
theorem LoaderInv.page_inj (h : LoaderInv us m) {v v' f : Nat} (hv : UpperPage v) (hv' : UpperPage v')
    (e : m.page v = some f) (e' : m.page v' = some f) : v = v' :=
  hv.path_inj hv' (h.tree _ _ f (Nat.le_of_eq (length_path v)) (Nat.le_of_eq (length_path v')) e e')

/-- bytes of the page at `f` were written -/
structure DataWritten (m : Loader) (f : Nat) (m' : Loader) : Prop where
  mem : ∀ a, a / 4096 * 4096 ≠ f → m'.mem a = m.mem a
  cr3 : m'.cr3 = m.cr3
  memFree : m'.memFree = m.memFree

/-- other pages keep their words -/
theorem DataWritten.words {f s : Nat} (w : DataWritten m f m') (hs : s ≠ f) : m'.words s = m.words s := by
  funext i
  have hi := i.isLt
  unfold Loader.words
  by_cases hs0 : s % 4096 = 0
  · have hread : readLe m'.mem (s + 8 * i.val) 8 = readLe m.mem (s + 8 * i.val) 8 := by
      refine readLe_congr fun k hk => w.mem _ ?_
      omega
    rw [if_pos hs0, if_pos hs0, hread]
  · rw [if_neg hs0, if_neg hs0]

section
variable {v f : Nat}

/-- a page that is shown is no table: the tables stay -/
theorem DataWritten.nodeAt (w : DataWritten m f m') (h : LoaderInv us m) (hf : m.page v = some f)
    {p : List (Fin 512)} (hp : p.length ≤ 4) : m'.nodeAt p = m.nodeAt p := by
  unfold Loader.nodeAt
  rw [w.cr3]
  exact nodeAt_frame f (fun q hq => h.tree.not_inner (length_path v) hf hq) (fun s hs => w.words hs) p hp

theorem DataWritten.inv (w : DataWritten m f m') (h : LoaderInv us m) (hf : m.page v = some f) :
    LoaderInv us m' where
  free := by
    rw [w.memFree]
    exact h.free
  root := by
    rw [w.cr3]
    exact h.root
  tree := by
    refine fun p q t hp hq ep eq => h.tree p q t hp hq ?_ ?_
    · exact (w.nodeAt h hf hp).symm.trans ep
    · exact (w.nodeAt h hf hq).symm.trans eq
  used p t hp e := by
    rw [w.nodeAt h hf hp] at e
    unfold Loader.Free
    rw [w.memFree]
    exact h.used p t hp e
  entries p t i hp hup e := by
    rw [w.nodeAt h hf (Nat.le_of_lt hp)] at e
    have htf : t ≠ f := fun ht => h.tree.not_inner (length_path v) hf hp (ht ▸ e)
    rw [w.words htf]
    exact h.entries p t i hp hup e

end

/-- **A byte is written to a mapped address.** -/
theorem storeByte_spec (h : LoaderInv us m) (hva : upperHalf va) (hmap : (m.load va).isSome) (b : UInt8) :
    ∃ m', m.storeByte va b = some m' ∧
      Shown us (fun a => if a = va then some b else m.load a) m m' := by
  obtain ⟨f, hf⟩ : ∃ f, m.page (va / 4096) = some f := by
    rw [h.load hva, Option.isSome_map] at hmap
    exact Option.isSome_iff_exists.mp hmap
  have hstore : m.storeByte va b = some { m with mem := Function.update m.mem (f + va % 4096) b } := by
    rw [Loader.storeByte, h.addr hva, hf, Option.map_some, Option.map_some]
  have hal := nodeAt_aligned h.root hf
  have hw : DataWritten m f { m with mem := Function.update m.mem (f + va % 4096) b } := by
    refine ⟨fun a ha => Function.update_of_ne ?_ _ _, rfl, rfl⟩
    omega
  have hinv := hw.inv h hf
  refine ⟨_, hstore, hinv, rfl, rfl, fun a ha => ?_⟩
  rw [hinv.load ha, Loader.page, hw.nodeAt h hf (Nat.le_of_eq (length_path _)), h.load ha]
  show (m.page (a / 4096)).map _ = _
  by_cases hav : a = va
  · rw [if_pos hav, hav, hf, Option.map_some]
    exact congrArg some (Function.update_self _ _ _)
  · rw [if_neg hav]
    cases e : m.page (a / 4096) with
    | none => rfl
    | some g =>
      have hg := nodeAt_aligned h.root e
      have hne : g + a % 4096 ≠ f + va % 4096 := by
        intro heq
        have hgf : g = f := by omega
        have hpages := h.page_inj ha.page hva.page e (hgf ▸ hf)
        omega
      exact congrArg some (Function.update_of_ne hne _ _)

theorem store_congr {A B : Nat → Option UInt8} {a : Nat} (h : A a = B a) (dst : Nat)
    (l : List (Option UInt8)) : store A dst l a = store B dst l a := by
  unfold store
  rw [h]

/-- what was mapped stays mapped -/
theorem Shown.mapped {m₁ : Loader} {dst a a' : Nat} {b : UInt8}
    (g : Shown us (fun a => if a = dst then some b else m.load a) m m₁) (e : a = a')
    (h : upperHalf a' ∧ (m.load a').isSome) : upperHalf a ∧ (m₁.load a).isSome := by
  rw [e, g.load a' h.1]
  refine ⟨h.1, ?_⟩
  split
  · rfl
  · exact h.2

/-- a byte, and the bytes behind it -/
theorem Shown.cons {m₁ : Loader} {dst : Nat} {b : UInt8} {l : List UInt8}
    (g : Shown us (fun a => if a = dst then some b else m.load a) m m₁)
    (g' : Shown us (store m₁.load (dst + 1) (l.map some)) m₁ m') :
    Shown us (store m.load dst ((b :: l).map some)) m m' := by
  refine ⟨g'.inv, g'.initram.trans g.initram, g'.memFree.trans g.memFree, fun a ha => ?_⟩
  have hone : m₁.load a = store m.load dst [some b] a := by
    rw [g.load a ha]
    by_cases hd : a = dst
    · rw [if_pos hd, hd]
      exact (holdsAt_store m.load dst [some b] 0 Nat.one_pos).symm
    · rw [if_neg hd]
      rcases Nat.lt_or_ge a dst with hlt | hge
      · exact (store_of_lt _ _ hlt).symm
      · refine (store_of_ge _ _ ?_).symm
        rw [List.length_singleton]
        omega
  rw [g'.load a ha, store_congr hone]
  exact congrFun (store_append m.load dst [some b] (l.map some)) a

/-- bytes can be written one behind the other to mapped addresses -/
theorem exists_written (l : List UInt8) {dst : Nat} (h : LoaderInv us m)
    (hdst : ∀ i < l.length, upperHalf (dst + i) ∧ (m.load (dst + i)).isSome) :
    ∃ m', Shown us (store m.load dst (l.map some)) m m' := by
  induction l generalizing m dst with
  | nil => exact ⟨m, h, rfl, rfl, fun a _ => congrFun (store_nil _ _).symm a⟩
  | cons b l ih =>
    rw [List.length_cons] at hdst
    obtain ⟨hup, hmap⟩ : upperHalf dst ∧ (m.load dst).isSome := hdst 0 (Nat.succ_pos _)
    obtain ⟨m₁, -, g⟩ := storeByte_spec h hup hmap b
    have hdst' : ∀ i < l.length, upperHalf (dst + 1 + i) ∧ (m₁.load (dst + 1 + i)).isSome := fun i hi =>
      g.mapped (by omega) (hdst (i + 1) (by omega))
    obtain ⟨m', g'⟩ := ih g.inv hdst'
    exact ⟨m', g.cons g'⟩

/-- **`memcpy` to mapped addresses, from a range beside them** -/
theorem memcpy_spec (l : List UInt8) {dst src : Nat} (h : LoaderInv us m)
    (hdst : ∀ i < l.length, upperHalf (dst + i) ∧ (m.load (dst + i)).isSome)
    (hsrc : ∀ i (hi : i < l.length), upperHalf (src + i) ∧ m.load (src + i) = some l[i])
    (hbeside : src + l.length ≤ dst ∨ dst + l.length ≤ src) :
    ∃ m', m.memcpy dst src l.length = .ok m' ∧ Shown us (store m.load dst (l.map some)) m m' := by
  induction l generalizing m dst src with
  | nil => exact ⟨m, rfl, h, rfl, rfl, fun a _ => congrFun (store_nil _ _).symm a⟩
  | cons b l ih =>
    have hlen : (b :: l).length = l.length + 1 := List.length_cons
    rw [hlen] at hdst hbeside
    obtain ⟨hup, hmap⟩ : upperHalf dst ∧ (m.load dst).isSome := hdst 0 (Nat.succ_pos _)
    obtain ⟨m₁, hstore, g⟩ := storeByte_spec h hup hmap b
    have hload : m.load src = some b := (hsrc 0 (by omega)).2
    have hdst' : ∀ i < l.length, upperHalf (dst + 1 + i) ∧ (m₁.load (dst + 1 + i)).isSome := fun i hi =>
      g.mapped (by omega) (hdst (i + 1) (by omega))
    have hsrc' : ∀ i (hi : i < l.length), upperHalf (src + 1 + i) ∧ m₁.load (src + 1 + i) = some l[i] := by
      intro i hi
      obtain ⟨h1, h2⟩ := hsrc (i + 1) (by omega)
      rw [show src + 1 + i = src + (i + 1) by omega]
      refine ⟨h1, ?_⟩
      rw [g.load _ h1, if_neg (by omega), h2]
      rfl
    obtain ⟨m', hm', g'⟩ := ih g.inv hdst' hsrc' (by omega)
    refine ⟨m', ?_, g.cons g'⟩
    rw [hlen, Loader.memcpy, hload, Option.bind_some, hstore]
    exact hm'

end

end FuseeOS
