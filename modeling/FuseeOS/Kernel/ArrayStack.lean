import FuseeOS.Kernel.OutOfPages
import FuseeOS.Lib.Run

/-!
# An array as a stack

`ARRAY_EMPLACE` and `ARRAY_POP`, in any order, after `ARRAY_INIT` with any capacity.

* `elements_iff_fitting`   the elements are kept as long as the array can grow: one of capacity 1 cannot;
* `back_of_push`           `ARRAY_BACK` is the cell behind the last element, which was never written after
                           the first `ARRAY_EMPLACE`;
* **`array_stack`**        so the array is no stack once something was emplaced;
* `nextId_reuses`          and `proc_create` takes the id that an earlier element left behind.
-/

namespace FuseeOS
open StepRun

namespace CArray
variable {α : Type}

/-- `ARRAY_POP(array)` -/
def pop (array : CArray α) : CArray α :=
  { array with size := if array.size = 0 then 2^64 - 1 else array.size - 1 }

@[simp] theorem pop_data (array : CArray α) : array.pop.data = array.data := rfl
@[simp] theorem pop_capacity (array : CArray α) : array.pop.capacity = array.capacity := rfl

/-- `*ARRAY_BACK(array)` -/
def back (array : CArray α) : Option α := array.load array.size

end CArray

section
variable {α : Type}

inductive ArrayOp (α : Type) where
  /-- `*ARRAY_EMPLACE(array) = x` -/
  | emplace (x : α)
  | pop
deriving DecidableEq

/-- an array, with the values that were emplaced and not popped, the oldest first -/
structure ArrayState (α : Type) where
  array : CArray α
  values : List α

def arrayStep (elementSize : Nat) (s : ArrayState α) : ArrayOp α → Option (ArrayState α)
  | .emplace x => (s.array.push elementSize x).map fun array => ⟨array, s.values ++ [x]⟩
  | .pop => some ⟨s.array.pop, s.values.dropLast⟩

def arrayInit (α : Type) (elementSize capacity : Nat) : ArrayState α :=
  ⟨CArray.init α elementSize capacity, []⟩

/-- only an array that is not empty is popped -/
def ArrayOp.Legal (s : ArrayState α) : ArrayOp α → Prop
  | .emplace _ => True
  | .pop => s.values ≠ []

instance (s : ArrayState α) (op : ArrayOp α) : Decidable (op.Legal s) :=
  match op with
  | .emplace _ => inferInstanceAs (Decidable True)
  | .pop => decidable_of_iff (¬ s.values.isEmpty) (by rw [List.isEmpty_iff]; rfl)

/-- an element is emplaced where there is room, or the capacity can grow -/
def ArrayOp.Fits (elementSize : Nat) (s : ArrayState α) : ArrayOp α → Prop
  | .emplace _ => s.array.Roomy elementSize
  | .pop => True

instance (elementSize : Nat) (s : ArrayState α) (op : ArrayOp α) : Decidable (op.Fits elementSize s) :=
  match op with
  | .emplace _ => inferInstanceAs (Decidable (s.array.Roomy elementSize))
  | .pop => inferInstanceAs (Decidable True)

/-- the array is within its capacity and holds the values -/
structure ElementsRight (s : ArrayState α) : Prop where
  size : s.array.size = s.values.length
  fits : s.array.size ≤ s.array.capacity
  load : ∀ i (hi : i < s.values.length), s.array.load i = some s.values[i]

/-- and `ARRAY_BACK` is the last one -/
structure StackRight (s : ArrayState α) : Prop extends ElementsRight s where
  back : s.values ≠ [] → s.array.back = s.values.getLast?

/-! ## one step -/

section
variable {elementSize : Nat} {s s' : ArrayState α}

/-- the array's block holds the values -/
def ArrayState.Blocked (elementSize : Nat) (s : ArrayState α) : Prop :=
  s.array.Block elementSize s.values ∧ 1 ≤ s.array.capacity

theorem ArrayState.Blocked.elements (h : s.Blocked elementSize) : ElementsRight s :=
  ⟨h.1.size, h.1.size ▸ h.1.fits, h.1.load⟩

theorem blocked_init {capacity : Nat} (h0 : 0 < elementSize) (hcap : 1 ≤ capacity)
    (hbytes : elementSize * capacity < 2^64) : (arrayInit α elementSize capacity).Blocked elementSize :=
  ⟨CArray.block_init h0 (Nat.mul_comm elementSize capacity ▸ hbytes), hcap⟩

/-- `ARRAY_POP` -/
theorem Blocked.pop (h : s.Blocked elementSize) (h0 : 0 < elementSize) (hne : s.values ≠ []) :
    ArrayState.Blocked elementSize ⟨s.array.pop, s.values.dropLast⟩ := by
  have hlen := List.length_pos_iff.mpr hne
  have hsize := h.1.size
  have hfits := h.1.fits
  have hcap := h.1.capacity_lt h0
  have hpred : s.array.pop.size = s.values.length - 1 := by
    rw [← hsize]
    exact if_neg (by omega)
  refine ⟨⟨?_, ?_, ?_, ?_, ?_⟩, ?_⟩ <;> simp only [CArray.pop_data, CArray.pop_capacity]
  · exact h.1.cells
  · exact h.1.bytes
  · rw [hpred, List.length_dropLast]
  · rw [List.length_dropLast]
    exact Nat.le_trans (Nat.sub_le _ _) hfits
  · have hentries := congrArg (List.take (s.values.length - 1)) h.1.entries
    unfold CArray.entries at hentries ⊢
    rw [List.take_take, hsize, Nat.min_eq_left (Nat.sub_le _ _)] at hentries
    rw [hpred, CArray.pop_data, hentries, List.dropLast_eq_take, List.map_take]
  · exact h.2

/-- a full array that cannot grow: the new cell lies behind its block, or the copy does -/
theorem push_eq_none (h : s.Blocked elementSize) (h0 : 0 < elementSize) (hroom : ¬ s.array.Roomy elementSize)
    (x : α) : s.array.push elementSize x = none := by
  obtain ⟨hfull, hgrow⟩ := not_or.mp hroom
  have hcap := h.1.capacity_lt h0
  have hpos := h.2
  have hsize : s.array.size = s.array.capacity := by
    have h1 := h.1.size
    have h2 := h.1.fits
    omega
  have hcopied : s.array.capacity * elementSize % 2^64 / elementSize = s.array.capacity := by
    rw [Nat.mod_eq_of_lt h.1.bytes, Nat.mul_div_cancel _ h0]
  unfold CArray.push CArray.emplace
  rw [if_neg hfull]
  dsimp only
  by_cases h1 : s.array.capacity = 1
  · -- one cell, and the element is stored behind it
    have hone : (s.array.capacity + s.array.capacity / 2) % 2^64 = 1 := by omega
    have hfresh : (kmallocCells α elementSize (1 * elementSize)).length = 1 :=
      CArray.length_kmallocCells h0 (h1 ▸ h.1.bytes)
    rw [hone, hcopied, h1]
    unfold memcpyCells
    rw [if_pos ⟨Nat.le_of_eq hfresh.symm, by rw [h.1.cells, h1]⟩, Option.map_some, hsize, h1]
    refine if_neg (Nat.not_lt_of_le ?_)
    show (s.array.data.take 1 ++ (kmallocCells α elementSize (1 * elementSize)).drop 1).length ≤ 1
    rw [List.length_append, List.length_take, List.length_drop, hfresh]
    omega
  · -- the number of bytes wraps, and the new block is smaller than the old one
    have hwrap : 2^64 ≤ (s.array.capacity + s.array.capacity / 2) * elementSize :=
      Nat.le_of_not_lt fun hlt => hgrow ⟨by omega, hlt⟩
    have hhalf : s.array.capacity / 2 * elementSize ≤ s.array.capacity * elementSize :=
      Nat.mul_le_mul_right _ (Nat.div_le_self _ _)
    have hbytes := h.1.bytes
    have hsmall : (s.array.capacity + s.array.capacity / 2) % 2^64 * elementSize % 2^64 <
        s.array.capacity * elementSize := by
      rw [Nat.mod_mul_mod]
      rw [Nat.add_mul] at hwrap ⊢
      omega
    have hshort : ¬ (s.array.capacity ≤ (kmallocCells α elementSize
        ((s.array.capacity + s.array.capacity / 2) % 2^64 * elementSize)).length ∧
        s.array.capacity ≤ s.array.data.length) := by
      unfold kmallocCells
      rw [List.length_replicate]
      have hlt := (Nat.div_lt_iff_lt_mul h0).mpr hsmall
      exact fun hc => Nat.not_lt_of_le hc.1 hlt
    rw [hcopied]
    unfold memcpyCells
    rw [if_neg hshort]
    rfl

/-- one step of an array that holds the values -/
theorem arrayStep_spec (h0 : 0 < elementSize) (op : ArrayOp α) (h : s.Blocked elementSize) (hl : op.Legal s)
    (hf : op.Fits elementSize s) : ∃ s', arrayStep elementSize s op = some s' ∧ s'.Blocked elementSize := by
  cases op with
  | emplace x =>
    obtain ⟨array, e, -, hblock⟩ := h.1.push h0 hf x
    refine ⟨⟨array, s.values ++ [x]⟩, ?_, hblock, ?_⟩
    · rw [arrayStep, e, Option.map_some]
    · have hfits := hblock.fits
      rw [List.length_append, List.length_singleton] at hfits
      exact Nat.le_trans (Nat.le_add_left 1 _) hfits
  | pop => exact ⟨_, rfl, Blocked.pop h h0 hl⟩

theorem fits_of_step (h0 : 0 < elementSize) (op : ArrayOp α) (h : s.Blocked elementSize)
    (hs : arrayStep elementSize s op = some s') : op.Fits elementSize s := by
  cases op with
  | emplace x =>
    by_contra hroom
    rw [arrayStep, push_eq_none h h0 hroom x] at hs
    exact nomatch hs
  | pop => exact trivial

end

/-! ## runs -/

/-- a run behind `ARRAY_INIT` that pops no empty array -/
def LegalRun (elementSize capacity : Nat) (as : List (ArrayOp α)) : Prop :=
  Along (arrayStep elementSize) (fun s op => op.Legal s) (arrayInit α elementSize capacity) as

/-- every element of the run finds room, or an array that can grow -/
def FittingRun (elementSize capacity : Nat) (as : List (ArrayOp α)) : Prop :=
  Along (arrayStep elementSize) (fun s op => op.Fits elementSize s) (arrayInit α elementSize capacity) as

/-- every state of the run satisfies `I` -/
def AlwaysArray (I : ArrayState α → Prop) (elementSize capacity : Nat) (as : List (ArrayOp α)) : Prop :=
  Always (arrayStep elementSize) I (fun _ _ _ => True) (arrayInit α elementSize capacity) as

instance (elementSize capacity : Nat) (as : List (ArrayOp α)) : Decidable (LegalRun elementSize capacity as) :=
  inferInstanceAs (Decidable (Along _ _ _ _))

section
variable {elementSize capacity : Nat}

/-- **The elements are kept** if and only if no element is emplaced in a full array that cannot grow. -/
theorem elements_iff_fitting (h0 : 0 < elementSize) (hcap : 1 ≤ capacity) (hbytes : elementSize * capacity < 2^64)
    (as : List (ArrayOp α)) (hl : LegalRun elementSize capacity as) :
    AlwaysArray ElementsRight elementSize capacity as ↔ FittingRun elementSize capacity as := by
  refine always_iff_along (J := fun s => s.Blocked elementSize) ?_ ?_ as _ (blocked_init h0 hcap hbytes)
    (blocked_init h0 hcap hbytes).elements hl
  · intro s op hJ _ hlegal hfits
    obtain ⟨s', hs', hblocked⟩ := arrayStep_spec h0 op hJ hlegal hfits
    exact ⟨s', hs', trivial, hblocked.elements, hblocked⟩
  · intro s op s' hJ _ _ hs' _ _
    exact fits_of_step h0 op hJ hs'

/-- **`ARRAY_BACK` after the first `ARRAY_EMPLACE`** is a cell that was never written. -/
theorem back_of_push (hcap : 1 ≤ capacity) {x : α} {array : CArray α}
    (h : (CArray.init α elementSize capacity).push elementSize x = some array) : array.back = none := by
  have hlt : (CArray.init α elementSize capacity).size < (CArray.init α elementSize capacity).capacity := hcap
  unfold CArray.push CArray.emplace at h
  rw [if_pos hlt] at h
  have hstore : (CArray.mk (CArray.init α elementSize capacity).data 1 capacity).store 0 x = some array := h
  unfold CArray.store at hstore
  split_ifs at hstore with hin
  rw [← Option.some.inj hstore]
  show (((CArray.init α elementSize capacity).data.set 0 (some x))[1]?).join = none
  rw [List.getElem?_set_ne (by decide)]
  show ((List.replicate _ none)[1]?).join = none
  rw [List.getElem?_replicate]
  split_ifs <;> rfl

/-- **An array is no stack once something was emplaced**: `ARRAY_BACK` is wrong.  The elements are those
emplaced and not popped as long as no element is emplaced in a full array that cannot grow. -/
theorem array_stack (h0 : 0 < elementSize) (hcap : 1 ≤ capacity) (as : List (ArrayOp α))
    (hl : LegalRun elementSize capacity as) :
    (AlwaysArray StackRight elementSize capacity as ↔ as = []) ∧
    (elementSize * capacity < 2^64 →
      (AlwaysArray ElementsRight elementSize capacity as ↔ FittingRun elementSize capacity as)) := by
  refine ⟨⟨fun h => ?_, fun h => ?_⟩, fun hbytes => elements_iff_fitting h0 hcap hbytes as hl⟩
  · cases as with
    | nil => rfl
    | cons op as =>
      cases op with
      | pop => exact absurd rfl hl.1
      | emplace x =>
        obtain ⟨-, s', hs', -, hrest⟩ := h
        rw [arrayStep] at hs'
        obtain ⟨array, harray, rfl⟩ := Option.map_eq_some_iff.mp hs'
        have hback := hrest.here.back (List.cons_ne_nil x [])
        rw [back_of_push hcap harray] at hback
        exact nomatch hback
  · rw [h]
    exact ⟨⟨rfl, Nat.zero_le _, fun i hi => absurd hi (Nat.not_lt_zero i)⟩, fun hne => absurd rfl hne⟩

end

end

/-- two values, and the second one is popped -/
def emplaceTwo : List (ArrayOp Nat) := [.emplace 5, .emplace 7, .pop]

theorem array_stack_two : (AlwaysArray StackRight 8 2 emplaceTwo ↔ emplaceTwo = []) ∧
    (8 * 2 < 2^64 → (AlwaysArray ElementsRight 8 2 emplaceTwo ↔ FittingRun 8 2 emplaceTwo)) :=
  array_stack (by decide) (by decide) emplaceTwo (by decide)

/-- `ARRAY_BACK` is the value that was popped -/
theorem array_stack_wrong : ¬ ∀ (elementSize capacity : Nat) (as : List (ArrayOp Nat)), 0 < elementSize →
    1 ≤ capacity → LegalRun elementSize capacity as → AlwaysArray StackRight elementSize capacity as := by
  intro h
  have hall := h 8 2 emplaceTwo (by decide) (by decide) (by decide)
  have hlast : run (arrayStep 8) (arrayInit Nat 8 2) emplaceTwo = some ⟨⟨[some 5, some 7], 1, 2⟩, [5]⟩ := rfl
  have hback := (hall.last hlast).back (List.cons_ne_nil 5 [])
  exact absurd hback (by decide)

/-- **The id that `proc_create` takes** is the last one of `gProcessListFree` only if the cell behind it was
left with the same id. -/
theorem nextId_reuses {l : ProcessList} {elementSize : Nat} {ids : List Nat} {id : Nat}
    (h : l.free.Block elementSize (ids ++ [id])) :
    (∃ l', l.nextId = some (id, l')) ↔ l.free.back = some id := by
  have hsize := h.size
  rw [List.length_append, List.length_singleton] at hsize
  unfold ProcessList.nextId
  rw [if_neg (by omega)]
  unfold CArray.back
  cases hload : l.free.load l.free.size with
  | none => exact iff_of_false (fun ⟨_, h⟩ => nomatch h) (fun h => nomatch h)
  | some id' =>
    constructor
    · rintro ⟨l', hl⟩
      obtain ⟨rfl, -⟩ := Prod.mk.inj (Option.some.inj hl)
      rfl
    · intro hid
      obtain rfl := Option.some.inj hid
      exact ⟨_, rfl⟩

end FuseeOS
