import Mathlib.Algebra.GroupWithZero.Nat
import Mathlib.Data.List.Basic

/-!
# Growing arrays

`common/array.c`.  The heap block behind an `Array` is the list of its cells, as many as the
requested bytes hold; a cell that was never written is `none`.  Reading such a cell, and any access
outside of the block, is `none`.

* `CArray.Block`        the elements of an array of any capacity;
* `Block.push`          appending, with or without growth;
* `Block.load`          reading an element back;
* `CArray.Holds a xs`   the array `a` can always grow and its elements are `xs`.
-/

namespace FuseeOS

structure CArray (α : Type) where
  data : List (Option α)
  size : Nat
  capacity : Nat

/-- the cells of `kmalloc(bytes)` -/
def kmallocCells (α : Type) (elementSize bytes : Nat) : List (Option α) :=
  List.replicate (bytes % 2^64 / elementSize) none

/-- `memcpy` of `n` cells -/
def memcpyCells {α : Type} (dst src : List (Option α)) (n : Nat) : Option (List (Option α)) :=
  if n ≤ dst.length ∧ n ≤ src.length then some (src.take n ++ dst.drop n) else none

namespace CArray
variable {α : Type}

def init (α : Type) (elementSize capacity : Nat) : CArray α where
  size := 0
  capacity := capacity
  data := kmallocCells α elementSize (elementSize * capacity)

/-- `array_emplace`, with the index of the cell it returns a pointer to -/
def emplace (array : CArray α) (elementSize : Nat) : Option (Nat × CArray α) :=
  if array.size < array.capacity then
    some (array.size, { array with size := (array.size + 1) % 2^64 })
  else
    let capacity := (array.capacity + array.capacity / 2) % 2^64
    let fresh := kmallocCells α elementSize (capacity * elementSize)
    (memcpyCells fresh array.data (array.capacity * elementSize % 2^64 / elementSize)).map
      fun data => (array.size, ⟨data, (array.size + 1) % 2^64, capacity⟩)

/-- `*ARRAY_AT(array, index)` -/
def load (array : CArray α) (index : Nat) : Option α := array.data[index]?.join

/-- `*ARRAY_AT(array, index) = x` -/
def store (array : CArray α) (index : Nat) (x : α) : Option (CArray α) :=
  if index < array.data.length then some { array with data := array.data.set index (some x) }
  else none

/-- `*ARRAY_EMPLACE(array) = x` -/
def push (array : CArray α) (elementSize : Nat) (x : α) : Option (CArray α) := do
  let (index, array) ← array.emplace elementSize
  array.store index x

/-- the cells in use -/
def entries (array : CArray α) : List (Option α) := array.data.take array.size

/-! ## what an array holds -/

/-- the first cells of the array's block are `xs`; the block has as many cells as the array says -/
structure Block (array : CArray α) (elementSize : Nat) (xs : List α) : Prop where
  cells : array.data.length = array.capacity
  bytes : array.capacity * elementSize < 2^64
  size : array.size = xs.length
  fits : xs.length ≤ array.capacity
  entries : array.entries = xs.map some

/-- number of cells of a block that was asked for without overflow -/
theorem length_kmallocCells {elementSize n : Nat} (h0 : 0 < elementSize) (h : n * elementSize < 2^64) :
    (kmallocCells α elementSize (n * elementSize)).length = n := by
  unfold kmallocCells
  rw [List.length_replicate, Nat.mod_eq_of_lt h, Nat.mul_div_cancel _ h0]

section
variable {array : CArray α} {xs : List α} {elementSize : Nat}

theorem block_init {capacity : Nat} (h0 : 0 < elementSize) (h : capacity * elementSize < 2^64) :
    (init α elementSize capacity).Block elementSize [] := by
  refine ⟨?_, h, rfl, Nat.zero_le _, rfl⟩
  unfold init
  rw [Nat.mul_comm]
  exact length_kmallocCells h0 h

theorem Block.load (h : array.Block elementSize xs) (i : Nat) (hi : i < xs.length) :
    array.load i = some xs[i] := by
  have he : array.entries[i]? = some (some xs[i]) := by
    rw [h.entries, List.getElem?_map, List.getElem?_eq_getElem hi, Option.map_some]
  have hd : array.data[i]? = some (some xs[i]) := by
    unfold CArray.entries at he
    rwa [List.getElem?_take_of_lt (by rw [h.size]; exact hi)] at he
  unfold CArray.load
  rw [hd, Option.join_some]

/-- a capacity is a 64-bit number -/
theorem Block.capacity_lt (h : array.Block elementSize xs) (h0 : 0 < elementSize) : array.capacity < 2^64 :=
  Nat.lt_of_le_of_lt (Nat.le_mul_of_pos_right _ h0) h.bytes

/-- there is room for one more, or the capacity can grow -/
def Roomy (array : CArray α) (elementSize : Nat) : Prop :=
  array.size < array.capacity ∨
    2 ≤ array.capacity ∧ (array.capacity + array.capacity / 2) * elementSize < 2^64

instance (array : CArray α) (elementSize : Nat) : Decidable (array.Roomy elementSize) :=
  inferInstanceAs (Decidable (_ ∨ _))

/-- room for one more: `emplace` keeps the elements and returns the index behind them -/
theorem Block.emplace (h : array.Block elementSize xs) (h0 : 0 < elementSize)
    (hroom : array.Roomy elementSize) :
    ∃ array' : CArray α, array.emplace elementSize = some (xs.length, array') ∧
      array'.data.length = array'.capacity ∧
      array'.capacity = (if array.size < array.capacity then array.capacity
        else array.capacity + array.capacity / 2) ∧
      array'.capacity * elementSize < 2^64 ∧
      array'.size = xs.length + 1 ∧ xs.length < array'.capacity ∧
      array'.data.take xs.length = xs.map some := by
  have hcap := h.capacity_lt h0
  have hfits := h.fits
  have hsize := h.size
  have hentries : array.data.take xs.length = xs.map some := by
    rw [← h.size]
    exact h.entries
  unfold CArray.emplace
  by_cases hlt : array.size < array.capacity
  · have hsucc : (array.size + 1) % 2^64 = xs.length + 1 := by omega
    rw [if_pos hlt, if_pos hlt, h.size]
    exact ⟨_, rfl, h.cells, rfl, h.bytes, h.size ▸ hsucc, h.size ▸ hlt, hentries⟩
  · -- the block is full, so that its capacity is the number of elements
    obtain ⟨h2, hbytes⟩ := hroom.resolve_left hlt
    have hfull : array.capacity = xs.length := by omega
    have hgrown : array.capacity + array.capacity / 2 < 2^64 :=
      Nat.lt_of_le_of_lt (Nat.le_mul_of_pos_right _ h0) hbytes
    have hsucc : (array.size + 1) % 2^64 = xs.length + 1 := by omega
    have hcopied : array.capacity * elementSize % 2^64 / elementSize = array.capacity := by
      rw [Nat.mod_eq_of_lt h.bytes, Nat.mul_div_cancel _ h0]
    rw [if_neg hlt, if_neg hlt]
    simp only [Nat.mod_eq_of_lt hgrown]
    have hfresh : (kmallocCells α elementSize _).length = _ := length_kmallocCells h0 hbytes
    unfold memcpyCells
    rw [hcopied, hfresh, h.cells, if_pos ⟨Nat.le_add_right _ _, Nat.le_refl _⟩, Option.map_some, hsucc, h.size]
    refine ⟨_, rfl, ?_, rfl, hbytes, rfl, ?_, ?_⟩
    · show (array.data.take _ ++ _).length = array.capacity + array.capacity / 2
      rw [List.length_append, List.length_take, List.length_drop, hfresh, h.cells]
      omega
    · show xs.length < array.capacity + array.capacity / 2
      omega
    · show (array.data.take array.capacity ++ _).take xs.length = _
      rw [hfull, List.take_append_of_le_length (by rw [List.length_take, h.cells]; omega),
        List.take_take, Nat.min_self, hentries]

/-- the element is stored behind the others -/
theorem take_set_succ {data : List (Option α)} (hin : xs.length < data.length) (x : α)
    (h : data.take xs.length = xs.map some) :
    (data.set xs.length (some x)).take (xs.length + 1) = (xs ++ [x]).map some := by
  rw [List.take_succ_eq_append_getElem (by rw [List.length_set]; exact hin), List.getElem_set_self,
    List.take_set_of_le (Nat.le_refl _), h, List.map_append]
  rfl

theorem Block.push (h : array.Block elementSize xs) (h0 : 0 < elementSize) (hroom : array.Roomy elementSize)
    (x : α) : ∃ array', array.push elementSize x = some array' ∧
      array'.capacity = (if array.size < array.capacity then array.capacity
        else array.capacity + array.capacity / 2) ∧ array'.Block elementSize (xs ++ [x]) := by
  obtain ⟨a, e, hcells, hcap, hbytes, hsize, hlt, htake⟩ := h.emplace h0 hroom
  have hin : xs.length < a.data.length := hcells ▸ hlt
  refine ⟨{ a with data := a.data.set xs.length (some x) }, ?_, hcap, ?_⟩
  · unfold CArray.push
    rw [e]
    exact if_pos hin
  · refine ⟨by rw [List.length_set]; exact hcells, hbytes, ?_, ?_, ?_⟩
    · rw [List.length_append, List.length_singleton]
      exact hsize
    · rw [List.length_append, List.length_singleton]
      exact hlt
    · show (a.data.set xs.length (some x)).take a.size = _
      rw [hsize]
      exact take_set_succ hin x htake

end

/-- `array` is a block of `capacity` cells of which the first ones are `xs` -/
structure Holds (array : CArray α) (xs : List α) : Prop where
  cells : array.data.length = array.capacity
  roomy : 16 ≤ array.capacity
  small : array.capacity < 2^32
  size : array.size = xs.length
  fits : xs.length ≤ array.capacity
  entries : array.entries = xs.map some

section
variable {array : CArray α} {xs : List α}

theorem holds_init (elementSize : Nat) (h0 : 0 < elementSize) (h : elementSize ≤ 2^32) :
    (init α elementSize 16).Holds [] := by
  have hlt : elementSize * 16 < 2^64 := by omega
  refine ⟨?_, Nat.le_refl 16, by show 16 < 2^32; omega, rfl, Nat.zero_le _, rfl⟩
  show (List.replicate (elementSize * 16 % 2^64 / elementSize) none).length = 16
  rw [List.length_replicate, Nat.mod_eq_of_lt hlt, Nat.mul_div_cancel_left _ h0]

theorem Holds.block (h : array.Holds xs) {elementSize : Nat} (h8 : elementSize ≤ 2^31) :
    array.Block elementSize xs := by
  refine ⟨h.cells, ?_, h.size, h.fits, h.entries⟩
  have hsmall := h.small
  calc array.capacity * elementSize ≤ array.capacity * 2^31 := Nat.mul_le_mul_left _ h8
    _ < 2^64 := by omega

theorem Holds.load (h : array.Holds xs) (i : Nat) (hi : i < xs.length) :
    array.load i = some xs[i] :=
  Block.load (h.block (Nat.zero_le _)) i hi

/-- `array->size = 0` -/
theorem Holds.reset (h : array.Holds xs) : { array with size := 0 : CArray α }.Holds [] :=
  ⟨h.cells, h.roomy, h.small, rfl, Nat.zero_le _, rfl⟩

theorem Holds.push (h : array.Holds xs) {elementSize : Nat} (h0 : 0 < elementSize)
    (h8 : elementSize ≤ 2^31) (hlen : xs.length + 1 < 2^31) (x : α) :
    ∃ array', array.push elementSize x = some array' ∧ array'.Holds (xs ++ [x]) := by
  have hroomy := h.roomy
  have hsmall := h.small
  have hsize := h.size
  have hfits := h.fits
  have hroom : array.Roomy elementSize := by
    by_cases hlt : array.size < array.capacity
    · exact Or.inl hlt
    · refine Or.inr ⟨by omega, ?_⟩
      calc (array.capacity + array.capacity / 2) * elementSize
          ≤ (array.capacity + array.capacity / 2) * 2^31 := Nat.mul_le_mul_left _ h8
        _ < 2^64 := by omega
  obtain ⟨a, e, hcap, hblock⟩ := (h.block h8).push h0 hroom x
  have hgrown : 16 ≤ a.capacity ∧ a.capacity < 2^32 := by
    rw [hcap]
    split_ifs <;> omega
  exact ⟨a, e, hblock.cells, hgrown.1, hgrown.2, hblock.size, hblock.fits, hblock.entries⟩

end

end CArray

end FuseeOS
