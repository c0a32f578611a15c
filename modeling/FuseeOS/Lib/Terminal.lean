import Mathlib.Data.List.Basic

/-!
# Terminals

A text is written into rows of a given width; a screen of a given height shows the last ones.

* `feed`                         one more character;
* `renderRows_newRow`, `renderRows_scroll`
                                 a new row, with or without room for it on the screen;
* `renderRows_snoc`              a character more in the last row changes one cell.
-/

namespace Terminal
variable {α β : Type*}

/-- the finished rows of a text, and the one that is being written -/
structure Rows (α : Type*) where
  above : List (List α)
  row : List α

namespace Rows

/-- all rows, from the top -/
def all (r : Rows α) : List (List α) := r.above ++ [r.row]

/-- the row is finished -/
def newRow (r : Rows α) : Rows α := ⟨r.all, []⟩

/-- a full row is finished -/
def wrap (width : Nat) (r : Rows α) : Rows α := if r.row.length = width then r.newRow else r

def append (r : Rows α) (c : α) : Rows α := ⟨r.above, r.row ++ [c]⟩

/-- one more character: a full row is finished first, and `newline` finishes a row -/
def feed [DecidableEq α] (width : Nat) (newline : α) (r : Rows α) (c : α) : Rows α :=
  let r := r.wrap width
  if c = newline then r.newRow else r.append c

/-- no row is too long -/
structure Fits (width : Nat) (r : Rows α) : Prop where
  above : ∀ row ∈ r.above, row.length ≤ width
  row : r.row.length ≤ width

variable {width : Nat} {r : Rows α}

@[simp] theorem newRow_above (r : Rows α) : r.newRow.above = r.above ++ [r.row] := rfl
@[simp] theorem newRow_row (r : Rows α) : r.newRow.row = [] := rfl
@[simp] theorem append_above (r : Rows α) (c : α) : (r.append c).above = r.above := rfl
@[simp] theorem append_row (r : Rows α) (c : α) : (r.append c).row = r.row ++ [c] := rfl

theorem Fits.newRow (h : r.Fits width) : r.newRow.Fits width := by
  refine ⟨fun row hrow => ?_, Nat.zero_le _⟩
  rcases List.mem_append.mp hrow with hrow | hrow
  · exact h.above row hrow
  · rw [List.mem_singleton.mp hrow]
    exact h.row

theorem Fits.append (h : r.Fits width) (hlt : r.row.length < width) (c : α) : (r.append c).Fits width := by
  refine ⟨h.above, ?_⟩
  rw [append_row, List.length_append, List.length_singleton]
  exact hlt

end Rows

/-- the rows of a text -/
def rowsOf [DecidableEq α] (width : Nat) (newline : α) (text : List α) : Rows α :=
  text.foldl (Rows.feed width newline) ⟨[], []⟩

theorem rowsOf_concat [DecidableEq α] (width : Nat) (newline : α) (text : List α) (c : α) :
    rowsOf width newline (text ++ [c]) = (rowsOf width newline text).feed width newline c := by
  unfold rowsOf
  rw [List.foldl_append, List.foldl_cons, List.foldl_nil]

/-- The rows that a screen shows: a row that the last newline opened is not there yet. -/
def displayed [DecidableEq α] (width : Nat) (newline : α) (text : List α) : List (List α) :=
  let r := rowsOf width newline text
  if text.getLast? = some newline then r.above else r.all

theorem fits_wrap {width : Nat} {r : Rows α} (h : r.Fits width) (h0 : 0 < width) :
    (r.wrap width).Fits width ∧ (r.wrap width).row.length < width := by
  unfold Rows.wrap
  by_cases hfull : r.row.length = width
  · rw [if_pos hfull]
    exact ⟨h.newRow, h0⟩
  · rw [if_neg hfull]
    exact ⟨h, Nat.lt_of_le_of_ne h.row hfull⟩

/-! ## the screen -/

section
variable (cell : α → β) (blank : β) (width height : Nat)

def renderRow (row : List α) : List β := row.map cell ++ List.replicate (width - row.length) blank

/-- the last `height` rows, and empty ones below if there are fewer -/
def renderRows (rows : List (List α)) : List β :=
  let last := rows.drop (rows.length - height)
  last.flatMap (renderRow cell blank width) ++ List.replicate ((height - last.length) * width) blank

variable {cell blank width height} {rows : List (List α)}

theorem length_renderRow {row : List α} (h : row.length ≤ width) :
    (renderRow cell blank width row).length = width := by
  unfold renderRow
  rw [List.length_append, List.length_map, List.length_replicate]
  omega

theorem length_rows (h : ∀ row ∈ rows, row.length ≤ width) :
    (rows.flatMap (renderRow cell blank width)).length = rows.length * width := by
  induction rows with
  | nil => rw [List.flatMap_nil, List.length_nil, List.length_nil, Nat.zero_mul]
  | cons row rows ih =>
    rw [List.flatMap_cons, List.length_append, length_renderRow (h row List.mem_cons_self),
      ih fun row hrow => h row (List.mem_cons_of_mem _ hrow), List.length_cons, Nat.add_one_mul, Nat.add_comm]

theorem renderRow_nil : renderRow cell blank width [] = List.replicate width blank := by
  unfold renderRow
  rw [List.map_nil, List.nil_append, List.length_nil, Nat.sub_zero]

/-- a new row at a place that is empty -/
theorem renderRows_newRow (h : rows.length < height) :
    renderRows cell blank width height (rows ++ [[]]) = renderRows cell blank width height rows := by
  have hlen : (rows ++ [[]]).length = rows.length + 1 := by
    rw [List.length_append, List.length_singleton]
  have hrest : height - rows.length = height - (rows.length + 1) + 1 := by omega
  unfold renderRows
  rw [hlen, Nat.sub_eq_zero_of_le (Nat.succ_le_of_lt h), Nat.sub_eq_zero_of_le (Nat.le_of_lt h)]
  dsimp only
  rw [List.drop_zero, List.drop_zero, hlen, List.flatMap_append, List.flatMap_singleton, renderRow_nil,
    List.append_assoc, List.replicate_append_replicate, hrest, Nat.add_one_mul, Nat.add_comm width]

/-- a new row below the screen: the others move up -/
theorem renderRows_scroll (h : height ≤ rows.length) (h0 : 0 < height)
    (hfit : ∀ row ∈ rows, row.length ≤ width) :
    renderRows cell blank width height (rows ++ [[]]) =
      (renderRows cell blank width height rows).drop width ++ List.replicate width blank := by
  have hlen : (rows ++ [[]]).length = rows.length + 1 := by
    rw [List.length_append, List.length_singleton]
  obtain ⟨k, hk⟩ : ∃ k, k = rows.length - height := ⟨_, rfl⟩
  have hlt : k < rows.length := by omega
  have hnext : rows.length + 1 - height = k + 1 := by omega
  have hshown : height - (rows.drop k).length = 0 := by
    rw [List.length_drop]
    omega
  have hshown' : height - ((rows ++ [[]]).drop (k + 1)).length = 0 := by
    rw [List.length_drop, hlen]
    omega
  unfold renderRows
  rw [hlen, hnext, ← hk]
  dsimp only
  rw [hshown, hshown', Nat.zero_mul, List.replicate_zero, List.append_nil, List.append_nil,
    List.drop_append_of_le_length (by omega), List.flatMap_append, List.flatMap_singleton, renderRow_nil,
    List.drop_eq_getElem_cons hlt, List.flatMap_cons,
    List.drop_left' (length_renderRow (hfit _ (List.getElem_mem hlt)))]

theorem renderRow_snoc {row : List α} (h : row.length < width) (c : α) :
    renderRow cell blank width (row ++ [c]) = (renderRow cell blank width row).set row.length (cell c) := by
  have hgap : width - row.length = width - (row.length + 1) + 1 := by omega
  have hlen : (row.map cell).length = row.length := List.length_map _
  unfold renderRow
  rw [List.set_append_right _ _ (Nat.le_of_eq hlen), hlen, Nat.sub_self, hgap, List.replicate_succ,
    List.set_cons_zero, List.length_append, List.length_singleton, List.map_append, List.append_assoc]
  rfl

/-- one more character in the last row -/
theorem renderRows_snoc {row : List α} (hfit : ∀ row ∈ rows, row.length ≤ width) (h : row.length < width)
    (h0 : 0 < height) (c : α) :
    renderRows cell blank width height (rows ++ [row ++ [c]]) =
      (renderRows cell blank width height (rows ++ [row])).set
        ((rows.length - (rows.length + 1 - height)) * width + row.length) (cell c) := by
  have hlen : ∀ last : List α, (rows ++ [last]).length = rows.length + 1 := fun last => by
    rw [List.length_append, List.length_singleton]
  obtain ⟨k, hk⟩ : ∃ k, k = rows.length + 1 - height := ⟨_, rfl⟩
  have hkle : k ≤ rows.length := by omega
  have hdrop : ∀ last : List α, (rows ++ [last]).drop k = rows.drop k ++ [last] := fun last =>
    List.drop_append_of_le_length hkle
  have hrows : ((rows.drop k).flatMap (renderRow cell blank width)).length = (rows.length - k) * width := by
    rw [length_rows fun row hrow => hfit row (List.mem_of_mem_drop hrow), List.length_drop]
  have hin : row.length < (renderRow cell blank width row).length := by
    rwa [length_renderRow (Nat.le_of_lt h)]
  unfold renderRows
  rw [hlen, hlen, ← hk]
  dsimp only
  rw [hdrop, hdrop, List.flatMap_append, List.flatMap_append, List.flatMap_singleton, List.flatMap_singleton,
    List.append_assoc, List.append_assoc, List.set_append_right _ _ (by rw [hrows]; exact Nat.le_add_right _ _),
    hrows, Nat.add_sub_cancel_left, List.set_append_left _ _ hin, renderRow_snoc h, List.length_append,
    List.length_append, List.length_singleton, List.length_singleton]

theorem renderRows_nil : renderRows cell blank width height [] = List.replicate (height * width) blank := by
  unfold renderRows
  rw [List.drop_nil]
  rfl

end

end Terminal
