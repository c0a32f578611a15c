import Mathlib.Data.List.Basic

/-!
# Files

A file opened for writing is its bytes and a position.  Writing behind the end fills the gap with
zero bytes, as POSIX has it.

* `fwrite_ofBytes`, `fwrite_hole`: a write at or behind the end appends;
* `fwrite_inside`, `bytes_fwrite`: a write over a part of the file keeps the rest.
-/

/-- a stream opened with `fopen(.., "wb")` -/
structure CFile where
  bytes : List UInt8
  pos : Nat
deriving DecidableEq, Repr

namespace CFile

def empty : CFile := ⟨[], 0⟩

def ftell (f : CFile) : Nat := f.pos

/-- `fseek(f, n, SEEK_SET)` -/
def seekSet (f : CFile) (n : Nat) : CFile := { f with pos := n }

/-- `fseek(f, n, SEEK_CUR)` for `n ≥ 0` -/
def seekCur (f : CFile) (n : Nat) : CFile := { f with pos := f.pos + n }

/-- writing nothing has no effect, also behind the end -/
def fwrite (f : CFile) (l : List UInt8) : CFile :=
  if l = [] then f
  else
    { bytes := (f.bytes ++ List.replicate (f.pos - f.bytes.length) 0).take f.pos ++ l
        ++ f.bytes.drop (f.pos + l.length)
      pos := f.pos + l.length }

/-- a file with the given bytes, at its end -/
def ofBytes (l : List UInt8) : CFile := ⟨l, l.length⟩

theorem empty_eq : empty = ofBytes [] := rfl

/-- a write behind the end -/
theorem fwrite_hole (l r : List UInt8) (n : Nat) (hr : r ≠ []) :
    (CFile.mk l (l.length + n)).fwrite r = ofBytes (l ++ (List.replicate n 0 ++ r)) := by
  have hlen : l.length + n = (l ++ List.replicate n (0 : UInt8)).length := by
    rw [List.length_append, List.length_replicate]
  rw [fwrite, if_neg hr]
  dsimp only
  rw [Nat.add_sub_cancel_left, List.drop_eq_nil_of_le (by omega), List.append_nil, hlen,
    List.take_length, List.append_assoc, ofBytes, List.length_append, List.length_append,
    List.length_append, Nat.add_assoc]

theorem fwrite_ofBytes (l r : List UInt8) : (ofBytes l).fwrite r = ofBytes (l ++ r) := by
  by_cases hr : r = []
  · rw [fwrite, if_pos hr, hr, List.append_nil]
  · exact fwrite_hole l r 0 hr

/-- a write over as many bytes of the file -/
theorem fwrite_inside (a old c : List UInt8) {l : List UInt8} (hl : l.length = old.length) :
    (CFile.mk (a ++ (old ++ c)) a.length).fwrite l
      = ⟨a ++ (l ++ c), a.length + l.length⟩ := by
  by_cases h0 : l = []
  · subst h0
    rw [fwrite, if_pos rfl, List.eq_nil_of_length_eq_zero hl.symm]
    rfl
  · have hz : a.length - (a ++ (old ++ c)).length = 0 := by
      rw [List.length_append]
      omega
    have hdrop : (a ++ (old ++ c)).drop (a.length + old.length) = c := by
      rw [← List.append_assoc, ← List.length_append, List.drop_left]
    rw [fwrite, if_neg h0]
    dsimp only
    rw [hz, List.replicate_zero, List.append_nil, hl, hdrop, List.take_left, List.append_assoc]

/-- a write that ends inside the file -/
theorem bytes_fwrite {f r : List UInt8} {p : Nat} (h : p + r.length ≤ f.length) :
    ((CFile.mk f p).fwrite r).bytes = f.take p ++ (r ++ f.drop (p + r.length)) := by
  by_cases h0 : r = []
  · rw [fwrite, if_pos h0, h0, List.nil_append, List.length_nil, Nat.add_zero, List.take_append_drop]
  · have hz : p - f.length = 0 := by omega
    rw [fwrite, if_neg h0]
    dsimp only
    rw [hz, List.replicate_zero, List.append_nil, List.append_assoc]

end CFile
