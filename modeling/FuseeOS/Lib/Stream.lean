import Mathlib.Data.List.Basic

/-!
# Files opened for reading

A stream is the bytes still to come and the end-of-file indicator, which only a read behind the last
byte sets.

* `scan_append`, `scan_all`   reading up to a delimiter, or up to the end;
* `scan_fuel`                 what is left is less.
-/

/-- a stream opened with `fopen(.., "rb")` -/
structure CStream where
  bytes : List UInt8
  eof : Bool
deriving DecidableEq, Repr

namespace CStream

def feof (f : CStream) : Bool := f.eof

/-- `none` is `EOF` -/
def fgetc (f : CStream) : Option UInt8 × CStream :=
  match f.bytes with
  | [] => (none, { f with eof := true })
  | c :: cs => (some c, { f with bytes := cs })

/-- `fgetc` until a character satisfies `p` or the end is read: the characters before, the last one, and
the stream behind it -/
def scanBytes (p : UInt8 → Bool) (eof : Bool) : List UInt8 → List UInt8 × Option UInt8 × CStream
  | [] => ([], none, ⟨[], true⟩)
  | c :: cs =>
    if p c then ([], some c, ⟨cs, eof⟩)
    else
      let r := scanBytes p eof cs
      (c :: r.1, r.2)

def scan (p : UInt8 → Bool) (f : CStream) : List UInt8 × Option UInt8 × CStream :=
  scanBytes p f.eof f.bytes

/-- how often a stream can still be read before it is at its end -/
def fuel (f : CStream) : Nat := 2 * f.bytes.length + (if f.eof then 0 else 1)

section
variable {p : UInt8 → Bool} {e : Bool}

theorem scan_cons (c : UInt8) (cs : List UInt8) (hc : p c = false) :
    scan p ⟨c :: cs, e⟩ = (c :: (scan p ⟨cs, e⟩).1, (scan p ⟨cs, e⟩).2) := by
  rw [scan, scanBytes, hc]
  rfl

/-- **up to a delimiter** -/
theorem scan_append {l r : List UInt8} {c : UInt8} (hl : ∀ x ∈ l, p x = false) (hc : p c = true) :
    scan p ⟨l ++ c :: r, e⟩ = (l, some c, ⟨r, e⟩) := by
  induction l with
  | nil =>
    rw [List.nil_append, scan, scanBytes, if_pos hc]
  | cons x l ih =>
    rw [List.cons_append, scan_cons x _ (hl x List.mem_cons_self),
      ih fun y hy => hl y (List.mem_cons_of_mem _ hy)]

/-- **up to the end** -/
theorem scan_all {l : List UInt8} (hl : ∀ x ∈ l, p x = false) :
    scan p ⟨l, e⟩ = (l, none, ⟨[], true⟩) := by
  induction l with
  | nil => rfl
  | cons x l ih =>
    rw [scan_cons x _ (hl x List.mem_cons_self), ih fun y hy => hl y (List.mem_cons_of_mem _ hy)]

/-- a stream that is not at its end is read further -/
theorem scan_fuel (p : UInt8 → Bool) (f : CStream) (h : f.eof = false) : (f.scan p).2.2.fuel < f.fuel := by
  obtain ⟨bytes, eof⟩ := f
  cases h
  induction bytes with
  | nil => exact Nat.zero_lt_one
  | cons c cs ih =>
    have hlt : fuel ⟨cs, false⟩ < fuel ⟨c :: cs, false⟩ := by
      simp only [fuel, List.length_cons]
      omega
    cases hc : p c with
    | true =>
      rw [scan, scanBytes, if_pos hc]
      exact hlt
    | false =>
      rw [scan_cons c cs hc]
      exact Nat.lt_trans ih hlt

/-- reading never makes more to read -/
theorem scan_fuel_le (p : UInt8 → Bool) (f : CStream) : (f.scan p).2.2.fuel ≤ f.fuel := by
  obtain ⟨bytes, eof⟩ := f
  cases eof with
  | false => exact Nat.le_of_lt (scan_fuel p ⟨bytes, false⟩ rfl)
  | true =>
    induction bytes with
    | nil => exact Nat.le_refl _
    | cons c cs ih =>
      have hle : fuel ⟨cs, true⟩ ≤ fuel ⟨c :: cs, true⟩ := by
        simp only [fuel, List.length_cons]
        omega
      cases hc : p c with
      | true =>
        rw [scan, scanBytes, if_pos hc]
        exact hle
      | false =>
        rw [scan_cons c cs hc]
        exact Nat.le_trans ih hle

theorem fgetc_fuel_le (f : CStream) : f.fgetc.2.fuel ≤ f.fuel := by
  obtain ⟨bytes, eof⟩ := f
  cases bytes with
  | nil => exact Nat.zero_le _
  | cons c cs =>
    exact Nat.add_le_add_right (Nat.mul_le_mul_left 2 (Nat.le_succ _)) _

end

end CStream
