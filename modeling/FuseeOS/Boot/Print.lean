import FuseeOS.Lib.Numeral

/-!
# `boot_printf`

`src/libboot/print.c`, which formats into a buffer of its own and prints that.  A length modifier `h` selects
`TYPE_CHAR` and `hh` selects `TYPE_SHORT`.

* **`fmt_canonical`**    `fmt_udec` and `fmt_hex` write the numeral of a number;
* `printfLoop_piece`     one piece of the format;
* `bootPrintf_eq`        the code renders the format in which `h` and `hh` have changed places;
* `boot_printf_right`    when this is the rendering of the format itself.
-/

namespace FuseeOS
open Numeral

/-- a variadic argument: a register or stack slot, or the string that a `const char*` points to -/
inductive Arg where
  | word (v : BitVec 64)
  | str (s : List UInt8)
deriving DecidableEq, Repr

inductive ArgType where
  | char | short | int | long | longLong | sizeT | intmaxT
deriving DecidableEq, Repr

/-- `hex_chars` -/
def hexChars : List UInt8 := [48, 49, 50, 51, 52, 53, 54, 55, 56, 57, 97, 98, 99, 100, 101, 102]

def hexChar (v : Nat) : UInt8 := hexChars.getD v 0

/-- `print` of a buffer that holds a NUL -/
def print : List UInt8 → List UInt8
  | [] => []
  | c :: cs => if c = 0 then [] else c :: print cs

/-- `fmt_udec`: 20 digits, the divisor goes from `10 ^ 19` down -/
def fmtUdec (num : Nat) : List UInt8 :=
  let buffer := digitLoop hexChar (fun divisor => num / divisor % 10) (fun divisor => divisor / 10) 20 (10^19) []
  if buffer.length = 0 then [hexChar 0] else buffer

/-- `fmt_hex`: 16 digits, the shift goes from 60 down -/
def fmtHex (num : Nat) : List UInt8 :=
  let buffer := digitLoop hexChar (fun shift => num >>> shift &&& 0xf) (fun shift => shift - 4) 16 60 []
  if buffer.length = 0 then [hexChar 0] else buffer

/-- `none` where there is no such argument -/
def integerArg (args : List Arg) (type : ArgType) : Option (Nat × List Arg) :=
  match args with
  | .word v :: args =>
    match type with
    | .char => some (v.toNat % 2^32 % 2^8, args)
    | .short => some (v.toNat % 2^32 % 2^16, args)
    | .int => some (v.toNat % 2^32, args)
    | .long => some (v.toNat, args)
    | .longLong => some (v.toNat, args)
    | .sizeT => some (v.toNat, args)
    | .intmaxT => some (v.toNat, args)
  | _ => none

/-- what a character of a directive does -/
inductive Directive where
  /-- the directive goes on, with this `arg_type` -/
  | type (t : ArgType)
  /-- `format_over`: the string to append, and the arguments that are left -/
  | over (substr : List UInt8) (args : List Arg)
  /-- an argument is missing, or of another kind -/
  | fault

/-- the string of an integer argument -/
def integerCase (fmt : Nat → List UInt8) (type : ArgType) (args : List Arg) : Directive :=
  match integerArg args type with
  | some (v, args) => .over (fmt v) args
  | none => .fault

/-- the `switch` of `boot_printf` -/
def directive (c : UInt8) (type : ArgType) (args : List Arg) : Directive :=
  if c = 'h'.toUInt8 then .type (if type = .char then .short else .char)
  else if c = 'l'.toUInt8 then .type (if type = .long then .longLong else .long)
  else if c = 'q'.toUInt8 then .type .longLong
  else if c = 'z'.toUInt8 ∨ c = 'Z'.toUInt8 then .type .sizeT
  else if c = 'j'.toUInt8 then .type .longLong
  else if c = '%'.toUInt8 then .over ['%'.toUInt8] args
  else if c = 's'.toUInt8 then
    match args with
    | .str s :: args => .over s args
    | _ => .fault
  else if c = 'c'.toUInt8 then
    match args with
    | .word v :: args => .over (print [UInt8.ofNat v.toNat, 0]) args
    | _ => .fault
  else if c = 'x'.toUInt8 then integerCase fmtHex type args
  else if c = 'u'.toUInt8 then integerCase fmtUdec type args
  else .type type

/-- the size of `buffer` -/
def BUFFER : Nat := 1024

/-- appends to the buffer; `none` where the C code writes behind it -/
def appendStr (buffer substr : List UInt8) : Option (List UInt8) :=
  if buffer.length + substr.length ≤ BUFFER then some (buffer ++ substr) else none

/-- the two loops of `boot_printf`; inside a directive there is an `arg_type` -/
def printfLoop : List UInt8 → Option ArgType → List Arg → List UInt8 → Option (List UInt8)
  | [], _, _, buffer => some buffer
  | c :: fmt, none, args, buffer =>
    if c ≠ '%'.toUInt8 then (appendStr buffer [c]).bind (printfLoop fmt none args)
    else printfLoop fmt (some .int) args buffer
  | c :: fmt, some type, args, buffer =>
    match directive c type args with
    | .type t => printfLoop fmt (some t) args buffer
    | .over substr args => (appendStr buffer substr).bind (printfLoop fmt none args)
    | .fault => none

/-- the characters that `boot_printf` prints; `fmt` is without its NUL -/
def bootPrintf (fmt : List UInt8) (args : List Arg) : Option (List UInt8) :=
  (printfLoop fmt none args []).bind fun buffer =>
    if buffer.length < BUFFER then some (print (buffer ++ [0])) else none

/-! ## what a format means in C -/

inductive Modifier where
  | none | h | hh | l | ll | q | z | j
deriving DecidableEq, Repr

inductive Conv where
  | x | u
deriving DecidableEq, Repr

/-- a piece of a format, with the argument that belongs to it -/
inductive Piece where
  | lit (c : UInt8) (h : c ≠ '%'.toUInt8 ∧ c ≠ 0)
  | percent
  | str (s : List UInt8) (h : 0 ∉ s)
  | chr (v : BitVec 64) (h : UInt8.ofNat v.toNat ≠ 0)
  | num (m : Modifier) (c : Conv) (v : BitVec 64)

def Modifier.bytes : Modifier → List UInt8
  | .none => []
  | .h => ['h'.toUInt8]
  | .hh => ['h'.toUInt8, 'h'.toUInt8]
  | .l => ['l'.toUInt8]
  | .ll => ['l'.toUInt8, 'l'.toUInt8]
  | .q => ['q'.toUInt8]
  | .z => ['z'.toUInt8]
  | .j => ['j'.toUInt8]

def Conv.byte : Conv → UInt8
  | .x => 'x'.toUInt8
  | .u => 'u'.toUInt8

def Piece.format : Piece → List UInt8
  | .lit c _ => [c]
  | .percent => ['%'.toUInt8, '%'.toUInt8]
  | .str _ _ => ['%'.toUInt8, 's'.toUInt8]
  | .chr _ _ => ['%'.toUInt8, 'c'.toUInt8]
  | .num m c _ => '%'.toUInt8 :: (m.bytes ++ [c.byte])

def Piece.args : Piece → List Arg
  | .str s _ => [.str s]
  | .chr v _ => [.word v]
  | .num _ _ v => [.word v]
  | _ => []

/-- the width that a modifier converts to -/
def Modifier.bits : Modifier → Nat
  | .none => 32
  | .h => 16
  | .hh => 8
  | _ => 64

def digitChar (d : Nat) : UInt8 := if d < 10 then UInt8.ofNat (48 + d) else UInt8.ofNat (87 + d)

def Conv.base : Conv → Nat
  | .x => 16
  | .u => 10

/-- the C rendering of a piece -/
def Piece.text : Piece → List UInt8
  | .lit c _ => [c]
  | .percent => ['%'.toUInt8]
  | .str s _ => s
  | .chr v _ => [UInt8.ofNat v.toNat]
  | .num m c v => numeral digitChar c.base (v.toNat % 2^m.bits)

def formatOf (ps : List Piece) : List UInt8 := ps.flatMap Piece.format

def argsOf (ps : List Piece) : List Arg := ps.flatMap Piece.args

/-- the C rendering of a format -/
def render (ps : List Piece) : List UInt8 := ps.flatMap Piece.text

/-- the other one of `h` and `hh` -/
def Modifier.exchange : Modifier → Modifier
  | .h => .hh
  | .hh => .h
  | m => m

def Piece.exchange : Piece → Piece
  | .num m c v => .num m.exchange c v
  | p => p

/-- the argument of `h` or `hh` has its bits 8 to 15 clear -/
def Piece.Narrow : Piece → Prop
  | .num .h _ v => v.toNat % 2^16 < 2^8
  | .num .hh _ v => v.toNat % 2^16 < 2^8
  | _ => True

/-- the format does not use the modifier -/
def Without (m : Modifier) (ps : List Piece) : Prop := ∀ c v, Piece.num m c v ∉ ps

/-! ## digits -/

theorem hexChar_eq : ∀ d < 16, hexChar d = digitChar d := by decide

theorem digitChar_ne_zero : ∀ d < 16, digitChar d ≠ 0 := by decide

/-- the value of a digit -/
def digitValue (c : UInt8) : Nat := if c < 97 then c.toNat - 48 else c.toNat - 87

theorem digitValue_digitChar : ∀ d < 16, digitValue (digitChar d) = d := by decide

theorem Conv.base_le (c : Conv) : 1 < c.base ∧ c.base ≤ 16 := by
  cases c <;> decide

/-- the digits in the buffer, or a zero -/
theorem numeral_buffer {b n : Nat} (hb : b ≤ 16) (hb1 : 1 < b) :
    (if ((Nat.digits b n).reverse.map hexChar).length = 0 then [hexChar 0]
      else (Nat.digits b n).reverse.map hexChar) = numeral digitChar b n := by
  have hmap : (Nat.digits b n).reverse.map hexChar = (Nat.digits b n).reverse.map digitChar :=
    List.map_congr_left fun d hd =>
      hexChar_eq d (Nat.lt_of_lt_of_le (Nat.digits_lt_base hb1 (List.mem_reverse.mp hd)) hb)
  rw [List.length_map, List.length_reverse]
  by_cases h0 : n = 0
  · rw [h0, numeral_zero, Nat.digits_zero]
    rfl
  · have hne : (Nat.digits b n).length ≠ 0 := fun h =>
      h0 (Nat.digits_eq_nil_iff_eq_zero.mp (List.length_eq_zero_iff.mp h))
    rw [if_neg hne, numeral_of_ne _ _ h0, hmap]

theorem fmtUdec_eq {n : Nat} (h : n < 2^64) : fmtUdec n = numeral digitChar 10 n := by
  have hloop := @digitLoop_eq UInt8 hexChar (fun divisor => n / divisor % 10) (fun divisor => divisor / 10)
    (fun k => if k = 0 then 0 else 10^(k - 1)) 10 n (by decide) (fun k => rfl) (fun k => ?_) 20
    (Nat.lt_trans h (by decide))
  · unfold fmtUdec
    rw [show (10^19 : Nat) = (if 20 = 0 then 0 else 10^(20 - 1)) from rfl, hloop]
    exact numeral_buffer (by decide) (by decide)
  · cases k with
    | zero => rfl
    | succ k => exact Nat.pow_div (Nat.le_add_left 1 k) (by decide)

theorem fmtHex_eq {n : Nat} (h : n < 2^64) : fmtHex n = numeral digitChar 16 n := by
  have hloop := @digitLoop_eq UInt8 hexChar (fun shift => n >>> shift &&& 0xf) (fun shift => shift - 4)
    (fun k => 4 * k - 4) 16 n (by decide) (fun k => ?_) (fun k => ?_) 16 h
  · unfold fmtHex
    rw [hloop]
    exact numeral_buffer (by decide) (by decide)
  · have h4 : 4 * (k + 1) - 4 = 4 * k := by omega
    have hmask : ∀ m, m &&& 0xf = m % 16 := fun m => Nat.and_two_pow_sub_one_eq_mod m 4
    rw [h4, hmask, Nat.shiftRight_eq_div_pow, Nat.pow_mul]
  · omega

/-- `s` is the numeral of `n` in base `b`, as C writes it, and fits a buffer of `size` bytes with its NUL -/
structure Canonical (b size n : Nat) (s : List UInt8) : Prop where
  digits : ∀ c ∈ s, ∃ d < b, c = digitChar d
  value : Nat.ofDigits b (s.reverse.map digitValue) = n
  nonempty : s ≠ []
  lead : s.head? = some (digitChar 0) → n = 0 ∧ s = [digitChar 0]
  fits : s.length < size

theorem canonical_numeral {b k n : Nat} (hb1 : 1 < b) (hb : b ≤ 16) (hk : 0 < k) (h : n < b^k) :
    Canonical b (k + 1) n (numeral digitChar b n) := by
  have hv : ∀ d < b, digitValue (digitChar d) = d := fun d hd => digitValue_digitChar d (Nat.lt_of_lt_of_le hd hb)
  refine ⟨fun c hc => ?_, ofDigits_numeral hb1 hv n, numeral_ne_nil _ _ _, fun hlead => ?_, ?_⟩
  · obtain ⟨d, hd, hc⟩ := mem_numeral hb1 hc
    exact ⟨d, hd, hc.symm⟩
  · have h0 := numeral_head hb1 hv hlead
    rw [h0]
    exact ⟨rfl, numeral_zero _ _⟩
  · exact Nat.lt_succ_of_le (numeral_length_of_lt _ hb1 hk h)

/-- **Both formatters are exact**, within their buffers of 21 and 17 bytes. -/
theorem fmt_canonical (v : BitVec 64) :
    Canonical 10 21 v.toNat (fmtUdec v.toNat) ∧ Canonical 16 17 v.toNat (fmtHex v.toNat) := by
  have hlt : v.toNat < 2^64 := v.isLt
  rw [fmtUdec_eq hlt, fmtHex_eq hlt]
  refine ⟨canonical_numeral (by decide) (by decide) (by decide) ?_,
    canonical_numeral (by decide) (by decide) (by decide) hlt⟩
  exact Nat.lt_trans hlt (by decide)

/-- interior zeros, and the largest number -/
example : fmtUdec 1000020003 = "1000020003".toUTF8.toList := by decide +kernel
example : fmtHex (2^64 - 1) = "ffffffffffffffff".toUTF8.toList := by decide +kernel

/-! ## one piece -/

/-- the `arg_type` that a modifier selects -/
def Modifier.argType : Modifier → ArgType
  | .none => .int
  | .h => .char
  | .hh => .short
  | .l => .long
  | .ll => .longLong
  | .q => .longLong
  | .z => .sizeT
  | .j => .longLong

section
variable {type : ArgType} {args rest : List Arg} {fmt buffer : List UInt8}

theorem printfLoop_type {c : UInt8} {t : ArgType} (h : directive c type args = .type t) :
    printfLoop (c :: fmt) (some type) args buffer = printfLoop fmt (some t) args buffer := by
  rw [printfLoop, h]

theorem printfLoop_over {c : UInt8} {s : List UInt8} (h : directive c type args = .over s rest) :
    printfLoop (c :: fmt) (some type) args buffer = (appendStr buffer s).bind (printfLoop fmt none rest) := by
  rw [printfLoop, h]

theorem printfLoop_modifier (m : Modifier) :
    printfLoop (m.bytes ++ fmt) (some .int) args buffer = printfLoop fmt (some m.argType) args buffer := by
  cases m with
  | none => rfl
  | h => exact printfLoop_type rfl
  | hh => exact (printfLoop_type rfl).trans (printfLoop_type rfl)
  | l => exact printfLoop_type rfl
  | ll => exact (printfLoop_type rfl).trans (printfLoop_type rfl)
  | q => exact printfLoop_type rfl
  | z => exact printfLoop_type rfl
  | j => exact printfLoop_type rfl

/-- **the width of an argument**: that of the other one of `h` and `hh` -/
theorem integerArg_modifier (m : Modifier) (v : BitVec 64) :
    integerArg (.word v :: rest) m.argType = some (v.toNat % 2^m.exchange.bits, rest) := by
  have hv : v.toNat % 2^64 = v.toNat := Nat.mod_eq_of_lt v.isLt
  have hchar : v.toNat % 2^32 % 2^8 = v.toNat % 2^8 := Nat.mod_mod_of_dvd _ (by decide)
  have hshort : v.toNat % 2^32 % 2^16 = v.toNat % 2^16 := Nat.mod_mod_of_dvd _ (by decide)
  cases m with
  | none => rfl
  | h => exact congrArg (fun n => some (n, rest)) hchar
  | hh => exact congrArg (fun n => some (n, rest)) hshort
  | _ => exact congrArg (fun n => some (n, rest)) hv.symm

/-- the formatter of a conversion -/
def Conv.formatter : Conv → Nat → List UInt8
  | .x => fmtHex
  | .u => fmtUdec

theorem Conv.formatter_eq (c : Conv) {n : Nat} (h : n < 2^64) : c.formatter n = numeral digitChar c.base n := by
  cases c with
  | x => exact fmtHex_eq h
  | u => exact fmtUdec_eq h

theorem directive_conv (c : Conv) : directive c.byte type args = integerCase c.formatter type args := by
  cases c with
  | x => rfl
  | u => rfl

theorem printfLoop_conv (m : Modifier) (c : Conv) (v : BitVec 64) :
    printfLoop (c.byte :: fmt) (some m.argType) (.word v :: rest) buffer =
      (appendStr buffer (numeral digitChar c.base (v.toNat % 2^m.exchange.bits))).bind
        (printfLoop fmt none rest) := by
  have hlt : v.toNat % 2^m.exchange.bits < 2^64 := Nat.lt_of_le_of_lt (Nat.mod_le _ _) v.isLt
  rw [← c.formatter_eq hlt]
  refine printfLoop_over ?_
  rw [directive_conv, integerCase, integerArg_modifier]

theorem printfLoop_percent :
    printfLoop ('%'.toUInt8 :: fmt) none args buffer = printfLoop fmt (some .int) args buffer := by
  rw [printfLoop, if_neg (not_not.mpr rfl)]

/-- **One piece** appends the rendering of the piece with the other modifier. -/
theorem printfLoop_piece (p : Piece) :
    printfLoop (p.format ++ fmt) none (p.args ++ rest) buffer =
      (appendStr buffer p.exchange.text).bind (printfLoop fmt none rest) := by
  cases p with
  | lit c h =>
    show printfLoop (c :: fmt) none rest buffer = _
    rw [printfLoop, if_pos h.1]
    rfl
  | percent => exact printfLoop_percent.trans (printfLoop_over rfl)
  | str s h => exact printfLoop_percent.trans (printfLoop_over rfl)
  | chr v h =>
    have hprint : print [UInt8.ofNat v.toNat, 0] = [UInt8.ofNat v.toNat] := by
      rw [print, if_neg h]
      rfl
    have hover : directive 'c'.toUInt8 .int (.word v :: rest) = .over [UInt8.ofNat v.toNat] rest :=
      congrArg (fun s => Directive.over s rest) hprint
    exact printfLoop_percent.trans (printfLoop_over hover)
  | num m c v =>
    have hfmt : (Piece.num m c v).format ++ fmt = '%'.toUInt8 :: (m.bytes ++ c.byte :: fmt) := by
      simp [Piece.format]
    rw [hfmt, printfLoop_percent, printfLoop_modifier]
    exact printfLoop_conv m c v

end

/-! ## a format -/

theorem render_cons (p : Piece) (ps : List Piece) : render (p :: ps) = p.text ++ render ps :=
  List.flatMap_cons

theorem printfLoop_pieces (ps : List Piece) (buffer : List UInt8) (hb : buffer.length ≤ BUFFER) :
    printfLoop (formatOf ps) none (argsOf ps) buffer =
      if (buffer ++ render (ps.map Piece.exchange)).length ≤ BUFFER then
        some (buffer ++ render (ps.map Piece.exchange))
      else none := by
  induction ps generalizing buffer with
  | nil =>
    show some buffer = if (buffer ++ []).length ≤ BUFFER then some (buffer ++ []) else none
    rw [List.append_nil, if_pos hb]
  | cons p ps ih =>
    show printfLoop (p.format ++ formatOf ps) none (p.args ++ argsOf ps) buffer = _
    rw [printfLoop_piece, List.map_cons, render_cons, ← List.append_assoc, appendStr]
    by_cases hroom : buffer.length + p.exchange.text.length ≤ BUFFER
    · rw [if_pos hroom, Option.bind_some, ih _ (by rwa [List.length_append])]
    · have hlong : ¬ (buffer ++ p.exchange.text ++ render (ps.map Piece.exchange)).length ≤ BUFFER := by
        rw [List.length_append, List.length_append]
        omega
      rw [if_neg hroom, if_neg hlong, Option.bind_none]

theorem text_ne_zero (p : Piece) : ∀ c ∈ p.text, c ≠ 0 := by
  intro c hc
  cases p with
  | lit d h =>
    rw [List.mem_singleton.mp hc]
    exact h.2
  | percent =>
    rw [List.mem_singleton.mp hc]
    decide
  | str s h => exact fun e => h (e ▸ hc)
  | chr v h =>
    rw [List.mem_singleton.mp hc]
    exact h
  | num m d v =>
    obtain ⟨k, hk, rfl⟩ := mem_numeral d.base_le.1 hc
    exact digitChar_ne_zero k (Nat.lt_of_lt_of_le hk d.base_le.2)

theorem print_append {l : List UInt8} (h : ∀ c ∈ l, c ≠ 0) : print (l ++ [0]) = l := by
  induction l with
  | nil => rfl
  | cons c l ih =>
    rw [List.cons_append, print, if_neg (h c List.mem_cons_self),
      ih fun d hd => h d (List.mem_cons_of_mem _ hd)]

/-- **The code renders the format in which `h` and `hh` have changed places**, as long as that fits the
buffer. -/
theorem bootPrintf_eq (ps : List Piece) : bootPrintf (formatOf ps) (argsOf ps) =
    if (render (ps.map Piece.exchange)).length < BUFFER then some (render (ps.map Piece.exchange)) else none := by
  have hprint : print (render (ps.map Piece.exchange) ++ [0]) = render (ps.map Piece.exchange) := by
    refine print_append fun c hc => ?_
    obtain ⟨p, -, hp⟩ := List.mem_flatMap.mp hc
    exact text_ne_zero p c hp
  rw [bootPrintf, printfLoop_pieces ps [] (by decide), List.nil_append]
  by_cases hlt : (render (ps.map Piece.exchange)).length < BUFFER
  · rw [if_pos (Nat.le_of_lt hlt), if_pos hlt, Option.bind_some, if_pos hlt, hprint]
  · rw [if_neg hlt]
    split_ifs with hle
    · rw [Option.bind_some, if_neg hlt]
    · rfl

/-- the printed characters are those of the format exactly when exchanging the modifiers is no change -/
theorem bootPrintf_iff {ps : List Piece} (hlen : (render ps).length ≤ 1023) :
    bootPrintf (formatOf ps) (argsOf ps) = some (render ps) ↔ render (ps.map Piece.exchange) = render ps := by
  rw [bootPrintf_eq]
  constructor
  · intro h
    split_ifs at h
    exact Option.some.inj h
  · intro h
    have hlt : (render ps).length < BUFFER := Nat.lt_succ_of_le hlen
    rw [h, if_pos hlt]

/-! ## the modifiers `h` and `hh` -/

/-- a format whose pieces can only become longer changes when one of them does -/
theorem flatMap_eq_of_length_le {β : Type} {f g : β → List UInt8} {l : List β}
    (hle : ∀ x ∈ l, (g x).length ≤ (f x).length) (h : l.flatMap f = l.flatMap g) :
    ∀ x ∈ l, f x = g x := by
  have hlen : ∀ l : List β, (∀ x ∈ l, (g x).length ≤ (f x).length) →
      (l.flatMap g).length ≤ (l.flatMap f).length := by
    intro l hl
    induction l with
    | nil => exact Nat.le_refl _
    | cons x l ih =>
      rw [List.flatMap_cons, List.flatMap_cons, List.length_append, List.length_append]
      exact Nat.add_le_add (hl x List.mem_cons_self) (ih fun y hy => hl y (List.mem_cons_of_mem _ hy))
  induction l with
  | nil => exact fun _ hx => absurd hx List.not_mem_nil
  | cons x l ih =>
    rw [List.flatMap_cons, List.flatMap_cons] at h
    have hx := hle x List.mem_cons_self
    have hl := hlen l fun y hy => hle y (List.mem_cons_of_mem _ hy)
    have hsum := congrArg List.length h
    rw [List.length_append, List.length_append] at hsum
    obtain ⟨he, hrest⟩ := List.append_inj h (by omega)
    intro y hy
    rcases List.mem_cons.mp hy with rfl | hy
    · exact he
    · exact ih (fun z hz => hle z (List.mem_cons_of_mem _ hz)) hrest y hy

theorem exchange_text_of_narrow {p : Piece} (h : p.Narrow) : p.exchange.text = p.text := by
  have hmod : ∀ {n : Nat}, n % 2^16 < 2^8 → n % 2^8 = n % 2^16 := fun hn => by omega
  cases p with
  | num m c v =>
    cases m with
    | h => exact congrArg (numeral digitChar c.base) (hmod h)
    | hh => exact congrArg (numeral digitChar c.base) (hmod h).symm
    | _ => rfl
  | _ => rfl

/-- a piece with `h` or `hh` that both render alike -/
theorem narrow_of_exchange_text {p : Piece} (h : p.exchange.text = p.text) : p.Narrow := by
  have hinj : ∀ {c : Conv} {n m : Nat}, numeral digitChar c.base n = numeral digitChar c.base m → n = m :=
    fun {c} _ _ e => numeral_inj c.base_le.1
      (fun d hd => digitValue_digitChar d (Nat.lt_of_lt_of_le hd c.base_le.2)) e
  cases p with
  | num m c v =>
    cases m with
    | h =>
      have e : v.toNat % 2^8 = v.toNat % 2^16 := hinj h
      show v.toNat % 2^16 < 2^8
      omega
    | hh =>
      have e : v.toNat % 2^16 = v.toNat % 2^8 := hinj h
      show v.toNat % 2^16 < 2^8
      omega
    | _ => trivial
  | _ => trivial

/-- `h` converts to the wider type -/
theorem mod_char_le_mod_short (n : Nat) : n % 2^8 ≤ n % 2^16 := by
  omega

theorem exchange_length_le {ps : List Piece} (hh : Without .hh ps) :
    ∀ p ∈ ps, p.exchange.text.length ≤ p.text.length := by
  intro p hp
  cases p with
  | num m c v =>
    cases m with
    | h => exact numeral_length_le _ _ (mod_char_le_mod_short v.toNat)
    | hh => exact absurd hp (hh c v)
    | _ => exact Nat.le_refl _
  | _ => exact Nat.le_refl _

theorem length_le_exchange {ps : List Piece} (hh : Without .h ps) :
    ∀ p ∈ ps, p.text.length ≤ p.exchange.text.length := by
  intro p hp
  cases p with
  | num m c v =>
    cases m with
    | hh => exact numeral_length_le _ _ (mod_char_le_mod_short v.toNat)
    | h => exact absurd hp (hh c v)
    | _ => exact Nat.le_refl _
  | _ => exact Nat.le_refl _

theorem render_exchange (ps : List Piece) :
    render (ps.map Piece.exchange) = ps.flatMap fun p => p.exchange.text := List.flatMap_map ..

theorem render_exchange_of_narrow {ps : List Piece} (h : ∀ p ∈ ps, p.Narrow) :
    render (ps.map Piece.exchange) = render ps := by
  rw [render_exchange]
  exact List.flatMap_congr fun p hp => exchange_text_of_narrow (h p hp)

/-- with only one of the two modifiers every piece has to render alike -/
theorem narrow_of_render_exchange {ps : List Piece} (hone : Without .h ps ∨ Without .hh ps)
    (h : render (ps.map Piece.exchange) = render ps) : ∀ p ∈ ps, p.Narrow := by
  rw [render_exchange] at h
  intro p hp
  refine narrow_of_exchange_text ?_
  rcases hone with hone | hone
  · exact flatMap_eq_of_length_le (length_le_exchange hone) h p hp
  · exact (flatMap_eq_of_length_le (exchange_length_le hone) h.symm p hp).symm

/-- **`boot_printf` renders like `printf`** if and only if the format means the same with `h` and `hh`
exchanged: this is so when bits 8 to 15 of their arguments are clear, and only then if the format uses
only one of them. -/
theorem boot_printf_right (ps : List Piece) (hlen : (render ps).length ≤ 1023) :
    (bootPrintf (formatOf ps) (argsOf ps) = some (render ps) ↔ render (ps.map Piece.exchange) = render ps) ∧
      ((∀ p ∈ ps, p.Narrow) → render (ps.map Piece.exchange) = render ps) ∧
      (Without .h ps ∨ Without .hh ps →
        render (ps.map Piece.exchange) = render ps → ∀ p ∈ ps, p.Narrow) :=
  ⟨bootPrintf_iff hlen, render_exchange_of_narrow, narrow_of_render_exchange⟩

/-- `%u` of 7 and `%hx` of `v` -/
def twoPieces (v : BitVec 64) : List Piece := [.num .none .u 7, .num .h .x v]

theorem twoPieces_short (v : BitVec 64) : (render (twoPieces v)).length ≤ 1023 := by
  have hnum : ∀ c : Conv, ∀ n < 2^32, (numeral digitChar c.base n).length ≤ 32 := by
    intro c n hn
    have hd : (Nat.digits c.base n).length ≤ 32 := by
      refine (Nat.digits_length_le_iff c.base_le.1 n).mpr (Nat.lt_of_lt_of_le hn ?_)
      exact Nat.pow_le_pow_left c.base_le.1 32
    rw [numeral_length]
    omega
  have h7 := hnum .u (BitVec.toNat 7#64 % 2^32) (by decide)
  have hv := hnum .x (v.toNat % 2^16) (by omega)
  show (numeral digitChar Conv.u.base (BitVec.toNat 7#64 % 2^32) ++
    (numeral digitChar Conv.x.base (v.toNat % 2^16) ++ [])).length ≤ 1023
  rw [List.length_append, List.length_append, List.length_nil]
  omega

/-- a narrow argument is printed as it should be -/
theorem boot_printf_right_narrow :
    bootPrintf (formatOf (twoPieces 0xab)) (argsOf (twoPieces 0xab)) = some (render (twoPieces 0xab)) := by
  obtain ⟨hiff, hnarrow, -⟩ := boot_printf_right (twoPieces 0xab) (twoPieces_short _)
  refine hiff.mpr (hnarrow ?_)
  intro p hp
  rcases List.mem_cons.mp hp with rfl | hp
  · trivial
  · rw [List.mem_singleton.mp hp]
    show BitVec.toNat 0xab#64 % 2^16 < 2^8
    decide

/-- of `0x1234` only the low byte is printed -/
theorem boot_printf_wide : (render (twoPieces 0x1234)).length ≤ 1023 ∧
    bootPrintf (formatOf (twoPieces 0x1234)) (argsOf (twoPieces 0x1234)) ≠ some (render (twoPieces 0x1234)) := by
  refine ⟨twoPieces_short _, fun h => ?_⟩
  have hsame := (bootPrintf_iff (twoPieces_short 0x1234)).mp h
  have hwithout : Without .hh (twoPieces 0x1234) := fun c v hmem => by
    simp [twoPieces] at hmem
  have hnarrow := narrow_of_render_exchange (Or.inr hwithout) hsame (.num .h .x 0x1234)
    (List.mem_cons_of_mem _ List.mem_cons_self)
  exact absurd hnarrow (by decide : ¬ BitVec.toNat 0x1234#64 % 2^16 < 2^8)

end FuseeOS
