import FuseeOS.Lib.Stream

/-!
# The specification files of the tools

`tools/spec_parser.c`, which `mkvolume` and `mkinitram` call until it reports the end of the file.  The
end is noticed only after a read behind it: behind a line end there is one more record for the parser,
with the type `EOF` and without names.

* `parseSpec_fuel`    every record is read further on, so the loop of the tools ends;
* `parseSpecs_line`   what a terminated line gives;
* `parseSpecs_eq`     the records of a text, and the one behind a last line end;
* `spec_records`      the records are those of the text if and only if the text ends within a line.
-/

namespace FuseeOS
open CStream

def LF : UInt8 := 10
def CR : UInt8 := 13
def COMMA : UInt8 := 44
def HASH : UInt8 := 35

/-- the strings are without their NUL -/
structure Spec where
  type : UInt8
  dst : List UInt8
  src : List UInt8
deriving DecidableEq, Repr

/-- the size of the two strings of a `Spec` -/
def SPEC_STR : Nat := 4096

/-- what ends a string -/
def isDelim (c : UInt8) : Bool := c == LF || c == CR || c == COMMA

/-- `none` where the C code writes behind `buf` -/
def parseSpecStr (f : CStream) : Option (List UInt8 × CStream) :=
  let r := f.scan isDelim
  if r.1.length < SPEC_STR then some (r.1, r.2.2) else none

def parseSpecLine (type : UInt8) (f : CStream) : Option (Spec × CStream) :=
  (parseSpecStr f).bind fun d => (parseSpecStr d.2).bind fun s => some (⟨type, d.1, s.1⟩, s.2)

/-- the inner loop of `parse_spec` -/
def skipLineEnds (f : CStream) : Option UInt8 × CStream := (f.scan fun c => c != LF && c != CR).2

/-- the loop in the case `'#'` -/
def skipComment (f : CStream) : CStream := (f.scan fun c => c == LF).2.2

theorem skipLineEnds_fuel {f : CStream} (h : ¬ f.feof = true) : (skipLineEnds f).2.fuel < f.fuel :=
  scan_fuel _ f (Bool.not_eq_true _ ▸ h)

theorem skipComment_fuel (f : CStream) : (skipComment f).fuel ≤ f.fuel := scan_fuel_le _ f

/-- `some (none, _)` is the result 1; `EOF` as a `char` is 255 -/
def parseSpec (f : CStream) : Option (Option Spec × CStream) :=
  if _hf : f.feof then some (none, f)
  else
    let r := skipLineEnds f
    if r.1 = some HASH then parseSpec (skipComment r.2)
    else (parseSpecLine (r.1.getD 255) r.2.fgetc.2).map fun x => (some x.1, x.2)
termination_by f.fuel
decreasing_by exact Nat.lt_of_le_of_lt (skipComment_fuel _) (skipLineEnds_fuel _hf)

/-! ## the loop of the tools -/

theorem parseSpecStr_fuel {f g : CStream} {s : List UInt8} (h : parseSpecStr f = some (s, g)) :
    g.fuel ≤ f.fuel := by
  unfold parseSpecStr at h
  dsimp only at h
  split at h
  · cases h
    exact scan_fuel_le isDelim f
  · cases h

theorem parseSpecLine_fuel {type : UInt8} {f g : CStream} {s : Spec}
    (h : parseSpecLine type f = some (s, g)) : g.fuel ≤ f.fuel := by
  obtain ⟨d, hd, h⟩ := Option.bind_eq_some_iff.mp h
  obtain ⟨x, hx, h⟩ := Option.bind_eq_some_iff.mp h
  cases h
  exact Nat.le_trans (parseSpecStr_fuel hx) (parseSpecStr_fuel hd)

/-- **a record is read further on** -/
theorem parseSpec_fuel {f g : CStream} {s : Spec} (h : parseSpec f = some (some s, g)) :
    g.fuel < f.fuel := by
  fun_induction parseSpec f with
  | case1 f hf => cases h
  | case2 f hf r hr ih =>
    exact Nat.lt_trans (ih h) (Nat.lt_of_le_of_lt (skipComment_fuel _) (skipLineEnds_fuel hf))
  | case3 f hf r hr =>
    obtain ⟨x, hx, e⟩ := Option.map_eq_some_iff.mp h
    cases e
    exact Nat.lt_of_le_of_lt (Nat.le_trans (parseSpecLine_fuel hx) (fgetc_fuel_le _))
      (skipLineEnds_fuel hf)

/-- the records that the loop in `main` of a tool gets, until `parse_spec` returns 1 -/
def parseSpecs (f : CStream) : Option (List Spec) :=
  match _h : parseSpec f with
  | none => none
  | some (none, _) => some []
  | some (some s, g) => (parseSpecs g).map (s :: ·)
termination_by f.fuel
decreasing_by exact parseSpec_fuel _h

section
variable {f g : CStream}

theorem parseSpecs_done (h : parseSpec f = some (none, g)) : parseSpecs f = some [] := by
  rw [parseSpecs]
  split
  all_goals simp_all

theorem parseSpecs_record {s : Spec} (h : parseSpec f = some (some s, g)) :
    parseSpecs f = (parseSpecs g).map (s :: ·) := by
  rw [parseSpecs]
  split
  all_goals simp_all

theorem parseSpecs_congr (h : parseSpec f = parseSpec g) : parseSpecs f = parseSpecs g := by
  rw [parseSpecs, parseSpecs, h]

end

/-! ## texts -/

inductive LineEnd where
  | lf
  | crlf
deriving DecidableEq, Repr

def LineEnd.bytes : LineEnd → List UInt8
  | .lf => [LF]
  | .crlf => [CR, LF]

/-- what can stand between the commas -/
structure FieldOk (l : List UInt8) : Prop where
  chars : ∀ c ∈ l, isDelim c = false
  noNul : 0 ∉ l
  short : l.length < SPEC_STR

structure Spec.Ok (s : Spec) : Prop where
  hash : s.type ≠ HASH
  lf : s.type ≠ LF
  cr : s.type ≠ CR
  dst : FieldOk s.dst
  src : FieldOk s.src

/-- a line without its end -/
inductive SpecLine where
  | blank
  | comment (text : List UInt8) (h : LF ∉ text)
  | record (s : Spec) (h : s.Ok)

def Spec.bytes (s : Spec) : List UInt8 := s.type :: COMMA :: s.dst ++ COMMA :: s.src

def SpecLine.bytes : SpecLine → List UInt8
  | .blank => []
  | .comment text _ => HASH :: text
  | .record s _ => s.bytes

def SpecLine.records : SpecLine → List Spec
  | .record s _ => [s]
  | _ => []

/-- lines with their ends, and what follows the last line end -/
structure SpecText where
  lines : List (SpecLine × LineEnd)
  last : SpecLine

def SpecText.bytes (t : SpecText) : List UInt8 :=
  t.lines.flatMap (fun l => l.1.bytes ++ l.2.bytes) ++ t.last.bytes

def SpecText.records (t : SpecText) : List Spec :=
  t.lines.flatMap (fun l => l.1.records) ++ t.last.records

/-- the text ends in a record or a comment that has no line end -/
def SpecText.EndsOpen (t : SpecText) : Prop := t.last ≠ .blank

/-- the file is opened -/
def SpecText.stream (t : SpecText) : CStream := ⟨t.bytes, false⟩

/-- what is read behind the last line end -/
def spuriousSpec : Spec := ⟨255, [], []⟩

/-! ## one record -/

theorem parseSpecStr_append {l r : List UInt8} {c : UInt8} {e : Bool} (hl : FieldOk l)
    (hc : isDelim c = true) : parseSpecStr ⟨l ++ c :: r, e⟩ = some (l, ⟨r, e⟩) := by
  rw [parseSpecStr, scan_append hl.chars hc]
  exact if_pos hl.short

theorem parseSpecStr_all {l : List UInt8} {e : Bool} (hl : FieldOk l) :
    parseSpecStr ⟨l, e⟩ = some (l, ⟨[], true⟩) := by
  rw [parseSpecStr, scan_all hl.chars]
  exact if_pos hl.short

theorem fieldOk_nil : FieldOk [] where
  chars := fun _ h => absurd h List.not_mem_nil
  noNul := List.not_mem_nil
  short := by decide

theorem fieldOk_char {c : UInt8} (hdelim : isDelim c = false) (h0 : c ≠ 0) : FieldOk [c] where
  chars := by
    intro d hd
    rw [List.mem_singleton.1 hd]
    exact hdelim
  noNul := by
    intro hnul
    exact h0 (List.mem_singleton.1 hnul).symm
  short := by
    show 1 < SPEC_STR
    decide

/-- a character that starts a line -/
theorem skipLineEnds_start {c : UInt8} {cs : List UInt8} (hlf : c ≠ LF) (hcr : c ≠ CR) :
    skipLineEnds ⟨c :: cs, false⟩ = (some c, ⟨cs, false⟩) := by
  have hc : (c != LF && c != CR) = true := by
    rw [Bool.and_eq_true, bne_iff_ne, bne_iff_ne]
    exact ⟨hlf, hcr⟩
  exact congrArg Prod.snd (scan_append (l := []) (fun _ h => absurd h List.not_mem_nil) hc)

theorem parseSpec_open {f : CStream} (h : f.eof = false) : parseSpec f =
    if (skipLineEnds f).1 = some HASH then parseSpec (skipComment (skipLineEnds f).2)
    else (parseSpecLine ((skipLineEnds f).1.getD 255) (skipLineEnds f).2.fgetc.2).map
      fun x => (some x.1, x.2) := by
  have hf : ¬ f.feof = true := Bool.not_eq_true _ ▸ h
  rw [parseSpec, dif_neg hf]

theorem parseSpec_eof : parseSpec ⟨[], true⟩ = some (none, ⟨[], true⟩) := by
  have h : (CStream.mk [] true).feof = true := rfl
  rw [parseSpec, dif_pos h]

/-- a line end before a line is skipped -/
theorem parseSpec_lineEnd {c : UInt8} (cs : List UInt8) (hc : c = LF ∨ c = CR) :
    parseSpec ⟨c :: cs, false⟩ = parseSpec ⟨cs, false⟩ := by
  have hskip : skipLineEnds ⟨c :: cs, false⟩ = skipLineEnds ⟨cs, false⟩ := by
    unfold skipLineEnds
    rw [scan_cons]
    rcases hc with rfl | rfl
    · decide
    · decide
  have hopen : ∀ l : List UInt8, (CStream.mk l false).eof = false := fun _ => rfl
  rw [parseSpec_open (hopen _), hskip, ← parseSpec_open (hopen _)]

/-- what `parse_spec` does in the line that starts with `c` -/
theorem parseSpec_start {c : UInt8} {cs : List UInt8} (hlf : c ≠ LF) (hcr : c ≠ CR) :
    parseSpec ⟨c :: cs, false⟩ =
      if c = HASH then parseSpec (skipComment ⟨cs, false⟩)
      else (parseSpecLine c (fgetc ⟨cs, false⟩).2).map fun x => (some x.1, x.2) := by
  rw [parseSpec_open rfl, skipLineEnds_start hlf hcr]
  simp only [Option.some.injEq, Option.getD_some]

theorem parseSpec_hash (cs : List UInt8) :
    parseSpec ⟨HASH :: cs, false⟩ = parseSpec (skipComment ⟨cs, false⟩) := by
  rw [parseSpec_start (by decide) (by decide), if_pos rfl]

theorem not_lf {text : List UInt8} (h : LF ∉ text) : ∀ c ∈ text, (c == LF) = false := fun _ hc =>
  beq_eq_false_iff_ne.mpr fun e => h (e ▸ hc)

theorem parseSpec_comment {text : List UInt8} (h : LF ∉ text) (rest : List UInt8) :
    parseSpec ⟨HASH :: (text ++ LF :: rest), false⟩ = parseSpec ⟨rest, false⟩ := by
  rw [parseSpec_hash, skipComment, scan_append (not_lf h) (by decide)]

theorem parseSpec_comment_end {text : List UInt8} (h : LF ∉ text) :
    parseSpec ⟨HASH :: text, false⟩ = some (none, ⟨[], true⟩) := by
  rw [parseSpec_hash, skipComment, scan_all (not_lf h), parseSpec_eof]

/-- a record and the character behind it -/
theorem parseSpec_record {s : Spec} (h : s.Ok) {c : UInt8} (hc : isDelim c = true) (rest : List UInt8) :
    parseSpec ⟨s.bytes ++ c :: rest, false⟩ = some (some s, ⟨rest, false⟩) := by
  have hbytes : s.bytes ++ c :: rest = s.type :: COMMA :: (s.dst ++ COMMA :: (s.src ++ c :: rest)) := by
    simp [Spec.bytes]
  rw [hbytes, parseSpec_start h.lf h.cr, if_neg h.hash]
  show Option.map _ (parseSpecLine s.type ⟨s.dst ++ COMMA :: (s.src ++ c :: rest), false⟩) = _
  rw [parseSpecLine, parseSpecStr_append h.dst (by decide), Option.bind_some, parseSpecStr_append h.src hc]
  rfl

/-- a record at the end of the file -/
theorem parseSpec_record_end {s : Spec} (h : s.Ok) :
    parseSpec ⟨s.bytes, false⟩ = some (some s, ⟨[], true⟩) := by
  have hbytes : s.bytes = s.type :: COMMA :: (s.dst ++ COMMA :: s.src) := by
    simp [Spec.bytes]
  rw [hbytes, parseSpec_start h.lf h.cr, if_neg h.hash]
  show Option.map _ (parseSpecLine s.type ⟨s.dst ++ COMMA :: s.src, false⟩) = _
  rw [parseSpecLine, parseSpecStr_append h.dst (by decide), Option.bind_some, parseSpecStr_all h.src]
  rfl

/-- behind the last line end -/
theorem parseSpec_nil : parseSpec ⟨[], false⟩ = some (some spuriousSpec, ⟨[], true⟩) := by
  rw [parseSpec_open rfl]
  show (if (none : Option UInt8) = some HASH then _ else
    (parseSpecLine 255 ⟨[], true⟩).map fun x => (some x.1, x.2)) = _
  rw [if_neg (by decide), parseSpecLine, parseSpecStr_all fieldOk_nil, Option.bind_some,
    parseSpecStr_all fieldOk_nil]
  rfl

/-! ## a text -/

theorem parseSpecs_lf (rest : List UInt8) : parseSpecs ⟨LF :: rest, false⟩ = parseSpecs ⟨rest, false⟩ :=
  parseSpecs_congr (parseSpec_lineEnd rest (Or.inl rfl))

theorem parseSpecs_eof : parseSpecs ⟨[], true⟩ = some [] := parseSpecs_done parseSpec_eof

/-- **a line with its end** gives its records -/
theorem parseSpecs_line (l : SpecLine) (e : LineEnd) (rest : List UInt8) :
    parseSpecs ⟨l.bytes ++ e.bytes ++ rest, false⟩ =
      (parseSpecs ⟨rest, false⟩).map (l.records ++ ·) := by
  have hid : ∀ x : Option (List Spec), x.map ([] ++ ·) = x := fun x => Option.map_id'
  cases l with
  | blank =>
    show _ = Option.map ([] ++ ·) _
    rw [hid]
    cases e with
    | lf => exact parseSpecs_lf rest
    | crlf => exact (parseSpecs_congr (parseSpec_lineEnd _ (Or.inr rfl))).trans (parseSpecs_lf rest)
  | comment text h =>
    show _ = Option.map ([] ++ ·) _
    rw [hid]
    cases e with
    | lf =>
      have hb : HASH :: text ++ [LF] ++ rest = HASH :: (text ++ LF :: rest) := by
        simp
      show parseSpecs ⟨HASH :: text ++ [LF] ++ rest, false⟩ = _
      rw [hb]
      exact parseSpecs_congr (parseSpec_comment h rest)
    | crlf =>
      have hb : HASH :: text ++ [CR, LF] ++ rest = HASH :: ((text ++ [CR]) ++ LF :: rest) := by
        simp
      have h' : LF ∉ text ++ [CR] := by
        rw [List.mem_append, not_or]
        exact ⟨h, by decide⟩
      show parseSpecs ⟨HASH :: text ++ [CR, LF] ++ rest, false⟩ = _
      rw [hb]
      exact parseSpecs_congr (parseSpec_comment h' rest)
  | record s h =>
    show parseSpecs ⟨s.bytes ++ e.bytes ++ rest, false⟩ = Option.map (s :: ·) _
    rw [List.append_assoc]
    cases e with
    | lf => exact parseSpecs_record (parseSpec_record h (c := LF) (by decide) rest)
    | crlf =>
      refine (parseSpecs_record (parseSpec_record h (c := CR) (by decide) (LF :: rest))).trans ?_
      rw [parseSpecs_lf]

theorem parseSpecs_last (l : SpecLine) : ∃ more, parseSpecs ⟨l.bytes, false⟩ = some (l.records ++ more) ∧
    (more = [] ↔ l ≠ .blank) := by
  cases l with
  | blank =>
    refine ⟨[spuriousSpec], ?_, by simp⟩
    show parseSpecs ⟨[], false⟩ = some [spuriousSpec]
    rw [parseSpecs_record parseSpec_nil, parseSpecs_eof]
    rfl
  | comment text h => exact ⟨[], parseSpecs_done (parseSpec_comment_end h), by simp⟩
  | record s h =>
    refine ⟨[], ?_, by simp⟩
    show parseSpecs ⟨s.bytes, false⟩ = some [s]
    rw [parseSpecs_record (parseSpec_record_end h), parseSpecs_eof]
    rfl

/-- **the records of a text**, and what is read behind it -/
theorem parseSpecs_eq (t : SpecText) : ∃ more, parseSpecs t.stream = some (t.records ++ more) ∧
    (more = [] ↔ t.EndsOpen) := by
  obtain ⟨lines, last⟩ := t
  obtain ⟨more, hmore, hiff⟩ := parseSpecs_last last
  refine ⟨more, ?_, hiff⟩
  unfold SpecText.stream SpecText.bytes SpecText.records
  dsimp only
  induction lines with
  | nil => exact hmore
  | cons l lines ih =>
    rw [List.flatMap_cons, List.append_assoc, parseSpecs_line l.1 l.2, ih, Option.map_some,
      List.flatMap_cons, List.append_assoc, List.append_assoc, List.append_assoc]

/-- **The records that the tools get are those of the text if and only if it ends within a line.** -/
theorem spec_records (t : SpecText) : parseSpecs t.stream = some t.records ↔ t.EndsOpen := by
  obtain ⟨more, hmore, hiff⟩ := parseSpecs_eq t
  rw [hmore, ← hiff, Option.some.injEq, List.append_right_eq_self]

/-- the text `f,a,b` with a line end -/
def oneLine : SpecText where
  lines := [(.record ⟨102, [97], [98]⟩
    ⟨by decide, by decide, by decide, fieldOk_char rfl (by decide), fieldOk_char rfl (by decide)⟩, .lf)]
  last := .blank

/-- there is a second record in it for the parser -/
theorem spec_records_one : parseSpecs oneLine.stream ≠ some oneLine.records := by
  intro h
  obtain ⟨more, hmore, hiff⟩ := parseSpecs_eq oneLine
  rw [hmore, Option.some.injEq, List.append_right_eq_self] at h
  exact hiff.mp h rfl

end FuseeOS
