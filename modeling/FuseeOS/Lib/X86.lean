import Mathlib.Algebra.GroupWithZero.Nat
import Mathlib.Logic.Function.Basic
import Mathlib.Data.List.Count
import Mathlib.Data.List.Induction
import Mathlib.Data.Nat.Notation

/-!
# Straight-line x86-64 code

The registers, the quadwords of memory, and the instructions of context switching code.  A routine is
a list of instructions; the instruction pointer is followed only where control enters or leaves ring 0
(`interrupt`, `syscall`, `iretq`, `sysretq`).

* `Cpu.exec_append`            a routine is the sequence of its parts;
* `Cpu.exec_loads`             a table of registers is loaded from a record;
* `Cpu.ge_cmp`, `Cpu.z_test`   what the conditions after `cmp` and `test` say.
-/

namespace X86

abbrev Word : Type := BitVec 64

inductive Reg where
  | rax | rbx | rcx | rdx | rsi | rdi | rsp | rbp | r8 | r9 | r10 | r11 | r12 | r13 | r14 | r15
  deriving DecidableEq

/-- the processor, and the quadwords of memory by their addresses (all accesses are aligned) -/
structure Cpu where
  regs : Reg → Word
  rip : Word
  rflags : Word
  cs : Word
  ss : Word
  gsBase : Word
  kernelGsBase : Word
  mem : Word → Word

/-- what the model-specific registers and the task state segment hold -/
structure Control where
  star : Word
  sfmask : Word
  rsp0 : Word
  /-- the selector in the interrupt gates -/
  gateCs : Word

/-- the registers of a program -/
structure Context where
  regs : Reg → Word
  rip : Word
  rflags : Word

inductive Operand where
  | reg (r : Reg)
  | imm (v : Word)
  /-- `disp(%base)` -/
  | mem (disp : Word) (base : Reg)
  /-- `disp(,%index,8)` -/
  | index (disp : Word) (index : Reg)
  /-- `%gs:(disp)` -/
  | gs (disp : Word)

/-- operands in the order of AT&T syntax: the destination comes last -/
inductive Instr where
  | mov (src dst : Operand)
  | push (src : Reg)
  | pop (dst : Reg)
  | add (v : Word) (dst : Reg)
  | sub (v : Word) (dst : Reg)
  | cmp (v : Word) (dst : Reg)
  | test (src dst : Reg)
  | lea (disp : Word) (base dst : Reg)
  | swapgs

/-! ## flags -/

abbrev CF : Word := 0x1
abbrev PF : Word := 0x4
abbrev AF : Word := 0x10
abbrev ZF : Word := 0x40
abbrev SF : Word := 0x80
abbrev TF : Word := 0x100
abbrev IF : Word := 0x200
abbrev OF : Word := 0x800
abbrev NT : Word := 0x4000
abbrev RF : Word := 0x10000
abbrev VM : Word := 0x20000

def flagIf (c : Bool) (flag : Word) : Word := if c then flag else 0

/-- `rflags` after an operation with the result `r` -/
def statusFlags (rflags r : Word) (cf af of : Bool) : Word :=
  rflags &&& ~~~(CF ||| PF ||| AF ||| ZF ||| SF ||| OF) |||
    flagIf cf CF ||| flagIf ((List.range 8).countP (fun i => r.getLsbD i) % 2 == 0) PF |||
    flagIf af AF ||| flagIf (r == 0) ZF ||| flagIf r.msb SF ||| flagIf of OF

def addFlags (rflags a b : Word) : Word :=
  statusFlags rflags (a + b) ((a + b).ult a) ((a ^^^ b ^^^ (a + b)).getLsbD 4)
    (a.msb == b.msb && (a + b).msb != a.msb)

def subFlags (rflags a b : Word) : Word :=
  statusFlags rflags (a - b) (a.ult b) ((a ^^^ b ^^^ (a - b)).getLsbD 4)
    (a.msb != b.msb && (a - b).msb != a.msb)

namespace Cpu

/-- condition `ge`: `SF = OF` -/
def ge (s : Cpu) : Bool := s.rflags.getLsbD 7 == s.rflags.getLsbD 11

/-- condition `z`: `ZF` is set -/
def z (s : Cpu) : Bool := s.rflags.getLsbD 6

/-! ## instructions -/

def set (s : Cpu) (r : Reg) (v : Word) : Cpu := { s with regs := Function.update s.regs r v }

def store (s : Cpu) (a v : Word) : Cpu := { s with mem := Function.update s.mem a v }

/-- the value of a source operand -/
def value (s : Cpu) : Operand → Word
  | .reg r => s.regs r
  | .imm v => v
  | .mem disp base => s.mem (s.regs base + disp)
  | .index disp index => s.mem (disp + s.regs index * 8)
  | .gs disp => s.mem (s.gsBase + disp)

/-- writes a destination operand (there is no write to an immediate) -/
def write (s : Cpu) (v : Word) : Operand → Cpu
  | .reg r => s.set r v
  | .imm _ => s
  | .mem disp base => s.store (s.regs base + disp) v
  | .index disp index => s.store (disp + s.regs index * 8) v
  | .gs disp => s.store (s.gsBase + disp) v

def exec1 (s : Cpu) : Instr → Cpu
  | .mov src dst => s.write (s.value src) dst
  | .push src => (s.store (s.regs .rsp - 8) (s.regs src)).set .rsp (s.regs .rsp - 8)
  | .pop dst => (s.set .rsp (s.regs .rsp + 8)).set dst (s.mem (s.regs .rsp))
  | .add v dst => { s.set dst (s.regs dst + v) with rflags := addFlags s.rflags (s.regs dst) v }
  | .sub v dst => { s.set dst (s.regs dst - v) with rflags := subFlags s.rflags (s.regs dst) v }
  | .cmp v dst => { s with rflags := subFlags s.rflags (s.regs dst) v }
  | .test src dst =>
    { s with rflags := statusFlags s.rflags (s.regs dst &&& s.regs src) false false false }
  | .lea disp base dst => s.set dst (s.regs base + disp)
  | .swapgs => { s with gsBase := s.kernelGsBase, kernelGsBase := s.gsBase }

def exec (s : Cpu) (code : List Instr) : Cpu := code.foldl exec1 s

/-- where a source operand is in memory -/
def source (s : Cpu) : Operand → List Word
  | .reg _ => []
  | .imm _ => []
  | .mem disp base => [s.regs base + disp]
  | .index disp index => [disp + s.regs index * 8]
  | .gs disp => [s.gsBase + disp]

/-- the addresses that an instruction reads -/
def reads1 (s : Cpu) : Instr → List Word
  | .mov src _ => s.source src
  | .pop _ => [s.regs .rsp]
  | _ => []

/-- the addresses that a routine reads -/
def reads (s : Cpu) : List Instr → List Word
  | [] => []
  | i :: code => s.reads1 i ++ (s.exec1 i).reads code

/-! ## entering and leaving ring 0 -/

/-- an interrupt taken in ring 3 -/
def interrupt (k : Control) (s : Cpu) : Cpu :=
  let sp := k.rsp0 &&& ~~~15
  { (((((s.store (sp - 8) s.ss).store (sp - 16) (s.regs .rsp)).store (sp - 24) s.rflags).store
      (sp - 32) s.cs).store (sp - 40) s.rip).set .rsp (sp - 40) with
    rflags := s.rflags &&& ~~~(TF ||| IF ||| NT ||| RF ||| VM), cs := k.gateCs, ss := 0 }

/-- a return to ring 3 -/
def iretq (s : Cpu) : Cpu :=
  let sp := s.regs .rsp
  { s.set .rsp (s.mem (sp + 24)) with
    rip := s.mem sp, cs := s.mem (sp + 8), rflags := s.mem (sp + 16), ss := s.mem (sp + 32) }

/-- `rip` is the address of the instruction after the `syscall` -/
def syscall (k : Control) (s : Cpu) : Cpu :=
  { (s.set .rcx s.rip).set .r11 s.rflags with
    rflags := s.rflags &&& ~~~k.sfmask, cs := (k.star >>> 32) &&& 0xfffc,
    ss := ((k.star >>> 32) &&& 0xffff) + 8 }

/-- the flags that `sysretq` takes from `r11`; bit 1 is always set -/
def sysretFlags (r11 : Word) : Word := r11 &&& 0x3c7fd7 ||| 2

def sysretq (k : Control) (s : Cpu) : Cpu :=
  { s with
    rip := s.regs .rcx, rflags := sysretFlags (s.regs .r11), cs := ((k.star >>> 48) + 16) ||| 3,
    ss := ((k.star >>> 48) + 8) ||| 3 }

/-! ## one instruction -/

section
variable (s : Cpu) (r r' : Reg) (a v : Word)

theorem set_regs : (s.set r v).regs r' = if r' = r then v else s.regs r' := Function.update_apply ..
theorem set_mem : (s.set r v).mem = s.mem := rfl
theorem set_gsBase : (s.set r v).gsBase = s.gsBase := rfl
theorem set_kernelGsBase : (s.set r v).kernelGsBase = s.kernelGsBase := rfl
theorem store_regs : (s.store a v).regs = s.regs := rfl
theorem store_mem : (s.store a v).mem = Function.update s.mem a v := rfl
theorem store_gsBase : (s.store a v).gsBase = s.gsBase := rfl
theorem store_kernelGsBase : (s.store a v).kernelGsBase = s.kernelGsBase := rfl

end

theorem exec_nil (s : Cpu) : s.exec [] = s := rfl

theorem exec_cons (s : Cpu) (i : Instr) (code : List Instr) :
    s.exec (i :: code) = (s.exec1 i).exec code := rfl

theorem exec_append (s : Cpu) (code code' : List Instr) :
    s.exec (code ++ code') = (s.exec code).exec code' := List.foldl_append ..

def context (s : Cpu) : Context := ⟨s.regs, s.rip, s.rflags⟩

/-! ## tables of registers and offsets in a record -/

/-- memory after the values of `ws` were written at their offsets from `base` -/
def writeAll (m : Word → Word) (base : Word) (ws : List (Word × Word)) : Word → Word :=
  ws.foldl (fun m w => Function.update m (base + w.1) w.2) m

/-- the registers after those of `tbl` were loaded from their offsets -/
def readAll (regs : Reg → Word) (m : Word → Word) (base : Word) (tbl : List (Reg × Word)) : Reg → Word :=
  tbl.foldl (fun regs e => Function.update regs e.1 (m (base + e.2))) regs

theorem writeAll_of_ne {m : Word → Word} {base a : Word} {ws : List (Word × Word)}
    (h : ∀ w ∈ ws, a ≠ base + w.1) : writeAll m base ws a = m a := by
  induction ws generalizing m with
  | nil => rfl
  | cons w ws ih =>
    show writeAll (Function.update m (base + w.1) w.2) base ws a = m a
    rw [ih fun w' hw' => h w' (List.mem_cons_of_mem _ hw'),
      Function.update_of_ne (h w List.mem_cons_self)]

theorem writeAll_append (m : Word → Word) (base : Word) (ws ws' : List (Word × Word)) :
    writeAll m base (ws ++ ws') = writeAll (writeAll m base ws) base ws' := List.foldl_append ..

/-- an offset holds the last value written to it -/
theorem writeAll_at (m : Word → Word) (base d : Word) (ws : List (Word × Word)) :
    writeAll m base ws (base + d) = (ws.reverse.lookup d).getD (m (base + d)) := by
  induction ws using List.reverseRecOn with
  | nil => rfl
  | append_singleton ws w ih =>
    obtain ⟨e, v⟩ := w
    rw [writeAll_append, List.reverse_append, List.reverse_singleton, List.singleton_append]
    show Function.update (writeAll m base ws) (base + e) v (base + d) = _
    by_cases hd : d = e
    · subst hd
      rw [Function.update_self, List.lookup_cons_self, Option.getD_some]
    · have hne : base + d ≠ base + e := fun h => hd (BitVec.add_right_inj _ |>.mp h)
      have hb : (d == e) = false := beq_eq_false_iff_ne.mpr hd
      rw [Function.update_of_ne hne, ih, List.lookup_cons, hb]

theorem readAll_append (regs : Reg → Word) (m : Word → Word) (base : Word) (tbl tbl' : List (Reg × Word)) :
    readAll regs m base (tbl ++ tbl') = readAll (readAll regs m base tbl) m base tbl' :=
  List.foldl_append ..

/-- a register holds the word it was loaded from last -/
theorem readAll_apply (regs : Reg → Word) (m : Word → Word) (base : Word) (tbl : List (Reg × Word))
    (r : Reg) : readAll regs m base tbl r =
      ((tbl.reverse.lookup r).map fun d => m (base + d)).getD (regs r) := by
  induction tbl using List.reverseRecOn with
  | nil => rfl
  | append_singleton tbl e ih =>
    obtain ⟨r', d⟩ := e
    rw [readAll_append, List.reverse_append, List.reverse_singleton, List.singleton_append]
    show Function.update (readAll regs m base tbl) r' (m (base + d)) r = _
    by_cases hr : r = r'
    · subst hr
      rw [Function.update_self, List.lookup_cons_self, Option.map_some, Option.getD_some]
    · have hb : (r == r') = false := beq_eq_false_iff_ne.mpr hr
      rw [Function.update_of_ne hr, ih, List.lookup_cons, hb]

/-- a table of registers is loaded from the record at `base` -/
theorem exec_loads (s : Cpu) (base : Reg) (tbl : List (Reg × Word)) (h : ∀ e ∈ tbl, e.1 ≠ base) :
    s.exec (tbl.map fun e => .mov (.mem e.2 base) (.reg e.1)) =
      { s with regs := readAll s.regs s.mem (s.regs base) tbl } := by
  induction tbl generalizing s with
  | nil => rfl
  | cons e tbl ih =>
    have hbase : Function.update s.regs e.1 (s.mem (s.regs base + e.2)) base = s.regs base :=
      Function.update_of_ne (h e List.mem_cons_self).symm ..
    rw [List.map_cons, exec_cons, ih _ fun e' he' => h e' (List.mem_cons_of_mem _ he')]
    refine congrArg (fun regs => { s with regs := regs }) ?_
    show readAll _ s.mem (Function.update s.regs e.1 (s.mem (s.regs base + e.2)) base) tbl = _
    rw [hbase]
    rfl

/-- **An interrupt** leaves its frame on the stack of ring 0, and else only flags and selectors change. -/
theorem interrupt_spec (k : Control) (s : Cpu) {f : Word} (hf : (k.rsp0 &&& ~~~15) - 40 = f) :
    (s.interrupt k).mem = writeAll s.mem f
        [(32, s.ss), (24, s.regs .rsp), (16, s.rflags), (8, s.cs), (0, s.rip)] ∧
      (s.interrupt k).regs = Function.update s.regs .rsp f ∧
      (s.interrupt k).gsBase = s.gsBase ∧ (s.interrupt k).kernelGsBase = s.kernelGsBase := by
  have hsub : ∀ d e : Word, -d = -40 + e → (k.rsp0 &&& ~~~15) - d = f + e := fun d e h => by
    rw [← hf, BitVec.sub_eq_add_neg, BitVec.sub_eq_add_neg, BitVec.add_assoc, ← h]
  simp only [interrupt, set_mem, store_mem, set_gsBase, store_gsBase, set_kernelGsBase,
    store_kernelGsBase, writeAll, List.foldl_cons, List.foldl_nil]
  refine ⟨?_, by simp only [Cpu.set, store_regs, hf], trivial, trivial⟩
  rw [hsub 8 32 (by decide), hsub 16 24 (by decide), hsub 24 16 (by decide), hsub 32 8 (by decide),
    hsub 40 0 (by decide)]

/-! ## the condition codes -/

theorem getElem_flagIf (c : Bool) (flag : Word) (i : Nat) (hi : i < 64) :
    (flagIf c flag)[i] = (c && flag[i]) := by
  cases c with
  | false => simp [flagIf]
  | true => simp [flagIf]

section
variable (f r : Word) (cf af of : Bool)

theorem statusFlags_zf : (statusFlags f r cf af of).getLsbD 6 = (r == 0) := by
  simp [statusFlags, getElem_flagIf]

theorem statusFlags_sf : (statusFlags f r cf af of).getLsbD 7 = r.msb := by
  simp [statusFlags, getElem_flagIf]

theorem statusFlags_of : (statusFlags f r cf af of).getLsbD 11 = of := by
  simp [statusFlags, getElem_flagIf]

end

/-- a difference has the wrong sign exactly when it overflows -/
theorem msb_sub_eq (a b : Word) :
    ((a - b).msb == (a.msb != b.msb && (a - b).msb != a.msb)) = b.sle a := by
  have ha := a.isLt
  have hb := b.isLt
  simp only [BitVec.msb_eq_decide, BitVec.sle_eq_decide, BitVec.toInt_eq_toNat_cond, BitVec.toNat_sub]
  by_cases ca : 2 ^ (64 - 1) ≤ a.toNat <;> by_cases cb : 2 ^ (64 - 1) ≤ b.toNat <;>
    by_cases cab : b.toNat ≤ a.toNat
  all_goals
    simp only [ca, cb]
    grind

/-- **`cmp` and `jge`** compare signed -/
theorem ge_cmp (s : Cpu) (v : Word) (r : Reg) : (s.exec1 (.cmp v r)).ge = v.sle (s.regs r) := by
  show ((subFlags s.rflags (s.regs r) v).getLsbD 7 == (subFlags s.rflags (s.regs r) v).getLsbD 11) = _
  unfold subFlags
  rw [statusFlags_sf, statusFlags_of, msb_sub_eq]

theorem z_test (s : Cpu) (r : Reg) : (s.exec1 (.test r r)).z = (s.regs r == 0) := by
  show (statusFlags s.rflags (s.regs r &&& s.regs r) false false false).getLsbD 6 = _
  rw [statusFlags_zf, BitVec.and_self]

end Cpu
end X86
