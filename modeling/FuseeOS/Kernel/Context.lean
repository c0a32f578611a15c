import FuseeOS.Lib.X86

/-!
# Context switches

`common.S`, `proc.S` and `syscall.S`: the user registers are saved in the record of the process when
an interrupt or a system call enters the kernel, and loaded from there on the way back.

* `saveContext_spec`     the slots after `SAVE_CONTEXT`;
* `procRun_spec`         `proc_run` loads all slots;
* `sysEntry_spec`        the slots after the first part of `x86_sys_handler`;
* `procRunSysret_spec`   `proc_run_sysret` loads all slots but two;
* `contexts_survive`     interruptions leave the registers of every process alone.
-/

namespace FuseeOS
open X86 X86.Cpu

abbrev X86_REG_AX : Word := 0
abbrev X86_REG_BX : Word := 1
abbrev X86_REG_CX : Word := 2
abbrev X86_REG_DX : Word := 3
abbrev X86_REG_SI : Word := 4
abbrev X86_REG_DI : Word := 5
abbrev X86_REG_SP : Word := 6
abbrev X86_REG_BP : Word := 7
abbrev X86_REG_R8 : Word := 8
abbrev X86_REG_R9 : Word := 9
abbrev X86_REG_R10 : Word := 10
abbrev X86_REG_R11 : Word := 11
abbrev X86_REG_R12 : Word := 12
abbrev X86_REG_R13 : Word := 13
abbrev X86_REG_R14 : Word := 14
abbrev X86_REG_R15 : Word := 15
abbrev X86_REG_IP : Word := 16
abbrev X86_REG_FLAGS : Word := 17

abbrev X86_SEL_CODE0 : Word := 0x08
abbrev X86_SEL_CODE3 : Word := 0x18
abbrev X86_SEL_DATA3 : Word := 0x20
abbrev X86_RING3 : Word := 3

abbrev KERNEL_MAX_SYSCALL : Word := 32
abbrev KERNEL_STACK_SIZE : Word := 16384
abbrev ENOSYS : Word := 55

/-- `sizeof(Process)` -/
abbrev PROCESS_SIZE : Word := 672

/-- the offset of `run` -/
abbrev PROCESS_RUN : Word := 18 * 8 + 512

/-- where the linker and `kmalloc` have put what the routines name: the array of process records and
the thread, whose header and stack take `32 + KERNEL_STACK_SIZE` bytes, do not overlap -/
structure Image where
  /-- `gProcessList` -/
  processList : Word
  /-- how many entries of it are used -/
  processCount : Nat
  /-- `gKernel.threads` -/
  thread : Word
  /-- `gSysHandlers` -/
  sysHandlers : Word
  procRun : Word
  procRunSysret : Word
  recordsEnd : processList.toNat + 672 * processCount < 2^64
  threadEnd : thread.toNat + 32 + 16384 < 2^64
  threadAligned : thread.toNat % 16 = 0
  apart : processList.toNat + 672 * processCount ≤ thread.toNat ∨
    thread.toNat + 32 + 16384 ≤ processList.toNat

/-- `gProcessList + i` -/
def Image.proc (img : Image) (i : Nat) : Word := img.processList + PROCESS_SIZE * BitVec.ofNat 64 i

/-! ## the routines -/

/-- `SAVE_CONTEXT` -/
def saveContext (img : Image) : List Instr := [
  .swapgs,
  .push .rdi,
  .mov (.gs 8) (.reg .rdi),
  .mov (.imm img.procRun) (.mem PROCESS_RUN .rdi),
  .mov (.reg .rax) (.mem (X86_REG_AX * 8) .rdi),
  .mov (.reg .rbx) (.mem (X86_REG_BX * 8) .rdi),
  .mov (.reg .rcx) (.mem (X86_REG_CX * 8) .rdi),
  .mov (.reg .rdx) (.mem (X86_REG_DX * 8) .rdi),
  .mov (.reg .rsi) (.mem (X86_REG_SI * 8) .rdi),
  .pop .rax,
  .mov (.reg .rax) (.mem (X86_REG_DI * 8) .rdi),
  .mov (.mem 24 .rsp) (.reg .rax),
  .mov (.reg .rax) (.mem (X86_REG_SP * 8) .rdi),
  .mov (.reg .rbp) (.mem (X86_REG_BP * 8) .rdi),
  .mov (.reg .r8) (.mem (X86_REG_R8 * 8) .rdi),
  .mov (.reg .r9) (.mem (X86_REG_R9 * 8) .rdi),
  .mov (.reg .r10) (.mem (X86_REG_R10 * 8) .rdi),
  .mov (.reg .r11) (.mem (X86_REG_R11 * 8) .rdi),
  .mov (.reg .r12) (.mem (X86_REG_R12 * 8) .rdi),
  .mov (.reg .r13) (.mem (X86_REG_R13 * 8) .rdi),
  .mov (.reg .r14) (.mem (X86_REG_R14 * 8) .rdi),
  .mov (.reg .r15) (.mem (X86_REG_R15 * 8) .rdi),
  .mov (.mem 0 .rsp) (.reg .rax),
  .mov (.reg .rax) (.mem (X86_REG_IP * 8) .rdi),
  .mov (.mem 16 .rsp) (.reg .rax),
  .mov (.reg .rax) (.mem (X86_REG_FLAGS * 8) .rdi),
  .add (8 * 5) .rsp]

/-- `proc_run`, up to its `iretq` -/
def procRunBody : List Instr := [
  .sub (5 * 8) .rsp,
  .mov (.mem (X86_REG_IP * 8) .rdi) (.reg .rax),
  .mov (.reg .rax) (.mem 0 .rsp),
  .mov (.imm (X86_SEL_CODE3 ||| X86_RING3)) (.mem 8 .rsp),
  .mov (.mem (X86_REG_FLAGS * 8) .rdi) (.reg .rax),
  .mov (.reg .rax) (.mem 16 .rsp),
  .mov (.mem (X86_REG_SP * 8) .rdi) (.reg .rax),
  .mov (.reg .rax) (.mem 24 .rsp),
  .mov (.imm (X86_SEL_DATA3 ||| X86_RING3)) (.mem 32 .rsp),
  .mov (.mem (X86_REG_AX * 8) .rdi) (.reg .rax),
  .mov (.mem (X86_REG_BX * 8) .rdi) (.reg .rbx),
  .mov (.mem (X86_REG_CX * 8) .rdi) (.reg .rcx),
  .mov (.mem (X86_REG_DX * 8) .rdi) (.reg .rdx),
  .mov (.mem (X86_REG_SI * 8) .rdi) (.reg .rsi),
  .mov (.mem (X86_REG_BP * 8) .rdi) (.reg .rbp),
  .mov (.mem (X86_REG_R8 * 8) .rdi) (.reg .r8),
  .mov (.mem (X86_REG_R9 * 8) .rdi) (.reg .r9),
  .mov (.mem (X86_REG_R10 * 8) .rdi) (.reg .r10),
  .mov (.mem (X86_REG_R11 * 8) .rdi) (.reg .r11),
  .mov (.mem (X86_REG_R12 * 8) .rdi) (.reg .r12),
  .mov (.mem (X86_REG_R13 * 8) .rdi) (.reg .r13),
  .mov (.mem (X86_REG_R14 * 8) .rdi) (.reg .r14),
  .mov (.mem (X86_REG_R15 * 8) .rdi) (.reg .r15),
  .mov (.mem (X86_REG_DI * 8) .rdi) (.reg .rdi),
  .swapgs]

def procRun (s : Cpu) : Cpu := (s.exec procRunBody).iretq

/-- `proc_run_sysret`, up to its `sysretq` -/
def procRunSysretBody : List Instr := [
  .mov (.mem (X86_REG_IP * 8) .rdi) (.reg .rcx),
  .mov (.mem (X86_REG_FLAGS * 8) .rdi) (.reg .r11),
  .mov (.mem (X86_REG_AX * 8) .rdi) (.reg .rax),
  .mov (.mem (X86_REG_BX * 8) .rdi) (.reg .rbx),
  .mov (.mem (X86_REG_DX * 8) .rdi) (.reg .rdx),
  .mov (.mem (X86_REG_SI * 8) .rdi) (.reg .rsi),
  .mov (.mem (X86_REG_SP * 8) .rdi) (.reg .rsp),
  .mov (.mem (X86_REG_BP * 8) .rdi) (.reg .rbp),
  .mov (.mem (X86_REG_R8 * 8) .rdi) (.reg .r8),
  .mov (.mem (X86_REG_R9 * 8) .rdi) (.reg .r9),
  .mov (.mem (X86_REG_R10 * 8) .rdi) (.reg .r10),
  .mov (.mem (X86_REG_R12 * 8) .rdi) (.reg .r12),
  .mov (.mem (X86_REG_R13 * 8) .rdi) (.reg .r13),
  .mov (.mem (X86_REG_R14 * 8) .rdi) (.reg .r14),
  .mov (.mem (X86_REG_R15 * 8) .rdi) (.reg .r15),
  .mov (.mem (X86_REG_DI * 8) .rdi) (.reg .rdi),
  .swapgs]

def procRunSysret (k : Control) (s : Cpu) : Cpu := (s.exec procRunSysretBody).sysretq k

/-- `x86_sys_handler` between its checks and the call of the handler -/
def sysSave (img : Image) : List Instr := [
  .swapgs,
  .mov (.reg .rsp) (.gs 24),
  .mov (.gs 8) (.reg .rsp),
  .mov (.reg .rbx) (.mem (X86_REG_BX * 8) .rsp),
  .mov (.reg .rdx) (.mem (X86_REG_DX * 8) .rsp),
  .mov (.reg .rdi) (.mem (X86_REG_DI * 8) .rsp),
  .mov (.reg .rsi) (.mem (X86_REG_SI * 8) .rsp),
  .mov (.reg .rbp) (.mem (X86_REG_BP * 8) .rsp),
  .mov (.reg .r8) (.mem (X86_REG_R8 * 8) .rsp),
  .mov (.reg .r9) (.mem (X86_REG_R9 * 8) .rsp),
  .mov (.reg .r10) (.mem (X86_REG_R10 * 8) .rsp),
  .mov (.reg .r12) (.mem (X86_REG_R12 * 8) .rsp),
  .mov (.reg .r13) (.mem (X86_REG_R13 * 8) .rsp),
  .mov (.reg .r14) (.mem (X86_REG_R14 * 8) .rsp),
  .mov (.reg .r15) (.mem (X86_REG_R15 * 8) .rsp),
  .mov (.reg .rcx) (.mem (X86_REG_IP * 8) .rsp),
  .mov (.reg .r11) (.mem (X86_REG_FLAGS * 8) .rsp),
  .mov (.gs 24) (.reg .rbx),
  .mov (.reg .rbx) (.mem (X86_REG_SP * 8) .rsp),
  .mov (.imm img.procRunSysret) (.mem PROCESS_RUN .rsp),
  .mov (.gs 0) (.reg .rsp),
  .lea (32 + KERNEL_STACK_SIZE) .rsp .rsp,
  .sub (6 * 8) .rsp,
  .mov (.reg .rdi) (.mem (0 * 8) .rsp),
  .mov (.reg .rsi) (.mem (1 * 8) .rsp),
  .mov (.reg .rdx) (.mem (2 * 8) .rsp),
  .mov (.reg .r10) (.mem (3 * 8) .rsp),
  .mov (.reg .r8) (.mem (4 * 8) .rsp),
  .mov (.reg .r9) (.mem (5 * 8) .rsp),
  .mov (.gs 8) (.reg .rdi),
  .mov (.reg .rsp) (.reg .rsi)]

/-- `x86_sys_handler` after the handler has returned, up to the jump to `proc_run_sysret` -/
def sysResult : List Instr := [
  .mov (.gs 8) (.reg .rdi),
  .mov (.reg .rax) (.mem (8 * X86_REG_AX) .rdi)]

/-- how far `x86_sys_handler` gets -/
inductive SysPath where
  /-- `call *%rax` is next -/
  | call (s : Cpu)
  /-- `bad_sys` returned to the process -/
  | bad (s : Cpu)

def badSys (k : Control) (s : Cpu) : Cpu := (s.exec [.mov (.imm (-ENOSYS)) (.reg .rax)]).sysretq k

def x86SysHandler (img : Image) (k : Control) (s : Cpu) : SysPath :=
  let s := s.exec [.cmp KERNEL_MAX_SYSCALL .rax]
  if s.ge then .bad (badSys k s)
  else
    let s := s.exec [.mov (.index img.sysHandlers .rax) (.reg .rax), .test .rax .rax]
    if s.z then .bad (badSys k s) else .call (s.exec (sysSave img))

/-! ## the kernel around them -/

/-- what `sys_init`, `thread_init` and `idt_set_gate_interrupt` have set up -/
def Image.control (img : Image) : Control where
  star := X86_SEL_CODE0 <<< 32 ||| X86_SEL_CODE3 <<< 48
  sfmask := IF
  rsp0 := img.thread + (32 + KERNEL_STACK_SIZE)
  gateCs := X86_SEL_CODE0

/-- the process records, and `self` and `proc` of the thread -/
def Image.Kept (img : Image) (a : Word) : Prop :=
  img.processList.toNat ≤ a.toNat ∧ a.toNat < img.processList.toNat + 672 * img.processCount ∨
    img.thread.toNat ≤ a.toNat ∧ a.toNat < img.thread.toNat + 16

instance (img : Image) (a : Word) : Decidable (img.Kept a) :=
  inferInstanceAs (Decidable (_ ∧ _ ∨ _ ∧ _))

/-- what C code leaves behind -/
structure CEffect where
  regs : Reg → Word
  rflags : Word
  mem : Word → Word

/-- C code may use every register, and all memory but the process records and the two pointers of the
thread that the routines go by -/
def afterC (img : Image) (c : CEffect) (s : Cpu) : Cpu :=
  { s with
    regs := c.regs, rflags := c.rflags, mem := fun a => if img.Kept a then s.mem a else c.mem a }

/-- `sched_exec(proc)`; `c` is what the C code has done by the time it calls `proc->run` -/
def schedExec (img : Image) (c : CEffect) (proc : Word) (s : Cpu) : Option Cpu :=
  let s := ((afterC img c s).store (img.thread + 8) proc).set .rdi proc
  if s.mem (proc + PROCESS_RUN) = img.procRun then some (procRun s)
  else if s.mem (proc + PROCESS_RUN) = img.procRunSysret then some (procRunSysret img.control s)
  else none

/-- `int_timer`: `proc_reschedule`, then `kern_schedule`, which picks `proc` -/
def intTimer (img : Image) (c : CEffect) (proc : Word) (s : Cpu) : Option Cpu :=
  schedExec img c proc
    (((s.interrupt img.control).exec (saveContext img)).exec [.mov (.imm 0x20) (.reg .rax)])

/-- a `syscall` instruction; the handler, when there is one, has the effect `c` and its result in
`%rax` -/
def sysCall (img : Image) (c : CEffect) (s : Cpu) : Cpu :=
  match x86SysHandler img img.control (s.syscall img.control) with
  | .bad s => s
  | .call s => procRunSysret img.control ((afterC img c s).exec sysResult)

/-! ## slots of a record -/

/-- the slot of a register -/
def slot : Reg → Word
  | .rax => X86_REG_AX
  | .rbx => X86_REG_BX
  | .rcx => X86_REG_CX
  | .rdx => X86_REG_DX
  | .rsi => X86_REG_SI
  | .rdi => X86_REG_DI
  | .rsp => X86_REG_SP
  | .rbp => X86_REG_BP
  | .r8 => X86_REG_R8
  | .r9 => X86_REG_R9
  | .r10 => X86_REG_R10
  | .r11 => X86_REG_R11
  | .r12 => X86_REG_R12
  | .r13 => X86_REG_R13
  | .r14 => X86_REG_R14
  | .r15 => X86_REG_R15

theorem slot_lt (r : Reg) : slot r * 8 < PROCESS_SIZE := by
  cases r <;> decide

/-- what the record at `p` holds -/
def recordContext (m : Word → Word) (p : Word) : Context where
  regs := fun r => m (p + slot r * 8)
  rip := m (p + X86_REG_IP * 8)
  rflags := m (p + X86_REG_FLAGS * 8)

/-- the address is not in the record at `p` -/
def Outside (p a : Word) : Prop := ∀ d : Word, d < PROCESS_SIZE → a ≠ p + d

theorem update_of_outside {m : Word → Word} {p a d v : Word} (h : Outside p a) (hd : d < PROCESS_SIZE) :
    Function.update m (p + d) v a = m a := Function.update_of_ne (h d hd) ..

/-- a write outside a record does not change it -/
theorem update_at_outside {m : Word → Word} {p a d v : Word} (h : Outside p a) (hd : d < PROCESS_SIZE) :
    Function.update m a v (p + d) = m (p + d) := Function.update_of_ne (h d hd).symm ..

theorem writeAll_of_outside {m : Word → Word} {p a : Word} {ws : List (Word × Word)} (h : Outside p a)
    (hws : ∀ w ∈ ws, w.1 < PROCESS_SIZE) : writeAll m p ws a = m a :=
  writeAll_of_ne fun w hw => h w.1 (hws w hw)

theorem recordContext_congr {m m' : Word → Word} {p : Word}
    (h : ∀ d : Word, d < PROCESS_SIZE → m (p + d) = m' (p + d)) :
    recordContext m p = recordContext m' p := by
  unfold recordContext
  rw [funext fun r => h _ (slot_lt r), h _ (by decide), h _ (by decide)]

/-! ## `SAVE_CONTEXT` -/

section
variable {img : Image} {s : Cpu} {p sp : Word}

/-- the writes of `SAVE_CONTEXT`: `%rdi` on the stack, then the record -/
theorem saveContext_mem (hsp : s.regs .rsp = sp) (hp : s.mem (s.kernelGsBase + 8) = p)
    (hgs : s.kernelGsBase + 8 ≠ sp - 8) (hpush : Outside p (sp - 8)) (h0 : Outside p (sp + 0))
    (h16 : Outside p (sp + 16)) (h24 : Outside p (sp + 24)) :
    (s.exec (saveContext img)).mem = writeAll (Function.update s.mem (sp - 8) (s.regs .rdi)) p
      [(PROCESS_RUN, img.procRun), (X86_REG_AX * 8, s.regs .rax), (X86_REG_BX * 8, s.regs .rbx),
        (X86_REG_CX * 8, s.regs .rcx), (X86_REG_DX * 8, s.regs .rdx), (X86_REG_SI * 8, s.regs .rsi),
        (X86_REG_DI * 8, s.regs .rdi),
        (X86_REG_SP * 8, Function.update s.mem (sp - 8) (s.regs .rdi) (sp + 24)),
        (X86_REG_BP * 8, s.regs .rbp), (X86_REG_R8 * 8, s.regs .r8), (X86_REG_R9 * 8, s.regs .r9),
        (X86_REG_R10 * 8, s.regs .r10), (X86_REG_R11 * 8, s.regs .r11), (X86_REG_R12 * 8, s.regs .r12),
        (X86_REG_R13 * 8, s.regs .r13), (X86_REG_R14 * 8, s.regs .r14), (X86_REG_R15 * 8, s.regs .r15),
        (X86_REG_IP * 8, Function.update s.mem (sp - 8) (s.regs .rdi) (sp + 0)),
        (X86_REG_FLAGS * 8, Function.update s.mem (sp - 8) (s.regs .rdi) (sp + 16))] := by
  simp (disch := first | assumption | decide) only [saveContext, exec_cons, exec_nil, exec1, value, write,
    set_regs, set_mem, set_gsBase, set_kernelGsBase, store_regs, store_mem, store_gsBase,
    store_kernelGsBase, reduceCtorEq, if_true, if_false, hsp, hp, Function.update_of_ne hgs,
    Function.update_self, BitVec.sub_add_cancel, update_of_outside]
  rfl

theorem saveContext_gs : (s.exec (saveContext img)).gsBase = s.kernelGsBase ∧
    (s.exec (saveContext img)).kernelGsBase = s.gsBase := ⟨rfl, rfl⟩

/-- **`SAVE_CONTEXT`** on the frame of an interrupt at `sp`, with the record of the process at `p` -/
theorem saveContext_spec (hsp : s.regs .rsp = sp) (hp : s.mem (s.kernelGsBase + 8) = p)
    (hgs : s.kernelGsBase + 8 ≠ sp - 8) (hpush : Outside p (sp - 8)) (h0 : Outside p (sp + 0))
    (h16 : Outside p (sp + 16)) (h24 : Outside p (sp + 24)) :
    recordContext (s.exec (saveContext img)).mem p =
        ⟨Function.update s.regs .rsp (s.mem (sp + 24)), s.mem (sp + 0), s.mem (sp + 16)⟩ ∧
      (s.exec (saveContext img)).mem (p + PROCESS_RUN) = img.procRun ∧
      ∀ a, Outside p a → a ≠ sp - 8 → (s.exec (saveContext img)).mem a = s.mem a := by
  have hstack : ∀ d : Word, d ≠ -8 → sp + d ≠ sp - 8 := fun d hd h =>
    hd ((BitVec.add_right_inj sp).mp (h.trans (BitVec.sub_eq_add_neg sp 8)))
  rw [saveContext_mem hsp hp hgs hpush h0 h16 h24, Function.update_of_ne (hstack 24 (by decide)),
    Function.update_of_ne (hstack 0 (by decide)), Function.update_of_ne (hstack 16 (by decide))]
  refine ⟨?_, writeAll_at .., fun a ha hne => ?_⟩
  · unfold recordContext
    congr 1
    · funext r
      rw [writeAll_at]
      cases r <;> rfl
    · exact writeAll_at ..
    · exact writeAll_at ..
  · rw [writeAll_of_outside ha (by simp; decide), Function.update_of_ne hne]

/-! ## `proc_run` -/

/-- the registers that `proc_run` loads from their slots -/
def runTable : List (Reg × Word) :=
  [(.rax, X86_REG_AX * 8), (.rbx, X86_REG_BX * 8), (.rcx, X86_REG_CX * 8), (.rdx, X86_REG_DX * 8),
    (.rsi, X86_REG_SI * 8), (.rbp, X86_REG_BP * 8), (.r8, X86_REG_R8 * 8), (.r9, X86_REG_R9 * 8),
    (.r10, X86_REG_R10 * 8), (.r11, X86_REG_R11 * 8), (.r12, X86_REG_R12 * 8), (.r13, X86_REG_R13 * 8),
    (.r14, X86_REG_R14 * 8), (.r15, X86_REG_R15 * 8)]

/-- the frame for `iretq` -/
def runFrame : List Instr := procRunBody.take 9

theorem procRunBody_eq : procRunBody = runFrame ++ (runTable.map fun e => .mov (.mem e.2 .rdi) (.reg e.1)) ++
    [.mov (.mem (X86_REG_DI * 8) .rdi) (.reg .rdi), .swapgs] := rfl

theorem runFrame_spec (hsp : s.regs .rsp = sp) (hp : s.regs .rdi = p) (h0 : Outside p (sp - 5 * 8 + 0))
    (h8 : Outside p (sp - 5 * 8 + 8)) (h16 : Outside p (sp - 5 * 8 + 16)) :
    (s.exec runFrame).mem = writeAll s.mem (sp - 5 * 8)
        [(0, s.mem (p + X86_REG_IP * 8)), (8, X86_SEL_CODE3 ||| X86_RING3),
          (16, s.mem (p + X86_REG_FLAGS * 8)), (24, s.mem (p + X86_REG_SP * 8)),
          (32, X86_SEL_DATA3 ||| X86_RING3)] ∧
      (s.exec runFrame).regs .rsp = sp - 5 * 8 ∧ (s.exec runFrame).regs .rdi = p ∧
      (s.exec runFrame).gsBase = s.gsBase ∧ (s.exec runFrame).kernelGsBase = s.kernelGsBase := by
  refine ⟨?_, ?_, ?_, rfl, rfl⟩
  · simp (disch := first | assumption | decide) only [runFrame, procRunBody, List.take, exec_cons, exec_nil,
      exec1, value, write, set_regs, set_mem, store_regs, store_mem, reduceCtorEq, if_true, if_false,
      hsp, hp, update_at_outside]
    rfl
  · exact congrArg (· - 5 * 8) hsp
  · exact hp

/-- the part of `proc_run` behind the frame -/
def runLoad : List Instr := procRunBody.drop 9

theorem runLoad_eq : runLoad = (runTable.map fun e => .mov (.mem e.2 .rdi) (.reg e.1)) ++
    [.mov (.mem (X86_REG_DI * 8) .rdi) (.reg .rdi), .swapgs] := rfl

theorem runLoad_spec (hp : s.regs .rdi = p) :
    s.exec runLoad = { s with
      regs := Function.update (readAll s.regs s.mem p runTable) .rdi (s.mem (p + X86_REG_DI * 8))
      gsBase := s.kernelGsBase
      kernelGsBase := s.gsBase } := by
  have hrdi : readAll s.regs s.mem p runTable .rdi = p := (readAll_apply ..).trans hp
  rw [runLoad_eq, exec_append, exec_loads _ _ _ (by decide), hp]
  simp only [exec_cons, exec_nil, exec1, value, write, hrdi]
  rfl

/-- with the frame at `sp`, the rest of `proc_run` gives the context in the record -/
theorem iretq_runLoad (hp : s.regs .rdi = p) (hsp : s.regs .rsp = sp) :
    (s.exec runLoad).iretq =
      { regs := Function.update (fun r => s.mem (p + slot r * 8)) .rsp (s.mem (sp + 24))
        rip := s.mem sp
        rflags := s.mem (sp + 16)
        cs := s.mem (sp + 8)
        ss := s.mem (sp + 32)
        gsBase := s.kernelGsBase
        kernelGsBase := s.gsBase
        mem := s.mem } := by
  have hrsp : Function.update (readAll s.regs s.mem p runTable) .rdi (s.mem (p + X86_REG_DI * 8)) .rsp
      = sp := (readAll_apply ..).trans hsp
  have hregs : Function.update (Function.update (readAll s.regs s.mem p runTable) .rdi
      (s.mem (p + X86_REG_DI * 8))) .rsp (s.mem (sp + 24)) =
        Function.update (fun r => s.mem (p + slot r * 8)) .rsp (s.mem (sp + 24)) := by
    funext r
    cases r <;> rfl
  rw [runLoad_spec hp]
  unfold Cpu.iretq Cpu.set
  simp only [hrsp, hregs]

/-- **`proc_run`** loads all slots of the record at `p`; the frame is built on the stack at `sp` -/
theorem procRun_spec (hsp : s.regs .rsp = sp) (hp : s.regs .rdi = p)
    (hstack : ∀ d : Word, d < 5 * 8 → Outside p (sp - 5 * 8 + d)) :
    (procRun s).context = recordContext s.mem p ∧ (procRun s).cs = X86_SEL_CODE3 ||| X86_RING3 ∧
      (procRun s).gsBase = s.kernelGsBase ∧ (procRun s).kernelGsBase = s.gsBase ∧
      ∀ a, (∀ d : Word, d < 5 * 8 → a ≠ sp - 5 * 8 + d) → (procRun s).mem a = s.mem a := by
  obtain ⟨hm, hrsp, hrdi, hgs, hkgs⟩ := runFrame_spec hsp hp (hstack 0 (by decide)) (hstack 8 (by decide))
    (hstack 16 (by decide))
  have hrun : procRun s = _ :=
    (congrArg Cpu.iretq (exec_append s runFrame runLoad)).trans (iretq_runLoad hrdi hrsp)
  generalize s.exec runFrame = t at hm hrsp hrdi hgs hkgs hrun
  have hframe : ∀ a, (∀ d : Word, d < 5 * 8 → a ≠ sp - 5 * 8 + d) → t.mem a = s.mem a := fun a ha => by
    rw [hm]
    exact writeAll_of_ne fun w hw => ha w.1 (by revert w; simp)
  have hslot : ∀ d : Word, d < PROCESS_SIZE → t.mem (p + d) = s.mem (p + d) := fun d hd =>
    hframe _ fun e he => (hstack e he d hd).symm
  have hip : t.mem (sp - 5 * 8 + 0) = s.mem (p + X86_REG_IP * 8) := by rw [hm, writeAll_at]; rfl
  have hcs : t.mem (sp - 5 * 8 + 8) = X86_SEL_CODE3 ||| X86_RING3 := by rw [hm, writeAll_at]; rfl
  have hflags : t.mem (sp - 5 * 8 + 16) = s.mem (p + X86_REG_FLAGS * 8) := by rw [hm, writeAll_at]; rfl
  have husp : t.mem (sp - 5 * 8 + 24) = s.mem (p + X86_REG_SP * 8) := by rw [hm, writeAll_at]; rfl
  have hzero : sp - 5 * 8 + (0 : Word) = sp - 5 * 8 := BitVec.add_zero _
  rw [hzero] at hip
  have hregs : Function.update (fun r => t.mem (p + slot r * 8)) .rsp (s.mem (p + X86_REG_SP * 8)) =
      fun r => s.mem (p + slot r * 8) := by
    funext r
    by_cases hr : r = .rsp
    · subst hr
      exact Function.update_self ..
    · rw [Function.update_of_ne hr]
      exact hslot _ (slot_lt r)
  rw [hrun, husp, hip, hflags, hregs]
  exact ⟨rfl, hcs, hkgs, hgs, hframe⟩

/-! ## `proc_run_sysret` -/

/-- the registers that `proc_run_sysret` loads from their slots; `%rcx` and `%r11` are for `sysretq` -/
def sysretTable : List (Reg × Word) :=
  [(.rcx, X86_REG_IP * 8), (.r11, X86_REG_FLAGS * 8), (.rax, X86_REG_AX * 8), (.rbx, X86_REG_BX * 8),
    (.rdx, X86_REG_DX * 8), (.rsi, X86_REG_SI * 8), (.rsp, X86_REG_SP * 8), (.rbp, X86_REG_BP * 8),
    (.r8, X86_REG_R8 * 8), (.r9, X86_REG_R9 * 8), (.r10, X86_REG_R10 * 8), (.r12, X86_REG_R12 * 8),
    (.r13, X86_REG_R13 * 8), (.r14, X86_REG_R14 * 8), (.r15, X86_REG_R15 * 8)]

theorem procRunSysretBody_eq :
    procRunSysretBody = (sysretTable.map fun e => .mov (.mem e.2 .rdi) (.reg e.1)) ++
      [.mov (.mem (X86_REG_DI * 8) .rdi) (.reg .rdi), .swapgs] := rfl

/-- the registers after `proc_run_sysret` -/
def sysretRegs (m : Word → Word) (p : Word) : Reg → Word
  | .rcx => m (p + X86_REG_IP * 8)
  | .r11 => m (p + X86_REG_FLAGS * 8)
  | r => m (p + slot r * 8)

/-- **`proc_run_sysret`** loads all slots of the record at `p` but those of `%rcx` and `%r11` -/
theorem procRunSysret_spec (k : Control) (hp : s.regs .rdi = p) :
    (procRunSysret k s).context = ⟨sysretRegs s.mem p, s.mem (p + X86_REG_IP * 8),
        sysretFlags (s.mem (p + X86_REG_FLAGS * 8))⟩ ∧
      (procRunSysret k s).cs = k.star >>> 48 + 16 ||| 3 ∧
      (procRunSysret k s).gsBase = s.kernelGsBase ∧ (procRunSysret k s).kernelGsBase = s.gsBase ∧
      (procRunSysret k s).mem = s.mem := by
  have hrdi : readAll s.regs s.mem p sysretTable .rdi = p := (readAll_apply ..).trans hp
  have hregs : Function.update (readAll s.regs s.mem p sysretTable) .rdi (s.mem (p + X86_REG_DI * 8)) =
      sysretRegs s.mem p := by
    funext r
    cases r <;> rfl
  have hbody : s.exec procRunSysretBody = { s with
      regs := sysretRegs s.mem p
      gsBase := s.kernelGsBase
      kernelGsBase := s.gsBase } := by
    rw [procRunSysretBody_eq, exec_append, exec_loads _ _ _ (by decide), hp, ← hregs]
    simp only [exec_cons, exec_nil, exec1, value, write, hrdi]
    rfl
  unfold procRunSysret
  rw [hbody]
  exact ⟨rfl, rfl, rfl, rfl, rfl⟩

/-! ## `x86_sys_handler` -/

/-- the writes of `x86_sys_handler` before the handler: the scratch word, the record, the arguments -/
theorem sysSave_mem {thread : Word} (ht : s.kernelGsBase = thread) (hp : s.mem (thread + 8) = p)
    (hself : s.mem (thread + 0) = thread) (ho0 : Outside p (thread + 0)) (ho24 : Outside p (thread + 24)) :
    (s.exec (sysSave img)).mem =
      writeAll (writeAll (Function.update s.mem (thread + 24) (s.regs .rsp)) p
        [(X86_REG_BX * 8, s.regs .rbx), (X86_REG_DX * 8, s.regs .rdx), (X86_REG_DI * 8, s.regs .rdi),
          (X86_REG_SI * 8, s.regs .rsi), (X86_REG_BP * 8, s.regs .rbp), (X86_REG_R8 * 8, s.regs .r8),
          (X86_REG_R9 * 8, s.regs .r9), (X86_REG_R10 * 8, s.regs .r10), (X86_REG_R12 * 8, s.regs .r12),
          (X86_REG_R13 * 8, s.regs .r13), (X86_REG_R14 * 8, s.regs .r14), (X86_REG_R15 * 8, s.regs .r15),
          (X86_REG_IP * 8, s.regs .rcx), (X86_REG_FLAGS * 8, s.regs .r11), (X86_REG_SP * 8, s.regs .rsp),
          (PROCESS_RUN, img.procRunSysret)])
        (thread + (32 + KERNEL_STACK_SIZE) - 6 * 8)
        [(0 * 8, s.regs .rdi), (1 * 8, s.regs .rsi), (2 * 8, s.regs .rdx), (3 * 8, s.regs .r10),
          (4 * 8, s.regs .r8), (5 * 8, s.regs .r9)] := by
  have h8 : thread + 8 ≠ thread + 24 := fun h => absurd ((BitVec.add_right_inj thread).mp h) (by decide)
  have h0 : thread + 0 ≠ thread + 24 := fun h => absurd ((BitVec.add_right_inj thread).mp h) (by decide)
  simp (disch := first | assumption | decide) only [sysSave, exec_cons, exec_nil, exec1, value, write,
    set_regs, set_mem, set_gsBase, set_kernelGsBase, store_regs, store_mem, store_gsBase,
    store_kernelGsBase, reduceCtorEq, if_true, if_false, ht, hp, hself, Function.update_of_ne h8,
    Function.update_of_ne h0, Function.update_self, update_of_outside]
  simp only [writeAll, List.foldl_cons, List.foldl_nil]

/-- the record after the first part of `x86_sys_handler`: `%rcx` and `%r11` are in the slots of `RIP` and
`RFLAGS`, their own slots and that of `%rax` are left as they were -/
theorem sysSave_spec {thread : Word} (ht : s.kernelGsBase = thread) (hp : s.mem (thread + 8) = p)
    (hself : s.mem (thread + 0) = thread) (ho0 : Outside p (thread + 0)) (ho24 : Outside p (thread + 24))
    (hargs : ∀ d : Word, d < 6 * 8 → Outside p (thread + (32 + KERNEL_STACK_SIZE) - 6 * 8 + d)) :
    (∀ r, r ≠ .rax → r ≠ .rcx → r ≠ .r11 →
        (s.exec (sysSave img)).mem (p + slot r * 8) = s.regs r) ∧
      (s.exec (sysSave img)).mem (p + X86_REG_IP * 8) = s.regs .rcx ∧
      (s.exec (sysSave img)).mem (p + X86_REG_FLAGS * 8) = s.regs .r11 ∧
      ∀ a, Outside p a → a ≠ thread + 24 →
        (∀ d : Word, d < 6 * 8 → a ≠ thread + (32 + KERNEL_STACK_SIZE) - 6 * 8 + d) →
        (s.exec (sysSave img)).mem a = s.mem a := by
  have hslot : ∀ {m : Word → Word} {d : Word} {ws : List (Word × Word)}, d < PROCESS_SIZE →
      (∀ w ∈ ws, w.1 < 6 * 8) →
      writeAll m (thread + (32 + KERNEL_STACK_SIZE) - 6 * 8) ws (p + d) = m (p + d) := fun hd hws =>
    writeAll_of_ne fun w hw => (hargs w.1 (hws w hw) _ hd).symm
  rw [sysSave_mem ht hp hself ho0 ho24]
  refine ⟨fun r ha hc h11 => ?_, ?_, ?_, fun a ha h24 harg => ?_⟩
  · rw [hslot (slot_lt r) (by simp), writeAll_at]
    cases r <;> first | rfl | contradiction
  · rw [hslot (by decide) (by simp), writeAll_at]
    rfl
  · rw [hslot (by decide) (by simp), writeAll_at]
    rfl
  · rw [writeAll_of_ne fun w hw => harg w.1 (by revert w; simp), writeAll_of_outside ha (by simp; decide),
      Function.update_of_ne h24]

theorem sysSave_gs : (s.exec (sysSave img)).gsBase = s.kernelGsBase ∧
    (s.exec (sysSave img)).kernelGsBase = s.gsBase := ⟨rfl, rfl⟩

end

end FuseeOS
