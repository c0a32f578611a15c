import FuseeOS.Kernel.ContextRun

/-!
# The gate of the system calls

`x86_sys_handler` up to the call of the handler, with the addresses that it reads.  The number in `%rax`
is compared signed (`jge`), and the load from `gSysHandlers` scales it modulo `2^64`.

* `sysHandlerReads_eq`     what the three checks let through;
* `sysSave_args`           the arguments of the handler;
* `sys_gate`               which numbers the gate treats right.
-/

namespace FuseeOS
open X86 X86.Cpu

/-- `x86_sys_handler` and the addresses that it reads before it calls or returns -/
def x86SysHandlerReads (img : Image) (k : Control) (s : Cpu) : SysPath × List Word :=
  let compare : List Instr := [.cmp KERNEL_MAX_SYSCALL .rax]
  let load : List Instr := [.mov (.index img.sysHandlers .rax) (.reg .rax), .test .rax .rax]
  let bad : List Instr := [.mov (.imm (-ENOSYS)) (.reg .rax)]
  let t := s.exec compare
  let u := t.exec load
  if t.ge then (.bad (badSys k t), s.reads compare ++ t.reads bad)
  else if u.z then (.bad (badSys k u), s.reads compare ++ t.reads load ++ u.reads bad)
  else (.call (u.exec (sysSave img)), s.reads compare ++ t.reads load ++ u.reads (sysSave img))

/-- the reads are those of `x86_sys_handler` -/
theorem x86SysHandlerReads_fst (img : Image) (k : Control) (s : Cpu) :
    (x86SysHandlerReads img k s).1 = x86SysHandler img k s := by
  unfold x86SysHandlerReads x86SysHandler
  simp only
  split
  · rfl
  · split
    · rfl
    · rfl

/-- the entry of `gSysHandlers` that the number in `%rax` selects -/
def Image.entry (img : Image) (s : Cpu) : Word := s.mem (img.sysHandlers + s.regs .rax * 8)

/-- the addresses of `gSysHandlers` -/
def Image.InTable (img : Image) (a : Word) : Prop :=
  ∃ i : Word, i < KERNEL_MAX_SYSCALL ∧ a = img.sysHandlers + i * 8

/-- the registers of the arguments, in order -/
def sysArgs : List Reg := [.rdi, .rsi, .rdx, .r10, .r8, .r9]

/-- `call *%rax` is next: the handler that the number selects, for the process `proc`, with the
arguments that the process has put in its registers -/
structure Called (img : Image) (proc : Word) (s u : Cpu) : Prop where
  handler : u.regs .rax = img.entry s
  process : u.regs .rdi = proc
  args : ∀ (i : Nat) (h : i < sysArgs.length),
    u.mem (u.regs .rsi + 8 * BitVec.ofNat 64 i) = s.regs (sysArgs.get ⟨i, h⟩)

/-- the process goes on with `-ENOSYS` and its own registers -/
structure Rejected (s u : Cpu) : Prop where
  result : u.regs .rax = -ENOSYS
  regs : ∀ r, r ≠ .rax → r ≠ .rcx → r ≠ .r11 → u.regs r = s.regs r
  rip : u.rip = s.rip
  rflags : u.rflags = sysretFlags s.rflags
  user : u.cs &&& 3 = X86_RING3

/-- what is asked of the gate when the running process executes `syscall` in the state `s` -/
def GateSound (img : Image) (proc : Word) (s : Cpu) : Prop :=
  match x86SysHandlerReads img img.control (s.syscall img.control) with
  | (.call u, _) => ValidSyscall img s ∧ Called img proc s u
  | (.bad u, reads) => ¬ ValidSyscall img s ∧ Rejected s u ∧ ∀ a ∈ reads, img.InTable a

/-! ## the checks -/

section
variable {img : Image} {s : Cpu} {k : Control} {p : Word}

theorem entry_syscall : img.entry (s.syscall k) = img.entry s := rfl

/-- a number is at least 32 as a signed number -/
theorem sle_max (v : Word) :
    KERNEL_MAX_SYSCALL.sle v = (decide (32 ≤ v.toNat) && decide (v.toNat < 2^63)) := by
  have h32 : KERNEL_MAX_SYSCALL.toNat = 32 := rfl
  have hv := v.isLt
  rw [BitVec.sle_eq_decide, ← Bool.decide_and]
  refine decide_eq_decide.mpr ?_
  rw [BitVec.toInt_eq_toNat_cond, BitVec.toInt_eq_toNat_cond]
  omega

/-- the state after the load -/
def loaded (img : Image) (s : Cpu) : Cpu :=
  (s.exec [.cmp KERNEL_MAX_SYSCALL .rax]).exec
    [.mov (.index img.sysHandlers .rax) (.reg .rax), .test .rax .rax]

theorem loaded_regs (r : Reg) : (loaded img s).regs r = if r = .rax then img.entry s else s.regs r :=
  Function.update_apply ..

theorem loaded_z : (loaded img s).z = (img.entry s == 0) := z_test _ .rax

/-- **The three checks**: a number that is 32 or more and below `2^63` is rejected unread; else the word
at the scaled address decides. -/
theorem sysHandlerReads_eq (img : Image) (k : Control) (s : Cpu) :
    x86SysHandlerReads img k s =
      if 32 ≤ (s.regs .rax).toNat ∧ (s.regs .rax).toNat < 2^63 then
        (.bad (badSys k (s.exec [.cmp KERNEL_MAX_SYSCALL .rax])), [])
      else if img.entry s = 0 then (.bad (badSys k (loaded img s)), [img.sysHandlers + s.regs .rax * 8])
      else (.call ((loaded img s).exec (sysSave img)),
        (img.sysHandlers + s.regs .rax * 8) :: (loaded img s).reads (sysSave img)) := by
  have hge : (s.exec [.cmp KERNEL_MAX_SYSCALL .rax]).ge =
      (decide (32 ≤ (s.regs .rax).toNat) && decide ((s.regs .rax).toNat < 2^63)) :=
    (ge_cmp s KERNEL_MAX_SYSCALL .rax).trans (sle_max _)
  have hz : (loaded img s).z = (img.entry s == 0) := loaded_z
  unfold x86SysHandlerReads
  simp only
  rw [hge]
  change (if _ then _ else if (loaded img s).z = true then _ else _) = _
  rw [hz]
  simp only [Bool.and_eq_true, decide_eq_true_eq, beq_iff_eq]
  rfl

theorem badSys_rejected {t : Cpu} (hregs : ∀ r, r ≠ .rax → t.regs r = (s.syscall img.control).regs r) :
    Rejected s (badSys img.control t) := by
  have hrcx : t.regs .rcx = s.rip := hregs .rcx (by decide)
  have hr11 : t.regs .r11 = s.rflags := hregs .r11 (by decide)
  refine ⟨rfl, fun r ha hc h11 => ?_, hrcx, congrArg sysretFlags hr11, ?_⟩
  · refine (Function.update_of_ne ha ..).trans ((hregs r ha).trans ?_)
    exact (Function.update_of_ne h11 ..).trans (Function.update_of_ne hc ..)
  · show ((X86_SEL_CODE0 <<< 32 ||| X86_SEL_CODE3 <<< 48) >>> 48 + 16 ||| 3) &&& 3 = X86_RING3
    decide

/-! ## the arguments -/

/-- the registers with which the handler is called -/
theorem sysSave_args {thread : Word} (ht : s.kernelGsBase = thread) (hp : s.mem (thread + 8) = p)
    (hself : s.mem (thread + 0) = thread) (ho : ∀ d : Word, d.toNat < 32 → Outside p (thread + d))
    (h8 : ∀ d : Word, d < 6 * 8 → thread + 8 ≠ thread + (32 + KERNEL_STACK_SIZE) - 6 * 8 + d) :
    (s.exec (sysSave img)).regs .rax = s.regs .rax ∧ (s.exec (sysSave img)).regs .rdi = p ∧
      (s.exec (sysSave img)).regs .rsi = thread + (32 + KERNEL_STACK_SIZE) - 6 * 8 := by
  have h824 : thread + 8 ≠ thread + 24 := fun h => absurd ((BitVec.add_right_inj thread).mp h) (by decide)
  have h024 : thread + 0 ≠ thread + 24 := fun h => absurd ((BitVec.add_right_inj thread).mp h) (by decide)
  have ho0 := ho 0 (by decide)
  have ho8 := ho 8 (by decide)
  have ho24 := ho 24 (by decide)
  refine ⟨rfl, ?_, ?_⟩
  · simp (disch := first | assumption | decide) only [sysSave, exec_cons, exec_nil, exec1, value, write,
      set_regs, set_mem, set_gsBase, set_kernelGsBase, store_regs, store_mem, store_gsBase,
      store_kernelGsBase, reduceCtorEq, if_true, if_false, ht, hp, hself, Function.update_of_ne h824,
      Function.update_of_ne h024, Function.update_self, update_of_outside,
      Function.update_of_ne (h8 (0 * 8) (by decide)), Function.update_of_ne (h8 (1 * 8) (by decide)),
      Function.update_of_ne (h8 (2 * 8) (by decide)), Function.update_of_ne (h8 (3 * 8) (by decide)),
      Function.update_of_ne (h8 (4 * 8) (by decide)), Function.update_of_ne (h8 (5 * 8) (by decide))]
  · simp (disch := first | assumption | decide) only [sysSave, exec_cons, exec_nil, exec1, value, write,
      set_regs, set_mem, set_gsBase, set_kernelGsBase, store_regs, store_mem, store_gsBase,
      store_kernelGsBase, reduceCtorEq, if_true, if_false, ht, hp, hself, Function.update_of_ne h824,
      Function.update_of_ne h024, Function.update_self, update_of_outside]

variable {a : Procs}

/-- the handler is called with the six registers of the process -/
theorem loaded_called (h : Resumes img s a) :
    Called img (img.proc a.current) s ((loaded img (s.syscall img.control)).exec (sysSave img)) := by
  have hcur := h.current
  have hregs : ∀ r, r ≠ .rax → r ≠ .rcx → r ≠ .r11 →
      (loaded img (s.syscall img.control)).regs r = s.regs r := fun r ha hc h11 => by
    rw [loaded_regs, if_neg ha]
    exact (Function.update_of_ne h11 ..).trans (Function.update_of_ne hc ..)
  have hrax : (loaded img (s.syscall img.control)).regs .rax = img.entry s := by
    rw [loaded_regs, if_pos rfl, entry_syscall]
  have hgs : (loaded img (s.syscall img.control)).kernelGsBase = img.thread := h.gs
  have hproc : (loaded img (s.syscall img.control)).mem (img.thread + 8) = img.proc a.current := h.proc
  have hself : (loaded img (s.syscall img.control)).mem (img.thread + 0) = img.thread := h.self
  generalize loaded img (s.syscall img.control) = t at hregs hrax hgs hproc hself
  have hbase : img.thread + (32 + KERNEL_STACK_SIZE) - 6 * 8 = img.thread + 16368 := by
    rw [BitVec.sub_eq_add_neg, BitVec.add_assoc]
    rfl
  have hargs : ∀ d : Word, d < 6 * 8 → img.thread + 8 ≠ img.thread + (32 + KERNEL_STACK_SIZE) - 6 * 8 + d := by
    intro d hd
    have hd' : d.toNat < 48 := hd
    have hlit : (16368 : Word).toNat = 16368 := rfl
    have hn : (16368 + d : Word).toNat = 16368 + d.toNat := by
      rw [BitVec.toNat_add, hlit]
      omega
    rw [hbase, BitVec.add_assoc]
    exact img.ne_stack (by omega) (by omega) (img.kept_header (by decide))
  obtain ⟨hax, hdi, hsi⟩ := @sysSave_args img t (img.proc a.current) img.thread hgs hproc hself
    (fun d hd => img.outside_thread hcur (by omega)) hargs
  refine ⟨hax.trans hrax, hdi, fun i hi => ?_⟩
  rw [hsi, sysSave_mem hgs hproc hself (img.outside_thread hcur (by decide))
    (img.outside_thread hcur (by decide)), writeAll_at]
  match i, hi with
  | 0, _ => exact hregs .rdi (by decide) (by decide) (by decide)
  | 1, _ => exact hregs .rsi (by decide) (by decide) (by decide)
  | 2, _ => exact hregs .rdx (by decide) (by decide) (by decide)
  | 3, _ => exact hregs .r10 (by decide) (by decide) (by decide)
  | 4, _ => exact hregs .r8 (by decide) (by decide) (by decide)
  | 5, _ => exact hregs .r9 (by decide) (by decide) (by decide)

/-! ## the gate -/

theorem validSyscall_iff : ValidSyscall img s ↔ (s.regs .rax).toNat < 32 ∧ img.entry s ≠ 0 := Iff.rfl

/-- the load is in the table when the number is below 32 modulo `2^61` -/
theorem inTable_iff : img.InTable (img.sysHandlers + s.regs .rax * 8) ↔ (s.regs .rax).toNat % 2^61 < 32 := by
  have hscale : ∀ i : Word, img.sysHandlers + s.regs .rax * 8 = img.sysHandlers + i * 8 ↔
      (s.regs .rax).toNat * 8 % 2^64 = i.toNat * 8 % 2^64 := fun i => by
    rw [BitVec.add_right_inj, ← BitVec.toNat_inj, BitVec.toNat_mul, BitVec.toNat_mul]
    rfl
  unfold Image.InTable
  constructor
  · rintro ⟨i, hi, e⟩
    have hi' : i.toNat < 32 := hi
    have e' := (hscale i).mp e
    omega
  · intro h
    have hi : (BitVec.ofNat 64 ((s.regs .rax).toNat % 2^61)).toNat = (s.regs .rax).toNat % 2^61 := by
      rw [BitVec.toNat_ofNat]
      omega
    refine ⟨BitVec.ofNat 64 ((s.regs .rax).toNat % 2^61), ?_, (hscale _).mpr ?_⟩
    · show BitVec.toNat _ < 32
      rw [hi]
      exact h
    · rw [hi]
      omega

/-- the numbers that the gate treats right: those that are not negative, and of the negative ones those
that the scaling takes to an unused entry of the table -/
def GateRight (img : Image) (s : Cpu) : Prop :=
  (s.regs .rax).toNat < 2^63 ∨ (s.regs .rax).toNat % 2^61 < 32 ∧ img.entry s = 0

/-- a negative number is taken for the word that the scaling takes it to -/
theorem gate_negative (hneg : 2^63 ≤ (s.regs .rax).toNat) (hs : GateSound img p s) :
    (s.regs .rax).toNat % 2^61 < 32 ∧ img.entry s = 0 := by
  have hrax : (s.syscall img.control).regs .rax = s.regs .rax := rfl
  unfold GateSound at hs
  rw [sysHandlerReads_eq, hrax, if_neg (by omega), entry_syscall] at hs
  by_cases he : img.entry s = 0
  · rw [if_pos he] at hs
    exact ⟨inTable_iff.mp (hs.2.2 _ List.mem_cons_self), he⟩
  · rw [if_neg he] at hs
    have hlt := (validSyscall_iff.mp hs.1).1
    omega

/-- **The gate of the system calls.**  A process that executes `syscall` reaches the handler of its
number, or gets `-ENOSYS` without a read outside the table, exactly when its number is `GateRight`. -/
theorem sys_gate (img : Image) (s : Cpu) (a : Procs) (h : Resumes img s a) :
    GateSound img (img.proc a.current) s ↔ GateRight img s := by
  have hrax : (s.syscall img.control).regs .rax = s.regs .rax := rfl
  constructor
  · intro hs
    by_cases hneg : (s.regs .rax).toNat < 2^63
    · exact Or.inl hneg
    · exact Or.inr (gate_negative (by omega) hs)
  · intro hr
    unfold GateSound
    rw [sysHandlerReads_eq, hrax, entry_syscall]
    by_cases hbig : 32 ≤ (s.regs .rax).toNat ∧ (s.regs .rax).toNat < 2^63
    · rw [if_pos hbig]
      have hval : ¬ ValidSyscall img s := fun hv => by
        have hlt := (validSyscall_iff.mp hv).1
        omega
      exact ⟨hval, badSys_rejected fun r _ => rfl, fun a ha => absurd ha List.not_mem_nil⟩
    · rw [if_neg hbig]
      by_cases he : img.entry s = 0
      · rw [if_pos he]
        refine ⟨fun hv => (validSyscall_iff.mp hv).2 he, badSys_rejected fun r ha => ?_, fun b hb => ?_⟩
        · rw [loaded_regs, if_neg ha]
        · rw [List.mem_singleton.mp hb]
          refine inTable_iff.mpr ?_
          rcases hr with hlt | ⟨hmod, -⟩
          · omega
          · exact hmod
      · rw [if_neg he]
        have hlt : (s.regs .rax).toNat < 2^63 := hr.resolve_right fun hc => he hc.2
        exact ⟨validSyscall_iff.mpr ⟨by omega, he⟩, loaded_called h⟩

end

/-! ## a negative number -/

/-- process 0 of two runs, with `v` in `%rax` -/
def numberCpu (v : Word) : Cpu where
  regs := fun r => if r = .rax then v else 0
  rip := 0x10000000
  rflags := 0x202
  cs := X86_SEL_CODE3 ||| X86_RING3
  ss := X86_SEL_DATA3 ||| X86_RING3
  gsBase := 0
  kernelGsBase := twoImage.thread
  mem := Function.update twoMem (twoImage.thread + 8) (twoImage.proc 0)

def numberProcs (v : Word) : Procs where
  current := 0
  contexts := fun i => if i = 0 then (numberCpu v).context else recordContext (numberCpu v).mem (twoImage.proc i)

theorem numberCpu_resumes (v : Word) : Resumes twoImage (numberCpu v) (numberProcs v) := by
  have hslot : ∀ i, i < twoImage.processCount → ∀ d : Word, d < PROCESS_SIZE → ∀ e : Word, e.toNat < 16 →
      twoImage.proc i + d ≠ twoImage.thread + e := fun i hi d hd e he h =>
    twoImage.outside_thread hi (by omega) d hd h.symm
  have hmem : (numberCpu v).mem =
      Function.update twoMem (twoImage.thread + 8) (twoImage.proc 0) := rfl
  refine {
    user := by
      show (X86_SEL_CODE3 ||| X86_RING3) &&& 3 = X86_RING3
      decide
    current := Nat.zero_lt_two
    context := rfl
    gs := rfl
    self := ?_
    proc := ?_
    saved := fun i hi hne => ⟨(if_neg hne).symm, ?_⟩ }
  · rw [hmem, Function.update_of_ne (by decide), twoMem, Function.update_self]
  · rw [hmem, Function.update_self]
    rfl
  · rw [hmem, Function.update_of_ne (hslot i hi _ (by decide) 8 (by decide)), twoMem,
      Function.update_of_ne (hslot i hi _ (by decide) 0 (by decide))]

/-- with `2^63` in `%rax` the load is of entry 0, whose handler is called -/
theorem sys_gate_negative : Resumes twoImage (numberCpu (1 <<< 63)) (numberProcs (1 <<< 63)) ∧
    ¬ GateSound twoImage (twoImage.proc 0) (numberCpu (1 <<< 63)) := by
  have hneg : 2^63 ≤ ((numberCpu (1 <<< 63)).regs .rax).toNat := by decide
  have hentry : twoImage.entry (numberCpu (1 <<< 63)) ≠ 0 := by decide
  exact ⟨numberCpu_resumes _, fun hs => hentry (gate_negative hneg hs).2⟩

/-- the valid number 3 -/
theorem sys_gate_three : GateSound twoImage (twoImage.proc 0) (numberCpu 3) :=
  (sys_gate twoImage (numberCpu 3) (numberProcs 3) (numberCpu_resumes 3)).mpr (Or.inl (by decide))

end FuseeOS
