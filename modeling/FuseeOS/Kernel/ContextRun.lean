import FuseeOS.Lib.Run
import FuseeOS.Kernel.Context

/-!
# Runs of the context switches

User code, timer interrupts in user mode and system calls in any order, for any number of processes.
Beside the processor runs what the processes see of it: `Procs`, where an interrupt does nothing to
registers and a system call changes three.

* `schedExec_spec`     `proc->run` resumes a process whose context is saved;
* `intTimer_spec`      an interrupt saves the running process and resumes the next;
* `sysCall_spec`       a system call returns to the process that made it;
* `contexts_survive`   in every run the two agree on the registers of every process.
-/

namespace FuseeOS
open X86 X86.Cpu StepRun

/-- the processes as they see themselves -/
structure Procs where
  current : Nat
  contexts : Nat → Context

inductive ContextEvent where
  /-- the running process computes; it cannot write what the kernel keeps -/
  | user (context : Context) (gsBase : Word) (mem : Word → Word)
  /-- a timer interrupt; the scheduler picks `next` -/
  | timer (c : CEffect) (next : Nat)
  /-- a `syscall` instruction; `c` is what the handler does -/
  | syscall (c : CEffect)

def contextStep (img : Image) (s : Cpu) : ContextEvent → Option Cpu
  | .user x gsBase mem => some { s with
      regs := x.regs, rip := x.rip, rflags := x.rflags, gsBase := gsBase
      mem := fun a => if img.Kept a then s.mem a else mem a }
  | .timer c next => intTimer img c (img.proc next) s
  | .syscall c => some (sysCall img c s)

/-- a system call seen from outside the kernel -/
def returned (x : Context) (result : Word) : Context where
  regs
    | .rax => result
    | .rcx => x.rip
    | .r11 => x.rflags
    | r => x.regs r
  rip := x.rip
  rflags := x.rflags

/-- what an event is to the processes -/
def procsStep (a : Procs) : ContextEvent → Procs
  | .user x _ _ => ⟨a.current, Function.update a.contexts a.current x⟩
  | .timer _ next => ⟨next, a.contexts⟩
  | .syscall c => ⟨a.current, Function.update a.contexts a.current
      (returned (a.contexts a.current) (c.regs .rax))⟩

/-- the processor and the processes side by side -/
def bothStep (img : Image) (x : Cpu × Procs) (e : ContextEvent) : Option (Cpu × Procs) :=
  (contextStep img x.1 e).map fun s => (s, procsStep x.2 e)

/-- `proc_run` has room for its frame on the stack -/
def StackRoom (img : Image) (sp : Word) : Prop := ∀ d : Word, d < 5 * 8 → ¬ img.Kept (sp - 5 * 8 + d)

/-- the number of a system call is that of a handler -/
def ValidSyscall (img : Image) (s : Cpu) : Prop :=
  s.regs .rax < KERNEL_MAX_SYSCALL ∧ s.mem (img.sysHandlers + s.regs .rax * 8) ≠ 0

/-- what can happen: the scheduler picks a process there is; a system call is valid, and is made with
flags that a user program can have -/
def ContextLegal (img : Image) (x : Cpu × Procs) : ContextEvent → Prop
  | .user _ _ _ => True
  | .timer c next => next < img.processCount ∧ StackRoom img (c.regs .rsp)
  | .syscall _ => ValidSyscall img x.1 ∧ sysretFlags x.1.rflags = x.1.rflags

/-- the record of process `i` is what `proc_run` needs to resume it with the registers `x` -/
structure SavedAt (img : Image) (m : Word → Word) (i : Nat) (x : Context) : Prop where
  context : recordContext m (img.proc i) = x
  run : m (img.proc i + PROCESS_RUN) = img.procRun

/-- ring 0, every process saved -/
structure KernelReady (img : Image) (s : Cpu) (contexts : Nat → Context) : Prop where
  gs : s.gsBase = img.thread
  self : s.mem (img.thread + 0) = img.thread
  saved : ∀ i, i < img.processCount → SavedAt img s.mem i (contexts i)

/-- ring 3, the current process has its registers, and the others are saved -/
structure Resumes (img : Image) (s : Cpu) (a : Procs) : Prop where
  user : s.cs &&& 3 = X86_RING3
  current : a.current < img.processCount
  context : s.context = a.contexts a.current
  gs : s.kernelGsBase = img.thread
  self : s.mem (img.thread + 0) = img.thread
  proc : s.mem (img.thread + 8) = img.proc a.current
  saved : ∀ i, i < img.processCount → i ≠ a.current → SavedAt img s.mem i (a.contexts i)

/-- the kernel has swapped GS as often in one direction as in the other -/
def GsBalanced (x : Cpu × Procs) (e : ContextEvent) (y : Cpu × Procs) : Prop :=
  match e with
  | .user _ _ _ => True
  | _ => y.1.gsBase = x.1.gsBase ∧ y.1.kernelGsBase = x.1.kernelGsBase

/-! ## addresses -/

section
variable {img : Image} {i j : Nat} {d a : Word}

theorem lt_process_size (hd : d < PROCESS_SIZE) : d.toNat < 672 := hd

theorem Image.proc_toNat (hi : i < img.processCount) :
    (img.proc i).toNat = img.processList.toNat + 672 * i := by
  have h := img.recordsEnd
  have hsize : PROCESS_SIZE.toNat = 672 := rfl
  unfold Image.proc
  rw [BitVec.toNat_add, BitVec.toNat_mul, BitVec.toNat_ofNat, hsize]
  omega

theorem Image.slot_toNat (hi : i < img.processCount) (hd : d < PROCESS_SIZE) :
    (img.proc i + d).toNat = img.processList.toNat + 672 * i + d.toNat := by
  have h := img.recordsEnd
  have hd' := lt_process_size hd
  rw [BitVec.toNat_add, img.proc_toNat hi]
  omega

theorem Image.thread_toNat (hd : d.toNat < 32 + 16384) :
    (img.thread + d).toNat = img.thread.toNat + d.toNat := by
  have h := img.threadEnd
  rw [BitVec.toNat_add]
  omega

theorem Image.kept_slot (hi : i < img.processCount) (hd : d < PROCESS_SIZE) : img.Kept (img.proc i + d) := by
  have hd' := lt_process_size hd
  unfold Image.Kept
  rw [img.slot_toNat hi hd]
  omega

theorem Image.kept_header (hd : d.toNat < 16) : img.Kept (img.thread + d) := by
  unfold Image.Kept
  rw [img.thread_toNat (by omega)]
  omega

theorem Image.not_kept_stack (hd : 16 ≤ d.toNat) (hd' : d.toNat < 32 + 16384) :
    ¬ img.Kept (img.thread + d) := by
  have h := img.apart
  unfold Image.Kept
  rw [img.thread_toNat hd']
  omega

/-- what lies on the stack is neither in a record nor in the header -/
theorem Image.ne_stack (hd : 16 ≤ d.toNat) (hd' : d.toNat < 32 + 16384) (ha : img.Kept a) :
    a ≠ img.thread + d := fun e => img.not_kept_stack hd hd' (e ▸ ha)

theorem Image.outside_of_not_kept (hi : i < img.processCount) (ha : ¬ img.Kept a) :
    Outside (img.proc i) a := fun _ hd h => ha (h ▸ img.kept_slot hi hd)

theorem Image.outside_thread (hi : i < img.processCount) (hd : d.toNat < 32 + 16384) :
    Outside (img.proc i) (img.thread + d) := by
  intro e he h
  have hap := img.apart
  have he' := lt_process_size he
  have hn := congrArg BitVec.toNat h
  rw [img.thread_toNat hd, img.slot_toNat hi he] at hn
  omega

theorem Image.outside_slot (hi : i < img.processCount) (hj : j < img.processCount) (hij : i ≠ j)
    (hd : d < PROCESS_SIZE) : Outside (img.proc j) (img.proc i + d) := by
  intro e he h
  have hd' := lt_process_size hd
  have he' := lt_process_size he
  have hn := congrArg BitVec.toNat h
  rw [img.slot_toNat hi hd, img.slot_toNat hj he] at hn
  omega

/-- the stack pointer in the task state segment is aligned already -/
theorem Image.rsp0_aligned (img : Image) : img.control.rsp0 &&& ~~~15 = img.control.rsp0 := by
  have h := img.threadEnd
  have h16 := img.threadAligned
  have hn : img.control.rsp0.toNat % 2^4 = 0 := by
    show (img.thread + (32 + KERNEL_STACK_SIZE)).toNat % 2^4 = 0
    rw [BitVec.toNat_add]
    simp only [KERNEL_STACK_SIZE, BitVec.reduceAdd, BitVec.toNat_ofNat]
    omega
  apply BitVec.eq_of_getLsbD_eq
  intro b hb
  have hmask : ∀ b < 64, (~~~15 : Word).getLsbD b = !decide (b < 4) := by decide
  have hbit := Nat.testBit_mod_two_pow img.control.rsp0.toNat 4 b
  rw [hn, Nat.zero_testBit] at hbit
  rw [BitVec.getLsbD_and, hmask b hb]
  show ((img.control.rsp0.toNat.testBit b) && _) = img.control.rsp0.toNat.testBit b
  by_cases hb4 : b < 4
  · rw [decide_eq_true hb4, Bool.true_and] at hbit
    rw [← hbit, Bool.false_and]
  · rw [decide_eq_false hb4, Bool.not_false, Bool.and_true]

end

/-! ## resuming a process -/

section
variable {img : Image} {s : Cpu} {contexts : Nat → Context} {a : Procs}

theorem SavedAt.congr {m m' : Word → Word} {i : Nat} {x : Context} (h : SavedAt img m i x)
    (hm : ∀ d : Word, d < PROCESS_SIZE → m' (img.proc i + d) = m (img.proc i + d)) :
    SavedAt img m' i x where
  context := (recordContext_congr hm).trans h.context
  run := (hm _ (by decide)).trans h.run

theorem afterC_mem {c : CEffect} {w : Word} (hw : img.Kept w) : (afterC img c s).mem w = s.mem w :=
  if_pos hw

/-- **`sched_exec`** of a process whose context is saved -/
theorem schedExec_spec (h : KernelReady img s contexts) {q : Nat} (hq : q < img.processCount)
    (c : CEffect) (hsp : StackRoom img (c.regs .rsp)) :
    ∃ s', schedExec img c (img.proc q) s = some s' ∧ Resumes img s' ⟨q, contexts⟩ ∧
      s'.gsBase = s.kernelGsBase := by
  -- the state in which `proc->run` is called: only the pointer to the process is new in what is kept
  obtain ⟨t, ht⟩ : ∃ t, t = ((afterC img c s).store (img.thread + 8) (img.proc q)).set .rdi (img.proc q) :=
    ⟨_, rfl⟩
  have hrsp : t.regs .rsp = c.regs .rsp := by rw [ht]; rfl
  have hrdi : t.regs .rdi = img.proc q := by rw [ht]; rfl
  have hmem : ∀ w, img.Kept w → w ≠ img.thread + 8 → t.mem w = s.mem w := fun w hw hne => by
    rw [ht]
    exact (Function.update_of_ne hne ..).trans (afterC_mem hw)
  have hproc : t.mem (img.thread + 8) = img.proc q := by
    rw [ht]
    exact Function.update_self ..
  have hslot : ∀ i, i < img.processCount → ∀ d : Word, d < PROCESS_SIZE →
      t.mem (img.proc i + d) = s.mem (img.proc i + d) := fun i hi d hd =>
    hmem _ (img.kept_slot hi hd) fun e => img.outside_thread hi (by decide) d hd e.symm
  obtain ⟨hctx, hcs, hgs, hkgs, hframe⟩ := procRun_spec hrsp hrdi fun d hd =>
    img.outside_of_not_kept hq (hsp d hd)
  have hkept : ∀ w, img.Kept w → (procRun t).mem w = t.mem w := fun w hw =>
    hframe w fun d hd e => hsp d hd (e ▸ hw)
  have hself : img.thread + 0 ≠ img.thread + 8 := fun e =>
    absurd ((BitVec.add_right_inj img.thread).mp e) (by decide)
  have hsaved : ∀ i, i < img.processCount → SavedAt img (procRun t).mem i (contexts i) := fun i hi =>
    (h.saved i hi).congr fun d hd => (hkept _ (img.kept_slot hi hd)).trans (hslot i hi d hd)
  refine ⟨procRun t, ?_, ?_, ?_⟩
  · unfold schedExec
    rw [← ht, if_pos ((hslot q hq _ (by decide)).trans (h.saved q hq).run)]
  · exact {
      user := by rw [hcs]; rfl
      current := hq
      context := hctx.trans ((recordContext_congr (hslot q hq)).trans (h.saved q hq).context)
      gs := hkgs.trans (ht ▸ h.gs)
      self := (hkept _ (img.kept_header (by decide))).trans
        ((hmem _ (img.kept_header (by decide)) hself).trans h.self)
      proc := (hkept _ (img.kept_header (by decide))).trans hproc
      saved := fun i hi _ => hsaved i hi }
  · rw [hgs, ht]
    rfl

/-! ## the timer -/

/-- the stack pointer after the processor has pushed its frame -/
def Image.frame (img : Image) : Word := img.thread + 16376

theorem Image.frame_eq (img : Image) : (img.control.rsp0 &&& ~~~15) - 40 = img.frame := by
  rw [img.rsp0_aligned]
  show img.thread + (32 + KERNEL_STACK_SIZE) - 40 = img.thread + 16376
  rw [BitVec.sub_eq_add_neg, BitVec.add_assoc]
  rfl

theorem Image.frame_add (img : Image) (d : Word) : img.frame + d = img.thread + (16376 + d) :=
  BitVec.add_assoc ..

/-- **`SAVE_CONTEXT`** after an interrupt saves the registers of the process that ran -/
theorem saveContext_ready (h : Resumes img s a) :
    KernelReady img ((s.interrupt img.control).exec (saveContext img)) a.contexts ∧
      ((s.interrupt img.control).exec (saveContext img)).kernelGsBase = s.gsBase := by
  obtain ⟨hm, hregs, hgs, hkgs⟩ := interrupt_spec img.control s img.frame_eq
  generalize s.interrupt img.control = s1 at hm hregs hgs hkgs
  obtain ⟨hsgs, hskgs⟩ := @saveContext_gs img s1
  have hcur := h.current
  have hpush : img.frame - 8 = img.thread + 16368 := by
    rw [BitVec.sub_eq_add_neg, img.frame_add]
    rfl
  have hkept : ∀ w, img.Kept w → s1.mem w = s.mem w := fun w hw => by
    rw [hm]
    refine writeAll_of_ne fun e he => ?_
    rw [img.frame_add]
    refine img.ne_stack ?_ ?_ hw
    all_goals
      revert e
      simp
  have hout : ∀ d : Word, d.toNat < 32 + 16384 → Outside (img.proc a.current) (img.thread + d) := fun d hd =>
    img.outside_thread hcur hd
  obtain ⟨hctx, hrun, hframe⟩ := @saveContext_spec img s1 (img.proc a.current) img.frame
    (by rw [hregs]; exact Function.update_self ..)
    (by rw [hkgs, h.gs, hkept _ (img.kept_header (by decide)), h.proc])
    (by rw [hkgs, h.gs, hpush]; exact img.ne_stack (by decide) (by decide) (img.kept_header (by decide)))
    (by rw [hpush]; exact hout _ (by decide)) (by rw [img.frame_add]; exact hout _ (by decide))
    (by rw [img.frame_add]; exact hout _ (by decide)) (by rw [img.frame_add]; exact hout _ (by decide))
  have hsame : ∀ w, Outside (img.proc a.current) w → img.Kept w →
      (s1.exec (saveContext img)).mem w = s.mem w := fun w ho hw =>
    (hframe w ho (hpush ▸ img.ne_stack (by decide) (by decide) hw)).trans (hkept w hw)
  have h24 : s1.mem (img.frame + 24) = s.regs .rsp := by rw [hm, writeAll_at]; rfl
  have h0 : s1.mem (img.frame + 0) = s.rip := by rw [hm, writeAll_at]; rfl
  have h16 : s1.mem (img.frame + 16) = s.rflags := by rw [hm, writeAll_at]; rfl
  rw [hregs, Function.update_idem, h24, Function.update_eq_self, h0, h16] at hctx
  refine ⟨⟨hsgs.trans (hkgs.trans h.gs), ?_, fun i hi => ?_⟩, hskgs.trans hgs⟩
  · exact (hsame _ (hout 0 (by decide)) (img.kept_header (by decide))).trans h.self
  · by_cases hne : i = a.current
    · subst hne
      exact ⟨hctx.trans h.context, hrun⟩
    · exact (h.saved i hi hne).congr fun d hd =>
        hsame _ (img.outside_slot hi hcur hne hd) (img.kept_slot hi hd)

/-- **A timer interrupt** resumes the process that the scheduler picks. -/
theorem intTimer_spec (h : Resumes img s a) {q : Nat} (hq : q < img.processCount) (c : CEffect)
    (hsp : StackRoom img (c.regs .rsp)) :
    ∃ s', intTimer img c (img.proc q) s = some s' ∧ Resumes img s' ⟨q, a.contexts⟩ ∧
      s'.gsBase = s.gsBase := by
  obtain ⟨hready, hgs⟩ := saveContext_ready h
  unfold intTimer
  generalize (s.interrupt img.control).exec (saveContext img) = t at hready hgs
  have hack : KernelReady img (t.exec [.mov (.imm 0x20) (.reg .rax)]) a.contexts :=
    ⟨hready.gs, hready.self, hready.saved⟩
  obtain ⟨s', e, h', hs'⟩ := schedExec_spec hack hq c hsp
  exact ⟨s', e, h', hs'.trans hgs⟩

/-! ## system calls -/

/-- a valid number passes the checks of `x86_sys_handler`, which lose only `%rax` -/
theorem x86SysHandler_valid (k : Control) (hv : ValidSyscall img s) :
    ∃ t : Cpu, x86SysHandler img k s = .call (t.exec (sysSave img)) ∧ t.mem = s.mem ∧
      (∀ r, r ≠ .rax → t.regs r = s.regs r) ∧ t.gsBase = s.gsBase ∧
      t.kernelGsBase = s.kernelGsBase := by
  have hlt : (s.regs .rax).toNat < 32 := hv.1
  have hge : (s.exec [.cmp KERNEL_MAX_SYSCALL .rax]).ge = false := by
    refine (ge_cmp s KERNEL_MAX_SYSCALL .rax).trans ?_
    rw [BitVec.sle_eq_decide, decide_eq_false_iff_not, BitVec.toInt_eq_toNat_cond,
      BitVec.toInt_eq_toNat_cond]
    have h32 : KERNEL_MAX_SYSCALL.toNat = 32 := rfl
    omega
  have hz : ((s.exec [.cmp KERNEL_MAX_SYSCALL .rax]).exec
      [.mov (.index img.sysHandlers .rax) (.reg .rax), .test .rax .rax]).z = false :=
    (z_test _ .rax).trans (beq_eq_false_iff_ne.mpr hv.2)
  refine ⟨(s.exec [.cmp KERNEL_MAX_SYSCALL .rax]).exec
      [.mov (.index img.sysHandlers .rax) (.reg .rax), .test .rax .rax], ?_, rfl,
    fun r hr => Function.update_of_ne hr .., rfl, rfl⟩
  unfold x86SysHandler
  simp only [hge, hz, Bool.false_eq_true, if_false]

/-- the kernel side of a valid system call, up to the call of the handler -/
theorem sysEntry_spec (h : Resumes img s a) (hv : ValidSyscall img s) :
    ∃ u : Cpu, x86SysHandler img img.control (s.syscall img.control) = .call u ∧
      u.gsBase = img.thread ∧ u.kernelGsBase = s.gsBase ∧
      (∀ r, r ≠ .rax → r ≠ .rcx → r ≠ .r11 → u.mem (img.proc a.current + slot r * 8) = s.regs r) ∧
      u.mem (img.proc a.current + X86_REG_IP * 8) = s.rip ∧
      u.mem (img.proc a.current + X86_REG_FLAGS * 8) = s.rflags ∧
      ∀ w, Outside (img.proc a.current) w → img.Kept w → u.mem w = s.mem w := by
  have hcur := h.current
  obtain ⟨t, hpath, htmem, htregs, htgs, htkgs⟩ :=
    x86SysHandler_valid (s := s.syscall img.control) img.control ⟨hv.1, hv.2⟩
  have hbase : img.thread + (32 + KERNEL_STACK_SIZE) - 6 * 8 = img.thread + 16368 := by
    rw [BitVec.sub_eq_add_neg, BitVec.add_assoc]
    rfl
  have hargd : ∀ d : Word, d < 6 * 8 → (16368 + d : Word).toNat = 16368 + d.toNat ∧ d.toNat < 48 := by
    intro d hd
    have hd' : d.toNat < 48 := hd
    have hlit : (16368 : Word).toNat = 16368 := rfl
    rw [BitVec.toNat_add, hlit]
    omega
  obtain ⟨hslot, hip, hfl, hframe⟩ := @sysSave_spec img t (img.proc a.current) img.thread
    (htkgs.trans h.gs) ((congrFun htmem _).trans h.proc) ((congrFun htmem _).trans h.self)
    (img.outside_thread hcur (by decide)) (img.outside_thread hcur (by decide)) (fun d hd => by
      rw [hbase, BitVec.add_assoc]
      exact img.outside_thread hcur (by have := hargd d hd; omega))
  refine ⟨_, hpath, sysSave_gs.1.trans (htkgs.trans h.gs), sysSave_gs.2.trans htgs, ?_, ?_, ?_, ?_⟩
  · intro r ha hc h11
    rw [hslot r ha hc h11, htregs r ha]
    exact (Function.update_of_ne h11 ..).trans (Function.update_of_ne hc ..)
  · rw [hip, htregs _ (by decide)]
    rfl
  · rw [hfl, htregs _ (by decide)]
    rfl
  · intro w ho hw
    refine (hframe w ho (img.ne_stack (by decide) (by decide) hw) fun d hd => ?_).trans (congrFun htmem w)
    have hd' := hargd d hd
    rw [hbase, BitVec.add_assoc]
    exact img.ne_stack (by omega) (by omega) hw

/-- what the kernel keeps after the handler's result was stored -/
theorem sysResult_spec {p : Word} (hp : s.mem (s.gsBase + 8) = p) :
    (s.exec sysResult).regs .rdi = p ∧
      (s.exec sysResult).mem = Function.update s.mem (p + slot .rax * 8) (s.regs .rax) ∧
      (s.exec sysResult).gsBase = s.gsBase ∧ (s.exec sysResult).kernelGsBase = s.kernelGsBase := by
  refine ⟨hp, ?_, rfl, rfl⟩
  simp only [sysResult, exec_cons, exec_nil, exec1, value, write, set_regs, set_mem, store_mem,
    reduceCtorEq, if_true, if_false, hp]
  rfl

/-- **A system call** returns to the process that made it, with the handler's result in `%rax`. -/
theorem sysCall_spec (h : Resumes img s a) (hv : ValidSyscall img s)
    (hflags : sysretFlags s.rflags = s.rflags) (c : CEffect) :
    Resumes img (sysCall img c s) (procsStep a (.syscall c)) ∧ (sysCall img c s).gsBase = s.gsBase := by
  have hcur := h.current
  obtain ⟨u, hpath, hugs, hukgs, huslot, huip, hufl, huframe⟩ := sysEntry_spec h hv
  -- `w`: the handler has returned, and its result is in the record
  have hproc : (afterC img c u).mem ((afterC img c u).gsBase + 8) = img.proc a.current := by
    show (afterC img c u).mem (u.gsBase + 8) = _
    rw [hugs, afterC_mem (img.kept_header (by decide)),
      huframe _ (img.outside_thread hcur (by decide)) (img.kept_header (by decide)), h.proc]
  obtain ⟨hwdi, hwmem, hwgs, hwkgs⟩ := sysResult_spec hproc
  have hcall : sysCall img c s = procRunSysret img.control ((afterC img c u).exec sysResult) := by
    unfold sysCall
    rw [hpath]
  generalize (afterC img c u).exec sysResult = w at hwdi hwmem hwgs hwkgs hcall
  obtain ⟨hctx, hcs, hgs, hkgs, hmem⟩ := procRunSysret_spec img.control hwdi
  rw [← hcall] at hctx hcs hgs hkgs hmem
  have hwrax : w.mem (img.proc a.current + slot .rax * 8) = c.regs .rax := by
    rw [hwmem]
    exact Function.update_self ..
  have hwkept : ∀ d : Word, d < PROCESS_SIZE → d ≠ slot .rax * 8 →
      w.mem (img.proc a.current + d) = u.mem (img.proc a.current + d) := fun d hd hne => by
    rw [hwmem, Function.update_of_ne fun e => hne ((BitVec.add_right_inj _).mp e)]
    exact afterC_mem (img.kept_slot hcur hd)
  have hwframe : ∀ b, Outside (img.proc a.current) b → img.Kept b → w.mem b = s.mem b := fun b ho hb => by
    rw [hwmem, Function.update_of_ne (ho _ (slot_lt _)), afterC_mem hb, huframe b ho hb]
  have hip : w.mem (img.proc a.current + X86_REG_IP * 8) = s.rip :=
    (hwkept _ (by decide) (by decide)).trans huip
  have hfl : w.mem (img.proc a.current + X86_REG_FLAGS * 8) = s.rflags :=
    (hwkept _ (by decide) (by decide)).trans hufl
  have hothers : ∀ r, r ≠ .rax → r ≠ .rcx → r ≠ .r11 →
      w.mem (img.proc a.current + slot r * 8) = s.regs r := fun r ha hc h11 =>
    (hwkept _ (slot_lt r) (by revert ha; cases r <;> decide)).trans (huslot r ha hc h11)
  have hregs : sysretRegs w.mem (img.proc a.current) = (returned s.context (c.regs .rax)).regs := by
    funext r
    cases r with
    | rax => exact hwrax
    | rcx => exact hip
    | r11 => exact hfl
    | _ => exact hothers _ (by decide) (by decide) (by decide)
  have hnew : (sysCall img c s).context = returned (a.contexts a.current) (c.regs .rax) := by
    rw [hctx, hregs, hip, hfl, hflags, ← h.context]
    rfl
  refine ⟨?_, hgs.trans (hwkgs.trans hukgs)⟩
  exact {
    user := by
      rw [hcs]
      show ((X86_SEL_CODE0 <<< 32 ||| X86_SEL_CODE3 <<< 48) >>> 48 + 16 ||| 3) &&& 3 = X86_RING3
      decide
    current := hcur
    context := hnew.trans (Function.update_self a.current _ a.contexts).symm
    gs := hkgs.trans (hwgs.trans hugs)
    self := by
      rw [hmem, hwframe _ (img.outside_thread hcur (by decide)) (img.kept_header (by decide))]
      exact h.self
    proc := by
      rw [hmem, hwframe _ (img.outside_thread hcur (by decide)) (img.kept_header (by decide))]
      exact h.proc
    saved := fun i hi hne => by
      have hcon : (procsStep a (.syscall c)).contexts i = a.contexts i := Function.update_of_ne hne ..
      rw [hcon]
      exact (h.saved i hi hne).congr fun d hd => by
        rw [hmem]
        exact hwframe _ (img.outside_slot hi hcur hne hd) (img.kept_slot hi hd) }

/-- user code changes the registers of the process that runs -/
theorem user_spec (h : Resumes img s a) (x : Context) (gsBase : Word) (mem : Word → Word) :
    ∃ s', contextStep img s (.user x gsBase mem) = some s' ∧
      Resumes img s' (procsStep a (.user x gsBase mem)) := by
  have hmem : ∀ {w : Word}, img.Kept w → (if img.Kept w then s.mem w else mem w) = s.mem w := fun hw => if_pos hw
  exact ⟨_, rfl, {
    user := h.user
    current := h.current
    context := (Function.update_self a.current x a.contexts).symm
    gs := h.gs
    self := (hmem (img.kept_header (by decide))).trans h.self
    proc := (hmem (img.kept_header (by decide))).trans h.proc
    saved := fun i hi hne => by
      have hcon : (procsStep a (.user x gsBase mem)).contexts i = a.contexts i :=
        Function.update_of_ne hne ..
      rw [hcon]
      exact (h.saved i hi hne).congr fun d hd => hmem (img.kept_slot hi hd) }⟩

end

/-! ## runs -/

/-- **One event**, whichever it is, is the same to the processor and to the processes. -/
theorem bothStep_spec (img : Image) (x : Cpu × Procs) (e : ContextEvent) (h : Resumes img x.1 x.2)
    (hl : ContextLegal img x e) :
    ∃ y, bothStep img x e = some y ∧ GsBalanced x e y ∧ Resumes img y.1 y.2 := by
  cases e with
  | user ctx gsBase mem =>
    obtain ⟨s', e, h'⟩ := user_spec h ctx gsBase mem
    exact ⟨(s', _), congrArg (Option.map _) e, trivial, h'⟩
  | timer c next =>
    obtain ⟨s', e, h', hgs⟩ := intTimer_spec h hl.1 c hl.2
    exact ⟨(s', _), congrArg (Option.map _) e, ⟨hgs, h'.gs.trans h.gs.symm⟩, h'⟩
  | syscall c =>
    obtain ⟨h', hgs⟩ := sysCall_spec h hl.1 hl.2 c
    exact ⟨(_, _), rfl, ⟨hgs, h'.gs.trans h.gs.symm⟩, h'⟩

/-- **User context survives every interruption.**  From the first `sched_exec` on, whatever the processes
compute and whenever they are interrupted, the processor in ring 3 has the registers that the running
process had when it was last in ring 3, but for the three that a system call changes. -/
theorem contexts_survive (img : Image) (s : Cpu) (contexts : Nat → Context) (h : KernelReady img s contexts)
    (c : CEffect) (first : Nat) (hfirst : first < img.processCount) (hsp : StackRoom img (c.regs .rsp))
    (events : List ContextEvent) :
    ∃ s', schedExec img c (img.proc first) s = some s' ∧
      (Along (bothStep img) (ContextLegal img) (s', ⟨first, contexts⟩) events →
        Always (bothStep img) (fun x => Resumes img x.1 x.2) GsBalanced (s', ⟨first, contexts⟩) events) := by
  obtain ⟨s', e, h', -⟩ := schedExec_spec h hfirst c hsp
  exact ⟨s', e, fun hl => always_of_step (bothStep_spec img) events (s', ⟨first, contexts⟩) h' hl⟩

/-! ## two processes -/

def twoImage : Image where
  processList := 0xffffffff80010000
  processCount := 2
  thread := 0xffffff0000000020
  sysHandlers := 0xffffffff80008000
  procRun := 0xffffffff80001000
  procRunSysret := 0xffffffff80001100
  recordsEnd := by decide
  threadEnd := by decide
  threadAligned := by decide
  apart := by decide

/-- every slot of both records holds the address of `proc_run` -/
def twoMem : Word → Word :=
  Function.update (fun _ => twoImage.procRun) (twoImage.thread + 0) twoImage.thread

def twoReady : Cpu where
  regs := fun _ => 0
  rip := 0
  rflags := 2
  cs := X86_SEL_CODE0
  ss := 0
  gsBase := twoImage.thread
  kernelGsBase := 0
  mem := twoMem

/-- C code that leaves the stack pointer 200 bytes below the top of the stack -/
def someC : CEffect where
  regs := fun _ => twoImage.thread + 16216
  rflags := 2
  mem := fun _ => 0

theorem twoReady_ready : KernelReady twoImage twoReady (fun i => recordContext twoMem (twoImage.proc i)) := by
  have run_lt : PROCESS_RUN < PROCESS_SIZE := by decide
  have hself : twoMem (twoImage.thread + 0) = twoImage.thread := by
    rw [twoMem, Function.update_self]
  have hrun : ∀ a, a ≠ twoImage.thread + 0 → twoMem a = twoImage.procRun := fun a ha => by
    rw [twoMem, Function.update_of_ne ha]
  have hout : ∀ i, i < twoImage.processCount → Outside (twoImage.proc i) (twoImage.thread + 0) :=
    fun i hi => twoImage.outside_thread hi (by decide)
  refine ⟨rfl, hself, fun i hi => ⟨rfl, ?_⟩⟩
  have hne : twoImage.proc i + PROCESS_RUN ≠ twoImage.thread + 0 := (hout i hi PROCESS_RUN run_lt).symm
  have hmem : twoReady.mem = twoMem := rfl
  rw [hmem, hrun _ hne]

theorem someC_room : StackRoom twoImage (someC.regs .rsp) := by
  intro d hd
  have hd' : d.toNat < 40 := hd
  have hlit : (16176 : Word).toNat = 16176 := rfl
  have hbase : someC.regs .rsp - 5 * 8 = twoImage.thread + 16176 := by decide
  have hn : (16176 + d : Word).toNat = 16176 + d.toNat := by
    rw [BitVec.toNat_add, hlit]
    omega
  rw [hbase, BitVec.add_assoc]
  exact twoImage.not_kept_stack (by omega) (by omega)

/-- process 0 is interrupted, process 1 computes and makes a system call, and is interrupted too -/
def twoEvents : List ContextEvent := [
  .timer someC 1,
  .user ⟨fun _ => 0, 0x10000000, 0x202⟩ 0 (fun _ => 1),
  .syscall someC,
  .timer someC 0]

theorem contexts_survive_two :
    ∃ s', schedExec twoImage someC (twoImage.proc 0) twoReady = some s' ∧
      Always (bothStep twoImage) (fun x => Resumes twoImage x.1 x.2) GsBalanced
        (s', ⟨0, fun i => recordContext twoMem (twoImage.proc i)⟩) twoEvents := by
  obtain ⟨s', e, hrun⟩ := contexts_survive twoImage twoReady _ twoReady_ready someC 0 (by decide)
    someC_room twoEvents
  have hnumber : (0 : Word) < KERNEL_MAX_SYSCALL := by decide
  have hflags : sysretFlags 0x202 = 0x202 := by decide
  have htable : ¬ twoImage.Kept (twoImage.sysHandlers + 0 * 8) := by decide
  refine ⟨s', e, hrun ⟨⟨by decide, someC_room⟩, fun x1 _ => ⟨trivial, fun x2 h2 => ?_⟩⟩⟩
  cases h2
  refine ⟨⟨⟨hnumber, ?_⟩, hflags⟩, fun x3 _ => ⟨⟨by decide, someC_room⟩, fun x4 _ => trivial⟩⟩
  show (if twoImage.Kept (twoImage.sysHandlers + 0 * 8) then x1.1.mem (twoImage.sysHandlers + 0 * 8) else (1 : Word)) ≠ 0
  rw [if_neg htable]
  decide

end FuseeOS
