import Mathlib.Data.List.Count
import Mathlib.Data.Option.Basic
import Mathlib.Data.List.Perm.Subperm
import FuseeOS.Kernel.Sched

/-!
# The scheduler

`proc_reschedule` and `kern_schedule` over the run queue.  `int_timer` calls both, whatever the
processor is doing: also in the `hlt` loop of `sched_wait`, where no process runs.

* `sched_keeps`   processes are neither lost nor doubled, and the processor idles only when nothing
                  is queued, exactly if no tick finds it idle with a process queued.
-/

namespace FuseeOS
open StepRun

/-- the run queue, the running process (`gKernel.threads[0].proc`, `NULL` when idle), the processes
scheduled so far, and whether `kern_schedule` was entered -/
structure SchedState where
  sched : Sched
  running : ProcPtr
  scheduled : List ProcPtr
  started : Bool

inductive SchedEvent where
  /-- `proc_schedule(proc)` of a new process -/
  | schedule (proc : ProcPtr)
  /-- the first `kern_schedule` -/
  | start
  /-- `int_timer` -/
  | tick

/-- `proc_schedule(gKernel.threads[0].proc)` -/
def procReschedule (s : SchedState) : Option SchedState :=
  (procSchedule s.sched s.running).map fun sched => { s with sched := sched }

/-- `sched_exec` of the next process; `NULL` stands for `sched_wait` -/
def kernSchedule (s : SchedState) : Option SchedState :=
  (nextProc s.sched).map fun (proc, sched) =>
    { s with sched := sched, running := proc, started := true }

def schedStep (s : SchedState) : SchedEvent → Option SchedState
  | .schedule proc => (procSchedule s.sched proc).map fun sched =>
      { s with sched := sched, scheduled := s.scheduled ++ [proc] }
  | .start => kernSchedule s
  | .tick => (procReschedule s).bind kernSchedule

/-- `proc_init` -/
def schedInit : SchedState := ⟨procInit, NULL, [], false⟩

/-- what can happen: a new process is not `NULL` and was not scheduled before (and there are fewer
than `2^31 - 1` of them: `gProcessList` has 1024); interrupts are off before the first `kern_schedule` -/
def SchedLegal (s : SchedState) : SchedEvent → Prop
  | .schedule proc => proc ≠ NULL ∧ proc ∉ s.scheduled ∧ s.scheduled.length + 2 < 2^31
  | .start => s.started = false
  | .tick => s.started = true

/-- a process that was scheduled either runs or is queued once, and `NULL` is not queued -/
structure SchedInv (s : SchedState) : Prop where
  kept : ∀ p ∈ s.scheduled, s.sched.queue.count (some p) = if s.running = p then 0 else 1
  nonnull : some NULL ∉ s.sched.queue

/-- `kern_schedule` enters `sched_wait` only when nothing is queued -/
def IdleStep (_ : SchedState) (event : SchedEvent) (s' : SchedState) : Prop :=
  match event with
  | .schedule _ => True
  | .start => s'.running = NULL → s'.sched.queue = []
  | .tick => s'.running = NULL → s'.sched.queue = []

/-- a tick finds a process running, or nothing queued -/
def TickOk (s : SchedState) : SchedEvent → Prop
  | .tick => s.running = NULL → s.sched.queue = []
  | _ => True

/-! ## what the steps do to the queue -/

section
variable {s : SchedState} {q : List ProcPtr}

theorem kernSchedule_spec (h : s.sched.Queued q) :
    ∃ p s' q', kernSchedule s = some s' ∧ s' = ⟨s'.sched, p, s.scheduled, true⟩ ∧
      s'.sched.Queued q' ∧ (q = p :: q' ∨ q = [] ∧ p = NULL ∧ q' = []) := by
  obtain ⟨p, sched, q', e, h', hcase⟩ := h.next
  refine ⟨p, ⟨sched, p, s.scheduled, true⟩, q', ?_, rfl, h', hcase⟩
  unfold kernSchedule
  rw [e, Option.map_some]

/-- a tick queues what runs, `NULL` when idle, and takes the oldest entry -/
theorem tick_spec (h : s.sched.Queued q) (hq : q.length + 1 < 2^31) :
    ∃ p s' q', schedStep s .tick = some s' ∧ s' = ⟨s'.sched, p, s.scheduled, true⟩ ∧
      s'.sched.Queued q' ∧ q ++ [s.running] = p :: q' := by
  obtain ⟨sched, e, h1⟩ := h.schedule (Nat.lt_of_le_of_lt (Nat.succ_le_succ h.back_le) hq) s.running
  have hr : procReschedule s = some { s with sched := sched } := by
    unfold procReschedule
    rw [e, Option.map_some]
  obtain ⟨p, s', q', hk, hs', h2, hcase⟩ := kernSchedule_spec (s := { s with sched := sched }) h1
  refine ⟨p, s', q', ?_, hs', h2, hcase.resolve_right fun hnil => ?_⟩
  · show (procReschedule s).bind kernSchedule = _
    rw [hr]
    exact hk
  · exact absurd hnil.1 (List.append_ne_nil_of_right_ne_nil _ (List.cons_ne_nil _ _))

end

/-! ## the invariant on the list of queued processes -/

/-- `SchedInv` for a queue that holds `q` -/
structure QueueInv (scheduled : List ProcPtr) (running : ProcPtr) (q : List ProcPtr) : Prop where
  kept : ∀ p ∈ scheduled, q.count p = if running = p then 0 else 1
  nonnull : NULL ∉ q

/-- what else the steps keep: only processes are queued -/
structure SchedWf (s : SchedState) : Prop where
  queued : ∃ q, s.sched.Queued q ∧ ∀ p ∈ q, p ∈ s.scheduled
  nonnull : NULL ∉ s.scheduled
  short : s.scheduled.length + 1 < 2^31
  running : s.running = NULL ∨ s.running ∈ s.scheduled
  started : s.started = false → s.running = NULL

section
variable {s : SchedState} {q scheduled : List ProcPtr} {r : ProcPtr}

theorem Sched.Queued.inv_iff (h : s.sched.Queued q) :
    SchedInv s ↔ QueueInv s.scheduled s.running q := by
  have hc (p : ProcPtr) : (q.map some).count (some p) = q.count p :=
    List.count_map_of_injective q some (Option.some_injective ProcPtr) p
  have hm : some NULL ∈ q.map some ↔ NULL ∈ q := by
    rw [List.mem_map_of_injective (Option.some_injective ProcPtr)]
  constructor
  · rintro ⟨hk, hn⟩
    rw [h.queue] at hk hn
    exact ⟨fun p hp => hc p ▸ hk p hp, fun hp => hn (hm.mpr hp)⟩
  · rintro ⟨hk, hn⟩
    refine ⟨fun p hp => ?_, ?_⟩ <;> rw [h.queue]
    · rw [hc, hk p hp]
    · exact fun hp => hn (hm.mp hp)

theorem QueueInv.length_le (h : QueueInv scheduled r q) (hsub : ∀ p ∈ q, p ∈ scheduled) :
    q.length ≤ scheduled.length := by
  have hnodup : q.Nodup := by
    rw [List.nodup_iff_count]
    intro p
    by_cases hp : p ∈ q
    · rw [h.kept p (hsub p hp)]
      split <;> omega
    · rw [List.count_eq_zero_of_not_mem hp]
      omega
  exact (hnodup.subperm hsub).length_le

/-- the running process goes to the end of the queue -/
theorem QueueInv.requeue (h : QueueInv scheduled r q) (hr : r ≠ NULL) :
    QueueInv scheduled NULL (q ++ [r]) := by
  refine ⟨fun p hp => ?_, fun hn => ?_⟩
  · rw [List.count_append, List.count_singleton, h.kept p hp]
    by_cases hrp : r = p
    · subst hrp
      rw [if_pos rfl, if_neg hr.symm, beq_self_eq_true, if_pos rfl]
    · have hnull : NULL ≠ p := fun e => h.nonnull ?_
      · rw [if_neg hrp, if_neg hnull, if_neg (by simpa using hrp)]
      · rw [← List.count_pos_iff, e, h.kept p hp, if_neg hrp]
        exact Nat.one_pos
  · rcases List.mem_append.mp hn with hn | hn
    · exact h.nonnull hn
    · exact hr (List.mem_singleton.mp hn).symm

/-- the oldest process leaves the queue and runs -/
theorem QueueInv.take {p : ProcPtr} (hnull : NULL ∉ scheduled)
    (h : QueueInv scheduled NULL (p :: q)) : QueueInv scheduled p q := by
  refine ⟨fun x hx => ?_, fun hn => h.nonnull (List.mem_cons_of_mem _ hn)⟩
  have hk := h.kept x hx
  have hx0 : NULL ≠ x := fun e => hnull (e ▸ hx)
  rw [if_neg hx0, List.count_cons] at hk
  by_cases hpx : p = x
  · rw [if_pos hpx]
    rw [if_pos (by simpa using hpx)] at hk
    omega
  · rw [if_neg hpx]
    rw [if_neg (by simpa using hpx)] at hk
    exact hk

theorem QueueInv.schedule {p : ProcPtr} (h : QueueInv scheduled r q)
    (hsub : ∀ x ∈ q, x ∈ scheduled) (hr : r = NULL ∨ r ∈ scheduled) (hp : p ≠ NULL)
    (hnew : p ∉ scheduled) : QueueInv (scheduled ++ [p]) r (q ++ [p]) := by
  refine ⟨fun x hx => ?_, fun hn => ?_⟩
  · rw [List.count_append, List.count_singleton]
    rcases List.mem_append.mp hx with hx | hx
    · have hpx : ¬ (p == x) = true := by
        rw [beq_iff_eq]
        exact fun e => hnew (e ▸ hx)
      rw [h.kept x hx, if_neg hpx, Nat.add_zero]
    · have e : x = p := List.mem_singleton.mp hx
      subst e
      have hrx : r ≠ x := by
        rintro rfl
        exact hr.elim hp hnew
      rw [List.count_eq_zero_of_not_mem (fun hq => hnew (hsub x hq)), if_neg hrx, beq_self_eq_true,
        if_pos rfl]
  · rcases List.mem_append.mp hn with hn | hn
    · exact h.nonnull hn
    · exact hp (List.mem_singleton.mp hn).symm

end

/-! ## runs -/

section
variable {s : SchedState}

/-- `kern_schedule` once every process is queued and none runs: a process is taken, or there is
none -/
theorem taken_keeps {s' : SchedState} {p : ProcPtr} {q q' : List ProcPtr} (h : SchedWf s)
    (hsub : ∀ x ∈ q, x ∈ s.scheduled) (hq : QueueInv s.scheduled NULL q)
    (hs' : s' = ⟨s'.sched, p, s.scheduled, true⟩) (hqueued : s'.sched.Queued q')
    (hcase : q = p :: q' ∨ q = [] ∧ p = NULL ∧ q' = []) :
    (s'.running = NULL → s'.sched.queue = []) ∧ SchedInv s' ∧ SchedWf s' := by
  have hrun : s'.running = p := by rw [hs']
  have hall : s'.scheduled = s.scheduled := by rw [hs']
  have hstart : s'.started = true := by rw [hs']
  rw [hqueued.inv_iff, hqueued.queue, hrun, hall]
  have hwf (hp : p = NULL ∨ p ∈ s.scheduled) (hq' : ∀ x ∈ q', x ∈ s.scheduled) : SchedWf s' := by
    refine ⟨⟨q', hqueued, ?_⟩, ?_, ?_, ?_, ?_⟩
    · rwa [hall]
    · rw [hall]; exact h.nonnull
    · rw [hall]; exact h.short
    · rwa [hrun, hall]
    · intro hf
      rw [hstart] at hf
      exact nomatch hf
  rcases hcase with rfl | ⟨rfl, rfl, rfl⟩
  · have hp : p ∈ s.scheduled := hsub p (List.mem_cons_self ..)
    refine ⟨fun e => absurd (e ▸ hp) h.nonnull, hq.take h.nonnull, hwf (.inr hp) fun x hx => ?_⟩
    exact hsub x (List.mem_cons_of_mem _ hx)
  · exact ⟨fun _ => rfl, hq, hwf (.inl rfl) hsub⟩

theorem SchedWf.step {event : SchedEvent} (h : SchedWf s) (hinv : SchedInv s)
    (hlegal : SchedLegal s event) (hok : TickOk s event) :
    ∃ s', schedStep s event = some s' ∧ IdleStep s event s' ∧ SchedInv s' ∧ SchedWf s' := by
  obtain ⟨q, hq, hsub⟩ := h.queued
  have hqi := hq.inv_iff.mp hinv
  have hlen := hqi.length_le hsub
  cases event with
  | schedule p =>
    obtain ⟨hp, hnew, hshort⟩ := hlegal
    obtain ⟨sched, e, hq'⟩ := hq.schedule (by have := hq.back_le; omega) p
    refine ⟨{ s with sched := sched, scheduled := s.scheduled ++ [p] }, ?_, trivial, ?_, ?_⟩
    · show (procSchedule s.sched p).map _ = _
      rw [e, Option.map_some]
    · exact (Sched.Queued.inv_iff hq').mpr (hqi.schedule hsub h.running hp hnew)
    · refine ⟨⟨_, hq', ?_⟩, ?_, ?_, ?_, h.started⟩
      · intro x hx
        rcases List.mem_append.mp hx with hx | hx
        · exact List.mem_append_left _ (hsub x hx)
        · exact List.mem_append_right _ hx
      · intro hn
        rcases List.mem_append.mp hn with hn | hn
        · exact h.nonnull hn
        · exact hp (List.mem_singleton.mp hn).symm
      · rw [List.length_append]
        exact hshort
      · exact h.running.imp_right (List.mem_append_left _)
  | start =>
    obtain ⟨p, s', q', e, hs', hq', hcase⟩ := kernSchedule_spec hq
    rw [h.started hlegal] at hqi
    exact ⟨s', e, taken_keeps h hsub hqi hs' hq' hcase⟩
  | tick =>
    by_cases hrun : s.running = NULL
    · -- idle with nothing queued: the entry is `NULL`, and it is taken at once
      have hnil : q = [] := by
        have hqueue := hok hrun
        rw [hq.queue] at hqueue
        exact List.map_eq_nil_iff.mp hqueue
      subst hnil
      obtain ⟨p, s', q', e, hs', hq', hcons⟩ := tick_spec hq (by decide)
      obtain ⟨hp, rfl⟩ := List.cons.inj hcons
      rw [hrun] at hqi hp
      refine ⟨s', e, taken_keeps h hsub hqi hs' hq' (.inr ⟨rfl, hp.symm, rfl⟩)⟩
    · have hmem : s.running ∈ s.scheduled := h.running.resolve_left hrun
      have hre := hqi.requeue hrun
      have hsub' : ∀ x ∈ q ++ [s.running], x ∈ s.scheduled := by
        intro x hx
        rcases List.mem_append.mp hx with hx | hx
        · exact hsub x hx
        · rwa [List.mem_singleton.mp hx]
      have hlen' := hre.length_le hsub'
      have hshort := h.short
      rw [List.length_append, List.length_singleton] at hlen'
      obtain ⟨p, s', q', e, hs', hq', hcons⟩ := tick_spec hq (by omega)
      exact ⟨s', e, taken_keeps h hsub' hre hs' hq' (.inl hcons)⟩

/-- a tick that finds the processor idle with a process queued leaves `NULL` in the queue -/
theorem tick_idle (h : SchedWf s) (hinv : SchedInv s) (hrun : s.running = NULL)
    (hne : s.sched.queue ≠ []) (s' : SchedState) (e : schedStep s .tick = some s') :
    ¬ SchedInv s' := by
  obtain ⟨q, hq, hsub⟩ := h.queued
  have hlen := (hq.inv_iff.mp hinv).length_le hsub
  have hshort := h.short
  cases q with
  | nil => exact absurd hq.queue hne
  | cons x q =>
    obtain ⟨p, t, q', e', ht, hq', hcons⟩ := tick_spec hq (by omega)
    have hst : t = s' := Option.some.inj (e'.symm.trans e)
    subst hst
    rw [hrun, List.cons_append] at hcons
    obtain ⟨_, rfl⟩ := List.cons.inj hcons
    intro hinv'
    exact (hq'.inv_iff.mp hinv').nonnull (List.mem_append_right _ (List.mem_singleton_self _))

end

/-- **The scheduler loses no process, and idles only when none is queued, exactly along the runs in
which no tick finds it idle with a process queued.** -/
theorem sched_keeps (events : List SchedEvent) (hlegal : Along schedStep SchedLegal schedInit events) :
    Always schedStep SchedInv IdleStep schedInit events ↔ Along schedStep TickOk schedInit events := by
  have hwf : SchedWf schedInit := by
    refine ⟨⟨[], procInit_queued, ?_⟩, List.not_mem_nil, by decide, .inl rfl, fun _ => rfl⟩
    intro p hp
    exact nomatch hp
  have hinv : SchedInv schedInit := by
    refine (Sched.Queued.inv_iff (s := schedInit) procInit_queued).mpr ⟨?_, List.not_mem_nil⟩
    intro p hp
    exact nomatch hp
  refine always_iff_along (fun s event h hI hl hok => h.step hI hl hok) ?_ events schedInit hwf hinv
    hlegal
  intro s event s' h hI _ hs' _ hI'
  cases event with
  | schedule p => exact trivial
  | start => exact trivial
  | tick =>
    intro hrun
    by_contra hne
    exact tick_idle h hI hrun hne s' hs' hI'

/-! ## two runs -/

instance (s : SchedState) : (event : SchedEvent) → Decidable (SchedLegal s event)
  | .schedule p => inferInstanceAs (Decidable (p ≠ NULL ∧ p ∉ s.scheduled ∧ _))
  | .start => inferInstanceAs (Decidable (s.started = false))
  | .tick => inferInstanceAs (Decidable (s.started = true))

instance (s : SchedState) : (event : SchedEvent) → Decidable (TickOk s event)
  | .schedule _ => isTrue trivial
  | .start => isTrue trivial
  | .tick => inferInstanceAs (Decidable (_ → _))

instance (s : SchedState) : Decidable (SchedInv s) :=
  decidable_of_iff
    ((∀ p ∈ s.scheduled, s.sched.queue.count (some p) = if s.running = p then 0 else 1) ∧
      some NULL ∉ s.sched.queue)
    ⟨fun h => ⟨h.1, h.2⟩, fun h => ⟨h.kept, h.nonnull⟩⟩

instance (s s' : SchedState) : (event : SchedEvent) → Decidable (IdleStep s event s')
  | .schedule _ => isTrue trivial
  | .start => inferInstanceAs (Decidable (_ → _))
  | .tick => inferInstanceAs (Decidable (_ → _))

/-- two processes take turns -/
theorem sched_keeps_two : Always schedStep SchedInv IdleStep schedInit
    [.schedule 0x1000, .start, .schedule 0x2000, .tick, .tick] :=
  (sched_keeps _ (by decide)).mpr (by decide)

/-- a process is scheduled while the processor idles: the next tick queues `NULL` behind it -/
theorem sched_queues_null : ¬ ∀ events : List SchedEvent, Along schedStep SchedLegal schedInit events →
    Always schedStep SchedInv IdleStep schedInit events := by
  intro hall
  exact absurd (hall [.start, .schedule 0x1000, .tick] (by decide)) (by decide)

end FuseeOS
