import Mathlib.Logic.Function.Basic
import FuseeOS.Lib.CInt
import FuseeOS.Lib.Run
import FuseeOS.Kernel.Array

/-!
# The run queue

`proc_schedule` and `next_proc` of `proc.c`.  Two arrays: processes are taken from the front one, at
the cursor, and scheduled into the other; when the front one is used up the two change places.

* `procSchedule_spec`, `nextProc_spec`   the two functions on what the arrays hold;
* `runQueue_fifo`                        the double buffer behaves as one queue.
-/

namespace FuseeOS
open StepRun

/-- a `Process*` -/
abbrev ProcPtr : Type := Nat
abbrev NULL : ProcPtr := 0

/-- `sizeof(Process*)` -/
abbrev PTR_SIZE : Nat := 8

/-- `gScheduledProcs`, `gScheduledProcsFront`, `gScheduledProcsIndex` -/
structure Sched where
  procs : Fin 2 → CArray ProcPtr
  front : Fin 2
  index : Int

/-- `proc_init` -/
def procInit : Sched where
  procs := fun _ => CArray.init ProcPtr PTR_SIZE 16
  front := 0
  index := 0

def procSchedule (s : Sched) (proc : ProcPtr) : Option Sched :=
  ((s.procs (1 - s.front)).push PTR_SIZE proc).map fun array =>
    { s with procs := Function.update s.procs (1 - s.front) array }

/-- `*ARRAY_AT(&gScheduledProcs[gScheduledProcsFront], Process*, gScheduledProcsIndex++)` -/
def takeFront (s : Sched) : Option (ProcPtr × Sched) := do
  let proc ← (s.procs s.front).load (CInt.toU64 s.index)
  let index ← CInt.intAdd? s.index 1
  return (proc, { s with index := index })

/-- the front buffer is fully processed: the buffers are swapped -/
def swapBuffers (s : Sched) : Sched where
  procs := Function.update s.procs s.front { s.procs s.front with size := 0 }
  front := 1 - s.front
  index := 0

def nextProc (s : Sched) : Option (ProcPtr × Sched) :=
  if CInt.toU64 s.index < (s.procs s.front).size then takeFront s
  else if ((swapBuffers s).procs (swapBuffers s).front).size ≠ 0 then takeFront (swapBuffers s)
  else some (NULL, swapBuffers s)

/-- entries that `next_proc` has not returned yet -/
def Sched.queue (s : Sched) : List (Option ProcPtr) :=
  (s.procs s.front).entries.drop (CInt.toU64 s.index) ++ (s.procs (1 - s.front)).entries

/-! ## what the arrays hold -/

/-- the front array holds `f`, the back array `b`, and the cursor is at `i` -/
structure Sched.Rep (s : Sched) (f b : List ProcPtr) (i : Nat) : Prop where
  front : (s.procs s.front).Holds f
  back : (s.procs (1 - s.front)).Holds b
  index : s.index = i
  inside : i ≤ f.length
  shortFront : f.length < 2^31
  shortBack : b.length < 2^31

theorem other_ne (f : Fin 2) : (1 : Fin 2) - f ≠ f := by
  revert f; decide

theorem other_other (f : Fin 2) : (1 : Fin 2) - (1 - f) = f := by
  revert f; decide

section
variable {s : Sched} {f b : List ProcPtr} {i : Nat}

theorem Sched.Rep.toU64_index (h : s.Rep f b i) : CInt.toU64 s.index = i := by
  have hi := h.inside
  have hf := h.shortFront
  rw [h.index, CInt.toU64_natCast (by omega)]

theorem Sched.Rep.queue (h : s.Rep f b i) : s.queue = (f.drop i ++ b).map some := by
  unfold Sched.queue
  rw [h.toU64_index, h.front.entries, h.back.entries, List.map_append, List.map_drop]

theorem procInit_rep : procInit.Rep [] [] 0 where
  front := CArray.holds_init PTR_SIZE (by decide) (by decide)
  back := CArray.holds_init PTR_SIZE (by decide) (by decide)
  index := rfl
  inside := Nat.le_refl 0
  shortFront := by decide
  shortBack := by decide

theorem procSchedule_spec (h : s.Rep f b i) (hb : b.length + 1 < 2^31) (proc : ProcPtr) :
    ∃ s', procSchedule s proc = some s' ∧ s'.Rep f (b ++ [proc]) i := by
  have h8 : PTR_SIZE ≤ 2^31 := by decide
  obtain ⟨a, e, ha⟩ := h.back.push (by decide) h8 hb proc
  refine ⟨{ s with procs := Function.update s.procs (1 - s.front) a }, ?_, ?_, ?_, h.index, h.inside,
    h.shortFront, ?_⟩
  · unfold procSchedule
    rw [e, Option.map_some]
  · show (Function.update s.procs (1 - s.front) a s.front).Holds f
    rw [Function.update_of_ne (other_ne _).symm]
    exact h.front
  · show (Function.update s.procs (1 - s.front) a (1 - s.front)).Holds (b ++ [proc])
    rw [Function.update_self]
    exact ha
  · rw [List.length_append, List.length_singleton]
    exact hb

theorem takeFront_spec (h : s.Rep f b i) (hi : i < f.length) :
    ∃ s', takeFront s = some (f[i], s') ∧ s'.Rep f b (i + 1) := by
  have hf := h.shortFront
  refine ⟨{ s with index := (i + 1 : Nat) }, ?_, h.front, h.back, rfl, hi, hf, h.shortBack⟩
  have hidx : CInt.intAdd? s.index 1 = some ((i + 1 : Nat) : Int) := by
    unfold CInt.intAdd?
    rw [h.index, if_pos (by omega)]
    rfl
  unfold takeFront
  rw [h.toU64_index, h.front.load i hi, hidx]
  rfl

theorem swapBuffers_rep (h : s.Rep f b i) : (swapBuffers s).Rep b [] 0 := by
  refine ⟨?_, ?_, rfl, Nat.zero_le _, h.shortBack, by decide⟩
  · show (Function.update s.procs s.front _ (1 - s.front)).Holds b
    rw [Function.update_of_ne (other_ne _)]
    exact h.back
  · show (Function.update s.procs s.front _ (1 - (1 - s.front))).Holds []
    rw [other_other, Function.update_self]
    exact h.front.reset

/-- **`next_proc`** takes from the front array, or swaps and takes from the other one, or finds both
used up -/
theorem nextProc_spec (h : s.Rep f b i) :
    ∃ p s' f' b' i', nextProc s = some (p, s') ∧ s'.Rep f' b' i' ∧
      (f.drop i ++ b = p :: (f'.drop i' ++ b') ∨
        f.drop i ++ b = [] ∧ p = NULL ∧ f'.drop i' ++ b' = []) := by
  unfold nextProc
  rw [h.toU64_index, h.front.size]
  by_cases hi : i < f.length
  · obtain ⟨s', e, h'⟩ := takeFront_spec h hi
    refine ⟨_, s', f, b, i + 1, by rw [if_pos hi, e], h', .inl ?_⟩
    rw [List.drop_eq_getElem_cons hi, List.cons_append]
  · have hdrop : f.drop i = [] := List.drop_eq_nil_of_le (by omega)
    have hs := swapBuffers_rep h
    rw [if_neg hi, hdrop, List.nil_append, hs.front.size]
    cases b with
    | nil => exact ⟨NULL, _, [], [], 0, if_neg (fun hne => hne rfl), hs, .inr ⟨rfl, rfl, rfl⟩⟩
    | cons p rest =>
      obtain ⟨s', e, h'⟩ := takeFront_spec hs (Nat.zero_lt_succ _)
      refine ⟨p, s', p :: rest, [], 1, ?_, h', .inl ?_⟩
      · rw [List.length_cons, if_pos (Nat.succ_ne_zero _), e]
        rfl
      · rw [List.append_nil]
        rfl

end

/-- the entries not returned yet are `q`: the rest of the front array, then the back array -/
def Sched.Queued (s : Sched) (q : List ProcPtr) : Prop :=
  ∃ f b i, s.Rep f b i ∧ f.drop i ++ b = q

section
variable {s : Sched} {q : List ProcPtr}

theorem procInit_queued : procInit.Queued [] := ⟨[], [], 0, procInit_rep, rfl⟩

theorem Sched.Queued.queue (h : s.Queued q) : s.queue = q.map some := by
  obtain ⟨f, b, i, hrep, rfl⟩ := h
  exact hrep.queue

theorem Sched.Queued.back_le (h : s.Queued q) : (s.procs (1 - s.front)).size ≤ q.length := by
  obtain ⟨f, b, i, hrep, rfl⟩ := h
  rw [hrep.back.size, List.length_append]
  omega

theorem Sched.Queued.schedule (h : s.Queued q)
    (hsize : (s.procs (1 - s.front)).size + 1 < 2^31) (proc : ProcPtr) :
    ∃ s', procSchedule s proc = some s' ∧ s'.Queued (q ++ [proc]) := by
  obtain ⟨f, b, i, hrep, rfl⟩ := h
  rw [hrep.back.size] at hsize
  obtain ⟨s', e, h'⟩ := procSchedule_spec hrep hsize proc
  exact ⟨s', e, f, b ++ [proc], i, h', (List.append_assoc ..).symm⟩

theorem Sched.Queued.next (h : s.Queued q) : ∃ p s' q', nextProc s = some (p, s') ∧ s'.Queued q' ∧
    (q = p :: q' ∨ q = [] ∧ p = NULL ∧ q' = []) := by
  obtain ⟨f, b, i, hrep, rfl⟩ := h
  obtain ⟨p, s', f', b', i', e, h', hcase⟩ := nextProc_spec hrep
  exact ⟨p, s', _, e, ⟨f', b', i', h', rfl⟩, hcase⟩

end

/-! ## the double buffer is a queue -/

/-- the run queue, with all processes scheduled so far, oldest first, and how many of them were
returned -/
structure RunQueue where
  sched : Sched
  scheduled : List ProcPtr
  returned : Nat

inductive QueueOp where
  | schedule (proc : ProcPtr)
  | next

def queueStep (q : RunQueue) : QueueOp → Option RunQueue
  | .schedule proc => (procSchedule q.sched proc).map fun s =>
      { q with sched := s, scheduled := q.scheduled ++ [proc] }
  | .next => (nextProc q.sched).map fun (proc, s) =>
      { q with sched := s, returned := if proc = NULL then q.returned else q.returned + 1 }

/-- a process is not `NULL`, and it finds a buffer with fewer than `2^31` entries -/
def QueueOk (q : RunQueue) : QueueOp → Prop
  | .schedule proc => proc ≠ NULL ∧ (q.sched.procs (1 - q.sched.front)).size + 1 < 2^31
  | .next => True

/-- `next_proc` returns the oldest process not yet returned, and `NULL` if and only if there is none -/
def FifoStep (q : RunQueue) (op : QueueOp) (q' : RunQueue) : Prop :=
  match op with
  | .schedule proc => q'.scheduled = q.scheduled ++ [proc] ∧ q'.returned = q.returned
  | .next => ∃ proc, nextProc q.sched = some (proc, q'.sched) ∧
      (proc = NULL ↔ q.returned = q.scheduled.length) ∧
      (proc ≠ NULL → q.scheduled[q.returned]? = some proc ∧ q'.returned = q.returned + 1) ∧
      (proc = NULL → q'.returned = q.returned) ∧ q'.scheduled = q.scheduled

/-- the entries not yet returned are the processes not yet returned, in order -/
def FifoInv (q : RunQueue) : Prop :=
  q.returned ≤ q.scheduled.length ∧ q.sched.queue = (q.scheduled.drop q.returned).map some

/-- what the steps keep -/
structure RunQueue.Rep (q : RunQueue) : Prop where
  queued : q.sched.Queued (q.scheduled.drop q.returned)
  returned : q.returned ≤ q.scheduled.length
  nonnull : ∀ p ∈ q.scheduled, p ≠ NULL

theorem RunQueue.Rep.step {q : RunQueue} {op : QueueOp} (h : q.Rep) (hop : QueueOk q op) :
    ∃ q', queueStep q op = some q' ∧ FifoStep q op q' ∧ q'.Rep := by
  have hret := h.returned
  cases op with
  | schedule proc =>
    obtain ⟨hnull, hsize⟩ := hop
    obtain ⟨s', e, h'⟩ := h.queued.schedule hsize proc
    refine ⟨{ q with sched := s', scheduled := q.scheduled ++ [proc] }, ?_, ⟨rfl, rfl⟩, ?_, ?_, ?_⟩
    · unfold queueStep
      simp only [e, Option.map_some]
    · show s'.Queued ((q.scheduled ++ [proc]).drop q.returned)
      rwa [List.drop_append_of_le_length hret]
    · show q.returned ≤ (q.scheduled ++ [proc]).length
      rw [List.length_append]
      omega
    · intro p hp
      rcases List.mem_append.mp hp with hp | hp
      · exact h.nonnull p hp
      · rw [List.mem_singleton.mp hp]
        exact hnull
  | next =>
    obtain ⟨p, s', q', e, h', hcons | ⟨hnil, hp, rfl⟩⟩ := h.queued.next
    · -- the oldest entry
      have hlt : q.returned < q.scheduled.length := by
        have hl := congrArg List.length hcons
        rw [List.length_drop, List.length_cons] at hl
        omega
      rw [List.drop_eq_getElem_cons hlt] at hcons
      obtain ⟨hp, rfl⟩ := List.cons.inj hcons
      have hnull : p ≠ NULL := hp ▸ h.nonnull _ (List.getElem_mem hlt)
      refine ⟨{ q with sched := s', returned := q.returned + 1 }, ?_,
        ⟨p, e, ⟨fun hp => absurd hp hnull, fun hr => absurd hr (Nat.ne_of_lt hlt)⟩,
          fun _ => ⟨?_, rfl⟩, fun hp => absurd hp hnull, rfl⟩, h', hlt, h.nonnull⟩
      · unfold queueStep
        simp only [e, Option.map_some, if_neg hnull]
      · rw [List.getElem?_eq_getElem hlt, hp]
    · have hall : q.returned = q.scheduled.length := by
        have hl := List.drop_eq_nil_iff.mp hnil
        omega
      refine ⟨{ q with sched := s' }, ?_, ⟨p, e, ⟨fun _ => hall, fun _ => hp⟩,
        fun hne => absurd hp hne, fun _ => rfl, rfl⟩, ?_, hret, h.nonnull⟩
      · unfold queueStep
        simp only [e, Option.map_some, if_pos hp]
      · show s'.Queued (q.scheduled.drop q.returned)
        rwa [hnil]

/-- **The double buffer is a queue**: for every interleaving of `proc_schedule` and `next_proc` after
`proc_init`. -/
theorem runQueue_fifo (ops : List QueueOp) (hops : Along queueStep QueueOk ⟨procInit, [], 0⟩ ops) :
    Always queueStep FifoInv FifoStep ⟨procInit, [], 0⟩ ops := by
  have h : Always queueStep RunQueue.Rep FifoStep ⟨procInit, [], 0⟩ ops := by
    refine always_of_step (fun _ _ hq hop => hq.step hop) ops _ ⟨?_, Nat.le_refl 0, ?_⟩ hops
    · exact procInit_queued
    · intro p hp
      exact nomatch hp
  exact h.mono (fun q hq => ⟨hq.returned, hq.queued.queue⟩) (fun _ _ _ _ hr _ => hr)

instance (q : RunQueue) : (op : QueueOp) → Decidable (QueueOk q op)
  | .schedule proc => inferInstanceAs (Decidable (proc ≠ NULL ∧ _))
  | .next => isTrue trivial

/-- two processes are scheduled around a `next_proc`, and three times one is asked for -/
theorem runQueue_fifo_two : Always queueStep FifoInv FifoStep ⟨procInit, [], 0⟩
    [.schedule 0x1000, .next, .schedule 0x2000, .next, .next] :=
  runQueue_fifo _ (by decide)

end FuseeOS
