import MiniOS.Scheduler
import Mathlib.Algebra.BigOperators.Group.List.Basic
import Mathlib.Data.List.Nodup
import Mathlib.Algebra.Ring.Int.Defs

/-! Runs that take every process to its end before the next one starts: the
FIFO loop in queue order and the SJF loop in array order. Additions and runs may
be interleaved. -/

namespace MiniOS

open WhileLoop

def Process.complete (p : Process) : Process := { p with remainingTime := 0, state := .finished }

def Process.node (p : Process) : LLNode := ⟨p.pid, p.burstTime⟩

/-- The rows printed when `ps` run one after another from `time` on. -/
def serialSlices (time : Int) : List Process → List Slice
  | [] => []
  | p :: ps =>
    ⟨p.pid, time, time + p.burstTime, p.burstTime, 0⟩ :: serialSlices (time + p.burstTime) ps

theorem serialSlices_append (time : Int) (ps qs : List Process) :
    serialSlices time (ps ++ qs) =
      serialSlices time ps ++ serialSlices (time + (ps.map Process.burstTime).sum) qs := by
  induction ps generalizing time with
  | nil => simp [serialSlices]
  | cons p ps ih => simp [serialSlices, ih, add_assoc]

variable {type : SchedulerType}

/-- From `s₀` the processes `done` ran one after another; `rest` did not start. -/
structure Serial (s₀ s : Scheduler type) (done rest : List Process) : Prop where
  processes_eq : s.processes = done.map Process.complete ++ rest
  time_eq : s.currentTime = s₀.currentTime + (done.map Process.burstTime).sum
  completed_eq : s.completed = s₀.completed + done.length
  finished_perm : s.finishedList.head.Perm (done.map Process.node ++ s₀.finishedList.head)
  history_eq : s.history.top = (done.map Process.pid).reverse ++ s₀.history.top
  slices_eq : s.slices = s₀.slices ++ serialSlices s₀.currentTime done

namespace Serial

variable {s₀ s : Scheduler type} {p : Process} {done rest : List Process}

theorem start (s₀ : Scheduler type) : Serial s₀ s₀ [] s₀.processes where
  processes_eq := rfl
  time_eq := by simp
  completed_eq := by simp
  finished_perm := List.Perm.refl _
  history_eq := rfl
  slices_eq := by simp [serialSlices]

def cursor (h : Serial s₀ s done (p :: rest)) : Cursor s.processes :=
  ⟨done.map Process.complete, p, rest, h.processes_eq.symm⟩

theorem step (h : Serial s₀ s done (p :: rest)) :
    Serial s₀ (runToCompletion s h.cursor) (done ++ [p]) rest where
  processes_eq := by
    rw [List.map_append, List.append_assoc]
    exact Cursor.replace_singleton _ _
  time_eq := by
    have ht := h.time_eq
    rw [List.map_append, List.sum_append, ← add_assoc, ← ht]
    simp [runToCompletion, cursor]
  completed_eq := by
    have hc := h.completed_eq
    rw [List.length_append, Int.natCast_add, ← add_assoc, ← hc]
    rfl
  finished_perm := by
    rw [List.map_append, List.append_assoc]
    have hi := LinkedList.insert_perm s.finishedList p.pid p.burstTime
    exact hi.trans ((h.finished_perm.cons _).trans List.perm_middle.symm)
  history_eq := by
    rw [List.map_append, List.reverse_append, List.append_assoc, ← h.history_eq]
    rfl
  slices_eq := by
    rw [serialSlices_append, ← List.append_assoc, ← h.slices_eq, ← h.time_eq]
    rfl

theorem fifoStep_eq {s₀ s : Scheduler .fifo} (h : Serial s₀ s done (p :: rest))
    (hqueue : s.queue.front = (p :: rest).map Process.pid)
    (hpids : ((done ++ p :: rest).map Process.pid).Nodup) :
    Serial s₀ (fifoStep s) (done ++ [p]) rest ∧
    (fifoStep s).queue.front = rest.map Process.pid := by
  have hpop : (dequeue s.queue).1 = p.pid ∧ (dequeue s.queue).2.front = rest.map Process.pid := by
    simp [dequeue, hqueue]
  let popped : Scheduler .fifo := { s with queue := (dequeue s.queue).2 }
  have hserial : Serial s₀ popped done (p :: rest) :=
    ⟨h.processes_eq, h.time_eq, h.completed_eq, h.finished_perm, h.history_eq, h.slices_eq⟩
  have hfind : findProcess popped (dequeue s.queue).1 = some hserial.cursor := by
    rw [List.map_append, List.map_cons, List.nodup_append] at hpids
    apply Cursor.first_eq_some
    · exact beq_iff_eq.mpr hpop.1.symm
    · intro x hx
      obtain ⟨y, hy, rfl⟩ := List.mem_map.mp hx
      have hne := hpids.2.2 y.pid (List.mem_map_of_mem hy) p.pid List.mem_cons_self
      rw [hpop.1]
      exact beq_eq_false_iff_ne.mpr hne
  have hstep : fifoStep s = runToCompletion popped hserial.cursor := by
    rcases fifoStep_cases s with ⟨hnone, -⟩ | ⟨c, hc, hstep⟩
    · exact absurd (hnone.symm.trans hfind) (by simp)
    · rw [hstep, Option.some.inj (hc.symm.trans hfind)]
  rw [hstep]
  exact ⟨hserial.step, hpop.2⟩

/-- With distinct pids the search by pid finds the record that was queued. -/
theorem fifo_returns {s₀ s : Scheduler .fifo} (h : Serial s₀ s done rest)
    (hqueue : s.queue.front = rest.map Process.pid)
    (hpids : ((done ++ rest).map Process.pid).Nodup) :
    ∃ t, Returns fifoWaiting fifoStep s t ∧ Serial s₀ t (done ++ rest) [] := by
  induction rest generalizing s done with
  | nil =>
    have hc : fifoWaiting s = false := by simp [fifoWaiting, queueIsEmpty, hqueue]
    exact ⟨s, .of_not hc, by rwa [List.append_nil]⟩
  | cons p rest ih =>
    have hc : fifoWaiting s = true := by simp [fifoWaiting, queueIsEmpty, hqueue]
    obtain ⟨hnext, hfront⟩ := h.fifoStep_eq hqueue hpids
    rw [List.append_cons] at hpids ⊢
    obtain ⟨t, ht, hend⟩ := ih hnext hfront hpids
    exact ⟨t, .of_body hc ht, hend⟩

theorem sjf_loop {s₀ s : Scheduler .sjf} (h : Serial s₀ s done rest) :
    Serial s₀ ((List.range' done.length rest.length).foldl sjfStep s) (done ++ rest) [] := by
  induction rest generalizing s done with
  | nil => simpa using h
  | cons p rest ih =>
    have hnth : Cursor.nth done.length s.processes = some h.cursor := by
      have hc := Cursor.nth_eq_some h.cursor
      rwa [show h.cursor.before.length = done.length from List.length_map _] at hc
    have hstep : sjfStep s done.length = runToCompletion s h.cursor := by
      simp only [sjfStep, hnth]
    have hrest := ih h.step
    rw [List.length_cons, List.range'_succ, List.foldl_cons, hstep, List.append_cons]
    simpa using hrest

end Serial

theorem foldl_enqueue_front (queue : Queue) (adds : List (Int × Int)) :
    (adds.foldl (fun queue a => ReadyQueue.add .fifo queue a.1) queue).front =
      queue.front ++ adds.map Prod.fst := by
  induction adds generalizing queue with
  | nil => simp
  | cons a adds ih =>
    rw [List.foldl_cons, ih, List.map_cons, List.append_cons]
    rfl

theorem schedulerRun_serial {adds : List (Int × Int)} (hlen : adds.length ≤ maxProcesses)
    (hpids : (adds.map Prod.fst).Nodup) :
    ∃ fuel s, schedulerRun fuel (addAll schedulerCreateFifo adds) = some s ∧
      Serial schedulerCreateFifo s (adds.map added) [] := by
  have hadd := addAll_eq (s := schedulerCreateFifo) (by simpa [schedulerCreateFifo] using hlen)
  have hserial : Serial schedulerCreateFifo (addAll schedulerCreateFifo adds) []
      (adds.map added) := by
    rw [hadd]
    exact ⟨rfl, rfl, rfl, List.Perm.refl _, rfl, rfl⟩
  have hqueue : (addAll schedulerCreateFifo adds).queue.front = (adds.map added).map Process.pid := by
    rw [hadd, List.map_map]
    exact foldl_enqueue_front queueCreate adds
  obtain ⟨s, ⟨fuel, hrun⟩, hend⟩ := hserial.fifo_returns hqueue (by
    rw [List.nil_append, List.map_map]
    exact hpids)
  exact ⟨fuel, s, hrun, hend⟩

theorem schedulerRunSjf_sorted (s : Scheduler .sjf) :
    ∃ t, schedulerRunSjf s = some t ∧
      Serial { s with processes := s.processes.mergeSort burstLE } t
        (s.processes.mergeSort burstLE) [] := by
  refine ⟨_, ?_, (Serial.start { s with processes := s.processes.mergeSort burstLE }).sjf_loop⟩
  rw [schedulerRunSjf_eq, List.range_eq_range']
  rfl

theorem schedulerRunSjf_serial {adds : List (Int × Int)} (hlen : adds.length ≤ maxProcesses) :
    ∃ s, schedulerRunSjf (addAll schedulerCreateSjf adds) = some s ∧
      Serial schedulerCreateSjf s ((adds.map added).mergeSort burstLE) [] := by
  have hadd := addAll_eq (s := schedulerCreateSjf) (by simpa [schedulerCreateSjf] using hlen)
  obtain ⟨s, hrun, hs⟩ := schedulerRunSjf_sorted (addAll schedulerCreateSjf adds)
  rw [hadd] at hs
  exact ⟨s, hrun, hs.processes_eq, hs.time_eq, hs.completed_eq, hs.finished_perm, hs.history_eq,
    hs.slices_eq⟩

/-- The counters of the two containers are their lengths, and the list is in order. -/
structure Tidy {type : SchedulerType} (s : Scheduler type) : Prop where
  finished_ordered : s.finishedList.Ordered
  history_size : s.history.size = s.history.top.length

namespace Tidy

variable {s : Scheduler type}

theorem runToCompletion (h : Tidy s) (c : Cursor s.processes) : Tidy (runToCompletion s c) where
  finished_ordered := h.finished_ordered.insert c.item.pid c.item.burstTime
  history_size := congrArg Nat.succ h.history_size

theorem addAll (h : Tidy s) (adds : List (Int × Int)) : Tidy (addAll s adds) := by
  induction adds generalizing s with
  | nil => exact h
  | cons a adds ih =>
    apply ih
    show Tidy (schedulerAddProcess s a.1 a.2)
    by_cases hfull : maxProcesses ≤ s.processes.length
    · rwa [schedulerAddProcess_of_full hfull]
    · rw [schedulerAddProcess_of_room (not_le.mp hfull)]
      exact ⟨h.finished_ordered, h.history_size⟩

theorem fifoStep {s : Scheduler .fifo} (h : Tidy s) : Tidy (fifoStep s) := by
  let popped : Scheduler .fifo := { s with queue := (dequeue s.queue).2 }
  have hpopped : Tidy popped := ⟨h.finished_ordered, h.history_size⟩
  rcases fifoStep_cases s with ⟨-, hstep⟩ | ⟨c, -, hstep⟩
  · rwa [hstep]
  · rw [hstep]
    exact hpopped.runToCompletion c

theorem schedulerRun {s t : Scheduler .fifo} {fuel : Nat} (h : Tidy s)
    (hrun : schedulerRun fuel s = some t) : Tidy t :=
  (run_head hrun).1.invariant (fun _ hx _ => hx.fifoStep) h

theorem sjfStep {s : Scheduler .sjf} (h : Tidy s) (i : Nat) : Tidy (sjfStep s i) := by
  cases hc : Cursor.nth i s.processes with
  | none => simpa only [MiniOS.sjfStep, hc] using h
  | some c =>
    simp only [MiniOS.sjfStep, hc]
    exact h.runToCompletion c

theorem schedulerRunSjf {s t : Scheduler .sjf} (h : Tidy s) (hrun : schedulerRunSjf s = some t) :
    Tidy t :=
  schedulerRunSjf_invariant (fun _ hr => ⟨hr.finished_ordered, hr.history_size⟩)
    (fun _ i hr => hr.sjfStep i) hrun h

end Tidy

/-! Interleavings -/

inductive SchedulerCall where
  | add (pid burstTime : Int)
  | run
  deriving DecidableEq, Repr

/-- The states between the calls of an interleaving of additions and runs. -/
inductive CallRun (create : Scheduler type) (ran : Scheduler type → Scheduler type → Prop) :
    List SchedulerCall → Scheduler type → Prop
  | create : CallRun create ran [] create
  | add {calls s} (pid burstTime : Int) : CallRun create ran calls s →
      CallRun create ran (calls ++ [.add pid burstTime]) (schedulerAddProcess s pid burstTime)
  | run {calls s t} : CallRun create ran calls s → ran s t → CallRun create ran (calls ++ [.run]) t

abbrev FifoRun : List SchedulerCall → Scheduler .fifo → Prop :=
  CallRun schedulerCreateFifo (fun s t => ∃ fuel, schedulerRun fuel s = some t)

end MiniOS
