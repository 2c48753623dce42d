import MiniOS.FifoRuns
import MiniOS.SjfRuns
import MiniOS.RoundRobin
import MiniOS.Simulation

/-! Three policies with one record. A Round Robin scheduler serves every process in
one slice exactly when no burst is longer than its quantum, and then it is a FIFO
scheduler; SJF is a FIFO scheduler whose processes were added by burst time. -/

namespace MiniOS

open WhileLoop

/-- Equal in everything but the quantum and the queue. -/
structure SameRecord {type type' : SchedulerType} (s : Scheduler type) (t : Scheduler type') :
    Prop where
  processes_eq : s.processes = t.processes
  time_eq : s.currentTime = t.currentTime
  completed_eq : s.completed = t.completed
  finished_eq : s.finishedList = t.finishedList
  history_eq : s.history = t.history
  slices_eq : s.slices = t.slices

structure Shadows (quantum : Int) (r : Scheduler .roundRobin) (f : Scheduler .fifo) : Prop where
  same : SameRecord r f
  quantum_eq : r.quantum = quantum
  queue_valid : r.queue.Valid
  queue_eq : r.queue.toList = f.queue.front

namespace FifoInvariant

variable {adm done rest : List (Int × Int)} {a : Int × Int} {f : Scheduler .fifo} {ps : List Process}

/-- The record of the process at the front of the queue. -/
def cursor (h : FifoInvariant adm f done (a :: rest)) (hps : ps = f.processes) : Cursor ps :=
  ⟨(done.map added).map Process.complete, added a, rest.map added, by
    rw [hps, h.serial.processes_eq, List.map_cons]⟩

theorem first_eq (h : FifoInvariant adm f done (a :: rest)) (hps : ps = f.processes) :
    Cursor.first (fun p => p.pid == a.1) ps = some (h.cursor hps) := by
  have hd := h.distinct
  rw [h.admitted_eq, List.map_append, List.map_cons, List.nodup_append] at hd
  apply Cursor.first_eq_some
  · exact beq_self_eq_true a.1
  · intro p hp
    obtain ⟨x, hx, rfl⟩ := List.mem_map.mp hp
    obtain ⟨b, hb, rfl⟩ := List.mem_map.mp hx
    exact beq_eq_false_iff_ne.mpr (hd.2.2 b.1 (List.mem_map_of_mem hb) a.1 List.mem_cons_self)

theorem fifoStep_eq (h : FifoInvariant adm f done (a :: rest)) :
    fifoStep f = runToCompletion { f with queue := (dequeue f.queue).2 } (h.cursor rfl) ∧
      (dequeue f.queue).2.front = rest.map Prod.fst := by
  have hpop : (dequeue f.queue).1 = a.1 ∧ (dequeue f.queue).2.front = rest.map Prod.fst := by
    simp [dequeue, h.queue_eq]
  refine ⟨?_, hpop.2⟩
  rcases fifoStep_cases f with ⟨hnone, -⟩ | ⟨c, hc, hstep⟩
  · rw [hpop.1] at hnone
    exact absurd (hnone.symm.trans (h.first_eq rfl)) (by simp)
  · rw [hpop.1] at hc
    rw [hstep, Option.some.inj (hc.symm.trans (h.first_eq rfl))]

end FifoInvariant

namespace Shadows

variable {adm done rest : List (Int × Int)} {quantum : Int} {r : Scheduler .roundRobin}
  {f : Scheduler .fifo}

theorem create (quantum : Int) : Shadows quantum (schedulerCreateRr quantum) schedulerCreateFifo where
  same := ⟨rfl, rfl, rfl, rfl, rfl, rfl⟩
  quantum_eq := rfl
  queue_valid := CircularQueue.create_valid _
  queue_eq := rfl

theorem add (h : Shadows quantum r f) (pid burstTime : Int) :
    Shadows quantum (schedulerAddProcess r pid burstTime) (schedulerAddProcess f pid burstTime) := by
  by_cases hfull : maxProcesses ≤ f.processes.length
  · rw [schedulerAddProcess_of_full hfull,
      schedulerAddProcess_of_full (h.same.processes_eq ▸ hfull)]
    exact h
  · have hroom := not_le.mp hfull
    rw [schedulerAddProcess_of_room hroom,
      schedulerAddProcess_of_room (h.same.processes_eq ▸ hroom)]
    obtain ⟨hvalid, hlist⟩ := h.queue_valid.enqueue pid
    refine ⟨⟨?_, h.same.time_eq, h.same.completed_eq, h.same.finished_eq, h.same.history_eq,
      h.same.slices_eq⟩, h.quantum_eq, hvalid, ?_⟩
    · show r.processes ++ _ = f.processes ++ _
      rw [h.same.processes_eq]
    · show (cqEnqueue r.queue pid).toList = f.queue.front ++ [pid]
      rw [hlist, h.queue_eq]

theorem waits_eq (h : Shadows quantum r f) : rrWaiting r = fifoWaiting f := by
  have he : cqIsEmpty r.queue = true ↔ queueIsEmpty f.queue = true := by
    rw [CircularQueue.isEmpty_iff, h.queue_eq, queueIsEmpty, List.isEmpty_iff]
  rw [rrWaiting, fifoWaiting, Bool.eq_iff_iff.mpr he]

theorem rrStep_eq {a : Int × Int} (h : Shadows quantum r f)
    (hf : FifoInvariant adm f done (a :: rest)) :
    rrStep r = rrDispatch { r with queue := (cqDequeue r.queue).2 } (hf.cursor h.same.processes_eq) ∧
      (cqDequeue r.queue).2.Valid ∧ (cqDequeue r.queue).2.toList = rest.map Prod.fst := by
  have hne : cqIsEmpty r.queue = false := by
    have hw := h.waits_eq.trans (hf.waits_iff.mpr (List.cons_ne_nil _ _))
    simpa [rrWaiting] using hw
  obtain ⟨hvalid, hlist⟩ := h.queue_valid.dequeue hne
  rw [h.queue_eq, hf.queue_eq, List.map_cons] at hlist
  obtain ⟨hpid, htail⟩ := List.cons.inj hlist
  refine ⟨?_, hvalid, htail.symm⟩
  rcases rrStep_cases r with ⟨hnone, -⟩ | ⟨c, hc, hrun⟩
  · rw [← hpid] at hnone
    exact absurd (hnone.symm.trans (hf.first_eq h.same.processes_eq)) (by simp)
  · rw [← hpid] at hc
    obtain rfl := Option.some.inj (hc.symm.trans (hf.first_eq h.same.processes_eq))
    rcases hrun with ⟨hfin, -⟩ | ⟨-, hstep⟩
    · exact absurd (show ProcessState.ready = .finished from hfin) (by decide)
    · exact hstep

/-- A slice that covers the whole burst is a run to completion. -/
theorem step {a : Int × Int} (h : Shadows quantum r f) (hf : FifoInvariant adm f done (a :: rest))
    (hburst : a.2 ≤ quantum) : Shadows quantum (rrStep r) (fifoStep f) := by
  obtain ⟨hr, hvalid, hlist⟩ := h.rrStep_eq hf
  obtain ⟨hstep, hfront⟩ := hf.fifoStep_eq
  obtain rfl := h.quantum_eq
  have hmin : min a.2 r.quantum = a.2 := min_eq_left hburst
  have hslice : (added a).afterSlice r.quantum = (added a).complete := by
    simp [Process.afterSlice, Process.complete, added, processCreate, hmin]
  have hfin : (added a).complete.isFinished = true := rfl
  rw [hr, hstep, rrDispatch_eq]
  simp only [FifoInvariant.cursor, hslice, hfin, if_true]
  constructor
  case same =>
    refine ⟨?_, ?_, ?_, ?_, ?_, ?_⟩
    · exact (Cursor.replace_singleton (hf.cursor rfl) _).symm
    · show r.currentTime + min a.2 r.quantum = f.currentTime + a.2
      rw [hmin, h.same.time_eq]
    · show r.completed + 1 = f.completed + 1
      rw [h.same.completed_eq]
    · show llInsertSorted r.finishedList _ _ = llInsertSorted f.finishedList _ _
      rw [h.same.finished_eq]
    · show stackPush r.history _ = stackPush f.history _
      rw [h.same.history_eq]
    · show r.slices ++ [(added a).sliceFrom r.currentTime r.quantum] = f.slices ++ _
      rw [h.same.slices_eq, h.same.time_eq]
      simp [Process.sliceFrom, added, processCreate, hmin]
  case quantum_eq => rfl
  case queue_valid => exact hvalid
  case queue_eq => exact hlist.trans hfront.symm

theorem run (h : Shadows quantum r f) (hf : FifoInvariant adm f done rest)
    (hbursts : ∀ a ∈ adm, a.2 ≤ quantum) {fuel : Nat} {g : Scheduler .fifo}
    (hg : schedulerRun fuel f = some g) :
    ∃ t, schedulerRunRr fuel r = some t ∧ Shadows quantum t g := by
  have hstep : ∀ (x : Scheduler .roundRobin) (y : Scheduler .fifo),
      (Shadows quantum x y ∧ ∃ d w, FifoInvariant adm y d w) → fifoWaiting y = true →
      Shadows quantum (rrStep x) (fifoStep y) ∧ ∃ d w, FifoInvariant adm (fifoStep y) d w := by
    intro x y ⟨hxy, d, w, hy⟩ hw
    cases w with
    | nil => exact absurd rfl (hy.waits_iff.mp hw)
    | cons a w =>
      have hmem : a ∈ adm := by
        rw [hy.admitted_eq]
        exact List.mem_append_right _ List.mem_cons_self
      exact ⟨hxy.step hy (hbursts a hmem), _, _, hy.step⟩
  obtain ⟨t, ht, hshadow, -⟩ :=
    run_follows (fun _ _ hxy => hxy.1.waits_eq) hstep ⟨h, done, rest, hf⟩ hg
  exact ⟨t, ht, hshadow⟩

end Shadows

abbrev RrCallRun (quantum : Int) : List SchedulerCall → Scheduler .roundRobin → Prop :=
  CallRun (schedulerCreateRr quantum) (fun s t => ∃ fuel, schedulerRunRr fuel s = some t)

theorem addedProcesses_add (calls : List SchedulerCall) (pid burstTime : Int) :
    addedProcesses (calls ++ [.add pid burstTime]) = addedProcesses calls ++ [(pid, burstTime)] := by
  rw [addedProcesses, List.filterMap_append]
  rfl

theorem addedProcesses_run (calls : List SchedulerCall) :
    addedProcesses (calls ++ [.run]) = addedProcesses calls := by
  rw [addedProcesses, List.filterMap_append]
  exact List.append_nil _

theorem admittedProcesses_subset (calls : List SchedulerCall) (call : SchedulerCall) :
    admittedProcesses calls ⊆ admittedProcesses (calls ++ [call]) := by
  intro a ha
  rw [admittedProcesses, addedProcesses, List.filterMap_append, List.take_append]
  exact List.mem_append_left _ ha

theorem FifoRun.shadowed {calls : List SchedulerCall} {f : Scheduler .fifo} (h : FifoRun calls f)
    (hpids : ((addedProcesses calls).map Prod.fst).Nodup) {quantum : Int}
    (hbursts : ∀ a ∈ admittedProcesses calls, a.2 ≤ quantum) :
    ∃ r, RrCallRun quantum calls r ∧ Shadows quantum r f := by
  induction h with
  | create => exact ⟨_, .create, Shadows.create quantum⟩
  | @add calls f pid burstTime _ ih =>
    rw [addedProcesses_add, List.map_append, List.nodup_append] at hpids
    obtain ⟨r, hr, hshadow⟩ := ih hpids.1 (fun a ha => hbursts a (admittedProcesses_subset _ _ ha))
    exact ⟨_, hr.add pid burstTime, hshadow.add pid burstTime⟩
  | @run calls f g hf hg ih =>
    rw [addedProcesses_run] at hpids
    have hbursts' : ∀ a ∈ admittedProcesses calls, a.2 ≤ quantum := fun a ha =>
      hbursts a (admittedProcesses_subset _ _ ha)
    obtain ⟨r, hr, hshadow⟩ := ih hpids hbursts'
    obtain ⟨done, rest, hinv⟩ := FifoRun.invariant hf hpids
    obtain ⟨fuel, hfuel⟩ := hg
    obtain ⟨t, ht, hend⟩ := hshadow.run hinv hbursts' hfuel
    exact ⟨t, hr.run ⟨fuel, ht⟩, hend⟩

structure SlicesWithin (quantum : Int) (s : Scheduler .roundRobin) : Prop where
  quantum_eq : s.quantum = quantum
  executed_le : ∀ x ∈ s.slices, x.executed ≤ quantum

namespace SlicesWithin

variable {quantum : Int} {s : Scheduler .roundRobin}

theorem add (h : SlicesWithin quantum s) (pid burstTime : Int) :
    SlicesWithin quantum (schedulerAddProcess s pid burstTime) := by
  by_cases hfull : maxProcesses ≤ s.processes.length
  · rw [schedulerAddProcess_of_full hfull]
    exact h
  · rw [schedulerAddProcess_of_room (not_le.mp hfull)]
    exact ⟨h.quantum_eq, h.executed_le⟩

theorem step (h : SlicesWithin quantum s) : SlicesWithin quantum (rrStep s) := by
  rcases rrStep_cases s with ⟨-, hstep⟩ | ⟨c, -, ⟨-, hstep⟩ | ⟨-, hstep⟩⟩
  · rw [hstep]
    exact ⟨h.quantum_eq, h.executed_le⟩
  · rw [hstep]
    exact ⟨h.quantum_eq, h.executed_le⟩
  · obtain rfl := h.quantum_eq
    rw [hstep, rrDispatch_eq]
    refine ⟨rfl, fun x hx => ?_⟩
    rcases List.mem_append.mp hx with hx | hx
    · exact h.executed_le x hx
    · rw [List.mem_singleton.mp hx]
      exact min_le_right _ _

end SlicesWithin

theorem exists_serialSlice {p : Process} {ps : List Process} (h : p ∈ ps) (time : Int) :
    ∃ x ∈ serialSlices time ps, x.executed = p.burstTime := by
  induction ps generalizing time with
  | nil => exact absurd h List.not_mem_nil
  | cons q ps ih =>
    rcases List.mem_cons.mp h with rfl | h
    · exact ⟨_, List.mem_cons_self, rfl⟩
    · obtain ⟨x, hx, he⟩ := ih h (time + q.burstTime)
      exact ⟨x, List.mem_cons_of_mem _ hx, he⟩

theorem FifoRun.exists_slice {calls : List SchedulerCall} {f : Scheduler .fifo}
    (h : FifoRun (calls ++ [.run]) f) (hpids : ((addedProcesses calls).map Prod.fst).Nodup)
    {a : Int × Int} (ha : a ∈ admittedProcesses calls) : ∃ x ∈ f.slices, x.executed = a.2 := by
  obtain ⟨s, hs, fuel, hf⟩ := CallRun.run_inv h
  obtain ⟨done, rest, hinv⟩ := FifoRun.invariant hs hpids
  have hserial := (hinv.returned ⟨fuel, hf⟩).serial
  rw [hserial.slices_eq]
  exact exists_serialSlice (List.mem_map_of_mem ha) 0

theorem LinkedList.Ordered.eq_of_perm {list list' : LinkedList} (h : list.Ordered)
    (h' : list'.Ordered) (hperm : list.head.Perm list'.head)
    (hpids : (list.head.map LLNode.pid).Nodup) : list = list' := by
  have hhead : list.head = list'.head := by
    refine hperm.eq_of_pairwise ?_ h.sorted h'.sorted
    intro x y hx hy hxy hyx
    exact List.inj_on_of_nodup_map hpids hx (hperm.mem_iff.mpr hy) (le_antisymm hxy hyx)
  have hsize : list.size = list'.size := by rw [h.size_eq, h'.size_eq, hhead]
  obtain ⟨head, size⟩ := list
  obtain ⟨head', size'⟩ := list'
  rw [LinkedList.mk.injEq]
  exact ⟨hhead, hsize⟩

namespace Tidy

variable {type type' : SchedulerType} {s : Scheduler type} {t : Scheduler type'}

/-- What the order of the processes leaves open, the invariant decides. -/
theorem sameRecord {s₀ : Scheduler type} {t₀ : Scheduler type'} {ps : List Process} (hs : Tidy s)
    (ht : Tidy t) (hs₀ : Serial s₀ s ps []) (ht₀ : Serial t₀ t ps []) (hstart : SameRecord s₀ t₀)
    (hempty : t₀.finishedList.head = []) (hpids : (ps.map Process.pid).Nodup) : SameRecord s t := by
  have hperm := hs₀.finished_perm
  have hperm' := ht₀.finished_perm
  rw [hstart.finished_eq, hempty, List.append_nil] at hperm
  rw [hempty, List.append_nil] at hperm'
  have hnodup : (s.finishedList.head.map LLNode.pid).Nodup := by
    have hp := hperm.map LLNode.pid
    rw [List.map_map] at hp
    exact hp.nodup_iff.mpr hpids
  constructor
  case processes_eq => rw [hs₀.processes_eq, ht₀.processes_eq]
  case time_eq => rw [hs₀.time_eq, ht₀.time_eq, hstart.time_eq]
  case completed_eq => rw [hs₀.completed_eq, ht₀.completed_eq, hstart.completed_eq]
  case finished_eq =>
    exact hs.finished_ordered.eq_of_perm ht.finished_ordered (hperm.trans hperm'.symm) hnodup
  case history_eq =>
    have htop : s.history.top = t.history.top := by
      rw [hs₀.history_eq, ht₀.history_eq, hstart.history_eq]
    have hsize : s.history.size = t.history.size := by
      rw [hs.history_size, ht.history_size, htop]
    cases hs' : s.history with
    | mk top size =>
      cases ht' : t.history with
      | mk top' size' =>
        rw [hs', ht'] at htop hsize
        rw [Stack.mk.injEq]
        exact ⟨htop, hsize⟩
  case slices_eq => rw [hs₀.slices_eq, ht₀.slices_eq, hstart.slices_eq, hstart.time_eq]

end Tidy

/-- The additions in the order in which SJF serves them. -/
def byBurst (adds : List (Int × Int)) : List (Int × Int) := adds.mergeSort (fun a b => a.2 ≤ b.2)

theorem map_byBurst (adds : List (Int × Int)) :
    (byBurst adds).map added = (adds.map added).mergeSort burstLE :=
  List.map_mergeSort (fun _ _ _ _ => rfl)

/-- `simulate_sjf` of the validation script. -/
def simulateSjf (processes : List (Int × Int)) : Int := ((byBurst processes).map Prod.snd).sum

/-- One SJF run leaves the record of a FIFO run over the same processes, added by burst
time and among equal bursts in the old order; it takes as long as the script says. -/
theorem sjf_eq_fifo_byBurst {adds : List (Int × Int)} (hlen : adds.length ≤ maxProcesses)
    (hpids : (adds.map Prod.fst).Nodup) :
    ∃ s t fuel, schedulerRunSjf (addAll schedulerCreateSjf adds) = some s ∧
      schedulerRun fuel (addAll schedulerCreateFifo (byBurst adds)) = some t ∧ SameRecord s t ∧
      s.currentTime = simulateSjf adds := by
  have hperm : (byBurst adds).Perm adds := List.mergeSort_perm _ _
  have hpids' : ((byBurst adds).map Prod.fst).Nodup := (hperm.map Prod.fst).nodup_iff.mpr hpids
  obtain ⟨s, hrun, hs⟩ := schedulerRunSjf_serial hlen
  obtain ⟨fuel, t, hrun', ht⟩ := schedulerRun_serial (hperm.length_eq.le.trans hlen) hpids'
  rw [← map_byBurst] at hs
  have hs' : Tidy s :=
    Tidy.schedulerRunSjf (Tidy.addAll ⟨LinkedList.create_ordered, rfl⟩ adds) hrun
  have ht' : Tidy t :=
    Tidy.schedulerRun (Tidy.addAll ⟨LinkedList.create_ordered, rfl⟩ (byBurst adds)) hrun'
  refine ⟨s, t, fuel, hrun, hrun',
    hs'.sameRecord ht' hs ht ⟨rfl, rfl, rfl, rfl, rfl, rfl⟩ rfl ?_, ?_⟩
  · rw [List.map_map]
    exact hpids'
  · rw [hs.time_eq, List.map_map]
    exact Int.zero_add _

theorem sjf_eq_fifo_byBurst_example :
    ∃ s t fuel, schedulerRunSjf (addAll schedulerCreateSjf [(1, 5), (2, 0), (3, 5)]) = some s ∧
      schedulerRun fuel (addAll schedulerCreateFifo (byBurst [(1, 5), (2, 0), (3, 5)])) = some t ∧
      SameRecord s t ∧ s.currentTime = simulateSjf [(1, 5), (2, 0), (3, 5)] :=
  sjf_eq_fifo_byBurst (by decide) (by decide)

end MiniOS
