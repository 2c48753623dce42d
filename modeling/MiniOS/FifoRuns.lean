import MiniOS.SerialRuns
import Mathlib.Data.List.Induction

/-! Interleavings of additions and FIFO runs against the reference simulation of
the validation script. The loop may stop and go on after further additions: the
executed processes and those still queued together are always the admitted ones
in order of admission. -/

namespace MiniOS

open WhileLoop

/-- One entry of the list `simulate_fifo` returns. -/
structure FifoResult where
  pid : Int
  start : Int
  finish : Int
  deriving DecidableEq, Repr

/-- `simulate_fifo`: the fold keeps `time` and `results`. -/
def simulateFifo (processes : List (Int × Int)) : List FifoResult :=
  (processes.foldl (fun acc p => (acc.1 + p.2, acc.2 ++ [⟨p.1, acc.1, acc.1 + p.2⟩])) (0, [])).2

def Slice.result (x : Slice) : FifoResult := ⟨x.pid, x.start, x.finish⟩

theorem simulateFifo_eq (processes : List (Int × Int)) :
    simulateFifo processes = (serialSlices 0 (processes.map added)).map Slice.result := by
  have hfold : ∀ (ps : List (Int × Int)) (time : Int) (results : List FifoResult),
      (ps.foldl (fun acc p => (acc.1 + p.2, acc.2 ++ [(⟨p.1, acc.1, acc.1 + p.2⟩ : FifoResult)]))
        (time, results)).2 = results ++ (serialSlices time (ps.map added)).map Slice.result := by
    intro ps
    induction ps with
    | nil => simp [serialSlices]
    | cons p ps ih =>
      intro time results
      rw [List.foldl_cons, ih, List.map_cons, serialSlices, List.map_cons, List.append_assoc]
      rfl
  simpa [simulateFifo] using hfold processes 0 []

def SchedulerCall.addition : SchedulerCall → Option (Int × Int)
  | .add pid burstTime => some (pid, burstTime)
  | .run => none

def addedProcesses (calls : List SchedulerCall) : List (Int × Int) :=
  calls.filterMap SchedulerCall.addition

/-- The additions the process array had room for. -/
def admittedProcesses (calls : List SchedulerCall) : List (Int × Int) :=
  (addedProcesses calls).take maxProcesses

/-- Between two iterations or two calls: `done` were executed, `rest` wait. -/
structure FifoInvariant (admitted : List (Int × Int)) (s : Scheduler .fifo)
    (done rest : List (Int × Int)) : Prop where
  admitted_eq : admitted = done ++ rest
  distinct : (admitted.map Prod.fst).Nodup
  serial : Serial schedulerCreateFifo s (done.map added) (rest.map added)
  queue_eq : s.queue.front = rest.map Prod.fst
  finished_ordered : s.finishedList.Ordered

namespace FifoInvariant

variable {adm done rest : List (Int × Int)} {s t : Scheduler .fifo}

theorem create : FifoInvariant [] schedulerCreateFifo [] [] where
  admitted_eq := rfl
  distinct := List.nodup_nil
  serial := Serial.start _
  queue_eq := rfl
  finished_ordered := LinkedList.create_ordered

theorem processes_length (h : FifoInvariant adm s done rest) : s.processes.length = adm.length := by
  rw [h.serial.processes_eq, h.admitted_eq]
  simp

theorem waits_iff (h : FifoInvariant adm s done rest) : fifoWaiting s = true ↔ rest ≠ [] := by
  simp [fifoWaiting, queueIsEmpty, h.queue_eq]

theorem add (h : FifoInvariant adm s done rest) {pid burstTime : Int}
    (hroom : adm.length < maxProcesses) (hnew : pid ∉ adm.map Prod.fst) :
    FifoInvariant (adm ++ [(pid, burstTime)]) (schedulerAddProcess s pid burstTime) done
      (rest ++ [(pid, burstTime)]) := by
  have hadd : schedulerAddProcess s pid burstTime = { s with
      processes := s.processes ++ [added (pid, burstTime)]
      queue := enqueue s.queue pid } :=
    schedulerAddProcess_of_room (by rwa [h.processes_length]) pid burstTime
  rw [hadd]
  constructor
  case admitted_eq => rw [h.admitted_eq, List.append_assoc]
  case distinct =>
    have hd := h.distinct.concat hnew
    rw [List.concat_eq_append] at hd
    rw [List.map_append]
    exact hd
  case serial =>
    have hs := h.serial
    refine ⟨?_, hs.time_eq, hs.completed_eq, hs.finished_perm, hs.history_eq, hs.slices_eq⟩
    simp only [hs.processes_eq, List.map_append, List.append_assoc, List.map_singleton]
  case queue_eq =>
    show s.queue.front ++ [pid] = _
    rw [h.queue_eq, List.map_append]
    rfl
  case finished_ordered => exact h.finished_ordered

theorem fifoStep_ordered (h : s.finishedList.Ordered) : (fifoStep s).finishedList.Ordered := by
  rcases fifoStep_cases s with ⟨-, hstep⟩ | ⟨c, -, hstep⟩
  · rw [hstep]
    exact h
  · rw [hstep]
    exact h.insert c.item.pid c.item.burstTime

theorem step {a : Int × Int} (h : FifoInvariant adm s done (a :: rest)) :
    FifoInvariant adm (fifoStep s) (done ++ [a]) rest := by
  have hpids : ((done.map added ++ added a :: rest.map added).map Process.pid).Nodup := by
    have hd := h.distinct
    rw [h.admitted_eq] at hd
    simpa [added, processCreate, Function.comp_def] using hd
  have hqueue : s.queue.front = (added a :: rest.map added).map Process.pid := by
    rw [h.queue_eq]
    simp [added, processCreate]
  obtain ⟨hserial, hfront⟩ := h.serial.fifoStep_eq hqueue hpids
  constructor
  case admitted_eq => rw [h.admitted_eq, List.append_cons]
  case distinct => exact h.distinct
  case serial => simpa using hserial
  case queue_eq => simpa [added, processCreate, Function.comp_def] using hfront
  case finished_ordered => exact fifoStep_ordered h.finished_ordered

theorem step_rest (h : FifoInvariant adm s done rest) (hw : fifoWaiting s = true) :
    ∃ r : List (Int × Int) × List (Int × Int), FifoInvariant adm (fifoStep s) r.1 r.2 ∧
      r.2.length < rest.length := by
  cases rest with
  | nil => exact absurd rfl (h.waits_iff.mp hw)
  | cons a rest => exact ⟨(done ++ [a], rest), h.step, Nat.lt_succ_self _⟩

theorem returns (h : FifoInvariant adm s done rest) : ∃ t, Returns fifoWaiting fifoStep s t := by
  have hstep : ∀ (r : Scheduler .fifo) (g : List (Int × Int) × List (Int × Int)),
      FifoInvariant adm r g.1 g.2 → fifoWaiting r = true →
      ∃ g' : List (Int × Int) × List (Int × Int), FifoInvariant adm (fifoStep r) g'.1 g'.2 ∧
        g'.2.length < g.2.length := fun _ _ hr hw => hr.step_rest hw
  obtain ⟨t, -, ht, -⟩ := returns_of_variant (fun g => g.2.length) hstep (g := (done, rest)) h
  exact ⟨t, ht⟩

theorem returned (h : FifoInvariant adm s done rest) (ht : Returns fifoWaiting fifoStep s t) :
    FifoInvariant adm t adm [] := by
  obtain ⟨hhead, hf⟩ := ht.head
  have hstep : ∀ r, (∃ g : List (Int × Int) × List (Int × Int), FifoInvariant adm r g.1 g.2) →
      fifoWaiting r = true → ∃ g : List (Int × Int) × List (Int × Int),
        FifoInvariant adm (fifoStep r) g.1 g.2 := by
    intro r ⟨g, hr⟩ hc
    obtain ⟨g', hg', -⟩ := hr.step_rest hc
    exact ⟨g', hg'⟩
  obtain ⟨⟨d, r⟩, hinv⟩ := hhead.invariant hstep ⟨(done, rest), h⟩
  have hnil : r = [] := by
    by_contra hne
    simp [hinv.waits_iff.mpr hne] at hf
  obtain rfl := hnil
  have hadm : adm = d := by simpa using hinv.admitted_eq
  exact hadm ▸ hinv

end FifoInvariant

theorem FifoRun.invariant {calls : List SchedulerCall} {s : Scheduler .fifo} (h : FifoRun calls s)
    (hpids : ((addedProcesses calls).map Prod.fst).Nodup) :
    ∃ done rest, FifoInvariant (admittedProcesses calls) s done rest := by
  induction h with
  | create => exact ⟨[], [], FifoInvariant.create⟩
  | @add calls s pid burstTime _ ih =>
    have hadds : addedProcesses (calls ++ [.add pid burstTime]) =
        addedProcesses calls ++ [(pid, burstTime)] := by
      rw [addedProcesses, List.filterMap_append]
      rfl
    rw [hadds, List.map_append, List.map_singleton, List.nodup_append] at hpids
    obtain ⟨done, rest, hinv⟩ := ih hpids.1
    have hlen := hinv.processes_length
    rw [admittedProcesses, List.length_take] at hlen
    rw [admittedProcesses, hadds]
    by_cases hfull : (addedProcesses calls).length < maxProcesses
    · have hall : admittedProcesses calls = addedProcesses calls := List.take_of_length_le hfull.le
      rw [List.take_of_length_le (by rw [List.length_append, List.length_singleton]; omega), ← hall]
      rw [← hall] at hpids hfull
      exact ⟨_, _, hinv.add hfull (fun hmem => hpids.2.2 _ hmem _ List.mem_cons_self rfl)⟩
    · rw [List.take_append_of_le_length (by omega), schedulerAddProcess_of_full (by omega)]
      exact ⟨done, rest, hinv⟩
  | @run calls s t _ hran ih =>
    have hadds : addedProcesses (calls ++ [.run]) = addedProcesses calls := by
      rw [addedProcesses, List.filterMap_append]
      exact List.append_nil _
    rw [hadds] at hpids
    obtain ⟨done, rest, hinv⟩ := ih hpids
    rw [admittedProcesses, hadds]
    exact ⟨_, [], hinv.returned hran⟩

/-- What a FIFO scheduler shows once all of `admitted` were executed. -/
structure FifoDone (admitted : List (Int × Int)) (t : Scheduler .fifo) : Prop where
  slices_eq : t.slices.map Slice.result = simulateFifo admitted
  starts : ∀ before a after, admitted = before ++ a :: after →
    (simulateFifo admitted)[before.length]? =
      some ⟨a.1, (before.map Prod.snd).sum, (before.map Prod.snd).sum + a.2⟩
  identity : t.processes.map (fun p => (p.pid, p.burstTime)) = admitted
  finished : ∀ p ∈ t.processes, p.state = .finished ∧ p.remainingTime = 0
  completed_eq : t.completed = t.processes.length
  time_eq : t.currentTime = (admitted.map Prod.snd).sum
  history_eq : t.history.top = (admitted.map Prod.fst).reverse
  finished_eq : t.finishedList.head =
    (admitted.map (fun a => (⟨a.1, a.2⟩ : LLNode))).mergeSort (fun a b => a.pid ≤ b.pid)

theorem length_serialSlices (time : Int) (ps : List Process) :
    (serialSlices time ps).length = ps.length := by
  induction ps generalizing time with
  | nil => rfl
  | cons p ps ih => rw [serialSlices, List.length_cons, ih, List.length_cons]

theorem simulateFifo_start (before after : List (Int × Int)) (a : Int × Int) :
    (simulateFifo (before ++ a :: after))[before.length]? =
      some ⟨a.1, (before.map Prod.snd).sum, (before.map Prod.snd).sum + a.2⟩ := by
  have hlen : ((serialSlices 0 (before.map added)).map Slice.result).length = before.length := by
    rw [List.length_map, length_serialSlices, List.length_map]
  have hsum : ((before.map added).map Process.burstTime).sum = (before.map Prod.snd).sum := by
    rw [List.map_map]
    rfl
  rw [simulateFifo_eq, List.map_append, serialSlices_append, List.map_append,
    List.getElem?_append_right hlen.le, hlen, Nat.sub_self, hsum, zero_add]
  rfl

theorem FifoInvariant.finished_eq {adm : List (Int × Int)} {t : Scheduler .fifo}
    (h : FifoInvariant adm t adm []) : t.finishedList.head =
      (adm.map (fun a => (⟨a.1, a.2⟩ : LLNode))).mergeSort (fun a b => a.pid ≤ b.pid) := by
  have hperm : t.finishedList.head.Perm (adm.map (fun a => (⟨a.1, a.2⟩ : LLNode))) := by
    have hp := h.serial.finished_perm
    rw [List.map_map] at hp
    exact hp.trans (List.Perm.of_eq (List.append_nil _))
  have hsorted : ((adm.map (fun a => (⟨a.1, a.2⟩ : LLNode))).mergeSort
      (fun a b => a.pid ≤ b.pid)).Pairwise (fun a b => a.pid ≤ b.pid) := by
    have htrans : ∀ a b c : LLNode, decide (a.pid ≤ b.pid) → decide (b.pid ≤ c.pid) →
        decide (a.pid ≤ c.pid) := by
      intro a b c hab hbc
      exact decide_eq_true ((of_decide_eq_true hab).trans (of_decide_eq_true hbc))
    have htotal : ∀ a b : LLNode, decide (a.pid ≤ b.pid) || decide (b.pid ≤ a.pid) := by
      intro a b
      simpa using le_total a.pid b.pid
    simpa using List.pairwise_mergeSort htrans htotal (adm.map (fun a => (⟨a.1, a.2⟩ : LLNode)))
  have hpids : (t.finishedList.head.map LLNode.pid).Nodup := by
    have hp := hperm.map LLNode.pid
    rw [List.map_map] at hp
    exact hp.nodup_iff.mpr h.distinct
  have hmerge := hperm.trans (List.mergeSort_perm _ (fun a b : LLNode => a.pid ≤ b.pid)).symm
  refine hmerge.eq_of_pairwise ?_ h.finished_ordered.sorted hsorted
  intro a b ha hb hab hba
  exact List.inj_on_of_nodup_map hpids ha (hmerge.mem_iff.mpr hb) (le_antisymm hab hba)

theorem FifoInvariant.fifoDone {adm : List (Int × Int)} {t : Scheduler .fifo}
    (h : FifoInvariant adm t adm []) : FifoDone adm t := by
  have hs := h.serial
  have hprocs : t.processes = (adm.map added).map Process.complete := by
    rw [hs.processes_eq]
    exact List.append_nil _
  constructor
  case slices_eq =>
    rw [hs.slices_eq, simulateFifo_eq]
    rfl
  case starts =>
    intro before a after he
    rw [he]
    exact simulateFifo_start before after a
  case identity =>
    rw [hprocs, List.map_map, List.map_map]
    exact List.map_id _
  case finished =>
    intro p hp
    rw [hprocs] at hp
    obtain ⟨q, -, rfl⟩ := List.mem_map.mp hp
    exact ⟨rfl, rfl⟩
  case completed_eq =>
    rw [hs.completed_eq, hprocs, List.length_map, List.length_map, List.length_map]
    exact zero_add (adm.length : Int)
  case time_eq =>
    rw [hs.time_eq, List.map_map]
    exact zero_add (adm.map Prod.snd).sum
  case history_eq =>
    rw [hs.history_eq, List.map_map]
    exact List.append_nil _
  case finished_eq => exact h.finished_eq

theorem fifoRun_eq_reference {calls : List SchedulerCall} {s : Scheduler .fifo}
    (hrun : FifoRun calls s) (hpids : ((addedProcesses calls).map Prod.fst).Nodup) :
    (maxProcesses ≤ (addedProcesses calls).length →
      ∀ pid burstTime, schedulerAddProcess s pid burstTime = s) ∧
    (∃ fuel t, schedulerRun fuel s = some t) ∧
    ∀ fuel t, schedulerRun fuel s = some t → FifoDone (admittedProcesses calls) t := by
  obtain ⟨done, rest, hinv⟩ := FifoRun.invariant hrun hpids
  refine ⟨fun hfull pid burstTime => ?_, ?_, fun fuel t ht => ?_⟩
  · have hlen := hinv.processes_length
    rw [admittedProcesses, List.length_take, min_eq_left hfull] at hlen
    exact schedulerAddProcess_of_full hlen.ge pid burstTime
  · obtain ⟨t, fuel, ht⟩ := hinv.returns
    exact ⟨fuel, t, ht⟩
  · exact (hinv.returned ⟨fuel, ht⟩).fifoDone

theorem fifoRun_eq_reference_example :
    ∃ s, schedulerRun 2 (schedulerAddProcess (schedulerAddProcess schedulerCreateFifo 7 5) 3 0) =
        some s ∧
      (∃ fuel t, schedulerRun fuel (schedulerAddProcess s 9 4) = some t) ∧
      ∀ fuel t, schedulerRun fuel (schedulerAddProcess s 9 4) = some t →
        FifoDone [(7, 5), (3, 0), (9, 4)] t := by
  obtain ⟨s, hs⟩ : ∃ s, schedulerRun 2 (schedulerAddProcess (schedulerAddProcess schedulerCreateFifo
      7 5) 3 0) = some s := Option.isSome_iff_exists.mp (by decide)
  have hrun : FifoRun [.add 7 5, .add 3 0, .run, .add 9 4] (schedulerAddProcess s 9 4) :=
    (((CallRun.create.add 7 5).add 3 0).run ⟨2, hs⟩).add 9 4
  exact ⟨s, hs, (fifoRun_eq_reference hrun (by decide)).2⟩

end MiniOS
