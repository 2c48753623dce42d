import MiniOS.SchedulerApi
import MiniOS.FifoRuns

/-! A FIFO scheduler whose processes are executed by `scheduler_run`, which may be
observed in the middle of its loop, or taken out of the queue by `scheduler_next`.
Additions, runs and `scheduler_next` interleave in any order: processes leave in the
order of admission, each once, and the bookkeeping counts the executed ones. -/

namespace MiniOS

open WhileLoop

def ApiCall.offer : ApiCall → Option Process
  | .addProcessFull p => some p
  | _ => none

def offers (calls : List ApiCall) : List Process := calls.filterMap ApiCall.offer

/-- What `scheduler_next` returned while the queue was not empty. -/
def handedOut (outs : List (Option Int)) : List Int := (outs.filterMap id).filter (fun pid => pid ≠ -1)

/-- A process that left the queue, executed by a run or handed to the caller. -/
structure Departure where
  process : Process
  executed : Bool
  deriving DecidableEq, Repr

namespace Departure

/-- The record of the process in the array afterwards. -/
def outcome (d : Departure) : Process := if d.executed then d.process.complete else d.process

@[simp] theorem outcome_pid (d : Departure) : d.outcome.pid = d.process.pid := by
  by_cases h : d.executed = true <;> simp [outcome, h, Process.complete]

end Departure

def executed (departed : List Departure) : List Process :=
  (departed.filter (fun d => d.executed)).map Departure.process

def handedOver (departed : List Departure) : List Process :=
  (departed.filter (fun d => !d.executed)).map Departure.process

theorem handedOver_append (ds es : List Departure) :
    handedOver (ds ++ es) = handedOver ds ++ handedOver es := by
  simp [handedOver]

/-- `departed` left the queue in this order; `waiting` are still in it. -/
structure FifoServed (offered : List Process) (departed : List Departure) (waiting : List Process)
    (s : Scheduler .fifo) : Prop where
  admitted_eq : offered.take maxProcesses = departed.map Departure.process ++ waiting
  processes_eq : s.processes = departed.map Departure.outcome ++ waiting
  queue_eq : s.queue.front = waiting.map Process.pid
  time_eq : s.currentTime = ((executed departed).map Process.burstTime).sum
  completed_eq : s.completed = (executed departed).length
  history_eq : s.history.top = ((executed departed).map Process.pid).reverse
  finished_ordered : s.finishedList.Ordered
  finished_perm : s.finishedList.head.Perm ((executed departed).map Process.node)
  slices_eq : s.slices = serialSlices 0 (executed departed)

namespace FifoServed

variable {offered : List Process} {departed : List Departure} {waiting : List Process} {p : Process}
  {s t : Scheduler .fifo}

theorem create : FifoServed [] [] [] schedulerCreateFifo where
  admitted_eq := rfl
  processes_eq := rfl
  queue_eq := rfl
  time_eq := rfl
  completed_eq := rfl
  history_eq := rfl
  finished_ordered := LinkedList.create_ordered
  finished_perm := List.Perm.refl _
  slices_eq := rfl

theorem processes_length (h : FifoServed offered departed waiting s) :
    s.processes.length = (offered.take maxProcesses).length := by
  rw [h.processes_eq, h.admitted_eq, List.length_append, List.length_append, List.length_map,
    List.length_map]

theorem add (h : FifoServed offered departed waiting s) (p : Process) :
    ∃ waiting', FifoServed (offered ++ [p]) departed waiting' (schedulerAddProcessFull s p) := by
  have hlen := h.processes_length
  rw [List.length_take] at hlen
  by_cases hfull : s.processes.length ≥ maxProcesses
  · have htake : (offered ++ [p]).take maxProcesses = offered.take maxProcesses :=
      List.take_append_of_le_length (by omega)
    rw [schedulerAddProcessFull, if_pos hfull]
    exact ⟨waiting, { h with admitted_eq := htake.trans h.admitted_eq }⟩
  · have hshort : (offered ++ [p]).length ≤ maxProcesses := by
      rw [List.length_append, List.length_singleton]
      omega
    rw [schedulerAddProcessFull, if_neg hfull]
    refine ⟨waiting ++ [p], { h with admitted_eq := ?_, processes_eq := ?_, queue_eq := ?_ }⟩
    · have hadm := h.admitted_eq
      rw [List.take_of_length_le (by omega)] at hadm
      rw [List.take_of_length_le hshort, hadm, List.append_assoc]
    · show s.processes ++ [p] = _
      rw [h.processes_eq, List.append_assoc]
    · show s.queue.front ++ [p.pid] = _
      rw [h.queue_eq, List.map_append]
      rfl

theorem dequeue_eq (h : FifoServed offered departed (p :: waiting) s) :
    (dequeue s.queue).1 = p.pid ∧ (dequeue s.queue).2.front = waiting.map Process.pid := by
  simp [dequeue, h.queue_eq]

/-- `scheduler_next` takes the process out of the queue and leaves its record. -/
theorem hand (h : FifoServed offered departed (p :: waiting) s) :
    FifoServed offered (departed ++ [⟨p, false⟩]) waiting
      { s with queue := (dequeue s.queue).2 } := by
  have hexec : executed (departed ++ [⟨p, false⟩]) = executed departed := by simp [executed]
  constructor
  case admitted_eq => rw [h.admitted_eq, List.map_append, List.append_assoc]; rfl
  case processes_eq =>
    show s.processes = _
    rw [h.processes_eq, List.map_append, List.append_assoc]
    rfl
  case queue_eq => exact h.dequeue_eq.2
  case finished_ordered => exact h.finished_ordered
  case time_eq => rw [hexec]; exact h.time_eq
  case completed_eq => rw [hexec]; exact h.completed_eq
  case history_eq => rw [hexec]; exact h.history_eq
  case finished_perm => rw [hexec]; exact h.finished_perm
  case slices_eq => rw [hexec]; exact h.slices_eq

def cursor (h : FifoServed offered departed (p :: waiting) s) : Cursor s.processes :=
  ⟨departed.map Departure.outcome, p, waiting, h.processes_eq.symm⟩

theorem fifoStep_eq (h : FifoServed offered departed (p :: waiting) s)
    (hpids : (offered.map Process.pid).Nodup) :
    fifoStep s = runToCompletion { s with queue := (dequeue s.queue).2 } h.cursor := by
  have hnd : ((offered.take maxProcesses).map Process.pid).Nodup :=
    hpids.sublist ((List.take_sublist _ _).map _)
  rw [h.admitted_eq, List.map_append, List.map_cons, List.nodup_append] at hnd
  have hfirst : Cursor.first (fun x => x.pid == p.pid) s.processes = some h.cursor := by
    apply Cursor.first_eq_some
    · exact beq_self_eq_true p.pid
    · intro x hx
      obtain ⟨d, hd, rfl⟩ := List.mem_map.mp hx
      rw [d.outcome_pid]
      have hmem := List.mem_map_of_mem (f := Process.pid)
        (List.mem_map_of_mem (f := Departure.process) hd)
      exact beq_eq_false_iff_ne.mpr (hnd.2.2 _ hmem _ List.mem_cons_self)
  rcases fifoStep_cases s with ⟨hnone, -⟩ | ⟨c, hc, hstep⟩
  · rw [h.dequeue_eq.1] at hnone
    exact absurd (hnone.symm.trans hfirst) (by simp)
  · rw [h.dequeue_eq.1] at hc
    rw [hstep, Option.some.inj (hc.symm.trans hfirst)]

theorem step (h : FifoServed offered departed (p :: waiting) s)
    (hpids : (offered.map Process.pid).Nodup) :
    FifoServed offered (departed ++ [⟨p, true⟩]) waiting (fifoStep s) := by
  have hexec : executed (departed ++ [⟨p, true⟩]) = executed departed ++ [p] := by simp [executed]
  rw [h.fifoStep_eq hpids]
  constructor
  case admitted_eq => rw [h.admitted_eq, List.map_append, List.append_assoc]; rfl
  case processes_eq =>
    rw [List.map_append, List.append_assoc]
    exact Cursor.replace_singleton h.cursor _
  case queue_eq => exact h.dequeue_eq.2
  case time_eq =>
    rw [hexec, List.map_append, List.sum_append, ← h.time_eq, List.map_singleton,
      List.sum_singleton]
    rfl
  case completed_eq =>
    rw [hexec, List.length_append, Int.natCast_add, ← h.completed_eq]
    rfl
  case history_eq =>
    rw [hexec, List.map_append, List.reverse_append, ← h.history_eq]
    rfl
  case finished_ordered => exact h.finished_ordered.insert p.pid p.burstTime
  case finished_perm =>
    rw [hexec, List.map_append]
    have hi := LinkedList.insert_perm s.finishedList p.pid p.burstTime
    exact (hi.trans (h.finished_perm.cons _)).trans (List.perm_append_singleton _ _).symm
  case slices_eq =>
    rw [hexec, serialSlices_append, ← h.slices_eq, ← h.time_eq.trans (zero_add _).symm]
    rfl

/-- However far the loop got, the processes it took were executed. -/
theorem run (h : FifoServed offered departed waiting s) (hpids : (offered.map Process.pid).Nodup)
    (n : Nat) : ∃ new waiting', handedOver new = [] ∧
      FifoServed offered (departed ++ new) waiting' (after fifoWaiting fifoStep n s) := by
  induction n generalizing departed waiting s with
  | zero => exact ⟨[], waiting, rfl, by rwa [List.append_nil]⟩
  | succ n ih =>
    cases waiting with
    | nil =>
      have hw : ¬ fifoWaiting s = true := by simp [fifoWaiting, queueIsEmpty, h.queue_eq]
      rw [after, if_neg hw]
      exact ⟨[], [], rfl, by rwa [List.append_nil]⟩
    | cons p waiting =>
      have hw : fifoWaiting s = true := by simp [fifoWaiting, queueIsEmpty, h.queue_eq]
      obtain ⟨new, waiting', hnew, hend⟩ := ih (h.step hpids)
      rw [after, if_pos hw]
      rw [List.append_assoc] at hend
      exact ⟨[⟨p, true⟩] ++ new, waiting', by rw [handedOver_append, hnew]; rfl, hend⟩

theorem call {call : ApiCall} {out : Option Int} (h : FifoServed offered departed waiting s)
    (hcall : call ≠ .runSjf) (hexec : call.exec s = some (out, t))
    (hpids : ((offered ++ call.offer.toList).map Process.pid).Nodup)
    (hsentinel : -1 ∉ (offered ++ call.offer.toList).map Process.pid) :
    ∃ new waiting', handedOut [out] = (handedOver new).map Process.pid ∧
      FifoServed (offered ++ call.offer.toList) (departed ++ new) waiting' t := by
  cases call with
  | addProcessFull p =>
    obtain ⟨rfl, rfl⟩ := Prod.mk.inj (Option.some.inj hexec)
    obtain ⟨waiting', hadd⟩ := h.add p
    exact ⟨[], waiting', rfl, by rwa [List.append_nil]⟩
  | next =>
    cases waiting with
    | nil =>
      have hempty : queueIsEmpty s.queue = true := by simp [queueIsEmpty, h.queue_eq]
      simp only [ApiCall.exec, schedulerNext, if_pos hempty, Option.map_some] at hexec
      obtain ⟨rfl, rfl⟩ := Prod.mk.inj (Option.some.inj hexec)
      exact ⟨[], [], rfl, by simpa [ApiCall.offer] using h⟩
    | cons p waiting =>
      have hne : ¬ queueIsEmpty s.queue = true := by simp [queueIsEmpty, h.queue_eq]
      simp only [ApiCall.exec, schedulerNext, if_neg hne, Option.map_some] at hexec
      obtain ⟨rfl, rfl⟩ := Prod.mk.inj (Option.some.inj hexec)
      have hp : p.pid ≠ -1 := by
        have hmem : p ∈ offered := by
          apply List.mem_of_mem_take (i := maxProcesses)
          rw [h.admitted_eq]
          exact List.mem_append_right _ List.mem_cons_self
        exact fun he => hsentinel (he ▸ List.mem_map_of_mem (List.mem_append_left _ hmem))
      refine ⟨[⟨p, false⟩], waiting, ?_, by simpa [ApiCall.offer] using h.hand⟩
      simp [handedOut, handedOver, h.dequeue_eq.1, hp]
  | run n =>
    obtain ⟨rfl, rfl⟩ := Prod.mk.inj (Option.some.inj hexec)
    simp only [ApiCall.offer, Option.toList_none, List.append_nil] at hpids ⊢
    obtain ⟨new, waiting', hnew, hend⟩ := h.run hpids n
    exact ⟨new, waiting', by rw [hnew]; rfl, hend⟩
  | runRr n => simp [ApiCall.exec, runRrAny] at hexec
  | runSjf => exact absurd rfl hcall

theorem calls {calls : List ApiCall} {outs : List (Option Int)}
    (h : FifoServed offered departed waiting s) (hcalls : ApiCall.runSjf ∉ calls)
    (hrun : Simulation.run ApiCall.exec calls s = some (outs, t))
    (hpids : ((offered ++ offers calls).map Process.pid).Nodup)
    (hsentinel : -1 ∉ (offered ++ offers calls).map Process.pid) :
    ∃ new waiting', handedOut outs = (handedOver new).map Process.pid ∧
      FifoServed (offered ++ offers calls) (departed ++ new) waiting' t := by
  induction calls generalizing offered departed waiting s outs with
  | nil =>
    obtain ⟨rfl, rfl⟩ := Prod.mk.inj (Option.some.inj hrun)
    exact ⟨[], waiting, rfl, by simpa [offers] using h⟩
  | cons call calls ih =>
    have hoffers : offers (call :: calls) = call.offer.toList ++ offers calls := by
      rw [offers, offers, List.filterMap_cons]
      cases call.offer <;> rfl
    rw [hoffers, ← List.append_assoc] at hpids hsentinel ⊢
    rw [List.mem_cons, not_or] at hcalls
    simp only [Simulation.run, Option.bind_eq_bind] at hrun
    obtain ⟨⟨out, u⟩, hcall, hrun⟩ := Option.bind_eq_some_iff.mp hrun
    obtain ⟨⟨outs', u'⟩, hrest, hrun⟩ := Option.bind_eq_some_iff.mp hrun
    obtain ⟨rfl, rfl⟩ := Prod.mk.inj (Option.some.inj hrun)
    have hpids' := hpids
    rw [List.map_append, List.nodup_append] at hpids'
    have hsentinel' := hsentinel
    rw [List.map_append, List.mem_append, not_or] at hsentinel'
    obtain ⟨new, waiting', hnew, hnext⟩ := h.call (Ne.symm hcalls.1) hcall hpids'.1 hsentinel'.1
    obtain ⟨new', waiting'', hnew', hend⟩ := ih hnext hcalls.2 hrest hpids hsentinel
    rw [List.append_assoc departed] at hend
    refine ⟨new ++ new', waiting'', ?_, hend⟩
    have houts : handedOut (out :: outs') = handedOut [out] ++ handedOut outs' := by
      simp only [handedOut, ← List.filter_append, ← List.filterMap_append]
      rfl
    rw [houts, hnew, hnew', handedOver_append, List.map_append]

end FifoServed

/-- Whatever the order of additions, `scheduler_next` and interrupted runs, the
processes leave in the order of admission, each once: those the caller was handed were
never executed, and the clock, the counter, the history, the list and the rows account
for the executed ones. -/
theorem fifo_service {calls : List ApiCall} {outs : List (Option Int)} {s : Scheduler .fifo}
    (hcalls : ApiCall.runSjf ∉ calls)
    (hrun : Simulation.run ApiCall.exec calls schedulerCreateFifo = some (outs, s))
    (hpids : ((offers calls).map Process.pid).Nodup)
    (hsentinel : -1 ∉ (offers calls).map Process.pid) :
    ∃ departed waiting, FifoServed (offers calls) departed waiting s ∧
      handedOut outs = (handedOver departed).map Process.pid := by
  obtain ⟨departed, waiting, hout, hserved⟩ := FifoServed.create.calls hcalls hrun hpids hsentinel
  exact ⟨departed, waiting, hserved, hout⟩

theorem fifo_service_example :
    let p : Process := processCreate 7 5 0 0
    let q : Process := processCreate 3 2 1 64
    ∃ outs s, Simulation.run ApiCall.exec [.addProcessFull p, .addProcessFull q, .next, .run 1, .next]
        schedulerCreateFifo = some (outs, s) ∧
      ∃ departed waiting, FifoServed [p, q] departed waiting s ∧
        handedOut outs = (handedOver departed).map Process.pid := by
  intro p q
  obtain ⟨⟨outs, s⟩, hrun⟩ : ∃ r, Simulation.run ApiCall.exec
      [.addProcessFull p, .addProcessFull q, .next, .run 1, .next] schedulerCreateFifo = some r :=
    Option.isSome_iff_exists.mp (by decide)
  exact ⟨outs, s, hrun, fifo_service (by decide) hrun (by decide) (by decide)⟩

end MiniOS
