import MiniOS.CircularQueueRuns
import MiniOS.QueueNodes
import MiniOS.SchedulerApi
import MiniOS.SerialRuns
import MiniOS.SortedListNodes
import MiniOS.StackNodes

/-! The schedulers on the heap: the queue, the list of finished processes and the
history are nodes, the Round Robin queue an array whose accesses are checked. No
result stands for a null pointer, a freed node or an access outside the array. -/

namespace MiniOS

open WhileLoop

abbrev NodeReadyQueue : SchedulerType → Type
  | .fifo => NodeQueue
  | .roundRobin => CircularQueue
  | .sjf => Unit

structure NodeScheduler (type : SchedulerType) where
  processes : List Process
  quantum : Int
  currentTime : Int
  completed : Int
  queue : NodeReadyQueue type
  finishedList : NodeList
  history : NodeStack
  slices : List Slice

namespace NodeReadyQueue

def create : (type : SchedulerType) → NodeReadyQueue type
  | .fifo => NodeQueue.queueCreate
  | .roundRobin => cqCreate maxProcesses
  | .sjf => ()

def add : (type : SchedulerType) → NodeReadyQueue type → Int → Option (NodeReadyQueue type)
  | .fifo, queue, pid => NodeQueue.enqueue queue pid
  | .roundRobin, queue, pid => cqEnqueueChecked queue pid
  | .sjf, queue, _ => some queue

/-- The nodes that are left; `cq_destroy` frees an array and a NULL queue is not destroyed. -/
def destroy : (type : SchedulerType) → NodeReadyQueue type → Option (SingleLinks.Heap Int)
  | .fifo, queue => NodeQueue.queueDestroy queue
  | .roundRobin, _ => some SingleLinks.Heap.empty
  | .sjf, _ => some SingleLinks.Heap.empty

def Refines : (type : SchedulerType) → NodeReadyQueue type → ReadyQueue type → Prop
  | .fifo, nodes, queue => NodeQueue.Refines nodes queue
  | .roundRobin, cells, queue => cells = queue ∧ CircularQueue.Valid queue
  | .sjf, _, _ => True

theorem Refines.add {type : SchedulerType} {nodes : NodeReadyQueue type} {queue : ReadyQueue type}
    (h : Refines type nodes queue) (pid : Int) :
    ∃ nodes', add type nodes pid = some nodes' ∧
      Refines type nodes' (ReadyQueue.add type queue pid) := by
  cases type with
  | fifo => exact NodeQueue.Refines.enqueue h pid
  | roundRobin =>
    obtain ⟨rfl, hvalid⟩ := h
    exact ⟨_, hvalid.enqueueChecked pid, rfl, (hvalid.enqueue pid).1⟩
  | sjf => exact ⟨nodes, rfl, trivial⟩

theorem Refines.destroy {type : SchedulerType} {nodes : NodeReadyQueue type}
    {queue : ReadyQueue type} (h : Refines type nodes queue) :
    ∃ heap, destroy type nodes = some heap ∧ ∀ i, heap.cell i = none := by
  cases type with
  | fifo => exact NodeQueue.Refines.destroy h
  | roundRobin => exact ⟨_, rfl, fun _ => rfl⟩
  | sjf => exact ⟨_, rfl, fun _ => rfl⟩

end NodeReadyQueue

namespace NodeScheduler

variable {type : SchedulerType}

def schedulerCreate (type : SchedulerType) (quantum : Int) : NodeScheduler type where
  processes := []
  quantum := match type with
    | .roundRobin => quantum
    | .fifo | .sjf => 0
  currentTime := 0
  completed := 0
  queue := NodeReadyQueue.create type
  finishedList := NodeList.llCreate
  history := NodeStack.stackCreate
  slices := []

def schedulerAddProcessFull (s : NodeScheduler type) (p : Process) : Option (NodeScheduler type) :=
  if s.processes.length ≥ maxProcesses then some s
  else do
    let queue ← NodeReadyQueue.add type s.queue p.pid
    some { s with processes := s.processes ++ [p], queue := queue }

def findProcess (s : NodeScheduler type) (pid : Int) : Option (Cursor s.processes) :=
  Cursor.first (fun p => p.pid == pid) s.processes

def runToCompletion (s : NodeScheduler type) (c : Cursor s.processes) :
    Option (NodeScheduler type) := do
  let p := c.item
  let finish := s.currentTime + p.burstTime
  let finishedList ← NodeList.llInsertSorted s.finishedList p.pid p.burstTime
  some { s with
    processes := c.replace [{ p with remainingTime := 0, state := .finished }]
    currentTime := finish
    completed := s.completed + 1
    finishedList := finishedList
    history := NodeStack.stackPush s.history p.pid
    slices := s.slices ++ [⟨p.pid, s.currentTime, finish, p.burstTime, 0⟩] }

def fifoWaiting (s : NodeScheduler .fifo) : Bool := !NodeQueue.queueIsEmpty s.queue

def fifoStep (s : NodeScheduler .fifo) : Option (NodeScheduler .fifo) := do
  let (pid, queue) ← NodeQueue.dequeue s.queue
  let s : NodeScheduler .fifo := { s with queue := queue }
  match findProcess s pid with
  | none => some s
  | some c => runToCompletion s c

def rrDispatch (s : NodeScheduler .roundRobin) (c : Cursor s.processes) :
    Option (NodeScheduler .roundRobin) :=
  let p := c.item
  let executed := if p.remainingTime < s.quantum then p.remainingTime else s.quantum
  let remaining := p.remainingTime - executed
  let finish := s.currentTime + executed
  let ran : NodeScheduler .roundRobin := { s with
    currentTime := finish
    history := NodeStack.stackPush s.history p.pid
    slices := s.slices ++ [⟨p.pid, s.currentTime, finish, executed, remaining⟩] }
  if remaining = 0 then do
    let finishedList ← NodeList.llInsertSorted s.finishedList p.pid p.burstTime
    some { ran with
      processes := c.replace [{ p with remainingTime := remaining, state := .finished }]
      finishedList := finishedList
      completed := s.completed + 1 }
  else do
    let queue ← cqEnqueueChecked s.queue p.pid
    some { ran with
      processes := c.replace [{ p with remainingTime := remaining, state := .ready }]
      queue := queue }

def rrWaiting (s : NodeScheduler .roundRobin) : Bool := !cqIsEmpty s.queue

def rrStep (s : NodeScheduler .roundRobin) : Option (NodeScheduler .roundRobin) := do
  let (pid, queue) ← cqDequeueChecked s.queue
  let s : NodeScheduler .roundRobin := { s with queue := queue }
  match findProcess s pid with
  | none => some s
  | some c => if c.item.state = .finished then some s else rrDispatch s c

def sjfStep (s : NodeScheduler type) (i : Nat) : Option (NodeScheduler type) :=
  match Cursor.nth i s.processes with
  | none => some s
  | some c => runToCompletion s c

def schedulerNext : (type : SchedulerType) → NodeScheduler type → Option (Int × NodeScheduler type)
  | .fifo, s =>
    if NodeQueue.queueIsEmpty s.queue then some (-1, s)
    else do
      let (pid, queue) ← NodeQueue.dequeue s.queue
      some (pid, { s with queue := queue })
  | .roundRobin, _ => none
  | .sjf, _ => none

def schedulerRun (n : Nat) : (type : SchedulerType) → NodeScheduler type →
    Option (NodeScheduler type)
  | .fifo, s => afterM fifoWaiting fifoStep n s
  | .roundRobin, s => some s
  | .sjf, s => some s

def schedulerRunRr (n : Nat) : (type : SchedulerType) → NodeScheduler type →
    Option (NodeScheduler type)
  | .fifo, _ => none
  | .roundRobin, s => afterM rrWaiting rrStep n s
  | .sjf, _ => none

def schedulerRunSjf (s : NodeScheduler type) : Option (NodeScheduler type) := do
  let processes ← greedySjfSort s.processes s.processes.length
  let sorted := { s with processes := processes }
  (List.range sorted.processes.length).foldlM sjfStep sorted

def exec (s : NodeScheduler type) : ApiCall → Option (Option Int × NodeScheduler type)
  | .addProcessFull p => (schedulerAddProcessFull s p).map (fun s => (none, s))
  | .next => (schedulerNext type s).map (fun r => (some r.1, r.2))
  | .run n => (schedulerRun n type s).map (fun s => (none, s))
  | .runRr n => (schedulerRunRr n type s).map (fun s => (none, s))
  | .runSjf => (schedulerRunSjf s).map (fun s => (none, s))

/-- The nodes not freed by a function that should free them all. -/
structure Leftover where
  queue : SingleLinks.Heap Int
  finishedList : SingleLinks.Heap LLNode
  history : SingleLinks.Heap Int

def Leftover.Empty (left : Leftover) : Prop :=
  (∀ i, left.queue.cell i = none) ∧ (∀ i, left.finishedList.cell i = none) ∧
    ∀ i, left.history.cell i = none

def schedulerDestroy (s : NodeScheduler type) : Option Leftover := do
  let queue ← NodeReadyQueue.destroy type s.queue
  let finishedList ← NodeList.llDestroy s.finishedList
  let history ← NodeStack.stackDestroy s.history
  some ⟨queue, finishedList, history⟩

/-- The two schedulers agree in all their fields, the containers by their contents. -/
structure Refines (ns : NodeScheduler type) (s : Scheduler type) : Prop where
  processes_eq : ns.processes = s.processes
  quantum_eq : ns.quantum = s.quantum
  time_eq : ns.currentTime = s.currentTime
  completed_eq : ns.completed = s.completed
  queue : NodeReadyQueue.Refines type ns.queue s.queue
  finished : ∃ l, ns.finishedList.Linked l s.finishedList
  history : ns.history.Refines s.history
  slices_eq : ns.slices = s.slices

theorem create_refines (type : SchedulerType) (quantum : Int) :
    (schedulerCreate type quantum).Refines (MiniOS.schedulerCreate type quantum) := by
  cases type with
  | fifo => exact ⟨rfl, rfl, rfl, rfl, NodeQueue.create_refines, ⟨[], NodeList.create_linked⟩,
      NodeStack.create_refines, rfl⟩
  | roundRobin => exact ⟨rfl, rfl, rfl, rfl, ⟨rfl, CircularQueue.create_valid _⟩,
      ⟨[], NodeList.create_linked⟩, NodeStack.create_refines, rfl⟩
  | sjf => exact ⟨rfl, rfl, rfl, rfl, trivial, ⟨[], NodeList.create_linked⟩,
      NodeStack.create_refines, rfl⟩

section Refinement

variable {ns : NodeScheduler type} {s : Scheduler type}

theorem Refines.add (h : ns.Refines s) (p : Process) :
    ∃ ns', ns.schedulerAddProcessFull p = some ns' ∧
      ns'.Refines (MiniOS.schedulerAddProcessFull s p) := by
  by_cases hfull : s.processes.length ≥ maxProcesses
  · refine ⟨ns, ?_, ?_⟩
    · rw [schedulerAddProcessFull, if_pos (h.processes_eq ▸ hfull)]
    · rwa [MiniOS.schedulerAddProcessFull, if_pos hfull]
  · obtain ⟨queue, hadd, hqueue⟩ := h.queue.add p.pid
    refine ⟨{ ns with processes := ns.processes ++ [p], queue := queue }, ?_, ?_⟩
    · rw [schedulerAddProcessFull, if_neg (h.processes_eq ▸ hfull), hadd]
      rfl
    · rw [MiniOS.schedulerAddProcessFull, if_neg hfull]
      exact ⟨congrArg (· ++ [p]) h.processes_eq, h.quantum_eq, h.time_eq, h.completed_eq, hqueue,
        h.finished, h.history, h.slices_eq⟩

/-- The same position in the array of processes. -/
def Refines.cursor (h : ns.Refines s) (c : Cursor s.processes) : Cursor ns.processes :=
  ⟨c.before, c.item, c.after, c.split.trans h.processes_eq.symm⟩

theorem Refines.findProcess_eq (h : ns.Refines s) (pid : Int) :
    ns.findProcess pid = (MiniOS.findProcess s pid).map h.cursor := by
  obtain ⟨processes, quantum, time, completed, queue, finishedList, history, slices⟩ := ns
  obtain rfl : processes = s.processes := h.processes_eq
  exact Option.map_id'.symm

theorem Refines.nth_eq (h : ns.Refines s) (i : Nat) :
    Cursor.nth i ns.processes = (Cursor.nth i s.processes).map h.cursor := by
  obtain ⟨processes, quantum, time, completed, queue, finishedList, history, slices⟩ := ns
  obtain rfl : processes = s.processes := h.processes_eq
  exact Option.map_id'.symm

theorem Refines.runToCompletion (h : ns.Refines s) (c : Cursor s.processes) :
    ∃ ns', ns.runToCompletion (h.cursor c) = some ns' ∧
      ns'.Refines (MiniOS.runToCompletion s c) := by
  obtain ⟨l, hlinked⟩ := h.finished
  obtain ⟨finishedList, l', hinsert, hlinked'⟩ := hlinked.insert c.item.pid c.item.burstTime
  have hitem : (h.cursor c).item = c.item := rfl
  refine ⟨{ ns with
    processes := c.replace [c.item.complete]
    currentTime := ns.currentTime + c.item.burstTime
    completed := ns.completed + 1
    finishedList := finishedList
    history := NodeStack.stackPush ns.history c.item.pid
    slices := ns.slices ++ [⟨c.item.pid, ns.currentTime, ns.currentTime + c.item.burstTime,
      c.item.burstTime, 0⟩] }, ?_, ?_⟩
  · simp only [NodeScheduler.runToCompletion, hitem, hinsert, Option.bind_eq_bind, Option.bind_some]
    rfl
  · rw [h.time_eq, h.completed_eq, h.slices_eq]
    exact ⟨rfl, h.quantum_eq, rfl, rfl, h.queue, ⟨l', hlinked'⟩, h.history.push c.item.pid, rfl⟩

theorem Refines.fifoStep {ns : NodeScheduler .fifo} {s : Scheduler .fifo} (h : ns.Refines s) :
    ∃ ns', ns.fifoStep = some ns' ∧ ns'.Refines (MiniOS.fifoStep s) := by
  obtain ⟨queue, hpop, hqueue⟩ := NodeQueue.Refines.dequeue h.queue
  have hpopped : ({ ns with queue := queue } : NodeScheduler .fifo).Refines
      { s with queue := (dequeue s.queue).2 } := { h with queue := hqueue }
  have hfind := hpopped.findProcess_eq (dequeue s.queue).1
  rcases fifoStep_cases s with ⟨hnone, hstep⟩ | ⟨c, hc, hstep⟩
  · rw [hnone, Option.map_none] at hfind
    refine ⟨_, ?_, hstep ▸ hpopped⟩
    simp only [NodeScheduler.fifoStep, hpop, Option.bind_eq_bind, Option.bind_some, hfind]
  · obtain ⟨ns', hrun, hrefines⟩ := hpopped.runToCompletion c
    rw [hc, Option.map_some] at hfind
    refine ⟨ns', ?_, hstep ▸ hrefines⟩
    simp only [NodeScheduler.fifoStep, hpop, Option.bind_eq_bind, Option.bind_some, hfind, hrun]

theorem Refines.rrDispatch {ns : NodeScheduler .roundRobin} {s : Scheduler .roundRobin}
    (h : ns.Refines s) (c : Cursor s.processes) :
    ∃ ns', ns.rrDispatch (h.cursor c) = some ns' ∧ ns'.Refines (MiniOS.rrDispatch s c) := by
  obtain ⟨processes, quantum, time, completed, queue, finishedList, history, slices⟩ := ns
  obtain rfl : processes = s.processes := h.processes_eq
  obtain rfl : quantum = s.quantum := h.quantum_eq
  obtain rfl : time = s.currentTime := h.time_eq
  obtain rfl : completed = s.completed := h.completed_eq
  obtain rfl : slices = s.slices := h.slices_eq
  obtain ⟨hqueue, hvalid⟩ : queue = s.queue ∧ CircularQueue.Valid s.queue := h.queue
  subst hqueue
  have hhistory := h.history.push c.item.pid
  have hitem : (h.cursor c).item = c.item := rfl
  rw [NodeScheduler.rrDispatch, MiniOS.rrDispatch, hitem]
  generalize (if c.item.remainingTime < s.quantum then c.item.remainingTime else s.quantum) =
    executed
  by_cases hdone : c.item.remainingTime - executed = 0
  · obtain ⟨l, hlinked⟩ := h.finished
    obtain ⟨finishedList', l', hinsert, hlinked'⟩ := hlinked.insert c.item.pid c.item.burstTime
    simp only [if_pos hdone, hinsert, Option.bind_eq_bind, Option.bind_some]
    exact ⟨_, rfl, rfl, rfl, rfl, rfl, h.queue, ⟨l', hlinked'⟩, hhistory, rfl⟩
  · simp only [if_neg hdone, hvalid.enqueueChecked c.item.pid, Option.bind_eq_bind,
      Option.bind_some]
    exact ⟨_, rfl, rfl, rfl, rfl, rfl, ⟨rfl, (hvalid.enqueue c.item.pid).1⟩, h.finished, hhistory,
      rfl⟩

theorem Refines.rrStep {ns : NodeScheduler .roundRobin} {s : Scheduler .roundRobin}
    (h : ns.Refines s) : ∃ ns', ns.rrStep = some ns' ∧ ns'.Refines (MiniOS.rrStep s) := by
  obtain ⟨heq, hvalid⟩ := h.queue
  have hpop : cqDequeueChecked ns.queue = some (cqDequeue s.queue) := by
    rw [heq]
    exact hvalid.dequeueChecked
  have hleft : CircularQueue.Valid (cqDequeue s.queue).2 := by
    by_cases hempty : cqIsEmpty s.queue = true
    · rwa [cqDequeue, if_pos hempty]
    · exact (hvalid.dequeue (Bool.eq_false_iff.mpr hempty)).1
  have hpopped : ({ ns with queue := (cqDequeue s.queue).2 } : NodeScheduler .roundRobin).Refines
      { s with queue := (cqDequeue s.queue).2 } := { h with queue := ⟨rfl, hleft⟩ }
  have hfind := hpopped.findProcess_eq (cqDequeue s.queue).1
  rcases rrStep_cases s with ⟨hnone, hstep⟩ | ⟨c, hc, hcase⟩
  · rw [hnone, Option.map_none] at hfind
    refine ⟨_, ?_, hstep ▸ hpopped⟩
    simp only [NodeScheduler.rrStep, hpop, Option.bind_eq_bind, Option.bind_some, hfind]
  · rw [hc, Option.map_some] at hfind
    have hitem : (hpopped.cursor c).item = c.item := rfl
    rcases hcase with ⟨hstate, hstep⟩ | ⟨hstate, hstep⟩
    · refine ⟨_, ?_, hstep ▸ hpopped⟩
      simp only [NodeScheduler.rrStep, hpop, Option.bind_eq_bind, Option.bind_some, hfind, hitem,
        hstate, if_true]
    · obtain ⟨ns', hrun, hrefines⟩ := hpopped.rrDispatch c
      refine ⟨ns', ?_, hstep ▸ hrefines⟩
      simp only [NodeScheduler.rrStep, hpop, Option.bind_eq_bind, Option.bind_some, hfind, hitem,
        hstate, if_false, hrun]

theorem Refines.sjfStep (h : ns.Refines s) (i : Nat) :
    ∃ ns', ns.sjfStep i = some ns' ∧ ns'.Refines (MiniOS.sjfStep s i) := by
  have hnth := h.nth_eq i
  cases hc : Cursor.nth i s.processes with
  | none =>
    rw [hc, Option.map_none] at hnth
    exact ⟨ns, by simp only [NodeScheduler.sjfStep, hnth], by simpa only [MiniOS.sjfStep, hc] using h⟩
  | some c =>
    rw [hc, Option.map_some] at hnth
    obtain ⟨ns', hrun, hrefines⟩ := h.runToCompletion c
    exact ⟨ns', by simp only [NodeScheduler.sjfStep, hnth, hrun],
      by simpa only [MiniOS.sjfStep, hc] using hrefines⟩

theorem Refines.sjfLoop (h : ns.Refines s) (is : List Nat) :
    ∃ ns', is.foldlM NodeScheduler.sjfStep ns = some ns' ∧
      ns'.Refines (is.foldl MiniOS.sjfStep s) := by
  induction is generalizing ns s with
  | nil => exact ⟨ns, rfl, h⟩
  | cons i is ih =>
    obtain ⟨next, hstep, hnext⟩ := h.sjfStep i
    obtain ⟨final, hrun, hfinal⟩ := ih hnext
    refine ⟨final, ?_, hfinal⟩
    rw [List.foldlM_cons, hstep]
    exact hrun

theorem Refines.runSjf (h : ns.Refines s) :
    ∃ ns' s', ns.schedulerRunSjf = some ns' ∧ MiniOS.schedulerRunSjf s = some s' ∧ ns'.Refines s' := by
  obtain ⟨processes, quantum, time, completed, queue, finishedList, history, slices⟩ := ns
  obtain rfl : processes = s.processes := h.processes_eq
  have hsorted : Refines ⟨s.processes.mergeSort burstLE, quantum, time, completed, queue,
      finishedList, history, slices⟩ { s with processes := s.processes.mergeSort burstLE } :=
    { h with processes_eq := rfl }
  obtain ⟨ns', hrun, hrefines⟩ :=
    hsorted.sjfLoop (List.range (s.processes.mergeSort burstLE).length)
  refine ⟨ns', _, ?_, schedulerRunSjf_eq s, hrefines⟩
  simp only [schedulerRunSjf, greedySjfSort_eq]
  exact hrun

theorem Refines.call (h : ns.Refines s) (call : ApiCall) (hfits : call.Fits type) :
    ∃ out ns' s', ns.exec call = some (out, ns') ∧ call.exec s = some (out, s') ∧ ns'.Refines s' := by
  cases call with
  | addProcessFull p =>
    obtain ⟨ns', hrun, hrefines⟩ := h.add p
    exact ⟨none, ns', _, by rw [exec, hrun]; rfl, rfl, hrefines⟩
  | next =>
    obtain rfl : type = .fifo := hfits
    have hempty := NodeQueue.Refines.isEmpty h.queue
    obtain ⟨queue, hpop, hqueue⟩ := NodeQueue.Refines.dequeue h.queue
    by_cases hnone : queueIsEmpty s.queue = true
    · refine ⟨some (-1), ns, s, ?_, ?_, h⟩
      · simp only [exec, schedulerNext, if_pos (hempty.trans hnone), Option.map_some]
      · simp only [ApiCall.exec, MiniOS.schedulerNext, if_pos hnone, Option.map_some]
    · have hnone' : ¬ NodeQueue.queueIsEmpty ns.queue = true := fun hn => hnone (hempty ▸ hn)
      refine ⟨some (dequeue s.queue).1, { ns with queue := queue },
        { s with queue := (dequeue s.queue).2 }, ?_, ?_, { h with queue := hqueue }⟩
      · simp only [exec, schedulerNext, if_neg hnone', hpop, Option.bind_eq_bind, Option.bind_some,
          Option.map_some]
      · simp only [ApiCall.exec, MiniOS.schedulerNext, if_neg hnone, Option.map_some]
  | run n =>
    cases type with
    | fifo =>
      have hcond : ∀ (ns : NodeScheduler .fifo) s, ns.Refines s →
          fifoWaiting ns = MiniOS.fifoWaiting s :=
        fun ns s hns => congrArg Bool.not (NodeQueue.Refines.isEmpty hns.queue)
      obtain ⟨ns', hrun, hrefines⟩ := afterM_refines hcond (fun _ _ hns => hns.fifoStep) n h
      exact ⟨none, ns', _, by rw [exec, schedulerRun, hrun]; rfl, rfl, hrefines⟩
    | roundRobin => exact ⟨none, ns, s, rfl, rfl, h⟩
    | sjf => exact ⟨none, ns, s, rfl, rfl, h⟩
  | runRr n =>
    obtain rfl : type = .roundRobin := hfits
    have hcond : ∀ (ns : NodeScheduler .roundRobin) s, ns.Refines s →
        rrWaiting ns = MiniOS.rrWaiting s :=
      fun ns s hns => congrArg (fun queue => !cqIsEmpty queue) hns.queue.1
    obtain ⟨ns', hrun, hrefines⟩ := afterM_refines hcond (fun _ _ hns => hns.rrStep) n h
    exact ⟨none, ns', _, by rw [exec, schedulerRunRr, hrun]; rfl, rfl, hrefines⟩
  | runSjf =>
    obtain ⟨ns', s', hrun, hspec, hrefines⟩ := h.runSjf
    exact ⟨none, ns', s', by rw [exec, hrun]; rfl, by rw [ApiCall.exec, hspec]; rfl, hrefines⟩

theorem Refines.destroy (h : ns.Refines s) :
    ∃ left, ns.schedulerDestroy = some left ∧ left.Empty := by
  obtain ⟨queue, hqueue, hnone⟩ := h.queue.destroy
  obtain ⟨l, hlinked⟩ := h.finished
  obtain ⟨finishedList, hfinished, hnone'⟩ := hlinked.destroy
  obtain ⟨history, hhistory, hnone''⟩ := h.history.destroy
  refine ⟨⟨queue, finishedList, history⟩, ?_, hnone, hnone', hnone''⟩
  simp only [schedulerDestroy, hqueue, hfinished, hhistory, Option.bind_eq_bind, Option.bind_some]

end Refinement

/-- A call faults on the nodes only where it reads a queue that is NULL. -/
theorem exec_lockstep (type : SchedulerType) :
    Simulation.Lockstep Refines (exec : NodeScheduler type → _) ApiCall.exec := by
  intro ns s call h
  by_cases hfits : call.Fits type
  · obtain ⟨out, ns', s', hrun, hspec, hrefines⟩ := h.call call hfits
    rw [hrun, hspec]
    exact .some ⟨rfl, hrefines⟩
  · have hspec : call.exec s = none := by
      rw [← Option.not_isSome_iff_eq_none, ApiCall.exec_isSome_iff]
      exact hfits
    have hrun : ns.exec call = none := by
      cases call with
      | next =>
        cases type with
        | fifo => exact absurd rfl hfits
        | roundRobin => rfl
        | sjf => rfl
      | runRr n =>
        cases type with
        | fifo => rfl
        | roundRobin => exact absurd rfl hfits
        | sjf => rfl
      | addProcessFull p => exact absurd trivial hfits
      | run n => exact absurd trivial hfits
      | runSjf => exact absurd trivial hfits
    rw [hrun, hspec]
    exact .none

/-- A history of calls on a scheduler of any type stops at a fault exactly when one of
them reads the queue of another type. Without it the calls answer as on the lists,
and destroying the scheduler frees every node once. -/
theorem run_refines (type : SchedulerType) (quantum : Int) (calls : List ApiCall) :
    ((Simulation.run exec calls (schedulerCreate type quantum)).isSome ↔
      ∀ call ∈ calls, call.Fits type) ∧
    Option.Rel (fun a b => a.1 = b.1 ∧ a.2.Refines b.2 ∧
        ∃ left, a.2.schedulerDestroy = some left ∧ left.Empty)
      (Simulation.run exec calls (schedulerCreate type quantum))
      (Simulation.run ApiCall.exec calls (MiniOS.schedulerCreate type quantum)) := by
  have hrun := (exec_lockstep type).run calls (create_refines type quantum)
  have hfits := Simulation.run_isSome_iff (fun (s : Scheduler type) call =>
    ApiCall.exec_isSome_iff s call) calls (MiniOS.schedulerCreate type quantum)
  rw [← hfits]
  generalize Simulation.run exec calls (schedulerCreate type quantum) = r at hrun
  generalize Simulation.run ApiCall.exec calls (MiniOS.schedulerCreate type quantum) = r' at hrun
  cases hrun with
  | none => exact ⟨Iff.rfl, .none⟩
  | some hab => exact ⟨by simp, .some ⟨hab.1, hab.2, hab.2.destroy⟩⟩

end NodeScheduler

end MiniOS
