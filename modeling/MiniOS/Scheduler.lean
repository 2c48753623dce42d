import MiniOS.Cursor
import MiniOS.WhileLoop
import MiniOS.CircularQueue
import MiniOS.Containers
import MiniOS.MergeSort

/-! The FIFO, Round Robin and SJF schedulers. -/

namespace MiniOS

inductive SchedulerType where
  | fifo
  | roundRobin
  | sjf
  deriving DecidableEq, Repr

/-- `fifo_queue`, `rr_queue` or neither; the source leaves the others NULL. -/
abbrev ReadyQueue : SchedulerType → Type
  | .fifo => Queue
  | .roundRobin => CircularQueue
  | .sjf => Unit

/-- One row of the table a simulation prints. -/
structure Slice where
  pid : Int
  start : Int
  finish : Int
  executed : Int
  remaining : Int
  deriving DecidableEq, Repr

/-- `processes` holds the first `count` cells of the array, `slices` the rows
printed so far. -/
structure Scheduler (type : SchedulerType) where
  processes : List Process
  quantum : Int
  currentTime : Int
  completed : Int
  queue : ReadyQueue type
  finishedList : LinkedList
  history : Stack
  slices : List Slice

def maxProcesses : Nat := 256

def schedulerCreateFifo : Scheduler .fifo :=
  ⟨[], 0, 0, 0, queueCreate, llCreate, stackCreate, []⟩

def schedulerCreateRr (quantum : Int) : Scheduler .roundRobin :=
  ⟨[], quantum, 0, 0, cqCreate maxProcesses, llCreate, stackCreate, []⟩

def schedulerCreateSjf : Scheduler .sjf :=
  ⟨[], 0, 0, 0, (), llCreate, stackCreate, []⟩

def ReadyQueue.add : (type : SchedulerType) → ReadyQueue type → Int → ReadyQueue type
  | .fifo, queue, pid => enqueue queue pid
  | .roundRobin, queue, pid => cqEnqueue queue pid
  | .sjf, queue, _ => queue

variable {type : SchedulerType}

def schedulerAddProcessFull (s : Scheduler type) (p : Process) : Scheduler type :=
  if s.processes.length ≥ maxProcesses then s
  else { s with
    processes := s.processes ++ [p]
    queue := ReadyQueue.add type s.queue p.pid }

def schedulerAddProcess (s : Scheduler type) (pid burstTime : Int) : Scheduler type :=
  schedulerAddProcessFull s (processCreate pid burstTime 0 0)

theorem schedulerAddProcess_of_full {s : Scheduler type} (h : maxProcesses ≤ s.processes.length)
    (pid burstTime : Int) : schedulerAddProcess s pid burstTime = s := if_pos h

theorem schedulerAddProcess_of_room {s : Scheduler type} (h : s.processes.length < maxProcesses)
    (pid burstTime : Int) : schedulerAddProcess s pid burstTime = { s with
      processes := s.processes ++ [processCreate pid burstTime 0 0]
      queue := ReadyQueue.add type s.queue pid } := if_neg (not_le.mpr h)

def findProcess (s : Scheduler type) (pid : Int) : Option (Cursor s.processes) :=
  Cursor.first (fun p => p.pid == pid) s.processes

/-- The body shared by the FIFO and the SJF loop once the process is found. -/
def runToCompletion (s : Scheduler type) (c : Cursor s.processes) : Scheduler type :=
  let p := c.item
  let finish := s.currentTime + p.burstTime
  { s with
    processes := c.replace [{ p with remainingTime := 0, state := .finished }]
    currentTime := finish
    completed := s.completed + 1
    finishedList := llInsertSorted s.finishedList p.pid p.burstTime
    history := stackPush s.history p.pid
    slices := s.slices ++ [⟨p.pid, s.currentTime, finish, p.burstTime, 0⟩] }

def fifoWaiting (s : Scheduler .fifo) : Bool := !queueIsEmpty s.queue

def fifoStep (s : Scheduler .fifo) : Scheduler .fifo :=
  let (pid, queue) := dequeue s.queue
  let s := { s with queue := queue }
  match findProcess s pid with
  | none => s
  | some c => runToCompletion s c

theorem fifoStep_cases (s : Scheduler .fifo) :
    let popped : Scheduler .fifo := { s with queue := (dequeue s.queue).2 }
    (findProcess popped (dequeue s.queue).1 = none ∧ fifoStep s = popped) ∨
    ∃ c, findProcess popped (dequeue s.queue).1 = some c ∧ fifoStep s = runToCompletion popped c := by
  intro popped
  cases hfind : findProcess popped (dequeue s.queue).1 with
  | none => exact Or.inl ⟨rfl, by simp only [fifoStep, popped, hfind]⟩
  | some c => exact Or.inr ⟨c, rfl, by simp only [fifoStep, popped, hfind]⟩

/-- `scheduler_run` on a FIFO scheduler, cut off after `fuel` iterations. -/
def schedulerRun (fuel : Nat) (s : Scheduler .fifo) : Option (Scheduler .fifo) :=
  WhileLoop.run fifoWaiting fifoStep fuel s

def rrDispatch (s : Scheduler .roundRobin) (c : Cursor s.processes) : Scheduler .roundRobin :=
  let p := c.item
  let executed := if p.remainingTime < s.quantum then p.remainingTime else s.quantum
  let remaining := p.remainingTime - executed
  let finish := s.currentTime + executed
  let ran : Scheduler .roundRobin := { s with
    currentTime := finish
    history := stackPush s.history p.pid
    slices := s.slices ++ [⟨p.pid, s.currentTime, finish, executed, remaining⟩] }
  if remaining = 0 then
    { ran with
      processes := c.replace [{ p with remainingTime := remaining, state := .finished }]
      finishedList := llInsertSorted s.finishedList p.pid p.burstTime
      completed := s.completed + 1 }
  else
    { ran with
      processes := c.replace [{ p with remainingTime := remaining, state := .ready }]
      queue := cqEnqueue s.queue p.pid }

def rrWaiting (s : Scheduler .roundRobin) : Bool := !cqIsEmpty s.queue

def rrStep (s : Scheduler .roundRobin) : Scheduler .roundRobin :=
  let (pid, queue) := cqDequeue s.queue
  let s := { s with queue := queue }
  match findProcess s pid with
  | none => s
  | some c => if c.item.state = .finished then s else rrDispatch s c

theorem rrStep_cases (s : Scheduler .roundRobin) :
    let popped : Scheduler .roundRobin := { s with queue := (cqDequeue s.queue).2 }
    (findProcess popped (cqDequeue s.queue).1 = none ∧ rrStep s = popped) ∨
    ∃ c, findProcess popped (cqDequeue s.queue).1 = some c ∧
      ((c.item.state = .finished ∧ rrStep s = popped) ∨
        (c.item.state ≠ .finished ∧ rrStep s = rrDispatch popped c)) := by
  intro popped
  cases hfind : findProcess popped (cqDequeue s.queue).1 with
  | none => exact Or.inl ⟨rfl, by simp only [rrStep, popped, hfind]⟩
  | some c =>
    refine Or.inr ⟨c, rfl, ?_⟩
    by_cases hstate : c.item.state = .finished
    · exact Or.inl ⟨hstate, by simp only [rrStep, popped, hfind, hstate, if_true]⟩
    · exact Or.inr ⟨hstate, by simp only [rrStep, popped, hfind, hstate, if_false]⟩

/-- `scheduler_run_rr`, cut off after `fuel` iterations. -/
def schedulerRunRr (fuel : Nat) (s : Scheduler .roundRobin) : Option (Scheduler .roundRobin) :=
  WhileLoop.run rrWaiting rrStep fuel s

def sjfStep (s : Scheduler type) (i : Nat) : Scheduler type :=
  match Cursor.nth i s.processes with
  | none => s
  | some c => runToCompletion s c

def schedulerRunSjf (s : Scheduler type) : Option (Scheduler type) := do
  let processes ← greedySjfSort s.processes s.processes.length
  let sorted := { s with processes := processes }
  pure ((List.range sorted.processes.length).foldl sjfStep sorted)

theorem schedulerRunSjf_eq (s : Scheduler type) :
    schedulerRunSjf s = some ((List.range (s.processes.mergeSort burstLE).length).foldl sjfStep
      { s with processes := s.processes.mergeSort burstLE }) := by
  simp only [schedulerRunSjf, greedySjfSort_eq]
  rfl

theorem schedulerRunSjf_invariant {inv : Scheduler type → Prop}
    (hsort : ∀ s, inv s → inv { s with processes := s.processes.mergeSort burstLE })
    (hstep : ∀ s i, inv s → inv (sjfStep s i)) {s t : Scheduler type}
    (hrun : schedulerRunSjf s = some t) (hs : inv s) : inv t := by
  have hloop : ∀ (is : List Nat) (r : Scheduler type), inv r → inv (is.foldl sjfStep r) := by
    intro is
    induction is with
    | nil => exact fun _ hr => hr
    | cons i is ih => exact fun r hr => ih _ (hstep r i hr)
  rw [schedulerRunSjf_eq] at hrun
  obtain rfl := Option.some.inj hrun
  exact hloop _ _ (hsort s hs)

def addAll (s : Scheduler type) (adds : List (Int × Int)) : Scheduler type :=
  adds.foldl (fun s a => schedulerAddProcess s a.1 a.2) s

def FinishedIn (s : Scheduler type) (pid : Int) : Prop :=
  ∃ p ∈ s.processes, p.pid = pid ∧ p.state = .finished

def added (a : Int × Int) : Process := processCreate a.1 a.2 0 0

theorem addAll_eq {s : Scheduler type} {adds : List (Int × Int)}
    (hlen : s.processes.length + adds.length ≤ maxProcesses) :
    addAll s adds = { s with
      processes := s.processes ++ adds.map added
      queue := adds.foldl (fun queue a => ReadyQueue.add type queue a.1) s.queue } := by
  induction adds generalizing s with
  | nil => simp [addAll]
  | cons a adds ih =>
    rw [List.length_cons] at hlen
    have hadd : schedulerAddProcess s a.1 a.2 = { s with
        processes := s.processes ++ [added a]
        queue := ReadyQueue.add type s.queue a.1 } :=
      schedulerAddProcess_of_room (by omega) a.1 a.2
    have hrest := ih (s := schedulerAddProcess s a.1 a.2)
      (by rw [hadd, List.length_append, List.length_singleton]; omega)
    rw [addAll, List.foldl_cons, ← addAll, hrest, hadd]
    simp

theorem addAll_processes {s : Scheduler type} {adds : List (Int × Int)} (hnew : s.processes = [])
    (hlen : adds.length ≤ maxProcesses) : (addAll s adds).processes = adds.map added := by
  have hroom : s.processes.length + adds.length ≤ maxProcesses := by
    rw [hnew, List.length_nil, Nat.zero_add]
    exact hlen
  rw [addAll_eq hroom, hnew, List.nil_append]

end MiniOS
