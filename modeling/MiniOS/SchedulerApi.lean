import MiniOS.Scheduler
import MiniOS.Simulation

/-! The functions of `scheduler.h` on a scheduler of any type. Only `scheduler_run`
looks at the type: `scheduler_next` and `scheduler_run_rr` go to a queue that is
NULL unless the type is theirs, and `scheduler_run_sjf` needs no queue. -/

namespace MiniOS

open WhileLoop

variable {type : SchedulerType}

/-- `scheduler_next`; there is no result when `fifo_queue` is NULL. -/
def schedulerNext : (type : SchedulerType) → Scheduler type → Option (Int × Scheduler type)
  | .fifo, s =>
    if queueIsEmpty s.queue then some (-1, s)
    else
      let (pid, queue) := dequeue s.queue
      some (pid, { s with queue := queue })
  | .roundRobin, _ => none
  | .sjf, _ => none

/-- `scheduler_run`, observed after `n` iterations of its loop. -/
def runAny (n : Nat) : (type : SchedulerType) → Scheduler type → Scheduler type
  | .fifo, s => after fifoWaiting fifoStep n s
  | .roundRobin, s => s
  | .sjf, s => s

/-- `scheduler_run_rr`, observed after `n` iterations; no result when `rr_queue` is NULL. -/
def runRrAny (n : Nat) : (type : SchedulerType) → Scheduler type → Option (Scheduler type)
  | .fifo, _ => none
  | .roundRobin, s => some (after rrWaiting rrStep n s)
  | .sjf, _ => none

inductive ApiCall where
  | addProcessFull (p : Process)
  | next
  | run (n : Nat)
  | runRr (n : Nat)
  | runSjf
  deriving DecidableEq, Repr

/-- The value a call returns, if it returns one, and the scheduler after it. -/
def ApiCall.exec (s : Scheduler type) : ApiCall → Option (Option Int × Scheduler type)
  | .addProcessFull p => some (none, schedulerAddProcessFull s p)
  | .next => (schedulerNext type s).map (fun r => (some r.1, r.2))
  | .run n => some (none, runAny n type s)
  | .runRr n => (runRrAny n type s).map (fun s => (none, s))
  | .runSjf => (schedulerRunSjf s).map (fun s => (none, s))

/-- The calls that find the queue they read. -/
def ApiCall.Fits (type : SchedulerType) : ApiCall → Prop
  | .next => type = .fifo
  | .runRr _ => type = .roundRobin
  | _ => True

theorem ApiCall.exec_isSome_iff (s : Scheduler type) (call : ApiCall) :
    (call.exec s).isSome ↔ call.Fits type := by
  cases call with
  | addProcessFull p => simp [exec, Fits]
  | next =>
    cases type with
    | fifo => by_cases h : queueIsEmpty s.queue = true <;> simp [exec, Fits, schedulerNext, h]
    | roundRobin => simp [exec, Fits, schedulerNext]
    | sjf => simp [exec, Fits, schedulerNext]
  | run n => simp [exec, Fits]
  | runRr n => cases type <;> simp [exec, Fits, runRrAny]
  | runSjf => simp [exec, Fits, schedulerRunSjf_eq]

def schedulerCreate : (type : SchedulerType) → Int → Scheduler type
  | .fifo, _ => schedulerCreateFifo
  | .roundRobin, quantum => schedulerCreateRr quantum
  | .sjf, _ => schedulerCreateSjf

end MiniOS
