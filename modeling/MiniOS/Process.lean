import Mathlib.Data.Int.Basic

/-! Process records. -/

namespace MiniOS

inductive ProcessState where
  | ready
  | running
  | blocked
  | finished
  deriving DecidableEq, Repr

structure Process where
  pid : Int
  burstTime : Int
  remainingTime : Int
  priority : Int
  memoryRequired : Int
  state : ProcessState
  deriving DecidableEq, Repr

def processCreate (pid burstTime priority memoryRequired : Int) : Process :=
  ⟨pid, burstTime, burstTime, priority, memoryRequired, .ready⟩

end MiniOS
