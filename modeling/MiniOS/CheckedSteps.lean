import MiniOS.IntRange
import MiniOS.RoundRobin
import MiniOS.SerialRuns
import MiniOS.Simulation

/-! The loops of the schedulers in `int` arithmetic. A step checks the clock, the remaining time,
the counter of finished processes and the sizes of the history and of the finished list. The ring
queue holds at most 256 PIDs, its indices are not checked. -/

namespace MiniOS

open WhileLoop

variable {type : SchedulerType}

def runToCompletionChecked (s : Scheduler type) (c : Cursor s.processes) :
    Option (Scheduler type) := do
  let _ ← checked (s.currentTime + c.item.burstTime)
  let _ ← checked (s.history.size + 1)
  let _ ← checked (s.finishedList.size + 1)
  let _ ← checked (s.completed + 1)
  some (runToCompletion s c)

def fifoStepChecked (s : Scheduler .fifo) : Option (Scheduler .fifo) :=
  let (pid, queue) := dequeue s.queue
  let s := { s with queue := queue }
  match findProcess s pid with
  | none => some s
  | some c => runToCompletionChecked s c

/-- `scheduler_run` in `int` arithmetic, cut off after `fuel` iterations. -/
def schedulerRunChecked (fuel : Nat) (s : Scheduler .fifo) : Option (Scheduler .fifo) :=
  runM fifoWaiting fifoStepChecked fuel s

def sjfStepChecked (s : Scheduler .sjf) (i : Nat) : Option (Scheduler .sjf) :=
  match Cursor.nth i s.processes with
  | none => some s
  | some c => runToCompletionChecked s c

def schedulerRunSjfChecked (s : Scheduler .sjf) : Option (Scheduler .sjf) := do
  let processes ← greedySjfSort s.processes s.processes.length
  let sorted := { s with processes := processes }
  (List.range sorted.processes.length).foldlM sjfStepChecked sorted

def rrDispatchChecked (s : Scheduler .roundRobin) (c : Cursor s.processes) :
    Option (Scheduler .roundRobin) := do
  let p := c.item
  let executed := if p.remainingTime < s.quantum then p.remainingTime else s.quantum
  let _ ← checked (s.currentTime + executed)
  let remaining ← checked (p.remainingTime - executed)
  let _ ← checked (s.history.size + 1)
  if remaining = 0 then
    let _ ← checked (s.finishedList.size + 1)
    let _ ← checked (s.completed + 1)
    some (rrDispatch s c)
  else some (rrDispatch s c)

def rrStepChecked (s : Scheduler .roundRobin) : Option (Scheduler .roundRobin) :=
  let (pid, queue) := cqDequeue s.queue
  let s := { s with queue := queue }
  match findProcess s pid with
  | none => some s
  | some c => if c.item.state = .finished then some s else rrDispatchChecked s c

/-- `scheduler_run_rr` in `int` arithmetic, cut off after `fuel` iterations. -/
def schedulerRunRrChecked (fuel : Nat) (s : Scheduler .roundRobin) : Option (Scheduler .roundRobin) :=
  runM rrWaiting rrStepChecked fuel s

def InRange (s : Scheduler type) : Prop :=
  s.currentTime ≤ intMax ∧ s.completed ≤ intMax ∧ (s.finishedList.size : Int) ≤ intMax ∧
    (s.history.size : Int) ≤ intMax

instance (s : Scheduler type) : Decidable (InRange s) :=
  inferInstanceAs (Decidable (_ ∧ _ ∧ _ ∧ _))

/-! A checked step that has a result has that of the unchecked one. -/

section Follows

variable {s t : Scheduler type}

theorem runToCompletionChecked_some {c : Cursor s.processes}
    (h : runToCompletionChecked s c = some t) : t = runToCompletion s c ∧ InRange t := by
  simp only [runToCompletionChecked, Option.bind_eq_bind, Option.bind_eq_some_iff] at h
  obtain ⟨_, htime, _, hhistory, _, hlist, _, hdone, hend⟩ := h
  obtain rfl := Option.some.inj hend
  refine ⟨rfl, (le_of_checked htime).1, (le_of_checked hdone).1, ?_, (le_of_checked hhistory).1⟩
  have hsize := LinkedList.insert_size s.finishedList c.item.pid c.item.burstTime
  show ((llInsertSorted s.finishedList c.item.pid c.item.burstTime).size : Int) ≤ intMax
  rw [hsize]
  exact (le_of_checked hlist).1

theorem sjfStepChecked_some {s t : Scheduler .sjf} {i : Nat} (h : sjfStepChecked s i = some t) :
    t = sjfStep s i ∧ (InRange s → InRange t) := by
  cases hc : Cursor.nth i s.processes with
  | none =>
    simp only [sjfStepChecked, sjfStep, hc] at h ⊢
    obtain rfl := Option.some.inj h
    exact ⟨rfl, id⟩
  | some c =>
    simp only [sjfStepChecked, sjfStep, hc] at h ⊢
    obtain ⟨hstep, hrange⟩ := runToCompletionChecked_some h
    exact ⟨hstep, fun _ => hrange⟩

theorem schedulerRunSjfChecked_some {s t : Scheduler .sjf} (h : schedulerRunSjfChecked s = some t) :
    schedulerRunSjf s = some t ∧ (InRange s → InRange t) := by
  simp only [schedulerRunSjfChecked, greedySjfSort_eq, Option.bind_eq_bind, Option.bind_some] at h
  have hstep : ∀ (r : Scheduler .sjf) (i : Nat) (u : Scheduler .sjf), sjfStepChecked r i = some u →
      u = sjfStep r i ∧ (InRange r → InRange u) := fun _ _ _ => sjfStepChecked_some
  obtain ⟨hend, hrange⟩ := foldlM_some hstep h
  exact ⟨by rw [schedulerRunSjf_eq, hend], hrange⟩

theorem inRange_rrDispatch_iff {s : Scheduler .roundRobin} (hok : InRange s)
    (c : Cursor s.processes) : InRange (rrDispatch s c) ↔
      s.currentTime + min c.item.remainingTime s.quantum ≤ intMax ∧
        (s.history.size : Int) + 1 ≤ intMax ∧
        (c.item.remainingTime - min c.item.remainingTime s.quantum = 0 →
          (s.finishedList.size : Int) + 1 ≤ intMax ∧ s.completed + 1 ≤ intMax) := by
  obtain ⟨-, hcompleted, hsize, -⟩ := hok
  have hfin : (c.item.afterSlice s.quantum).isFinished = true ↔
      c.item.remainingTime - min c.item.remainingTime s.quantum = 0 :=
    Process.afterSlice_finished_iff
  have hinsert : ((llInsertSorted s.finishedList c.item.pid c.item.burstTime).size : Int) =
      s.finishedList.size + 1 := by
    exact_mod_cast LinkedList.insert_size s.finishedList c.item.pid c.item.burstTime
  have hpush : ((stackPush s.history c.item.pid).size : Int) = s.history.size + 1 :=
    Int.natCast_succ s.history.size
  rw [rrDispatch_eq, InRange, hpush, ← hfin]
  by_cases hf : (c.item.afterSlice s.quantum).isFinished = true
  · simp only [hf, if_true, hinsert, true_implies]
    exact ⟨fun ⟨h₁, h₂, h₃, h₄⟩ => ⟨h₁, h₄, h₃, h₂⟩, fun ⟨h₁, h₄, h₃, h₂⟩ => ⟨h₁, h₂, h₃, h₄⟩⟩
  · simp only [hf, Bool.false_eq_true, if_false, false_implies, Int.add_zero, and_true]
    exact ⟨fun ⟨h₁, _, _, h₄⟩ => ⟨h₁, h₄⟩, fun ⟨h₁, h₄⟩ => ⟨h₁, hcompleted, hsize, h₄⟩⟩

theorem rrDispatchChecked_some {s t : Scheduler .roundRobin} {c : Cursor s.processes}
    (h : rrDispatchChecked s c = some t) : t = rrDispatch s c ∧ (InRange s → InRange t) := by
  simp only [rrDispatchChecked, Option.bind_eq_bind, Option.bind_eq_some_iff, ← min_def_lt] at h
  obtain ⟨_, htime, remaining, hremaining, _, hhistory, hend⟩ := h
  obtain ⟨-, rfl⟩ := le_of_checked hremaining
  have hfits : t = rrDispatch s c ∧
      (c.item.remainingTime - min c.item.remainingTime s.quantum = 0 →
        (s.finishedList.size : Int) + 1 ≤ intMax ∧ s.completed + 1 ≤ intMax) := by
    by_cases hzero : c.item.remainingTime - min c.item.remainingTime s.quantum = 0
    · rw [if_pos hzero] at hend
      simp only [Option.bind_eq_some_iff] at hend
      obtain ⟨_, hlist, _, hdone, hend⟩ := hend
      exact ⟨(Option.some.inj hend).symm, fun _ => ⟨(le_of_checked hlist).1, (le_of_checked hdone).1⟩⟩
    · rw [if_neg hzero] at hend
      exact ⟨(Option.some.inj hend).symm, fun h => absurd h hzero⟩
  obtain ⟨rfl, hlast⟩ := hfits
  exact ⟨rfl, fun hok => (inRange_rrDispatch_iff hok c).mpr
    ⟨(le_of_checked htime).1, (le_of_checked hhistory).1, hlast⟩⟩

theorem rrStepChecked_some {s t : Scheduler .roundRobin} (h : rrStepChecked s = some t) :
    t = rrStep s ∧ (InRange s → InRange t) := by
  let popped : Scheduler .roundRobin := { s with queue := (cqDequeue s.queue).2 }
  rcases rrStep_cases s with ⟨hnone, hstep⟩ | ⟨c, hc, ⟨hfin, hstep⟩ | ⟨hfin, hstep⟩⟩
  · simp only [rrStepChecked, hnone] at h
    obtain rfl := Option.some.inj h
    exact ⟨hstep.symm, id⟩
  · simp only [rrStepChecked, hc, if_pos hfin] at h
    obtain rfl := Option.some.inj h
    exact ⟨hstep.symm, id⟩
  · simp only [rrStepChecked, hc, if_neg hfin] at h
    rw [hstep]
    exact rrDispatchChecked_some (s := popped) h

theorem schedulerRunRrChecked_some {fuel : Nat} {s t : Scheduler .roundRobin}
    (h : schedulerRunRrChecked fuel s = some t) :
    schedulerRunRr fuel s = some t ∧ (InRange s → InRange t) :=
  runM_some (fun _ _ => rrStepChecked_some) h

end Follows

theorem rrDispatchChecked_of_inInts {s : Scheduler .roundRobin} {c : Cursor s.processes}
    (h : InInts [s.currentTime + min c.item.remainingTime s.quantum,
      c.item.remainingTime - min c.item.remainingTime s.quantum, s.history.size + 1,
      s.finishedList.size + 1, s.completed + 1]) : rrDispatchChecked s c = some (rrDispatch s c) := by
  simp only [InInts, List.forall_mem_cons, List.not_mem_nil, false_implies, implies_true,
    and_true] at h
  obtain ⟨htime, hremaining, hhistory, hlist, hdone⟩ := h
  simp only [rrDispatchChecked, ← min_def_lt, checked_of_mem htime.1 htime.2,
    checked_of_mem hremaining.1 hremaining.2, checked_of_mem hhistory.1 hhistory.2,
    checked_of_mem hlist.1 hlist.2, checked_of_mem hdone.1 hdone.2, Option.bind_eq_bind,
    Option.bind_some, ite_self]

/-! With bursts that are not negative the values only grow, so a step has a result exactly when
what it leads to is in range. -/

/-- No counter is negative, and no burst. -/
structure Accounted (s : Scheduler type) : Prop where
  time : 0 ≤ s.currentTime
  completed : 0 ≤ s.completed
  bursts : ∀ p ∈ s.processes, 0 ≤ p.burstTime

section Complete

variable {s : Scheduler type}

theorem Accounted.runToCompletion (h : Accounted s) (c : Cursor s.processes) :
    Accounted (runToCompletion s c) where
  time := add_nonneg h.time (h.bursts _ c.item_mem)
  completed := add_nonneg h.completed Int.one_nonneg
  bursts := by
    intro p hp
    rw [show (MiniOS.runToCompletion s c).processes = _ from Cursor.replace_singleton c _] at hp
    rcases List.mem_append.mp hp with hp | hp
    · exact h.bursts p (by rw [← c.split]; exact List.mem_append_left _ hp)
    · rcases List.mem_cons.mp hp with rfl | hp
      · exact h.bursts c.item c.item_mem
      · exact h.bursts p (by
          rw [← c.split]
          exact List.mem_append_right _ (List.mem_cons_of_mem _ hp))

theorem runToCompletionChecked_eq (h : Accounted s) (c : Cursor s.processes) :
    runToCompletionChecked s c =
      if InRange (runToCompletion s c) then some (runToCompletion s c) else none := by
  have htime := checked_of_nonneg (add_nonneg h.time (h.bursts _ c.item_mem))
  have hhistory := checked_of_nonneg (show (0 : Int) ≤ s.history.size + 1 by omega)
  have hlist := checked_of_nonneg (show (0 : Int) ≤ s.finishedList.size + 1 by omega)
  have hdone := checked_of_nonneg (add_nonneg h.completed Int.one_nonneg)
  have hrange : InRange (runToCompletion s c) ↔ s.currentTime + c.item.burstTime ≤ intMax ∧
      s.completed + 1 ≤ intMax ∧ (s.finishedList.size : Int) + 1 ≤ intMax ∧
        (s.history.size : Int) + 1 ≤ intMax := by
    have hsize : ((runToCompletion s c).finishedList.size : Int) = s.finishedList.size + 1 := by
      exact_mod_cast LinkedList.insert_size s.finishedList c.item.pid c.item.burstTime
    rw [InRange, hsize]
    rfl
  rw [runToCompletionChecked, htime, hhistory, hlist, hdone]
  by_cases h₁ : s.currentTime + c.item.burstTime ≤ intMax
  · by_cases h₂ : (s.history.size : Int) + 1 ≤ intMax
    · by_cases h₃ : (s.finishedList.size : Int) + 1 ≤ intMax
      · by_cases h₄ : s.completed + 1 ≤ intMax <;> simp [hrange, h₁, h₂, h₃, h₄]
      · simp [hrange, h₁, h₂, h₃]
    · simp [hrange, h₁, h₂]
  · simp [hrange, h₁]

theorem Accounted.inRange_of_complete (h : Accounted s) {c : Cursor s.processes}
    (hrange : InRange (MiniOS.runToCompletion s c)) : InRange s := by
  have hburst := h.bursts _ c.item_mem
  have hsize := LinkedList.insert_size s.finishedList c.item.pid c.item.burstTime
  obtain ⟨h₁, h₂, h₃, h₄⟩ := hrange
  change s.currentTime + c.item.burstTime ≤ intMax at h₁
  change s.completed + 1 ≤ intMax at h₂
  change ((llInsertSorted s.finishedList c.item.pid c.item.burstTime).size : Int) ≤ intMax at h₃
  change ((s.history.size + 1 : Nat) : Int) ≤ intMax at h₄
  exact ⟨by omega, by omega, by omega, by omega⟩

end Complete

/-! FIFO and SJF -/

theorem fifoStepChecked_eq {s : Scheduler .fifo} (h : Accounted s) (hok : InRange s) :
    fifoStepChecked s = if InRange (fifoStep s) then some (fifoStep s) else none := by
  let popped : Scheduler .fifo := { s with queue := (dequeue s.queue).2 }
  have hpopped : Accounted popped := ⟨h.time, h.completed, h.bursts⟩
  rcases fifoStep_cases s with ⟨hnone, hstep⟩ | ⟨c, hc, hstep⟩
  · rw [hstep, if_pos (show InRange popped from hok)]
    simp only [fifoStepChecked, hnone]
  · rw [hstep, ← runToCompletionChecked_eq hpopped c]
    simp only [fifoStepChecked, hc]
    rfl

theorem Accounted.fifoStep {s : Scheduler .fifo} (h : Accounted s) : Accounted (fifoStep s) := by
  let popped : Scheduler .fifo := { s with queue := (dequeue s.queue).2 }
  have hpopped : Accounted popped := ⟨h.time, h.completed, h.bursts⟩
  rcases fifoStep_cases s with ⟨-, hstep⟩ | ⟨c, -, hstep⟩
  · rw [hstep]
    exact hpopped
  · rw [hstep]
    exact hpopped.runToCompletion c

theorem Accounted.inRange_of_fifoStep {s : Scheduler .fifo} (h : Accounted s)
    (hrange : InRange (MiniOS.fifoStep s)) : InRange s := by
  let popped : Scheduler .fifo := { s with queue := (dequeue s.queue).2 }
  have hpopped : Accounted popped := ⟨h.time, h.completed, h.bursts⟩
  rcases fifoStep_cases s with ⟨-, hstep⟩ | ⟨c, -, hstep⟩
  · rw [hstep] at hrange
    exact hrange
  · rw [hstep] at hrange
    exact hpopped.inRange_of_complete hrange

theorem sjfStepChecked_eq {s : Scheduler .sjf} (i : Nat) (h : Accounted s) (hok : InRange s) :
    sjfStepChecked s i = if InRange (sjfStep s i) then some (sjfStep s i) else none := by
  cases hc : Cursor.nth i s.processes with
  | none => simp only [sjfStepChecked, sjfStep, hc, if_pos hok]
  | some c =>
    simp only [sjfStepChecked, sjfStep, hc]
    exact runToCompletionChecked_eq h c

theorem Accounted.sjfStep {s : Scheduler .sjf} (i : Nat) (h : Accounted s) :
    Accounted (sjfStep s i) := by
  cases hc : Cursor.nth i s.processes with
  | none => simpa only [MiniOS.sjfStep, hc] using h
  | some c =>
    simp only [MiniOS.sjfStep, hc]
    exact h.runToCompletion c

theorem Accounted.inRange_of_sjfStep {s : Scheduler .sjf} (i : Nat) (h : Accounted s)
    (hrange : InRange (MiniOS.sjfStep s i)) : InRange s := by
  cases hc : Cursor.nth i s.processes with
  | none => simpa only [MiniOS.sjfStep, hc] using hrange
  | some c =>
    simp only [MiniOS.sjfStep, hc] at hrange
    exact h.inRange_of_complete hrange

/-! Whole runs -/

theorem Accounted.sorted {s : Scheduler .sjf} (h : Accounted s) :
    Accounted { s with processes := s.processes.mergeSort burstLE } :=
  ⟨h.time, h.completed, fun p hp => h.bursts p (List.mem_mergeSort.mp hp)⟩

theorem Accounted.schedulerRunSjf {s t : Scheduler .sjf} (h : Accounted s)
    (hrun : schedulerRunSjf s = some t) : Accounted t :=
  schedulerRunSjf_invariant (fun _ hr => hr.sorted) (fun _ i hr => hr.sjfStep i) hrun h

theorem schedulerRunSjfChecked_eq {s t : Scheduler .sjf} (h : Accounted s) (hok : InRange s)
    (hrun : schedulerRunSjf s = some t) :
    schedulerRunSjfChecked s = if InRange t then some t else none := by
  have hstep : ∀ (r : Scheduler .sjf) (i : Nat), Accounted r → InRange r → sjfStepChecked r i =
      if InRange (sjfStep r i) then some (sjfStep r i) else none :=
    fun r i hr hin => sjfStepChecked_eq i hr hin
  have hmono : ∀ (r : Scheduler .sjf) (i : Nat), Accounted r → InRange (sjfStep r i) →
      InRange r := fun r i hr h => hr.inRange_of_sjfStep i h
  have hinv : ∀ (r : Scheduler .sjf) (i : Nat), Accounted r → Accounted (sjfStep r i) :=
    fun r i hr => hr.sjfStep i
  rw [schedulerRunSjf_eq] at hrun
  obtain rfl := Option.some.inj hrun
  simp only [schedulerRunSjfChecked, greedySjfSort_eq]
  exact foldlM_guard hstep hmono hinv _ h.sorted hok

structure Unstarted (s : Scheduler type) : Prop where
  time_eq : s.currentTime = 0
  completed_eq : s.completed = 0
  finished_eq : s.finishedList.head = []
  history_eq : s.history.top = []

theorem Unstarted.inRange {s : Scheduler type} (h : Unstarted s) (htidy : Tidy s) : InRange s := by
  rw [InRange, h.time_eq, h.completed_eq, htidy.finished_ordered.size_eq, h.finished_eq,
    htidy.history_size, h.history_eq]
  decide

theorem Serial.inRange_iff_add {s₀ s : Scheduler type} {ps : List Process} (h : Serial s₀ s ps [])
    (htidy : Tidy s) : InRange s ↔ s₀.currentTime + (ps.map Process.burstTime).sum ≤ intMax ∧
      s₀.completed + ps.length ≤ intMax ∧
      (ps.length + s₀.finishedList.head.length : Int) ≤ intMax ∧
      (ps.length + s₀.history.top.length : Int) ≤ intMax := by
  rw [InRange, h.time_eq, h.completed_eq, htidy.finished_ordered.size_eq, h.finished_perm.length_eq,
    htidy.history_size, h.history_eq, List.length_append, List.length_append, List.length_reverse,
    List.length_map, List.length_map, Int.natCast_add, Int.natCast_add]

/-- At the end of a first run the sizes are at most 256, the clock decides. -/
theorem Serial.inRange_iff {s₀ s : Scheduler type} {ps : List Process} (h : Serial s₀ s ps [])
    (htidy : Tidy s) (hlen : ps.length ≤ maxProcesses) (hstart : Unstarted s₀) :
    InRange s ↔ (ps.map Process.burstTime).sum ≤ intMax := by
  have hmax : (ps.length : Int) ≤ intMax :=
    le_trans (Int.ofNat_le.mpr hlen) (show (256 : Int) ≤ intMax by decide)
  have hmax' : (ps.length : Int) + 0 ≤ intMax := (Int.add_zero _).trans_le hmax
  rw [h.inRange_iff_add htidy, hstart.time_eq, hstart.completed_eq, hstart.finished_eq,
    hstart.history_eq, Int.zero_add, Int.zero_add]
  exact and_iff_left ⟨hmax, hmax', hmax'⟩

end MiniOS
