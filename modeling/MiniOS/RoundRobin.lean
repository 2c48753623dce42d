import MiniOS.SerialRuns
import Mathlib.Algebra.BigOperators.Group.List.Basic
import Mathlib.Data.List.Induction
import Mathlib.Data.List.Nodup

/-! The invariant of the Round Robin loop. The ghost list `waiting` holds the
records of the queued processes in queue order; every step is described by what
it does to that list. -/

namespace MiniOS

open WhileLoop

def Process.isFinished (p : Process) : Bool := p.state == .finished

structure RrInvariant (admitted : List (Int × Int)) (quantum : Int) (s : Scheduler .roundRobin)
    (waiting : List Process) : Prop where
  identity : s.processes.map (fun p => (p.pid, p.burstTime)) = admitted
  distinct : (s.processes.map Process.pid).Nodup
  length_le : s.processes.length ≤ maxProcesses
  quantum_eq : s.quantum = quantum
  queue_valid : s.queue.Valid
  capacity_eq : s.queue.capacity = maxProcesses
  queue_eq : s.queue.toList = waiting.map Process.pid
  waiting_perm : waiting.Perm (s.processes.filter (fun p => !p.isFinished))
  remaining : ∀ p ∈ s.processes, 0 ≤ p.remainingTime ∧ p.remainingTime ≤ p.burstTime ∧
    (p.isFinished = true → p.remainingTime = 0)
  clock : s.currentTime + (s.processes.map Process.remainingTime).sum =
    (s.processes.map Process.burstTime).sum
  completed_eq : s.completed = s.processes.countP Process.isFinished
  finished_ordered : s.finishedList.Ordered
  finished_perm : s.finishedList.head.Perm ((s.processes.filter Process.isFinished).map Process.node)
  slices_bounds : ∀ x ∈ s.slices, 0 ≤ x.executed ∧ x.executed ≤ quantum

/-- What a slice of at most `quantum` units leaves of a process. -/
def Process.afterSlice (quantum : Int) (p : Process) : Process :=
  let remaining := p.remainingTime - min p.remainingTime quantum
  { p with
    remainingTime := remaining
    state := if remaining = 0 then .finished else .ready }

def Process.sliceFrom (start quantum : Int) (p : Process) : Slice :=
  let executed := min p.remainingTime quantum
  ⟨p.pid, start, start + executed, executed, p.remainingTime - executed⟩

@[simp] theorem Process.afterSlice_pid (quantum : Int) (p : Process) :
    (p.afterSlice quantum).pid = p.pid := rfl

@[simp] theorem Process.afterSlice_burst (quantum : Int) (p : Process) :
    (p.afterSlice quantum).burstTime = p.burstTime := rfl

theorem Process.afterSlice_finished_iff {quantum : Int} {p : Process} :
    (p.afterSlice quantum).isFinished = true ↔ (p.afterSlice quantum).remainingTime = 0 := by
  by_cases h : p.remainingTime - min p.remainingTime quantum = 0 <;>
    simp [Process.afterSlice, Process.isFinished, h]

theorem rrDispatch_eq (s : Scheduler .roundRobin) (c : Cursor s.processes) :
    rrDispatch s c = { s with
      processes := c.before ++ c.item.afterSlice s.quantum :: c.after
      currentTime := s.currentTime + min c.item.remainingTime s.quantum
      completed := s.completed + if (c.item.afterSlice s.quantum).isFinished then 1 else 0
      queue := if (c.item.afterSlice s.quantum).isFinished then s.queue
        else cqEnqueue s.queue c.item.pid
      finishedList := if (c.item.afterSlice s.quantum).isFinished then
        llInsertSorted s.finishedList c.item.pid c.item.burstTime else s.finishedList
      history := stackPush s.history c.item.pid
      slices := s.slices ++ [c.item.sliceFrom s.currentTime s.quantum] } := by
  have hmin : (if c.item.remainingTime < s.quantum then c.item.remainingTime else s.quantum) =
      min c.item.remainingTime s.quantum := by
    by_cases h : c.item.remainingTime < s.quantum
    · rw [if_pos h, min_eq_left h.le]
    · rw [if_neg h, min_eq_right (not_lt.mp h)]
  by_cases h : c.item.remainingTime - min c.item.remainingTime s.quantum = 0
  · simp [rrDispatch, Process.afterSlice, Process.isFinished, Process.sliceFrom, hmin, h,
      Cursor.replace_singleton]
  · simp [rrDispatch, Process.afterSlice, Process.isFinished, Process.sliceFrom, hmin, h,
      Cursor.replace_singleton]

namespace RrInvariant

variable {admitted : List (Int × Int)} {quantum : Int} {s : Scheduler .roundRobin}
  {p : Process} {waiting : List Process}

theorem create (quantum : Int) : RrInvariant [] quantum (schedulerCreateRr quantum) [] where
  identity := rfl
  distinct := List.nodup_nil
  length_le := Nat.zero_le _
  quantum_eq := rfl
  queue_valid := CircularQueue.create_valid _
  capacity_eq := rfl
  queue_eq := rfl
  waiting_perm := List.Perm.refl _
  remaining := by simp [schedulerCreateRr]
  clock := rfl
  completed_eq := rfl
  finished_ordered := LinkedList.create_ordered
  finished_perm := List.Perm.refl _
  slices_bounds := by simp [schedulerCreateRr]

theorem pids_eq (h : RrInvariant admitted quantum s waiting) :
    s.processes.map Process.pid = admitted.map Prod.fst := by
  rw [← h.identity, List.map_map]
  rfl

theorem waiting_length (h : RrInvariant admitted quantum s waiting) :
    waiting.length ≤ s.processes.length := by
  rw [h.waiting_perm.length_eq]
  exact List.length_filter_le _ _

theorem size_eq (h : RrInvariant admitted quantum s waiting) : s.queue.size = waiting.length := by
  rw [← CircularQueue.length_toList, h.queue_eq, List.length_map]

theorem waits_iff (h : RrInvariant admitted quantum s waiting) :
    rrWaiting s = true ↔ waiting ≠ [] := by
  have he : cqIsEmpty s.queue = true ↔ waiting = [] := by
    rw [CircularQueue.isEmpty_iff, h.queue_eq, List.map_eq_nil_iff]
  rw [rrWaiting, Bool.not_eq_true', ← Bool.not_eq_true, he]

theorem front_mem (h : RrInvariant admitted quantum s (p :: waiting)) :
    p ∈ s.processes ∧ p.isFinished = false := by
  have hp : p ∈ s.processes.filter (fun x => !x.isFinished) :=
    h.waiting_perm.mem_iff.mp List.mem_cons_self
  obtain ⟨hmem, hfin⟩ := List.mem_filter.mp hp
  exact ⟨hmem, by simpa using hfin⟩

/-- The search by pid stops at the record at the front of the queue. -/
theorem locate (h : RrInvariant admitted quantum s (p :: waiting)) :
    p.isFinished = false ∧ ∃ c : Cursor s.processes, c.item = p ∧
      Cursor.first (fun x => x.pid == p.pid) s.processes = some c ∧
      waiting.Perm ((c.before ++ c.after).filter (fun x => !x.isFinished)) := by
  obtain ⟨hmem, hfin⟩ := h.front_mem
  obtain ⟨before, after, hsplit⟩ := List.append_of_mem hmem
  let c : Cursor s.processes := ⟨before, p, after, hsplit.symm⟩
  have hnd := h.distinct
  rw [hsplit, List.map_append, List.map_cons, List.nodup_append] at hnd
  have hbefore : ∀ x ∈ c.before, (x.pid == p.pid) = false := by
    intro x hx
    have hne := hnd.2.2 x.pid (List.mem_map_of_mem hx) p.pid List.mem_cons_self
    simpa using hne
  refine ⟨hfin, c, rfl, Cursor.first_eq_some c (beq_self_eq_true p.pid) hbefore, ?_⟩
  have hperm := h.waiting_perm
  have hmid : (s.processes.filter (fun x => !x.isFinished)).Perm
      (p :: (before ++ after).filter (fun x => !x.isFinished)) := by
    rw [hsplit, List.filter_append, List.filter_append, List.filter_cons_of_pos (by simpa using hfin)]
    exact List.perm_middle
  exact (hperm.trans hmid).cons_inv

/-- One iteration with a waiting process at the front: the queue after the
dequeue and the dispatch of that process. -/
theorem rrStep_eq (h : RrInvariant admitted quantum s (p :: waiting)) :
    ∃ (queue : CircularQueue) (c : Cursor s.processes), c.item = p ∧
      rrStep s = rrDispatch { s with queue := queue } c ∧
      queue.Valid ∧ queue.toList = waiting.map Process.pid ∧ queue.capacity = maxProcesses ∧
      waiting.Perm ((c.before ++ c.after).filter (fun x => !x.isFinished)) := by
  obtain ⟨hfin, c, rfl, hfirst, hrest⟩ := h.locate
  have hne : cqIsEmpty s.queue = false := by
    have hw := h.waits_iff.mpr (List.cons_ne_nil _ _)
    simpa [rrWaiting] using hw
  obtain ⟨hvalid, hlist⟩ := h.queue_valid.dequeue hne
  rw [h.queue_eq, List.map_cons] at hlist
  obtain ⟨hpid, htail⟩ := List.cons.inj hlist
  have hstate : ¬ c.item.state = .finished := by
    simpa [Process.isFinished] using hfin
  refine ⟨(cqDequeue s.queue).2, c, rfl, ?_, hvalid, htail.symm, ?_, hrest⟩
  · simp only [rrStep, findProcess, ← hpid, hfirst, hstate, if_false]
  · rw [CircularQueue.dequeue_capacity, h.capacity_eq]

theorem step_record (h : RrInvariant admitted quantum s (p :: waiting)) :
    (rrStep s).currentTime = s.currentTime + min p.remainingTime quantum ∧
    (rrStep s).history.top = p.pid :: s.history.top ∧
    (rrStep s).slices = s.slices ++ [p.sliceFrom s.currentTime quantum] ∧
    ∃ before after, s.processes = before ++ p :: after ∧
      (rrStep s).processes = before ++ p.afterSlice quantum :: after := by
  obtain ⟨queue, c, rfl, hstep, -⟩ := h.rrStep_eq
  obtain rfl := h.quantum_eq
  rw [hstep, rrDispatch_eq]
  exact ⟨rfl, rfl, rfl, c.before, c.after, c.split.symm, rfl⟩

theorem step (hq : 0 ≤ quantum) (h : RrInvariant admitted quantum s (p :: waiting)) :
    RrInvariant admitted quantum (rrStep s)
      (if (p.afterSlice quantum).isFinished then waiting else waiting ++ [p.afterSlice quantum]) := by
  obtain ⟨hfin, -⟩ := h.locate
  have hroom := h.waiting_length.trans h.length_le
  have hp := h.remaining p h.front_mem.1
  obtain ⟨queue, ⟨before, x, after, hsplit⟩, hitem, hstep, hvalid, hlist, hcap, hrest⟩ := h.rrStep_eq
  obtain rfl : p = x := hitem.symm
  obtain rfl := h.quantum_eq
  rw [hstep, rrDispatch_eq]
  simp only at hrest ⊢
  generalize hp' : p.afterSlice s.quantum = p'
  have hpid : p'.pid = p.pid := by rw [← hp', Process.afterSlice_pid]
  have hburst : p'.burstTime = p.burstTime := by rw [← hp', Process.afterSlice_burst]
  have hrem : p'.remainingTime = p.remainingTime - min p.remainingTime s.quantum := by
    rw [← hp', Process.afterSlice]
  have hdone : p'.isFinished = true ↔ p'.remainingTime = 0 := by
    rw [← hp']
    exact Process.afterSlice_finished_iff
  have hnotfull : cqIsFull queue = false := by
    rw [List.length_cons] at hroom
    rw [cqIsFull, beq_eq_false_iff_ne, ← CircularQueue.length_toList, hlist, hcap, List.length_map]
    omega
  constructor
  case quantum_eq => rfl
  case identity =>
    simpa only [← hsplit, List.map_append, List.map_cons, hpid, hburst] using h.identity
  case distinct =>
    simpa only [← hsplit, List.map_append, List.map_cons, hpid] using h.distinct
  case length_le =>
    simpa only [← hsplit, List.length_append, List.length_cons] using h.length_le
  case queue_valid =>
    split_ifs
    · exact hvalid
    · exact (hvalid.enqueue p.pid).1
  case capacity_eq =>
    split_ifs
    · exact hcap
    · rw [CircularQueue.enqueue_capacity hnotfull, hcap]
  case queue_eq =>
    split_ifs
    · exact hlist
    · rw [(hvalid.enqueue p.pid).2, hlist, List.map_append, List.map_singleton, hpid]
  case waiting_perm =>
    rw [List.filter_append] at hrest
    by_cases hf : p'.isFinished = true
    · rw [if_pos hf, List.filter_append, List.filter_cons_of_neg (by simp [hf])]
      exact hrest
    · rw [if_neg hf, List.filter_append, List.filter_cons_of_pos (by simpa using hf)]
      exact (List.perm_append_singleton _ _).trans ((hrest.cons p').trans List.perm_middle.symm)
  case remaining =>
    intro x hx
    rcases List.mem_append.mp hx with hx | hx
    · exact h.remaining x (by rw [← hsplit]; exact List.mem_append_left _ hx)
    · rcases List.mem_cons.mp hx with rfl | hx
      · rw [hburst]
        exact ⟨by omega, by omega, hdone.mp⟩
      · exact h.remaining x (by rw [← hsplit]; exact List.mem_append_right _ (List.mem_cons_of_mem _ hx))
  case clock =>
    have hc := h.clock
    simp only [← hsplit, List.map_append, List.map_cons, List.sum_append, List.sum_cons, hburst,
      hrem] at hc ⊢
    omega
  case completed_eq =>
    have hc := h.completed_eq
    simp only [← hsplit, List.countP_append, List.countP_cons, hfin] at hc ⊢
    rw [hc]
    by_cases hf : p'.isFinished = true
    · simp [hf, add_assoc]
    · simp [hf]
  case finished_ordered =>
    split_ifs
    · exact h.finished_ordered.insert _ _
    · exact h.finished_ordered
  case finished_perm =>
    have hperm := h.finished_perm
    rw [← hsplit, List.filter_append, List.filter_cons_of_neg (by simp [hfin]), List.map_append] at hperm
    rw [List.filter_append]
    by_cases hf : p'.isFinished = true
    · have hnode : p'.node = ⟨p.pid, p.burstTime⟩ := by rw [Process.node, hpid, hburst]
      simp only [if_pos hf, List.filter_cons_of_pos hf, List.map_append, List.map_cons, hnode]
      exact (LinkedList.insert_perm _ _ _).trans ((hperm.cons _).trans List.perm_middle.symm)
    · simp only [if_neg hf, List.filter_cons_of_neg hf, List.map_append]
      exact hperm
  case slices_bounds =>
    intro x hx
    rcases List.mem_append.mp hx with hx | hx
    · exact h.slices_bounds x hx
    · rw [List.mem_singleton.mp hx]
      simp only [Process.sliceFrom]
      omega

theorem add (h : RrInvariant admitted quantum s waiting) {pid burstTime : Int}
    (hroom : s.processes.length < maxProcesses) (hnew : pid ∉ admitted.map Prod.fst)
    (hburst : 0 ≤ burstTime) :
    RrInvariant (admitted ++ [(pid, burstTime)]) quantum (schedulerAddProcess s pid burstTime)
      (waiting ++ [processCreate pid burstTime 0 0]) := by
  have hnotfull : cqIsFull s.queue = false := by
    have hw := h.waiting_length
    rw [cqIsFull, beq_eq_false_iff_ne, h.size_eq, h.capacity_eq]
    omega
  obtain ⟨hvalid, hlist⟩ := h.queue_valid.enqueue pid
  have hadd : schedulerAddProcess s pid burstTime = { s with
      processes := s.processes ++ [processCreate pid burstTime 0 0]
      queue := cqEnqueue s.queue pid } := schedulerAddProcess_of_room hroom pid burstTime
  rw [hadd]
  have hready : (processCreate pid burstTime 0 0).isFinished = false := rfl
  constructor
  case identity => rw [List.map_append, h.identity]; rfl
  case distinct =>
    rw [← h.pids_eq] at hnew
    have hd := h.distinct.concat hnew
    rw [List.concat_eq_append] at hd
    rw [List.map_append]
    exact hd
  case length_le =>
    rw [List.length_append, List.length_singleton]
    exact hroom
  case quantum_eq => exact h.quantum_eq
  case queue_valid => exact hvalid
  case capacity_eq => rw [CircularQueue.enqueue_capacity hnotfull, h.capacity_eq]
  case queue_eq =>
    rw [hlist, h.queue_eq, List.map_append]
    rfl
  case waiting_perm =>
    rw [List.filter_append, List.filter_cons_of_pos (by rw [hready]; rfl)]
    exact h.waiting_perm.append_right _
  case remaining =>
    intro x hx
    rcases List.mem_append.mp hx with hx | hx
    · exact h.remaining x hx
    · rw [List.mem_singleton.mp hx]
      exact ⟨hburst, le_refl burstTime, fun hf => by simp [hready] at hf⟩
  case clock =>
    have hc := h.clock
    simp only [List.map_append, List.sum_append, List.map_singleton, List.sum_singleton,
      processCreate]
    omega
  case completed_eq =>
    rw [List.countP_append, List.countP_singleton, hready]
    exact h.completed_eq
  case finished_ordered => exact h.finished_ordered
  case finished_perm =>
    rw [List.filter_append, List.filter_cons_of_neg (by simp [hready]), List.filter_nil,
      List.append_nil]
    exact h.finished_perm
  case slices_bounds => exact h.slices_bounds

end RrInvariant

theorem addAll_rrInvariant (quantum : Int) {adds : List (Int × Int)}
    (hlen : adds.length ≤ maxProcesses) (hpids : (adds.map Prod.fst).Nodup)
    (hbursts : ∀ a ∈ adds, 0 ≤ a.2) :
    RrInvariant adds quantum (addAll (schedulerCreateRr quantum) adds) (adds.map added) := by
  induction adds using List.reverseRecOn with
  | nil => exact RrInvariant.create quantum
  | append_singleton adds a ih =>
    rw [List.length_append, List.length_singleton] at hlen
    rw [List.map_append, List.map_singleton, List.nodup_append] at hpids
    have h := ih (by omega) hpids.1 (fun b hb => hbursts b (List.mem_append_left _ hb))
    have hroom : (addAll (schedulerCreateRr quantum) adds).processes.length < maxProcesses := by
      have hl := congrArg List.length h.identity
      rw [List.length_map] at hl
      omega
    have hnew : a.1 ∉ adds.map Prod.fst := fun hmem => hpids.2.2 _ hmem _ List.mem_cons_self rfl
    have hstep := h.add hroom hnew (hbursts a (List.mem_append_right _ List.mem_cons_self))
    rw [addAll, List.foldl_append, List.map_append]
    exact hstep

/-- What is left to run, with one unit for the slice a process ends in. -/
def work (waiting : List Process) : Nat := (waiting.map fun p => p.remainingTime.toNat + 1).sum

theorem work_afterSlice_lt {quantum : Int} {p : Process} {waiting : List Process}
    (hq : 1 ≤ quantum) (hp : 0 ≤ p.remainingTime) :
    work (if (p.afterSlice quantum).isFinished then waiting
      else waiting ++ [p.afterSlice quantum]) < work (p :: waiting) := by
  have hrem : (p.afterSlice quantum).remainingTime = p.remainingTime - min p.remainingTime quantum :=
    rfl
  by_cases hf : (p.afterSlice quantum).isFinished = true
  · rw [if_pos hf, work, work, List.map_cons, List.sum_cons]
    omega
  · have hpos : p.remainingTime - min p.remainingTime quantum ≠ 0 := by
      rw [← hrem]
      exact fun h => hf (Process.afterSlice_finished_iff.mpr h)
    rw [if_neg hf, work, work, List.map_append, List.sum_append, List.map_singleton,
      List.sum_singleton, List.map_cons, List.sum_cons, hrem]
    omega

namespace RrInvariant

variable {adm : List (Int × Int)} {quantum : Int} {s t : Scheduler .roundRobin}
  {waiting : List Process}

theorem step_work (hq : 1 ≤ quantum) (h : RrInvariant adm quantum s waiting)
    (hw : rrWaiting s = true) :
    ∃ waiting', RrInvariant adm quantum (rrStep s) waiting' ∧ work waiting' < work waiting := by
  cases waiting with
  | nil => exact absurd rfl (h.waits_iff.mp hw)
  | cons p waiting =>
    have hp := h.remaining p h.front_mem.1
    exact ⟨_, h.step (by omega), work_afterSlice_lt hq hp.1⟩

theorem returns (hq : 1 ≤ quantum) (h : RrInvariant adm quantum s waiting) :
    ∃ t, Returns rrWaiting rrStep s t := by
  obtain ⟨t, -, ht, -⟩ := returns_of_variant work (fun _ _ hs hw => step_work hq hs hw) h
  exact ⟨t, ht⟩

theorem head (hq : 1 ≤ quantum) (h : RrInvariant adm quantum s waiting)
    (ht : Head rrWaiting rrStep s t) : ∃ waiting', RrInvariant adm quantum t waiting' := by
  have hstep : ∀ r, (∃ w, RrInvariant adm quantum r w) → rrWaiting r = true →
      ∃ w, RrInvariant adm quantum (rrStep r) w := by
    intro r ⟨w, hr⟩ hc
    obtain ⟨w', hr', -⟩ := hr.step_work hq hc
    exact ⟨w', hr'⟩
  exact ht.invariant hstep ⟨waiting, h⟩

theorem returned (hq : 1 ≤ quantum) (h : RrInvariant adm quantum s waiting)
    (ht : Returns rrWaiting rrStep s t) : RrInvariant adm quantum t [] := by
  obtain ⟨hhead, hf⟩ := ht.head
  obtain ⟨w, hw⟩ := h.head hq hhead
  have hnil : w = [] := by
    by_contra hne
    simp [hw.waits_iff.mpr hne] at hf
  rwa [hnil] at hw

theorem all_finished (h : RrInvariant adm quantum s []) :
    ∀ p ∈ s.processes, p.state = .finished := by
  intro p hp
  by_contra hne
  have hmem : p ∈ s.processes.filter (fun x => !x.isFinished) :=
    List.mem_filter.mpr ⟨hp, by simpa [Process.isFinished] using hne⟩
  have := h.waiting_perm.mem_iff.mpr hmem
  simp at this

theorem final_time (h : RrInvariant adm quantum s []) :
    s.currentTime = (adm.map Prod.snd).sum := by
  have hzero : (s.processes.map Process.remainingTime).sum = 0 := by
    apply List.sum_eq_zero
    intro x hx
    obtain ⟨p, hp, rfl⟩ := List.mem_map.mp hx
    exact (h.remaining p hp).2.2 (by simpa [Process.isFinished] using h.all_finished p hp)
  have hc := h.clock
  rw [hzero, add_zero] at hc
  rw [hc, ← h.identity, List.map_map]
  rfl

end RrInvariant

end MiniOS
