import MiniOS.RoundRobin
import MiniOS.SerialRuns

/-! What the three schedulers leave behind after one run over the same
additions. FIFO and Round Robin look processes up by pid and only ever reach the
first record of a pid, so they finish all the work exactly when the pids are
distinct. -/

namespace MiniOS

open WhileLoop

/-- Every process of `adds` was run to its end, once. -/
structure WorkDone {type : SchedulerType} (adds : List (Int × Int)) (s : Scheduler type) : Prop where
  admitted : (s.processes.map (fun p => (p.pid, p.burstTime))).Perm adds
  finished : ∀ p ∈ s.processes, p.state = .finished ∧ p.remainingTime = 0
  time_eq : s.currentTime = (adds.map Prod.snd).sum
  completed_eq : s.completed = s.processes.length
  finished_perm : s.finishedList.head.Perm (adds.map (fun a => ⟨a.1, a.2⟩))

theorem Serial.workDone {type : SchedulerType} {s₀ s : Scheduler type} {ps : List Process}
    {adds : List (Int × Int)} (h : Serial s₀ s ps []) (hps : ps.Perm (adds.map added))
    (htime : s₀.currentTime = 0) (hcompleted : s₀.completed = 0) (hlist : s₀.finishedList.head = []) :
    WorkDone adds s := by
  have hprocs : s.processes = ps.map Process.complete := by
    rw [h.processes_eq, List.append_nil]
  constructor
  case admitted =>
    rw [hprocs, List.map_map]
    have hp := hps.map (fun p => (p.pid, p.burstTime))
    rw [List.map_map] at hp
    exact hp.trans (List.Perm.of_eq (List.map_id _))
  case finished =>
    intro p hp
    rw [hprocs] at hp
    obtain ⟨x, -, rfl⟩ := List.mem_map.mp hp
    exact ⟨rfl, rfl⟩
  case time_eq =>
    have hp := (hps.map Process.burstTime).sum_eq
    rw [List.map_map] at hp
    rw [h.time_eq, htime, zero_add]
    exact hp
  case completed_eq => rw [h.completed_eq, hcompleted, hprocs, List.length_map, zero_add]
  case finished_perm =>
    have hp := hps.map Process.node
    rw [List.map_map] at hp
    have hf := h.finished_perm
    rw [hlist, List.append_nil] at hf
    exact hf.trans hp

theorem RrInvariant.workDone {adds : List (Int × Int)} {quantum : Int} {s : Scheduler .roundRobin}
    (h : RrInvariant adds quantum s []) : WorkDone adds s := by
  have hall : ∀ p ∈ s.processes, p.isFinished = true := by
    intro p hp
    simpa [Process.isFinished] using h.all_finished p hp
  constructor
  case admitted => exact List.Perm.of_eq h.identity
  case finished =>
    intro p hp
    exact ⟨h.all_finished p hp, (h.remaining p hp).2.2 (hall p hp)⟩
  case time_eq => exact h.final_time
  case completed_eq => rw [h.completed_eq, List.countP_eq_length.mpr hall]
  case finished_perm =>
    have hp := h.finished_perm
    rw [List.filter_eq_self.mpr hall] at hp
    rw [← h.identity, List.map_map]
    exact hp

/-- The records of `pid` that the search by pid never reaches. -/
def shadowed (pid : Int) (ps : List Process) : List Process :=
  (ps.filter (fun p => p.pid == pid)).tail

theorem shadowed_replace {ps : List Process} {c : Cursor ps} {pid : Int} {p' : Process}
    (hc : Cursor.first (fun p => p.pid == pid) ps = some c) (hp' : p'.pid = c.item.pid) (q : Int) :
    shadowed q (c.replace [p']) = shadowed q ps := by
  obtain ⟨hitem, hbefore⟩ := Cursor.first_spec hc
  obtain ⟨before, p, after, rfl⟩ := c
  rw [Cursor.replace_singleton, shadowed, shadowed]
  simp only at hitem hbefore hp' ⊢
  by_cases hq : p.pid = q
  · have hpid : pid = q := (beq_iff_eq.mp hitem).symm.trans hq
    have hnil : before.filter (fun x => x.pid == q) = [] := by
      apply List.filter_eq_nil_iff.mpr
      intro x hx
      have := hbefore x hx
      rw [hpid] at this
      simp [this]
    rw [List.filter_append, List.filter_append, hnil, List.filter_cons_of_pos (by simp [hp', hq]),
      List.filter_cons_of_pos (by simp [hq])]
    rfl
  · rw [List.filter_append, List.filter_append, List.filter_cons_of_neg (by simp [hp', hq]),
      List.filter_cons_of_neg (by simp [hq])]

theorem fifoStep_shadowed (s : Scheduler .fifo) (pid : Int) :
    shadowed pid (fifoStep s).processes = shadowed pid s.processes := by
  rcases fifoStep_cases s with ⟨-, hstep⟩ | ⟨c, hc, hstep⟩
  · rw [hstep]
  · rw [hstep]
    exact shadowed_replace hc (by rfl) pid

theorem rrStep_shadowed (s : Scheduler .roundRobin) (pid : Int) :
    shadowed pid (rrStep s).processes = shadowed pid s.processes := by
  rcases rrStep_cases s with ⟨-, hstep⟩ | ⟨c, hc, ⟨-, hstep⟩ | ⟨-, hstep⟩⟩
  · rw [hstep]
  · rw [hstep]
  · rw [hstep, rrDispatch_eq, ← Cursor.replace_singleton]
    exact shadowed_replace hc (by rfl) pid

/-- A pid admitted twice leaves a record that no later step changes. -/
theorem exists_shadowed {adds : List (Int × Int)} (h : ¬ (adds.map Prod.fst).Nodup) :
    ∃ pid, ∃ p ∈ shadowed pid (adds.map added), p.state = .ready := by
  have hdup : ∃ pid, 2 ≤ (adds.map Prod.fst).count pid := by
    by_contra hc
    refine h (List.nodup_iff_count_le_one.mpr (fun pid => ?_))
    have := not_exists.mp hc pid
    omega
  obtain ⟨pid, hpid⟩ := hdup
  have hlen : ((adds.map added).filter (fun p => p.pid == pid)).length =
      (adds.map Prod.fst).count pid := by
    rw [← List.countP_eq_length_filter, List.countP_map, List.count, List.countP_map]
    rfl
  have hne : shadowed pid (adds.map added) ≠ [] := by
    intro hnil
    have hl := congrArg List.length hnil
    rw [shadowed, List.length_tail, hlen, List.length_nil] at hl
    omega
  obtain ⟨p, hp⟩ := List.exists_mem_of_ne_nil _ hne
  have hmem := (List.mem_filter.mp (List.mem_of_mem_tail hp)).1
  obtain ⟨a, -, rfl⟩ := List.mem_map.mp hmem
  exact ⟨pid, _, hp, rfl⟩

theorem not_workDone {type : SchedulerType} {adds : List (Int × Int)} {s : Scheduler type}
    (hdup : ¬ (adds.map Prod.fst).Nodup)
    (hs : ∀ pid, shadowed pid s.processes = shadowed pid (adds.map added)) : ¬ WorkDone adds s := by
  intro hw
  obtain ⟨pid, p, hp, hready⟩ := exists_shadowed hdup
  rw [← hs pid] at hp
  have hfin := (hw.finished p (List.mem_filter.mp (List.mem_of_mem_tail hp)).1).1
  rw [hready] at hfin
  cases hfin

theorem fifo_shadowed {adds : List (Int × Int)} (hlen : adds.length ≤ maxProcesses) {fuel : Nat}
    {s : Scheduler .fifo} (hrun : schedulerRun fuel (addAll schedulerCreateFifo adds) = some s)
    (pid : Int) : shadowed pid s.processes = shadowed pid (adds.map added) := by
  rw [← addAll_processes (s := schedulerCreateFifo) rfl hlen]
  exact Head.conserved (fun r : Scheduler .fifo => shadowed pid r.processes)
    (fun r => fifoStep_shadowed r pid) (run_head hrun).1

theorem rr_shadowed {adds : List (Int × Int)} (hlen : adds.length ≤ maxProcesses) {quantum : Int}
    {fuel : Nat} {s : Scheduler .roundRobin}
    (hrun : schedulerRunRr fuel (addAll (schedulerCreateRr quantum) adds) = some s)
    (pid : Int) : shadowed pid s.processes = shadowed pid (adds.map added) := by
  rw [← addAll_processes (s := schedulerCreateRr quantum) rfl hlen]
  exact Head.conserved (fun r : Scheduler .roundRobin => shadowed pid r.processes)
    (fun r => rrStep_shadowed r pid) (run_head hrun).1

section OneRun

variable {adds : List (Int × Int)} (hlen : adds.length ≤ maxProcesses)

include hlen

theorem fifo_workDone_iff :
    (∃ fuel s, schedulerRun fuel (addAll schedulerCreateFifo adds) = some s ∧ WorkDone adds s) ↔
      (adds.map Prod.fst).Nodup := by
  constructor
  · intro ⟨fuel, s, hrun, hw⟩
    by_contra hdup
    exact not_workDone hdup (fifo_shadowed hlen hrun) hw
  · intro hpids
    obtain ⟨fuel, s, hrun, hs⟩ := schedulerRun_serial hlen hpids
    exact ⟨fuel, s, hrun, hs.workDone (List.Perm.refl _) rfl rfl rfl⟩

theorem rr_workDone_iff {quantum : Int} (hbursts : ∀ a ∈ adds, 0 ≤ a.2) (hq : 1 ≤ quantum) :
    (∃ fuel s, schedulerRunRr fuel (addAll (schedulerCreateRr quantum) adds) = some s ∧
      WorkDone adds s) ↔ (adds.map Prod.fst).Nodup := by
  constructor
  · intro ⟨fuel, s, hrun, hw⟩
    by_contra hdup
    exact not_workDone hdup (rr_shadowed hlen hrun) hw
  · intro hpids
    have hinv := addAll_rrInvariant quantum hlen hpids hbursts
    obtain ⟨s, fuel, hrun⟩ := hinv.returns hq
    exact ⟨fuel, s, hrun, (hinv.returned hq ⟨fuel, hrun⟩).workDone⟩

/-- SJF goes by array cell, so equal pids do no harm. -/
theorem sjf_workDone :
    ∃ s, schedulerRunSjf (addAll schedulerCreateSjf adds) = some s ∧ WorkDone adds s := by
  obtain ⟨s, hrun, hs⟩ := schedulerRunSjf_serial hlen
  exact ⟨s, hrun, hs.workDone (List.mergeSort_perm _ _) rfl rfl rfl⟩

end OneRun

structure AllDone (quantum : Int) (adds : List (Int × Int)) : Prop where
  fifo : ∃ fuel s, schedulerRun fuel (addAll schedulerCreateFifo adds) = some s ∧ WorkDone adds s
  roundRobin : ∃ fuel s,
    schedulerRunRr fuel (addAll (schedulerCreateRr quantum) adds) = some s ∧ WorkDone adds s
  sjf : ∃ s, schedulerRunSjf (addAll schedulerCreateSjf adds) = some s ∧ WorkDone adds s

theorem allDone_iff {quantum : Int} {adds : List (Int × Int)} (hlen : adds.length ≤ maxProcesses)
    (hbursts : ∀ a ∈ adds, 0 ≤ a.2) (hq : 1 ≤ quantum) :
    AllDone quantum adds ↔ (adds.map Prod.fst).Nodup := by
  constructor
  · intro h
    exact (fifo_workDone_iff hlen).mp h.fifo
  · intro hpids
    exact ⟨(fifo_workDone_iff hlen).mpr hpids, (rr_workDone_iff hlen hbursts hq).mpr hpids,
      sjf_workDone hlen⟩

theorem allDone_iff_example :
    let adds : List (Int × Int) := [(1, 5), (2, 0)]
    AllDone 2 adds ↔ (adds.map Prod.fst).Nodup :=
  allDone_iff (by decide) (by decide) (by decide)

/-- Two processes with pid 1: the second one is never run by FIFO or Round Robin. -/
theorem not_allDone_duplicate : ¬ AllDone 2 [(1, 5), (1, 3)] := by
  intro h
  have hpids := (fifo_workDone_iff (by decide)).mp h.fifo
  exact absurd hpids (by decide)

end MiniOS
