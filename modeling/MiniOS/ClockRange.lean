import MiniOS.RoundRobinTermination
import MiniOS.SerialAgreement

/-! When a run of a scheduler overflows no `int`. -/

namespace MiniOS

open WhileLoop

variable {type : SchedulerType}

theorem addAll_unstarted {s : Scheduler type} {adds : List (Int × Int)}
    (hlen : adds.length ≤ maxProcesses) (hbursts : ∀ a ∈ adds, 0 ≤ a.2)
    (hstart : SameRecord s schedulerCreateFifo) :
    Accounted (addAll s adds) ∧ Unstarted (addAll s adds) := by
  have hroom : s.processes.length + adds.length ≤ maxProcesses := by
    rw [hstart.processes_eq]
    simpa [schedulerCreateFifo] using hlen
  rw [addAll_eq hroom]
  refine ⟨⟨hstart.time_eq.ge, hstart.completed_eq.ge, ?_⟩, hstart.time_eq, hstart.completed_eq,
    congrArg LinkedList.head hstart.finished_eq, congrArg Stack.top hstart.history_eq⟩
  intro p hp
  change p ∈ s.processes ++ adds.map added at hp
  rw [hstart.processes_eq] at hp
  obtain ⟨a, ha, rfl⟩ := List.mem_map.mp (show p ∈ adds.map added from hp)
  exact hbursts a ha

theorem turnsLeft_added (quantum : Int) (adds : List (Int × Int)) :
    (turnsLeft quantum (adds.map added) : Int) =
      (adds.map (fun a => dispatches quantum a.2)).sum := by
  induction adds with
  | nil => rfl
  | cons a adds ih =>
    have hone := dispatches_pos quantum a.2
    simp only [turnsLeft, List.map_cons, List.sum_cons, Nat.cast_add] at ih ⊢
    rw [ih]
    show ((dispatches quantum a.2).toNat : Int) + _ = _
    omega

section OneRun

variable {adds : List (Int × Int)} (hlen : adds.length ≤ maxProcesses)
  (hpids : (adds.map Prod.fst).Nodup) (hbursts : ∀ a ∈ adds, 0 ≤ a.2)

include hlen hpids hbursts

theorem fifo_exact_iff :
    Exact fifoWaiting fifoStepChecked fifoStep (addAll schedulerCreateFifo adds) ↔
      (adds.map Prod.snd).sum ≤ intMax := by
  obtain ⟨fuel, t, hrun, ht⟩ := schedulerRun_serial hlen hpids
  obtain ⟨hacc, hnew⟩ := addAll_unstarted (s := schedulerCreateFifo) hlen hbursts
    ⟨rfl, rfl, rfl, rfl, rfl, rfl⟩
  have htidy : Tidy (addAll schedulerCreateFifo adds) :=
    Tidy.addAll ⟨LinkedList.create_ordered, rfl⟩ adds
  have hend := ht.inRange_iff (htidy.schedulerRun hrun) (by rwa [List.length_map])
    ⟨rfl, rfl, rfl, rfl⟩
  rw [List.map_map] at hend
  refine Iff.trans ?_ hend
  exact exact_iff_of_run (fun _ hs hin _ => fifoStepChecked_eq hs hin)
    (fun _ hs _ h => hs.inRange_of_fifoStep h) (fun _ hs _ => hs.fifoStep) hacc (hnew.inRange htidy)
    hrun

omit hpids in
theorem sjf_exact_iff :
    schedulerRunSjfChecked (addAll schedulerCreateSjf adds) =
        schedulerRunSjf (addAll schedulerCreateSjf adds) ↔ (adds.map Prod.snd).sum ≤ intMax := by
  obtain ⟨t, hrun, ht⟩ := schedulerRunSjf_serial hlen
  obtain ⟨hacc, hnew⟩ := addAll_unstarted (s := schedulerCreateSjf) hlen hbursts
    ⟨rfl, rfl, rfl, rfl, rfl, rfl⟩
  have htidy : Tidy (addAll schedulerCreateSjf adds) :=
    Tidy.addAll ⟨LinkedList.create_ordered, rfl⟩ adds
  have hend := ht.inRange_iff (htidy.schedulerRunSjf hrun)
    (by rwa [List.length_mergeSort, List.length_map]) ⟨rfl, rfl, rfl, rfl⟩
  rw [((List.mergeSort_perm _ _).map Process.burstTime).sum_eq, List.map_map] at hend
  rw [schedulerRunSjfChecked_eq hacc (hnew.inRange htidy) hrun, hrun]
  refine Iff.trans ?_ hend
  by_cases hin : InRange t
  · simp [hin]
  · simp [hin]

theorem rr_exact_iff {quantum : Int} (hq : 1 ≤ quantum) :
    Exact rrWaiting rrStepChecked rrStep (addAll (schedulerCreateRr quantum) adds) ↔
      (adds.map Prod.snd).sum ≤ intMax ∧
        (adds.map (fun a => dispatches quantum a.2)).sum ≤ intMax := by
  have hspec : addAll (schedulerCreateRr quantum) adds = rrAdmit quantum (adds.map added) := by
    rw [rrAdmit, List.foldl_map]
    rfl
  have hready : adds.map added = readyRecords ((adds.map added).take maxProcesses) := by
    rw [List.take_of_length_le (by rwa [List.length_map]), readyRecords_eq_self]
    · rw [List.map_map]
      exact hpids
    · intro p hp
      obtain ⟨a, -, rfl⟩ := List.mem_map.mp hp
      rfl
  have hservable : ∀ p ∈ adds.map added, Servable quantum p := by
    intro p hp
    obtain ⟨a, ha, rfl⟩ := List.mem_map.mp hp
    exact Or.inl ⟨hq, hbursts a ha⟩
  obtain ⟨t, fuel, hrun⟩ := (addAll_rrInvariant quantum hlen hpids hbursts).returns hq
  rw [hspec] at hrun ⊢
  rw [rrAdmit_exact_iff hready hservable ⟨fuel, t, hrun⟩, turnsLeft_added, List.map_map]
  exact Iff.rfl

end OneRun

/-- No `int` overflows in a run of FIFO or SJF exactly when the bursts add up to an `int`, and
in one of Round Robin when the slices do too. -/
theorem schedulers_exact_iff {adds : List (Int × Int)} {quantum : Int}
    (hlen : adds.length ≤ maxProcesses) (hpids : (adds.map Prod.fst).Nodup)
    (hbursts : ∀ a ∈ adds, 0 ≤ a.2 ∧ a.2 ≤ intMax) (hq : 1 ≤ quantum) :
    let total := (adds.map Prod.snd).sum
    (Exact fifoWaiting fifoStepChecked fifoStep (addAll schedulerCreateFifo adds) ↔
      total ≤ intMax) ∧
    (schedulerRunSjfChecked (addAll schedulerCreateSjf adds) =
      schedulerRunSjf (addAll schedulerCreateSjf adds) ↔ total ≤ intMax) ∧
    (Exact rrWaiting rrStepChecked rrStep (addAll (schedulerCreateRr quantum) adds) ↔
      total ≤ intMax ∧ (adds.map (fun a => dispatches quantum a.2)).sum ≤ intMax) :=
  have hnonneg : ∀ a ∈ adds, 0 ≤ a.2 := fun a ha => (hbursts a ha).1
  ⟨fifo_exact_iff hlen hpids hnonneg, sjf_exact_iff hlen hnonneg,
    rr_exact_iff hlen hpids hnonneg hq⟩

/-- One burst of 2 ^ 31 - 1 is the longest schedule; any further unit overflows. -/
theorem schedulers_exact_iff_example :
    let adds : List (Int × Int) := [(1, 2147483647), (2, 1)]
    let total := (adds.map Prod.snd).sum
    (Exact fifoWaiting fifoStepChecked fifoStep (addAll schedulerCreateFifo adds) ↔
      total ≤ intMax) ∧
    (schedulerRunSjfChecked (addAll schedulerCreateSjf adds) =
      schedulerRunSjf (addAll schedulerCreateSjf adds) ↔ total ≤ intMax) ∧
    (Exact rrWaiting rrStepChecked rrStep (addAll (schedulerCreateRr 2) adds) ↔
      total ≤ intMax ∧ (adds.map (fun a => dispatches 2 a.2)).sum ≤ intMax) :=
  schedulers_exact_iff (by decide) (by decide) (by decide) (by decide)

end MiniOS
