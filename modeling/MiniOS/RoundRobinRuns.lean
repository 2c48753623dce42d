import MiniOS.RoundRobin

/-! Interleavings of additions and Round Robin runs: what holds whenever the
loop tests its condition, and what every run returns with. -/

namespace MiniOS

open WhileLoop

inductive RrCall where
  | add (pid burstTime : Int)
  | run
  deriving DecidableEq, Repr

/-- The states between the calls of an interleaving of additions and runs. -/
inductive RrRun (quantum : Int) : List RrCall → Scheduler .roundRobin → Prop
  | create : RrRun quantum [] (schedulerCreateRr quantum)
  | add {calls s} (pid burstTime : Int) : RrRun quantum calls s →
      RrRun quantum (calls ++ [.add pid burstTime]) (schedulerAddProcess s pid burstTime)
  | run {calls s t} {fuel : Nat} : RrRun quantum calls s → schedulerRunRr fuel s = some t →
      RrRun quantum (calls ++ [.run]) t

def additions (calls : List RrCall) : List (Int × Int) :=
  calls.filterMap fun
    | .add pid burstTime => some (pid, burstTime)
    | .run => none

/-- The additions the process array had room for. -/
def admitted (calls : List RrCall) : List (Int × Int) := (additions calls).take maxProcesses

theorem rrRun_adds (quantum : Int) (adds : List (Int × Int)) :
    RrRun quantum (adds.map (fun a => .add a.1 a.2)) (addAll (schedulerCreateRr quantum) adds) := by
  induction adds using List.reverseRecOn with
  | nil => exact .create
  | append_singleton adds a ih =>
    rw [List.map_append, addAll, List.foldl_append]
    exact .add a.1 a.2 ih

theorem RrRun.invariant {quantum : Int} {calls : List RrCall} {s : Scheduler .roundRobin}
    (h : RrRun quantum calls s) (hq : 1 ≤ quantum) (hpids : ((additions calls).map Prod.fst).Nodup)
    (hbursts : ∀ a ∈ additions calls, 0 ≤ a.2) :
    ∃ waiting, RrInvariant (admitted calls) quantum s waiting := by
  induction h with
  | create => exact ⟨[], RrInvariant.create quantum⟩
  | @add calls s pid burstTime _ ih =>
    have hadds : additions (calls ++ [.add pid burstTime]) = additions calls ++ [(pid, burstTime)] := by
      rw [additions, List.filterMap_append]
      rfl
    rw [hadds, List.map_append, List.map_singleton, List.nodup_append] at hpids
    rw [hadds] at hbursts
    obtain ⟨w, hw⟩ := ih hpids.1 (fun b hb => hbursts b (List.mem_append_left _ hb))
    have hlen := congrArg List.length hw.identity
    rw [List.length_map, admitted, List.length_take] at hlen
    rw [admitted, hadds]
    by_cases hfull : (additions calls).length < maxProcesses
    · have hall : admitted calls = additions calls := List.take_of_length_le hfull.le
      rw [List.take_of_length_le (by rw [List.length_append, List.length_singleton]; omega), ← hall]
      refine ⟨_, hw.add (by omega) ?_ (hbursts (pid, burstTime) (by simp))⟩
      rw [hall]
      exact fun hmem => hpids.2.2 _ hmem _ List.mem_cons_self rfl
    · rw [List.take_append_of_le_length (by omega), schedulerAddProcess_of_full (by omega)]
      exact ⟨w, hw⟩
  | @run calls s t fuel _ hrun ih =>
    have hadds : additions (calls ++ [.run]) = additions calls := by
      rw [additions, List.filterMap_append, additions]
      simp
    rw [hadds] at hpids hbursts
    obtain ⟨w, hw⟩ := ih hpids hbursts
    rw [admitted, hadds]
    exact ⟨[], hw.returned hq ⟨fuel, hrun⟩⟩

/-- The bookkeeping of a Round Robin scheduler at the head of its loop. -/
structure RrConsistent (admitted : List (Int × Int)) (quantum : Int) (s : Scheduler .roundRobin) :
    Prop where
  identity : s.processes.map (fun p => (p.pid, p.burstTime)) = admitted
  queue_nodup : s.queue.toList.Nodup
  mem_queue : ∀ pid, pid ∈ s.queue.toList ↔ ∃ p ∈ s.processes, p.pid = pid ∧ p.state ≠ .finished
  remaining : ∀ p ∈ s.processes, 0 ≤ p.remainingTime ∧ p.remainingTime ≤ p.burstTime ∧
    (p.state = .finished → p.remainingTime = 0)
  clock : s.currentTime + (s.processes.map Process.remainingTime).sum =
    (s.processes.map Process.burstTime).sum
  completed_eq : s.completed = s.processes.countP (fun p => p.state = .finished)
  finished_sorted : s.finishedList.head.Pairwise (fun a b => a.pid ≤ b.pid)
  finished_size : s.finishedList.size = s.finishedList.head.length
  finished_perm : s.finishedList.head.Perm
    ((s.processes.filter (fun p => p.state = .finished)).map Process.node)
  slices_bounds : ∀ x ∈ s.slices, 0 ≤ x.executed ∧ x.executed ≤ quantum
  /-- `cq_resize` is not reached: an addition and a slice find a free cell. -/
  capacity_eq : s.queue.capacity = maxProcesses
  room_add : s.processes.length < maxProcesses → cqIsFull s.queue = false
  room_slice : cqIsEmpty s.queue = false → cqIsFull (cqDequeue s.queue).2 = false

theorem RrInvariant.consistent {adm : List (Int × Int)} {quantum : Int} {s : Scheduler .roundRobin}
    {waiting : List Process} (h : RrInvariant adm quantum s waiting) :
    RrConsistent adm quantum s := by
  have hdec : Process.isFinished = fun p => decide (p.state = .finished) := by
    funext p
    rw [Process.isFinished, Bool.eq_iff_iff, beq_iff_eq, decide_eq_true_eq]
  have hqueue : s.queue.toList.Perm
      ((s.processes.filter (fun p => !p.isFinished)).map Process.pid) := by
    rw [h.queue_eq]
    exact h.waiting_perm.map _
  have hwl := h.waiting_length
  constructor
  case identity => exact h.identity
  case queue_nodup =>
    rw [hqueue.nodup_iff]
    exact h.distinct.sublist (List.filter_sublist.map _)
  case mem_queue =>
    intro pid
    rw [hqueue.mem_iff, List.mem_map]
    constructor
    · rintro ⟨p, hp, rfl⟩
      obtain ⟨hmem, hf⟩ := List.mem_filter.mp hp
      exact ⟨p, hmem, rfl, by simpa [Process.isFinished] using hf⟩
    · rintro ⟨p, hp, rfl, hf⟩
      exact ⟨p, List.mem_filter.mpr ⟨hp, by simpa [Process.isFinished] using hf⟩, rfl⟩
  case remaining =>
    intro p hp
    obtain ⟨h0, hle, hfin⟩ := h.remaining p hp
    exact ⟨h0, hle, fun hs => hfin (by simpa [Process.isFinished] using hs)⟩
  case clock => exact h.clock
  case completed_eq => rw [h.completed_eq, hdec]
  case finished_sorted => exact h.finished_ordered.sorted
  case finished_size => exact h.finished_ordered.size_eq
  case finished_perm =>
    have hp := h.finished_perm
    rwa [hdec] at hp
  case slices_bounds => exact h.slices_bounds
  case capacity_eq => exact h.capacity_eq
  case room_add =>
    intro hroom
    rw [cqIsFull, beq_eq_false_iff_ne, h.size_eq, h.capacity_eq]
    omega
  case room_slice =>
    intro hne
    have hl := congrArg List.length (h.queue_valid.dequeue hne).2
    have hle := h.length_le
    rw [List.length_cons, CircularQueue.length_toList, CircularQueue.length_toList, h.size_eq] at hl
    rw [cqIsFull, beq_eq_false_iff_ne, CircularQueue.dequeue_capacity, h.capacity_eq]
    omega

theorem reachable_rr_consistent {quantum : Int} {calls : List RrCall} {s : Scheduler .roundRobin}
    (hrun : RrRun quantum calls s) (hq : 1 ≤ quantum)
    (hpids : ((additions calls).map Prod.fst).Nodup) (hbursts : ∀ a ∈ additions calls, 0 ≤ a.2) :
    (∃ fuel t, schedulerRunRr fuel s = some t) ∧
    (∀ t, Head rrWaiting rrStep s t → RrConsistent (admitted calls) quantum t) ∧
    ∀ fuel t, schedulerRunRr fuel s = some t → RrConsistent (admitted calls) quantum t ∧
      (∀ p ∈ t.processes, p.state = .finished) ∧
      t.currentTime = ((admitted calls).map Prod.snd).sum := by
  obtain ⟨w, hw⟩ := hrun.invariant hq hpids hbursts
  refine ⟨?_, ?_, ?_⟩
  · obtain ⟨t, fuel, ht⟩ := hw.returns hq
    exact ⟨fuel, t, ht⟩
  · intro t ht
    obtain ⟨w', hw'⟩ := hw.head hq ht
    exact hw'.consistent
  · intro fuel t ht
    have hend := hw.returned hq ⟨fuel, ht⟩
    exact ⟨hend.consistent, hend.all_finished, hend.final_time⟩

theorem reachable_rr_consistent_example :
    ∃ s, schedulerRunRr 3 (schedulerAddProcess (schedulerCreateRr 2) 7 5) = some s ∧
      (∃ fuel t, schedulerRunRr fuel (schedulerAddProcess s 3 0) = some t) ∧
      (∀ t, Head rrWaiting rrStep (schedulerAddProcess s 3 0) t → RrConsistent [(7, 5), (3, 0)] 2 t) ∧
      ∀ fuel t, schedulerRunRr fuel (schedulerAddProcess s 3 0) = some t →
        RrConsistent [(7, 5), (3, 0)] 2 t ∧ (∀ p ∈ t.processes, p.state = .finished) ∧
        t.currentTime = 5 := by
  obtain ⟨s, hs⟩ : ∃ s, schedulerRunRr 3 (schedulerAddProcess (schedulerCreateRr 2) 7 5) = some s :=
    Option.isSome_iff_exists.mp (by decide)
  exact ⟨s, hs, reachable_rr_consistent (.add 3 0 (.run (.add 7 5 .create) hs)) (by decide)
    (by decide) (by decide)⟩

/-- 256 admitted processes leave no free cell in the queue. -/
theorem rr_queue_full :
    let adds : List (Int × Int) := (List.range maxProcesses).map (fun i : Nat => ((i : Int), 1))
    let s := addAll (schedulerCreateRr 1) adds
    RrRun 1 (adds.map (fun a => .add a.1 a.2)) s ∧ (adds.map Prod.fst).Nodup ∧
      (∀ a ∈ adds, 0 ≤ a.2) ∧ Head rrWaiting rrStep s s ∧ cqIsFull s.queue = true := by
  intro adds s
  have hpids : (adds.map Prod.fst).Nodup := by
    rw [List.map_map]
    exact List.nodup_range.map (fun a b hab => Int.ofNat.inj hab)
  have hbursts : ∀ a ∈ adds, 0 ≤ a.2 := by
    intro a ha
    obtain ⟨i, -, rfl⟩ := List.mem_map.mp ha
    exact Int.one_nonneg
  have hlen : adds.length = maxProcesses := by rw [List.length_map, List.length_range]
  have h := addAll_rrInvariant 1 hlen.le hpids hbursts
  refine ⟨rrRun_adds 1 adds, hpids, hbursts, .refl, ?_⟩
  rw [cqIsFull, beq_iff_eq, h.size_eq, h.capacity_eq, List.length_map, hlen]

end MiniOS
