import MiniOS.ClockRange
import MiniOS.RoundRobinReference

/-! First runs in `int` arithmetic. As long as the bursts add up to an `int` a checked run does what
the unchecked one does, so its slices are those of the reference and its processes finish when the
formula says. One unit more and the clock overflows before the queue is empty. -/

namespace MiniOS

open WhileLoop

section FirstRun

variable {quantum : Int} {adds : List (Int × Int)}

theorem dispatches_le {burst : Int} (hq : 1 ≤ quantum) (hb : 1 ≤ burst) :
    dispatches quantum burst ≤ burst := by
  have hlt := (lt_dispatches_iff hq burst.toNat burst).not.mpr
  rw [Int.toNat_of_nonneg (by omega)] at hlt
  refine not_lt.mp (hlt (not_or.mpr ⟨by omega, not_lt.mpr ?_⟩))
  calc burst = burst * 1 := (Int.mul_one burst).symm
    _ ≤ burst * quantum := Int.mul_le_mul_of_nonneg_left hq (by omega)

theorem sum_dispatches_le (hq : 1 ≤ quantum) (hbursts : ∀ a ∈ adds, 1 ≤ a.2) :
    (adds.map (fun a => dispatches quantum a.2)).sum ≤ (adds.map Prod.snd).sum :=
  List.sum_le_sum (fun a ha => dispatches_le hq (hbursts a ha))

section Bounds

variable (hlen : adds.length ≤ maxProcesses) (hpids : (adds.map Prod.fst).Nodup)
  (hbursts : ∀ a ∈ adds, 0 ≤ a.2) (hq : 1 ≤ quantum)

include hlen hpids hbursts hq

/-- A checked run completes exactly when clock and history have room for all of it. -/
theorem rr_completes_iff :
    (∃ fuel t, schedulerRunRrChecked fuel (addAll (schedulerCreateRr quantum) adds) = some t) ↔
      (adds.map Prod.snd).sum ≤ intMax ∧
        (adds.map (fun a => dispatches quantum a.2)).sum ≤ intMax := by
  rw [← rr_exact_iff hlen hpids hbursts hq]
  constructor
  · rintro ⟨fuel, t, hrun⟩
    exact exact_of_runM (fun _ _ h => (rrStepChecked_some h).1) hrun
  · intro hexact
    obtain ⟨t, fuel, hrun⟩ := (addAll_rrInvariant quantum hlen hpids hbursts).returns hq
    exact ⟨fuel, t, (hexact.runM_eq fuel).trans hrun⟩

theorem rr_overflows (hsum : intMax < (adds.map Prod.snd).sum) (fuel : Nat) :
    schedulerRunRrChecked fuel (addAll (schedulerCreateRr quantum) adds) = none := by
  cases hrun : schedulerRunRrChecked fuel (addAll (schedulerCreateRr quantum) adds) with
  | none => rfl
  | some t =>
    have hfits := (rr_completes_iff hlen hpids hbursts hq).mp ⟨fuel, t, hrun⟩
    exact absurd hfits.1 (not_le.mpr hsum)

theorem first_runs_eq (hfits : (adds.map Prod.snd).sum ≤ intMax)
    (hslices : (adds.map (fun a => dispatches quantum a.2)).sum ≤ intMax) :
    (∀ fuel, schedulerRunChecked fuel (addAll schedulerCreateFifo adds) =
      schedulerRun fuel (addAll schedulerCreateFifo adds)) ∧
    schedulerRunSjfChecked (addAll schedulerCreateSjf adds) =
      schedulerRunSjf (addAll schedulerCreateSjf adds) ∧
    ∀ fuel, schedulerRunRrChecked fuel (addAll (schedulerCreateRr quantum) adds) =
      schedulerRunRr fuel (addAll (schedulerCreateRr quantum) adds) :=
  ⟨((fifo_exact_iff hlen hpids hbursts).mpr hfits).runM_eq,
    (sjf_exact_iff hlen hbursts).mpr hfits,
    ((rr_exact_iff hlen hpids hbursts hq).mpr ⟨hfits, hslices⟩).runM_eq⟩

end Bounds

theorem schedulerRunRrChecked_eq_reference (hlen : adds.length ≤ maxProcesses)
    (hpids : (adds.map Prod.fst).Nodup) (hbursts : ∀ a ∈ adds, 1 ≤ a.2) (hq : 1 ≤ quantum)
    (hfits : (adds.map Prod.snd).sum ≤ intMax) :
    ∃ fuel s passes r,
      schedulerRunRrChecked fuel (addAll (schedulerCreateRr quantum) adds) = some s ∧
      simulateRoundRobin passes adds quantum = some r ∧
      s.slices.map (fun x => (x.pid, x.executed)) = r.slices ∧
      s.currentTime = r.time ∧
      s.history.top.reverse = r.slices.map Prod.fst := by
  have hnonneg : ∀ a ∈ adds, 0 ≤ a.2 := fun a ha => Int.le_trans (by decide) (hbursts a ha)
  obtain ⟨-, -, hsame⟩ := first_runs_eq hlen hpids hnonneg hq hfits
    ((sum_dispatches_le hq hbursts).trans hfits)
  obtain ⟨fuel, s, passes, r, hrun, hrest⟩ := schedulerRunRr_eq_reference hlen hpids hbursts hq
  exact ⟨fuel, s, passes, r, (hsame fuel).trans hrun, hrest⟩

theorem schedulerRunRrChecked_eq_reference_example :
    ∃ fuel s passes r,
      schedulerRunRrChecked fuel (addAll (schedulerCreateRr 2) [(1, 5), (2, 3), (3, 4)]) = some s ∧
      simulateRoundRobin passes [(1, 5), (2, 3), (3, 4)] 2 = some r ∧
      s.slices.map (fun x => (x.pid, x.executed)) = r.slices ∧
      s.currentTime = r.time ∧
      s.history.top.reverse = r.slices.map Prod.fst :=
  schedulerRunRrChecked_eq_reference (by decide) (by decide) (by decide) (by decide) (by decide)

/-- One unit after a burst of `INT_MAX` has no place in the clock, the reference counts on. -/
theorem not_schedulerRunRrChecked_eq_reference :
    (∀ fuel, schedulerRunRrChecked fuel
      (addAll (schedulerCreateRr 2147483647) [(1, 2147483647), (2, 1)]) = none) ∧
    (simulateRoundRobin 1 [(1, 2147483647), (2, 1)] 2147483647).map Reference.time =
      some 2147483648 :=
  ⟨rr_overflows (by decide) (by decide) (by decide) (by decide) (by decide), by decide⟩

/-! Finish times -/

/-- In the iteration from `s` to `t` of the checked loop the process becomes FINISHED. -/
def FinishesIn (start : Scheduler .roundRobin) (pid : Int) (s t : Scheduler .roundRobin) : Prop :=
  (∃ n, afterM rrWaiting rrStepChecked n start = some s) ∧ rrWaiting s = true ∧
    rrStepChecked s = some t ∧ ¬ FinishedIn s pid ∧ FinishedIn t pid

theorem finishesIn_iff {start s t : Scheduler .roundRobin} {pid : Int}
    (h : Exact rrWaiting rrStepChecked rrStep start) :
    FinishesIn start pid s t ↔
      Head rrWaiting rrStep start s ∧ BecomesFinished pid s ∧ t = rrStep s := by
  constructor
  · rintro ⟨⟨n, hn⟩, hw, ht, hbefore, hafter⟩
    obtain rfl := Option.some.inj ((h n).symm.trans hn)
    obtain ⟨rfl, -⟩ := rrStepChecked_some ht
    exact ⟨after_head _ _ n start, ⟨hw, hbefore, hafter⟩, rfl⟩
  · rintro ⟨hhead, ⟨hw, hbefore, hafter⟩, rfl⟩
    obtain ⟨n, rfl⟩ := hhead.exists_after
    exact ⟨⟨n, h n⟩, hw, h.step_eq hw, hbefore, hafter⟩

/-- Every process gets the processor as often as its burst needs slices, and finishes when the
others have run that many rounds or one less, as long as clock and history have room. -/
theorem schedulerRunRrChecked_finish_times (hlen : adds.length ≤ maxProcesses)
    (hpids : (adds.map Prod.fst).Nodup) (hbursts : ∀ a ∈ adds, 0 ≤ a.2) (hq : 1 ≤ quantum)
    (hfits : (adds.map Prod.snd).sum ≤ intMax)
    (hslices : (adds.map (fun a => dispatches quantum a.2)).sum ≤ intMax) :
    let start := addAll (schedulerCreateRr quantum) adds
    ∃ fuel t, schedulerRunRrChecked fuel start = some t ∧
      ∀ before a after, adds = before ++ a :: after →
        let k := dispatches quantum a.2
        (t.history.top.count a.1 : Int) = k ∧
        (∃ s u, FinishesIn start a.1 s u) ∧
        ∀ s u, FinishesIn start a.1 s u →
          u.currentTime = (before.map (fun b => min b.2 (k * quantum))).sum + a.2 +
            (after.map (fun b => min b.2 ((k - 1) * quantum))).sum := by
  intro start
  have hexact := (rr_exact_iff hlen hpids hbursts hq).mpr ⟨hfits, hslices⟩
  obtain ⟨fuel, t, hrun, hall⟩ := schedulerRunRr_finish_times hlen hpids hbursts hq
  refine ⟨fuel, t, (hexact.runM_eq fuel).trans hrun, fun before a after hadds => ?_⟩
  obtain ⟨hcount, ⟨s, hs, hfin⟩, htime⟩ := hall before a after hadds
  refine ⟨hcount, ⟨s, rrStep s, (finishesIn_iff hexact).mpr ⟨hs, hfin, rfl⟩⟩, ?_⟩
  intro s u hsu
  obtain ⟨hs, hfin, rfl⟩ := (finishesIn_iff hexact).mp hsu
  exact htime s hs hfin

theorem schedulerRunRrChecked_finish_times_example :
    ∃ fuel t, schedulerRunRrChecked fuel
        (addAll (schedulerCreateRr 2) [(1, 5), (2, 3), (3, 4)]) = some t ∧
      (t.history.top.count 2 : Int) = 2 ∧
      ∀ s u, FinishesIn (addAll (schedulerCreateRr 2) [(1, 5), (2, 3), (3, 4)]) 2 s u →
        u.currentTime = 9 := by
  obtain ⟨fuel, t, hrun, hall⟩ := @schedulerRunRrChecked_finish_times 2 [(1, 5), (2, 3), (3, 4)]
    (by decide) (by decide) (by decide) (by decide) (by decide) (by decide)
  obtain ⟨hcount, -, htime⟩ := hall [(1, 5)] (2, 3) [(3, 4)] rfl
  exact ⟨fuel, t, hrun, hcount, htime⟩

/-- The second process would have to finish at 2 ^ 31. -/
theorem not_schedulerRunRrChecked_finish_times :
    ¬ ∃ s u, FinishesIn
      (addAll (schedulerCreateRr 2147483647) [(1, 2147483647), (2, 1)]) 2 s u := by
  rintro ⟨s, u, ⟨n, hn⟩, hw, hu, hbefore, hafter⟩
  obtain ⟨rfl, hs⟩ := afterM_some (fun _ _ => rrStepChecked_some) hn
  obtain ⟨rfl, hrange⟩ := rrStepChecked_some hu
  obtain ⟨fuel, t, -, hall⟩ := @schedulerRunRr_finish_times 2147483647 [(1, 2147483647), (2, 1)]
    (by decide) (by decide) (by decide) (by decide)
  obtain ⟨-, -, htime⟩ := hall [(1, 2147483647)] (2, 1) [] rfl
  have hclock := htime _ (after_head rrWaiting rrStep n _) ⟨hw, hbefore, hafter⟩
  have hmax := (hrange (hs (by decide))).1
  rw [hclock] at hmax
  exact absurd hmax (by decide)

end FirstRun

end MiniOS
