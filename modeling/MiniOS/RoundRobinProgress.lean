import MiniOS.FinishTimes
import MiniOS.RoundRobinRuns

/-! How long a Round Robin run takes and how long a process in the queue waits for the
processor, from every state that additions and runs lead to. -/

namespace MiniOS

open WhileLoop

/-- The iterations the queue is still good for. -/
def turnsLeft (quantum : Int) (waiting : List Process) : Nat :=
  (waiting.map (fun p => (dispatches quantum p.remainingTime).toNat)).sum

theorem dispatches_pos (quantum burst : Int) : 1 ≤ dispatches quantum burst := le_max_left _ _

theorem dispatches_of_le {quantum burst : Int} (hq : 1 ≤ quantum) (h : burst ≤ quantum) :
    dispatches quantum burst = 1 := by
  have hlt := mt (lt_dispatches_iff hq 1 burst).mp
  have hpos := dispatches_pos quantum burst
  rw [Int.natCast_one, Int.one_mul] at hlt
  have hnot := hlt (by omega)
  omega

theorem dispatches_of_lt {quantum burst : Int} (hq : 1 ≤ quantum) (h : quantum < burst) :
    dispatches quantum burst = dispatches quantum (burst - quantum) + 1 := by
  have hdiv : (burst + quantum - 1) / quantum = (burst - quantum + quantum - 1) / quantum + 1 := by
    rw [show burst + quantum - 1 = burst - quantum + quantum - 1 + 1 * quantum by omega,
      Int.add_mul_ediv_right _ _ (by omega)]
  have hone : 1 ≤ (burst - quantum + quantum - 1) / quantum := by
    rw [Int.le_ediv_iff_mul_le (by omega)]
    omega
  rw [dispatches, dispatches, hdiv, max_eq_right (by omega), max_eq_right hone]

namespace RrInvariant

variable {adm : List (Int × Int)} {quantum : Int} {s t : Scheduler .roundRobin} {p : Process}
  {waiting : List Process}

theorem step_turns (hq : 1 ≤ quantum) (h : RrInvariant adm quantum s waiting)
    (hw : rrWaiting s = true) :
    ∃ waiting', RrInvariant adm quantum (rrStep s) waiting' ∧
      turnsLeft quantum waiting' + 1 = turnsLeft quantum waiting := by
  cases waiting with
  | nil => exact absurd rfl (h.waits_iff.mp hw)
  | cons p waiting =>
    refine ⟨_, h.step (by omega), ?_⟩
    have hdone : (p.afterSlice quantum).isFinished = true ↔ (p.afterSlice quantum).remainingTime = 0 :=
      Process.afterSlice_finished_iff
    have hleft : (p.afterSlice quantum).remainingTime =
      p.remainingTime - min p.remainingTime quantum := rfl
    by_cases hle : p.remainingTime ≤ quantum
    · have hone := dispatches_of_le hq hle
      rw [if_pos (hdone.mpr (by rw [hleft, min_eq_left hle]; omega))]
      simp only [turnsLeft, List.map_cons, List.sum_cons, hone]
      omega
    · have hmore := dispatches_of_lt hq (not_le.mp hle)
      have hpos := dispatches_pos quantum (p.remainingTime - quantum)
      rw [if_neg (fun hfin => hle (by have := hdone.mp hfin; omega))]
      have hrem : (p.afterSlice quantum).remainingTime = p.remainingTime - quantum := by omega
      simp only [turnsLeft, List.map_cons, List.sum_cons, List.map_append, List.sum_append,
        List.map_nil, List.sum_nil, hrem, hmore]
      omega

theorem turnsLeft_pos (h : RrInvariant adm quantum s waiting) :
    rrWaiting s = true ↔ 0 < turnsLeft quantum waiting := by
  rw [h.waits_iff]
  cases waiting with
  | nil => simp [turnsLeft]
  | cons p waiting =>
    have hpos := dispatches_pos quantum p.remainingTime
    simp only [turnsLeft, List.map_cons, List.sum_cons]
    constructor
    · omega
    · exact fun _ => List.cons_ne_nil _ _

/-- The loop returns within `fuel` iterations exactly when the queue holds no more turns. -/
theorem run_isSome_iff (hq : 1 ≤ quantum) (h : RrInvariant adm quantum s waiting) (fuel : Nat) :
    (schedulerRunRr fuel s).isSome ↔ turnsLeft quantum waiting ≤ fuel :=
  run_isSome_iff_of_countdown (turnsLeft quantum) (fun _ _ hs => hs.turnsLeft_pos)
    (fun _ _ hs hw => hs.step_turns hq hw) h

/-- The processes ahead are served one after another, a quantum each at most. -/
theorem turns (hq : 0 ≤ quantum) (ahead : List Process) {behind : List Process}
    (h : RrInvariant adm quantum s (ahead ++ p :: behind)) :
    let u := after rrWaiting rrStep ahead.length s
    (∃ behind', RrInvariant adm quantum u (p :: behind')) ∧
      (∃ rows, u.slices = s.slices ++ rows ∧ rows.map Slice.pid = ahead.map Process.pid) ∧
      u.currentTime ≤ s.currentTime + ahead.length * quantum := by
  induction ahead generalizing s behind with
  | nil => exact ⟨⟨behind, h⟩, ⟨[], by simp [after], rfl⟩, by simp [after]⟩
  | cons x ahead ih =>
    have hw := h.waits_iff.mpr (List.cons_ne_nil _ _)
    obtain ⟨htime, -, hslices, -⟩ := h.step_record
    have hnext : ∃ behind', RrInvariant adm quantum (rrStep s) (ahead ++ p :: behind') := by
      have hstep := h.step hq
      split_ifs at hstep
      · exact ⟨behind, hstep⟩
      · exact ⟨behind ++ [x.afterSlice quantum], by simpa using hstep⟩
    obtain ⟨behind', hnext⟩ := hnext
    obtain ⟨hlast, ⟨rows, hrows, hpids⟩, hclock⟩ := ih hnext
    rw [List.length_cons, after, if_pos hw]
    refine ⟨hlast, ⟨x.sliceFrom s.currentTime quantum :: rows, ?_, ?_⟩, ?_⟩
    · rw [hrows, hslices, List.append_assoc]
      rfl
    · rw [List.map_cons, List.map_cons, hpids]
      rfl
    · have hmin : min x.remainingTime quantum ≤ quantum := min_le_right _ _
      rw [Int.natCast_succ, Int.add_mul, Int.one_mul]
      omega

end RrInvariant

/-- From every loop head of every interleaving of additions and runs, the loop takes one
iteration for each quantum begun of each process that is not finished. -/
theorem schedulerRunRr_iterations {quantum : Int} {calls : List RrCall} {s t : Scheduler .roundRobin}
    (hrun : RrRun quantum calls s) (hq : 1 ≤ quantum)
    (hpids : ((additions calls).map Prod.fst).Nodup) (hbursts : ∀ a ∈ additions calls, 0 ≤ a.2)
    (ht : Head rrWaiting rrStep s t) (fuel : Nat) :
    (schedulerRunRr fuel t).isSome ↔
      turnsLeft quantum (t.processes.filter (fun p => p.state ≠ .finished)) ≤ fuel := by
  obtain ⟨waiting, hs⟩ := hrun.invariant hq hpids hbursts
  obtain ⟨waiting', h⟩ := hs.head hq ht
  have hsame : t.processes.filter (fun p => p.state ≠ .finished) =
      t.processes.filter (fun p => !p.isFinished) := by
    apply List.filter_congr
    intro p _
    rw [Bool.eq_iff_iff]
    simp [Process.isFinished]
  have hsum := (h.waiting_perm.map
    (fun p => (dispatches quantum p.remainingTime).toNat)).sum_eq
  rw [h.run_isSome_iff hq fuel, turnsLeft, hsum, hsame]
  rfl

theorem schedulerRunRr_iterations_example :
    let s := addAll (schedulerCreateRr 2) [(1, 5), (2, 3), (3, 4)]
    ((schedulerRunRr 6 s).isSome ↔ (7 : Nat) ≤ 6) ∧
      ((schedulerRunRr 7 s).isSome ↔ (7 : Nat) ≤ 7) := by
  intro s
  have hfuel := schedulerRunRr_iterations (rrRun_adds 2 [(1, 5), (2, 3), (3, 4)]) (by decide)
    (by decide) (by decide) .refl
  exact ⟨hfuel 6, hfuel 7⟩

/-- A process with `ahead.length` others before it in the queue is served in the turn after
theirs, which comes within as many quanta. -/
structure ServedNext (quantum : Int) (t : Scheduler .roundRobin) (ahead : List Int) (pid : Int) :
    Prop where
  running : rrWaiting (after rrWaiting rrStep ahead.length t) = true
  served_first : ∃ rows, (after rrWaiting rrStep ahead.length t).slices = t.slices ++ rows ∧
    rows.map Slice.pid = ahead
  clock_le : (after rrWaiting rrStep ahead.length t).currentTime ≤
    t.currentTime + ahead.length * quantum
  served : (rrStep (after rrWaiting rrStep ahead.length t)).history.top =
    pid :: (after rrWaiting rrStep ahead.length t).history.top

/-- No process in the queue waits for more than one quantum of each other process. -/
theorem schedulerRunRr_bounded_wait {quantum : Int} {calls : List RrCall}
    {s t : Scheduler .roundRobin} (hrun : RrRun quantum calls s) (hq : 1 ≤ quantum)
    (hpids : ((additions calls).map Prod.fst).Nodup) (hbursts : ∀ a ∈ additions calls, 0 ≤ a.2)
    (ht : Head rrWaiting rrStep s t) {ahead behind : List Int} {pid : Int}
    (hqueue : t.queue.toList = ahead ++ pid :: behind) :
    ServedNext quantum t ahead pid ∧ ahead.length < (admitted calls).length := by
  obtain ⟨waiting, hs⟩ := hrun.invariant hq hpids hbursts
  obtain ⟨waiting', h⟩ := hs.head hq ht
  have hpid := h.queue_eq
  rw [hqueue] at hpid
  obtain ⟨before, rest, rfl, rfl, hrest⟩ := List.map_eq_append_iff.mp hpid.symm
  obtain ⟨p, after', rfl, rfl, rfl⟩ := List.map_eq_cons_iff.mp hrest
  obtain ⟨⟨behind', hu⟩, hrows, hclock⟩ := h.turns (by omega) before
  have hlen := h.waiting_length
  have hadmitted := congrArg List.length h.identity
  rw [List.length_append, List.length_cons] at hlen
  rw [List.length_map] at hadmitted
  refine ⟨⟨?_, ?_, ?_, ?_⟩, ?_⟩
  · rw [List.length_map]
    exact hu.waits_iff.mpr (List.cons_ne_nil _ _)
  · rw [List.length_map]
    exact hrows
  · rw [List.length_map]
    exact hclock
  · rw [List.length_map]
    exact hu.step_record.2.1
  · rw [List.length_map]
    omega

theorem schedulerRunRr_bounded_wait_example :
    ServedNext 2 (addAll (schedulerCreateRr 2) [(1, 5), (2, 3), (3, 4)]) [1, 2] 3 ∧ 2 < 3 :=
  schedulerRunRr_bounded_wait (rrRun_adds 2 [(1, 5), (2, 3), (3, 4)]) (by decide) (by decide)
    (by decide) .refl rfl

/-! Equal shares -/

def Process.received (p : Process) : Int := p.burstTime - p.remainingTime

/-- The queue in the middle of a round: those behind have had their slice of it. -/
def EvenlyServed (quantum : Int) (waiting : List Process) : Prop :=
  ∃ ahead behind share, waiting = ahead ++ behind ∧ (∀ p ∈ ahead, p.received = share) ∧
    ∀ p ∈ behind, p.received = share + quantum

namespace EvenlyServed

variable {quantum : Int} {p p' : Process} {waiting : List Process}

theorem afterSlice_received {quantum : Int} {p : Process}
    (hf : ¬ (p.afterSlice quantum).isFinished = true) :
    (p.afterSlice quantum).received = p.received + quantum := by
  have hne : p.remainingTime - min p.remainingTime quantum ≠ 0 :=
    fun h => hf (Process.afterSlice_finished_iff.mpr h)
  have hmin : min p.remainingTime quantum = quantum := by omega
  rw [Process.received, Process.received, Process.afterSlice_burst]
  show p.burstTime - (p.remainingTime - min p.remainingTime quantum) = _
  rw [hmin]
  omega

/-- The process in front is one of those still to be served in its round. -/
theorem front (h : EvenlyServed quantum (p :: waiting)) :
    ∃ ahead behind, waiting = ahead ++ behind ∧ (∀ x ∈ ahead, x.received = p.received) ∧
      ∀ x ∈ behind, x.received = p.received + quantum := by
  obtain ⟨ahead, behind, share, hsplit, hahead, hbehind⟩ := h
  cases ahead with
  | nil =>
    rw [List.nil_append] at hsplit
    obtain ⟨hp, hwaiting⟩ := List.forall_mem_cons.mp (hsplit ▸ hbehind)
    exact ⟨waiting, [], (List.append_nil _).symm, fun x hx => (hwaiting x hx).trans hp.symm,
      fun x hx => absurd hx List.not_mem_nil⟩
  | cons y ahead =>
    rw [List.cons_append, List.cons.injEq] at hsplit
    obtain ⟨rfl, rfl⟩ := hsplit
    obtain ⟨hp, hahead⟩ := List.forall_mem_cons.mp hahead
    exact ⟨ahead, behind, rfl, fun x hx => (hahead x hx).trans hp.symm, fun x hx => by
      rw [hbehind x hx, hp]⟩

theorem step (h : EvenlyServed quantum (p :: waiting)) : EvenlyServed quantum
    (if (p.afterSlice quantum).isFinished then waiting else waiting ++ [p.afterSlice quantum]) := by
  obtain ⟨ahead, behind, rfl, hahead, hbehind⟩ := h.front
  by_cases hf : (p.afterSlice quantum).isFinished = true
  · rw [if_pos hf]
    exact ⟨ahead, behind, p.received, rfl, hahead, hbehind⟩
  · rw [if_neg hf]
    refine ⟨ahead, behind ++ [p.afterSlice quantum], p.received, List.append_assoc _ _ _, hahead, ?_⟩
    intro x hx
    rcases List.mem_append.mp hx with hx | hx
    · exact hbehind x hx
    · rw [List.mem_singleton.mp hx]
      exact afterSlice_received hf

theorem le (h : EvenlyServed quantum waiting) (hq : 0 ≤ quantum) (hp : p ∈ waiting)
    (hp' : p' ∈ waiting) : p.received ≤ p'.received + quantum := by
  obtain ⟨ahead, behind, share, rfl, hahead, hbehind⟩ := h
  have hlow : share ≤ p'.received := by
    rcases List.mem_append.mp hp' with hx | hx
    · exact (hahead p' hx).ge
    · rw [hbehind p' hx]
      omega
  rcases List.mem_append.mp hp with hx | hx
  · rw [hahead p hx]
    omega
  · rw [hbehind p hx]
    omega

end EvenlyServed

/-- Between two calls the processes that are not finished were never served. -/
theorem RrRun.unserved {quantum : Int} {calls : List RrCall} {s : Scheduler .roundRobin}
    (h : RrRun quantum calls s) (hq : 1 ≤ quantum) (hpids : ((additions calls).map Prod.fst).Nodup)
    (hbursts : ∀ a ∈ additions calls, 0 ≤ a.2) :
    ∀ p ∈ s.processes, p.state = .finished ∨ p.received = 0 := by
  induction h with
  | create => exact fun p hp => absurd hp List.not_mem_nil
  | @add calls s pid burstTime _ ih =>
    have hadds : additions (calls ++ [.add pid burstTime]) = additions calls ++ [(pid, burstTime)] := by
      rw [additions, List.filterMap_append]
      rfl
    rw [hadds, List.map_append, List.nodup_append] at hpids
    rw [hadds] at hbursts
    have hold := ih hpids.1 (fun b hb => hbursts b (List.mem_append_left _ hb))
    by_cases hfull : maxProcesses ≤ s.processes.length
    · rw [schedulerAddProcess_of_full hfull]
      exact hold
    · rw [schedulerAddProcess_of_room (not_le.mp hfull)]
      intro p hp
      rcases List.mem_append.mp hp with hp | hp
      · exact hold p hp
      · rw [List.mem_singleton.mp hp]
        exact Or.inr (sub_self burstTime)
  | @run calls s t fuel hs hrun ih =>
    have hadds : additions (calls ++ [.run]) = additions calls := by
      rw [additions, List.filterMap_append, additions]
      simp
    rw [hadds] at hpids hbursts
    obtain ⟨w, hw⟩ := hs.invariant hq hpids hbursts
    exact fun p hp => Or.inl ((hw.returned hq ⟨fuel, hrun⟩).all_finished p hp)

/-- Whenever the loop tests its condition, no unfinished process is more than a quantum of
CPU time ahead of another. -/
theorem schedulerRunRr_fair {quantum : Int} {calls : List RrCall} {s t : Scheduler .roundRobin}
    (hrun : RrRun quantum calls s) (hq : 1 ≤ quantum)
    (hpids : ((additions calls).map Prod.fst).Nodup) (hbursts : ∀ a ∈ additions calls, 0 ≤ a.2)
    (ht : Head rrWaiting rrStep s t) :
    ∀ p ∈ t.processes, ∀ p' ∈ t.processes, p.state ≠ .finished → p'.state ≠ .finished →
      p.received ≤ p'.received + quantum := by
  obtain ⟨waiting, hs⟩ := hrun.invariant hq hpids hbursts
  have hstart : EvenlyServed quantum waiting := by
    refine ⟨waiting, [], 0, (List.append_nil _).symm, fun p hp => ?_, fun p hp =>
      absurd hp List.not_mem_nil⟩
    obtain ⟨hmem, hfin⟩ := List.mem_filter.mp (hs.waiting_perm.mem_iff.mp hp)
    have hstate : p.state ≠ .finished := by simpa [Process.isFinished] using hfin
    exact (hrun.unserved hq hpids hbursts p hmem).resolve_left hstate
  have hstep : ∀ r, (∃ w, RrInvariant (admitted calls) quantum r w ∧ EvenlyServed quantum w) →
      rrWaiting r = true →
      ∃ w, RrInvariant (admitted calls) quantum (rrStep r) w ∧ EvenlyServed quantum w := by
    rintro r ⟨w, hr, heven⟩ hw
    cases w with
    | nil => exact absurd rfl (hr.waits_iff.mp hw)
    | cons p w => exact ⟨_, hr.step (by omega), heven.step⟩
  obtain ⟨w, hw, heven⟩ := ht.invariant hstep ⟨waiting, hs, hstart⟩
  have hmem : ∀ p ∈ t.processes, p.state ≠ .finished → p ∈ w := by
    intro p hp hstate
    rw [hw.waiting_perm.mem_iff]
    exact List.mem_filter.mpr ⟨hp, by simpa [Process.isFinished] using hstate⟩
  intro p hp p' hp' hstate hstate'
  exact heven.le (by omega) (hmem p hp hstate) (hmem p' hp' hstate')

theorem schedulerRunRr_fair_example :
    let t := rrStep (rrStep (addAll (schedulerCreateRr 2) [(1, 5), (2, 3), (3, 4)]))
    ∀ p ∈ t.processes, ∀ p' ∈ t.processes, p.state ≠ .finished → p'.state ≠ .finished →
      p.received ≤ p'.received + 2 :=
  schedulerRunRr_fair (rrRun_adds 2 [(1, 5), (2, 3), (3, 4)]) (by decide) (by decide) (by decide)
    ((Relation.ReflTransGen.single ⟨by decide, rfl⟩).tail ⟨by decide, rfl⟩)

end MiniOS
