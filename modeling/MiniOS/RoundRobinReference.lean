import MiniOS.Rotation
import MiniOS.RoundRobin

/-! The round-based reference simulation of the validation script, and its
agreement with the queue of the scheduler slice by slice. -/

namespace MiniOS

open WhileLoop Rotation

structure RefProcess where
  pid : Int
  burstTime : Int
  remaining : Int
  deriving DecidableEq, Repr

/-- The variables of `simulate_round_robin` and, beside them, the slices run. -/
structure Reference where
  procs : List RefProcess
  time : Int
  slices : List (Int × Int)
  deriving DecidableEq, Repr

def anyRemaining (r : Reference) : Bool := r.procs.any (fun p => p.remaining > 0)

def passFrom (quantum time : Int) (slices : List (Int × Int)) : List RefProcess → Reference
  | [] => ⟨[], time, slices⟩
  | p :: procs =>
    if p.remaining > 0 then
      let run := min p.remaining quantum
      let r := passFrom quantum (time + run) (slices ++ [(p.pid, run)]) procs
      { r with procs := { p with remaining := p.remaining - run } :: r.procs }
    else
      let r := passFrom quantum time slices procs
      { r with procs := p :: r.procs }

def simulatePass (quantum : Int) (r : Reference) : Reference :=
  passFrom quantum r.time r.slices r.procs

/-- `simulate_round_robin`, cut off after `fuel` passes; it returns `time`. -/
def simulateRoundRobin (fuel : Nat) (processes : List (Int × Int)) (quantum : Int) :
    Option Reference :=
  WhileLoop.run anyRemaining (simulatePass quantum) fuel
    ⟨processes.map (fun p => ⟨p.1, p.2, p.2⟩), 0, []⟩

/-- Both sides cut jobs, a pid with the units it still needs, in slices. -/
def sliceOf (quantum : Int) (job : Int × Int) : Int × Int := (job.1, min job.2 quantum)

def leftOver (quantum : Int) (job : Int × Int) : Option (Int × Int) :=
  if job.2 - min job.2 quantum = 0 then none else some (job.1, job.2 - min job.2 quantum)

def Process.job (p : Process) : Int × Int := (p.pid, p.remainingTime)

def Reference.jobs (procs : List RefProcess) : List (Int × Int) :=
  (procs.filter (fun p => p.remaining > 0)).map (fun p => (p.pid, p.remaining))

/-- What the scheduler shows of its run: the jobs queued and those visited. -/
def RrTrace (admitted : List (Int × Int)) (quantum : Int) (s : Scheduler .roundRobin)
    (queued visited : List (Int × Int)) : Prop :=
  (∃ waiting, RrInvariant admitted quantum s waiting ∧ waiting.map Process.job = queued) ∧
  s.slices.map (fun x => (x.pid, x.executed)) = visited.map (sliceOf quantum) ∧
  s.currentTime = ((visited.map (sliceOf quantum)).map Prod.snd).sum ∧
  s.history.top.reverse = visited.map Prod.fst

def RefTrace (quantum : Int) (r : Reference) (queued visited : List (Int × Int)) : Prop :=
  Reference.jobs r.procs = queued ∧ r.slices = visited.map (sliceOf quantum) ∧
  r.time = ((visited.map (sliceOf quantum)).map Prod.snd).sum

theorem leftOver_decreases {quantum : Int} (hq : 1 ≤ quantum) (x y : Int × Int)
    (h : leftOver quantum x = some y) : y.2.toNat < x.2.toNat := by
  by_cases hz : x.2 - min x.2 quantum = 0
  · simp [leftOver, hz] at h
  · rw [leftOver, if_neg hz] at h
    obtain rfl := Option.some.inj h
    simp only
    omega

theorem job_afterSlice (quantum : Int) (p : Process) :
    (leftOver quantum p.job).toList =
      if (p.afterSlice quantum).isFinished then [] else [(p.afterSlice quantum).job] := by
  by_cases h : p.remainingTime - min p.remainingTime quantum = 0
  · have hf : (p.afterSlice quantum).isFinished = true := Process.afterSlice_finished_iff.mpr h
    simp [leftOver, Process.job, h, hf]
  · have hf : (p.afterSlice quantum).isFinished = false := by
      rw [← Bool.not_eq_true, Process.afterSlice_finished_iff]
      exact h
    rw [hf, leftOver, Process.job, if_neg h]
    rfl

section Turns

variable {adm : List (Int × Int)} {quantum : Int}

theorem RrTrace.waits_iff {s : Scheduler .roundRobin} {w v : List (Int × Int)}
    (h : RrTrace adm quantum s w v) : rrWaiting s = true ↔ w ≠ [] := by
  obtain ⟨⟨waiting, hinv, rfl⟩, -⟩ := h
  rw [hinv.waits_iff, ne_eq, ne_eq, List.map_eq_nil_iff]

theorem RrTrace.turn (hq : 0 ≤ quantum) {s : Scheduler .roundRobin} {x : Int × Int}
    {w v : List (Int × Int)} (h : RrTrace adm quantum s (x :: w) v) :
    RrTrace adm quantum (rrStep s) (w ++ (leftOver quantum x).toList) (v ++ [x]) := by
  obtain ⟨⟨waiting, hinv, hw⟩, hslices, htime, hhistory⟩ := h
  cases waiting with
  | nil => simp at hw
  | cons p waiting =>
    rw [List.map_cons] at hw
    obtain ⟨rfl, rfl⟩ := List.cons.inj hw
    obtain ⟨ht, hh, hs, -⟩ := hinv.step_record
    refine ⟨⟨_, hinv.step hq, ?_⟩, ?_, ?_, ?_⟩
    · rw [job_afterSlice]
      by_cases hf : (p.afterSlice quantum).isFinished = true <;> simp [hf]
    · rw [hs, List.map_append, hslices, List.map_append]
      rfl
    · rw [ht, htime, List.map_append, List.map_append, List.sum_append]
      simp [sliceOf, Process.job]
    · rw [hh, List.reverse_cons, hhistory, List.map_append]
      rfl

end Turns

section Rounds

variable {quantum : Int}

theorem jobs_cons_pos {p : RefProcess} (h : p.remaining > 0) (procs : List RefProcess) :
    Reference.jobs (p :: procs) = (p.pid, p.remaining) :: Reference.jobs procs := by
  simp [Reference.jobs, h]

theorem jobs_cons_neg {p : RefProcess} (h : ¬ p.remaining > 0) (procs : List RefProcess) :
    Reference.jobs (p :: procs) = Reference.jobs procs := by
  simp [Reference.jobs, h]

theorem passFrom_record (quantum time : Int) (slices : List (Int × Int)) (procs : List RefProcess) :
    let done := (Reference.jobs procs).map (sliceOf quantum)
    (passFrom quantum time slices procs).time = time + (done.map Prod.snd).sum ∧
    (passFrom quantum time slices procs).slices = slices ++ done := by
  induction procs generalizing time slices with
  | nil => simp [passFrom, Reference.jobs]
  | cons p procs ih =>
    by_cases h : p.remaining > 0
    · obtain ⟨ht, hs⟩ := ih (time + min p.remaining quantum) (slices ++ [(p.pid, min p.remaining quantum)])
      simp only [passFrom, h, if_true, ht, hs, jobs_cons_pos h, List.map_cons, List.sum_cons, sliceOf]
      exact ⟨by omega, by simp⟩
    · simp only [passFrom, h, if_false, jobs_cons_neg h]
      exact ih time slices

theorem passFrom_jobs (time : Int) (slices : List (Int × Int))
    (procs : List RefProcess) :
    Reference.jobs (passFrom quantum time slices procs).procs =
      (Reference.jobs procs).filterMap (leftOver quantum) := by
  induction procs generalizing time slices with
  | nil => rfl
  | cons p procs ih =>
    by_cases h : p.remaining > 0
    · have hih := ih (time + min p.remaining quantum) (slices ++ [(p.pid, min p.remaining quantum)])
      rw [jobs_cons_pos h, passFrom, if_pos h]
      by_cases hz : p.remaining - min p.remaining quantum = 0
      · have hnone : leftOver quantum (p.pid, p.remaining) = none := if_pos hz
        rw [List.filterMap_cons_none hnone, ← hih]
        exact jobs_cons_neg (show ¬ p.remaining - min p.remaining quantum > 0 by omega) _
      · have hsome : leftOver quantum (p.pid, p.remaining) =
            some (p.pid, p.remaining - min p.remaining quantum) := if_neg hz
        rw [List.filterMap_cons_some hsome, ← hih]
        exact jobs_cons_pos (show p.remaining - min p.remaining quantum > 0 by omega) _
    · rw [jobs_cons_neg h, passFrom, if_neg h, ← ih time slices]
      exact jobs_cons_neg h _

theorem RefTrace.any_iff {r : Reference} {w v : List (Int × Int)} (h : RefTrace quantum r w v) :
    anyRemaining r = true ↔ w ≠ [] := by
  obtain ⟨rfl, -⟩ := h
  simp [anyRemaining, Reference.jobs]

theorem RefTrace.round {r : Reference} {w v : List (Int × Int)}
    (h : RefTrace quantum r w v) :
    RefTrace quantum (simulatePass quantum r) (w.filterMap (leftOver quantum)) (v ++ w) := by
  obtain ⟨rfl, hslices, htime⟩ := h
  obtain ⟨ht, hs⟩ := passFrom_record quantum r.time r.slices r.procs
  refine ⟨passFrom_jobs _ _ _, ?_, ?_⟩
  · rw [simulatePass, hs, hslices, List.map_append]
  · rw [simulatePass, ht, htime, List.map_append, List.map_append, List.sum_append]

end Rounds

/-- Queue and rounds visit the same jobs, so they run the same slices. -/
theorem schedulerRunRr_eq_reference {quantum : Int} {adds : List (Int × Int)}
    (hlen : adds.length ≤ maxProcesses) (hpids : (adds.map Prod.fst).Nodup)
    (hbursts : ∀ a ∈ adds, 1 ≤ a.2) (hq : 1 ≤ quantum) :
    ∃ fuel s passes r,
      schedulerRunRr fuel (addAll (schedulerCreateRr quantum) adds) = some s ∧
      simulateRoundRobin passes adds quantum = some r ∧
      s.slices.map (fun x => (x.pid, x.executed)) = r.slices ∧
      s.currentTime = r.time ∧
      s.history.top.reverse = r.slices.map Prod.fst := by
  have hinv := addAll_rrInvariant quantum hlen hpids (fun a ha => by have := hbursts a ha; omega)
  obtain ⟨n, hn⟩ := exists_rounds_nil (fun x => x.2.toNat) (leftOver_decreases hq) adds
  have hrr : RrTrace adds quantum (addAll (schedulerCreateRr quantum) adds) adds [] := by
    have hjobs : (adds.map added).map Process.job = adds := by
      rw [List.map_map]
      exact List.map_id _
    refine ⟨⟨_, hinv, hjobs⟩, ?_⟩
    rw [addAll_eq (by simpa [schedulerCreateRr] using hlen)]
    exact ⟨rfl, rfl, rfl⟩
  have href : RefTrace quantum ⟨adds.map (fun p => ⟨p.1, p.2, p.2⟩), 0, []⟩ adds [] := by
    refine ⟨?_, rfl, rfl⟩
    have hall : ∀ p ∈ adds.map (fun p => (⟨p.1, p.2, p.2⟩ : RefProcess)), p.remaining > 0 := by
      intro p hp
      obtain ⟨a, ha, rfl⟩ := List.mem_map.mp hp
      exact hbursts a ha
    rw [Reference.jobs, List.filter_eq_self.mpr (fun p hp => decide_eq_true (hall p hp)),
      List.map_map]
    exact List.map_id _
  obtain ⟨s, ⟨fuel, hrun⟩, -, hslices, htime, hhistory⟩ :=
    returns_of_turns (fun _ _ _ h => h.waits_iff) (fun _ _ _ _ h => h.turn (by omega)) hrr hn
  obtain ⟨r, ⟨passes, hsim⟩, -, hslices', htime'⟩ :=
    returns_of_rounds (fun _ _ _ h => h.any_iff) (fun _ _ _ h => h.round) href hn
  refine ⟨fuel, s, passes, r, hrun, hsim, hslices.trans hslices'.symm, htime.trans htime'.symm, ?_⟩
  rw [hhistory, hslices', List.map_map]
  rfl

-- the run worked out in the header of `round_robin.c`
example : (schedulerRunRr 7 (addAll (schedulerCreateRr 2) [(1, 5), (2, 3), (3, 4)])).map
    (fun s => s.slices.map (fun x => (x.pid, x.start, x.finish))) =
    some [(1, 0, 2), (2, 2, 4), (3, 4, 6), (1, 6, 8), (2, 8, 9), (3, 9, 11), (1, 11, 12)] := by
  decide

end MiniOS
