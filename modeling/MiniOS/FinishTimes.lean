import MiniOS.RoundRobinReference

/-! When each process finishes under Round Robin. Every moment of a run lies in
some round, between the processes served in it and those still to be served;
the queue, the clock and the history are functions of that position. -/

namespace MiniOS

open WhileLoop

/-- How often a process with this burst gets the processor. -/
def dispatches (quantum burst : Int) : Int := max 1 ((burst + quantum - 1) / quantum)

/-- The job an added process has in a round, unless it finished before. -/
def jobIn (quantum : Int) (round : Nat) (a : Int × Int) : Option (Int × Int) :=
  if round = 0 ∨ round * quantum < a.2 then some (a.1, a.2 - round * quantum) else none

section Jobs

variable {quantum : Int} {round : Nat} {a job : Int × Int}

theorem lt_dispatches_iff (hq : 1 ≤ quantum) (round : Nat) (burst : Int) :
    (round : Int) < dispatches quantum burst ↔ round = 0 ∨ round * quantum < burst := by
  have hceil : (round : Int) < (burst + quantum - 1) / quantum ↔ round * quantum < burst := by
    rw [Int.lt_iff_add_one_le, Int.le_ediv_iff_mul_le (by omega), Int.add_mul, Int.one_mul]
    omega
  rw [dispatches, lt_max_iff, hceil]
  omega

theorem jobIn_eq_none_iff (hq : 1 ≤ quantum) :
    jobIn quantum round a = none ↔ dispatches quantum a.2 ≤ round := by
  rw [← not_lt, lt_dispatches_iff hq]
  by_cases h : round = 0 ∨ round * quantum < a.2
  · simp [jobIn, h]
  · simp [jobIn, h]

theorem jobIn_eq_some (h : jobIn quantum round a = some job) :
    (round = 0 ∨ round * quantum < a.2) ∧ job = (a.1, a.2 - round * quantum) := by
  by_cases hr : round = 0 ∨ round * quantum < a.2
  · rw [jobIn, if_pos hr] at h
    exact ⟨hr, (Option.some.inj h).symm⟩
  · rw [jobIn, if_neg hr] at h
    cases h

theorem succ_round_mul (round : Nat) (quantum : Int) :
    ((round + 1 : Nat) : Int) * quantum = round * quantum + quantum := by
  rw [Int.natCast_succ, Int.add_mul, Int.one_mul]

theorem leftOver_jobIn (ha : 0 ≤ a.2) (h : jobIn quantum round a = some job) :
    leftOver quantum job = jobIn quantum (round + 1) a := by
  obtain ⟨hr, rfl⟩ := jobIn_eq_some h
  have hle : (round : Int) * quantum ≤ a.2 := by
    rcases hr with rfl | hr
    · simpa using ha
    · exact hr.le
  rw [leftOver, jobIn, succ_round_mul]
  by_cases hdone : a.2 - round * quantum ≤ quantum
  · rw [if_pos (by omega), if_neg (by omega)]
  · have hmin : min (a.2 - round * quantum) quantum = quantum := min_eq_right (by omega)
    rw [hmin, if_neg (by omega), if_pos (by omega), Int.sub_sub]

end Jobs

/-- In round `round` the processes of `before` were served, those of `after` not yet. -/
structure RrMoment (quantum : Int) (s : Scheduler .roundRobin) (round : Nat)
    (before after : List (Int × Int)) : Prop where
  queued : ∃ waiting, RrInvariant (before ++ after) quantum s waiting ∧
    waiting.map Process.job =
      after.filterMap (jobIn quantum round) ++ before.filterMap (jobIn quantum (round + 1))
  clock : s.currentTime = (before.map (fun a => min a.2 ((round + 1 : Nat) * quantum))).sum +
    (after.map (fun a => min a.2 (round * quantum))).sum
  served : ∀ a ∈ before,
    (s.history.top.count a.1 : Int) = min (dispatches quantum a.2) (round + 1 : Nat)
  unserved : ∀ a ∈ after, (s.history.top.count a.1 : Int) = min (dispatches quantum a.2) round

namespace RrMoment

variable {quantum : Int} {s : Scheduler .roundRobin} {round : Nat} {a job : Int × Int}
  {before after : List (Int × Int)}

theorem skip (hq : 1 ≤ quantum) (h : RrMoment quantum s round before (a :: after))
    (hnone : jobIn quantum round a = none) : RrMoment quantum s round (before ++ [a]) after := by
  have hk := (jobIn_eq_none_iff hq).mp hnone
  have hnone' : jobIn quantum (round + 1) a = none := by
    rw [jobIn_eq_none_iff hq]
    omega
  have hle : a.2 ≤ round * quantum := by
    have hlt := (lt_dispatches_iff hq round a.2).not.mp (not_lt.mpr hk)
    omega
  obtain ⟨waiting, hinv, hjobs⟩ := h.queued
  have hnext := succ_round_mul round quantum
  constructor
  case queued =>
    refine ⟨waiting, by rwa [List.append_assoc], ?_⟩
    rw [hjobs, List.filterMap_cons_none hnone, List.filterMap_append,
      List.filterMap_cons_none hnone', List.filterMap_nil, List.append_nil]
  case clock =>
    have hc := h.clock
    rw [List.map_cons, List.sum_cons] at hc
    rw [List.map_append, List.sum_append, List.map_singleton, List.sum_singleton, hc]
    omega
  case served =>
    intro b hb
    rcases List.mem_append.mp hb with hb | hb
    · exact h.served b hb
    · have hcount := h.unserved a List.mem_cons_self
      rw [List.mem_singleton.mp hb]
      omega
  case unserved => exact fun b hb => h.unserved b (List.mem_cons_of_mem _ hb)

theorem nextRound (h : RrMoment quantum s round before []) :
    RrMoment quantum s (round + 1) [] before := by
  obtain ⟨waiting, hinv, hjobs⟩ := h.queued
  refine ⟨⟨waiting, ?_, ?_⟩, ?_, ?_, h.served⟩
  · simpa using hinv
  · simpa using hjobs
  · simpa using h.clock
  · exact fun a ha => by cases ha

theorem exists_front (hq : 1 ≤ quantum) (h : RrMoment quantum s round before after)
    (hne : after.filterMap (jobIn quantum round) ≠ []) :
    ∃ before' a after' job, before ++ after = before' ++ a :: after' ∧
      jobIn quantum round a = some job ∧ RrMoment quantum s round before' (a :: after') := by
  induction after generalizing before with
  | nil => exact absurd rfl hne
  | cons a after ih =>
    cases hjob : jobIn quantum round a with
    | none =>
      rw [List.filterMap_cons_none hjob] at hne
      obtain ⟨before', b, after', job, hsplit, hb, hm⟩ := ih (h.skip hq hjob) hne
      exact ⟨before', b, after', job, by rw [← hsplit, List.append_assoc]; rfl, hb, hm⟩
    | some job => exact ⟨before, a, after, job, rfl, hjob, h⟩

theorem passed (hq : 1 ≤ quantum) (h : RrMoment quantum s round before after)
    (hnil : after.filterMap (jobIn quantum round) = []) :
    RrMoment quantum s round (before ++ after) [] := by
  induction after generalizing before with
  | nil => rwa [List.append_nil]
  | cons a after ih =>
    have hnone := List.filterMap_eq_nil_iff.mp hnil a List.mem_cons_self
    rw [List.filterMap_cons_none hnone] at hnil
    rw [List.append_cons]
    exact ih (h.skip hq hnone) hnil

/-- While a process waits, the moment can be put right before its turn. -/
theorem front (hq : 1 ≤ quantum) (h : RrMoment quantum s round before after)
    (hw : rrWaiting s = true) :
    ∃ round' before' a after' job, before ++ after = before' ++ a :: after' ∧
      jobIn quantum round' a = some job ∧ RrMoment quantum s round' before' (a :: after') := by
  by_cases hne : after.filterMap (jobIn quantum round) = []
  · have hnext := (h.passed hq hne).nextRound
    obtain ⟨waiting, hinv, hjobs⟩ := hnext.queued
    rw [List.filterMap_nil, List.append_nil] at hjobs
    have hsome : (before ++ after).filterMap (jobIn quantum (round + 1)) ≠ [] := by
      rw [← hjobs]
      simpa using hinv.waits_iff.mp hw
    obtain ⟨before', a, after', job, hsplit, hjob, hm⟩ := hnext.exists_front hq hsome
    exact ⟨round + 1, before', a, after', job, hsplit, hjob, hm⟩
  · obtain ⟨before', a, after', job, hsplit, hjob, hm⟩ := h.exists_front hq hne
    exact ⟨round, before', a, after', job, hsplit, hjob, hm⟩

theorem pids_nodup (h : RrMoment quantum s round before after) :
    ((before ++ after).map Prod.fst).Nodup := by
  obtain ⟨waiting, hinv, -⟩ := h.queued
  rw [← hinv.pids_eq]
  exact hinv.distinct

/-- The turn of `a`: it runs for what is left of its burst, at most the quantum. -/
theorem turn (hq : 1 ≤ quantum) (h : RrMoment quantum s round before (a :: after))
    (ha : 0 ≤ a.2) (hjob : jobIn quantum round a = some job) :
    RrMoment quantum (rrStep s) round (before ++ [a]) after := by
  obtain ⟨waiting, hinv, hjobs⟩ := h.queued
  have hpids := h.pids_nodup
  rw [List.map_append, List.map_cons, List.nodup_middle, List.nodup_cons, List.mem_append,
    not_or] at hpids
  rw [List.filterMap_cons_some hjob, List.cons_append] at hjobs
  obtain ⟨p, rest, rfl, hp, hrest⟩ := List.map_eq_cons_iff.mp hjobs
  obtain ⟨hround, rfl⟩ := jobIn_eq_some hjob
  obtain ⟨hpid, hremaining⟩ := Prod.mk.inj hp
  obtain ⟨htime, hhistory, -⟩ := hinv.step_record
  rw [hpid] at hhistory
  have hlt := (lt_dispatches_iff hq round a.2).mpr hround
  have hle : (round : Int) * quantum ≤ a.2 := by
    rcases hround with rfl | hround
    · simpa using ha
    · exact hround.le
  have hnext := succ_round_mul round quantum
  constructor
  case queued =>
    refine ⟨_, by rw [List.append_assoc]; exact hinv.step (by omega), ?_⟩
    have hleft := job_afterSlice quantum p
    rw [hp, leftOver_jobIn ha hjob] at hleft
    have hlast : [a].filterMap (jobIn quantum (round + 1)) =
        (jobIn quantum (round + 1) a).toList := by
      cases h : jobIn quantum (round + 1) a <;> simp [h]
    rw [List.filterMap_append, ← List.append_assoc, ← hrest, hlast, hleft]
    by_cases hf : (p.afterSlice quantum).isFinished = true
    · rw [if_pos hf, if_pos hf, List.append_nil]
    · rw [if_neg hf, if_neg hf, List.map_append, List.map_singleton]
  case clock =>
    have hc := h.clock
    rw [List.map_cons, List.sum_cons] at hc
    rw [htime, hremaining, hc, List.map_append, List.sum_append, List.map_singleton,
      List.sum_singleton]
    omega
  case served =>
    intro b hb
    rw [hhistory]
    rcases List.mem_append.mp hb with hb | hb
    · have hne : a.1 ≠ b.1 := fun he => hpids.1.1 (he ▸ List.mem_map_of_mem hb)
      rw [List.count_cons_of_ne hne]
      exact h.served b hb
    · have hcount := h.unserved a List.mem_cons_self
      rw [List.mem_singleton.mp hb, List.count_cons_self]
      omega
  case unserved =>
    intro b hb
    have hne : a.1 ≠ b.1 := fun he => hpids.1.2 (he ▸ List.mem_map_of_mem hb)
    rw [hhistory, List.count_cons_of_ne hne]
    exact h.unserved b (List.mem_cons_of_mem _ hb)

theorem served_last (hq : 1 ≤ quantum) (h : RrMoment quantum s round before after)
    (hw : rrWaiting s = false) {a : Int × Int} (ha : a ∈ before ++ after) :
    (s.history.top.count a.1 : Int) = dispatches quantum a.2 := by
  obtain ⟨waiting, hinv, hjobs⟩ := h.queued
  have hempty : waiting = [] := by
    by_contra hne
    rw [hinv.waits_iff.mpr hne] at hw
    cases hw
  rw [hempty, List.map_nil, eq_comm, List.append_eq_nil_iff] at hjobs
  rcases List.mem_append.mp ha with ha | ha
  · have hk := (jobIn_eq_none_iff hq).mp (List.filterMap_eq_nil_iff.mp hjobs.2 a ha)
    rw [h.served a ha, min_eq_left hk]
  · have hk := (jobIn_eq_none_iff hq).mp (List.filterMap_eq_nil_iff.mp hjobs.1 a ha)
    rw [h.unserved a ha, min_eq_left hk]

end RrMoment

def RrRunning (quantum : Int) (adds : List (Int × Int)) (s : Scheduler .roundRobin) : Prop :=
  ∃ round before after, before ++ after = adds ∧ RrMoment quantum s round before after

/-- In this iteration the process becomes FINISHED. -/
def BecomesFinished (pid : Int) (s : Scheduler .roundRobin) : Prop :=
  rrWaiting s = true ∧ ¬ FinishedIn s pid ∧ FinishedIn (rrStep s) pid

/-- Only the process whose turn it is can finish, and then its burst is used up. -/
theorem RrMoment.finishes {quantum : Int} {s : Scheduler .roundRobin} {round : Nat}
    {before after : List (Int × Int)} {a job : Int × Int}
    (h : RrMoment quantum s round before (a :: after)) (hjob : jobIn quantum round a = some job)
    {pid : Int} (hfin : BecomesFinished pid s) : pid = a.1 ∧ a.2 ≤ (round + 1 : Nat) * quantum := by
  obtain ⟨waiting, hinv, hjobs⟩ := h.queued
  rw [List.filterMap_cons_some hjob, List.cons_append] at hjobs
  obtain ⟨p, rest, rfl, hp, -⟩ := List.map_eq_cons_iff.mp hjobs
  obtain ⟨-, rfl⟩ := jobIn_eq_some hjob
  obtain ⟨hpid, hremaining⟩ := Prod.mk.inj hp
  obtain ⟨-, -, -, pre, post, hold, hnew⟩ := hinv.step_record
  obtain ⟨-, hunfinished, x, hx, hxpid, hxstate⟩ := hfin
  rw [hnew, List.mem_append, List.mem_cons] at hx
  rcases hx with hx | rfl | hx
  · exact absurd ⟨x, by simp [hold, hx], hxpid, hxstate⟩ hunfinished
  · have hdone := Process.afterSlice_finished_iff.mp (beq_iff_eq.mpr hxstate)
    rw [Process.afterSlice, hremaining] at hdone
    simp only at hdone
    rw [succ_round_mul]
    exact ⟨hxpid.symm.trans hpid, by omega⟩
  · exact absurd ⟨x, by simp [hold, hx], hxpid, hxstate⟩ hunfinished

section Runs

variable {quantum : Int} {adds : List (Int × Int)} (hq : 1 ≤ quantum)

theorem rrRunning_start (hlen : adds.length ≤ maxProcesses) (hpids : (adds.map Prod.fst).Nodup)
    (hbursts : ∀ a ∈ adds, 0 ≤ a.2) :
    RrRunning quantum adds (addAll (schedulerCreateRr quantum) adds) := by
  have hinv := addAll_rrInvariant quantum hlen hpids hbursts
  have hadd := addAll_eq (s := schedulerCreateRr quantum) (by simpa [schedulerCreateRr] using hlen)
  have hjobs : adds.filterMap (jobIn quantum 0) = adds := by
    have hall : ∀ a ∈ adds, jobIn quantum 0 a = some a := by
      intro a _
      simp [jobIn]
    rw [List.filterMap_congr hall]
    exact List.filterMap_some
  refine ⟨0, [], adds, rfl, ⟨_, hinv, ?_⟩, ?_, ?_, ?_⟩
  · rw [hjobs, List.map_map, List.filterMap_nil, List.append_nil]
    exact List.map_id _
  · have hzero : (adds.map (fun a => min a.2 (((0 : Nat) : Int) * quantum))).sum = 0 := by
      apply List.sum_eq_zero
      intro x hx
      obtain ⟨a, ha, rfl⟩ := List.mem_map.mp hx
      have := hbursts a ha
      simp [this]
    rw [hzero, hadd]
    rfl
  · exact fun a ha => by cases ha
  · intro a _
    have hk : 0 ≤ dispatches quantum a.2 := le_trans (by decide) (le_max_left 1 _)
    rw [hadd]
    simpa [schedulerCreateRr, stackCreate] using hk

include hq

theorem RrRunning.step (hbursts : ∀ a ∈ adds, 0 ≤ a.2) {s : Scheduler .roundRobin}
    (h : RrRunning quantum adds s) (hw : rrWaiting s = true) :
    RrRunning quantum adds (rrStep s) := by
  obtain ⟨round, before, after, rfl, hm⟩ := h
  obtain ⟨round', before', a, after', job, hsplit, hjob, hfront⟩ := hm.front hq hw
  have ha : 0 ≤ a.2 := hbursts a (by simp [hsplit])
  exact ⟨round', before' ++ [a], after', by simp [hsplit], hfront.turn hq ha hjob⟩

theorem RrRunning.finish_time (hbursts : ∀ a ∈ adds, 0 ≤ a.2) {s : Scheduler .roundRobin}
    (h : RrRunning quantum adds s) {before after : List (Int × Int)} {a : Int × Int}
    (hadds : adds = before ++ a :: after) (hfin : BecomesFinished a.1 s) :
    (rrStep s).currentTime =
      (before.map (fun b => min b.2 (dispatches quantum a.2 * quantum))).sum + a.2 +
        (after.map (fun b => min b.2 ((dispatches quantum a.2 - 1) * quantum))).sum := by
  obtain ⟨round, left, right, rfl, hm⟩ := h
  obtain ⟨round', before', b, after', job, hsplit, hjob, hfront⟩ := hm.front hq hfin.1
  obtain ⟨hpid, hle⟩ := hfront.finishes hjob hfin
  have hnodup := hfront.pids_nodup
  have hb : b = a := by
    have hmem : a ∈ before' ++ b :: after' := by
      rw [← hsplit, hadds]
      simp
    exact (List.inj_on_of_nodup_map hnodup hmem (by simp) hpid).symm
  subst hb
  have hout := hnodup.of_map
  rw [List.nodup_middle, List.nodup_cons, List.mem_append, not_or] at hout
  rw [hadds] at hsplit
  obtain ⟨rfl, -, rfl⟩ := (List.append_cons_inj_of_notMem hout.1.1 hout.1.2).mp hsplit.symm
  have hk : dispatches quantum b.2 = (round' + 1 : Nat) := by
    have hlt := (lt_dispatches_iff hq round' b.2).mpr (jobIn_eq_some hjob).1
    have hge := (lt_dispatches_iff hq (round' + 1) b.2).not.mpr (by omega)
    omega
  have hclock := (hfront.turn hq (hbursts b (by rw [hadds]; simp)) hjob).clock
  rw [List.map_append, List.sum_append, List.map_singleton, List.sum_singleton,
    min_eq_left hle] at hclock
  rw [hk, hclock, show ((round' + 1 : Nat) : Int) - 1 = round' by omega]

end Runs

/-- Every process gets the processor as often as its burst needs slices, and
finishes when the others have run that many rounds or one less. -/
theorem schedulerRunRr_finish_times {quantum : Int} {adds : List (Int × Int)}
    (hlen : adds.length ≤ maxProcesses) (hpids : (adds.map Prod.fst).Nodup)
    (hbursts : ∀ a ∈ adds, 0 ≤ a.2) (hq : 1 ≤ quantum) :
    ∃ fuel t, schedulerRunRr fuel (addAll (schedulerCreateRr quantum) adds) = some t ∧
      ∀ before a after, adds = before ++ a :: after →
        let k := dispatches quantum a.2
        (t.history.top.count a.1 : Int) = k ∧
        (∃ s, Head rrWaiting rrStep (addAll (schedulerCreateRr quantum) adds) s ∧
          BecomesFinished a.1 s) ∧
        ∀ s, Head rrWaiting rrStep (addAll (schedulerCreateRr quantum) adds) s →
          BecomesFinished a.1 s →
          (rrStep s).currentTime = (before.map (fun b => min b.2 (k * quantum))).sum + a.2 +
            (after.map (fun b => min b.2 ((k - 1) * quantum))).sum := by
  have hinv := addAll_rrInvariant quantum hlen hpids hbursts
  have hstart : RrRunning quantum adds (addAll (schedulerCreateRr quantum) adds) :=
    rrRunning_start hlen hpids hbursts
  have hrunning : ∀ s, Head rrWaiting rrStep (addAll (schedulerCreateRr quantum) adds) s →
      RrRunning quantum adds s := by
    intro s hs
    exact hs.invariant (fun _ hr hw => hr.step hq hbursts hw) hstart
  obtain ⟨t, fuel, hrun⟩ := hinv.returns hq
  have hend := hinv.returned hq ⟨fuel, hrun⟩
  obtain ⟨hhead, hempty⟩ := run_head hrun
  refine ⟨fuel, t, hrun, ?_⟩
  intro before a after hadds
  have hmem : a ∈ adds := by simp [hadds]
  refine ⟨?_, ?_, ?_⟩
  · obtain ⟨round, left, right, rfl, hm⟩ := hrunning t hhead
    exact hm.served_last hq hempty hmem
  · have hprocesses := addAll_processes (s := schedulerCreateRr quantum) rfl hlen
    have hunfinished : ¬ FinishedIn (addAll (schedulerCreateRr quantum) adds) a.1 := by
      rintro ⟨p, hp, -, hstate⟩
      rw [hprocesses] at hp
      obtain ⟨b, -, rfl⟩ := List.mem_map.mp hp
      cases hstate
    have hfinished : FinishedIn t a.1 := by
      have hpid : a.1 ∈ t.processes.map Process.pid := by
        rw [hend.pids_eq]
        exact List.mem_map_of_mem hmem
      obtain ⟨p, hp, hpa⟩ := List.mem_map.mp hpid
      exact ⟨p, hp, hpa, hend.all_finished p hp⟩
    obtain ⟨s, hs, hw, hbefore, hafter⟩ := hhead.exists_entry (fun r => FinishedIn r a.1) hunfinished hfinished
    exact ⟨s, hs, hw, hbefore, hafter⟩
  · exact fun s hs hfin => (hrunning s hs).finish_time hq hbursts hadds hfin

end MiniOS
