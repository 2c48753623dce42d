import MiniOS.CompletionCost
import MiniOS.RoundRobin

/-! Completion times under the three schedulers. A serial run completes its
processes at the partial sums of their bursts; a Round Robin run completes the
k-th process no earlier than the bursts of the first k completed ones allow.
Hence the sorted order of SJF has the least sum. -/

namespace MiniOS

open WhileLoop CompletionCost

/-- The rows in which a process becomes FINISHED. -/
def finishing (slices : List Slice) : List Slice := slices.filter (fun x => x.remaining = 0)

def completionSum (slices : List Slice) : Int := ((finishing slices).map Slice.finish).sum

/-- The sum of the times the processes of a serial run spend waiting. -/
def waitingSum (slices : List Slice) : Int := ((finishing slices).map Slice.start).sum

theorem finishing_append (xs ys : List Slice) :
    finishing (xs ++ ys) = finishing xs ++ finishing ys := List.filter_append xs ys

/-- The rows that end a process are those of the FINISHED processes, one for each. -/
def RowsOfFinished {type : SchedulerType} (s : Scheduler type) : Prop :=
  ((finishing s.slices).map Slice.pid).Perm
    ((s.processes.filter Process.isFinished).map Process.pid)

section Rows

variable {type : SchedulerType} {s t : Scheduler type}

theorem finishedIn_iff {pid : Int} :
    FinishedIn s pid ↔ pid ∈ (s.processes.filter Process.isFinished).map Process.pid := by
  simp only [FinishedIn, List.mem_map, List.mem_filter, Process.isFinished, beq_iff_eq]
  constructor
  · rintro ⟨p, hp, hpid, hstate⟩
    exact ⟨p, ⟨hp, hstate⟩, hpid⟩
  · rintro ⟨p, ⟨hp, hstate⟩, hpid⟩
    exact ⟨p, hp, hpid, hstate⟩

/-- The row of a step shows that nothing remains exactly when the step makes its process
FINISHED. -/
theorem RowsOfFinished.remaining_iff {x : Slice} (hs : RowsOfFinished s) (ht : RowsOfFinished t)
    (hrow : t.slices = s.slices ++ [x]) (hpids : (t.processes.map Process.pid).Nodup) :
    x.remaining = 0 ↔ ¬ FinishedIn s x.pid ∧ FinishedIn t x.pid := by
  rw [finishedIn_iff, finishedIn_iff, ← hs.mem_iff, ← ht.mem_iff, hrow, finishing_append]
  have hnodup := ht.nodup_iff.mpr (hpids.sublist (List.filter_sublist.map Process.pid))
  rw [hrow, finishing_append] at hnodup
  by_cases hzero : x.remaining = 0
  · have hlast : finishing [x] = [x] := by simp [finishing, hzero]
    rw [hlast, List.map_append, List.map_singleton] at hnodup ⊢
    refine iff_of_true hzero ⟨fun hin => ?_, by simp⟩
    exact (List.nodup_append.mp hnodup).2.2 _ hin _ (List.mem_singleton.mpr rfl) rfl
  · have hlast : finishing [x] = [] := by simp [finishing, hzero]
    rw [hlast, List.append_nil]
    exact iff_of_false hzero (fun h => h.1 h.2)

end Rows

section SerialRuns

theorem finishing_serialSlices (time : Int) (ps : List Process) :
    finishing (serialSlices time ps) = serialSlices time ps := by
  induction ps generalizing time with
  | nil => rfl
  | cons p ps ih =>
    rw [serialSlices, finishing, List.filter_cons_of_pos (by simp)]
    exact congrArg _ (ih _)

theorem serialSlices_pid (time : Int) (ps : List Process) :
    (serialSlices time ps).map Slice.pid = ps.map Process.pid := by
  induction ps generalizing time with
  | nil => rfl
  | cons p ps ih => rw [serialSlices, List.map_cons, ih, List.map_cons]

theorem Serial.rowsOfFinished {type : SchedulerType} {s₀ s : Scheduler type}
    {done rest : List Process} (h : Serial s₀ s done rest) (hnew : s₀.slices = [])
    (hrest : ∀ p ∈ rest, p.isFinished = false) : RowsOfFinished s := by
  have hdone : (done.map Process.complete).filter Process.isFinished =
      done.map Process.complete := by
    apply List.filter_eq_self.mpr
    intro p hp
    obtain ⟨q, -, rfl⟩ := List.mem_map.mp hp
    rfl
  have hwaiting : rest.filter Process.isFinished = [] :=
    List.filter_eq_nil_iff.mpr (fun p hp => by simp [hrest p hp])
  rw [RowsOfFinished, h.slices_eq, hnew, List.nil_append, finishing_serialSlices, serialSlices_pid,
    h.processes_eq, List.filter_append, hdone, hwaiting, List.append_nil, List.map_map]
  exact List.Perm.refl _

theorem Serial.step_finishes {type : SchedulerType} {s₀ s : Scheduler type} {p : Process}
    {done rest : List Process} (h : Serial s₀ s done (p :: rest)) (hnew : s₀.slices = [])
    (hrest : ∀ x ∈ p :: rest, x.isFinished = false)
    (hpids : ((done ++ p :: rest).map Process.pid).Nodup) :
    ¬ FinishedIn s p.pid ∧ FinishedIn (runToCompletion s h.cursor) p.pid := by
  have hafter : RowsOfFinished (runToCompletion s h.cursor) :=
    h.step.rowsOfFinished hnew (List.forall_mem_cons.mp hrest).2
  have hsame : (runToCompletion s h.cursor).processes.map Process.pid =
      (done ++ p :: rest).map Process.pid := by
    rw [h.step.processes_eq]
    simp [Process.complete]
  exact ((h.rowsOfFinished hnew hrest).remaining_iff hafter rfl (hsame ▸ hpids)).mp rfl

theorem completionSum_serial (time : Int) (ps : List Process) :
    completionSum (serialSlices time ps) = cost time (ps.map Process.burstTime) := by
  rw [completionSum, finishing_serialSlices]
  induction ps generalizing time with
  | nil => rfl
  | cons p ps ih => rw [serialSlices, List.map_cons, List.sum_cons, ih, List.map_cons, cost_cons]

theorem waitingSum_serial (time : Int) (ps : List Process) :
    waitingSum (serialSlices time ps) =
      completionSum (serialSlices time ps) - (ps.map Process.burstTime).sum := by
  rw [waitingSum, completionSum, finishing_serialSlices]
  induction ps generalizing time with
  | nil => rfl
  | cons p ps ih =>
    simp only [serialSlices, List.map_cons, List.sum_cons, ih]
    omega

end SerialRuns

/-- The processes of `order` finished so far, in this order, none of them
before the bursts up to its own had run. -/
structure RrFinishing (s : Scheduler .roundRobin) (order : List (Int × Int)) : Prop where
  order_perm : order.Perm
    ((s.processes.filter Process.isFinished).map (fun p => (p.pid, p.burstTime)))
  pids_eq : (finishing s.slices).map Slice.pid = order.map Prod.fst
  late : List.Forall₂ (· ≤ ·) (completions 0 (order.map Prod.snd))
    ((finishing s.slices).map Slice.finish)

section RoundRobin

variable {adm : List (Int × Int)} {quantum : Int} {s : Scheduler .roundRobin}
  {waiting : List Process}

theorem finished_bursts_le {ps : List Process}
    (h : ∀ p ∈ ps, 0 ≤ p.remainingTime ∧ p.remainingTime ≤ p.burstTime ∧
      (p.isFinished = true → p.remainingTime = 0)) :
    ((ps.filter Process.isFinished).map Process.burstTime).sum +
      (ps.map Process.remainingTime).sum ≤ (ps.map Process.burstTime).sum := by
  induction ps with
  | nil => exact le_refl _
  | cons p ps ih =>
    have hp := h p List.mem_cons_self
    have hrest := ih (fun x hx => h x (List.mem_cons_of_mem _ hx))
    by_cases hf : p.isFinished = true
    · have hz := hp.2.2 hf
      rw [List.filter_cons_of_pos hf]
      simp only [List.map_cons, List.sum_cons]
      omega
    · rw [List.filter_cons_of_neg hf]
      simp only [List.map_cons, List.sum_cons]
      omega

theorem RrInvariant.finished_bursts_le (h : RrInvariant adm quantum s waiting) :
    ((s.processes.filter Process.isFinished).map Process.burstTime).sum ≤ s.currentTime := by
  have hle := MiniOS.finished_bursts_le h.remaining
  have hc := h.clock
  omega

theorem RrFinishing.start (quantum : Int) {adds : List (Int × Int)}
    (hlen : adds.length ≤ maxProcesses) :
    RrFinishing (addAll (schedulerCreateRr quantum) adds) [] := by
  have hready : (adds.map added).filter Process.isFinished = [] := by
    apply List.filter_eq_nil_iff.mpr
    intro p hp
    obtain ⟨a, -, rfl⟩ := List.mem_map.mp hp
    exact Bool.false_ne_true
  rw [addAll_eq (by simpa [schedulerCreateRr] using hlen)]
  refine ⟨?_, rfl, List.Forall₂.nil⟩
  show List.Perm [] (((adds.map added).filter Process.isFinished).map _)
  rw [hready]
  exact List.Perm.refl _

theorem RrFinishing.step {p : Process} {order : List (Int × Int)} (hq : 0 ≤ quantum)
    (h : RrInvariant adm quantum s (p :: waiting)) (ho : RrFinishing s order) :
    ∃ order', RrFinishing (rrStep s) order' := by
  obtain ⟨hfin, -⟩ := h.locate
  obtain ⟨htime, -, hslices, before, after, hs, hs'⟩ := h.step_record
  have hperm := ho.order_perm
  rw [hs, List.filter_append, List.filter_cons_of_neg (by simp [hfin]), List.map_append] at hperm
  by_cases hf : (p.afterSlice quantum).isFinished = true
  · have hzero : p.remainingTime - min p.remainingTime quantum = 0 :=
      Process.afterSlice_finished_iff.mp hf
    have hrow : finishing [p.sliceFrom s.currentTime quantum] =
        [p.sliceFrom s.currentTime quantum] := by
      simp [finishing, Process.sliceFrom, hzero]
    have hperm' : (order ++ [(p.pid, p.burstTime)]).Perm
        (((rrStep s).processes.filter Process.isFinished).map (fun p => (p.pid, p.burstTime))) := by
      rw [hs', List.filter_append, List.filter_cons_of_pos hf, List.map_append, List.map_cons]
      exact (List.perm_append_singleton _ _).trans ((hperm.cons _).trans List.perm_middle.symm)
    have hlate : 0 + (order.map Prod.snd).sum + p.burstTime ≤
        s.currentTime + min p.remainingTime quantum := by
      have hle := (h.step hq).finished_bursts_le
      have hsum : (order.map Prod.snd).sum + p.burstTime =
          (((rrStep s).processes.filter Process.isFinished).map Process.burstTime).sum := by
        have he := (hperm'.map Prod.snd).sum_eq
        rw [List.map_map, List.map_append, List.sum_append, List.map_singleton,
          List.sum_singleton] at he
        exact he
      rw [htime] at hle
      omega
    refine ⟨order ++ [(p.pid, p.burstTime)], hperm', ?_, ?_⟩
    · rw [hslices, finishing_append, hrow, List.map_append, List.map_append, ho.pids_eq]
      rfl
    · rw [hslices, finishing_append, hrow, List.map_append, List.map_append, completions_append]
      exact List.rel_append ho.late (List.Forall₂.cons hlate List.Forall₂.nil)
  · have hzero : ¬ p.remainingTime - min p.remainingTime quantum = 0 :=
      fun hz => hf (Process.afterSlice_finished_iff.mpr hz)
    have hrow : finishing [p.sliceFrom s.currentTime quantum] = [] := by
      simp [finishing, Process.sliceFrom, hzero]
    refine ⟨order, ?_, ?_, ?_⟩
    · rw [hs', List.filter_append, List.filter_cons_of_neg hf, List.map_append]
      exact hperm
    · rw [hslices, finishing_append, hrow, List.append_nil]
      exact ho.pids_eq
    · rw [hslices, finishing_append, hrow, List.append_nil]
      exact ho.late

theorem RrFinishing.rowsOfFinished {order : List (Int × Int)} (h : RrFinishing s order) :
    RowsOfFinished s := by
  have hperm := h.order_perm.map Prod.fst
  rw [List.map_map] at hperm
  rw [RowsOfFinished, h.pids_eq]
  exact hperm

theorem RrFinishing.remaining_iff {p : Process} {order : List (Int × Int)} (hq : 0 ≤ quantum)
    (h : RrInvariant adm quantum s (p :: waiting)) (ho : RrFinishing s order) :
    (p.sliceFrom s.currentTime quantum).remaining = 0 ↔
      ¬ FinishedIn s p.pid ∧ FinishedIn (rrStep s) p.pid := by
  obtain ⟨order', ho'⟩ := ho.step hq h
  obtain ⟨-, -, hslices, -⟩ := h.step_record
  exact ho.rowsOfFinished.remaining_iff ho'.rowsOfFinished hslices (h.step hq).distinct

theorem RrInvariant.finishes (hq : 1 ≤ quantum) (h : RrInvariant adm quantum s waiting)
    {order : List (Int × Int)} (ho : RrFinishing s order) {t : Scheduler .roundRobin}
    (ht : Returns rrWaiting rrStep s t) : ∃ order', order'.Perm adm ∧ RrFinishing t order' := by
  have hstep : ∀ r, (∃ w o, RrInvariant adm quantum r w ∧ RrFinishing r o) → rrWaiting r = true →
      ∃ w o, RrInvariant adm quantum (rrStep r) w ∧ RrFinishing (rrStep r) o := by
    intro r ⟨w, o, hr, hro⟩ hc
    cases w with
    | nil => exact absurd rfl (hr.waits_iff.mp hc)
    | cons p w =>
      obtain ⟨o', ho'⟩ := hro.step (by omega) hr
      exact ⟨_, o', hr.step (by omega), ho'⟩
  obtain ⟨_, order', _, ho'⟩ := ht.head.1.invariant hstep ⟨waiting, order, h, ho⟩
  have hend := h.returned hq ht
  have hall : t.processes.filter Process.isFinished = t.processes := by
    apply List.filter_eq_self.mpr
    intro p hp
    simpa [Process.isFinished] using hend.all_finished p hp
  have hperm := ho'.order_perm
  rw [hall, hend.identity] at hperm
  exact ⟨order', hperm, ho'⟩

end RoundRobin

def FinishesEach (adds : List (Int × Int)) (slices : List Slice) : Prop :=
  ((finishing slices).map Slice.pid).Perm (adds.map Prod.fst)

theorem RowsOfFinished.finishesEach {type : SchedulerType} {s : Scheduler type}
    {adds : List (Int × Int)} (h : RowsOfFinished s)
    (hall : ∀ p ∈ s.processes, p.isFinished = true)
    (hpids : (s.processes.map Process.pid).Perm (adds.map Prod.fst)) :
    FinishesEach adds s.slices := by
  rw [RowsOfFinished, List.filter_eq_self.mpr hall] at h
  exact h.trans hpids

theorem Serial.finishesEach {type : SchedulerType} {s₀ s : Scheduler type} {ps : List Process}
    {adds : List (Int × Int)} (h : Serial s₀ s ps []) (hnew : s₀.slices = [])
    (hps : ps.Perm (adds.map added)) : FinishesEach adds s.slices := by
  refine (h.rowsOfFinished hnew (List.forall_mem_nil _)).finishesEach ?_ ?_
  · intro p hp
    rw [h.processes_eq, List.append_nil] at hp
    obtain ⟨q, -, rfl⟩ := List.mem_map.mp hp
    rfl
  · rw [h.processes_eq, List.append_nil, List.map_map]
    have hp := hps.map Process.pid
    rwa [List.map_map] at hp

section Optimality

variable {adds : List (Int × Int)} {s : Scheduler .sjf}
  (hs : Serial schedulerCreateSjf s ((adds.map added).mergeSort burstLE) [])

include hs

/-- No order of the bursts completes earlier in total than the SJF run. -/
theorem completionSum_sjf_le {bursts : List Int} (hb : bursts.Perm (adds.map Prod.snd)) :
    completionSum s.slices ≤ cost 0 bursts := by
  have hmono := List.pairwise_map.mpr (mergeSort_sorted (adds.map added))
  have hperm : bursts.Perm (((adds.map added).mergeSort burstLE).map Process.burstTime) := by
    have hp := ((List.mergeSort_perm (adds.map added) burstLE).map Process.burstTime).symm
    rw [List.map_map] at hp
    exact hb.trans hp
  have hcost := cost_le_of_sorted hmono hperm 0
  rwa [← completionSum_serial, show serialSlices 0 _ = s.slices from hs.slices_eq.symm] at hcost

theorem sums_sjf_le {order : List Process} (ho : order.Perm (adds.map added)) :
    completionSum s.slices ≤ completionSum (serialSlices 0 order) ∧
    waitingSum s.slices ≤ waitingSum (serialSlices 0 order) := by
  have hbursts : (order.map Process.burstTime).Perm (adds.map Prod.snd) := by
    have hp := ho.map Process.burstTime
    rwa [List.map_map] at hp
  have hle := completionSum_sjf_le hs hbursts
  rw [← completionSum_serial] at hle
  refine ⟨hle, ?_⟩
  have hperm := (List.mergeSort_perm (adds.map added) burstLE).trans ho.symm
  have hsum := (hperm.map Process.burstTime).sum_eq
  have hwait := waitingSum_serial 0 ((adds.map added).mergeSort burstLE)
  rw [show serialSlices 0 ((adds.map added).mergeSort burstLE) = s.slices from hs.slices_eq.symm]
    at hwait
  rw [hwait, waitingSum_serial, hsum]
  omega

end Optimality

/-- SJF against every order of serial runs, the FIFO run and the Round Robin run. -/
theorem schedulerRunSjf_optimal {adds : List (Int × Int)} {quantum : Int}
    (hlen : adds.length ≤ maxProcesses) (hpids : (adds.map Prod.fst).Nodup)
    (hbursts : ∀ a ∈ adds, 0 ≤ a.2) (hq : 1 ≤ quantum) :
    ∃ s, schedulerRunSjf (addAll schedulerCreateSjf adds) = some s ∧ FinishesEach adds s.slices ∧
      (∀ order : List Process, order.Perm (adds.map added) →
        completionSum s.slices ≤ completionSum (serialSlices 0 order) ∧
        waitingSum s.slices ≤ waitingSum (serialSlices 0 order)) ∧
      (∃ fuel f, schedulerRun fuel (addAll schedulerCreateFifo adds) = some f ∧
        FinishesEach adds f.slices ∧ completionSum s.slices ≤ completionSum f.slices ∧
        waitingSum s.slices ≤ waitingSum f.slices) ∧
      ∃ fuel r, schedulerRunRr fuel (addAll (schedulerCreateRr quantum) adds) = some r ∧
        FinishesEach adds r.slices ∧ completionSum s.slices ≤ completionSum r.slices := by
  obtain ⟨s, hrun, hs⟩ := schedulerRunSjf_serial hlen
  have hsorted := List.mergeSort_perm (adds.map added) burstLE
  refine ⟨s, hrun, hs.finishesEach rfl hsorted, fun _ ho => sums_sjf_le hs ho, ?_, ?_⟩
  · obtain ⟨fuel, f, hfifo, hf⟩ := schedulerRun_serial hlen hpids
    have hslices : f.slices = serialSlices 0 (adds.map added) := hf.slices_eq
    obtain ⟨hc, hw⟩ := sums_sjf_le hs (List.Perm.refl (adds.map added))
    rw [← hslices] at hc hw
    exact ⟨fuel, f, hfifo, hf.finishesEach rfl (List.Perm.refl _), hc, hw⟩
  · have hinv := addAll_rrInvariant quantum hlen hpids hbursts
    obtain ⟨r, fuel, hrr⟩ := hinv.returns hq
    obtain ⟨order, hperm, ho⟩ := hinv.finishes hq (RrFinishing.start quantum hlen) ⟨fuel, hrr⟩
    refine ⟨fuel, r, hrr, ?_, ?_⟩
    · rw [FinishesEach, ho.pids_eq]
      exact hperm.map Prod.fst
    · exact (completionSum_sjf_le hs (hperm.map Prod.snd)).trans ho.late.sum_le_sum

theorem schedulerRunSjf_optimal_example :
    let adds : List (Int × Int) := [(1, 5), (2, 3), (3, 4)]
    ∃ s, schedulerRunSjf (addAll schedulerCreateSjf adds) = some s ∧ FinishesEach adds s.slices ∧
      (∀ order : List Process, order.Perm (adds.map added) →
        completionSum s.slices ≤ completionSum (serialSlices 0 order) ∧
        waitingSum s.slices ≤ waitingSum (serialSlices 0 order)) ∧
      (∃ fuel f, schedulerRun fuel (addAll schedulerCreateFifo adds) = some f ∧
        FinishesEach adds f.slices ∧ completionSum s.slices ≤ completionSum f.slices ∧
        waitingSum s.slices ≤ waitingSum f.slices) ∧
      ∃ fuel r, schedulerRunRr fuel (addAll (schedulerCreateRr 2) adds) = some r ∧
        FinishesEach adds r.slices ∧ completionSum s.slices ≤ completionSum r.slices :=
  schedulerRunSjf_optimal (by decide) (by decide) (by decide) (by decide)

end MiniOS
