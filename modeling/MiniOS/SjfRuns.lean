import MiniOS.CheckedSteps
import Mathlib.Data.List.Induction

/-! Interleavings of additions and SJF runs, in `int` arithmetic. A run goes through the
whole array again, finished processes included, so the bookkeeping stays right exactly as
long as every run starts before any process has finished, with bursts that fit in the clock. -/

namespace MiniOS

section Calls

variable {type : SchedulerType} {create : Scheduler type}
  {ran : Scheduler type → Scheduler type → Prop} {calls : List SchedulerCall} {s t : Scheduler type}

theorem CallRun.run_inv (h : CallRun create ran (calls ++ [.run]) t) :
    ∃ s, CallRun create ran calls s ∧ ran s t := by
  generalize hc : calls ++ [.run] = cs at h
  cases h with
  | create => simp at hc
  | add pid burstTime h =>
    have he := (List.append_inj' hc rfl).2
    simp at he
  | run h hran =>
    obtain rfl := (List.append_inj' hc rfl).1
    exact ⟨_, h, hran⟩

theorem CallRun.add_inv {pid burstTime : Int}
    (h : CallRun create ran (calls ++ [.add pid burstTime]) t) :
    ∃ s, CallRun create ran calls s ∧ t = schedulerAddProcess s pid burstTime := by
  generalize hc : calls ++ [.add pid burstTime] = cs at h
  cases h with
  | create => simp at hc
  | add pid' burstTime' h =>
    obtain ⟨rfl, hlast⟩ := List.append_inj' hc rfl
    cases hlast
    exact ⟨_, h, rfl⟩
  | run h hran =>
    have he := (List.append_inj' hc rfl).2
    simp at he

theorem CallRun.cut (after : List SchedulerCall) (h : CallRun create ran (calls ++ after) t) :
    ∃ s, CallRun create ran calls s := by
  induction after using List.reverseRecOn generalizing t with
  | nil => exact ⟨t, by rwa [List.append_nil] at h⟩
  | append_singleton after call ih =>
    rw [← List.append_assoc] at h
    cases call with
    | add pid burstTime =>
      obtain ⟨r, hr, -⟩ := h.add_inv
      exact ih hr
    | run =>
      obtain ⟨r, hr, -⟩ := h.run_inv
      exact ih hr

theorem CallRun.unique (hran : ∀ r t t', ran r t → ran r t' → t = t')
    (h : CallRun create ran calls s) (h' : CallRun create ran calls t) : s = t := by
  induction h generalizing t with
  | create =>
    generalize hc : ([] : List SchedulerCall) = cs at h'
    cases h' with
    | create => rfl
    | add => simp at hc
    | run => simp at hc
  | add pid burstTime _ ih =>
    obtain ⟨r, hr, rfl⟩ := h'.add_inv
    rw [ih hr]
  | run _ hs ih =>
    obtain ⟨r, hr, ht⟩ := h'.run_inv
    obtain rfl := ih hr
    exact hran _ _ _ hs ht

def addCall (a : Int × Int) : SchedulerCall := .add a.1 a.2

theorem CallRun.addAll (h : CallRun create ran calls s) (adds : List (Int × Int)) :
    CallRun create ran (calls ++ adds.map addCall) (MiniOS.addAll s adds) := by
  induction adds generalizing calls s with
  | nil => simpa [MiniOS.addAll] using h
  | cons a adds ih =>
    have hrest := ih (h.add a.1 a.2)
    rw [List.append_assoc] at hrest
    exact hrest

theorem schedulerAddProcess_cases (s : Scheduler type) (pid burstTime : Int) :
    schedulerAddProcess s pid burstTime = s ∨
      (schedulerAddProcess s pid burstTime).processes =
        s.processes ++ [processCreate pid burstTime 0 0] := by
  by_cases hfull : maxProcesses ≤ s.processes.length
  · exact Or.inl (schedulerAddProcess_of_full hfull pid burstTime)
  · exact Or.inr (by rw [schedulerAddProcess_of_room (not_le.mp hfull)])

theorem schedulerAddProcess_length_le (h : s.processes.length ≤ maxProcesses) (pid burstTime : Int) :
    (schedulerAddProcess s pid burstTime).processes.length ≤ maxProcesses := by
  by_cases hfull : maxProcesses ≤ s.processes.length
  · rwa [schedulerAddProcess_of_full hfull]
  · rw [schedulerAddProcess_of_room (not_le.mp hfull), List.length_append, List.length_singleton]
    omega

theorem addAll_length_le (s : Scheduler type) (adds : List (Int × Int)) :
    s.processes.length ≤ (addAll s adds).processes.length := by
  induction adds generalizing s with
  | nil => exact le_refl _
  | cons a adds ih =>
    refine le_trans ?_ (ih (schedulerAddProcess s a.1 a.2))
    rcases schedulerAddProcess_cases s a.1 a.2 with he | he
    · rw [he]
    · rw [he, List.length_append]
      omega

/-- Additions that admit no process change nothing. -/
theorem addAll_eq_self {adds : List (Int × Int)}
    (h : (addAll s adds).processes.length = s.processes.length) : addAll s adds = s := by
  induction adds with
  | nil => rfl
  | cons a adds ih =>
    have hle := addAll_length_le (schedulerAddProcess s a.1 a.2) adds
    change (addAll (schedulerAddProcess s a.1 a.2) adds).processes.length = _ at h
    change addAll (schedulerAddProcess s a.1 a.2) adds = s
    rcases schedulerAddProcess_cases s a.1 a.2 with he | he
    · rw [he] at h ⊢
      exact ih h
    · rw [he, List.length_append, List.length_singleton] at hle
      omega

end Calls

def finishedProcesses {type : SchedulerType} (s : Scheduler type) : List Process :=
  s.processes.filter (fun p => p.state = .finished)

theorem Serial.finishedProcesses {type : SchedulerType} {s₀ s : Scheduler type} {ps : List Process}
    (h : Serial s₀ s ps []) : finishedProcesses s = ps.map Process.complete := by
  rw [MiniOS.finishedProcesses, h.processes_eq, List.append_nil]
  apply List.filter_eq_self.mpr
  intro p hp
  obtain ⟨q, -, rfl⟩ := List.mem_map.mp hp
  rfl

/-- Clock, counter, history and list account for the finished processes, each once. -/
structure SjfConsistent (s : Scheduler .sjf) : Prop where
  completed_eq : s.completed = (finishedProcesses s).length
  completed_le : s.completed ≤ s.processes.length
  time_eq : s.currentTime = ((finishedProcesses s).map Process.burstTime).sum
  history_perm : s.history.top.Perm ((finishedProcesses s).map Process.pid)
  finished_perm : s.finishedList.head.Perm ((finishedProcesses s).map Process.node)

theorem SjfConsistent.create : SjfConsistent schedulerCreateSjf :=
  ⟨rfl, le_refl _, rfl, List.Perm.refl _, List.Perm.refl _⟩

theorem SjfConsistent.add {s : Scheduler .sjf} (h : SjfConsistent s) (pid burstTime : Int) :
    SjfConsistent (schedulerAddProcess s pid burstTime) := by
  by_cases hfull : maxProcesses ≤ s.processes.length
  · rw [schedulerAddProcess_of_full hfull]
    exact h
  · have hadd : schedulerAddProcess s pid burstTime =
        { s with processes := s.processes ++ [processCreate pid burstTime 0 0] } :=
      schedulerAddProcess_of_room (not_le.mp hfull) pid burstTime
    have hfin : finishedProcesses (schedulerAddProcess s pid burstTime) = finishedProcesses s := by
      rw [hadd, finishedProcesses, finishedProcesses, List.filter_append]
      simp [processCreate]
    rw [hadd] at hfin ⊢
    have hle := h.completed_le
    constructor
    case completed_eq =>
      rw [hfin]
      exact h.completed_eq
    case completed_le =>
      rw [List.length_append, List.length_singleton]
      exact hle.trans (Int.ofNat_le.mpr (Nat.le_succ _))
    case time_eq =>
      rw [hfin]
      exact h.time_eq
    case history_perm =>
      rw [hfin]
      exact h.history_perm
    case finished_perm =>
      rw [hfin]
      exact h.finished_perm

theorem SjfConsistent.run {s t : Scheduler .sjf} (h : SjfConsistent s)
    (hnone : finishedProcesses s = []) (hrun : schedulerRunSjf s = some t) : SjfConsistent t := by
  obtain ⟨t', hrun', hserial⟩ := schedulerRunSjf_sorted s
  obtain rfl : t' = t := Option.some.inj (hrun'.symm.trans hrun)
  have hfin := hserial.finishedProcesses
  have hhistory : s.history.top = [] := by
    have hp := h.history_perm
    rwa [hnone, List.map_nil, List.perm_nil] at hp
  have hlist : s.finishedList.head = [] := by
    have hp := h.finished_perm
    rwa [hnone, List.map_nil, List.perm_nil] at hp
  have hcompleted : s.completed = 0 := by rw [h.completed_eq, hnone]; rfl
  have htime : s.currentTime = 0 := by rw [h.time_eq, hnone]; rfl
  constructor
  case completed_eq =>
    rw [hfin, hserial.completed_eq, List.length_map]
    show s.completed + _ = _
    rw [hcompleted, zero_add]
  case completed_le =>
    rw [hserial.completed_eq, hserial.processes_eq, List.append_nil, List.length_map]
    show s.completed + _ ≤ _
    rw [hcompleted, zero_add]
  case time_eq =>
    rw [hfin, hserial.time_eq, List.map_map]
    show s.currentTime + _ = _
    rw [htime, zero_add]
    rfl
  case history_perm =>
    rw [hfin, hserial.history_eq, List.map_map]
    show (_ ++ s.history.top).Perm _
    rw [hhistory, List.append_nil]
    exact List.reverse_perm _
  case finished_perm =>
    have hp := hserial.finished_perm
    rw [hfin, List.map_map]
    change t'.finishedList.head.Perm (_ ++ s.finishedList.head) at hp
    rwa [hlist, List.append_nil] at hp

/-! Runs whose arithmetic is checked -/

abbrev SjfRun : List SchedulerCall → Scheduler .sjf → Prop :=
  CallRun schedulerCreateSjf (fun s t => schedulerRunSjfChecked s = some t)

def SchedulerCall.burst : SchedulerCall → Int
  | .add _ burstTime => burstTime
  | .run => 0

theorem SjfRun.unique {calls : List SchedulerCall} {s t : Scheduler .sjf} (h : SjfRun calls s)
    (h' : SjfRun calls t) : s = t :=
  CallRun.unique (fun _ _ _ hs ht => Option.some.inj (hs.symm.trans ht)) h h'

theorem SjfRun.bounds {calls : List SchedulerCall} {s : Scheduler .sjf} (h : SjfRun calls s)
    (hbursts : ∀ call ∈ calls, 0 ≤ call.burst) :
    Accounted s ∧ Tidy s ∧ s.processes.length ≤ maxProcesses := by
  induction h with
  | create => exact ⟨⟨le_refl _, le_refl _, by simp [schedulerCreateSjf]⟩,
      ⟨LinkedList.create_ordered, rfl⟩, Nat.zero_le _⟩
  | @add calls s pid burstTime _ ih =>
    obtain ⟨hearlier, hburst⟩ := List.forall_mem_append.mp hbursts
    obtain ⟨hacc, htidy, hlen⟩ := ih hearlier
    refine ⟨?_, htidy.addAll [(pid, burstTime)], schedulerAddProcess_length_le hlen pid burstTime⟩
    by_cases hfull : maxProcesses ≤ s.processes.length
    · rwa [schedulerAddProcess_of_full hfull]
    · rw [schedulerAddProcess_of_room (not_le.mp hfull)]
      refine ⟨hacc.time, hacc.completed, List.forall_mem_append.mpr ⟨hacc.bursts, ?_⟩⟩
      exact List.forall_mem_singleton.mpr (show 0 ≤ burstTime from hburst _ List.mem_cons_self)
  | @run calls s t _ ht ih =>
    obtain ⟨hacc, htidy, hlen⟩ := ih (List.forall_mem_append.mp hbursts).1
    have hrun := (schedulerRunSjfChecked_some ht).1
    obtain ⟨t', hrun', hserial⟩ := schedulerRunSjf_sorted s
    obtain rfl : t' = t := Option.some.inj (hrun'.symm.trans hrun)
    refine ⟨hacc.schedulerRunSjf hrun, htidy.schedulerRunSjf hrun, ?_⟩
    rwa [hserial.processes_eq, List.append_nil, List.length_map, List.length_mergeSort]

theorem SjfConsistent.unstarted {s : Scheduler .sjf} (h : SjfConsistent s)
    (hnone : finishedProcesses s = []) : Unstarted s where
  time_eq := by rw [h.time_eq, hnone]; rfl
  completed_eq := by rw [h.completed_eq, hnone]; rfl
  finished_eq := by
    have hp := h.finished_perm
    rwa [hnone, List.map_nil, List.perm_nil] at hp
  history_eq := by
    have hp := h.history_perm
    rwa [hnone, List.map_nil, List.perm_nil] at hp

theorem Unstarted.sjf_completes_iff {s : Scheduler .sjf} (h : Unstarted s) (hacc : Accounted s)
    (htidy : Tidy s) (hlen : s.processes.length ≤ maxProcesses) :
    (∃ t, schedulerRunSjfChecked s = some t) ↔ (s.processes.map Process.burstTime).sum ≤ intMax := by
  obtain ⟨t, hrun, hserial⟩ := schedulerRunSjf_sorted s
  have hend := hserial.inRange_iff (htidy.schedulerRunSjf hrun)
    (by rwa [List.length_mergeSort]) ⟨h.time_eq, h.completed_eq, h.finished_eq, h.history_eq⟩
  rw [((List.mergeSort_perm _ _).map Process.burstTime).sum_eq] at hend
  rw [schedulerRunSjfChecked_eq hacc (h.inRange htidy) hrun, ← hend]
  by_cases hin : InRange t
  · simp [hin]
  · simp [hin]

/-- Every run of the interleaving starts while no process is finished, with bursts that add up to
an `int`. -/
def RunsUnstarted (calls : List SchedulerCall) : Prop :=
  ∀ before after s, calls = before ++ .run :: after → SjfRun before s →
    finishedProcesses s = [] ∧ (s.processes.map Process.burstTime).sum ≤ intMax

/-- Every call completes; after it the bookkeeping is right, and a run with no process
admitted since the last one changes nothing. -/
structure SjfOnce (calls : List SchedulerCall) : Prop where
  completes : ∃ s, SjfRun calls s
  consistent : ∀ before after s, calls = before ++ after → SjfRun before s → SjfConsistent s
  idle : ∀ before adds after s t, calls = before ++ .run :: (adds.map addCall ++ .run :: after) →
    SjfRun (before ++ [.run]) s → (addAll s adds).processes.length = s.processes.length →
    schedulerRunSjfChecked (addAll s adds) = some t → t = s

theorem RunsUnstarted.consistent {calls : List SchedulerCall} (h : RunsUnstarted calls)
    {before : List SchedulerCall} {s : Scheduler .sjf} (hrun : SjfRun before s) :
    ∀ after, calls = before ++ after → SjfConsistent s := by
  induction hrun with
  | create => exact fun _ _ => SjfConsistent.create
  | @add before s pid burstTime _ ih =>
    intro after hc
    exact (ih (.add pid burstTime :: after) (by simpa using hc)).add pid burstTime
  | @run before s t hs ht ih =>
    intro after hc
    have hc' : calls = before ++ .run :: after := by simpa using hc
    exact (ih _ hc').run (h before after s hc' hs).1 (schedulerRunSjfChecked_some ht).1

theorem RunsUnstarted.completes {calls : List SchedulerCall} (h : RunsUnstarted calls)
    (hbursts : ∀ call ∈ calls, 0 ≤ call.burst) (before after : List SchedulerCall)
    (hc : calls = before ++ after) : ∃ s, SjfRun before s := by
  induction before using List.reverseRecOn generalizing after with
  | nil => exact ⟨_, .create⟩
  | append_singleton before call ih =>
    have hc' : calls = before ++ call :: after := by rw [hc, List.append_assoc]; rfl
    obtain ⟨s, hs⟩ := ih _ hc'
    cases call with
    | add pid burstTime => exact ⟨_, hs.add pid burstTime⟩
    | run =>
      obtain ⟨hnone, hsum⟩ := h before after s hc' hs
      have hunstarted := (h.consistent hs _ hc').unstarted hnone
      rw [hc'] at hbursts
      obtain ⟨hacc, htidy, hlen⟩ := SjfRun.bounds hs (List.forall_mem_append.mp hbursts).1
      obtain ⟨t, ht⟩ := (hunstarted.sjf_completes_iff hacc htidy hlen).mpr hsum
      exact ⟨t, hs.run ht⟩

theorem RunsUnstarted.idle {calls before after : List SchedulerCall} (h : RunsUnstarted calls)
    {adds : List (Int × Int)} {s t : Scheduler .sjf}
    (hc : calls = before ++ .run :: (adds.map addCall ++ .run :: after))
    (hs : SjfRun (before ++ [.run]) s)
    (hlen : (addAll s adds).processes.length = s.processes.length)
    (ht : schedulerRunSjfChecked (addAll s adds) = some t) : t = s := by
  obtain ⟨hnone, -⟩ := h (before ++ .run :: adds.map addCall) after (addAll s adds)
    (by simpa using hc) (by simpa using CallRun.addAll hs adds)
  have hrun := (schedulerRunSjfChecked_some ht).1
  rw [addAll_eq_self hlen] at hnone hrun
  have hempty : s.processes = [] := by
    obtain ⟨r, -, hr⟩ := hs.run_inv
    obtain ⟨s', hr', hserial⟩ := schedulerRunSjf_sorted r
    obtain rfl : s' = s := Option.some.inj (hr'.symm.trans (schedulerRunSjfChecked_some hr).1)
    rw [hserial.processes_eq, List.append_nil, ← hserial.finishedProcesses, hnone]
  have hself : schedulerRunSjf s = some s := by
    obtain ⟨processes, quantum, currentTime, completed, queue, finishedList, history, slices⟩ := s
    obtain rfl : processes = [] := hempty
    simp only [schedulerRunSjf_eq, List.mergeSort_nil]
    rfl
  exact Option.some.inj (hrun.symm.trans hself)

theorem SjfOnce.unstarted {calls : List SchedulerCall} (h : SjfOnce calls)
    (hbursts : ∀ call ∈ calls, 0 ≤ call.burst) : RunsUnstarted calls := by
  intro before after s hc hs
  obtain ⟨t, ht⟩ : ∃ t, schedulerRunSjfChecked s = some t := by
    obtain ⟨u, hu⟩ := h.completes
    rw [hc, List.append_cons] at hu
    obtain ⟨t, ht⟩ := CallRun.cut after hu
    obtain ⟨r, hr, hrun⟩ := ht.run_inv
    exact ⟨t, SjfRun.unique hr hs ▸ hrun⟩
  have hbefore := h.consistent before (.run :: after) s hc hs
  have hafter := h.consistent (before ++ [.run]) after t (by simpa using hc) (hs.run ht)
  have hnone : finishedProcesses s = [] := by
    obtain ⟨t', ht', hserial⟩ := schedulerRunSjf_sorted s
    obtain rfl : t' = t := Option.some.inj (ht'.symm.trans (schedulerRunSjfChecked_some ht).1)
    have hle := hafter.completed_le
    -- the run counts every process of the array once more
    rw [hserial.completed_eq, hserial.processes_eq, List.append_nil, List.length_map,
      List.length_mergeSort] at hle
    change s.completed + _ ≤ _ at hle
    rw [hbefore.completed_eq] at hle
    exact List.length_eq_zero_iff.mp (by omega)
  rw [hc] at hbursts
  obtain ⟨hacc, htidy, hlen⟩ := SjfRun.bounds hs (List.forall_mem_append.mp hbursts).1
  exact ⟨hnone, ((hbefore.unstarted hnone).sjf_completes_iff hacc htidy hlen).mp ⟨t, ht⟩⟩

theorem sjfOnce_iff {calls : List SchedulerCall} (hbursts : ∀ call ∈ calls, 0 ≤ call.burst) :
    SjfOnce calls ↔ RunsUnstarted calls :=
  ⟨fun h => h.unstarted hbursts, fun h =>
    ⟨h.completes hbursts calls [] (List.append_nil _).symm,
      fun _ after _ hc hs => h.consistent hs after hc, fun _ _ _ _ _ hc hs => h.idle hc hs⟩⟩

theorem sjfOnce_iff_example : SjfOnce [.add 1 5, .add 2 3, .run] := by
  refine (sjfOnce_iff (by decide)).mpr (fun before after s hc hs => ?_)
  obtain ⟨rfl, -⟩ : before = [.add 1 5, .add 2 3] ∧ after = [] := by
    rcases before with _ | ⟨a, _ | ⟨b, _ | ⟨c, before⟩⟩⟩ <;> simp_all
  obtain rfl := SjfRun.unique hs ((CallRun.create.add 1 5).add 2 3)
  exact ⟨rfl, by decide⟩

/-- The second run starts the finished process again. -/
theorem not_sjfOnce_second_run :
    (∃ s, SjfRun [.add 1 5, .run, .run] s ∧ s.completed = 2 ∧ s.processes.length = 1) ∧
      ¬ SjfOnce [.add 1 5, .run, .run] := by
  have hadd : SjfRun [.add 1 5] (schedulerAddProcess schedulerCreateSjf 1 5) :=
    CallRun.create.add 1 5
  obtain ⟨hacc, htidy, hlen⟩ := hadd.bounds (by decide)
  obtain ⟨s, hs⟩ := (Unstarted.sjf_completes_iff ⟨rfl, rfl, rfl, rfl⟩ hacc htidy hlen).mpr (by decide)
  obtain ⟨hacc', htidy', -⟩ := SjfRun.bounds (hadd.run hs) (by decide)
  obtain ⟨hrun, hrange⟩ := schedulerRunSjfChecked_some hs
  obtain ⟨s', hs', hserial⟩ := schedulerRunSjf_sorted (schedulerAddProcess schedulerCreateSjf 1 5)
  obtain rfl : s' = s := Option.some.inj (hs'.symm.trans hrun)
  have hsorted : (schedulerAddProcess schedulerCreateSjf 1 5).processes.mergeSort burstLE =
      [processCreate 1 5 0 0] := List.mergeSort_singleton _
  rw [hsorted] at hserial
  obtain ⟨t, ht, hserial'⟩ := schedulerRunSjf_sorted s'
  rw [hserial.processes_eq, List.append_nil, List.map_singleton, List.mergeSort_singleton] at hserial'
  have hin : InRange t := by
    rw [hserial'.inRange_iff_add (htidy'.schedulerRunSjf ht)]
    show s'.currentTime + _ ≤ _ ∧ s'.completed + _ ≤ _ ∧ (_ + (s'.finishedList.head.length : Int)) ≤ _ ∧
      (_ + (s'.history.top.length : Int)) ≤ _
    rw [hserial.time_eq, hserial.completed_eq, hserial.finished_perm.length_eq, hserial.history_eq]
    decide
  have hchecked : schedulerRunSjfChecked s' = some t := by
    rw [schedulerRunSjfChecked_eq hacc' (hrange (by decide)) ht, if_pos hin]
  have hcompleted : t.completed = 2 := by
    rw [hserial'.completed_eq]
    show s'.completed + 1 = 2
    rw [hserial.completed_eq]
    rfl
  have hone : t.processes.length = 1 := by
    rw [hserial'.processes_eq]
    rfl
  have htwice : SjfRun [.add 1 5, .run, .run] t := (hadd.run hs).run hchecked
  refine ⟨⟨t, htwice, hcompleted, hone⟩, fun h => ?_⟩
  have hle := (h.consistent _ [] t (by simp) htwice).completed_le
  rw [hcompleted, hone] at hle
  exact absurd hle (by decide)

end MiniOS
