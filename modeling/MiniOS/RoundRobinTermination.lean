import MiniOS.CheckedSteps
import MiniOS.RoundRobinProgress

/-! For which records and quanta the Round Robin loop ends, in `int` arithmetic. Pids may repeat and
records may be admitted in any state. A lookup finds the first record of a pid, so it is the first
records that count: each is served until it is finished, and their remaining times end up in the
clock. -/

namespace MiniOS

open WhileLoop

/-! The records that can be served -/

/-- The records that a search by pid can find. -/
def firstRecords : List Process → List Process
  | [] => []
  | p :: ps => p :: (firstRecords ps).filter (fun x => x.pid ≠ p.pid)

def readyRecords (ps : List Process) : List Process :=
  (firstRecords ps).filter (fun p => !p.isFinished)

theorem firstRecords_sublist (ps : List Process) : (firstRecords ps).Sublist ps := by
  induction ps with
  | nil => exact List.Sublist.refl _
  | cons p ps ih => exact (List.filter_sublist.trans ih).cons_cons p

theorem firstRecords_nodup (ps : List Process) : ((firstRecords ps).map Process.pid).Nodup := by
  induction ps with
  | nil => exact List.nodup_nil
  | cons p ps ih =>
    rw [firstRecords, List.map_cons, List.nodup_cons]
    refine ⟨?_, ih.sublist (List.filter_sublist.map _)⟩
    intro hmem
    obtain ⟨x, hx, he⟩ := List.mem_map.mp hmem
    simpa [he] using (List.mem_filter.mp hx).2

/-- A record found by its pid keeps its place when it is replaced. -/
theorem firstRecords_replace {before : List Process} {pid : Int}
    (hbefore : ∀ x ∈ before, x.pid ≠ pid) (after : List Process) :
    ∃ ahead behind, ∀ p : Process, p.pid = pid →
      firstRecords (before ++ p :: after) = ahead ++ p :: behind := by
  induction before with
  | nil =>
    refine ⟨[], (firstRecords after).filter (fun x => x.pid ≠ pid), fun p hp => ?_⟩
    rw [List.nil_append, List.nil_append, firstRecords, hp]
  | cons b before ih =>
    obtain ⟨hb, hrest⟩ := List.forall_mem_cons.mp hbefore
    obtain ⟨ahead, behind, hsplit⟩ := ih hrest
    refine ⟨b :: ahead.filter (fun x => x.pid ≠ b.pid), behind.filter (fun x => x.pid ≠ b.pid),
      fun p hp => ?_⟩
    have hne : p.pid ≠ b.pid := fun h => hb (h.symm.trans hp)
    rw [List.cons_append, firstRecords, hsplit p hp, List.filter_append,
      List.filter_cons_of_pos (by simpa using hne), List.cons_append]

theorem readyRecords_replace {before : List Process} {pid : Int}
    (hbefore : ∀ x ∈ before, x.pid ≠ pid) (after : List Process) :
    ∃ ahead behind, ∀ p : Process, p.pid = pid → readyRecords (before ++ p :: after) =
      ahead ++ if p.isFinished then behind else p :: behind := by
  obtain ⟨ahead, behind, hfirst⟩ := firstRecords_replace hbefore after
  refine ⟨ahead.filter (fun p => !p.isFinished), behind.filter (fun p => !p.isFinished),
    fun p hp => ?_⟩
  rw [readyRecords, hfirst p hp, List.filter_append]
  by_cases hf : p.isFinished = true
  · rw [List.filter_cons_of_neg (by simp [hf]), if_pos hf]
  · rw [List.filter_cons_of_pos (by simpa using hf), if_neg hf]

theorem mem_readyRecords {ps : List Process} {p : Process} (h : p ∈ readyRecords ps) :
    p ∈ ps ∧ p.isFinished = false := by
  obtain ⟨hmem, hfin⟩ := List.mem_filter.mp h
  exact ⟨(firstRecords_sublist ps).subset hmem, by simpa using hfin⟩

theorem readyRecords_nodup (ps : List Process) : ((readyRecords ps).map Process.pid).Nodup :=
  (firstRecords_nodup ps).sublist (List.filter_sublist.map _)

theorem readyRecords_length_le (ps : List Process) : (readyRecords ps).length ≤ ps.length :=
  (List.filter_sublist.trans (firstRecords_sublist ps)).length_le

theorem pid_ne_of_ready {ps ahead behind : List Process} {p x : Process}
    (hready : readyRecords ps = ahead ++ p :: behind) (hx : x ∈ ahead ++ behind) :
    x.pid ≠ p.pid := by
  have hnd := readyRecords_nodup ps
  rw [hready, List.map_append, List.map_cons] at hnd
  have hnot := (List.nodup_cons.mp (List.nodup_middle.mp hnd)).1
  rw [← List.map_append] at hnot
  exact fun he => hnot (he ▸ List.mem_map_of_mem hx)

/-- With distinct pids every record that is not finished is ready. -/
theorem readyRecords_eq_self {ps : List Process} (hpids : (ps.map Process.pid).Nodup)
    (hready : ∀ p ∈ ps, p.isFinished = false) : readyRecords ps = ps := by
  have hfirst : firstRecords ps = ps := by
    clear hready
    induction ps with
    | nil => rfl
    | cons p ps ih =>
      rw [List.map_cons, List.nodup_cons] at hpids
      rw [firstRecords, ih hpids.2, List.filter_eq_self.mpr]
      intro x hx
      exact decide_eq_true (fun he => hpids.1 (he ▸ List.mem_map_of_mem hx))
  rw [readyRecords, hfirst]
  exact List.filter_eq_self.mpr (fun p hp => by simp [hready p hp])

/-! One turn -/

/-- What one iteration does with the pid taken from the queue. -/
inductive RrTurn (s t : Scheduler .roundRobin) (pid : Int) (rest : List Int) : Prop
  | skipped (hdone : ∀ p ∈ readyRecords s.processes, p.pid ≠ pid)
      (hsame : ∃ queue, t = { s with queue := queue }) (hqueue : t.queue.toList = rest)
      (hchecked : rrStepChecked s = some t)
  | served {ahead behind : List Process} {p : Process}
      (hready : readyRecords s.processes = ahead ++ p :: behind) (hpid : p.pid = pid)
      (hleft : readyRecords t.processes = ahead ++
        if (p.afterSlice s.quantum).isFinished then behind else p.afterSlice s.quantum :: behind)
      (htime : t.currentTime = s.currentTime + min p.remainingTime s.quantum)
      (hhistory : t.history.size = s.history.size + 1)
      (hlist : t.finishedList.size = s.finishedList.size +
        if (p.afterSlice s.quantum).isFinished then 1 else 0)
      (hcompleted : t.completed = s.completed +
        if (p.afterSlice s.quantum).isFinished then 1 else 0)
      (hqueue : t.queue.toList =
        if (p.afterSlice s.quantum).isFinished then rest else rest ++ [pid])
      (hchecked : InInts [s.currentTime + min p.remainingTime s.quantum,
        p.remainingTime - min p.remainingTime s.quantum, s.history.size + 1,
        s.finishedList.size + 1, s.completed + 1] → rrStepChecked s = some t)

theorem RrTurn.of_dispatch {s : Scheduler .roundRobin} {queue : CircularQueue}
    (hvalid : queue.Valid) {c : Cursor s.processes}
    (hbefore : ∀ x ∈ c.before, x.pid ≠ c.item.pid) (hunfinished : ¬ c.item.isFinished = true)
    (hchecked : rrStepChecked s = rrDispatchChecked { s with queue := queue } c) :
    RrTurn s (rrDispatch { s with queue := queue } c) c.item.pid queue.toList := by
  obtain ⟨ahead, behind, hreplace⟩ := readyRecords_replace hbefore c.after
  have hready := hreplace c.item rfl
  rw [c.split, if_neg hunfinished] at hready
  have hleft := hreplace (c.item.afterSlice s.quantum) rfl
  refine .served hready rfl ?_ ?_ ?_ ?_ ?_ ?_ ?_
  · rw [rrDispatch_eq]
    exact hleft
  · rw [rrDispatch_eq]
  · rw [rrDispatch_eq]
    rfl
  · rw [rrDispatch_eq]
    show (if _ then _ else _ : LinkedList).size = _
    split_ifs
    · exact LinkedList.insert_size _ _ _
    · rfl
  · rw [rrDispatch_eq]
  · rw [rrDispatch_eq]
    show (if _ then _ else _ : CircularQueue).toList = _
    split_ifs
    · rfl
    · exact (hvalid.enqueue c.item.pid).2
  · intro hfits
    rw [hchecked]
    exact rrDispatchChecked_of_inInts hfits

theorem rrDispatch_valid {s : Scheduler .roundRobin} (h : s.queue.Valid) (c : Cursor s.processes) :
    (rrDispatch s c).queue.Valid ∧ (rrDispatch s c).quantum = s.quantum := by
  rw [rrDispatch_eq]
  refine ⟨?_, rfl⟩
  show CircularQueue.Valid (if _ then _ else _)
  split_ifs
  · exact h
  · exact (h.enqueue _).1

theorem rrStep_turn {s : Scheduler .roundRobin} (hvalid : s.queue.Valid) {pid : Int}
    {rest : List Int} (hqueue : s.queue.toList = pid :: rest) :
    (rrStep s).queue.Valid ∧ (rrStep s).quantum = s.quantum ∧ RrTurn s (rrStep s) pid rest := by
  have hne : cqIsEmpty s.queue = false := by
    rw [← Bool.not_eq_true, CircularQueue.isEmpty_iff, hqueue]
    exact List.cons_ne_nil _ _
  obtain ⟨hvalid', hlist⟩ := hvalid.dequeue hne
  rw [hqueue] at hlist
  obtain ⟨hpid, rfl⟩ := List.cons.inj hlist
  rcases rrStep_cases s with ⟨hnone, hstep⟩ | ⟨c, hsome, hturn⟩
  · have hchecked : rrStepChecked s = some (rrStep s) := by
      rw [hstep]
      simp only [rrStepChecked, hnone]
    refine ⟨hstep ▸ hvalid', by rw [hstep], .skipped (fun p hp he => ?_) ⟨_, hstep⟩
      (by rw [hstep]) hchecked⟩
    have hno := Cursor.first_eq_none_iff.mp hnone p (mem_readyRecords hp).1
    simp [he, hpid] at hno
  · obtain ⟨hitem, hbefore⟩ := Cursor.first_spec hsome
    have hkey : c.item.pid = pid := (beq_iff_eq.mp hitem).trans hpid.symm
    have hbefore' : ∀ x ∈ c.before, x.pid ≠ c.item.pid := by
      intro x hx he
      have hno := hbefore x hx
      simp [he, hkey, hpid] at hno
    rcases hturn with ⟨hstate, hstep⟩ | ⟨hstate, hstep⟩
    · have hchecked : rrStepChecked s = some (rrStep s) := by
        rw [hstep]
        simp only [rrStepChecked, hsome, if_pos hstate]
      refine ⟨hstep ▸ hvalid', by rw [hstep], .skipped (fun p hp => ?_) ⟨_, hstep⟩
        (by rw [hstep]) hchecked⟩
      -- the place of the finished record could hold one that is ready, so its pid is not elsewhere
      obtain ⟨ahead, behind, hreplace⟩ := readyRecords_replace hbefore' c.after
      have hold := hreplace c.item rfl
      rw [c.split, if_pos (by simp [Process.isFinished, hstate])] at hold
      have hother := hreplace { c.item with state := .ready } rfl
      rw [if_neg (by simp [Process.isFinished])] at hother
      rw [hold] at hp
      exact fun he => pid_ne_of_ready hother hp (he.trans hkey.symm)
    · have hunfinished : ¬ c.item.isFinished = true := by
        simpa [Process.isFinished] using hstate
      have hchecked : rrStepChecked s =
          rrDispatchChecked { s with queue := (cqDequeue s.queue).2 } c := by
        simp only [rrStepChecked, hsome, if_neg hstate]
      let popped : Scheduler .roundRobin := { s with queue := (cqDequeue s.queue).2 }
      obtain ⟨hnext, hquantum⟩ := rrDispatch_valid (s := popped) hvalid' c
      rw [hstep, ← hkey]
      exact ⟨hnext, hquantum, .of_dispatch hvalid' hbefore' hunfinished hchecked⟩

/-- The queue leaves out no record that is ready. -/
structure Attended (s : Scheduler .roundRobin) : Prop where
  valid : s.queue.Valid
  queued : ∀ p ∈ readyRecords s.processes, p.pid ∈ s.queue.toList

theorem Attended.step {s : Scheduler .roundRobin} (h : Attended s) (hw : rrWaiting s = true) :
    Attended (rrStep s) ∧ (rrStep s).quantum = s.quantum ∧
      ∃ pid rest, s.queue.toList = pid :: rest ∧ RrTurn s (rrStep s) pid rest := by
  have hne : s.queue.toList ≠ [] := by
    intro hnil
    simp [rrWaiting, CircularQueue.isEmpty_iff.mpr hnil] at hw
  obtain ⟨pid, rest, hqueue⟩ := List.exists_cons_of_ne_nil hne
  obtain ⟨hvalid, hquantum, hturn⟩ := rrStep_turn h.valid hqueue
  refine ⟨⟨hvalid, ?_⟩, hquantum, pid, rest, hqueue, hturn⟩
  have hqueued := h.queued
  rw [hqueue] at hqueued
  generalize rrStep s = t at hturn
  cases hturn with
  | skipped hdone hsame hrest =>
    intro x hx
    rw [hrest]
    obtain ⟨queue, rfl⟩ := hsame
    exact (List.mem_cons.mp (hqueued x hx)).resolve_left (hdone x hx)
  | @served ahead behind p hready hpid hleft _ _ _ _ hrest =>
    have hstays : ∀ x ∈ ahead ++ behind, x.pid ∈ rest := by
      intro x hx
      have hin : x ∈ readyRecords s.processes := by
        rw [hready]
        exact List.mem_append.mpr ((List.mem_append.mp hx).imp_right (List.mem_cons_of_mem _))
      exact (List.mem_cons.mp (hqueued x hin)).resolve_left (hpid ▸ pid_ne_of_ready hready hx)
    intro x hx
    rw [hleft] at hx
    rw [hrest]
    split_ifs at hx ⊢ with hf
    · exact hstays x hx
    · rcases List.mem_append.mp hx with hx | hx
      · exact List.mem_append_left _ (hstays x (List.mem_append_left _ hx))
      · rcases List.mem_cons.mp hx with rfl | hx
        · exact List.mem_append_right _ (List.mem_singleton.mpr hpid)
        · exact List.mem_append_left _ (hstays x (List.mem_append_right _ hx))

theorem Attended.ready_nil {s : Scheduler .roundRobin} (h : Attended s) (hw : rrWaiting s = false) :
    readyRecords s.processes = [] := by
  rw [rrWaiting, Bool.not_eq_false', CircularQueue.isEmpty_iff] at hw
  refine List.eq_nil_iff_forall_not_mem.mpr (fun p hp => ?_)
  have hin := h.queued p hp
  rw [hw] at hin
  cases hin

/-! What the ready records will add to the clock and to the history -/

/-- A slice takes something off the record, or finishes it. -/
def Servable (quantum : Int) (p : Process) : Prop :=
  1 ≤ quantum ∧ 0 ≤ p.remainingTime ∨ quantum = 0 ∧ p.remainingTime = 0

instance (quantum : Int) (p : Process) : Decidable (Servable quantum p) :=
  inferInstanceAs (Decidable (_ ∨ _))

section Slice

variable {quantum : Int} {p : Process}

theorem Process.afterSlice_remaining (quantum : Int) (p : Process) :
    (p.afterSlice quantum).remainingTime = p.remainingTime - min p.remainingTime quantum := rfl

theorem Servable.slice (h : Servable quantum p) :
    0 ≤ min p.remainingTime quantum ∧ 0 ≤ (p.afterSlice quantum).remainingTime := by
  rw [Process.afterSlice_remaining]
  rcases h with ⟨hq, hrem⟩ | ⟨hq, hrem⟩
  · omega
  · omega

theorem Servable.dispatches_of_finished (h : Servable quantum p)
    (hf : (p.afterSlice quantum).isFinished = true) : dispatches quantum p.remainingTime = 1 := by
  rw [Process.afterSlice_finished_iff, Process.afterSlice_remaining] at hf
  rcases h with ⟨hq, hrem⟩ | ⟨rfl, hrem⟩
  · exact dispatches_of_le hq (by omega)
  · rw [hrem]
    rfl

theorem Servable.of_unfinished (h : Servable quantum p)
    (hf : ¬ (p.afterSlice quantum).isFinished = true) : Servable quantum (p.afterSlice quantum) ∧
      dispatches quantum p.remainingTime =
        dispatches quantum (p.afterSlice quantum).remainingTime + 1 := by
  have hnonneg := h.slice.2
  rw [Process.afterSlice_finished_iff, Process.afterSlice_remaining] at hf
  rcases h with ⟨hq, hrem⟩ | ⟨rfl, hrem⟩
  · refine ⟨Or.inl ⟨hq, hnonneg⟩, ?_⟩
    rw [Process.afterSlice_remaining, min_eq_right (by omega)]
    exact dispatches_of_lt hq (by omega)
  · exact absurd (by rw [hrem]; rfl) hf

theorem not_servable_iff : ¬ Servable quantum p ↔
    min p.remainingTime quantum < 0 ∨ quantum = 0 ∧ 0 < p.remainingTime := by
  rw [Servable]
  omega

end Slice

def clockAhead (s : Scheduler .roundRobin) : Int :=
  s.currentTime + ((readyRecords s.processes).map Process.remainingTime).sum

def slicesAhead (s : Scheduler .roundRobin) : Nat :=
  s.history.size + turnsLeft s.quantum (readyRecords s.processes)

namespace RrTurn

variable {s t : Scheduler .roundRobin} {pid : Int} {rest : List Int}

theorem clockAhead_eq (h : RrTurn s t pid rest) : clockAhead t = clockAhead s := by
  cases h with
  | skipped _ hsame =>
    obtain ⟨queue, rfl⟩ := hsame
    rfl
  | @served ahead behind p hready _ hleft htime =>
    have hdone : (p.afterSlice s.quantum).isFinished = true ↔
        (p.afterSlice s.quantum).remainingTime = 0 := Process.afterSlice_finished_iff
    rw [Process.afterSlice_remaining] at hdone
    rw [clockAhead, clockAhead, hready, hleft, htime]
    split_ifs with hf
    · have hzero := hdone.mp hf
      simp only [List.map_append, List.map_cons, List.sum_append, List.sum_cons]
      omega
    · simp only [List.map_append, List.map_cons, List.sum_append, List.sum_cons,
        Process.afterSlice_remaining]
      omega

theorem servable (h : RrTurn s t pid rest)
    (hservable : ∀ p ∈ readyRecords s.processes, Servable s.quantum p) :
    ∀ p ∈ readyRecords t.processes, Servable s.quantum p := by
  cases h with
  | skipped _ hsame =>
    obtain ⟨queue, rfl⟩ := hsame
    exact hservable
  | @served ahead behind p hready _ hleft =>
    rw [hready, List.forall_mem_append, List.forall_mem_cons] at hservable
    obtain ⟨hahead, hp, hbehind⟩ := hservable
    rw [hleft, List.forall_mem_append]
    refine ⟨hahead, ?_⟩
    split_ifs with hf
    · exact hbehind
    · exact List.forall_mem_cons.mpr ⟨(hp.of_unfinished hf).1, hbehind⟩

theorem slicesAhead_eq (h : RrTurn s t pid rest) (hquantum : t.quantum = s.quantum)
    (hservable : ∀ p ∈ readyRecords s.processes, Servable s.quantum p) :
    slicesAhead t = slicesAhead s := by
  cases h with
  | skipped _ hsame =>
    obtain ⟨queue, rfl⟩ := hsame
    rfl
  | @served ahead behind p hready _ hleft _ hhistory =>
    have hp : Servable s.quantum p := hservable p (by simp [hready])
    rw [slicesAhead, slicesAhead, hready, hleft, hhistory, hquantum]
    split_ifs with hf
    · have hone := hp.dispatches_of_finished hf
      simp only [turnsLeft, List.map_append, List.map_cons, List.sum_append, List.sum_cons, hone]
      omega
    · have hmore := (hp.of_unfinished hf).2
      have hpos := dispatches_pos s.quantum (p.afterSlice s.quantum).remainingTime
      simp only [turnsLeft, List.map_append, List.map_cons, List.sum_append, List.sum_cons, hmore]
      omega

theorem listed_eq (h : RrTurn s t pid rest) :
    t.finishedList.size + (readyRecords t.processes).length =
        s.finishedList.size + (readyRecords s.processes).length ∧
      t.completed - t.finishedList.size = s.completed - s.finishedList.size := by
  cases h with
  | skipped _ hsame =>
    obtain ⟨queue, rfl⟩ := hsame
    exact ⟨rfl, rfl⟩
  | served hready _ hleft _ _ hlist hcompleted =>
    rw [hready, hleft, hlist, hcompleted]
    split_ifs
    · simp only [List.length_append, List.length_cons]
      omega
    · simp only [List.length_append, List.length_cons]
      omega

end RrTurn

/-! Runs that end -/

/-- Every turn makes progress, and what the records add up to fits in an `int`. -/
structure Affordable (s : Scheduler .roundRobin) : Prop extends Attended s where
  servable : ∀ p ∈ readyRecords s.processes, Servable s.quantum p
  time : 0 ≤ s.currentTime
  clock : clockAhead s ≤ intMax
  slices : (slicesAhead s : Int) ≤ intMax
  listed : s.finishedList.size + (readyRecords s.processes).length ≤ maxProcesses
  completed_eq : s.completed = s.finishedList.size

/-- The slices left and the turns waiting. -/
def rrLeft (s : Scheduler .roundRobin) : Nat :=
  turnsLeft s.quantum (readyRecords s.processes) + s.queue.toList.length

namespace Affordable

variable {s : Scheduler .roundRobin}

theorem fits (h : Affordable s) {ahead behind : List Process} {p : Process}
    (hready : readyRecords s.processes = ahead ++ p :: behind) :
    InInts [s.currentTime + min p.remainingTime s.quantum,
      p.remainingTime - min p.remainingTime s.quantum, s.history.size + 1,
      s.finishedList.size + 1, s.completed + 1] := by
  obtain ⟨hslice, hleft⟩ := (h.servable p (by simp [hready])).slice
  rw [Process.afterSlice_remaining] at hleft
  have hnonneg : ∀ x ∈ (ahead ++ behind).map Process.remainingTime, 0 ≤ x := by
    intro x hx
    obtain ⟨q, hq, rfl⟩ := List.mem_map.mp hx
    have hin : q ∈ readyRecords s.processes := by
      rw [hready]
      exact List.mem_append.mpr ((List.mem_append.mp hq).imp_right (List.mem_cons_of_mem _))
    have hslice := (h.servable q hin).slice
    rw [Process.afterSlice_remaining] at hslice
    omega
  have hothers := List.sum_nonneg hnonneg
  have hclock := h.clock
  have hslices := h.slices
  have hlisted := h.listed
  have hpos := dispatches_pos s.quantum p.remainingTime
  have htime := h.time
  rw [List.map_append, List.sum_append] at hothers
  rw [clockAhead, hready, List.map_append, List.map_cons, List.sum_append, List.sum_cons] at hclock
  rw [slicesAhead, hready, turnsLeft, List.map_append, List.map_cons, List.sum_append,
    List.sum_cons] at hslices
  rw [hready, List.length_append, List.length_cons, maxProcesses] at hlisted
  rw [intMax] at hclock hslices
  simp only [InInts, List.forall_mem_cons, List.not_mem_nil, false_implies, implies_true, and_true,
    intMin, intMax, h.completed_eq]
  omega

theorem step (h : Affordable s) (hw : rrWaiting s = true) :
    rrStepChecked s = some (rrStep s) ∧ Affordable (rrStep s) ∧
      s.currentTime ≤ (rrStep s).currentTime ∧ rrLeft (rrStep s) < rrLeft s := by
  obtain ⟨hattended, hquantum, pid, rest, hqueue, hturn⟩ := h.toAttended.step hw
  have hservable := hturn.servable h.servable
  have hclock := hturn.clockAhead_eq
  have hslices := hturn.slicesAhead_eq hquantum h.servable
  obtain ⟨hlisted, hcompleted⟩ := hturn.listed_eq
  have hnext : 0 ≤ (rrStep s).currentTime → Affordable (rrStep s) := fun htime =>
    ⟨hattended, by rwa [hquantum], htime, hclock.trans_le h.clock,
      by rw [hslices]; exact h.slices, hlisted.trans_le h.listed,
      by have := h.completed_eq; omega⟩
  generalize rrStep s = t at *
  cases hturn with
  | skipped _ hsame hrest hchecked =>
    have htime : t.currentTime = s.currentTime := by
      obtain ⟨queue, rfl⟩ := hsame
      rfl
    refine ⟨hchecked, hnext (htime ▸ h.time), htime.ge, ?_⟩
    obtain ⟨queue, rfl⟩ := hsame
    rw [rrLeft, rrLeft, hrest, hqueue, List.length_cons]
    exact Nat.lt_succ_self _
  | @served ahead behind p hready _ _ htime hhistory _ _ hrest hchecked =>
    have hslice := (h.servable p (by simp [hready])).slice.1
    have hstart := h.time
    refine ⟨hchecked (h.fits hready), hnext (by omega), by omega, ?_⟩
    rw [slicesAhead, slicesAhead, hhistory] at hslices
    rw [rrLeft, rrLeft, hrest, hqueue, List.length_cons]
    split_ifs
    · omega
    · rw [List.length_append, List.length_singleton]
      omega

theorem exact (h : Affordable s) : Exact rrWaiting rrStepChecked rrStep s :=
  exact_of_invariant (fun _ hs hw => ⟨(hs.step hw).1, (hs.step hw).2.1⟩) h

theorem returns (h : Affordable s) : ∃ fuel t, schedulerRunRr fuel s = some t := by
  have hstep : ∀ r n, Affordable r ∧ rrLeft r = n → rrWaiting r = true →
      ∃ n', (Affordable (rrStep r) ∧ rrLeft (rrStep r) = n') ∧ id n' < id n := by
    rintro r _ ⟨hr, rfl⟩ hw
    obtain ⟨-, hnext, -, hlt⟩ := hr.step hw
    exact ⟨_, ⟨hnext, rfl⟩, hlt⟩
  obtain ⟨t, -, ⟨fuel, hrun⟩, -⟩ := returns_of_variant id hstep ⟨h, rfl⟩
  exact ⟨fuel, t, hrun⟩

end Affordable

/-! Runs that do not -/

theorem Attended.ahead_le {s t : Scheduler .roundRobin} {fuel : Nat} (h : Attended s)
    (hrange : InRange s) (hservable : ∀ p ∈ readyRecords s.processes, Servable s.quantum p)
    (hrun : schedulerRunRrChecked fuel s = some t) :
    clockAhead s ≤ intMax ∧ (slicesAhead s : Int) ≤ intMax := by
  obtain ⟨hrun, hin⟩ := schedulerRunRrChecked_some hrun
  obtain ⟨hhead, hend⟩ := run_head hrun
  have hkeep : ∀ r, (Attended r ∧ (∀ p ∈ readyRecords r.processes, Servable r.quantum p) ∧
      clockAhead r = clockAhead s ∧ slicesAhead r = slicesAhead s) → rrWaiting r = true →
      Attended (rrStep r) ∧ (∀ p ∈ readyRecords (rrStep r).processes, Servable (rrStep r).quantum p) ∧
        clockAhead (rrStep r) = clockAhead s ∧ slicesAhead (rrStep r) = slicesAhead s := by
    rintro r ⟨hr, hserv, hclock, hslices⟩ hw
    obtain ⟨hnext, hquantum, pid, rest, -, hturn⟩ := hr.step hw
    exact ⟨hnext, by rw [hquantum]; exact hturn.servable hserv, hturn.clockAhead_eq.trans hclock,
      (hturn.slicesAhead_eq hquantum hserv).trans hslices⟩
  obtain ⟨hattended, -, hclock, hslices⟩ := hhead.invariant hkeep ⟨h, hservable, rfl, rfl⟩
  have hnone := hattended.ready_nil hend
  obtain ⟨htime, -, -, hhistory⟩ := hin hrange
  rw [← hclock, ← hslices, clockAhead, slicesAhead, hnone]
  simpa [turnsLeft] using ⟨htime, hhistory⟩

/-- The run returns, and no iteration turns the clock back. -/
def RrTerminates (s : Scheduler .roundRobin) : Prop :=
  (∃ fuel t, schedulerRunRrChecked fuel s = some t) ∧
    ∀ n r t, afterM rrWaiting rrStepChecked n s = some r → rrWaiting r = true →
      rrStepChecked r = some t → r.currentTime ≤ t.currentTime

theorem Affordable.terminates {s : Scheduler .roundRobin} (h : Affordable s) : RrTerminates s := by
  obtain ⟨fuel, t, hrun⟩ := h.returns
  refine ⟨⟨fuel, t, (h.exact.runM_eq fuel).trans hrun⟩, fun n r t hr hw ht => ?_⟩
  obtain rfl := Option.some.inj ((h.exact n).symm.trans hr)
  have hreached : Affordable (after rrWaiting rrStep n s) :=
    (after_head rrWaiting rrStep n s).invariant (fun _ hs hc => (hs.step hc).2.1) h
  obtain ⟨hchecked, -, htime, -⟩ := hreached.step hw
  obtain rfl := Option.some.inj (hchecked.symm.trans ht)
  exact htime

/-- A record that is not servable keeps its work, or its turn puts the clock back. -/
theorem RrTurn.unserved {s t : Scheduler .roundRobin} {pid : Int} {rest : List Int} {x : Process}
    (h : RrTurn s t pid rest) (hx : x ∈ readyRecords s.processes) (hno : ¬ Servable s.quantum x) :
    (∃ p ∈ readyRecords t.processes, p.remainingTime = x.remainingTime) ∨
      min x.remainingTime s.quantum < 0 ∧ t.currentTime < s.currentTime := by
  cases h with
  | skipped _ hsame =>
    obtain ⟨queue, rfl⟩ := hsame
    exact Or.inl ⟨x, hx, rfl⟩
  | @served ahead behind p hready _ hleft hclock =>
    rw [hready] at hx
    rw [hleft]
    rcases List.mem_append.mp hx with hx | hx
    · exact Or.inl ⟨x, List.mem_append_left _ hx, rfl⟩
    · rcases List.mem_cons.mp hx with rfl | hx
      · refine (not_servable_iff.mp hno).symm.imp ?_ (fun hback => ⟨hback, by omega⟩)
        intro hidle
        have hrem : (x.afterSlice s.quantum).remainingTime = x.remainingTime := by
          rw [Process.afterSlice_remaining]
          omega
        have hunfinished : ¬ (x.afterSlice s.quantum).isFinished = true := by
          rw [Process.afterSlice_finished_iff]
          omega
        exact ⟨x.afterSlice s.quantum, by simp [hunfinished], hrem⟩
      · refine Or.inl ⟨x, List.mem_append_right _ ?_, rfl⟩
        split_ifs
        · exact hx
        · exact List.mem_cons_of_mem _ hx

/-- With quantum 0 the loop never ends once a record has work. -/
theorem Attended.runs_forever {s : Scheduler .roundRobin} (h : Attended s) (hquantum : s.quantum = 0)
    (hwork : ∃ p ∈ readyRecords s.processes, 0 < p.remainingTime) (fuel : Nat) :
    schedulerRunRr fuel s = none := by
  cases hrun : schedulerRunRr fuel s with
  | none => rfl
  | some t =>
    have hkeep : ∀ r, (Attended r ∧ r.quantum = 0 ∧
        ∃ p ∈ readyRecords r.processes, 0 < p.remainingTime) → rrWaiting r = true →
        Attended (rrStep r) ∧ (rrStep r).quantum = 0 ∧
          ∃ p ∈ readyRecords (rrStep r).processes, 0 < p.remainingTime := by
      rintro r ⟨hr, hzero, x, hx, hpos⟩ hw
      obtain ⟨hnext, hsame, pid, rest, -, hturn⟩ := hr.step hw
      have hno : ¬ Servable r.quantum x := not_servable_iff.mpr (Or.inr ⟨hzero, hpos⟩)
      obtain ⟨p, hp, hrem⟩ := (hturn.unserved hx hno).resolve_right (by omega)
      exact ⟨hnext, hsame.trans hzero, p, hp, hrem ▸ hpos⟩
    obtain ⟨hhead, hend⟩ := run_head hrun
    obtain ⟨hattended, -, p, hp, -⟩ := hhead.invariant hkeep ⟨h, hquantum, hwork⟩
    rw [hattended.ready_nil hend] at hp
    cases hp

theorem RrTerminates.servable {s : Scheduler .roundRobin} (h : RrTerminates s) (hs : Attended s) :
    ∀ p ∈ readyRecords s.processes, Servable s.quantum p := by
  by_contra hall
  have hbad : ∃ p ∈ readyRecords s.processes, ¬ Servable s.quantum p := by simpa using hall
  obtain ⟨⟨fuel, t, hrun⟩, hforward⟩ := h
  obtain ⟨hafter, hend⟩ := afterM_of_runM hrun
  have hkeep : ∀ n r u, afterM rrWaiting rrStepChecked n s = some r → rrWaiting r = true →
      rrStepChecked r = some u →
      (Attended r ∧ ∃ p ∈ readyRecords r.processes, ¬ Servable r.quantum p) →
        Attended u ∧ ∃ p ∈ readyRecords u.processes, ¬ Servable u.quantum p := by
    rintro n r u hr hw hu ⟨hattended, x, hx, hno⟩
    have htime := hforward n r u hr hw hu
    obtain ⟨rfl, -⟩ := rrStepChecked_some hu
    obtain ⟨hnext, hquantum, pid, rest, -, hturn⟩ := hattended.step hw
    obtain ⟨p, hp, hrem⟩ := (hturn.unserved hx hno).resolve_right (by omega)
    exact ⟨hnext, p, hp, by rwa [Servable, hquantum, hrem]⟩
  obtain ⟨hattended, p, hp, -⟩ := afterM_invariant hkeep ⟨hs, hbad⟩ hafter
  rw [hattended.ready_nil hend] at hp
  cases hp

/-! Records added to a new scheduler -/

def rrAdmit (quantum : Int) (procs : List Process) : Scheduler .roundRobin :=
  procs.foldl schedulerAddProcessFull (schedulerCreateRr quantum)

theorem rrAdmit_spec (quantum : Int) (procs : List Process) :
    ∃ queue, rrAdmit quantum procs =
        { schedulerCreateRr quantum with processes := procs.take maxProcesses, queue := queue } ∧
      queue.Valid ∧ queue.toList = (procs.take maxProcesses).map Process.pid := by
  induction procs using List.reverseRecOn with
  | nil => exact ⟨_, rfl, CircularQueue.create_valid _, rfl⟩
  | append_singleton procs p ih =>
    obtain ⟨queue, hrest, hvalid, hqueue⟩ := ih
    have hadd : rrAdmit quantum (procs ++ [p]) =
        schedulerAddProcessFull (rrAdmit quantum procs) p := by
      rw [rrAdmit, List.foldl_append]
      rfl
    rw [hadd, schedulerAddProcessFull, hrest]
    by_cases hfull : procs.length ≥ maxProcesses
    · rw [if_pos (by rw [List.length_take]; omega), List.take_append_of_le_length hfull]
      exact ⟨queue, rfl, hvalid, hqueue⟩
    · have hroom : (procs ++ [p]).length ≤ maxProcesses := by
        rw [List.length_append, List.length_singleton]
        omega
      rw [if_neg (by rw [List.length_take]; omega), List.take_of_length_le hroom,
        List.take_of_length_le (by omega)]
      rw [List.take_of_length_le (by omega)] at hqueue
      obtain ⟨hvalid', hlist⟩ := hvalid.enqueue p.pid
      refine ⟨cqEnqueue queue p.pid, rfl, hvalid', ?_⟩
      rw [hlist, hqueue, List.map_append, List.map_singleton]

section Admitted

variable (quantum : Int) (procs : List Process)

theorem rrAdmit_attended : Attended (rrAdmit quantum procs) := by
  obtain ⟨queue, hspec, hvalid, hqueue⟩ := rrAdmit_spec quantum procs
  rw [hspec]
  refine ⟨hvalid, fun p hp => ?_⟩
  rw [hqueue]
  exact List.mem_map_of_mem (mem_readyRecords hp).1

theorem rrAdmit_ahead : let ready := readyRecords (procs.take maxProcesses)
    readyRecords (rrAdmit quantum procs).processes = ready ∧
      (rrAdmit quantum procs).quantum = quantum ∧
      clockAhead (rrAdmit quantum procs) = (ready.map Process.remainingTime).sum ∧
      slicesAhead (rrAdmit quantum procs) = turnsLeft quantum ready := by
  obtain ⟨queue, hspec, -⟩ := rrAdmit_spec quantum procs
  rw [hspec]
  exact ⟨rfl, rfl, Int.zero_add _, Nat.zero_add _⟩

theorem rrAdmit_unstarted : (rrAdmit quantum procs).currentTime = 0 ∧
    (rrAdmit quantum procs).completed = 0 ∧ (rrAdmit quantum procs).finishedList.size = 0 ∧
      (rrAdmit quantum procs).history.size = 0 := by
  obtain ⟨queue, hspec, -⟩ := rrAdmit_spec quantum procs
  rw [hspec]
  exact ⟨rfl, rfl, rfl, rfl⟩

theorem rrAdmit_inRange : InRange (rrAdmit quantum procs) := by
  obtain ⟨htime, hcompleted, hlist, hhistory⟩ := rrAdmit_unstarted quantum procs
  rw [InRange, htime, hcompleted, hlist, hhistory]
  decide

variable {quantum procs}

theorem rrAdmit_affordable {ready : List Process}
    (hready : ready = readyRecords (procs.take maxProcesses)) (hservable : ∀ p ∈ ready, Servable quantum p)
    (hclock : (ready.map Process.remainingTime).sum ≤ intMax)
    (hslices : (turnsLeft quantum ready : Int) ≤ intMax) : Affordable (rrAdmit quantum procs) := by
  subst hready
  obtain ⟨hrecords, hquantum, hclock', hslices'⟩ := rrAdmit_ahead quantum procs
  have hlength : (readyRecords (procs.take maxProcesses)).length ≤ maxProcesses :=
    (readyRecords_length_le _).trans (by rw [List.length_take]; exact min_le_left _ _)
  obtain ⟨htime, hcompleted, hlist, -⟩ := rrAdmit_unstarted quantum procs
  exact ⟨rrAdmit_attended quantum procs, by rwa [hrecords, hquantum], htime.ge, hclock' ▸ hclock,
    by rwa [hslices'], by rwa [hrecords, hlist, Nat.zero_add], by rw [hcompleted, hlist]; rfl⟩

end Admitted

theorem rrAdmit_exact_iff {quantum : Int} {procs ready : List Process}
    (hready : ready = readyRecords (procs.take maxProcesses))
    (hservable : ∀ p ∈ ready, Servable quantum p)
    (hreturns : ∃ fuel t, schedulerRunRr fuel (rrAdmit quantum procs) = some t) :
    Exact rrWaiting rrStepChecked rrStep (rrAdmit quantum procs) ↔
      (ready.map Process.remainingTime).sum ≤ intMax ∧ (turnsLeft quantum ready : Int) ≤ intMax := by
  constructor
  · intro hexact
    subst hready
    obtain ⟨fuel, t, hrun⟩ := hreturns
    obtain ⟨hrecords, hquantum, hclock, hslices⟩ := rrAdmit_ahead quantum procs
    have hle := (rrAdmit_attended quantum procs).ahead_le (rrAdmit_inRange quantum procs)
      (by rwa [hrecords, hquantum]) ((hexact.runM_eq fuel).trans hrun)
    rwa [hclock, hslices] at hle
  · rintro ⟨hclock, hslices⟩
    exact (rrAdmit_affordable hready hservable hclock hslices).exact

/-- Of the records with one pid only the first counts. The loop ends, with a clock that never
goes back, when each of them is served by the quantum and their work fits in an `int`. -/
theorem rrTerminates_iff (quantum : Int) (procs : List Process) :
    RrTerminates (rrAdmit quantum procs) ↔
      let ready := readyRecords (procs.take maxProcesses)
      (∀ p ∈ ready, Servable quantum p) ∧ (ready.map Process.remainingTime).sum ≤ intMax ∧
        (turnsLeft quantum ready : Int) ≤ intMax := by
  obtain ⟨hrecords, hquantum, hclock, hslices⟩ := rrAdmit_ahead quantum procs
  constructor
  · intro hterm
    have hservable := hterm.servable (rrAdmit_attended quantum procs)
    obtain ⟨⟨fuel, t, hrun⟩, -⟩ := hterm
    have hle := (rrAdmit_attended quantum procs).ahead_le (rrAdmit_inRange quantum procs)
      hservable hrun
    rw [hclock, hslices] at hle
    rw [hrecords, hquantum] at hservable
    exact ⟨hservable, hle⟩
  · rintro ⟨hservable, hle⟩
    exact (rrAdmit_affordable rfl hservable hle.1 hle.2).terminates

/-- With quantum 0 one unit of work keeps the loop going for ever. -/
theorem not_rrTerminates_zero :
    (∀ fuel, schedulerRunRr fuel (schedulerAddProcess (schedulerCreateRr 0) 1 1) = none) ∧
      ¬ RrTerminates (rrAdmit 0 [processCreate 1 1 0 0]) := by
  have hattended := rrAdmit_attended 0 [processCreate 1 1 0 0]
  have hready : processCreate 1 1 0 0 ∈
      readyRecords (rrAdmit 0 [processCreate 1 1 0 0]).processes := List.mem_cons_self
  refine ⟨hattended.runs_forever rfl ⟨_, hready, by decide⟩, fun hterm => ?_⟩
  exact absurd (hterm.servable hattended _ hready) (by decide)

end MiniOS
