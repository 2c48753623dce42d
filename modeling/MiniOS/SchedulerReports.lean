import Mathlib.Data.List.Dedup
import MiniOS.Reports
import MiniOS.SerialAgreement
import MiniOS.SchedulerAgreement

/-! What the schedulers print. The report of a run shows which processes were added and, for
FIFO and Round Robin, in which order. -/

namespace MiniOS

open TextFormat WhileLoop

variable {type : SchedulerType}

/-- `%-6s` -/
def printWord (width : Nat) (word : String) : List Char := word.toList.rightpad width ' '

/-- The rows printed between two states. -/
def rowsSince (s t : Scheduler type) : List Slice := t.slices.drop s.slices.length

def printRow (a b c d : IntField) (row : Int × Int × Int × Int) : List Char :=
  a.print row.1 ++ [' '] ++ b.print row.2.1 ++ [' '] ++ c.print row.2.2.1 ++ [' '] ++
    d.print row.2.2.2 ++ ['\n']

def fifoColumns : List Char :=
  printWord 6 "PID" ++ [' '] ++ printWord 8 "Inicio" ++ [' '] ++ printWord 8 "Fin" ++ [' '] ++
    printWord 12 "Tiempo CPU" ++ ['\n']

def fifoRow (row : Slice) : List Char :=
  printRow (.left 6) (.left 8) (.left 8) (.left 12) (row.pid, row.start, row.finish, row.executed)

/-- What `run_fifo` prints on the way from `s` to `t`. -/
def fifoReport (s t : Scheduler .fifo) : List Char :=
  "\n=== Simulacion FIFO ===\n".toList ++ fifoColumns ++ (rowsSince s t).flatMap fifoRow ++
    "\nTiempo total: ".toList ++ IntField.print .plain t.currentTime ++ " unidades\n".toList

def sjfColumns : List Char :=
  printWord 6 "PID" ++ [' '] ++ printWord 10 "Burst" ++ [' '] ++ printWord 8 "Inicio" ++ [' '] ++
    printWord 8 "Fin" ++ ['\n']

def sjfRow (row : Slice) : List Char :=
  printRow (.left 6) (.left 10) (.left 8) (.left 8) (row.pid, row.executed, row.start, row.finish)

/-- What `scheduler_run_sjf` prints. -/
def sjfReport (s t : Scheduler .sjf) : List Char :=
  "\n=== Simulacion SJF (Shortest Job First) ===\n".toList ++ sjfColumns ++
    (rowsSince s t).flatMap sjfRow ++
    "\nTiempo total: ".toList ++ IntField.print .plain t.currentTime ++ " unidades\n".toList

def rrColumns : List Char :=
  printWord 6 "PID" ++ [' '] ++ printWord 8 "t_inicio" ++ [' '] ++ printWord 8 "t_fin" ++ [' '] ++
    printWord 10 "Ejecutado" ++ [' '] ++ printWord 10 "Restante" ++ ['\n']

def rrRow (row : Slice) : List Char :=
  IntField.print (.left 6) row.pid ++ [' '] ++ IntField.print (.left 8) row.start ++ [' '] ++
    IntField.print (.left 8) row.finish ++ [' '] ++ IntField.print (.left 10) row.executed ++ [' '] ++
    if row.remaining = 0 then printWord 10 "FINISHED" ++ ['\n']
    else IntField.print (.left 10) row.remaining ++ ['\n']

/-- What `scheduler_run_rr` prints. -/
def rrReport (s t : Scheduler .roundRobin) : List Char :=
  "\n=== Simulación Round Robin (quantum=".toList ++ IntField.print .plain s.quantum ++
    ") ===\n".toList ++ rrColumns ++ (rowsSince s t).flatMap rrRow ++
    "\nTiempo total: ".toList ++ IntField.print .plain t.currentTime ++
    " unidades | Procesos completados: ".toList ++ IntField.print .plain t.completed ++ "\n".toList

def schedulerPrintResults (s : Scheduler type) : List Char :=
  "\n=== Procesos terminados (ordenados por PID) ===\n".toList ++ llPrint s.finishedList ++
    "\n=== Historial de ejecucion (pila) ===\n".toList ++ stackPrint s.history

/-! The blocks of `demo_schedulers`, for any processes -/

def demoFifo (fuel : Nat) (adds : List (Int × Int)) : Option (List Char) := do
  let s := addAll schedulerCreateFifo adds
  let t ← schedulerRun fuel s
  some (fifoReport s t ++ schedulerPrintResults t)

def demoRr (fuel : Nat) (quantum : Int) (adds : List (Int × Int)) : Option (List Char) := do
  let s := addAll (schedulerCreateRr quantum) adds
  let t ← schedulerRunRr fuel s
  some (rrReport s t ++ schedulerPrintResults t)

def demoSjf (adds : List (Int × Int)) : Option (List Char) := do
  let s := addAll schedulerCreateSjf adds
  let t ← schedulerRunSjf s
  some (sjfReport s t ++ schedulerPrintResults t)

/-! Formats -/

def rowFormat (a b c d : IntField) : TextFormat (Int × Int × Int × Int) :=
  seq (number a ' ' blank_stops) (seq (number b ' ' blank_stops)
    (seq (number c ' ' blank_stops) (number d '\n' newline_stops)))

theorem printRow_eq (a b c d : IntField) (row : Int × Int × Int × Int) :
    printRow a b c d row = (rowFormat a b c d).write row := by
  unfold printRow
  simp [rowFormat]

/-- Rows, up to the line with the total time. -/
def tableFormat {α β : Type} (title : List Char) (row : TextFormat α) (h : row.Begins isNumeral)
    (last : TextFormat β) : TextFormat (List α × β) :=
  after title (many row (after "\nTiempo total: ".toList last)
    (h.apart (begins_after rfl rfl last)))

def timeFormat : TextFormat Int := (number .plain ' ' blank_stops).before "unidades\n".toList

theorem fifoReport_append_inj {s t s' t' : Scheduler .fifo} {rest rest' : List Char}
    (h : fifoReport s t ++ rest = fifoReport s' t' ++ rest') : rest = rest' := by
  let format := tableFormat ("\n=== Simulacion FIFO ===\n".toList ++ fifoColumns)
    (rowFormat (.left 6) (.left 8) (.left 8) (.left 12)) ((begins_number _ _ _).seq _) timeFormat
  have hwrite : ∀ s t : Scheduler .fifo, fifoReport s t = format.write
      ((rowsSince s t).map (fun row => (row.pid, row.start, row.finish, row.executed)),
        t.currentTime) := by
    intro s t
    unfold fifoReport fifoRow
    simp [format, tableFormat, timeFormat, printRow_eq, List.flatMap_map]
  rw [hwrite, hwrite] at h
  exact (format.append_inj h).2

theorem sjfReport_append_inj {s t s' t' : Scheduler .sjf} {rest rest' : List Char}
    (h : sjfReport s t ++ rest = sjfReport s' t' ++ rest') : rest = rest' := by
  let format := tableFormat ("\n=== Simulacion SJF (Shortest Job First) ===\n".toList ++ sjfColumns)
    (rowFormat (.left 6) (.left 10) (.left 8) (.left 8)) ((begins_number _ _ _).seq _) timeFormat
  have hwrite : ∀ s t : Scheduler .sjf, sjfReport s t = format.write
      ((rowsSince s t).map (fun row => (row.pid, row.executed, row.start, row.finish)),
        t.currentTime) := by
    intro s t
    unfold sjfReport sjfRow
    simp [format, tableFormat, timeFormat, printRow_eq, List.flatMap_map]
  rw [hwrite, hwrite] at h
  exact (format.append_inj h).2

/-- The last column is a number or `FINISHED`, which stands for 0. -/
def remainingFormat : TextFormat Int :=
  orWord 0 (printWord 10 "FINISHED" ++ ['\n']) (number (.left 10) '\n' newline_stops)
    ((begins_number (.left 10) '\n' newline_stops).apart (begins_literal rfl rfl)).symm

def rrRowFormat : TextFormat (Int × Int × Int × Int × Int) :=
  seq (number (.left 6) ' ' blank_stops) (seq (number (.left 8) ' ' blank_stops)
    (seq (number (.left 8) ' ' blank_stops) (seq (number (.left 10) ' ' blank_stops)
      remainingFormat)))

theorem rrRow_eq (row : Slice) : rrRow row =
    rrRowFormat.write (row.pid, row.start, row.finish, row.executed, row.remaining) := by
  unfold rrRow
  simp [rrRowFormat, remainingFormat]

theorem rrReport_append_inj {s t s' t' : Scheduler .roundRobin} {rest rest' : List Char}
    (h : rrReport s t ++ rest = rrReport s' t' ++ rest') :
    s.quantum = s'.quantum ∧ rest = rest' := by
  let format := after "\n=== Simulación Round Robin (quantum=".toList
    (seq (number .plain ')' paren_stops)
      (tableFormat (" ===\n".toList ++ rrColumns) rrRowFormat ((begins_number _ _ _).seq _)
        (seq ((number .plain ' ' blank_stops).before "unidades | Procesos completados: ".toList)
          (number .plain '\n' newline_stops))))
  have hwrite : ∀ s t : Scheduler .roundRobin, rrReport s t = format.write (s.quantum,
      ((rowsSince s t).map (fun row => (row.pid, row.start, row.finish, row.executed, row.remaining)),
        (t.currentTime, t.completed))) := by
    intro s t
    unfold rrReport
    rw [funext rrRow_eq]
    simp [format, tableFormat, List.flatMap_map]
  rw [hwrite, hwrite] at h
  obtain ⟨hvalue, hrest⟩ := format.append_inj h
  exact ⟨congrArg Prod.fst hvalue, hrest⟩

theorem schedulerPrintResults_inj {s t : Scheduler type}
    (h : schedulerPrintResults s = schedulerPrintResults t) :
    s.finishedList = t.finishedList ∧ s.history.top = t.history.top := by
  unfold schedulerPrintResults stackPrint at h
  simp only [List.append_assoc] at h
  obtain ⟨hlist, hstack⟩ := llPrint_append_inj (List.append_cancel_left h)
  have hvalues := List.append_cancel_left (List.append_cancel_left hstack)
  exact ⟨hlist, (printValues_append_inj (congrArg (· ++ []) hvalues)).1⟩

/-! The order of the first dispatches -/

/-- The processes not dispatched yet are at the front of the queue, in the order they were
added in. -/
def FirstRound (adm : List (Int × Int)) (s : Scheduler .roundRobin) (waiting : List Process) :
    Prop :=
  ∃ fresh again, waiting = fresh ++ again ∧ (∀ p ∈ again, p.pid ∈ s.history.top) ∧
    s.history.top.dedup.reverse ++ fresh.map Process.pid = adm.map Prod.fst

theorem FirstRound.step {adm : List (Int × Int)} {quantum : Int} {s : Scheduler .roundRobin}
    {p : Process} {waiting : List Process} (hfirst : FirstRound adm s (p :: waiting))
    (h : RrInvariant adm quantum s (p :: waiting)) : FirstRound adm (rrStep s)
      (if (p.afterSlice quantum).isFinished then waiting else waiting ++ [p.afterSlice quantum]) := by
  obtain ⟨fresh, again, hsplit, hagain, horder⟩ := hfirst
  have htop := h.step_record.2.1
  let requeued := if (p.afterSlice quantum).isFinished then [] else [p.afterSlice quantum]
  have hwaiting : (if (p.afterSlice quantum).isFinished then waiting
      else waiting ++ [p.afterSlice quantum]) = waiting ++ requeued := by
    by_cases hf : (p.afterSlice quantum).isFinished = true <;> simp [requeued, hf]
  have hrequeued : ∀ x ∈ requeued, x.pid = p.pid := by
    intro x hx
    by_cases hf : (p.afterSlice quantum).isFinished = true
    · simp [requeued, hf] at hx
    · obtain rfl : x = p.afterSlice quantum := by simpa [requeued, hf] using hx
      exact Process.afterSlice_pid quantum p
  -- whoever was dispatched before the step or by it
  have hseen : ∀ xs : List Process, (∀ x ∈ xs, x.pid ∈ s.history.top) →
      ∀ x ∈ xs ++ requeued, x.pid ∈ (rrStep s).history.top := by
    intro xs hxs x hx
    rw [htop]
    rcases List.mem_append.mp hx with hx | hx
    · exact List.mem_cons_of_mem _ (hxs x hx)
    · rw [hrequeued x hx]
      exact List.mem_cons_self
  rw [hwaiting]
  cases fresh with
  | nil =>
    obtain rfl : p :: waiting = again := hsplit
    refine ⟨[], waiting ++ requeued, rfl,
      hseen waiting (fun x hx => hagain x (List.mem_cons_of_mem _ hx)), ?_⟩
    rw [htop, List.dedup_cons_of_mem (hagain p List.mem_cons_self)]
    exact horder
  | cons f fresh =>
    obtain ⟨rfl, rfl⟩ : p = f ∧ waiting = fresh ++ again := List.cons.inj hsplit
    refine ⟨fresh, again ++ requeued, List.append_assoc _ _ _, hseen again hagain, ?_⟩
    have hnew : p.pid ∉ s.history.top := by
      have hdistinct : (adm.map Prod.fst).Nodup := h.pids_eq ▸ h.distinct
      rw [← horder] at hdistinct
      intro hmem
      exact List.disjoint_of_nodup_append hdistinct
        (List.mem_reverse.mpr (List.mem_dedup.mpr hmem)) List.mem_cons_self
    rw [htop, List.dedup_cons_of_notMem hnew, List.reverse_cons, List.append_assoc]
    exact horder

/-- Read from the bottom, the history of a run names the processes for the first time in the
order they were added in. -/
theorem RrInvariant.history_order {adm : List (Int × Int)} {quantum : Int}
    {s t : Scheduler .roundRobin} {waiting : List Process} (h : RrInvariant adm quantum s waiting)
    (hq : 0 ≤ quantum) (hfirst : FirstRound adm s waiting) {fuel : Nat}
    (hrun : schedulerRunRr fuel s = some t) : t.history.top.dedup.reverse = adm.map Prod.fst := by
  have hstep : ∀ r, (∃ w, RrInvariant adm quantum r w ∧ FirstRound adm r w) → rrWaiting r = true →
      ∃ w, RrInvariant adm quantum (rrStep r) w ∧ FirstRound adm (rrStep r) w := by
    rintro r ⟨w, hr, hround⟩ hw
    cases w with
    | nil => exact absurd rfl (hr.waits_iff.mp hw)
    | cons p w => exact ⟨_, hr.step hq, hround.step hr⟩
  obtain ⟨hhead, hf⟩ := run_head hrun
  obtain ⟨w, hw, fresh, again, hsplit, -, horder⟩ := hhead.invariant hstep ⟨waiting, h, hfirst⟩
  have hempty : w = [] := by
    by_contra hne
    rw [hw.waits_iff.mpr hne] at hf
    exact absurd hf.symm Bool.false_ne_true
  obtain ⟨rfl, -⟩ := List.append_eq_nil_iff.mp (hsplit.symm.trans hempty)
  rwa [List.map_nil, List.append_nil] at horder

/-! What a report decides -/

theorem eq_of_perm_of_map_eq {α β : Type} {f : α → β} {l l' : List α} (hperm : l.Perm l')
    (hmap : l.map f = l'.map f) (hnodup : (l.map f).Nodup) : l = l' := by
  apply List.ext_getElem hperm.length_eq
  intro i hi hi'
  apply List.inj_on_of_nodup_map hnodup (List.getElem_mem hi)
    (hperm.mem_iff.mpr (List.getElem_mem hi'))
  have hget := congrArg (fun m => m[i]?) hmap
  simpa [hi, hi'] using hget

/-- The two lists `scheduler_print_results` prints, after a run of all of `l`. -/
structure Recorded (l : List (Int × Int)) (s : Scheduler type) : Prop where
  finished_perm : s.finishedList.head.Perm (l.map (fun a => ⟨a.1, a.2⟩))
  order : s.history.top.dedup.reverse = l.map Prod.fst

theorem Recorded.unique {l l' : List (Int × Int)} {s t : Scheduler type} (h : Recorded l s)
    (h' : Recorded l' t) (hdistinct : (l.map Prod.fst).Nodup)
    (hprinted : schedulerPrintResults s = schedulerPrintResults t) : l = l' := by
  obtain ⟨hlist, htop⟩ := schedulerPrintResults_inj hprinted
  have hnodes : (l.map (fun a => (⟨a.1, a.2⟩ : LLNode))).Perm (l'.map (fun a => ⟨a.1, a.2⟩)) := by
    have hperm := h'.finished_perm
    rw [← hlist] at hperm
    exact h.finished_perm.symm.trans hperm
  have hinj : Function.Injective (fun a : Int × Int => (⟨a.1, a.2⟩ : LLNode)) := by
    rintro ⟨pid, burst⟩ ⟨pid', burst'⟩ he
    obtain ⟨rfl, rfl⟩ := LLNode.mk.inj he
    rfl
  have hpids : l.map Prod.fst = l'.map Prod.fst := by rw [← h.order, htop, h'.order]
  exact eq_of_perm_of_map_eq ((List.map_perm_map_iff hinj).mp hnodes) hpids hdistinct

theorem Serial.recorded {s₀ s : Scheduler type} {l : List (Int × Int)}
    (h : Serial s₀ s (l.map added) []) (hlist : s₀.finishedList.head = [])
    (hhistory : s₀.history.top = []) (hdistinct : (l.map Prod.fst).Nodup) : Recorded l s where
  finished_perm := by
    have hperm := h.finished_perm
    rwa [hlist, List.append_nil, List.map_map] at hperm
  order := by
    have htop := h.history_eq
    have hpids : (l.map added).map Process.pid = l.map Prod.fst := by
      rw [List.map_map]
      rfl
    rw [hhistory, List.append_nil, hpids] at htop
    rw [htop, (List.nodup_reverse.mpr hdistinct).dedup, List.reverse_reverse]

/-- What can be added without loss: every process fits, and no PID comes twice. -/
structure Workload (adds : List (Int × Int)) : Prop where
  length_le : adds.length ≤ maxProcesses
  distinct : (adds.map Prod.fst).Nodup
  bursts : ∀ a ∈ adds, 0 ≤ a.2

variable {adds adds' : List (Int × Int)}

theorem demoFifo_iff (h : Workload adds) (h' : Workload adds') :
    ∃ fuel out out', demoFifo fuel adds = some out ∧ demoFifo fuel adds' = some out' ∧
      (out = out' ↔ adds = adds') := by
  obtain ⟨fuel, t, hrun, ht⟩ := schedulerRun_serial h.length_le h.distinct
  obtain ⟨fuel', t', hrun', ht'⟩ := schedulerRun_serial h'.length_le h'.distinct
  have hr := run_of_le hrun (Nat.le_max_left fuel fuel')
  have hr' := run_of_le hrun' (Nat.le_max_right fuel fuel')
  refine ⟨max fuel fuel', _, _, Option.bind_eq_some_iff.mpr ⟨t, hr, rfl⟩,
    Option.bind_eq_some_iff.mpr ⟨t', hr', rfl⟩, ?_, ?_⟩
  · intro hout
    exact (ht.recorded rfl rfl h.distinct).unique (ht'.recorded rfl rfl h'.distinct) h.distinct
      (fifoReport_append_inj hout)
  · rintro rfl
    rw [Option.some.inj (hr.symm.trans hr')]

theorem demoRr_iff (h : Workload adds) (h' : Workload adds') {quantum quantum' : Int}
    (hq : 1 ≤ quantum) (hq' : 1 ≤ quantum') :
    ∃ fuel out out', demoRr fuel quantum adds = some out ∧ demoRr fuel quantum' adds' = some out' ∧
      (out = out' ↔ quantum = quantum' ∧ adds = adds') := by
  have hrecorded : ∀ {q : Int} {l : List (Int × Int)}, Workload l → 1 ≤ q →
      (addAll (schedulerCreateRr q) l).quantum = q ∧ ∃ fuel t,
        schedulerRunRr fuel (addAll (schedulerCreateRr q) l) = some t ∧ Recorded l t := by
    intro q l hl hpos
    have hinv := addAll_rrInvariant q hl.length_le hl.distinct hl.bursts
    obtain ⟨t, fuel, hrun⟩ := hinv.returns hpos
    have hfirst : FirstRound l (addAll (schedulerCreateRr q) l) (l.map added) := by
      rw [addAll_eq (by simpa [schedulerCreateRr] using hl.length_le)]
      exact ⟨l.map added, [], (List.append_nil _).symm, fun _ hp => absurd hp List.not_mem_nil,
        List.map_map⟩
    exact ⟨hinv.quantum_eq, fuel, t, hrun, (hinv.returned hpos ⟨fuel, hrun⟩).workDone.finished_perm,
      hinv.history_order (by omega) hfirst hrun⟩
  obtain ⟨hquantum, fuel, t, hrun, ht⟩ := hrecorded h hq
  obtain ⟨hquantum', fuel', t', hrun', ht'⟩ := hrecorded h' hq'
  have hr := run_of_le hrun (Nat.le_max_left fuel fuel')
  have hr' := run_of_le hrun' (Nat.le_max_right fuel fuel')
  refine ⟨max fuel fuel', _, _, Option.bind_eq_some_iff.mpr ⟨t, hr, rfl⟩,
    Option.bind_eq_some_iff.mpr ⟨t', hr', rfl⟩, ?_, ?_⟩
  · intro hout
    obtain ⟨hsame, hresults⟩ := rrReport_append_inj hout
    rw [hquantum, hquantum'] at hsame
    exact ⟨hsame, ht.unique ht' h.distinct hresults⟩
  · rintro ⟨rfl, rfl⟩
    rw [Option.some.inj (hr.symm.trans hr')]

theorem demoSjf_iff (h : Workload adds) (h' : Workload adds') :
    ∃ out out', demoSjf adds = some out ∧ demoSjf adds' = some out' ∧
      (out = out' ↔ byBurst adds = byBurst adds') := by
  obtain ⟨t, hrun, ht⟩ := schedulerRunSjf_serial h.length_le
  obtain ⟨t', hrun', ht'⟩ := schedulerRunSjf_serial h'.length_le
  rw [← map_byBurst] at ht ht'
  have hdistinct : ∀ {l : List (Int × Int)}, Workload l → ((byBurst l).map Prod.fst).Nodup :=
    fun hl => ((List.mergeSort_perm _ _).map Prod.fst).nodup_iff.mpr hl.distinct
  refine ⟨_, _, Option.bind_eq_some_iff.mpr ⟨t, hrun, rfl⟩,
    Option.bind_eq_some_iff.mpr ⟨t', hrun', rfl⟩, ?_, ?_⟩
  · intro hout
    exact (ht.recorded rfl rfl (hdistinct h)).unique (ht'.recorded rfl rfl (hdistinct h'))
      (hdistinct h) (sjfReport_append_inj hout)
  · intro hsame
    have htidy : ∀ {l : List (Int × Int)} {s : Scheduler .sjf},
        schedulerRunSjf (addAll schedulerCreateSjf l) = some s → Tidy s := fun hs =>
      Tidy.schedulerRunSjf (Tidy.addAll ⟨LinkedList.create_ordered, rfl⟩ _) hs
    have hpids : (((byBurst adds).map added).map Process.pid).Nodup := by
      rw [List.map_map]
      exact hdistinct h
    rw [← hsame] at ht'
    have hrecord := (htidy hrun).sameRecord (htidy hrun') ht ht' ⟨rfl, rfl, rfl, rfl, rfl, rfl⟩ rfl
      hpids
    have hstart : ∀ {l : List (Int × Int)}, Workload l →
        (addAll schedulerCreateSjf l).slices = [] := fun hl => by
      rw [addAll_eq (by simpa [schedulerCreateSjf] using hl.length_le)]
      rfl
    have hrows : rowsSince (addAll schedulerCreateSjf adds) t =
        rowsSince (addAll schedulerCreateSjf adds') t' := by
      rw [rowsSince, rowsSince, hstart h, hstart h', hrecord.slices_eq]
    unfold sjfReport schedulerPrintResults
    rw [hrows, hrecord.time_eq, hrecord.finished_eq, hrecord.history_eq]

/-- The text printed by a run of FIFO or Round Robin decides which processes were added, with
their bursts and in their order, and for Round Robin the quantum. SJF shows no more of the
order than what its sort keeps. -/
theorem schedulers_report_iff (h : Workload adds) (h' : Workload adds') {quantum quantum' : Int}
    (hq : 1 ≤ quantum) (hq' : 1 ≤ quantum') :
    (∃ fuel out out', demoFifo fuel adds = some out ∧ demoFifo fuel adds' = some out' ∧
      (out = out' ↔ adds = adds')) ∧
    (∃ fuel out out', demoRr fuel quantum adds = some out ∧
      demoRr fuel quantum' adds' = some out' ∧ (out = out' ↔ quantum = quantum' ∧ adds = adds')) ∧
    (∃ out out', demoSjf adds = some out ∧ demoSjf adds' = some out' ∧
      (out = out' ↔ byBurst adds = byBurst adds')) :=
  ⟨demoFifo_iff h h', demoRr_iff h h' hq hq', demoSjf_iff h h'⟩

theorem schedulers_report_iff_example :
    let adds : List (Int × Int) := [(1, 5), (2, 3), (3, 4)]
    let adds' : List (Int × Int) := [(2, 3), (1, 5), (3, 4)]
    (∃ fuel out out', demoFifo fuel adds = some out ∧ demoFifo fuel adds' = some out' ∧
      (out = out' ↔ adds = adds')) ∧
    (∃ fuel out out', demoRr fuel 2 adds = some out ∧
      demoRr fuel 2 adds' = some out' ∧ (out = out' ↔ (2 : Int) = 2 ∧ adds = adds')) ∧
    (∃ out out', demoSjf adds = some out ∧ demoSjf adds' = some out' ∧
      (out = out' ↔ byBurst adds = byBurst adds')) :=
  schedulers_report_iff ⟨by decide, by decide, by decide⟩ ⟨by decide, by decide, by decide⟩
    (by decide) (by decide)

end MiniOS
