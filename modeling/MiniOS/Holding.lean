import MiniOS.Backtracking
import MiniOS.Compaction
import MiniOS.FreeUndo

/-! Processes that ask for their memory while they hold none and give it back:
never more of them hold a block at a time than the knapsack counts, and on a
fresh memory first fit serves a best choice one after the other. -/

namespace MiniOS

open SmallestFirst

def Holds (mm : MemoryManager) (pid : Int) : Prop := ∃ b ∈ mm.head, b.free = false ∧ b.pid = pid

instance (mm : MemoryManager) (pid : Int) : Decidable (Holds mm pid) :=
  inferInstanceAs (Decidable (∃ b ∈ mm.head, _))

theorem holds_iff {mm : MemoryManager} {pid : Int} :
    Holds mm pid ↔ ∃ b ∈ occupied mm.head, b.pid = pid := by
  simp only [Holds, mem_occupied, and_assoc]

def GreedyFit.request (fit : GreedyFit) (p : Process) : GreedyRequest :=
  ⟨fit, p.pid, p.memoryRequired⟩

/-- The states of the memory that the processes can bring about. -/
inductive HoldingRun (procs : List Process) (W : Int) : MemoryManager → Prop
  | create : HoldingRun procs W (mmCreate W)
  | request {mm : MemoryManager} {p : Process} (fit : GreedyFit) (h : HoldingRun procs W mm)
      (hp : p ∈ procs) (hno : ¬ Holds mm p.pid) :
      HoldingRun procs W ((fit.request p).call.exec mm)
  | free {mm : MemoryManager} {p : Process} (h : HoldingRun procs W mm) (hp : p ∈ procs) :
      HoldingRun procs W (mmFree mm p.pid)

def holdingCount (procs : List Process) (mm : MemoryManager) : Nat :=
  procs.countP (fun p => Holds mm p.pid)

section

variable {procs : List Process} {W : Int} {mm : MemoryManager}

theorem HoldingRun.wellFormed (h : HoldingRun procs W mm) (hW : 1 ≤ W)
    (hmem : ∀ p ∈ procs, 1 ≤ p.memoryRequired) : WellFormed mm ∧ mm.totalMemory = W := by
  induction h with
  | create => exact ⟨mmCreate_wellFormed hW, rfl⟩
  | request fit h hp hno ih => exact ⟨ih.1.exec (hmem _ hp), (MmCall.exec_totalMemory _ _).trans ih.2⟩
  | free h hp ih => exact ⟨ih.1.free _, ih.2⟩

/-- Every occupied block is the memory of a process. -/
theorem HoldingRun.owned (h : HoldingRun procs W mm) :
    ∀ b ∈ occupied mm.head, ∃ p ∈ procs, p.pid = b.pid ∧ p.memoryRequired = b.size := by
  induction h with
  | create => simp [mmCreate, occupied]
  | @request mm p fit h hp hno ih =>
    rcases occupied_allocate (fit.allocator p.pid) mm p.memoryRequired with he | ⟨pre, post, hocc, hocc'⟩
    · simpa [GreedyFit.request, GreedyRequest.call, MmCall.exec, he] using ih
    · simp only [GreedyFit.request, GreedyRequest.call, MmCall.exec, hocc']
      rw [hocc] at ih
      intro b hb
      rcases List.mem_append.mp hb with hb | hb
      · exact ih b (List.mem_append_left _ hb)
      · rcases List.mem_cons.mp hb with rfl | hb
        · exact ⟨p, hp, by simp, rfl⟩
        · exact ih b (List.mem_append_right _ hb)
  | free h hp ih =>
    intro b hb
    rw [occupied_mmFree] at hb
    exact ih b (List.mem_filter.mp hb).1

variable (hpids : (procs.map Process.pid).Nodup)

include hpids

/-- The memory of the holders is found among the occupied blocks. -/
theorem HoldingRun.holders_subperm (h : HoldingRun procs W mm) :
    ((procs.filter (fun p => Holds mm p.pid)).map Process.memoryRequired).Subperm
      ((occupied mm.head).map MemoryBlock.size) := by
  have hnodup : (procs.filter (fun p => Holds mm p.pid)).Nodup :=
    (List.Nodup.of_map _ hpids).sublist List.filter_sublist
  have hblock : ∀ p ∈ procs.filter (fun p => Holds mm p.pid),
      (p.pid, p.memoryRequired) ∈ (occupied mm.head).map (fun b => (b.pid, b.size)) := by
    intro p hp
    obtain ⟨hmem, hholds⟩ := List.mem_filter.mp hp
    obtain ⟨b, hb, hpid⟩ := holds_iff.mp (of_decide_eq_true hholds)
    obtain ⟨q, hq, hqpid, hqsize⟩ := h.owned b hb
    obtain rfl : q = p := List.inj_on_of_nodup_map hpids hq hmem (hqpid.trans hpid)
    exact List.mem_map.mpr ⟨b, hb, by rw [hqpid, hqsize]⟩
  have hpairs : ((procs.filter (fun p => Holds mm p.pid)).map
      (fun p => (p.pid, p.memoryRequired))).Nodup := by
    apply List.Nodup.of_map Prod.fst
    rw [List.map_map]
    exact hpids.sublist (List.filter_sublist.map _)
  obtain ⟨t, hperm, hsub⟩ := List.subperm_of_subset hpairs (fun x hx => by
    obtain ⟨p, hp, rfl⟩ := List.mem_map.mp hx
    exact hblock p hp)
  have hp := hperm.map Prod.snd
  have hs := hsub.map Prod.snd
  rw [List.map_map] at hp hs
  exact ⟨_, hp, hs⟩

variable (hW : 1 ≤ W) (hmem : ∀ p ∈ procs, 1 ≤ p.memoryRequired)

include hW hmem

theorem HoldingRun.count_le (h : HoldingRun procs W mm) :
    holdingCount procs mm ≤ (smallestFirst (procs.map Process.memoryRequired) W).length := by
  obtain ⟨hwf, htotal⟩ := h.wellFormed hW hmem
  obtain ⟨t, hperm, hsub⟩ := h.holders_subperm hpids
  have hsizes : ∀ m ∈ procs.map Process.memoryRequired, 0 ≤ m := by
    intro m hm
    obtain ⟨p, hp, rfl⟩ := List.mem_map.mp hm
    exact (zero_le_one' Int).trans (hmem p hp)
  have hnonneg : ∀ m ∈ (occupied mm.head).map MemoryBlock.size, 0 ≤ m := by
    intro m hm
    obtain ⟨b, hb, rfl⟩ := List.mem_map.mp hm
    exact hwf.positive.nonneg b (mem_occupied.mp hb).1
  have hsum : ((procs.filter (fun p => Holds mm p.pid)).map Process.memoryRequired).sum ≤ W := by
    rw [← hperm.sum_eq]
    exact (hsub.sum_le_sum hnonneg).trans (hwf.occupied_le.trans htotal.le)
  have hle := length_le_smallestFirst hsizes (List.filter_sublist.map _).subperm hsum
  rwa [List.length_map, ← List.countP_eq_length_filter] at hle

omit hW in
/-- First fit serves processes that fit together one after the other. -/
theorem HoldingRun.serve {occ : List MemoryBlock} {r : Int} (h : HoldingRun procs W mm)
    (hfill : Filled W mm occ r) {ps : List Process} (hps : ps.Sublist procs)
    (hnew : ∀ p ∈ ps, p.pid ∉ occ.map MemoryBlock.pid)
    (hsum : (ps.map Process.memoryRequired).sum ≤ r) :
    ∃ mm' new r', HoldingRun procs W mm' ∧ Filled W mm' (occ ++ new) r' ∧
      new.map MemoryBlock.pid = ps.map Process.pid := by
  induction ps generalizing mm occ r with
  | nil => exact ⟨mm, [], r, h, by simpa using hfill, rfl⟩
  | cons p ps ih =>
    have hp : p ∈ procs := hps.subset List.mem_cons_self
    have hrest : ps.Sublist procs := (List.sublist_cons_self p ps).trans hps
    have hpos : 0 ≤ (ps.map Process.memoryRequired).sum := by
      apply List.sum_nonneg
      intro m hm
      obtain ⟨q, hq, rfl⟩ := List.mem_map.mp hm
      exact (zero_le_one' Int).trans (hmem q (hrest.subset hq))
    rw [List.map_cons, List.sum_cons] at hsum
    have hno : ¬ Holds mm p.pid := by
      rintro ⟨b, hb, hfree, hpid⟩
      rw [hfill.head_eq] at hb
      rcases List.mem_append.mp hb with hb | hb
      · exact hnew p List.mem_cons_self (List.mem_map.mpr ⟨b, hb, hpid⟩)
      · split_ifs at hb
        · rw [List.mem_singleton.mp hb] at hfree
          cases hfree
        · simp at hb
    have hstep := h.request .first hp hno
    obtain ⟨-, hfill'⟩ := hfill.accept p.pid (hmem p hp) (show p.memoryRequired ≤ r by omega)
    have hdistinct : p.pid ∉ ps.map Process.pid :=
      (List.nodup_cons.mp (hpids.sublist (hps.map Process.pid))).1
    obtain ⟨mm', new, r', hrun, hlast, hpidsEq⟩ := ih hstep hfill' hrest (by
      intro q hq
      rw [List.map_append, List.mem_append, not_or]
      refine ⟨hnew q (List.mem_cons_of_mem _ hq), ?_⟩
      have hne : q.pid ≠ p.pid := fun he => hdistinct (List.mem_map.mpr ⟨q, hq, he⟩)
      simpa using hne) (by omega)
    exact ⟨mm', _ :: new, r', hrun, by simpa using hlast, by simp [hpidsEq]⟩

theorem exists_full_holding :
    ∃ mm, HoldingRun procs W mm ∧
      (smallestFirst (procs.map Process.memoryRequired) W).length ≤ holdingCount procs mm := by
  obtain ⟨t, hperm, hsub⟩ := smallestFirst_subperm (procs.map Process.memoryRequired) W
  obtain ⟨ps, hps, rfl⟩ := List.sublist_map_iff.mp hsub
  have hsum : (ps.map Process.memoryRequired).sum ≤ W := by
    rw [hperm.sum_eq]
    exact sum_smallestFirst_le (by omega) _
  obtain ⟨mm, new, r, hrun, hfill, hnew⟩ := HoldingRun.create.serve hpids hmem (mmCreate_filled hW) hps
    (by simp) hsum
  refine ⟨mm, hrun, ?_⟩
  have hall : ∀ p ∈ ps, Holds mm p.pid := by
    intro p hp
    have hin : p.pid ∈ new.map MemoryBlock.pid := hnew ▸ List.mem_map_of_mem hp
    obtain ⟨b, hb, hpid⟩ := List.mem_map.mp hin
    have hhead := hfill.head_eq
    rw [List.nil_append] at hhead
    exact ⟨b, hhead ▸ List.mem_append_left _ hb, hfill.occupied_free b hb, hpid⟩
  calc (smallestFirst (procs.map Process.memoryRequired) W).length
      = ps.length := by rw [← hperm.length_eq, List.length_map]
    _ = ps.countP (fun p => Holds mm p.pid) := (List.countP_eq_length.mpr (by simpa using hall)).symm
    _ ≤ holdingCount procs mm := hps.countP_le

end

/-- The knapsack counts the most processes that can hold memory at a time, exactly when its table
has `int` sizes. -/
theorem dpKnapsackBottomup_holding_iff {procs : List Process} {W : Int} (hW : 1 ≤ W)
    (hpids : (procs.map Process.pid).Nodup) (hmem : ∀ p ∈ procs, 1 ≤ p.memoryRequired) :
    (∃ best : Nat, dpKnapsackBottomup procs procs.length W = some (best : Int) ∧
      IsGreatest {k | ∃ mm, HoldingRun procs W mm ∧ holdingCount procs mm = k} best) ↔
    (procs.length : Int) < intMax ∧ W < intMax := by
  have hpos : 0 ≤ W := by omega
  have hnonneg : ∀ p ∈ procs, 0 ≤ p.memoryRequired :=
    fun p hp => (zero_le_one' Int).trans (hmem p hp)
  constructor
  · rintro ⟨best, hbest, -⟩
    by_contra hover
    rw [dpKnapsackBottomup_eq_none hpos hover] at hbest
    cases hbest
  · intro hrange
    refine ⟨_, dpKnapsackBottomup_count hpos hnonneg hrange, ?_, ?_⟩
    · obtain ⟨mm, hrun, hge⟩ := exists_full_holding hpids hW hmem
      exact ⟨mm, hrun, le_antisymm (hrun.count_le hpids hW hmem) hge⟩
    · rintro _ ⟨mm, hrun, rfl⟩
      exact hrun.count_le hpids hW hmem

theorem dpKnapsackBottomup_holding_iff_example :
    let procs := [processCreate 1 4 0 6, processCreate 2 2 0 5, processCreate 3 1 0 5]
    ∃ best : Nat, dpKnapsackBottomup procs 3 10 = some (best : Int) ∧
      IsGreatest {k | ∃ mm, HoldingRun procs 10 mm ∧ holdingCount procs mm = k} best :=
  (dpKnapsackBottomup_holding_iff (by decide) (by decide) (by decide)).mpr (by decide)

/-- A process that holds all of the largest memory is not counted. -/
theorem dpKnapsackBottomup_holding_largest :
    let procs := [processCreate 1 4 0 2147483647]
    dpKnapsackBottomup procs 1 2147483647 = none ∧
    ¬ ∃ best : Nat, dpKnapsackBottomup procs 1 2147483647 = some (best : Int) ∧
      IsGreatest {k | ∃ mm, HoldingRun procs 2147483647 mm ∧ holdingCount procs mm = k} best := by
  intro procs
  have hnone : dpKnapsackBottomup procs 1 2147483647 = none :=
    dpKnapsackBottomup_eq_none (by decide) (by decide)
  refine ⟨hnone, ?_⟩
  rintro ⟨best, hbest, -⟩
  rw [hnone] at hbest
  cases hbest

/-! Backtracking on a memory in use -/

/-- One step of the pass: a grant adds one block for the process, a refusal changes nothing. -/
theorem WellFormed.firstFit_cases {mm : MemoryManager} (h : WellFormed mm) (p : Process) :
    (greedyFirstFit mm p.pid p.memoryRequired = (-1, mm)) ∨
      (0 ≤ (greedyFirstFit mm p.pid p.memoryRequired).1 ∧
        ((occupied (greedyFirstFit mm p.pid p.memoryRequired).2.head).map MemoryBlock.pid).Perm
          (p.pid :: (occupied mm.head).map MemoryBlock.pid)) := by
  rcases (Allocator.greedyFirstFit p.pid).call_cases mm p.memoryRequired with ⟨hcall, -⟩ |
    ⟨c, -, hfit, hcall⟩
  · exact Or.inl hcall
  · refine Or.inr ⟨?_, ?_⟩
    · have hbounds := h.tiles.mem_bounds h.positive c.item_mem
      rw [show greedyFirstFit mm p.pid p.memoryRequired = _ from hcall]
      exact hbounds.1
    · obtain ⟨hfree, hle⟩ := fits_iff.mp hfit
      have hold : occupied mm.head = occupied c.before ++ occupied c.after := by
        conv_lhs => rw [← c.split]
        rw [occupied_append, occupied_cons_free hfree]
      rw [show greedyFirstFit mm p.pid p.memoryRequired = _ from hcall, hold]
      simp only [occupied_append, occupied_splitBlock _ hle, List.map_append, List.append_assoc]
      exact List.perm_middle

theorem firstFitPass_granted {mm : MemoryManager} (h : WellFormed mm) {ps : List Process}
    (hmem : ∀ p ∈ ps, 1 ≤ p.memoryRequired) :
    let r := firstFitPass mm ps
    let granted := r.2.filter Process.isRunning
    r.1 = mmRun ((granted.map (GreedyFit.request .first)).map GreedyRequest.call) mm ∧
      ((occupied r.1.head).map MemoryBlock.pid).Perm
        (granted.map Process.pid ++ (occupied mm.head).map MemoryBlock.pid) ∧
      ∀ p ∈ r.2, 1 ≤ p.memoryRequired ∧ (p.state = .running ∨ p.state = .blocked) := by
  induction ps generalizing mm with
  | nil => exact ⟨rfl, List.Perm.refl _, fun p hp => absurd hp List.not_mem_nil⟩
  | cons p ps ih =>
    obtain ⟨hp, hps⟩ := List.forall_mem_cons.mp hmem
    rcases h.firstFit_cases p with hcall | ⟨haddr, hperm⟩
    · obtain ⟨hrun, hblocks, hstates⟩ := ih h hps
      have hpass : firstFitPass mm (p :: ps) =
          ((firstFitPass mm ps).1, { p with state := .blocked } :: (firstFitPass mm ps).2) := by
        simp [firstFitPass, hcall]
      have hnot : ¬ Process.isRunning { p with state := .blocked } = true := by
        simp [Process.isRunning]
      rw [hpass]
      simp only [List.filter_cons_of_neg hnot]
      exact ⟨hrun, hblocks, List.forall_mem_cons.mpr ⟨⟨hp, Or.inr rfl⟩, hstates⟩⟩
    · have hnext : WellFormed (greedyFirstFit mm p.pid p.memoryRequired).2 :=
        h.allocate (.greedyFirstFit p.pid) hp
      obtain ⟨hrun, hblocks, hstates⟩ := ih hnext hps
      have hpass : firstFitPass mm (p :: ps) =
          ((firstFitPass (greedyFirstFit mm p.pid p.memoryRequired).2 ps).1, { p with state := .running } ::
            (firstFitPass (greedyFirstFit mm p.pid p.memoryRequired).2 ps).2) := by
        simp [firstFitPass, haddr]
      have hyes : Process.isRunning { p with state := .running } = true := rfl
      rw [hpass]
      simp only [List.filter_cons_of_pos hyes, List.map_cons]
      refine ⟨hrun, ?_, List.forall_mem_cons.mpr ⟨⟨hp, Or.inl rfl⟩, hstates⟩⟩
      exact (hblocks.trans (hperm.append_left _)).trans List.perm_middle

/-- Backtracking from any reachable memory, for processes that hold none of it: exactly
the processes it sets running hold a block afterwards, and releasing them, in any order
and with any of the refused ones, gives the memory back as it was. -/
theorem reachable_backtrack_undo {totalMemory : Int} (ht : 1 ≤ totalMemory) {calls : List MmCall}
    (hcalls : ∀ call ∈ calls, call.Ordinary) {procs : List Process}
    (hpids : (procs.map Process.pid).Nodup) (hmem : ∀ p ∈ procs, 1 ≤ p.memoryRequired)
    (hnew : ∀ p ∈ procs, ¬ Holds (mmRun calls (mmCreate totalMemory)) p.pid) :
    ∃ mm result, backtrackAllocate (mmRun calls (mmCreate totalMemory)) procs procs.length 0 =
        some (1, mm, result) ∧
      (∀ p ∈ result, (p.state = .running ↔ Holds mm p.pid) ∧ (p.state ≠ .running → p.state = .blocked)) ∧
      ∀ pids : List Int, (∀ p ∈ result, p.state = .running → p.pid ∈ pids) →
        pids ⊆ procs.map Process.pid →
        mmRun (pids.map .free) mm = mmRun calls (mmCreate totalMemory) := by
  have hwf := reachable_wellFormed ht hcalls
  obtain ⟨hrun, hblocks, hstates⟩ := firstFitPass_granted hwf hmem
  have hsame : (firstFitPass (mmRun calls (mmCreate totalMemory)) procs).2.map Process.pid =
      procs.map Process.pid := by
    have hmap := congrArg (List.map Process.pid)
      (firstFitPass_forgetState (mmRun calls (mmCreate totalMemory)) procs)
    rw [List.map_map, List.map_map] at hmap
    exact hmap
  refine ⟨_, _, backtrackAllocate_eq _ procs, fun p hp => ⟨?_, ?_⟩, fun pids hlisted hsub => ?_⟩
  · rw [holds_iff, ← List.mem_map, hblocks.mem_iff, List.mem_append]
    have hold : p.pid ∉ (occupied (mmRun calls (mmCreate totalMemory)).head).map MemoryBlock.pid := by
      obtain ⟨q, hq, he⟩ := List.mem_map.mp (hsame ▸ List.mem_map_of_mem hp :
        p.pid ∈ procs.map Process.pid)
      rw [← he]
      exact fun hin => hnew q hq (holds_iff.mpr (List.mem_map.mp hin))
    constructor
    · intro hp'
      exact Or.inl (List.mem_map_of_mem (List.mem_filter.mpr ⟨hp, beq_iff_eq.mpr hp'⟩))
    · intro hin
      obtain ⟨q, hq, he⟩ := List.mem_map.mp (hin.resolve_right hold)
      obtain ⟨hqm, hqr⟩ := List.mem_filter.mp hq
      obtain rfl : q = p := List.inj_on_of_nodup_map (hsame ▸ hpids) hqm hp he
      exact beq_iff_eq.mp hqr
  · exact fun hne => (hstates p hp).2.resolve_left hne
  · rw [hrun]
    apply hwf.undo
    · intro r hr
      obtain ⟨q, hq, rfl⟩ := List.mem_map.mp hr
      exact (hstates q (List.mem_filter.mp hq).1).1
    · intro r hr
      obtain ⟨q, hq, rfl⟩ := List.mem_map.mp hr
      obtain ⟨hqm, hqr⟩ := List.mem_filter.mp hq
      exact hlisted q hqm (beq_iff_eq.mp hqr)
    · intro pid hpid b hb hfree he
      obtain ⟨q, hq, rfl⟩ := List.mem_map.mp (hsub hpid)
      exact hnew q hq ⟨b, hb, hfree, he⟩

theorem reachable_backtrack_undo_example :
    let calls : List MmCall := [.allocate (.greedyFirstFit 9) 4, .allocate (.greedyFirstFit 8) 2, .free 9]
    let procs := [processCreate 1 4 0 3, processCreate 2 2 0 9, processCreate 3 1 0 2]
    ∃ mm result, backtrackAllocate (mmRun calls (mmCreate 10)) procs 3 0 = some (1, mm, result) ∧
      (∀ p ∈ result, (p.state = .running ↔ Holds mm p.pid) ∧ (p.state ≠ .running → p.state = .blocked)) ∧
      ∀ pids : List Int, (∀ p ∈ result, p.state = .running → p.pid ∈ pids) →
        pids ⊆ procs.map Process.pid → mmRun (pids.map .free) mm = mmRun calls (mmCreate 10) := by
  intro calls procs
  have hcalls : ∀ call ∈ calls, call.Ordinary := by simp [calls, MmCall.Ordinary]
  exact reachable_backtrack_undo (by decide) hcalls (by decide) (by decide) (by decide)

/-! Processes left without memory -/

/-- No free block is large enough. -/
def Refuses (mm : MemoryManager) (size : Int) : Prop := ∀ b ∈ mm.head, fits size b = false

section

variable {mm : MemoryManager} {size : Int}

theorem Refuses.call (h : Refuses mm size) (a : Allocator) : a.call mm size = (-1, mm) := by
  rcases a.call_cases mm size with ⟨hcall, -⟩ | ⟨c, -, hfit, -⟩
  · exact hcall
  · rw [h _ c.item_mem] at hfit
    cases hfit

/-- What is left of a block that was split is smaller than the block. -/
theorem Refuses.allocate (h : Refuses mm size) (a : Allocator) {request : Int}
    (hrequest : 0 ≤ request) : Refuses (a.call mm request).2 size := by
  rcases a.call_cases mm request with ⟨hcall, -⟩ | ⟨c, -, hfit, hcall⟩
  · rwa [hcall]
  · obtain ⟨hfree, hle⟩ := fits_iff.mp hfit
    have hsmall : c.item.size < size := by
      by_contra hge
      have hno := h _ c.item_mem
      rw [fits_iff.mpr ⟨hfree, not_lt.mp hge⟩] at hno
      cases hno
    have hsplit : ∀ b ∈ splitBlock c.item request (a.tag request), fits size b = false := by
      rcases splitBlock_cases c.item request (a.tag request) hle with ⟨-, he⟩ | ⟨-, he⟩
      · simp [he, fits]
      · simp only [he, fits, List.mem_cons, List.not_mem_nil, or_false, forall_eq_or_imp, forall_eq,
          Bool.false_and, Bool.true_and, decide_eq_false_iff_not, true_and]
        omega
    rw [hcall]
    rw [Refuses, ← c.split] at h
    intro b hb
    simp only [List.mem_append] at hb
    rcases hb with (hb | hb) | hb
    · exact h b (List.mem_append_left _ hb)
    · exact hsplit b hb
    · exact h b (List.mem_append_right _ (List.mem_cons_of_mem _ hb))

theorem Refuses.run (h : Refuses mm size) {requests : List (Allocator × Int)}
    (hsizes : ∀ r ∈ requests, 0 ≤ r.2) :
    Refuses (mmRun (requests.map (fun r => .allocate r.1 r.2)) mm) size := by
  induction requests generalizing mm with
  | nil => exact h
  | cons r requests ih =>
    obtain ⟨hr, hrest⟩ := List.forall_mem_cons.mp hsizes
    exact ih (h.allocate r.1 hr) hrest

theorem Refuses.pass (h : Refuses mm size) {ps : List Process}
    (hmem : ∀ p ∈ ps, 0 ≤ p.memoryRequired) : Refuses (firstFitPass mm ps).1 size := by
  induction ps generalizing mm with
  | nil => exact h
  | cons p ps ih =>
    obtain ⟨hp, hps⟩ := List.forall_mem_cons.mp hmem
    exact ih (h.allocate (.greedyFirstFit p.pid) hp) hps

theorem firstFitPass_refuses (h : WellFormed mm) {ps : List Process}
    (hmem : ∀ p ∈ ps, 1 ≤ p.memoryRequired) : ∀ p ∈ (firstFitPass mm ps).2, p.state ≠ .running →
    Refuses (firstFitPass mm ps).1 p.memoryRequired := by
  induction ps generalizing mm with
  | nil => exact fun p hp => absurd hp List.not_mem_nil
  | cons q ps ih =>
    obtain ⟨hq, hps⟩ := List.forall_mem_cons.mp hmem
    have hnext : WellFormed (greedyFirstFit mm q.pid q.memoryRequired).2 :=
      h.allocate (.greedyFirstFit q.pid) hq
    intro p hp hstate
    rcases List.mem_cons.mp hp with rfl | hp
    · -- refused in its own turn, it is still refused after the turns of the others
      have hrefused : Refuses mm q.memoryRequired := by
        rcases (Allocator.greedyFirstFit q.pid).call_cases mm q.memoryRequired with ⟨-, hall⟩ |
          ⟨c, -, -, hcall⟩
        · exact hall
        · have haddr : 0 ≤ (greedyFirstFit mm q.pid q.memoryRequired).1 := by
            rw [show greedyFirstFit mm q.pid q.memoryRequired = _ from hcall]
            exact (h.tiles.mem_bounds h.positive c.item_mem).1
          exact absurd (if_pos haddr) hstate
      exact (hrefused.allocate (.greedyFirstFit q.pid) (by omega)).pass
        (fun p hp => le_trans Int.one_nonneg (hps p hp))
    · exact ih hnext hps p hp hstate

end

/-- The result of the search cannot be extended: no allocator serves a process that it left
without memory, however many allocations follow, until memory is released. -/
theorem reachable_backtrack_maximal {totalMemory : Int} (ht : 1 ≤ totalMemory)
    {calls : List MmCall} (hcalls : ∀ call ∈ calls, call.Ordinary) {procs : List Process}
    (hmem : ∀ p ∈ procs, 1 ≤ p.memoryRequired) :
    ∃ mm result, backtrackAllocate (mmRun calls (mmCreate totalMemory)) procs procs.length 0 =
        some (1, mm, result) ∧
      ∀ p ∈ result, p.state ≠ .running → ∀ later : List (Allocator × Int),
        (∀ r ∈ later, 0 ≤ r.2) → ∀ a : Allocator,
        let mm' := mmRun (later.map (fun r => .allocate r.1 r.2)) mm
        a.call mm' p.memoryRequired = (-1, mm') := by
  have hwf := reachable_wellFormed ht hcalls
  refine ⟨_, _, backtrackAllocate_eq _ procs, ?_⟩
  intro p hp hstate later hsizes a
  exact ((firstFitPass_refuses hwf hmem p hp hstate).run hsizes).call a

theorem reachable_backtrack_maximal_example :
    let calls : List MmCall := [.allocate (.greedyFirstFit 9) 4, .allocate (.greedyFirstFit 8) 2, .free 9]
    let procs := [processCreate 1 4 0 3, processCreate 2 2 0 9, processCreate 3 1 0 2]
    ∃ mm result, backtrackAllocate (mmRun calls (mmCreate 10)) procs 3 0 = some (1, mm, result) ∧
      ∀ p ∈ result, p.state ≠ .running → ∀ later : List (Allocator × Int),
        (∀ r ∈ later, 0 ≤ r.2) → ∀ a : Allocator,
        let mm' := mmRun (later.map (fun r => .allocate r.1 r.2)) mm
        a.call mm' p.memoryRequired = (-1, mm') := by
  intro calls procs
  have hcalls : ∀ call ∈ calls, call.Ordinary := by simp [calls, MmCall.Ordinary]
  exact reachable_backtrack_maximal (by decide) hcalls (by decide)

end MiniOS
