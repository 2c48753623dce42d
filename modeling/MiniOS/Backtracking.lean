import MiniOS.KnapsackAgreement
import MiniOS.MemoryManager
import Mathlib.Data.List.Nodup

/-! The backtracking allocation. Every call returns 1, so nothing is undone and
the recursion is one first-fit pass from left to right. On a fresh memory the
pass fills it up in order, which is a best choice exactly when no accepted
process costs more than one later process its place. -/

namespace MiniOS

open ArrayAccess SmallestFirst

/-- The recursion with `left` processes to go, standing at index `n - left`. -/
def backtrackFrom (n : Nat) : Nat → MemoryManager → List Process →
    Option (Int × MemoryManager × List Process)
  | 0, mm, procs => some (1, mm, procs)
  | left + 1, mm, procs => do
    let index : Nat := n - (left + 1)
    let p ← read procs index
    let (addr, mm) := greedyFirstFit mm p.pid p.memoryRequired
    if addr ≥ 0 then
      let procs ← write procs index { p with state := .running }
      let (ret, mm, procs) ← backtrackFrom n left mm procs
      if ret ≠ 0 then some (1, mm, procs)
      else
        let p ← read procs index
        let procs ← write procs index { p with state := .blocked }
        backtrackFrom n left (mmFree mm p.pid) procs
    else
      let procs ← write procs index { p with state := .blocked }
      backtrackFrom n left mm procs

/-- For `index ≤ n`; beyond `n` the source recurses without end. -/
def backtrackAllocate (mm : MemoryManager) (procs : List Process) (n index : Nat) :
    Option (Int × MemoryManager × List Process) :=
  backtrackFrom n (n - index) mm procs

def firstFitPass : MemoryManager → List Process → MemoryManager × List Process
  | mm, [] => (mm, [])
  | mm, p :: ps =>
    let r := greedyFirstFit mm p.pid p.memoryRequired
    let rest := firstFitPass r.2 ps
    (rest.1, { p with state := if r.1 ≥ 0 then .running else .blocked } :: rest.2)

/-- `backtrackFrom` without a result as soon as the `mm_free` branch is entered. -/
def backtrackNoUndo (n : Nat) : Nat → MemoryManager → List Process →
    Option (Int × MemoryManager × List Process)
  | 0, mm, procs => some (1, mm, procs)
  | left + 1, mm, procs => do
    let index : Nat := n - (left + 1)
    let p ← read procs index
    let (addr, mm) := greedyFirstFit mm p.pid p.memoryRequired
    if addr ≥ 0 then
      let procs ← write procs index { p with state := .running }
      let (ret, mm, procs) ← backtrackNoUndo n left mm procs
      if ret ≠ 0 then some (1, mm, procs) else none
    else
      let procs ← write procs index { p with state := .blocked }
      backtrackNoUndo n left mm procs

theorem backtrackNoUndo_eq (rest : List Process) :
    ∀ (pre : List Process) (mm : MemoryManager) (n : Nat), n = pre.length + rest.length →
      backtrackNoUndo n rest.length mm (pre ++ rest) =
        some (1, (firstFitPass mm rest).1, pre ++ (firstFitPass mm rest).2) := by
  induction rest with
  | nil => intro pre mm n _; rfl
  | cons p rest ih =>
    intro pre mm n hn
    have hindex : n - (rest.length + 1) = pre.length := by
      rw [List.length_cons] at hn
      omega
    have hstep : ∀ (q : Process) (mm' : MemoryManager),
        backtrackNoUndo n rest.length mm' (pre ++ q :: rest) =
          some (1, (firstFitPass mm' rest).1, pre ++ q :: (firstFitPass mm' rest).2) := by
      intro q mm'
      have hq := ih (pre ++ [q]) mm' n (by simp at hn ⊢; omega)
      simpa using hq
    simp only [List.length_cons, backtrackNoUndo, hindex, read_append, write_append,
      Option.bind_eq_bind, Option.bind_some, hstep, firstFitPass]
    by_cases haddr : (greedyFirstFit mm p.pid p.memoryRequired).1 ≥ 0
    · simp [haddr]
    · simp [haddr]

theorem backtrackFrom_of_noUndo {n left : Nat} {mm : MemoryManager} {procs : List Process}
    {r : Int × MemoryManager × List Process} (h : backtrackNoUndo n left mm procs = some r) :
    backtrackFrom n left mm procs = some r := by
  induction left generalizing mm procs r with
  | zero => exact h
  | succ left ih =>
    simp only [backtrackNoUndo, Option.bind_eq_bind, Option.bind_eq_some_iff] at h
    obtain ⟨p, hp, h⟩ := h
    simp only [backtrackFrom, hp, Option.bind_eq_bind, Option.bind_some]
    split_ifs at h ⊢ with haddr
    · simp only [Option.bind_eq_some_iff] at h
      obtain ⟨procs', hwrite, ⟨ret, mm', procs''⟩, hcall, hret⟩ := h
      rw [hwrite, Option.bind_some, ih hcall, Option.bind_some]
      split_ifs at hret ⊢
      exact hret
    · simp only [Option.bind_eq_some_iff] at h
      obtain ⟨procs', hwrite, hcall⟩ := h
      rw [hwrite, Option.bind_some]
      exact ih hcall

theorem backtrackFrom_eq (rest pre : List Process) (mm : MemoryManager) (n : Nat)
    (hn : n = pre.length + rest.length) :
    backtrackFrom n rest.length mm (pre ++ rest) =
      some (1, (firstFitPass mm rest).1, pre ++ (firstFitPass mm rest).2) :=
  backtrackFrom_of_noUndo (backtrackNoUndo_eq rest pre mm n hn)

theorem backtrackAllocate_eq (mm : MemoryManager) (procs : List Process) :
    backtrackAllocate mm procs procs.length 0 =
      some (1, firstFitPass mm procs) := by
  have h := backtrackFrom_eq procs [] mm procs.length (by simp)
  simpa [backtrackAllocate] using h

/-! The single loop over `i = index .. n - 1`. -/

def firstFitStep (s : MemoryManager × List Process) (i : Nat) :
    Option (MemoryManager × List Process) := do
  let p ← read s.2 i
  let (addr, mm) := greedyFirstFit s.1 p.pid p.memoryRequired
  let procs ← write s.2 i { p with state := if addr ≥ 0 then .running else .blocked }
  some (mm, procs)

def firstFitLoop (mm : MemoryManager) (procs : List Process) (n index : Nat) :
    Option (MemoryManager × List Process) :=
  (List.range' index (n - index)).foldlM firstFitStep (mm, procs)

theorem firstFitStep_append (mm : MemoryManager) (pre : List Process) (p : Process)
    (rest : List Process) :
    firstFitStep (mm, pre ++ p :: rest) pre.length =
      some ((greedyFirstFit mm p.pid p.memoryRequired).2,
        pre ++ { p with
          state := if (greedyFirstFit mm p.pid p.memoryRequired).1 ≥ 0 then .running
            else .blocked } :: rest) := by
  rw [firstFitStep]
  simp only [read_append, write_append, Option.bind_eq_bind, Option.bind_some]

theorem firstFitLoop_eq (rest pre : List Process) (mm : MemoryManager) :
    firstFitLoop mm (pre ++ rest) (pre ++ rest).length pre.length =
      some ((firstFitPass mm rest).1, pre ++ (firstFitPass mm rest).2) := by
  have hleft : (pre ++ rest).length - pre.length = rest.length := by
    rw [List.length_append]
    omega
  rw [firstFitLoop, hleft]
  clear hleft
  induction rest generalizing pre mm with
  | nil => rfl
  | cons p rest ih =>
    rw [List.length_cons, List.range'_succ, List.foldlM_cons, firstFitStep_append,
      Option.bind_eq_bind, Option.bind_some]
    have hrest := ih (pre ++ [{ p with
      state := if (greedyFirstFit mm p.pid p.memoryRequired).1 ≥ 0 then .running else .blocked }])
      (greedyFirstFit mm p.pid p.memoryRequired).2
    rw [List.length_append, List.length_singleton, List.append_assoc, List.append_assoc] at hrest
    exact hrest

def Process.forgetState (p : Process) : Process := { p with state := .ready }

theorem firstFitPass_forgetState (mm : MemoryManager) (ps : List Process) :
    (firstFitPass mm ps).2.map Process.forgetState = ps.map Process.forgetState := by
  induction ps generalizing mm with
  | nil => rfl
  | cons p ps ih =>
    rw [firstFitPass, List.map_cons, List.map_cons, ih]
    rfl

theorem backtrackAllocate_firstFitLoop (mm : MemoryManager) (procs : List Process) {index : Nat}
    (hindex : index ≤ procs.length) :
    ∃ mm' procs', backtrackAllocate mm procs procs.length index = some (1, mm', procs') ∧
      backtrackNoUndo procs.length (procs.length - index) mm procs = some (1, mm', procs') ∧
      firstFitLoop mm procs procs.length index = some (mm', procs') ∧
      procs'.take index = procs.take index ∧
      procs'.map Process.forgetState = procs.map Process.forgetState := by
  obtain ⟨pre, rest, rfl, rfl⟩ : ∃ pre rest, procs = pre ++ rest ∧ index = pre.length :=
    ⟨procs.take index, procs.drop index, (List.take_append_drop index procs).symm, by
      rw [List.length_take]
      omega⟩
  have hlen : (pre ++ rest).length = pre.length + rest.length := List.length_append
  have hleft : (pre ++ rest).length - pre.length = rest.length := by omega
  refine ⟨_, _, ?_, ?_, firstFitLoop_eq rest pre mm, ?_, ?_⟩
  · rw [backtrackAllocate, hleft]
    exact backtrackFrom_eq rest pre mm _ hlen
  · rw [hleft]
    exact backtrackNoUndo_eq rest pre mm _ hlen
  · rw [List.take_left, List.take_left]
  · rw [List.map_append, List.map_append, firstFitPass_forgetState]

/-- The second request does not fit and is passed over. -/
theorem backtrackAllocate_firstFitLoop_example :
    let procs := [processCreate 1 4 0 6, processCreate 2 2 0 5, processCreate 3 1 0 4]
    ∃ mm' procs', backtrackAllocate (mmCreate 10) procs procs.length 1 = some (1, mm', procs') ∧
      backtrackNoUndo procs.length (procs.length - 1) (mmCreate 10) procs =
        some (1, mm', procs') ∧
      firstFitLoop (mmCreate 10) procs procs.length 1 = some (mm', procs') ∧
      procs'.take 1 = procs.take 1 ∧
      procs'.map Process.forgetState = procs.map Process.forgetState :=
  backtrackAllocate_firstFitLoop _ _ (by decide)

/-- Memory of `W` units filled from the bottom: `occupied` blocks, `r` units left. -/
structure Filled (W : Int) (mm : MemoryManager) (occupied : List MemoryBlock) (r : Int) : Prop where
  head_eq : mm.head = occupied ++ if 0 < r then [⟨W - r, r, true, -1⟩] else []
  occupied_free : ∀ b ∈ occupied, b.free = false
  left_nonneg : 0 ≤ r
  left_le : r ≤ W

section Filled

variable {W r : Int} {mm : MemoryManager} {occ : List MemoryBlock}

theorem mmCreate_filled (hW : 1 ≤ W) : Filled W (mmCreate W) [] W where
  head_eq := by
    rw [if_pos (by omega), Int.sub_self]
    rfl
  occupied_free := by simp
  left_nonneg := by omega
  left_le := le_refl W

theorem Filled.not_fits (h : Filled W mm occ r) (m : Int) : ∀ b ∈ occ, fits m b = false := by
  intro b hb
  rw [fits, h.occupied_free b hb, Bool.false_and]

theorem Filled.accept (h : Filled W mm occ r) (pid : Int) {m : Int} (hm : 1 ≤ m) (hle : m ≤ r) :
    (greedyFirstFit mm pid m).1 ≥ 0 ∧
    Filled W (greedyFirstFit mm pid m).2 (occ ++ [⟨W - r, m, false, pid⟩]) (r - m) := by
  have hr : 0 < r := by omega
  have hhead := h.head_eq
  rw [if_pos hr] at hhead
  let c : Cursor mm.head := ⟨occ, ⟨W - r, r, true, -1⟩, [], hhead.symm⟩
  have hfind : Cursor.first (fits m) mm.head = some c := by
    refine Cursor.first_eq_some c ?_ (h.not_fits m)
    show (true && decide (r ≥ m)) = true
    simpa using hle
  have hroom := h.left_le
  rw [greedyFirstFit, hfind, allocateAt]
  refine ⟨show W - r ≥ 0 by omega, ?_, ?_, by omega, by omega⟩
  · have hblock : splitBlock c.item m pid =
        [⟨W - r, m, false, pid⟩] ++ if 0 < r - m then [⟨W - (r - m), r - m, true, -1⟩] else [] := by
      by_cases hlt : r > m
      · rw [splitBlock, if_pos (show c.item.size > m from hlt), if_pos (by omega),
          show W - (r - m) = W - r + m by omega]
        rfl
      · rw [splitBlock, if_neg (show ¬ c.item.size > m from hlt), if_neg (by omega)]
        rfl
    show c.replace _ = _
    rw [hblock, Cursor.replace, List.append_assoc, List.append_assoc]
    simp [c]
  · intro b hb
    rcases List.mem_append.mp hb with hb | hb
    · exact h.occupied_free b hb
    · rw [List.mem_singleton.mp hb]

theorem Filled.reject (h : Filled W mm occ r) (pid : Int) {m : Int} (hlt : r < m) :
    greedyFirstFit mm pid m = (-1, mm) := by
  have hnone : Cursor.first (fits m) mm.head = none := by
    apply Cursor.first_eq_none_iff.mpr
    intro b hb
    rw [h.head_eq] at hb
    rcases List.mem_append.mp hb with hb | hb
    · exact h.not_fits m b hb
    · split_ifs at hb
      · rw [List.mem_singleton.mp hb, fits]
        simpa using hlt
      · simp at hb
  rw [greedyFirstFit, hnone, allocateAt]

end Filled

def acceptedCount : Int → List Int → Int
  | _, [] => 0
  | r, m :: ms => if m ≤ r then 1 + acceptedCount (r - m) ms else acceptedCount r ms

def Process.isRunning (p : Process) : Bool := p.state == .running

theorem firstFitPass_filled {W r : Int} {mm : MemoryManager} {occ : List MemoryBlock}
    (h : Filled W mm occ r) {ps : List Process} (hps : ∀ p ∈ ps, 1 ≤ p.memoryRequired) :
    ∃ new r', Filled W (firstFitPass mm ps).1 (occ ++ new) r' ∧
      new.map MemoryBlock.pid =
        ((firstFitPass mm ps).2.filter Process.isRunning).map Process.pid ∧
      (firstFitPass mm ps).2.map Process.pid = ps.map Process.pid ∧
      (∀ p ∈ (firstFitPass mm ps).2, p.state = .running ∨ p.state = .blocked) ∧
      ((firstFitPass mm ps).2.countP Process.isRunning : Int) =
        acceptedCount r (ps.map Process.memoryRequired) := by
  induction ps generalizing mm occ r with
  | nil => exact ⟨[], r, by simpa [firstFitPass] using h, rfl, rfl, by simp [firstFitPass], rfl⟩
  | cons p ps ih =>
    have hp := hps p List.mem_cons_self
    have hrest : ∀ q ∈ ps, 1 ≤ q.memoryRequired := fun q hq => hps q (List.mem_cons_of_mem _ hq)
    by_cases hle : p.memoryRequired ≤ r
    · obtain ⟨haddr, hnext⟩ := h.accept p.pid hp hle
      obtain ⟨new, r', hfill, hpids, hsame, hstates, hcount⟩ := ih hnext hrest
      refine ⟨⟨W - r, p.memoryRequired, false, p.pid⟩ :: new, r', ?_, ?_, ?_, ?_, ?_⟩
      · simpa [firstFitPass] using hfill
      · simp [firstFitPass, haddr, Process.isRunning, hpids]
      · simp [firstFitPass, hsame]
      · intro q hq
        rw [firstFitPass, if_pos haddr] at hq
        rcases List.mem_cons.mp hq with rfl | hq
        · exact Or.inl rfl
        · exact hstates q hq
      · rw [List.map_cons, acceptedCount, if_pos hle, ← hcount]
        simp [firstFitPass, haddr, Process.isRunning, add_comm]
    · have hno := h.reject p.pid (not_le.mp hle)
      obtain ⟨new, r', hfill, hpids, hsame, hstates, hcount⟩ := ih h hrest
      refine ⟨new, r', ?_, ?_, ?_, ?_, ?_⟩
      · simpa [firstFitPass, hno] using hfill
      · simp [firstFitPass, hno, Process.isRunning, hpids]
      · simp [firstFitPass, hno, hsame]
      · intro q hq
        rw [firstFitPass, hno] at hq
        rcases List.mem_cons.mp hq with rfl | hq
        · exact Or.inr rfl
        · exact hstates q hq
      · rw [List.map_cons, acceptedCount, if_neg hle, ← hcount]
        simp [firstFitPass, hno, Process.isRunning]

/-- No process the pass accepts takes the place of two later ones: of those
behind it at most one more would fit without it. -/
def NoCrowding : Int → List Int → Prop
  | _, [] => True
  | r, m :: ms =>
    if m ≤ r then
      (smallestFirst ms r).length ≤ (smallestFirst ms (r - m)).length + 1 ∧ NoCrowding (r - m) ms
    else NoCrowding r ms

theorem acceptedCount_le (r : Int) (ms : List Int) : acceptedCount r ms ≤ bottomupValue ms r := by
  induction ms generalizing r with
  | nil => exact le_refl _
  | cons m ms ih =>
    by_cases hle : m ≤ r
    · rw [acceptedCount, if_pos hle]
      have := ih (r - m)
      have := bottomupValue_cons_take hle ms
      omega
    · rw [acceptedCount, if_neg hle]
      exact (ih r).trans (bottomupValue_cons_le m ms r)

theorem acceptedCount_eq_iff {r : Int} (hr : 0 ≤ r) {ms : List Int} (hms : ∀ m ∈ ms, 0 ≤ m) :
    acceptedCount r ms = bottomupValue ms r ↔ NoCrowding r ms := by
  induction ms generalizing r with
  | nil => exact iff_of_true rfl trivial
  | cons m ms ih =>
    have hrest : ∀ x ∈ ms, 0 ≤ x := fun x hx => hms x (List.mem_cons_of_mem _ hx)
    by_cases hle : m ≤ r
    · have hr' : 0 ≤ r - m := by omega
      have hleft := bottomupValue_eq hrest hr
      have hnext := bottomupValue_eq hrest hr'
      have hcount := acceptedCount_le (r - m) ms
      rw [acceptedCount, if_pos hle, NoCrowding, if_pos hle, ← ih hr' hrest, bottomupValue]
      split_ifs <;> omega
    · rw [acceptedCount, if_neg hle, NoCrowding, if_neg hle, ← ih hr hrest, bottomupValue,
        if_neg (fun h => hle h.1)]

/-- The RUNNING processes own their blocks and are as many as can fit together. -/
structure BestAllocation (capacity : Int) (procs : List Process) (mm : MemoryManager)
    (result : List Process) : Prop where
  running_iff : ∀ p ∈ result, p.state = .running ↔ ∃ b ∈ mm.head, b.free = false ∧ b.pid = p.pid
  others : ∀ p ∈ result, p.state ≠ .running → p.state = .blocked
  count_eq : dpKnapsackBottomup procs procs.length capacity =
    some (result.countP (fun p => p.state = .running) : Int)

section Fresh

variable {procs : List Process} {W : Int} (hW : 1 ≤ W)
  (hpids : (procs.map Process.pid).Nodup) (hmem : ∀ p ∈ procs, 1 ≤ p.memoryRequired)

include hW hpids hmem

theorem firstFitPass_running_iff {p : Process} (hp : p ∈ (firstFitPass (mmCreate W) procs).2) :
    p.state = .running ↔
      ∃ b ∈ (firstFitPass (mmCreate W) procs).1.head, b.free = false ∧ b.pid = p.pid := by
  obtain ⟨new, r, hfill, hnew, hsame, -⟩ := firstFitPass_filled (mmCreate_filled hW) hmem
  rw [← hsame] at hpids
  have hhead := hfill.head_eq
  rw [List.nil_append] at hhead
  constructor
  · intro hrun
    have hin : p.pid ∈ new.map MemoryBlock.pid := by
      rw [hnew]
      exact List.mem_map_of_mem (List.mem_filter.mpr ⟨hp, beq_iff_eq.mpr hrun⟩)
    obtain ⟨b, hb, hpid⟩ := List.mem_map.mp hin
    exact ⟨b, hhead ▸ List.mem_append_left _ hb, hfill.occupied_free b hb, hpid⟩
  · intro ⟨b, hb, hfree, hpid⟩
    rw [hhead] at hb
    rcases List.mem_append.mp hb with hb | hb
    · have hin : p.pid ∈ new.map MemoryBlock.pid := hpid ▸ List.mem_map_of_mem hb
      rw [hnew] at hin
      obtain ⟨q, hq, hqp⟩ := List.mem_map.mp hin
      obtain ⟨hqmem, hqrun⟩ := List.mem_filter.mp hq
      rw [← List.inj_on_of_nodup_map hpids hqmem hp hqp]
      exact beq_iff_eq.mp hqrun
    · split_ifs at hb
      · rw [List.mem_singleton.mp hb] at hfree
        cases hfree
      · simp at hb

theorem backtrackAllocate_best_iff :
    (∃ ret mm result, backtrackAllocate (mmCreate W) procs procs.length 0 = some (ret, mm, result) ∧
      BestAllocation W procs mm result) ↔
    ((procs.length : Int) < intMax ∧ W < intMax) ∧
      NoCrowding W (procs.map Process.memoryRequired) := by
  by_cases hrange : (procs.length : Int) < intMax ∧ W < intMax
  swap
  · have hnone : dpKnapsackBottomup procs procs.length W = none :=
      dpKnapsackBottomup_eq_none (by omega) hrange
    apply iff_of_false
    · rintro ⟨ret, mm, result, -, hbest⟩
      cases hnone.symm.trans hbest.count_eq
    · exact fun h => hrange h.1
  rw [and_iff_right hrange]
  have hnonneg : ∀ p ∈ procs, 0 ≤ p.memoryRequired := fun p hp => by have := hmem p hp; omega
  have hsizes : ∀ m ∈ procs.map Process.memoryRequired, 0 ≤ m := by simpa using hnonneg
  obtain ⟨-, -, -, -, -, hstates, hcount⟩ := firstFitPass_filled (mmCreate_filled hW) hmem
  have hdec : Process.isRunning = fun p => decide (p.state = .running) := by
    funext p
    rw [Process.isRunning, Bool.eq_iff_iff, beq_iff_eq, decide_eq_true_eq]
  have hopt := dpKnapsackBottomup_count (show 0 ≤ W by omega) hnonneg hrange
  rw [← bottomupValue_eq hsizes (by omega)] at hopt
  rw [backtrackAllocate_eq, ← acceptedCount_eq_iff (by omega) hsizes, ← hcount, hdec]
  constructor
  · rintro ⟨ret, mm, result, hrun, hbest⟩
    obtain ⟨-, hpass⟩ := Prod.mk.inj (Option.some.inj hrun)
    have hc := hbest.count_eq
    rw [hopt] at hc
    rw [hpass]
    exact (Option.some.inj hc).symm
  · intro hc
    refine ⟨1, _, _, rfl, ?_, ?_, ?_⟩
    · exact fun p hp => firstFitPass_running_iff hW hpids hmem hp
    · exact fun p hp hne => (hstates p hp).resolve_left hne
    · rw [hopt, hc]

end Fresh

theorem backtrackAllocate_best_iff_example :
    let procs := [processCreate 1 4 0 5, processCreate 2 2 0 5, processCreate 3 1 0 10]
    (∃ ret mm result, backtrackAllocate (mmCreate 10) procs procs.length 0 = some (ret, mm, result) ∧
      BestAllocation 10 procs mm result) ↔
    ((procs.length : Int) < intMax ∧ 10 < intMax) ∧
      NoCrowding 10 (procs.map Process.memoryRequired) :=
  backtrackAllocate_best_iff (by decide) (by decide) (by decide)

/-- The first process takes all the memory; the other two would fit together. -/
theorem backtrackAllocate_crowds_out :
    let procs := [processCreate 1 4 0 10, processCreate 2 2 0 5, processCreate 3 1 0 5]
    (backtrackAllocate (mmCreate 10) procs procs.length 0).map (fun r => r.2.2.map Process.state) =
      some [.running, .blocked, .blocked] ∧
    dpKnapsackBottomup procs procs.length 10 = some 2 := by
  decide

end MiniOS
