import MiniOS.Knapsack
import Mathlib.Algebra.Order.Group.Int

/-! A memo may be handed from call to call: each call returns the value of the
recursion without memo, whatever part of the table is already filled in. -/

namespace MiniOS

open ArrayAccess

abbrev KnapsackCall := Nat × Int

/-- The calls in order, all on one table. -/
def sharedCalls (procs : List Process) : List KnapsackCall → Table → Option (List Int × Table)
  | [], memo => some ([], memo)
  | call :: calls, memo => do
    let (value, memo) ← dpKnapsackTopdown procs call.1 call.2 memo
    let (values, memo) ← sharedCalls procs calls memo
    some (value :: values, memo)

/-- Each call on a table of its own. -/
def freshCalls (procs : List Process) (calls : List KnapsackCall) : Option (List Int) :=
  calls.mapM (fun call =>
    (dpKnapsackTopdown procs call.1 call.2 (freshMemo call.1 call.2)).map Prod.fst)

section Calls

variable {procs : List Process} (hmem : ∀ p ∈ procs, 0 ≤ p.memoryRequired)

include hmem

theorem dpKnapsackTopdown_value {n N : Nat} (hn : n ≤ N) (hN : N ≤ procs.length) {c capacity : Int}
    (hc : 0 ≤ c) (hcapacity : c ≤ capacity) {memo : Table}
    (hdim : AtLeast memo (N + 1) (capacity + 1)) (hcorrect : MemoCorrect procs memo) :
    ∃ memo', dpKnapsackTopdown procs n c memo = some (topdownValue (sizes procs n) c, memo') ∧
      MemoStep procs memo memo' := by
  obtain ⟨memo', hrun, hstep⟩ := dpKnapsackTopdownWithin_spec hn hN hmem hc hcapacity hdim hcorrect
  exact ⟨memo', topdown_of_within hrun, hstep⟩

theorem freshCalls_eq {calls : List KnapsackCall}
    (hcalls : ∀ call ∈ calls, call.1 ≤ procs.length ∧ 0 ≤ call.2) :
    freshCalls procs calls =
      some (calls.map (fun call => topdownValue (sizes procs call.1) call.2)) := by
  induction calls with
  | nil => rfl
  | cons call calls ih =>
    obtain ⟨⟨hn, hc⟩, hrest⟩ := List.forall_mem_cons.mp hcalls
    obtain ⟨memo', hrun⟩ := dpKnapsackTopdown_freshMemo hn hmem hc
    have htail := ih hrest
    rw [freshCalls] at htail ⊢
    rw [List.mapM_cons, hrun, htail]
    rfl

theorem sharedCalls_eq {N : Nat} (hN : N ≤ procs.length) {capacity : Int} {calls : List KnapsackCall}
    (hcalls : ∀ call ∈ calls, call.1 ≤ N ∧ 0 ≤ call.2 ∧ call.2 ≤ capacity) {memo : Table}
    (hdim : AtLeast memo (N + 1) (capacity + 1)) (hcorrect : MemoCorrect procs memo) :
    ∃ memo', sharedCalls procs calls memo =
        some (calls.map (fun call => topdownValue (sizes procs call.1) call.2), memo') ∧
      MemoStep procs memo memo' := by
  induction calls generalizing memo with
  | nil => exact ⟨memo, rfl, MemoStep.refl hcorrect⟩
  | cons call calls ih =>
    obtain ⟨⟨hn, hc, hle⟩, hrest⟩ := List.forall_mem_cons.mp hcalls
    obtain ⟨memo₁, hrun, h₁⟩ := dpKnapsackTopdown_value hmem hn hN hc hle hdim hcorrect
    obtain ⟨memo₂, hruns, h₂⟩ := ih hrest (hdim.of_lengths h₁.lengths) h₁.correct
    refine ⟨memo₂, ?_, h₁.trans h₂⟩
    simp only [sharedCalls, hrun, hruns, Option.bind_eq_bind, Option.bind_some, List.map_cons]

/-- Memoisation is transparent, and so is sharing one memo. -/
theorem dpKnapsackTopdown_memo {n : Nat} (hn : n ≤ procs.length) {capacity : Int}
    (hc : 0 ≤ capacity) {memo : Table} (hdim : AtLeast memo (n + 1) (capacity + 1))
    (hcorrect : MemoCorrect procs memo) :
    (∃ memo', dpKnapsackTopdown procs n capacity memo =
        some (topdownValue (sizes procs n) capacity, memo') ∧
      dpKnapsackTopdownWithin n capacity procs n capacity memo =
        dpKnapsackTopdown procs n capacity memo ∧
      (∀ i j v, readCell memo i j = some v → v ≠ -1 → readCell memo' i j = some v) ∧
      MemoCorrect procs memo') ∧
    ∀ calls : List KnapsackCall,
      (∀ call ∈ calls, call.1 ≤ n ∧ 0 ≤ call.2 ∧ call.2 ≤ capacity) →
      ∃ values memo', sharedCalls procs calls memo = some (values, memo') ∧
        freshCalls procs calls = some values := by
  constructor
  · obtain ⟨memo', hrun, hstep⟩ := dpKnapsackTopdownWithin_spec (le_refl n) hn hmem hc
      (le_refl capacity) hdim hcorrect
    have hplain := topdown_of_within hrun
    exact ⟨memo', hplain, hrun.trans hplain.symm, hstep.kept, hstep.correct⟩
  · intro calls hcalls
    obtain ⟨memo', hrun, -⟩ := sharedCalls_eq hmem hn hcalls hdim hcorrect
    refine ⟨_, memo', hrun, freshCalls_eq hmem ?_⟩
    intro call hcall
    obtain ⟨hle, hpos, -⟩ := hcalls call hcall
    exact ⟨hle.trans hn, hpos⟩

end Calls

/-- A table that is wider than needed and has one entry filled in. -/
theorem dpKnapsackTopdown_memo_example :
    let procs := [processCreate 1 5 0 2, processCreate 2 4 0 1]
    let memo : Table := grid 3 6 (put (fun _ _ => -1) 1 2 1)
    (∃ memo', dpKnapsackTopdown procs 2 3 memo = some (topdownValue (sizes procs 2) 3, memo') ∧
      dpKnapsackTopdownWithin (2 : Nat) 3 procs 2 3 memo = dpKnapsackTopdown procs 2 3 memo ∧
      (∀ i j v, readCell memo i j = some v → v ≠ -1 → readCell memo' i j = some v) ∧
      MemoCorrect procs memo') ∧
    ∃ values memo', sharedCalls procs [(1, 2), (2, 3), (2, 0), (1, 2)] memo = some (values, memo') ∧
      freshCalls procs [(1, 2), (2, 3), (2, 0), (1, 2)] = some values := by
  intro procs memo
  have hdim : AtLeast memo (2 + 1) (3 + 1) := ⟨by decide, by decide⟩
  have hcorrect : MemoCorrect procs memo := by
    intro i j v _ hv
    obtain ⟨-, k, rfl, rfl⟩ := exists_of_readCell_grid hv
    by_cases hfilled : i = 1 ∧ k = 2
    · obtain ⟨rfl, rfl⟩ := hfilled
      exact Or.inr (by decide)
    · exact Or.inl (if_neg hfilled)
  have hmem : ∀ p ∈ procs, 0 ≤ p.memoryRequired := by decide
  have hn : 2 ≤ procs.length := le_refl 2
  have h := dpKnapsackTopdown_memo hmem hn (show (0 : Int) ≤ 3 by decide) hdim hcorrect
  exact ⟨h.1, h.2 _ (by decide)⟩

end MiniOS
