import MiniOS.Counting
import MiniOS.Halving
import MiniOS.MergeSort

/-! What the merge sort of the process array costs: comparisons of bursts, writes to the
array, and the most cells its two temporary arrays hold at once. -/

namespace MiniOS

open ArrayAccess Counting

structure SortCost where
  comparisons : Nat
  writes : Nat
  peak : Nat

namespace SortCost

instance : Zero SortCost := ⟨⟨0, 0, 0⟩⟩

instance : Add SortCost :=
  ⟨fun c d => ⟨c.comparisons + d.comparisons, c.writes + d.writes, max c.peak d.peak⟩⟩

@[simp] theorem comparisons_zero : (0 : SortCost).comparisons = 0 := rfl

@[simp] theorem comparisons_add (c d : SortCost) :
    (c + d).comparisons = c.comparisons + d.comparisons := rfl

@[simp] theorem writes_add (c d : SortCost) : (c + d).writes = c.writes + d.writes := rfl

@[simp] theorem peak_add (c d : SortCost) : (c + d).peak = max c.peak d.peak := rfl

instance : AddZeroClass SortCost where
  zero_add c := by
    show SortCost.mk (0 + c.comparisons) (0 + c.writes) (max 0 c.peak) = c
    rw [Nat.zero_add, Nat.zero_add, Nat.zero_max]
  add_zero c := by
    show SortCost.mk (c.comparisons + 0) (c.writes + 0) (max c.peak 0) = c
    rw [Nat.add_zero, Nat.add_zero, Nat.max_zero]

end SortCost

/-- `merge_sort_processes` and `merge` again, with a charge for each comparison, each
`procs[k++] = …` and the two calls of `malloc`. -/
def mergeLoopsCounted : List Process → List Process → Int → List Process →
    Program SortCost (List Process)
  | l :: L, r :: R, k, procs =>
    if l.burstTime ≤ r.burstTime then
      charge ⟨1, 1, 0⟩ ((write procs k l).bind (mergeLoopsCounted L (r :: R) (k + 1)))
    else
      charge ⟨1, 1, 0⟩ ((write procs k r).bind (mergeLoopsCounted (l :: L) R (k + 1)))
  | l :: L, [], k, procs =>
    charge ⟨0, 1, 0⟩ ((write procs k l).bind (mergeLoopsCounted L [] (k + 1)))
  | [], r :: R, k, procs =>
    charge ⟨0, 1, 0⟩ ((write procs k r).bind (mergeLoopsCounted [] R (k + 1)))
  | [], [], _, procs => free (some procs)
  termination_by L R => L.length + R.length

def mergeCounted (procs : List Process) (left mid right : Int) :
    Program SortCost (List Process) :=
  let n1 := mid - left + 1
  let n2 := right - mid
  andThen (free (copy procs left n1)) (fun L =>
    andThen (free (copy procs (mid + 1) n2)) (fun R =>
      charge ⟨0, 0, L.length + R.length⟩ (mergeLoopsCounted L R left procs)))

def mergeSortProcessesCounted (procs : List Process) (left right : Int) :
    Program SortCost (List Process) :=
  if left ≥ right then free (some procs)
  else
    let mid := left + (right - left) / 2
    andThen (mergeSortProcessesCounted procs left mid) (fun procs =>
      andThen (mergeSortProcessesCounted procs (mid + 1) right) (fun procs =>
        mergeCounted procs left mid right))
  termination_by (right - left).toNat

theorem erase_mergeLoops (L R : List Process) (k : Int) (procs : List Process) :
    erase (mergeLoopsCounted L R k procs) = mergeLoops L R k procs := by
  fun_induction mergeLoops L R k procs with
  | case1 l L r R k procs hle ih =>
    rw [mergeLoopsCounted, if_pos hle, erase_charge]
    cases write procs k l with
    | none => rfl
    | some procs' => exact ih procs'
  | case2 l L r R k procs hle ih =>
    rw [mergeLoopsCounted, if_neg hle, erase_charge]
    cases write procs k r with
    | none => rfl
    | some procs' => exact ih procs'
  | case3 l L k procs ih =>
    rw [mergeLoopsCounted, erase_charge]
    cases write procs k l with
    | none => rfl
    | some procs' => exact ih procs'
  | case4 r R k procs ih =>
    rw [mergeLoopsCounted, erase_charge]
    cases write procs k r with
    | none => rfl
    | some procs' => exact ih procs'
  | case5 k procs => rw [mergeLoopsCounted, erase_free]

theorem erase_merge (procs : List Process) (left mid right : Int) :
    erase (mergeCounted procs left mid right) = merge procs left mid right := by
  simp only [mergeCounted, erase_andThen, erase_free, erase_charge, erase_mergeLoops]
  rfl

theorem erase_mergeSortProcesses (procs : List Process) (left right : Int) :
    erase (mergeSortProcessesCounted procs left right) = mergeSortProcesses procs left right := by
  fun_induction mergeSortProcesses procs left right with
  | case1 procs left right hge => rw [mergeSortProcessesCounted, if_pos hge, erase_free]
  | case2 procs left right hge mid ih₁ ih₂ =>
    rw [mergeSortProcessesCounted, if_neg hge]
    simp only [erase_andThen, erase_merge]
    have hsecond : (fun procs => (erase (mergeSortProcessesCounted procs (mid + 1) right)).bind
        (fun procs => merge procs left mid right)) =
        fun procs => (mergeSortProcesses procs (mid + 1) right).bind
          (fun procs => merge procs left mid right) := by
      funext procs
      rw [ih₂]
    exact congrArg₂ Option.bind ih₁ hsecond

theorem mergeLoopsCounted_cost {L R : List Process} {k : Int} {procs out : List Process}
    {cost : SortCost} (h : mergeLoopsCounted L R k procs = some (out, cost)) :
    cost.writes = L.length + R.length ∧ cost.comparisons ≤ L.length + R.length - 1 ∧
      cost.peak = 0 := by
  fun_induction mergeLoopsCounted L R k procs generalizing out cost with
  | case1 l L r R k procs hle ih =>
    obtain ⟨next, c, -, hnext, rfl⟩ := charge_bind_eq_some.mp h
    obtain ⟨hwrites, hcomparisons, hpeak⟩ := ih next hnext
    simp only [SortCost.writes_add, SortCost.comparisons_add, SortCost.peak_add, List.length_cons]
      at hwrites hcomparisons ⊢
    omega
  | case2 l L r R k procs hle ih =>
    obtain ⟨next, c, -, hnext, rfl⟩ := charge_bind_eq_some.mp h
    obtain ⟨hwrites, hcomparisons, hpeak⟩ := ih next hnext
    simp only [SortCost.writes_add, SortCost.comparisons_add, SortCost.peak_add, List.length_cons]
      at hwrites hcomparisons ⊢
    omega
  | case3 l L k procs ih =>
    obtain ⟨next, c, -, hnext, rfl⟩ := charge_bind_eq_some.mp h
    obtain ⟨hwrites, hcomparisons, hpeak⟩ := ih next hnext
    simp only [SortCost.writes_add, SortCost.comparisons_add, SortCost.peak_add, List.length_cons,
      List.length_nil] at hwrites hcomparisons ⊢
    omega
  | case4 r R k procs ih =>
    obtain ⟨next, c, -, hnext, rfl⟩ := charge_bind_eq_some.mp h
    obtain ⟨hwrites, hcomparisons, hpeak⟩ := ih next hnext
    simp only [SortCost.writes_add, SortCost.comparisons_add, SortCost.peak_add, List.length_cons,
      List.length_nil] at hwrites hcomparisons ⊢
    omega
  | case5 k procs =>
    obtain ⟨-, rfl⟩ := free_eq_some.mp h
    exact ⟨rfl, Nat.zero_le _, rfl⟩

theorem mergeCounted_cost {procs out : List Process} {left mid right : Int} {cost : SortCost}
    (h : mergeCounted procs left mid right = some (out, cost)) :
    (cost.writes : Int) = right - left + 1 ∧ cost.comparisons ≤ cost.writes - 1 ∧
      cost.peak = cost.writes := by
  rw [mergeCounted, andThen_free_eq_some] at h
  obtain ⟨L, hL, hrest⟩ := h
  rw [andThen_free_eq_some] at hrest
  obtain ⟨R, hR, hcharged⟩ := hrest
  obtain ⟨c, hloops, rfl⟩ := charge_eq_some.mp hcharged
  obtain ⟨hwrites, hcomparisons, hpeak⟩ := mergeLoopsCounted_cost hloops
  have hlenL := length_of_copy hL
  have hlenR := length_of_copy hR
  simp only [SortCost.writes_add, SortCost.comparisons_add, SortCost.peak_add]
  omega

/-- The writes follow the recurrence of the halved segment; a merge saves at least one
comparison, and there is one merge less than there are cells. -/
theorem mergeSortProcessesCounted_cost (procs : List Process) (left right : Int) :
    ∀ out cost, mergeSortProcessesCounted procs left right = some (out, cost) →
      cost.writes = Halving.work (right - left + 1).toNat ∧
        cost.comparisons + ((right - left + 1).toNat - 1) ≤
          Halving.work (right - left + 1).toNat ∧
        cost.peak ≤ (right - left + 1).toNat := by
  fun_induction mergeSortProcesses procs left right with
  | case1 procs left right hge =>
    intro out cost h
    rw [mergeSortProcessesCounted, if_pos hge] at h
    obtain ⟨-, rfl⟩ := free_eq_some.mp h
    have hn : (right - left + 1).toNat < 2 := by omega
    rw [Halving.work_of_lt_two hn]
    refine ⟨rfl, ?_, Nat.zero_le _⟩
    rw [SortCost.comparisons_zero]
    omega
  | case2 procs left right hge mid ih₁ ih₂ =>
    intro out cost h
    rw [mergeSortProcessesCounted, if_neg hge, andThen_eq_some] at h
    obtain ⟨half, c, d, hfirst, hrest, rfl⟩ := h
    rw [andThen_eq_some] at hrest
    obtain ⟨halves, e, f, hsecond, hmerge, rfl⟩ := hrest
    obtain ⟨hwrites₁, hcomparisons₁, hpeak₁⟩ := ih₁ _ _ hfirst
    obtain ⟨hwrites₂, hcomparisons₂, hpeak₂⟩ := ih₂ half _ _ hsecond
    obtain ⟨hwrites, hcomparisons, hpeak⟩ := mergeCounted_cost hmerge
    obtain ⟨n, hn⟩ : ∃ n, (right - left + 1).toNat = n := ⟨_, rfl⟩
    have hupper : (mid - left + 1).toNat = (n + 1) / 2 := by omega
    have hlower : (right - (mid + 1) + 1).toNat = n / 2 := by omega
    rw [hupper] at hwrites₁ hcomparisons₁ hpeak₁
    rw [hlower] at hwrites₂ hcomparisons₂ hpeak₂
    rw [hn, Halving.work_of_two_le (by omega)]
    simp only [SortCost.writes_add, SortCost.comparisons_add, SortCost.peak_add]
    omega

/-- The sort of `n` cells writes `n ⌈log₂ n⌉ + n - 2 ^ ⌈log₂ n⌉` of them, compares less often
and needs no more than `n` cells beside the array. -/
theorem mergeSortProcesses_cost (procs : List Process) {left right : Int} (hleft : 0 ≤ left)
    (hright : right < procs.length) :
    let n := (right - left + 1).toNat
    ∃ result cost, mergeSortProcesses procs left right = some result ∧
      mergeSortProcessesCounted procs left right = some (result, cost) ∧
      cost.writes = n * Nat.clog 2 n + n - 2 ^ Nat.clog 2 n ∧
      cost.comparisons ≤ n * Nat.clog 2 n + 1 - 2 ^ Nat.clog 2 n ∧ cost.peak ≤ n := by
  intro n
  have hresult : ∃ result, mergeSortProcesses procs left right = some result := by
    by_cases hempty : right < left
    · exact ⟨procs, by rw [mergeSortProcesses, if_pos hempty.le]⟩
    · obtain ⟨pre, seg, post, rfl, hpre, hseg⟩ := exists_slice hleft (by omega) hright
      exact ⟨_, mergeSortProcesses_segment seg pre post left right hpre hseg⟩
  obtain ⟨result, hrun⟩ := hresult
  obtain ⟨cost, hcounted⟩ := exists_cost ((erase_mergeSortProcesses procs left right).trans hrun)
  obtain ⟨hwrites, hcomparisons, hpeak⟩ :=
    mergeSortProcessesCounted_cost procs left right result cost hcounted
  refine ⟨result, cost, hrun, hcounted, ?_⟩
  have hdef : (right - left + 1).toNat = n := rfl
  rw [hdef] at hwrites hcomparisons hpeak
  clear_value n
  by_cases hn : 1 ≤ n
  · have hwork := Halving.work_add_pow_clog hn
    omega
  · obtain rfl : n = 0 := by omega
    rw [Halving.work_of_lt_two Nat.zero_lt_two] at hwrites hcomparisons
    rw [Nat.clog_zero_right]
    omega

theorem mergeSortProcesses_cost_example :
    let procs := [processCreate 1 9 0 0, processCreate 2 4 0 0, processCreate 3 2 0 0,
      processCreate 4 4 0 0, processCreate 5 0 0 0]
    ∃ result cost, mergeSortProcesses procs 0 4 = some result ∧
      mergeSortProcessesCounted procs 0 4 = some (result, cost) ∧ cost.writes = 12 ∧
      cost.comparisons ≤ 8 ∧ cost.peak ≤ 5 := by
  intro procs
  have hlog : Nat.clog 2 5 = 3 := rfl
  have hcost := mergeSortProcesses_cost procs (le_refl 0) (show (4 : Int) < 5 by decide)
  simpa [hlog] using hcost

end MiniOS
