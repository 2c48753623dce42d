import MiniOS.MergeSort
import Mathlib.Algebra.Order.Group.Int

/-! The merge sort of any segment of the array: what it leaves inside and outside
the segment, and the cells it touches. -/

namespace MiniOS

open ArrayAccess

/-! The three functions of the sort, every access of the array checked against
the cells `lo..hi`. -/

def mergeLoopsWithin (lo hi : Int) : List Process → List Process → Int → List Process →
    Option (List Process)
  | l :: L, r :: R, k, procs =>
    if l.burstTime ≤ r.burstTime then
      (writeWithin lo hi procs k l).bind (mergeLoopsWithin lo hi L (r :: R) (k + 1))
    else
      (writeWithin lo hi procs k r).bind (mergeLoopsWithin lo hi (l :: L) R (k + 1))
  | l :: L, [], k, procs => (writeWithin lo hi procs k l).bind (mergeLoopsWithin lo hi L [] (k + 1))
  | [], r :: R, k, procs => (writeWithin lo hi procs k r).bind (mergeLoopsWithin lo hi [] R (k + 1))
  | [], [], _, procs => some procs
  termination_by L R => L.length + R.length

def mergeWithin (lo hi : Int) (procs : List Process) (left mid right : Int) :
    Option (List Process) := do
  let n1 := mid - left + 1
  let n2 := right - mid
  let L ← copyWithin lo hi procs left n1
  let R ← copyWithin lo hi procs (mid + 1) n2
  mergeLoopsWithin lo hi L R left procs

def mergeSortWithin (lo hi : Int) (procs : List Process) (left right : Int) :
    Option (List Process) :=
  if left ≥ right then some procs
  else do
    let mid := left + (right - left) / 2
    let procs ← mergeSortWithin lo hi procs left mid
    let procs ← mergeSortWithin lo hi procs (mid + 1) right
    mergeWithin lo hi procs left mid right
  termination_by (right - left).toNat

section Window

variable {lo hi : Int}

theorem mergeLoopsWithin_eq {L R : List Process} {k : Int} (hlo : lo ≤ k)
    (hhi : k + L.length + R.length ≤ hi + 1) (procs : List Process) :
    mergeLoopsWithin lo hi L R k procs = mergeLoops L R k procs := by
  fun_induction mergeLoops L R k procs with
  | case1 l L r R k procs hle ih =>
    simp only [List.length_cons] at hhi ih
    rw [mergeLoopsWithin, if_pos hle, writeWithin, if_pos (by omega)]
    congr 1
    funext procs'
    exact ih procs' (by omega) (by omega)
  | case2 l L r R k procs hle ih =>
    simp only [List.length_cons] at hhi ih
    rw [mergeLoopsWithin, if_neg hle, writeWithin, if_pos (by omega)]
    congr 1
    funext procs'
    exact ih procs' (by omega) (by omega)
  | case3 l L k procs ih =>
    simp only [List.length_cons, List.length_nil] at hhi ih
    rw [mergeLoopsWithin, writeWithin, if_pos (by omega)]
    congr 1
    funext procs'
    exact ih procs' (by omega) (by omega)
  | case4 r R k procs ih =>
    simp only [List.length_cons, List.length_nil] at hhi ih
    rw [mergeLoopsWithin, writeWithin, if_pos (by omega)]
    congr 1
    funext procs'
    exact ih procs' (by omega) (by omega)
  | case5 k procs => rw [mergeLoopsWithin]

theorem mergeWithin_eq {left mid right : Int} (hleft : lo ≤ left) (hmid : left ≤ mid)
    (hmid' : mid < right) (hright : right ≤ hi) (procs : List Process) :
    mergeWithin lo hi procs left mid right = merge procs left mid right := by
  have hL : copyWithin lo hi procs left (mid - left + 1) = copy procs left (mid - left + 1) :=
    if_pos (by omega)
  have hR : copyWithin lo hi procs (mid + 1) (right - mid) = copy procs (mid + 1) (right - mid) :=
    if_pos (by omega)
  simp only [mergeWithin, merge, Option.bind_eq_bind, hL, hR]
  cases hcopy : copy procs left (mid - left + 1) with
  | none => rfl
  | some L =>
    cases hcopy' : copy procs (mid + 1) (right - mid) with
    | none => rfl
    | some R =>
      have hlen := length_of_copy hcopy
      have hlen' := length_of_copy hcopy'
      exact mergeLoopsWithin_eq hleft (by omega) procs

theorem mergeSortWithin_eq {procs : List Process} {left right : Int} (hleft : lo ≤ left)
    (hright : right ≤ hi) :
    mergeSortWithin lo hi procs left right = mergeSortProcesses procs left right := by
  fun_induction mergeSortProcesses procs left right with
  | case1 procs left right hge => rw [mergeSortWithin, if_pos hge]
  | case2 procs left right hlt mid ih ih' =>
    rw [mergeSortWithin, if_neg hlt]
    have hmid : mid = left + (right - left) / 2 := rfl
    have hfirst := ih hleft (by omega)
    have hsecond := fun procs' => ih' procs' (by omega) hright
    simp only [Option.bind_eq_bind, ← hmid, hfirst, hsecond]
    congr 1
    funext procs'
    congr 1
    funext procs''
    exact mergeWithin_eq hleft (by omega) (by omega) hright procs''

end Window

/-- `result` is `procs` with the cells `left..right` stably sorted by burst. -/
structure SortsSegment (procs result : List Process) (left right : Int) : Prop where
  length_eq : result.length = procs.length
  outside : ∀ i, i < left ∨ right < i → read result i = read procs i
  perm : (slice result left right).Perm (slice procs left right)
  sorted : (slice result left right).Pairwise (fun p q => p.burstTime ≤ q.burstTime)
  stable : ∀ burst, (slice result left right).filter (fun p => p.burstTime = burst) =
    (slice procs left right).filter (fun p => p.burstTime = burst)

theorem SortsSegment.of_append (pre seg post : List Process) {left right : Int}
    (hleft : left = pre.length) (hright : right = left + seg.length - 1) :
    SortsSegment (pre ++ seg ++ post) (pre ++ seg.mergeSort burstLE ++ post) left right := by
  have hlen : (seg.mergeSort burstLE).length = seg.length := List.length_mergeSort seg
  have hold := slice_append pre seg post hleft hright
  have hright' : right = left + (seg.mergeSort burstLE).length - 1 := by omega
  have hnew := slice_append pre (seg.mergeSort burstLE) post hleft hright'
  constructor
  case length_eq => simp only [List.length_append, hlen]
  case outside =>
    intro i hi
    exact read_congr_prefix hlen (by omega)
  case perm =>
    rw [hold, hnew]
    exact List.mergeSort_perm seg burstLE
  case sorted =>
    rw [hnew]
    exact mergeSort_sorted seg
  case stable =>
    intro burst
    rw [hold, hnew]
    exact mergeSort_stable seg burst

theorem SortsSegment.refl (procs : List Process) {left right : Int} (h : right < left) :
    SortsSegment procs procs left right := by
  have hnil : slice procs left right = [] := by
    have hzero : (right - left + 1).toNat = 0 := by omega
    rw [slice, hzero, List.take_zero]
  refine ⟨rfl, fun _ _ => rfl, List.Perm.refl _, ?_, fun _ => rfl⟩
  rw [hnil]
  exact List.Pairwise.nil

/-- For every segment, the empty ones included: the sort ends, touches only cells
of the segment and sorts it stably, the rest of the array unchanged. -/
theorem mergeSortProcesses_sorts (procs : List Process) :
    (∀ left right : Int, 0 ≤ left → right < procs.length →
      ∃ result, mergeSortProcesses procs left right = some result ∧
        mergeSortWithin left right procs left right = some result ∧
        SortsSegment procs result left right) ∧
    ∀ n : Int, 0 ≤ n → n ≤ procs.length →
      ∃ result, greedySjfSort procs n = some result ∧ SortsSegment procs result 0 (n - 1) := by
  have hall : ∀ left right : Int, 0 ≤ left → right < procs.length →
      ∃ result, mergeSortProcesses procs left right = some result ∧
        SortsSegment procs result left right := by
    intro left right hleft hright
    by_cases hempty : right < left
    · refine ⟨procs, ?_, SortsSegment.refl procs hempty⟩
      rw [mergeSortProcesses, if_pos hempty.le]
    · obtain ⟨pre, seg, post, rfl, hpre, hseg⟩ := exists_slice hleft (by omega) hright
      exact ⟨_, mergeSortProcesses_segment seg pre post left right hpre hseg,
        SortsSegment.of_append pre seg post hpre hseg⟩
  constructor
  · intro left right hleft hright
    obtain ⟨result, hrun, hsorts⟩ := hall left right hleft hright
    exact ⟨result, hrun, (mergeSortWithin_eq (le_refl left) (le_refl right)).trans hrun, hsorts⟩
  · intro n hn hle
    exact hall 0 (n - 1) (le_refl 0) (by omega)

theorem mergeSortProcesses_sorts_example :
    let procs := [processCreate 1 9 0 0, processCreate 2 4 0 0, processCreate 3 2 0 0,
      processCreate 4 4 0 0, processCreate 5 0 0 0]
    (∃ result, mergeSortProcesses procs 1 3 = some result ∧ mergeSortWithin 1 3 procs 1 3 = some result ∧
      SortsSegment procs result 1 3) ∧
    ∃ result, greedySjfSort procs 4 = some result ∧ SortsSegment procs result 0 3 := by
  intro procs
  obtain ⟨hsegment, hprefix⟩ := mergeSortProcesses_sorts procs
  exact ⟨hsegment 1 3 (by decide) (by decide), hprefix 4 (by decide) (by decide)⟩

end MiniOS
