import MiniOS.ArrayAccess
import MiniOS.Process

/-! The merge sort of the process array by burst, and the list it leaves in
the sorted segment. -/

namespace MiniOS

open ArrayAccess

/-- The three loops of `merge`: what is left of `L` and of `R` goes into the
array from cell `k` on. -/
def mergeLoops : List Process → List Process → Int → List Process → Option (List Process)
  | l :: L, r :: R, k, procs =>
    if l.burstTime ≤ r.burstTime then
      (write procs k l).bind (mergeLoops L (r :: R) (k + 1))
    else
      (write procs k r).bind (mergeLoops (l :: L) R (k + 1))
  | l :: L, [], k, procs => (write procs k l).bind (mergeLoops L [] (k + 1))
  | [], r :: R, k, procs => (write procs k r).bind (mergeLoops [] R (k + 1))
  | [], [], _, procs => some procs
  termination_by L R => L.length + R.length

def merge (procs : List Process) (left mid right : Int) : Option (List Process) := do
  let n1 := mid - left + 1
  let n2 := right - mid
  let L ← copy procs left n1
  let R ← copy procs (mid + 1) n2
  mergeLoops L R left procs

def mergeSortProcesses (procs : List Process) (left right : Int) : Option (List Process) :=
  if left ≥ right then some procs
  else do
    let mid := left + (right - left) / 2
    let procs ← mergeSortProcesses procs left mid
    let procs ← mergeSortProcesses procs (mid + 1) right
    merge procs left mid right
  termination_by (right - left).toNat

def greedySjfSort (procs : List Process) (n : Int) : Option (List Process) :=
  mergeSortProcesses procs 0 (n - 1)

/-- The order of the sort: ties go to the left half. -/
def burstLE (p q : Process) : Bool := p.burstTime ≤ q.burstTime

theorem mergeLoops_segment (L R : List Process) :
    ∀ pre old post : List Process, old.length = L.length + R.length →
      mergeLoops L R pre.length (pre ++ old ++ post) = some (pre ++ L.merge R burstLE ++ post) := by
  have hwrite : ∀ (pre old post : List Process) (o x : Process) (f : List Process → Option (List Process)),
      (write (pre ++ o :: old ++ post) pre.length x).bind f = f (pre ++ [x] ++ old ++ post) := by
    intro pre old post o x f
    rw [List.append_assoc, List.cons_append, write_append]
    simp
  have hnext : ∀ (pre : List Process) (x : Process), (pre.length : Int) + 1 = (pre ++ [x]).length := by
    simp
  fun_induction L.merge R burstLE with
  | case1 R =>
    induction R with
    | nil =>
      intro pre old post hlen
      obtain rfl := List.length_eq_zero_iff.mp hlen
      simp [mergeLoops]
    | cons r R ih =>
      intro pre old post hlen
      obtain ⟨o, old, rfl⟩ := List.exists_cons_of_length_eq_add_one hlen
      rw [mergeLoops, hwrite, hnext pre r, ih _ old post (by simpa using hlen)]
      simp
  | case2 L hL =>
    clear hL
    induction L with
    | nil =>
      intro pre old post hlen
      obtain rfl := List.length_eq_zero_iff.mp hlen
      simp [mergeLoops]
    | cons l L ih =>
      intro pre old post hlen
      obtain ⟨o, old, rfl⟩ := List.exists_cons_of_length_eq_add_one hlen
      rw [mergeLoops, hwrite, hnext pre l, ih _ old post (by simpa using hlen)]
      simp
  | case3 l L r R hle ih =>
    intro pre old post hlen
    obtain ⟨o, old, rfl⟩ : ∃ o old', old = o :: old' :=
      List.exists_cons_of_ne_nil (by rintro rfl; simp at hlen)
    have hle' : l.burstTime ≤ r.burstTime := by simpa [burstLE] using hle
    have hlen' : old.length = L.length + (r :: R).length := by
      simp only [List.length_cons] at hlen ⊢
      omega
    rw [mergeLoops, if_pos hle', hwrite, hnext pre l, ih _ old post hlen']
    simp
  | case4 l L r R hle ih =>
    intro pre old post hlen
    obtain ⟨o, old, rfl⟩ : ∃ o old', old = o :: old' :=
      List.exists_cons_of_ne_nil (by rintro rfl; simp at hlen)
    have hle' : ¬ l.burstTime ≤ r.burstTime := by simpa [burstLE] using hle
    have hlen' : old.length = (l :: L).length + R.length := by
      simp only [List.length_cons] at hlen ⊢
      omega
    rw [mergeLoops, if_neg hle', hwrite, hnext pre r, ih _ old post hlen']
    simp

theorem merge_segment (pre L R post : List Process) {left mid right : Int}
    (hleft : left = pre.length) (hmid : mid = left + L.length - 1) (hright : right = mid + R.length) :
    merge (pre ++ (L ++ R) ++ post) left mid right = some (pre ++ L.merge R burstLE ++ post) := by
  have hL : copy (pre ++ (L ++ R) ++ post) left (mid - left + 1) = some L := by
    have hc := copy_append pre (R ++ post) L
    rw [show (L.length : Int) = mid - left + 1 by omega, ← hleft] at hc
    simpa only [List.append_assoc] using hc
  have hR : copy (pre ++ (L ++ R) ++ post) (mid + 1) (right - mid) = some R := by
    have hc := copy_append (pre ++ L) post R
    rw [show (R.length : Int) = right - mid by omega,
      show ((pre ++ L).length : Int) = mid + 1 by rw [List.length_append]; omega] at hc
    simpa only [List.append_assoc] using hc
  simp only [merge, Option.bind_eq_bind, hL, Option.bind_some, hR]
  rw [hleft]
  exact mergeLoops_segment L R pre (L ++ R) post (List.length_append)

/-- The sort cuts a segment where the list sort does, so it leaves the stable
sort of the segment between the untouched rest of the array. -/
theorem mergeSortProcesses_segment (seg : List Process) :
    ∀ (pre post : List Process) (left right : Int), left = pre.length →
      right = left + seg.length - 1 →
      mergeSortProcesses (pre ++ seg ++ post) left right =
        some (pre ++ seg.mergeSort burstLE ++ post) := by
  induction hn : seg.length using Nat.strongRecOn generalizing seg with
  | _ n ih =>
    subst hn
    intro pre post left right hleft hright
    match seg, ih, hright with
    | [], _, hright =>
      have hge : left ≥ right := by simp at hright; omega
      rw [mergeSortProcesses, if_pos hge, List.mergeSort_nil]
    | [p], _, hright =>
      have hge : left ≥ right := by simp at hright; omega
      rw [mergeSortProcesses, if_pos hge, List.mergeSort_singleton]
    | p :: q :: rest, ih, hright =>
      have hlt : ¬ left ≥ right := by simp at hright; omega
      have hhalf := (List.take_append_drop ((rest.length + 2 + 1) / 2) (p :: q :: rest)).symm
      generalize hL : (p :: q :: rest).take ((rest.length + 2 + 1) / 2) = L at hhalf
      generalize hR : (p :: q :: rest).drop ((rest.length + 2 + 1) / 2) = R at hhalf
      have hlenL : L.length = (rest.length + 2 + 1) / 2 := by
        rw [← hL, List.length_take, List.length_cons, List.length_cons]
        omega
      have hlenR : R.length = rest.length + 2 - (rest.length + 2 + 1) / 2 := by
        rw [← hR, List.length_drop, List.length_cons, List.length_cons]
      have hmid : left + (right - left) / 2 = left + L.length - 1 := by
        simp only [List.length_cons] at hright
        omega
      have hend : right = left + (right - left) / 2 + R.length := by
        simp only [List.length_cons] at hright
        omega
      have hsort : (p :: q :: rest).mergeSort burstLE =
          (L.mergeSort burstLE).merge (R.mergeSort burstLE) burstLE := by
        rw [List.mergeSort]
        simp only [List.MergeSort.Internal.splitInTwo_fst,
          List.MergeSort.Internal.splitInTwo_snd, List.length_cons, hL, hR]
      have hfirst : mergeSortProcesses (pre ++ (L ++ R) ++ post) left (left + (right - left) / 2) =
          some (pre ++ (L.mergeSort burstLE ++ R) ++ post) := by
        have := ih L.length (by simp only [List.length_cons]; omega) L rfl pre (R ++ post) left _
          hleft hmid
        simpa only [List.append_assoc] using this
      have hsecond : mergeSortProcesses (pre ++ (L.mergeSort burstLE ++ R) ++ post)
          (left + (right - left) / 2 + 1) right =
          some (pre ++ (L.mergeSort burstLE ++ R.mergeSort burstLE) ++ post) := by
        have hcut : left + (right - left) / 2 + 1 = (pre ++ L.mergeSort burstLE).length := by
          rw [List.length_append, List.length_mergeSort]
          omega
        have := ih R.length (by simp only [List.length_cons]; omega) R rfl
          (pre ++ L.mergeSort burstLE) post _ right hcut (by omega)
        simpa only [List.append_assoc] using this
      rw [mergeSortProcesses, if_neg hlt, hhalf]
      simp only [Option.bind_eq_bind, hfirst, Option.bind_some, hsecond]
      rw [merge_segment pre _ _ post hleft (by rw [List.length_mergeSort]; omega)
        (by rw [List.length_mergeSort]; omega), ← hhalf, hsort]

theorem greedySjfSort_eq (procs : List Process) :
    greedySjfSort procs procs.length = some (procs.mergeSort burstLE) := by
  have := mergeSortProcesses_segment procs [] [] 0 (procs.length - 1) rfl (by omega)
  simpa [greedySjfSort] using this

theorem burstLE_trans (a b c : Process) (hab : burstLE a b) (hbc : burstLE b c) : burstLE a c := by
  simp only [burstLE, decide_eq_true_eq] at *
  omega

theorem burstLE_total (a b : Process) : burstLE a b || burstLE b a := by
  simp only [burstLE, Bool.or_eq_true, decide_eq_true_eq]
  omega

theorem mergeSort_sorted (procs : List Process) :
    (procs.mergeSort burstLE).Pairwise (fun p q => p.burstTime ≤ q.burstTime) := by
  have hs := List.pairwise_mergeSort burstLE_trans burstLE_total procs
  simpa only [burstLE, decide_eq_true_eq] using hs

/-- Records of one burst keep their order. -/
theorem mergeSort_stable (procs : List Process) (burst : Int) :
    (procs.mergeSort burstLE).filter (fun p => p.burstTime = burst) =
      procs.filter (fun p => p.burstTime = burst) := by
  have hpairs : (procs.filter (fun p => p.burstTime = burst)).Pairwise (fun p q => burstLE p q) := by
    apply List.pairwise_of_forall_mem_list
    intro p hp q hq
    have hp' : p.burstTime = burst := of_decide_eq_true (List.mem_filter.mp hp).2
    have hq' : q.burstTime = burst := of_decide_eq_true (List.mem_filter.mp hq).2
    exact decide_eq_true (Int.le_of_eq (hp'.trans hq'.symm))
  have hsub := (List.sublist_mergeSort burstLE_trans burstLE_total hpairs
    List.filter_sublist).filter (fun p => p.burstTime = burst)
  rw [List.filter_filter, List.filter_congr (fun _ _ => Bool.and_self _)] at hsub
  have hperm := (List.mergeSort_perm procs burstLE).filter (fun p => p.burstTime = burst)
  exact (hsub.eq_of_length hperm.length_eq.symm).symm

end MiniOS
