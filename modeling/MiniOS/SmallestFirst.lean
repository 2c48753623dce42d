import Mathlib.Algebra.Order.BigOperators.Group.List
import Mathlib.Algebra.Order.Group.Defs
import Mathlib.Algebra.Order.Group.Unbundled.Basic
import Mathlib.Algebra.BigOperators.Group.Finset.Basic
import Mathlib.Data.List.Perm.Subperm
import Mathlib.Order.Bounds.Defs

/-! Choosing as many weights as a capacity allows: taking the smallest first is
optimal, and no other choice of as many weights is lighter. -/

namespace SmallestFirst

variable {M : Type*} [LinearOrder M]

theorem sorted_mergeSort (ws : List M) :
    (ws.mergeSort (fun a b => a ≤ b)).Pairwise (· ≤ ·) := by
  have htrans : ∀ a b c : M, decide (a ≤ b) → decide (b ≤ c) → decide (a ≤ c) := by
    intro a b c hab hbc
    exact decide_eq_true ((of_decide_eq_true hab).trans (of_decide_eq_true hbc))
  have htotal : ∀ a b : M, decide (a ≤ b) || decide (b ≤ a) := by
    intro a b
    simpa using le_total a b
  simpa using List.pairwise_mergeSort htrans htotal ws

variable [AddCommGroup M]

/-- The weights taken from the front of a list while they fit. -/
def fill : M → List M → List M
  | _, [] => []
  | r, w :: ws => if w ≤ r then w :: fill (r - w) ws else []

/-- The selection from `ws` in ascending order. -/
def smallestFirst (ws : List M) (r : M) : List M := fill r (ws.mergeSort (fun a b => a ≤ b))

theorem fill_initial (r : M) (ws : List M) : fill r ws <+: ws := by
  induction ws generalizing r with
  | nil => exact List.prefix_refl _
  | cons w ws ih =>
    by_cases h : w ≤ r
    · rw [fill, if_pos h]
      exact (List.prefix_cons_inj w).mpr (ih _)
    · rw [fill, if_neg h]
      exact List.nil_prefix

theorem smallestFirst_perm {ws ws' : List M} (h : ws.Perm ws') (r : M) :
    smallestFirst ws r = smallestFirst ws' r := by
  have hp := ((List.mergeSort_perm ws (fun a b => a ≤ b)).trans h).trans
    (List.mergeSort_perm ws' (fun a b => a ≤ b)).symm
  have he := hp.eq_of_pairwise (fun a b _ _ hab hba => le_antisymm hab hba) (sorted_mergeSort ws)
    (sorted_mergeSort ws')
  rw [smallestFirst, smallestFirst, he]

theorem smallestFirst_subperm (ws : List M) (r : M) : (smallestFirst ws r).Subperm ws :=
  (fill_initial r _).sublist.subperm.trans (List.mergeSort_perm ws _).subperm

/-- A weight no larger than a chosen one is itself among the values chosen. -/
theorem mem_smallestFirst_of_le {ws : List M} {r b m : M} (hb : b ∈ ws)
    (hm : m ∈ smallestFirst ws r) (hle : b ≤ m) : b ∈ smallestFirst ws r := by
  obtain ⟨rest, hrest⟩ := fill_initial r (ws.mergeSort (fun a b => a ≤ b))
  have hsorted := sorted_mergeSort ws
  rw [← hrest, List.pairwise_append] at hsorted
  have hmem : b ∈ fill r (ws.mergeSort (fun a b => a ≤ b)) ++ rest := by
    rw [hrest]
    exact List.mem_mergeSort.mpr hb
  rcases List.mem_append.mp hmem with hin | hout
  · exact hin
  · rwa [le_antisymm hle (hsorted.2.2 m hm b hout)]

variable [IsOrderedAddMonoid M]

theorem sum_fill_le {r : M} (hr : 0 ≤ r) (ws : List M) : (fill r ws).sum ≤ r := by
  induction ws generalizing r with
  | nil => exact hr
  | cons w ws ih =>
    by_cases h : w ≤ r
    · rw [fill, if_pos h, List.sum_cons]
      have hrest := ih (sub_nonneg.mpr h)
      calc w + (fill (r - w) ws).sum ≤ w + (r - w) := by gcongr
        _ = r := add_sub_cancel w r
    · rw [fill, if_neg h]
      exact hr

theorem sum_take_le_of_sublist {s t : List M} (hs : s.Pairwise (· ≤ ·)) (ht : t.Sublist s) :
    (s.take t.length).sum ≤ t.sum := by
  induction s generalizing t with
  | nil => rw [List.sublist_nil.mp ht, List.length_nil, List.take_nil]
  | cons m s ih =>
    obtain ⟨hle, hs'⟩ := List.pairwise_cons.mp hs
    rcases List.sublist_cons_iff.mp ht with h | ⟨t', rfl, h⟩
    · cases t with
      | nil => exact le_refl _
      | cons x t' =>
        have hx : m ≤ x := hle x (h.subset List.mem_cons_self)
        have hrest := ih hs' ((List.sublist_cons_self x t').trans h)
        rw [List.length_cons, List.take_succ_cons, List.sum_cons, List.sum_cons]
        gcongr
    · have hrest := ih hs' h
      rw [List.length_cons, List.take_succ_cons, List.sum_cons, List.sum_cons]
      gcongr

/-- In ascending order the first weights are the lightest choice of their number. -/
theorem sum_take_le {s t : List M} (hs : s.Pairwise (· ≤ ·)) (ht : t.Subperm s) :
    (s.take t.length).sum ≤ t.sum := by
  obtain ⟨t', hp, hsub⟩ := ht
  rw [← hp.length_eq, ← hp.sum_eq]
  exact sum_take_le_of_sublist hs hsub

section Selection

variable {ws : List M} (hws : ∀ w ∈ ws, 0 ≤ w)

theorem length_le_fill {s : List M} (hs : ∀ w ∈ s, 0 ≤ w) {r : M} {k : Nat} (hk : k ≤ s.length)
    (hsum : (s.take k).sum ≤ r) : k ≤ (fill r s).length := by
  induction s generalizing r k with
  | nil => exact hk
  | cons w s ih =>
    cases k with
    | zero => exact Nat.zero_le _
    | succ k =>
      rw [List.take_succ_cons, List.sum_cons] at hsum
      have hrest : ∀ x ∈ s, 0 ≤ x := fun x hx => hs x (List.mem_cons_of_mem _ hx)
      have hpos : 0 ≤ (s.take k).sum :=
        List.sum_nonneg (fun x hx => hrest x (List.mem_of_mem_take hx))
      have hw : w ≤ r := (le_add_of_nonneg_right hpos).trans hsum
      rw [fill, if_pos hw, List.length_cons]
      exact Nat.succ_le_succ (ih hrest (Nat.le_of_succ_le_succ hk) (le_sub_iff_add_le'.mpr hsum))

theorem sum_smallestFirst_le {r : M} (hr : 0 ≤ r) (ws : List M) :
    (smallestFirst ws r).sum ≤ r := sum_fill_le hr _

include hws

theorem length_le_smallestFirst {t : List M} {r : M} (ht : t.Subperm ws) (hsum : t.sum ≤ r) :
    t.length ≤ (smallestFirst ws r).length := by
  have hp := List.mergeSort_perm ws (fun a b => a ≤ b)
  have hts := ht.trans hp.symm.subperm
  have hle := sum_take_le (sorted_mergeSort ws) hts
  exact length_le_fill (fun w hw => hws w (hp.mem_iff.mp hw)) hts.length_le (hle.trans hsum)

omit hws in
theorem sum_take_smallestFirst_le {t : List M} {r : M} (ht : t.Subperm ws)
    (hlen : t.length ≤ (smallestFirst ws r).length) :
    ((smallestFirst ws r).take t.length).sum ≤ t.sum := by
  have hts := ht.trans (List.mergeSort_perm ws (fun a b => a ≤ b)).symm.subperm
  have hle := sum_take_le (sorted_mergeSort ws) hts
  obtain ⟨rest, hrest⟩ := fill_initial r (ws.mergeSort (fun a b => a ≤ b))
  rw [smallestFirst] at hlen ⊢
  rw [← hrest, List.take_append_of_le_length hlen] at hle
  exact hle

end Selection

/-- The size of the selection is the largest one of a set of indices that fits. -/
theorem smallestFirst_isGreatest {ι : Type*} [DecidableEq ι] {indices : List ι}
    (hnodup : indices.Nodup) {w : ι → M} (hw : ∀ i ∈ indices, 0 ≤ w i) {r : M} (hr : 0 ≤ r) :
    IsGreatest {k | ∃ s : Finset ι, (∀ i ∈ s, i ∈ indices) ∧ ∑ i ∈ s, w i ≤ r ∧ s.card = k}
      (smallestFirst (indices.map w) r).length := by
  constructor
  · obtain ⟨t, hperm, hsub⟩ := smallestFirst_subperm (indices.map w) r
    obtain ⟨chosen, hchosen, rfl⟩ := List.sublist_map_iff.mp hsub
    have hd := hchosen.nodup hnodup
    refine ⟨chosen.toFinset, ?_, ?_, ?_⟩
    · intro i hi
      exact hchosen.subset (List.mem_toFinset.mp hi)
    · rw [List.sum_toFinset w hd, hperm.sum_eq]
      exact sum_smallestFirst_le hr _
    · rw [List.toFinset_card_of_nodup hd, ← hperm.length_eq, List.length_map]
  · rintro _ ⟨s, hs, hsum, rfl⟩
    have hws : ∀ x ∈ indices.map w, 0 ≤ x := by simpa using hw
    obtain ⟨t, hperm, hsub⟩ :=
      List.subperm_of_subset s.nodup_toList (fun i hi => hs i (Finset.mem_toList.mp hi))
    have hsum' : (s.toList.map w).sum ≤ r := by rwa [Finset.sum_map_toList]
    have hle := length_le_smallestFirst hws ⟨t.map w, hperm.map w, hsub.map w⟩ hsum'
    rwa [List.length_map, Finset.length_toList] at hle

end SmallestFirst
