import MiniOS.CompletionCost
import Mathlib.Algebra.BigOperators.Group.List.Basic
import Mathlib.Algebra.BigOperators.Ring.List
import Mathlib.Tactic.Abel

/-! Sums over the pairs of a list, each element with every later one. The times at which
jobs complete are such sums, since a job waits for each of the others some while. -/

namespace PairSums

open CompletionCost

variable {α β M : Type*}

section Monoid

variable [AddCommMonoid M]

def pairSum (f : α → α → M) : List α → M
  | [] => 0
  | a :: l => (l.map (f a)).sum + pairSum f l

theorem pairSum_cons (f : α → α → M) (a : α) (l : List α) :
    pairSum f (a :: l) = (l.map (f a)).sum + pairSum f l := rfl

theorem pairSum_add (f g : α → α → M) (l : List α) :
    pairSum (fun a b => f a b + g a b) l = pairSum f l + pairSum g l := by
  induction l with
  | nil => exact (add_zero 0).symm
  | cons a l ih =>
    rw [pairSum_cons, pairSum_cons, pairSum_cons, ih, List.sum_map_add, add_add_add_comm]

theorem pairSum_congr {f g : α → α → M} {l : List α} (h : l.Pairwise (fun a b => f a b = g a b)) :
    pairSum f l = pairSum g l := by
  induction h with
  | nil => rfl
  | cons ha _ ih => rw [pairSum_cons, pairSum_cons, ih, List.map_congr_left ha]

theorem pairSum_perm {f : α → α → M} (hf : ∀ a b, f a b = f b a) {l l' : List α}
    (h : l.Perm l') : pairSum f l = pairSum f l' := by
  induction h with
  | nil => rfl
  | cons a hl ih => rw [pairSum_cons, pairSum_cons, ih, (hl.map (f a)).sum_eq]
  | swap a b l =>
    simp only [pairSum_cons, List.map_cons, List.sum_cons, hf b a]
    abel
  | trans _ _ ih₁ ih₂ => exact ih₁.trans ih₂

/-- Run one after another, each job delays every later one by its length. -/
theorem cost_eq_pairSum (t : M) (bs : List M) :
    cost t bs = bs.length • t + bs.sum + pairSum (fun a _ => a) bs := by
  induction bs generalizing t with
  | nil => simp [cost, completions, pairSum]
  | cons b bs ih =>
    have hconst : (bs.map (fun _ => b)).sum = bs.length • b := by
      rw [List.map_const', List.sum_replicate]
    rw [cost_cons, ih, pairSum_cons, hconst, List.length_cons, List.sum_cons, succ_nsmul, nsmul_add]
    abel

end Monoid

section Ordered

variable [AddCommMonoid M] [PartialOrder M] [IsOrderedAddMonoid M]

theorem pairSum_nonneg {f : α → α → M} (hf : ∀ a b, 0 ≤ f a b) (l : List α) :
    0 ≤ pairSum f l := by
  induction l with
  | nil => exact le_refl 0
  | cons a l ih =>
    have hrow : ∀ x ∈ l.map (f a), 0 ≤ x := List.forall_mem_map.mpr (fun b _ => hf a b)
    exact add_nonneg (List.sum_nonneg hrow) ih

theorem pairSum_eq_zero_iff {f : α → α → M} (hf : ∀ a b, 0 ≤ f a b) {l : List α} :
    pairSum f l = 0 ↔ l.Pairwise (fun a b => f a b = 0) := by
  induction l with
  | nil => exact iff_of_true rfl List.Pairwise.nil
  | cons a l ih =>
    have hrow : ∀ x ∈ l.map (f a), 0 ≤ x := List.forall_mem_map.mpr (fun b _ => hf a b)
    rw [pairSum_cons, add_eq_zero_iff_of_nonneg (List.sum_nonneg hrow) (pairSum_nonneg hf l), ih,
      List.pairwise_cons]
    refine and_congr_left fun _ => ⟨fun hsum b hb => ?_, fun hzero => ?_⟩
    · exact List.all_zero_of_le_zero_le_of_sum_eq_zero hrow hsum (List.mem_map_of_mem hb)
    · exact List.sum_eq_zero (List.forall_mem_map.mpr hzero)

end Ordered

theorem cost_of_sorted [AddCommMonoid M] [LinearOrder M] {bs : List M}
    (h : bs.Pairwise (· ≤ ·)) : cost 0 bs = bs.sum + pairSum min bs := by
  have hmin : bs.Pairwise (fun a b => a = min a b) := h.imp (fun hle => (min_eq_left hle).symm)
  rw [cost_eq_pairSum, nsmul_zero, zero_add, pairSum_congr hmin]

end PairSums
