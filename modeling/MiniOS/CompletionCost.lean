import Mathlib.Algebra.Order.BigOperators.Group.List
import Mathlib.Data.List.Pairwise
import Mathlib.Algebra.Ring.Int.Defs

/-! Jobs run one after another: their completion times, and the exchange
argument by which shortest-first minimises the sum of these times. -/

namespace CompletionCost

variable {M : Type*} [AddCommMonoid M]

/-- The clock at the end of each job when the first one starts at `t`. -/
def completions (t : M) : List M → List M
  | [] => []
  | b :: bs => (t + b) :: completions (t + b) bs

def cost (t : M) (bs : List M) : M := (completions t bs).sum

theorem cost_cons (t b : M) (bs : List M) : cost t (b :: bs) = (t + b) + cost (t + b) bs := rfl

theorem completions_append (t : M) (as bs : List M) :
    completions t (as ++ bs) = completions t as ++ completions (t + as.sum) bs := by
  induction as generalizing t with
  | nil => simp [completions]
  | cons a as ih => simp [completions, ih, add_assoc]

variable [PartialOrder M] [IsOrderedAddMonoid M]

/-- Moving a job in front of jobs that are no shorter does not raise the cost. -/
theorem cost_move_front {m : M} {as : List M} (h : ∀ a ∈ as, m ≤ a) (t : M) (bs : List M) :
    cost t (m :: (as ++ bs)) ≤ cost t (as ++ m :: bs) := by
  induction as generalizing t with
  | nil => exact le_refl _
  | cons a as ih =>
    have hm : m ≤ a := h a List.mem_cons_self
    have hrest := ih (fun x hx => h x (List.mem_cons_of_mem _ hx)) (t + a)
    calc cost t (m :: (a :: as ++ bs))
        = (t + m) + ((t + a + m) + cost (t + a + m) (as ++ bs)) := by
          rw [List.cons_append, cost_cons, cost_cons, add_right_comm t m a]
      _ ≤ (t + a) + ((t + a + m) + cost (t + a + m) (as ++ bs)) := by gcongr
      _ = (t + a) + cost (t + a) (m :: (as ++ bs)) := by rw [cost_cons]
      _ ≤ (t + a) + cost (t + a) (as ++ m :: bs) := by gcongr
      _ = cost t (a :: as ++ m :: bs) := by rw [List.cons_append, cost_cons]

theorem cost_le_of_sorted {l l' : List M} (hs : l.Pairwise (· ≤ ·)) (hp : l'.Perm l) (t : M) :
    cost t l ≤ cost t l' := by
  induction l generalizing l' t with
  | nil => rw [hp.eq_nil]
  | cons m l ih =>
    obtain ⟨hle, hl⟩ := List.pairwise_cons.mp hs
    obtain ⟨as, bs, rfl⟩ := List.append_of_mem (hp.mem_iff.mpr List.mem_cons_self)
    have hrest : (as ++ bs).Perm l := (List.perm_middle.symm.trans hp).cons_inv
    have hm : ∀ a ∈ as, m ≤ a := fun a ha => hle a (hrest.mem_iff.mp (List.mem_append_left _ ha))
    calc cost t (m :: l) = (t + m) + cost (t + m) l := cost_cons t m l
      _ ≤ (t + m) + cost (t + m) (as ++ bs) := by
          have := ih hl hrest (t + m)
          gcongr
      _ = cost t (m :: (as ++ bs)) := (cost_cons t m _).symm
      _ ≤ cost t (as ++ m :: bs) := cost_move_front hm t bs

end CompletionCost
