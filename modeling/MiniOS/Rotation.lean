import Mathlib.Algebra.Order.BigOperators.Group.List
import Mathlib.Algebra.Order.Group.Nat
import MiniOS.WhileLoop

/-! A rotating queue of jobs: the front job is worked on and what is left of it,
if anything, goes to the back. Turn by turn the jobs are visited in the order in
which whole rounds over the queue visit them. -/

namespace Rotation

open WhileLoop

variable {α σ : Type*} (f : α → Option α)

/-- The queue after `n` rounds. -/
def rounds : Nat → List α → List α
  | 0, w => w
  | n + 1, w => rounds n (w.filterMap f)

/-- The jobs `n` rounds visit, as they were when their turn came. -/
def visits : Nat → List α → List α
  | 0, _ => []
  | n + 1, w => w ++ visits n (w.filterMap f)

variable {f}

theorem visits_nil (n : Nat) : visits f n [] = [] := by
  induction n with
  | zero => rfl
  | succ n ih => rw [visits, List.filterMap_nil, ih, List.append_nil]

/-- Work that every turn reduces runs out after finitely many rounds. -/
theorem exists_rounds_nil (μ : α → Nat) (hμ : ∀ x y, f x = some y → μ y < μ x) (w : List α) :
    ∃ n, rounds f n w = [] := by
  have hbound : ∀ n (w : List α), (∀ x ∈ w, μ x < n) → rounds f n w = [] := by
    intro n
    induction n with
    | zero =>
      intro w hw
      exact List.eq_nil_iff_forall_not_mem.mpr (fun x hx => Nat.not_lt_zero _ (hw x hx))
    | succ n ih =>
      intro w hw
      apply ih
      intro y hy
      obtain ⟨x, hx, hxy⟩ := List.mem_filterMap.mp hy
      have := hw x hx
      have := hμ x y hxy
      omega
  refine ⟨(w.map μ).sum + 1, hbound _ w ?_⟩
  intro x hx
  exact Nat.lt_succ_of_le (List.le_sum_of_mem (List.mem_map_of_mem hx))

variable {cond : σ → Bool} {body : σ → σ}

section Turns

variable {inv : σ → List α → List α → Prop}
  (hcond : ∀ s w v, inv s w v → (cond s = true ↔ w ≠ []))
  (hturn : ∀ s x w v, inv s (x :: w) v → inv (body s) (w ++ (f x).toList) (v ++ [x]))

include hcond hturn

/-- A loop that makes one turn an iteration, run over a prefix of its queue. -/
theorem head_of_turns (l : List α) {s : σ} {r v : List α} (h : inv s (l ++ r) v) :
    ∃ t, Head cond body s t ∧ inv t (r ++ l.filterMap f) (v ++ l) := by
  induction l generalizing s r v with
  | nil => exact ⟨s, .refl, by simpa using h⟩
  | cons x l ih =>
    have hc : cond s = true := (hcond _ _ _ h).mpr (List.cons_ne_nil _ _)
    have hs := hturn _ _ _ _ h
    rw [List.append_eq, List.append_assoc] at hs
    obtain ⟨t, ht, hinv⟩ := ih hs
    refine ⟨t, ht.head ⟨hc, rfl⟩, ?_⟩
    have hf : (x :: l).filterMap f = (f x).toList ++ l.filterMap f := by
      cases hx : f x <;> simp [hx]
    rw [hf]
    simpa only [List.append_assoc, List.singleton_append] using hinv

theorem returns_of_turns {n : Nat} {s : σ} {w v : List α} (h : inv s w v)
    (hn : rounds f n w = []) : ∃ t, Returns cond body s t ∧ inv t [] (v ++ visits f n w) := by
  induction n generalizing s w v with
  | zero =>
    obtain rfl : w = [] := hn
    have hc : cond s = false := by
      rw [← Bool.not_eq_true, hcond _ _ _ h]
      simp
    exact ⟨s, .of_not hc, by simpa [visits] using h⟩
  | succ n ih =>
    obtain ⟨t, ht, hinv⟩ := head_of_turns hcond hturn w (r := []) (by simpa using h)
    obtain ⟨u, hu, hend⟩ := ih (by simpa using hinv) hn
    exact ⟨u, hu.of_head ht, by simpa [visits] using hend⟩

end Turns

section Rounds

variable {inv : σ → List α → List α → Prop}
  (hcond : ∀ s w v, inv s w v → (cond s = true ↔ w ≠ []))
  (hround : ∀ s w v, inv s w v → inv (body s) (w.filterMap f) (v ++ w))

include hcond hround

theorem returns_of_rounds {n : Nat} {s : σ} {w v : List α} (h : inv s w v)
    (hn : rounds f n w = []) : ∃ t, Returns cond body s t ∧ inv t [] (v ++ visits f n w) := by
  induction n generalizing s w v with
  | zero =>
    obtain rfl : w = [] := hn
    have hc : cond s = false := by
      rw [← Bool.not_eq_true, hcond _ _ _ h]
      simp
    exact ⟨s, .of_not hc, by simpa [visits] using h⟩
  | succ n ih =>
    by_cases hw : w = []
    · have hc : cond s = false := by
        rw [← Bool.not_eq_true, hcond _ _ _ h]
        exact not_not.mpr hw
      obtain rfl := hw
      exact ⟨s, .of_not hc, by rwa [visits_nil, List.append_nil]⟩
    · obtain ⟨t, ht, hinv⟩ := ih (hround _ _ _ h) hn
      rw [List.append_assoc] at hinv
      exact ⟨t, .of_body ((hcond _ _ _ h).mpr hw) ht, hinv⟩

end Rounds

end Rotation
