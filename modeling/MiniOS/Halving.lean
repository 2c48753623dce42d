import Mathlib.Data.Nat.Log
import Mathlib.Tactic.Ring

/-! The recurrence of an algorithm that halves its input and passes over the whole
of it once, in closed form. -/

namespace Halving

/-- `T(n) = T(⌈n / 2⌉) + T(⌊n / 2⌋) + n` from two elements on. -/
def work (n : Nat) : Nat :=
  if 2 ≤ n then work ((n + 1) / 2) + work (n / 2) + n else 0
  termination_by n

theorem work_of_two_le {n : Nat} (h : 2 ≤ n) :
    work n = work ((n + 1) / 2) + work (n / 2) + n := by
  rw [work, if_pos h]

theorem work_of_lt_two {n : Nat} (h : n < 2) : work n = 0 := by
  rw [work, if_neg (Nat.not_le.mpr h)]

/-- Both exponents that fit a power of two give the same value, so that the two halves,
which may lie on different sides of one, can share theirs. -/
theorem work_add_pow {n k : Nat} (hle : n ≤ 2 ^ k) (hge : 2 ^ k ≤ 2 * n) :
    work n + 2 ^ k = n * k + n := by
  induction n using Nat.strongRecOn generalizing k with
  | _ n ih =>
    have hk : 0 < 2 ^ k := Nat.two_pow_pos k
    by_cases hn : 2 ≤ n
    · obtain ⟨j, rfl⟩ : ∃ j, k = j + 1 := by
        refine Nat.exists_eq_succ_of_ne_zero ?_
        rintro rfl
        rw [pow_zero] at hle
        omega
      rw [pow_succ] at hle hge
      have heven : 2 ^ j ≤ 2 * (n / 2) := by
        cases j with
        | zero =>
          rw [pow_zero]
          omega
        | succ i =>
          rw [pow_succ] at hge ⊢
          omega
      have hupper := ih ((n + 1) / 2) (by omega) (k := j) (by omega) (by omega)
      have hlower := ih (n / 2) (by omega) (k := j) (by omega) heven
      have hsplit : (n + 1) / 2 + n / 2 = n := by omega
      calc work n + 2 ^ (j + 1)
          = (work ((n + 1) / 2) + 2 ^ j) + (work (n / 2) + 2 ^ j) + n := by
            rw [work_of_two_le hn, pow_succ]
            ring
        _ = ((n + 1) / 2 + n / 2) * (j + 1) + n := by
            rw [hupper, hlower]
            ring
        _ = n * (j + 1) + n := by rw [hsplit]
    · obtain rfl : n = 1 := by omega
      rw [work_of_lt_two (by omega), Nat.zero_add, Nat.one_mul]
      cases k with
      | zero => rfl
      | succ j =>
        rw [pow_succ] at hge ⊢
        have hj : j = 0 := by
          by_contra hne
          have hpow := Nat.one_lt_two_pow hne
          omega
        rw [hj]
        rfl

theorem pow_clog_le {n : Nat} (h : 1 ≤ n) : 2 ^ Nat.clog 2 n ≤ 2 * n := by
  by_cases hone : n = 1
  · rw [hone, Nat.clog_one_right]
    omega
  · have hn : 1 < n := by omega
    obtain ⟨k, hk⟩ := Nat.exists_eq_succ_of_ne_zero (Nat.clog_pos Nat.one_lt_two hn).ne'
    have hlt := Nat.pow_pred_clog_lt_self Nat.one_lt_two hn
    rw [hk, Nat.pred_succ] at hlt
    rw [hk, Nat.pow_succ]
    omega

theorem work_add_pow_clog {n : Nat} (h : 1 ≤ n) :
    work n + 2 ^ Nat.clog 2 n = n * Nat.clog 2 n + n :=
  work_add_pow (Nat.le_pow_clog Nat.one_lt_two n) (pow_clog_le h)

end Halving
