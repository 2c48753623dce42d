import Mathlib.Data.Int.Log
import Mathlib.Data.Rat.Floor
import Mathlib.Algebra.Order.Round
import Mathlib.Tactic.Linarith
import Mathlib.Tactic.Positivity

/-! Binary floating point: rounding of a rational to the nearest number of a format,
ties to even, and the truncation that converts back to an integer. Formats have no
largest number; overflow is for the user to exclude. -/

namespace FloatRounding

/-- The numbers `m * 2 ^ e` with `|m| ≤ 2 ^ precision` and `minExponent ≤ e`. -/
structure Format where
  precision : Nat
  minExponent : Int

def nearestEven (x : ℚ) : Int :=
  if x - ⌊x⌋ < 1 / 2 then ⌊x⌋
  else if 1 / 2 < x - ⌊x⌋ then ⌊x⌋ + 1
  else if ⌊x⌋ % 2 = 0 then ⌊x⌋
  else ⌊x⌋ + 1

/-- Conversion to an integer type: toward zero. -/
def truncate (x : ℚ) : Int := if 0 ≤ x then ⌊x⌋ else ⌈x⌉

theorem nearestEven_near (x : ℚ) : |(nearestEven x : ℚ) - x| ≤ 1 / 2 := by
  have hle := Int.floor_le x
  have hlt := Int.lt_floor_add_one x
  rw [nearestEven, abs_le]
  split_ifs with h₁ h₂ h₃
  · constructor <;> linarith
  · push_cast
    constructor <;> linarith
  · constructor <;> linarith
  · push_cast
    constructor <;> linarith

theorem nearestEven_intCast (n : Int) : nearestEven n = n := by
  simp [nearestEven]

namespace Format

variable (F : Format)

/-- The exponent of the last place of the numbers around `x`. -/
def exponent (x : ℚ) : Int := max (Int.log 2 |x| - (F.precision - 1)) F.minExponent

def round (x : ℚ) : ℚ := nearestEven (x / 2 ^ F.exponent x) * 2 ^ F.exponent x

theorem round_near (x : ℚ) : |F.round x - x| ≤ 2 ^ F.exponent x / 2 := by
  have hpos : (0 : ℚ) < 2 ^ F.exponent x := zpow_pos two_pos _
  have hx : F.round x - x =
      (nearestEven (x / 2 ^ F.exponent x) - x / 2 ^ F.exponent x) * 2 ^ F.exponent x := by
    rw [sub_mul, div_mul_cancel₀ x hpos.ne']
    rfl
  rw [hx, abs_mul, abs_of_pos hpos]
  have hnear := mul_le_mul_of_nonneg_right (nearestEven_near (x / 2 ^ F.exponent x)) hpos.le
  linarith

/-- Away from the smallest numbers the error is half a unit of the leading place. -/
theorem round_relative {x : ℚ} (h : (2 : ℚ) ^ (F.minExponent + (F.precision - 1)) ≤ |x|) :
    |F.round x - x| ≤ |x| / 2 ^ F.precision := by
  have hpos : 0 < |x| := lt_of_lt_of_le (zpow_pos two_pos _) h
  have hlog : F.minExponent + (F.precision - 1) ≤ Int.log 2 |x| :=
    (Int.zpow_le_iff_le_log (by decide) hpos).mp (by exact_mod_cast h)
  have he : F.exponent x = Int.log 2 |x| - (F.precision - 1) := max_eq_left (by omega)
  have hle : (2 : ℚ) ^ Int.log 2 |x| ≤ |x| := by
    exact_mod_cast Int.zpow_log_le_self (by decide : 1 < 2) hpos
  calc |F.round x - x| ≤ 2 ^ F.exponent x / 2 := F.round_near x
    _ = 2 ^ Int.log 2 |x| / 2 ^ F.precision := by
      have hsplit : F.exponent x = Int.log 2 |x| - F.precision + 1 := by omega
      rw [hsplit, zpow_add₀ two_ne_zero, zpow_sub₀ two_ne_zero, zpow_one, zpow_natCast]
      ring
    _ ≤ |x| / 2 ^ F.precision := by gcongr

/-- Integers that fit in the significand are numbers of the format. -/
theorem round_intCast {n : Int} (he : F.minExponent ≤ 0) (hn : |n| < 2 ^ F.precision) :
    F.round n = n := by
  rcases eq_or_ne n 0 with rfl | hne
  · simp [round, nearestEven]
  · have hpos : (0 : ℚ) < |(n : ℚ)| := abs_pos.mpr (Int.cast_ne_zero.mpr hne)
    have hlog : Int.log 2 |(n : ℚ)| < F.precision := by
      apply (Int.lt_zpow_iff_log_lt (by decide) hpos).mp
      rw [zpow_natCast]
      exact_mod_cast hn
    obtain ⟨k, hk⟩ : ∃ k : Nat, F.exponent n = -k :=
      ⟨(-F.exponent n).toNat, by have : F.exponent n ≤ 0 := max_le (by omega) he; omega⟩
    have hquot : (n : ℚ) / 2 ^ F.exponent n = ((n * 2 ^ k : Int) : ℚ) := by
      rw [hk, zpow_neg, zpow_natCast, div_inv_eq_mul]
      push_cast
      rfl
    have hpow : (2 : ℚ) ^ F.exponent n ≠ 0 := (zpow_pos two_pos _).ne'
    rw [round, hquot, nearestEven_intCast, ← hquot, div_mul_cancel₀ _ hpow]

end Format

/-! Integer parts of inexact numbers -/

theorem truncate_of_nonneg {x : ℚ} (h : 0 ≤ x) : truncate x = ⌊x⌋ := if_pos h

theorem floor_of_near {k : Int} {x y ε : ℚ} (hnear : |y - x| < ε) (hlow : k + ε ≤ x)
    (hhigh : x + ε ≤ k + 1) : ⌊y⌋ = k := by
  obtain ⟨h₁, h₂⟩ := abs_lt.mp hnear
  rw [Int.floor_eq_iff]
  constructor <;> linarith

theorem floor_of_near_int {k : Int} {y ε : ℚ} (hnear : |y - k| < ε) (hε : ε ≤ 1) :
    ⌊y⌋ = k ∨ ⌊y⌋ = k - 1 := by
  obtain ⟨h₁, h₂⟩ := abs_lt.mp hnear
  by_cases h : (k : ℚ) ≤ y
  · left
    rw [Int.floor_eq_iff]
    constructor <;> linarith
  · right
    rw [not_le] at h
    rw [Int.floor_eq_iff]
    push_cast
    constructor <;> linarith

end FloatRounding
