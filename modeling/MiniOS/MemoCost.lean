import MiniOS.Counting
import MiniOS.MemoSharing
import Mathlib.Algebra.GroupWithZero.Nat
import Mathlib.Data.Finset.Prod
import Mathlib.Order.Interval.Finset.Nat

/-! How many calls `dp_knapsack_topdown` makes. A call that finds its entry in the memo
makes none; one that does not makes two and fills in the entry, so that the calls are paid
for by the entries still empty. -/

namespace MiniOS

open ArrayAccess Counting

/-- The entries `dp_knapsack_topdown` may still fill in. -/
def unset (rows cols : Nat) (memo : Table) : Finset (Nat × Nat) :=
  (Finset.Icc 1 rows ×ˢ Finset.Icc 1 cols).filter
    (fun x => readCell memo x.1 x.2 = some (-1))

/-- Each entry holds -1 or a number of processes. -/
def MemoEntries (memo : Table) : Prop := ∀ i j v, readCell memo i j = some v → -1 ≤ v

/-- A run of the recursion on the first `n` processes, from `memo` to `memo'`. -/
structure MemoRun (rows cols n : Nat) (memo memo' : Table) (value : Int) (calls : Nat) : Prop where
  value_nonneg : 0 ≤ value
  entries : MemoEntries memo'
  above : ∀ (i : Nat) j, n < i → readCell memo' i j = readCell memo i j
  calls_le : calls + 2 * (unset rows cols memo').card ≤ 1 + 2 * (unset rows cols memo).card

theorem unset_writeCell {rows cols i j : Nat} {t t' : Table} {x : Int}
    (hi : i ∈ Finset.Icc 1 rows) (hj : j ∈ Finset.Icc 1 cols) (hempty : readCell t i j = some (-1))
    (hx : x ≠ -1) (hwrite : ∀ i' j', readCell t' i' j' = if i' = i ∧ j' = j then some x
      else readCell t i' j') :
    (unset rows cols t').card + 1 ≤ (unset rows cols t).card := by
  have hmem : (i, j) ∈ unset rows cols t :=
    Finset.mem_filter.mpr ⟨Finset.mk_mem_product hi hj, hempty⟩
  have hsub : unset rows cols t' ⊆ (unset rows cols t).erase (i, j) := by
    rintro ⟨i', j'⟩ hin
    obtain ⟨hrange, hread⟩ := Finset.mem_filter.mp hin
    rw [hwrite] at hread
    by_cases hsame : (i' : Int) = i ∧ (j' : Int) = j
    · rw [if_pos hsame, Option.some_inj] at hread
      exact absurd hread hx
    · rw [if_neg hsame] at hread
      refine Finset.mem_erase.mpr ⟨fun heq => hsame ?_, Finset.mem_filter.mpr ⟨hrange, hread⟩⟩
      obtain ⟨rfl, rfl⟩ := Prod.mk.inj heq
      exact ⟨rfl, rfl⟩
  have hcard := Finset.card_le_card hsub
  rw [Finset.card_erase_of_mem hmem] at hcard
  have hpos := Finset.card_pos.mpr ⟨_, hmem⟩
  omega

theorem MemoRun.fill {rows cols n : Nat} {memo memo₁ memo₂ memo' : Table} {c without taken v : Int}
    {calls₁ calls₂ : Nat} (h₁ : MemoRun rows cols n memo memo₁ without calls₁)
    (h₂ : MemoRun rows cols n memo₁ memo₂ taken calls₂) (hn : n + 1 ≤ rows) (hc : 0 < c)
    (hcols : c ≤ cols) (hempty : readCell memo (n + 1) c = some (-1)) (hv : 0 ≤ v)
    (hwrite : writeCell memo₂ (n + 1) c v = some memo') :
    MemoRun rows cols (n + 1) memo memo' v (1 + (calls₁ + calls₂)) ∧
      readCell memo' (n + 1) c = some v := by
  obtain ⟨j, rfl⟩ := Int.eq_ofNat_of_zero_le hc.le
  have hrow : (n : Int) + 1 = (n + 1 : Nat) := rfl
  have hstill : readCell memo₂ (n + 1 : Nat) j = some (-1) := by
    rw [h₂.above (n + 1) j (Nat.lt_succ_self n), h₁.above (n + 1) j (Nat.lt_succ_self n)]
    exact hempty
  obtain ⟨t, ht, -, hcells⟩ := exists_writeCell hstill v
  rw [hrow, ht, Option.some_inj] at hwrite
  subst hwrite
  have hi : n + 1 ∈ Finset.Icc 1 rows := Finset.mem_Icc.mpr ⟨Nat.le_add_left 1 n, hn⟩
  have hj : j ∈ Finset.Icc 1 cols := Finset.mem_Icc.mpr ⟨by omega, by omega⟩
  have hunset := unset_writeCell hi hj hstill (by omega) hcells
  have hfilled : readCell t (n + 1) j = some v := by
    have hcell := hcells (n + 1 : Nat) j
    rwa [if_pos ⟨rfl, rfl⟩] at hcell
  refine ⟨⟨hv, ?_, ?_, ?_⟩, hfilled⟩
  · intro i' j' x hx
    rw [hcells] at hx
    split_ifs at hx
    · obtain rfl := Option.some.inj hx
      omega
    · exact h₂.entries i' j' x hx
  · intro i' j' hi'
    rw [hcells, if_neg (by omega), h₂.above i' j' (by omega), h₁.above i' j' (by omega)]
  · have hcalls₁ := h₁.calls_le
    have hcalls₂ := h₂.calls_le
    omega

end MiniOS
