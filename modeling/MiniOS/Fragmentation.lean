import MiniOS.CompactionRuns
import MiniOS.FloatRounding
import MiniOS.IntSums
import Mathlib.Data.List.Induction

/-! External fragmentation as `mm_fragmentation` reports it, in doubles. Three roundings
and a truncation: the percentage is the exact one rounded down, except that an exact
integer percentage can come out one lower. -/

namespace MiniOS

open FloatRounding

/-- IEEE binary64, whose largest numbers the percentages do not come near. -/
def double : Format := ⟨53, -1074⟩

/-- `(int)((1.0 - (double)max_free / total_free) * 100)`. -/
def doublePercent (maxFree totalFree : Int) : Int :=
  let quotient := double.round (double.round maxFree / double.round totalFree)
  truncate (double.round (double.round (1 - quotient) * 100))

section Percent

variable {maxFree totalFree : Int}

theorem double_round_int {n : Int} (h0 : 0 ≤ n) (hn : n ≤ intMax) : double.round n = n := by
  apply double.round_intCast (by decide)
  rw [abs_of_nonneg h0]
  exact lt_of_le_of_lt hn (by decide)

theorem double_relative {x : ℚ} (h : 1 / 2 ^ 32 ≤ x) : |double.round x - x| ≤ x / 2 ^ 53 := by
  have h0 : 0 ≤ x := le_trans (by norm_num) h
  have hsmall : (2 : ℚ) ^ (double.minExponent + (double.precision - 1)) ≤ |x| := by
    rw [abs_of_nonneg h0]
    refine le_trans (zpow_le_zpow_right₀ one_le_two (by decide : _ ≤ (-32 : Int))) (le_trans ?_ h)
    norm_num
  have hr := double.round_relative hsmall
  rwa [abs_of_nonneg h0] at hr

theorem fraction_bounds {m n : Int} (hm : 1 ≤ m) (hmn : m < n) (hn : n ≤ intMax) :
    1 / 2 ^ 31 ≤ (m : ℚ) / n ∧ (m : ℚ) / n ≤ 1 - 1 / 2 ^ 31 := by
  have hm' : (1 : ℚ) ≤ m := by exact_mod_cast hm
  have hmn' : (m : ℚ) + 1 ≤ n := by exact_mod_cast hmn
  have hn' : (n : ℚ) ≤ 2 ^ 31 := by
    have hle : n ≤ 2 ^ 31 := le_trans hn (by decide)
    exact_mod_cast hle
  have hpos : (0 : ℚ) < n := by linarith
  constructor
  · rw [div_le_div_iff₀ (by norm_num) hpos]
    linarith
  · rw [div_le_iff₀ hpos]
    linarith

theorem doublePercent_near (hmax : 1 ≤ maxFree) (hlt : maxFree < totalFree)
    (htotal : totalFree ≤ intMax) :
    ∃ y : ℚ, doublePercent maxFree totalFree = truncate y ∧
      |y - 100 * (totalFree - maxFree) / totalFree| < 1 / 2 ^ 44 := by
  obtain ⟨hquot, hrest⟩ := fraction_bounds hmax hlt htotal
  have hpos : (0 : ℚ) < totalFree := by exact_mod_cast (show (0 : Int) < totalFree by omega)
  have hexact : 100 * ((totalFree : ℚ) - maxFree) / totalFree = 100 * (1 - maxFree / totalFree) := by
    rw [one_sub_div hpos.ne', mul_div_assoc]
  rw [doublePercent, double_round_int (by omega) (by omega), double_round_int (by omega) htotal, hexact]
  generalize (maxFree : ℚ) / totalFree = q at hquot hrest
  have hq := abs_le.mp (double_relative (x := q) (by linarith))
  generalize double.round q = a at hq
  have hs := abs_le.mp (double_relative (x := 1 - a) (by linarith))
  generalize double.round (1 - a) = b at hs
  have hb := abs_le.mp (double_relative (x := b * 100) (by linarith))
  refine ⟨_, rfl, ?_⟩
  rw [abs_lt]
  constructor <;> linarith

/-- The exact percentage rounded down, or one less than an integer percentage. -/
structure PercentOf (maxFree totalFree percent : Int) : Prop where
  nonneg : 0 ≤ percent
  le : percent ≤ 99
  eq_or : percent = 100 * (totalFree - maxFree) / totalFree ∨
    totalFree ∣ 100 * maxFree ∧ percent = 100 * (totalFree - maxFree) / totalFree - 1

theorem doublePercent_self (h : 1 ≤ totalFree) (htotal : totalFree ≤ intMax) :
    doublePercent totalFree totalFree = 0 := by
  have hne : (totalFree : ℚ) ≠ 0 := Int.cast_ne_zero.mpr (by omega)
  have hone : double.round 1 = 1 := by exact_mod_cast double_round_int (n := 1) (by decide) (by decide)
  have hzero : double.round 0 = 0 := by exact_mod_cast double_round_int (n := 0) (by decide) (by decide)
  rw [doublePercent, double_round_int (by omega) htotal, div_self hne, hone, sub_self, hzero, zero_mul,
    hzero]
  rfl

theorem doublePercent_spec (hmax : 1 ≤ maxFree) (hle : maxFree ≤ totalFree)
    (htotal : totalFree ≤ intMax) :
    PercentOf maxFree totalFree (doublePercent maxFree totalFree) := by
  rcases hle.eq_or_lt with rfl | hlt
  · rw [doublePercent_self hmax htotal]
    exact ⟨le_refl _, by decide, Or.inl (by simp)⟩
  · obtain ⟨y, hy, hnear⟩ := doublePercent_near hmax hlt htotal
    have hpos : 0 < totalFree := by omega
    have hTpos : (0 : ℚ) < totalFree := by exact_mod_cast hpos
    -- the exact percentage is k + r / totalFree
    obtain ⟨k, r, hk, hr, hr0, hrT⟩ : ∃ k r : Int, 100 * (totalFree - maxFree) / totalFree = k ∧
        100 * (totalFree - maxFree) = totalFree * k + r ∧ 0 ≤ r ∧ r < totalFree :=
      ⟨_, _, rfl, (Int.mul_ediv_add_emod _ _).symm, Int.emod_nonneg _ hpos.ne', Int.emod_lt_of_pos _ hpos⟩
    have hx : 100 * ((totalFree : ℚ) - maxFree) / totalFree = k + r / totalFree := by
      have hcast : 100 * ((totalFree : ℚ) - maxFree) = totalFree * k + r := by exact_mod_cast hr
      rw [hcast, add_div, mul_div_cancel_left₀ _ hTpos.ne']
    have hk0 : 0 ≤ k := hk ▸ Int.ediv_nonneg (by omega) hpos.le
    have hk99 : k < 100 := hk ▸ Int.ediv_lt_of_lt_mul hpos (by omega)
    have hy0 : 0 ≤ y := by
      have hlow := (fraction_bounds (show 1 ≤ totalFree - maxFree by omega)
        (show totalFree - maxFree < totalFree by omega) htotal).1
      push_cast at hlow
      rw [mul_div_assoc] at hnear
      linarith [(abs_lt.mp hnear).1]
    rw [hy, truncate_of_nonneg hy0]
    rw [hx] at hnear
    rcases hr0.eq_or_lt with rfl | hrpos
    · have hk1 : 1 ≤ k := by
        by_contra hc
        obtain rfl : k = 0 := by omega
        omega
      rw [Int.cast_zero, zero_div, add_zero] at hnear
      have hdvd : totalFree ∣ 100 * maxFree := ⟨100 - k, by rw [mul_sub]; omega⟩
      rcases floor_of_near_int hnear (by norm_num) with hfloor | hfloor
      · exact ⟨by omega, by omega, Or.inl (by omega)⟩
      · exact ⟨by omega, by omega, Or.inr ⟨hdvd, by omega⟩⟩
    · obtain ⟨hlow, hhigh⟩ := fraction_bounds (show 1 ≤ r by omega) hrT htotal
      have hfloor : ⌊y⌋ = k := floor_of_near hnear (by linarith) (by linarith)
      exact ⟨by omega, by omega, Or.inl (by omega)⟩

end Percent

def freeBlocks (blocks : List MemoryBlock) : List MemoryBlock := blocks.filter MemoryBlock.free

theorem freeTotals_concat (blocks : List MemoryBlock) (b : MemoryBlock) :
    freeTotals (blocks ++ [b]) =
      if b.free then ((freeTotals blocks).1 + b.size, max b.size (freeTotals blocks).2)
      else freeTotals blocks := by
  rw [freeTotals, List.foldl_append, List.foldl_cons, List.foldl_nil, ← freeTotals]
  by_cases hgt : b.size > (freeTotals blocks).2
  · rw [if_pos hgt, max_eq_left hgt.le]
  · rw [if_neg hgt, max_eq_right (not_lt.mp hgt)]

/-- The loop of `mm_fragmentation`: the sum of the free sizes, and the largest of them. -/
theorem freeTotals_spec {blocks : List MemoryBlock} (hpos : blockLayout.Positive blocks) :
    (freeTotals blocks).1 = sizeTotal (freeBlocks blocks) ∧
      (∀ b ∈ freeBlocks blocks, b.size ≤ (freeTotals blocks).2) ∧
      ((freeBlocks blocks = [] ∧ (freeTotals blocks).2 = 0) ∨
        ∃ b ∈ freeBlocks blocks, b.size = (freeTotals blocks).2) := by
  induction blocks using List.reverseRecOn with
  | nil => exact ⟨rfl, fun b hb => absurd hb List.not_mem_nil, Or.inl ⟨rfl, rfl⟩⟩
  | append_singleton blocks b ih =>
    obtain ⟨hpos', hb⟩ := Tiling.Layout.Positive.append.mp hpos
    obtain ⟨hsum, hbound, hlargest⟩ := ih hpos'
    rw [freeTotals_concat]
    cases hfree : b.free with
    | false =>
      have hsame : freeBlocks (blocks ++ [b]) = freeBlocks blocks := by simp [freeBlocks, hfree]
      rw [hsame]
      exact ⟨hsum, hbound, hlargest⟩
    | true =>
      have happend : freeBlocks (blocks ++ [b]) = freeBlocks blocks ++ [b] := by
        simp [freeBlocks, hfree]
      rw [happend, sizeTotal_append, ← hsum]
      refine ⟨by simp [sizeTotal], ?_, Or.inr ?_⟩
      · intro x hx
        rcases List.mem_append.mp hx with hx | hx
        · exact (hbound x hx).trans (le_max_right _ _)
        · rw [List.mem_singleton.mp hx]
          exact le_max_left _ _
      · have hlast : b ∈ freeBlocks blocks ++ [b] := List.mem_append_right _ List.mem_cons_self
        rcases hlargest with ⟨-, hzero⟩ | ⟨x, hx, he⟩
        · have hsize : 0 < b.size := hb b List.mem_cons_self
          exact ⟨b, hlast, by simp [hzero, hsize.le]⟩
        · rcases le_total x.size b.size with hle | hle
          · exact ⟨b, hlast, by rw [← he]; exact (max_eq_left hle).symm⟩
          · exact ⟨x, List.mem_append_left _ hx, by rw [← he]; exact (max_eq_right hle).symm⟩

theorem sizeTotal_split (blocks : List MemoryBlock) :
    sizeTotal blocks = sizeTotal (freeBlocks blocks) + sizeTotal (occupied blocks) := by
  induction blocks with
  | nil => rfl
  | cons b blocks ih =>
    simp only [sizeTotal, freeBlocks] at ih ⊢
    cases hb : b.free with
    | true =>
      rw [occupied_cons_free hb, List.filter_cons_of_pos hb, List.map_cons, List.sum_cons, ih,
        List.map_cons, List.sum_cons, add_assoc]
    | false =>
      rw [occupied_cons hb, List.filter_cons_of_neg (by simp [hb]), List.map_cons, List.sum_cons, ih,
        List.map_cons, List.sum_cons]
      omega

theorem WellFormed.free_le {mm : MemoryManager} (h : WellFormed mm) :
    sizeTotal (freeBlocks mm.head) ≤ mm.totalMemory := by
  have hstop := h.tiles.stop_eq
  have hsplit := sizeTotal_split mm.head
  have hocc : 0 ≤ sizeTotal (occupied mm.head) := by
    apply List.sum_nonneg
    intro x hx
    obtain ⟨b, hb, rfl⟩ := List.mem_map.mp hx
    exact (h.positive b (mem_occupied.mp hb).1).le
  rw [Int.zero_add] at hstop
  change mm.totalMemory = sizeTotal mm.head at hstop
  omega

theorem WellFormed.fragmentation {mm : MemoryManager} (h : WellFormed mm)
    (hmax : mm.totalMemory ≤ intMax) :
    PercentOf (freeTotals mm.head).2 (freeTotals mm.head).1 (mmFragmentation doublePercent mm) ∧
      ((freeBlocks mm.head).length ≤ 1 → mmFragmentation doublePercent mm = 0) := by
  obtain ⟨hsum, hbound, hlargest⟩ := freeTotals_spec h.positive
  have hle := h.free_le
  rcases hlargest with ⟨hnil, hzero⟩ | ⟨b, hb, he⟩
  · have htotal : (freeTotals mm.head).1 = 0 := by rw [hsum, hnil]; rfl
    have hfrag : mmFragmentation doublePercent mm = 0 := by simp [mmFragmentation, htotal]
    rw [hfrag, htotal, hzero]
    exact ⟨⟨le_refl _, by decide, Or.inl (by simp)⟩, fun _ => rfl⟩
  · have hsize : 0 < b.size := h.positive b (List.mem_filter.mp hb).1
    have hrest : ∀ x ∈ (freeBlocks mm.head).map MemoryBlock.size, 0 ≤ x := by
      intro x hx
      obtain ⟨c, hc, rfl⟩ := List.mem_map.mp hx
      exact (h.positive c (List.mem_filter.mp hc).1).le
    have hone : b.size ≤ sizeTotal (freeBlocks mm.head) :=
      List.single_le_sum hrest _ (List.mem_map_of_mem hb)
    have hne : (freeTotals mm.head).1 ≠ 0 := by omega
    rw [mmFragmentation, if_neg hne]
    refine ⟨doublePercent_spec (by omega) (by omega) (by omega), fun hlen => ?_⟩
    obtain ⟨c, hc⟩ := List.length_eq_one_iff.mp (le_antisymm hlen (List.length_pos_of_mem hb))
    obtain rfl : b = c := by
      rw [hc] at hb
      exact List.mem_singleton.mp hb
    have hself : (freeTotals mm.head).1 = (freeTotals mm.head).2 := by
      rw [hsum, hc, ← he]
      simp [sizeTotal]
    rw [hself]
    exact doublePercent_self (by omega) (by omega)

/-- In every reachable state the reported fragmentation is the exact percentage rounded
down, up to one at the integers; it is 0 when the free memory is one block, and so after
a compaction. -/
theorem reachable_fragmentation {totalMemory : Int} (ht : 1 ≤ totalMemory)
    (hmax : totalMemory ≤ intMax) {calls : List MmCall} (hsized : ∀ call ∈ calls, call.Sized)
    (hocc : CompactsOccupied calls (mmCreate totalMemory)) :
    let mm := mmRun calls (mmCreate totalMemory)
    PercentOf (freeTotals mm.head).2 (freeTotals mm.head).1 (mmFragmentation doublePercent mm) ∧
      ((freeBlocks mm.head).length ≤ 1 → mmFragmentation doublePercent mm = 0) ∧
      (HeadOccupied mm → mmFragmentation doublePercent (mmCompact mm) = 0) := by
  intro mm
  have hwf : WellFormed mm := (mmCreate_wellFormed ht).run_sized hsized hocc
  have htotal : mm.totalMemory = totalMemory := mmRun_totalMemory calls (mmCreate totalMemory)
  obtain ⟨hpercent, hzero⟩ := hwf.fragmentation (htotal ▸ hmax)
  refine ⟨hpercent, hzero, fun hhead => ?_⟩
  have hcomp := hwf.compact hhead
  have htotal' : (mmCompact mm).totalMemory = totalMemory :=
    (MmCall.exec_totalMemory mm .compact).trans htotal
  exact (hcomp.wellFormed.fragmentation (htotal' ▸ hmax)).2 hcomp.one_free

theorem reachable_fragmentation_example :
    let calls : List MmCall := [.allocate (.greedyFirstFit 1) 9, .allocate (.greedyFirstFit 2) 1, .free 1]
    let mm := mmRun calls (mmCreate 11)
    PercentOf (freeTotals mm.head).2 (freeTotals mm.head).1 (mmFragmentation doublePercent mm) ∧
      ((freeBlocks mm.head).length ≤ 1 → mmFragmentation doublePercent mm = 0) ∧
      (HeadOccupied mm → mmFragmentation doublePercent (mmCompact mm) = 0) := by
  intro calls
  have hsized : ∀ call ∈ calls, call.Sized := by simp [calls, MmCall.Sized]
  exact reachable_fragmentation (by decide) (by decide) hsized (by simp [calls, CompactsOccupied])

/-- Free blocks of 9 and 1: exactly 10 percent, and the doubles make it 9. -/
example : doublePercent 9 10 = 9 := by decide +kernel

end MiniOS
