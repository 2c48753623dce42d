import MiniOS.Knapsack
import MiniOS.SmallestFirst
import Mathlib.Algebra.Order.Group.Int
import Mathlib.Data.List.TakeWhile
import Mathlib.Algebra.Ring.Int.Defs

/-! What the two knapsack functions count. Bottom-up counts the largest choice
that fits. Top-down gives up as soon as the capacity is used up, so it counts
the largest choice whose last member finds some capacity left. -/

namespace MiniOS

open SmallestFirst

section Choices

variable {ws S : List Int} {c : Int}

theorem bottomupValue_cons_le (w : Int) (ws : List Int) (c : Int) :
    bottomupValue ws c ≤ bottomupValue (w :: ws) c := by
  rw [bottomupValue]
  split_ifs <;> omega

theorem bottomupValue_cons_take {w : Int} (hw : w ≤ c) (ws : List Int) :
    1 + bottomupValue ws (c - w) ≤ bottomupValue (w :: ws) c := by
  rw [bottomupValue]
  split_ifs <;> omega

theorem bottomupValue_bound (hws : ∀ w ∈ ws, 0 ≤ w) (hS : S.Sublist ws) (hsum : S.sum ≤ c) :
    (S.length : Int) ≤ bottomupValue ws c := by
  induction ws generalizing S c with
  | nil =>
    rw [List.sublist_nil.mp hS]
    exact le_refl _
  | cons w ws ih =>
    have hrest : ∀ x ∈ ws, 0 ≤ x := fun x hx => hws x (List.mem_cons_of_mem _ hx)
    rcases List.sublist_cons_iff.mp hS with h | ⟨S', rfl, h⟩
    · exact (ih hrest h hsum).trans (bottomupValue_cons_le w ws c)
    · have hnonneg : 0 ≤ S'.sum := List.sum_nonneg (fun x hx => hrest x (h.subset hx))
      rw [List.sum_cons] at hsum
      have hS' := ih hrest h (show S'.sum ≤ c - w by omega)
      have htake := bottomupValue_cons_take (show w ≤ c by omega) ws
      rw [List.length_cons]
      omega

theorem bottomupValue_attained (hc : 0 ≤ c) (ws : List Int) :
    ∃ S : List Int, S.Sublist ws ∧ S.sum ≤ c ∧ (S.length : Int) = bottomupValue ws c := by
  induction ws generalizing c with
  | nil => exact ⟨[], List.Sublist.refl _, hc, rfl⟩
  | cons w ws ih =>
    by_cases h : w ≤ c ∧ bottomupValue ws (c - w) + 1 > bottomupValue ws c
    · obtain ⟨S, hS, hsum, hlen⟩ := ih (show 0 ≤ c - w by omega)
      refine ⟨w :: S, hS.cons_cons w, ?_, ?_⟩
      · rw [List.sum_cons]
        omega
      · rw [bottomupValue, if_pos h, List.length_cons]
        omega
    · obtain ⟨S, hS, hsum, hlen⟩ := ih hc
      exact ⟨S, hS.cons w, hsum, by rw [bottomupValue, if_neg h, hlen]⟩

/-- The last member of `S` finds capacity left. -/
def Unspent (c : Int) (S : List Int) : Prop := S = [] ∨ S.dropLast.sum < c

theorem topdownValue_cons_le (hc : c ≠ 0) (w : Int) (ws : List Int) :
    topdownValue ws c ≤ topdownValue (w :: ws) c := by
  rw [topdownValue, if_neg hc]
  simp only
  split_ifs <;> omega

theorem topdownValue_cons_take (hc : c ≠ 0) {w : Int} (hw : w ≤ c) (ws : List Int) :
    1 + topdownValue ws (c - w) ≤ topdownValue (w :: ws) c := by
  rw [topdownValue, if_neg hc, if_pos hw]
  simp only
  split_ifs <;> omega

theorem topdownValue_nonneg (ws : List Int) (c : Int) : 0 ≤ topdownValue ws c := by
  induction ws generalizing c with
  | nil => exact le_refl _
  | cons w ws ih =>
    by_cases hc : c = 0
    · rw [topdownValue, if_pos hc]
    · exact (ih c).trans (topdownValue_cons_le hc w ws)

theorem topdownValue_bound (hws : ∀ w ∈ ws, 0 ≤ w) (hS : S.Sublist ws) (hsum : S.sum ≤ c)
    (hu : Unspent c S) : (S.length : Int) ≤ topdownValue ws c := by
  induction ws generalizing S c with
  | nil =>
    rw [List.sublist_nil.mp hS]
    exact le_refl _
  | cons w ws ih =>
    have hrest : ∀ x ∈ ws, 0 ≤ x := fun x hx => hws x (List.mem_cons_of_mem _ hx)
    rcases hu with rfl | hu
    · exact topdownValue_nonneg _ _
    · have hinit : 0 ≤ S.dropLast.sum :=
        List.sum_nonneg (fun x hx => hws x (hS.subset (List.dropLast_subset S hx)))
      have hc : c ≠ 0 := by omega
      rcases List.sublist_cons_iff.mp hS with h | ⟨S', rfl, h⟩
      · exact (ih hrest h hsum (Or.inr hu)).trans (topdownValue_cons_le hc w ws)
      · have hnonneg : 0 ≤ S'.sum := List.sum_nonneg (fun x hx => hrest x (h.subset hx))
        rw [List.sum_cons] at hsum
        have hu' : Unspent (c - w) S' := by
          cases S' with
          | nil => exact Or.inl rfl
          | cons x S' =>
            rw [List.dropLast_cons_cons, List.sum_cons] at hu
            exact Or.inr (by omega)
        have hS' := ih hrest h (show S'.sum ≤ c - w by omega) hu'
        have htake := topdownValue_cons_take hc (show w ≤ c by omega) ws
        rw [List.length_cons]
        omega

theorem topdownValue_attained (hc : 0 ≤ c) (ws : List Int) :
    ∃ S : List Int, S.Sublist ws ∧ S.sum ≤ c ∧ Unspent c S ∧ (S.length : Int) = topdownValue ws c := by
  induction ws generalizing c with
  | nil => exact ⟨[], List.Sublist.refl _, hc, Or.inl rfl, rfl⟩
  | cons w ws ih =>
    by_cases hzero : c = 0
    · exact ⟨[], List.nil_sublist _, hc, Or.inl rfl, by rw [topdownValue, if_pos hzero]; rfl⟩
    · by_cases h : w ≤ c ∧ 1 + topdownValue ws (c - w) > topdownValue ws c
      · obtain ⟨S, hS, hsum, hu, hlen⟩ := ih (show 0 ≤ c - w by omega)
        refine ⟨w :: S, hS.cons_cons w, ?_, Or.inr ?_, ?_⟩
        · rw [List.sum_cons]
          omega
        · cases S with
          | nil => simp only [List.dropLast_singleton, List.sum_nil]; omega
          | cons x S =>
            rcases hu with hu | hu
            · cases hu
            · rw [List.dropLast_cons_cons, List.sum_cons]
              omega
        · rw [topdownValue, if_neg hzero, if_pos h.1]
          simp only [if_pos h.2, List.length_cons]
          omega
      · obtain ⟨S, hS, hsum, hu, hlen⟩ := ih hc
        refine ⟨S, hS.cons w, hsum, hu, ?_⟩
        have hnonneg := topdownValue_nonneg ws c
        rw [topdownValue, if_neg hzero, hlen]
        simp only
        split_ifs <;> omega

/-- Bottom-up counts the processes that fit when the smallest come first. -/
theorem bottomupValue_eq (hws : ∀ w ∈ ws, 0 ≤ w) (hc : 0 ≤ c) :
    bottomupValue ws c = (smallestFirst ws c).length := by
  apply le_antisymm
  · obtain ⟨S, hS, hsum, hlen⟩ := bottomupValue_attained hc ws
    have := length_le_smallestFirst hws hS.subperm hsum
    omega
  · obtain ⟨S, hp, hS⟩ := smallestFirst_subperm ws c
    have hsum : S.sum ≤ c := hp.sum_eq.trans_le (sum_smallestFirst_le hc ws)
    rw [← hp.length_eq]
    exact bottomupValue_bound hws hS hsum

theorem topdownValue_eq_iff_choice (hws : ∀ w ∈ ws, 0 ≤ w) (hc : 0 ≤ c) :
    topdownValue ws c = bottomupValue ws c ↔
      ∃ S : List Int, S.Sublist ws ∧ S.sum ≤ c ∧ Unspent c S ∧ S.length = (smallestFirst ws c).length := by
  have hbest := bottomupValue_eq hws hc
  constructor
  · intro h
    obtain ⟨S, hS, hsum, hu, hlen⟩ := topdownValue_attained hc ws
    exact ⟨S, hS, hsum, hu, by omega⟩
  · intro ⟨S, hS, hsum, hu, hlen⟩
    have hge := topdownValue_bound hws hS hsum hu
    obtain ⟨T, hT, hTsum, -, hTlen⟩ := topdownValue_attained hc ws
    have hle := bottomupValue_bound hws hT hTsum
    omega

theorem unspent_concat (T : List Int) (x : Int) : Unspent c (T ++ [x]) ↔ T.sum < c := by
  have hne : T ++ [x] ≠ [] := List.append_ne_nil_of_right_ne_nil T (List.cons_ne_nil x [])
  rw [Unspent, List.dropLast_concat, or_iff_right hne]

theorem unspent_of_last_pos (hsum : S.sum ≤ c) (h : ∀ T x, S = T ++ [x] → 0 < x) : Unspent c S := by
  rcases List.eq_nil_or_concat' S with rfl | ⟨T, x, rfl⟩
  · exact Or.inl rfl
  · have hx := h T x rfl
    rw [List.sum_append, List.sum_singleton] at hsum
    exact (unspent_concat T x).mpr (by omega)

end Choices

/-- Top-down misses no process of size 0: there is none, or the smallest-first
choice leaves capacity over, or a process stored before all those of size 0 is
no larger than the largest one chosen. -/
def ZerosCounted (c : Int) (ws : List Int) : Prop :=
  0 ∉ ws ∨ (smallestFirst ws c).sum < c ∨
    ∃ b ∈ ws.takeWhile (fun w => w ≠ 0), ∃ m ∈ smallestFirst ws c, b ≤ m

/-- A choice from the end that holds every 0 of `ws` leaves none before its last member. -/
theorem last_mem_takeWhile {ws T : List Int} {x : Int} (hS : (T ++ [x]).Sublist ws.reverse)
    (hcount : ws.count 0 ≤ T.count 0) : x ∈ ws.takeWhile (fun w => w ≠ 0) := by
  obtain ⟨R₁, R₂, hR, hTR, hxR⟩ := List.append_sublist_iff.mp hS
  have hRcount : ws.count 0 = R₁.count 0 + R₂.count 0 := by
    rw [← List.count_append, ← hR, List.count_reverse]
  have hnone : 0 ∉ R₂ := by
    have hle := hTR.count_le 0
    rw [← List.count_eq_zero]
    omega
  have hws : ws = R₂.reverse ++ R₁.reverse := by
    rw [← List.reverse_append, ← hR, List.reverse_reverse]
  rw [hws, List.takeWhile_append_of_pos]
  · exact List.mem_append_left _ (List.mem_reverse.mpr (List.singleton_sublist.mp hxR))
  · intro y hy
    exact decide_eq_true (fun h0 => hnone (h0 ▸ List.mem_reverse.mp hy))

section Zeros

variable {ws : List Int} {c : Int} (hws : ∀ w ∈ ws, 0 ≤ w)

include hws

/-- A chosen value can be had from any place of the list that holds it. -/
theorem exists_choice_ending (hc : 0 ≤ c) {b : Int} (hb : b ∈ ws.takeWhile (fun w => w ≠ 0))
    (hsel : b ∈ smallestFirst ws c) :
    ∃ S : List Int, S.Sublist ws.reverse ∧ S.sum ≤ c ∧ Unspent c S ∧
      S.length = (smallestFirst ws c).length := by
  have hpos : ∀ x ∈ ws.takeWhile (fun w => w ≠ 0), 0 < x := by
    intro x hx
    have hne : x ≠ 0 := by simpa using List.mem_takeWhile_imp hx
    have hnn := hws x (List.takeWhile_subset _ hx)
    omega
  obtain ⟨A, B, hAB⟩ := List.append_of_mem hb
  let late := B ++ ws.dropWhile (fun w => w ≠ 0)
  have hsplit : ws = A ++ b :: late := by
    rw [← List.cons_append, ← List.append_assoc, ← hAB, List.takeWhile_append_dropWhile]
  have hrev : ws.reverse = late.reverse ++ b :: A.reverse := by
    rw [hsplit, List.reverse_append, List.reverse_cons, List.append_assoc, List.singleton_append]
  have hothers : ((smallestFirst ws c).erase b).Subperm (late.reverse ++ A.reverse) := by
    have hall := (smallestFirst_subperm ws c).trans ws.reverse_perm.symm.subperm
    rw [hrev] at hall
    exact (List.subperm_cons b).mp
      (((List.perm_cons_erase hsel).symm.subperm.trans hall).trans List.perm_middle.subperm)
  obtain ⟨S', hp, hS'⟩ := hothers
  obtain ⟨S₁, S₂, rfl, h₁, h₂⟩ := List.sublist_append_iff.mp hS'
  have hperm : (S₁ ++ b :: S₂).Perm (smallestFirst ws c) :=
    (List.perm_middle.trans (hp.cons b)).trans (List.perm_cons_erase hsel).symm
  have hsum : (S₁ ++ b :: S₂).sum ≤ c := hperm.sum_eq.trans_le (sum_smallestFirst_le hc ws)
  refine ⟨S₁ ++ b :: S₂, ?_, hsum, unspent_of_last_pos hsum ?_, hperm.length_eq⟩
  · rw [hrev]
    exact h₁.append (h₂.cons_cons b)
  · intro T x hT
    -- the last member stands at `b` or before it in `ws`, where no size is 0
    have hlast : x ∈ b :: S₂ := by
      have hl := congrArg List.getLast? hT
      rw [List.getLast?_append_cons, List.getLast?_concat] at hl
      exact List.mem_of_getLast? hl
    have hx : x ∈ A ++ b :: B := by
      rcases List.mem_cons.mp hlast with rfl | hx
      · exact List.mem_append_right _ List.mem_cons_self
      · exact List.mem_append_left _ (List.mem_reverse.mp (h₂.subset hx))
    exact hpos x (hAB ▸ hx)

theorem exists_choice_of_zerosCounted (hc : 0 ≤ c) (h : ZerosCounted c ws) :
    ∃ S : List Int, S.Sublist ws.reverse ∧ S.sum ≤ c ∧ Unspent c S ∧
      S.length = (smallestFirst ws c).length := by
  obtain ⟨S, hp, hS⟩ := (smallestFirst_subperm ws c).trans ws.reverse_perm.symm.subperm
  have hsum : S.sum ≤ c := hp.sum_eq.trans_le (sum_smallestFirst_le hc ws)
  have hmem : ∀ T x, S = T ++ [x] → x ∈ ws := by
    rintro T x rfl
    exact List.mem_reverse.mp (hS.subset (List.mem_append_right _ List.mem_cons_self))
  rcases h with hzero | hless | ⟨b, hb, m, hm, hbm⟩
  · refine ⟨S, hS, hsum, unspent_of_last_pos hsum ?_, hp.length_eq⟩
    intro T x hT
    have hx := hmem T x hT
    have hne : x ≠ 0 := fun h0 => hzero (h0 ▸ hx)
    have := hws x hx
    omega
  · refine ⟨S, hS, hsum, ?_, hp.length_eq⟩
    rcases List.eq_nil_or_concat' S with rfl | ⟨T, x, rfl⟩
    · exact Or.inl rfl
    · have hx := hws x (hmem T x rfl)
      rw [← hp.sum_eq, List.sum_append, List.sum_singleton] at hless
      exact (unspent_concat T x).mpr (by omega)
  · have hbws : b ∈ ws := List.takeWhile_subset _ hb
    exact exists_choice_ending hws hc hb (mem_smallestFirst_of_le hbws hm hbm)

/-- A process of size 0 left out of `S` could be added to it. -/
theorem count_zero_le_of_largest {S : List Int} (hS : S.Subperm ws) (hsum : S.sum ≤ c)
    (hlen : S.length = (smallestFirst ws c).length) : ws.count 0 ≤ S.count 0 := by
  by_contra hlt
  have hmore : (0 :: S).Subperm ws := by
    apply List.subperm_ext_iff.mpr
    intro x _
    by_cases hx : x = 0
    · rw [hx, List.count_cons_self]
      omega
    · rw [List.count_cons_of_ne (Ne.symm hx)]
      exact hS.count_le x
  have hle := length_le_smallestFirst (r := c) hws hmore (by rw [List.sum_cons]; omega)
  rw [List.length_cons] at hle
  omega

theorem zerosCounted_of_choice (hc : 0 ≤ c) {S : List Int} (hS : S.Sublist ws.reverse)
    (hsum : S.sum ≤ c) (hu : Unspent c S) (hlen : S.length = (smallestFirst ws c).length) :
    ZerosCounted c ws := by
  by_cases hzero : 0 ∈ ws
  swap
  · exact Or.inl hzero
  by_cases hless : (smallestFirst ws c).sum < c
  · exact Or.inr (Or.inl hless)
  have hSws : S.Subperm ws := hS.subperm.trans ws.reverse_perm.subperm
  have hfull : (smallestFirst ws c).sum = c := le_antisymm (sum_smallestFirst_le hc ws) (not_lt.mp hless)
  have hSsum : S.sum = c := by
    have hle := sum_take_smallestFirst_le hSws hlen.le
    rw [hlen, List.take_length, hfull] at hle
    omega
  have hcount := count_zero_le_of_largest hws hSws hsum hlen
  rcases List.eq_nil_or_concat' S with rfl | ⟨T, x, rfl⟩
  · have := List.count_pos_iff.mpr hzero
    rw [List.count_nil] at hcount
    omega
  · have hT := (unspent_concat T x).mp hu
    rw [List.sum_append, List.sum_singleton] at hSsum
    have hxpos : 0 < x := by omega
    refine Or.inr (Or.inr ⟨x, ?_, ?_⟩)
    · have hTcount : (T ++ [x]).count 0 = T.count 0 := by
        rw [List.count_append, List.count_singleton]
        simp [hxpos.ne']
      exact last_mem_takeWhile hS (hTcount ▸ hcount)
    · rw [List.length_append, List.length_singleton] at hlen
      rcases List.eq_nil_or_concat' (smallestFirst ws c) with hnil | ⟨L, m, hL⟩
      · rw [hnil, List.length_nil] at hlen
        omega
      · have hTlen : T.length = L.length := by
          rw [hL, List.length_append, List.length_singleton] at hlen
          omega
        have hTws : T.Subperm ws := (List.sublist_append_left T [x]).subperm.trans hSws
        have hle := sum_take_smallestFirst_le (r := c) hTws (by omega)
        rw [hL, hTlen, List.take_left] at hle
        rw [hL, List.sum_append, List.sum_singleton] at hfull
        exact ⟨m, hL ▸ List.mem_append_right _ List.mem_cons_self, by omega⟩

end Zeros

theorem sizes_length (procs : List Process) :
    sizes procs procs.length = (procs.map Process.memoryRequired).reverse := by
  rw [sizes, List.take_of_length_le (by rw [List.length_map])]

section Calls

variable {procs : List Process} {capacity : Int}

theorem dpKnapsackBottomup_count (hc : 0 ≤ capacity) (hmem : ∀ p ∈ procs, 0 ≤ p.memoryRequired)
    (hrange : (procs.length : Int) < intMax ∧ capacity < intMax) :
    dpKnapsackBottomup procs procs.length capacity =
      some ((smallestFirst (procs.map Process.memoryRequired) capacity).length : Int) := by
  obtain ⟨C, rfl⟩ := Int.eq_ofNat_of_zero_le hc
  have hsizes : ∀ w ∈ (procs.map Process.memoryRequired).reverse, 0 ≤ w := by
    simpa using hmem
  rw [dpKnapsackBottomup_eq (le_refl _) hmem hrange.1 C hrange.2, sizes_length, bottomupValue_eq hsizes hc,
    smallestFirst_perm (List.reverse_perm _)]

/-- Bottom-up returns the size of a largest set of processes that fit together, exactly when the
table has `int` sizes. -/
theorem dpKnapsackBottomup_isGreatest_iff (hc : 0 ≤ capacity)
    (hmem : ∀ p ∈ procs, 0 ≤ p.memoryRequired) :
    (∃ best : Nat, dpKnapsackBottomup procs procs.length capacity = some (best : Int) ∧
      IsGreatest {k | ∃ s : Finset (Fin procs.length),
        ∑ i ∈ s, procs[i].memoryRequired ≤ capacity ∧ s.card = k} best) ↔
    (procs.length : Int) < intMax ∧ capacity < intMax := by
  constructor
  · rintro ⟨best, hbest, -⟩
    by_contra hover
    rw [dpKnapsackBottomup_eq_none hc hover] at hbest
    cases hbest
  · intro hrange
    refine ⟨_, dpKnapsackBottomup_count hc hmem hrange, ?_⟩
    have hgreatest := smallestFirst_isGreatest (List.nodup_finRange procs.length)
      (fun i _ => hmem procs[i] (List.getElem_mem i.isLt)) hc
    have hsizes : (List.finRange procs.length).map (fun i => procs[i].memoryRequired) =
        procs.map Process.memoryRequired := by
      apply List.ext_getElem <;> simp
    simpa only [hsizes, List.mem_finRange, implies_true, true_and] using hgreatest

theorem dpKnapsackTopdown_fresh (hc : 0 ≤ capacity) (hmem : ∀ p ∈ procs, 0 ≤ p.memoryRequired) :
    ∃ memo, dpKnapsackTopdown procs procs.length capacity (freshMemo procs.length capacity) =
      some (topdownValue (procs.map Process.memoryRequired).reverse capacity, memo) := by
  rw [← sizes_length]
  exact dpKnapsackTopdown_freshMemo (le_refl _) hmem hc

theorem dpKnapsack_agree_iff (hc : 0 ≤ capacity) (hmem : ∀ p ∈ procs, 0 ≤ p.memoryRequired) :
    (∃ value memo,
      dpKnapsackTopdown procs procs.length capacity (freshMemo procs.length capacity) =
        some (value, memo) ∧
      dpKnapsackBottomup procs procs.length capacity = some value) ↔
    ((procs.length : Int) < intMax ∧ capacity < intMax) ∧
      ZerosCounted capacity (procs.map Process.memoryRequired) := by
  by_cases hrange : (procs.length : Int) < intMax ∧ capacity < intMax
  swap
  · rw [dpKnapsackBottomup_eq_none hc hrange]
    simp [hrange]
  rw [and_iff_right hrange]
  have hsizes : ∀ w ∈ procs.map Process.memoryRequired, 0 ≤ w := by
    simpa using hmem
  have hsizes' : ∀ w ∈ (procs.map Process.memoryRequired).reverse, 0 ≤ w := by
    simpa using hmem
  obtain ⟨memo, hrun⟩ := dpKnapsackTopdown_fresh hc hmem
  have hbottomup := dpKnapsackBottomup_count hc hmem hrange
  have hiff := topdownValue_eq_iff_choice hsizes' hc
  rw [bottomupValue_eq hsizes' hc, smallestFirst_perm (List.reverse_perm _)] at hiff
  have hcall : (∃ value memo,
      dpKnapsackTopdown procs procs.length capacity (freshMemo procs.length capacity) =
        some (value, memo) ∧
      dpKnapsackBottomup procs procs.length capacity = some value) ↔
      topdownValue (procs.map Process.memoryRequired).reverse capacity =
        (smallestFirst (procs.map Process.memoryRequired) capacity).length := by
    rw [hrun, hbottomup]
    constructor
    · rintro ⟨value, memo', htop, hbot⟩
      obtain ⟨rfl, -⟩ := Prod.mk.inj (Option.some.inj htop)
      exact (Option.some.inj hbot).symm
    · intro h
      exact ⟨_, memo, rfl, congrArg some h.symm⟩
  rw [hcall, hiff]
  constructor
  · rintro ⟨S, hS, hsum, hu, hlen⟩
    exact zerosCounted_of_choice hsizes hc hS hsum hu hlen
  · exact exists_choice_of_zerosCounted hsizes hc

end Calls

theorem dpKnapsackBottomup_isGreatest_iff_example :
    let procs := [processCreate 1 5 0 4, processCreate 2 4 0 3, processCreate 3 1 0 2]
    ∃ best : Nat, dpKnapsackBottomup procs 3 5 = some (best : Int) ∧
      IsGreatest {k | ∃ s : Finset (Fin 3), ∑ i ∈ s, procs[i].memoryRequired ≤ 5 ∧ s.card = k} best :=
  (dpKnapsackBottomup_isGreatest_iff (by decide) (by decide)).mpr (by decide)

/-- `capacity + 1` overflows. -/
theorem dpKnapsackBottomup_largest_capacity :
    let procs := [processCreate 1 5 0 4]
    dpKnapsackBottomup procs 1 2147483647 = none ∧
    ¬ ∃ best : Nat, dpKnapsackBottomup procs 1 2147483647 = some (best : Int) ∧
      IsGreatest {k | ∃ s : Finset (Fin 1),
        ∑ i ∈ s, procs[i].memoryRequired ≤ 2147483647 ∧ s.card = k} best := by
  intro procs
  have hnone : dpKnapsackBottomup procs 1 2147483647 = none :=
    dpKnapsackBottomup_eq_none (by decide) (by decide)
  refine ⟨hnone, ?_⟩
  rintro ⟨best, hbest, -⟩
  rw [hnone] at hbest
  cases hbest

theorem dpKnapsack_agree_iff_example :
    let procs := [processCreate 1 5 0 3, processCreate 2 4 0 0]
    (∃ value memo, dpKnapsackTopdown procs procs.length 5 (freshMemo procs.length 5) =
        some (value, memo) ∧ dpKnapsackBottomup procs procs.length 5 = some value) ↔
    ((procs.length : Int) < intMax ∧ 5 < intMax) ∧
      ZerosCounted 5 (procs.map Process.memoryRequired) :=
  dpKnapsack_agree_iff (by decide) (by decide)

/-- The process that needs no memory is lost once the other one has used it all. -/
theorem dpKnapsack_differ :
    let procs := [processCreate 1 5 0 0, processCreate 2 3 0 5]
    dpKnapsackBottomup procs procs.length 5 = some 2 ∧
    (dpKnapsackTopdown procs procs.length 5 (freshMemo procs.length 5)).map Prod.fst = some 1 := by
  decide

end MiniOS
