import MiniOS.ArrayAccess
import MiniOS.IntRange
import MiniOS.Process

/-! The two knapsack functions, bottom-up over a table and top-down with a memo,
and the recursions on capacities whose values they return. -/

namespace MiniOS

open ArrayAccess

abbrev Table := List (List Int)

/-- One iteration of the inner loop, for row `i` and a process of size `w`. -/
def dpCell (w i : Int) (dp : Table) (cap : Nat) : Option Table := do
  let without ← readCell dp (i - 1) cap
  let dp ← writeCell dp i cap without
  if w ≤ cap then
    let before ← readCell dp (i - 1) (cap - w)
    let current ← readCell dp i cap
    if before + 1 > current then writeCell dp i cap (before + 1) else some dp
  else some dp

def dpRow (procs : List Process) (capacity : Int) (dp : Table) (i : Nat) : Option Table := do
  let p ← read procs i
  (List.range (capacity + 1).toNat).foldlM (dpCell p.memoryRequired (i + 1)) dp

/-- The sizes of the table and the last values of the loop counters are `n + 1` and
`capacity + 1`, which overflow when `n` or `capacity` is the largest `int`. -/
def dpKnapsackBottomup (procs : List Process) (n : Nat) (capacity : Int) : Option Int := do
  let rows ← checked (n + 1)
  let columns ← checked (capacity + 1)
  let dp := List.replicate rows.toNat (List.replicate columns.toNat 0)
  let dp ← (List.range n).foldlM (dpRow procs capacity) dp
  readCell dp n capacity

def dpKnapsackTopdown (procs : List Process) : Nat → Int → Table → Option (Int × Table)
  | 0, _, memo => some (0, memo)
  | n + 1, capacity, memo =>
    if capacity = 0 then some (0, memo)
    else do
      let known ← readCell memo (n + 1) capacity
      if known ≠ -1 then some (known, memo)
      else
        let p ← read procs n
        let w := p.memoryRequired
        let (without, memo) ← dpKnapsackTopdown procs n capacity memo
        let included :=
          if w ≤ capacity then
            (dpKnapsackTopdown procs n (capacity - w) memo).map (fun r => (1 + r.1, r.2))
          else some (0, memo)
        let (taken, memo) ← included
        let memo ← writeCell memo (n + 1) capacity (if taken > without then taken else without)
        let result ← readCell memo (n + 1) capacity
        some (result, memo)

/-- The same function with every access of the memo checked against the rows
`1..rows` and the columns `1..cols`. -/
def dpKnapsackTopdownWithin (rows cols : Int) (procs : List Process) :
    Nat → Int → Table → Option (Int × Table)
  | 0, _, memo => some (0, memo)
  | n + 1, capacity, memo =>
    if capacity = 0 then some (0, memo)
    else do
      let known ← readCellWithin rows cols memo (n + 1) capacity
      if known ≠ -1 then some (known, memo)
      else
        let p ← read procs n
        let w := p.memoryRequired
        let (without, memo) ← dpKnapsackTopdownWithin rows cols procs n capacity memo
        let included :=
          if w ≤ capacity then
            (dpKnapsackTopdownWithin rows cols procs n (capacity - w) memo).map
              (fun r => (1 + r.1, r.2))
          else some (0, memo)
        let (taken, memo) ← included
        let memo ← writeCellWithin rows cols memo (n + 1) capacity
          (if taken > without then taken else without)
        let result ← readCellWithin rows cols memo (n + 1) capacity
        some (result, memo)

def freshMemo (n : Nat) (capacity : Int) : Table :=
  List.replicate (n + 1) (List.replicate (capacity + 1).toNat (-1))

/-- The recursion behind the bottom-up table, on the sizes of the last process first. -/
def bottomupValue : List Int → Int → Int
  | [], _ => 0
  | w :: ws, c =>
    let without := bottomupValue ws c
    if w ≤ c ∧ bottomupValue ws (c - w) + 1 > without then bottomupValue ws (c - w) + 1
    else without

/-- The recursion of the top-down function without its memo. -/
def topdownValue : List Int → Int → Int
  | [], _ => 0
  | w :: ws, c =>
    if c = 0 then 0
    else
      let without := topdownValue ws c
      let taken := if w ≤ c then 1 + topdownValue ws (c - w) else 0
      if taken > without then taken else without

/-- The sizes of the first `n` processes, the last one first. -/
def sizes (procs : List Process) (n : Nat) : List Int :=
  ((procs.map Process.memoryRequired).take n).reverse

theorem exists_read {procs : List Process} {n : Nat} (hn : n < procs.length) :
    ∃ p ∈ procs, read procs n = some p ∧ sizes procs (n + 1) = p.memoryRequired :: sizes procs n := by
  refine ⟨procs[n], List.getElem_mem hn, ?_, ?_⟩
  · simp [ArrayAccess.read, hn]
  · rw [sizes, sizes, List.take_succ_eq_append_getElem (by simpa using hn), List.reverse_append]
    simp

section Bottomup

variable {procs : List Process} {n C : Nat}

/-- Rows `0..i` done and row `i + 1` done up to column `k`. -/
def partialTable (procs : List Process) (i k : Nat) : Nat → Nat → Int := fun r c =>
  if r ≤ i ∨ r = i + 1 ∧ c < k then bottomupValue (sizes procs r) c else 0

theorem put_partialTable (i k r c : Nat) :
    put (partialTable procs i k) (i + 1) k (bottomupValue (sizes procs (i + 1)) k) r c =
      partialTable procs i (k + 1) r c := by
  by_cases hcell : r = i + 1 ∧ c = k
  · obtain ⟨rfl, rfl⟩ := hcell
    rw [put, if_pos ⟨rfl, rfl⟩, partialTable, if_pos (Or.inr ⟨rfl, Nat.lt_succ_self _⟩)]
  · have hiff : (r ≤ i ∨ r = i + 1 ∧ c < k) ↔ (r ≤ i ∨ r = i + 1 ∧ c < k + 1) := by omega
    rw [put, if_neg hcell]
    simp only [partialTable, hiff]

theorem dpCell_partialTable {w : Int} {i k : Nat} (hi : i < n) (hk : k < C + 1) (hw : 0 ≤ w)
    (hp : sizes procs (i + 1) = w :: sizes procs i) :
    dpCell w (i + 1) (grid (n + 1) (C + 1) (partialTable procs i k)) k =
      some (grid (n + 1) (C + 1) (partialTable procs i (k + 1))) := by
  obtain ⟨W, rfl⟩ := Int.eq_ofNat_of_zero_le hw
  have hprev : ∀ c, partialTable procs i k i c = bottomupValue (sizes procs i) c :=
    fun c => if_pos (Or.inl (le_refl i))
  have hrow : (i : Int) + 1 - 1 = i := by omega
  have hnext : (i : Int) + 1 = (i + 1 : Nat) := rfl
  have hdone : ∀ v, v = bottomupValue (sizes procs (i + 1)) k →
      grid (n + 1) (C + 1) (put (partialTable procs i k) (i + 1) k v) =
        grid (n + 1) (C + 1) (partialTable procs i (k + 1)) := by
    rintro v rfl
    apply grid_congr
    intro r _ c _
    exact put_partialTable i k r c
  generalize partialTable procs i k = F at hprev hdone
  have hread : readCell (grid (n + 1) (C + 1) F) (i + 1 - 1) k =
      some (bottomupValue (sizes procs i) k) := by
    rw [hrow, readCell_grid (by omega) hk, hprev]
  have hwrite : ∀ (G : Nat → Nat → Int) (v : Int), writeCell (grid (n + 1) (C + 1) G) (i + 1) k v =
      some (grid (n + 1) (C + 1) (put G (i + 1) k v)) := by
    intro G v
    rw [hnext, writeCell_grid (by omega) hk]
  simp only [dpCell, Option.bind_eq_bind, hread, Option.bind_some, hwrite]
  by_cases hfit : (W : Int) ≤ k
  · have hcol : (k : Int) - W = (k - W : Nat) := by omega
    have hbefore : ∀ v, readCell (grid (n + 1) (C + 1) (put F (i + 1) k v)) (i + 1 - 1) (k - W) =
        some (bottomupValue (sizes procs i) (k - W)) := by
      intro v
      rw [hrow, hcol, readCell_grid (by omega) (by omega), put, if_neg (by omega), hprev, ← hcol]
    have hcurrent : ∀ v, readCell (grid (n + 1) (C + 1) (put F (i + 1) k v)) (i + 1) k = some v := by
      intro v
      rw [hnext, readCell_grid (by omega) hk, put, if_pos ⟨rfl, rfl⟩]
    rw [if_pos hfit, hbefore, Option.bind_some, hcurrent, Option.bind_some]
    by_cases hmore : bottomupValue (sizes procs i) (k - W) + 1 > bottomupValue (sizes procs i) k
    · rw [if_pos hmore, put_put]
      congr 1
      apply hdone
      rw [hp, bottomupValue, if_pos ⟨hfit, hmore⟩]
    · rw [if_neg hmore]
      congr 1
      apply hdone
      rw [hp, bottomupValue, if_neg (fun h => hmore h.2)]
  · rw [if_neg hfit]
    congr 1
    apply hdone
    rw [hp, bottomupValue, if_neg (fun h => hfit h.1)]

theorem dpRow_partialTable {i : Nat} (hi : i < n) (hn : n ≤ procs.length)
    (hmem : ∀ p ∈ procs, 0 ≤ p.memoryRequired) :
    dpRow procs C (grid (n + 1) (C + 1) (partialTable procs i 0)) i =
      some (grid (n + 1) (C + 1) (partialTable procs (i + 1) 0)) := by
  obtain ⟨p, hp, hread, hsizes⟩ := exists_read (show i < procs.length by omega)
  have hloop := foldlM_range (fun k => grid (n + 1) (C + 1) (partialTable procs i k))
    (fun k hk => dpCell_partialTable hi hk (hmem p hp) hsizes)
  have hfull : grid (n + 1) (C + 1) (partialTable procs i (C + 1)) =
      grid (n + 1) (C + 1) (partialTable procs (i + 1) 0) := by
    apply grid_congr
    intro r _ c hc
    have hiff : (r ≤ i ∨ r = i + 1 ∧ c < C + 1) ↔ (r ≤ i + 1 ∨ r = i + 1 + 1 ∧ c < 0) := by omega
    simp only [partialTable, hiff]
  simp only [dpRow, Option.bind_eq_bind, hread, Option.bind_some]
  rw [← hfull]
  exact hloop

theorem dpKnapsackBottomup_eq (hn : n ≤ procs.length)
    (hmem : ∀ p ∈ procs, 0 ≤ p.memoryRequired) (hrows : (n : Int) < intMax) (C : Nat)
    (hcolumns : (C : Int) < intMax) :
    dpKnapsackBottomup procs n C = some (bottomupValue (sizes procs n) C) := by
  have hloop := foldlM_range (fun i => grid (n + 1) (C + 1) (partialTable procs i 0))
    (fun i hi => dpRow_partialTable hi hn hmem)
  have hzero : List.replicate (n + 1) (List.replicate (C + 1) 0) =
      grid (n + 1) (C + 1) (partialTable procs 0 0) := by
    rw [grid_const]
    apply grid_congr
    intro r _ c _
    by_cases hr : r ≤ 0
    · obtain rfl : r = 0 := by omega
      rfl
    · rw [partialTable, if_neg (by omega)]
  have hrange : ∀ {k : Nat}, (k : Int) < intMax → checked ((k : Int) + 1) = some ((k : Int) + 1) :=
    fun {k} hk => by rw [checked_of_nonneg (by omega), if_pos (by omega)]
  have hsize : ∀ k : Nat, ((k : Int) + 1).toNat = k + 1 := fun _ => rfl
  simp only [dpKnapsackBottomup, Option.bind_eq_bind, hrange hrows, hrange hcolumns,
    Option.bind_some, hsize, hzero, hloop]
  rw [readCell_grid (Nat.lt_succ_self n) (Nat.lt_succ_self C), partialTable,
    if_pos (Or.inl (le_refl n))]

theorem dpKnapsackBottomup_eq_none {capacity : Int} (hc : 0 ≤ capacity)
    (h : ¬ ((n : Int) < intMax ∧ capacity < intMax)) : dpKnapsackBottomup procs n capacity = none := by
  rw [dpKnapsackBottomup, checked_of_nonneg (show (0 : Int) ≤ n + 1 by omega),
    checked_of_nonneg (show 0 ≤ capacity + 1 by omega)]
  by_cases hrows : (n : Int) + 1 ≤ intMax
  · have hcolumns : ¬ capacity + 1 ≤ intMax := fun hle => h ⟨by omega, by omega⟩
    rw [if_pos hrows, if_neg hcolumns]
    rfl
  · rw [if_neg hrows]
    rfl

end Bottomup

section Topdown

variable {procs : List Process} {N C : Nat}

theorem topdown_of_within {rows cols : Int} {n : Nat} {c : Int} {t : Table} {r : Int × Table}
    (h : dpKnapsackTopdownWithin rows cols procs n c t = some r) :
    dpKnapsackTopdown procs n c t = some r := by
  induction n generalizing c t r with
  | zero => exact h
  | succ n ih =>
    rw [dpKnapsackTopdownWithin] at h
    rw [dpKnapsackTopdown]
    by_cases hzero : c = 0
    · rw [if_pos hzero] at h ⊢
      exact h
    · rw [if_neg hzero] at h ⊢
      simp only [Option.bind_eq_bind, Option.bind_eq_some_iff] at h ⊢
      obtain ⟨known, hknown, h⟩ := h
      refine ⟨known, readCell_of_within hknown, ?_⟩
      by_cases hnew : known ≠ -1
      · rw [if_pos hnew] at h ⊢
        exact h
      · rw [if_neg hnew] at h ⊢
        simp only [Option.bind_eq_some_iff] at h ⊢
        obtain ⟨p, hp, without, hwithout, taken, htaken, t', hwrite, result, hread, h⟩ := h
        refine ⟨p, hp, without, ih hwithout, taken, ?_, t', writeCell_of_within hwrite, result,
          readCell_of_within hread, h⟩
        by_cases hfit : p.memoryRequired ≤ c
        · rw [if_pos hfit, Option.map_eq_some_iff] at htaken ⊢
          obtain ⟨s, hs, rfl⟩ := htaken
          exact ⟨s, ih hs, rfl⟩
        · rw [if_neg hfit] at htaken ⊢
          exact htaken

/-- Every entry is still empty or the value of its indices. -/
def MemoCorrect (procs : List Process) (t : Table) : Prop :=
  ∀ (i : Nat) (j v : Int), i ≤ procs.length → readCell t i j = some v →
    v = -1 ∨ v = topdownValue (sizes procs i) j

/-- What a call may do to the memo. -/
structure MemoStep (procs : List Process) (t t' : Table) : Prop where
  correct : MemoCorrect procs t'
  lengths : t'.map List.length = t.map List.length
  kept : ∀ i j v, readCell t i j = some v → v ≠ -1 → readCell t' i j = some v

theorem MemoStep.refl {t : Table} (h : MemoCorrect procs t) : MemoStep procs t t :=
  ⟨h, rfl, fun _ _ _ hv _ => hv⟩

theorem MemoStep.trans {t t' t'' : Table} (h : MemoStep procs t t') (h' : MemoStep procs t' t'') :
    MemoStep procs t t'' where
  correct := h'.correct
  lengths := h'.lengths.trans h.lengths
  kept i j v hv hne := h'.kept i j v (h.kept i j v hv hne) hne

theorem MemoStep.store {t t' : Table} (h : MemoStep procs t t') {i : Nat} {j : Int}
    (hempty : readCell t i j = some (-1)) {y : Int} (hy : readCell t' i j = some y) :
    ∃ t'', writeCell t' i j (topdownValue (sizes procs i) j) = some t'' ∧
      readCell t'' i j = some (topdownValue (sizes procs i) j) ∧ MemoStep procs t t'' := by
  obtain ⟨t'', hwrite, hlengths, hcells⟩ := exists_writeCell hy (topdownValue (sizes procs i) j)
  refine ⟨t'', hwrite, by rw [hcells, if_pos ⟨rfl, rfl⟩], ?_, hlengths.trans h.lengths, ?_⟩
  · intro i' j' v hi' hv
    rw [hcells] at hv
    split_ifs at hv with hcell
    · obtain ⟨hi, rfl⟩ := hcell
      obtain rfl : i' = i := by omega
      exact Or.inr (Option.some.inj hv).symm
    · exact h.correct i' j' v hi' hv
  · intro i' j' v hv hne
    rw [hcells, if_neg]
    · exact h.kept i' j' v hv hne
    · rintro ⟨rfl, rfl⟩
      rw [hempty] at hv
      exact hne (Option.some.inj hv).symm

/-- The memo changes no value, stays correct and loses no entry. -/
theorem dpKnapsackTopdownWithin_spec {n : Nat} (hn : n ≤ N) (hN : N ≤ procs.length)
    (hmem : ∀ p ∈ procs, 0 ≤ p.memoryRequired) {c cols : Int} (hc : 0 ≤ c) (hcols : c ≤ cols)
    {t : Table} (ht : AtLeast t (N + 1) (cols + 1)) (hcorrect : MemoCorrect procs t) :
    ∃ t', dpKnapsackTopdownWithin N cols procs n c t =
      some (topdownValue (sizes procs n) c, t') ∧ MemoStep procs t t' := by
  induction n generalizing c t with
  | zero => exact ⟨t, rfl, MemoStep.refl hcorrect⟩
  | succ n ih =>
    obtain ⟨p, hp, hread, hsizes⟩ := exists_read (show n < procs.length by omega)
    have hw := hmem p hp
    by_cases hzero : c = 0
    · refine ⟨t, ?_, MemoStep.refl hcorrect⟩
      rw [dpKnapsackTopdownWithin, if_pos hzero, hsizes, topdownValue, if_pos hzero]
    have hwindow : (1 ≤ (n : Int) + 1 ∧ (n : Int) + 1 ≤ N) ∧ 1 ≤ c ∧ c ≤ cols := by omega
    have hcell : ∀ {s : Table}, MemoStep procs t s → ∃ v, readCell s (n + 1) c = some v :=
      fun hs => (ht.of_lengths hs.lengths).exists_readCell (show n + 1 < N + 1 by omega) hc (by omega)
    obtain ⟨known, hknown⟩ := hcell (MemoStep.refl hcorrect)
    rw [dpKnapsackTopdownWithin, if_neg hzero]
    simp only [Option.bind_eq_bind, readCellWithin, writeCellWithin, if_pos hwindow, hknown,
      Option.bind_some]
    by_cases hempty : known = -1
    swap
    · have hval := (hcorrect (n + 1) c known (by omega) hknown).resolve_left hempty
      exact ⟨t, by rw [if_pos hempty, hval], MemoStep.refl hcorrect⟩
    obtain ⟨t₁, hwithout, h₁⟩ := ih (by omega) hc hcols ht hcorrect
    have htaken : ∃ t₂, MemoStep procs t t₂ ∧
        (if p.memoryRequired ≤ c then
          (dpKnapsackTopdownWithin N cols procs n (c - p.memoryRequired) t₁).map
            (fun r => (1 + r.1, r.2))
        else some (0, t₁)) =
        some (if p.memoryRequired ≤ c then
          1 + topdownValue (sizes procs n) (c - p.memoryRequired) else 0, t₂) := by
      by_cases hfit : p.memoryRequired ≤ c
      · obtain ⟨t₂, hwith, h₂⟩ := ih (by omega) (show 0 ≤ c - p.memoryRequired by omega) (by omega)
          (ht.of_lengths h₁.lengths) h₁.correct
        refine ⟨t₂, h₁.trans h₂, ?_⟩
        rw [if_pos hfit, if_pos hfit, hwith]
        rfl
      · refine ⟨t₁, h₁, ?_⟩
        rw [if_neg hfit, if_neg hfit]
    obtain ⟨t₂, h₂, hbranch⟩ := htaken
    have hvalue : topdownValue (sizes procs (n + 1)) c =
        if (if p.memoryRequired ≤ c then
          1 + topdownValue (sizes procs n) (c - p.memoryRequired) else 0) >
          topdownValue (sizes procs n) c then
          (if p.memoryRequired ≤ c then
            1 + topdownValue (sizes procs n) (c - p.memoryRequired) else 0)
        else topdownValue (sizes procs n) c := by
      rw [hsizes, topdownValue, if_neg hzero]
    obtain ⟨y, hy⟩ := hcell h₂
    rw [hempty] at hknown
    obtain ⟨t₃, hwrite, hresult, h₃⟩ := h₂.store (i := n + 1) hknown hy
    refine ⟨t₃, ?_, h₃⟩
    rw [if_neg (not_not.mpr hempty)]
    simp only [hread, Option.bind_some, hwithout, hbranch, ← hvalue]
    have hwrite' : writeCell t₂ (n + 1) c (topdownValue (sizes procs (n + 1)) c) = some t₃ := hwrite
    have hresult' : readCell t₃ (n + 1) c = some (topdownValue (sizes procs (n + 1)) c) := hresult
    rw [hwrite', Option.bind_some, hresult', Option.bind_some]

def Memoised (procs : List Process) (F : Nat → Nat → Int) : Prop :=
  ∀ i c, F i c = -1 ∨ F i c = topdownValue (sizes procs i) c

theorem dpKnapsackTopdown_eq {n : Nat} (hn : n ≤ N) (hN : N ≤ procs.length)
    (hmem : ∀ p ∈ procs, 0 ≤ p.memoryRequired) {c : Nat} (hc : c ≤ C) {F : Nat → Nat → Int}
    (hF : Memoised procs F) :
    ∃ F', Memoised procs F' ∧ dpKnapsackTopdown procs n c (grid (N + 1) (C + 1) F) =
      some (topdownValue (sizes procs n) c, grid (N + 1) (C + 1) F') := by
  have hcorrect : MemoCorrect procs (grid (N + 1) (C + 1) F) := by
    intro i j v _ hv
    obtain ⟨-, k, rfl, rfl⟩ := exists_of_readCell_grid hv
    exact hF i k
  obtain ⟨t, hrun, ht⟩ := dpKnapsackTopdownWithin_spec hn hN hmem (Int.natCast_nonneg c)
    (show (c : Int) ≤ C by omega) (atLeast_of_lengths grid_lengths) hcorrect
  have hlengths := ht.lengths.trans grid_lengths
  refine ⟨fun i j => (readCell t i j).getD (-1), ?_, ?_⟩
  · intro i j
    show (readCell t i j).getD (-1) = -1 ∨ (readCell t i j).getD (-1) = _
    cases hcell : readCell t i j with
    | none => exact Or.inl rfl
    | some v =>
      rw [Option.getD_some]
      have hgrid := hcell
      rw [eq_grid hlengths (-1)] at hgrid
      obtain ⟨hi, -⟩ := exists_of_readCell_grid hgrid
      exact ht.correct i j v (by omega) hcell
  · rw [← eq_grid hlengths (-1)]
    exact topdown_of_within hrun

theorem dpKnapsackTopdown_freshMemo {n : Nat} (hn : n ≤ procs.length)
    (hmem : ∀ p ∈ procs, 0 ≤ p.memoryRequired) {c : Int} (hc : 0 ≤ c) :
    ∃ memo, dpKnapsackTopdown procs n c (freshMemo n c) =
      some (topdownValue (sizes procs n) c, memo) := by
  obtain ⟨C, rfl⟩ := Int.eq_ofNat_of_zero_le hc
  have hempty : Memoised procs (fun _ _ => -1) := fun _ _ => Or.inl rfl
  obtain ⟨F, -, hrun⟩ := dpKnapsackTopdown_eq (le_refl n) hn hmem (le_refl C) hempty
  have hfresh : freshMemo n C = grid (n + 1) (C + 1) (fun _ _ => -1) := grid_const _ _ _
  rw [hfresh]
  exact ⟨_, hrun⟩

end Topdown

end MiniOS
