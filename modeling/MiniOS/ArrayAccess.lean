import Mathlib.Data.List.Basic

/-! Reads, writes and block copies of an array at machine indices; an access
outside the array has no result. -/

namespace ArrayAccess

variable {α : Type*}

def read (xs : List α) (i : Int) : Option α := if 0 ≤ i then xs[i.toNat]? else none

def write (xs : List α) (i : Int) (x : α) : Option (List α) :=
  if 0 ≤ i ∧ i < xs.length then some (xs.set i.toNat x) else none

def copy (xs : List α) (start n : Int) : Option (List α) :=
  if 0 ≤ start ∧ 0 ≤ n ∧ start + n ≤ xs.length then some ((xs.drop start.toNat).take n.toNat)
  else none

/-- A write that may touch the cells `lo..hi` only. -/
def writeWithin (lo hi : Int) (xs : List α) (i : Int) (x : α) : Option (List α) :=
  if lo ≤ i ∧ i ≤ hi then write xs i x else none

def copyWithin (lo hi : Int) (xs : List α) (start n : Int) : Option (List α) :=
  if lo ≤ start ∧ start + n - 1 ≤ hi then copy xs start n else none

/-- The cells `left..right`. -/
def slice (xs : List α) (left right : Int) : List α :=
  (xs.drop left.toNat).take (right - left + 1).toNat

theorem length_of_copy {xs ys : List α} {start n : Int} (h : copy xs start n = some ys) :
    (ys.length : Int) = n := by
  by_cases hin : 0 ≤ start ∧ 0 ≤ n ∧ start + n ≤ xs.length
  · rw [copy, if_pos hin, Option.some_inj] at h
    rw [← h, List.length_take, List.length_drop]
    omega
  · simp [copy, hin] at h

theorem read_congr_prefix {pre mid mid' post : List α} (hlen : mid'.length = mid.length) {i : Int}
    (hi : i < pre.length ∨ pre.length + mid.length ≤ i) :
    read (pre ++ mid' ++ post) i = read (pre ++ mid ++ post) i := by
  by_cases hneg : 0 ≤ i
  · obtain ⟨k, rfl⟩ := Int.eq_ofNat_of_zero_le hneg
    rw [read, read, if_pos hneg, if_pos hneg, Int.toNat_natCast, List.append_assoc, List.append_assoc]
    by_cases hk : k < pre.length
    · rw [List.getElem?_append_left hk, List.getElem?_append_left hk]
    · have hk' : pre.length + mid.length ≤ k := by omega
      rw [List.getElem?_append_right (by omega), List.getElem?_append_right (by omega),
        List.getElem?_append_right (by omega), List.getElem?_append_right (by omega), hlen]
  · rw [read, read, if_neg hneg, if_neg hneg]

theorem slice_append (pre mid post : List α) {left right : Int} (hleft : left = pre.length)
    (hright : right = left + mid.length - 1) : slice (pre ++ mid ++ post) left right = mid := by
  have hlen : (right - left + 1).toNat = mid.length := by omega
  rw [slice, hlen, hleft, Int.toNat_natCast, List.append_assoc, List.drop_left, List.take_left]

theorem exists_slice {xs : List α} {left right : Int} (hleft : 0 ≤ left) (hle : left ≤ right + 1)
    (hright : right < xs.length) : ∃ pre mid post, xs = pre ++ mid ++ post ∧
      left = pre.length ∧ right = left + mid.length - 1 := by
  obtain ⟨l, rfl⟩ := Int.eq_ofNat_of_zero_le hleft
  obtain ⟨n, hn⟩ := Int.eq_ofNat_of_zero_le (show 0 ≤ right - l + 1 by omega)
  refine ⟨xs.take l, (xs.drop l).take n, (xs.drop l).drop n, ?_, ?_, ?_⟩
  · rw [List.append_assoc, List.take_append_drop, List.take_append_drop]
  · rw [List.length_take]
    omega
  · rw [List.length_take, List.length_drop]
    omega

section Split

variable (pre post : List α) (x y : α)

theorem read_append : read (pre ++ x :: post) pre.length = some x := by
  simp [read]

theorem write_append : write (pre ++ x :: post) pre.length y = some (pre ++ y :: post) := by
  have hlt : (pre.length : Int) < (pre ++ x :: post).length := by
    simp only [List.length_append, List.length_cons]
    omega
  rw [write, if_pos ⟨by omega, hlt⟩]
  simp

theorem copy_append (mid : List α) : copy (pre ++ mid ++ post) pre.length mid.length = some mid := by
  have hle : (pre.length : Int) + mid.length ≤ (pre ++ mid ++ post).length := by
    simp only [List.length_append]
    omega
  rw [copy, if_pos ⟨by omega, by omega, hle⟩]
  simp

end Split

/-! Arrays of rows. -/

def readCell (t : List (List α)) (i j : Int) : Option α := (read t i).bind (fun row => read row j)

def writeCell (t : List (List α)) (i j : Int) (x : α) : Option (List (List α)) :=
  (read t i).bind (fun row => (write row j x).bind (write t i))

/-- At least `rows` rows, the first `rows` of them at least `cols` wide. -/
structure AtLeast (t : List (List α)) (rows : Nat) (cols : Int) : Prop where
  rows_le : rows ≤ t.length
  cols_le : ∀ row ∈ t.take rows, cols ≤ row.length

theorem exists_read_of_lt {xs : List α} {i : Int} (hi : 0 ≤ i) (hlt : i < xs.length) :
    ∃ x ∈ xs, read xs i = some x := by
  obtain ⟨k, rfl⟩ := Int.eq_ofNat_of_zero_le hi
  have hk : k < xs.length := by omega
  exact ⟨xs[k], List.getElem_mem hk, by simp [read, hk]⟩

theorem exists_write {xs : List α} {i : Int} {y : α} (h : read xs i = some y) (x : α) :
    ∃ ys, write xs i x = some ys ∧ ys.length = xs.length ∧
      ∀ j, read ys j = if j = i then some x else read xs j := by
  by_cases hi : 0 ≤ i
  swap
  · rw [read, if_neg hi] at h
    cases h
  rw [read, if_pos hi] at h
  obtain ⟨hlt, -⟩ := List.getElem?_eq_some_iff.mp h
  refine ⟨xs.set i.toNat x, ?_, List.length_set, fun j => ?_⟩
  · rw [write, if_pos ⟨hi, by omega⟩]
  · by_cases hj : 0 ≤ j
    · have hiff : i.toNat = j.toNat ↔ j = i := by omega
      rw [read, read, if_pos hj, if_pos hj, List.getElem?_set]
      simp [hiff, hlt]
    · rw [read, read, if_neg hj, if_neg hj, if_neg (by omega)]

theorem AtLeast.exists_readCell {t : List (List α)} {rows : Nat} {cols : Int}
    (h : AtLeast t rows cols) {i : Nat} (hi : i < rows) {j : Int} (hj : 0 ≤ j) (hlt : j < cols) :
    ∃ x, readCell t i j = some x := by
  have hrow : (i : Int) < (t.take rows).length := by
    have hrows := h.rows_le
    rw [List.length_take]
    omega
  obtain ⟨row, hmem, hread⟩ := exists_read_of_lt (Int.natCast_nonneg i) hrow
  obtain ⟨x, -, hx⟩ := exists_read_of_lt hj (Int.lt_of_lt_of_le hlt (h.cols_le row hmem))
  refine ⟨x, ?_⟩
  have hsame : read t i = some row := by
    rw [read, if_pos (Int.natCast_nonneg i), Int.toNat_natCast] at hread ⊢
    rwa [List.getElem?_take_of_lt hi] at hread
  rw [readCell, hsame]
  exact hx

theorem AtLeast.of_lengths {t t' : List (List α)} {rows : Nat} {cols : Int}
    (h : AtLeast t rows cols) (hlen : t'.map List.length = t.map List.length) :
    AtLeast t' rows cols where
  rows_le := by
    have hrows := congrArg List.length hlen
    rw [List.length_map, List.length_map] at hrows
    exact hrows ▸ h.rows_le
  cols_le := by
    intro row hrow
    have hmem : row.length ∈ (t.take rows).map List.length := by
      rw [List.map_take, ← hlen, ← List.map_take]
      exact List.mem_map_of_mem hrow
    obtain ⟨row', hrow', hlen'⟩ := List.mem_map.mp hmem
    rw [← hlen']
    exact h.cols_le row' hrow'

theorem exists_writeCell {t : List (List α)} {i j : Int} {y : α} (h : readCell t i j = some y) (x : α) :
    ∃ t', writeCell t i j x = some t' ∧ t'.map List.length = t.map List.length ∧
      ∀ i' j', readCell t' i' j' = if i' = i ∧ j' = j then some x else readCell t i' j' := by
  obtain ⟨row, hrow, hcell⟩ := Option.bind_eq_some_iff.mp h
  obtain ⟨row', hwrite, hlen, hcells⟩ := exists_write hcell x
  obtain ⟨t', hwrite', hlen', hrows⟩ := exists_write hrow row'
  refine ⟨t', ?_, ?_, fun i' j' => ?_⟩
  · rw [writeCell, hrow, Option.bind_some, hwrite, Option.bind_some, hwrite']
  · apply List.ext_getElem? fun k => ?_
    have hk := hrows k
    rw [read, read, if_pos (Int.natCast_nonneg k), if_pos (Int.natCast_nonneg k),
      Int.toNat_natCast] at hk
    rw [List.getElem?_map, List.getElem?_map, hk]
    split_ifs with hki
    · rw [read, ← hki, if_pos (Int.natCast_nonneg k), Int.toNat_natCast] at hrow
      rw [hrow, Option.map_some, Option.map_some, hlen]
    · rfl
  · by_cases hi : i' = i
    · subst hi
      rw [readCell, readCell, hrows, if_pos rfl, hrow, Option.bind_some, Option.bind_some, hcells]
      simp
    · rw [readCell, readCell, hrows, if_neg hi, if_neg (fun hboth => hi hboth.1)]

/-- Access to a cell in the rows `1..rows` and columns `1..cols` only. -/
def readCellWithin (rows cols : Int) (t : List (List α)) (i j : Int) : Option α :=
  if (1 ≤ i ∧ i ≤ rows) ∧ 1 ≤ j ∧ j ≤ cols then readCell t i j else none

def writeCellWithin (rows cols : Int) (t : List (List α)) (i j : Int) (x : α) :
    Option (List (List α)) :=
  if (1 ≤ i ∧ i ≤ rows) ∧ 1 ≤ j ∧ j ≤ cols then writeCell t i j x else none

theorem readCell_of_within {rows cols : Int} {t : List (List α)} {i j : Int} {x : α}
    (h : readCellWithin rows cols t i j = some x) : readCell t i j = some x := by
  rw [readCellWithin] at h
  split_ifs at h
  exact h

theorem writeCell_of_within {rows cols : Int} {t t' : List (List α)} {i j : Int} {x : α}
    (h : writeCellWithin rows cols t i j x = some t') : writeCell t i j x = some t' := by
  rw [writeCellWithin] at h
  split_ifs at h
  exact h

/-- The array whose cell in row `i` and column `j` is `F i j`. -/
def grid (rows cols : Nat) (F : Nat → Nat → α) : List (List α) :=
  (List.range rows).map (fun i => (List.range cols).map (F i))

def put (F : Nat → Nat → α) (i j : Nat) (x : α) : Nat → Nat → α :=
  fun i' j' => if i' = i ∧ j' = j then x else F i' j'

theorem put_put (F : Nat → Nat → α) (i j : Nat) (x y : α) : put (put F i j x) i j y = put F i j y := by
  funext i' j'
  by_cases h : i' = i ∧ j' = j
  · simp only [put, if_pos h]
  · simp only [put, if_neg h]

section Grid

variable {rows cols i j : Nat} {F G : Nat → Nat → α}

theorem grid_congr (h : ∀ i < rows, ∀ j < cols, F i j = G i j) : grid rows cols F = grid rows cols G := by
  refine List.map_congr_left (fun i hi => List.map_congr_left (fun j hj => ?_))
  exact h i (List.mem_range.mp hi) j (List.mem_range.mp hj)

theorem grid_const (rows cols : Nat) (x : α) :
    List.replicate rows (List.replicate cols x) = grid rows cols (fun _ _ => x) := by
  simp [grid]

theorem read_map_range (f : Nat → α) {n i : Nat} (hi : i < n) :
    read ((List.range n).map f) i = some (f i) := by
  simp [read, hi]

theorem write_map_range (f : Nat → α) {n i : Nat} (hi : i < n) (x : α) :
    write ((List.range n).map f) i x =
      some ((List.range n).map (fun i' => if i' = i then x else f i')) := by
  rw [write, if_pos ⟨by omega, by simpa using hi⟩]
  congr 1
  apply List.ext_getElem (by simp)
  intro k hk _
  simp only [Int.toNat_natCast, List.getElem_set, List.getElem_map, List.getElem_range, eq_comm]

theorem readCell_grid (hi : i < rows) (hj : j < cols) :
    readCell (grid rows cols F) i j = some (F i j) := by
  rw [readCell, grid, read_map_range _ hi, Option.bind_some, read_map_range _ hj]

theorem exists_of_readCell_grid {j : Int} {x : α} (h : readCell (grid rows cols F) i j = some x) :
    i < rows ∧ ∃ k : Nat, j = k ∧ x = F i k := by
  obtain ⟨row, hrow, hcell⟩ := Option.bind_eq_some_iff.mp h
  have hi : i < rows := by
    by_contra hi
    simp [read, grid, hi] at hrow
  rw [grid, read_map_range _ hi, Option.some_inj] at hrow
  by_cases hj : 0 ≤ j
  · obtain ⟨k, rfl⟩ := Int.eq_ofNat_of_zero_le hj
    have hk : k < cols := by
      by_contra hk
      simp [read, ← hrow, hk] at hcell
    rw [← hrow, read_map_range _ hk, Option.some_inj] at hcell
    exact ⟨hi, k, rfl, hcell.symm⟩
  · rw [read, if_neg hj] at hcell
    cases hcell

theorem grid_lengths : (grid rows cols F).map List.length = List.replicate rows cols := by
  simp [grid, List.eq_replicate_iff]

theorem atLeast_of_lengths {t : List (List α)} (h : t.map List.length = List.replicate rows cols) :
    AtLeast t rows cols where
  rows_le := by
    have hrows := congrArg List.length h
    rw [List.length_map, List.length_replicate] at hrows
    exact Nat.le_of_eq hrows.symm
  cols_le := by
    intro row hrow
    have hmem := List.mem_map_of_mem (f := List.length) (List.mem_of_mem_take hrow)
    rw [h] at hmem
    exact Int.ofNat_le.mpr (Nat.le_of_eq (List.eq_of_mem_replicate hmem).symm)

theorem eq_grid {t : List (List α)} (h : t.map List.length = List.replicate rows cols) (x : α) :
    t = grid rows cols (fun i j => (readCell t i j).getD x) := by
  have hrows : t.length = rows := by simpa using congrArg List.length h
  apply List.ext_getElem (by simp [grid, hrows])
  intro i hi _
  have hcols : t[i].length = cols := by
    have hrow : t[i].length ∈ t.map List.length := List.mem_map_of_mem (List.getElem_mem hi)
    rw [h] at hrow
    exact List.eq_of_mem_replicate hrow
  apply List.ext_getElem (by simp [grid, hcols])
  intro j hj _
  simp [grid, readCell, read, hi, hj]

theorem writeCell_grid (hi : i < rows) (hj : j < cols) (x : α) :
    writeCell (grid rows cols F) i j x = some (grid rows cols (put F i j x)) := by
  rw [writeCell, grid, read_map_range _ hi, Option.bind_some, write_map_range _ hj,
    Option.bind_some, write_map_range _ hi]
  congr 1
  apply List.map_congr_left
  intro i' _
  by_cases h : i' = i
  · subst h
    simp [put]
  · simp [put, h]

end Grid

/-- A loop `for (k = 0; k < n; k++)` whose body takes `inv k` to `inv (k + 1)`. -/
theorem foldlM_range {β : Type*} {body : β → Nat → Option β} {n : Nat} (inv : Nat → β)
    (h : ∀ k < n, body (inv k) k = some (inv (k + 1))) :
    (List.range n).foldlM body (inv 0) = some (inv n) := by
  induction n with
  | zero => rfl
  | succ n ih =>
    rw [List.range_succ, List.foldlM_append, ih (fun k hk => h k (Nat.lt_succ_of_lt hk))]
    simp [h n (Nat.lt_succ_self n)]

end ArrayAccess
