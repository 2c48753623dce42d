import MiniOS.Fragmentation

/-! How much memory can be free when a request is refused. With `k` blocks held there are at
most `k + 1` free ones, and a request for `size` units fails only if all of them are smaller. -/

namespace MiniOS

theorem freeBlocks_eq_unlabelled (blocks : List MemoryBlock) :
    freeBlocks blocks = blockLayout.unlabelled blocks := by
  apply List.filter_congr
  intro b _
  cases hb : b.free <;> simp [blockLayout_label, hb]

theorem WellFormed.freeBlocks_length_le {mm : MemoryManager} (h : WellFormed mm) :
    (freeBlocks mm.head).length ≤ (occupied mm.head).length + 1 := by
  rw [freeBlocks_eq_unlabelled, occupied_eq_labelled]
  exact h.separated.unlabelled_length_le.1

theorem WellFormed.free_le_of_refused {mm : MemoryManager} (h : WellFormed mm) {a : Allocator}
    {size : Int} (hsize : 1 ≤ size) (href : (a.call mm size).1 = -1) :
    sizeTotal (freeBlocks mm.head) ≤ ((occupied mm.head).length + 1) * (size - 1) := by
  have hsmall : ∀ x ∈ (freeBlocks mm.head).map MemoryBlock.size, x ≤ size - 1 := by
    intro x hx
    obtain ⟨b, hb, rfl⟩ := List.mem_map.mp hx
    obtain ⟨hmem, hfree⟩ := List.mem_filter.mp hb
    by_contra hlarge
    have hfit : fits size b = true := fits_iff.mpr ⟨hfree, by omega⟩
    rw [(h.call_refused.mp href).2 b hmem] at hfit
    exact Bool.false_ne_true hfit
  have hcount : ((freeBlocks mm.head).length : Int) ≤ (occupied mm.head).length + 1 := by
    exact_mod_cast h.freeBlocks_length_le
  calc sizeTotal (freeBlocks mm.head)
      ≤ ((freeBlocks mm.head).map MemoryBlock.size).length • (size - 1) :=
        List.sum_le_card_nsmul _ _ hsmall
    _ = (freeBlocks mm.head).length * (size - 1) := by rw [List.length_map, nsmul_eq_mul]
    _ ≤ ((occupied mm.head).length + 1) * (size - 1) :=
        mul_le_mul_of_nonneg_right hcount (by omega)

/-! The worst memory: blocks of one unit, held, between free ones of `size - 1` -/

def alternating (free : Bool) (pid size : Int) : Int → Nat → List MemoryBlock
  | _, 0 => []
  | start, n + 1 => ⟨start, size - 1, free, pid⟩ :: ⟨start + (size - 1), 1, false, 1⟩ ::
      alternating free pid size (start + size) n

def fillCalls (size : Int) : Nat → List MmCall
  | 0 => []
  | n + 1 => .allocate (.greedyFirstFit 0) (size - 1) :: .allocate (.greedyFirstFit 1) 1 ::
      fillCalls size n

def worstMemory (size : Int) (n : Nat) : MemoryManager :=
  ⟨alternating true (-1) size 0 n ++ [⟨n * size, size - 1, true, -1⟩], n * size + (size - 1)⟩

section Worst

variable {occ : List MemoryBlock} {position rest size total : Int}

theorem greedyFirstFit_behind (hocc : ∀ b ∈ occ, b.free = false) (hlt : size < rest) (pid : Int) :
    greedyFirstFit ⟨occ ++ [⟨position, rest, true, -1⟩], total⟩ pid size =
      (position, ⟨occ ++ [⟨position, size, false, pid⟩] ++
        [⟨position + size, rest - size, true, -1⟩], total⟩) := by
  let c : Cursor (occ ++ [⟨position, rest, true, -1⟩]) := ⟨occ, ⟨position, rest, true, -1⟩, [], rfl⟩
  have hfirst : Cursor.first (fits size) (occ ++ [⟨position, rest, true, -1⟩]) = some c := by
    apply Cursor.first_eq_some c
    · exact fits_iff.mpr ⟨rfl, hlt.le⟩
    · intro b hb
      simp [fits, hocc b hb]
  rw [greedyFirstFit, hfirst]
  simp [allocateAt, c, Cursor.replace, splitBlock, hlt]

theorem markFree_alternating (start : Int) (n : Nat) :
    (alternating false 0 size start n).map (markFree 0) = alternating true (-1) size start n := by
  induction n generalizing start with
  | zero => rfl
  | succ n ih =>
    rw [alternating, alternating, List.map_cons, List.map_cons, ih]
    rfl

theorem coalesceFrom_occupied {cur : MemoryBlock} (h : cur.free = false) (rest : List MemoryBlock) :
    coalesceFrom cur rest = cur :: coalesceBlocks rest := by
  cases rest with
  | nil => rfl
  | cons next rest => simp [coalesceFrom, coalesceBlocks, h]

theorem coalesce_alternating (last : MemoryBlock) (start : Int) (n : Nat) :
    coalesceBlocks (alternating true (-1) size start n ++ [last]) =
      alternating true (-1) size start n ++ [last] := by
  induction n generalizing start with
  | zero => rfl
  | succ n ih =>
    rw [alternating, List.cons_append, List.cons_append, coalesceBlocks, coalesceFrom,
      if_neg (by simp), coalesceFrom_occupied rfl, ih]

theorem mmRun_fillCalls (hsize : 2 ≤ size) (hocc : ∀ b ∈ occ, b.free = false)
    (position total : Int) (n : Nat) :
    mmRun (fillCalls size n) ⟨occ ++ [⟨position, n * size + (size - 1), true, -1⟩], total⟩ =
      ⟨occ ++ alternating false 0 size position n ++
        [⟨position + n * size, size - 1, true, -1⟩], total⟩ := by
  induction n generalizing occ position with
  | zero => simp [mmRun, fillCalls, alternating]
  | succ n ih =>
    let large : MemoryBlock := ⟨position, size - 1, false, 0⟩
    let small : MemoryBlock := ⟨position + (size - 1), 1, false, 1⟩
    have hlast : ((n + 1 : Nat) : Int) * size = n * size + size := by push_cast; ring
    have hnonneg : 0 ≤ (n : Int) * size := mul_nonneg (Int.natCast_nonneg n) (by omega)
    have hocc₁ : ∀ b ∈ occ ++ [large], b.free = false := by
      simpa [large, or_imp, forall_and] using hocc
    have hocc₂ : ∀ b ∈ occ ++ [large, small], b.free = false := by
      simpa [large, small, or_imp, forall_and] using hocc
    have hposition : position + (size - 1) + 1 = position + size := by omega
    have hrest : ((n + 1 : Nat) : Int) * size + (size - 1) - (size - 1) - 1 =
        n * size + (size - 1) := by omega
    have hstep : mmRun (fillCalls size (n + 1))
        ⟨occ ++ [⟨position, ((n + 1 : Nat) : Int) * size + (size - 1), true, -1⟩], total⟩ =
        mmRun (fillCalls size n) ⟨occ ++ [large, small] ++
          [⟨position + size, n * size + (size - 1), true, -1⟩], total⟩ := by
      show mmRun (fillCalls size n) (greedyFirstFit (greedyFirstFit _ 0 (size - 1)).2 1 1).2 = _
      rw [greedyFirstFit_behind hocc (by omega), greedyFirstFit_behind hocc₁ (by omega), hposition,
        hrest, List.append_assoc occ]
      rfl
    have hend : position + size + n * size = position + ((n + 1 : Nat) : Int) * size := by
      rw [hlast]
      omega
    rw [hstep, ih hocc₂ (position + size), hend, alternating]
    simp [large, small]

theorem mmRun_worst (hsize : 2 ≤ size) (n : Nat) :
    mmRun (fillCalls size n ++ [.free 0]) (mmCreate (n * size + (size - 1))) =
      worstMemory size n := by
  have hfill : mmRun (fillCalls size n) (mmCreate (n * size + (size - 1))) =
      ⟨alternating false 0 size 0 n ++ [⟨n * size, size - 1, true, -1⟩], n * size + (size - 1)⟩ := by
    have h := mmRun_fillCalls hsize (fun b (hb : b ∈ []) => absurd hb List.not_mem_nil) 0
      (n * size + (size - 1)) n
    rwa [List.nil_append, List.nil_append, Int.zero_add] at h
  rw [mmRun, List.foldl_append]
  show mmFree (mmRun (fillCalls size n) _) 0 = _
  rw [hfill, mmFree, mmCoalesce]
  simp only [List.map_append, markFree_alternating]
  exact congrArg (fun l => MemoryManager.mk l _) (coalesce_alternating _ 0 n)

theorem occupied_alternating (last : MemoryBlock) (hlast : last.free = true) (start : Int)
    (n : Nat) : (occupied (alternating true (-1) size start n ++ [last])).length = n := by
  induction n generalizing start with
  | zero => simp [alternating, occupied, hlast]
  | succ n ih =>
    rw [alternating, List.cons_append, List.cons_append, occupied_cons_free rfl, occupied_cons rfl,
      List.length_cons, ih]

theorem freeBlocks_alternating (last : MemoryBlock) (hlast : last.free = true)
    (hsize : last.size = size - 1) (start : Int) (n : Nat) :
    (freeBlocks (alternating true (-1) size start n ++ [last])).map MemoryBlock.size =
      List.replicate (n + 1) (size - 1) := by
  induction n generalizing start with
  | zero => simp [alternating, freeBlocks, hlast, hsize]
  | succ n ih =>
    rw [alternating, List.cons_append, List.cons_append, List.replicate_succ, ← ih (start + size)]
    simp [freeBlocks]

theorem worst_refuses (n : Nat) (a : Allocator) :
    a.call (worstMemory size n) size = (-1, worstMemory size n) := by
  rcases a.call_cases (worstMemory size n) size with ⟨hcall, -⟩ | ⟨c, -, hfit, -⟩
  · exact hcall
  · obtain ⟨hfree, hle⟩ := fits_iff.mp hfit
    have hmem : c.item.size ∈ (freeBlocks (worstMemory size n).head).map MemoryBlock.size :=
      List.mem_map_of_mem (List.mem_filter.mpr ⟨c.item_mem, hfree⟩)
    have hsizes : (freeBlocks (worstMemory size n).head).map MemoryBlock.size =
        List.replicate (n + 1) (size - 1) := freeBlocks_alternating _ rfl rfl 0 n
    rw [hsizes] at hmem
    have hsmall := List.eq_of_mem_replicate hmem
    omega

end Worst

/-- The amounts of free memory with which, `held` blocks being occupied, some allocator
refuses `size` units. -/
def RefusedWith (held : Nat) (size : Int) : Set Int :=
  { free | ∃ totalMemory calls, ∃ a : Allocator, 1 ≤ totalMemory ∧ totalMemory ≤ intMax ∧
    (∀ call ∈ calls, MmCall.Sized call) ∧ CompactsOccupied calls (mmCreate totalMemory) ∧
      let mm := mmRun calls (mmCreate totalMemory)
      (occupied mm.head).length = held ∧ sizeTotal (freeBlocks mm.head) = free ∧
        (a.call mm size).1 = -1 }

theorem refusedWith_worst (held : Nat) {size : Int} (hsize : 2 ≤ size)
    (hmax : held * size + (size - 1) ≤ intMax) :
    ((held + 1) * (size - 1) : Int) ∈ RefusedWith held size := by
  have hnonneg : 0 ≤ (held : Int) * size := mul_nonneg (Int.natCast_nonneg held) (by omega)
  have hsized : ∀ n, ∀ call ∈ fillCalls size n ++ [.free 0], call.Sized := by
    intro n
    induction n with
    | zero => simp [fillCalls, MmCall.Sized]
    | succ n ih =>
      rw [fillCalls, List.cons_append, List.cons_append]
      exact List.forall_mem_cons.mpr ⟨by show 1 ≤ size - 1; omega,
        List.forall_mem_cons.mpr ⟨Int.le_refl 1, ih⟩⟩
  have hocc : ∀ n mm, CompactsOccupied (fillCalls size n ++ [.free 0]) mm := by
    intro n
    induction n with
    | zero => simp [fillCalls, CompactsOccupied]
    | succ n ih =>
      intro mm
      exact ⟨fun h => MmCall.noConfusion h, fun h => MmCall.noConfusion h, ih _⟩
  have hrun := mmRun_worst hsize held
  refine ⟨held * size + (size - 1), fillCalls size held ++ [.free 0], .mmAllocateFirstFit, by omega,
    hmax, hsized held, hocc held _, ?_⟩
  rw [hrun]
  refine ⟨occupied_alternating _ rfl 0 held, ?_, congrArg Prod.fst (worst_refuses held _)⟩
  rw [sizeTotal, worstMemory, freeBlocks_alternating _ rfl rfl, List.sum_replicate, nsmul_eq_mul]
  push_cast
  ring

/-- With more than `(held + 1) * (size - 1)` units free a request for `size` units is granted,
and with exactly so many it can be refused. -/
theorem refused_isGreatest (held : Nat) {size : Int} (hsize : 2 ≤ size)
    (hmax : held * size + (size - 1) ≤ intMax) :
    IsGreatest (RefusedWith held size) ((held + 1) * (size - 1)) := by
  refine ⟨refusedWith_worst held hsize hmax, ?_⟩
  rintro free ⟨totalMemory, calls, a, ht, -, hsized, hocc, hheld, rfl, href⟩
  have hwf : WellFormed (mmRun calls (mmCreate totalMemory)) :=
    (mmCreate_wellFormed ht).run_sized hsized hocc
  have hle := hwf.free_le_of_refused (by omega) href
  rwa [hheld] at hle

theorem refused_isGreatest_example : IsGreatest (RefusedWith 3 100) (4 * 99) :=
  refused_isGreatest 3 (by decide) (by decide)

end MiniOS
