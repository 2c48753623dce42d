import MiniOS.Compaction
import MiniOS.RequestSizes
import Mathlib.Algebra.Order.BigOperators.Group.List

/-! The memory calls in `int` arithmetic. Every sum and difference is checked where the code forms
it, and a call has the result of the unchecked one exactly when the sums listed for it fit. -/

namespace MiniOS

def splitBlockChecked (block : MemoryBlock) (size pid : Int) : Option (List MemoryBlock) :=
  let taken := { block with size := size, free := false, pid := pid }
  if block.size > size then do
    let start ← checked (block.start + size)
    let rest ← checked (block.size - size)
    some [taken, ⟨start, rest, true, -1⟩]
  else some [taken]

def allocateAtChecked (mm : MemoryManager) (size pid : Int) :
    Option (Cursor mm.head) → Option (Int × MemoryManager)
  | none => some (-1, mm)
  | some cur => do
    let blocks ← splitBlockChecked cur.item size pid
    some (cur.item.start, { mm with head := cur.replace blocks })

def Allocator.callChecked (mm : MemoryManager) (size : Int) (a : Allocator) :
    Option (Int × MemoryManager) :=
  allocateAtChecked mm size (a.tag size) (a.search mm.head size)

def coalesceFromChecked (cur : MemoryBlock) : List MemoryBlock → Option (List MemoryBlock)
  | [] => some [cur]
  | next :: rest =>
    if cur.free && next.free then do
      let size ← checked (cur.size + next.size)
      coalesceFromChecked { cur with size := size } rest
    else do
      let blocks ← coalesceFromChecked next rest
      some (cur :: blocks)

def coalesceBlocksChecked : List MemoryBlock → Option (List MemoryBlock)
  | [] => some []
  | cur :: rest => coalesceFromChecked cur rest

def mmCoalesceChecked (mm : MemoryManager) : Option MemoryManager := do
  let blocks ← coalesceBlocksChecked mm.head
  some { mm with head := blocks }

def mmFreeChecked (mm : MemoryManager) (pid : Int) : Option MemoryManager :=
  mmCoalesceChecked { mm with head := mm.head.map (markFree pid) }

def relocateChecked : Int → List MemoryBlock → Option (List MemoryBlock × Int)
  | currentStart, [] => some ([], currentStart)
  | currentStart, cur :: rest =>
    if cur.free then do
      let r ← relocateChecked currentStart rest
      some (cur :: r.1, r.2)
    else do
      let next ← checked (currentStart + cur.size)
      let r ← relocateChecked next rest
      some ({ cur with start := currentStart } :: r.1, r.2)

def usedMemoryChecked (blocks : List MemoryBlock) : Option Int :=
  blocks.foldlM (fun used cur => if cur.free then some used else checked (used + cur.size)) 0

def mmCompactChecked (mm : MemoryManager) : Option MemoryManager := do
  let moved ← relocateChecked 0 mm.head
  let kept := deleteFree moved.1
  let used ← usedMemoryChecked kept
  let remaining ← checked (mm.totalMemory - used)
  if remaining > 0 then some { mm with head := kept ++ [⟨moved.2, remaining, true, -1⟩] }
  else some { mm with head := kept }

/-- The body of the loop of `mm_fragmentation`, on `total_free` and `max_free`. -/
def addFreeChecked (acc : Int × Int) (cur : MemoryBlock) : Option (Int × Int) :=
  if cur.free then do
    let totalFree ← checked (acc.1 + cur.size)
    some (totalFree, if cur.size > acc.2 then cur.size else acc.2)
  else some acc

def freeTotalsChecked (blocks : List MemoryBlock) : Option (Int × Int) :=
  blocks.foldlM addFreeChecked (0, 0)

def mmFragmentationChecked (percent : Int → Int → Int) (mm : MemoryManager) : Option Int := do
  let totals ← freeTotalsChecked mm.head
  some (if totals.1 = 0 then 0 else percent totals.2 totals.1)

def MmCall.execChecked (mm : MemoryManager) : MmCall → Option MemoryManager
  | .allocate a size => (a.callChecked mm size).map Prod.snd
  | .free pid => mmFreeChecked mm pid
  | .coalesce => mmCoalesceChecked mm
  | .compact => mmCompactChecked mm

def mmRunChecked (calls : List MmCall) (mm : MemoryManager) : Option MemoryManager :=
  calls.foldlM MmCall.execChecked mm

/-! Checked and unchecked calls -/

theorem splitBlockChecked_eq (block : MemoryBlock) (size pid : Int) :
    splitBlockChecked block size pid =
      guarded (splitSums block size) (splitBlock block size pid) := by
  by_cases h : block.size > size
  · simp only [splitBlockChecked, splitSums, splitBlock, if_pos h, Option.bind_eq_bind,
      ← guarded_nil, checked_bind]
  · simp only [splitBlockChecked, splitSums, splitBlock, if_neg h, guarded_nil]

theorem Allocator.callChecked_eq (a : Allocator) (mm : MemoryManager) (size : Int) :
    a.callChecked mm size = guarded ((MmCall.allocate a size).sums mm) (a.call mm size) := by
  rw [Allocator.callChecked, a.call_eq mm size, MmCall.sums]
  cases a.search mm.head size with
  | none => exact (guarded_nil _).symm
  | some cur =>
    simp only [allocateAtChecked, allocateAt, splitBlockChecked_eq, Option.bind_eq_bind,
      ← guarded_nil, guarded_bind, List.append_nil]

theorem coalesceFromChecked_eq (cur : MemoryBlock) (rest : List MemoryBlock) :
    coalesceFromChecked cur rest =
      guarded (coalesceSumsFrom cur rest) (coalesceFrom cur rest) := by
  induction rest generalizing cur with
  | nil => exact (guarded_nil _).symm
  | cons next rest ih =>
    by_cases h : (cur.free && next.free) = true
    · simp only [coalesceFromChecked, coalesceSumsFrom, coalesceFrom, if_pos h, ih,
        Option.bind_eq_bind, checked_bind]
    · simp only [coalesceFromChecked, coalesceSumsFrom, coalesceFrom, if_neg h, ih,
        Option.bind_eq_bind, ← guarded_nil, guarded_bind, List.append_nil]

theorem coalesceBlocksChecked_eq (blocks : List MemoryBlock) :
    coalesceBlocksChecked blocks = guarded (coalesceSums blocks) (coalesceBlocks blocks) := by
  cases blocks with
  | nil => exact (guarded_nil _).symm
  | cons cur rest => exact coalesceFromChecked_eq cur rest

theorem mmCoalesceChecked_eq (mm : MemoryManager) :
    mmCoalesceChecked mm = guarded (coalesceSums mm.head) (mmCoalesce mm) := by
  simp only [mmCoalesceChecked, mmCoalesce, coalesceBlocksChecked_eq, Option.bind_eq_bind,
    ← guarded_nil, guarded_bind, List.append_nil]

theorem relocateChecked_eq (position : Int) (blocks : List MemoryBlock) :
    relocateChecked position blocks =
      guarded (relocateSums position blocks) (relocate position blocks) := by
  induction blocks generalizing position with
  | nil => exact (guarded_nil _).symm
  | cons cur rest ih =>
    by_cases h : cur.free = true
    · simp only [relocateChecked, relocateSums, relocate, if_pos h, ih, Option.bind_eq_bind,
        ← guarded_nil, guarded_bind, List.append_nil]
    · simp only [relocateChecked, relocateSums, relocate, if_neg h, ih, Option.bind_eq_bind,
        ← guarded_nil, guarded_bind, checked_bind, List.append_nil]

theorem usedMemoryChecked_eq (blocks : List MemoryBlock) :
    usedMemoryChecked blocks = guarded (sizeSums false 0 blocks) (usedMemory blocks) := by
  rw [usedMemoryChecked, usedMemory]
  generalize (0 : Int) = used
  induction blocks generalizing used with
  | nil => exact (guarded_nil _).symm
  | cons cur rest ih =>
    cases h : cur.free with
    | true => simp [sizeSums, h, ih]
    | false => simp [sizeSums, h, ih, checked_bind]

theorem mmCompactChecked_eq (mm : MemoryManager) :
    mmCompactChecked mm = guarded (MmCall.compact.sums mm) (mmCompact mm) := by
  have hend : ∀ (remaining : Int) (full rest : MemoryManager),
      (if remaining > 0 then some full else some rest) =
        guarded [] (if remaining > 0 then full else rest) := by
    intro remaining full rest
    rw [guarded_nil]
    split_ifs <;> rfl
  simp only [mmCompactChecked, MmCall.sums, mmCompact, relocateChecked_eq, usedMemoryChecked_eq, hend,
    Option.bind_eq_bind, guarded_bind, checked_bind, List.append_assoc]

theorem MmCall.execChecked_eq (mm : MemoryManager) (call : MmCall) :
    call.execChecked mm = guarded (call.sums mm) (call.exec mm) := by
  cases call with
  | allocate a size => simp only [MmCall.execChecked, MmCall.exec, a.callChecked_eq, guarded_map]
  | free pid => exact mmCoalesceChecked_eq _
  | coalesce => exact mmCoalesceChecked_eq mm
  | compact => exact mmCompactChecked_eq mm

theorem mmRunChecked_eq (calls : List MmCall) (mm : MemoryManager) :
    mmRunChecked calls mm = guarded (runSums calls mm) (mmRun calls mm) := by
  induction calls generalizing mm with
  | nil => exact (guarded_nil mm).symm
  | cons call calls ih =>
    have hstep : mmRunChecked (call :: calls) mm =
        (call.execChecked mm).bind (mmRunChecked calls) := List.foldlM_cons
    rw [hstep, call.execChecked_eq, funext ih, guarded_bind]
    rfl

theorem freeTotalsChecked_eq (blocks : List MemoryBlock) :
    freeTotalsChecked blocks = guarded (sizeSums true 0 blocks) (freeTotals blocks) := by
  have hfrom : ∀ acc : Int × Int, blocks.foldlM addFreeChecked acc =
      guarded (sizeSums true acc.1 blocks) (blocks.foldl (fun acc cur =>
        if cur.free then (acc.1 + cur.size, if cur.size > acc.2 then cur.size else acc.2)
        else acc) acc) := by
    induction blocks with
    | nil => exact fun acc => (guarded_nil acc).symm
    | cons cur rest ih =>
      intro acc
      cases h : cur.free with
      | true =>
        simp only [List.foldlM_cons, List.foldl_cons, sizeSums, addFreeChecked, h, if_true,
          beq_self_eq_true, Option.bind_eq_bind, Option.bind_assoc, Option.bind_some, ih, checked_bind]
      | false => simp [sizeSums, addFreeChecked, h, ih]
  exact hfrom (0, 0)

theorem mmFragmentationChecked_eq (percent : Int → Int → Int) (mm : MemoryManager) :
    mmFragmentationChecked percent mm =
      guarded (fragmentationSums mm) (mmFragmentation percent mm) := by
  simp only [mmFragmentationChecked, mmFragmentation, fragmentationSums, freeTotalsChecked_eq,
    Option.bind_eq_bind, ← guarded_nil, guarded_bind, List.append_nil]

/-- A safe run of requests of any size does not overflow. -/
theorem RunSafe.checked {calls : List MmCall} {mm : MemoryManager} (h : RunSafe calls mm) :
    mmRunChecked calls mm = some (mmRun calls mm) := by
  rw [mmRunChecked_eq]
  apply guarded_of_inInts
  induction calls generalizing mm with
  | nil => exact fun v hv => absurd hv List.not_mem_nil
  | cons call calls ih => exact inInts_append.mpr ⟨h.2.1.no_overflow, ih h.2.2⟩

/-! Runs that compact -/

theorem relocateSums_eq (position : Int) (blocks : List MemoryBlock) :
    relocateSums position blocks = sizeSums false position blocks := by
  induction blocks generalizing position with
  | nil => rfl
  | cons cur rest ih => cases h : cur.free <;> simp [relocateSums, sizeSums, h, ih]

theorem sizeSums_occupied (total : Int) (blocks : List MemoryBlock) :
    sizeSums false total (occupied blocks) = sizeSums false total blocks := by
  induction blocks generalizing total with
  | nil => rfl
  | cons cur rest ih =>
    cases h : cur.free with
    | true => simp [occupied_cons_free h, sizeSums, h, ih]
    | false => simp [occupied_cons h, sizeSums, h, ih]

theorem sizeSums_packed (total position : Int) (blocks : List MemoryBlock) :
    sizeSums false total (packed position blocks) = sizeSums false total blocks := by
  induction blocks generalizing total position with
  | nil => rfl
  | cons cur rest ih => cases h : cur.free <;> simp [packed, sizeSums, h, ih]

/-- The second count adds up the sizes that the relocation added up. -/
theorem compact_sums (mm : MemoryManager) : MmCall.compact.sums mm =
    relocateSums 0 mm.head ++ relocateSums 0 mm.head ++
      [mm.totalMemory - sizeTotal (occupied mm.head)] := by
  have hkept : sizeSums false 0 (deleteFree (relocate 0 mm.head).1) = relocateSums 0 mm.head := by
    rw [← sizeSums_occupied, occupied_deleteFree, occupied_relocate, sizeSums_packed,
      sizeSums_occupied, relocateSums_eq]
  simp only [MmCall.sums, hkept, usedMemory_kept]

theorem WellFormed.compact_sums_bounds {mm : MemoryManager} (h : WellFormed mm) :
    ∀ v ∈ MmCall.compact.sums mm, 0 ≤ v ∧ v ≤ mm.totalMemory := by
  have hmoved : ∀ v ∈ relocateSums 0 mm.head, 0 ≤ v ∧ v ≤ mm.totalMemory := by
    rw [relocateSums_eq]
    exact sizeSums_bounds h.tiles h.positive.nonneg le_rfl le_rfl
  have hnonneg : 0 ≤ sizeTotal (occupied mm.head) := by
    apply List.sum_nonneg
    intro v hv
    obtain ⟨b, hb, rfl⟩ := List.mem_map.mp hv
    exact h.positive.nonneg b (mem_occupied.mp hb).1
  have hle := h.occupied_le
  rw [compact_sums]
  intro v hv
  simp only [List.mem_append, List.mem_singleton] at hv
  rcases hv with (hv | hv) | rfl
  · exact hmoved v hv
  · exact hmoved v hv
  · exact ⟨by omega, by omega⟩

theorem WellFormed.run_sums_bounds {calls : List MmCall} {mm : MemoryManager} (h : WellFormed mm)
    (hsized : ∀ call ∈ calls, call.Sized) (hocc : CompactsOccupied calls mm) :
    ∀ v ∈ runSums calls mm, 0 ≤ v ∧ v ≤ mm.totalMemory := by
  induction calls generalizing mm with
  | nil => simp [runSums]
  | cons call calls ih =>
    obtain ⟨hcall, hrest⟩ := List.forall_mem_cons.mp hsized
    intro v hv
    rcases List.mem_append.mp hv with hv | hv
    · cases call with
      | allocate a size =>
        exact MmCall.sums_bounds h (show (MmCall.allocate a size).Ordinary from hcall) v hv
      | free pid => exact MmCall.sums_bounds h (show (MmCall.free pid).Ordinary from trivial) v hv
      | coalesce => exact MmCall.sums_bounds h (show MmCall.coalesce.Ordinary from trivial) v hv
      | compact => exact h.compact_sums_bounds v hv
    · simpa using ih (h.exec_sized hcall hocc.1) hrest hocc.2 v hv

/-- While compactions find the first block occupied nothing overflows, in the calls nor in the
fragmentation measured after them. -/
theorem reachable_checked {totalMemory : Int} (ht : 1 ≤ totalMemory) (hmax : totalMemory ≤ intMax)
    {calls : List MmCall} (hsized : ∀ call ∈ calls, call.Sized)
    (hocc : CompactsOccupied calls (mmCreate totalMemory)) (percent : Int → Int → Int) :
    let mm := mmRun calls (mmCreate totalMemory)
    mmRunChecked calls (mmCreate totalMemory) = some mm ∧
      mmFragmentationChecked percent mm = some (mmFragmentation percent mm) := by
  intro mm
  have hlow : intMin ≤ 0 := by decide
  have hwf : WellFormed mm := (mmCreate_wellFormed ht).run_sized hsized hocc
  have htotal : mm.totalMemory = totalMemory := mmRun_totalMemory calls (mmCreate totalMemory)
  rw [mmRunChecked_eq, mmFragmentationChecked_eq]
  refine ⟨guarded_of_inInts (.of_bounds hlow hmax ?_) _, guarded_of_inInts (.of_bounds hlow hmax ?_) _⟩
  · exact (mmCreate_wellFormed ht).run_sums_bounds hsized hocc
  · simpa only [htotal] using fragmentationSums_bounds hwf

/-- Without compactions the sums are those already bounded. -/
theorem run_checked {totalMemory : Int} (ht : 1 ≤ totalMemory) (hmax : totalMemory ≤ intMax)
    {calls : List MmCall} (hcalls : ∀ call ∈ calls, call.Ordinary) :
    mmRunChecked calls (mmCreate totalMemory) = some (mmRun calls (mmCreate totalMemory)) := by
  have hbounds := runSums_bounds (mmCreate_wellFormed ht) hcalls
  rw [mmRunChecked_eq]
  exact guarded_of_inInts (.of_bounds (by decide) hmax hbounds) _

/-- In every run whose compactions find the first block occupied, `mm_compact` leaves the specified
list, and with it a tiling with one free block at most, exactly when it finds it occupied again. -/
theorem reachable_compact_iff {totalMemory : Int} (ht : 1 ≤ totalMemory)
    (hmax : totalMemory ≤ intMax) {calls : List MmCall} (hsized : ∀ call ∈ calls, call.Sized)
    (hocc : CompactsOccupied calls (mmCreate totalMemory)) :
    let mm := mmRun calls (mmCreate totalMemory)
    mmRunChecked calls (mmCreate totalMemory) = some mm ∧
      ((∃ after, mmCompactChecked mm = some after ∧ after.head = compactSpec mm) ↔
        HeadOccupied mm) ∧
      ((∃ after, mmCompactChecked mm = some after ∧ Compacted mm after) ↔ HeadOccupied mm) := by
  intro mm
  have hwf : WellFormed mm := (mmCreate_wellFormed ht).run_sized hsized hocc
  have htotal : mm.totalMemory = totalMemory := mmRun_totalMemory calls (mmCreate totalMemory)
  have hspec := mmCompact_spec_iff (mmRun_head_ne_nil (by simp [mmCreate]) calls : mm.head ≠ [])
  have hchecked : mmCompactChecked mm = some (mmCompact mm) := by
    rw [mmCompactChecked_eq]
    exact guarded_of_inInts
      (.of_bounds (by decide) (htotal.trans_le hmax) hwf.compact_sums_bounds) _
  simp only [hchecked, Option.some.injEq, exists_eq_left']
  exact ⟨(reachable_checked ht hmax hsized hocc (fun _ _ => 0)).1, hspec,
    fun hcomp => hspec.mp hcomp.head_eq, hwf.compact⟩

theorem reachable_compact_iff_example :
    let calls : List MmCall := [.allocate (.greedyFirstFit 1) 4, .allocate (.greedyFirstFit 2) 3,
      .allocate (.greedyFirstFit 3) 2, .free 2, .compact, .free 3]
    let mm := mmRun calls (mmCreate 10)
    ∃ after, mmCompactChecked mm = some after ∧ Compacted mm after := by
  intro calls mm
  have hsized : ∀ call ∈ calls, call.Sized := by simp [calls, MmCall.Sized]
  have hocc : CompactsOccupied calls (mmCreate 10) := by
    simp only [calls, CompactsOccupied, reduceCtorEq, false_implies, true_implies, true_and, and_true]
    exact ⟨⟨0, 4, false, 1⟩, by decide, rfl⟩
  obtain ⟨-, -, hiff⟩ := reachable_compact_iff (by decide) (by decide) hsized hocc
  exact hiff.mpr ⟨⟨0, 4, false, 1⟩, by decide, rfl⟩

theorem mmCompact_free_head :
    let calls : List MmCall :=
      [.allocate (.greedyFirstFit 1) 4, .allocate (.greedyFirstFit 2) 3, .free 1]
    let mm := mmRun calls (mmCreate 10)
    (mmCompact mm).head = [⟨0, 4, true, -1⟩, ⟨0, 3, false, 2⟩, ⟨3, 7, true, -1⟩] ∧
      compactSpec mm = [⟨0, 3, false, 2⟩, ⟨3, 7, true, -1⟩] ∧ ¬ Compacted mm (mmCompact mm) := by
  intro calls mm
  refine ⟨by decide, by decide, fun h => ?_⟩
  exact absurd h.head_eq (by decide)

end MiniOS
