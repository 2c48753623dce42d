import MiniOS.BlockInvariant
import MiniOS.IntRange

/-! The `int` sums and differences formed by each call, in execution order,
and their bounds along a run. -/

namespace MiniOS

def splitSums (block : MemoryBlock) (size : Int) : List Int :=
  if block.size > size then [block.start + size, block.size - size] else []

def coalesceSumsFrom (cur : MemoryBlock) : List MemoryBlock → List Int
  | [] => []
  | next :: rest =>
    if cur.free && next.free then
      (cur.size + next.size) :: coalesceSumsFrom { cur with size := cur.size + next.size } rest
    else coalesceSumsFrom next rest

def coalesceSums : List MemoryBlock → List Int
  | [] => []
  | cur :: rest => coalesceSumsFrom cur rest

def relocateSums : Int → List MemoryBlock → List Int
  | _, [] => []
  | currentStart, cur :: rest =>
    if cur.free then relocateSums currentStart rest
    else (currentStart + cur.size) :: relocateSums (currentStart + cur.size) rest

/-- Running totals of the sizes of the blocks with the given free flag. -/
def sizeSums (flag : Bool) : Int → List MemoryBlock → List Int
  | _, [] => []
  | total, cur :: rest =>
    if cur.free == flag then (total + cur.size) :: sizeSums flag (total + cur.size) rest
    else sizeSums flag total rest

/-- `total_free` after each free block met by `mm_fragmentation`. -/
def fragmentationSums (mm : MemoryManager) : List Int := sizeSums true 0 mm.head

def MmCall.sums (mm : MemoryManager) : MmCall → List Int
  | .allocate a size =>
    match a.search mm.head size with
    | none => []
    | some cur => splitSums cur.item size
  | .free pid => coalesceSums (mm.head.map (markFree pid))
  | .coalesce => coalesceSums mm.head
  | .compact =>
    let kept := deleteFree (relocate 0 mm.head).1
    relocateSums 0 mm.head ++ sizeSums false 0 kept ++ [mm.totalMemory - usedMemory kept]

def runSums : List MmCall → MemoryManager → List Int
  | [], _ => []
  | call :: calls, mm => call.sums mm ++ runSums calls (call.exec mm)

theorem splitSums_bounds {l : List MemoryBlock} {e : Int} (h : blockLayout.Tiles 0 l e)
    (hn : blockLayout.Nonneg l) {b : MemoryBlock} (hb : b ∈ l) {size : Int} (hsize : 0 ≤ size) :
    ∀ v ∈ splitSums b size, 0 ≤ v ∧ v ≤ e := by
  have hbounds := h.mem_inside hn hb
  simp only [blockLayout_start, blockLayout_stop] at hbounds
  intro v hv
  by_cases hs : b.size > size
  · simp only [splitSums, hs, if_true, List.mem_cons, List.not_mem_nil, or_false] at hv
    rcases hv with rfl | rfl <;> omega
  · simp [splitSums, hs] at hv

theorem coalesceSumsFrom_bounds {cur : MemoryBlock} {rest : List MemoryBlock} {a e : Int}
    (ha : 0 ≤ a) (h : blockLayout.Tiles a (cur :: rest) e)
    (hn : blockLayout.Nonneg (cur :: rest)) :
    ∀ v ∈ coalesceSumsFrom cur rest, 0 ≤ v ∧ v ≤ e := by
  induction rest generalizing cur a with
  | nil => simp [coalesceSumsFrom]
  | cons next rest ih =>
    obtain ⟨hstart, hnext, hrest⟩ := h
    obtain ⟨hcur, hnext', hrest'⟩ : _ ∧ _ ∧ _ := by
      simpa only [Tiling.Layout.Nonneg.cons] using hn
    have hle := hrest.le hrest'
    simp only [blockLayout_start, blockLayout_stop, blockLayout_size] at hstart hnext hcur hnext' hle
    by_cases hf : (cur.free && next.free) = true
    · have he : cur.start + (cur.size + next.size) = next.start + next.size := by omega
      have htiles : blockLayout.Tiles a ({ cur with size := cur.size + next.size } :: rest) e :=
        ⟨hstart, by simpa [he] using hrest⟩
      have hn' : blockLayout.Nonneg ({ cur with size := cur.size + next.size } :: rest) :=
        Tiling.Layout.Nonneg.cons.mpr ⟨by simp only [blockLayout_size]; omega, hrest'⟩
      simp only [coalesceSumsFrom, hf, if_true]
      exact List.forall_mem_cons.mpr ⟨⟨by omega, by omega⟩, ih ha htiles hn'⟩
    · simp only [coalesceSumsFrom, hf]
      exact ih (a := cur.start + cur.size) (by omega) ⟨hnext, hrest⟩
        (Tiling.Layout.Nonneg.cons.mpr ⟨hnext', hrest'⟩)

theorem coalesceSums_bounds {l : List MemoryBlock} {e : Int} (h : blockLayout.Tiles 0 l e)
    (hn : blockLayout.Nonneg l) : ∀ v ∈ coalesceSums l, 0 ≤ v ∧ v ≤ e := by
  cases l with
  | nil => simp [coalesceSums]
  | cons cur rest => exact coalesceSumsFrom_bounds le_rfl h hn

/-- A running total of sizes never passes the position reached in the tiling. -/
theorem sizeSums_bounds {flag : Bool} {l : List MemoryBlock} {total a e : Int}
    (h : blockLayout.Tiles a l e) (hn : blockLayout.Nonneg l) (hlo : 0 ≤ total)
    (hhi : total ≤ a) : ∀ v ∈ sizeSums flag total l, 0 ≤ v ∧ v ≤ e := by
  induction l generalizing total a with
  | nil => simp [sizeSums]
  | cons cur rest ih =>
    obtain ⟨hcur, hrest⟩ := Tiling.Layout.Nonneg.cons.mp hn
    obtain ⟨hstart, htiles⟩ := h
    have hle := htiles.le hrest
    simp only [blockLayout_start, blockLayout_stop, blockLayout_size] at hstart hcur hle
    by_cases hf : (cur.free == flag) = true
    · simp only [sizeSums, hf, if_true]
      refine List.forall_mem_cons.mpr ⟨⟨by omega, by omega⟩, ih htiles hrest (by omega) ?_⟩
      simp only [blockLayout_stop]
      omega
    · simp only [sizeSums, hf]
      apply ih htiles hrest hlo
      simp only [blockLayout_stop]
      omega

theorem MmCall.sums_bounds {mm : MemoryManager} (h : WellFormed mm) {call : MmCall}
    (hcall : call.Ordinary) : ∀ v ∈ call.sums mm, 0 ≤ v ∧ v ≤ mm.totalMemory := by
  cases call with
  | allocate a size =>
    cases hs : a.search mm.head size with
    | none => simp [MmCall.sums, hs]
    | some c =>
      simpa only [MmCall.sums, hs] using splitSums_bounds h.tiles h.positive.nonneg c.item_mem
        (Int.le_trans Int.one_nonneg hcall)
  | free pid =>
    apply coalesceSums_bounds (tiles_map_mark pid h.tiles)
    intro b hb
    obtain ⟨c, hc, rfl⟩ := List.mem_map.mp hb
    simpa using h.positive.nonneg c hc
  | coalesce => exact coalesceSums_bounds h.tiles h.positive.nonneg
  | compact => exact hcall.elim

theorem runSums_bounds {calls : List MmCall} {mm : MemoryManager} (h : WellFormed mm)
    (hcalls : ∀ call ∈ calls, call.Ordinary) :
    ∀ v ∈ runSums calls mm, 0 ≤ v ∧ v ≤ mm.totalMemory := by
  induction calls generalizing mm with
  | nil => simp [runSums]
  | cons call calls ih =>
    obtain ⟨hcall, hrest⟩ := List.forall_mem_cons.mp hcalls
    intro v hv
    rcases List.mem_append.mp hv with hv | hv
    · exact MmCall.sums_bounds h hcall v hv
    · simpa using ih (h.exec hcall) hrest v hv

theorem fragmentationSums_bounds {mm : MemoryManager} (h : WellFormed mm) :
    ∀ v ∈ fragmentationSums mm, 0 ≤ v ∧ v ≤ mm.totalMemory :=
  sizeSums_bounds h.tiles h.positive.nonneg le_rfl le_rfl

/-- Over whole runs without compaction the block list stays well formed, and
every sum or difference formed on the way lies between 0 and the memory size. -/
theorem mmRun_wellFormed_no_overflow {totalMemory : Int} (hlo : 1 ≤ totalMemory)
    (hhi : totalMemory ≤ intMax) {calls : List MmCall} (hcalls : ∀ call ∈ calls, call.Ordinary) :
    let mm := mmRun calls (mmCreate totalMemory)
    WellFormed mm ∧ mm.totalMemory = totalMemory ∧ mm.head ≠ [] ∧
      ∀ v ∈ runSums calls (mmCreate totalMemory) ++ fragmentationSums mm,
        0 ≤ v ∧ v ≤ totalMemory ∧ v ≤ intMax := by
  intro mm
  have hmm : WellFormed mm := reachable_wellFormed hlo hcalls
  have htotal : mm.totalMemory = totalMemory := mmRun_totalMemory calls (mmCreate totalMemory)
  refine ⟨hmm, htotal, hmm.head_ne_nil (by omega), ?_⟩
  intro v hv
  have hbounds : 0 ≤ v ∧ v ≤ totalMemory := by
    rcases List.mem_append.mp hv with hv | hv
    · exact runSums_bounds (mmCreate_wellFormed hlo) hcalls v hv
    · simpa only [htotal] using fragmentationSums_bounds hmm v hv
  exact ⟨hbounds.1, hbounds.2, hbounds.2.trans hhi⟩

theorem mmRun_wellFormed_no_overflow_example :
    let calls : List MmCall := [.allocate (.greedyFirstFit 1) 200, .allocate .mmAllocateBestFit 100,
      .allocate (.greedyWorstFit (-1)) 300, .free 100, .free 1, .coalesce]
    WellFormed (mmRun calls (mmCreate 600)) ∧
      runSums calls (mmCreate 600) = [200, 400, 300, 300, 300] ∧
      ∀ v ∈ runSums calls (mmCreate 600), 0 ≤ v ∧ v ≤ intMax := by
  intro calls
  have hcalls : ∀ call ∈ calls, call.Ordinary := by simp [calls, MmCall.Ordinary]
  have hh := mmRun_wellFormed_no_overflow (by decide : (1 : Int) ≤ 600) (by decide) hcalls
  refine ⟨hh.1, by decide, fun v hv => ?_⟩
  have hb := hh.2.2.2 v (List.mem_append_left _ hv)
  exact ⟨hb.1, hb.2.2⟩

end MiniOS
