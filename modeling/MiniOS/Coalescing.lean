import MiniOS.LinkIntegrity
import MiniOS.RunMerge

/-! One pass of `mm_coalesce` normalises any block list: each maximal run of free
blocks becomes one block. Marking blocks free commutes with it, so releases may
come in any order and be coalesced once at the end. -/

namespace MiniOS

def blockRules : RunMerge.Rules MemoryBlock where
  merges := MemoryBlock.free
  join x y := { x with size := x.size + y.size }
  merges_join hx _ := hx
  join_assoc x y z := by
    rw [MemoryBlock.mk.injEq]
    exact ⟨rfl, add_assoc x.size y.size z.size, rfl, rfl⟩

@[simp] theorem blockRules_merges (b : MemoryBlock) : blockRules.merges b = b.free := rfl

theorem coalesceFrom_eq_normal (cur : MemoryBlock) (rest : List MemoryBlock) :
    coalesceFrom cur rest = blockRules.normal (cur :: rest) := by
  fun_induction coalesceFrom cur rest with
  | case1 cur => rfl
  | case2 cur next rest hboth ih =>
    obtain ⟨hcur, hnext⟩ := Bool.and_eq_true_iff.mp hboth
    rw [ih]
    exact RunMerge.Rules.normal_join hcur hnext rest
  | case3 cur next rest hboth ih =>
    rw [ih, RunMerge.Rules.normal_cons_of_not]
    simpa using hboth

theorem coalesceBlocks_eq_normal (blocks : List MemoryBlock) :
    coalesceBlocks blocks = blockRules.normal blocks := by
  cases blocks with
  | nil => rfl
  | cons cur rest => exact coalesceFrom_eq_normal cur rest

theorem coalesceBlocks_map_coalesceBlocks {f : MemoryBlock → MemoryBlock}
    (hf : ∀ b, b.free = true → f b = b) (blocks : List MemoryBlock) :
    coalesceBlocks ((coalesceBlocks blocks).map f) = coalesceBlocks (blocks.map f) := by
  rw [coalesceBlocks_eq_normal, coalesceBlocks_eq_normal, coalesceBlocks_eq_normal]
  apply RunMerge.Rules.normal_map_normal
  · intro b hb
    rw [hf b hb]
    exact hb
  · intro b c hb hc
    rw [hf b hb, hf c hc]
    exact hf _ hb

theorem mmCoalesce_mmCoalesce (mm : MemoryManager) : mmCoalesce (mmCoalesce mm) = mmCoalesce mm := by
  rw [mmCoalesce, mmCoalesce, coalesceBlocks_eq_normal, coalesceBlocks_eq_normal]
  congr 1
  exact RunMerge.Rules.normal_normal mm.head

/-- The block in place of a run: at the start of its first block, of the size of them all. -/
def mergedBlock (run : MemoryBlock × List MemoryBlock) : MemoryBlock :=
  { run.1 with size := run.1.size + (run.2.map MemoryBlock.size).sum }

theorem joined_eq_mergedBlock (run : MemoryBlock × List MemoryBlock) :
    blockRules.joined run = mergedBlock run := by
  obtain ⟨b, rest⟩ := run
  induction rest generalizing b with
  | nil => simp [RunMerge.Rules.joined, mergedBlock]
  | cons next rest ih =>
    have h := ih (blockRules.join b next)
    rw [RunMerge.Rules.joined] at h ⊢
    rw [List.foldl_cons, h]
    simp [mergedBlock, blockRules, add_assoc]

theorem mmCoalesce_tiles {mm : MemoryManager} {a e : Int} (h : blockLayout.Tiles a mm.head e) :
    blockLayout.Tiles a (mmCoalesce mm).head e := by
  obtain ⟨head, total⟩ := mm
  cases head with
  | nil => exact h
  | cons cur rest => exact coalesceFrom_tiles h

theorem mmCoalesce_separated (mm : MemoryManager) : blockLayout.Separated (mmCoalesce mm).head := by
  obtain ⟨head, total⟩ := mm
  cases head with
  | nil => exact List.isChain_nil
  | cons cur rest => exact coalesceFrom_separated cur rest

theorem mmCoalesce_runs (mm : MemoryManager) :
    ∃ runs, blockRules.MaximalRuns mm.head runs ∧ (mmCoalesce mm).head = runs.map mergedBlock := by
  obtain ⟨runs, hruns⟩ := RunMerge.Rules.exists_maximalRuns blockRules mm.head
  refine ⟨runs, hruns, ?_⟩
  have hnormal := hruns.normal_eq
  rw [← coalesceBlocks_eq_normal, funext joined_eq_mergedBlock] at hnormal
  exact hnormal

/-- `mm_coalesce` on the nodes terminates, and on the blocks it normalises. The addresses `a` to `e`
are those of an `int`, so every merged size is one too. -/
theorem mmCoalesce_normalises (mm : MemoryManager) {a e : Int}
    (h : blockLayout.Tiles a mm.head e) :
    (∀ nm : NodeManager, nm.Refines mm → ∀ fuel, mm.head.length ≤ fuel →
      ∃ nm', nm.mmCoalesce fuel = some nm' ∧ nm'.Refines (mmCoalesce mm)) ∧
    (∃ runs, blockRules.MaximalRuns mm.head runs ∧ (mmCoalesce mm).head = runs.map mergedBlock) ∧
    occupied (mmCoalesce mm).head = occupied mm.head ∧
    blockLayout.Tiles a (mmCoalesce mm).head e ∧
    blockLayout.Separated (mmCoalesce mm).head ∧
    mmCoalesce (mmCoalesce mm) = mmCoalesce mm :=
  ⟨fun _ hnm _ hfuel => hnm.coalesce hfuel, mmCoalesce_runs mm, occupied_mmCoalesce mm,
    mmCoalesce_tiles h, mmCoalesce_separated mm, mmCoalesce_mmCoalesce mm⟩

theorem mmCoalesce_normalises_example :
    let mm : MemoryManager := ⟨[⟨5, 10, true, -1⟩, ⟨15, 20, true, -1⟩, ⟨35, 5, false, 7⟩,
      ⟨40, 1, true, -1⟩, ⟨41, 2, true, -1⟩, ⟨43, 3, true, -1⟩], 46⟩
    (∀ nm : NodeManager, nm.Refines mm → ∀ fuel, mm.head.length ≤ fuel →
      ∃ nm', nm.mmCoalesce fuel = some nm' ∧ nm'.Refines (mmCoalesce mm)) ∧
    (∃ runs, blockRules.MaximalRuns mm.head runs ∧ (mmCoalesce mm).head = runs.map mergedBlock) ∧
    occupied (mmCoalesce mm).head = occupied mm.head ∧
    blockLayout.Tiles 5 (mmCoalesce mm).head 46 ∧
    blockLayout.Separated (mmCoalesce mm).head ∧
    mmCoalesce (mmCoalesce mm) = mmCoalesce mm :=
  mmCoalesce_normalises _ (by simp [Tiling.Layout.Tiles])

/-! Releasing several pids -/

/-- A block marked free when its pid is one of `pids`. -/
def markListed (pids : List Int) (cur : MemoryBlock) : MemoryBlock :=
  if !cur.free && pids.contains cur.pid then { cur with free := true, pid := -1 } else cur

def mmMark (pids : List Int) (mm : MemoryManager) : MemoryManager :=
  { mm with head := mm.head.map (markListed pids) }

theorem markListed_nil : markListed [] = id := by
  funext b
  simp [markListed]

theorem markListed_cons (pid : Int) (pids : List Int) (b : MemoryBlock) :
    markListed (pid :: pids) b = markListed pids (markFree pid b) := by
  cases hfree : b.free with
  | true => simp [markListed, markFree, hfree]
  | false =>
    by_cases hpid : b.pid = pid
    · simp [markListed, markFree, hfree, hpid]
    · simp [markListed, markFree, hfree, hpid]

theorem markListed_perm {pids pids' : List Int} (h : pids'.Perm pids) :
    markListed pids' = markListed pids := by
  funext b
  have hmem : pids'.contains b.pid = pids.contains b.pid := by
    rw [Bool.eq_iff_iff, List.contains_iff_mem, List.contains_iff_mem]
    exact h.mem_iff
  rw [markListed, markListed, hmem]

theorem mmFree_mmCoalesce (mm : MemoryManager) (pid : Int) :
    mmFree (mmCoalesce mm) pid = mmFree mm pid := by
  have hmark : ∀ b : MemoryBlock, b.free = true → markFree pid b = b := by
    intro b hb
    simp [markFree, hb]
  have h := coalesceBlocks_map_coalesceBlocks hmark mm.head
  rw [mmFree, mmFree, mmCoalesce, mmCoalesce, mmCoalesce]
  rw [h]

theorem mmRun_free_mmCoalesce (pids : List Int) (mm : MemoryManager) :
    mmRun (pids.map .free) (mmCoalesce mm) = mmCoalesce (mmMark pids mm) := by
  induction pids generalizing mm with
  | nil => rw [mmMark, markListed_nil, List.map_id]; rfl
  | cons pid pids ih =>
    have hfree : mmFree (mmCoalesce mm) pid =
        mmCoalesce { mm with head := mm.head.map (markFree pid) } := mmFree_mmCoalesce mm pid
    have hmark : mmMark pids { mm with head := mm.head.map (markFree pid) } =
        mmMark (pid :: pids) mm := by
      rw [mmMark, mmMark, List.map_map]
      congr 2
      exact funext (fun b => (markListed_cons pid pids b).symm)
    have hrun := ih { mm with head := mm.head.map (markFree pid) }
    rw [← hfree, hmark] at hrun
    exact hrun

theorem mmRun_free_eq {pids : List Int} (hne : pids ≠ []) (mm : MemoryManager) :
    mmRun (pids.map .free) mm = mmCoalesce (mmMark pids mm) := by
  cases pids with
  | nil => exact absurd rfl hne
  | cons pid pids =>
    have hrun := mmRun_free_mmCoalesce (pid :: pids) mm
    rw [← hrun]
    exact (congrArg (mmRun (pids.map .free)) (mmFree_mmCoalesce mm pid)).symm

theorem mmRun_free_order (mm : MemoryManager) (pids : List Int) :
    (∀ pids' : List Int, pids'.Perm pids →
      mmRun (pids'.map .free) mm = mmRun (pids.map .free) mm) ∧
    (pids ≠ [] → mmRun (pids.map .free) mm = mmCoalesce (mmMark pids mm)) := by
  refine ⟨fun pids' hperm => ?_, fun hne => mmRun_free_eq hne mm⟩
  by_cases hne : pids = []
  · subst hne
    rw [List.perm_nil.mp hperm]
  · have hne' : pids' ≠ [] := fun h => hne (List.nil_perm.mp (h ▸ hperm))
    rw [mmRun_free_eq hne', mmRun_free_eq hne, mmMark, mmMark, markListed_perm hperm]

/-- Three releases, one pid twice and one that owns nothing. -/
theorem mmRun_free_order_example :
    let mm : MemoryManager := ⟨[⟨0, 4, true, -1⟩, ⟨4, 2, true, -1⟩, ⟨6, 5, false, 2⟩,
      ⟨11, 3, false, 1⟩, ⟨14, 6, false, 2⟩], 20⟩
    mmRun ([2, 1, 9, 2].map .free) mm = mmRun ([1, 2, 2, 9].map .free) mm ∧
    mmRun ([1, 2, 2, 9].map .free) mm = mmCoalesce (mmMark [1, 2, 2, 9] mm) :=
  ⟨(mmRun_free_order _ _).1 _ (by decide), (mmRun_free_order _ _).2 (by decide)⟩

end MiniOS
