import MiniOS.MemoryManager
import MiniOS.Tiling

/-! The block list tiles the memory, its free blocks carry no pid, and no two
free blocks are neighbours: preserved by every call of the interface. -/

namespace MiniOS

def blockLayout : Tiling.Layout MemoryBlock Int where
  start := MemoryBlock.start
  size := MemoryBlock.size
  label b := if b.free then none else some b.pid

@[simp] theorem blockLayout_start (b : MemoryBlock) : blockLayout.start b = b.start := rfl

@[simp] theorem blockLayout_size (b : MemoryBlock) : blockLayout.size b = b.size := rfl

@[simp] theorem blockLayout_stop (b : MemoryBlock) : blockLayout.stop b = b.start + b.size := rfl

theorem blockLayout_label (b : MemoryBlock) :
    blockLayout.label b = if b.free then none else some b.pid := rfl

@[simp] theorem blockLayout_label_none {b : MemoryBlock} :
    blockLayout.label b = none ↔ b.free = true := by
  simp [blockLayout_label]

structure WellFormed (mm : MemoryManager) : Prop where
  tiles : blockLayout.Tiles 0 mm.head mm.totalMemory
  positive : blockLayout.Positive mm.head
  separated : blockLayout.Separated mm.head
  free_pid : ∀ b ∈ mm.head, b.free = true → b.pid = -1

theorem mmCreate_wellFormed {totalMemory : Int} (h : 1 ≤ totalMemory) :
    WellFormed (mmCreate totalMemory) where
  tiles := ⟨rfl, by simp [mmCreate, Tiling.Layout.Tiles]⟩
  positive := by simpa [mmCreate, Tiling.Layout.Positive] using Int.lt_of_lt_of_le Int.zero_lt_one h
  separated := List.isChain_singleton _
  free_pid := by simp [mmCreate]

theorem WellFormed.head_ne_nil {mm : MemoryManager} (h : WellFormed mm) (ht : 1 ≤ mm.totalMemory) :
    mm.head ≠ [] := by
  intro hn
  have htiles := h.tiles
  rw [hn] at htiles
  have he : (0 : Int) = mm.totalMemory := htiles
  omega

/-! Searching -/

theorem fits_iff {size : Int} {b : MemoryBlock} :
    fits size b = true ↔ b.free = true ∧ size ≤ b.size := by
  simp [fits]

theorem smaller_iff (x y : MemoryBlock) : smaller x y = true ↔ x.size < y.size := by
  simp [smaller]

theorem larger_iff (x y : MemoryBlock) :
    larger x y = true ↔ OrderDual.toDual x.size < OrderDual.toDual y.size := by
  simp [larger]

theorem Allocator.search_fits {a : Allocator} {blocks : List MemoryBlock} {size : Int}
    {c : Cursor blocks} (h : a.search blocks size = some c) : fits size c.item = true := by
  cases a with
  | greedyFirstFit pid => exact (Cursor.first_spec h).1
  | mmAllocateFirstFit => exact (Cursor.first_spec h).1
  | greedyBestFit pid => exact (Cursor.scan_spec smaller_iff h).1
  | mmAllocateBestFit => exact (Cursor.scan_spec smaller_iff h).1
  | greedyWorstFit pid => exact (Cursor.scan_spec larger_iff h).1
  | mmAllocateWorstFit => exact (Cursor.scan_spec larger_iff h).1

theorem Allocator.search_none {a : Allocator} {blocks : List MemoryBlock} {size : Int} :
    a.search blocks size = none ↔ ∀ b ∈ blocks, fits size b = false := by
  cases a with
  | greedyFirstFit pid => exact Cursor.first_eq_none_iff
  | mmAllocateFirstFit => exact Cursor.first_eq_none_iff
  | greedyBestFit pid => exact Cursor.scan_eq_none_iff smaller_iff
  | mmAllocateBestFit => exact Cursor.scan_eq_none_iff smaller_iff
  | greedyWorstFit pid => exact Cursor.scan_eq_none_iff larger_iff
  | mmAllocateWorstFit => exact Cursor.scan_eq_none_iff larger_iff

theorem Allocator.call_cases (a : Allocator) (mm : MemoryManager) (size : Int) :
    (a.call mm size = (-1, mm) ∧ ∀ b ∈ mm.head, fits size b = false) ∨
    ∃ c : Cursor mm.head, a.search mm.head size = some c ∧ fits size c.item = true ∧
      a.call mm size = (c.item.start,
        { mm with head := c.before ++ splitBlock c.item size (a.tag size) ++ c.after }) := by
  rw [a.call_eq mm size]
  cases hs : a.search mm.head size with
  | none => exact Or.inl ⟨rfl, Allocator.search_none.mp hs⟩
  | some c => exact Or.inr ⟨c, rfl, Allocator.search_fits hs, rfl⟩

/-- Addresses are never negative, so `-1` tells a refusal from a success. -/
theorem WellFormed.call_refused {mm : MemoryManager} (h : WellFormed mm) {a : Allocator} {size : Int} :
    (a.call mm size).1 = -1 ↔
      a.call mm size = (-1, mm) ∧ ∀ b ∈ mm.head, fits size b = false := by
  constructor
  · intro hfail
    rcases a.call_cases mm size with hr | ⟨c, -, -, he⟩
    · exact hr
    · have hbounds := h.tiles.mem_bounds h.positive c.item_mem
      simp only [blockLayout_start] at hbounds
      rw [he] at hfail
      simp only at hfail
      omega
  · intro hr
    rw [hr.1]

/-! Splitting -/

theorem splitBlock_cases (b : MemoryBlock) (size pid : Int) (h : size ≤ b.size) :
    (b.size = size ∧ splitBlock b size pid = [⟨b.start, size, false, pid⟩]) ∨
    (size < b.size ∧ splitBlock b size pid =
      [⟨b.start, size, false, pid⟩, ⟨b.start + size, b.size - size, true, -1⟩]) := by
  by_cases hs : b.size > size
  · exact Or.inr ⟨hs, by simp [splitBlock, hs]⟩
  · exact Or.inl ⟨by omega, by simp [splitBlock, hs]⟩

theorem splitBlock_tiles {pre post : List MemoryBlock} {b : MemoryBlock} {total size : Int}
    (h : blockLayout.Tiles 0 (pre ++ b :: post) total) (hle : size ≤ b.size) (pid : Int) :
    blockLayout.Tiles 0 (pre ++ splitBlock b size pid ++ post) total := by
  obtain ⟨m, hpre, hstart, hpost⟩ := Tiling.Layout.Tiles.append.mp h
  rcases splitBlock_cases b size pid hle with ⟨heq, hsplit⟩ | ⟨-, hsplit⟩
  · rw [hsplit, List.append_assoc, List.singleton_append]
    refine Tiling.Layout.Tiles.append.mpr ⟨m, hpre, hstart, ?_⟩
    simpa [heq] using hpost
  · rw [hsplit, List.append_assoc, List.cons_append, List.singleton_append]
    refine Tiling.Layout.Tiles.append.mpr ⟨m, hpre, hstart, rfl, ?_⟩
    have he : b.start + size + (b.size - size) = b.start + b.size := by omega
    simpa [he] using hpost

theorem WellFormed.split {pre post : List MemoryBlock} {b : MemoryBlock} {total size pid : Int}
    (h : WellFormed ⟨pre ++ b :: post, total⟩) (hfit : fits size b = true) (hsize : 1 ≤ size) :
    WellFormed ⟨pre ++ splitBlock b size pid ++ post, total⟩ := by
  obtain ⟨htiles, hpos, hsep, hpid⟩ := h
  obtain ⟨hfree, hle⟩ := fits_iff.mp hfit
  obtain ⟨hpos₁, hpos₂⟩ := Tiling.Layout.Positive.append.mp hpos
  have hpos₃ := (Tiling.Layout.Positive.cons.mp hpos₂).2
  have hpid' : ∀ c ∈ pre ++ post, c.free = true → c.pid = -1 := by
    intro c hc
    apply hpid c
    rcases List.mem_append.mp hc with hc | hc
    · exact List.mem_append_left _ hc
    · exact List.mem_append_right _ (List.mem_cons_of_mem _ hc)
  have htiles' := splitBlock_tiles htiles hle pid
  rcases splitBlock_cases b size pid hle with ⟨-, hsplit⟩ | ⟨hlt, hsplit⟩
  · rw [hsplit, List.append_assoc, List.singleton_append] at htiles' ⊢
    refine ⟨htiles', ?_, ?_, ?_⟩
    · refine Tiling.Layout.Positive.append.mpr ⟨hpos₁, Tiling.Layout.Positive.cons.mpr ⟨?_, hpos₃⟩⟩
      exact hsize
    · exact hsep.replace_labelled (by simp)
    · intro c hc hcf
      simp only [List.mem_append, List.mem_cons] at hc
      rcases hc with hc | rfl | hc
      · exact hpid' c (List.mem_append_left _ hc) hcf
      · simp at hcf
      · exact hpid' c (List.mem_append_right _ hc) hcf
  · rw [hsplit, List.append_assoc, List.cons_append, List.singleton_append] at htiles' ⊢
    refine ⟨htiles', ?_, ?_, ?_⟩
    · refine Tiling.Layout.Positive.append.mpr ⟨hpos₁, ?_⟩
      refine Tiling.Layout.Positive.cons.mpr ⟨hsize, Tiling.Layout.Positive.cons.mpr ⟨?_, hpos₃⟩⟩
      simpa using hlt
    · exact hsep.cut (by simpa using hfree) (by simp)
    · intro c hc hcf
      simp only [List.mem_append, List.mem_cons] at hc
      rcases hc with hc | rfl | rfl | hc
      · exact hpid' c (List.mem_append_left _ hc) hcf
      · simp at hcf
      · rfl
      · exact hpid' c (List.mem_append_right _ hc) hcf

theorem WellFormed.allocate {mm : MemoryManager} (h : WellFormed mm) (a : Allocator) {size : Int}
    (hsize : 1 ≤ size) : WellFormed (a.call mm size).2 := by
  rcases a.call_cases mm size with ⟨he, -⟩ | ⟨c, -, hfit, he⟩
  · rw [he]
    exact h
  · rw [he]
    have hmm : WellFormed ⟨c.before ++ c.item :: c.after, mm.totalMemory⟩ := by
      rw [c.split]
      exact h
    exact hmm.split hfit hsize

/-! Coalescing -/

theorem coalesceFrom_tiles {cur : MemoryBlock} {rest : List MemoryBlock} {a e : Int}
    (h : blockLayout.Tiles a (cur :: rest) e) :
    blockLayout.Tiles a (coalesceFrom cur rest) e := by
  fun_induction coalesceFrom cur rest generalizing a with
  | case1 cur => exact h
  | case2 cur next rest hboth ih =>
    obtain ⟨hstart, hnext, hrest⟩ := h
    refine ih ⟨hstart, ?_⟩
    have he : cur.start + (cur.size + next.size) = next.start + next.size := by
      simp only [blockLayout_start, blockLayout_stop] at hnext
      omega
    simpa [he] using hrest
  | case3 cur next rest hboth ih =>
    obtain ⟨hstart, hnext, hrest⟩ := h
    exact ⟨hstart, ih ⟨hnext, hrest⟩⟩

theorem coalesceFrom_positive {cur : MemoryBlock} {rest : List MemoryBlock}
    (h : blockLayout.Positive (cur :: rest)) : blockLayout.Positive (coalesceFrom cur rest) := by
  fun_induction coalesceFrom cur rest with
  | case1 cur => exact h
  | case2 cur next rest hboth ih =>
    obtain ⟨hcur, hnext, hrest⟩ : _ ∧ _ ∧ _ := by
      simpa only [Tiling.Layout.Positive.cons] using h
    refine ih (Tiling.Layout.Positive.cons.mpr ⟨?_, hrest⟩)
    simp only [blockLayout_size] at hcur hnext ⊢
    omega
  | case3 cur next rest hboth ih =>
    obtain ⟨hcur, hrest⟩ := Tiling.Layout.Positive.cons.mp h
    exact Tiling.Layout.Positive.cons.mpr ⟨hcur, ih hrest⟩

theorem coalesceFrom_head (cur : MemoryBlock) (rest : List MemoryBlock) :
    ∃ size tail, coalesceFrom cur rest = { cur with size := size } :: tail := by
  fun_induction coalesceFrom cur rest with
  | case1 cur => exact ⟨cur.size, [], rfl⟩
  | case2 cur next rest hboth ih =>
    obtain ⟨size, tail, he⟩ := ih
    exact ⟨size, tail, he⟩
  | case3 cur next rest hboth ih => exact ⟨cur.size, coalesceFrom next rest, rfl⟩

theorem coalesceFrom_separated (cur : MemoryBlock) (rest : List MemoryBlock) :
    blockLayout.Separated (coalesceFrom cur rest) := by
  fun_induction coalesceFrom cur rest with
  | case1 cur => exact List.isChain_singleton _
  | case2 cur next rest hboth ih => exact ih
  | case3 cur next rest hboth ih =>
    refine List.isChain_cons.mpr ⟨?_, ih⟩
    intro y hy hcur hy'
    obtain ⟨size, tail, he⟩ := coalesceFrom_head next rest
    obtain rfl : { next with size := size } = y := by simpa [he] using hy
    simp only [blockLayout_label_none] at hcur hy'
    simp [hcur, hy'] at hboth

theorem coalesceFrom_pid {cur : MemoryBlock} {rest : List MemoryBlock}
    (h : ∀ b ∈ cur :: rest, b.free = true → b.pid = -1) :
    ∀ b ∈ coalesceFrom cur rest, b.free = true → b.pid = -1 := by
  fun_induction coalesceFrom cur rest with
  | case1 cur => exact h
  | case2 cur next rest hboth ih =>
    obtain ⟨hcur, -, hrest⟩ : _ ∧ _ ∧ _ := by
      simpa only [List.forall_mem_cons] using h
    exact ih (List.forall_mem_cons.mpr ⟨hcur, hrest⟩)
  | case3 cur next rest hboth ih =>
    obtain ⟨hcur, hrest⟩ := List.forall_mem_cons.mp h
    exact List.forall_mem_cons.mpr ⟨hcur, ih hrest⟩

theorem mmCoalesce_wellFormed {mm : MemoryManager}
    (htiles : blockLayout.Tiles 0 mm.head mm.totalMemory) (hpos : blockLayout.Positive mm.head)
    (hpid : ∀ b ∈ mm.head, b.free = true → b.pid = -1) : WellFormed (mmCoalesce mm) := by
  obtain ⟨head, total⟩ := mm
  cases head with
  | nil => exact ⟨htiles, hpos, List.isChain_nil, hpid⟩
  | cons cur rest =>
    exact ⟨coalesceFrom_tiles htiles, coalesceFrom_positive hpos, coalesceFrom_separated cur rest,
      coalesceFrom_pid hpid⟩

theorem WellFormed.coalesce {mm : MemoryManager} (h : WellFormed mm) : WellFormed (mmCoalesce mm) :=
  mmCoalesce_wellFormed h.tiles h.positive h.free_pid

@[simp] theorem markFree_start (pid : Int) (b : MemoryBlock) : (markFree pid b).start = b.start := by
  unfold markFree
  split_ifs <;> rfl

@[simp] theorem markFree_size (pid : Int) (b : MemoryBlock) : (markFree pid b).size = b.size := by
  unfold markFree
  split_ifs <;> rfl

theorem tiles_map_mark (pid : Int) {l : List MemoryBlock} {a e : Int}
    (h : blockLayout.Tiles a l e) : blockLayout.Tiles a (l.map (markFree pid)) e := by
  induction l generalizing a with
  | nil => exact h
  | cons b l ih =>
    refine ⟨?_, ?_⟩
    · simpa using h.1
    · simpa using ih h.2

theorem WellFormed.free {mm : MemoryManager} (h : WellFormed mm) (pid : Int) :
    WellFormed (mmFree mm pid) := by
  apply mmCoalesce_wellFormed
  · exact tiles_map_mark pid h.tiles
  · intro b hb
    obtain ⟨c, hc, rfl⟩ := List.mem_map.mp hb
    simpa using h.positive c hc
  · intro b hb hfree
    obtain ⟨c, hc, rfl⟩ := List.mem_map.mp hb
    by_cases hm : (!c.free && c.pid == pid) = true
    · simp [markFree, hm]
    · simp only [markFree, hm] at hfree ⊢
      exact h.free_pid c hc hfree

/-! Runs -/

@[simp] theorem MmCall.exec_totalMemory (mm : MemoryManager) (call : MmCall) :
    (call.exec mm).totalMemory = mm.totalMemory := by
  cases call with
  | allocate a size =>
    rcases a.call_cases mm size with ⟨he, -⟩ | ⟨c, -, -, he⟩ <;> simp [MmCall.exec, he]
  | free pid => rfl
  | coalesce => rfl
  | compact =>
    simp only [MmCall.exec, mmCompact]
    split_ifs <;> rfl

@[simp] theorem mmRun_totalMemory (calls : List MmCall) (mm : MemoryManager) :
    (mmRun calls mm).totalMemory = mm.totalMemory := by
  induction calls generalizing mm with
  | nil => rfl
  | cons call calls ih => exact (ih (call.exec mm)).trans (MmCall.exec_totalMemory mm call)

/-- Allocations ask for at least one unit, and there is no compaction. -/
def MmCall.Ordinary : MmCall → Prop
  | .allocate _ size => 1 ≤ size
  | .compact => False
  | _ => True

theorem WellFormed.exec {mm : MemoryManager} (h : WellFormed mm) {call : MmCall}
    (hcall : call.Ordinary) : WellFormed (call.exec mm) := by
  cases call with
  | allocate a size => exact h.allocate a hcall
  | free pid => exact h.free pid
  | coalesce => exact h.coalesce
  | compact => exact hcall.elim

theorem WellFormed.run {calls : List MmCall} {mm : MemoryManager} (h : WellFormed mm)
    (hcalls : ∀ call ∈ calls, call.Ordinary) : WellFormed (mmRun calls mm) := by
  induction calls generalizing mm with
  | nil => exact h
  | cons call calls ih =>
    obtain ⟨hcall, hrest⟩ := List.forall_mem_cons.mp hcalls
    exact ih (h.exec hcall) hrest

theorem reachable_wellFormed {totalMemory : Int} (ht : 1 ≤ totalMemory) {calls : List MmCall}
    (hcalls : ∀ call ∈ calls, call.Ordinary) : WellFormed (mmRun calls (mmCreate totalMemory)) :=
  (mmCreate_wellFormed ht).run hcalls

end MiniOS
