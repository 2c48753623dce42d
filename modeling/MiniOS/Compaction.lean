import MiniOS.Ownership

/-! Compaction: the list it should leave, and when `mm_compact` leaves it. The
deletion pass never looks at the head, so a free head survives. -/

namespace MiniOS

def packed : Int → List MemoryBlock → List MemoryBlock
  | _, [] => []
  | position, b :: rest => { b with start := position } :: packed (position + b.size) rest

def sizeTotal (blocks : List MemoryBlock) : Int := (blocks.map MemoryBlock.size).sum

def compactSpec (mm : MemoryManager) : List MemoryBlock :=
  let used := sizeTotal (occupied mm.head)
  packed 0 (occupied mm.head) ++
    if used < mm.totalMemory then [⟨used, mm.totalMemory - used, true, -1⟩] else []

/-- The promise of `mm_compact`: the list is as specified, so it tiles the
memory and its free blocks are one at most. -/
structure Compacted (before after : MemoryManager) : Prop where
  head_eq : after.head = compactSpec before
  wellFormed : WellFormed after
  one_free : (after.head.filter MemoryBlock.free).length ≤ 1

def HeadOccupied (mm : MemoryManager) : Prop := ∃ b, mm.head.head? = some b ∧ b.free = false

theorem deleteFrom_eq (cur : MemoryBlock) (rest : List MemoryBlock) :
    deleteFrom cur rest = cur :: occupied rest := by
  induction rest generalizing cur with
  | nil => rfl
  | cons next rest ih =>
    cases hn : next.free with
    | true => simp [deleteFrom, hn, ih, occupied_cons_free hn]
    | false => simp [deleteFrom, hn, ih, occupied_cons hn]

theorem occupied_deleteFree (blocks : List MemoryBlock) :
    occupied (deleteFree blocks) = occupied blocks := by
  cases blocks with
  | nil => rfl
  | cons cur rest =>
    have hsame : occupied (occupied rest) = occupied rest := by simp [occupied, List.filter_filter]
    rw [deleteFree, deleteFrom_eq]
    cases hc : cur.free with
    | true => rw [occupied_cons_free hc, occupied_cons_free hc, hsame]
    | false => rw [occupied_cons hc, occupied_cons hc, hsame]

theorem relocate_cons_free {cur : MemoryBlock} (h : cur.free = true) (position : Int)
    (rest : List MemoryBlock) : relocate position (cur :: rest) =
      (cur :: (relocate position rest).1, (relocate position rest).2) := by
  simp [relocate, h]

theorem relocate_cons {cur : MemoryBlock} (h : cur.free = false) (position : Int)
    (rest : List MemoryBlock) : relocate position (cur :: rest) =
      ({ cur with start := position } :: (relocate (position + cur.size) rest).1,
        (relocate (position + cur.size) rest).2) := by
  simp [relocate, h]

theorem occupied_relocate (position : Int) (blocks : List MemoryBlock) :
    occupied (relocate position blocks).1 = packed position (occupied blocks) := by
  induction blocks generalizing position with
  | nil => rfl
  | cons cur rest ih =>
    cases hc : cur.free with
    | true => rw [relocate_cons_free hc, occupied_cons_free hc, occupied_cons_free hc, ih]
    | false =>
      have hm : ({ cur with start := position } : MemoryBlock).free = false := hc
      rw [relocate_cons hc, occupied_cons hm, occupied_cons hc, ih, packed]

theorem relocate_position (position : Int) (blocks : List MemoryBlock) :
    (relocate position blocks).2 = position + sizeTotal (occupied blocks) := by
  induction blocks generalizing position with
  | nil => simp [relocate, occupied, sizeTotal]
  | cons cur rest ih =>
    cases hc : cur.free with
    | true => rw [relocate_cons_free hc, occupied_cons_free hc, ih]
    | false =>
      rw [relocate_cons hc, occupied_cons hc, ih]
      simp [sizeTotal, Int.add_assoc]

theorem usedMemory_eq (blocks : List MemoryBlock) :
    usedMemory blocks = sizeTotal (occupied blocks) := by
  have hfrom : ∀ used : Int, blocks.foldl (fun used cur => if cur.free then used else used + cur.size)
      used = used + sizeTotal (occupied blocks) := by
    induction blocks with
    | nil => simp [occupied, sizeTotal]
    | cons cur rest ih =>
      intro used
      cases hc : cur.free with
      | true => simp [hc, ih, occupied_cons_free hc]
      | false =>
        rw [occupied_cons hc]
        simp [hc, ih, sizeTotal, Int.add_assoc]
  simpa [usedMemory] using hfrom 0

theorem sizeTotal_packed (position : Int) (blocks : List MemoryBlock) :
    sizeTotal (packed position blocks) = sizeTotal blocks := by
  induction blocks generalizing position with
  | nil => rfl
  | cons b rest ih =>
    have hh := ih (position + b.size)
    simp only [sizeTotal] at hh
    simp [packed, sizeTotal, hh]

theorem occupied_packed (position : Int) (blocks : List MemoryBlock) :
    occupied (packed position (occupied blocks)) = packed position (occupied blocks) := by
  rw [← occupied_relocate]
  simp [occupied, List.filter_filter]

theorem usedMemory_kept (blocks : List MemoryBlock) :
    usedMemory (deleteFree (relocate 0 blocks).1) = sizeTotal (occupied blocks) := by
  rw [usedMemory_eq, occupied_deleteFree, occupied_relocate, sizeTotal_packed]

/-- What `mm_compact` leaves, whatever the state: a free head stays where it is. -/
theorem mmCompact_head (mm : MemoryManager) (cur : MemoryBlock) (rest : List MemoryBlock)
    (h : mm.head = cur :: rest) :
    (mmCompact mm).head = if cur.free then cur :: compactSpec mm else compactSpec mm := by
  have hkept : deleteFree (relocate 0 mm.head).1 =
      if cur.free then cur :: packed 0 (occupied mm.head) else packed 0 (occupied mm.head) := by
    have hocc := occupied_relocate 0 mm.head
    rw [h] at hocc ⊢
    cases hc : cur.free with
    | true =>
      rw [relocate_cons_free hc, occupied_cons_free hc] at hocc
      rw [relocate_cons_free hc, deleteFree, deleteFrom_eq, hocc, if_pos rfl]
    | false =>
      have hm : ({ cur with start := 0 } : MemoryBlock).free = false := hc
      rw [relocate_cons hc, occupied_cons hm] at hocc
      rw [relocate_cons hc, deleteFree, deleteFrom_eq, hocc, if_neg (by simp)]
  have hused := usedMemory_kept mm.head
  have hposition : (relocate 0 mm.head).2 = sizeTotal (occupied mm.head) := by
    simpa using relocate_position 0 mm.head
  simp only [mmCompact, hused, hposition]
  rw [hkept]
  by_cases hr : sizeTotal (occupied mm.head) < mm.totalMemory
  · cases hc : cur.free <;> simp [compactSpec, hr]
  · cases hc : cur.free <;> simp [compactSpec, hr]

theorem mmCompact_spec_iff {mm : MemoryManager} (h : mm.head ≠ []) :
    (mmCompact mm).head = compactSpec mm ↔ HeadOccupied mm := by
  obtain ⟨cur, rest, hl⟩ := List.exists_cons_of_ne_nil h
  rw [mmCompact_head mm cur rest hl]
  cases hc : cur.free with
  | true =>
    apply iff_of_false
    · simp
    · rintro ⟨b, hb, hfree⟩
      obtain rfl : cur = b := by simpa [hl] using hb
      simp [hc] at hfree
  | false => exact iff_of_true (by simp) ⟨cur, by simp [hl], hc⟩

theorem packed_tiles (position : Int) (blocks : List MemoryBlock) :
    blockLayout.Tiles position (packed position blocks) (position + sizeTotal blocks) := by
  induction blocks generalizing position with
  | nil => simp [packed, sizeTotal, Tiling.Layout.Tiles]
  | cons b rest ih =>
    refine ⟨rfl, ?_⟩
    have he : position + sizeTotal (b :: rest) = position + b.size + sizeTotal rest := by
      simp [sizeTotal, Int.add_assoc]
    rw [he]
    exact ih (position + b.size)

theorem mem_packed {position : Int} {blocks : List MemoryBlock} {b : MemoryBlock}
    (h : b ∈ packed position blocks) : ∃ c ∈ blocks, b.size = c.size ∧ b.free = c.free := by
  induction blocks generalizing position with
  | nil => simp [packed] at h
  | cons c rest ih =>
    rcases List.mem_cons.mp h with rfl | hb
    · exact ⟨c, by simp, rfl, rfl⟩
    · obtain ⟨d, hd, he⟩ := ih hb
      exact ⟨d, List.mem_cons_of_mem _ hd, he⟩

theorem separated_of_occupied {blocks : List MemoryBlock} (h : ∀ b ∈ blocks, b.free = false)
    (b : MemoryBlock) : blockLayout.Separated (blocks ++ [b]) := by
  induction blocks with
  | nil => exact List.isChain_singleton _
  | cons c rest ih =>
    obtain ⟨hc, hrest⟩ := List.forall_mem_cons.mp h
    refine List.isChain_cons.mpr ⟨fun d _ hcn => ?_, ih hrest⟩
    simp [hc] at hcn

theorem WellFormed.occupied_le {mm : MemoryManager} (h : WellFormed mm) :
    sizeTotal (occupied mm.head) ≤ mm.totalMemory := by
  have hstop := h.tiles.stop_eq
  have hle : ∀ l : List MemoryBlock, blockLayout.Positive l →
      sizeTotal (occupied l) ≤ (l.map blockLayout.size).sum := by
    intro l hl
    induction l with
    | nil => simp [occupied, sizeTotal]
    | cons b rest ih =>
      obtain ⟨hb, hrest⟩ := Tiling.Layout.Positive.cons.mp hl
      have hh := ih hrest
      simp only [blockLayout_size] at hb
      cases hf : b.free with
      | true =>
        simp only [occupied_cons_free hf, List.map_cons, List.sum_cons, blockLayout_size]
        omega
      | false =>
        simp only [sizeTotal] at hh
        simp only [occupied_cons hf, sizeTotal, List.map_cons, List.sum_cons, blockLayout_size]
        omega
  have hh := hle mm.head h.positive
  omega

theorem WellFormed.compactSpec {mm : MemoryManager} (h : WellFormed mm) :
    WellFormed ⟨MiniOS.compactSpec mm, mm.totalMemory⟩ ∧
      ((MiniOS.compactSpec mm).filter MemoryBlock.free).length ≤ 1 := by
  have hle := h.occupied_le
  have htiles := packed_tiles 0 (occupied mm.head)
  rw [Int.zero_add] at htiles
  have hocc : ∀ b ∈ packed 0 (occupied mm.head), b.free = false ∧ 0 < b.size := by
    intro b hb
    obtain ⟨c, hc, hsize, hfree⟩ := mem_packed hb
    have hcm := mem_occupied.mp hc
    have hpos : 0 < c.size := h.positive c hcm.1
    exact ⟨hfree.trans hcm.2, by omega⟩
  have hnone : (packed 0 (occupied mm.head)).filter MemoryBlock.free = [] :=
    List.filter_eq_nil_iff.mpr (fun b hb => by simp [(hocc b hb).1])
  by_cases hr : sizeTotal (occupied mm.head) < mm.totalMemory
  · simp only [MiniOS.compactSpec, hr, if_true]
    refine ⟨⟨Tiling.Layout.Tiles.append.mpr ⟨_, htiles, rfl, ?_⟩, ?_, ?_, ?_⟩, ?_⟩
    · simp [Tiling.Layout.Tiles]
    · refine Tiling.Layout.Positive.append.mpr ⟨fun b hb => (hocc b hb).2, ?_⟩
      simp only [Tiling.Layout.Positive, List.mem_singleton, forall_eq, blockLayout_size]
      omega
    · exact separated_of_occupied (fun b hb => (hocc b hb).1) _
    · intro b hb hfree
      rcases List.mem_append.mp hb with hb | hb
      · simp [(hocc b hb).1] at hfree
      · rw [List.mem_singleton.mp hb]
    · simp [List.filter_append, hnone]
  · have he : sizeTotal (occupied mm.head) = mm.totalMemory := by omega
    simp only [MiniOS.compactSpec, hr, if_false, List.append_nil]
    refine ⟨⟨he ▸ htiles, fun b hb => (hocc b hb).2, ?_, ?_⟩, by simp [hnone]⟩
    · have hs := separated_of_occupied (fun b hb => (hocc b hb).1) ⟨0, 0, true, -1⟩
      exact (List.isChain_append.mp hs).1
    · intro b hb hfree
      simp [(hocc b hb).1] at hfree

theorem WellFormed.compact {mm : MemoryManager} (h : WellFormed mm) (hocc : HeadOccupied mm) :
    Compacted mm (mmCompact mm) := by
  have hne : mm.head ≠ [] := by
    obtain ⟨b, hb, -⟩ := hocc
    rintro hn
    simp [hn] at hb
  have hspec := (mmCompact_spec_iff hne).mpr hocc
  have he : mmCompact mm = ⟨MiniOS.compactSpec mm, mm.totalMemory⟩ := by
    rw [← hspec]
    exact congrArg (MemoryManager.mk (mmCompact mm).head) (MmCall.exec_totalMemory mm .compact)
  rw [he]
  exact ⟨rfl, h.compactSpec.1, h.compactSpec.2⟩

/-! Runs that compact -/

def MmCall.Sized : MmCall → Prop
  | .allocate _ size => 1 ≤ size
  | _ => True

def CompactsOccupied : List MmCall → MemoryManager → Prop
  | [], _ => True
  | call :: calls, mm =>
    (call = .compact → HeadOccupied mm) ∧ CompactsOccupied calls (call.exec mm)

theorem WellFormed.exec_sized {mm : MemoryManager} (h : WellFormed mm) {call : MmCall}
    (hsized : call.Sized) (hocc : call = .compact → HeadOccupied mm) :
    WellFormed (call.exec mm) := by
  cases call with
  | allocate a size => exact h.allocate a hsized
  | free pid => exact h.free pid
  | coalesce => exact h.coalesce
  | compact => exact (h.compact (hocc rfl)).wellFormed

theorem WellFormed.run_sized {calls : List MmCall} {mm : MemoryManager} (h : WellFormed mm)
    (hsized : ∀ call ∈ calls, call.Sized) (hocc : CompactsOccupied calls mm) :
    WellFormed (mmRun calls mm) := by
  induction calls generalizing mm with
  | nil => exact h
  | cons call calls ih =>
    obtain ⟨hcall, hrest⟩ := List.forall_mem_cons.mp hsized
    exact ih (h.exec_sized hcall hocc.1) hrest hocc.2

theorem coalesceBlocks_ne_nil {blocks : List MemoryBlock} (h : blocks ≠ []) :
    coalesceBlocks blocks ≠ [] := by
  obtain ⟨cur, rest, rfl⟩ := List.exists_cons_of_ne_nil h
  obtain ⟨size, tail, he⟩ := coalesceFrom_head cur rest
  simp [coalesceBlocks, he]

theorem MmCall.exec_head_ne_nil {mm : MemoryManager} (h : mm.head ≠ []) (call : MmCall) :
    (call.exec mm).head ≠ [] := by
  cases call with
  | allocate a size =>
    rcases a.call_cases mm size with ⟨he, -⟩ | ⟨c, -, -, he⟩
    · simpa [MmCall.exec, he] using h
    · by_cases hs : c.item.size > size <;> simp [MmCall.exec, he, splitBlock, hs]
  | free pid => exact coalesceBlocks_ne_nil (by simpa using h)
  | coalesce => exact coalesceBlocks_ne_nil h
  | compact =>
    obtain ⟨cur, rest, hl⟩ := List.exists_cons_of_ne_nil h
    simp only [MmCall.exec]
    rw [mmCompact_head mm cur rest hl]
    cases hc : cur.free with
    | true => simp
    | false => simp [compactSpec, hl, occupied_cons hc, packed]

theorem mmRun_head_ne_nil {mm : MemoryManager} (h : mm.head ≠ []) (calls : List MmCall) :
    (mmRun calls mm).head ≠ [] := by
  induction calls generalizing mm with
  | nil => exact h
  | cons call calls ih => exact ih (call.exec_head_ne_nil h)

end MiniOS
