import MiniOS.IntSums
import MiniOS.Ownership

/-! Requests of any size. No allocator looks at the sign of a request: a
negative one is taken for a fit by the first free block and the split then makes
a block of negative size, whereas a request for nothing is harmless. -/

namespace MiniOS

structure Sound (mm : MemoryManager) : Prop where
  tiles : blockLayout.Tiles 0 mm.head mm.totalMemory
  nonneg : blockLayout.Nonneg mm.head

def BlocksInside (mm : MemoryManager) : Prop :=
  ∀ b ∈ mm.head, 0 ≤ b.start ∧ 0 ≤ b.size ∧ b.start + b.size ≤ mm.totalMemory

/-- An allocation is refused and changes nothing, or gets free addresses of the
memory, and no sum leaves the range of `int`. -/
structure CallSafe (mm : MemoryManager) (call : MmCall) : Prop where
  placed : ∀ a size, call = .allocate a size →
    let r := a.call mm size
    r = (-1, mm) ∨ 0 ≤ r.1 ∧ 0 ≤ size ∧ r.1 + size ≤ mm.totalMemory ∧
      Tiling.FreeOn (owner mm) r.1 (r.1 + size)
  no_overflow : ∀ v ∈ call.sums mm, intMin ≤ v ∧ v ≤ intMax

def RunSafe : List MmCall → MemoryManager → Prop
  | [], mm => BlocksInside mm
  | call :: calls, mm => BlocksInside mm ∧ CallSafe mm call ∧ RunSafe calls (call.exec mm)

/-- A request is not negative, or it meets a memory without free blocks. -/
def MmCall.Sane (mm : MemoryManager) : MmCall → Prop
  | .allocate _ size => 0 ≤ size ∨ ∀ b ∈ mm.head, b.free = false
  | _ => True

def RequestsSane : List MmCall → MemoryManager → Prop
  | [], _ => True
  | call :: calls, mm => call.Sane mm ∧ RequestsSane calls (call.exec mm)

theorem MmCall.Sane.nonneg {mm : MemoryManager} {a : Allocator} {size : Int} {b : MemoryBlock}
    (h : (MmCall.allocate a size).Sane mm) (hb : b ∈ mm.head) (hfree : b.free = true) : 0 ≤ size := by
  apply h.resolve_right
  intro hall
  simp [hall b hb] at hfree

theorem coalesceFrom_nonneg {cur : MemoryBlock} {rest : List MemoryBlock}
    (h : blockLayout.Nonneg (cur :: rest)) : blockLayout.Nonneg (coalesceFrom cur rest) := by
  induction rest generalizing cur with
  | nil => exact h
  | cons next rest ih =>
    obtain ⟨hcur, hnext, hrest⟩ : _ ∧ _ ∧ _ := by
      simpa only [Tiling.Layout.Nonneg.cons] using h
    by_cases hf : (cur.free && next.free) = true
    · simp only [coalesceFrom, hf, if_true]
      refine ih (Tiling.Layout.Nonneg.cons.mpr ⟨?_, hrest⟩)
      simp only [blockLayout_size] at hcur hnext ⊢
      omega
    · simp only [coalesceFrom, hf]
      exact Tiling.Layout.Nonneg.cons.mpr
        ⟨hcur, ih (Tiling.Layout.Nonneg.cons.mpr ⟨hnext, hrest⟩)⟩

namespace Sound

variable {mm : MemoryManager} {total : Int} {head pre post : List MemoryBlock} {b : MemoryBlock}
  {size : Int}

theorem create {totalMemory : Int} (h : 1 ≤ totalMemory) : Sound (mmCreate totalMemory) :=
  ⟨(mmCreate_wellFormed h).tiles, (mmCreate_wellFormed h).positive.nonneg⟩

theorem blocksInside (h : Sound mm) : BlocksInside mm := by
  intro b hb
  obtain ⟨hlo, hhi⟩ := h.tiles.mem_inside h.nonneg hb
  exact ⟨hlo, h.nonneg b hb, hhi⟩

theorem split (h : Sound ⟨pre ++ b :: post, total⟩) (hle : size ≤ b.size) (hsize : 0 ≤ size)
    (pid : Int) : Sound ⟨pre ++ splitBlock b size pid ++ post, total⟩ := by
  obtain ⟨htiles, hn⟩ := h
  obtain ⟨hpre, hrest⟩ := Tiling.Layout.Nonneg.append.mp hn
  have hpost := (Tiling.Layout.Nonneg.cons.mp hrest).2
  refine ⟨splitBlock_tiles htiles hle pid, ?_⟩
  rw [Tiling.Layout.Nonneg.append, Tiling.Layout.Nonneg.append]
  refine ⟨⟨hpre, ?_⟩, hpost⟩
  rcases splitBlock_cases b size pid hle with ⟨-, hsplit⟩ | ⟨-, hsplit⟩
  · rw [hsplit]
    intro c hc
    rw [List.mem_singleton.mp hc]
    exact hsize
  · rw [hsplit]
    refine Tiling.Layout.Nonneg.cons.mpr ⟨hsize, ?_⟩
    intro c hc
    rw [List.mem_singleton.mp hc]
    exact Int.sub_nonneg.mpr hle

theorem coalesce (h : Sound ⟨head, total⟩) : Sound (mmCoalesce ⟨head, total⟩) := by
  cases head with
  | nil => exact h
  | cons cur rest => exact ⟨coalesceFrom_tiles h.tiles, coalesceFrom_nonneg h.nonneg⟩

theorem marked (h : Sound mm) (pid : Int) : Sound ⟨mm.head.map (markFree pid), mm.totalMemory⟩ := by
  refine ⟨tiles_map_mark pid h.tiles, ?_⟩
  intro b hb
  obtain ⟨c, hc, rfl⟩ := List.mem_map.mp hb
  simpa using h.nonneg c hc

theorem exec (h : Sound mm) {call : MmCall} (hcompact : call ≠ .compact) (hsane : call.Sane mm) :
    Sound (call.exec mm) := by
  cases call with
  | allocate a size =>
    rcases a.call_cases mm size with ⟨he, -⟩ | ⟨c, -, hfit, he⟩
    · simpa [MmCall.exec, he] using h
    · obtain ⟨hfree, hle⟩ := fits_iff.mp hfit
      have hmm : Sound ⟨c.before ++ c.item :: c.after, mm.totalMemory⟩ := by
        rw [c.split]
        exact h
      simp only [MmCall.exec, he]
      exact hmm.split hle (hsane.nonneg c.item_mem hfree) (a.tag size)
  | free pid => exact (h.marked pid).coalesce
  | coalesce => exact h.coalesce
  | compact => exact absurd rfl hcompact

theorem sums_bounds (h : Sound mm) {call : MmCall} (hcompact : call ≠ .compact)
    (hsane : call.Sane mm) : ∀ v ∈ call.sums mm, 0 ≤ v ∧ v ≤ mm.totalMemory := by
  cases call with
  | allocate a size =>
    cases hs : a.search mm.head size with
    | none => simp [MmCall.sums, hs]
    | some c =>
      have hsize := hsane.nonneg c.item_mem (fits_iff.mp (Allocator.search_fits hs)).1
      simpa only [MmCall.sums, hs] using splitSums_bounds h.tiles h.nonneg c.item_mem hsize
  | free pid => exact coalesceSums_bounds (h.marked pid).tiles (h.marked pid).nonneg
  | coalesce => exact coalesceSums_bounds h.tiles h.nonneg
  | compact => exact absurd rfl hcompact

theorem placed (h : Sound mm) {a : Allocator} (hsane : (MmCall.allocate a size).Sane mm) :
    let r := a.call mm size
    r = (-1, mm) ∨ 0 ≤ r.1 ∧ 0 ≤ size ∧ r.1 + size ≤ mm.totalMemory ∧
      Tiling.FreeOn (owner mm) r.1 (r.1 + size) := by
  rcases a.call_cases mm size with ⟨he, -⟩ | ⟨c, -, hfit, he⟩
  · exact Or.inl he
  · obtain ⟨hfree, hle⟩ := fits_iff.mp hfit
    have hsize := hsane.nonneg c.item_mem hfree
    obtain ⟨hlo, hn, hhi⟩ := h.blocksInside c.item c.item_mem
    simp only [he]
    refine Or.inr ⟨hlo, hsize, by omega, ?_⟩
    intro x hx hx'
    apply h.tiles.freeOn_block h.nonneg c.item_mem (blockLayout_label_none.mpr hfree) x hx
    simp only [blockLayout_stop]
    omega

theorem callSafe (h : Sound mm) (hmax : mm.totalMemory ≤ intMax) {call : MmCall}
    (hcompact : call ≠ .compact) (hsane : call.Sane mm) : CallSafe mm call := by
  constructor
  case placed =>
    rintro a size rfl
    exact h.placed hsane
  case no_overflow =>
    intro v hv
    obtain ⟨hlo, hhi⟩ := h.sums_bounds hcompact hsane v hv
    have hmin : intMin ≤ 0 := by decide
    exact ⟨hmin.trans hlo, hhi.trans hmax⟩

end Sound

/-- A negative request gets an address as soon as some block is free. -/
theorem CallSafe.sane {mm : MemoryManager} {call : MmCall} (hinside : BlocksInside mm)
    (hsafe : CallSafe mm call) : call.Sane mm := by
  cases call with
  | allocate a size =>
    by_contra hno
    obtain ⟨hneg, hfree⟩ := not_or.mp hno
    obtain ⟨b, hb, hbfree⟩ : ∃ b ∈ mm.head, b.free = true := by simpa using hfree
    have hfit : fits size b = true := fits_iff.mpr ⟨hbfree, by have := hinside b hb; omega⟩
    rcases a.call_cases mm size with ⟨-, hall⟩ | ⟨c, -, -, he⟩
    · simp [hall b hb] at hfit
    · have hstart := (hinside c.item c.item_mem).1
      rcases hsafe.placed a size rfl with hr | hr
      · rw [he] at hr
        have hcontra : c.item.start = -1 := congrArg Prod.fst hr
        omega
      · exact hneg hr.2.1
  | free pid => trivial
  | coalesce => trivial
  | compact => trivial

theorem Sound.runSafe_iff {mm : MemoryManager} (h : Sound mm) (hmax : mm.totalMemory ≤ intMax)
    {calls : List MmCall} (hcompact : .compact ∉ calls) : RunSafe calls mm ↔ RequestsSane calls mm := by
  induction calls generalizing mm with
  | nil => exact iff_of_true h.blocksInside trivial
  | cons call calls ih =>
    obtain ⟨hcall, hrest⟩ : .compact ≠ call ∧ .compact ∉ calls := by simpa using hcompact
    have hnext : call.Sane mm → (RunSafe calls (call.exec mm) ↔ RequestsSane calls (call.exec mm)) :=
      fun hsane => ih (h.exec (Ne.symm hcall) hsane) (by simpa using hmax) hrest
    constructor
    · rintro ⟨hinside, hsafe, hrun⟩
      have hsane := hsafe.sane hinside
      exact ⟨hsane, (hnext hsane).mp hrun⟩
    · rintro ⟨hsane, hrun⟩
      exact ⟨h.blocksInside, h.callSafe hmax (Ne.symm hcall) hsane, (hnext hsane).mpr hrun⟩

/-- A run without compaction is safe exactly when no negative request meets a free block. -/
theorem mmRun_safe_iff {totalMemory : Int} (hlo : 1 ≤ totalMemory) (hhi : totalMemory ≤ intMax)
    {calls : List MmCall} (hcompact : .compact ∉ calls) :
    RunSafe calls (mmCreate totalMemory) ↔ RequestsSane calls (mmCreate totalMemory) :=
  (Sound.create hlo).runSafe_iff hhi hcompact

theorem mmRun_safe_iff_example :
    let calls : List MmCall := [.allocate (.greedyFirstFit 1) 0, .allocate .mmAllocateBestFit 10,
      .allocate (.greedyWorstFit 2) (-5), .free 1]
    RunSafe calls (mmCreate 10) := by
  intro calls
  apply (mmRun_safe_iff (by decide) (by decide) (by decide)).mpr
  refine ⟨Or.inl (by decide), Or.inl (by decide), Or.inr (by decide), trivial, trivial⟩

/-- The taken block gets size -5 and the rest starts at address -5. -/
theorem not_runSafe_negative :
    (mmRun [.allocate (.greedyFirstFit 1) (-5)] (mmCreate 10)).head =
      [⟨0, -5, false, 1⟩, ⟨-5, 15, true, -1⟩] ∧
    ¬ RunSafe [.allocate (.greedyFirstFit 1) (-5)] (mmCreate 10) := by
  refine ⟨by decide, fun h => ?_⟩
  have hinside := h.2.2 ⟨0, -5, false, 1⟩ (by decide)
  exact absurd hinside.2.1 (by decide)

end MiniOS
