import MiniOS.Ownership

/-! Where the allocators place a request, in terms of the free runs of the
owner map. -/

namespace MiniOS

def HasRoom (mm : MemoryManager) (size : Int) : Prop :=
  ∃ lo hi, Tiling.FreeRun (owner mm) 0 mm.totalMemory lo hi ∧ size ≤ hi - lo

theorem WellFormed.hasRoom_iff {mm : MemoryManager} (h : WellFormed mm) (size : Int) :
    HasRoom mm size ↔ ∃ b ∈ mm.head, fits size b = true := by
  constructor
  · rintro ⟨lo, hi, hrun, hle⟩
    obtain ⟨b, hb, hfree, rfl, rfl⟩ := (h.tiles.freeRun_iff h.positive h.separated).mp hrun
    refine ⟨b, hb, fits_iff.mpr ⟨blockLayout_label_none.mp hfree, ?_⟩⟩
    simp only [blockLayout_start, blockLayout_stop] at hle
    omega
  · rintro ⟨b, hb, hfit⟩
    obtain ⟨hfree, hle⟩ := fits_iff.mp hfit
    refine ⟨b.start, b.start + b.size, ?_, by omega⟩
    exact h.tiles.freeRun_of_mem h.positive h.separated hb (blockLayout_label_none.mpr hfree)

theorem WellFormed.refused_iff {mm : MemoryManager} (h : WellFormed mm) (a : Allocator) (size : Int) :
    (a.call mm size).1 = -1 ↔ ¬ HasRoom mm size := by
  rw [h.call_refused, h.hasRoom_iff size]
  constructor
  · rintro ⟨-, hall⟩ ⟨b, hb, hfit⟩
    simp [hall b hb] at hfit
  · intro hno
    have hall : ∀ b ∈ mm.head, fits size b = false := by
      intro b hb
      by_contra hfit
      exact hno ⟨b, hb, by simpa using hfit⟩
    refine ⟨?_, hall⟩
    rw [a.call_eq, Allocator.search_none.mpr hall]
    rfl

theorem WellFormed.search_some {mm : MemoryManager} (h : WellFormed mm) {size : Int}
    (hroom : HasRoom mm size) (a : Allocator) :
    ∃ c : Cursor mm.head, a.search mm.head size = some c ∧ (a.call mm size).1 = c.item.start := by
  rcases a.call_cases mm size with ⟨he, -⟩ | ⟨c, hs, -, he⟩
  · exact absurd hroom ((h.refused_iff a size).mp (by rw [he]))
  · exact ⟨c, hs, by rw [he]⟩

theorem WellFormed.first_firstFit {mm : MemoryManager} (h : WellFormed mm) {size : Int}
    (hsize : 1 ≤ size) {c : Cursor mm.head} (hc : Cursor.first (fits size) mm.head = some c) :
    Tiling.FirstFit (owner mm) 0 mm.totalMemory size c.item.start := by
  obtain ⟨hitem, hbefore⟩ := Cursor.first_spec hc
  obtain ⟨hfree, hle⟩ := fits_iff.mp hitem
  have htiles := h.tiles
  have hpos := h.positive
  have hsep := h.separated
  have hpre : ∀ b ∈ c.before, blockLayout.label b = none → blockLayout.size b < size := by
    intro b hb hbfree
    have hno := hbefore b hb
    simp only [fits, blockLayout_label_none.mp hbfree, Bool.true_and, decide_eq_false_iff_not] at hno
    simp only [blockLayout_size]
    omega
  rw [← c.split] at htiles hpos hsep
  have hh := htiles.firstFit hpos hsep hsize (blockLayout_label_none.mpr hfree) hle hpre
  rwa [c.split] at hh

/-- A scan that replaces its candidate by preferred sizes finds the preferred run. -/
theorem WellFormed.scan_runFit {mm : MemoryManager} (h : WellFormed mm) {size : Int}
    {prefers : Int → Int → Prop} {c : Cursor mm.head} (hitem : fits size c.item = true)
    (hall : ∀ b ∈ mm.head, fits size b = true →
      prefers c.item.size b.size ∨ c.item.size = b.size)
    (hbefore : ∀ b ∈ c.before, fits size b = true → prefers c.item.size b.size) :
    Tiling.RunFit prefers (owner mm) 0 mm.totalMemory size c.item.start := by
  obtain ⟨hfree, hle⟩ := fits_iff.mp hitem
  have htiles := h.tiles
  have hpos := h.positive
  have hsep := h.separated
  have hfits : ∀ b : MemoryBlock, blockLayout.label b = none → size ≤ blockLayout.size b →
      fits size b = true := fun b hb hs => fits_iff.mpr ⟨blockLayout_label_none.mp hb, hs⟩
  have hall' : ∀ b ∈ c.before ++ c.item :: c.after, fits size b = true →
      prefers c.item.size b.size ∨ c.item.size = b.size := by
    rw [c.split]
    exact hall
  rw [← c.split] at htiles hpos hsep
  have hh := htiles.runFit hpos hsep (blockLayout_label_none.mpr hfree) hle
    (fun b hb hf hs => hall' b hb (hfits b hf hs)) (fun b hb hf hs => hbefore b hb (hfits b hf hs))
  rwa [c.split] at hh

theorem WellFormed.smallest_bestFit {mm : MemoryManager} (h : WellFormed mm) {size : Int}
    {c : Cursor mm.head} (hc : Cursor.scan (fits size) smaller mm.head = some c) :
    Tiling.RunFit (· < ·) (owner mm) 0 mm.totalMemory size c.item.start := by
  obtain ⟨hitem, hall, hbefore⟩ := Cursor.scan_spec smaller_iff hc
  exact h.scan_runFit hitem (fun b hb hfit => lt_or_eq_of_le (hall b hb hfit)) hbefore

theorem WellFormed.largest_worstFit {mm : MemoryManager} (h : WellFormed mm) {size : Int}
    {c : Cursor mm.head} (hc : Cursor.scan (fits size) larger mm.head = some c) :
    Tiling.RunFit (· > ·) (owner mm) 0 mm.totalMemory size c.item.start := by
  obtain ⟨hitem, hall, hbefore⟩ := Cursor.scan_spec larger_iff hc
  refine h.scan_runFit hitem (fun b hb hfit => ?_) hbefore
  have hle : b.size ≤ c.item.size := hall b hb hfit
  rcases lt_or_eq_of_le hle with hlt | heq
  · exact Or.inl hlt
  · exact Or.inr heq.symm

/-- Placement policy and completeness of the allocators in every reachable state. -/
theorem reachable_placement {totalMemory : Int} (ht : 1 ≤ totalMemory) {calls : List MmCall}
    (hcalls : ∀ call ∈ calls, call.Ordinary) {size : Int} (hsize : 1 ≤ size) (pid : Int) :
    let mm := mmRun calls (mmCreate totalMemory)
    (∀ a : Allocator, ((a.call mm size).1 = -1 ↔ ¬ HasRoom mm size) ∧
      ((a.call mm size).1 = -1 → (a.call mm size).2 = mm)) ∧
    (HasRoom mm size →
      Tiling.FirstFit (owner mm) 0 totalMemory size (greedyFirstFit mm pid size).1 ∧
      (∃ c, bruteForceFindBlock mm size = some c ∧
        c.item.start = (greedyFirstFit mm pid size).1) ∧
      Tiling.RunFit (· < ·) (owner mm) 0 totalMemory size (greedyBestFit mm pid size).1 ∧
      Tiling.RunFit (· > ·) (owner mm) 0 totalMemory size (greedyWorstFit mm pid size).1) ∧
    (mmAllocateFirstFit mm size).1 = (greedyFirstFit mm pid size).1 ∧
    (mmAllocateBestFit mm size).1 = (greedyBestFit mm pid size).1 ∧
    (mmAllocateWorstFit mm size).1 = (greedyWorstFit mm pid size).1 ∧
    mmAllocateFirstFit mm size = greedyFirstFit mm size size ∧
    mmAllocateBestFit mm size = greedyBestFit mm size size ∧
    mmAllocateWorstFit mm size = greedyWorstFit mm size size := by
  intro mm
  have hmm : WellFormed mm := reachable_wellFormed ht hcalls
  have htotal : mm.totalMemory = totalMemory := mmRun_totalMemory calls (mmCreate totalMemory)
  have haddress : ∀ a b : Allocator, a.search mm.head size = b.search mm.head size →
      (a.call mm size).1 = (b.call mm size).1 := by
    intro a b hab
    rw [a.call_eq, b.call_eq, hab]
    cases b.search mm.head size <;> rfl
  refine ⟨fun a => ⟨hmm.refused_iff a size, ?_⟩, ?_, haddress .mmAllocateFirstFit (.greedyFirstFit pid) rfl,
    haddress .mmAllocateBestFit (.greedyBestFit pid) rfl,
    haddress .mmAllocateWorstFit (.greedyWorstFit pid) rfl, rfl, rfl, rfl⟩
  · intro hfail
    rw [(hmm.call_refused.mp hfail).1]
  · intro hroom
    obtain ⟨c, hc, hstart⟩ := hmm.search_some hroom (.greedyFirstFit pid)
    obtain ⟨d, hd, hdstart⟩ := hmm.search_some hroom (.greedyBestFit pid)
    obtain ⟨e, he, hestart⟩ := hmm.search_some hroom (.greedyWorstFit pid)
    have hfirst := hmm.first_firstFit hsize hc
    have hbest := hmm.smallest_bestFit hd
    have hworst := hmm.largest_worstFit he
    rw [htotal, ← hstart] at hfirst
    rw [htotal, ← hdstart] at hbest
    rw [htotal, ← hestart] at hworst
    exact ⟨hfirst, ⟨c, hc, hstart.symm⟩, hbest, hworst⟩

theorem reachable_placement_example :
    let calls : List MmCall := [.allocate (.greedyFirstFit 1) 100, .allocate (.greedyFirstFit 2) 400,
      .allocate (.greedyFirstFit 3) 200, .free 1, .free 3]
    let mm := mmRun calls (mmCreate 1024)
    Tiling.FirstFit (owner mm) 0 1024 80 0 ∧ Tiling.RunFit (· < ·) (owner mm) 0 1024 80 0 ∧
      Tiling.RunFit (· > ·) (owner mm) 0 1024 80 500 ∧ ¬ HasRoom mm 525 := by
  intro calls mm
  have hcalls : ∀ call ∈ calls, call.Ordinary := by simp [calls, MmCall.Ordinary]
  have hh := reachable_placement (by decide : (1 : Int) ≤ 1024) hcalls (by decide : (1 : Int) ≤ 80) 4
  have hroom : HasRoom mm 80 := by
    by_contra hno
    have hfail := (hh.1 (.greedyFirstFit 4)).1.mpr hno
    exact absurd hfail (by decide)
  have hfit := hh.2.1 hroom
  have hbig := reachable_placement (by decide : (1 : Int) ≤ 1024) hcalls
    (by decide : (1 : Int) ≤ 525) 4
  refine ⟨?_, ?_, ?_, (hbig.1 (.greedyFirstFit 4)).1.mp (by decide)⟩
  · exact (show (greedyFirstFit mm 4 80).1 = 0 by decide) ▸ hfit.1
  · exact (show (greedyBestFit mm 4 80).1 = 0 by decide) ▸ hfit.2.2.1
  · exact (show (greedyWorstFit mm 4 80).1 = 500 by decide) ▸ hfit.2.2.2

end MiniOS
