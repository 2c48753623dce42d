import MiniOS.BlockInvariant

/-! The block list seen as a map from addresses to owners, and the effect of
each call on that map. -/

namespace MiniOS

def owner (mm : MemoryManager) : Int → Option Int := blockLayout.owner mm.head

def occupied (blocks : List MemoryBlock) : List MemoryBlock := blocks.filter (fun b => !b.free)

theorem mem_occupied {blocks : List MemoryBlock} {b : MemoryBlock} :
    b ∈ occupied blocks ↔ b ∈ blocks ∧ b.free = false := by
  simp [occupied]

theorem occupied_eq_labelled (blocks : List MemoryBlock) :
    occupied blocks = blockLayout.labelled blocks := by
  apply List.filter_congr
  intro b _
  cases hb : b.free <;> simp [blockLayout_label, hb]

theorem owner_occupied (blocks : List MemoryBlock) :
    blockLayout.owner (occupied blocks) = blockLayout.owner blocks := by
  funext x
  rw [occupied_eq_labelled, Tiling.Layout.owner_labelled]

theorem occupied_append (l m : List MemoryBlock) :
    occupied (l ++ m) = occupied l ++ occupied m := List.filter_append ..

theorem occupied_cons_free {b : MemoryBlock} {l : List MemoryBlock} (h : b.free = true) :
    occupied (b :: l) = occupied l := by
  simp [occupied, h]

theorem occupied_cons {b : MemoryBlock} {l : List MemoryBlock} (h : b.free = false) :
    occupied (b :: l) = b :: occupied l := by
  simp [occupied, h]

theorem occupied_splitBlock {b : MemoryBlock} {size : Int} (pid : Int) (h : size ≤ b.size) :
    occupied (splitBlock b size pid) = [⟨b.start, size, false, pid⟩] := by
  rcases splitBlock_cases b size pid h with ⟨-, he⟩ | ⟨-, he⟩ <;> simp [he, occupied]

theorem occupied_coalesceFrom (cur : MemoryBlock) (rest : List MemoryBlock) :
    occupied (coalesceFrom cur rest) = occupied (cur :: rest) := by
  fun_induction coalesceFrom cur rest with
  | case1 cur => rfl
  | case2 cur next rest hboth ih =>
    obtain ⟨hc, hn⟩ := Bool.and_eq_true_iff.mp hboth
    have hmerged : ({ cur with size := cur.size + next.size } : MemoryBlock).free = true := hc
    rw [ih, occupied_cons_free hmerged, occupied_cons_free hc, occupied_cons_free hn]
  | case3 cur next rest hboth ih =>
    cases hc : cur.free with
    | true => rw [occupied_cons_free hc, occupied_cons_free hc, ih]
    | false => rw [occupied_cons hc, occupied_cons hc, ih]

theorem occupied_mmCoalesce (mm : MemoryManager) :
    occupied (mmCoalesce mm).head = occupied mm.head := by
  obtain ⟨head, total⟩ := mm
  cases head with
  | nil => rfl
  | cons cur rest => exact occupied_coalesceFrom cur rest

theorem occupied_mmFree (mm : MemoryManager) (pid : Int) :
    occupied (mmFree mm pid).head = (occupied mm.head).filter (fun b => !(b.pid == pid)) := by
  rw [mmFree, occupied_mmCoalesce]
  induction mm.head with
  | nil => rfl
  | cons b l ih =>
    cases hb : b.free with
    | true =>
      have hm : markFree pid b = b := by simp [markFree, hb]
      rw [List.map_cons, hm, occupied_cons_free hb, occupied_cons_free hb, ih]
    | false =>
      cases hp : b.pid == pid with
      | true =>
        have hm : (markFree pid b).free = true := by simp [markFree, hb, hp]
        rw [List.map_cons, occupied_cons_free hm, occupied_cons hb, ih]
        simp [hp]
      | false =>
        have hm : markFree pid b = b := by simp [markFree, hp]
        rw [List.map_cons, hm, occupied_cons hb, occupied_cons hb, ih]
        simp [hp]

theorem occupied_allocate (a : Allocator) (mm : MemoryManager) (size : Int) :
    (a.call mm size = (-1, mm)) ∨
    ∃ pre post, occupied mm.head = pre ++ post ∧
      occupied (a.call mm size).2.head =
        pre ++ ⟨(a.call mm size).1, size, false, a.tag size⟩ :: post := by
  rcases a.call_cases mm size with ⟨he, -⟩ | ⟨c, -, hfit, he⟩
  · exact Or.inl he
  · obtain ⟨hfree, hle⟩ := fits_iff.mp hfit
    refine Or.inr ⟨occupied c.before, occupied c.after, ?_, ?_⟩
    · have hsplit := congrArg occupied c.split
      rw [occupied_append, occupied_cons_free hfree] at hsplit
      exact hsplit.symm
    · rw [he]
      simp only [occupied_append, occupied_splitBlock _ hle, List.append_assoc, List.singleton_append]

/-! Effect on the owner map -/

theorem WellFormed.owner_allocate {mm : MemoryManager} (h : WellFormed mm) (a : Allocator)
    {size : Int} (hok : (a.call mm size).1 ≠ -1) :
    let r := a.call mm size
    0 ≤ r.1 ∧ r.1 + size ≤ mm.totalMemory ∧ Tiling.FreeOn (owner mm) r.1 (r.1 + size) ∧
      owner r.2 = Tiling.grant (owner mm) r.1 (r.1 + size) (a.tag size) := by
  rcases a.call_cases mm size with ⟨he, -⟩ | ⟨c, -, hfit, he⟩
  · simp [he] at hok
  · obtain ⟨hfree, hle⟩ := fits_iff.mp hfit
    have hlabel : blockLayout.label c.item = none := blockLayout_label_none.mpr hfree
    have hbounds := h.tiles.mem_bounds h.positive c.item_mem
    simp only [blockLayout_start, blockLayout_stop] at hbounds
    simp only [he]
    refine ⟨hbounds.1, by omega, ?_, ?_⟩
    · intro x hlo hhi
      apply h.tiles.freeOn_block h.positive.nonneg c.item_mem hlabel x hlo
      simp only [blockLayout_stop]
      omega
    · have htiles := h.tiles
      have hpos := h.positive
      rw [← c.split] at htiles hpos
      have hmid : ∀ x, blockLayout.owner (splitBlock c.item size (a.tag size)) x =
          if blockLayout.start c.item ≤ x ∧ x < blockLayout.start c.item + size
          then some (a.tag size) else none := by
        intro x
        rw [← owner_occupied, occupied_splitBlock _ hle]
        by_cases hx : c.item.start ≤ x ∧ x < c.item.start + size <;>
          simp [Tiling.Layout.owner_cons, Tiling.Layout.Covers, blockLayout_label, hx]
      have hgrant := htiles.owner_grant hpos hlabel hmid
      rw [c.split] at hgrant
      exact hgrant

theorem owner_mmCoalesce (mm : MemoryManager) : owner (mmCoalesce mm) = owner mm := by
  rw [owner, ← owner_occupied, occupied_mmCoalesce, owner_occupied, owner]

theorem WellFormed.owner_free {mm : MemoryManager} (h : WellFormed mm) (pid : Int) :
    owner (mmFree mm pid) = Tiling.release (owner mm) pid := by
  rw [mmFree, owner_mmCoalesce]
  refine h.tiles.owner_release (by simp) (by simp) ?_ h.positive
  intro b
  cases hb : b.free <;> by_cases hp : b.pid = pid <;>
    simp [blockLayout_label, markFree, hb, hp]

/-! Live allocations -/

structure Allocation where
  address : Int
  size : Int
  tag : Int
  deriving DecidableEq, Repr

def Allocation.Disjoint (p q : Allocation) : Prop :=
  p.address + p.size ≤ q.address ∨ q.address + q.size ≤ p.address

def MemoryBlock.allocation (b : MemoryBlock) : Allocation := ⟨b.start, b.size, b.pid⟩

/-- The caller's ledger: allocations that succeeded and were not released. -/
def track (mm : MemoryManager) (live : List Allocation) : MmCall → List Allocation
  | .allocate a size =>
    let r := a.call mm size
    if r.1 = -1 then live else ⟨r.1, size, a.tag size⟩ :: live
  | .free pid => live.filter (fun p => !(p.tag == pid))
  | .coalesce | .compact => live

def liveAfter : List MmCall → MemoryManager → List Allocation → List Allocation
  | [], _, live => live
  | call :: calls, mm, live => liveAfter calls (call.exec mm) (track mm live call)

theorem track_perm {mm : MemoryManager} (h : WellFormed mm) {live : List Allocation} {call : MmCall}
    (hcall : call.Ordinary) (hp : live.Perm ((occupied mm.head).map MemoryBlock.allocation)) :
    (track mm live call).Perm ((occupied (call.exec mm).head).map MemoryBlock.allocation) := by
  cases call with
  | allocate a size =>
    by_cases hok : (a.call mm size).1 = -1
    · simpa [track, MmCall.exec, (h.call_refused.mp hok).1] using hp
    · rcases occupied_allocate a mm size with he | ⟨pre, post, hocc, hocc'⟩
      · simp [he] at hok
      · simp only [track, hok, if_false, MmCall.exec, hocc', List.map_append, List.map_cons]
        rw [hocc, List.map_append] at hp
        exact (hp.cons _).trans List.perm_middle.symm
  | free pid =>
    have hh := hp.filter (fun p => !(p.tag == pid))
    rw [List.filter_map] at hh
    simp only [track, MmCall.exec, occupied_mmFree]
    exact hh
  | coalesce => simpa only [track, MmCall.exec, occupied_mmCoalesce] using hp
  | compact => exact hcall.elim

theorem liveAfter_perm {calls : List MmCall} {mm : MemoryManager} (h : WellFormed mm)
    {live : List Allocation} (hcalls : ∀ call ∈ calls, call.Ordinary)
    (hp : live.Perm ((occupied mm.head).map MemoryBlock.allocation)) :
    (liveAfter calls mm live).Perm
      ((occupied (mmRun calls mm).head).map MemoryBlock.allocation) := by
  induction calls generalizing mm live with
  | nil => exact hp
  | cons call calls ih =>
    obtain ⟨hcall, hrest⟩ := List.forall_mem_cons.mp hcalls
    exact ih (h.exec hcall) hrest (track_perm h hcall hp)

theorem WellFormed.occupied_disjoint {mm : MemoryManager} (h : WellFormed mm) :
    ((occupied mm.head).map MemoryBlock.allocation).Pairwise Allocation.Disjoint := by
  rw [List.pairwise_map]
  exact ((h.tiles.pairwise h.positive).sublist List.filter_sublist).imp (fun hbc => Or.inl hbc)

/-- In every run the live allocations are exactly the occupied blocks, so no
two of them overlap. -/
theorem liveAfter_disjoint {totalMemory : Int} (ht : 1 ≤ totalMemory) {calls : List MmCall}
    (hcalls : ∀ call ∈ calls, call.Ordinary) :
    (liveAfter calls (mmCreate totalMemory) []).Pairwise Allocation.Disjoint := by
  have hp : (liveAfter calls (mmCreate totalMemory) []).Perm _ :=
    liveAfter_perm (mmCreate_wellFormed ht) hcalls (by simp [mmCreate, occupied])
  have hsymm : ∀ {p q : Allocation}, p.Disjoint q → q.Disjoint p := fun hpq => hpq.symm
  exact (hp.pairwise_iff hsymm).mpr (reachable_wellFormed ht hcalls).occupied_disjoint

/-- The simulation between the block list and the owner map, call by call. -/
theorem reachable_owner_refines {totalMemory : Int} (ht : 1 ≤ totalMemory) {calls : List MmCall}
    (hcalls : ∀ call ∈ calls, call.Ordinary) :
    let mm := mmRun calls (mmCreate totalMemory)
    (∀ (a : Allocator) (size : Int), 1 ≤ size →
      let r := a.call mm size
      (r.1 = -1 → owner r.2 = owner mm) ∧
      (r.1 ≠ -1 → 0 ≤ r.1 ∧ r.1 + size ≤ totalMemory ∧
        Tiling.FreeOn (owner mm) r.1 (r.1 + size) ∧
        owner r.2 = Tiling.grant (owner mm) r.1 (r.1 + size) (a.tag size)) ∧
      ∀ b ∈ mm.head, b.free = false → b ∈ r.2.head) ∧
    (owner (mmCoalesce mm) = owner mm ∧
      ∀ b ∈ mm.head, b.free = false → b ∈ (mmCoalesce mm).head) ∧
    (∀ t, owner (mmFree mm t) = Tiling.release (owner mm) t ∧
      ∀ b ∈ mm.head, b.free = false → b.pid ≠ t → b ∈ (mmFree mm t).head) ∧
    (liveAfter calls (mmCreate totalMemory) []).Pairwise Allocation.Disjoint := by
  intro mm
  have hmm : WellFormed mm := reachable_wellFormed ht hcalls
  have htotal : mm.totalMemory = totalMemory := mmRun_totalMemory calls (mmCreate totalMemory)
  refine ⟨?_, ⟨owner_mmCoalesce mm, ?_⟩, ?_, liveAfter_disjoint ht hcalls⟩
  · intro a size hsize r
    refine ⟨?_, ?_, ?_⟩
    · intro hfail
      simp [r, (hmm.call_refused.mp hfail).1]
    · intro hok
      simpa only [htotal] using hmm.owner_allocate a hok
    · intro b hb hfree
      have hmem := mem_occupied.mpr ⟨hb, hfree⟩
      rcases occupied_allocate a mm size with he | ⟨pre, post, hocc, hocc'⟩
      · simpa [r, he] using hb
      · rw [hocc] at hmem
        have hmem' : b ∈ occupied r.2.head := by
          rw [hocc']
          rcases List.mem_append.mp hmem with hm | hm
          · exact List.mem_append_left _ hm
          · exact List.mem_append_right _ (List.mem_cons_of_mem _ hm)
        exact (mem_occupied.mp hmem').1
  · intro b hb hfree
    have hmem := mem_occupied.mpr ⟨hb, hfree⟩
    rw [← occupied_mmCoalesce] at hmem
    exact (mem_occupied.mp hmem).1
  · intro t
    refine ⟨hmm.owner_free t, ?_⟩
    intro b hb hfree hne
    have hmem : b ∈ occupied (mmFree mm t).head := by
      rw [occupied_mmFree]
      exact List.mem_filter.mpr ⟨mem_occupied.mpr ⟨hb, hfree⟩, by simpa using hne⟩
    exact (mem_occupied.mp hmem).1

theorem reachable_owner_refines_example :
    let calls : List MmCall := [.allocate (.greedyFirstFit 1) 200, .allocate .mmAllocateBestFit 100]
    let mm := mmRun calls (mmCreate 600)
    owner ((Allocator.greedyWorstFit 7).call mm 50).2 = Tiling.grant (owner mm) 300 350 7 ∧
      owner (mmFree mm 1) = Tiling.release (owner mm) 1 ∧
      (liveAfter calls (mmCreate 600) []).Pairwise Allocation.Disjoint := by
  intro calls mm
  have hcalls : ∀ call ∈ calls, call.Ordinary := by simp [calls, MmCall.Ordinary]
  have hh := reachable_owner_refines (by decide : (1 : Int) ≤ 600) hcalls
  have haddress : ((Allocator.greedyWorstFit 7).call mm 50).1 = 300 := by decide
  have hgrant := ((hh.1 (.greedyWorstFit 7) 50 (by decide)).2.1 (by rw [haddress]; decide)).2.2.2
  rw [haddress] at hgrant
  exact ⟨hgrant, (hh.2.2.1 1).1, hh.2.2.2⟩

end MiniOS
