import MiniOS.Ownership

/-! Freeing undoes allocating. A well-formed block list is determined by its
occupied blocks, so a batch of allocations and the releases of its pids, in any
order, end in the list they started from. -/

namespace MiniOS

inductive GreedyFit where
  | first
  | best
  | worst
  deriving DecidableEq, Repr

def GreedyFit.allocator (pid : Int) : GreedyFit → Allocator
  | .first => .greedyFirstFit pid
  | .best => .greedyBestFit pid
  | .worst => .greedyWorstFit pid

@[simp] theorem GreedyFit.allocator_tag (fit : GreedyFit) (pid size : Int) :
    (fit.allocator pid).tag size = pid := by
  cases fit <;> rfl

/-- A call of one of the three `greedy_*` functions. -/
structure GreedyRequest where
  fit : GreedyFit
  pid : Int
  size : Int
  deriving DecidableEq, Repr

def GreedyRequest.call (r : GreedyRequest) : MmCall := .allocate (r.fit.allocator r.pid) r.size

theorem WellFormed.eq_of_occupied {mm mm' : MemoryManager} (h : WellFormed mm) (h' : WellFormed mm')
    (htotal : mm.totalMemory = mm'.totalMemory) (hocc : occupied mm.head = occupied mm'.head) :
    mm = mm' := by
  obtain ⟨head, total⟩ := mm
  obtain ⟨head', total'⟩ := mm'
  obtain rfl : total = total' := htotal
  congr 1
  apply h.tiles.eq_of_labelled h'.tiles h.positive h'.positive h.separated h'.separated
  · intro b hb c hc hbl hcl hstart hsize
    have hbf := blockLayout_label_none.mp hbl
    have hcf := blockLayout_label_none.mp hcl
    have hpid : b.pid = c.pid := (h.free_pid b hb hbf).trans (h'.free_pid c hc hcf).symm
    cases b
    cases c
    simp_all
  · rw [← occupied_eq_labelled, ← occupied_eq_labelled]
    exact hocc

def unlisted (pids : List Int) (b : MemoryBlock) : Bool := decide (b.pid ∉ pids)

theorem occupied_run_free (pids : List Int) (mm : MemoryManager) :
    occupied (mmRun (pids.map .free) mm).head = (occupied mm.head).filter (unlisted pids) := by
  induction pids generalizing mm with
  | nil => exact (List.filter_eq_self.mpr (by simp [unlisted])).symm
  | cons pid pids ih =>
    have hrun : mmRun ((pid :: pids).map .free) mm = mmRun (pids.map .free) (mmFree mm pid) := rfl
    rw [hrun, ih, occupied_mmFree, List.filter_filter]
    apply List.filter_congr
    intro b _
    by_cases hb : b.pid = pid <;> simp [unlisted, hb]

/-- Outside the listed pids, a greedy allocation for one of them changes nothing. -/
theorem unlisted_allocate {pids : List Int} {r : GreedyRequest} (hr : r.pid ∈ pids)
    (mm : MemoryManager) :
    (occupied (r.call.exec mm).head).filter (unlisted pids) =
      (occupied mm.head).filter (unlisted pids) := by
  rcases occupied_allocate (r.fit.allocator r.pid) mm r.size with he | ⟨pre, post, hocc, hocc'⟩
  · simp [GreedyRequest.call, MmCall.exec, he]
  · simp only [GreedyRequest.call, MmCall.exec, hocc, hocc', List.filter_append]
    rw [List.filter_cons_of_neg (by simp [unlisted, hr])]

theorem unlisted_run_allocate {pids : List Int} {requests : List GreedyRequest}
    (hr : ∀ r ∈ requests, r.pid ∈ pids) (mm : MemoryManager) :
    (occupied (mmRun (requests.map GreedyRequest.call) mm).head).filter (unlisted pids) =
      (occupied mm.head).filter (unlisted pids) := by
  induction requests generalizing mm with
  | nil => rfl
  | cons r requests ih =>
    obtain ⟨hhead, htail⟩ := List.forall_mem_cons.mp hr
    exact (ih htail (r.call.exec mm)).trans (unlisted_allocate hhead mm)

theorem WellFormed.undo {mm : MemoryManager} (h : WellFormed mm) {requests : List GreedyRequest}
    (hsize : ∀ r ∈ requests, 1 ≤ r.size) {pids : List Int} (hlisted : ∀ r ∈ requests, r.pid ∈ pids)
    (hnew : ∀ pid ∈ pids, ∀ b ∈ mm.head, b.free = false → b.pid ≠ pid) :
    mmRun (pids.map .free) (mmRun (requests.map GreedyRequest.call) mm) = mm := by
  have hallocated : WellFormed (mmRun (requests.map GreedyRequest.call) mm) := by
    apply h.run
    intro call hcall
    obtain ⟨r, hr, rfl⟩ := List.mem_map.mp hcall
    exact hsize r hr
  have hfreed : WellFormed (mmRun (pids.map .free) (mmRun (requests.map GreedyRequest.call) mm)) := by
    apply hallocated.run
    intro call hcall
    obtain ⟨pid, -, rfl⟩ := List.mem_map.mp hcall
    trivial
  apply hfreed.eq_of_occupied h (by simp)
  rw [occupied_run_free, unlisted_run_allocate hlisted, List.filter_eq_self]
  intro b hb
  obtain ⟨hmem, hfree⟩ := mem_occupied.mp hb
  have hb' : b.pid ∉ pids := fun hpid => hnew b.pid hpid b hmem hfree rfl
  simpa [unlisted] using hb'

/-- Allocations for pids that own nothing, undone by releasing these pids in any order. -/
theorem reachable_free_undoes {totalMemory : Int} (ht : 1 ≤ totalMemory) {calls : List MmCall}
    (hcalls : ∀ call ∈ calls, call.Ordinary) {requests : List GreedyRequest}
    (hsize : ∀ r ∈ requests, 1 ≤ r.size)
    (hnew : ∀ r ∈ requests, ∀ b ∈ (mmRun calls (mmCreate totalMemory)).head,
      b.free = false → b.pid ≠ r.pid)
    {pids : List Int} (hpids : pids.Perm (requests.map GreedyRequest.pid)) :
    mmRun (pids.map .free)
        (mmRun (requests.map GreedyRequest.call) (mmRun calls (mmCreate totalMemory))) =
      mmRun calls (mmCreate totalMemory) := by
  apply (reachable_wellFormed ht hcalls).undo hsize
  · intro r hr
    exact hpids.mem_iff.mpr (List.mem_map_of_mem hr)
  · intro pid hpid
    obtain ⟨r, hr, rfl⟩ := List.mem_map.mp (hpids.mem_iff.mp hpid)
    exact hnew r hr

theorem reachable_free_undoes_example :
    let calls : List MmCall := [.allocate (.greedyFirstFit 1) 200, .allocate (.greedyFirstFit 2) 50,
      .allocate .mmAllocateFirstFit 100, .free 2]
    let requests : List GreedyRequest := [⟨.best, 3, 20⟩, ⟨.worst, 4, 70⟩, ⟨.first, 5, 30⟩]
    mmRun ([4, 5, 3].map .free) (mmRun (requests.map GreedyRequest.call)
      (mmRun calls (mmCreate 600))) = mmRun calls (mmCreate 600) := by
  intro calls requests
  have hcalls : ∀ call ∈ calls, call.Ordinary := by simp [calls, MmCall.Ordinary]
  have hpids : [4, 5, 3].Perm (requests.map GreedyRequest.pid) := by decide
  exact reachable_free_undoes (by decide) hcalls (by decide) (by decide) hpids

end MiniOS
