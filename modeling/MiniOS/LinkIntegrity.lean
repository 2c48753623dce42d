import MiniOS.BlockNodes
import MiniOS.Compaction

/-! The nodes in the heap always form the doubly linked list of the blocks: every
call on the nodes does what the call on the list of blocks does. -/

namespace MiniOS

open LinkedHeap

/-- The list of blocks is linked both ways through the nodes `nodes`, in this order. -/
structure NodeManager.Integrity (nm : NodeManager) (nodes : List Nat) : Prop where
  head_prev : ∃ c, nm.heap.read nm.head = some c ∧ c.prev = none
  visits : Path nm.heap Node.next nm.head nodes
  distinct : nodes.Nodup
  live : ∀ i, (nm.heap.cell i).isSome ↔ i ∈ nodes
  back : ∀ i c j, nm.heap.cell i = some c → c.next = some j →
    ∃ d, nm.heap.cell j = some d ∧ d.prev = some i
  backwards : Path nm.heap Node.prev nodes.getLast? nodes.reverse

/-- The nodes from `head` on hold the blocks of `mm`, and no other node is live. -/
def NodeManager.Refines (nm : NodeManager) (mm : MemoryManager) : Prop :=
  ∃ l : List (Nat × MemoryBlock), nm.head = first none l ∧ Represents nm.heap l ∧
    data l = mm.head ∧ nm.totalMemory = mm.totalMemory

theorem NodeManager.Refines.integrity {nm : NodeManager} {mm : MemoryManager} (h : nm.Refines mm)
    (hne : mm.head ≠ []) : ∃ nodes, nm.Integrity nodes := by
  obtain ⟨l, hhead, hr, hdata, -⟩ := h
  refine ⟨ids l, ?_, ?_, hr.nodup, ?_, ?_, hr.linked.reverse_path⟩
  · cases l with
    | nil => exact absurd hdata.symm hne
    | cons x l =>
      rw [hhead]
      exact ⟨_, hr.linked.1, rfl⟩
  · rw [hhead]
    exact hr.linked.next_path
  · exact fun i => ⟨hr.live i, hr.linked.live⟩
  · intro i c j hc hj
    exact hr.linked.back (hr.live i (by rw [hc]; rfl)) hc hj

section Splitting

variable {h : Heap MemoryBlock} {pre post : List (Nat × MemoryBlock)} {i : Nat} {b : MemoryBlock}

theorem splitBlock_represents (hr : Represents h (pre ++ (i, b) :: post)) (size pid : Int) :
    ∃ h' taken rest, NodeManager.splitBlock h (some i) size pid = some h' ∧
      Represents h' (pre ++ (i, taken) :: (rest ++ post)) ∧
      taken :: data rest = splitBlock b size pid ∧ taken.start = b.start := by
  by_cases hsize : b.size > size
  · obtain ⟨m, hinsert, hm⟩ := hr.insertAfter ⟨b.start + size, b.size - size, true, -1⟩
    obtain ⟨k, hset, hk⟩ := hm.setData { b with size := size, free := false, pid := pid }
    refine ⟨k, _, [(h.fresh, _)], ?_, hk, ?_, rfl⟩
    · simp only [NodeManager.splitBlock, Heap.read, Option.bind_eq_bind, Option.bind_some,
        hr.cell_eq, if_pos hsize, hinsert, hm.cell_eq, hset]
    · simp [data, splitBlock, hsize]
  · obtain ⟨k, hset, hk⟩ := hr.setData { b with size := size, free := false, pid := pid }
    refine ⟨k, _, [], ?_, hk, ?_, rfl⟩
    · simp only [NodeManager.splitBlock, Heap.read, Option.bind_eq_bind, Option.bind_some,
        hr.cell_eq, if_neg hsize, hset]
    · simp [data, splitBlock, hsize]

end Splitting

section Loops

variable {h : Heap MemoryBlock} {pre post : List (Nat × MemoryBlock)} {i fuel : Nat}
  {b : MemoryBlock}

theorem coalesceLoop_represents (hr : Represents h (pre ++ (i, b) :: post))
    (hfuel : post.length ≤ fuel) :
    ∃ h' c rest, NodeManager.coalesceLoop fuel h i = some h' ∧
      Represents h' (pre ++ (i, c) :: rest) ∧ c :: data rest = coalesceFrom b (data post) := by
  induction post generalizing h pre i b fuel with
  | nil =>
    refine ⟨h, b, [], ?_, hr, rfl⟩
    cases fuel <;> simp [NodeManager.coalesceLoop, hr.cell_eq, first]
  | cons x post ih =>
    obtain ⟨j, next⟩ := x
    obtain ⟨n, rfl, hn⟩ := fuel_of_cons hfuel
    have hr' : Represents h ((pre ++ [(i, b)]) ++ (j, next) :: post) := by simpa using hr
    by_cases hboth : (b.free && next.free) = true
    · obtain ⟨k, hset, hk⟩ := hr.setData { b with size := b.size + next.size }
      obtain ⟨m, hremove, hm⟩ := hk.removeAfter
      obtain ⟨h', c, rest, hrun, hres, hdata⟩ := ih hm hn
      refine ⟨h', c, rest, ?_, hres, ?_⟩
      · simp only [NodeManager.coalesceLoop, Option.bind_eq_bind, hr.cell_eq, Option.bind_some,
          first_cons, hr'.cell_eq, hboth, if_true, hset, hremove]
        exact hrun
      · simp only [data, List.map_cons, coalesceFrom, hboth, if_true]
        exact hdata
    · obtain ⟨h', c, rest, hrun, hres, hdata⟩ := ih hr' hn
      refine ⟨h', b, (j, c) :: rest, ?_, by simpa using hres, ?_⟩
      · simp only [NodeManager.coalesceLoop, Option.bind_eq_bind, hr.cell_eq, Option.bind_some,
          first_cons, hr'.cell_eq, hboth]
        exact hrun
      · simp only [data, List.map_cons, coalesceFrom, hboth]
        exact congrArg (b :: ·) hdata

theorem deleteLoop_represents (hr : Represents h (pre ++ (i, b) :: post))
    (hfuel : post.length ≤ fuel) :
    ∃ h' rest, NodeManager.deleteLoop fuel h i = some h' ∧
      Represents h' (pre ++ (i, b) :: rest) ∧ b :: data rest = deleteFrom b (data post) := by
  induction post generalizing h pre i b fuel with
  | nil =>
    refine ⟨h, [], ?_, hr, rfl⟩
    cases fuel <;> simp [NodeManager.deleteLoop, hr.cell_eq, first]
  | cons x post ih =>
    obtain ⟨j, next⟩ := x
    obtain ⟨n, rfl, hn⟩ := fuel_of_cons hfuel
    have hr' : Represents h ((pre ++ [(i, b)]) ++ (j, next) :: post) := by simpa using hr
    by_cases hfree : next.free = true
    · obtain ⟨m, hremove, hm⟩ := hr.removeAfter
      obtain ⟨h', rest, hrun, hres, hdata⟩ := ih hm hn
      refine ⟨h', rest, ?_, hres, ?_⟩
      · simp only [NodeManager.deleteLoop, Option.bind_eq_bind, hr.cell_eq, Option.bind_some,
          first_cons, hr'.cell_eq, hfree, if_true, hremove]
        exact hrun
      · simp only [data, List.map_cons, deleteFrom, hfree, if_true]
        exact hdata
    · obtain ⟨h', rest, hrun, hres, hdata⟩ := ih hr' hn
      refine ⟨h', (j, next) :: rest, ?_, by simpa using hres, ?_⟩
      · simp only [NodeManager.deleteLoop, Option.bind_eq_bind, hr.cell_eq, Option.bind_some,
          first_cons, hr'.cell_eq, hfree]
        exact hrun
      · simp only [data, List.map_cons, deleteFrom, hfree]
        exact congrArg (b :: ·) hdata

end Loops

theorem accumulate_markFree (pid : Int) (blocks : List MemoryBlock) :
    (accumulate (fun (_ : Unit) b => (markFree pid b, ())) () blocks).1 =
      blocks.map (markFree pid) := by
  induction blocks with
  | nil => rfl
  | cons b blocks ih => exact congrArg (markFree pid b :: ·) ih

theorem accumulate_relocate (currentStart : Int) (blocks : List MemoryBlock) :
    accumulate NodeManager.relocateStep currentStart blocks = relocate currentStart blocks := by
  induction blocks generalizing currentStart with
  | nil => rfl
  | cons b blocks ih =>
    by_cases hfree : b.free = true
    · simp [accumulate, relocate, NodeManager.relocateStep, hfree, ih]
    · simp [accumulate, relocate, NodeManager.relocateStep, hfree, ih]

/-- The search over the nodes stops at the node of the block the list search finds. -/
theorem search_represents {nm : NodeManager} {l : List (Nat × MemoryBlock)} {fuel : Nat}
    (hhead : nm.head = first none l) (hr : Represents nm.heap l) (hfuel : l.length ≤ fuel)
    (a : Allocator) (size : Int) :
    ∃ c : Option (Cursor l), a.search (data l) size = c.map (Cursor.map Prod.snd) ∧
      nm.search fuel size a = some (c.map (fun c => c.item.1)) := by
  have hfirst : nm.findFirst fuel size =
      some ((Cursor.first (fun x => fits size x.2) l).map (fun c => c.item.1)) := by
    rw [NodeManager.findFirst, hhead, hr.linked.findFrom_eq hfuel, ← Cursor.first_item,
      Option.map_map]
    rfl
  have hscan : ∀ replaces, nm.findPreferred replaces fuel size =
      some ((Cursor.scan (fun x => fits size x.2) (fun x y => replaces x.2 y.2) l).map
        (fun c => c.item.1)) := by
    intro replaces
    rw [NodeManager.findPreferred, hhead]
    exact hr.scanFrom_eq none [] rfl hfuel
  cases a with
  | greedyFirstFit pid => exact ⟨_, Cursor.first_map Prod.snd _ l, hfirst⟩
  | mmAllocateFirstFit => exact ⟨_, Cursor.first_map Prod.snd _ l, hfirst⟩
  | greedyBestFit pid => exact ⟨_, Cursor.scan_map Prod.snd _ _ l, hscan smaller⟩
  | mmAllocateBestFit => exact ⟨_, Cursor.scan_map Prod.snd _ _ l, hscan smaller⟩
  | greedyWorstFit pid => exact ⟨_, Cursor.scan_map Prod.snd _ _ l, hscan larger⟩
  | mmAllocateWorstFit => exact ⟨_, Cursor.scan_map Prod.snd _ _ l, hscan larger⟩

theorem create_refines (totalMemory : Int) :
    (NodeManager.mmCreate totalMemory).Refines (mmCreate totalMemory) :=
  ⟨[(0, _)], rfl, Represents.single _, rfl, rfl⟩

/-! A call adds at most one block to the list. -/

theorem coalesceFrom_length (cur : MemoryBlock) (rest : List MemoryBlock) :
    (coalesceFrom cur rest).length ≤ rest.length + 1 := by
  fun_induction coalesceFrom cur rest with
  | case1 cur => exact le_refl _
  | case2 cur next rest hboth ih => exact ih.trans (Nat.le_succ _)
  | case3 cur next rest hboth ih => exact Nat.succ_le_succ ih

theorem coalesceBlocks_length (blocks : List MemoryBlock) :
    (coalesceBlocks blocks).length ≤ blocks.length := by
  cases blocks with
  | nil => exact le_refl _
  | cons cur rest => exact coalesceFrom_length cur rest

theorem deleteFrom_length (cur : MemoryBlock) (rest : List MemoryBlock) :
    (deleteFrom cur rest).length ≤ rest.length + 1 := by
  fun_induction deleteFrom cur rest with
  | case1 cur => exact le_refl _
  | case2 cur next rest hfree ih => exact ih.trans (Nat.le_succ _)
  | case3 cur next rest hfree ih => exact Nat.succ_le_succ ih

theorem deleteFree_length (blocks : List MemoryBlock) :
    (deleteFree blocks).length ≤ blocks.length := by
  cases blocks with
  | nil => exact le_refl _
  | cons cur rest => exact deleteFrom_length cur rest

theorem relocate_length (currentStart : Int) (blocks : List MemoryBlock) :
    (relocate currentStart blocks).1.length = blocks.length := by
  induction blocks generalizing currentStart with
  | nil => rfl
  | cons b blocks ih =>
    by_cases hfree : b.free = true
    · simp [relocate, hfree, ih]
    · simp [relocate, hfree, ih]

theorem splitBlock_length (b : MemoryBlock) (size pid : Int) :
    (splitBlock b size pid).length ≤ 2 := by
  by_cases hs : b.size > size
  · simp [splitBlock, hs]
  · simp [splitBlock, hs]

theorem MmCall.exec_length (mm : MemoryManager) (call : MmCall) :
    (call.exec mm).head.length ≤ mm.head.length + 1 := by
  cases call with
  | allocate a size =>
    rcases a.call_cases mm size with ⟨he, -⟩ | ⟨c, -, -, he⟩
    · simp [exec, he]
    · have hlen := congrArg List.length c.split
      have hsplit := splitBlock_length c.item size (a.tag size)
      simp only [exec, he, List.length_append, List.length_cons] at hlen ⊢
      omega
  | free pid =>
    have hlen := coalesceBlocks_length (mm.head.map (markFree pid))
    rw [List.length_map] at hlen
    exact hlen.trans (Nat.le_succ _)
  | coalesce => exact (coalesceBlocks_length mm.head).trans (Nat.le_succ _)
  | compact =>
    have hlen := deleteFree_length (relocate 0 mm.head).1
    rw [relocate_length] at hlen
    simp only [exec, mmCompact]
    split_ifs
    · rw [List.length_append]
      exact Nat.succ_le_succ hlen
    · exact hlen.trans (Nat.le_succ _)

/-! The calls, one by one. -/

section Calls

variable {nm : NodeManager} {mm : MemoryManager} {fuel : Nat}

theorem length_of_data {l : List (Nat × MemoryBlock)} (h : data l = mm.head) :
    l.length = mm.head.length := by
  rw [← h, data, List.length_map]

/-- The address returned and the list afterwards are those of the list model. -/
theorem NodeManager.Refines.allocate (h : nm.Refines mm) (hfuel : mm.head.length ≤ fuel)
    (a : Allocator) (size : Int) :
    ∃ nm', nm.call fuel size a = some ((a.call mm size).1, nm') ∧
      nm'.Refines (a.call mm size).2 := by
  obtain ⟨l, hhead, hr, hdata, htotal⟩ := h
  obtain ⟨c, hlist, hnodes⟩ :=
    search_represents hhead hr ((length_of_data hdata).trans_le hfuel) a size
  obtain ⟨blocks, total⟩ := mm
  obtain rfl : data l = blocks := hdata
  rw [NodeManager.call_eq, hnodes, Option.bind_some, Allocator.call_eq, hlist]
  cases c with
  | none => exact ⟨nm, rfl, l, hhead, hr, rfl, htotal⟩
  | some c =>
    have hc : Represents nm.heap (c.before ++ c.item :: c.after) := by
      rw [c.split]
      exact hr
    obtain ⟨heap, taken, rest, hsplit, hres, hblocks, hstart⟩ :=
      splitBlock_represents hc size (a.tag size)
    refine ⟨⟨nm.head, heap, nm.totalMemory⟩, ?_, _, ?_, hres, ?_, htotal⟩
    · simp only [Option.map_some, NodeManager.allocateAt, hsplit, Option.bind_eq_bind,
        Option.bind_some, Heap.read, hres.cell_eq, hstart]
      rfl
    · rw [hhead]
      conv_lhs => rw [← c.split]
      cases c.before <;> rfl
    · show _ = data c.before ++ MiniOS.splitBlock c.item.2 size (a.tag size) ++ data c.after
      rw [← hblocks]
      simp [data]

theorem NodeManager.Refines.coalesce (h : nm.Refines mm) (hfuel : mm.head.length ≤ fuel) :
    ∃ nm', nm.mmCoalesce fuel = some nm' ∧ nm'.Refines (MiniOS.mmCoalesce mm) := by
  obtain ⟨l, hhead, hr, hdata, htotal⟩ := h
  have hlen := (length_of_data hdata).trans_le hfuel
  rw [MiniOS.mmCoalesce, ← hdata]
  cases l with
  | nil => exact ⟨nm, by rw [NodeManager.mmCoalesce, hhead]; rfl, [], hhead, hr, rfl, htotal⟩
  | cons x l =>
    have hr' : Represents nm.heap ([] ++ x :: l) := hr
    obtain ⟨heap, b, rest, hrun, hres, hblocks⟩ :=
      coalesceLoop_represents hr' (Nat.le_of_succ_le hlen)
    refine ⟨⟨nm.head, heap, nm.totalMemory⟩, ?_, (x.1, b) :: rest, hhead, hres, hblocks, htotal⟩
    rw [NodeManager.mmCoalesce, hhead]
    simp only [first_cons, hrun, Option.bind_eq_bind, Option.bind_some]

theorem NodeManager.Refines.free (h : nm.Refines mm) (hfuel : mm.head.length ≤ fuel) (pid : Int) :
    ∃ nm', nm.mmFree fuel pid = some nm' ∧ nm'.Refines (MiniOS.mmFree mm pid) := by
  obtain ⟨l, hhead, hr, hdata, htotal⟩ := h
  have hlen := (length_of_data hdata).trans_le hfuel
  have hr' : Represents nm.heap ([] ++ l) := hr
  obtain ⟨heap, marked, hrun, hres, hids, hblocks⟩ :=
    hr'.traverse_eq hlen (fun (_ : Unit) b => (markFree pid b, ())) ()
  rw [accumulate_markFree, hdata] at hblocks
  have hfirst : first none marked = first none l := by
    cases l <;> cases marked <;> simp_all
  have hmarked : NodeManager.Refines ⟨nm.head, heap, nm.totalMemory⟩
      ⟨mm.head.map (markFree pid), mm.totalMemory⟩ :=
    ⟨marked, hhead.trans hfirst.symm, hres, hblocks, htotal⟩
  obtain ⟨nm', hcoalesce, hrefines⟩ := hmarked.coalesce (by simpa using hfuel)
  refine ⟨nm', ?_, hrefines⟩
  rw [NodeManager.mmFree, hhead, hrun]
  rw [hhead] at hcoalesce
  exact hcoalesce

/-- The list after the first two passes of `mm_compact`, whose first node is still the head. -/
theorem NodeManager.Refines.passes (h : nm.Refines mm) (hne : mm.head ≠ [])
    (hfuel : mm.head.length ≤ fuel) :
    ∃ heap kept x rest, nm.head = some x.1 ∧
      traverse relocateStep fuel nm.heap (some x.1) 0 = some (heap, (relocate 0 mm.head).2) ∧
      deleteLoop fuel heap x.1 = some kept ∧ Represents kept (x :: rest) ∧
      data (x :: rest) = deleteFree (relocate 0 mm.head).1 ∧ (x :: rest).length ≤ fuel := by
  obtain ⟨l, hhead, hr, hdata, -⟩ := h
  have hr' : Represents nm.heap ([] ++ l) := hr
  obtain ⟨heap, moved, hmove, hres, hids, hblocks⟩ :=
    hr'.traverse_eq ((length_of_data hdata).trans_le hfuel) relocateStep 0
  rw [accumulate_relocate, hdata] at hmove hblocks
  have hlen := congrArg List.length hblocks
  rw [relocate_length, data, List.length_map] at hlen
  cases moved with
  | nil => exact absurd (List.length_eq_zero_iff.mp hlen.symm) hne
  | cons x moved =>
    have hfirst : first none l = some x.1 := by
      cases l with
      | nil => cases hids
      | cons y l => exact congrArg some (List.cons.inj hids).1.symm
    have hmoved : moved.length ≤ fuel := (Nat.le_of_succ_le hlen.le).trans hfuel
    obtain ⟨kept, rest, hdelete, hkept, hdeleted⟩ := deleteLoop_represents hres hmoved
    rw [hfirst] at hhead hmove
    have hfree : data (x :: rest) = deleteFree (relocate 0 mm.head).1 := by
      rw [← hblocks]
      exact hdeleted
    refine ⟨heap, kept, x, rest, hhead, hmove, hdelete, hkept, hfree, ?_⟩
    have hle := deleteFree_length (relocate 0 mm.head).1
    rw [← hfree, relocate_length, data, List.length_map] at hle
    exact hle.trans hfuel

theorem NodeManager.Refines.compact (h : nm.Refines mm) (hne : mm.head ≠ [])
    (hfuel : mm.head.length ≤ fuel) :
    ∃ nm', nm.mmCompact fuel = some nm' ∧ nm'.Refines (MiniOS.mmCompact mm) := by
  obtain ⟨heap, kept, x, rest, hhead, hmove, hdelete, hkept, hfree, hlen⟩ := h.passes hne hfuel
  obtain ⟨-, -, -, -, htotal⟩ := h
  have hused : foldFrom kept usedStep fuel (some x.1) 0 = some (usedMemory (data (x :: rest))) :=
    hkept.linked.foldFrom_eq hlen usedStep 0
  simp only [NodeManager.mmCompact, hhead, hmove, Option.bind_eq_bind, Option.bind_some, hdelete,
    hused, htotal, MiniOS.mmCompact, ← hfree]
  by_cases hroom : mm.totalMemory - usedMemory (data (x :: rest)) > 0
  · obtain ⟨tail, heap', hlast, hlink, hres⟩ := hkept.appendLast
      ⟨(relocate 0 mm.head).2, mm.totalMemory - usedMemory (data (x :: rest)), true, -1⟩
      (Nat.le_of_succ_le hlen)
    refine ⟨⟨some x.1, heap', mm.totalMemory⟩, ?_, _, rfl, hres, ?_, ?_⟩
    · simp only [if_pos hroom, Heap.malloc_fst, hlast, Option.bind_some, hlink]
    · rw [if_pos hroom]
      simp [data]
    · rw [if_pos hroom]
  · refine ⟨⟨some x.1, kept, mm.totalMemory⟩, ?_, x :: rest, rfl, hkept, ?_, ?_⟩
    · rw [if_neg hroom]
    · rw [if_neg hroom]
    · rw [if_neg hroom]

theorem NodeManager.Refines.exec (h : nm.Refines mm) (hne : mm.head ≠ [])
    (hfuel : mm.head.length ≤ fuel) (call : MmCall) :
    ∃ nm', nm.exec fuel call = some nm' ∧ nm'.Refines (call.exec mm) := by
  cases call with
  | allocate a size =>
    obtain ⟨nm', hcall, hrefines⟩ := h.allocate hfuel a size
    exact ⟨nm', by rw [NodeManager.exec, hcall]; rfl, hrefines⟩
  | free pid => exact h.free hfuel pid
  | coalesce => exact h.coalesce hfuel
  | compact => exact h.compact hne hfuel

end Calls

theorem NodeManager.Refines.run {nm : NodeManager} {mm : MemoryManager} {fuel : Nat}
    (h : nm.Refines mm) (hne : mm.head ≠ []) (calls : List MmCall)
    (hfuel : mm.head.length + calls.length ≤ fuel) :
    ∃ nm', nm.run fuel calls = some nm' ∧ nm'.Refines (mmRun calls mm) := by
  induction calls generalizing nm mm with
  | nil => exact ⟨nm, rfl, h⟩
  | cons call calls ih =>
    rw [List.length_cons] at hfuel
    have hnow : mm.head.length ≤ fuel := by omega
    obtain ⟨next, hexec, hnext⟩ := h.exec hne hnow call
    have hlen := call.exec_length mm
    have hroom : (call.exec mm).head.length + calls.length ≤ fuel := by omega
    obtain ⟨nm', hrun, hrefines⟩ := ih hnext (call.exec_head_ne_nil hne) hroom
    refine ⟨nm', ?_, hrefines⟩
    rw [NodeManager.run, List.foldlM_cons, hexec]
    exact hrun

/-- Whatever the calls, the nodes stay one doubly linked list: none is leaked, none that is
freed stays reachable, and the two links agree. No loop needs more iterations than there
are blocks, at most one more than there were calls. -/
theorem NodeManager.run_integrity (totalMemory : Int) (calls : List MmCall) (fuel : Nat)
    (hfuel : calls.length < fuel) :
    ∃ nm nodes, NodeManager.run fuel calls (NodeManager.mmCreate totalMemory) = some nm ∧
      nm.Integrity nodes ∧ nm.Refines (mmRun calls (MiniOS.mmCreate totalMemory)) := by
  have hne : (MiniOS.mmCreate totalMemory).head ≠ [] := by simp [MiniOS.mmCreate]
  have hroom : (MiniOS.mmCreate totalMemory).head.length + calls.length ≤ fuel := by
    simp only [MiniOS.mmCreate, List.length_singleton]
    omega
  obtain ⟨nm, hrun, hrefines⟩ := (create_refines totalMemory).run hne calls hroom
  obtain ⟨nodes, hnodes⟩ := hrefines.integrity (mmRun_head_ne_nil hne calls)
  exact ⟨nm, nodes, hrun, hnodes, hrefines⟩

theorem NodeManager.run_integrity_example :
    let calls : List MmCall := [.allocate (.greedyFirstFit 1) 30, .allocate .mmAllocateBestFit 20,
      .free 1, .compact, .coalesce]
    ∃ nm nodes, NodeManager.run 6 calls (NodeManager.mmCreate 100) = some nm ∧
      nm.Integrity nodes ∧
      nm.Refines ⟨[⟨0, 30, true, -1⟩, ⟨0, 20, false, 20⟩, ⟨20, 80, true, -1⟩], 100⟩ :=
  NodeManager.run_integrity 100 _ 6 (by decide)

theorem mmRun_length (calls : List MmCall) (mm : MemoryManager) :
    (mmRun calls mm).head.length ≤ mm.head.length + calls.length := by
  induction calls generalizing mm with
  | nil => exact Nat.le_refl _
  | cons call calls ih =>
    have hstep := call.exec_length mm
    have hrest := ih (call.exec mm)
    rw [List.length_cons]
    show (mmRun calls (call.exec mm)).head.length ≤ _
    omega

theorem NodeManager.Refines.destroy {nm : NodeManager} {mm : MemoryManager} {fuel : Nat}
    (h : nm.Refines mm) (hfuel : mm.head.length ≤ fuel) :
    ∃ heap, nm.mmDestroy fuel = some heap ∧ ∀ i, heap.cell i = none := by
  obtain ⟨l, hhead, hr, hdata, -⟩ := h
  rw [NodeManager.mmDestroy, hhead]
  exact hr.freeFrom_eq (by rw [length_of_data hdata]; exact hfuel)

/-- After any calls the manager can be destroyed: each block is freed once, none is left,
and no loop on the way needs more iterations than there were calls and one. -/
theorem NodeManager.run_destroy (totalMemory : Int) (calls : List MmCall) (spare : Nat) :
    ∃ nm heap, NodeManager.run (calls.length + 1 + spare) calls
        (NodeManager.mmCreate totalMemory) = some nm ∧
      nm.mmDestroy (calls.length + 1 + spare) = some heap ∧ ∀ i, heap.cell i = none := by
  have hne : (MiniOS.mmCreate totalMemory).head ≠ [] := by simp [MiniOS.mmCreate]
  have hone : (MiniOS.mmCreate totalMemory).head.length = 1 := rfl
  have hlen := mmRun_length calls (MiniOS.mmCreate totalMemory)
  have hroom : (MiniOS.mmCreate totalMemory).head.length + calls.length ≤
      calls.length + 1 + spare := by omega
  obtain ⟨nm, hrun, hrefines⟩ := (create_refines totalMemory).run hne calls hroom
  obtain ⟨heap, hdestroy, hnone⟩ := hrefines.destroy (hlen.trans hroom)
  exact ⟨nm, heap, hrun, hdestroy, hnone⟩

end MiniOS
