import MiniOS.Simulation
import MiniOS.SingleLinks
import MiniOS.SortedList

/-! The list of finished processes on the heap: the search loops look one node
ahead, an insertion links a node in, a removal frees one. Every call on the nodes
does what the call on the list of records does. -/

namespace MiniOS

open SingleLinks

structure NodeList where
  head : Ptr
  heap : Heap LLNode
  size : Int

inductive ListCall where
  | insertSorted (pid burstTime : Int)
  | remove (pid : Int)
  | find (pid : Int)
  deriving DecidableEq, Repr

/-- What a call returns; a search returns the record of the node it points to. -/
inductive ListAnswer where
  | nothing
  | removed (ret : Int)
  | found (node : Option LLNode)
  deriving DecidableEq, Repr

def ListCall.onList (list : LinkedList) : ListCall → ListAnswer × LinkedList
  | .insertSorted pid burstTime => (.nothing, llInsertSorted list pid burstTime)
  | .remove pid => (.removed (llRemove list pid).1, (llRemove list pid).2)
  | .find pid => (.found ((llFind list pid).map Cursor.item), list)

namespace NodeList

def llCreate : NodeList := ⟨none, Heap.empty, 0⟩

def llInsertSorted (list : NodeList) (pid burstTime : Int) : Option NodeList := do
  let (node, heap) := list.heap.malloc ⟨⟨pid, burstTime⟩, none⟩
  let pushFront := do
    let heap ← heap.setNext node list.head
    some ⟨node, heap, list.size + 1⟩
  match list.head with
  | none => pushFront
  | some first => do
    let f ← heap.read (some first)
    if pid < f.value.pid then pushFront
    else
      let cur ← walk (fun next => next.pid < pid) heap heap.fresh first
      let c ← heap.read (some cur)
      let heap ← heap.setNext node c.next
      let heap ← heap.setNext (some cur) node
      some ⟨list.head, heap, list.size + 1⟩

def llRemove (list : NodeList) (pid : Int) : Option (Int × NodeList) :=
  match list.head with
  | none => some (0, list)
  | some first => do
    let tmp ← list.heap.read (some first)
    if tmp.value.pid = pid then
      let heap ← list.heap.free (some first)
      some (1, ⟨tmp.next, heap, list.size - 1⟩)
    else
      let cur ← walk (fun next => next.pid ≠ pid) list.heap list.heap.fresh first
      let c ← list.heap.read (some cur)
      match c.next with
      | none => some (0, list)
      | some next => do
        let tmp ← list.heap.read (some next)
        let heap ← list.heap.setNext (some cur) tmp.next
        let heap ← heap.free (some next)
        some (1, ⟨list.head, heap, list.size - 1⟩)

def llFind (list : NodeList) (pid : Int) : Option Ptr :=
  findFrom (fun cur => cur.pid == pid) list.heap list.heap.fresh list.head

/-- The heap that is left. -/
def llDestroy (list : NodeList) : Option (Heap LLNode) :=
  freeFrom list.heap.fresh list.heap list.head

def exec (list : NodeList) : ListCall → Option (ListAnswer × NodeList)
  | .insertSorted pid burstTime =>
    (llInsertSorted list pid burstTime).map (fun list => (.nothing, list))
  | .remove pid => (llRemove list pid).map (fun r => (.removed r.1, r.2))
  | .find pid => do
    let p ← llFind list pid
    some (.found (p.bind (fun i => (list.heap.cell i).map Node.value)), list)

/-- The nodes of `l`, and no others, hold the records of the list. -/
structure Linked (nodes : NodeList) (l : List (Nat × LLNode)) (list : LinkedList) : Prop where
  holds : SingleLinks.Holds nodes.heap nodes.head l
  values_eq : values l = list.head
  size_eq : nodes.size = list.size
  length_eq : list.size = list.head.length

end NodeList

/-! The two search loops as prefixes of the list. -/

theorem insertAfter_eq (node cur : LLNode) (rest : List LLNode) :
    insertAfter node cur rest = cur :: (rest.takeWhile (fun next => next.pid < node.pid) ++
      node :: rest.dropWhile (fun next => next.pid < node.pid)) := by
  induction rest generalizing cur with
  | nil => rfl
  | cons next rest ih =>
    by_cases h : next.pid < node.pid
    · rw [insertAfter, if_pos h, ih, List.takeWhile_cons_of_pos (by simpa using h),
        List.dropWhile_cons_of_pos (by simpa using h)]
      rfl
    · rw [insertAfter, if_neg h, List.takeWhile_cons_of_neg (by simpa using h),
        List.dropWhile_cons_of_neg (by simpa using h)]
      rfl

theorem removeAfter_eq (pid : Int) (cur : LLNode) (rest : List LLNode) :
    removeAfter pid cur rest =
      (rest.dropWhile (fun next => next.pid ≠ pid)).tail?.map
        (fun tail => cur :: (rest.takeWhile (fun next => next.pid ≠ pid) ++ tail)) := by
  induction rest generalizing cur with
  | nil => rfl
  | cons next rest ih =>
    by_cases h : next.pid = pid
    · rw [removeAfter, if_neg (not_not.mpr h), List.takeWhile_cons_of_neg (by simpa using h),
        List.dropWhile_cons_of_neg (by simpa using h)]
      rfl
    · rw [removeAfter, if_pos h, ih, List.takeWhile_cons_of_pos (by simpa using h),
        List.dropWhile_cons_of_pos (by simpa using h), Option.map_map]
      rfl

theorem llRemove_length {list : LinkedList} (h : list.size = list.head.length) (pid : Int) :
    (llRemove list pid).2.size = (llRemove list pid).2.head.length := by
  rcases llRemove_cases list pid with ⟨pre, node, post, hsplit, -, hremove⟩ | ⟨-, hremove⟩
  · rw [hremove]
    show list.size - 1 = (pre ++ post).length
    rw [h, hsplit, List.length_append, List.length_append, List.length_cons]
    omega
  · rw [hremove]
    exact h

namespace NodeList

section Operations

variable {nodes : NodeList} {l : List (Nat × LLNode)} {list : LinkedList}

theorem create_linked : llCreate.Linked [] MiniOS.llCreate := ⟨SingleLinks.Holds.empty, rfl, rfl, rfl⟩

/-- The node goes in front of a list that is empty or starts with a larger pid. -/
theorem Linked.pushFront (h : nodes.Linked l list) (node : LLNode) :
    ∃ heap, (nodes.heap.malloc ⟨node, none⟩).2.setNext (some nodes.heap.fresh) nodes.head =
        some heap ∧
      SingleLinks.Holds heap (some nodes.heap.fresh) ((nodes.heap.fresh, node) :: l) := by
  refine ⟨_, Heap.setNext_eq Heap.malloc_cell_same nodes.head,
    h.holds.pushed Heap.put_cell_same ?_ rfl⟩
  intro i hi
  rw [Heap.put_cell_of_ne hi, Heap.malloc_cell_of_ne hi]

theorem Linked.insert (h : nodes.Linked l list) (pid burstTime : Int) :
    ∃ nodes' l', llInsertSorted nodes pid burstTime = some nodes' ∧
      nodes'.Linked l' (MiniOS.llInsertSorted list pid burstTime) := by
  have hsize : nodes.size + 1 = ((MiniOS.llInsertSorted list pid burstTime).size : Int) := by
    rw [LinkedList.insert_size, h.size_eq]
    rfl
  have hlength : (MiniOS.llInsertSorted list pid burstTime).size =
      (MiniOS.llInsertSorted list pid burstTime).head.length := by
    rw [LinkedList.insert_size, (LinkedList.insert_perm list pid burstTime).length_eq,
      List.length_cons, h.length_eq]
  have hlist := llInsertSorted_head list pid burstTime
  rw [← h.values_eq] at hlist
  obtain ⟨front, hset, hfront⟩ := h.pushFront ⟨pid, burstTime⟩
  cases l with
  | nil =>
    have hhead : nodes.head = none := h.holds.chain
    rw [hhead] at hset
    refine ⟨⟨some nodes.heap.fresh, front, nodes.size + 1⟩, _, ?_, hfront, hlist.symm, hsize,
      hlength⟩
    simp only [llInsertSorted, Heap.malloc_fst, hhead, hset, Option.bind_eq_bind, Option.bind_some]
  | cons x l =>
    rw [values_cons] at hlist
    obtain ⟨hhead, next, hx, -⟩ := h.holds.chain
    have hold : ∀ i ∈ ids (x :: l), (nodes.heap.malloc ⟨⟨pid, burstTime⟩, none⟩).2.cell i =
        nodes.heap.cell i :=
      fun i hi => Heap.malloc_cell_of_ne (Nat.ne_of_lt (h.holds.fresh i hi))
    have hread : (nodes.heap.malloc ⟨⟨pid, burstTime⟩, none⟩).2.read (some x.1) =
        some ⟨x.2, next⟩ := (hold x.1 List.mem_cons_self).trans hx
    by_cases hlt : pid < x.2.pid
    · rw [hhead] at hset
      refine ⟨⟨some nodes.heap.fresh, front, nodes.size + 1⟩, _, ?_, hfront, ?_, hsize, hlength⟩
      · simp only [llInsertSorted, Heap.malloc_fst, hhead, hset, Option.bind_eq_bind,
          Option.bind_some, hread, if_pos hlt]
      · rw [hlist, insertNode, if_pos hlt]
        rfl
    · have hfuel : l.length < (nodes.heap.malloc ⟨⟨pid, burstTime⟩, none⟩).2.fresh :=
        Nat.lt_succ_of_lt h.holds.length_le_fresh
      obtain ⟨pre, y, rest, hsplit, hpre, hrest, hwalk⟩ :=
        (h.holds.chain.congr hold).walk_split hfuel (fun next => next.pid < pid)
      have hholds := h.holds
      rw [hsplit, hhead] at hholds
      obtain ⟨c, h₁, h₂, hc, hlink, hlink', hfinal⟩ := hholds.linkAfter ⟨pid, burstTime⟩
      refine ⟨⟨some x.1, h₂, nodes.size + 1⟩, _, ?_, hfinal, ?_, hsize, hlength⟩
      · simp only [llInsertSorted, Heap.malloc_fst, hhead, Option.bind_eq_bind,
          Option.bind_some, hread, if_neg hlt, hwalk, hc, hlink, hlink']
      · rw [hlist, insertNode, if_neg hlt, insertAfter_eq, List.append_cons pre y, values_append,
          hpre, values_cons, hrest]
        rfl

theorem Linked.remove (h : nodes.Linked l list) (pid : Int) :
    ∃ nodes' l', llRemove nodes pid = some ((MiniOS.llRemove list pid).1, nodes') ∧
      nodes'.Linked l' (MiniOS.llRemove list pid).2 := by
  have hlength := llRemove_length h.length_eq pid
  cases l with
  | nil =>
    have hhead : nodes.head = none := h.holds.chain
    have hnil : list.head = [] := h.values_eq.symm
    have hstay : MiniOS.llRemove list pid = (0, list) := by
      rw [MiniOS.llRemove, hnil]
    exact ⟨nodes, [], by rw [llRemove, hhead, hstay], hstay ▸ h⟩
  | cons x l =>
    obtain ⟨head, size⟩ := list
    obtain rfl : values (x :: l) = head := h.values_eq
    have hsize : nodes.size - 1 = ((size - 1 : Nat) : Int) := by
      have hnodes : nodes.size = size := h.size_eq
      have hpos : size = l.length + 1 := h.length_eq.trans (values_length _)
      omega
    obtain ⟨hhead, next, hx, -⟩ := h.holds.chain
    have hread : nodes.heap.read (some x.1) = some ⟨x.2, next⟩ := hx
    by_cases heq : x.2.pid = pid
    · have hlist : MiniOS.llRemove ⟨values (x :: l), size⟩ pid = (1, ⟨values l, size - 1⟩) := by
        simp [MiniOS.llRemove, heq]
      obtain ⟨c, heap, -, hread', -, hfree, hheld⟩ := h.holds.takeFirst
      rw [hhead] at hread' hfree
      obtain rfl : ⟨x.2, next⟩ = c := Option.some.inj (hread.symm.trans hread')
      rw [hlist] at hlength ⊢
      refine ⟨⟨next, heap, nodes.size - 1⟩, l, ?_, hheld, rfl, hsize, hlength⟩
      simp only [llRemove, hhead, hread, Option.bind_eq_bind, Option.bind_some, if_pos heq, hfree]
    · obtain ⟨pre, y, rest, hsplit, hpre, hrest, hwalk⟩ := h.holds.chain.walk_split
        h.holds.length_le_fresh (fun next => next.pid ≠ pid)
      have hafter := removeAfter_eq pid x.2 (values l)
      rw [← hrest] at hafter
      have hholds := h.holds
      rw [hsplit, hhead] at hholds
      cases rest with
      | nil =>
        have hlist : MiniOS.llRemove ⟨values (x :: l), size⟩ pid =
            (0, ⟨values (x :: l), size⟩) := by
          simp [MiniOS.llRemove, heq, hafter]
        have hc : nodes.heap.read (some y.1) = some ⟨y.2, none⟩ := hholds.chain.last_cell
        refine ⟨nodes, x :: l, ?_, hlist ▸ h⟩
        simp only [llRemove, hhead, hread, Option.bind_eq_bind, Option.bind_some, if_neg heq,
          hwalk, hc, hlist]
      | cons z rest =>
        have hlist : MiniOS.llRemove ⟨values (x :: l), size⟩ pid =
            (1, ⟨values (pre ++ [y]) ++ values rest, size - 1⟩) := by
          rw [hpre]
          simp [MiniOS.llRemove, heq, hafter]
        obtain ⟨c, d, h₁, h₂, hc, hnext, hd, hset, hfree, hfinal⟩ := hholds.unlinkAfter
        rw [hlist] at hlength ⊢
        refine ⟨⟨some x.1, h₂, nodes.size - 1⟩, pre ++ y :: rest, ?_, hfinal, ?_, hsize, hlength⟩
        · simp only [llRemove, hhead, hread, Option.bind_eq_bind, Option.bind_some, if_neg heq,
            hwalk, hc, hnext, hd, hset, hfree]
        · rw [List.append_cons pre y, values_append]

theorem Linked.find (h : nodes.Linked l list) (pid : Int) :
    ∃ p, llFind nodes pid = some p ∧
      p.bind (fun i => (nodes.heap.cell i).map Node.value) =
        (MiniOS.llFind list pid).map Cursor.item := by
  refine ⟨_, h.holds.chain.findFrom_eq h.holds.length_le_fresh _, ?_⟩
  rw [MiniOS.llFind, Cursor.first_item, ← h.values_eq, values, List.find?_map]
  cases hfind : l.find? ((fun cur : LLNode => cur.pid == pid) ∘ Prod.snd) with
  | none =>
    have hnone : l.find? (fun x => x.2.pid == pid) = none := hfind
    rw [hnone]
    rfl
  | some x =>
    have hsome : l.find? (fun x => x.2.pid == pid) = some x := hfind
    obtain ⟨next, hcell⟩ := h.holds.chain.cell_of_mem (List.mem_of_find?_eq_some hfind)
    rw [hsome, Option.map_some, Option.bind_some, hcell]
    rfl

theorem Linked.destroy (h : nodes.Linked l list) :
    ∃ heap, llDestroy nodes = some heap ∧ ∀ i, heap.cell i = none := by
  obtain ⟨heap, hrun, hempty⟩ := h.holds.freeFrom_eq h.holds.length_le_fresh
  exact ⟨heap, hrun, hempty.none_live⟩

theorem exec_forward :
    Simulation.Forward (fun nodes list => ∃ l, Linked nodes l list) exec ListCall.onList := by
  rintro nodes list call ⟨l, h⟩
  cases call with
  | insertSorted pid burstTime =>
    obtain ⟨nodes', l', hrun, hlinked⟩ := h.insert pid burstTime
    exact ⟨nodes', by rw [exec, hrun]; rfl, l', hlinked⟩
  | remove pid =>
    obtain ⟨nodes', l', hrun, hlinked⟩ := h.remove pid
    exact ⟨nodes', by rw [exec, hrun]; rfl, l', hlinked⟩
  | find pid =>
    obtain ⟨p, hrun, hfound⟩ := h.find pid
    exact ⟨nodes, by rw [exec, hrun, Option.bind_eq_bind, Option.bind_some, hfound]; rfl, l, h⟩

end Operations

/-- The nodes `l` of the list and the records it holds. -/
structure Integrity (nodes : NodeList) (l : List (Nat × LLNode)) (list : LinkedList) : Prop where
  visits : Chain nodes.heap nodes.head l none
  distinct : (ids l).Nodup
  live : ∀ i, (nodes.heap.cell i).isSome ↔ i ∈ ids l
  values_eq : values l = list.head
  size_eq : nodes.size = list.head.length
  sorted : list.head.Pairwise (fun a b => a.pid ≤ b.pid)
  destroyed : ∃ heap, llDestroy nodes = some heap ∧ ∀ i, heap.cell i = none

theorem onList_ordered {list : LinkedList} (h : list.Ordered) (call : ListCall) :
    (call.onList list).2.Ordered := by
  cases call with
  | insertSorted pid burstTime => exact h.insert pid burstTime
  | remove pid => exact h.remove pid
  | find pid => exact h

/-- Every history of calls runs through, without touching a null pointer or a node
that was freed, answers as the list of records does, leaves the nodes of a sorted
list, and that list can be destroyed. -/
theorem run_sorted (calls : List ListCall) :
    ∃ nodes l, Simulation.run exec calls llCreate =
        some ((Simulation.specRun ListCall.onList calls MiniOS.llCreate).1, nodes) ∧
      nodes.Integrity l (Simulation.specRun ListCall.onList calls MiniOS.llCreate).2 := by
  obtain ⟨nodes, hrun, l, hlinked⟩ := exec_forward.run calls ⟨[], create_linked⟩
  have hordered : (Simulation.specRun ListCall.onList calls MiniOS.llCreate).2.Ordered :=
    Simulation.specRun_invariant LinkedList.Ordered
      (fun _ call hlist => onList_ordered hlist call) calls LinkedList.create_ordered
  refine ⟨nodes, l, hrun, ?_⟩
  exact {
    visits := hlinked.holds.chain
    distinct := hlinked.holds.nodup
    live := fun i => ⟨hlinked.holds.live i, hlinked.holds.chain.live⟩
    values_eq := hlinked.values_eq
    size_eq := hlinked.size_eq.trans (congrArg Int.ofNat hlinked.length_eq)
    sorted := hordered.sorted
    destroyed := hlinked.destroy }

end NodeList

end MiniOS
