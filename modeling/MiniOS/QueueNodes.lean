import MiniOS.CircularQueueRuns
import MiniOS.Containers
import MiniOS.Simulation
import MiniOS.SingleLinks

/-! The linked queue on the heap, each element a node and `rear` a second pointer
to the last one. Over every history of calls the nodes form one list from `front`
to `rear`, and the queue answers as a plain list does. -/

namespace MiniOS

open SingleLinks

abbrev QNode := Node Int

structure NodeQueue where
  front : Ptr
  rear : Ptr
  heap : Heap Int
  size : Int

namespace NodeQueue

def queueCreate : NodeQueue := ⟨none, none, Heap.empty, 0⟩

def queueIsEmpty (queue : NodeQueue) : Bool := queue.front.isNone

def enqueue (queue : NodeQueue) (value : Int) : Option NodeQueue := do
  let (node, heap) := queue.heap.malloc (⟨value, none⟩ : QNode)
  if queue.rear = none then
    some { queue with front := node, rear := node, heap := heap, size := queue.size + 1 }
  else
    let heap ← heap.setNext queue.rear node
    some { queue with rear := node, heap := heap, size := queue.size + 1 }

def dequeue (queue : NodeQueue) : Option (Int × NodeQueue) :=
  if queueIsEmpty queue then some (-1, queue)
  else do
    let tmp ← queue.heap.read queue.front
    let rear := if tmp.next = none then none else queue.rear
    let heap ← queue.heap.free queue.front
    some (tmp.value, ⟨tmp.next, rear, heap, queue.size - 1⟩)

def queuePeek (queue : NodeQueue) : Option Int :=
  if queueIsEmpty queue then some (-1)
  else do
    let front ← queue.heap.read queue.front
    some front.value

def queueSize (queue : NodeQueue) : Int := queue.size

/-- The heap that is left. The loop takes off at most as many nodes as were ever allocated. -/
def queueDestroy (queue : NodeQueue) : Option (Heap Int) := do
  let queue ← WhileLoop.afterM (fun queue => !queueIsEmpty queue)
    (fun queue => (dequeue queue).map Prod.snd) queue.heap.fresh queue
  if queueIsEmpty queue then some queue.heap else none

/-- The value a call returns, if it returns one, and the queue after it. -/
def exec (queue : NodeQueue) : QueueCall → Option (Option Int × NodeQueue)
  | .enqueue value => (enqueue queue value).map (fun queue => (none, queue))
  | .dequeue => (dequeue queue).map (fun r => (some r.1, r.2))

def run : List QueueCall → NodeQueue → Option (List (Option Int) × NodeQueue)
  | [], queue => some ([], queue)
  | call :: calls, queue => do
    let (result, queue) ← exec queue call
    let (results, queue) ← run calls queue
    some (result :: results, queue)

/-- The queue is linked through the nodes of `l` and ends at `rear`; no other node is live. -/
structure Linked (queue : NodeQueue) (l : List (Nat × Int)) : Prop where
  holds : SingleLinks.Holds queue.heap queue.front l
  rear_eq : queue.rear = (ids l).getLast?
  size_eq : queue.size = l.length

section Operations

variable {queue : NodeQueue} {l : List (Nat × Int)} {x : Nat × Int}

theorem create_linked : queueCreate.Linked [] := ⟨SingleLinks.Holds.empty, rfl, rfl⟩

theorem Linked.isEmpty_iff (h : queue.Linked l) : queueIsEmpty queue = true ↔ l = [] := by
  rw [queueIsEmpty, Option.isNone_iff_eq_none]
  exact h.holds.front_none_iff

theorem Linked.rear_none_iff (h : queue.Linked l) : queue.rear = none ↔ l = [] := by
  rw [h.rear_eq, List.getLast?_eq_none_iff]
  exact List.map_eq_nil_iff

theorem Linked.enqueue (h : queue.Linked l) (value : Int) :
    ∃ queue', NodeQueue.enqueue queue value = some queue' ∧
      queue'.Linked (l ++ [(queue.heap.fresh, value)]) := by
  have hsize : queue.size + 1 = ((l ++ [(queue.heap.fresh, value)]).length : Int) := by
    rw [h.size_eq, List.length_append, List.length_singleton]
    rfl
  rcases List.eq_nil_or_concat' l with rfl | ⟨pre, x, rfl⟩
  · have hrear := h.rear_none_iff.mpr rfl
    have hholds := h.holds
    rw [h.holds.front_none_iff.mpr rfl] at hholds
    refine ⟨_, by rw [NodeQueue.enqueue]; exact if_pos hrear, hholds.singleton value, rfl, hsize⟩
  · have hne : queue.rear ≠ none := fun he => by simpa using h.rear_none_iff.mp he
    have hrear : queue.rear = some x.1 := by
      rw [h.rear_eq, ids_append]
      exact List.getLast?_concat
    obtain ⟨heap, hset, hheld⟩ := h.holds.linkLast value
    refine ⟨⟨queue.front, some queue.heap.fresh, heap, queue.size + 1⟩, ?_, ?_, ?_, hsize⟩
    · simp only [NodeQueue.enqueue, if_neg hne, Heap.malloc_fst]
      rw [hrear, hset]
      rfl
    · simpa using hheld
    · rw [ids_append]
      exact List.getLast?_concat.symm

theorem Linked.dequeue_cons (h : queue.Linked (x :: l)) :
    ∃ queue', NodeQueue.dequeue queue = some (x.2, queue') ∧ queue'.Linked l := by
  have hne : ¬ queueIsEmpty queue = true := fun he => by simpa using h.isEmpty_iff.mp he
  obtain ⟨tmp, heap, -, hread, hvalue, hfree, hheld⟩ := h.holds.takeFirst
  refine ⟨⟨tmp.next, if tmp.next = none then none else queue.rear, heap, queue.size - 1⟩, ?_, hheld,
    ?_, ?_⟩
  · rw [NodeQueue.dequeue, if_neg hne, hread, Option.bind_eq_bind, Option.bind_some, hfree, ← hvalue]
    rfl
  · -- `rear` is reset exactly when the node taken off was the last one
    have hchain := hheld.chain
    cases l with
    | nil => exact if_pos hchain
    | cons y l =>
      have hnext : tmp.next ≠ none := by
        rw [hchain.1]
        exact Option.some_ne_none y.1
      show (if tmp.next = none then none else queue.rear) = _
      rw [if_neg hnext, h.rear_eq, ids_cons, ids_cons, List.getLast?_cons_cons]
  · show queue.size - 1 = (l.length : Int)
    rw [h.size_eq, List.length_cons]
    omega

theorem Linked.dequeue_nil (h : queue.Linked []) :
    NodeQueue.dequeue queue = some (-1, queue) := if_pos (h.isEmpty_iff.mpr rfl)

theorem Linked.peek (h : queue.Linked l) : queuePeek queue = some ((values l).headD (-1)) := by
  cases l with
  | nil => exact if_pos (h.isEmpty_iff.mpr rfl)
  | cons x l =>
    have hne : ¬ queueIsEmpty queue = true := fun he => by simpa using h.isEmpty_iff.mp he
    obtain ⟨front, -, -, hread, hvalue, -⟩ := h.holds.takeFirst
    rw [queuePeek, if_neg hne, hread, Option.bind_eq_bind, Option.bind_some, hvalue]
    rfl

theorem Linked.destroy (h : queue.Linked l) :
    ∃ heap, queueDestroy queue = some heap ∧ ∀ i, heap.cell i = none := by
  have htake : ∀ x l (s : NodeQueue), s.Linked (x :: l) →
      ∃ s', (NodeQueue.dequeue s).map Prod.snd = some s' ∧ s'.Linked l := by
    intro x l s hs
    obtain ⟨s', hpop, hs'⟩ := hs.dequeue_cons
    exact ⟨s', by rw [hpop]; rfl, hs'⟩
  obtain ⟨final, hrun, hempty, hleft⟩ := SingleLinks.drains
    (P := fun l s => NodeQueue.Linked s l) (fun _ _ hs => Linked.holds hs) htake h
  have hloop : WhileLoop.afterM (fun queue => !queueIsEmpty queue)
      (fun queue => (NodeQueue.dequeue queue).map Prod.snd) queue.heap.fresh queue =
        some final := hrun
  refine ⟨final.heap, ?_, hleft⟩
  rw [queueDestroy, hloop, Option.bind_eq_bind, Option.bind_some]
  exact if_pos hempty

theorem Linked.exec (h : queue.Linked l) (call : QueueCall) :
    ∃ queue' l', NodeQueue.exec queue call = some ((call.onList (values l)).1, queue') ∧
      queue'.Linked l' ∧ values l' = (call.onList (values l)).2 := by
  cases call with
  | enqueue value =>
    obtain ⟨queue', hrun, hlinked⟩ := h.enqueue value
    exact ⟨queue', _, by rw [NodeQueue.exec, hrun]; rfl, hlinked, List.map_append⟩
  | dequeue =>
    cases l with
    | nil => exact ⟨queue, [], by rw [NodeQueue.exec, h.dequeue_nil]; rfl, h, rfl⟩
    | cons x l =>
      obtain ⟨queue', hrun, hlinked⟩ := h.dequeue_cons
      exact ⟨queue', l, by rw [NodeQueue.exec, hrun]; rfl, hlinked, rfl⟩

theorem Linked.run (h : queue.Linked l) (calls : List QueueCall) :
    ∃ queue' l', NodeQueue.run calls queue = some ((listRun calls (values l)).1, queue') ∧
      queue'.Linked l' ∧ values l' = (listRun calls (values l)).2 := by
  induction calls generalizing queue l with
  | nil => exact ⟨queue, l, rfl, h, rfl⟩
  | cons call calls ih =>
    obtain ⟨next, m, hexec, hnext, hvalues⟩ := h.exec call
    obtain ⟨final, m', hrun, hfinal, hvalues'⟩ := ih hnext
    rw [hvalues] at hrun hvalues'
    refine ⟨final, m', ?_, hfinal, hvalues'⟩
    simp only [NodeQueue.run, hexec, Option.bind_eq_bind, Option.bind_some, hrun]
    rfl

end Operations

/-- The nodes `l` of the queue and the list `waiting` of the values it holds. -/
structure Integrity (queue : NodeQueue) (l : List (Nat × Int)) (waiting : List Int) : Prop where
  null_iff : queue.front = none ↔ queue.rear = none
  visits : Chain queue.heap queue.front l none
  distinct : (ids l).Nodup
  live : ∀ i, (queue.heap.cell i).isSome ↔ i ∈ ids l
  ends_at_rear : (ids l).getLast? = queue.rear
  rear_next : ∀ i, queue.rear = some i → ∃ c, queue.heap.cell i = some c ∧ c.next = none
  values_eq : values l = waiting
  size_eq : queueSize queue = waiting.length
  isEmpty_iff : queueIsEmpty queue = true ↔ waiting = []
  peek_eq : queuePeek queue = some (waiting.headD (-1))
  dequeue_empty : waiting = [] → dequeue queue = some (-1, queue)

theorem Linked.integrity {queue : NodeQueue} {l : List (Nat × Int)} (h : queue.Linked l) :
    queue.Integrity l (values l) where
  null_iff := h.holds.front_none_iff.trans h.rear_none_iff.symm
  visits := h.holds.chain
  distinct := h.holds.nodup
  live i := ⟨h.holds.live i, h.holds.chain.live⟩
  ends_at_rear := h.rear_eq.symm
  rear_next := by
    intro i hi
    rcases List.eq_nil_or_concat' l with rfl | ⟨pre, x, rfl⟩
    · rw [h.rear_none_iff.mpr rfl] at hi
      cases hi
    · rw [h.rear_eq, ids_append] at hi
      obtain rfl : x.1 = i := Option.some.inj (List.getLast?_concat.symm.trans hi)
      exact ⟨_, h.holds.chain.last_cell, rfl⟩
  values_eq := rfl
  size_eq := by
    rw [values, List.length_map]
    exact h.size_eq
  isEmpty_iff := h.isEmpty_iff.trans List.map_eq_nil_iff.symm
  peek_eq := h.peek
  dequeue_empty := by
    intro hnil
    obtain rfl : l = [] := List.map_eq_nil_iff.mp hnil
    exact h.dequeue_nil

/-- Every history of calls runs through, returns what the list returns and leaves
an intact queue of the values still waiting. -/
theorem run_fifo (calls : List QueueCall) :
    ∃ queue l, run calls queueCreate = some ((listRun calls []).1, queue) ∧
      queue.Integrity l (listRun calls []).2 := by
  obtain ⟨queue, l, hrun, hlinked, hvalues⟩ := create_linked.run calls
  refine ⟨queue, l, hrun, ?_⟩
  have hintegrity := hlinked.integrity
  rw [hvalues] at hintegrity
  exact hintegrity

/-! The queue of the schedulers is the list of the values on the nodes. -/

def Refines (nodes : NodeQueue) (queue : Queue) : Prop :=
  ∃ l, nodes.Linked l ∧ values l = queue.front ∧ nodes.size = queue.size

theorem create_refines : queueCreate.Refines MiniOS.queueCreate := ⟨[], create_linked, rfl, rfl⟩

section Refinement

variable {nodes : NodeQueue} {queue : Queue}

theorem Refines.isEmpty (h : nodes.Refines queue) :
    queueIsEmpty nodes = MiniOS.queueIsEmpty queue := by
  obtain ⟨l, hlinked, hvalues, -⟩ := h
  rw [Bool.eq_iff_iff, hlinked.isEmpty_iff, MiniOS.queueIsEmpty, ← hvalues, List.isEmpty_iff]
  exact List.map_eq_nil_iff.symm

theorem Refines.enqueue (h : nodes.Refines queue) (value : Int) :
    ∃ nodes', NodeQueue.enqueue nodes value = some nodes' ∧
      nodes'.Refines (MiniOS.enqueue queue value) := by
  obtain ⟨l, hlinked, hvalues, hsize⟩ := h
  obtain ⟨nodes', hrun, hlinked'⟩ := hlinked.enqueue value
  refine ⟨nodes', hrun, _, hlinked', ?_, ?_⟩
  · rw [MiniOS.enqueue, ← hvalues]
    exact List.map_append
  · have hlen := hlinked.size_eq
    rw [hlinked'.size_eq, List.length_append, List.length_singleton]
    show ((l.length + 1 : Nat) : Int) = (queue.size + 1 : Nat)
    omega

theorem Refines.dequeue (h : nodes.Refines queue) :
    ∃ nodes', NodeQueue.dequeue nodes = some ((MiniOS.dequeue queue).1, nodes') ∧
      nodes'.Refines (MiniOS.dequeue queue).2 := by
  obtain ⟨l, hlinked, hvalues, hsize⟩ := h
  cases l with
  | nil =>
    have hstay : MiniOS.dequeue queue = (-1, queue) := by
      rw [MiniOS.dequeue, ← hvalues]
      rfl
    rw [hstay]
    exact ⟨nodes, hlinked.dequeue_nil, [], hlinked, hvalues, hsize⟩
  | cons x l =>
    have htake : MiniOS.dequeue queue = (x.2, ⟨values l, queue.size - 1⟩) := by
      rw [MiniOS.dequeue, ← hvalues]
      rfl
    obtain ⟨nodes', hrun, hlinked'⟩ := hlinked.dequeue_cons
    rw [htake]
    refine ⟨nodes', hrun, l, hlinked', rfl, ?_⟩
    have hlen := hlinked.size_eq
    rw [List.length_cons] at hlen
    rw [hlinked'.size_eq]
    show (l.length : Int) = (queue.size - 1 : Nat)
    omega

theorem Refines.destroy (h : nodes.Refines queue) :
    ∃ heap, queueDestroy nodes = some heap ∧ ∀ i, heap.cell i = none := by
  obtain ⟨l, hlinked, -⟩ := h
  exact hlinked.destroy

end Refinement

end NodeQueue

end MiniOS
