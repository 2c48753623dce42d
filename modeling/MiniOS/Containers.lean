import Mathlib.Data.List.Basic
import Mathlib.Data.List.Pairwise
import Mathlib.Algebra.Order.Group.Int

/-! The linked containers of the schedulers at the level of their contents: the
history stack, the ready queue and the list of finished processes. -/

namespace MiniOS

/-- `top` lists the values from the top down. -/
structure Stack where
  top : List Int
  size : Nat
  deriving DecidableEq, Repr

def stackCreate : Stack := ⟨[], 0⟩

def stackPush (stack : Stack) (value : Int) : Stack := ⟨value :: stack.top, stack.size + 1⟩

def stackIsEmpty (stack : Stack) : Bool := stack.top.isEmpty

def stackPop (stack : Stack) : Int × Stack :=
  match stack.top with
  | [] => (-1, stack)
  | value :: top => (value, ⟨top, stack.size - 1⟩)

def stackPeek (stack : Stack) : Int := stack.top.headD (-1)

def stackSize (stack : Stack) : Nat := stack.size

structure Queue where
  front : List Int
  size : Nat
  deriving DecidableEq, Repr

def queueCreate : Queue := ⟨[], 0⟩

def queueIsEmpty (queue : Queue) : Bool := queue.front.isEmpty

def enqueue (queue : Queue) (value : Int) : Queue := ⟨queue.front ++ [value], queue.size + 1⟩

def dequeue (queue : Queue) : Int × Queue :=
  match queue.front with
  | [] => (-1, queue)
  | value :: front => (value, ⟨front, queue.size - 1⟩)

structure LLNode where
  pid : Int
  burstTime : Int
  deriving DecidableEq, Repr

structure LinkedList where
  head : List LLNode
  size : Nat
  deriving DecidableEq, Repr

def llCreate : LinkedList := ⟨[], 0⟩

/-- The search loop of `ll_insert_sorted` standing at `cur`, then the insertion
behind it. -/
def insertAfter (node cur : LLNode) : List LLNode → List LLNode
  | [] => [cur, node]
  | next :: rest =>
    if next.pid < node.pid then cur :: insertAfter node next rest else cur :: node :: next :: rest

def llInsertSorted (list : LinkedList) (pid burstTime : Int) : LinkedList :=
  let node : LLNode := ⟨pid, burstTime⟩
  match list.head with
  | [] => ⟨[node], list.size + 1⟩
  | first :: rest =>
    if pid < first.pid then ⟨node :: first :: rest, list.size + 1⟩
    else ⟨insertAfter node first rest, list.size + 1⟩

theorem insertAfter_perm (node cur : LLNode) (rest : List LLNode) :
    (insertAfter node cur rest).Perm (node :: cur :: rest) := by
  induction rest generalizing cur with
  | nil => exact List.Perm.swap node cur []
  | cons next rest ih =>
    by_cases h : next.pid < node.pid
    · rw [insertAfter, if_pos h]
      exact ((ih next).cons cur).trans (List.Perm.swap node cur (next :: rest))
    · rw [insertAfter, if_neg h]
      exact List.Perm.swap node cur (next :: rest)

theorem insertAfter_pairwise {node cur : LLNode} {rest : List LLNode}
    (h : (cur :: rest).Pairwise (fun a b => a.pid ≤ b.pid)) (hcur : cur.pid ≤ node.pid) :
    (insertAfter node cur rest).Pairwise (fun a b => a.pid ≤ b.pid) := by
  induction rest generalizing cur with
  | nil => simpa [insertAfter] using hcur
  | cons next rest ih =>
    obtain ⟨hle, hrest⟩ := List.pairwise_cons.mp h
    by_cases hn : next.pid < node.pid
    · rw [insertAfter, if_pos hn, List.pairwise_cons]
      constructor
      · intro x hx
        rcases List.mem_cons.mp ((insertAfter_perm node next rest).mem_iff.mp hx) with rfl | hx
        · exact hcur
        · exact hle x hx
      · exact ih hrest hn.le
    · have hnode : node.pid ≤ next.pid := not_lt.mp hn
      rw [insertAfter, if_neg hn, List.pairwise_cons, List.pairwise_cons]
      constructor
      · intro x hx
        rcases List.mem_cons.mp hx with rfl | hx
        · exact hcur
        · exact hle x hx
      · refine ⟨?_, hrest⟩
        intro x hx
        rcases List.mem_cons.mp hx with rfl | hx
        · exact hnode
        · exact hnode.trans ((List.pairwise_cons.mp hrest).1 x hx)

namespace LinkedList

structure Ordered (list : LinkedList) : Prop where
  sorted : list.head.Pairwise (fun a b => a.pid ≤ b.pid)
  size_eq : list.size = list.head.length

theorem create_ordered : llCreate.Ordered := ⟨List.Pairwise.nil, rfl⟩

theorem insert_perm (list : LinkedList) (pid burstTime : Int) :
    (llInsertSorted list pid burstTime).head.Perm (⟨pid, burstTime⟩ :: list.head) := by
  cases h : list.head with
  | nil => simp [llInsertSorted, h]
  | cons first rest =>
    by_cases hp : pid < first.pid
    · simp [llInsertSorted, h, hp]
    · simpa [llInsertSorted, h, hp] using insertAfter_perm ⟨pid, burstTime⟩ first rest

theorem insert_size (list : LinkedList) (pid burstTime : Int) :
    (llInsertSorted list pid burstTime).size = list.size + 1 := by
  cases h : list.head with
  | nil => simp [llInsertSorted, h]
  | cons first rest => by_cases hp : pid < first.pid <;> simp [llInsertSorted, h, hp]

theorem Ordered.insert {list : LinkedList} (h : list.Ordered) (pid burstTime : Int) :
    (llInsertSorted list pid burstTime).Ordered := by
  constructor
  · cases hl : list.head with
    | nil => simp [llInsertSorted, hl]
    | cons first rest =>
      have hs := h.sorted
      rw [hl] at hs
      by_cases hp : pid < first.pid
      · simp only [llInsertSorted, hl, if_pos hp]
        refine List.pairwise_cons.mpr ⟨?_, hs⟩
        intro x hx
        rcases List.mem_cons.mp hx with rfl | hx
        · exact hp.le
        · exact hp.le.trans ((List.pairwise_cons.mp hs).1 x hx)
      · simp only [llInsertSorted, hl, if_neg hp]
        exact insertAfter_pairwise hs (not_lt.mp hp)
  · rw [insert_size, (insert_perm list pid burstTime).length_eq, List.length_cons, h.size_eq]

end LinkedList

end MiniOS
