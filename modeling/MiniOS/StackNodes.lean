import MiniOS.Containers
import MiniOS.Simulation
import MiniOS.SingleLinks

/-! The linked stack on the heap. Over every history of calls the nodes form one
list from `top` on, the stack answers as a plain list does, and destroying it
frees every node. -/

namespace MiniOS

open SingleLinks

structure NodeStack where
  top : Ptr
  heap : Heap Int
  size : Int

inductive StackCall where
  | push (value : Int)
  | pop
  | peek
  | size
  deriving DecidableEq, Repr

def StackCall.onList (l : List Int) : StackCall → Option Int × List Int
  | .push value => (none, value :: l)
  | .pop => (some (l.headD (-1)), l.tail)
  | .peek => (some (l.headD (-1)), l)
  | .size => (some l.length, l)

namespace NodeStack

def stackCreate : NodeStack := ⟨none, Heap.empty, 0⟩

def stackIsEmpty (stack : NodeStack) : Bool := stack.top.isNone

def stackPush (stack : NodeStack) (value : Int) : NodeStack :=
  let (node, heap) := stack.heap.malloc ⟨value, stack.top⟩
  ⟨node, heap, stack.size + 1⟩

def stackPop (stack : NodeStack) : Option (Int × NodeStack) :=
  if stackIsEmpty stack then some (-1, stack)
  else do
    let tmp ← stack.heap.read stack.top
    let heap ← stack.heap.free stack.top
    some (tmp.value, ⟨tmp.next, heap, stack.size - 1⟩)

def stackPeek (stack : NodeStack) : Option Int :=
  if stackIsEmpty stack then some (-1)
  else do
    let top ← stack.heap.read stack.top
    some top.value

def stackSize (stack : NodeStack) : Int := stack.size

/-- The heap that is left. The loop pops at most as many nodes as were ever allocated. -/
def stackDestroy (stack : NodeStack) : Option (Heap Int) := do
  let stack ← WhileLoop.afterM (fun stack => !stackIsEmpty stack)
    (fun stack => (stackPop stack).map Prod.snd) stack.heap.fresh stack
  if stackIsEmpty stack then some stack.heap else none

def exec (stack : NodeStack) : StackCall → Option (Option Int × NodeStack)
  | .push value => some (none, stackPush stack value)
  | .pop => (stackPop stack).map (fun r => (some r.1, r.2))
  | .peek => (stackPeek stack).map (fun value => (some value, stack))
  | .size => some (some (stackSize stack), stack)

/-- The stack is linked through the nodes of `l`; no other node is live. -/
structure Linked (l : List (Nat × Int)) (stack : NodeStack) : Prop where
  holds : SingleLinks.Holds stack.heap stack.top l
  size_eq : stack.size = l.length

section Operations

variable {stack : NodeStack} {l : List (Nat × Int)} {x : Nat × Int}

theorem create_linked : Linked [] stackCreate := ⟨SingleLinks.Holds.empty, rfl⟩

theorem Linked.isEmpty_iff (h : Linked l stack) : stackIsEmpty stack = true ↔ l = [] := by
  rw [stackIsEmpty, Option.isNone_iff_eq_none]
  exact h.holds.front_none_iff

theorem Linked.push (h : Linked l stack) (value : Int) :
    Linked ((stack.heap.fresh, value) :: l) (stackPush stack value) where
  holds := h.holds.pushed Heap.malloc_cell_same (fun _ hi => Heap.malloc_cell_of_ne hi) rfl
  size_eq := by
    show stack.size + 1 = ((l.length + 1 : Nat) : Int)
    rw [h.size_eq]
    rfl

theorem Linked.pop_cons (h : Linked (x :: l) stack) :
    ∃ stack', stackPop stack = some (x.2, stack') ∧ Linked l stack' := by
  have hne : ¬ stackIsEmpty stack = true := fun he => by simpa using h.isEmpty_iff.mp he
  obtain ⟨tmp, heap, -, hread, hvalue, hfree, hheld⟩ := h.holds.takeFirst
  refine ⟨⟨tmp.next, heap, stack.size - 1⟩, ?_, hheld, ?_⟩
  · rw [stackPop, if_neg hne, hread, Option.bind_eq_bind, Option.bind_some, hfree, ← hvalue]
    rfl
  · show stack.size - 1 = (l.length : Int)
    rw [h.size_eq, List.length_cons]
    omega

theorem Linked.pop_nil (h : Linked [] stack) : stackPop stack = some (-1, stack) :=
  if_pos (h.isEmpty_iff.mpr rfl)

theorem Linked.peek (h : Linked l stack) : stackPeek stack = some ((values l).headD (-1)) := by
  cases l with
  | nil => exact if_pos (h.isEmpty_iff.mpr rfl)
  | cons x l =>
    have hne : ¬ stackIsEmpty stack = true := fun he => by simpa using h.isEmpty_iff.mp he
    obtain ⟨top, -, -, hread, hvalue, -⟩ := h.holds.takeFirst
    rw [stackPeek, if_neg hne, hread, Option.bind_eq_bind, Option.bind_some, hvalue]
    rfl

theorem Linked.destroy (h : Linked l stack) :
    ∃ heap, stackDestroy stack = some heap ∧ ∀ i, heap.cell i = none := by
  have htake : ∀ x l s, Linked (x :: l) s →
      ∃ s', (stackPop s).map Prod.snd = some s' ∧ Linked l s' := by
    intro x l s hs
    obtain ⟨s', hpop, hs'⟩ := hs.pop_cons
    exact ⟨s', by rw [hpop]; rfl, hs'⟩
  obtain ⟨final, hrun, hempty, hleft⟩ := SingleLinks.drains (fun _ _ hs => Linked.holds hs) htake h
  have hloop : WhileLoop.afterM (fun stack => !stackIsEmpty stack)
      (fun stack => (stackPop stack).map Prod.snd) stack.heap.fresh stack = some final := hrun
  refine ⟨final.heap, ?_, hleft⟩
  rw [stackDestroy, hloop, Option.bind_eq_bind, Option.bind_some]
  exact if_pos hempty

theorem exec_forward : Simulation.Forward (fun stack l => ∃ m, Linked m stack ∧ values m = l)
    exec StackCall.onList := by
  rintro stack l call ⟨m, h, rfl⟩
  cases call with
  | push value => exact ⟨_, rfl, _, h.push value, rfl⟩
  | pop =>
    cases m with
    | nil => exact ⟨stack, by rw [exec, h.pop_nil]; rfl, [], h, rfl⟩
    | cons x m =>
      obtain ⟨stack', hpop, hlinked⟩ := h.pop_cons
      exact ⟨stack', by rw [exec, hpop]; rfl, m, hlinked, rfl⟩
  | peek => exact ⟨stack, by rw [exec, h.peek]; rfl, m, h, rfl⟩
  | size =>
    refine ⟨stack, ?_, m, h, rfl⟩
    rw [exec, stackSize, h.size_eq]
    simp [StackCall.onList, values]

end Operations

/-- The nodes `l` of the stack and the list `stored` of the values it holds. -/
structure Integrity (stack : NodeStack) (l : List (Nat × Int)) (stored : List Int) : Prop where
  visits : Chain stack.heap stack.top l none
  distinct : (ids l).Nodup
  live : ∀ i, (stack.heap.cell i).isSome ↔ i ∈ ids l
  values_eq : values l = stored
  size_eq : stackSize stack = stored.length
  isEmpty_iff : stackIsEmpty stack = true ↔ stored = []
  destroyed : ∃ heap, stackDestroy stack = some heap ∧ ∀ i, heap.cell i = none

theorem Linked.integrity {stack : NodeStack} {l : List (Nat × Int)} (h : Linked l stack) :
    stack.Integrity l (values l) where
  visits := h.holds.chain
  distinct := h.holds.nodup
  live i := ⟨h.holds.live i, h.holds.chain.live⟩
  values_eq := rfl
  size_eq := by
    rw [values, List.length_map]
    exact h.size_eq
  isEmpty_iff := h.isEmpty_iff.trans List.map_eq_nil_iff.symm
  destroyed := h.destroy

/-- Every history of calls runs through, returns what the list returns, leaves an
intact stack of the values not popped yet, and that stack can be destroyed. -/
theorem run_lifo (calls : List StackCall) :
    ∃ stack l, Simulation.run exec calls stackCreate =
        some ((Simulation.specRun StackCall.onList calls []).1, stack) ∧
      stack.Integrity l (Simulation.specRun StackCall.onList calls []).2 := by
  obtain ⟨stack, hrun, l, hlinked, hvalues⟩ :=
    exec_forward.run calls (t := []) ⟨[], create_linked, rfl⟩
  exact ⟨stack, l, hrun, hvalues ▸ hlinked.integrity⟩

/-! The history of the schedulers is the list of the values on the nodes. -/

def Refines (nodes : NodeStack) (stack : Stack) : Prop :=
  ∃ l, Linked l nodes ∧ values l = stack.top ∧ nodes.size = stack.size

theorem create_refines : stackCreate.Refines MiniOS.stackCreate := ⟨[], create_linked, rfl, rfl⟩

theorem Refines.push {nodes : NodeStack} {stack : Stack} (h : nodes.Refines stack) (value : Int) :
    (stackPush nodes value).Refines (MiniOS.stackPush stack value) := by
  obtain ⟨l, hlinked, hvalues, hsize⟩ := h
  refine ⟨_, hlinked.push value, ?_, ?_⟩
  · rw [MiniOS.stackPush, ← hvalues]
    rfl
  · show nodes.size + 1 = ((stack.size + 1 : Nat) : Int)
    rw [hsize]
    rfl

theorem Refines.destroy {nodes : NodeStack} {stack : Stack} (h : nodes.Refines stack) :
    ∃ heap, stackDestroy nodes = some heap ∧ ∀ i, heap.cell i = none := by
  obtain ⟨l, hlinked, -⟩ := h
  exact hlinked.destroy

end NodeStack

end MiniOS
