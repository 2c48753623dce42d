import MiniOS.LinkedHeap
import MiniOS.MemoryManager

/-! The memory manager on the heap: each block a node with its two links, each
function the sequence of link updates it makes. A loop may run for at most `fuel`
iterations; a null or dangling pointer has no result. -/

namespace MiniOS

open LinkedHeap

structure NodeManager where
  head : Ptr
  heap : Heap MemoryBlock
  totalMemory : Int

namespace NodeManager

def mmCreate (totalMemory : Int) : NodeManager :=
  let (block, heap) := Heap.empty.malloc ⟨⟨0, totalMemory, true, -1⟩, none, none⟩
  ⟨block, heap, totalMemory⟩

/-- Also the split written out in each of the three `greedy_*` functions. -/
def splitBlock (h : Heap MemoryBlock) (block : Ptr) (size pid : Int) : Option (Heap MemoryBlock) := do
  let b ← h.read block
  let h ← if b.data.size > size then
      h.insertAfter block ⟨b.data.start + size, b.data.size - size, true, -1⟩
    else some h
  let b ← h.read block
  h.setData block { b.data with size := size, free := false, pid := pid }

def allocateAt (mm : NodeManager) (size pid : Int) : Ptr → Option (Int × NodeManager)
  | none => some (-1, mm)
  | some i => do
    let heap ← splitBlock mm.heap (some i) size pid
    let b ← heap.read (some i)
    some (b.data.start, { mm with heap := heap })

def findFirst (fuel : Nat) (mm : NodeManager) (size : Int) : Option Ptr :=
  findFrom mm.heap (fits size) fuel mm.head

def findPreferred (replaces : MemoryBlock → MemoryBlock → Bool) (fuel : Nat) (mm : NodeManager)
    (size : Int) : Option Ptr :=
  scanFrom mm.heap (fits size) replaces fuel none mm.head

def greedyFirstFit (fuel : Nat) (mm : NodeManager) (pid size : Int) : Option (Int × NodeManager) := do
  let cur ← findFirst fuel mm size
  allocateAt mm size pid cur

def greedyBestFit (fuel : Nat) (mm : NodeManager) (pid size : Int) : Option (Int × NodeManager) := do
  let best ← findPreferred smaller fuel mm size
  allocateAt mm size pid best

def greedyWorstFit (fuel : Nat) (mm : NodeManager) (pid size : Int) : Option (Int × NodeManager) := do
  let worst ← findPreferred larger fuel mm size
  allocateAt mm size pid worst

def mmAllocateFirstFit (fuel : Nat) (mm : NodeManager) (size : Int) : Option (Int × NodeManager) := do
  let cur ← findFirst fuel mm size
  allocateAt mm size size cur

def mmAllocateBestFit (fuel : Nat) (mm : NodeManager) (size : Int) : Option (Int × NodeManager) := do
  let best ← findPreferred smaller fuel mm size
  allocateAt mm size size best

def mmAllocateWorstFit (fuel : Nat) (mm : NodeManager) (size : Int) : Option (Int × NodeManager) := do
  let worst ← findPreferred larger fuel mm size
  allocateAt mm size size worst

def call (fuel : Nat) (mm : NodeManager) (size : Int) : Allocator → Option (Int × NodeManager)
  | .greedyFirstFit pid => greedyFirstFit fuel mm pid size
  | .greedyBestFit pid => greedyBestFit fuel mm pid size
  | .greedyWorstFit pid => greedyWorstFit fuel mm pid size
  | .mmAllocateFirstFit => mmAllocateFirstFit fuel mm size
  | .mmAllocateBestFit => mmAllocateBestFit fuel mm size
  | .mmAllocateWorstFit => mmAllocateWorstFit fuel mm size

def search (fuel : Nat) (mm : NodeManager) (size : Int) : Allocator → Option Ptr
  | .greedyFirstFit _ | .mmAllocateFirstFit => findFirst fuel mm size
  | .greedyBestFit _ | .mmAllocateBestFit => findPreferred smaller fuel mm size
  | .greedyWorstFit _ | .mmAllocateWorstFit => findPreferred larger fuel mm size

theorem call_eq (fuel : Nat) (mm : NodeManager) (size : Int) (a : Allocator) :
    call fuel mm size a = (search fuel mm size a).bind (allocateAt mm size (a.tag size)) := by
  cases a <;> rfl

/-- The loop of `mm_coalesce` from the node `cur` on. -/
def coalesceLoop : Nat → Heap MemoryBlock → Nat → Option (Heap MemoryBlock)
  | 0, h, cur => do
    let c ← h.cell cur
    if c.next = none then some h else none
  | fuel + 1, h, cur => do
    let c ← h.cell cur
    match c.next with
    | none => some h
    | some next => do
      let n ← h.cell next
      if c.data.free && n.data.free then
        let h ← h.setData (some cur) { c.data with size := c.data.size + n.data.size }
        let h ← h.removeAfter (some cur)
        coalesceLoop fuel h cur
      else coalesceLoop fuel h next

def mmCoalesce (fuel : Nat) (mm : NodeManager) : Option NodeManager :=
  match mm.head with
  | none => some mm
  | some cur => do
    let heap ← coalesceLoop fuel mm.heap cur
    some { mm with heap := heap }

def mmFree (fuel : Nat) (mm : NodeManager) (pid : Int) : Option NodeManager := do
  let (heap, _) ← traverse (fun (_ : Unit) b => (markFree pid b, ())) fuel mm.heap mm.head ()
  mmCoalesce fuel { mm with heap := heap }

/-- The second pass of `mm_compact` from the node `cur` on. -/
def deleteLoop : Nat → Heap MemoryBlock → Nat → Option (Heap MemoryBlock)
  | 0, h, cur => do
    let c ← h.cell cur
    if c.next = none then some h else none
  | fuel + 1, h, cur => do
    let c ← h.cell cur
    match c.next with
    | none => some h
    | some next => do
      let n ← h.cell next
      if n.data.free then
        let h ← h.removeAfter (some cur)
        deleteLoop fuel h cur
      else deleteLoop fuel h next

def relocateStep (currentStart : Int) (cur : MemoryBlock) : MemoryBlock × Int :=
  if cur.free then (cur, currentStart)
  else ({ cur with start := currentStart }, currentStart + cur.size)

def usedStep (used : Int) (cur : MemoryBlock) : Int := if cur.free then used else used + cur.size

def mmCompact (fuel : Nat) (mm : NodeManager) : Option NodeManager := do
  let (heap, currentStart) ← traverse relocateStep fuel mm.heap mm.head 0
  let heap ← match mm.head with
    | none => some heap
    | some cur => deleteLoop fuel heap cur
  let used ← foldFrom heap usedStep fuel mm.head 0
  let remaining := mm.totalMemory - used
  if remaining > 0 then
    -- `prev` is not set yet in the source; both branches set it
    let (freeBlock, heap) := heap.malloc ⟨⟨currentStart, remaining, true, -1⟩, none, none⟩
    match mm.head with
    | none => do
      let heap ← heap.setPrev freeBlock none
      some { mm with head := freeBlock, heap := heap }
    | some cur => do
      let tail ← lastFrom heap fuel cur
      let heap ← heap.linkLast tail freeBlock
      some { mm with heap := heap }
  else some { mm with heap := heap }

/-- The nodes that are left. -/
def mmDestroy (fuel : Nat) (mm : NodeManager) : Option (Heap MemoryBlock) :=
  freeFrom fuel mm.heap mm.head

def exec (fuel : Nat) (mm : NodeManager) : MmCall → Option NodeManager
  | .allocate a size => (call fuel mm size a).map Prod.snd
  | .free pid => mmFree fuel mm pid
  | .coalesce => mmCoalesce fuel mm
  | .compact => mmCompact fuel mm

def run (fuel : Nat) (calls : List MmCall) (mm : NodeManager) : Option NodeManager :=
  calls.foldlM (exec fuel) mm

end NodeManager

end MiniOS
