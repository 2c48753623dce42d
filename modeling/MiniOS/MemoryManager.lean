import MiniOS.Cursor

/-! The memory manager: the block list in `next` order, the six allocators,
release, coalescing, compaction and the fragmentation measure. -/

namespace MiniOS

structure MemoryBlock where
  start : Int
  size : Int
  free : Bool
  pid : Int
  deriving DecidableEq, Repr

structure MemoryManager where
  head : List MemoryBlock
  totalMemory : Int
  deriving DecidableEq, Repr

def mmCreate (totalMemory : Int) : MemoryManager :=
  ⟨[⟨0, totalMemory, true, -1⟩], totalMemory⟩

/-- What stands in the list instead of `block` once `size` units of it were
taken: the occupied part and, if something is left, the free remainder. -/
def splitBlock (block : MemoryBlock) (size pid : Int) : List MemoryBlock :=
  let taken := { block with size := size, free := false, pid := pid }
  if block.size > size then [taken, ⟨block.start + size, block.size - size, true, -1⟩]
  else [taken]

def fits (size : Int) (cur : MemoryBlock) : Bool := cur.free && decide (cur.size ≥ size)

def smaller (cur best : MemoryBlock) : Bool := decide (cur.size < best.size)

def larger (cur worst : MemoryBlock) : Bool := decide (cur.size > worst.size)

def bruteForceFindBlock (mm : MemoryManager) (size : Int) : Option (Cursor mm.head) :=
  Cursor.first (fits size) mm.head

/-- The end of every allocator: `-1` without a block, else take the block. -/
def allocateAt (mm : MemoryManager) (size pid : Int) :
    Option (Cursor mm.head) → Int × MemoryManager
  | none => (-1, mm)
  | some cur => (cur.item.start, { mm with head := cur.replace (splitBlock cur.item size pid) })

def greedyFirstFit (mm : MemoryManager) (pid size : Int) : Int × MemoryManager :=
  allocateAt mm size pid (Cursor.first (fits size) mm.head)

def greedyBestFit (mm : MemoryManager) (pid size : Int) : Int × MemoryManager :=
  allocateAt mm size pid (Cursor.scan (fits size) smaller mm.head)

def greedyWorstFit (mm : MemoryManager) (pid size : Int) : Int × MemoryManager :=
  allocateAt mm size pid (Cursor.scan (fits size) larger mm.head)

def mmAllocateFirstFit (mm : MemoryManager) (size : Int) : Int × MemoryManager :=
  allocateAt mm size size (Cursor.first (fits size) mm.head)

def mmAllocateBestFit (mm : MemoryManager) (size : Int) : Int × MemoryManager :=
  allocateAt mm size size (Cursor.scan (fits size) smaller mm.head)

def mmAllocateWorstFit (mm : MemoryManager) (size : Int) : Int × MemoryManager :=
  allocateAt mm size size (Cursor.scan (fits size) larger mm.head)

/-- The loop of `mm_coalesce` at `cur`: absorb the next block and stay, or advance. -/
def coalesceFrom (cur : MemoryBlock) : List MemoryBlock → List MemoryBlock
  | [] => [cur]
  | next :: rest =>
    if cur.free && next.free then coalesceFrom { cur with size := cur.size + next.size } rest
    else cur :: coalesceFrom next rest

def coalesceBlocks : List MemoryBlock → List MemoryBlock
  | [] => []
  | cur :: rest => coalesceFrom cur rest

def mmCoalesce (mm : MemoryManager) : MemoryManager :=
  { mm with head := coalesceBlocks mm.head }

def markFree (pid : Int) (cur : MemoryBlock) : MemoryBlock :=
  if !cur.free && cur.pid == pid then { cur with free := true, pid := -1 } else cur

def mmFree (mm : MemoryManager) (pid : Int) : MemoryManager :=
  mmCoalesce { mm with head := mm.head.map (markFree pid) }

/-- First pass of `mm_compact`: occupied blocks slide down, and the final
value of `current_start` is returned beside the list. -/
def relocate : Int → List MemoryBlock → List MemoryBlock × Int
  | currentStart, [] => ([], currentStart)
  | currentStart, cur :: rest =>
    if cur.free then
      let r := relocate currentStart rest
      (cur :: r.1, r.2)
    else
      let r := relocate (currentStart + cur.size) rest
      ({ cur with start := currentStart } :: r.1, r.2)

/-- Second pass, at `cur`: only the block after `cur` is ever deleted. -/
def deleteFrom (cur : MemoryBlock) : List MemoryBlock → List MemoryBlock
  | [] => [cur]
  | next :: rest => if next.free then deleteFrom cur rest else cur :: deleteFrom next rest

def deleteFree : List MemoryBlock → List MemoryBlock
  | [] => []
  | cur :: rest => deleteFrom cur rest

def usedMemory (blocks : List MemoryBlock) : Int :=
  blocks.foldl (fun used cur => if cur.free then used else used + cur.size) 0

def mmCompact (mm : MemoryManager) : MemoryManager :=
  let moved := relocate 0 mm.head
  let kept := deleteFree moved.1
  let remaining := mm.totalMemory - usedMemory kept
  if remaining > 0 then { mm with head := kept ++ [⟨moved.2, remaining, true, -1⟩] }
  else { mm with head := kept }

def freeTotals (blocks : List MemoryBlock) : Int × Int :=
  blocks.foldl (fun acc cur =>
    if cur.free then (acc.1 + cur.size, if cur.size > acc.2 then cur.size else acc.2) else acc) (0, 0)

/-- `percent max_free total_free` stands for the floating-point expression
`(int)((1.0 - (double)max_free / total_free) * 100)`. -/
def mmFragmentation (percent : Int → Int → Int) (mm : MemoryManager) : Int :=
  let totals := freeTotals mm.head
  if totals.1 = 0 then 0 else percent totals.2 totals.1

inductive Allocator where
  | greedyFirstFit (pid : Int)
  | greedyBestFit (pid : Int)
  | greedyWorstFit (pid : Int)
  | mmAllocateFirstFit
  | mmAllocateBestFit
  | mmAllocateWorstFit
  deriving DecidableEq, Repr

def Allocator.call (mm : MemoryManager) (size : Int) : Allocator → Int × MemoryManager
  | .greedyFirstFit pid => MiniOS.greedyFirstFit mm pid size
  | .greedyBestFit pid => MiniOS.greedyBestFit mm pid size
  | .greedyWorstFit pid => MiniOS.greedyWorstFit mm pid size
  | .mmAllocateFirstFit => MiniOS.mmAllocateFirstFit mm size
  | .mmAllocateBestFit => MiniOS.mmAllocateBestFit mm size
  | .mmAllocateWorstFit => MiniOS.mmAllocateWorstFit mm size

def Allocator.tag (size : Int) : Allocator → Int
  | .greedyFirstFit pid | .greedyBestFit pid | .greedyWorstFit pid => pid
  | .mmAllocateFirstFit | .mmAllocateBestFit | .mmAllocateWorstFit => size

def Allocator.search (blocks : List MemoryBlock) (size : Int) : Allocator → Option (Cursor blocks)
  | .greedyFirstFit _ | .mmAllocateFirstFit => Cursor.first (fits size) blocks
  | .greedyBestFit _ | .mmAllocateBestFit => Cursor.scan (fits size) smaller blocks
  | .greedyWorstFit _ | .mmAllocateWorstFit => Cursor.scan (fits size) larger blocks

/-- All six allocators search, then split the block found and tag it. -/
theorem Allocator.call_eq (a : Allocator) (mm : MemoryManager) (size : Int) :
    a.call mm size = allocateAt mm size (a.tag size) (a.search mm.head size) := by
  cases a <;> rfl

inductive MmCall where
  | allocate (a : Allocator) (size : Int)
  | free (pid : Int)
  | coalesce
  | compact
  deriving DecidableEq, Repr

def MmCall.exec (mm : MemoryManager) : MmCall → MemoryManager
  | .allocate a size => (a.call mm size).2
  | .free pid => mmFree mm pid
  | .coalesce => mmCoalesce mm
  | .compact => mmCompact mm

def mmRun (calls : List MmCall) (mm : MemoryManager) : MemoryManager := calls.foldl MmCall.exec mm

example : (mmRun [.allocate (.greedyFirstFit 1) 200, .allocate (.greedyFirstFit 2) 100,
    .allocate (.greedyFirstFit 3) 100, .free 2, .free 3] (mmCreate 600)).head =
    [⟨0, 200, false, 1⟩, ⟨200, 400, true, -1⟩] := by decide

end MiniOS
