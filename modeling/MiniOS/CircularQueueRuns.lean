import MiniOS.ArrayAccess
import MiniOS.CircularQueue

/-! The circular queue over whole histories of calls, its array accesses checked
against the bounds of the array: it does what a plain list does. -/

namespace MiniOS

open ArrayAccess

/-- One iteration of the copy loop of `cq_resize`. -/
def cqResizeCopy (cq : CircularQueue) (newData : List Int) (i : Nat) : Option (List Int) := do
  let value ← read cq.data ((cq.head + i) % cq.capacity)
  write newData i value

def cqResizeChecked (cq : CircularQueue) : Option CircularQueue := do
  let newCap := cq.capacity * 2
  let newData ← (List.range cq.size).foldlM (cqResizeCopy cq) (List.replicate newCap 0)
  some ⟨newData, 0, cq.size, cq.size, newCap⟩

def cqEnqueueChecked (cq : CircularQueue) (value : Int) : Option CircularQueue := do
  let cq ← if cqIsFull cq then cqResizeChecked cq else some cq
  let data ← write cq.data cq.tail value
  some { cq with data := data, tail := (cq.tail + 1) % cq.capacity, size := cq.size + 1 }

def cqDequeueChecked (cq : CircularQueue) : Option (Int × CircularQueue) :=
  if cqIsEmpty cq then some (-1, cq)
  else do
    let value ← read cq.data cq.head
    some (value, { cq with head := (cq.head + 1) % cq.capacity, size := cq.size - 1 })

def cqPeekChecked (cq : CircularQueue) : Option Int :=
  if cqIsEmpty cq then some (-1) else read cq.data cq.head

namespace CircularQueue.Valid

variable {cq : CircularQueue}

theorem read_cell (h : cq.Valid) (i : Nat) :
    ArrayAccess.read cq.data ((cq.head + i) % cq.capacity) = some (cq.cell i) := by
  have hlt : (cq.head + i) % cq.capacity < cq.data.length := by
    rw [h.length_data]
    exact Nat.mod_lt _ (Nat.zero_lt_of_lt h.head_lt)
  have hindex : ((cq.head : Int) + i) % cq.capacity = ((cq.head + i) % cq.capacity : Nat) := rfl
  rw [hindex, ArrayAccess.read, if_pos (Int.natCast_nonneg _), Int.toNat_natCast, cell]
  simp [hlt]

theorem read_head (h : cq.Valid) :
    ArrayAccess.read cq.data cq.head = some (cq.data.getD cq.head 0) := by
  have hlt : cq.head < cq.data.length := h.length_data ▸ h.head_lt
  simp [ArrayAccess.read, hlt]

/-- The new array once the first `k` elements were copied. -/
def copied (cq : CircularQueue) (k : Nat) : List Int :=
  (List.range (cq.capacity * 2)).map (fun i => if i < k then cq.cell i else 0)

theorem resizeCopy (h : cq.Valid) {k : Nat} (hk : k < cq.size) :
    cqResizeCopy cq (copied cq k) k = some (copied cq (k + 1)) := by
  have hroom : k < cq.capacity * 2 := by
    have := h.size_le
    omega
  rw [cqResizeCopy, h.read_cell, Option.bind_eq_bind, Option.bind_some, copied,
    write_map_range _ hroom, copied]
  congr 1
  apply List.map_congr_left
  intro i _
  rcases Nat.lt_trichotomy i k with hi | rfl | hi
  · rw [if_neg (by omega), if_pos hi, if_pos (by omega)]
  · rw [if_pos rfl, if_pos (Nat.lt_succ_self i)]
  · rw [if_neg (by omega), if_neg (by omega), if_neg (by omega)]

theorem resizeChecked (h : cq.Valid) : cqResizeChecked cq = some (cqResize cq) := by
  have hloop := foldlM_range (copied cq) (fun k hk => h.resizeCopy hk)
  have hstart : List.replicate (cq.capacity * 2) 0 = copied cq 0 := by
    simp [copied]
  rw [cqResizeChecked, hstart, hloop]
  rfl

theorem writeChecked (h : cq.Valid) (value : Int) :
    ArrayAccess.write cq.data cq.tail value = some (cq.data.set cq.tail value) := by
  have hlt : cq.tail < cq.data.length := by
    rw [h.length_data, h.tail_eq]
    exact Nat.mod_lt _ (Nat.zero_lt_of_lt h.head_lt)
  rw [ArrayAccess.write, if_pos ⟨by omega, by omega⟩]
  rfl

theorem enqueueChecked (h : cq.Valid) (value : Int) :
    cqEnqueueChecked cq value = some (cqEnqueue cq value) := by
  by_cases hfull : cqIsFull cq = true
  · simp only [cqEnqueueChecked, cqEnqueue, hfull, if_true, Option.bind_eq_bind, h.resizeChecked,
      Option.bind_some, h.resize.writeChecked]
  · simp [cqEnqueueChecked, cqEnqueue, hfull, h.writeChecked]

theorem dequeueChecked (h : cq.Valid) : cqDequeueChecked cq = some (cqDequeue cq) := by
  by_cases hempty : cqIsEmpty cq = true
  · simp [cqDequeueChecked, cqDequeue, hempty]
  · simp [cqDequeueChecked, cqDequeue, hempty, h.read_head]

theorem peekChecked (h : cq.Valid) : cqPeekChecked cq = some (cqPeek cq) := by
  by_cases hempty : cqIsEmpty cq = true
  · simp [cqPeekChecked, cqPeek, hempty]
  · simp [cqPeekChecked, cqPeek, hempty, h.read_head]

end CircularQueue.Valid

inductive QueueCall where
  | enqueue (value : Int)
  | dequeue
  deriving DecidableEq, Repr

/-- The value a call returns, if it returns one, and the queue after it. -/
def QueueCall.exec (cq : CircularQueue) : QueueCall → Option (Option Int × CircularQueue)
  | .enqueue value => (cqEnqueueChecked cq value).map (fun cq => (none, cq))
  | .dequeue => (cqDequeueChecked cq).map (fun r => (some r.1, r.2))

def QueueCall.onList (l : List Int) : QueueCall → Option Int × List Int
  | .enqueue value => (none, l ++ [value])
  | .dequeue => (some (l.headD (-1)), l.tail)

def cqRun : List QueueCall → CircularQueue → Option (List (Option Int) × CircularQueue)
  | [], cq => some ([], cq)
  | call :: calls, cq => do
    let (result, cq) ← call.exec cq
    let (results, cq) ← cqRun calls cq
    some (result :: results, cq)

def listRun : List QueueCall → List Int → List (Option Int) × List Int
  | [], l => ([], l)
  | call :: calls, l =>
    let r := call.onList l
    let rest := listRun calls r.2
    (r.1 :: rest.1, rest.2)

theorem QueueCall.exec_eq {cq : CircularQueue} (h : cq.Valid) (call : QueueCall) :
    ∃ cq', call.exec cq = some ((call.onList cq.toList).1, cq') ∧ cq'.Valid ∧
      cq'.toList = (call.onList cq.toList).2 := by
  cases call with
  | enqueue value =>
    obtain ⟨hvalid, hlist⟩ := h.enqueue value
    exact ⟨cqEnqueue cq value, by rw [exec, h.enqueueChecked]; rfl, hvalid, hlist⟩
  | dequeue =>
    refine ⟨(cqDequeue cq).2, ?_⟩
    rw [exec, h.dequeueChecked, Option.map_some, onList]
    by_cases hempty : cqIsEmpty cq = true
    · have hnil := CircularQueue.isEmpty_iff.mp hempty
      have hstay : cqDequeue cq = (-1, cq) := by simp [cqDequeue, hempty]
      rw [hstay, hnil]
      exact ⟨rfl, h, rfl⟩
    · obtain ⟨hvalid, hlist⟩ := h.dequeue (Bool.eq_false_iff.mpr hempty)
      rw [hlist]
      exact ⟨rfl, hvalid, rfl⟩

theorem CircularQueue.Valid.run {cq : CircularQueue} (h : cq.Valid) (calls : List QueueCall) :
    ∃ cq', cqRun calls cq = some ((listRun calls cq.toList).1, cq') ∧ cq'.Valid ∧
      cq'.toList = (listRun calls cq.toList).2 := by
  induction calls generalizing cq with
  | nil => exact ⟨cq, rfl, h, rfl⟩
  | cons call calls ih =>
    obtain ⟨next, hexec, hvalid, hlist⟩ := call.exec_eq h
    obtain ⟨last, hrun, hvalid', hlist'⟩ := ih hvalid
    rw [hlist] at hrun hlist'
    refine ⟨last, ?_, hvalid', hlist'⟩
    simp only [cqRun, hexec, Option.bind_eq_bind, Option.bind_some, hrun]
    rfl

/-- How the fields of the queue hold the list `l`, and what its readers return. -/
structure CircularQueue.Holds (cq : CircularQueue) (l : List Int) : Prop where
  size_le : cq.size ≤ cq.capacity
  head_lt : cq.head < cq.capacity
  tail_eq : cq.tail = (cq.head + cq.size) % cq.capacity
  length_data : cq.data.length = cq.capacity
  element : ∀ i < cq.size, read cq.data ((cq.head + i) % cq.capacity) = l[i]?
  peek_eq : cqPeekChecked cq = some (l.headD (-1))
  size_eq : cqSize cq = l.length
  isEmpty_iff : cqIsEmpty cq = true ↔ l = []
  dequeue_empty : l = [] → cqDequeueChecked cq = some (-1, cq)

theorem CircularQueue.Valid.holds {cq : CircularQueue} (h : cq.Valid) : cq.Holds cq.toList where
  size_le := h.size_le
  head_lt := h.head_lt
  tail_eq := h.tail_eq
  length_data := h.length_data
  element := by
    intro i hi
    rw [h.read_cell, toList, List.getElem?_map, List.getElem?_range hi]
    rfl
  peek_eq := by
    rw [h.peekChecked]
    by_cases hempty : cqIsEmpty cq = true
    · rw [cqPeek, if_pos hempty, CircularQueue.isEmpty_iff.mp hempty]
      rfl
    · have hlist := (h.dequeue (Bool.eq_false_iff.mpr hempty)).2
      rw [hlist]
      simp [cqPeek, cqDequeue, hempty]
  size_eq := (length_toList cq).symm
  isEmpty_iff := CircularQueue.isEmpty_iff
  dequeue_empty := by
    intro hnil
    rw [cqDequeueChecked, if_pos (CircularQueue.isEmpty_iff.mpr hnil)]

/-- For every capacity and history: no access leaves the array, the results are
those of the list, and the queue holds that list. -/
theorem cqRun_refines (capacity : Int) (calls : List QueueCall) :
    ∃ cq, cqRun calls (cqCreate capacity) = some ((listRun calls []).1, cq) ∧
      cq.Holds (listRun calls []).2 := by
  have hvalid := CircularQueue.create_valid capacity
  have hnil : (cqCreate capacity).toList = [] := rfl
  obtain ⟨cq, hrun, hcq, hlist⟩ := hvalid.run calls
  rw [hnil] at hrun hlist
  exact ⟨cq, hrun, hlist ▸ hcq.holds⟩

example : (cqRun [.enqueue 4, .enqueue 5, .dequeue, .enqueue 6, .enqueue 7, .dequeue, .dequeue,
    .dequeue, .dequeue] (cqCreate 2)).map (fun r => r.1.filterMap id) =
    some [4, 5, 6, 7, -1] := by decide

end MiniOS
