import MiniOS.CircularQueueRuns
import MiniOS.Simulation

/-! The circular queue on cells that hold nothing until they are written, as `malloc`
leaves them, and the number of elements `cq_resize` copied so far. -/

namespace MiniOS

open ArrayAccess

structure CellQueue where
  data : List (Option Int)
  head : Nat
  tail : Nat
  size : Nat
  capacity : Nat
  copies : Nat

/-- A cell outside the array and a cell not written yet have no value. -/
def load (data : List (Option Int)) (i : Int) : Option Int := (read data i).join

namespace CellQueue

def cqCreate (capacity : Int) : CellQueue :=
  let capacity := if capacity ≤ 0 then 8 else capacity.toNat
  ⟨List.replicate capacity none, 0, 0, 0, capacity, 0⟩

def cqIsEmpty (cq : CellQueue) : Bool := cq.size == 0

def cqIsFull (cq : CellQueue) : Bool := cq.size == cq.capacity

def cqResizeCopy (cq : CellQueue) (copy : List (Option Int) × Nat) (i : Nat) :
    Option (List (Option Int) × Nat) := do
  let value ← load cq.data ((cq.head + i) % cq.capacity)
  let newData ← write copy.1 i (some value)
  some (newData, copy.2 + 1)

def cqResize (cq : CellQueue) : Option CellQueue := do
  let newCap := cq.capacity * 2
  let (newData, copies) ← (List.range cq.size).foldlM (cqResizeCopy cq)
    (List.replicate newCap none, cq.copies)
  some ⟨newData, 0, cq.size, cq.size, newCap, copies⟩

def cqEnqueue (cq : CellQueue) (value : Int) : Option CellQueue := do
  let cq ← if cqIsFull cq then cqResize cq else some cq
  let data ← write cq.data cq.tail (some value)
  some { cq with data := data, tail := (cq.tail + 1) % cq.capacity, size := cq.size + 1 }

def cqDequeue (cq : CellQueue) : Option (Int × CellQueue) :=
  if cqIsEmpty cq then some (-1, cq)
  else do
    let value ← load cq.data cq.head
    some (value, { cq with head := (cq.head + 1) % cq.capacity, size := cq.size - 1 })

def exec (cq : CellQueue) : QueueCall → Option (Option Int × CellQueue)
  | .enqueue value => (cqEnqueue cq value).map (fun cq => (none, cq))
  | .dequeue => (cqDequeue cq).map (fun r => (some r.1, r.2))

/-- The cells between head and tail are written, with the elements of `queue`. -/
structure Loaded (cq : CellQueue) (queue : CircularQueue) : Prop where
  valid : queue.Valid
  head_eq : cq.head = queue.head
  tail_eq : cq.tail = queue.tail
  size_eq : cq.size = queue.size
  capacity_eq : cq.capacity = queue.capacity
  length_data : cq.data.length = queue.capacity
  element : ∀ i < queue.size, load cq.data ((queue.head + i) % queue.capacity : Nat) =
    some (queue.cell i)

theorem load_natCast (data : List (Option Int)) (i : Nat) : load data i = data[i]?.join := by
  rw [load, ArrayAccess.read, if_pos (Int.natCast_nonneg i), Int.toNat_natCast]

section Operations

variable {cq : CellQueue} {queue : CircularQueue}

theorem create_loaded (capacity : Int) : (cqCreate capacity).Loaded (MiniOS.cqCreate capacity) where
  valid := CircularQueue.create_valid capacity
  head_eq := rfl
  tail_eq := rfl
  size_eq := rfl
  capacity_eq := rfl
  length_data := List.length_replicate
  element := by
    intro i hi
    cases hi

theorem Loaded.isEmpty_eq (h : cq.Loaded queue) : cqIsEmpty cq = MiniOS.cqIsEmpty queue := by
  rw [cqIsEmpty, MiniOS.cqIsEmpty, h.size_eq]

theorem Loaded.isFull_eq (h : cq.Loaded queue) : cqIsFull cq = MiniOS.cqIsFull queue := by
  rw [cqIsFull, MiniOS.cqIsFull, h.size_eq, h.capacity_eq]

theorem Loaded.resize (h : cq.Loaded queue) :
    ∃ cq', cqResize cq = some cq' ∧ cq'.Loaded (MiniOS.cqResize queue) ∧
      cq'.copies = cq.copies + queue.size := by
  have hsize := h.valid.size_le
  have hhead := h.valid.head_lt
  let copied (k : Nat) : List (Option Int) × Nat :=
    ((List.range (queue.capacity * 2)).map (fun i => if i < k then some (queue.cell i) else none),
      cq.copies + k)
  have hcopy : ∀ k < queue.size, cqResizeCopy cq (copied k) k = some (copied (k + 1)) := by
    intro k hk
    have hread : load cq.data (((cq.head : Int) + k) % cq.capacity) = some (queue.cell k) := by
      rw [h.head_eq, h.capacity_eq]
      exact h.element k hk
    simp only [cqResizeCopy, hread, Option.bind_eq_bind, Option.bind_some, copied]
    rw [write_map_range _ (by omega), Option.bind_some, Nat.add_assoc]
    congr 2
    apply List.map_congr_left
    intro i _
    rcases Nat.lt_trichotomy i k with hi | rfl | hi
    · rw [if_neg (by omega), if_pos hi, if_pos (by omega)]
    · rw [if_pos rfl, if_pos (Nat.lt_succ_self i)]
    · rw [if_neg (by omega), if_neg (by omega), if_neg (by omega)]
  have hstart : (List.replicate (cq.capacity * 2) none, cq.copies) = copied 0 := by
    simp [copied, h.capacity_eq]
  have hloop := foldlM_range copied hcopy
  refine ⟨⟨(copied queue.size).1, 0, cq.size, cq.size, cq.capacity * 2, (copied queue.size).2⟩, ?_,
    ?_, rfl⟩
  · rw [cqResize, hstart, h.size_eq, hloop]
    rfl
  · refine ⟨h.valid.resize, rfl, h.size_eq, h.size_eq, congrArg (· * 2) h.capacity_eq, ?_, ?_⟩
    · simp [copied, MiniOS.cqResize]
    · intro i hi
      have hi' : i < queue.size := hi
      have hlist := h.valid.resize_toList
      have hcell := List.map_inj_left.mp hlist i (List.mem_range.mpr hi)
      have hroom : i < queue.capacity * 2 := by omega
      have hindex : (0 + i) % (queue.capacity * 2) = i := by
        rw [Nat.zero_add, Nat.mod_eq_of_lt hroom]
      rw [hcell, load_natCast]
      show (copied queue.size).1[(0 + i) % (queue.capacity * 2)]?.join = _
      rw [hindex]
      simp [copied, hi', hroom]

theorem Loaded.write (h : cq.Loaded queue) (hroom : queue.size < queue.capacity) (value : Int) :
    ∃ data, ArrayAccess.write cq.data cq.tail (some value) = some data ∧
      Loaded { cq with data := data, tail := (cq.tail + 1) % cq.capacity, size := cq.size + 1 }
        { queue with
          data := queue.data.set queue.tail value
          tail := (queue.tail + 1) % queue.capacity
          size := queue.size + 1 } := by
  obtain ⟨hvalid, hlist⟩ := h.valid.write hroom value
  have htail : queue.tail < queue.capacity := by
    rw [h.valid.tail_eq]
    exact Nat.mod_lt _ (Nat.zero_lt_of_lt h.valid.head_lt)
  refine ⟨cq.data.set queue.tail (some value), ?_, hvalid, h.head_eq, ?_, ?_, h.capacity_eq, ?_, ?_⟩
  · rw [ArrayAccess.write, h.tail_eq, if_pos ⟨by omega, by rw [h.length_data]; omega⟩,
      Int.toNat_natCast]
  · show (cq.tail + 1) % cq.capacity = (queue.tail + 1) % queue.capacity
    rw [h.tail_eq, h.capacity_eq]
  · exact congrArg (· + 1) h.size_eq
  · simpa using h.length_data
  · intro i hi
    rw [CircularQueue.toList, CircularQueue.toList, List.range_succ, List.map_append] at hlist
    obtain ⟨hold, hlast⟩ := List.append_inj hlist (by simp)
    rw [load_natCast]
    rcases Nat.lt_succ_iff_lt_or_eq.mp hi with hi | rfl
    · have hne := CircularQueue.wrap_ne hi hroom (h := queue.head)
      rw [← h.valid.tail_eq] at hne
      rw [List.map_inj_left.mp hold i (List.mem_range.mpr hi), List.getElem?_set_ne hne.symm,
        ← load_natCast]
      exact h.element i hi
    · rw [List.head_eq_of_cons_eq hlast, ← h.valid.tail_eq]
      simp [h.length_data, htail]

theorem Loaded.enqueue (h : cq.Loaded queue) (value : Int) :
    ∃ cq', cqEnqueue cq value = some cq' ∧ cq'.Loaded (MiniOS.cqEnqueue queue value) ∧
      (cq'.copies = cq.copies ∧ cq'.capacity = cq.capacity ∨
        cq.size = cq.capacity ∧ cq'.copies = cq.copies + cq.size ∧
          cq'.capacity = cq.capacity * 2) := by
  have hsize := h.valid.size_le
  have hhead := h.valid.head_lt
  by_cases hfull : MiniOS.cqIsFull queue = true
  · have heq : queue.size = queue.capacity := by simpa [MiniOS.cqIsFull] using hfull
    obtain ⟨mid, hresize, hmid, hcopies⟩ := h.resize
    have hroom : (MiniOS.cqResize queue).size < (MiniOS.cqResize queue).capacity := by
      simp only [MiniOS.cqResize]
      omega
    obtain ⟨data, hwrite, hloaded⟩ := hmid.write hroom value
    refine ⟨{ mid with data := data, tail := (mid.tail + 1) % mid.capacity, size := mid.size + 1 },
      ?_, ?_, Or.inr ⟨?_, hcopies.trans (by rw [h.size_eq]), ?_⟩⟩
    · simp only [cqEnqueue, h.isFull_eq, if_pos hfull, hresize, Option.bind_eq_bind,
        Option.bind_some, hwrite]
    · rw [MiniOS.cqEnqueue, if_pos hfull]
      exact hloaded
    · rw [h.size_eq, h.capacity_eq, heq]
    · show mid.capacity = cq.capacity * 2
      rw [hmid.capacity_eq, h.capacity_eq]
      rfl
  · have hroom : queue.size < queue.capacity := by
      simp only [MiniOS.cqIsFull, beq_iff_eq] at hfull
      omega
    obtain ⟨data, hwrite, hloaded⟩ := h.write hroom value
    refine ⟨{ cq with data := data, tail := (cq.tail + 1) % cq.capacity, size := cq.size + 1 },
      ?_, ?_, Or.inl ⟨rfl, rfl⟩⟩
    · simp only [cqEnqueue, h.isFull_eq, if_neg hfull, Option.bind_eq_bind, Option.bind_some,
        hwrite]
    · rw [MiniOS.cqEnqueue, if_neg hfull]
      exact hloaded

theorem Loaded.dequeue (h : cq.Loaded queue) :
    ∃ cq', cqDequeue cq = some ((MiniOS.cqDequeue queue).1, cq') ∧
      cq'.Loaded (MiniOS.cqDequeue queue).2 ∧ cq'.size ≤ cq.size ∧ cq'.copies = cq.copies ∧
      cq'.capacity = cq.capacity := by
  by_cases hempty : MiniOS.cqIsEmpty queue = true
  · refine ⟨cq, ?_, ?_, Nat.le_refl _, rfl, rfl⟩
    · rw [cqDequeue, h.isEmpty_eq, if_pos hempty, MiniOS.cqDequeue, if_pos hempty]
    · rw [MiniOS.cqDequeue, if_pos hempty]
      exact h
  · have hne : MiniOS.cqIsEmpty queue = false := Bool.eq_false_iff.mpr hempty
    have hpos : queue.size ≠ 0 := by simpa [MiniOS.cqIsEmpty] using hempty
    have hhead := h.valid.head_lt
    have hindex : (queue.head + 0) % queue.capacity = queue.head := Nat.mod_eq_of_lt hhead
    have hread : load cq.data cq.head = some (queue.data.getD queue.head 0) := by
      have hfirst := h.element 0 (Nat.pos_of_ne_zero hpos)
      rw [CircularQueue.cell, hindex] at hfirst
      rwa [h.head_eq]
    refine ⟨{ cq with head := (cq.head + 1) % cq.capacity, size := cq.size - 1 }, ?_, ?_,
      Nat.sub_le _ _, rfl, rfl⟩
    · rw [cqDequeue, h.isEmpty_eq, if_neg hempty, hread, MiniOS.cqDequeue, if_neg hempty]
      rfl
    · have hvalid := (h.valid.dequeue hne).1
      rw [MiniOS.cqDequeue, if_neg hempty] at hvalid ⊢
      refine ⟨hvalid, ?_, h.tail_eq, congrArg (· - 1) h.size_eq, h.capacity_eq, h.length_data, ?_⟩
      · show (cq.head + 1) % cq.capacity = (queue.head + 1) % queue.capacity
        rw [h.head_eq, h.capacity_eq]
      · intro i hi
        have hi' : i + 1 < queue.size := by
          simp only at hi
          omega
        have hcell := h.element (i + 1) hi'
        have hmod : ((queue.head + 1) % queue.capacity + i) % queue.capacity =
            (queue.head + (i + 1)) % queue.capacity := by
          rw [Nat.mod_add_mod, Nat.add_assoc, Nat.add_comm 1 i]
        simp only [CircularQueue.cell] at hcell ⊢
        rw [hmod]
        exact hcell

end Operations

def isEnqueue : QueueCall → Bool
  | .enqueue _ => true
  | .dequeue => false

/-- Each doubling copied as many elements as it added cells, and found no more than the
`enqueues` inserted so far. -/
structure Paid (initial enqueues : Nat) (cq : CellQueue) : Prop where
  size_le : cq.size ≤ enqueues
  capacity_eq : cq.capacity = initial + cq.copies
  doubled : cq.copies = 0 ∨ cq.capacity ≤ 2 * enqueues

theorem Loaded.run {cq : CellQueue} {queue : CircularQueue} {initial enqueues : Nat}
    (h : cq.Loaded queue) (hpaid : cq.Paid initial enqueues) (calls : List QueueCall) :
    ∃ cq' queue', Simulation.run exec calls cq = some ((listRun calls queue.toList).1, cq') ∧
      cq'.Loaded queue' ∧ queue'.toList = (listRun calls queue.toList).2 ∧
      cq'.Paid initial (enqueues + calls.countP isEnqueue) := by
  induction calls generalizing cq queue enqueues with
  | nil => exact ⟨cq, queue, rfl, h, rfl, hpaid⟩
  | cons call calls ih =>
    have hstep : ∃ next queue', exec cq call = some ((call.onList queue.toList).1, next) ∧
        next.Loaded queue' ∧ queue'.toList = (call.onList queue.toList).2 ∧
        next.Paid initial (enqueues + if isEnqueue call then 1 else 0) := by
      obtain ⟨hle, hcap, hdoubled⟩ := hpaid
      cases call with
      | enqueue value =>
        obtain ⟨next, hrun, hnext, hcopies⟩ := h.enqueue value
        have hsize : next.size = cq.size + 1 := by
          have hlist := congrArg List.length (h.valid.enqueue value).2
          rw [CircularQueue.length_toList, List.length_append, CircularQueue.length_toList,
            List.length_singleton] at hlist
          rw [hnext.size_eq, hlist, h.size_eq]
        refine ⟨next, _, by rw [exec, hrun]; rfl, hnext, (h.valid.enqueue value).2, ?_, ?_, ?_⟩
        · rw [isEnqueue, if_pos rfl]
          omega
        · omega
        · rw [isEnqueue, if_pos rfl]
          omega
      | dequeue =>
        obtain ⟨next, hrun, hnext, hsize, hcopies, hcap'⟩ := h.dequeue
        obtain ⟨queue', hspec, -, hlist⟩ := QueueCall.exec_eq h.valid .dequeue
        rw [QueueCall.exec, h.valid.dequeueChecked, Option.map_some, Option.some_inj,
          Prod.mk.injEq] at hspec
        obtain ⟨hout, rfl⟩ := hspec
        refine ⟨next, _, ?_, hnext, hlist, ?_, ?_, ?_⟩
        · rw [exec, hrun, ← hout]
          rfl
        · rw [isEnqueue, if_neg Bool.false_ne_true]
          omega
        · omega
        · rw [isEnqueue, if_neg Bool.false_ne_true]
          omega
    obtain ⟨next, queue', hexec, hnext, hlist, hpaid'⟩ := hstep
    obtain ⟨final, queue'', hrun, hfinal, hlist', hpaid''⟩ := ih hnext hpaid'
    rw [hlist] at hrun hlist'
    refine ⟨final, queue'', ?_, hfinal, hlist', ?_⟩
    · simp only [Simulation.run, hexec, Option.bind_eq_bind, Option.bind_some, hrun]
      rfl
    · rw [List.countP_cons, Nat.add_comm (List.countP _ _), ← Nat.add_assoc]
      exact hpaid''

/-- No history of calls reads a cell that was not written, and all its resizes together
copy at most two elements for each one inserted. -/
theorem run_copies (capacity : Int) (calls : List QueueCall) :
    ∃ cq queue, Simulation.run exec calls (cqCreate capacity) =
        some ((listRun calls []).1, cq) ∧
      cq.Loaded queue ∧ queue.toList = (listRun calls []).2 ∧
      cq.capacity = (cqCreate capacity).capacity + cq.copies ∧
      cq.copies ≤ 2 * calls.countP isEnqueue := by
  have hstart : (cqCreate capacity).Paid (cqCreate capacity).capacity 0 :=
    ⟨Nat.le_refl 0, rfl, Or.inl rfl⟩
  obtain ⟨cq, queue, hrun, hloaded, hlist, -, hcapacity, hdoubled⟩ :=
    (create_loaded capacity).run hstart calls
  rw [Nat.zero_add] at hdoubled
  exact ⟨cq, queue, hrun, hloaded, hlist, hcapacity, by omega⟩

end CellQueue

end MiniOS
