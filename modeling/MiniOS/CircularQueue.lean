import Mathlib.Data.Nat.ModEq
import Mathlib.Data.List.Basic

/-! The array-based circular queue and the list it stands for. -/

namespace MiniOS

structure CircularQueue where
  data : List Int
  head : Nat
  tail : Nat
  size : Nat
  capacity : Nat
  deriving DecidableEq, Repr

/-- Fresh cells are unspecified in the source and 0 here; none is read before
it was written. -/
def cqCreate (capacity : Int) : CircularQueue :=
  let capacity := if capacity ≤ 0 then 8 else capacity.toNat
  ⟨List.replicate capacity 0, 0, 0, 0, capacity⟩

def cqIsEmpty (cq : CircularQueue) : Bool := cq.size == 0

def cqIsFull (cq : CircularQueue) : Bool := cq.size == cq.capacity

def cqSize (cq : CircularQueue) : Nat := cq.size

def CircularQueue.cell (cq : CircularQueue) (i : Nat) : Int :=
  cq.data.getD ((cq.head + i) % cq.capacity) 0

def cqResize (cq : CircularQueue) : CircularQueue :=
  let newCap := cq.capacity * 2
  ⟨(List.range newCap).map (fun i => if i < cq.size then cq.cell i else 0), 0, cq.size, cq.size,
    newCap⟩

def cqEnqueue (cq : CircularQueue) (value : Int) : CircularQueue :=
  let cq := if cqIsFull cq then cqResize cq else cq
  { cq with
    data := cq.data.set cq.tail value
    tail := (cq.tail + 1) % cq.capacity
    size := cq.size + 1 }

def cqDequeue (cq : CircularQueue) : Int × CircularQueue :=
  if cqIsEmpty cq then (-1, cq)
  else (cq.data.getD cq.head 0,
    { cq with head := (cq.head + 1) % cq.capacity, size := cq.size - 1 })

def cqPeek (cq : CircularQueue) : Int := if cqIsEmpty cq then -1 else cq.data.getD cq.head 0

namespace CircularQueue

structure Valid (cq : CircularQueue) : Prop where
  length_data : cq.data.length = cq.capacity
  head_lt : cq.head < cq.capacity
  size_le : cq.size ≤ cq.capacity
  tail_eq : cq.tail = (cq.head + cq.size) % cq.capacity

def toList (cq : CircularQueue) : List Int := (List.range cq.size).map cq.cell

@[simp] theorem length_toList (cq : CircularQueue) : cq.toList.length = cq.size := by
  simp [toList]

theorem isEmpty_iff {cq : CircularQueue} : cqIsEmpty cq = true ↔ cq.toList = [] := by
  rw [cqIsEmpty, beq_iff_eq, ← List.length_eq_zero_iff, length_toList]

theorem create_valid (capacity : Int) : (cqCreate capacity).Valid := by
  have hpos : 0 < (if capacity ≤ 0 then 8 else capacity.toNat) := by
    split_ifs <;> omega
  exact ⟨by simp [cqCreate], hpos, Nat.zero_le _, by simp [cqCreate]⟩

theorem wrap_ne {h i n c : Nat} (hi : i < n) (hn : n < c) : (h + i) % c ≠ (h + n) % c := by
  intro he
  have hmod : i ≡ n [MOD c] := Nat.ModEq.add_left_cancel' h he
  have := hmod.eq_of_lt_of_lt (hi.trans hn) hn
  omega

theorem Valid.resize {cq : CircularQueue} (h : cq.Valid) : (cqResize cq).Valid := by
  have hhead := h.head_lt
  have hsize := h.size_le
  refine ⟨by simp [cqResize], ?_, ?_, ?_⟩
  · simp only [cqResize]
    omega
  · simp only [cqResize]
    omega
  · simp only [cqResize, Nat.zero_add]
    exact (Nat.mod_eq_of_lt (by omega)).symm

theorem Valid.resize_toList {cq : CircularQueue} (h : cq.Valid) :
    (cqResize cq).toList = cq.toList := by
  have hhead := h.head_lt
  have hsize := h.size_le
  apply List.map_congr_left
  intro i hi
  have hi' : i < cq.size := by simpa [cqResize] using hi
  have hlt : i < cq.capacity * 2 := by omega
  simp only [cell, cqResize, Nat.zero_add, Nat.mod_eq_of_lt hlt]
  simp [List.getD_eq_getElem?_getD, hlt, hi']

theorem Valid.write {cq : CircularQueue} (h : cq.Valid) (hroom : cq.size < cq.capacity) (value : Int) :
    let cq' : CircularQueue := { cq with
      data := cq.data.set cq.tail value
      tail := (cq.tail + 1) % cq.capacity
      size := cq.size + 1 }
    cq'.Valid ∧ cq'.toList = cq.toList ++ [value] := by
  intro cq'
  constructor
  · refine ⟨by simpa [cq'] using h.length_data, h.head_lt, hroom, ?_⟩
    simp only [cq', h.tail_eq, Nat.mod_add_mod, Nat.add_assoc]
  · have htail : cq.tail < cq.data.length := by
      rw [h.length_data, h.tail_eq]
      exact Nat.mod_lt _ (by have := h.head_lt; omega)
    have hlast : cq'.cell cq.size = value := by
      simp only [cell, cq', ← h.tail_eq]
      simp [List.getD_eq_getElem?_getD, htail]
    have hold : ∀ i ∈ List.range cq.size, cq'.cell i = cq.cell i := by
      intro i hi
      have hne := wrap_ne (List.mem_range.mp hi) hroom (h := cq.head)
      rw [← h.tail_eq] at hne
      simp only [cell, cq']
      simp [List.getD_eq_getElem?_getD, List.getElem?_set_ne hne.symm]
    rw [toList, show cq'.size = cq.size + 1 from rfl, List.range_succ, List.map_append,
      List.map_congr_left hold, List.map_singleton, hlast, toList]

theorem Valid.enqueue {cq : CircularQueue} (h : cq.Valid) (value : Int) :
    (cqEnqueue cq value).Valid ∧ (cqEnqueue cq value).toList = cq.toList ++ [value] := by
  by_cases hf : cqIsFull cq = true
  · have hhead := h.head_lt
    have hsize := h.size_le
    have hroom : (cqResize cq).size < (cqResize cq).capacity := by
      simp only [cqResize]
      omega
    have hw := h.resize.write hroom value
    rw [h.resize_toList] at hw
    simp only [cqEnqueue, hf, if_true]
    exact hw
  · have hroom : cq.size < cq.capacity := by
      have hsize := h.size_le
      simp only [cqIsFull, beq_iff_eq] at hf
      omega
    simp only [cqEnqueue, hf]
    exact h.write hroom value

theorem enqueue_capacity {cq : CircularQueue} (h : cqIsFull cq = false) (value : Int) :
    (cqEnqueue cq value).capacity = cq.capacity := by
  simp [cqEnqueue, h]

@[simp] theorem dequeue_capacity (cq : CircularQueue) : (cqDequeue cq).2.capacity = cq.capacity := by
  by_cases h : cqIsEmpty cq = true <;> simp [cqDequeue, h]

theorem Valid.dequeue {cq : CircularQueue} (h : cq.Valid) (hne : cqIsEmpty cq = false) :
    (cqDequeue cq).2.Valid ∧ cq.toList = (cqDequeue cq).1 :: (cqDequeue cq).2.toList := by
  have hpos : cq.size ≠ 0 := by simpa [cqIsEmpty] using hne
  have hhead := h.head_lt
  have hsize := h.size_le
  simp only [cqDequeue, hne, Bool.false_eq_true, if_false]
  constructor
  · refine ⟨h.length_data, Nat.mod_lt _ (by omega), by simp only; omega, ?_⟩
    simp only [Nat.mod_add_mod, h.tail_eq]
    congr 1
    omega
  · obtain ⟨n, hn⟩ : ∃ n, cq.size = n + 1 := ⟨cq.size - 1, by omega⟩
    have hfirst : cq.cell 0 = cq.data.getD cq.head 0 := by
      simp only [cell, Nat.add_zero, Nat.mod_eq_of_lt hhead]
    simp only [toList, hn, List.range_succ_eq_map, List.map_cons, hfirst, List.map_map,
      Nat.add_sub_cancel]
    congr 1
    apply List.map_congr_left
    intro i _
    simp only [Function.comp_apply, cell, Nat.mod_add_mod]
    congr 2
    omega

end CircularQueue

end MiniOS
