import MiniOS.Simulation
import Mathlib.Data.List.Nodup
import Mathlib.Data.List.Perm.Subperm
import Mathlib.Logic.Function.Basic

/-! Singly linked lists in a heap of nodes: what a heap that holds one list looks
like, nodes linked in and taken out, the loops that follow `next` and the loop
that frees every node. -/

namespace SingleLinks

variable {α : Type*}

/-- The address of a node; `none` is the null pointer. -/
abbrev Ptr := Option Nat

structure Node (α : Type*) where
  value : α
  next : Ptr
  deriving DecidableEq, Repr

/-- The nodes allocated and not yet freed, and the next address to hand out. -/
structure Heap (α : Type*) where
  cell : Nat → Option (Node α)
  fresh : Nat

namespace Heap

def empty : Heap α := ⟨fun _ => none, 0⟩

/-- Reading through a pointer that is null or dangling has no result. -/
def read (h : Heap α) (p : Ptr) : Option (Node α) := p.bind h.cell

def put (h : Heap α) (i : Nat) (c : Option (Node α)) : Heap α :=
  { h with cell := Function.update h.cell i c }

def malloc (h : Heap α) (c : Node α) : Ptr × Heap α :=
  (some h.fresh, { h.put h.fresh (some c) with fresh := h.fresh + 1 })

def setNext (h : Heap α) (p q : Ptr) : Option (Heap α) :=
  p.bind (fun i => (h.cell i).map (fun c => h.put i (some { c with next := q })))

def free (h : Heap α) (p : Ptr) : Option (Heap α) :=
  p.bind (fun i => (h.cell i).map (fun _ => h.put i none))

variable {h : Heap α} {i j : Nat} {c : Node α} {d : Option (Node α)}

@[simp] theorem put_cell_same : (h.put i d).cell i = d := Function.update_self ..

@[simp] theorem put_cell_of_ne (hne : j ≠ i) : (h.put i d).cell j = h.cell j :=
  Function.update_of_ne hne ..

@[simp] theorem malloc_fst : (h.malloc c).1 = some h.fresh := rfl

@[simp] theorem malloc_cell_same : (h.malloc c).2.cell h.fresh = some c := Function.update_self ..

@[simp] theorem malloc_cell_of_ne (hne : j ≠ h.fresh) : (h.malloc c).2.cell j = h.cell j :=
  Function.update_of_ne hne ..

theorem setNext_eq (hc : h.cell i = some c) (q : Ptr) :
    h.setNext (some i) q = some (h.put i (some { c with next := q })) := by
  rw [setNext, Option.bind_some, hc, Option.map_some]

theorem free_eq (hc : h.cell i = some c) : h.free (some i) = some (h.put i none) := by
  rw [free, Option.bind_some, hc, Option.map_some]

end Heap

def ids (l : List (Nat × α)) : List Nat := l.map Prod.fst

def values (l : List (Nat × α)) : List α := l.map Prod.snd

/-- Following `next` from `p` visits the nodes of `l`, which hold its values, and
arrives at `stop`. -/
def Chain (h : Heap α) : Ptr → List (Nat × α) → Ptr → Prop
  | p, [], stop => p = stop
  | p, x :: l, stop => p = some x.1 ∧ ∃ next, h.cell x.1 = some ⟨x.2, next⟩ ∧ Chain h next l stop

section Chains

variable {h h' : Heap α} {p stop : Ptr} {l m : List (Nat × α)} {x : Nat × α}

@[simp] theorem ids_cons (x : Nat × α) (l : List (Nat × α)) : ids (x :: l) = x.1 :: ids l := rfl

@[simp] theorem ids_append (l m : List (Nat × α)) : ids (l ++ m) = ids l ++ ids m := List.map_append

@[simp] theorem values_nil : values ([] : List (Nat × α)) = [] := rfl

@[simp] theorem values_cons (x : Nat × α) (l : List (Nat × α)) :
    values (x :: l) = x.2 :: values l := rfl

@[simp] theorem values_append (l m : List (Nat × α)) : values (l ++ m) = values l ++ values m :=
  List.map_append

@[simp] theorem values_length (l : List (Nat × α)) : (values l).length = l.length :=
  List.length_map _

theorem Chain.append :
    Chain h p (l ++ m) stop ↔ ∃ mid, Chain h p l mid ∧ Chain h mid m stop := by
  induction l generalizing p with
  | nil => simp [Chain]
  | cons x l ih =>
    constructor
    · rintro ⟨hp, next, hx, hrest⟩
      obtain ⟨mid, hl, hm⟩ := ih.mp hrest
      exact ⟨mid, ⟨hp, next, hx, hl⟩, hm⟩
    · rintro ⟨mid, ⟨hp, next, hx, hl⟩, hm⟩
      exact ⟨hp, next, hx, ih.mpr ⟨mid, hl, hm⟩⟩

theorem Chain.congr (hl : Chain h p l stop) (he : ∀ i ∈ ids l, h'.cell i = h.cell i) :
    Chain h' p l stop := by
  induction l generalizing p with
  | nil => exact hl
  | cons x l ih =>
    obtain ⟨hp, next, hx, hrest⟩ := hl
    obtain ⟨hhead, htail⟩ := List.forall_mem_cons.mp he
    exact ⟨hp, next, hhead.trans hx, ih hrest htail⟩

theorem Chain.live (hl : Chain h p l stop) {i : Nat} (hi : i ∈ ids l) : (h.cell i).isSome := by
  induction l generalizing p with
  | nil => cases hi
  | cons x l ih =>
    obtain ⟨-, next, hx, hrest⟩ := hl
    rcases List.mem_cons.mp hi with rfl | hi
    · rw [hx]
      rfl
    · exact ih hrest hi

theorem Chain.cell_of_mem (hl : Chain h p l stop) (hx : x ∈ l) :
    ∃ next, h.cell x.1 = some ⟨x.2, next⟩ := by
  induction l generalizing p with
  | nil => cases hx
  | cons y l ih =>
    obtain ⟨-, next, hy, hrest⟩ := hl
    rcases List.mem_cons.mp hx with rfl | hx
    · exact ⟨next, hy⟩
    · exact ih hrest hx

theorem Chain.eq_nil (hl : Chain h none l stop) : l = [] := by
  cases l with
  | nil => rfl
  | cons x l => cases hl.1

theorem Chain.last_cell (hl : Chain h p (l ++ [x]) stop) : h.cell x.1 = some ⟨x.2, stop⟩ := by
  obtain ⟨mid, -, -, next, hx, rfl⟩ := Chain.append.mp hl
  exact hx

end Chains

/-- From `front` the heap holds the list `l`, and nothing else. -/
structure Holds (h : Heap α) (front : Ptr) (l : List (Nat × α)) : Prop where
  chain : Chain h front l none
  nodup : (ids l).Nodup
  live : ∀ i, (h.cell i).isSome → i ∈ ids l
  fresh : ∀ i ∈ ids l, i < h.fresh

namespace Holds

variable {h : Heap α} {front : Ptr} {l pre : List (Nat × α)} {x : Nat × α}

theorem empty : Holds (Heap.empty : Heap α) none [] where
  chain := rfl
  nodup := List.nodup_nil
  live i hi := by cases hi
  fresh i hi := by cases hi

theorem front_none_iff (hh : Holds h front l) : front = none ↔ l = [] := by
  constructor
  · rintro rfl
    exact hh.chain.eq_nil
  · rintro rfl
    exact hh.chain

theorem singleton (hh : Holds h none []) (a : α) :
    Holds (h.malloc ⟨a, none⟩).2 (some h.fresh) [(h.fresh, a)] where
  chain := ⟨rfl, none, Heap.malloc_cell_same, rfl⟩
  nodup := List.nodup_singleton _
  live := by
    intro i hi
    by_contra hne
    rw [Heap.malloc_cell_of_ne (fun he => hne (he ▸ List.mem_cons_self))] at hi
    cases hh.live i hi
  fresh := by
    intro i hi
    obtain rfl := List.mem_singleton.mp hi
    exact Nat.lt_succ_self _

/-- A new node behind the last one: `last->next = node`. -/
theorem linkLast (hh : Holds h front (pre ++ [x])) (a : α) :
    ∃ h', (h.malloc ⟨a, none⟩).2.setNext (some x.1) (some h.fresh) = some h' ∧
      Holds h' front (pre ++ [x, (h.fresh, a)]) := by
  have hold : ∀ i ∈ ids (pre ++ [x]), i ≠ h.fresh := fun i hi => Nat.ne_of_lt (hh.fresh i hi)
  have hx : x.1 ≠ h.fresh := hold x.1 (by simp)
  have hlast : (h.malloc ⟨a, none⟩).2.cell x.1 = some ⟨x.2, none⟩ := by
    rw [Heap.malloc_cell_of_ne hx]
    exact hh.chain.last_cell
  have hids : ids (pre ++ [x, (h.fresh, a)]) = ids (pre ++ [x]) ++ [h.fresh] := by
    simp [ids]
  have hcell : ∀ i, i ≠ x.1 → i ≠ h.fresh →
      ((h.malloc ⟨a, none⟩).2.put x.1 (some ⟨x.2, some h.fresh⟩)).cell i = h.cell i := by
    intro i hi hi'
    rw [Heap.put_cell_of_ne hi, Heap.malloc_cell_of_ne hi']
  refine ⟨_, Heap.setNext_eq hlast (some h.fresh), ?_, ?_, ?_, ?_⟩
  · obtain ⟨mid, hpre, hmid, -⟩ := Chain.append.mp hh.chain
    refine Chain.append.mpr ⟨mid, hpre.congr ?_, hmid, some h.fresh, Heap.put_cell_same, rfl, none,
      ?_, rfl⟩
    · intro i hi
      have hnd := hh.nodup
      rw [ids_append, List.nodup_append] at hnd
      exact hcell i (hnd.2.2 i hi x.1 (by simp)) (hold i (by simp [hi]))
    · rw [Heap.put_cell_of_ne hx.symm, Heap.malloc_cell_same]
  · rw [hids]
    refine List.nodup_append.mpr ⟨hh.nodup, List.nodup_singleton _, ?_⟩
    intro i hi j hj
    rw [List.mem_singleton.mp hj]
    exact hold i hi
  · intro i hi
    rw [hids, List.mem_append]
    by_cases hnew : i = h.fresh
    · exact Or.inr (List.mem_singleton.mpr hnew)
    · left
      by_cases hix : i = x.1
      · rw [hix]
        simp
      · rw [hcell i hix hnew] at hi
        exact hh.live i hi
  · intro i hi
    rw [hids, List.mem_append, List.mem_singleton] at hi
    show i < h.fresh + 1
    rcases hi with hi | rfl
    · exact Nat.lt_succ_of_lt (hh.fresh i hi)
    · exact Nat.lt_succ_self _

theorem takeFirst (hh : Holds h front (x :: l)) :
    ∃ c h', front = some x.1 ∧ h.read front = some c ∧ c.value = x.2 ∧ h.free front = some h' ∧
      Holds h' c.next l := by
  obtain ⟨hfront, next, hx, hrest⟩ := hh.chain
  obtain ⟨hnot, hnd⟩ := List.nodup_cons.mp hh.nodup
  refine ⟨⟨x.2, next⟩, h.put x.1 none, hfront, ?_, rfl, ?_, ?_, hnd, ?_, ?_⟩
  · rw [hfront]
    exact hx
  · rw [hfront]
    exact Heap.free_eq hx
  · exact hrest.congr (fun i hi => Heap.put_cell_of_ne (ne_of_mem_of_not_mem hi hnot))
  · intro i hi
    have hne : i ≠ x.1 := by
      rintro rfl
      rw [Heap.put_cell_same] at hi
      cases hi
    rw [Heap.put_cell_of_ne hne] at hi
    exact (List.mem_cons.mp (hh.live i hi)).resolve_left hne
  · exact fun i hi => hh.fresh i (List.mem_cons_of_mem _ hi)

theorem length_le_fresh (hh : Holds h front l) : l.length ≤ h.fresh := by
  have hsub : ids l ⊆ List.range h.fresh := fun i hi => List.mem_range.mpr (hh.fresh i hi)
  have hle := (List.subperm_of_subset hh.nodup hsub).length_le
  rwa [ids, List.length_map, List.length_range] at hle

/-- The next address holds a node in front of the first one. -/
theorem pushed {h' : Heap α} (hh : Holds h front l) {a : α}
    (hnew : h'.cell h.fresh = some ⟨a, front⟩) (hold : ∀ i, i ≠ h.fresh → h'.cell i = h.cell i)
    (hfresh : h'.fresh = h.fresh + 1) : Holds h' (some h.fresh) ((h.fresh, a) :: l) where
  chain := ⟨rfl, front, hnew, hh.chain.congr (fun i hi => hold i (Nat.ne_of_lt (hh.fresh i hi)))⟩
  nodup := List.nodup_cons.mpr ⟨fun hin => Nat.lt_irrefl _ (hh.fresh _ hin), hh.nodup⟩
  live := by
    intro i hi
    by_cases hne : i = h.fresh
    · exact hne ▸ List.mem_cons_self
    · rw [hold i hne] at hi
      exact List.mem_cons_of_mem _ (hh.live i hi)
  fresh := by
    intro i hi
    rw [hfresh]
    rcases List.mem_cons.mp hi with rfl | hi
    · exact Nat.lt_succ_self _
    · exact Nat.lt_succ_of_lt (hh.fresh i hi)

/-- The next address holds a node between `x` and what followed it. -/
theorem inserted {h' : Heap α} {post : List (Nat × α)} {next : Ptr}
    (hh : Holds h front (pre ++ x :: post)) {a : α} (hcell : h.cell x.1 = some ⟨x.2, next⟩)
    (hx : h'.cell x.1 = some ⟨x.2, some h.fresh⟩) (hnew : h'.cell h.fresh = some ⟨a, next⟩)
    (hold : ∀ i, i ≠ x.1 → i ≠ h.fresh → h'.cell i = h.cell i) (hfresh : h'.fresh = h.fresh + 1) :
    Holds h' front (pre ++ x :: (h.fresh, a) :: post) := by
  have hlt : ∀ i ∈ ids (pre ++ x :: post), i ≠ h.fresh := fun i hi => Nat.ne_of_lt (hh.fresh i hi)
  have hperm : (ids (pre ++ x :: (h.fresh, a) :: post)).Perm
      (h.fresh :: ids (pre ++ x :: post)) := by
    have hmid : ((ids pre ++ [x.1]) ++ h.fresh :: ids post).Perm
        (h.fresh :: ((ids pre ++ [x.1]) ++ ids post)) := List.perm_middle
    simpa using hmid
  obtain ⟨mid, hpre, hmid, next', hx', hpost⟩ := Chain.append.mp hh.chain
  obtain rfl : next = next' := by
    rw [hcell] at hx'
    simpa using hx'
  have hnd := hh.nodup
  rw [ids_append, ids_cons, List.nodup_middle, List.nodup_cons, List.mem_append, not_or] at hnd
  simp only [ids_append, ids_cons, List.mem_append, List.mem_cons] at hlt
  constructor
  case chain =>
    refine Chain.append.mpr ⟨mid, hpre.congr ?_, hmid, some h.fresh, hx, rfl, next, hnew,
      hpost.congr ?_⟩
    · exact fun i hi => hold i (ne_of_mem_of_not_mem hi hnd.1.1) (hlt i (Or.inl hi))
    · exact fun i hi => hold i (ne_of_mem_of_not_mem hi hnd.1.2) (hlt i (Or.inr (Or.inr hi)))
  case nodup =>
    rw [hperm.nodup_iff, List.nodup_cons]
    exact ⟨fun hin => Nat.lt_irrefl _ (hh.fresh _ hin), hh.nodup⟩
  case live =>
    intro i hi
    rw [hperm.mem_iff, List.mem_cons]
    by_cases hne : i = h.fresh
    · exact Or.inl hne
    · by_cases hix : i = x.1
      · right
        simp [hix]
      · rw [hold i hix hne] at hi
        exact Or.inr (hh.live i hi)
  case fresh =>
    intro i hi
    rw [hperm.mem_iff, List.mem_cons] at hi
    rw [hfresh]
    rcases hi with rfl | hi
    · exact Nat.lt_succ_self _
    · exact Nat.lt_succ_of_lt (hh.fresh i hi)

/-- A node of its own, linked in behind `x`: `node->next = x->next; x->next = node`. -/
theorem linkAfter {post : List (Nat × α)} (hh : Holds h front (pre ++ x :: post)) (a : α) :
    ∃ c h₁ h₂, (h.malloc ⟨a, none⟩).2.read (some x.1) = some c ∧
      (h.malloc ⟨a, none⟩).2.setNext (some h.fresh) c.next = some h₁ ∧
      h₁.setNext (some x.1) (some h.fresh) = some h₂ ∧
      Holds h₂ front (pre ++ x :: (h.fresh, a) :: post) := by
  have hx : x.1 ≠ h.fresh := Nat.ne_of_lt (hh.fresh x.1 (by simp))
  obtain ⟨mid, -, -, next, hcell, -⟩ := Chain.append.mp hh.chain
  have hold : (h.malloc ⟨a, none⟩).2.cell x.1 = some ⟨x.2, next⟩ := by
    rw [Heap.malloc_cell_of_ne hx, hcell]
  have hlinked : ((h.malloc ⟨a, none⟩).2.put h.fresh (some ⟨a, next⟩)).cell x.1 =
      some ⟨x.2, next⟩ := by
    rw [Heap.put_cell_of_ne hx, hold]
  refine ⟨⟨x.2, next⟩, _, _, hold, Heap.setNext_eq Heap.malloc_cell_same next,
    Heap.setNext_eq hlinked (some h.fresh), hh.inserted hcell Heap.put_cell_same ?_ ?_ rfl⟩
  · rw [Heap.put_cell_of_ne hx.symm, Heap.put_cell_same]
  · intro i hi hi'
    rw [Heap.put_cell_of_ne hi, Heap.put_cell_of_ne hi', Heap.malloc_cell_of_ne hi']

/-- The node behind `x` leaves the list: `tmp = x->next; x->next = tmp->next; free(tmp)`. -/
theorem unlinkAfter {y : Nat × α} {post : List (Nat × α)}
    (hh : Holds h front (pre ++ x :: y :: post)) :
    ∃ c d h₁ h₂, h.read (some x.1) = some c ∧ c.next = some y.1 ∧ h.read (some y.1) = some d ∧
      h.setNext (some x.1) d.next = some h₁ ∧ h₁.free (some y.1) = some h₂ ∧
      Holds h₂ front (pre ++ x :: post) := by
  have hnd := hh.nodup
  rw [ids_append, ids_cons, List.nodup_middle, List.nodup_cons, List.mem_append, not_or,
    ids_cons, List.mem_cons, not_or, List.nodup_middle, List.nodup_cons, List.mem_append,
    not_or] at hnd
  obtain ⟨⟨hx, hxy, hx'⟩, ⟨hy, hy'⟩, hnd⟩ := hnd
  obtain ⟨mid, hpre, hmid, next, hcell, hnext, next', hcell', hpost⟩ := Chain.append.mp hh.chain
  subst hnext
  have hlast : (h.put x.1 (some ⟨x.2, next'⟩)).cell y.1 = some ⟨y.2, next'⟩ := by
    rw [Heap.put_cell_of_ne (Ne.symm hxy), hcell']
  refine ⟨⟨x.2, some y.1⟩, ⟨y.2, next'⟩, _, _, hcell, rfl, hcell', Heap.setNext_eq hcell next',
    Heap.free_eq hlast, ?_, ?_, ?_, ?_⟩
  · refine Chain.append.mpr ⟨mid, hpre.congr ?_, hmid, next', ?_, hpost.congr ?_⟩
    · intro i hi
      rw [Heap.put_cell_of_ne (ne_of_mem_of_not_mem hi hy),
        Heap.put_cell_of_ne (ne_of_mem_of_not_mem hi hx)]
    · rw [Heap.put_cell_of_ne hxy, Heap.put_cell_same]
    · intro i hi
      rw [Heap.put_cell_of_ne (ne_of_mem_of_not_mem hi hy'),
        Heap.put_cell_of_ne (ne_of_mem_of_not_mem hi hx')]
  · rw [ids_append, ids_cons, List.nodup_middle, List.nodup_cons, List.mem_append, not_or]
    exact ⟨⟨hx, hx'⟩, hnd⟩
  · intro i hi
    have hiy : i ≠ y.1 := by
      rintro rfl
      rw [Heap.put_cell_same] at hi
      cases hi
    rw [Heap.put_cell_of_ne hiy] at hi
    have hin : i ∈ ids (pre ++ x :: y :: post) := by
      by_cases hix : i = x.1
      · simp [hix]
      · rw [Heap.put_cell_of_ne hix] at hi
        exact hh.live i hi
    simp only [ids_append, ids_cons, List.mem_append, List.mem_cons] at hin ⊢
    tauto
  · intro i hi
    refine hh.fresh i ?_
    simp only [ids_append, ids_cons, List.mem_append, List.mem_cons] at hi ⊢
    tauto

end Holds

/-! Loops over the nodes, `fuel` being the number of iterations allowed. -/

section Loops

/-- `while (cur->next != NULL && ok(cur->next)) cur = cur->next`, from the node `i`. -/
def walk (ok : α → Bool) (h : Heap α) : Nat → Nat → Option Nat
  | 0, _ => none
  | fuel + 1, i => (h.cell i).bind (fun c =>
      match c.next with
      | none => some i
      | some j => (h.cell j).bind (fun d => if ok d.value then walk ok h fuel j else some i))

/-- `while (cur) { if (ok(cur)) return cur; cur = cur->next; }` -/
def findFrom (ok : α → Bool) (h : Heap α) : Nat → Ptr → Option Ptr
  | _, none => some none
  | 0, some _ => none
  | fuel + 1, some i => (h.cell i).bind (fun c =>
      if ok c.value then some (some i) else findFrom ok h fuel c.next)

/-- `while (cur) { tmp = cur->next; free(cur); cur = tmp; }` -/
def freeFrom : Nat → Heap α → Ptr → Option (Heap α)
  | _, h, none => some h
  | 0, _, some _ => none
  | fuel + 1, h, some i => do
    let c ← h.cell i
    let h ← h.free (some i)
    freeFrom fuel h c.next

variable {h : Heap α} {p stop : Ptr} {l : List (Nat × α)} {x : Nat × α} {fuel : Nat}

/-- The walk ends at the last of the nodes that pass the test without a gap. -/
theorem Chain.walk_eq (hl : Chain h p (x :: l) none) (hfuel : l.length < fuel) (ok : α → Bool) :
    ∃ pre y, x :: l.takeWhile (fun z => ok z.2) = pre ++ [y] ∧ walk ok h fuel x.1 = some y.1 := by
  induction l generalizing p x fuel with
  | nil =>
    obtain ⟨n, rfl⟩ : ∃ n, fuel = n + 1 := ⟨fuel - 1, by omega⟩
    obtain ⟨-, next, hx, rfl⟩ := hl
    exact ⟨[], x, rfl, by simp [walk, hx]⟩
  | cons y l ih =>
    obtain ⟨n, rfl⟩ : ∃ n, fuel = n + 1 := ⟨fuel - 1, by omega⟩
    obtain ⟨-, next, hx, hrest⟩ := hl
    obtain ⟨rfl, next', hy, -⟩ := id hrest
    by_cases hok : ok y.2 = true
    · obtain ⟨pre, z, hsplit, hwalk⟩ := ih hrest (Nat.lt_of_succ_lt_succ hfuel)
      refine ⟨x :: pre, z, ?_, ?_⟩
      · rw [List.takeWhile_cons_of_pos (p := fun z : Nat × α => ok z.2) hok, hsplit]
        rfl
      · simp only [walk, hx, Option.bind_some, hy, hok, if_true]
        exact hwalk
    · refine ⟨[], x, ?_, ?_⟩
      · rw [List.takeWhile_cons_of_neg (p := fun z : Nat × α => ok z.2) hok]
        rfl
      · simp [walk, hx, hy, hok]

theorem Chain.walk_split (hl : Chain h p (x :: l) none) (hfuel : l.length < fuel) (ok : α → Bool) :
    ∃ pre y rest, x :: l = pre ++ y :: rest ∧
      values (pre ++ [y]) = x.2 :: (values l).takeWhile ok ∧
      values rest = (values l).dropWhile ok ∧ walk ok h fuel x.1 = some y.1 := by
  obtain ⟨pre, y, hsplit, hwalk⟩ := hl.walk_eq hfuel ok
  refine ⟨pre, y, l.dropWhile (fun z => ok z.2), ?_, ?_, List.dropWhile_map.symm, hwalk⟩
  · calc x :: l = (x :: l.takeWhile (fun z => ok z.2)) ++ l.dropWhile (fun z => ok z.2) := by
          rw [List.cons_append, List.takeWhile_append_dropWhile]
      _ = pre ++ y :: l.dropWhile (fun z => ok z.2) := by
          rw [hsplit, List.append_assoc, List.singleton_append]
  · rw [← hsplit]
    exact congrArg (x.2 :: ·) List.takeWhile_map.symm

theorem Chain.findFrom_eq (hl : Chain h p l none) (hfuel : l.length ≤ fuel) (ok : α → Bool) :
    findFrom ok h fuel p = some ((l.find? (fun x => ok x.2)).map Prod.fst) := by
  induction l generalizing p fuel with
  | nil =>
    obtain rfl : p = none := hl
    cases fuel <;> rfl
  | cons x l ih =>
    obtain ⟨n, rfl⟩ : ∃ n, fuel = n + 1 := ⟨fuel - 1, by rw [List.length_cons] at hfuel; omega⟩
    obtain ⟨rfl, next, hx, hrest⟩ := hl
    have htail := ih hrest (Nat.le_of_succ_le_succ hfuel)
    by_cases hok : ok x.2 = true
    · rw [List.find?_cons_of_pos (p := fun x : Nat × α => ok x.2) hok]
      simp [findFrom, hx, hok]
    · rw [List.find?_cons_of_neg (p := fun x : Nat × α => ok x.2) hok, ← htail]
      simp [findFrom, hx, hok]

theorem Holds.freeFrom_eq (hh : Holds h p l) (hfuel : l.length ≤ fuel) :
    ∃ h', freeFrom fuel h p = some h' ∧ Holds h' none [] := by
  induction l generalizing h p fuel with
  | nil =>
    obtain rfl : p = none := hh.chain
    exact ⟨h, by cases fuel <;> rfl, hh⟩
  | cons x l ih =>
    obtain ⟨n, rfl⟩ : ∃ n, fuel = n + 1 := ⟨fuel - 1, by rw [List.length_cons] at hfuel; omega⟩
    obtain ⟨c, h₁, rfl, hread, -, hfree, hrest⟩ := hh.takeFirst
    obtain ⟨h', hrun, hempty⟩ := ih hrest (Nat.le_of_succ_le_succ hfuel)
    refine ⟨h', ?_, hempty⟩
    have hcell : h.cell x.1 = some c := hread
    simp only [freeFrom, hcell, Option.bind_eq_bind, Option.bind_some, hfree]
    exact hrun

theorem Holds.none_live (hh : Holds h none []) (i : Nat) : h.cell i = none := by
  rw [← Option.not_isSome_iff_eq_none]
  intro hi
  cases hh.live i hi

/-- A record that holds such a list, taken off node by node until its first pointer is null. -/
theorem drains {σ : Type*} {heap : σ → Heap α} {front : σ → Ptr} {take : σ → Option σ}
    {P : List (Nat × α) → σ → Prop}
    (hholds : ∀ l s, P l s → Holds (heap s) (front s) l)
    (htake : ∀ x l s, P (x :: l) s → ∃ s', take s = some s' ∧ P l s')
    {l : List (Nat × α)} {s : σ} (h : P l s) :
    ∃ final, WhileLoop.afterM (fun s => !(front s).isNone) take (heap s).fresh s = some final ∧
      (front final).isNone = true ∧ ∀ i, (heap final).cell i = none := by
  have hnil : ∀ s, P [] s → (!(front s).isNone) = false := by
    intro s hs
    simp [(hholds [] s hs).front_none_iff.mpr rfl]
  have hcons : ∀ x l s, P (x :: l) s →
      (!(front s).isNone) = true ∧ ∃ s', take s = some s' ∧ P l s' := by
    intro x l s hs
    have hne : front s ≠ none :=
      fun hnone => List.cons_ne_nil x l ((hholds _ s hs).front_none_iff.mp hnone)
    rw [Option.not_isNone]
    exact ⟨Option.isSome_iff_ne_none.mpr hne, htake x l s hs⟩
  obtain ⟨final, hrun, hfinal⟩ :=
    WhileLoop.afterM_drains hnil hcons h (hholds l s h).length_le_fresh
  have hheld := hholds [] final hfinal
  have hnone := hheld.front_none_iff.mpr rfl
  rw [hnone] at hheld
  exact ⟨final, hrun, by rw [hnone]; rfl, hheld.none_live⟩

end Loops

end SingleLinks
