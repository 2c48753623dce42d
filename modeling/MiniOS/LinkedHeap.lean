import MiniOS.Cursor
import Mathlib.Data.List.Nodup
import Mathlib.Logic.Function.Basic

/-! Doubly linked lists in a heap of nodes: what a heap that holds a list looks
like, and the edits of the links that take one list to another. -/

namespace LinkedHeap

variable {α β : Type*}

/-- The address of a node; `none` is the null pointer. -/
abbrev Ptr := Option Nat

structure Node (α : Type*) where
  data : α
  next : Ptr
  prev : Ptr
  deriving DecidableEq, Repr

/-- The nodes allocated and not yet freed, and the next address to hand out. -/
structure Heap (α : Type*) where
  cell : Nat → Option (Node α)
  fresh : Nat

namespace Heap

def empty : Heap α := ⟨fun _ => none, 0⟩

def set (h : Heap α) (i : Nat) (c : Node α) : Heap α :=
  { h with cell := Function.update h.cell i (some c) }

/-- Reading through a pointer that is null or dangling has no result. -/
def read (h : Heap α) (p : Ptr) : Option (Node α) := p.bind h.cell

def modify (h : Heap α) (p : Ptr) (f : Node α → Node α) : Option (Heap α) :=
  p.bind (fun i => (h.cell i).map (fun c => h.set i (f c)))

def malloc (h : Heap α) (c : Node α) : Ptr × Heap α :=
  (some h.fresh, ⟨Function.update h.cell h.fresh (some c), h.fresh + 1⟩)

def erase (h : Heap α) (i : Nat) : Heap α := { h with cell := Function.update h.cell i none }

def free (h : Heap α) (p : Ptr) : Option (Heap α) :=
  p.bind (fun i => (h.cell i).map (fun _ => h.erase i))

def setNext (h : Heap α) (p q : Ptr) : Option (Heap α) := h.modify p (fun c => { c with next := q })

def setPrev (h : Heap α) (p q : Ptr) : Option (Heap α) := h.modify p (fun c => { c with prev := q })

def setData (h : Heap α) (p : Ptr) (a : α) : Option (Heap α) :=
  h.modify p (fun c => { c with data := a })

/-- `if (p) p->prev = q` -/
def relink (h : Heap α) (p q : Ptr) : Option (Heap α) :=
  if p.isSome then h.setPrev p q else some h

/-- A new node `r` with `a` behind `p`: `r->prev = p; r->next = p->next;
if (p->next) p->next->prev = r; p->next = r`. -/
def insertAfter (h : Heap α) (p : Ptr) (a : α) : Option (Heap α) := do
  let c ← h.read p
  let (r, h) := h.malloc ⟨a, c.next, p⟩
  let c ← h.read p
  let h ← h.relink c.next r
  h.setNext p r

/-- The node `r` behind `p` leaves the list: `r = p->next; p->next = r->next;
if (r->next) r->next->prev = p; free(r)`. -/
def removeAfter (h : Heap α) (p : Ptr) : Option (Heap α) := do
  let c ← h.read p
  let r ← h.read c.next
  let h ← h.setNext p r.next
  let r ← h.read c.next
  let h ← h.relink r.next p
  h.free c.next

/-- `tail->next = r; r->prev = tail` -/
def linkLast (h : Heap α) (tail r : Ptr) : Option (Heap α) :=
  (h.setNext tail r).bind (fun h => h.setPrev r tail)

variable {h : Heap α} {i j : Nat} {c : Node α}

@[simp] theorem set_cell_same : (h.set i c).cell i = some c := Function.update_self ..

@[simp] theorem set_cell_of_ne (hne : j ≠ i) : (h.set i c).cell j = h.cell j :=
  Function.update_of_ne hne ..

@[simp] theorem set_fresh : (h.set i c).fresh = h.fresh := rfl

@[simp] theorem erase_cell_same : (h.erase i).cell i = none := Function.update_self ..

@[simp] theorem erase_cell_of_ne (hne : j ≠ i) : (h.erase i).cell j = h.cell j :=
  Function.update_of_ne hne ..

@[simp] theorem erase_fresh : (h.erase i).fresh = h.fresh := rfl

@[simp] theorem malloc_fst : (h.malloc c).1 = some h.fresh := rfl

@[simp] theorem malloc_cell_same : (h.malloc c).2.cell h.fresh = some c := Function.update_self ..

@[simp] theorem malloc_cell_of_ne (hne : j ≠ h.fresh) : (h.malloc c).2.cell j = h.cell j :=
  Function.update_of_ne hne ..

@[simp] theorem malloc_fresh : (h.malloc c).2.fresh = h.fresh + 1 := rfl

theorem set_live (hi : (h.cell i).isSome) (j : Nat) :
    ((h.set i c).cell j).isSome = (h.cell j).isSome := by
  by_cases hj : j = i
  · subst hj
    simp [hi]
  · rw [set_cell_of_ne hj]

theorem modify_eq (hc : h.cell i = some c) (f : Node α → Node α) :
    h.modify (some i) f = some (h.set i (f c)) := by
  simp [modify, hc]

end Heap

def first (stop : Ptr) : List (Nat × α) → Ptr
  | [] => stop
  | x :: _ => some x.1

def last (p : Ptr) : List (Nat × α) → Ptr
  | [] => p
  | x :: l => last (some x.1) l

/-- The nodes of `l` stand in the heap one after the other, between `p` and `stop`. -/
def Linked (h : Heap α) (p : Ptr) : List (Nat × α) → Ptr → Prop
  | [], _ => True
  | x :: l, stop => h.cell x.1 = some ⟨x.2, first stop l, p⟩ ∧ Linked h (some x.1) l stop

def ids (l : List (Nat × α)) : List Nat := l.map Prod.fst

def data (l : List (Nat × α)) : List α := l.map Prod.snd

section Segments

variable {h h' : Heap α} {p q stop : Ptr} {l pre post : List (Nat × α)} {i j : Nat} {a b : α}

@[simp] theorem ids_nil : ids ([] : List (Nat × α)) = [] := rfl

@[simp] theorem ids_cons (x : Nat × α) (l : List (Nat × α)) : ids (x :: l) = x.1 :: ids l := rfl

@[simp] theorem ids_append (l m : List (Nat × α)) : ids (l ++ m) = ids l ++ ids m := List.map_append

@[simp] theorem first_cons (stop : Ptr) (x : Nat × α) (l : List (Nat × α)) :
    first stop (x :: l) = some x.1 := rfl

theorem ids_middle_perm (pre : List (Nat × α)) (x y : Nat × α) (post : List (Nat × α)) :
    (ids (pre ++ x :: y :: post)).Perm (y.1 :: ids (pre ++ x :: post)) := by
  have hmid : ((ids pre ++ [x.1]) ++ y.1 :: ids post).Perm
      (y.1 :: ((ids pre ++ [x.1]) ++ ids post)) := List.perm_middle
  simpa using hmid

theorem first_append (stop : Ptr) (l m : List (Nat × α)) :
    first stop (l ++ m) = first (first stop m) l := by
  cases l <;> rfl

theorem last_append (p : Ptr) (l m : List (Nat × α)) : last p (l ++ m) = last (last p l) m := by
  induction l generalizing p with
  | nil => rfl
  | cons x l ih => exact ih (some x.1)

theorem Linked.append {l m : List (Nat × α)} :
    Linked h p (l ++ m) stop ↔ Linked h p l (first stop m) ∧ Linked h (last p l) m stop := by
  induction l generalizing p with
  | nil => simp [Linked, last]
  | cons x l ih =>
    rw [List.cons_append, Linked, Linked, first_append, ih, and_assoc]
    rfl

theorem Linked.split : Linked h p (pre ++ (i, a) :: post) stop ↔
    Linked h p pre (some i) ∧ h.cell i = some ⟨a, first stop post, last p pre⟩ ∧
      Linked h (some i) post stop :=
  Linked.append

theorem Linked.congr (hl : Linked h p l stop) (he : ∀ i ∈ ids l, h'.cell i = h.cell i) :
    Linked h' p l stop := by
  induction l generalizing p with
  | nil => trivial
  | cons x l ih =>
    obtain ⟨hx, hrest⟩ := List.forall_mem_cons.mp he
    exact ⟨hx.trans hl.1, ih hl.2 hrest⟩

theorem Linked.live (hl : Linked h p l stop) (hi : i ∈ ids l) : (h.cell i).isSome := by
  induction l generalizing p with
  | nil => cases hi
  | cons x l ih =>
    rcases List.mem_cons.mp hi with rfl | hi
    · rw [hl.1]
      rfl
    · exact ih hl.2 hi

/-- The node behind a node of the segment points back to it. -/
theorem Linked.back {c : Node α} (hl : Linked h p l none) (hi : i ∈ ids l)
    (hc : h.cell i = some c) (hj : c.next = some j) :
    ∃ d, h.cell j = some d ∧ d.prev = some i := by
  induction l generalizing p with
  | nil => cases hi
  | cons x l ih =>
    rcases List.mem_cons.mp hi with rfl | hi
    · have he := hl.1
      rw [hc, Option.some_inj] at he
      subst he
      cases l with
      | nil => cases hj
      | cons y l =>
        obtain rfl : y.1 = j := Option.some_inj.mp hj
        exact ⟨_, hl.2.1, rfl⟩
    · exact ih hl.2 hi

/-- Giving a segment another predecessor touches its first node only. -/
theorem Linked.relink (hl : Linked h p post none) (hd : (ids post).Nodup) (q : Ptr) :
    ∃ h', h.relink (first none post) q = some h' ∧ Linked h' q post none ∧
      (∀ i, i ∉ ids post → h'.cell i = h.cell i) ∧ h'.fresh = h.fresh := by
  cases post with
  | nil => exact ⟨h, rfl, trivial, fun _ _ => rfl, rfl⟩
  | cons x post =>
    obtain ⟨hx, hrest⟩ := hl
    obtain ⟨hx', -⟩ := List.nodup_cons.mp hd
    refine ⟨_, Heap.modify_eq hx _, ⟨Heap.set_cell_same, ?_⟩, ?_, rfl⟩
    · apply hrest.congr
      intro i hi
      exact Heap.set_cell_of_ne (ne_of_mem_of_not_mem hi hx')
    · intro i hi
      exact Heap.set_cell_of_ne (fun he => hi (he ▸ List.mem_cons_self))

end Segments

/-- The heap holds the list `l`, from its first node to null, and nothing else. -/
structure Represents (h : Heap α) (l : List (Nat × α)) : Prop where
  linked : Linked h none l none
  nodup : (ids l).Nodup
  live : ∀ i, (h.cell i).isSome → i ∈ ids l
  fresh : ∀ i ∈ ids l, i < h.fresh

namespace Represents

variable {h : Heap α} {l pre post : List (Nat × α)} {i j : Nat} {a b : α}

theorem single (a : α) : Represents (Heap.empty.malloc ⟨a, none, none⟩).2 [(0, a)] where
  linked := ⟨rfl, trivial⟩
  nodup := List.nodup_singleton _
  live := by
    intro i hi
    by_contra hne
    rw [Heap.malloc_cell_of_ne (by simpa [Heap.empty] using hne)] at hi
    cases hi
  fresh := by simp [Heap.empty]

theorem cell_eq (hr : Represents h (pre ++ (i, a) :: post)) :
    h.cell i = some ⟨a, first none post, last none pre⟩ := (Linked.split.mp hr.linked).2.1

theorem cursor_cell (hr : Represents h l) (c : Cursor l) :
    ∃ d, h.cell c.item.1 = some d ∧ d.data = c.item.2 := by
  have hc : Represents h (c.before ++ c.item :: c.after) := by
    rw [c.split]
    exact hr
  exact ⟨_, hc.cell_eq, rfl⟩

theorem apart (hr : Represents h (pre ++ (i, a) :: post)) :
    i ∉ ids pre ∧ i ∉ ids post ∧ (ids pre ++ ids post).Nodup := by
  have hd := hr.nodup
  rw [ids_append, ids_cons, List.nodup_middle, List.nodup_cons, List.mem_append, not_or] at hd
  exact ⟨hd.1.1, hd.1.2, hd.2⟩

theorem disjoint (hr : Represents h (pre ++ (i, a) :: post)) (hj : j ∈ ids pre) : j ∉ ids post :=
  fun hj' => (List.nodup_append.mp hr.apart.2.2).2.2 j hj j hj' rfl

theorem setData (hr : Represents h (pre ++ (i, a) :: post)) (b : α) :
    ∃ h', h.setData (some i) b = some h' ∧ Represents h' (pre ++ (i, b) :: post) := by
  obtain ⟨hpre, hcell, hpost⟩ := Linked.split.mp hr.linked
  obtain ⟨hi, hi', -⟩ := hr.apart
  have hids : ids (pre ++ (i, b) :: post) = ids (pre ++ (i, a) :: post) := by simp
  refine ⟨_, Heap.modify_eq hcell _, ?_, ?_, ?_, ?_⟩
  · apply Linked.split.mpr
    refine ⟨hpre.congr ?_, Heap.set_cell_same, hpost.congr ?_⟩
    · exact fun j hj => Heap.set_cell_of_ne (ne_of_mem_of_not_mem hj hi)
    · exact fun j hj => Heap.set_cell_of_ne (ne_of_mem_of_not_mem hj hi')
  · rw [hids]
    exact hr.nodup
  · intro j hj
    rw [Heap.set_live (by rw [hcell]; rfl)] at hj
    rw [hids]
    exact hr.live j hj
  · rw [hids]
    exact hr.fresh

/-- A node of the next address between `i` and what followed it. -/
theorem inserted {h' : Heap α} (hr : Represents h (pre ++ (i, a) :: post))
    (hcell : h'.cell i = some ⟨a, some h.fresh, last none pre⟩)
    (hcell' : h'.cell h.fresh = some ⟨b, first none post, some i⟩)
    (hpost : Linked h' (some h.fresh) post none)
    (hold : ∀ j, j ∉ ids post → j ≠ i → j ≠ h.fresh → h'.cell j = h.cell j)
    (hfresh : h'.fresh = h.fresh + 1) :
    Represents h' (pre ++ (i, a) :: (h.fresh, b) :: post) := by
  obtain ⟨hpre, -, -⟩ := Linked.split.mp hr.linked
  obtain ⟨hi, -, -⟩ := hr.apart
  have hperm := ids_middle_perm pre (i, a) (h.fresh, b) post
  constructor
  case linked =>
    apply Linked.split.mpr
    refine ⟨hpre.congr ?_, hcell, hcell', hpost⟩
    intro j hj
    have hlt := hr.fresh j (by rw [ids_append]; exact List.mem_append_left _ hj)
    exact hold j (hr.disjoint hj) (ne_of_mem_of_not_mem hj hi) (Nat.ne_of_lt hlt)
  case nodup =>
    rw [hperm.nodup_iff, List.nodup_cons]
    exact ⟨fun hin => Nat.lt_irrefl _ (hr.fresh _ hin), hr.nodup⟩
  case live =>
    intro j hj
    rw [hperm.mem_iff, List.mem_cons]
    by_cases hin : j ∈ ids (pre ++ (i, a) :: post)
    · exact Or.inr hin
    · left
      by_contra hne
      have hout := hin
      simp only [ids_append, ids_cons, List.mem_append, List.mem_cons, not_or] at hout
      rw [hold j hout.2.2 hout.2.1 hne] at hj
      exact hin (hr.live j hj)
  case fresh =>
    intro j hj
    rw [hperm.mem_iff, List.mem_cons] at hj
    rw [hfresh]
    rcases hj with rfl | hj
    · exact Nat.lt_succ_self _
    · exact Nat.lt_succ_of_lt (hr.fresh j hj)

theorem insertAfter (hr : Represents h (pre ++ (i, a) :: post)) (b : α) :
    ∃ h', h.insertAfter (some i) b = some h' ∧
      Represents h' (pre ++ (i, a) :: (h.fresh, b) :: post) := by
  obtain ⟨-, hcell, hpost⟩ := Linked.split.mp hr.linked
  obtain ⟨-, hi, hd⟩ := hr.apart
  have hnew : ∀ j ∈ ids (pre ++ (i, a) :: post), j ≠ h.fresh :=
    fun j hj => Nat.ne_of_lt (hr.fresh j hj)
  simp only [ids_append, ids_cons, List.mem_append, List.mem_cons] at hnew
  have hne : i ≠ h.fresh := hnew i (Or.inr (Or.inl rfl))
  have hfree : h.fresh ∉ ids post := fun hin => hnew _ (Or.inr (Or.inr hin)) rfl
  have hpost' : Linked (h.malloc ⟨b, first none post, some i⟩).2 (some i) post none :=
    hpost.congr (fun j hj => Heap.malloc_cell_of_ne (hnew j (Or.inr (Or.inr hj))))
  obtain ⟨k, hrelink, hlinked, hout, hfresh⟩ :=
    hpost'.relink (hd.sublist (List.sublist_append_right _ _)) (some h.fresh)
  have hk : k.cell i = some ⟨a, first none post, last none pre⟩ := by
    rw [hout i hi, Heap.malloc_cell_of_ne hne, hcell]
  refine ⟨k.set i ⟨a, some h.fresh, last none pre⟩, ?_,
    hr.inserted Heap.set_cell_same ?_ ?_ ?_ hfresh⟩
  · simp only [Heap.insertAfter, Heap.read, Option.bind_some, hcell, Option.bind_eq_bind,
      Heap.malloc_fst, Heap.malloc_cell_of_ne hne, hrelink, Heap.setNext, Heap.modify_eq hk]
  · rw [Heap.set_cell_of_ne hne.symm, hout _ hfree, Heap.malloc_cell_same]
  · exact hlinked.congr (fun j hj => Heap.set_cell_of_ne (ne_of_mem_of_not_mem hj hi))
  · intro j hj hji hjr
    rw [Heap.set_cell_of_ne hji, hout j hj, Heap.malloc_cell_of_ne hjr]

theorem linkLast (hr : Represents h (pre ++ [(i, a)])) (b : α) :
    ∃ h', (h.malloc ⟨b, none, none⟩).2.linkLast (some i) (some h.fresh) = some h' ∧
      Represents h' (pre ++ [(i, a), (h.fresh, b)]) := by
  have hne : i ≠ h.fresh := Nat.ne_of_lt (hr.fresh i (by simp))
  have hcell : (h.malloc ⟨b, none, none⟩).2.cell i = some ⟨a, none, last none pre⟩ := by
    rw [Heap.malloc_cell_of_ne hne, hr.cell_eq]
    rfl
  have hnew : ((h.malloc ⟨b, none, none⟩).2.set i ⟨a, some h.fresh, last none pre⟩).cell h.fresh =
      some ⟨b, none, none⟩ := by
    rw [Heap.set_cell_of_ne hne.symm, Heap.malloc_cell_same]
  refine ⟨((h.malloc ⟨b, none, none⟩).2.set i ⟨a, some h.fresh, last none pre⟩).set h.fresh
    ⟨b, none, some i⟩, ?_, hr.inserted ?_ Heap.set_cell_same trivial ?_ rfl⟩
  · simp only [Heap.linkLast, Heap.setNext, Heap.modify_eq hcell, Option.bind_some, Heap.setPrev,
      Heap.modify_eq hnew]
  · rw [Heap.set_cell_of_ne hne, Heap.set_cell_same]
  · intro j _ hji hjr
    rw [Heap.set_cell_of_ne hjr, Heap.set_cell_of_ne hji, Heap.malloc_cell_of_ne hjr]

theorem removeAfter (hr : Represents h (pre ++ (i, a) :: (j, b) :: post)) :
    ∃ h', h.removeAfter (some i) = some h' ∧ Represents h' (pre ++ (i, a) :: post) := by
  obtain ⟨hpre, hcell, hcell', hpost⟩ := Linked.split.mp hr.linked
  obtain ⟨hi, hi', hd⟩ := hr.apart
  rw [ids_cons, List.mem_cons, not_or] at hi'
  obtain ⟨hij, hi'⟩ : i ≠ j ∧ i ∉ ids post := hi'
  rw [ids_cons, List.nodup_middle, List.nodup_cons, List.mem_append, not_or] at hd
  obtain ⟨⟨hj, hj'⟩, hd⟩ : (j ∉ ids pre ∧ j ∉ ids post) ∧ (ids pre ++ ids post).Nodup := hd
  have hpost' : Linked (h.set i ⟨a, first none post, last none pre⟩) (some j) post none :=
    hpost.congr (fun k hk => Heap.set_cell_of_ne (ne_of_mem_of_not_mem hk hi'))
  obtain ⟨m, hrelink, hlinked, hout, hfresh⟩ :=
    hpost'.relink (hd.sublist (List.sublist_append_right _ _)) (some i)
  have hm : m.cell j = some ⟨b, first none post, some i⟩ := by
    rw [hout j hj', Heap.set_cell_of_ne (Ne.symm hij), hcell']
  have hperm := ids_middle_perm pre (i, a) (j, b) post
  have hnodup := hr.nodup
  rw [hperm.nodup_iff, List.nodup_cons] at hnodup
  refine ⟨m.erase j, ?_, ?_, hnodup.2, ?_, ?_⟩
  · simp only [Heap.removeAfter, Heap.read, Option.bind_some, hcell, first_cons, hcell',
      Option.bind_eq_bind, Heap.setNext, Heap.modify_eq hcell, Heap.set_cell_of_ne (Ne.symm hij),
      hrelink, Heap.free, hm, Option.map_some]
  · apply Linked.split.mpr
    refine ⟨hpre.congr ?_, ?_, hlinked.congr ?_⟩
    · intro k hk
      have hk' : k ∉ ids ((j, b) :: post) := hr.disjoint hk
      rw [ids_cons, List.mem_cons, not_or] at hk'
      rw [Heap.erase_cell_of_ne hk'.1, hout k hk'.2,
        Heap.set_cell_of_ne (ne_of_mem_of_not_mem hk hi)]
    · rw [Heap.erase_cell_of_ne hij, hout i hi', Heap.set_cell_same]
    · exact fun k hk => Heap.erase_cell_of_ne (ne_of_mem_of_not_mem hk hj')
  · intro k hk
    have hne : k ≠ j := by
      rintro rfl
      simp at hk
    rw [Heap.erase_cell_of_ne hne] at hk
    by_contra hin
    have hin' : k ∉ ids (pre ++ (i, a) :: (j, b) :: post) := by
      rw [hperm.mem_iff, List.mem_cons, not_or]
      exact ⟨hne, hin⟩
    simp only [ids_append, ids_cons, List.mem_append, List.mem_cons, not_or] at hin
    rw [hout k hin.2.2, Heap.set_cell_of_ne hin.2.1] at hk
    exact hin' (hr.live k hk)
  · intro k hk
    have hlt := hr.fresh k (hperm.mem_iff.mpr (List.mem_cons_of_mem _ hk))
    simpa [hfresh] using hlt

end Represents

/-- Following one of the two links from `p` visits these nodes and ends at null. -/
def Path (h : Heap α) (link : Node α → Ptr) : Ptr → List Nat → Prop
  | p, [] => p = none
  | p, i :: is => p = some i ∧ ∃ c, h.cell i = some c ∧ Path h link (link c) is

section Paths

variable {h : Heap α} {p stop : Ptr} {l : List (Nat × α)} {is : List Nat}

theorem Linked.next_path (hl : Linked h p l none) : Path h Node.next (first none l) (ids l) := by
  induction l generalizing p with
  | nil => rfl
  | cons x l ih => exact ⟨rfl, _, hl.1, ih hl.2⟩

theorem Linked.prev_path (hl : Linked h p l stop) (hp : Path h Node.prev p is) :
    Path h Node.prev (last p l) ((ids l).reverse ++ is) := by
  induction l generalizing p is with
  | nil => exact hp
  | cons x l ih =>
    rw [ids_cons, List.reverse_cons, List.append_assoc, List.singleton_append]
    exact ih hl.2 ⟨rfl, _, hl.1, hp⟩

theorem last_none (l : List (Nat × α)) : last none l = (ids l).getLast? := by
  rcases List.eq_nil_or_concat' l with rfl | ⟨pre, x, rfl⟩
  · rfl
  · rw [last_append, ids_append]
    exact List.getLast?_concat.symm

theorem Linked.reverse_path (hl : Linked h none l none) :
    Path h Node.prev (ids l).getLast? (ids l).reverse := by
  have hnull : Path h Node.prev none [] := rfl
  have hpath := hl.prev_path hnull
  rwa [last_none, List.append_nil] at hpath

end Paths

/-! Loops over the nodes, `fuel` being the number of iterations allowed. -/

section Loops

variable (h : Heap α)

def findFrom (ok : α → Bool) : Nat → Ptr → Option Ptr
  | _, none => some none
  | 0, some _ => none
  | fuel + 1, some i => (h.cell i).bind (fun c =>
      if ok c.data then some (some i) else findFrom ok fuel c.next)

/-- The loop that keeps the node preferred so far. -/
def scanFrom (ok : α → Bool) (replaces : α → α → Bool) : Nat → Ptr → Ptr → Option Ptr
  | _, best, none => some best
  | 0, _, some _ => none
  | fuel + 1, best, some i => (h.cell i).bind (fun c =>
      let next : Option Ptr :=
        if ok c.data then match best with
          | none => some (some i)
          | some b => (h.cell b).map (fun d => if replaces c.data d.data then some i else some b)
        else some best
      next.bind (fun best => scanFrom ok replaces fuel best c.next))

/-- `while (tail->next) tail = tail->next`, from the node `i` -/
def lastFrom : Nat → Nat → Option Ptr
  | 0, i => (h.cell i).bind (fun c => if c.next = none then some (some i) else none)
  | fuel + 1, i => (h.cell i).bind (fun c =>
      match c.next with
      | none => some (some i)
      | some j => lastFrom fuel j)

def foldFrom (f : β → α → β) : Nat → Ptr → β → Option β
  | _, none, b => some b
  | 0, some _, _ => none
  | fuel + 1, some i, b => (h.cell i).bind (fun c => foldFrom f fuel c.next (f b c.data))

end Loops

/-- The loop that updates the data of every node, with an accumulator. -/
def traverse (f : β → α → α × β) : Nat → Heap α → Ptr → β → Option (Heap α × β)
  | _, h, none, b => some (h, b)
  | 0, _, some _, _ => none
  | fuel + 1, h, some i, b => (h.cell i).bind (fun c =>
      (h.setData (some i) (f b c.data).1).bind (fun h => traverse f fuel h c.next (f b c.data).2))

/-- `while (cur) { tmp = cur->next; free(cur); cur = tmp; }` -/
def freeFrom : Nat → Heap α → Ptr → Option (Heap α)
  | _, h, none => some h
  | 0, _, some _ => none
  | fuel + 1, h, some i => (h.cell i).bind (fun c =>
      (h.free (some i)).bind (fun h => freeFrom fuel h c.next))

/-- What `traverse` does to the data, on a list. -/
def accumulate (f : β → α → α × β) : β → List α → List α × β
  | b, [] => ([], b)
  | b, a :: l =>
    let rest := accumulate f (f b a).2 l
    ((f b a).1 :: rest.1, rest.2)

section Loops

variable {h : Heap α} {p : Ptr} {l pre : List (Nat × α)} {fuel : Nat}

theorem fuel_of_cons {x : β} {m : List β} (h : (x :: m).length ≤ fuel) :
    ∃ n, fuel = n + 1 ∧ m.length ≤ n := by
  cases fuel with
  | zero => cases h
  | succ n => exact ⟨n, rfl, Nat.le_of_succ_le_succ h⟩

theorem Linked.findFrom_eq (hl : Linked h p l none) (hfuel : l.length ≤ fuel) (ok : α → Bool) :
    findFrom h ok fuel (first none l) = some ((l.find? (fun x => ok x.2)).map Prod.fst) := by
  induction l generalizing p fuel with
  | nil => cases fuel <;> rfl
  | cons x l ih =>
    obtain ⟨n, rfl, hn⟩ := fuel_of_cons hfuel
    have hrest := ih hl.2 hn
    rw [first_cons, findFrom, hl.1, Option.bind_some]
    by_cases hx : ok x.2 = true
    · rw [if_pos hx, List.find?_cons_of_pos (p := fun x : Nat × α => ok x.2) hx]
      rfl
    · rw [if_neg hx, List.find?_cons_of_neg (p := fun x : Nat × α => ok x.2) hx]
      exact hrest

theorem Linked.lastFrom_eq {i : Nat} {a : α} (hl : Linked h p ((i, a) :: l) none)
    (hfuel : l.length ≤ fuel) : lastFrom h fuel i = some (last (some i) l) := by
  induction l generalizing p fuel i a with
  | nil => cases fuel <;> simp [lastFrom, hl.1, first, last]
  | cons x l ih =>
    obtain ⟨n, rfl, hn⟩ := fuel_of_cons hfuel
    have hrest := ih hl.2 hn
    rw [lastFrom, hl.1, Option.bind_some]
    exact hrest

theorem Linked.foldFrom_eq (hl : Linked h p l none) (hfuel : l.length ≤ fuel) (f : β → α → β)
    (b : β) : foldFrom h f fuel (first none l) b = some ((data l).foldl f b) := by
  induction l generalizing p fuel b with
  | nil => cases fuel <;> rfl
  | cons x l ih =>
    obtain ⟨n, rfl, hn⟩ := fuel_of_cons hfuel
    have hrest := ih hl.2 hn (f b x.2)
    rw [first_cons, foldFrom, hl.1, Option.bind_some]
    exact hrest

/-- The nodes behind the one just freed still point back to it; no one looks there. -/
theorem Linked.freeFrom_eq (hl : Linked h p l none) (hd : (ids l).Nodup)
    (hfuel : l.length ≤ fuel) :
    ∃ h', freeFrom fuel h (first none l) = some h' ∧ (∀ i ∈ ids l, h'.cell i = none) ∧
      ∀ i, i ∉ ids l → h'.cell i = h.cell i := by
  induction l generalizing h p fuel with
  | nil => exact ⟨h, by cases fuel <;> rfl, by simp, fun _ _ => rfl⟩
  | cons x l ih =>
    obtain ⟨n, rfl, hn⟩ := fuel_of_cons hfuel
    obtain ⟨hx, hrest⟩ := hl
    obtain ⟨hout, hd'⟩ := List.nodup_cons.mp hd
    have hleft : Linked (h.erase x.1) (some x.1) l none :=
      hrest.congr (fun i hi => Heap.erase_cell_of_ne (ne_of_mem_of_not_mem hi hout))
    obtain ⟨h', hrun, hgone, hkept⟩ := ih hleft hd' hn
    have hfirst : h'.cell x.1 = none := (hkept x.1 hout).trans Heap.erase_cell_same
    refine ⟨h', ?_, List.forall_mem_cons.mpr ⟨hfirst, hgone⟩, ?_⟩
    · rw [first_cons, freeFrom, hx, Option.bind_some, Heap.free, Option.bind_some, hx]
      exact hrun
    · intro i hi
      rw [ids_cons, List.mem_cons, not_or] at hi
      rw [hkept i hi.2, Heap.erase_cell_of_ne hi.1]

theorem Represents.freeFrom_eq (hr : Represents h l) (hfuel : l.length ≤ fuel) :
    ∃ h', freeFrom fuel h (first none l) = some h' ∧ ∀ i, h'.cell i = none := by
  obtain ⟨h', hrun, hgone, hkept⟩ := hr.linked.freeFrom_eq hr.nodup hfuel
  refine ⟨h', hrun, fun i => ?_⟩
  by_cases hi : i ∈ ids l
  · exact hgone i hi
  · rw [hkept i hi, ← Option.not_isSome_iff_eq_none]
    exact fun hlive => hi (hr.live i hlive)

/-- Searching the nodes is searching the list of nodes. -/
theorem Represents.scanFrom_eq (hr : Represents h l) {ok : α → Bool} {replaces : α → α → Bool}
    (best : Option (Cursor l)) (before : List (Nat × α)) {rest : List (Nat × α)}
    (hsplit : before ++ rest = l) (hfuel : rest.length ≤ fuel) :
    scanFrom h ok replaces fuel (best.map (fun c => c.item.1)) (first none rest) =
      some ((Cursor.scanFrom (fun x => ok x.2) (fun x y => replaces x.2 y.2) best before rest
        hsplit).map (fun c => c.item.1)) := by
  induction rest generalizing best before fuel with
  | nil => cases fuel <;> rfl
  | cons x rest ih =>
    obtain ⟨n, rfl, hn⟩ := fuel_of_cons hfuel
    have hcell : h.cell x.1 = some ⟨x.2, first none rest, last none before⟩ := by
      subst hsplit
      exact hr.cell_eq
    have hnext : ∀ next : Option (Cursor l),
        scanFrom h ok replaces n (next.map (fun c => c.item.1)) (first none rest) =
          some ((Cursor.scanFrom (fun x => ok x.2) (fun x y => replaces x.2 y.2) next
            (before ++ [x]) rest (by simpa using hsplit)).map (fun c => c.item.1)) :=
      fun next => ih next (before ++ [x]) (by simpa using hsplit) hn
    rw [first_cons, scanFrom, hcell, Option.bind_some, Cursor.scanFrom, ← hnext]
    by_cases hok : ok x.2 = true
    · cases best with
      | none => simp [hok]
      | some c =>
        obtain ⟨d, hd, hdata⟩ := hr.cursor_cell c
        by_cases hrep : replaces x.2 c.item.2 = true
        · simp [hok, hd, hdata, hrep]
        · simp [hok, hd, hdata, hrep]
    · simp [hok]

theorem Represents.traverse_eq (hr : Represents h (pre ++ l)) (hfuel : l.length ≤ fuel)
    (f : β → α → α × β) (b : β) :
    ∃ h' l', traverse f fuel h (first none l) b = some (h', (accumulate f b (data l)).2) ∧
      Represents h' (pre ++ l') ∧ ids l' = ids l ∧ data l' = (accumulate f b (data l)).1 := by
  induction l generalizing h pre fuel b with
  | nil => exact ⟨h, [], by cases fuel <;> rfl, hr, rfl, rfl⟩
  | cons x l ih =>
    obtain ⟨n, rfl, hn⟩ := fuel_of_cons hfuel
    obtain ⟨k, hset, hk⟩ := hr.setData (f b x.2).1
    have hk' : Represents k ((pre ++ [(x.1, (f b x.2).1)]) ++ l) := by simpa using hk
    obtain ⟨h', l', hrun, hr', hids, hdata⟩ := ih hk' hn (f b x.2).2
    refine ⟨h', (x.1, (f b x.2).1) :: l', ?_, by simpa using hr', ?_, ?_⟩
    · rw [first_cons, traverse, hr.cell_eq, Option.bind_some, hset, Option.bind_some]
      exact hrun
    · rw [ids_cons, ids_cons, hids]
    · rw [data, List.map_cons, ← data, hdata]
      rfl

/-- A new node behind the last one, which the loop finds from the first. -/
theorem Represents.appendLast {x : Nat × α} (hr : Represents h (x :: l)) (b : α)
    (hfuel : l.length ≤ fuel) :
    ∃ tail h', lastFrom (h.malloc ⟨b, none, none⟩).2 fuel x.1 = some tail ∧
      (h.malloc ⟨b, none, none⟩).2.linkLast tail (some h.fresh) = some h' ∧
      Represents h' (x :: l ++ [(h.fresh, b)]) := by
  have hlinked : Linked (h.malloc ⟨b, none, none⟩).2 none (x :: l) none :=
    hr.linked.congr (fun i hi => Heap.malloc_cell_of_ne (Nat.ne_of_lt (hr.fresh i hi)))
  obtain ⟨pre, z, hz⟩ := (List.eq_nil_or_concat' (x :: l)).resolve_left (List.cons_ne_nil _ _)
  have htail : last (some x.1) l = some z.1 := by
    have he : last none (x :: l) = last none (pre ++ [z]) := by rw [hz]
    rw [last_append] at he
    exact he
  rw [hz] at hr
  obtain ⟨h', hlink, hres⟩ := hr.linkLast b
  refine ⟨some z.1, h', (hlinked.lastFrom_eq hfuel).trans (congrArg some htail), hlink, ?_⟩
  rw [hz]
  simpa using hres

end Loops

end LinkedHeap
