import MiniOS.Containers
import MiniOS.Cursor
import Mathlib.Data.List.Sort

/-! The list of finished processes under insertions, removals and searches: a
sorted multiset keyed by pid. Two insertions of different pids commute unless the
larger one is the pid of the first node. -/

namespace MiniOS

/-- The search loop of `ll_remove` standing at `cur`, then the removal behind it. -/
def removeAfter (pid : Int) (cur : LLNode) : List LLNode → Option (List LLNode)
  | [] => none
  | next :: rest =>
    if next.pid ≠ pid then (removeAfter pid next rest).map (cur :: ·) else some (cur :: rest)

def llRemove (list : LinkedList) (pid : Int) : Int × LinkedList :=
  match list.head with
  | [] => (0, list)
  | first :: rest =>
    if first.pid = pid then (1, ⟨rest, list.size - 1⟩)
    else
      match removeAfter pid first rest with
      | none => (0, list)
      | some head => (1, ⟨head, list.size - 1⟩)

def llFind (list : LinkedList) (pid : Int) : Option (Cursor list.head) :=
  Cursor.first (fun cur => cur.pid == pid) list.head

inductive LLCall where
  | insertSorted (pid burstTime : Int)
  | remove (pid : Int)
  deriving DecidableEq, Repr

def LLCall.exec (list : LinkedList) : LLCall → LinkedList
  | .insertSorted pid burstTime => llInsertSorted list pid burstTime
  | .remove pid => (llRemove list pid).2

def llRun (calls : List LLCall) (list : LinkedList) : LinkedList := calls.foldl LLCall.exec list

theorem insertAfter_split (node cur : LLNode) (rest : List LLNode) :
    ∃ pre post, cur :: rest = pre ++ post ∧ insertAfter node cur rest = pre ++ node :: post := by
  induction rest generalizing cur with
  | nil => exact ⟨[cur], [], rfl, rfl⟩
  | cons next rest ih =>
    by_cases h : next.pid < node.pid
    · obtain ⟨pre, post, hsplit, hinsert⟩ := ih next
      refine ⟨cur :: pre, post, by rw [hsplit]; rfl, ?_⟩
      rw [insertAfter, if_pos h, hinsert]
      rfl
    · exact ⟨[cur], next :: rest, rfl, by rw [insertAfter, if_neg h]; rfl⟩

theorem llInsertSorted_split (list : LinkedList) (pid burstTime : Int) :
    ∃ pre post, list.head = pre ++ post ∧
      (llInsertSorted list pid burstTime).head = pre ++ ⟨pid, burstTime⟩ :: post := by
  cases h : list.head with
  | nil => exact ⟨[], [], rfl, by simp [llInsertSorted, h]⟩
  | cons first rest =>
    by_cases hp : pid < first.pid
    · exact ⟨[], first :: rest, rfl, by simp [llInsertSorted, h, hp]⟩
    · obtain ⟨pre, post, hsplit, hinsert⟩ := insertAfter_split ⟨pid, burstTime⟩ first rest
      exact ⟨pre, post, hsplit, by simp [llInsertSorted, h, hp, hinsert]⟩

theorem removeAfter_cases (pid : Int) (cur : LLNode) (rest : List LLNode) :
    (∃ pre node post, rest = pre ++ node :: post ∧ node.pid = pid ∧
      removeAfter pid cur rest = some (cur :: pre ++ post)) ∨
    ((∀ node ∈ rest, node.pid ≠ pid) ∧ removeAfter pid cur rest = none) := by
  induction rest generalizing cur with
  | nil => exact Or.inr ⟨by simp, rfl⟩
  | cons next rest ih =>
    by_cases h : next.pid = pid
    · exact Or.inl ⟨[], next, rest, rfl, h, by rw [removeAfter, if_neg (not_not.mpr h)]; rfl⟩
    · rcases ih next with ⟨pre, node, post, rfl, hpid, hremove⟩ | ⟨hnone, hremove⟩
      · refine Or.inl ⟨next :: pre, node, post, rfl, hpid, ?_⟩
        rw [removeAfter, if_pos h, hremove]
        rfl
      · refine Or.inr ⟨List.forall_mem_cons.mpr ⟨h, hnone⟩, ?_⟩
        rw [removeAfter, if_pos h, hremove]
        rfl

theorem llRemove_cases (list : LinkedList) (pid : Int) :
    (∃ pre node post, list.head = pre ++ node :: post ∧ node.pid = pid ∧
      llRemove list pid = (1, ⟨pre ++ post, list.size - 1⟩)) ∨
    ((∀ node ∈ list.head, node.pid ≠ pid) ∧ llRemove list pid = (0, list)) := by
  cases h : list.head with
  | nil => exact Or.inr ⟨by simp, by simp [llRemove, h]⟩
  | cons first rest =>
    by_cases hp : first.pid = pid
    · exact Or.inl ⟨[], first, rest, rfl, hp, by simp [llRemove, h, hp]⟩
    · rcases removeAfter_cases pid first rest with ⟨pre, node, post, rfl, hpid, hremove⟩ |
        ⟨hnone, hremove⟩
      · exact Or.inl ⟨first :: pre, node, post, rfl, hpid, by simp [llRemove, h, hp, hremove]⟩
      · exact Or.inr ⟨List.forall_mem_cons.mpr ⟨hp, hnone⟩, by simp [llRemove, h, hp, hremove]⟩

namespace LinkedList

theorem Ordered.remove {list : LinkedList} (h : list.Ordered) (pid : Int) :
    (llRemove list pid).2.Ordered := by
  rcases llRemove_cases list pid with ⟨pre, node, post, hsplit, -, hremove⟩ | ⟨-, hremove⟩
  · obtain ⟨hsorted, hsize⟩ := h
    rw [hsplit] at hsorted hsize
    have hsub : (pre ++ post).Sublist (pre ++ node :: post) :=
      (List.sublist_cons_self node post).append_left pre
    rw [hremove]
    refine ⟨hsorted.sublist hsub, ?_⟩
    show list.size - 1 = (pre ++ post).length
    rw [hsize, List.length_append, List.length_append, List.length_cons]
    omega
  · rw [hremove]
    exact h

theorem Ordered.exec {list : LinkedList} (h : list.Ordered) (call : LLCall) :
    (call.exec list).Ordered := by
  cases call with
  | insertSorted pid burstTime => exact h.insert pid burstTime
  | remove pid => exact h.remove pid

theorem Ordered.run {list : LinkedList} (h : list.Ordered) (calls : List LLCall) :
    (llRun calls list).Ordered := by
  induction calls generalizing list with
  | nil => exact h
  | cons call calls ih => exact ih (h.exec call)

end LinkedList

theorem llFind_cases (list : LinkedList) (pid : Int) :
    (∃ c, llFind list pid = some c ∧ c.item.pid = pid) ∨
      ((∀ node ∈ list.head, node.pid ≠ pid) ∧ llFind list pid = none) := by
  cases hfind : llFind list pid with
  | none =>
    refine Or.inr ⟨fun node hnode hpid => ?_, rfl⟩
    have hne := Cursor.first_eq_none_iff.mp hfind node hnode
    simp [hpid] at hne
  | some c => exact Or.inl ⟨c, rfl, by simpa using (Cursor.first_spec hfind).1⟩

theorem llRun_sorted_multiset (calls : List LLCall) :
    let list := llRun calls llCreate
    (list.head.Pairwise (fun a b => a.pid ≤ b.pid) ∧ list.size = list.head.length) ∧
    (∀ pid burstTime, ∃ pre post, list.head = pre ++ post ∧
      (llInsertSorted list pid burstTime).head = pre ++ ⟨pid, burstTime⟩ :: post) ∧
    (∀ pid, (∃ pre node post, list.head = pre ++ node :: post ∧ node.pid = pid ∧
        llRemove list pid = (1, ⟨pre ++ post, list.size - 1⟩)) ∨
      ((∀ node ∈ list.head, node.pid ≠ pid) ∧ llRemove list pid = (0, list))) ∧
    ∀ pid, (∃ c, llFind list pid = some c ∧ c.item.pid = pid) ∨
      ((∀ node ∈ list.head, node.pid ≠ pid) ∧ llFind list pid = none) := by
  intro list
  have hordered : list.Ordered := LinkedList.create_ordered.run calls
  exact ⟨⟨hordered.sorted, hordered.size_eq⟩, llInsertSorted_split list, llRemove_cases list,
    llFind_cases list⟩

/-! Two insertions -/

def insertNode (node : LLNode) : List LLNode → List LLNode
  | [] => [node]
  | first :: rest =>
    if node.pid < first.pid then node :: first :: rest else insertAfter node first rest

theorem llInsertSorted_head (list : LinkedList) (pid burstTime : Int) :
    (llInsertSorted list pid burstTime).head = insertNode ⟨pid, burstTime⟩ list.head := by
  cases h : list.head with
  | nil => simp [llInsertSorted, insertNode, h]
  | cons first rest => by_cases hp : pid < first.pid <;> simp [llInsertSorted, insertNode, h, hp]

/-- Where the search loop puts a node: before its equals. -/
def place (node : LLNode) (l : List LLNode) : List LLNode :=
  l.orderedInsert (fun a b => a.pid ≤ b.pid) node

section Place

variable {x y first : LLNode} {rest l : List LLNode}

theorem place_of_le (h : x.pid ≤ first.pid) : place x (first :: rest) = x :: first :: rest :=
  List.orderedInsert_cons_of_le _ rest h

theorem place_of_lt (h : first.pid < x.pid) : place x (first :: rest) = first :: place x rest :=
  List.orderedInsert_of_not_le _ rest (not_le.mpr h)

theorem insertAfter_eq_place (node cur : LLNode) (rest : List LLNode) :
    insertAfter node cur rest = cur :: place node rest := by
  induction rest generalizing cur with
  | nil => rfl
  | cons next rest ih =>
    by_cases h : next.pid < node.pid
    · rw [insertAfter, if_pos h, ih, place_of_lt h]
    · rw [insertAfter, if_neg h, place_of_le (not_lt.mp h)]

theorem place_place (hxy : x.pid < y.pid) (l : List LLNode) :
    place y (place x l) = place x (place y l) := by
  induction l with
  | nil =>
    show place y [x] = place x [y]
    rw [place_of_lt hxy, place_of_le hxy.le]
    rfl
  | cons z l ih =>
    rcases lt_or_ge z.pid x.pid with hzx | hxz
    · have hzy : z.pid < y.pid := hzx.trans hxy
      rw [place_of_lt hzx, place_of_lt hzy, place_of_lt hzy, place_of_lt hzx, ih]
    · rw [place_of_le hxz, place_of_lt hxy]
      rcases lt_or_ge z.pid y.pid with hzy | hyz
      · rw [place_of_lt hzy, place_of_le hxz]
      · rw [place_of_le hyz, place_of_le hxy.le]

theorem place_of_forall_le (h : ∀ z ∈ l, x.pid ≤ z.pid) : place x l = x :: l := by
  cases l with
  | nil => rfl
  | cons z l => exact place_of_le (h z List.mem_cons_self)

theorem insertNode_of_lt (h : x.pid < first.pid) :
    insertNode x (first :: rest) = x :: first :: rest := if_pos h

/-- The head test lets an equal first node pass, so `x` goes behind that one. -/
theorem insertNode_of_le (h : first.pid ≤ x.pid) :
    insertNode x (first :: rest) = first :: place x rest := by
  rw [insertNode, if_neg (not_lt.mpr h), insertAfter_eq_place]

theorem insertNode_comm_iff (hxy : x.pid < y.pid) (hl : l.Pairwise (fun a b => a.pid ≤ b.pid)) :
    insertNode y (insertNode x l) = insertNode x (insertNode y l) ↔
      ∀ first ∈ l.head?, first.pid = y.pid → first = y := by
  cases l with
  | nil =>
    refine iff_of_true ?_ (by simp)
    show insertNode y [x] = insertNode x [y]
    rw [insertNode_of_le hxy.le, insertNode_of_lt hxy]
    rfl
  | cons first rest =>
    have hhead : (∀ f ∈ (first :: rest).head?, f.pid = y.pid → f = y) ↔
        (first.pid = y.pid → first = y) := by simp
    rw [hhead]
    rcases lt_trichotomy first.pid y.pid with hlt | heq | hgt
    · refine iff_of_true ?_ (fun h => absurd h hlt.ne)
      rw [insertNode_of_le hlt.le]
      rcases lt_or_ge x.pid first.pid with hx | hx
      · rw [insertNode_of_lt hx, insertNode_of_lt hx, insertNode_of_le hxy.le, place_of_lt hlt]
      · rw [insertNode_of_le hx, insertNode_of_le hx, insertNode_of_le hlt.le, place_place hxy]
    · have hx : x.pid < first.pid := heq ▸ hxy
      have hrest : place y rest = y :: rest :=
        place_of_forall_le (fun z hz => heq ▸ (List.pairwise_cons.mp hl).1 z hz)
      rw [insertNode_of_lt hx, insertNode_of_le hxy.le, place_of_le heq.ge,
        insertNode_of_le heq.le, insertNode_of_lt hx, hrest]
      simp only [List.cons.injEq, true_and, and_true, heq, forall_const]
      exact ⟨fun h => h.2, fun h => ⟨h.symm, h⟩⟩
    · refine iff_of_true ?_ (fun h => absurd h hgt.ne')
      rw [insertNode_of_lt hgt, insertNode_of_lt (hxy.trans hgt), insertNode_of_lt hxy,
        insertNode_of_le hxy.le, place_of_le hgt.le]

end Place

def largerPid (x y : LLNode) : LLNode := if x.pid < y.pid then y else x

/-- Insertions of different pids commute unless the list starts with another
record of the larger one. -/
theorem llInsertSorted_comm_iff (calls : List LLCall) {p q : Int} (hpq : p ≠ q) (a b : Int) :
    (llInsertSorted (llInsertSorted (llRun calls llCreate) p a) q b).head =
        (llInsertSorted (llInsertSorted (llRun calls llCreate) q b) p a).head ↔
      ∀ first ∈ (llRun calls llCreate).head.head?,
        first.pid = (largerPid ⟨p, a⟩ ⟨q, b⟩).pid → first = largerPid ⟨p, a⟩ ⟨q, b⟩ := by
  have hsorted := (LinkedList.create_ordered.run calls).sorted
  simp only [llInsertSorted_head]
  rcases lt_or_gt_of_ne hpq with hlt | hgt
  · rw [largerPid, if_pos (show (⟨p, a⟩ : LLNode).pid < (⟨q, b⟩ : LLNode).pid from hlt)]
    exact insertNode_comm_iff (x := ⟨p, a⟩) (y := ⟨q, b⟩) hlt hsorted
  · rw [largerPid, if_neg (show ¬ (⟨p, a⟩ : LLNode).pid < (⟨q, b⟩ : LLNode).pid from hgt.asymm),
      eq_comm]
    exact insertNode_comm_iff (x := ⟨q, b⟩) (y := ⟨p, a⟩) hgt hsorted

theorem llInsertSorted_comm_iff_example :
    let list := llRun [.insertSorted 5 10, .insertSorted 7 30, .remove 7] llCreate
    (llInsertSorted (llInsertSorted list 4 20) 8 40).head =
        (llInsertSorted (llInsertSorted list 8 40) 4 20).head ↔
      ∀ first ∈ list.head.head?,
        first.pid = (largerPid ⟨4, 20⟩ ⟨8, 40⟩).pid → first = largerPid ⟨4, 20⟩ ⟨8, 40⟩ :=
  llInsertSorted_comm_iff _ (by decide) 20 40

/-- The second record of pid 5 lands behind the first one, or before it when
pid 3 heads the list. -/
theorem llInsertSorted_not_comm :
    let list := llRun [.insertSorted 5 10] llCreate
    (llInsertSorted (llInsertSorted list 5 20) 3 30).head =
      [⟨3, 30⟩, ⟨5, 10⟩, ⟨5, 20⟩] ∧
    (llInsertSorted (llInsertSorted list 3 30) 5 20).head =
      [⟨3, 30⟩, ⟨5, 20⟩, ⟨5, 10⟩] ∧
    (llInsertSorted (llInsertSorted list 5 20) 3 30).head ≠
      (llInsertSorted (llInsertSorted list 3 30) 5 20).head := by
  decide

end MiniOS
