import MiniOS.Compaction
import MiniOS.CircularQueue
import MiniOS.Containers
import MiniOS.TextFormat

/-! The printing functions of the containers and of the memory manager. What they print can
be read back. -/

namespace MiniOS

open TextFormat

theorem blank_stops : ' '.isDigit = false := by decide

theorem newline_stops : '\n'.isDigit = false := by decide

theorem paren_stops : ')'.isDigit = false := by decide

/-- The values of a container, each with `"%d "`, and the end of the line. -/
def printValues (values : List Int) : List Char :=
  values.flatMap (fun value => IntField.print .plain value ++ [' ']) ++ ['\n']

def stackPrint (stack : Stack) : List Char :=
  "Stack [tope -> fondo]: ".toList ++ printValues stack.top

def queuePrint (queue : Queue) : List Char :=
  "Queue [frente -> final]: ".toList ++ printValues queue.front

def cqPrint (cq : CircularQueue) : List Char :=
  "CircularQueue [frente -> final, size=".toList ++ IntField.print .plain cq.size ++
    "]: ".toList ++ printValues ((List.range cq.size).map cq.cell)

def printNode (node : LLNode) : List Char :=
  "(pid=".toList ++ IntField.print .plain node.pid ++ ", burst=".toList ++
    IntField.print .plain node.burstTime ++ ") ".toList

def llPrint (list : LinkedList) : List Char :=
  "LinkedList [PID ordenado, size=".toList ++ IntField.print .plain list.size ++ "]: ".toList ++
    list.head.flatMap printNode ++ "\n".toList

def printBlock (cur : MemoryBlock) : List Char :=
  if cur.free then
    "  [LIBRE   | start=".toList ++ IntField.print (.right 4) cur.start ++ " | size=".toList ++
      IntField.print (.right 4) cur.size ++ "]\n".toList
  else
    "  [PID=".toList ++ IntField.print (.left 4) cur.pid ++ " | start=".toList ++
      IntField.print (.right 4) cur.start ++ " | size=".toList ++
      IntField.print (.right 4) cur.size ++ "]\n".toList

def mmPrint (percent : Int → Int → Int) (mm : MemoryManager) : List Char :=
  "=== Estado de Memoria (total=".toList ++ IntField.print .plain mm.totalMemory ++
    ") ===\n".toList ++ mm.head.flatMap printBlock ++
    "  Fragmentacion externa: ".toList ++ IntField.print .plain (mmFragmentation percent mm) ++
    "%\n".toList ++ "====================================\n".toList

/-! Containers -/

def valuesFormat : TextFormat (List Int × Unit) :=
  many (number .plain ' ' blank_stops) (literal ['\n'])
    ((begins_number .plain ' ' blank_stops).apart (begins_literal rfl rfl))

theorem printValues_eq (values : List Int) : printValues values = valuesFormat.write (values, ()) :=
  rfl

theorem printValues_append_inj {values values' : List Int} {rest rest' : List Char}
    (h : printValues values ++ rest = printValues values' ++ rest') :
    values = values' ∧ rest = rest' := by
  rw [printValues_eq, printValues_eq] at h
  obtain ⟨hpair, hrest⟩ := valuesFormat.append_inj h
  exact ⟨congrArg Prod.fst hpair, hrest⟩

theorem queuePrint_eq_iff {queue queue' : Queue} :
    queuePrint queue = queuePrint queue' ↔ queue.front = queue'.front := by
  constructor
  · intro h
    unfold queuePrint at h
    exact (printValues_append_inj (congrArg (· ++ []) (List.append_cancel_left h))).1
  · intro h
    unfold queuePrint
    rw [h]

/-- Two rings print the same exactly when they hold the same values in the same order,
wherever these lie in the arrays. -/
theorem cqPrint_eq_iff {cq cq' : CircularQueue} : cqPrint cq = cqPrint cq' ↔ cq.toList = cq'.toList := by
  let format := after "CircularQueue [frente -> final, size=".toList
    (seq ((number .plain ']' (by decide)).before ": ".toList) valuesFormat)
  have hwrite : ∀ c : CircularQueue, cqPrint c = format.write (c.size, (c.toList, ())) := by
    intro c
    unfold cqPrint
    simp [format, printValues_eq, CircularQueue.toList]
  constructor
  · intro h
    rw [hwrite, hwrite] at h
    exact congrArg (fun x => x.2.1) (format.write_injective h)
  · intro h
    have hsize : cq.size = cq'.size := by
      rw [← cq.length_toList, h, cq'.length_toList]
    rw [hwrite, hwrite, h, hsize]

def nodeFormat : TextFormat (Int × Int) :=
  after "(pid=".toList (seq ((number .plain ',' (by decide)).before " burst=".toList)
    ((number .plain ')' paren_stops).before " ".toList))

def llFormat : TextFormat (Int × List (Int × Int) × Unit) :=
  after "LinkedList [PID ordenado, size=".toList
    (seq ((number .plain ']' (by decide)).before ": ".toList)
      (many nodeFormat (literal "\n".toList)
        ((begins_after (p := (· == '(')) rfl rfl _).apart (begins_literal rfl rfl))))

theorem printNode_eq (node : LLNode) :
    printNode node = nodeFormat.write (node.pid, node.burstTime) := by
  unfold printNode
  simp [nodeFormat]

theorem llPrint_eq (list : LinkedList) : llPrint list =
    llFormat.write (list.size, list.head.map (fun node => (node.pid, node.burstTime)), ()) := by
  unfold llPrint
  rw [funext printNode_eq]
  simp [llFormat, List.flatMap_map]

theorem llPrint_append_inj {list list' : LinkedList} {rest rest' : List Char}
    (h : llPrint list ++ rest = llPrint list' ++ rest') : list = list' ∧ rest = rest' := by
  rw [llPrint_eq, llPrint_eq] at h
  obtain ⟨hvalue, hrest⟩ := llFormat.append_inj h
  have hsize : (list.size : Int) = list'.size := congrArg Prod.fst hvalue
  have hnodes := congrArg (fun x => x.2.1) hvalue
  have hinj : Function.Injective (fun node : LLNode => (node.pid, node.burstTime)) := by
    rintro ⟨pid, burst⟩ ⟨pid', burst'⟩ he
    obtain ⟨rfl, rfl⟩ := Prod.mk.inj he
    rfl
  obtain ⟨head, size⟩ := list
  obtain ⟨head', size'⟩ := list'
  obtain rfl : head = head' := hinj.list_map hnodes
  obtain rfl : size = size' := Int.ofNat.inj hsize
  exact ⟨rfl, hrest⟩

/-! The memory manager -/

def spanFormat : TextFormat (Int × Int) :=
  seq ((number (.right 4) ' ' blank_stops).before "| size=".toList)
    ((number (.right 4) ']' (by decide)).before "\n".toList)

def freeFormat : TextFormat (Int × Int) := after "  [LIBRE   | start=".toList spanFormat

def takenFormat : TextFormat (Int × Int × Int) :=
  after "  [PID=".toList
    (seq ((number (.left 4) ' ' blank_stops).before "| start=".toList) spanFormat)

def blockFormat : TextFormat ((Int × Int) ⊕ (Int × Int × Int)) :=
  either freeFormat takenFormat
    (apart_of_prefixes (p := "  [L".toList) (q := "  [P".toList) (by decide) (by decide)
      (fun _ => ⟨_, rfl⟩) (fun _ => ⟨_, rfl⟩))

def fragmentationFormat : TextFormat Int :=
  after "  Fragmentacion externa: ".toList
    ((number .plain '%' (by decide)).before "\n====================================\n".toList)

theorem block_apart_fragmentation : Apart blockFormat fragmentationFormat := by
  apply apart_of_prefixes (p := "  [".toList) (q := "  F".toList) (by decide) (by decide)
  · rintro (span | taken)
    · exact ⟨_, rfl⟩
    · exact ⟨_, rfl⟩
  · exact fun _ => ⟨_, rfl⟩

def memoryFormat : TextFormat (Int × List ((Int × Int) ⊕ (Int × Int × Int)) × Int) :=
  after "=== Estado de Memoria (total=".toList
    (seq ((number .plain ')' paren_stops).before " ===\n".toList)
      (many blockFormat fragmentationFormat block_apart_fragmentation))

/-- What a line says of a block; the PID of a free one is not printed. -/
def MemoryBlock.line (b : MemoryBlock) : (Int × Int) ⊕ (Int × Int × Int) :=
  if b.free then .inl (b.start, b.size) else .inr (b.pid, b.start, b.size)

def lineBlock : (Int × Int) ⊕ (Int × Int × Int) → MemoryBlock
  | .inl (start, size) => ⟨start, size, true, -1⟩
  | .inr (pid, start, size) => ⟨start, size, false, pid⟩

theorem line_lineBlock (line : (Int × Int) ⊕ (Int × Int × Int)) : (lineBlock line).line = line := by
  rcases line with ⟨start, size⟩ | ⟨pid, start, size⟩ <;> rfl

theorem lineBlock_line_iff {b : MemoryBlock} :
    lineBlock b.line = b ↔ (b.free = true → b.pid = -1) := by
  obtain ⟨start, size, free, pid⟩ := b
  cases free with
  | false => simp [MemoryBlock.line, lineBlock]
  | true => simp [MemoryBlock.line, lineBlock, eq_comm]

theorem printBlock_eq (b : MemoryBlock) : printBlock b = blockFormat.write b.line := by
  unfold printBlock
  cases hb : b.free with
  | true => simp [MemoryBlock.line, hb, blockFormat, freeFormat, spanFormat]
  | false => simp [MemoryBlock.line, hb, blockFormat, takenFormat, spanFormat]

theorem mmPrint_eq (percent : Int → Int → Int) (mm : MemoryManager) : mmPrint percent mm =
    memoryFormat.write (mm.totalMemory, mm.head.map MemoryBlock.line, mmFragmentation percent mm) := by
  unfold mmPrint
  rw [funext printBlock_eq]
  simp [memoryFormat, fragmentationFormat, List.flatMap_map]

/-- The memory and the percentage a text of `mm_print` shows, with the text after it. -/
def readMemory (cs : List Char) : Option (MemoryManager × Int × List Char) :=
  (memoryFormat.read cs).map fun x => (⟨x.1.2.1.map lineBlock, x.1.1⟩, x.1.2.2, x.2)

/-- No free block is owned. -/
def FreePids (mm : MemoryManager) : Prop := ∀ b ∈ mm.head, b.free = true → b.pid = -1

namespace FreePids

variable {mm : MemoryManager}

theorem coalesce (h : FreePids mm) : FreePids (mmCoalesce mm) := by
  obtain ⟨head, total⟩ := mm
  cases head with
  | nil => exact h
  | cons cur rest => exact coalesceFrom_pid h

theorem allocate (h : FreePids mm) (a : Allocator) (size : Int) : FreePids (a.call mm size).2 := by
  rcases a.call_cases mm size with ⟨he, -⟩ | ⟨c, -, -, he⟩
  · rw [he]
    exact h
  · rw [he]
    intro b hb hfree
    have hsplit : ∀ x ∈ splitBlock c.item size (a.tag size), x.free = true → x.pid = -1 := by
      intro x hx hxfree
      rw [splitBlock] at hx
      split_ifs at hx <;> simp at hx
      · rcases hx with rfl | rfl
        · exact absurd hxfree Bool.false_ne_true
        · rfl
      · rw [hx] at hxfree
        exact absurd hxfree Bool.false_ne_true
    simp only [List.mem_append] at hb
    rcases hb with (hb | hb) | hb
    · exact h b (by rw [← c.split]; simp [hb]) hfree
    · exact hsplit b hb hfree
    · exact h b (by rw [← c.split]; simp [hb]) hfree

theorem free (h : FreePids mm) (pid : Int) : FreePids (mmFree mm pid) := by
  apply coalesce
  intro b hb hfree
  obtain ⟨c, hc, rfl⟩ := List.mem_map.mp hb
  by_cases hm : (!c.free && c.pid == pid) = true
  · simp [markFree, hm]
  · simp only [markFree, hm] at hfree ⊢
    exact h c hc hfree

theorem relocate (position : Int) {l : List MemoryBlock} (h : ∀ b ∈ l, b.free = true → b.pid = -1) :
    ∀ b ∈ (relocate position l).1, b.free = true → b.pid = -1 := by
  induction l generalizing position with
  | nil => exact h
  | cons cur rest ih =>
    obtain ⟨hcur, hrest⟩ := List.forall_mem_cons.mp h
    cases hc : cur.free with
    | true =>
      rw [relocate_cons_free hc]
      exact List.forall_mem_cons.mpr ⟨hcur, ih position hrest⟩
    | false =>
      rw [relocate_cons hc]
      exact List.forall_mem_cons.mpr ⟨hcur, ih _ hrest⟩

theorem compact (h : FreePids mm) : FreePids (mmCompact mm) := by
  have hkept : ∀ b ∈ deleteFree (MiniOS.relocate 0 mm.head).1, b.free = true → b.pid = -1 := by
    have hmoved := relocate 0 h
    cases hl : (MiniOS.relocate 0 mm.head).1 with
    | nil => simp [deleteFree]
    | cons cur rest =>
      rw [hl] at hmoved
      rw [deleteFree, deleteFrom_eq]
      obtain ⟨hcur, hrest⟩ := List.forall_mem_cons.mp hmoved
      exact List.forall_mem_cons.mpr ⟨hcur, fun b hb => hrest b (List.mem_of_mem_filter hb)⟩
  rw [mmCompact]
  split_ifs
  · intro b hb hfree
    rcases List.mem_append.mp hb with hb | hb
    · exact hkept b hb hfree
    · rw [List.mem_singleton.mp hb]
  · exact hkept

theorem run (calls : List MmCall) (h : FreePids mm) : FreePids (mmRun calls mm) := by
  induction calls generalizing mm with
  | nil => exact h
  | cons call calls ih =>
    apply ih
    cases call with
    | allocate a size => exact h.allocate a size
    | free pid => exact h.free pid
    | coalesce => exact h.coalesce
    | compact => exact h.compact

end FreePids

/-- The reader accepts what `mm_print` prints of a memory without owned free blocks, with any
percentage, and nothing else. -/
theorem readMemory_iff {cs rest : List Char} {mm : MemoryManager} {shown : Int} :
    readMemory cs = some (mm, shown, rest) ↔ FreePids mm ∧
      memoryFormat.write (mm.totalMemory, mm.head.map MemoryBlock.line, shown) ++ rest = cs := by
  simp only [readMemory, Option.map_eq_some_iff, Prod.exists, memoryFormat.read_iff, Prod.mk.injEq]
  constructor
  · rintro ⟨total, lines, _, _, htext, rfl, rfl, rfl⟩
    have hlines : lines.map (MemoryBlock.line ∘ lineBlock) = lines :=
      (List.map_congr_left (fun line _ => line_lineBlock line)).trans (List.map_id lines)
    refine ⟨?_, ?_⟩
    · intro b hb
      obtain ⟨line, -, rfl⟩ := List.mem_map.mp hb
      exact lineBlock_line_iff.mp (by rw [line_lineBlock])
    · rw [← htext, List.map_map, hlines]
  · rintro ⟨hpids, rfl⟩
    have hblocks : mm.head.map (lineBlock ∘ MemoryBlock.line) = mm.head :=
      (List.map_congr_left (fun b hb => lineBlock_line_iff.mpr (hpids b hb))).trans
        (List.map_id mm.head)
    exact ⟨_, _, _, _, rfl, by rw [List.map_map, hblocks], rfl, rfl⟩

/-- After any calls whatever, what `mm_print` prints is the memory itself. -/
theorem run_mmPrint (percent : Int → Int → Int) (totalMemory : Int) (calls : List MmCall)
    (rest : List Char) :
    let mm := mmRun calls (mmCreate totalMemory)
    readMemory (mmPrint percent mm ++ rest) = some (mm, mmFragmentation percent mm, rest) := by
  intro mm
  have hpids : FreePids mm := FreePids.run calls (by simp [FreePids, mmCreate])
  exact readMemory_iff.mpr ⟨hpids, by rw [mmPrint_eq]⟩

end MiniOS
