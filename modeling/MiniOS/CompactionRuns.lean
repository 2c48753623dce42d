import MiniOS.Compaction
import MiniOS.FreeUndo
import MiniOS.Simulation

/-! What compaction is for. Until the next release a compacted manager is a bump
allocator: a position that every granted request moves, whatever the placement
policy. And compaction may be deferred: between releases it makes no difference to
what the next compaction leaves. -/

namespace MiniOS

open Simulation

theorem sizeTotal_append (l m : List MemoryBlock) : sizeTotal (l ++ m) = sizeTotal l + sizeTotal m := by
  rw [sizeTotal, List.map_append, List.sum_append, sizeTotal, sizeTotal]

theorem packed_append (position : Int) (l m : List MemoryBlock) :
    packed position (l ++ m) = packed position l ++ packed (position + sizeTotal l) m := by
  induction l generalizing position with
  | nil => simp [packed, sizeTotal]
  | cons b l ih => simp [packed, ih, sizeTotal, Int.add_assoc]

theorem packed_packed (position position' : Int) (l : List MemoryBlock) :
    packed position (packed position' l) = packed position l := by
  induction l generalizing position position' with
  | nil => rfl
  | cons b l ih => simp [packed, ih]

theorem occupied_compactSpec (mm : MemoryManager) :
    occupied (compactSpec mm) = packed 0 (occupied mm.head) := by
  rw [compactSpec, occupied_append, occupied_packed]
  by_cases h : sizeTotal (occupied mm.head) < mm.totalMemory
  · rw [if_pos h, occupied_cons_free rfl]
    exact List.append_nil _
  · rw [if_neg h]
    exact List.append_nil _

theorem headOccupied_iff {mm : MemoryManager} :
    HeadOccupied mm ↔ ∃ b rest, mm.head = b :: rest ∧ b.free = false := by
  constructor
  · rintro ⟨b, hb, hfree⟩
    obtain ⟨rest, hl⟩ := List.head?_eq_some_iff.mp hb
    exact ⟨b, rest, hl, hfree⟩
  · rintro ⟨b, rest, hl, hfree⟩
    exact ⟨b, by rw [hl, List.head?_cons], hfree⟩

/-! A bump allocator -/

/-- The occupied blocks lie side by side from 0 to `position`. -/
structure Packed (mm : MemoryManager) (position : Int) : Prop where
  wellFormed : WellFormed mm
  packed_eq : packed 0 (occupied mm.head) = occupied mm.head
  used_eq : sizeTotal (occupied mm.head) = position
  occupied_ne : occupied mm.head ≠ []

theorem WellFormed.compact_packed {mm : MemoryManager} (h : WellFormed mm) (hocc : HeadOccupied mm) :
    Packed (mmCompact mm) (sizeTotal (occupied mm.head)) := by
  have hcomp := h.compact hocc
  have hlist : occupied (mmCompact mm).head = packed 0 (occupied mm.head) := by
    rw [hcomp.head_eq, occupied_compactSpec]
  refine ⟨hcomp.wellFormed, ?_, ?_, ?_⟩
  · rw [hlist, packed_packed]
  · rw [hlist, sizeTotal_packed]
  · obtain ⟨b, rest, hl, hfree⟩ := headOccupied_iff.mp hocc
    rw [hlist, hl, occupied_cons hfree]
    exact List.cons_ne_nil _ _

theorem append_singleton_of_free {occ before after : List MemoryBlock} {x f : MemoryBlock}
    (hocc : ∀ b ∈ occ, b.free = false) (he : before ++ x :: after = occ ++ [f]) (hx : x.free = true) :
    before = occ ∧ x = f ∧ after = [] := by
  rcases List.append_eq_append_iff.mp he with ⟨as, h₁, h₂⟩ | ⟨as, h₁, h₂⟩
  · cases as with
    | nil =>
      rw [List.nil_append, List.cons.injEq] at h₂
      rw [List.append_nil] at h₁
      exact ⟨h₁.symm, h₂.1, h₂.2⟩
    | cons y as =>
      rw [List.cons_append, List.cons.injEq] at h₂
      have hmem : x ∈ occ := by
        rw [h₁, h₂.1]
        exact List.mem_append_right _ List.mem_cons_self
      simp [hocc x hmem] at hx
  · cases as with
    | nil =>
      rw [List.nil_append, List.cons.injEq] at h₂
      rw [List.append_nil] at h₁
      exact ⟨h₁, h₂.1.symm, h₂.2.symm⟩
    | cons y as => simp at h₂

/-- One call of an allocator that hands out addresses in increasing order. -/
def bumpAllocate (total position size : Int) : Int × Int :=
  if size ≤ total - position then (position, position + size) else (-1, position)

namespace Packed

variable {mm : MemoryManager} {position : Int}

theorem head_eq (h : Packed mm position) : mm.head = compactSpec mm := by
  have he := h.wellFormed.eq_of_occupied h.wellFormed.compactSpec.1 rfl
    (by rw [occupied_compactSpec, h.packed_eq])
  exact congrArg MemoryManager.head he

theorem headOccupied (h : Packed mm position) : HeadOccupied mm := by
  obtain ⟨b, rest, hl⟩ := List.exists_cons_of_ne_nil h.occupied_ne
  have hb : b.free = false := (mem_occupied.mp (hl ▸ List.mem_cons_self)).2
  rw [headOccupied_iff, h.head_eq, compactSpec, h.packed_eq, hl]
  exact ⟨b, _, rfl, hb⟩

theorem occupied_free (_ : Packed mm position) : ∀ b ∈ occupied mm.head, b.free = false :=
  fun _ hb => (mem_occupied.mp hb).2

theorem blocks_eq (h : Packed mm position) : mm.head = occupied mm.head ++
    if position < mm.totalMemory then [⟨position, mm.totalMemory - position, true, -1⟩] else [] := by
  have hl := h.head_eq
  rwa [compactSpec, h.packed_eq, h.used_eq] at hl

theorem mem_cases (h : Packed mm position) {b : MemoryBlock} (hb : b ∈ mm.head) :
    b.free = false ∨ b = ⟨position, mm.totalMemory - position, true, -1⟩ := by
  rw [h.blocks_eq] at hb
  rcases List.mem_append.mp hb with hocc | hlast
  · exact Or.inl (h.occupied_free b hocc)
  · by_cases hroom : position < mm.totalMemory
    · rw [if_pos hroom] at hlast
      exact Or.inr (List.mem_singleton.mp hlast)
    · rw [if_neg hroom] at hlast
      exact absurd hlast List.not_mem_nil

theorem refused (h : Packed mm position) (a : Allocator) {size : Int}
    (hlt : mm.totalMemory - position < size) : a.call mm size = (-1, mm) := by
  rcases a.call_cases mm size with ⟨hcall, -⟩ | ⟨c, -, hfit, -⟩
  · exact hcall
  · obtain ⟨hfree, hle⟩ := fits_iff.mp hfit
    rcases h.mem_cases c.item_mem with hocc | hlast
    · simp [hocc] at hfree
    · rw [hlast] at hle
      exact absurd hle (not_le.mpr hlt)

/-- Every policy finds the one free block behind the occupied ones. -/
theorem granted (h : Packed mm position) (a : Allocator) {size : Int} (hsize : 1 ≤ size)
    (hle : size ≤ mm.totalMemory - position) :
    (a.call mm size).1 = position ∧ Packed (a.call mm size).2 (position + size) := by
  have hroom : position < mm.totalMemory := by omega
  have hhead : mm.head = occupied mm.head ++ [⟨position, mm.totalMemory - position, true, -1⟩] := by
    have hl := h.blocks_eq
    rwa [if_pos hroom] at hl
  rcases a.call_cases mm size with ⟨-, hnone⟩ | ⟨c, -, hfit, hcall⟩
  · have hf := hnone ⟨position, mm.totalMemory - position, true, -1⟩ (by rw [hhead]; simp)
    exact absurd (fits_iff.mpr ⟨rfl, hle⟩) (by rw [hf]; exact Bool.false_ne_true)
  · obtain ⟨hbefore, hitem, hafter⟩ :=
      append_singleton_of_free h.occupied_free (c.split.trans hhead) (fits_iff.mp hfit).1
    have hocc : occupied (a.call mm size).2.head =
        occupied mm.head ++ [⟨position, size, false, a.tag size⟩] := by
      have hself : occupied (occupied mm.head) = occupied mm.head :=
        List.filter_eq_self.mpr (fun b hb => by simp [h.occupied_free b hb])
      rw [hcall, hafter, List.append_nil, occupied_append, hbefore, hself, hitem,
        occupied_splitBlock _ hle]
    refine ⟨by rw [hcall, hitem], h.wellFormed.allocate a hsize, ?_, ?_, ?_⟩
    · rw [hocc, packed_append, h.packed_eq, h.used_eq, Int.zero_add]
      rfl
    · rw [hocc, sizeTotal_append, h.used_eq]
      simp [sizeTotal]
    · rw [hocc]
      simp

theorem allocate (h : Packed mm position) (a : Allocator) {size : Int} (hsize : 1 ≤ size) :
    (a.call mm size).1 = (bumpAllocate mm.totalMemory position size).1 ∧
      Packed (a.call mm size).2 (bumpAllocate mm.totalMemory position size).2 := by
  by_cases hle : size ≤ mm.totalMemory - position
  · rw [bumpAllocate, if_pos hle]
    exact h.granted a hsize hle
  · rw [bumpAllocate, if_neg hle, h.refused a (not_le.mp hle)]
    exact ⟨rfl, h⟩

theorem coalesce (h : Packed mm position) : mmCoalesce mm = mm :=
  h.wellFormed.coalesce.eq_of_occupied h.wellFormed rfl (occupied_mmCoalesce mm)

theorem compact (h : Packed mm position) : mmCompact mm = mm := by
  apply (h.wellFormed.compact h.headOccupied).wellFormed.eq_of_occupied h.wellFormed
  · exact MmCall.exec_totalMemory mm .compact
  · rw [(h.wellFormed.compact h.headOccupied).head_eq, occupied_compactSpec, h.packed_eq]

end Packed

/-- The calls between two releases. -/
def MmCall.Keeps : MmCall → Prop
  | .allocate _ size => 1 ≤ size
  | .free _ => False
  | _ => True

abbrev KeepingCall := { call : MmCall // call.Keeps }

/-- The address a call returns, if it returns one, and the manager after it. -/
def KeepingCall.exec (mm : MemoryManager) (call : KeepingCall) : Option Int × MemoryManager :=
  (match call.1 with
    | .allocate a size => some (a.call mm size).1
    | _ => none, call.1.exec mm)

def KeepingCall.bump (total position : Int) (call : KeepingCall) : Option Int × Int :=
  match call.1 with
  | .allocate _ size =>
    let r := bumpAllocate total position size
    (some r.1, r.2)
  | _ => (none, position)

theorem Packed.call {mm : MemoryManager} {position : Int} (h : Packed mm position)
    (call : KeepingCall) :
    (call.exec mm).1 = (call.bump mm.totalMemory position).1 ∧
      Packed (call.exec mm).2 (call.bump mm.totalMemory position).2 := by
  obtain ⟨call, hkeeps⟩ := call
  cases call with
  | allocate a size =>
    obtain ⟨haddr, hnext⟩ := h.allocate a hkeeps
    exact ⟨congrArg some haddr, hnext⟩
  | free pid => exact hkeeps.elim
  | coalesce =>
    refine ⟨rfl, ?_⟩
    show Packed (mmCoalesce mm) position
    rwa [h.coalesce]
  | compact =>
    refine ⟨rfl, ?_⟩
    show Packed (mmCompact mm) position
    rwa [h.compact]

theorem KeepingCall.exec_totalMemory (mm : MemoryManager) (call : KeepingCall) :
    (call.exec mm).2.totalMemory = mm.totalMemory := MmCall.exec_totalMemory mm call.1

/-- After a compaction every policy is the same bump allocator, until the next release. -/
theorem reachable_compact_bumps {totalMemory : Int} (ht : 1 ≤ totalMemory) {calls : List MmCall}
    (hsized : ∀ call ∈ calls, call.Sized) (hocc : CompactsOccupied calls (mmCreate totalMemory))
    (hhead : HeadOccupied (mmRun calls (mmCreate totalMemory))) (later : List KeepingCall) :
    let mm := mmRun calls (mmCreate totalMemory)
    let real := specRun KeepingCall.exec later (mmCompact mm)
    let bump := specRun (KeepingCall.bump totalMemory) later (sizeTotal (occupied mm.head))
    real.1 = bump.1 ∧ Packed real.2 bump.2 := by
  intro mm real bump
  have hwf : WellFormed mm := (mmCreate_wellFormed ht).run_sized hsized hocc
  have hpacked := hwf.compact_packed hhead
  have htotal : (mmCompact mm).totalMemory = totalMemory := by
    have hc : (mmCompact mm).totalMemory = mm.totalMemory := MmCall.exec_totalMemory mm .compact
    rw [hc]
    exact mmRun_totalMemory calls (mmCreate totalMemory)
  have hstep : ∀ (m : MemoryManager) (position : Int) (call : KeepingCall),
      (Packed m position ∧ m.totalMemory = totalMemory) →
      (call.exec m).1 = (call.bump totalMemory position).1 ∧
        Packed (call.exec m).2 (call.bump totalMemory position).2 ∧
        (call.exec m).2.totalMemory = totalMemory := by
    rintro m position call ⟨hm, rfl⟩
    obtain ⟨hout, hnext⟩ := hm.call call
    exact ⟨hout, hnext, call.exec_totalMemory m⟩
  obtain ⟨hout, hend, -⟩ := specRun_agree
    (R := fun m position => Packed m position ∧ m.totalMemory = totalMemory) hstep later
    ⟨hpacked, htotal⟩
  exact ⟨hout, hend⟩

theorem reachable_compact_bumps_example :
    let calls : List MmCall := [.allocate (.greedyFirstFit 1) 4, .allocate (.greedyFirstFit 2) 3,
      .allocate (.greedyFirstFit 3) 2, .free 2]
    let later : List KeepingCall := [⟨.allocate (.greedyWorstFit 4) 3, show 1 ≤ 3 by decide⟩,
      ⟨.allocate .mmAllocateBestFit 2, show 1 ≤ 2 by decide⟩]
    let mm := mmRun calls (mmCreate 10)
    let real := specRun KeepingCall.exec later (mmCompact mm)
    let bump := specRun (KeepingCall.bump 10) later (sizeTotal (occupied mm.head))
    real.1 = bump.1 ∧ Packed real.2 bump.2 := by
  intro calls later
  have hsized : ∀ call ∈ calls, call.Sized := by simp [calls, MmCall.Sized]
  have hocc : CompactsOccupied calls (mmCreate 10) := by simp [calls, CompactsOccupied]
  exact reachable_compact_bumps (by decide) hsized hocc ⟨⟨0, 4, false, 1⟩, by decide, rfl⟩ later

/-! Compaction deferred -/

theorem packed_filter {f : MemoryBlock → Bool} (hf : ∀ (b : MemoryBlock) (start : Int),
    f { b with start := start } = f b) (position position' : Int) (l : List MemoryBlock) :
    packed position ((packed position' l).filter f) = packed position (l.filter f) := by
  induction l generalizing position position' with
  | nil => rfl
  | cons b l ih =>
    cases hb : f b with
    | true =>
      rw [packed, List.filter_cons_of_pos (by rw [hf, hb]), List.filter_cons_of_pos hb, packed, ih,
        packed]
    | false =>
      rw [packed, List.filter_cons_of_neg (by rw [hf, hb]; exact Bool.false_ne_true),
        List.filter_cons_of_neg (by rw [hb]; exact Bool.false_ne_true), ih]

theorem WellFormed.head_of_start {mm : MemoryManager} (h : WellFormed mm) {b : MemoryBlock}
    (hb : b ∈ mm.head) (hstart : b.start = 0) : ∃ rest, mm.head = b :: rest := by
  obtain ⟨c, rest, hl⟩ := List.exists_cons_of_ne_nil (List.ne_nil_of_mem hb)
  have htiles := h.tiles
  have hpos := h.positive
  rw [hl] at htiles hpos hb
  obtain ⟨hzero, hrest⟩ := htiles
  obtain ⟨hc, hpos⟩ := Tiling.Layout.Positive.cons.mp hpos
  rcases List.mem_cons.mp hb with rfl | hb
  · exact ⟨rest, hl⟩
  · have hbounds := (hrest.mem_bounds hpos hb).1
    simp only [blockLayout_start, blockLayout_stop, blockLayout_size] at hbounds hzero hc
    omega

theorem WellFormed.headOccupied_iff {mm : MemoryManager} (h : WellFormed mm) :
    HeadOccupied mm ↔ ∃ b rest, occupied mm.head = b :: rest ∧ b.start = 0 := by
  constructor
  · intro hocc
    obtain ⟨b, rest, hl, hfree⟩ := MiniOS.headOccupied_iff.mp hocc
    have htiles := h.tiles
    rw [hl] at htiles
    exact ⟨b, occupied rest, by rw [hl, occupied_cons hfree], htiles.1⟩
  · rintro ⟨b, rest, hl, hstart⟩
    obtain ⟨hmem, hfree⟩ := mem_occupied.mp (hl ▸ List.mem_cons_self : b ∈ occupied mm.head)
    obtain ⟨after, hsplit⟩ := h.head_of_start hmem hstart
    exact MiniOS.headOccupied_iff.mpr ⟨b, after, hsplit, hfree⟩

/-- A release leaves the head occupied when the head was and is not released. -/
theorem WellFormed.headOccupied_free {mm : MemoryManager} (h : WellFormed mm) (pid : Int) :
    HeadOccupied (mmFree mm pid) ↔
      ∃ b rest, occupied mm.head = b :: rest ∧ b.start = 0 ∧ b.pid ≠ pid := by
  rw [(h.free pid).headOccupied_iff, occupied_mmFree]
  constructor
  · rintro ⟨b, rest, hl, hstart⟩
    have hb : b ∈ (occupied mm.head).filter (fun b => !(b.pid == pid)) := hl ▸ List.mem_cons_self
    obtain ⟨hocc, hpid⟩ := List.mem_filter.mp hb
    obtain ⟨hmem, hfree⟩ := mem_occupied.mp hocc
    obtain ⟨after, hsplit⟩ := h.head_of_start hmem hstart
    exact ⟨b, occupied after, by rw [hsplit, occupied_cons hfree], hstart, by simpa using hpid⟩
  · rintro ⟨b, rest, hl, hstart, hpid⟩
    exact ⟨b, rest.filter (fun b => !(b.pid == pid)), by
      rw [hl, List.filter_cons_of_pos (by simpa using hpid)], hstart⟩

/-- The same processes hold the same amounts in the same order; `v` was compacted more
often. -/
structure SameOrder (u v : MemoryManager) : Prop where
  left : WellFormed u
  right : WellFormed v
  total_eq : u.totalMemory = v.totalMemory
  packed_eq : packed 0 (occupied u.head) = packed 0 (occupied v.head)
  head : HeadOccupied u → HeadOccupied v

namespace SameOrder

variable {u v : MemoryManager}

theorem refl (h : WellFormed u) : SameOrder u u := ⟨h, h, rfl, rfl, id⟩

theorem first (h : SameOrder u v) {b : MemoryBlock} {rest : List MemoryBlock}
    (hl : occupied u.head = b :: rest) (hstart : b.start = 0) :
    ∃ c rest', occupied v.head = c :: rest' ∧ c.start = 0 ∧ c.pid = b.pid := by
  have hocc := h.left.headOccupied_iff.mpr ⟨b, rest, hl, hstart⟩
  obtain ⟨c, rest', hl', hzero⟩ := h.right.headOccupied_iff.mp (h.head hocc)
  have hp := h.packed_eq
  rw [hl, hl', packed, packed, List.cons.injEq] at hp
  exact ⟨c, rest', hl', hzero, (congrArg MemoryBlock.pid hp.1).symm⟩

theorem free (h : SameOrder u v) (pid : Int) : SameOrder (mmFree u pid) (mmFree v pid) where
  left := h.left.free pid
  right := h.right.free pid
  total_eq := h.total_eq
  packed_eq := by
    have hf : ∀ (b : MemoryBlock) (start : Int),
        (fun b : MemoryBlock => !(b.pid == pid)) { b with start := start } =
          (fun b : MemoryBlock => !(b.pid == pid)) b := fun _ _ => rfl
    rw [occupied_mmFree, occupied_mmFree, ← packed_filter hf 0 0, h.packed_eq, packed_filter hf]
  head := by
    rw [h.left.headOccupied_free, h.right.headOccupied_free]
    rintro ⟨b, rest, hl, hstart, hpid⟩
    obtain ⟨c, rest', hl', hzero, he⟩ := h.first hl hstart
    exact ⟨c, rest', hl', hzero, by rwa [he]⟩

theorem coalesce (h : SameOrder u v) : SameOrder (mmCoalesce u) (mmCoalesce v) where
  left := h.left.coalesce
  right := h.right.coalesce
  total_eq := h.total_eq
  packed_eq := by rw [occupied_mmCoalesce, occupied_mmCoalesce, h.packed_eq]
  head := by
    rw [h.left.coalesce.headOccupied_iff, h.right.coalesce.headOccupied_iff, occupied_mmCoalesce,
      occupied_mmCoalesce, ← h.left.headOccupied_iff, ← h.right.headOccupied_iff]
    exact h.head

theorem compact (h : SameOrder u v) (hocc : HeadOccupied u) : SameOrder u (mmCompact v) where
  left := h.left
  right := (h.right.compact (h.head hocc)).wellFormed
  total_eq := h.total_eq.trans (MmCall.exec_totalMemory v .compact).symm
  packed_eq := by
    rw [(h.right.compact (h.head hocc)).head_eq, occupied_compactSpec, packed_packed, h.packed_eq]
  head := fun _ => (h.right.compact_packed (h.head hocc)).headOccupied

theorem compact_eq (h : SameOrder u v) (hocc : HeadOccupied u) : mmCompact u = mmCompact v := by
  have hu := h.left.compact hocc
  have hv := h.right.compact (h.head hocc)
  apply hu.wellFormed.eq_of_occupied hv.wellFormed
  · rw [show (mmCompact u).totalMemory = u.totalMemory from MmCall.exec_totalMemory u .compact,
      show (mmCompact v).totalMemory = v.totalMemory from MmCall.exec_totalMemory v .compact,
      h.total_eq]
  · rw [hu.head_eq, hv.head_eq, occupied_compactSpec, occupied_compactSpec, h.packed_eq]

end SameOrder

def MmCall.Releases : MmCall → Prop
  | .allocate _ _ => False
  | _ => True

def deferred (calls : List MmCall) : List MmCall := calls.filter (fun call => call ≠ .compact)

theorem WellFormed.headOccupied_of_run {calls : List MmCall} {mm : MemoryManager}
    (h : WellFormed mm) (hcalls : ∀ call ∈ calls, call.Releases)
    (hocc : HeadOccupied (mmRun (deferred calls) mm)) : HeadOccupied mm := by
  induction calls generalizing mm with
  | nil => exact hocc
  | cons call calls ih =>
    obtain ⟨hcall, hrest⟩ := List.forall_mem_cons.mp hcalls
    cases call with
    | allocate a size => exact hcall.elim
    | free pid =>
      obtain ⟨b, rest, hl, hstart, -⟩ := (h.headOccupied_free pid).mp (ih (h.free pid) hrest hocc)
      exact h.headOccupied_iff.mpr ⟨b, rest, hl, hstart⟩
    | coalesce =>
      have hhead := ih h.coalesce hrest hocc
      rwa [h.coalesce.headOccupied_iff, occupied_mmCoalesce, ← h.headOccupied_iff] at hhead
    | compact => exact ih h hrest hocc

theorem SameOrder.run {calls : List MmCall} {u v : MemoryManager} (h : SameOrder u v)
    (hcalls : ∀ call ∈ calls, call.Releases) (hocc : HeadOccupied (mmRun (deferred calls) u)) :
    SameOrder (mmRun (deferred calls) u) (mmRun calls v) := by
  induction calls generalizing u v with
  | nil => exact h
  | cons call calls ih =>
    have hhead := h.left.headOccupied_of_run hcalls hocc
    obtain ⟨hcall, hrest⟩ := List.forall_mem_cons.mp hcalls
    cases call with
    | allocate a size => exact hcall.elim
    | free pid => exact ih (h.free pid) hrest hocc
    | coalesce => exact ih h.coalesce hrest hocc
    | compact => exact ih (h.compact hhead) hrest hocc

/-- Between releases compaction may be left to the last moment, while the head stays occupied. -/
theorem reachable_compact_deferred {totalMemory : Int} (ht : 1 ≤ totalMemory) {calls : List MmCall}
    (hsized : ∀ call ∈ calls, call.Sized) (hocc : CompactsOccupied calls (mmCreate totalMemory))
    {later : List MmCall} (hlater : ∀ call ∈ later, call.Releases)
    (hhead : HeadOccupied (mmRun (deferred later) (mmRun calls (mmCreate totalMemory)))) :
    mmCompact (mmRun later (mmRun calls (mmCreate totalMemory))) =
      mmCompact (mmRun (deferred later) (mmRun calls (mmCreate totalMemory))) := by
  have hwf := (mmCreate_wellFormed ht).run_sized hsized hocc
  exact (((SameOrder.refl hwf).run hlater hhead).compact_eq hhead).symm

theorem reachable_compact_deferred_example :
    let calls : List MmCall := [.allocate (.greedyFirstFit 1) 4, .allocate (.greedyFirstFit 2) 3,
      .allocate (.greedyFirstFit 3) 2]
    let later : List MmCall := [.free 2, .compact, .coalesce, .free 3, .compact]
    mmCompact (mmRun later (mmRun calls (mmCreate 10))) =
      mmCompact (mmRun (deferred later) (mmRun calls (mmCreate 10))) := by
  intro calls later
  have hsized : ∀ call ∈ calls, call.Sized := by simp [calls, MmCall.Sized]
  have hocc : CompactsOccupied calls (mmCreate 10) := by simp [calls, CompactsOccupied]
  have hlater : ∀ call ∈ later, call.Releases := by simp [later, MmCall.Releases]
  exact reachable_compact_deferred (by decide) hsized hocc hlater
    ⟨⟨0, 4, false, 1⟩, by decide, rfl⟩

end MiniOS
