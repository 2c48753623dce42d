import MiniOS.Ownership

/-! The two allocation interfaces side by side. Blocks obtained without a pid are
tagged with their size, so a release by pid takes the block of that pid and every
block of that size obtained without one. -/

namespace MiniOS

/-- A successful allocation and the pid it was made for, if any. -/
structure Grant where
  address : Int
  size : Int
  holder : Option Int
  deriving DecidableEq, Repr

def Allocator.holder : Allocator → Option Int
  | .greedyFirstFit pid | .greedyBestFit pid | .greedyWorstFit pid => some pid
  | .mmAllocateFirstFit | .mmAllocateBestFit | .mmAllocateWorstFit => none

theorem Allocator.tag_eq (a : Allocator) (size : Int) : a.tag size = a.holder.getD size := by
  cases a <;> rfl

def Grant.tag (g : Grant) : Int := g.holder.getD g.size

def Grant.allocation (g : Grant) : Allocation := ⟨g.address, g.size, g.tag⟩

def Grant.block (g : Grant) : MemoryBlock := ⟨g.address, g.size, false, g.tag⟩

/-- The grants `mm_free(pid)` ends: those for `pid`, and those without a pid of size `pid`. -/
def Grant.ReleasedBy (g : Grant) (pid : Int) : Prop :=
  g.holder = some pid ∨ g.holder = none ∧ g.size = pid

theorem Grant.releasedBy_iff (g : Grant) (pid : Int) : g.ReleasedBy pid ↔ g.tag = pid := by
  cases h : g.holder <;> simp [Grant.ReleasedBy, Grant.tag, h]

instance (g : Grant) (pid : Int) : Decidable (g.ReleasedBy pid) :=
  inferInstanceAs (Decidable (_ ∨ _))

def grantsStep (mm : MemoryManager) (grants : List Grant) : MmCall → List Grant
  | .allocate a size =>
    let r := a.call mm size
    if r.1 = -1 then grants else ⟨r.1, size, a.holder⟩ :: grants
  | .free pid => grants.filter (fun g => ¬ g.ReleasedBy pid)
  | .coalesce | .compact => grants

def grantsAfter : List MmCall → MemoryManager → List Grant → List Grant
  | [], _, grants => grants
  | call :: calls, mm, grants => grantsAfter calls (call.exec mm) (grantsStep mm grants call)

/-- A pid is at least 1 and asks for a block only while it holds none. -/
def MmCall.Exclusive (grants : List Grant) : MmCall → Prop
  | .allocate a size => 1 ≤ size ∧
      ∀ pid, a.holder = some pid → 1 ≤ pid ∧ ∀ g ∈ grants, g.holder ≠ some pid
  | .compact => False
  | _ => True

def ExclusiveRun : List MmCall → MemoryManager → List Grant → Prop
  | [], _, _ => True
  | call :: calls, mm, grants =>
    call.Exclusive grants ∧ ExclusiveRun calls (call.exec mm) (grantsStep mm grants call)

theorem grantsStep_track (mm : MemoryManager) (grants : List Grant) (call : MmCall) :
    (grantsStep mm grants call).map Grant.allocation =
      track mm (grants.map Grant.allocation) call := by
  cases call with
  | allocate a size =>
    by_cases hr : (a.call mm size).1 = -1
    · simp [grantsStep, track, hr]
    · simp [grantsStep, track, hr, Grant.allocation, Grant.tag, a.tag_eq]
  | free pid =>
    simp only [grantsStep, track, List.filter_map]
    congr 1
    apply List.filter_congr
    intro g _
    simp only [Grant.releasedBy_iff, Function.comp_apply, Grant.allocation]
    by_cases hg : g.tag = pid <;> simp [hg]
  | coalesce => rfl
  | compact => rfl

theorem grantsAfter_liveAfter (calls : List MmCall) (mm : MemoryManager) (grants : List Grant) :
    (grantsAfter calls mm grants).map Grant.allocation =
      liveAfter calls mm (grants.map Grant.allocation) := by
  induction calls generalizing mm grants with
  | nil => rfl
  | cons call calls ih => rw [grantsAfter, liveAfter, ih, grantsStep_track]

theorem ExclusiveRun.ordinary {calls : List MmCall} {mm : MemoryManager} {grants : List Grant}
    (h : ExclusiveRun calls mm grants) : ∀ call ∈ calls, call.Ordinary := by
  induction calls generalizing mm grants with
  | nil => simp
  | cons call calls ih =>
    refine List.forall_mem_cons.mpr ⟨?_, ih h.2⟩
    have hcall := h.1
    cases call with
    | allocate a size => exact hcall.1
    | free pid => trivial
    | coalesce => trivial
    | compact => exact hcall

def OtherHolder (g g' : Grant) : Prop := ∀ pid, g.holder = some pid → g'.holder ≠ some pid

theorem ExclusiveRun.distinct {calls : List MmCall} {mm : MemoryManager} {grants : List Grant}
    (h : ExclusiveRun calls mm grants) (hd : grants.Pairwise OtherHolder) :
    (grantsAfter calls mm grants).Pairwise OtherHolder := by
  induction calls generalizing mm grants with
  | nil => exact hd
  | cons call calls ih =>
    apply ih h.2
    have hcall := h.1
    cases call with
    | allocate a size =>
      by_cases hr : (a.call mm size).1 = -1
      · simpa [grantsStep, hr] using hd
      · simp only [grantsStep, hr, if_false]
        refine List.pairwise_cons.mpr ⟨?_, hd⟩
        intro g hg pid hpid
        exact (hcall.2 pid hpid).2 g hg
    | free pid => exact hd.sublist List.filter_sublist
    | coalesce => exact hd
    | compact => exact hd

theorem holder_unique {grants : List Grant} (h : grants.Pairwise OtherHolder) (pid : Int) :
    (grants.filter (fun g => g.holder = some pid)).length ≤ 1 := by
  have hp := h.sublist (List.filter_sublist (p := fun g => decide (g.holder = some pid)))
  have hall : ∀ g ∈ grants.filter (fun g => g.holder = some pid), g.holder = some pid :=
    fun g hg => of_decide_eq_true (List.mem_filter.mp hg).2
  generalize grants.filter (fun g => g.holder = some pid) = l at hp hall
  match l, hp, hall with
  | [], _, _ => exact Nat.zero_le _
  | [_], _, _ => exact le_refl _
  | g :: g' :: _, hp, hall =>
    have hne := (List.pairwise_cons.mp hp).1 g' List.mem_cons_self pid (hall g List.mem_cons_self)
    exact absurd (hall g' (by simp)) hne

/-- The grants of a run are the occupied blocks. -/
theorem grantsAfter_perm {totalMemory : Int} (ht : 1 ≤ totalMemory) {calls : List MmCall}
    (hrun : ExclusiveRun calls (mmCreate totalMemory) []) :
    ((grantsAfter calls (mmCreate totalMemory) []).map Grant.block).Perm
      (occupied (mmRun calls (mmCreate totalMemory)).head) := by
  have hlive : ((grantsAfter calls (mmCreate totalMemory) []).map Grant.allocation).Perm
      ((occupied (mmRun calls (mmCreate totalMemory)).head).map MemoryBlock.allocation) := by
    rw [grantsAfter_liveAfter]
    exact liveAfter_perm (mmCreate_wellFormed ht) hrun.ordinary (by simp [mmCreate, occupied])
  have hp := hlive.map (fun p : Allocation => (⟨p.address, p.size, false, p.tag⟩ : MemoryBlock))
  rw [List.map_map, List.map_map] at hp
  have hid : (occupied (mmRun calls (mmCreate totalMemory)).head).map
      ((fun p : Allocation => (⟨p.address, p.size, false, p.tag⟩ : MemoryBlock)) ∘
        MemoryBlock.allocation) = occupied (mmRun calls (mmCreate totalMemory)).head := by
    rw [List.map_congr_left (g := id), List.map_id]
    intro b hb
    have hfree := (mem_occupied.mp hb).2
    simp [MemoryBlock.allocation, ← hfree]
  rw [hid] at hp
  exact hp

/-- What a release by pid takes and what it leaves, in every run that mixes the interfaces. -/
theorem mmFree_releases {totalMemory : Int} (ht : 1 ≤ totalMemory) {calls : List MmCall}
    (hrun : ExclusiveRun calls (mmCreate totalMemory) []) (pid : Int) :
    let mm := mmRun calls (mmCreate totalMemory)
    let grants := grantsAfter calls (mmCreate totalMemory) []
    (grants.filter (fun g => g.holder = some pid)).length ≤ 1 ∧
    ∀ g ∈ grants, g.block ∈ mm.head ∧
      (g.ReleasedBy pid → g.block ∉ (mmFree mm pid).head ∧
        Tiling.FreeOn (owner (mmFree mm pid)) g.address (g.address + g.size)) ∧
      (¬ g.ReleasedBy pid → g.block ∈ (mmFree mm pid).head) := by
  intro mm grants
  have hmm : WellFormed mm := reachable_wellFormed ht hrun.ordinary
  refine ⟨holder_unique (hrun.distinct List.Pairwise.nil) pid, fun g hg => ?_⟩
  have hocc : g.block ∈ occupied mm.head :=
    (grantsAfter_perm ht hrun).mem_iff.mp (List.mem_map_of_mem hg)
  have hmem := (mem_occupied.mp hocc).1
  have hafter : g.block ∈ (mmFree mm pid).head ↔ g.tag ≠ pid := by
    have hiff : g.block ∈ occupied (mmFree mm pid).head ↔ g.tag ≠ pid := by
      rw [occupied_mmFree, List.mem_filter]
      exact ⟨fun h => by simpa [Grant.block] using h.2,
        fun h => ⟨hocc, by simpa [Grant.block] using h⟩⟩
    rw [← hiff, mem_occupied]
    exact ⟨fun h => ⟨h, rfl⟩, And.left⟩
  refine ⟨hmem, fun hreleased => ?_, fun hkept => ?_⟩
  · rw [Grant.releasedBy_iff] at hreleased
    refine ⟨fun hin => hafter.mp hin hreleased, fun x hlo hhi => ?_⟩
    have howner : owner mm x = some pid := by
      rw [owner, hmm.tiles.owner_of_covers hmm.positive.nonneg hmem ⟨hlo, hhi⟩, ← hreleased]
      rfl
    rw [hmm.owner_free pid, Tiling.release, if_pos howner]
  · rw [Grant.releasedBy_iff] at hkept
    exact hafter.mpr hkept

theorem mmFree_releases_example :
    let calls : List MmCall := [.allocate (.greedyFirstFit 100) 50, .allocate .mmAllocateFirstFit 100,
      .allocate .mmAllocateBestFit 70]
    (⟨0, 50, false, 100⟩ : MemoryBlock) ∉ (mmFree (mmRun calls (mmCreate 300)) 100).head ∧
      (⟨150, 70, false, 70⟩ : MemoryBlock) ∈ (mmFree (mmRun calls (mmCreate 300)) 100).head := by
  intro calls
  have hrun : ExclusiveRun calls (mmCreate 300) [] := by
    refine ⟨⟨by decide, ?_⟩, ⟨by decide, by simp [Allocator.holder]⟩,
      ⟨by decide, by simp [Allocator.holder]⟩, trivial⟩
    rintro pid ⟨⟩
    exact ⟨by decide, by simp⟩
  have hh := (mmFree_releases (by decide : (1 : Int) ≤ 300) hrun 100).2
  exact ⟨((hh ⟨0, 50, some 100⟩ (by decide)).2.1 (by decide)).1,
    (hh ⟨150, 70, none⟩ (by decide)).2.2 (by decide)⟩

/-- The block of a caller without a pid, of size 100, is gone after `mm_free(100)`. -/
theorem mmFree_not_isolated :
    let calls : List MmCall := [.allocate .mmAllocateFirstFit 100]
    ExclusiveRun calls (mmCreate 200) [] ∧
      grantsAfter calls (mmCreate 200) [] = [⟨0, 100, none⟩] ∧
      (⟨0, 100, false, 100⟩ : MemoryBlock) ∈ (mmRun calls (mmCreate 200)).head ∧
      (mmFree (mmRun calls (mmCreate 200)) 100).head = [⟨0, 200, true, -1⟩] := by
  refine ⟨⟨⟨by decide, by simp [Allocator.holder]⟩, trivial⟩, by decide, by decide, by decide⟩

end MiniOS
