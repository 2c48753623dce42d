import Mathlib.Data.List.Chain

/-! Lists in which neighbouring elements of one kind merge: the normal form, one
element for each maximal run, and what commutes with it. -/

namespace RunMerge

/-- Which elements merge with their neighbours, and into what. -/
structure Rules (α : Type*) where
  merges : α → Bool
  join : α → α → α
  merges_join : ∀ {x y}, merges x = true → merges y = true → merges (join x y) = true
  join_assoc : ∀ x y z, join (join x y) z = join x (join y z)

namespace Rules

variable {α : Type*} (R : Rules α)

def attach (x : α) : List α → List α
  | [] => [x]
  | y :: l => if R.merges x && R.merges y then R.join x y :: l else x :: y :: l

def normal (l : List α) : List α := l.foldr R.attach []

/-- A run is its first element and the elements behind it. -/
def runs (rs : List (α × List α)) : List α := rs.flatMap (fun r => r.1 :: r.2)

def joined (r : α × List α) : α := r.2.foldl R.join r.1

/-- `rs` cuts `l` into its maximal runs of merging elements and single other elements. -/
structure MaximalRuns (l : List α) (rs : List (α × List α)) : Prop where
  covers : runs rs = l
  merging : ∀ r ∈ rs, r.2 ≠ [] → R.merges r.1 = true ∧ ∀ y ∈ r.2, R.merges y = true
  maximal : rs.IsChain (fun r s => R.merges r.1 = true → R.merges s.1 = false)

variable {R}

theorem attach_of_not {x y : α} {l : List α} (h : R.merges x = true → R.merges y = false) :
    R.attach x (y :: l) = x :: y :: l := by
  rw [attach, if_neg]
  intro hxy
  obtain ⟨hx, hy⟩ := Bool.and_eq_true_iff.mp hxy
  rw [h hx] at hy
  cases hy

theorem attach_attach {x y : α} (hx : R.merges x = true) (hy : R.merges y = true) (l : List α) :
    R.attach x (R.attach y l) = R.attach (R.join x y) l := by
  have hxy := R.merges_join hx hy
  cases l with
  | nil => simp [attach, hx, hy]
  | cons z l =>
    cases hz : R.merges z with
    | true => simp [attach, hx, hy, hz, hxy, R.merges_join hy hz, R.join_assoc]
    | false => simp [attach, hx, hy, hz]

theorem normal_cons (x : α) (l : List α) : R.normal (x :: l) = R.attach x (R.normal l) := rfl

theorem normal_join {x y : α} (hx : R.merges x = true) (hy : R.merges y = true) (l : List α) :
    R.normal (R.join x y :: l) = R.normal (x :: y :: l) :=
  (attach_attach hx hy (R.normal l)).symm

theorem attach_head (x : α) (l : List α) :
    ∃ y m, R.attach x l = y :: m ∧ R.merges y = R.merges x := by
  cases l with
  | nil => exact ⟨x, [], rfl, rfl⟩
  | cons z l =>
    by_cases hxz : (R.merges x && R.merges z) = true
    · obtain ⟨hx, hz⟩ := Bool.and_eq_true_iff.mp hxz
      exact ⟨R.join x z, l, by rw [attach, if_pos hxz], by rw [R.merges_join hx hz, hx]⟩
    · exact ⟨x, z :: l, by rw [attach, if_neg hxz], rfl⟩

theorem normal_cons_of_not {x y : α} (h : R.merges x = true → R.merges y = false) (l : List α) :
    R.normal (x :: y :: l) = x :: R.normal (y :: l) := by
  obtain ⟨z, m, hz, hmerges⟩ := attach_head (R := R) y (R.normal l)
  rw [normal_cons, normal_cons, hz]
  exact attach_of_not (fun hx => hmerges.trans (h hx))

/-- A map that keeps merging elements merging and respects their joins does the
same before and after normalising. -/
theorem normal_map_normal {f : α → α} (hmerges : ∀ x, R.merges x = true → R.merges (f x) = true)
    (hjoin : ∀ x y, R.merges x = true → R.merges y = true → f (R.join x y) = R.join (f x) (f y))
    (l : List α) : R.normal ((R.normal l).map f) = R.normal (l.map f) := by
  have hattach : ∀ (x : α) (m : List α),
      R.normal ((R.attach x m).map f) = R.normal (f x :: m.map f) := by
    intro x m
    cases m with
    | nil => rfl
    | cons y m =>
      by_cases hxy : (R.merges x && R.merges y) = true
      · obtain ⟨hx, hy⟩ := Bool.and_eq_true_iff.mp hxy
        rw [attach, if_pos hxy, List.map_cons, hjoin x y hx hy]
        exact normal_join (hmerges x hx) (hmerges y hy) _
      · rw [attach, if_neg hxy]
        rfl
  induction l with
  | nil => rfl
  | cons x l ih =>
    rw [normal_cons, hattach, normal_cons, ih]
    rfl

theorem normal_normal (l : List α) : R.normal (R.normal l) = R.normal l := by
  have h := normal_map_normal (R := R) (f := id) (fun _ hx => hx) (fun _ _ _ _ => rfl) l
  simpa using h

theorem MaximalRuns.cons_single {x : α} {l : List α} {rs : List (α × List α)}
    (h : R.MaximalRuns l rs) (hx : ∀ r ∈ rs.head?, R.merges x = true → R.merges r.1 = false) :
    R.MaximalRuns (x :: l) ((x, []) :: rs) where
  covers := by
    rw [← h.covers]
    rfl
  merging := List.forall_mem_cons.mpr ⟨fun hne => absurd rfl hne, h.merging⟩
  maximal := List.isChain_cons.mpr ⟨hx, h.maximal⟩

theorem exists_maximalRuns (R : Rules α) (l : List α) : ∃ rs, R.MaximalRuns l rs := by
  induction l with
  | nil => exact ⟨[], rfl, by simp, List.isChain_nil⟩
  | cons x l ih =>
    obtain ⟨rs, h⟩ := ih
    cases rs with
    | nil => exact ⟨[(x, [])], h.cons_single (by simp)⟩
    | cons r rs =>
      obtain ⟨y, ys⟩ := r
      by_cases hxy : R.merges x = true ∧ R.merges y = true
      · obtain ⟨hcovers, hmerging, hmaximal⟩ := h
        obtain ⟨hrun, hrest⟩ := List.forall_mem_cons.mp hmerging
        obtain ⟨hnext, hchain⟩ := List.isChain_cons.mp hmaximal
        refine ⟨(x, y :: ys) :: rs, ?_, ?_, ?_⟩
        · rw [← hcovers]
          rfl
        · refine List.forall_mem_cons.mpr ⟨fun _ => ⟨hxy.1, ?_⟩, hrest⟩
          refine List.forall_mem_cons.mpr ⟨hxy.2, fun z hz => ?_⟩
          exact (hrun (List.ne_nil_of_mem hz)).2 z hz
        · exact List.isChain_cons.mpr ⟨fun s hs _ => hnext s hs hxy.2, hchain⟩
      · refine ⟨(x, []) :: (y, ys) :: rs, h.cons_single ?_⟩
        intro r hr hx
        obtain rfl : (y, ys) = r := by simpa using hr
        exact Bool.eq_false_iff.mpr (fun hy => hxy ⟨hx, hy⟩)

theorem foldr_attach_run {x : α} {xs : List α}
    (h : xs ≠ [] → R.merges x = true ∧ ∀ y ∈ xs, R.merges y = true) (l : List α) :
    (x :: xs).foldr R.attach l = R.attach (R.joined (x, xs)) l := by
  induction xs generalizing x with
  | nil => rfl
  | cons y ys ih =>
    obtain ⟨hx, hys⟩ := h (List.cons_ne_nil y ys)
    obtain ⟨hy, hrest⟩ := List.forall_mem_cons.mp hys
    have hcut := ih (x := R.join x y) (fun _ => ⟨R.merges_join hx hy, hrest⟩)
    rw [List.foldr_cons] at hcut
    rw [List.foldr_cons, List.foldr_cons, attach_attach hx hy, hcut]
    rfl

theorem merges_joined {x : α} {xs : List α}
    (h : xs ≠ [] → R.merges x = true ∧ ∀ y ∈ xs, R.merges y = true) :
    R.merges (R.joined (x, xs)) = R.merges x := by
  induction xs generalizing x with
  | nil => rfl
  | cons y ys ih =>
    obtain ⟨hx, hys⟩ := h (List.cons_ne_nil y ys)
    obtain ⟨hy, hrest⟩ := List.forall_mem_cons.mp hys
    have hxy := R.merges_join hx hy
    exact (ih (fun _ => ⟨hxy, hrest⟩)).trans (hxy.trans hx.symm)

theorem MaximalRuns.normal_eq {l : List α} {rs : List (α × List α)} (h : R.MaximalRuns l rs) :
    R.normal l = rs.map R.joined := by
  obtain ⟨rfl, hmerging, hmaximal⟩ := h
  induction rs with
  | nil => rfl
  | cons r rs ih =>
    obtain ⟨hr, hrs⟩ := List.forall_mem_cons.mp hmerging
    obtain ⟨hnext, hchain⟩ := List.isChain_cons.mp hmaximal
    have hcut : R.normal (runs (r :: rs)) = (r.1 :: r.2).foldr R.attach (R.normal (runs rs)) := by
      rw [normal, runs, List.flatMap_cons, List.foldr_append]
      rfl
    rw [hcut, foldr_attach_run hr, ih hrs hchain]
    cases rs with
    | nil => rfl
    | cons s rs =>
      have hs := (List.forall_mem_cons.mp hrs).1
      refine attach_of_not (fun hjoined => ?_)
      rw [merges_joined hr] at hjoined
      exact (merges_joined hs).trans (hnext s rfl hjoined)

end Rules

end RunMerge
