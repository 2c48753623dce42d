import Mathlib.Data.List.Basic
import Mathlib.Data.List.Chain
import Mathlib.Algebra.Order.Group.Int
import Mathlib.Order.Bounds.Defs
import Mathlib.Algebra.Ring.Int.Defs

/-! Labelled tilings of an integer interval, the map from addresses to labels
they induce, the maximal unlabelled intervals of such a map, and the placement
policies that choose one of them. -/

namespace Tiling

variable {β ι : Type*}

def FreeOn (o : Int → Option ι) (lo hi : Int) : Prop := ∀ x, lo ≤ x → x < hi → o x = none

/-- A maximal interval of free addresses inside `[base, top)`. -/
structure FreeRun (o : Int → Option ι) (base top lo hi : Int) : Prop where
  base_le : base ≤ lo
  le_top : hi ≤ top
  nonempty : lo < hi
  free : FreeOn o lo hi
  maximal : ∀ lo' hi', base ≤ lo' → hi' ≤ top → lo' ≤ lo → hi ≤ hi' → FreeOn o lo' hi' →
    lo' = lo ∧ hi' = hi

def grant (o : Int → Option ι) (lo hi : Int) (t : ι) : Int → Option ι :=
  fun x => if lo ≤ x ∧ x < hi then some t else o x

def release [DecidableEq ι] (o : Int → Option ι) (t : ι) : Int → Option ι :=
  fun x => if o x = some t then none else o x

theorem FreeRun.contains {o : Int → Option ι} {base top lo hi x y : Int}
    (h : FreeRun o base top lo hi) (hx : base ≤ x) (hy : y ≤ top) (hxhi : x < hi) (hloy : lo < y)
    (hfree : FreeOn o x y) : lo ≤ x ∧ y ≤ hi := by
  have hb := h.base_le
  have ht := h.le_top
  have hunion : FreeOn o (min lo x) (max hi y) := by
    intro z hz hz'
    by_cases hin : lo ≤ z ∧ z < hi
    · exact h.free z hin.1 hin.2
    · exact hfree z (by omega) (by omega)
  have hm := h.maximal (min lo x) (max hi y) (by omega) (by omega) (by omega) (by omega) hunion
  omega

theorem FreeRun.eq_of_overlap {o : Int → Option ι} {base top lo hi lo' hi' : Int}
    (h : FreeRun o base top lo hi) (h' : FreeRun o base top lo' hi') (hl : lo' < hi) (hr : lo < hi') :
    lo = lo' ∧ hi = hi' := by
  have hin := h.contains h'.base_le h'.le_top hl hr h'.free
  have hout := h'.contains h.base_le h.le_top hr hl h.free
  omega

/-- `x` is the lowest address with `size` free addresses from it on. -/
def FirstFit (o : Int → Option ι) (base top size x : Int) : Prop :=
  IsLeast {z | base ≤ z ∧ z + size ≤ top ∧ FreeOn o z (z + size)} x

/-- `x` starts the free run of length at least `size` whose length is
preferred to all others, and the lowest one among equals. -/
def RunFit (prefers : Int → Int → Prop) (o : Int → Option ι) (base top size x : Int) : Prop :=
  ∃ y, FreeRun o base top x y ∧ size ≤ y - x ∧
    ∀ x' y', FreeRun o base top x' y' → size ≤ y' - x' →
      prefers (y - x) (y' - x') ∨ (y - x = y' - x' ∧ x ≤ x')

/-- How a list element is read as a labelled interval `[start, stop)`; an
element without label is free. -/
structure Layout (β ι : Type*) where
  start : β → Int
  size : β → Int
  label : β → Option ι

namespace Layout

variable (Λ : Layout β ι)

def stop (b : β) : Int := Λ.start b + Λ.size b

def Covers (b : β) (x : Int) : Prop := Λ.start b ≤ x ∧ x < Λ.stop b

instance (b : β) (x : Int) : Decidable (Λ.Covers b x) := inferInstanceAs (Decidable (_ ∧ _))

def owner (l : List β) (x : Int) : Option ι :=
  l.findSome? (fun b => if Λ.Covers b x then Λ.label b else none)

def Tiles : Int → List β → Int → Prop
  | a, [], e => a = e
  | a, b :: bs, e => Λ.start b = a ∧ Tiles (Λ.stop b) bs e

def Positive (l : List β) : Prop := ∀ b ∈ l, 0 < Λ.size b

def Nonneg (l : List β) : Prop := ∀ b ∈ l, 0 ≤ Λ.size b

/-- The elements of `l` that carry a label. -/
def labelled (l : List β) : List β := l.filter (fun b => (Λ.label b).isSome)

/-- The elements of `l` without a label. -/
def unlabelled (l : List β) : List β := l.filter (fun b => (Λ.label b).isNone)

def Separated (l : List β) : Prop := l.IsChain (fun b c => Λ.label b = none → Λ.label c ≠ none)

variable {Λ}

theorem Positive.append {l m : List β} : Λ.Positive (l ++ m) ↔ Λ.Positive l ∧ Λ.Positive m := by
  simp only [Positive, List.mem_append, or_imp, forall_and]

theorem Positive.cons {b : β} {l : List β} : Λ.Positive (b :: l) ↔ 0 < Λ.size b ∧ Λ.Positive l := by
  simp [Positive]

theorem Positive.nonneg {l : List β} (h : Λ.Positive l) : Λ.Nonneg l := fun b hb => (h b hb).le

theorem Nonneg.append {l m : List β} : Λ.Nonneg (l ++ m) ↔ Λ.Nonneg l ∧ Λ.Nonneg m := by
  simp only [Nonneg, List.mem_append, or_imp, forall_and]

theorem Nonneg.cons {b : β} {l : List β} : Λ.Nonneg (b :: l) ↔ 0 ≤ Λ.size b ∧ Λ.Nonneg l := by
  simp [Nonneg]

theorem Separated.replace_labelled {pre post : List β} {b c : β}
    (h : Λ.Separated (pre ++ b :: post)) (hc : Λ.label c ≠ none) :
    Λ.Separated (pre ++ c :: post) := by
  obtain ⟨hpre, hpost, -⟩ := List.isChain_append.mp h
  refine List.isChain_append.mpr ⟨hpre, ?_, ?_⟩
  · exact List.isChain_cons.mpr ⟨fun y _ hcn => absurd hcn hc, (List.isChain_cons.mp hpost).2⟩
  · intro x _ y hy _
    obtain rfl : c = y := by simpa using hy
    exact hc

theorem Separated.cut {pre post : List β} {b c r : β} (h : Λ.Separated (pre ++ b :: post))
    (hb : Λ.label b = none) (hc : Λ.label c ≠ none) : Λ.Separated (pre ++ c :: r :: post) := by
  have hb' := (List.isChain_cons.mp (List.isChain_append.mp h).2.1)
  have hr : Λ.Separated (r :: post) :=
    List.isChain_cons.mpr ⟨fun y hy _ => hb'.1 y hy hb, hb'.2⟩
  have hcr : Λ.Separated (c :: r :: post) :=
    List.isChain_cons.mpr ⟨fun y _ hcn => absurd hcn hc, hr⟩
  refine List.isChain_append.mpr ⟨(List.isChain_append.mp h).1, hcr, ?_⟩
  intro x _ y hy _
  obtain rfl : c = y := by simpa using hy
  exact hc

/-- Of two neighbours one carries a label, so labels are rarer by one at most. -/
theorem Separated.unlabelled_length_le {l : List β} (h : Λ.Separated l) :
    (Λ.unlabelled l).length ≤ (Λ.labelled l).length + 1 ∧
      ((∀ b ∈ l.head?, Λ.label b ≠ none) → (Λ.unlabelled l).length ≤ (Λ.labelled l).length) := by
  induction l with
  | nil => exact ⟨Nat.zero_le _, fun _ => Nat.le_refl _⟩
  | cons b l ih =>
    obtain ⟨hnext, hl⟩ := List.isChain_cons.mp h
    obtain ⟨hle, hfirst⟩ := ih hl
    cases hb : Λ.label b with
    | some x =>
      have hu : Λ.unlabelled (b :: l) = Λ.unlabelled l := by simp [unlabelled, hb]
      have hlab : Λ.labelled (b :: l) = b :: Λ.labelled l := by simp [labelled, hb]
      rw [hu, hlab, List.length_cons]
      exact ⟨Nat.le_succ_of_le hle, fun _ => hle⟩
    | none =>
      have hu : Λ.unlabelled (b :: l) = b :: Λ.unlabelled l := by simp [unlabelled, hb]
      have hlab : Λ.labelled (b :: l) = Λ.labelled l := by simp [labelled, hb]
      rw [hu, hlab, List.length_cons]
      exact ⟨Nat.succ_le_succ (hfirst (fun y hy => hnext y hy hb)),
        fun hlabel => absurd hb (hlabel b rfl)⟩

theorem Tiles.append {l m : List β} {a e : Int} :
    Λ.Tiles a (l ++ m) e ↔ ∃ c, Λ.Tiles a l c ∧ Λ.Tiles c m e := by
  induction l generalizing a with
  | nil => simp [Tiles]
  | cons b l ih => simp [Tiles, ih, and_assoc]

theorem Tiles.stop_eq {l : List β} {a e : Int} (h : Λ.Tiles a l e) :
    e = a + (l.map Λ.size).sum := by
  induction l generalizing a with
  | nil => simp [h.symm]
  | cons b l ih =>
    have hs := ih h.2
    have ha := h.1
    simp only [List.map_cons, List.sum_cons]
    unfold stop at hs
    omega

theorem Tiles.le {l : List β} {a e : Int} (h : Λ.Tiles a l e) (hn : Λ.Nonneg l) : a ≤ e := by
  induction l generalizing a with
  | nil =>
    obtain rfl : a = e := h
    exact le_rfl
  | cons b l ih =>
    obtain ⟨hb, hl⟩ := Nonneg.cons.mp hn
    have hs := ih h.2 hl
    have ha := h.1
    unfold stop at hs
    omega

theorem Tiles.mem_inside {l : List β} {a e : Int} (h : Λ.Tiles a l e) (hn : Λ.Nonneg l) {b : β}
    (hb : b ∈ l) : a ≤ Λ.start b ∧ Λ.stop b ≤ e := by
  obtain ⟨pre, post, rfl⟩ := List.append_of_mem hb
  obtain ⟨c, hpre, hstart, hpost⟩ := Tiles.append.mp h
  obtain ⟨hn₁, hn₂⟩ := Nonneg.append.mp hn
  have h₁ := hpre.le hn₁
  have h₂ := hpost.le (Nonneg.cons.mp hn₂).2
  omega

theorem Tiles.mem_bounds {l : List β} {a e : Int} (h : Λ.Tiles a l e) (hp : Λ.Positive l) {b : β}
    (hb : b ∈ l) : a ≤ Λ.start b ∧ Λ.start b < Λ.stop b ∧ Λ.stop b ≤ e := by
  obtain ⟨h₁, h₂⟩ := h.mem_inside hp.nonneg hb
  have hsize := hp b hb
  unfold stop at h₂ ⊢
  omega

theorem Tiles.pairwise {l : List β} {a e : Int} (h : Λ.Tiles a l e) (hp : Λ.Positive l) :
    l.Pairwise (fun b c => Λ.stop b ≤ Λ.start c) := by
  induction l generalizing a with
  | nil => exact List.Pairwise.nil
  | cons b l ih =>
    have hl := (Positive.cons.mp hp).2
    exact List.pairwise_cons.mpr ⟨fun c hc => (h.2.mem_bounds hl hc).1, ih h.2 hl⟩

theorem labelled_cons {b : β} {l : List β} (h : Λ.label b ≠ none) :
    Λ.labelled (b :: l) = b :: Λ.labelled l :=
  List.filter_cons_of_pos (p := fun b => (Λ.label b).isSome) (Option.isSome_iff_ne_none.mpr h)

theorem labelled_cons_free {b : β} {l : List β} (h : Λ.label b = none) :
    Λ.labelled (b :: l) = Λ.labelled l := by
  simp [labelled, h]

/-- After a free head the next element is labelled, so it stops where the labelled ones start. -/
theorem Tiles.stop_of_free {b : β} {l : List β} {a e : Int} (h : Λ.Tiles a (b :: l) e)
    (hs : Λ.Separated (b :: l)) (hb : Λ.label b = none) :
    Λ.stop b = ((Λ.labelled l).head?.map Λ.start).getD e := by
  cases l with
  | nil => exact h.2
  | cons c l =>
    have hc : Λ.label c ≠ none := (List.isChain_cons.mp hs).1 c rfl hb
    rw [labelled_cons hc]
    exact h.2.1.symm

theorem Tiles.free_of_first_free {b c : β} {l m : List β} {a e : Int} (hl : Λ.Tiles a (b :: l) e)
    (hm : Λ.Tiles a (c :: m) e) (hsl : Λ.Separated (b :: l)) (hb : Λ.label b = none)
    (hpos : 0 < Λ.size b)
    (h : Λ.labelled (b :: l) = Λ.labelled (c :: m)) : Λ.label c = none := by
  by_contra hc
  have hstop := hl.stop_of_free hsl hb
  rw [labelled_cons_free hb, labelled_cons hc] at h
  rw [h] at hstop
  have hstart : Λ.stop b = Λ.start c := hstop
  have hbs := hl.1
  have hcs := hm.1
  unfold stop at hstart
  omega

/-- A separated tiling is determined by its labelled elements. -/
theorem Tiles.eq_of_labelled {l m : List β} {a e : Int} (hl : Λ.Tiles a l e) (hm : Λ.Tiles a m e)
    (hpl : Λ.Positive l) (hpm : Λ.Positive m) (hsl : Λ.Separated l) (hsm : Λ.Separated m)
    (hplace : ∀ b ∈ l, ∀ c ∈ m, Λ.label b = none → Λ.label c = none → Λ.start b = Λ.start c →
      Λ.size b = Λ.size c → b = c)
    (h : Λ.labelled l = Λ.labelled m) :
    l = m := by
  induction l generalizing m a with
  | nil =>
    cases m with
    | nil => rfl
    | cons c m =>
      obtain rfl : a = e := hl
      have hc := hm.mem_bounds hpm List.mem_cons_self
      omega
  | cons b l ih =>
    cases m with
    | nil =>
      obtain rfl : a = e := hm
      have hb := hl.mem_bounds hpl List.mem_cons_self
      omega
    | cons c m =>
      obtain ⟨hb, hpl'⟩ := Positive.cons.mp hpl
      obtain ⟨hc, hpm'⟩ := Positive.cons.mp hpm
      have hbc : b = c ∧ Λ.labelled l = Λ.labelled m := by
        cases hbl : Λ.label b with
        | some t =>
          have hcl : Λ.label c ≠ none := by
            intro hcl
            have hbl' := hm.free_of_first_free hl hsm hcl hc h.symm
            simp [hbl] at hbl'
          rw [labelled_cons (by simp [hbl]), labelled_cons hcl] at h
          exact List.cons.inj h
        | none =>
          have hcl := hl.free_of_first_free hm hsl hbl hb h
          rw [labelled_cons_free hbl, labelled_cons_free hcl] at h
          have hstop : Λ.stop b = Λ.stop c := by
            rw [hl.stop_of_free hsl hbl, hm.stop_of_free hsm hcl, h]
          have hstart : Λ.start b = Λ.start c := hl.1.trans hm.1.symm
          refine ⟨hplace b List.mem_cons_self c List.mem_cons_self hbl hcl hstart ?_, h⟩
          unfold stop at hstop
          omega
      obtain ⟨rfl, hrest⟩ := hbc
      rw [ih hl.2 hm.2 hpl' hpm' (List.isChain_cons.mp hsl).2 (List.isChain_cons.mp hsm).2
        (fun x hx y hy => hplace x (List.mem_cons_of_mem _ hx) y (List.mem_cons_of_mem _ hy)) hrest]

@[simp] theorem owner_nil (x : Int) : Λ.owner [] x = none := rfl

theorem owner_append (l m : List β) (x : Int) :
    Λ.owner (l ++ m) x = (Λ.owner l x).or (Λ.owner m x) := List.findSome?_append

theorem owner_cons (b : β) (l : List β) (x : Int) :
    Λ.owner (b :: l) x = (if Λ.Covers b x then Λ.label b else none).or (Λ.owner l x) := by
  have h := owner_append (Λ := Λ) [b] l x
  simpa [owner] using h

theorem owner_eq_none {l : List β} {x : Int} (h : ∀ b ∈ l, Λ.Covers b x → Λ.label b = none) :
    Λ.owner l x = none := by
  rw [owner, List.findSome?_eq_none_iff]
  intro b hb
  split_ifs with hc
  · exact h b hb hc
  · rfl

theorem owner_labelled (l : List β) (x : Int) : Λ.owner (Λ.labelled l) x = Λ.owner l x := by
  induction l with
  | nil => rfl
  | cons b l ih =>
    cases hb : Λ.label b with
    | none => simp [labelled_cons_free hb, hb, owner_cons, ih]
    | some t => rw [labelled_cons (by simp [hb]), owner_cons, owner_cons, ih]

theorem Tiles.owner_outside {l : List β} {a e x : Int} (h : Λ.Tiles a l e) (hn : Λ.Nonneg l)
    (hx : x < a ∨ e ≤ x) : Λ.owner l x = none := by
  apply owner_eq_none
  intro b hb hc
  have hbounds := h.mem_inside hn hb
  unfold Covers at hc
  omega

theorem Tiles.exists_covers {l : List β} {a e x : Int} (h : Λ.Tiles a l e) (ha : a ≤ x)
    (he : x < e) : ∃ b ∈ l, Λ.Covers b x := by
  induction l generalizing a with
  | nil =>
    obtain rfl : a = e := h
    omega
  | cons b l ih =>
    by_cases hx : x < Λ.stop b
    · exact ⟨b, by simp, h.1.le.trans ha, hx⟩
    · obtain ⟨c, hc, hcov⟩ := ih h.2 (not_lt.mp hx)
      exact ⟨c, by simp [hc], hcov⟩

/-- In a tiling the only element covering an address decides who owns it. -/
theorem Tiles.owner_of_covers {l : List β} {a e x : Int} (h : Λ.Tiles a l e) (hn : Λ.Nonneg l)
    {b : β} (hb : b ∈ l) (hx : Λ.Covers b x) : Λ.owner l x = Λ.label b := by
  obtain ⟨pre, post, rfl⟩ := List.append_of_mem hb
  obtain ⟨m, hpre, hstart, hpost⟩ := Tiles.append.mp h
  obtain ⟨hn₁, hn₂⟩ := Nonneg.append.mp hn
  have hleft := hpre.owner_outside hn₁ (x := x) (Or.inr (by unfold Covers at hx; omega))
  have hright := hpost.owner_outside (Nonneg.cons.mp hn₂).2 (x := x)
    (Or.inl (by unfold Covers at hx; omega))
  simp [owner_append, owner_cons, hleft, hright, hx]

theorem Tiles.freeOn_block {l : List β} {a e : Int} (h : Λ.Tiles a l e) (hn : Λ.Nonneg l)
    {b : β} (hb : b ∈ l) (hfree : Λ.label b = none) :
    FreeOn (Λ.owner l) (Λ.start b) (Λ.stop b) := by
  intro x hlo hhi
  exact (h.owner_of_covers hn hb ⟨hlo, hhi⟩).trans hfree

/-- In a separated tiling every free element is a free run: the addresses
next to it belong to labelled neighbours or lie outside. -/
theorem Tiles.freeRun_of_mem {l : List β} {a e : Int} (h : Λ.Tiles a l e) (hp : Λ.Positive l)
    (hs : Λ.Separated l) {b : β} (hb : b ∈ l) (hfree : Λ.label b = none) :
    FreeRun (Λ.owner l) a e (Λ.start b) (Λ.stop b) := by
  have hbounds := h.mem_bounds hp hb
  refine ⟨hbounds.1, hbounds.2.2, hbounds.2.1, h.freeOn_block hp.nonneg hb hfree, ?_⟩
  intro lo hi hlo hhi hlo' hhi' hfr
  obtain ⟨pre, post, rfl⟩ := List.append_of_mem hb
  obtain ⟨m, hpre, hstart, hpost⟩ := Tiles.append.mp h
  constructor
  · cases pre using List.reverseRecOn with
    | nil =>
      have : a = m := hpre
      omega
    | append_singleton pre c =>
      by_contra hne
      obtain ⟨k, hk, hc⟩ := Tiles.append.mp hpre
      have hcl : Λ.label c ≠ none := by
        intro hc'
        have hs' : Λ.Separated (pre ++ c :: b :: post) := by simpa using hs
        exact (List.isChain_append_cons_cons.mp hs').2.1 hc' hfree
      have hcm : c ∈ pre ++ [c] ++ b :: post := by simp
      have hcb := h.mem_bounds hp hcm
      have hce : Λ.stop c = m := hc.2
      have hcov : Λ.Covers c (Λ.start b - 1) := ⟨by omega, by omega⟩
      exact hcl ((h.owner_of_covers hp.nonneg hcm hcov).symm.trans (hfr _ (by omega) (by omega)))
  · cases post with
    | nil =>
      have : Λ.stop b = e := hpost
      omega
    | cons c post =>
      by_contra hne
      have hcl : Λ.label c ≠ none := (List.isChain_append_cons_cons.mp hs).2.1 hfree
      have hcm : c ∈ pre ++ b :: c :: post := by simp
      have hcb := h.mem_bounds hp hcm
      have hce : Λ.start c = Λ.stop b := hpost.1
      have hcov : Λ.Covers c (Λ.stop b) := ⟨by omega, by omega⟩
      exact hcl ((h.owner_of_covers hp.nonneg hcm hcov).symm.trans (hfr _ (by omega) (by omega)))

theorem Tiles.freeRun_iff {l : List β} {a e lo hi : Int} (h : Λ.Tiles a l e) (hp : Λ.Positive l)
    (hs : Λ.Separated l) :
    FreeRun (Λ.owner l) a e lo hi ↔
      ∃ b ∈ l, Λ.label b = none ∧ Λ.start b = lo ∧ Λ.stop b = hi := by
  constructor
  · intro hr
    have hlt := hr.nonempty
    obtain ⟨b, hb, hc⟩ := h.exists_covers hr.base_le (hlt.trans_le hr.le_top)
    have hfree := (h.owner_of_covers hp.nonneg hb hc).symm.trans (hr.free lo le_rfl hlt)
    have he := (h.freeRun_of_mem hp hs hb hfree).eq_of_overlap hr hc.2
      (hc.1.trans_lt hlt)
    exact ⟨b, hb, hfree, he⟩
  · rintro ⟨b, hb, hfree, rfl, rfl⟩
    exact h.freeRun_of_mem hp hs hb hfree

theorem Tiles.exists_free_block {l : List β} {a e x y : Int} (h : Λ.Tiles a l e)
    (hp : Λ.Positive l) (hs : Λ.Separated l) (ha : a ≤ x) (hxy : x < y) (he : y ≤ e)
    (hfree : FreeOn (Λ.owner l) x y) :
    ∃ b ∈ l, Λ.label b = none ∧ Λ.start b ≤ x ∧ y ≤ Λ.stop b := by
  obtain ⟨b, hb, hc⟩ := h.exists_covers ha (hxy.trans_le he)
  have hbf := (h.owner_of_covers hp.nonneg hb hc).symm.trans (hfree x le_rfl hxy)
  have hin := (h.freeRun_of_mem hp hs hb hbf).contains ha he hc.2 (hc.1.trans_lt hxy) hfree
  exact ⟨b, hb, hbf, hin⟩

theorem Tiles.firstFit {pre post : List β} {b : β} {a e size : Int}
    (h : Λ.Tiles a (pre ++ b :: post) e) (hp : Λ.Positive (pre ++ b :: post))
    (hs : Λ.Separated (pre ++ b :: post)) (hsize : 0 < size) (hfree : Λ.label b = none)
    (hle : size ≤ Λ.size b) (hpre : ∀ c ∈ pre, Λ.label c = none → Λ.size c < size) :
    FirstFit (Λ.owner (pre ++ b :: post)) a e size (Λ.start b) := by
  have hb : b ∈ pre ++ b :: post := by simp
  have hbounds := h.mem_bounds hp hb
  have hstop : Λ.stop b = Λ.start b + Λ.size b := rfl
  refine ⟨⟨hbounds.1, by omega, ?_⟩, ?_⟩
  · intro x hlo hhi
    exact h.freeOn_block hp.nonneg hb hfree x hlo (by omega)
  · rintro z ⟨hz, hz', hzfree⟩
    obtain ⟨c, hc, hcfree, hlo, hhi⟩ := h.exists_free_block hp hs hz (by omega) hz' hzfree
    have hcstop : Λ.stop c = Λ.start c + Λ.size c := rfl
    rcases List.mem_append.mp hc with hc | hc
    · have hlt := hpre c hc hcfree
      omega
    · rcases List.mem_cons.mp hc with rfl | hc
      · exact hlo
      · have hord := (List.pairwise_append.mp (h.pairwise hp)).2.1
        have hle' := (List.pairwise_cons.mp hord).1 c hc
        omega

theorem Tiles.runFit {prefers : Int → Int → Prop} {pre post : List β} {b : β} {a e size : Int}
    (h : Λ.Tiles a (pre ++ b :: post) e) (hp : Λ.Positive (pre ++ b :: post))
    (hs : Λ.Separated (pre ++ b :: post)) (hfree : Λ.label b = none) (hle : size ≤ Λ.size b)
    (hbest : ∀ c ∈ pre ++ b :: post, Λ.label c = none → size ≤ Λ.size c →
      prefers (Λ.size b) (Λ.size c) ∨ Λ.size b = Λ.size c)
    (hpre : ∀ c ∈ pre, Λ.label c = none → size ≤ Λ.size c → prefers (Λ.size b) (Λ.size c)) :
    RunFit prefers (Λ.owner (pre ++ b :: post)) a e size (Λ.start b) := by
  have hlen : ∀ c : β, Λ.stop c - Λ.start c = Λ.size c := by
    intro c
    simp only [stop]
    omega
  refine ⟨Λ.stop b, h.freeRun_of_mem hp hs (by simp) hfree, by rw [hlen]; exact hle, ?_⟩
  intro x y hrun hxy
  obtain ⟨c, hc, hcfree, rfl, rfl⟩ := (h.freeRun_iff hp hs).mp hrun
  rw [hlen] at hxy
  rw [hlen, hlen]
  rcases List.mem_append.mp hc with hc' | hc'
  · exact Or.inl (hpre c hc' hcfree hxy)
  · rcases hbest c hc hcfree hxy with hpref | heq
    · exact Or.inl hpref
    · refine Or.inr ⟨heq, ?_⟩
      rcases List.mem_cons.mp hc' with rfl | hc'
      · exact le_rfl
      · have hord := (List.pairwise_append.mp (h.pairwise hp)).2.1
        have hle' := (List.pairwise_cons.mp hord).1 c hc'
        have hb := h.mem_bounds hp (show b ∈ pre ++ b :: post by simp)
        omega

theorem Tiles.owner_grant {pre post mid : List β} {b : β} {a e s : Int} {t : ι}
    (h : Λ.Tiles a (pre ++ b :: post) e) (hp : Λ.Positive (pre ++ b :: post))
    (hfree : Λ.label b = none)
    (hmid : ∀ x, Λ.owner mid x =
      if Λ.start b ≤ x ∧ x < Λ.start b + s then some t else none) :
    Λ.owner (pre ++ mid ++ post) =
      grant (Λ.owner (pre ++ b :: post)) (Λ.start b) (Λ.start b + s) t := by
  funext x
  obtain ⟨m, hpre, hstart, hpost⟩ := Tiles.append.mp h
  simp only [grant, owner_append, owner_cons, hmid, hfree, ite_self, Option.none_or]
  split_ifs with hx
  · have hleft := hpre.owner_outside (Positive.append.mp hp).1.nonneg (x := x) (Or.inr (by omega))
    simp [hleft]
  · simp

theorem Tiles.owner_release [DecidableEq ι] {l : List β} {a e : Int} {t : ι} {mark : β → β}
    (hstart : ∀ b, Λ.start (mark b) = Λ.start b) (hsize : ∀ b, Λ.size (mark b) = Λ.size b)
    (hlabel : ∀ b, Λ.label (mark b) = if Λ.label b = some t then none else Λ.label b)
    (h : Λ.Tiles a l e) (hp : Λ.Positive l) :
    Λ.owner (l.map mark) = release (Λ.owner l) t := by
  funext x
  have hcov : ∀ b, Λ.Covers (mark b) x ↔ Λ.Covers b x := by
    intro b
    simp [Covers, stop, hstart, hsize]
  by_cases hin : ∃ b ∈ l, Λ.Covers b x
  · obtain ⟨b, hb, hc⟩ := hin
    obtain ⟨pre, post, rfl⟩ := List.append_of_mem hb
    have hrest : ∀ c ∈ pre ++ post, ¬ Λ.Covers c x := by
      intro c hc' hcx
      obtain ⟨m, hpre, hm, hpost⟩ := Tiles.append.mp h
      obtain ⟨hp₁, hp₂⟩ := Positive.append.mp hp
      unfold Covers at hc hcx
      rcases List.mem_append.mp hc' with hc' | hc'
      · have := hpre.mem_bounds hp₁ hc'
        omega
      · have := hpost.mem_bounds (Positive.cons.mp hp₂).2 hc'
        omega
    have hnone : ∀ q : List β, (∀ c ∈ q, c ∈ pre ++ post) → Λ.owner (q.map mark) x = none := by
      intro q hq
      apply owner_eq_none
      intro c hc' hcx
      obtain ⟨d, hd, rfl⟩ := List.mem_map.mp hc'
      exact absurd ((hcov d).mp hcx) (hrest d (hq d hd))
    have hl := hnone pre (fun c hc' => List.mem_append_left _ hc')
    have hr := hnone post (fun c hc' => List.mem_append_right _ hc')
    simp only [release, h.owner_of_covers hp.nonneg hb hc, List.map_append, List.map_cons, owner_append,
      owner_cons, hl, hr, hcov, hc, if_true, hlabel, Option.none_or, Option.or_none]
  · have hn : Λ.owner l x = none := owner_eq_none (fun b hb hc => absurd ⟨b, hb, hc⟩ hin)
    have hn' : Λ.owner (l.map mark) x = none := by
      apply owner_eq_none
      intro c hc hcx
      obtain ⟨b, hb, rfl⟩ := List.mem_map.mp hc
      exact absurd ⟨b, hb, (hcov b).mp hcx⟩ hin
    simp [release, hn, hn']

end Layout

end Tiling
