import Mathlib.Algebra.Order.Group.Int

/-! Computations in `int` arithmetic. An operation that overflows has no result, and
a computation that checks its values one after another has one exactly when all of
them fit. -/

namespace MiniOS

def intMax : Int := 2 ^ 31 - 1

def intMin : Int := -2 ^ 31

/-- The result of an `int` operation; there is none on overflow. -/
def checked (x : Int) : Option Int := if intMin ≤ x ∧ x ≤ intMax then some x else none

def InInts (values : List Int) : Prop := ∀ v ∈ values, intMin ≤ v ∧ v ≤ intMax

instance (values : List Int) : Decidable (InInts values) :=
  inferInstanceAs (Decidable (∀ v ∈ values, _))

/-- `a`, if the values computed on the way to it fit. -/
def guarded {α : Type*} (values : List Int) (a : α) : Option α :=
  if InInts values then some a else none

theorem checked_of_nonneg {x : Int} (h : 0 ≤ x) :
    checked x = if x ≤ intMax then some x else none := by
  have hlow : intMin ≤ x := le_trans (by decide) h
  rw [checked]
  simp only [hlow, true_and]

theorem checked_of_mem {x : Int} (hlow : intMin ≤ x) (hhigh : x ≤ intMax) : checked x = some x :=
  if_pos ⟨hlow, hhigh⟩

theorem le_of_checked {x y : Int} (h : checked x = some y) : x ≤ intMax ∧ x = y := by
  by_cases hx : intMin ≤ x ∧ x ≤ intMax
  · rw [checked, if_pos hx] at h
    exact ⟨hx.2, Option.some.inj h⟩
  · rw [checked, if_neg hx] at h
    cases h

theorem InInts.of_bounds {values : List Int} {low high : Int} (hlow : intMin ≤ low)
    (hhigh : high ≤ intMax) (h : ∀ v ∈ values, low ≤ v ∧ v ≤ high) : InInts values :=
  fun v hv => ⟨hlow.trans (h v hv).1, (h v hv).2.trans hhigh⟩

section Guarded

variable {α β : Type*} {values : List Int} {a : α}

theorem guarded_nil (a : α) : guarded [] a = some a := if_pos (List.forall_mem_nil _)

theorem guarded_of_inInts (h : InInts values) (a : α) : guarded values a = some a := if_pos h

theorem inInts_append {values values' : List Int} :
    InInts (values ++ values') ↔ InInts values ∧ InInts values' := List.forall_mem_append

theorem checked_eq_guarded (x : Int) : checked x = guarded [x] x := by
  simp [checked, guarded, InInts]

theorem guarded_bind (values : List Int) (a : α) (next : α → List Int) (f : α → β) :
    (guarded values a).bind (fun b => guarded (next b) (f b)) =
      guarded (values ++ next a) (f a) := by
  by_cases h : InInts values
  · rw [guarded_of_inInts h, Option.bind_some]
    simp only [guarded, inInts_append, h, true_and]
  · simp [guarded, inInts_append, h]

theorem checked_bind (x : Int) (next : Int → List Int) (f : Int → β) :
    (checked x).bind (fun y => guarded (next y) (f y)) = guarded (x :: next x) (f x) := by
  rw [checked_eq_guarded]
  exact guarded_bind [x] x next f

theorem guarded_map (values : List Int) (a : α) (f : α → β) :
    (guarded values a).map f = guarded values (f a) := by
  by_cases h : InInts values <;> simp [guarded, h]

end Guarded

end MiniOS
