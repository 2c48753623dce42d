import Mathlib.Data.Option.Basic
import Mathlib.Algebra.Group.Defs

/-! Programs that count what they do. A program has a result and a cost, or none; what
it does besides counting is the program `erase` leaves. -/

namespace Counting

variable {α β κ : Type*}

abbrev Program (κ α : Type*) := Option (α × κ)

def free [Zero κ] (x : Option α) : Program κ α := x.map (fun a => (a, 0))

def charge [Add κ] (c : κ) (x : Program κ α) : Program κ α := x.map (fun r => (r.1, c + r.2))

def andThen [Add κ] (x : Program κ α) (f : α → Program κ β) : Program κ β :=
  x.bind (fun r => charge r.2 (f r.1))

def erase (x : Program κ α) : Option α := x.map Prod.fst

section Erasing

@[simp] theorem erase_free [Zero κ] (x : Option α) : erase (free x : Program κ α) = x := by
  cases x <;> rfl

@[simp] theorem erase_charge [Add κ] (c : κ) (x : Program κ α) :
    erase (charge c x) = erase x := by
  cases x <;> rfl

@[simp] theorem erase_andThen [Add κ] (x : Program κ α) (f : α → Program κ β) :
    erase (andThen x f) = (erase x).bind (fun a => erase (f a)) := by
  cases x with
  | none => rfl
  | some r => exact erase_charge r.2 (f r.1)

theorem exists_cost {x : Program κ α} {a : α} (h : erase x = some a) : ∃ c, x = some (a, c) := by
  cases x with
  | none => cases h
  | some r =>
    obtain rfl : r.1 = a := Option.some.inj h
    exact ⟨r.2, rfl⟩

end Erasing

section Costs

theorem free_eq_some [Zero κ] {x : Option α} {a : α} {d : κ} :
    (free x : Program κ α) = some (a, d) ↔ x = some a ∧ d = 0 := by
  cases x with
  | none => simp [free]
  | some r => simp [free, eq_comm]

theorem andThen_free_eq_some [AddZeroClass κ] {x : Option α} {f : α → Program κ β} {b : β} {d : κ} :
    andThen (free x) f = some (b, d) ↔ ∃ a, x = some a ∧ f a = some (b, d) := by
  cases x with
  | none => simp [andThen, free]
  | some a => simp [andThen, free, charge]

variable [Add κ] {a : α} {b : β} {c d : κ}

theorem charge_eq_some {x : Program κ α} :
    charge c x = some (a, d) ↔ ∃ e, x = some (a, e) ∧ c + e = d := by
  cases x with
  | none => simp [charge]
  | some r => simp [charge, Prod.ext_iff, and_assoc]

theorem charge_bind_eq_some {x : Option β} {f : β → Program κ α} :
    charge c (x.bind f) = some (a, d) ↔ ∃ b e, x = some b ∧ f b = some (a, e) ∧ c + e = d := by
  rw [charge_eq_some]
  simp only [Option.bind_eq_some_iff]
  constructor
  · rintro ⟨e, ⟨b, hb, he⟩, hd⟩
    exact ⟨b, e, hb, he, hd⟩
  · rintro ⟨b, e, hb, he, hd⟩
    exact ⟨e, ⟨b, hb, he⟩, hd⟩

theorem andThen_eq_some {x : Program κ α} {f : α → Program κ β} :
    andThen x f = some (b, d) ↔
      ∃ a c e, x = some (a, c) ∧ f a = some (b, e) ∧ c + e = d := by
  cases x with
  | none => simp [andThen]
  | some r =>
    rw [andThen, Option.bind_some, charge_eq_some]
    constructor
    · rintro ⟨e, he, hd⟩
      exact ⟨r.1, r.2, e, rfl, he, hd⟩
    · rintro ⟨a, c, e, hr, he, hd⟩
      obtain rfl := Option.some.inj hr
      exact ⟨e, he, hd⟩

end Costs

end Counting
