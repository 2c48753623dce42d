import Mathlib.Logic.Relation

/-! Loops `while (cond) body` over a state: bounded execution, the states at
the head of the loop, and the rules for invariants and termination. -/

namespace WhileLoop

variable {σ : Type*} (cond : σ → Bool) (body : σ → σ)

/-- At most `n` iterations; `none` when the condition still holds after them. -/
def run : Nat → σ → Option σ
  | 0, s => if cond s then none else some s
  | n + 1, s => if cond s then run n (body s) else some s

def Iteration (s t : σ) : Prop := cond s = true ∧ t = body s

/-- The states in which the condition is tested, starting from `s`. -/
abbrev Head : σ → σ → Prop := Relation.ReflTransGen (Iteration cond body)

def Returns (s t : σ) : Prop := ∃ n, run cond body n s = some t

variable {cond body}

theorem run_of_not {s : σ} (h : cond s = false) (n : Nat) : run cond body n s = some s := by
  cases n <;> simp [run, h]

theorem run_succ {s : σ} (h : cond s = true) (n : Nat) :
    run cond body (n + 1) s = run cond body n (body s) := by
  simp [run, h]

theorem Returns.of_not {s : σ} (h : cond s = false) : Returns cond body s s := ⟨0, run_of_not h 0⟩

theorem Returns.of_body {s t : σ} (h : cond s = true) (hr : Returns cond body (body s) t) :
    Returns cond body s t := by
  obtain ⟨n, hn⟩ := hr
  exact ⟨n + 1, (run_succ h n).trans hn⟩

theorem run_head {n : Nat} {s t : σ} (h : run cond body n s = some t) :
    Head cond body s t ∧ cond t = false := by
  induction n generalizing s with
  | zero =>
    by_cases hc : cond s = true
    · simp [run, hc] at h
    · have hf : cond s = false := Bool.eq_false_iff.mpr hc
      rw [run_of_not hf] at h
      obtain rfl := Option.some.inj h
      exact ⟨.refl, hf⟩
  | succ n ih =>
    by_cases hc : cond s = true
    · rw [run_succ hc] at h
      obtain ⟨hh, hf⟩ := ih h
      exact ⟨hh.head ⟨hc, rfl⟩, hf⟩
    · have hf : cond s = false := Bool.eq_false_iff.mpr hc
      rw [run_of_not hf] at h
      obtain rfl := Option.some.inj h
      exact ⟨.refl, hf⟩

theorem Returns.head {s t : σ} (h : Returns cond body s t) :
    Head cond body s t ∧ cond t = false := by
  obtain ⟨n, hn⟩ := h
  exact run_head hn

theorem Returns.of_head {s t u : σ} (h : Head cond body s t) (hr : Returns cond body t u) :
    Returns cond body s u := by
  induction h using Relation.ReflTransGen.head_induction_on with
  | refl => exact hr
  | head hstep _ ih =>
    obtain ⟨hc, rfl⟩ := hstep
    exact .of_body hc ih

theorem Head.invariant {inv : σ → Prop} (hstep : ∀ s, inv s → cond s = true → inv (body s))
    {s t : σ} (h : Head cond body s t) (hs : inv s) : inv t := by
  induction h with
  | refl => exact hs
  | tail _ hit ih =>
    obtain ⟨hc, rfl⟩ := hit
    exact hstep _ ih hc

/-- What does not hold at first and holds later starts to hold in some iteration. -/
theorem Head.exists_entry (P : σ → Prop) {s t : σ} (h : Head cond body s t) (hs : ¬ P s)
    (ht : P t) : ∃ r, Head cond body s r ∧ cond r = true ∧ ¬ P r ∧ P (body r) := by
  induction h with
  | refl => exact absurd ht hs
  | @tail r _ hhead hit ih =>
    obtain ⟨hc, rfl⟩ := hit
    by_cases hr : P r
    · exact ih hr
    · exact ⟨r, hhead, hc, hr, ht⟩

theorem Head.conserved {β : Type*} (f : σ → β) (hstep : ∀ s, f (body s) = f s) {s t : σ}
    (h : Head cond body s t) : f t = f s := by
  induction h with
  | refl => rfl
  | tail _ hit ih =>
    obtain ⟨-, rfl⟩ := hit
    exact (hstep _).trans ih

/-- A loop whose iterations update a ghost value, and decrease a measure of it,
returns with the invariant for the last ghost value. -/
theorem returns_of_variant {γ : Type*} {inv : σ → γ → Prop} (μ : γ → Nat)
    (hstep : ∀ s g, inv s g → cond s = true → ∃ g', inv (body s) g' ∧ μ g' < μ g) {s : σ} {g : γ}
    (hs : inv s g) : ∃ t g', Returns cond body s t ∧ cond t = false ∧ inv t g' := by
  induction hm : μ g using Nat.strongRecOn generalizing s g with
  | _ m ih =>
    subst hm
    by_cases hc : cond s = true
    · obtain ⟨g', hinv, hlt⟩ := hstep s g hs hc
      obtain ⟨t, g'', ht, hf, hg⟩ := ih _ hlt hinv rfl
      exact ⟨t, g'', .of_body hc ht, hf, hg⟩
    · have hf : cond s = false := Bool.eq_false_iff.mpr hc
      exact ⟨s, g, .of_not hf, hf, hs⟩

/-- A loop that counts a ghost value down to zero, one in each iteration, takes that many. -/
theorem run_isSome_iff_of_countdown {γ : Type*} {inv : σ → γ → Prop} (μ : γ → Nat)
    (hcond : ∀ s g, inv s g → (cond s = true ↔ 0 < μ g))
    (hstep : ∀ s g, inv s g → cond s = true → ∃ g', inv (body s) g' ∧ μ g' + 1 = μ g) {n : Nat}
    {s : σ} {g : γ} (hs : inv s g) : (run cond body n s).isSome ↔ μ g ≤ n := by
  induction n generalizing s g with
  | zero =>
    have hc := hcond s g hs
    by_cases h : cond s = true
    · simp [run, h, Nat.pos_iff_ne_zero.mp (hc.mp h)]
    · simp [run, h, Nat.eq_zero_of_not_pos (mt hc.mpr h)]
  | succ n ih =>
    have hc := hcond s g hs
    by_cases h : cond s = true
    · obtain ⟨g', hg', hμ⟩ := hstep s g hs h
      rw [run_succ h, ih hg', ← hμ, Nat.add_le_add_iff_right]
    · rw [run_of_not (Bool.eq_false_iff.mpr h)]
      simp [Nat.eq_zero_of_not_pos (mt hc.mpr h)]

section Cut

variable (cond body)

/-- The state after `n` iterations, or fewer when the condition fails before. -/
def after : Nat → σ → σ
  | 0, s => s
  | n + 1, s => if cond s then after n (body s) else s

theorem run_eq_after (n : Nat) (s : σ) :
    run cond body n s = if cond (after cond body n s) then none else some (after cond body n s) := by
  induction n generalizing s with
  | zero => rfl
  | succ n ih =>
    by_cases hc : cond s = true
    · rw [run_succ hc, after, if_pos hc]
      exact ih (body s)
    · rw [run_of_not (Bool.eq_false_iff.mpr hc), after, if_neg hc, if_neg hc]

theorem after_head (n : Nat) (s : σ) :
    Head cond body s (after cond body n s) := by
  induction n generalizing s with
  | zero => exact .refl
  | succ n ih =>
    by_cases hc : cond s = true
    · rw [after, if_pos hc]
      exact (ih (body s)).head ⟨hc, rfl⟩
    · rw [after, if_neg hc]

theorem after_add (m n : Nat) (s : σ) :
    after cond body (m + n) s = after cond body n (after cond body m s) := by
  induction m generalizing s with
  | zero => rw [Nat.zero_add, after]
  | succ m ih =>
    by_cases hc : cond s = true
    · rw [Nat.succ_add, after, if_pos hc, after, if_pos hc, ih]
    · rw [Nat.succ_add, after, if_neg hc, after, if_neg hc]
      cases n with
      | zero => rfl
      | succ n => rw [after, if_neg hc]

theorem Head.exists_after {s t : σ} (h : Head cond body s t) : ∃ n, t = after cond body n s := by
  induction h with
  | refl => exact ⟨0, rfl⟩
  | tail _ hit ih =>
    obtain ⟨n, rfl⟩ := ih
    obtain ⟨hc, rfl⟩ := hit
    exact ⟨n + 1, by rw [after_add, after, if_pos hc, after]⟩

end Cut

theorem after_of_run {fuel : Nat} {s t : σ} (h : run cond body fuel s = some t) (n : Nat)
    (hn : fuel ≤ n) : after cond body n s = t := by
  have hend : cond (after cond body fuel s) = false ∧ after cond body fuel s = t := by
    rw [run_eq_after] at h
    by_cases hc : cond (after cond body fuel s) = true
    · simp [hc] at h
    · rw [if_neg hc] at h
      exact ⟨Bool.eq_false_iff.mpr hc, Option.some.inj h⟩
  obtain ⟨m, rfl⟩ := Nat.exists_eq_add_of_le hn
  rw [after_add, hend.2]
  cases m with
  | zero => rfl
  | succ m => rw [after, if_neg (by rw [← hend.2, hend.1]; exact Bool.false_ne_true)]

theorem run_of_le {fuel n : Nat} {s t : σ} (h : run cond body fuel s = some t) (hn : fuel ≤ n) :
    run cond body n s = some t := by
  have hf := (run_head h).2
  rw [run_eq_after, after_of_run h n hn, if_neg (by rw [hf]; exact Bool.false_ne_true)]

end WhileLoop
