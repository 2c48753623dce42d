import MiniOS.WhileLoop

/-! Two levels of one machine. The lower one answers calls with an `Option`, where
`none` is a fault, the upper one always answers. What holds of one call holds of
every history of calls, and what holds of one iteration of every loop. -/

namespace Simulation

variable {σ τ ι ο : Type*}

/-- The answers to a history of calls and the state behind it. -/
def run (exec : σ → ι → Option (ο × σ)) : List ι → σ → Option (List ο × σ)
  | [], s => some ([], s)
  | call :: calls, s => do
    let (out, s) ← exec s call
    let (outs, s) ← run exec calls s
    some (out :: outs, s)

def specRun (spec : τ → ι → ο × τ) : List ι → τ → List ο × τ
  | [], t => ([], t)
  | call :: calls, t =>
    let (out, t) := spec t call
    let (outs, t) := specRun spec calls t
    (out :: outs, t)

/-- Related states answer a call alike, without a fault, and stay related. -/
def Forward (R : σ → τ → Prop) (exec : σ → ι → Option (ο × σ)) (spec : τ → ι → ο × τ) : Prop :=
  ∀ s t call, R s t → ∃ s', exec s call = some ((spec t call).1, s') ∧ R s' (spec t call).2

theorem Forward.run {R : σ → τ → Prop} {exec : σ → ι → Option (ο × σ)} {spec : τ → ι → ο × τ}
    (h : Forward R exec spec) (calls : List ι) {s : σ} {t : τ} (hst : R s t) :
    ∃ s', Simulation.run exec calls s = some ((specRun spec calls t).1, s') ∧
      R s' (specRun spec calls t).2 := by
  induction calls generalizing s t with
  | nil => exact ⟨s, rfl, hst⟩
  | cons call calls ih =>
    obtain ⟨next, hexec, hnext⟩ := h s t call hst
    obtain ⟨final, hrun, hfinal⟩ := ih hnext
    refine ⟨final, ?_, hfinal⟩
    simp only [Simulation.run, hexec, Option.bind_eq_bind, Option.bind_some, hrun]
    rfl

theorem specRun_invariant {spec : τ → ι → ο × τ} (inv : τ → Prop)
    (hstep : ∀ t call, inv t → inv (spec t call).2) (calls : List ι) {t : τ} (ht : inv t) :
    inv (specRun spec calls t).2 := by
  induction calls generalizing t with
  | nil => exact ht
  | cons call calls ih => exact ih (hstep t call ht)

/-- Two machines that always answer. -/
theorem specRun_agree {R : σ → τ → Prop} {spec : σ → ι → ο × σ} {spec' : τ → ι → ο × τ}
    (h : ∀ s t call, R s t → (spec s call).1 = (spec' t call).1 ∧ R (spec s call).2 (spec' t call).2)
    (calls : List ι) {s : σ} {t : τ} (hst : R s t) :
    (specRun spec calls s).1 = (specRun spec' calls t).1 ∧
      R (specRun spec calls s).2 (specRun spec' calls t).2 := by
  induction calls generalizing s t with
  | nil => exact ⟨rfl, hst⟩
  | cons call calls ih =>
    obtain ⟨hout, hnext⟩ := h s t call hst
    obtain ⟨houts, hend⟩ := ih hnext
    refine ⟨?_, hend⟩
    rw [specRun, specRun]
    simp only [hout, houts]

/-- Related states answer a call alike or both fault, and stay related. -/
def Lockstep (R : σ → τ → Prop) (exec : σ → ι → Option (ο × σ)) (exec' : τ → ι → Option (ο × τ)) :
    Prop :=
  ∀ s t call, R s t →
    Option.Rel (fun a b => a.1 = b.1 ∧ R a.2 b.2) (exec s call) (exec' t call)

theorem Lockstep.run {R : σ → τ → Prop} {exec : σ → ι → Option (ο × σ)}
    {exec' : τ → ι → Option (ο × τ)} (h : Lockstep R exec exec') (calls : List ι) {s : σ} {t : τ}
    (hst : R s t) :
    Option.Rel (fun a b => a.1 = b.1 ∧ R a.2 b.2) (Simulation.run exec calls s)
      (Simulation.run exec' calls t) := by
  induction calls generalizing s t with
  | nil => exact .some ⟨rfl, hst⟩
  | cons call calls ih =>
    have hcall := h s t call hst
    rw [Simulation.run, Simulation.run]
    generalize exec s call = r at hcall
    generalize exec' t call = r' at hcall
    cases hcall with
    | none => exact .none
    | @some a b hab =>
      have hrest := ih hab.2
      simp only [Option.bind_eq_bind, Option.bind_some]
      generalize Simulation.run exec calls a.2 = q at hrest
      generalize Simulation.run exec' calls b.2 = q' at hrest
      cases hrest with
      | none => exact .none
      | some hq => exact .some ⟨by rw [hab.1, hq.1], hq.2⟩

/-- A history faults exactly when one of its calls is of a kind that always faults. -/
theorem run_isSome_iff {exec : σ → ι → Option (ο × σ)} {ok : ι → Prop}
    (h : ∀ s call, (exec s call).isSome ↔ ok call) (calls : List ι) (s : σ) :
    (run exec calls s).isSome ↔ ∀ call ∈ calls, ok call := by
  induction calls generalizing s with
  | nil => simp [run]
  | cons call calls ih =>
    rw [List.forall_mem_cons, ← h s call, run]
    cases exec s call with
    | none => simp
    | some r =>
      rw [← ih r.2]
      cases hrest : run exec calls r.2 <;> simp [hrest]

end Simulation

namespace WhileLoop

variable {σ τ : Type*}

/-- The state after `n` iterations of a body that can fault, or fewer when the condition
fails before. -/
def afterM (cond : σ → Bool) (body : σ → Option σ) : Nat → σ → Option σ
  | 0, s => some s
  | n + 1, s => if cond s then (body s).bind (afterM cond body n) else some s

theorem afterM_refines {R : σ → τ → Prop} {cond : σ → Bool} {body : σ → Option σ}
    {cond' : τ → Bool} {body' : τ → τ} (hcond : ∀ s t, R s t → cond s = cond' t)
    (hbody : ∀ s t, R s t → ∃ s', body s = some s' ∧ R s' (body' t)) (n : Nat) {s : σ} {t : τ}
    (hst : R s t) : ∃ s', afterM cond body n s = some s' ∧ R s' (after cond' body' n t) := by
  induction n generalizing s t with
  | zero => exact ⟨s, rfl, hst⟩
  | succ n ih =>
    have hc := hcond s t hst
    by_cases ht : cond' t = true
    · obtain ⟨next, hnext, hrel⟩ := hbody s t hst
      obtain ⟨final, hrun, hfinal⟩ := ih hrel
      refine ⟨final, ?_, ?_⟩
      · rw [afterM, if_pos (hc.trans ht), hnext]
        exact hrun
      · rwa [after, if_pos ht]
    · refine ⟨s, ?_, ?_⟩
      · rw [afterM, if_neg (fun hs => ht (hc.symm.trans hs))]
      · rwa [after, if_neg ht]

theorem afterM_succ (cond : σ → Bool) (body : σ → Option σ) (n : Nat) (s : σ) :
    afterM cond body (n + 1) s =
      (afterM cond body n s).bind (fun r => if cond r then body r else some r) := by
  induction n generalizing s with
  | zero => simp [afterM]
  | succ n ih =>
    rw [afterM]
    by_cases hc : cond s = true
    · rw [if_pos hc, afterM, if_pos hc, Option.bind_assoc]
      exact congrArg _ (funext ih)
    · rw [if_neg hc, afterM, if_neg hc, Option.bind_some, if_neg hc]

theorem afterM_invariant {inv : σ → Prop} {cond : σ → Bool} {body : σ → Option σ} {s : σ}
    (hstep : ∀ n r u, afterM cond body n s = some r → cond r = true → body r = some u → inv r → inv u)
    (hs : inv s) {n : Nat} {t : σ} (h : afterM cond body n s = some t) : inv t := by
  induction n generalizing t with
  | zero =>
    obtain rfl := Option.some.inj h
    exact hs
  | succ n ih =>
    rw [afterM_succ] at h
    obtain ⟨r, hr, hbody⟩ := Option.bind_eq_some_iff.mp h
    by_cases hc : cond r = true
    · rw [if_pos hc] at hbody
      exact hstep n r t hr hc hbody (ih hr)
    · rw [if_neg hc] at hbody
      obtain rfl := Option.some.inj hbody
      exact ih hr

/-- `run` for a body that can fault: also `none` when the loop faults. -/
def runM (cond : σ → Bool) (body : σ → Option σ) : Nat → σ → Option σ
  | 0, s => if cond s then none else some s
  | n + 1, s => if cond s then (body s).bind (runM cond body n) else some s

theorem runM_eq_afterM (cond : σ → Bool) (body : σ → Option σ) (n : Nat) (s : σ) :
    runM cond body n s =
      (afterM cond body n s).bind (fun t => if cond t then none else some t) := by
  induction n generalizing s with
  | zero => rfl
  | succ n ih =>
    by_cases hc : cond s = true
    · rw [runM, if_pos hc, afterM, if_pos hc, Option.bind_assoc]
      exact congrArg _ (funext ih)
    · rw [runM, if_neg hc, afterM, if_neg hc, Option.bind_some, if_neg hc]

theorem afterM_of_runM {cond : σ → Bool} {body : σ → Option σ} {n : Nat} {s t : σ}
    (h : runM cond body n s = some t) : afterM cond body n s = some t ∧ cond t = false := by
  rw [runM_eq_afterM] at h
  obtain ⟨u, hu, hend⟩ := Option.bind_eq_some_iff.mp h
  by_cases hc : cond u = true
  · rw [if_pos hc] at hend
    cases hend
  · rw [if_neg hc] at hend
    obtain rfl := Option.some.inj hend
    exact ⟨hu, Bool.eq_false_iff.mpr hc⟩

/-- A loop whose states stay related to those of one that returns, returns with it. -/
theorem run_follows {R : σ → τ → Prop} {cond : σ → Bool} {body : σ → σ} {cond' : τ → Bool}
    {body' : τ → τ} (hcond : ∀ s t, R s t → cond s = cond' t)
    (hbody : ∀ s t, R s t → cond' t = true → R (body s) (body' t)) {n : Nat} {s : σ} {t u : τ}
    (hst : R s t) (hu : run cond' body' n t = some u) : ∃ v, run cond body n s = some v ∧ R v u := by
  induction n generalizing s t with
  | zero =>
    by_cases ht : cond' t = true
    · simp [run, ht] at hu
    · have hf : cond' t = false := Bool.eq_false_iff.mpr ht
      rw [run_of_not hf] at hu
      obtain rfl := Option.some.inj hu
      exact ⟨s, run_of_not ((hcond s t hst).trans hf) 0, hst⟩
  | succ n ih =>
    by_cases ht : cond' t = true
    · rw [run_succ ht] at hu
      rw [run_succ ((hcond s t hst).trans ht)]
      exact ih (hbody s t hst ht) hu
    · have hf : cond' t = false := Bool.eq_false_iff.mpr ht
      rw [run_of_not hf] at hu
      obtain rfl := Option.some.inj hu
      exact ⟨s, run_of_not ((hcond s t hst).trans hf) (n + 1), hst⟩

/-! Bodies that check their result -/

section Guard

variable {ok inv : σ → Prop} {cond : σ → Bool} {body : σ → σ} {step : σ → Option σ}

theorem ok_of_after (hmono : ∀ s, inv s → cond s = true → ok (body s) → ok s)
    (hinv : ∀ s, inv s → cond s = true → inv (body s)) (n : Nat) {s : σ} (hs : inv s)
    (h : ok (after cond body n s)) : ok s := by
  induction n generalizing s with
  | zero => exact h
  | succ n ih =>
    by_cases hc : cond s = true
    · rw [after, if_pos hc] at h
      exact hmono s hs hc (ih (hinv s hs hc) h)
    · rwa [after, if_neg hc] at h

variable [DecidablePred ok]

/-- When a result that fails the check fails it for good, the loop faults exactly when the
state it would reach fails. -/
theorem afterM_guard (hstep : ∀ s, inv s → ok s → cond s = true →
      step s = if ok (body s) then some (body s) else none)
    (hmono : ∀ s, inv s → cond s = true → ok (body s) → ok s)
    (hinv : ∀ s, inv s → cond s = true → inv (body s)) (n : Nat) {s : σ} (hs : inv s) (hok : ok s) :
    afterM cond step n s =
      if ok (after cond body n s) then some (after cond body n s) else none := by
  induction n generalizing s with
  | zero => rw [afterM, after, if_pos hok]
  | succ n ih =>
    by_cases hc : cond s = true
    · rw [afterM, if_pos hc, after, if_pos hc, hstep s hs hok hc]
      by_cases hnext : ok (body s)
      · rw [if_pos hnext, Option.bind_some]
        exact ih (hinv s hs hc) hnext
      · rw [if_neg hnext, Option.bind_none, if_neg]
        exact fun h => hnext (ok_of_after hmono hinv n (hinv s hs hc) h)
    · rw [afterM, if_neg hc, after, if_neg hc, if_pos hok]

/-- The checked loop goes through the states of the unchecked one. -/
def Exact (cond : σ → Bool) (step : σ → Option σ) (body : σ → σ) (s : σ) : Prop :=
  ∀ n, afterM cond step n s = some (after cond body n s)

/-- For a loop that returns it is enough to check what it returns. -/
theorem exact_iff_of_run (hstep : ∀ s, inv s → ok s → cond s = true →
      step s = if ok (body s) then some (body s) else none)
    (hmono : ∀ s, inv s → cond s = true → ok (body s) → ok s)
    (hinv : ∀ s, inv s → cond s = true → inv (body s)) {fuel : Nat} {s t : σ} (hs : inv s) (hok : ok s)
    (hrun : run cond body fuel s = some t) : Exact cond step body s ↔ ok t := by
  have hguard := fun n => afterM_guard hstep hmono hinv n hs hok
  constructor
  · intro h
    have hend := (hguard fuel).symm.trans (h fuel)
    rw [after_of_run hrun fuel (Nat.le_refl _)] at hend
    by_cases ht : ok t
    · exact ht
    · simp [ht] at hend
  · intro ht n
    have hlate := after_of_run hrun (n + fuel) (Nat.le_add_left _ _)
    rw [after_add] at hlate
    have hn : ok (after cond body n s) :=
      ok_of_after hmono hinv fuel ((after_head cond body n s).invariant hinv hs) (hlate ▸ ht)
    rw [hguard n, if_pos hn]

theorem Exact.runM_eq (h : Exact cond step body s) (n : Nat) :
    runM cond step n s = run cond body n s := by
  rw [runM_eq_afterM, h n, Option.bind_some, run_eq_after]

theorem Exact.step_eq (h : Exact cond step body s) {n : Nat}
    (hc : cond (after cond body n s) = true) :
    step (after cond body n s) = some (body (after cond body n s)) := by
  have hnext := h (n + 1)
  rw [afterM_succ, h n, Option.bind_some, if_pos hc, after_add] at hnext
  rw [hnext, after, if_pos hc, after]

theorem exact_of_invariant
    (hstep : ∀ s, inv s → cond s = true → step s = some (body s) ∧ inv (body s)) {s : σ}
    (hs : inv s) : Exact cond step body s := by
  intro n
  induction n generalizing s with
  | zero => rfl
  | succ n ih =>
    by_cases hc : cond s = true
    · obtain ⟨hnext, hinv⟩ := hstep s hs hc
      rw [afterM, if_pos hc, after, if_pos hc, hnext]
      exact ih hinv
    · rw [afterM, if_neg hc, after, if_neg hc]

theorem foldlM_guard {ι : Type*} {f : σ → ι → σ} {step : σ → ι → Option σ}
    (hstep : ∀ s i, inv s → ok s → step s i = if ok (f s i) then some (f s i) else none)
    (hmono : ∀ s i, inv s → ok (f s i) → ok s) (hinv : ∀ s i, inv s → inv (f s i)) (is : List ι)
    {s : σ} (hs : inv s) (hok : ok s) :
    is.foldlM step s = if ok (is.foldl f s) then some (is.foldl f s) else none := by
  have hback : ∀ (js : List ι) (t : σ), inv t → ok (js.foldl f t) → ok t := by
    intro js
    induction js with
    | nil => exact fun _ _ h => h
    | cons j js ih => exact fun t ht h => hmono t j ht (ih (f t j) (hinv t j ht) h)
  induction is generalizing s with
  | nil => exact (if_pos hok).symm
  | cons i is ih =>
    rw [List.foldlM_cons, List.foldl_cons, hstep s i hs hok]
    by_cases hnext : ok (f s i)
    · rw [if_pos hnext]
      exact ih (hinv s i hs) hnext
    · rw [if_neg hnext, if_neg (fun h => hnext (hback is (f s i) (hinv s i hs) h))]
      rfl

end Guard

/-! Bodies that do the work of another one or fault -/

section Follows

variable {ok : σ → Prop} {cond : σ → Bool} {body : σ → σ} {step : σ → Option σ}

theorem afterM_some (hstep : ∀ s t, step s = some t → t = body s ∧ (ok s → ok t)) {n : Nat} {s t : σ}
    (h : afterM cond step n s = some t) : t = after cond body n s ∧ (ok s → ok t) := by
  induction n generalizing s with
  | zero =>
    obtain rfl := Option.some.inj h
    exact ⟨rfl, id⟩
  | succ n ih =>
    by_cases hc : cond s = true
    · rw [afterM, if_pos hc] at h
      obtain ⟨next, hnext, hrest⟩ := Option.bind_eq_some_iff.mp h
      obtain ⟨rfl, hok⟩ := hstep s next hnext
      obtain ⟨hend, hokend⟩ := ih hrest
      exact ⟨by rw [after, if_pos hc, hend], fun hs => hokend (hok hs)⟩
    · rw [afterM, if_neg hc] at h
      obtain rfl := Option.some.inj h
      exact ⟨by rw [after, if_neg hc], id⟩

theorem runM_some (hstep : ∀ s t, step s = some t → t = body s ∧ (ok s → ok t)) {n : Nat} {s t : σ}
    (h : runM cond step n s = some t) : run cond body n s = some t ∧ (ok s → ok t) := by
  obtain ⟨hafter, hc⟩ := afterM_of_runM h
  obtain ⟨rfl, hok⟩ := afterM_some hstep hafter
  rw [run_eq_after, hc]
  exact ⟨rfl, hok⟩

/-- A checked loop that returns has checked every state it can visit. -/
theorem exact_of_runM (hstep : ∀ s t, step s = some t → t = body s) {n : Nat} {s t : σ}
    (h : runM cond step n s = some t) : Exact cond step body s := by
  induction n generalizing s with
  | zero =>
    intro m
    by_cases hc : cond s = true
    · simp [runM, hc] at h
    · cases m <;> simp [afterM, after, hc]
  | succ n ih =>
    intro m
    by_cases hc : cond s = true
    · rw [runM, if_pos hc] at h
      obtain ⟨next, hnext, hrest⟩ := Option.bind_eq_some_iff.mp h
      obtain rfl := hstep s next hnext
      cases m with
      | zero => rfl
      | succ m =>
        rw [afterM, if_pos hc, after, if_pos hc, hnext]
        exact ih hrest m
    · cases m <;> simp [afterM, after, hc]

theorem foldlM_some {ι : Type*} {f : σ → ι → σ} {step : σ → ι → Option σ}
    (hstep : ∀ s i t, step s i = some t → t = f s i ∧ (ok s → ok t)) {is : List ι} {s t : σ}
    (h : is.foldlM step s = some t) : t = is.foldl f s ∧ (ok s → ok t) := by
  induction is generalizing s with
  | nil =>
    obtain rfl := Option.some.inj h
    exact ⟨rfl, id⟩
  | cons i is ih =>
    rw [List.foldlM_cons] at h
    obtain ⟨next, hnext, hrest⟩ := Option.bind_eq_some_iff.mp h
    obtain ⟨rfl, hok⟩ := hstep s i next hnext
    obtain ⟨hend, hokend⟩ := ih hrest
    exact ⟨hend, fun hs => hokend (hok hs)⟩

end Follows

/-- A loop that takes one element off a list in each iteration empties the list. -/
theorem afterM_drains {α : Type*} {P : List α → σ → Prop} {cond : σ → Bool} {body : σ → Option σ}
    (hnil : ∀ s, P [] s → cond s = false)
    (hcons : ∀ x l s, P (x :: l) s → cond s = true ∧ ∃ s', body s = some s' ∧ P l s')
    {l : List α} {s : σ} {n : Nat} (hs : P l s) (hn : l.length ≤ n) :
    ∃ s', afterM cond body n s = some s' ∧ P [] s' := by
  induction l generalizing s n with
  | nil =>
    refine ⟨s, ?_, hs⟩
    cases n with
    | zero => rfl
    | succ n => rw [afterM, if_neg (by rw [hnil s hs]; exact Bool.false_ne_true)]
  | cons x l ih =>
    obtain ⟨n, rfl⟩ : ∃ m, n = m + 1 := ⟨n - 1, by rw [List.length_cons] at hn; omega⟩
    obtain ⟨hc, next, hnext, hrest⟩ := hcons x l s hs
    obtain ⟨final, hrun, hfinal⟩ := ih hrest (Nat.le_of_succ_le_succ hn)
    refine ⟨final, ?_, hfinal⟩
    rw [afterM, if_pos hc, hnext]
    exact hrun

end WhileLoop
