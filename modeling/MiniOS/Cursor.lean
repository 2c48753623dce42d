import Mathlib.Data.List.Basic
import Mathlib.Order.Lattice

/-! Positions in a list and the two linear searches that return one: the
first element passing a test, and the running candidate of an extremum scan. -/

/-- A pointer to an element of `l`, kept with the two sides it separates. -/
structure Cursor {α : Type*} (l : List α) where
  before : List α
  item : α
  after : List α
  split : before ++ item :: after = l

namespace Cursor

variable {α β : Type*} {l : List α}

def replace (c : Cursor l) (xs : List α) : List α := c.before ++ xs ++ c.after

theorem replace_singleton (c : Cursor l) (x : α) : c.replace [x] = c.before ++ x :: c.after := by
  simp [replace]

theorem item_mem (c : Cursor l) : c.item ∈ l := by
  have hc : c.item ∈ c.before ++ c.item :: c.after := by simp
  rwa [c.split] at hc

theorem eq_of_before_eq {c d : Cursor l} (h : c.before = d.before) : c = d := by
  obtain ⟨p, x, q, hc⟩ := c
  obtain ⟨p', y, r, hd⟩ := d
  obtain rfl : p = p' := h
  have he := List.append_cancel_left (hc.trans hd.symm)
  simp only [List.cons.injEq] at he
  obtain ⟨rfl, rfl⟩ := he
  rfl

/-- The same position in the image of the list. -/
def map (f : α → β) (c : Cursor l) : Cursor (l.map f) :=
  ⟨c.before.map f, f c.item, c.after.map f, by rw [← List.map_cons, ← List.map_append, c.split]⟩

def nth (i : Nat) (l : List α) : Option (Cursor l) :=
  if h : i < l.length then some ⟨l.take i, l[i], l.drop (i + 1), by simp⟩ else none

theorem nth_eq_some (c : Cursor l) : nth c.before.length l = some c := by
  obtain ⟨p, x, q, rfl⟩ := c
  have hlt : p.length < (p ++ x :: q).length := by
    rw [List.length_append, List.length_cons]
    omega
  rw [nth, dif_pos hlt]
  congr 1
  apply eq_of_before_eq
  exact List.take_left

def firstFrom (ok : α → Bool) (before : List α) :
    (rest : List α) → before ++ rest = l → Option (Cursor l)
  | [], _ => none
  | x :: rest, h =>
    if ok x then some ⟨before, x, rest, h⟩
    else firstFrom ok (before ++ [x]) rest (by simpa using h)

def first (ok : α → Bool) (l : List α) : Option (Cursor l) := firstFrom ok [] l rfl

theorem firstFrom_none {ok : α → Bool} {before rest : List α} {h : before ++ rest = l} :
    firstFrom ok before rest h = none ↔ ∀ x ∈ rest, ok x = false := by
  induction rest generalizing before with
  | nil => simp [firstFrom]
  | cons x rest ih =>
    by_cases hx : ok x = true
    · simp [firstFrom, hx]
    · have hx' : ok x = false := Bool.eq_false_iff.mpr hx
      simp [firstFrom, hx', ih]

theorem first_eq_none_iff {ok : α → Bool} : first ok l = none ↔ ∀ x ∈ l, ok x = false :=
  firstFrom_none

theorem firstFrom_some {ok : α → Bool} {before rest : List α} {h : before ++ rest = l}
    {c : Cursor l} (hbefore : ∀ x ∈ before, ok x = false)
    (hc : firstFrom ok before rest h = some c) :
    ok c.item = true ∧ ∀ x ∈ c.before, ok x = false := by
  induction rest generalizing before with
  | nil => simp [firstFrom] at hc
  | cons x rest ih =>
    by_cases hx : ok x = true
    · simp only [firstFrom, hx, if_true, Option.some.injEq] at hc
      subst hc
      exact ⟨hx, hbefore⟩
    · have hx' : ok x = false := Bool.eq_false_iff.mpr hx
      simp only [firstFrom, hx', Bool.false_eq_true, if_false] at hc
      refine ih ?_ hc
      intro y hy
      rcases List.mem_append.mp hy with hy | hy
      · exact hbefore y hy
      · rwa [List.mem_singleton.mp hy]

theorem first_spec {ok : α → Bool} {c : Cursor l} (hc : first ok l = some c) :
    ok c.item = true ∧ ∀ x ∈ c.before, ok x = false :=
  firstFrom_some (by simp) hc

theorem first_eq_some {ok : α → Bool} (c : Cursor l) (hitem : ok c.item = true)
    (hbefore : ∀ x ∈ c.before, ok x = false) : first ok l = some c := by
  cases hd : first ok l with
  | none =>
    have hh := first_eq_none_iff.mp hd c.item c.item_mem
    simp [hitem] at hh
  | some d =>
    have hs := first_spec hd
    congr 1
    apply eq_of_before_eq
    have he : d.before ++ d.item :: d.after = c.before ++ c.item :: c.after :=
      d.split.trans c.split.symm
    rcases List.append_eq_append_iff.mp he with ⟨as, h₁, h₂⟩ | ⟨as, h₁, h₂⟩
    · cases as with
      | nil => simpa using h₁.symm
      | cons a as =>
        obtain ⟨rfl, -⟩ := List.cons.inj h₂
        have hh := hbefore d.item (by simp [h₁])
        simp [hs.1] at hh
    · cases as with
      | nil => simpa using h₁
      | cons a as =>
        obtain ⟨rfl, -⟩ := List.cons.inj h₂
        have hh := hs.2 c.item (by simp [h₁])
        simp [hitem] at hh

theorem first_item (ok : α → Bool) (l : List α) : (first ok l).map Cursor.item = l.find? ok := by
  cases hc : first ok l with
  | none =>
    have hnone := first_eq_none_iff.mp hc
    exact (List.find?_eq_none.mpr (by simpa using hnone)).symm
  | some c =>
    obtain ⟨hitem, hbefore⟩ := first_spec hc
    have hfind : (c.before ++ c.item :: c.after).find? ok = some c.item := by
      rw [List.find?_append, List.find?_cons_of_pos hitem,
        List.find?_eq_none.mpr (by simpa using hbefore)]
      rfl
    rw [c.split] at hfind
    exact hfind.symm

theorem firstFrom_map {f : α → β} {ok : β → Bool} (before : List α) {rest : List α}
    {h : before ++ rest = l} {before' : List β} (hb : before' = before.map f)
    (h' : before' ++ rest.map f = l.map f) :
    firstFrom ok before' (rest.map f) h' =
      (firstFrom (fun x => ok (f x)) before rest h).map (map f) := by
  induction rest generalizing before before' with
  | nil => rfl
  | cons x rest ih =>
    simp only [List.map_cons, firstFrom]
    by_cases hx : ok (f x) = true
    · rw [if_pos hx, if_pos hx, Option.map_some]
      congr 1
      exact eq_of_before_eq hb
    · rw [if_neg hx, if_neg hx]
      exact ih (before ++ [x]) (by simp [hb]) _

theorem first_map (f : α → β) (ok : β → Bool) (l : List α) :
    first ok (l.map f) = (first (fun x => ok (f x)) l).map (map f) :=
  firstFrom_map [] rfl rfl

def scanFrom (ok : α → Bool) (replaces : α → α → Bool) (best : Option (Cursor l))
    (before : List α) : (rest : List α) → before ++ rest = l → Option (Cursor l)
  | [], _ => best
  | x :: rest, h =>
    let takes := best.all (fun b => replaces x b.item)
    scanFrom ok replaces (if ok x && takes then some ⟨before, x, rest, h⟩ else best)
      (before ++ [x]) rest (by simpa using h)

/-- The loop over the whole list that keeps a candidate and replaces it by an
element passing the test when `replaces` prefers the new one. -/
def scan (ok : α → Bool) (replaces : α → α → Bool) (l : List α) : Option (Cursor l) :=
  scanFrom ok replaces none [] l rfl

theorem scanFrom_map {f : α → β} {ok : β → Bool} {replaces : β → β → Bool}
    (best : Option (Cursor l)) (before : List α) {rest : List α} {h : before ++ rest = l}
    {before' : List β} (hb : before' = before.map f) (h' : before' ++ rest.map f = l.map f) :
    scanFrom ok replaces (best.map (map f)) before' (rest.map f) h' =
      (scanFrom (fun x => ok (f x)) (fun x y => replaces (f x) (f y)) best before rest h).map
        (map f) := by
  induction rest generalizing best before before' with
  | nil => rfl
  | cons x rest ih =>
    simp only [List.map_cons, scanFrom]
    have hb' : before' ++ [f x] = (before ++ [x]).map f := by simp [hb]
    rw [← ih _ (before ++ [x]) hb' (by simpa using h')]
    have htakes : (best.map (map f)).all (fun b => replaces (f x) b.item) =
        best.all (fun b => replaces (f x) (f b.item)) := by
      cases best <;> rfl
    rw [htakes]
    congr 1
    split_ifs
    · rw [Option.map_some]
      congr 1
      exact eq_of_before_eq hb
    · rfl

theorem scan_map (f : α → β) (ok : β → Bool) (replaces : β → β → Bool) (l : List α) :
    scan ok replaces (l.map f) =
      (scan (fun x => ok (f x)) (fun x y => replaces (f x) (f y)) l).map (map f) :=
  scanFrom_map none [] rfl rfl

section Extremum

variable [LinearOrder β]

/-- What the candidate is worth once the elements of `seen` were visited. -/
def IsBest (ok : α → Bool) (key : α → β) (seen : List α) : Option (Cursor l) → Prop
  | none => ∀ x ∈ seen, ok x = false
  | some c => ok c.item = true ∧ (∀ x ∈ seen, ok x = true → key c.item ≤ key x) ∧
      ∀ x ∈ c.before, ok x = true → key c.item < key x

variable {ok : α → Bool} {key : α → β} {replaces : α → α → Bool}

theorem IsBest.skip {seen : List α} {best : Option (Cursor l)} {x : α}
    (h : IsBest ok key seen best)
    (hx : ok x = true → ∃ b, best = some b ∧ key b.item ≤ key x) :
    IsBest ok key (seen ++ [x]) best := by
  cases best with
  | none =>
    intro y hy
    rcases List.mem_append.mp hy with hy | hy
    · exact h y hy
    · rw [List.mem_singleton.mp hy]
      by_contra hc
      obtain ⟨b, hb, -⟩ := hx (by simpa using hc)
      simp at hb
  | some c =>
    refine ⟨h.1, ?_, h.2.2⟩
    intro y hy hok
    rcases List.mem_append.mp hy with hy | hy
    · exact h.2.1 y hy hok
    · rw [List.mem_singleton.mp hy] at hok ⊢
      obtain ⟨b, hb, hle⟩ := hx hok
      obtain rfl := Option.some.inj hb
      exact hle

theorem IsBest.take {before rest : List α} {x : α} {best : Option (Cursor l)}
    (hsplit : before ++ x :: rest = l) (h : IsBest ok key before best) (hok : ok x = true)
    (hx : ∀ b, best = some b → key x < key b.item) :
    IsBest ok key (before ++ [x]) (some ⟨before, x, rest, hsplit⟩) := by
  have hlt : ∀ y ∈ before, ok y = true → key x < key y := by
    intro y hy hy'
    cases best with
    | none => simp [h y hy] at hy'
    | some b => exact (hx b rfl).trans_le (h.2.1 y hy hy')
  refine ⟨hok, ?_, hlt⟩
  intro y hy hy'
  rcases List.mem_append.mp hy with hy | hy
  · exact (hlt y hy hy').le
  · rw [List.mem_singleton.mp hy]

theorem scanFrom_isBest (hrep : ∀ x y, replaces x y = true ↔ key x < key y)
    {best : Option (Cursor l)} {before rest : List α} {h : before ++ rest = l}
    (hbest : IsBest ok key before best) :
    IsBest ok key l (scanFrom ok replaces best before rest h) := by
  induction rest generalizing best before with
  | nil =>
    obtain rfl : before = l := by simpa using h
    exact hbest
  | cons x rest ih =>
    simp only [scanFrom]
    apply ih
    split
    case isTrue ht =>
      rw [Bool.and_eq_true] at ht
      apply hbest.take h ht.1
      rintro b rfl
      exact (hrep x b.item).mp ht.2
    case isFalse hf =>
      apply hbest.skip
      intro hok
      cases best with
      | none => simp [hok] at hf
      | some b =>
        refine ⟨b, rfl, ?_⟩
        have hn : ¬ replaces x b.item = true := by simpa [hok] using hf
        exact not_lt.mp (fun hlt => hn ((hrep x b.item).mpr hlt))

theorem scan_isBest (hrep : ∀ x y, replaces x y = true ↔ key x < key y) :
    IsBest ok key l (scan ok replaces l) :=
  scanFrom_isBest hrep (by simp [IsBest])

theorem scan_eq_none_iff (hrep : ∀ x y, replaces x y = true ↔ key x < key y) :
    scan ok replaces l = none ↔ ∀ x ∈ l, ok x = false := by
  have hb : IsBest ok key l (scan ok replaces l) := scan_isBest hrep
  cases hs : scan ok replaces l with
  | none =>
    rw [hs] at hb
    exact iff_of_true rfl hb
  | some c =>
    rw [hs] at hb
    apply iff_of_false (by simp)
    intro hall
    have hh := hall c.item c.item_mem
    simp [hb.1] at hh

theorem scan_spec (hrep : ∀ x y, replaces x y = true ↔ key x < key y) {c : Cursor l}
    (hc : scan ok replaces l = some c) :
    ok c.item = true ∧ (∀ x ∈ l, ok x = true → key c.item ≤ key x) ∧
      ∀ x ∈ c.before, ok x = true → key c.item < key x := by
  have hb : IsBest ok key l (scan ok replaces l) := scan_isBest hrep
  rwa [hc] at hb

end Extremum

end Cursor
