import Mathlib.Data.List.Basic
import Mathlib.Data.List.TakeWhile

/-! Printed text that can be read back: the integer conversions of `printf` and formats
built of them. -/

/-- Texts that stand for the values of a type. The reader takes a text off the front of its
input and accepts nothing else. -/
structure TextFormat (α : Type) where
  write : α → List Char
  read : List Char → Option (α × List Char)
  read_iff : ∀ {cs a rest}, read cs = some (a, rest) ↔ write a ++ rest = cs

namespace TextFormat

variable {α β : Type}

theorem read_write (f : TextFormat α) (a : α) (rest : List Char) :
    f.read (f.write a ++ rest) = some (a, rest) := f.read_iff.mpr rfl

theorem append_inj (f : TextFormat α) {a b : α} {rest rest' : List Char}
    (h : f.write a ++ rest = f.write b ++ rest') : a = b ∧ rest = rest' := by
  have hread := f.read_write a rest
  rw [h, f.read_write b rest'] at hread
  have hpair := Option.some.inj hread
  exact ⟨(congrArg Prod.fst hpair).symm, (congrArg Prod.snd hpair).symm⟩

theorem write_injective (f : TextFormat α) : Function.Injective f.write := by
  intro a b h
  exact (f.append_inj (congrArg (· ++ []) h)).1

/-- No text of one format is the beginning of a text of the other. -/
def Apart (f : TextFormat α) (g : TextFormat β) : Prop :=
  ∀ a b rest rest', f.write a ++ rest ≠ g.write b ++ rest'

theorem Apart.symm {f : TextFormat α} {g : TextFormat β} (h : Apart f g) : Apart g f :=
  fun b a rest rest' he => h a b rest' rest he.symm

theorem Apart.read_eq_none {f : TextFormat α} {g : TextFormat β} (h : Apart f g) (b : β)
    (rest : List Char) : f.read (g.write b ++ rest) = none := by
  cases hread : f.read (g.write b ++ rest) with
  | none => rfl
  | some x => exact absurd (f.read_iff.mp hread) (h x.1 b x.2 rest)

/-- Every text begins with a character of the class. -/
def Begins (p : Char → Bool) (f : TextFormat α) : Prop :=
  ∀ a, ∃ c cs, f.write a = c :: cs ∧ p c = true

theorem Begins.apart {p : Char → Bool} {f : TextFormat α} {g : TextFormat β} (hf : f.Begins p)
    (hg : g.Begins (fun c => !p c)) : Apart f g := by
  intro a b rest rest' h
  obtain ⟨c, cs, hc, hpc⟩ := hf a
  obtain ⟨d, ds, hd, hpd⟩ := hg b
  rw [hc, hd] at h
  rw [← (List.cons.inj h).1] at hpd
  simp [hpc] at hpd

theorem apart_of_prefixes {f : TextFormat α} {g : TextFormat β} {p q : List Char}
    (hpq : ¬ p <+: q) (hqp : ¬ q <+: p) (hf : ∀ a, p <+: f.write a) (hg : ∀ b, q <+: g.write b) :
    Apart f g := by
  intro a b rest rest' h
  have hp : p <+: f.write a ++ rest := (hf a).trans (List.prefix_append _ _)
  have hq : q <+: f.write a ++ rest := h ▸ (hg b).trans (List.prefix_append _ _)
  exact (List.prefix_or_prefix_of_prefix hp hq).elim hpq hqp

/-! Combinations -/

def literal (text : List Char) : TextFormat Unit where
  write _ := text
  read cs := (text.isPrefixOf? cs).map (fun rest => ((), rest))
  read_iff := by simp

/-- The text, then the value. -/
def after (text : List Char) (f : TextFormat α) : TextFormat α where
  write a := text ++ f.write a
  read cs := (text.isPrefixOf? cs).bind f.read
  read_iff := by
    intro cs a rest
    simp [Option.bind_eq_some_iff, f.read_iff]

/-- The value, then the text. -/
def before (f : TextFormat α) (text : List Char) : TextFormat α where
  write a := f.write a ++ text
  read cs := do
    let (a, cs) ← f.read cs
    let cs ← text.isPrefixOf? cs
    some (a, cs)
  read_iff := by
    intro cs a rest
    simp only [Option.bind_eq_bind, Option.bind_eq_some_iff, Prod.exists, f.read_iff,
      List.isPrefixOf?_eq_some_iff_append_eq, Option.some.injEq, Prod.mk.injEq, List.append_assoc]
    constructor
    · rintro ⟨_, _, hf, _, ht, rfl, rfl⟩
      rw [ht, hf]
    · intro h
      exact ⟨a, _, h, rest, rfl, rfl, rfl⟩

def seq (f : TextFormat α) (g : TextFormat β) : TextFormat (α × β) where
  write x := f.write x.1 ++ g.write x.2
  read cs := do
    let (a, cs) ← f.read cs
    let (b, cs) ← g.read cs
    some ((a, b), cs)
  read_iff := by
    rintro cs ⟨a, b⟩ rest
    simp only [Option.bind_eq_bind, Option.bind_eq_some_iff, Prod.exists, f.read_iff, g.read_iff,
      Option.some.injEq, Prod.mk.injEq, List.append_assoc]
    constructor
    · rintro ⟨_, _, hf, _, _, hg, ⟨rfl, rfl⟩, rfl⟩
      rw [hg, hf]
    · intro h
      exact ⟨a, _, h, b, rest, rfl, ⟨rfl, rfl⟩, rfl⟩

@[simp] theorem literal_write (text : List Char) (x : Unit) : (literal text).write x = text := rfl

@[simp] theorem after_write (text : List Char) (f : TextFormat α) (a : α) :
    (after text f).write a = text ++ f.write a := rfl

@[simp] theorem before_write (f : TextFormat α) (text : List Char) (a : α) :
    (f.before text).write a = f.write a ++ text := rfl

@[simp] theorem seq_write (f : TextFormat α) (g : TextFormat β) (x : α × β) :
    (f.seq g).write x = f.write x.1 ++ g.write x.2 := rfl

theorem begins_literal {p : Char → Bool} {text : List Char} {c : Char} (h : text.head? = some c)
    (hc : p c = true) : (literal text).Begins p := by
  obtain ⟨cs, rfl⟩ := List.head?_eq_some_iff.mp h
  exact fun _ => ⟨c, cs, rfl, hc⟩

theorem begins_after {p : Char → Bool} {text : List Char} {c : Char} (h : text.head? = some c)
    (hc : p c = true) (f : TextFormat α) : (after text f).Begins p := by
  obtain ⟨cs, rfl⟩ := List.head?_eq_some_iff.mp h
  exact fun a => ⟨c, cs ++ f.write a, rfl, hc⟩

theorem Begins.seq {p : Char → Bool} {f : TextFormat α} (h : f.Begins p) (g : TextFormat β) :
    (f.seq g).Begins p := by
  intro x
  obtain ⟨c, cs, hcs, hc⟩ := h x.1
  exact ⟨c, cs ++ g.write x.2, by rw [seq_write, hcs, List.cons_append], hc⟩

/-- One of two kinds of text. -/
def either (f : TextFormat α) (g : TextFormat β) (h : Apart f g) : TextFormat (α ⊕ β) where
  write := Sum.elim f.write g.write
  read cs :=
    match f.read cs with
    | some (a, rest) => some (.inl a, rest)
    | none => (g.read cs).map (fun x => (.inr x.1, x.2))
  read_iff := by
    intro cs x rest
    cases hf : f.read cs with
    | some y =>
      have hy := f.read_iff.mp hf
      cases x with
      | inl a =>
        rw [Sum.elim_inl, ← f.read_iff, hf]
        simp [Prod.ext_iff]
      | inr b => simpa [← hy] using fun he => h y.1 b y.2 rest he.symm
    | none =>
      cases x with
      | inl a =>
        have hne : f.write a ++ rest ≠ cs := fun he => by simp [f.read_iff.mpr he] at hf
        simpa using hne
      | inr b => simp [g.read_iff]

@[simp] theorem either_write (f : TextFormat α) (g : TextFormat β) (h : Apart f g) (x : α ⊕ β) :
    (either f g h).write x = Sum.elim f.write g.write x := rfl

/-- One value is printed as a word. -/
def orWord [DecidableEq α] (special : α) (word : List Char) (f : TextFormat α)
    (h : Apart (literal word) f) : TextFormat α where
  write a := if a = special then word else f.write a
  read cs :=
    match word.isPrefixOf? cs with
    | some rest => some (special, rest)
    | none => (f.read cs).filter (fun x => x.1 ≠ special)
  read_iff := by
    intro cs a rest
    cases hw : word.isPrefixOf? cs with
    | some rest' =>
      rw [List.isPrefixOf?_eq_some_iff_append_eq] at hw
      subst hw
      by_cases ha : a = special
      · simp [ha, eq_comm]
      · simpa [ha, Ne.symm ha] using fun he => h () a rest' rest he.symm
    | none =>
      by_cases ha : a = special
      · have hne : word ++ rest ≠ cs := fun he => by
          simp [List.isPrefixOf?_eq_some_iff_append_eq.mpr he] at hw
        simpa [ha, Option.filter_eq_some_iff] using hne
      · simp [ha, Option.filter_eq_some_iff, f.read_iff]

@[simp] theorem orWord_write [DecidableEq α] (special : α) (word : List Char) (f : TextFormat α)
    (h : Apart (literal word) f) (a : α) :
    (orWord special word f h).write a = if a = special then word else f.write a := rfl

def readMany (f : TextFormat α) (last : TextFormat β) :
    Nat → List Char → Option ((List α × β) × List Char)
  | 0, _ => none
  | fuel + 1, cs =>
    match last.read cs with
    | some (b, rest) => some (([], b), rest)
    | none => do
      let (a, cs) ← f.read cs
      let ((as, b), cs) ← readMany f last fuel cs
      some ((a :: as, b), cs)

theorem readMany_sound {f : TextFormat α} {last : TextFormat β} {fuel : Nat} {cs rest : List Char}
    {as : List α} {b : β} (h : readMany f last fuel cs = some ((as, b), rest)) :
    as.flatMap f.write ++ last.write b ++ rest = cs := by
  induction fuel generalizing cs as with
  | zero => exact absurd h (by simp [readMany])
  | succ fuel ih =>
    rw [readMany] at h
    cases hlast : last.read cs with
    | some x =>
      rw [hlast] at h
      obtain ⟨⟨rfl, rfl⟩, rfl⟩ := by simpa using h
      exact last.read_iff.mp hlast
    | none =>
      rw [hlast] at h
      simp only [Option.bind_eq_bind, Option.bind_eq_some_iff, Option.some.injEq,
        Prod.mk.injEq] at h
      obtain ⟨⟨a, next⟩, hf, ⟨⟨as', b'⟩, rest'⟩, hmany, ⟨rfl, rfl⟩, rfl⟩ := h
      have htail := ih hmany
      rw [List.flatMap_cons, List.append_assoc, List.append_assoc, ← List.append_assoc _ _ rest',
        htail]
      exact f.read_iff.mp hf

theorem readMany_complete {f : TextFormat α} {last : TextFormat β} (h : Apart f last)
    (as : List α) (b : β) (rest : List Char) {fuel : Nat} (hfuel : as.length < fuel) :
    readMany f last fuel (as.flatMap f.write ++ last.write b ++ rest) = some ((as, b), rest) := by
  induction as generalizing fuel with
  | nil =>
    obtain ⟨fuel, rfl⟩ : ∃ n, fuel = n + 1 := ⟨fuel - 1, by simp at hfuel; omega⟩
    simp [readMany, last.read_write]
  | cons a as ih =>
    obtain ⟨fuel, rfl⟩ : ∃ n, fuel = n + 1 := ⟨fuel - 1, by simp at hfuel; omega⟩
    have hnone := h.symm.read_eq_none a (as.flatMap f.write ++ last.write b ++ rest)
    rw [List.flatMap_cons, List.append_assoc, List.append_assoc, ← List.append_assoc _ _ rest,
      readMany, hnone]
    simp only [f.read_write, ih (Nat.lt_of_succ_lt_succ hfuel), Option.bind_eq_bind,
      Option.bind_some]

theorem length_le_flatMap {f : TextFormat α} {last : TextFormat β} (h : Apart f last) (b : β)
    (as : List α) : as.length ≤ (as.flatMap f.write).length := by
  induction as with
  | nil => exact Nat.zero_le _
  | cons a as ih =>
    -- an empty text would be the beginning of every other one
    have hne : f.write a ≠ [] := by
      intro he
      exact h a b (last.write b) [] (by rw [he, List.nil_append, List.append_nil])
    have hpos := List.length_pos_iff.mpr hne
    rw [List.flatMap_cons, List.length_append, List.length_cons]
    omega

/-- Any number of values, up to a text of the second format. -/
def many (f : TextFormat α) (last : TextFormat β) (h : Apart f last) :
    TextFormat (List α × β) where
  write x := x.1.flatMap f.write ++ last.write x.2
  read cs := readMany f last (cs.length + 1) cs
  read_iff := by
    rintro cs ⟨as, b⟩ rest
    constructor
    · exact readMany_sound
    · rintro rfl
      apply readMany_complete h
      have hle := length_le_flatMap h b as
      simp only [List.length_append]
      omega

@[simp] theorem many_write (f : TextFormat α) (last : TextFormat β) (h : Apart f last)
    (x : List α × β) : (many f last h).write x = x.1.flatMap f.write ++ last.write x.2 := rfl

/-! Integers -/

/-- `%d` -/
def intText (n : Int) : List Char :=
  if n < 0 then '-' :: Nat.toDigits 10 n.natAbs else Nat.toDigits 10 n.natAbs

/-- `%d`, `%4d` and `%-4d` -/
inductive IntField where
  | plain
  | right (width : Nat)
  | left (width : Nat)

def IntField.print : IntField → Int → List Char
  | plain, n => intText n
  | right width, n => (intText n).leftpad width ' '
  | left width, n => (intText n).rightpad width ' '

/-- The number at the beginning of the text, blanks skipped, if there is one. -/
def guess (cs : List Char) : Int :=
  let cs := cs.dropWhile (· == ' ')
  if cs.head? = some '-' then -(Nat.ofDigitChars 10 ((cs.drop 1).takeWhile Char.isDigit) 0 : Nat)
  else (Nat.ofDigitChars 10 (cs.takeWhile Char.isDigit) 0 : Nat)

/-- What the text of a number may begin with. -/
def isNumeral (c : Char) : Bool := c.isDigit || c == '-' || c == ' '

theorem isDigit_of_mem {k : Nat} {c : Char} (h : c ∈ Nat.toDigits 10 k) : c.isDigit = true :=
  Nat.isDigit_of_mem_toDigits (by decide) (by decide) h

theorem takeWhile_digits (k : Nat) {c : Char} (hc : c.isDigit = false) (rest : List Char) :
    (Nat.toDigits 10 k ++ c :: rest).takeWhile Char.isDigit = Nat.toDigits 10 k := by
  rw [List.takeWhile_append_of_pos (fun _ => isDigit_of_mem),
    List.takeWhile_cons_of_neg (by simp [hc]), List.append_nil]

theorem digits_head (k : Nat) : ∃ c cs, Nat.toDigits 10 k = c :: cs ∧ c.isDigit = true := by
  obtain ⟨c, cs, hcs⟩ := List.exists_cons_of_ne_nil (Nat.toDigits_ne_nil (n := k) (b := 10))
  exact ⟨c, cs, hcs, isDigit_of_mem (hcs ▸ List.mem_cons_self)⟩

theorem intText_head (n : Int) :
    ∃ c cs, intText n = c :: cs ∧ isNumeral c = true ∧ (c == ' ') = false := by
  rw [intText]
  by_cases hn : n < 0
  · exact ⟨'-', Nat.toDigits 10 n.natAbs, if_pos hn, rfl, rfl⟩
  · obtain ⟨c, cs, hcs, hc⟩ := digits_head n.natAbs
    refine ⟨c, cs, by rw [if_neg hn, hcs], by simp [isNumeral, hc], ?_⟩
    rw [beq_eq_false_iff_ne]
    rintro rfl
    exact absurd hc (by decide)

/-- A padded number is the number between blanks. -/
theorem IntField.print_eq (field : IntField) (n : Int) : ∃ k l,
    field.print n = List.replicate k ' ' ++ (intText n ++ List.replicate l ' ') := by
  cases field with
  | plain => exact ⟨0, 0, by simp [print]⟩
  | right width => exact ⟨width - (intText n).length, 0, by simp [print, List.leftpad]⟩
  | left width => exact ⟨0, width - (intText n).length, by simp [print, List.rightpad]⟩

theorem guess_intText (n : Int) {c : Char} (hc : c.isDigit = false) (k : Nat) (rest : List Char) :
    guess (List.replicate k ' ' ++ (intText n ++ c :: rest)) = n := by
  have hskip : (List.replicate k ' ' ++ (intText n ++ c :: rest)).dropWhile (· == ' ') =
      intText n ++ c :: rest := by
    obtain ⟨d, ds, hds, -, hd⟩ := intText_head n
    rw [List.dropWhile_append_of_pos (by simp), hds, List.cons_append,
      List.dropWhile_cons_of_neg (by simp [hd])]
  simp only [guess, hskip]
  by_cases hn : n < 0
  · have htext : intText n = '-' :: Nat.toDigits 10 n.natAbs := if_pos hn
    rw [htext, List.cons_append, List.head?_cons, if_pos rfl, List.drop_one, List.tail_cons,
      takeWhile_digits n.natAbs hc rest, Nat.ofDigitChars_ten_toDigits]
    omega
  · have htext : intText n = Nat.toDigits 10 n.natAbs := if_neg hn
    have hhead : (Nat.toDigits 10 n.natAbs ++ c :: rest).head? ≠ some '-' := by
      obtain ⟨d, ds, hds, hd⟩ := digits_head n.natAbs
      rw [hds, List.cons_append, List.head?_cons]
      intro h
      rw [Option.some.inj h] at hd
      exact absurd hd (by decide)
    rw [htext, if_neg hhead, takeWhile_digits n.natAbs hc rest, Nat.ofDigitChars_ten_toDigits]
    omega

/-- A number and the character after it, which ends the digits. -/
def number (field : IntField) (stop : Char) (h : stop.isDigit = false) : TextFormat Int where
  write n := field.print n ++ [stop]
  read cs := ((field.print (guess cs) ++ [stop]).isPrefixOf? cs).map (fun rest => (guess cs, rest))
  read_iff := by
    intro cs n rest
    simp only [Option.map_eq_some_iff, List.isPrefixOf?_eq_some_iff_append_eq, Prod.mk.injEq]
    constructor
    · rintro ⟨_, htext, rfl, rfl⟩
      exact htext
    · rintro rfl
      have hguess : guess (field.print n ++ [stop] ++ rest) = n := by
        obtain ⟨k, l, hprint⟩ := field.print_eq n
        simp only [hprint, List.append_assoc, List.singleton_append]
        cases l with
        | zero => exact guess_intText n h k rest
        | succ l => exact guess_intText n (by decide) k (List.replicate l ' ' ++ stop :: rest)
      exact ⟨rest, by rw [hguess], hguess, rfl⟩

@[simp] theorem number_write (field : IntField) (stop : Char) (h : stop.isDigit = false) (n : Int) :
    (number field stop h).write n = field.print n ++ [stop] := rfl

theorem begins_number (field : IntField) (stop : Char) (h : stop.isDigit = false) :
    (number field stop h).Begins isNumeral := by
  intro n
  obtain ⟨k, l, hprint⟩ := field.print_eq n
  obtain ⟨c, cs, hcs, hc, -⟩ := intText_head n
  rw [number_write, hprint, hcs]
  cases k with
  | zero => exact ⟨c, _, rfl, hc⟩
  | succ k => exact ⟨' ', _, rfl, rfl⟩

end TextFormat
