import Mathlib.Data.Fin.VecNotation
import Mathlib.Data.List.Basic
import Mathlib.Tactic.Ring

namespace Cc370.As370

scoped instance neZeroTen : NeZero 10 := ⟨by decide⟩

/-- The texts of a source, as their characters. -/
scoped instance lawfulText : LawfulBEq (List Char) := inferInstance

def digitChar (d : Fin 10) : Char := Nat.digitChar d

/-- What `c - '0'` makes of a character. -/
def digitOf (c : Char) : ℕ := c.toNat - '0'.toNat

theorem digitChar_isDigit (d : Fin 10) : (digitChar d).isDigit = true := by
  revert d
  decide

theorem digitOf_digitChar (d : Fin 10) : digitOf (digitChar d) = d := by
  revert d
  decide

theorem ne_of_isDigit {c : Char} (hc : c.isDigit = false) (d : Fin 10) : digitChar d ≠ c := by
  rintro rfl
  rw [digitChar_isDigit] at hc
  exact absurd hc nofun

def pushDigit (v : ℕ) (d : Fin 10) : ℕ := v * 10 + d

def digitsNat (ds : List (Fin 10)) : ℕ := ds.foldl pushDigit 0

theorem foldl_pushDigit (ds : List (Fin 10)) (v : ℕ) : ds.foldl pushDigit v = v * 10 ^ ds.length + digitsNat ds := by
  induction ds generalizing v with
  | nil => simp [digitsNat]
  | cons d ds ih =>
    rw [digitsNat, List.foldl_cons, List.foldl_cons, ih, ih, List.length_cons, pushDigit, pushDigit]
    ring

theorem digitsNat_append (ds ds' : List (Fin 10)) : digitsNat (ds ++ ds') = digitsNat ds * 10 ^ ds'.length + digitsNat ds' := by
  rw [digitsNat, List.foldl_append, ← digitsNat, foldl_pushDigit]

theorem le_foldl_pushDigit (ds : List (Fin 10)) (v : ℕ) : v ≤ ds.foldl pushDigit v := by
  rw [foldl_pushDigit]
  exact (Nat.le_mul_of_pos_right v (Nat.pow_pos (by decide))).trans (Nat.le_add_right _ _)

/-- A sign may be left out, or written; `true` is a minus. -/
def signText : Option Bool → List Char
  | none => []
  | some false => ['+']
  | some true => ['-']

structure Exponent where
  small : Bool
  sign : Option Bool
  digits : List (Fin 10)

namespace Exponent

def text (e : Exponent) : List Char := (if e.small then 'e' else 'E') :: (signText e.sign ++ e.digits.map digitChar)

def value (e : Exponent) : ℤ := if e.sign = some true then -(digitsNat e.digits : ℤ) else digitsNat e.digits

end Exponent

/-- A nominal value of a fixed- or floating-point constant: a sign, digits, a point with digits, an exponent. -/
structure Nominal where
  sign : Option Bool
  int : List (Fin 10)
  frac : Option (List (Fin 10))
  expo : Option Exponent

namespace Nominal

variable (t : Nominal)

def fracText : List Char := t.frac.elim [] fun ds => '.' :: ds.map digitChar

def expoText : List Char := t.expo.elim [] Exponent.text

def text : List Char := signText t.sign ++ (t.int.map digitChar ++ (t.fracText ++ t.expoText))

def neg : Bool := t.sign = some true

def digits : List (Fin 10) := t.int ++ t.frac.getD []

def mantissa : ℕ := digitsNat t.digits

def places : ℕ := (t.frac.getD []).length

def exponent : ℤ := t.expo.elim 0 Exponent.value

end Nominal

def readSign : List Char → Bool × List Char
  | '-' :: t => (true, t)
  | '+' :: t => (false, t)
  | t => (false, t)

/-- The characters a sign could be taken for, or a blank. -/
def Plain (c : Char) : Prop := c ≠ '-' ∧ c ≠ '+' ∧ c ≠ ' '

theorem plain_digitChar (d : Fin 10) : Plain (digitChar d) :=
  ⟨ne_of_isDigit (by decide) d, ne_of_isDigit (by decide) d, ne_of_isDigit (by decide) d⟩

theorem plain_head {l : List Char} (hl : ∀ c ∈ l, Plain c) {t : List Char} (ht : ∀ c ∈ t.head?, Plain c) :
    ∀ c ∈ (l ++ t).head?, Plain c := by
  cases l with
  | nil => exact ht
  | cons a l =>
    intro c hc
    rw [List.cons_append, List.head?_cons, Option.mem_some_iff] at hc
    exact hc ▸ hl a List.mem_cons_self

theorem plain_digits (ds : List (Fin 10)) : ∀ c ∈ ds.map digitChar, Plain c := by
  intro c hc
  obtain ⟨d, -, rfl⟩ := List.mem_map.mp hc
  exact plain_digitChar d

theorem expoText_head (t : Nominal) : ∀ c ∈ t.expoText.head?, Plain c := by
  rw [Nominal.expoText]
  cases t.expo with
  | none => exact fun c hc => absurd hc nofun
  | some e =>
    intro c hc
    rw [Option.elim_some, Exponent.text, List.head?_cons, Option.mem_some_iff] at hc
    subst hc
    split <;> exact ⟨by decide, by decide, by decide⟩

theorem fracText_head (t : Nominal) : ∀ c ∈ (t.fracText ++ t.expoText).head?, Plain c := by
  rw [Nominal.fracText]
  cases t.frac with
  | none => exact expoText_head t
  | some ds =>
    intro c hc
    rw [Option.elim_some, List.cons_append, List.head?_cons, Option.mem_some_iff] at hc
    subst hc
    exact ⟨by decide, by decide, by decide⟩

theorem body_head (t : Nominal) : ∀ c ∈ (t.int.map digitChar ++ (t.fracText ++ t.expoText)).head?, Plain c :=
  plain_head (plain_digits t.int) (fracText_head t)

/-- A text that a sign may stand in front of. -/
theorem sign_read (s : Option Bool) {t : List Char} (ht : ∀ c ∈ t.head?, Plain c) :
    (signText s ++ t).dropWhile (· = ' ') = signText s ++ t ∧
    readSign (signText s ++ t) = (decide (s = some true), t) := by
  match s with
  | some true => exact ⟨rfl, rfl⟩
  | some false => exact ⟨rfl, rfl⟩
  | none =>
    match t, ht with
    | [], _ => exact ⟨rfl, rfl⟩
    | c :: t, ht =>
      obtain ⟨hminus, hplus, hblank⟩ := ht c rfl
      rw [signText, List.nil_append]
      refine ⟨List.dropWhile_cons_of_neg (by simp [hblank]), ?_⟩
      unfold readSign
      split
      · rename_i heq
        exact absurd (List.cons.inj heq).1 hminus
      · rename_i heq
        exact absurd (List.cons.inj heq).1 hplus
      · rfl

end Cc370.As370
