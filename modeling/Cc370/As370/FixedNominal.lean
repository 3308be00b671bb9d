import Cc370.Lib.Guarded
import Cc370.As370.Nominal

namespace Cc370.As370

/-- The limits of the scale and the exponent modifier: the pair that is used, and the messages. -/
def dcModLimits (ty : Char) (scale expo : ℤ) : (ℤ × ℤ) × List String :=
  let lo : ℤ := if ty = 'F' ∨ ty = 'H' then -187 else 0
  let hi : ℤ := if ty = 'F' ∨ ty = 'H' then 346 else if ty = 'L' then 28 else 14
  let (scale, m) := if scale < lo ∨ hi < scale then (0, ["Invalid scale modifier (IFOX00 IFO200)"]) else (scale, [])
  let (expo, m') := if expo < -85 ∨ 75 < expo then (0, ["Illegal or invalid exponent modifier (IFOX00 IFO201)"]) else (expo, [])
  ((scale, expo), m ++ m')

/-- The modifiers of a fixed-point constant. -/
structure Modifiers where
  scale : ℤ
  expo : ℤ
  accepted : dcModLimits 'F' scale expo = ((scale, expo), [])

theorem dcModLimits_accepted_iff (scale expo : ℤ) :
    dcModLimits 'F' scale expo = ((scale, expo), []) ↔ (-187 ≤ scale ∧ scale ≤ 346) ∧ -85 ≤ expo ∧ expo ≤ 75 := by
  unfold dcModLimits
  simp only [true_or, if_true]
  constructor
  · intro h
    have hmsg := congrArg Prod.snd h
    split at hmsg <;> split at hmsg <;> first | omega | simp at hmsg
  · rintro ⟨hs, he⟩
    rw [if_neg (by omega), if_neg (by omega)]
    rfl

namespace Fixed

def FX_LIM : ℕ := 2 ^ 120

/-- An arithmetic of 128 bits. -/
def FX_WORD : ℕ := 2 ^ 128

def LONG_MAX : ℕ := 2 ^ 63 - 1

structure Fxnom where
  num : ℕ
  neg : Bool
  frac : ℕ
  dig : ℕ
  nexp : ℤ
deriving DecidableEq

/-- A digit past the precision is only counted, and only before the point. -/
def takeDigit (infrac : Bool) (x : Fxnom) (d : ℕ) : Fxnom :=
  if x.num < FX_LIM / 10 then
    { x with
      num := (x.num * 10 + d) % FX_WORD
      frac := if infrac then x.frac + 1 else x.frac }
  else if infrac then x else { x with dig := x.dig + 1 }

/-- The digits of the mantissa, and what stands behind them. -/
def takeDigits : List Char → Bool → Fxnom → Fxnom × List Char
  | [], _, x => (x, [])
  | c :: t, infrac, x =>
    if c = '.' ∧ ¬ infrac then takeDigits t true x
    else if ¬ c.isDigit then (x, c :: t)
    else takeDigits t infrac (takeDigit infrac x (digitOf c))

def takeExponent : List Char → ℕ → ℕ
  | [], en => en
  | c :: t, en => if ¬ c.isDigit then en else takeExponent t (if en < 100000 then en * 10 + digitOf c else en)

/-- The value's own exponent, if the text goes on with one. -/
def readExponent : List Char → ℤ
  | [] => 0
  | c :: t =>
    if c ≠ 'E' ∧ c ≠ 'e' then 0
    else
      let (sg, t) := readSign t
      let en := takeExponent t 0
      if sg then -(en : ℤ) else en

def fixedParse (t : List Char) : Fxnom :=
  let (neg, t) := readSign (t.dropWhile (· = ' '))
  let (x, t) := takeDigits t false ⟨0, neg, 0, 0, 0⟩
  { x with nexp := readExponent t }

/-- The numerator, the denominator, and whether the numerator outgrew the range. -/
def fixedScale (num : ℕ) (e10 scale : ℤ) : ℕ × ℕ × Bool :=
  let s := Guarded.grow FX_WORD 10 (FX_LIM / 10) e10.toNat (num, false)
  match Guarded.build FX_WORD 10 (FX_LIM / 10) (-e10).toNat 1 with
  | none => (0, 1, s.2)
  | some den =>
    let s := Guarded.grow FX_WORD 2 FX_LIM scale.toNat s
    match Guarded.build FX_WORD 2 FX_LIM (-scale).toNat den with
    | none => (0, 1, s.2)
    | some den => (s.1, den, s.2)

/-- What is returned, and whether `*big` and `*ebad` are set. -/
structure Result where
  value : ℤ
  big : Bool
  ebad : Bool
deriving DecidableEq

def fixedNominal (t : List Char) (scale expo : ℤ) : Result :=
  let x := fixedParse t
  let ebad := x.nexp + expo < -85 ∨ 75 < x.nexp + expo
  let e := if ebad then 0 else x.nexp + expo
  let (num, den, ovf) := fixedScale x.num (e - x.frac + x.dig) scale
  let r := num % den
  let q := if 1 < den ∧ den - r ≤ r then num / den + 1 else num / den
  { value := if x.neg then (-(q : ℤ)).bmod (2 ^ 64) else (q : ℤ).bmod (2 ^ 64)
    big := ovf || LONG_MAX < q
    ebad := ebad }

end Fixed

end Cc370.As370
