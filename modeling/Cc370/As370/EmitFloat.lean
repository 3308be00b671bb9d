import Cc370.As370.BigNumber
import Cc370.As370.FixedNominal

namespace Cc370.As370.Hfp

/-- An int of 32 bits. -/
def wrap32 (z : ℤ) : ℤ := z.bmod (2 ^ 32)

/-- What ends the digits of a floating-point value. -/
def endsDigits (c : Char) : Bool := c = '\'' || c = ' ' || c = 'e' || c = 'E'

/-- The digits, with how many stand behind a point, and the text behind them. -/
def hfpDigits : List Char → Bool → Bn → ℕ → (Bn × ℕ) × List Char
  | [], _, m, n => ((m, n), [])
  | c :: t, seenpoint, m, n =>
    if endsDigits c then ((m, n), c :: t)
    else if c = '.' then hfpDigits t true m n
    else if ¬ c.isDigit then hfpDigits t seenpoint m n
    else hfpDigits t seenpoint ((m.mulSmall 10).addSmall (digitOf c)) (if seenpoint then n + 1 else n)

def hfpExponentDigits : List Char → ℤ → ℤ
  | [], e => e
  | c :: t, e => if ¬ c.isDigit then e else hfpExponentDigits t (wrap32 (e * 10 + digitOf c))

/-- The value's own exponent, read into an int that nothing keeps from overflowing. -/
def hfpExponent : List Char → ℤ
  | [] => 0
  | c :: t =>
    if c ≠ 'e' ∧ c ≠ 'E' then 0
    else
      let (neg, t) := readSign t
      wrap32 (hfpExponentDigits t 0 * if neg then -1 else 1)

structure Parsed where
  sign : Bool
  m : Bn
  nfrac : ℕ
  eexp : ℤ

def hfpParse (t : List Char) : Parsed :=
  let (sign, t) := readSign t
  let ((m, nfrac), t) := hfpDigits t false (.set 0) 0
  ⟨sign, m, nfrac, hfpExponent t⟩

/-- The halves of a constant: the bytes of each, and the bits of fraction in each; the low half is empty but in extended
precision. -/
structure Halves where
  ext : Bool
  hb : ℕ
  lb : ℕ
  fracbits : ℕ
  lofrac : ℕ
deriving DecidableEq

def halves (bytes : ℕ) : Halves :=
  let ext := decide (8 < bytes)
  let hb := if ext then 8 else bytes
  let lb := if ext then bytes - 8 else 0
  { ext := ext
    hb := hb
    lb := lb
    fracbits := min 56 ((hb - 1) * 8)
    lofrac := if ext then min 56 ((lb - 1) * 8) else 0 }

/-- The characteristic and the two fractions; `lost` is set where a big number of the conversion lost a limb. -/
structure Float where
  exp : ℤ
  hi : ℕ
  lo : ℕ
  lost : Bool
deriving DecidableEq

def timesTen (a : Bn) : ℕ → Bn
  | 0 => a
  | k + 1 => timesTen (a.mulSmall 10) k

/-- Raise the denominator above the numerator. -/
def raiseDen (num : Bn) : ℕ → Bn → ℤ → Option (Bn × ℤ)
  | 0, _, _ => none
  | fuel + 1, den, exp => if num.cmp den ≠ .lt then raiseDen num fuel (den.mulSmall 16) (exp + 1) else some (den, exp)

/-- Raise the numerator to a sixteenth of the denominator; the product that is found too great is watched as well. -/
def raiseNum (den : Bn) : ℕ → Bn → ℤ → Option (Bn × ℤ)
  | 0, _, _ => none
  | fuel + 1, num, exp =>
    let t := num.mulSmall 16
    if t.cmp den ≠ .lt then some ({ num with lost := t.lost }, exp) else raiseNum den fuel t (exp - 1)

/-- The turns that the two loops may take: each gives a number four bits more. -/
def FUEL : ℕ := 32 * BN_LIMBS

/-- The two fractions of `num / den`, rounded half up at the last bit of both. -/
def hfpFraction (num den : Bn) (s : Halves) : Float :=
  let n := num.shl s.fracbits
  let (r, hi) := n.divmod den
  if s.ext then
    let n2 := r.shl s.lofrac
    let (r2, lo) := n2.divmod den
    let r2' := r2.mulSmall 2
    let lo := if r2'.cmp den ≠ .lt then lo + 1 else lo
    let lost := num.lost || den.lost || n.lost || r.lost || n2.lost || r2.lost || r2'.lost
    if s.lofrac < 64 ∧ lo >>> s.lofrac ≠ 0 then ⟨0, hi + 1, 0, lost⟩ else ⟨0, hi, lo, lost⟩
  else
    let r' := r.mulSmall 2
    let lost := num.lost || den.lost || n.lost || r.lost || r'.lost
    ⟨0, if r'.cmp den ≠ .lt then hi + 1 else hi, 0, lost⟩

/-- A fraction that was rounded up to one. -/
def renormalise (s : Halves) (h : Float) : Float :=
  if s.fracbits < 64 ∧ h.hi >>> s.fracbits ≠ 0 then
    { h with
      hi := h.hi >>> 4
      lo := if s.ext ∧ 4 ≤ s.lofrac then h.lo >>> 4 ||| (h.hi &&& 0xf) <<< (s.lofrac - 4) else h.lo
      exp := h.exp + 1 }
  else h

/-- `m * 10^p`, normalised and rounded. -/
def hfpConvert (m : Bn) (p : ℤ) (s : Halves) : Option Float := do
  let num := timesTen m p.toNat
  let den := timesTen (.set 1) (-p).toNat
  let (den, exp) ← raiseDen num FUEL den 64
  let (num, exp) ← raiseNum den FUEL num exp
  some (renormalise s { hfpFraction num den s with exp := exp })

/-- The fraction moves right by so many hexadecimal digits. -/
def hfpScale (s : Halves) (scale : ℕ) (h : Float) : Float × List ℕ :=
  let c := h.hi <<< s.lofrac ||| h.lo
  let sh := 4 * scale
  let lost := if s.fracbits + s.lofrac ≤ sh then c else c &&& (1 <<< sh - 1)
  let c := if s.fracbits + s.lofrac ≤ sh then 0 else c >>> sh
  ({ h with
      hi := c >>> s.lofrac
      lo := if s.lofrac ≠ 0 then c &&& (1 <<< s.lofrac - 1) else 0
      exp := h.exp + scale }, if lost ≠ 0 ∧ c = 0 then [202] else [])

/-- A half: its sign and characteristic, and the bytes of its fraction. -/
def putHalf (sign : Bool) (exp : ℤ) (n frac : ℕ) : List ℕ :=
  ((if sign then 0x80 else 0) ||| (exp % 128).toNat) :: (List.range (n - 1)).map fun i => frac >>> (8 * (n - 1 - (i + 1))) &&& 0xff

def hfpPut (s : Halves) (sign : Bool) (h : Float) : List ℕ :=
  putHalf sign h.exp s.hb h.hi ++ if s.ext then putHalf sign (h.exp - 14) s.lb h.lo else []

/-- The bytes of a constant, and the numbers of the messages. -/
structure Emitted where
  bytes : List ℕ
  codes : List ℕ
  lost : Bool
deriving DecidableEq

def emitFloat (vstr : List Char) (bytes : ℕ) (scale expo : ℤ) : Option Emitted := do
  let x := hfpParse vstr
  if x.m.limbs = [] then return ⟨List.replicate bytes 0, [], x.m.lost⟩
  let s := halves bytes
  let bad := decide (wrap32 (x.eexp + expo) < -85 ∨ 75 < wrap32 (x.eexp + expo))
  let e := if bad then 0 else wrap32 (x.eexp + expo)
  let h ← hfpConvert x.m (e - x.nfrac) s
  let (h, codes) := if 0 < scale then hfpScale s scale.toNat h else (h, [])
  let codes := (if bad then [201] else []) ++ codes
  if h.exp < 0 ∨ 127 < h.exp then return ⟨List.replicate bytes 0, codes ++ [239], h.lost⟩
  return ⟨hfpPut s x.sign h, codes, h.lost⟩

end Cc370.As370.Hfp
