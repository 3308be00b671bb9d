import Cc370.Lib.HexFloat
import Cc370.Lib.KeptDigits
import Cc370.Lib.Magnitude
import Cc370.Runtime.DoubleWord

namespace Cc370.Runtime

open Cc370.Lib Halves Magnitude

def shl64 (x : Dw) (n : ℕ) : Dw :=
  if n ≥ 64 then ⟨0, 0⟩
  else if n ≥ 32 then ⟨x.lo <<< (n - 32), 0⟩
  else if n > 0 then ⟨x.hi <<< n ||| x.lo >>> (32 - n), x.lo <<< n⟩
  else x

def shr64 (x : Dw) (n : ℕ) : Dw :=
  if n ≥ 64 then ⟨0, 0⟩
  else if n ≥ 32 then ⟨0, x.hi >>> (n - 32)⟩
  else if n > 0 then ⟨x.hi >>> n, x.lo >>> n ||| x.hi <<< (32 - n)⟩
  else x

def hexdigits (x : BitVec 32) : ℕ := if x = 0 then 0 else hexdigits (x >>> 4) + 1
termination_by x.toNat
decreasing_by
  rw [BitVec.toNat_ushiftRight, Nat.shiftRight_eq_div_pow]
  exact Nat.div_lt_self (Nat.pos_of_ne_zero fun h => by simp_all [BitVec.toNat_eq]) (by decide)

/-- Half of the last kept digit is added, then `d` digits are dropped. -/
def roundDigits (m : Dw) (d : ℕ) : Dw :=
  let m : Dw :=
    if 4 * d - 1 ≥ 32 then ⟨m.hi + 1#32 <<< (4 * d - 1 - 32), m.lo⟩
    else
      let half := 1#32 <<< (4 * d - 1)
      let lo := m.lo + half
      ⟨m.hi + carry (lo < half), lo⟩
  shr64 m (4 * d)

/-- The digits of the fraction, and the number of those before the point. -/
def hfpDigits (m : Dw) (digits : ℕ) : Dw × ℕ :=
  let n := if m.hi ≠ 0 then 8 + hexdigits m.hi else hexdigits m.lo
  if n ≤ digits then (shl64 m (4 * (digits - n)), n)
  else
    let m := roundDigits m (n - digits)
    if if digits = 14 then m.hi &&& 0xFF000000#32 ≠ 0 else m.lo &&& 0xFF000000#32 ≠ 0 then (shr64 m 4, n + 1)
    else (m, n)

def hfpFloat (x : BitVec 64) (digits : ℕ) : Dw :=
  let v := Dw.of x
  let (m, sign) := if v.hi &&& 0x80000000 ≠ 0 then (negate v, 0x80000000#32) else (v, 0#32)
  if m.hi = 0 ∧ m.lo = 0 then ⟨0, 0⟩
  else
    let (m, n) := hfpDigits m digits
    if digits = 14 then ⟨sign ||| BitVec.ofNat 32 (64 + n) <<< 24 ||| m.hi, m.lo⟩
    else ⟨sign ||| BitVec.ofNat 32 (64 + n) <<< 24 ||| m.lo, 0⟩

def hfpFix (p : Dw) : Dw :=
  let f : Dw := ⟨p.hi &&& 0x00FFFFFF#32, p.lo⟩
  let e : ℤ := (p.hi >>> 24 &&& 0x7F#32).toNat
  let f := if 4 * e - 312 ≥ 0 then shl64 f (4 * e - 312).toNat else shr64 f (312 - 4 * e).toNat
  if p.hi &&& 0x80000000 ≠ 0 then negate f else f

/-- What a long pattern stands for; a short one is the same with zeros below it. -/
structure Pattern where
  neg : Bool
  mag : HexFloat

def pattern (p : Dw) : Pattern := ⟨p.hi.msb, ((p.hi.toNat / 2 ^ 24 % 2 ^ 7 : ℕ) : ℤ) - 64, p.hi.toNat % 2 ^ 24 * 2 ^ 32 + p.lo.toNat⟩

def Pattern.value (h : Pattern) : ℚ := if h.neg then -h.mag.value 56 else h.mag.value 56

/-- The part of a number before the point. -/
def truncate (v : ℚ) : ℤ := if v < 0 then -⌊-v⌋ else ⌊v⌋

section Shifts

theorem shl64_u (x : Dw) (n : ℕ) : (shl64 x n).u = x.u <<< n := by
  rw [shl64]
  split
  · rename_i h
    have hzero : Dw.u ⟨0, 0⟩ = 0 := Dw.u_eq_zero.mpr ⟨rfl, rfl⟩
    rw [hzero]
    exact (BitVec.shiftLeft_eq_zero h).symm
  split
  · rename_i h
    exact join_shl_word x h
  split
  · rename_i h32 h
    exact join_shl x h (not_le.mp h32)
  · rename_i h
    rw [show n = 0 by omega, BitVec.shiftLeft_zero]

theorem shr64_u (x : Dw) (n : ℕ) : (shr64 x n).u = x.u >>> n := by
  rw [shr64]
  split
  · rename_i h
    have hzero : Dw.u ⟨0, 0⟩ = 0 := Dw.u_eq_zero.mpr ⟨rfl, rfl⟩
    rw [hzero]
    exact (BitVec.ushiftRight_eq_zero h).symm
  split
  · rename_i h
    exact join_shr_word x h
  split
  · rename_i h32 h
    exact join_shr x h (not_le.mp h32)
  · rename_i h
    rw [show n = 0 by omega, BitVec.ushiftRight_zero]

theorem toNat_shl64 {x : Dw} {n : ℕ} : (shl64 x n).u.toNat = x.u.toNat * 2 ^ n % 2 ^ 64 := by
  rw [shl64_u, BitVec.toNat_shiftLeft, Nat.shiftLeft_eq]

theorem toNat_shr64 {x : Dw} {n : ℕ} : (shr64 x n).u.toNat = x.u.toNat / 2 ^ n := by
  rw [shr64_u, BitVec.toNat_ushiftRight, Nat.shiftRight_eq_div_pow]

end Shifts

section Digits

open KeptDigits

theorem hexdigits_eq (x : BitVec 32) : hexdigits x = len 16 x.toNat := by
  induction x using hexdigits.induct with
  | case1 => 
    rw [hexdigits]
    simp [len]
  | case2 x hx ih =>
    have hpos : 0 < x.toNat := Nat.pos_of_ne_zero fun h => hx (BitVec.eq_of_toNat_eq h)
    rw [hexdigits, if_neg hx, ih, len, len, BitVec.toNat_ushiftRight, Nat.shiftRight_eq_div_pow, Nat.digits_def' (by decide) hpos, List.length_cons]

/-- The digits of the upper word come before eight of the lower one. -/
theorem length_eq (m : Dw) : (if m.hi ≠ 0 then 8 + hexdigits m.hi else hexdigits m.lo) = len 16 m.u.toNat := by
  split
  · rename_i h
    have hhi : m.hi.toNat ≠ 0 := fun h0 => h (BitVec.eq_of_toNat_eq h0)
    have hlo := m.lo.isLt
    have hlow := pow_le (b := 16) (by decide) hhi
    have hhigh := lt_pow_len (b := 16) (m := m.hi.toNat) (by decide)
    have hpos := len_pos (b := 16) hhi
    rw [hexdigits_eq, Dw.toNat_u]
    generalize len 16 m.hi.toNat = n at *
    obtain ⟨k, rfl⟩ : ∃ k, n = k + 1 := ⟨n - 1, by omega⟩
    rw [Nat.add_sub_cancel] at hlow
    symm
    rw [← Nat.add_assoc]
    apply len_eq (by decide)
    · rw [pow_add]
      omega
    · rw [Nat.add_assoc, pow_add]
      omega
  · rename_i h
    rw [hexdigits_eq, Dw.toNat_low (not_not.mp h)]

theorem toNat_one_shl {k : ℕ} (hk : k < 32) : (1#32 <<< k).toNat = 2 ^ k := by
  have hpow : 2 ^ k < 2 ^ 32 := Nat.pow_lt_pow_right (by decide) hk
  rw [BitVec.toNat_shiftLeft, Nat.shiftLeft_eq]
  simpa using hpow

theorem roundDigits_spec {m : Dw} {d : ℕ} (hd : 0 < d) (hlt : m.u.toNat + 2 ^ (4 * d - 1) < 2 ^ 64) :
    (roundDigits m d).u.toNat = halved 16 m.u.toNat d := by
  have hk : 4 * d - 1 < 64 := (Nat.pow_lt_pow_iff_right (by decide)).mp ((Nat.le_add_left _ _).trans_lt hlt)
  have hhalf : 16 / 2 * 16 ^ (d - 1) = 2 ^ (4 * d - 1) := by
    rw [show 4 * d - 1 = 3 + 4 * (d - 1) by omega, pow_add, pow_mul]
    norm_num
  have hpow : 16 ^ d = 2 ^ (4 * d) := by
    rw [pow_mul]
    norm_num
  rw [roundDigits, toNat_shr64, halved, hhalf, hpow]
  congr 1
  split
  · rename_i h
    have hsplit : 2 ^ (4 * d - 1) = 2 ^ (4 * d - 1 - 32) * 2 ^ 32 := by
      rw [← pow_add]
      congr 1
      omega
    have hone := toNat_one_shl (k := 4 * d - 1 - 32) (by omega)
    rw [Dw.toNat_u, hsplit] at hlt
    rw [Dw.toNat_u, Dw.toNat_u, hsplit, BitVec.toNat_add, hone, Nat.mod_eq_of_lt (by omega)]
    ring
  · rename_i h
    have hone := toNat_one_shl (k := 4 * d - 1) (by omega)
    have hadd := join_add (w := 32) (by decide) ⟨0, 1#32 <<< (4 * d - 1)⟩ m
    have hlow : Dw.u ⟨m.hi + carry (m.lo + 1#32 <<< (4 * d - 1) < 1#32 <<< (4 * d - 1)), m.lo + 1#32 <<< (4 * d - 1)⟩ =
        Dw.u ⟨0, 1#32 <<< (4 * d - 1)⟩ + m.u := by
      rw [add_comm m.lo]
      dsimp only at hadd
      rw [zero_add] at hadd
      exact hadd
    dsimp only
    rw [hlow, BitVec.toNat_add, Dw.toNat_low rfl, hone, Nat.mod_eq_of_lt (by omega), Nat.add_comm]

theorem high_byte (x : BitVec 32) : x &&& 0xFF000000#32 ≠ 0 ↔ 2 ^ 24 ≤ x.toNat := by
  have hlow : (x &&& 0x00FFFFFF#32).toNat = x.toNat % 2 ^ 24 := by
    rw [BitVec.toNat_and]
    exact Nat.and_two_pow_sub_one_eq_mod x.toNat 24
  have hsplit : (x &&& 0xFF000000#32) ||| (x &&& 0x00FFFFFF#32) = x := by
    rw [← BitVec.and_or_distrib_left]
    exact BitVec.and_allOnes
  have hx := x.isLt
  rw [ne_eq, ← not_lt, not_iff_not]
  constructor
  · intro h
    rw [h] at hsplit
    have hsame := congrArg BitVec.toNat hsplit
    rw [show (0 : BitVec 32) ||| (x &&& 0x00FFFFFF#32) = x &&& 0x00FFFFFF#32 from BitVec.zero_or, hlow] at hsame
    omega
  · intro h
    have hsame : x &&& 0x00FFFFFF#32 = x := by
      apply BitVec.eq_of_toNat_eq
      rw [hlow, Nat.mod_eq_of_lt h]
    rw [← hsame, BitVec.and_assoc]
    exact BitVec.and_zero

theorem len_le_sixteen (v : BitVec 64) : len 16 v.toNat ≤ 16 := by
  rw [len]
  exact (Nat.digits_length_le_iff (by decide) _).mpr v.isLt

/-- The kept digits fit the words, and a carry into a new digit is seen in the byte before them. -/
theorem hfpDigits_spec {m : Dw} (h0 : m.u ≠ 0) (hle : m.u.toNat ≤ 2 ^ 63) {digits : ℕ} (hd : digits = 14 ∨ digits = 6) :
    (hfpDigits m digits).1.u.toNat = (kept 16 digits m.u.toNat).1 ∧ (hfpDigits m digits).2 = (kept 16 digits m.u.toNat).2 := by
  have hm : m.u.toNat ≠ 0 := fun h => h0 (BitVec.eq_of_toNat_eq h)
  have hpow : ∀ k, 2 ^ (4 * k) = 16 ^ k := fun k => by
    rw [pow_mul]
    norm_num
  have hD : 0 < digits := by rcases hd with rfl | rfl <;> decide
  have hsmall : 16 ^ digits ≤ 2 ^ 56 := by rcases hd with rfl | rfl <;> decide
  have hspec := kept_spec (b := 16) (by decide) hD hm
  have hlen := len_le_sixteen m.u
  rw [hfpDigits]
  simp only [length_eq]
  rw [kept] at hspec ⊢
  split
  · rename_i h
    rw [if_pos h] at hspec
    refine ⟨?_, rfl⟩
    rw [toNat_shl64, hpow]
    exact Nat.mod_eq_of_lt (by omega)
  · rename_i h
    rw [if_neg h] at hspec
    have hround := roundDigits_spec (m := m) (d := len 16 m.u.toNat - digits) (by omega) (by
      have hexp : 2 ^ (4 * (len 16 m.u.toNat - digits) - 1) ≤ 2 ^ 62 := Nat.pow_le_pow_right (by decide) (by omega)
      omega)
    have hbound := halved_le (b := 16) (m := m.u.toNat) (by decide) (not_le.mp h)
    rw [← hround] at hspec hbound ⊢
    generalize roundDigits m (len 16 m.u.toNat - digits) = r at *
    have hcarry : (if digits = 14 then r.hi &&& 0xFF000000#32 ≠ 0 else r.lo &&& 0xFF000000#32 ≠ 0) ↔ ¬ r.u.toNat < 16 ^ digits := by
      have hlo := r.lo.isLt
      rw [Dw.toNat_u] at hbound ⊢
      rcases hd with rfl | rfl
      · rw [if_pos rfl, high_byte]
        omega
      · rw [if_neg (by decide), high_byte]
        omega
    by_cases hlt : r.u.toNat < 16 ^ digits
    · rw [if_neg (mt hcarry.mp (not_not.mpr hlt)), if_pos hlt]
      exact ⟨rfl, rfl⟩
    · rw [if_pos (hcarry.mpr hlt), if_neg hlt, toNat_shr64]
      exact ⟨rfl, rfl⟩

end Digits

section Patterns

open KeptDigits

theorem toNat_pack {s : Bool} {n : ℕ} {f : BitVec 32} (hn : 64 + n < 128) (hf : f.toNat < 2 ^ 24) :
    ((if s then 0x80000000#32 else 0#32) ||| BitVec.ofNat 32 (64 + n) <<< 24 ||| f).toNat = s.toNat * 2 ^ 31 + (64 + n) * 2 ^ 24 + f.toNat := by
  have hsign : (if s then 0x80000000#32 else 0#32).toNat = s.toNat <<< 31 := by cases s <;> rfl
  have hexp : (BitVec.ofNat 32 (64 + n) <<< 24).toNat = (64 + n) <<< 24 := by
    rw [BitVec.toNat_shiftLeft, BitVec.toNat_ofNat, Nat.shiftLeft_eq, Nat.shiftLeft_eq]
    omega
  have hexplt : (64 + n) <<< 24 < 2 ^ 31 := by
    rw [Nat.shiftLeft_eq]
    omega
  have hupper : s.toNat <<< 31 + (64 + n) <<< 24 = (s.toNat * 2 ^ 7 + (64 + n)) <<< 24 := by
    simp only [Nat.shiftLeft_eq]
    ring
  rw [BitVec.toNat_or, BitVec.toNat_or, hsign, hexp, ← Nat.shiftLeft_add_eq_or_of_lt hexplt, hupper, ← Nat.shiftLeft_add_eq_or_of_lt hf,
    Nat.shiftLeft_eq]
  ring

theorem pattern_pack {s : Bool} {n : ℕ} {f : BitVec 32} (l : BitVec 32) (hn : 64 + n < 128) (hf : f.toNat < 2 ^ 24) :
    pattern ⟨(if s then 0x80000000#32 else 0#32) ||| BitVec.ofNat 32 (64 + n) <<< 24 ||| f, l⟩ = ⟨s, n, (Dw.u ⟨f, l⟩).toNat⟩ := by
  have hpack := toNat_pack (s := s) hn hf
  have hle := Bool.toNat_le s
  rw [pattern, Dw.toNat_u]
  dsimp only
  congr 1
  · rw [BitVec.msb_eq_decide, hpack]
    cases s
    · rw [decide_eq_false_iff_not]
      simp only [Bool.toNat_false]
      omega
    · rw [decide_eq_true_eq]
      simp only [Bool.toNat_true]
      omega
  · rw [hpack]
    apply congrArg₂ HexFloat.mk
    · omega
    · omega

theorem value_eq {F n R : ℕ} (h : F * 16 ^ n = R * 16 ^ 14) : (⟨n, F⟩ : HexFloat).value 56 = R := by
  have hcast : (F : ℚ) * 16 ^ n = R * 2 ^ 56 := by
    have hpow : (2 : ℚ) ^ 56 = 16 ^ 14 := by norm_num
    rw [hpow]
    exact_mod_cast h
  rw [HexFloat.value]
  simp only [zpow_natCast]
  rw [div_mul_eq_mul_div, hcast, mul_div_cancel_right₀ _ (by positivity)]

end Patterns

section Float

open KeptDigits

variable (x : BitVec 64) {digits : ℕ} (hd : digits = 14 ∨ digits = 6)

theorem hfpFloat_zero (digits : ℕ) : hfpFloat 0 digits = ⟨0, 0⟩ := by
  rw [hfpFloat]
  simp [Dw.of, split]

theorem magnitude_pair : (if (Dw.of x).hi &&& 0x80000000 ≠ 0 then (negate (Dw.of x), 0x80000000#32) else (Dw.of x, 0#32)) =
    (Dw.of x.abs, if x.msb then 0x80000000#32 else 0#32) := by
  have hmsb : (Dw.of x).hi.msb = x.msb := by rw [← Dw.msb_u, Dw.u_of]
  simp only [sign_bit, hmsb, BitVec.abs_eq]
  split
  · rw [← Dw.of_u (negate (Dw.of x)), negate_u, Dw.u_of]
  · rfl

include hd

theorem hfpFloat_pattern (hx : x ≠ 0) : (pattern (hfpFloat x digits)).neg = x.msb ∧
    (pattern (hfpFloat x digits)).mag = ⟨(kept 16 digits x.abs.toNat).2, (kept 16 digits x.abs.toNat).1 * 16 ^ (14 - digits)⟩ ∧
      (digits = 6 → (hfpFloat x digits).lo = 0) := by
  have habs : x.abs ≠ 0 := by
    rw [BitVec.abs_eq]
    split
    · exact neg_ne_zero.mpr hx
    · exact hx
  have hle : x.abs.toNat ≤ 2 ^ 63 := by
    have hfits := SignExtension.fits_toInt (k := 63) x
    rw [Magnitude.toNat_abs]
    rw [SignExtension.Fits] at hfits
    omega
  have hm : x.abs.toNat ≠ 0 := fun h => habs (BitVec.eq_of_toNat_eq h)
  have hD : 0 < digits := by rcases hd with rfl | rfl <;> decide
  obtain ⟨hfrac, hlen⟩ := hfpDigits_spec (m := Dw.of x.abs) (by rwa [Dw.u_of]) (by rwa [Dw.u_of]) hd
  obtain ⟨-, hlt, -⟩ := kept_spec (b := 16) (by decide) hD hm
  have hexp : (kept 16 digits x.abs.toNat).2 ≤ 17 := kept_len_le.trans (Nat.succ_le_succ (len_le_sixteen x.abs))
  rw [Dw.u_of] at hfrac hlen
  have hwords : ¬ ((Dw.of x.abs).hi = 0 ∧ (Dw.of x.abs).lo = 0) := by
    rw [← Dw.u_eq_zero, Dw.u_of]
    exact habs
  rw [hfpFloat]
  simp only [magnitude_pair]
  rw [if_neg hwords, hlen, ← hfrac]
  rw [← hfrac] at hlt
  generalize (hfpDigits (Dw.of x.abs) digits).1 = f at *
  rw [Dw.toNat_u] at hlt
  rcases hd with rfl | rfl
  · rw [if_pos rfl, pattern_pack _ (by omega) (by omega)]
    simp
  · rw [if_neg (by decide), pattern_pack _ (by omega) (by omega), Dw.toNat_u, Dw.toNat_u]
    refine ⟨rfl, ?_, fun _ => rfl⟩
    apply congrArg (HexFloat.mk _)
    have hzero : (0 : BitVec 32).toNat = 0 := rfl
    dsimp only
    rw [hzero]
    omega

theorem hfpFloat_value : (pattern (hfpFloat x digits)).value = signed x.msb (rounded 16 digits x.toInt.natAbs) := by
  by_cases hx : x = 0
  · rw [hx, hfpFloat_zero]
    simp [pattern, Pattern.value, HexFloat.value, signed, rounded, len]
  · obtain ⟨hneg, hmag, -⟩ := hfpFloat_pattern x hd hx
    have hm : x.abs.toNat ≠ 0 := by
      rw [Magnitude.toNat_abs]
      exact Int.natAbs_ne_zero.mpr fun h => hx (BitVec.toInt_inj.mp h)
    have hD : 0 < digits := by rcases hd with rfl | rfl <;> decide
    obtain ⟨-, -, hkept⟩ := kept_spec (b := 16) (by decide) hD hm
    have hvalue := value_eq (F := (kept 16 digits x.abs.toNat).1 * 16 ^ (14 - digits)) (n := (kept 16 digits x.abs.toNat).2)
      (R := rounded 16 digits x.abs.toNat) (by
        rw [Nat.mul_right_comm, hkept, Nat.mul_assoc, ← pow_add]
        rcases hd with rfl | rfl <;> rfl)
    rw [Pattern.value, hneg, hmag, hvalue, Magnitude.toNat_abs, signed]
    split <;> simp

/-- The leading digit of the fraction is not zero. -/
theorem hfpFloat_normal (hx : x ≠ 0) : (pattern (hfpFloat x digits)).mag.Normal 56 := by
  obtain ⟨-, hmag, -⟩ := hfpFloat_pattern x hd hx
  have hm : x.abs.toNat ≠ 0 := by
    rw [Magnitude.toNat_abs]
    exact Int.natAbs_ne_zero.mpr fun h => hx (BitVec.toInt_inj.mp h)
  have hD : 0 < digits := by rcases hd with rfl | rfl <;> decide
  obtain ⟨hlow, hhigh, -⟩ := kept_spec (b := 16) (by decide) hD hm
  rw [hmag, HexFloat.Normal]
  dsimp only
  rcases hd with rfl | rfl <;> omega

end Float

section Fix

theorem toNat_exponent (x : BitVec 32) : (x >>> 24 &&& 0x7F#32).toNat = x.toNat / 2 ^ 24 % 2 ^ 7 := by
  rw [BitVec.toNat_and, BitVec.toNat_ushiftRight, Nat.shiftRight_eq_div_pow]
  exact Nat.and_two_pow_sub_one_eq_mod _ 7

/-- What is left of the magnitude before the point. -/
def whole (h : HexFloat) : ℕ := if 0 ≤ h.exp - 14 then h.frac * 16 ^ (h.exp - 14).toNat else h.frac / 16 ^ (14 - h.exp).toNat

theorem floor_value (h : HexFloat) : ⌊h.value 56⌋ = whole h := by
  have hpow : (2 : ℚ) ^ 56 = 16 ^ (14 : ℤ) := by norm_num
  have hvalue : h.value 56 = h.frac * 16 ^ (h.exp - 14) := by
    rw [HexFloat.value, hpow, div_mul_eq_mul_div, mul_div_assoc, ← zpow_sub₀ (by norm_num)]
  rw [hvalue, whole]
  split
  · rename_i hpos
    have hexp : ((h.exp - 14).toNat : ℤ) = h.exp - 14 := Int.toNat_of_nonneg hpos
    rw [← hexp, zpow_natCast]
    exact_mod_cast Int.floor_natCast (R := ℚ) (h.frac * 16 ^ (h.exp - 14).toNat)
  · rename_i hneg
    have hexp : h.exp - 14 = -((14 - h.exp).toNat : ℤ) := by
      rw [Int.toNat_of_nonneg (by omega)]
      ring
    rw [hexp, zpow_neg, zpow_natCast, ← div_eq_mul_inv]
    have hfloor := Rat.floor_intCast_div_natCast h.frac (16 ^ (14 - h.exp).toNat)
    push_cast at hfloor
    rw [hfloor]
    norm_cast

theorem truncate_value (h : Pattern) : truncate h.value = signed h.neg (whole h.mag) := by
  have hpos : 0 ≤ h.mag.value 56 := by
    rw [HexFloat.value]
    positivity
  rw [Pattern.value, signed, truncate, ← floor_value]
  cases h.neg
  · exact if_neg (not_lt.mpr hpos)
  · rcases hpos.eq_or_lt with hzero | hpos
    · simp [← hzero]
    · simp [hpos]

theorem hfpFix_u (p : Dw) : (hfpFix p).u = BitVec.ofInt 64 (truncate (pattern p).value) := by
  have hfrac : (Dw.u ⟨p.hi &&& 0x00FFFFFF#32, p.lo⟩).toNat = (pattern p).mag.frac := by
    rw [Dw.toNat_u]
    exact congrArg (· * 2 ^ 32 + p.lo.toNat) ((BitVec.toNat_and _ _).trans (Nat.and_two_pow_sub_one_eq_mod p.hi.toNat 24))
  have hpow : ∀ k, 2 ^ (4 * k) = 16 ^ k := fun k => by
    rw [pow_mul]
    norm_num
  have hexp : (pattern p).mag.exp = ((p.hi >>> 24 &&& 0x7F#32).toNat : ℤ) - 64 := by rw [toNat_exponent]; rfl
  rw [truncate_value, hfpFix]
  generalize ((p.hi >>> 24 &&& 0x7F#32).toNat : ℤ) = e at hexp
  generalize Halves.mk (p.hi &&& 0x00FFFFFF#32) p.lo = f at hfrac
  have hwhole : (if 4 * e - 312 ≥ 0 then shl64 f (4 * e - 312).toNat else shr64 f (312 - 4 * e).toNat).u = BitVec.ofNat 64 (whole (pattern p).mag) := by
    apply BitVec.eq_of_toNat_eq
    rw [BitVec.toNat_ofNat, whole, hexp, ← hfrac]
    by_cases h : 4 * e - 312 ≥ 0
    · rw [if_pos h, if_pos (by omega), toNat_shl64, show (4 * e - 312).toNat = 4 * (e - 64 - 14).toNat by omega, hpow]
    · rw [if_neg h, if_neg (by omega), toNat_shr64, show (312 - 4 * e).toNat = 4 * (14 - (e - 64)).toNat by omega, hpow]
      exact (Nat.mod_eq_of_lt ((Nat.div_le_self _ _).trans_lt (Dw.u f).isLt)).symm
  have hneg : (pattern p).neg = p.hi.msb := rfl
  simp only [sign_bit, hneg, signed]
  split
  · rw [negate_u, hwhole, BitVec.ofInt_neg, BitVec.ofInt_natCast]
  · rw [hwhole, BitVec.ofInt_natCast]

theorem truncate_intCast (z : ℤ) : truncate z = z := by
  rw [truncate]
  split
  · rw [← Int.cast_neg, Int.floor_intCast, neg_neg]
  · exact Int.floor_intCast _

/-- An integer of few significant digits survives the conversion both ways. -/
theorem hfpFix_hfpFloat (x : BitVec 64) {k j : ℕ} (hk : k < 16 ^ 14) (hx : x.toInt.natAbs = k * 16 ^ j) : (hfpFix (hfpFloat x 14)).u = x := by
  have hround := KeptDigits.rounded_of_few (b := 16) (D := 14) (by decide) hk hx
  have hint : signed x.msb x.toInt.natAbs = x.toInt := by rw [← Magnitude.toNat_abs, ← toInt_eq_signed]
  rw [hfpFix_u, hfpFloat_value x (.inl rfl), hround, hint, truncate_intCast, BitVec.ofInt_toInt]

end Fix

theorem hfp_conversions (x : BitVec 64) (p : Dw) :
    (∀ digits, digits = 14 ∨ digits = 6 →
      (pattern (hfpFloat x digits)).value = signed x.msb (KeptDigits.rounded 16 digits x.toInt.natAbs) ∧
      (x = 0 → hfpFloat x digits = ⟨0, 0⟩) ∧ (x ≠ 0 → (pattern (hfpFloat x digits)).mag.Normal 56) ∧
      (digits = 6 → (hfpFloat x digits).lo = 0)) ∧
    (hfpFix p).u = BitVec.ofInt 64 (truncate (pattern p).value) ∧
    ∀ k j, k < 16 ^ 14 → x.toInt.natAbs = k * 16 ^ j → (hfpFix (hfpFloat x 14)).u = x := by
  refine ⟨fun digits hd => ⟨hfpFloat_value x hd, ?_, hfpFloat_normal x hd, ?_⟩, hfpFix_u p, fun k j hk hx => hfpFix_hfpFloat x hk hx⟩
  · rintro rfl
    exact hfpFloat_zero digits
  · intro h6
    by_cases hx : x = 0
    · rw [hx, hfpFloat_zero]
    · exact (hfpFloat_pattern x hd hx).2.2 h6

theorem hfp_conversions_lowest : (hfpFix (hfpFloat (BitVec.intMin 64) 14)).u = BitVec.intMin 64 :=
  (hfp_conversions (BitVec.intMin 64) ⟨0, 0⟩).2.2 8 15 (by decide) (by decide)

end Cc370.Runtime
