import Cc370.Lib.Magnitude
import Cc370.Runtime.Multiply

namespace Cc370.Runtime

open Cc370.Lib Halves SignExtension Magnitude

def SIGN : BitVec 32 := 0x80000000

def addvdi3 (a b : BitVec 64) : Except Stop (BitVec 64) :=
  let x := Dw.of a
  let y := Dw.of b
  let lo := x.lo + y.lo
  let r : Dw := ⟨x.hi + y.hi + carry (lo < x.lo), lo⟩
  if ~~~(x.hi ^^^ y.hi) &&& (x.hi ^^^ r.hi) &&& SIGN ≠ 0 then .error .abort else .ok r.u

def subvdi3 (a b : BitVec 64) : Except Stop (BitVec 64) :=
  let x := Dw.of a
  let y := Dw.of b
  let lo := x.lo - y.lo
  let r : Dw := ⟨x.hi - y.hi - carry (x.lo < y.lo), lo⟩
  if (x.hi ^^^ y.hi) &&& (x.hi ^^^ r.hi) &&& SIGN ≠ 0 then .error .abort else .ok r.u

def negvdi2 (a : BitVec 64) : Except Stop (BitVec 64) :=
  let x := Dw.of a
  if x.hi = SIGN ∧ x.lo = 0 then .error .abort else .ok (negate x).u

def mulvsi3 (a b : BitVec 32) : Except Stop (BitVec 32) :=
  let ua := if a.slt 0 then 0 - a else a
  let ub := if b.slt 0 then 0 - b else b
  let neg : BitVec 32 := carry (a.slt 0 ≠ b.slt 0)
  let r := mul32 ua ub
  if r.hi ≠ 0 ∨ r.lo > 0x7FFFFFFF + neg then .error .abort else .ok (if neg ≠ 0 then 0 - r.lo else r.lo)

def mulvdi3 (a b : BitVec 64) : Except Stop (BitVec 64) :=
  let x := Dw.of a
  let y := Dw.of b
  let neg := decide ((x.hi ^^^ y.hi) &&& SIGN ≠ 0)
  let x := if x.hi &&& SIGN ≠ 0 then negate x else x
  let y := if y.hi &&& SIGN ≠ 0 then negate y else y
  if x.hi ≠ 0 ∧ y.hi ≠ 0 then .error .abort
  else
    let r := mul32 x.lo y.lo
    let c := if x.hi ≠ 0 then mul32 x.hi y.lo else mul32 x.lo y.hi
    if c.hi ≠ 0 then .error .abort
    else
      let h := r.hi + c.lo
      if h < c.lo then .error .abort
      else if h &&& SIGN ≠ 0 ∧ ¬ (neg ∧ h = SIGN ∧ r.lo = 0) then .error .abort
      else
        let r : Dw := ⟨h, r.lo⟩
        .ok (if neg then negate r else r).u

/-- The result is `z` where the type has it, and the run is stopped where it has not. -/
structure Traps (k : ℕ) (z : ℤ) {w : ℕ} (out : Except Stop (BitVec w)) : Prop where
  exact : Fits k z → ∃ r, out = .ok r ∧ r.toInt = z
  aborts : out = .error .abort ↔ ¬ Fits k z

theorem Traps.ite {k w : ℕ} {z : ℤ} {c : Prop} [Decidable c] {r : BitVec w} (hc : c ↔ ¬ Fits k z) (hr : Fits k z → r.toInt = z) :
    Traps k z (if c then .error .abort else .ok r) := by
  constructor
  · intro hz
    exact ⟨r, if_neg fun h => hc.mp h hz, hr hz⟩
  · rw [← hc]
    split
    · simp_all
    · simp_all

theorem Traps.abort {k w : ℕ} {z : ℤ} (h : ¬ Fits k z) : Traps k z (.error .abort : Except Stop (BitVec w)) :=
  ⟨fun hz => absurd hz h, iff_of_true rfl h⟩

theorem sign_word (x : BitVec 32) : x &&& SIGN ≠ 0 ↔ x.msb = true := sign_bit x

section Sums

variable (a b : BitVec 64)

theorem overflow_iff_not_fits {k : ℕ} {z : ℤ} : (decide (z ≥ 2 ^ k) || decide (z < -2 ^ k)) = true ↔ ¬ Fits k z := by
  rw [Bool.or_eq_true, decide_eq_true_eq, decide_eq_true_eq, Fits]
  omega

theorem msb_of : (Dw.of a).hi.msb = a.msb := by rw [← Dw.msb_u, Dw.u_of]

theorem addvdi3_traps : Traps 63 (a.toInt + b.toInt) (addvdi3 a b) := by
  have hsum : Dw.u ⟨(Dw.of a).hi + (Dw.of b).hi + carry ((Dw.of a).lo + (Dw.of b).lo < (Dw.of a).lo), (Dw.of a).lo + (Dw.of b).lo⟩ = a + b := by
    have h := join_add (w := 32) (by decide) (Dw.of a) (Dw.of b)
    exact h.trans (congrArg₂ (· + ·) (Dw.u_of a) (Dw.u_of b))
  have hmsb := congrArg BitVec.msb hsum
  rw [Dw.msb_u] at hmsb
  have hover : a.saddOverflow b = true ↔ ¬ Fits 63 (a.toInt + b.toInt) := overflow_iff_not_fits
  rw [addvdi3, hsum]
  apply Traps.ite
  · rw [← hover, sign_word, BitVec.saddOverflow_eq]
    simp only [BitVec.msb_and, BitVec.msb_not, BitVec.msb_xor, hmsb, msb_of]
    cases a.msb <;> cases b.msb <;> cases (a + b).msb <;> decide
  · intro hfits
    exact BitVec.toInt_add_of_not_saddOverflow (mt hover.mp (not_not.mpr hfits))

theorem subvdi3_traps : Traps 63 (a.toInt - b.toInt) (subvdi3 a b) := by
  have hsum : Dw.u ⟨(Dw.of a).hi - (Dw.of b).hi - carry ((Dw.of a).lo < (Dw.of b).lo), (Dw.of a).lo - (Dw.of b).lo⟩ = a - b := by
    have h := join_sub (w := 32) (by decide) (Dw.of a) (Dw.of b)
    exact h.trans (congrArg₂ (· - ·) (Dw.u_of a) (Dw.u_of b))
  have hmsb := congrArg BitVec.msb hsum
  rw [Dw.msb_u] at hmsb
  have hover : a.ssubOverflow b = true ↔ ¬ Fits 63 (a.toInt - b.toInt) := overflow_iff_not_fits
  rw [subvdi3, hsum]
  apply Traps.ite
  · rw [← hover, sign_word, BitVec.ssubOverflow_eq]
    simp only [BitVec.msb_and, BitVec.msb_xor, hmsb, msb_of]
    cases a.msb <;> cases b.msb <;> cases (a - b).msb <;> decide
  · intro hfits
    exact BitVec.toInt_sub_of_not_ssubOverflow (mt hover.mp (not_not.mpr hfits))

theorem negvdi2_traps : Traps 63 (-a.toInt) (negvdi2 a) := by
  have hmin : (Dw.of a).hi = SIGN ∧ (Dw.of a).lo = 0 ↔ a = BitVec.intMin 64 := by
    have hwhole : Dw.u ⟨SIGN, 0⟩ = BitVec.intMin 64 := by decide
    rw [← hwhole]
    constructor
    · rintro ⟨hhi, hlo⟩
      rw [← Dw.u_of a, ← hhi, ← hlo]
    · rintro rfl
      rw [Dw.of_u]
      exact ⟨rfl, rfl⟩
  have hfits : a = BitVec.intMin 64 ↔ ¬ Fits 63 (-a.toInt) := by
    have hrange := fits_toInt (k := 63) a
    rw [← BitVec.toInt_inj, BitVec.toInt_intMin_of_pos (by decide)]
    rw [Fits] at hrange ⊢
    omega
  rw [negvdi2, negate_u, Dw.u_of]
  apply Traps.ite
  · rw [hmin, hfits]
  · intro h
    exact BitVec.toInt_neg_of_ne_intMin (mt hfits.mp (not_not.mpr h))

end Sums

section Products

theorem magnitude_u (x : Dw) : (if x.hi &&& SIGN ≠ 0 then negate x else x).u = x.u.abs := by
  rw [BitVec.abs_eq, Dw.msb_u]
  simp only [sign_word]
  split
  · exact negate_u x
  · rfl

theorem differ_sign (x y : BitVec 32) : (x ^^^ y) &&& SIGN ≠ 0 ↔ (x.msb != y.msb) = true := by
  rw [sign_word, BitVec.msb_xor]

theorem eq_zero_iff (x : BitVec 32) : x = 0 ↔ x.toNat = 0 := by
  rw [← BitVec.toNat_inj]
  rfl

theorem mulvsi3_traps (a b : BitVec 32) : Traps 31 (a.toInt * b.toInt) (mulvsi3 a b) := by
  have hmag (x : BitVec 32) : (if x.slt 0 then 0 - x else x) = x.abs := by
    have hslt : x.slt 0 = x.msb := BitVec.slt_zero_eq_msb
    rw [hslt, BitVec.abs_eq]
    split
    · exact BitVec.zero_sub x
    · rfl
  have hneg : (carry (a.slt 0 ≠ b.slt 0) : BitVec 32) = carry ((a.msb != b.msb) = true) := by
    have hslt (x : BitVec 32) : x.slt 0 = x.msb := BitVec.slt_zero_eq_msb
    simp only [hslt, bne_iff_ne]
  have hmul := mul32_spec a.abs b.abs
  rw [Dw.toNat_u] at hmul
  rw [mulvsi3, hmag, hmag, hneg, toInt_eq_signed a, toInt_eq_signed b, signed_mul, ← hmul]
  generalize (a.msb != b.msb) = neg
  generalize mul32 a.abs b.abs = r
  have hlo := r.lo.isLt
  have hlimit : ((0x7FFFFFFF : BitVec 32) + carry (neg = true)).toNat = 0x7FFFFFFF + neg.toNat := by
    cases neg <;> rfl
  apply Traps.ite
  · rw [fits_signed, ne_eq, eq_zero_iff, gt_iff_lt, BitVec.lt_def, hlimit]
    omega
  · intro h
    have hzero : r.hi.toNat = 0 := by
      rw [fits_signed] at h
      have hle := Bool.toNat_le neg
      omega
    rw [hzero, Nat.zero_mul, Nat.zero_add] at h ⊢
    rw [← toInt_ite h]
    cases neg
    · rfl
    · exact congrArg BitVec.toInt (BitVec.zero_sub r.lo)

/-- With one high word zero, one cross term is left beside the product of the lower words. -/
theorem product_words {x y : Dw} (h : ¬ (x.hi ≠ 0 ∧ y.hi ≠ 0)) :
    x.u.toNat * y.u.toNat = (if x.hi ≠ 0 then mul32 x.hi y.lo else mul32 x.lo y.hi).u.toNat * 2 ^ 32 + (mul32 x.lo y.lo).u.toNat := by
  rw [mul32_spec, Dw.toNat_u, Dw.toNat_u]
  by_cases hx : x.hi = 0
  · rw [if_neg (not_not.mpr hx), mul32_spec, (eq_zero_iff _).mp hx]
    ring
  · have hy : y.hi = 0 := by
      by_contra hy
      exact h ⟨hx, hy⟩
    rw [if_pos hx, mul32_spec, (eq_zero_iff _).mp hy]
    ring

theorem high_words_overflow {x y : Dw} (h : x.hi ≠ 0 ∧ y.hi ≠ 0) : 2 ^ 64 ≤ x.u.toNat * y.u.toNat := by
  have hx := Nat.pos_of_ne_zero (mt (eq_zero_iff _).mpr h.1)
  have hy := Nat.pos_of_ne_zero (mt (eq_zero_iff _).mpr h.2)
  have hle : 2 ^ 32 * 2 ^ 32 ≤ x.u.toNat * y.u.toNat := by
    rw [Dw.toNat_u, Dw.toNat_u]
    apply Nat.mul_le_mul <;> omega
  exact hle

theorem not_fits_of_le {neg : Bool} {m : ℕ} (h : 2 ^ 64 ≤ m) : ¬ Fits 63 (signed neg m) := by
  have hle := Bool.toNat_le neg
  rw [fits_signed]
  omega

theorem mulvdi3_traps (a b : BitVec 64) : Traps 63 (a.toInt * b.toInt) (mulvdi3 a b) := by
  have hx := magnitude_u (Dw.of a)
  have hy := magnitude_u (Dw.of b)
  rw [Dw.u_of] at hx hy
  rw [mulvdi3, toInt_eq_signed a, toInt_eq_signed b, signed_mul, ← hx, ← hy, ← msb_of a, ← msb_of b]
  simp only [differ_sign, Bool.decide_eq_true]
  generalize (if (Dw.of a).hi &&& SIGN ≠ 0 then negate (Dw.of a) else Dw.of a) = x
  generalize (if (Dw.of b).hi &&& SIGN ≠ 0 then negate (Dw.of b) else Dw.of b) = y
  generalize ((Dw.of a).hi.msb != (Dw.of b).hi.msb) = neg
  split
  · rename_i hhigh
    exact .abort (not_fits_of_le (high_words_overflow hhigh))
  rename_i hhigh
  rw [product_words hhigh, Dw.toNat_u, Dw.toNat_u]
  generalize (if x.hi ≠ 0 then mul32 x.hi y.lo else mul32 x.lo y.hi) = c
  generalize mul32 x.lo y.lo = r
  split
  · rename_i hc
    rw [ne_eq, eq_zero_iff] at hc
    exact .abort (not_fits_of_le (by omega))
  rename_i hc
  rw [not_not, eq_zero_iff] at hc
  rw [hc, Nat.zero_mul, Nat.zero_add]
  split
  · rename_i hcarry
    rw [BitVec.lt_def, BitVec.toNat_add] at hcarry
    exact .abort (not_fits_of_le (by omega))
  rename_i hcarry
  have hh : (r.hi + c.lo).toNat = r.hi.toNat + c.lo.toNat := by
    have hrh := r.hi.isLt
    rw [BitVec.lt_def, BitVec.toNat_add] at hcarry
    rw [BitVec.toNat_add]
    omega
  generalize r.hi + c.lo = h at hh
  have hmag : c.lo.toNat * 2 ^ 32 + (r.hi.toNat * 2 ^ 32 + r.lo.toNat) = (Dw.u ⟨h, r.lo⟩).toNat := by
    rw [Dw.toNat_u, hh]
    ring
  rw [hmag]
  apply Traps.ite
  · have hlo := r.lo.isLt
    have hsign : h = SIGN ↔ h.toNat = 2 ^ 31 := by
      rw [← BitVec.toNat_inj]
      rfl
    rw [fits_signed, sign_word, BitVec.msb_eq_decide, decide_eq_true_eq, hsign, eq_zero_iff, Dw.toNat_u]
    cases neg
    · simp
      omega
    · simp
      omega
  · intro hfits
    have hneg := negate_u ⟨h, r.lo⟩
    rw [← toInt_ite (r := Dw.u ⟨h, r.lo⟩) hfits]
    cases neg
    · rfl
    · exact congrArg BitVec.toInt hneg

end Products

theorem trapv_exact (a b : BitVec 64) (m n : BitVec 32) :
    Traps 63 (a.toInt + b.toInt) (addvdi3 a b) ∧ Traps 63 (a.toInt - b.toInt) (subvdi3 a b) ∧
    Traps 63 (a.toInt * b.toInt) (mulvdi3 a b) ∧ Traps 63 (-a.toInt) (negvdi2 a) ∧
    Traps 31 (m.toInt * n.toInt) (mulvsi3 m n) ∧ (muldi3 a b).toNat = a.toNat * b.toNat % 2 ^ 64 ∧
    (muldi3 a b).toInt = (a.toInt * b.toInt).bmod (2 ^ 64) := by
  rw [muldi3_eq]
  exact ⟨addvdi3_traps a b, subvdi3_traps a b, mulvdi3_traps a b, negvdi2_traps a, mulvsi3_traps m n, BitVec.toNat_mul a b, BitVec.toInt_mul a b⟩

end Cc370.Runtime
