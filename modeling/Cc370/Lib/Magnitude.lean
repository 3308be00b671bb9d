import Cc370.Lib.SignExtension

namespace Cc370.Lib.Magnitude

open SignExtension

/-- The number of a sign and a magnitude. -/
def signed (neg : Bool) (m : ℕ) : ℤ := if neg then -m else m

variable {k w : ℕ}

theorem natAbs_signed (p : Bool) (m : ℕ) : (signed p m).natAbs = m := by
  cases p <;> simp [signed]

theorem toInt_eq_signed (x : BitVec w) : x.toInt = signed x.msb x.abs.toNat := by
  have hlt := x.isLt
  rw [BitVec.toInt_eq_msb_cond, BitVec.toNat_abs, signed]
  split <;> omega

theorem toNat_abs (x : BitVec w) : x.abs.toNat = x.toInt.natAbs := by
  rw [toInt_eq_signed, natAbs_signed]

theorem signed_mul (p q : Bool) (m n : ℕ) : signed p m * signed q n = signed (p != q) (m * n) := by
  cases p <;> cases q <;> simp [signed]

/-- There is one more negative number than positive ones. -/
theorem fits_signed {p : Bool} {m : ℕ} : Fits k (signed p m) ↔ m < 2 ^ k + p.toNat := by
  have hcast : ((2 ^ k : ℕ) : ℤ) = 2 ^ k := by
    push_cast
    rfl
  have hpos := Nat.two_pow_pos k
  rw [Fits, signed, ← hcast]
  generalize 2 ^ k = b at hpos
  cases p
  · simp
  · simp
    omega

theorem toInt_of_lt {r : BitVec (k + 1)} (h : r.toNat < 2 ^ k) : r.toInt = r.toNat := by
  have hfits : Fits k (signed false r.toNat) := fits_signed.mpr h
  rw [BitVec.toInt_eq_toNat_bmod]
  exact bmod_eq_self_iff.mpr hfits

theorem toInt_neg_of_le {r : BitVec (k + 1)} (h : r.toNat ≤ 2 ^ k) : (-r).toInt = -(r.toNat : ℤ) := by
  rcases h.lt_or_eq with hlt | heq
  · have hmsb : r.msb = false := BitVec.msb_eq_false_iff_two_mul_lt.mpr (by rw [pow_succ]; omega)
    rw [BitVec.toInt_neg_eq_of_msb hmsb, toInt_of_lt hlt]
  · have hmin : r = BitVec.intMin (k + 1) := by
      apply BitVec.eq_of_toNat_eq
      rw [heq, BitVec.toNat_intMin_of_pos (Nat.succ_pos k)]
      rfl
    rw [heq, hmin, BitVec.neg_intMin, BitVec.toInt_intMin_of_pos (Nat.succ_pos k), Nat.succ_sub_one]
    push_cast
    rfl

theorem toInt_ite {p : Bool} {r : BitVec (k + 1)} (h : Fits k (signed p r.toNat)) : (if p then -r else r).toInt = signed p r.toNat := by
  rw [fits_signed] at h
  cases p
  · exact toInt_of_lt h
  · exact toInt_neg_of_le (Nat.le_of_lt_succ h)

end Cc370.Lib.Magnitude
