import Mathlib.Data.Nat.Notation
import Mathlib.Algebra.Order.Ring.Int
import Mathlib.Tactic.Positivity

namespace Cc370.Lib.SignExtension

/-- A signed number of `k` bits and a sign. -/
def Fits (k : ℕ) (x : ℤ) : Prop := -2 ^ k ≤ x ∧ x < 2 ^ k

variable {k n : ℕ}

theorem bmod_eq_self_iff {x : ℤ} : x.bmod (2 ^ (k + 1)) = x ↔ Fits k x := by
  have hpow : ((2 ^ (k + 1) : ℕ) : ℤ) = 2 * 2 ^ k := by
    push_cast
    rw [pow_succ, mul_comm]
  have hpos : (0 : ℤ) < 2 ^ k := by positivity
  rw [Int.bmod_eq_iff (by positivity), hpow, sub_self, Fits]
  constructor
  · rintro ⟨hle, hlt, -⟩
    omega
  · rintro ⟨hle, hlt⟩
    exact ⟨by omega, by omega, dvd_zero _⟩

theorem fits_toInt (v : BitVec (k + 1)) : Fits k v.toInt := by
  have hle := v.le_toInt
  have hlt := v.toInt_lt
  rw [Nat.add_sub_cancel] at hle hlt
  exact ⟨hle, hlt⟩

theorem Fits.mono {x : ℤ} (h : Fits k x) (hkn : k ≤ n) : Fits n x := by
  have hpow : (2 : ℤ) ^ k ≤ 2 ^ n := pow_le_pow_right₀ (by decide) hkn
  obtain ⟨hle, hlt⟩ := h
  constructor <;> omega

theorem Fits.add {x y : ℤ} (hx : Fits k x) (hy : Fits k y) : Fits (k + 1) (x + y) := by
  rw [Fits, pow_succ]
  obtain ⟨hx0, hx1⟩ := hx
  obtain ⟨hy0, hy1⟩ := hy
  constructor <;> omega

theorem Fits.sub {x y : ℤ} (hx : Fits k x) (hy : Fits k y) : Fits (k + 1) (x - y) := by
  rw [Fits, pow_succ]
  obtain ⟨hx0, hx1⟩ := hx
  obtain ⟨hy0, hy1⟩ := hy
  constructor <;> omega

theorem eq_signExtend_iff (h : k ≤ n) (x : BitVec n) (v : BitVec k) :
    x = v.signExtend n ↔ x.toInt = v.toInt := by
  rw [← BitVec.toInt_inj, BitVec.toInt_signExtend_of_le h]

/-- A sum of sign-extended numbers is that of the numbers while it fits their width. -/
theorem add_eq_signExtend_iff (h : k < n) (v w : BitVec (k + 1)) :
    v.signExtend (n + 1) + w.signExtend (n + 1) = (v + w).signExtend (n + 1) ↔ Fits k (v.toInt + w.toInt) := by
  have hwide : Fits n (v.toInt + w.toInt) := ((fits_toInt v).add (fits_toInt w)).mono h
  rw [eq_signExtend_iff (by omega), BitVec.toInt_add, BitVec.toInt_add, BitVec.toInt_signExtend_of_le (by omega),
    BitVec.toInt_signExtend_of_le (by omega), bmod_eq_self_iff.mpr hwide, eq_comm, bmod_eq_self_iff]

theorem sub_eq_signExtend_iff (h : k < n) (v w : BitVec (k + 1)) :
    v.signExtend (n + 1) - w.signExtend (n + 1) = (v - w).signExtend (n + 1) ↔ Fits k (v.toInt - w.toInt) := by
  have hwide : Fits n (v.toInt - w.toInt) := ((fits_toInt v).sub (fits_toInt w)).mono h
  rw [eq_signExtend_iff (by omega), BitVec.toInt_sub, BitVec.toInt_sub, BitVec.toInt_signExtend_of_le (by omega),
    BitVec.toInt_signExtend_of_le (by omega), bmod_eq_self_iff.mpr hwide, eq_comm, bmod_eq_self_iff]

theorem signExtend_ne_intMin (h : k < n) (v : BitVec (k + 1)) : v.signExtend (n + 1) ≠ BitVec.intMin (n + 1) := by
  intro he
  have hpow : (2 : ℤ) ^ k < 2 ^ n := pow_lt_pow_right₀ (by decide) h
  have hv := (fits_toInt v).1
  have hint := congrArg BitVec.toInt he
  rw [BitVec.toInt_signExtend_of_le (by omega), BitVec.toInt_intMin_of_pos (by omega), Nat.add_sub_cancel] at hint
  omega

theorem intMin_toInt_ne_zero : (BitVec.intMin (k + 1)).toInt ≠ 0 := by
  have hpos : (0 : ℤ) < 2 ^ k := by positivity
  rw [BitVec.toInt_intMin_of_pos (by omega), Nat.add_sub_cancel]
  omega

/-- Negation fails at the lowest number only, whose complement is itself. -/
theorem neg_eq_signExtend_iff (h : k < n) (v : BitVec (k + 1)) :
    -(v.signExtend (n + 1)) = (-v).signExtend (n + 1) ↔ v ≠ BitVec.intMin (k + 1) := by
  rw [eq_signExtend_iff (by omega), BitVec.toInt_neg_of_ne_intMin (signExtend_ne_intMin h v),
    BitVec.toInt_signExtend_of_le (by omega), BitVec.toInt_neg_eq_ite]
  constructor
  · intro he hv
    rw [if_pos hv] at he
    have hne := @intMin_toInt_ne_zero k
    rw [← hv] at hne
    omega
  · intro hv
    rw [if_neg hv]

theorem msb_signExtend (h : k ≤ n) (v : BitVec (k + 1)) : (v.signExtend (n + 1)).msb = v.msb := by
  rw [BitVec.msb_eq_toInt, BitVec.msb_eq_toInt, BitVec.toInt_signExtend_of_le (by omega)]

theorem abs_eq_signExtend_iff (h : k < n) (v : BitVec (k + 1)) :
    (if (v.signExtend (n + 1)).msb then -(v.signExtend (n + 1)) else v.signExtend (n + 1)) = v.abs.signExtend (n + 1) ↔
      v ≠ BitVec.intMin (k + 1) := by
  rw [msb_signExtend h.le, BitVec.abs_eq]
  by_cases hv : v.msb
  · rw [if_pos hv, if_pos hv, neg_eq_signExtend_iff h]
  · rw [if_neg hv, if_neg hv]
    have hne : v ≠ BitVec.intMin (k + 1) := by
      rintro rfl
      rw [BitVec.msb_intMin] at hv
      simp at hv
    simp [hne]

/-- Shifted up to the top and down again, the low bits are sign extended. -/
theorem shiftLeft_sshiftRight (x : BitVec (n + k)) (hk : 0 < k) :
    (x <<< n).sshiftRight n = (x.setWidth k).signExtend (n + k) := by
  ext i hi
  simp only [BitVec.getElem_sshiftRight, BitVec.getElem_shiftLeft, BitVec.getElem_signExtend, BitVec.getElem_setWidth]
  by_cases hik : i < k
  · rw [dif_pos (by omega), dif_pos hik, decide_eq_false (show ¬ n + i < n by omega), Bool.not_false, Bool.true_and,
      BitVec.getLsbD_eq_getElem hi]
    simp only [Nat.add_sub_cancel_left]
  · rw [dif_neg (by omega), dif_neg hik]
    simp only [BitVec.msb_eq_getLsbD_last, BitVec.getLsbD_shiftLeft, BitVec.getLsbD_setWidth]
    have hlast : n + k - 1 - n = k - 1 := by omega
    rw [hlast]
    simp only [decide_eq_true (show n + k - 1 < n + k by omega), decide_eq_true (show k - 1 < k by omega),
      decide_eq_false (show ¬ n + k - 1 < n by omega), Bool.true_and, Bool.not_false]

theorem setWidth_signExtend (h : k ≤ n) (v : BitVec k) : (v.signExtend n).setWidth k = v := by
  ext i hi
  rw [BitVec.getElem_setWidth, BitVec.getLsbD_signExtend]
  simp [hi, show i < n by omega]

theorem setWidth_shiftLeft (h : k ≤ n) (x : BitVec n) (i : ℕ) : (x <<< i).setWidth k = x.setWidth k <<< i := by
  ext j hj
  have hjn : j < n := by omega
  have hji : j - i < k := by omega
  simp only [BitVec.getElem_setWidth, BitVec.getLsbD_shiftLeft, BitVec.getElem_shiftLeft]
  simp [hjn]

theorem sshiftRight_signExtend (h : k ≤ n) (v : BitVec k) (i : ℕ) :
    (v.signExtend n).sshiftRight i = (v.sshiftRight i).signExtend n := by
  rw [eq_signExtend_iff h, BitVec.toInt_sshiftRight, BitVec.toInt_sshiftRight, BitVec.toInt_signExtend_of_le h]

theorem append_sshiftRight (v : BitVec k) (x : BitVec n) (hk : 0 < k) :
    (v ++ x).sshiftRight n = v.signExtend (k + n) := by
  ext i hi
  simp only [BitVec.getElem_sshiftRight, BitVec.getElem_signExtend, BitVec.getElem_append]
  by_cases hik : i < k
  · rw [dif_pos (by omega), dif_pos hik, dif_neg (by omega)]
    simp only [Nat.add_sub_cancel_left]
  · rw [dif_neg (by omega), dif_neg hik, BitVec.msb_append]
    simp [show k ≠ 0 by omega]

/-- Nothing but the sign is left of a number that the shift count has room for. -/
theorem ediv_eq_fill_iff (x : ℤ) : x / 2 ^ k = (if x < 0 then -1 else 0) ↔ Fits k x := by
  have hpos : (0 : ℤ) < 2 ^ k := by positivity
  rw [Int.ediv_eq_iff_of_pos hpos, Fits]
  split <;> omega

theorem sshiftRight_eq_zero_iff (h : k < n) (x : BitVec n) : x.sshiftRight k = 0#n ↔ x.toNat < 2 ^ k := by
  have hpos : 0 < 2 ^ k := by positivity
  have hpow : 2 * 2 ^ k ≤ 2 ^ n := by
    rw [← pow_succ']
    exact Nat.pow_le_pow_right (by decide) h
  have hint := x.toInt_eq_toNat_cond
  have hlt := x.isLt
  rw [← BitVec.toInt_inj, BitVec.toInt_sshiftRight, Int.shiftRight_eq_div_pow, Int.ediv_eq_iff_of_pos (by positivity),
    BitVec.toInt_zero, zero_mul, zero_add]
  split at hint <;> constructor <;> intro hx <;> omega

end Cc370.Lib.SignExtension
