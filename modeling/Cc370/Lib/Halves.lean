import Mathlib.Data.Nat.Notation
import Mathlib.Data.BitVec
import Mathlib.Order.Basic
import Mathlib.Tactic.Abel
import Mathlib.Tactic.Ring

namespace Cc370.Lib

/-- A number of `2 * w` bits in two words. -/
structure Halves (w : ℕ) where
  hi : BitVec w
  lo : BitVec w
deriving DecidableEq

namespace Halves

variable {w : ℕ}

def join (x : Halves w) : BitVec (w + w) := x.hi ++ x.lo

def split (v : BitVec (w + w)) : Halves w := ⟨v.extractLsb' w w, v.extractLsb' 0 w⟩

/-- A comparison used as a number. -/
def carry (p : Prop) [Decidable p] : BitVec w := if p then 1 else 0

theorem join_split (v : BitVec (w + w)) : (split v).join = v := BitVec.extractLsb'_append_extractLsb'

theorem split_join (x : Halves w) : split x.join = x := by
  rw [split, join, BitVec.extractLsb'_append_eq_left, BitVec.extractLsb'_append_eq_right]

theorem join_injective : Function.Injective (join (w := w)) := fun x y h => by
  rw [← split_join x, h, split_join y]

theorem toNat_join (x : Halves w) : x.join.toNat = x.hi.toNat * 2 ^ w + x.lo.toNat := by
  rw [join, BitVec.toNat_append, ← Nat.shiftLeft_add_eq_or_of_lt x.lo.isLt, Nat.shiftLeft_eq]

theorem join_eq_zero {x : Halves w} : x.join = 0 ↔ x.hi = 0 ∧ x.lo = 0 := by
  have hzero : (⟨0, 0⟩ : Halves w).join = 0 := BitVec.zero_append_zero
  rw [← hzero, join_injective.eq_iff, Halves.mk.injEq]

theorem msb_join {x : Halves w} (hw : 0 < w) : x.join.msb = x.hi.msb := by
  rw [join, BitVec.msb_append, if_neg (by omega)]

theorem toNat_carry (hw : 0 < w) {p : Prop} [Decidable p] : (carry p : BitVec w).toNat = if p then 1 else 0 := by
  have hone : 1 % 2 ^ w = 1 := Nat.mod_eq_of_lt (Nat.one_lt_two_pow hw.ne')
  rw [carry]
  split
  · exact hone
  · rfl

/-- The lower word does not matter for what the upper one loses. -/
theorem split_mod {b a l : ℕ} (hl : l < b) : (a * b + l) % (b * b) = a % b * b + l := by
  have hsplit := Nat.div_add_mod a b
  have hlt : a % b * b + l < b * b := by
    have hle := Nat.mul_le_mul_right b (Nat.succ_le_of_lt (Nat.mod_lt a (by omega : 0 < b)))
    rw [Nat.succ_mul] at hle
    omega
  have hsum : a * b + l = a / b * (b * b) + (a % b * b + l) := by
    conv_lhs => rw [← hsplit]
    ring
  rw [hsum, Nat.mul_add_mod_of_lt hlt]

/-- A product of two digits, from the four products of their halves. -/
theorem partial_products {b a₁ a₀ c₁ c₀ p q r s m : ℕ} (hp : p = a₀ * c₀) (hq : q = a₀ * c₁) (hr : r = a₁ * c₀) (hs : s = a₁ * c₁)
    (hm : m = p / b + q % b + r % b) :
    (s + q / b + r / b + m / b) * (b * b) + (m % b * b + p % b) = (a₁ * b + a₀) * (c₁ * b + c₀) := by
  have hmid := Nat.div_add_mod m b
  have hp' := Nat.div_add_mod p b
  have hq' := Nat.div_add_mod q b
  have hr' := Nat.div_add_mod r b
  calc (s + q / b + r / b + m / b) * (b * b) + (m % b * b + p % b)
      = s * (b * b) + (b * (q / b) + b * (r / b)) * b + (b * (m / b) + m % b) * b + p % b := by ring
    _ = s * (b * b) + (b * (q / b) + q % b) * b + (b * (r / b) + r % b) * b + (b * (p / b) + p % b) := by
      rw [hmid, hm]
      ring
    _ = (a₁ * b + a₀) * (c₁ * b + c₀) := by
      rw [hp', hq', hr', hp, hq, hr, hs]
      ring

theorem join_lt_iff {x y : Halves w} : x.join < y.join ↔ x.hi < y.hi ∨ x.hi = y.hi ∧ x.lo < y.lo := by
  have hx := x.lo.isLt
  have hy := y.lo.isLt
  rw [BitVec.lt_def, BitVec.lt_def, BitVec.lt_def, ← BitVec.toNat_inj, toNat_join, toNat_join]
  rcases lt_trichotomy x.hi.toNat y.hi.toNat with hlt | heq | hgt
  · have hmul := Nat.mul_le_mul_right (2 ^ w) (Nat.succ_le_of_lt hlt)
    rw [Nat.succ_mul] at hmul
    omega
  · rw [heq]
    omega
  · have hmul := Nat.mul_le_mul_right (2 ^ w) (Nat.succ_le_of_lt hgt)
    rw [Nat.succ_mul] at hmul
    omega

theorem join_le_iff {x y : Halves w} : x.join ≤ y.join ↔ x.hi < y.hi ∨ x.hi = y.hi ∧ x.lo ≤ y.lo := by
  rw [BitVec.le_def, ← not_lt, ← BitVec.lt_def, join_lt_iff, BitVec.lt_def, BitVec.lt_def, BitVec.lt_def, BitVec.le_def, ← BitVec.toNat_inj,
    ← BitVec.toNat_inj]
  omega

section Arithmetic

variable (hw : 0 < w) (x y : Halves w)
include hw

theorem join_add : (⟨x.hi + y.hi + carry (x.lo + y.lo < x.lo), x.lo + y.lo⟩ : Halves w).join = x.join + y.join := by
  apply BitVec.eq_of_toNat_eq
  have hx := x.lo.isLt
  have hy := y.lo.isLt
  have hcarry : x.lo + y.lo < x.lo ↔ 2 ^ w ≤ x.lo.toNat + y.lo.toNat := by
    rw [BitVec.lt_def, BitVec.toNat_add]
    constructor
    · intro h
      by_contra hlt
      rw [Nat.mod_eq_of_lt (by omega)] at h
      omega
    · intro h
      rw [Nat.mod_eq_sub_mod h, Nat.mod_eq_of_lt (by omega)]
      omega
  have hlow : (if x.lo + y.lo < x.lo then 1 else 0) * 2 ^ w + (x.lo.toNat + y.lo.toNat) % 2 ^ w = x.lo.toNat + y.lo.toNat := by
    split
    · rename_i h
      rw [hcarry] at h
      rw [Nat.mod_eq_sub_mod h, Nat.mod_eq_of_lt (by omega)]
      omega
    · rename_i h
      rw [hcarry] at h
      rw [Nat.mod_eq_of_lt (by omega)]
      omega
  have hsum : x.hi.toNat * 2 ^ w + x.lo.toNat + (y.hi.toNat * 2 ^ w + y.lo.toNat) =
      (x.hi.toNat + y.hi.toNat + if x.lo + y.lo < x.lo then 1 else 0) * 2 ^ w + (x.lo.toNat + y.lo.toNat) % 2 ^ w := by
    calc x.hi.toNat * 2 ^ w + x.lo.toNat + (y.hi.toNat * 2 ^ w + y.lo.toNat)
        = (x.hi.toNat + y.hi.toNat) * 2 ^ w + (x.lo.toNat + y.lo.toNat) := by ring
      _ = _ := by
        conv_lhs => rw [← hlow]
        ring
  rw [BitVec.toNat_add, toNat_join, toNat_join, toNat_join, hsum, pow_add,
    split_mod (Nat.mod_lt _ (Nat.two_pow_pos w))]
  simp only [BitVec.toNat_add, toNat_carry hw, Nat.mod_add_mod]

theorem join_sub : (⟨x.hi - y.hi - carry (x.lo < y.lo), x.lo - y.lo⟩ : Halves w).join = x.join - y.join := by
  rw [eq_sub_iff_add_eq, ← join_add hw]
  have hback : x.lo - y.lo + y.lo = x.lo := sub_add_cancel _ _
  have hborrow : x.lo < x.lo - y.lo ↔ x.lo < y.lo := by
    have hx := x.lo.isLt
    have hy := y.lo.isLt
    rw [BitVec.lt_def, BitVec.lt_def, BitVec.toNat_sub]
    constructor
    · intro h
      by_contra hle
      rw [show 2 ^ w - y.lo.toNat + x.lo.toNat = x.lo.toNat - y.lo.toNat + 2 ^ w by omega, Nat.add_mod_right,
        Nat.mod_eq_of_lt (by omega)] at h
      omega
    · intro h
      rw [Nat.mod_eq_of_lt (by omega)]
      omega
  congr 2
  simp only [hback, hborrow]
  abel

theorem join_neg : (⟨~~~x.hi + carry (~~~x.lo + 1 = 0), ~~~x.lo + 1⟩ : Halves w).join = -x.join := by
  rw [eq_neg_iff_add_eq_zero, ← join_add hw, join_eq_zero]
  have hlow : ~~~x.lo + 1 + x.lo = 0 := by
    rw [show ~~~x.lo + 1 = -x.lo from (BitVec.neg_eq_not_add x.lo).symm]
    exact neg_add_cancel _
  refine ⟨?_, hlow⟩
  have hhigh : ~~~x.hi = -x.hi - 1 := by
    rw [show -x.hi = ~~~x.hi + 1 from BitVec.neg_eq_not_add x.hi, add_sub_cancel_right]
  dsimp only
  rw [hlow, hhigh]
  by_cases hz : ~~~x.lo + 1 = 0
  · rw [carry, carry, if_pos hz, if_neg (by rw [hz]; exact lt_irrefl 0)]
    abel
  · have hpos : (0 : BitVec w) < ~~~x.lo + 1 := by
      rw [BitVec.lt_def]
      exact Nat.pos_of_ne_zero fun h => hz (BitVec.eq_of_toNat_eq h)
    rw [carry, carry, if_neg hz, if_pos hpos]
    abel

end Arithmetic

section Shifts

variable {n : ℕ} (x : Halves w)

theorem join_shl (hn : 0 < n) (hw : n < w) : (⟨x.hi <<< n ||| x.lo >>> (w - n), x.lo <<< n⟩ : Halves w).join = x.join <<< n := by
  apply BitVec.eq_of_getLsbD_eq
  intro i hi
  simp only [join, BitVec.getLsbD_append, BitVec.getLsbD_shiftLeft, BitVec.getLsbD_or, BitVec.getLsbD_ushiftRight]
  by_cases hlow : i < w
  · simp [hlow, hi, show i - n < w by omega]
  · rw [if_neg hlow]
    by_cases hpart : i - n < w
    · rw [if_pos hpart, show w - n + (i - w) = i - n by omega]
      simp [show i - w < n by omega, show ¬ i < n by omega, hi]
    · rw [if_neg hpart, BitVec.getLsbD_of_ge x.lo _ (by omega), show i - w - n = i - n - w by omega]
      simp [show ¬ i - w < n by omega, show ¬ i < n by omega, hi, show i - w < w by omega]

theorem join_shl_word (hn : w ≤ n) : (⟨x.lo <<< (n - w), 0#w⟩ : Halves w).join = x.join <<< n := by
  apply BitVec.eq_of_getLsbD_eq
  intro i hi
  simp only [join, BitVec.getLsbD_append, BitVec.getLsbD_shiftLeft, BitVec.getLsbD_zero]
  by_cases hlow : i < w
  · simp [hlow, show i < n by omega]
  · rw [if_neg hlow, if_pos (by omega : i - n < w), show i - w - (n - w) = i - n by omega]
    simp [hi, show i - w < w by omega, show i - w < n - w ↔ i < n by omega]

theorem join_shr (hn : 0 < n) (hw : n < w) : (⟨x.hi >>> n, x.lo >>> n ||| x.hi <<< (w - n)⟩ : Halves w).join = x.join >>> n := by
  apply BitVec.eq_of_getLsbD_eq
  intro i hi
  simp only [join, BitVec.getLsbD_append, BitVec.getLsbD_shiftLeft, BitVec.getLsbD_or, BitVec.getLsbD_ushiftRight]
  by_cases hlow : i < w
  · rw [if_pos hlow]
    by_cases hpart : n + i < w
    · simp [hpart, show i < w - n by omega]
    · rw [if_neg hpart, BitVec.getLsbD_of_ge x.lo _ (by omega), show i - (w - n) = n + i - w by omega]
      simp [hlow, show ¬ i < w - n by omega]
  · rw [if_neg hlow, if_neg (by omega), show n + (i - w) = n + i - w by omega]

theorem join_shr_word (hn : w ≤ n) : (⟨0#w, x.hi >>> (n - w)⟩ : Halves w).join = x.join >>> n := by
  apply BitVec.eq_of_getLsbD_eq
  intro i hi
  simp only [join, BitVec.getLsbD_append, BitVec.getLsbD_ushiftRight, BitVec.getLsbD_zero]
  by_cases hlow : i < w
  · rw [if_pos hlow, if_neg (by omega), show n - w + i = n + i - w by omega]
  · rw [if_neg hlow, if_neg (by omega), BitVec.getLsbD_of_ge x.hi _ (by omega)]

end Shifts

end Halves

end Cc370.Lib
