import Cc370.Lib.Limbs

/-! A number kept to so many digits of a base: half of the last one is added, and the rest dropped. -/

namespace Cc370.Lib.KeptDigits

open Cc370.Limbs

variable (b D m : ℕ)

def len : ℕ := (b.digits m).length

/-- The digits that are left when `d` are dropped. -/
def halved (d : ℕ) : ℕ := (m + b / 2 * b ^ (d - 1)) / b ^ d

def rounded : ℕ := if len b m ≤ D then m else halved b m (len b m - D) * b ^ (len b m - D)

/-- The digits that are kept, and the number of those before the point. -/
def kept : ℕ × ℕ :=
  if len b m ≤ D then (m * b ^ (D - len b m), len b m)
  else if halved b m (len b m - D) < b ^ D then (halved b m (len b m - D), len b m)
  else (halved b m (len b m - D) / b, len b m + 1)

variable {b D m}

theorem lt_pow_len (hb : 1 < b) : m < b ^ len b m := Nat.lt_base_pow_length_digits hb

theorem pow_le (hb : 1 < b) (hm : m ≠ 0) : b ^ (len b m - 1) ≤ m := pow_le_digits hb (Nat.digits_ne_nil_iff_ne_zero.mpr hm)

theorem len_pos (hm : m ≠ 0) : 0 < len b m := List.length_pos_of_ne_nil (Nat.digits_ne_nil_iff_ne_zero.mpr hm)

theorem len_eq (hb : 1 < b) {n : ℕ} (hlow : b ^ n ≤ m) (hhigh : m < b ^ (n + 1)) : len b m = n + 1 := by
  have hm : m ≠ 0 := (Nat.pow_pos (Nat.lt_of_succ_lt hb)).trans_le hlow |>.ne'
  have h1 := lt_pow_len (m := m) hb
  have h2 := pow_le hb hm
  have h3 := (Nat.pow_lt_pow_iff_right hb).mp (hlow.trans_lt h1)
  have h4 := (Nat.pow_lt_pow_iff_right hb).mp (h2.trans_lt hhigh)
  omega

theorem kept_len_le : (kept b D m).2 ≤ len b m + 1 := by
  rw [kept]
  split_ifs <;> simp

variable (hb : 1 < b)
include hb

theorem half_le (d : ℕ) (hd : 0 < d) : b / 2 * b ^ (d - 1) < b ^ d := by
  have hsplit : b ^ d = b * b ^ (d - 1) := by rw [← pow_succ', Nat.sub_add_cancel hd]
  rw [hsplit]
  exact Nat.mul_lt_mul_of_pos_right (Nat.div_lt_self (by omega) (by decide)) (Nat.pow_pos (by omega))

/-- Digits that are all zero are dropped without loss. -/
theorem rounded_of_dvd (h : b ^ (len b m - D) ∣ m) : rounded b D m = m := by
  rw [rounded]
  split
  · rfl
  · rename_i hlen
    obtain ⟨k, hk⟩ := h
    have hhalf := half_le hb (len b m - D) (by omega)
    generalize len b m - D = d at hk hhalf
    rw [halved, hk, Nat.mul_add_div (Nat.pow_pos (by omega)), Nat.div_eq_of_lt hhalf, Nat.add_zero, Nat.mul_comm]

theorem rounded_of_few {k j : ℕ} (hk : k < b ^ D) (hm : m = k * b ^ j) : rounded b D m = m := by
  apply rounded_of_dvd hb
  by_cases h0 : m = 0
  · rw [h0]
    exact dvd_zero _
  · have hle := pow_le hb h0
    have hlt : m < b ^ (D + j) := by
      rw [hm, pow_add]
      exact Nat.mul_lt_mul_of_pos_right hk (Nat.pow_pos (by omega))
    have hexp := (Nat.pow_lt_pow_iff_right hb).mp (hle.trans_lt hlt)
    have hpos := len_pos (b := b) h0
    rw [hm] at hexp hpos ⊢
    exact (pow_dvd_pow b (by omega)).trans (dvd_mul_left _ k)

section Bounds

variable (hlen : D < len b m)
include hlen

theorem pow_le_halved (hD : 0 < D) : b ^ (D - 1) ≤ halved b m (len b m - D) := by
  have hm : m ≠ 0 := by
    rintro rfl
    simp [len] at hlen
  have hle := pow_le hb hm
  rw [halved, Nat.le_div_iff_mul_le (Nat.pow_pos (by omega)), ← pow_add, show D - 1 + (len b m - D) = len b m - 1 by omega]
  omega

theorem halved_le : halved b m (len b m - D) ≤ b ^ D := by
  have hlt := lt_pow_len (m := m) hb
  have hhalf := half_le hb (len b m - D) (by omega)
  have hsplit : b ^ len b m = b ^ D * b ^ (len b m - D) := by rw [← pow_add, Nat.add_sub_cancel' hlen.le]
  rw [← Nat.lt_succ_iff, halved, Nat.div_lt_iff_lt_mul (Nat.pow_pos (by omega)), Nat.succ_mul, ← hsplit]
  omega

end Bounds

/-- The kept digits begin with one that is not zero, and stand for the rounded number. -/
theorem kept_spec (hD : 0 < D) (hm : m ≠ 0) : b ^ (D - 1) ≤ (kept b D m).1 ∧ (kept b D m).1 < b ^ D ∧
    (kept b D m).1 * b ^ (kept b D m).2 = rounded b D m * b ^ D := by
  have hpos := len_pos (b := b) hm
  rw [kept, rounded]
  split
  · rename_i hlen
    have hsplit : b ^ D = b ^ len b m * b ^ (D - len b m) := by rw [← pow_add, Nat.add_sub_cancel' hlen]
    refine ⟨?_, ?_, ?_⟩
    · rw [show D - 1 = len b m - 1 + (D - len b m) by omega, pow_add]
      exact Nat.mul_le_mul_right _ (pow_le hb hm)
    · rw [hsplit]
      exact Nat.mul_lt_mul_of_pos_right (lt_pow_len hb) (Nat.pow_pos (by omega))
    · rw [hsplit]
      ring
  · rename_i hlen
    have hlow := pow_le_halved hb (not_le.mp hlen) hD
    have hhigh := halved_le hb (not_le.mp hlen)
    have hsplit : b ^ len b m = b ^ D * b ^ (len b m - D) := by rw [← pow_add, Nat.add_sub_cancel' (not_le.mp hlen).le]
    split
    · rename_i hlt
      refine ⟨hlow, hlt, ?_⟩
      rw [hsplit]
      ring
    · rename_i hge
      have heq : halved b m (len b m - D) = b ^ D := by omega
      have hdiv : b ^ D / b = b ^ (D - 1) := by
        rw [← Nat.sub_add_cancel hD, pow_succ, Nat.mul_div_cancel _ (by omega), Nat.add_sub_cancel]
      rw [heq, hdiv]
      refine ⟨le_rfl, Nat.pow_lt_pow_right hb (by omega), ?_⟩
      rw [← pow_add, show D - 1 + (len b m + 1) = len b m + D by omega, pow_add, hsplit]

end Cc370.Lib.KeptDigits
