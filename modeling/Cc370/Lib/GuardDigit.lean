import Cc370.Lib.HexFloat
import Cc370.Lib.KeptDigits

/-! A sum of hexadecimal fractions of `D` digits: the one with the lower exponent keeps one digit of those shifted out,
and the sum is normalised. -/

namespace Cc370.HexFloat

open Lib KeptDigits

/-- The fraction under another exponent, with a guard digit. -/
def aligned (e : ℤ) (h : HexFloat) : ℕ := h.frac * 16 / 16 ^ (e - h.exp).toNat

/-- A sum with a guard digit as a number of `D` digits; a carry moves it to the right. -/
def renormal (D : ℕ) (e : ℤ) (m : ℕ) : HexFloat :=
  if 16 ^ (D + 1) ≤ m then ⟨e + 1, m / 16 ^ 2⟩
  else ⟨e - (D + 1 - len 16 m : ℕ), m * 16 ^ (D + 1 - len 16 m) / 16⟩

variable {D m : ℕ} {e : ℤ} {h : HexFloat}

theorem two_pow_digits (D : ℕ) : 2 ^ (4 * D) = 16 ^ D := by
  rw [pow_mul]
  norm_num

/-- What is kept of a fraction is the part of the number before the guard digit's end. -/
theorem aligned_floor (he : h.exp ≤ e) : (aligned e h : ℤ) = ⌊h.value (4 * D) * 16 ^ (D + 1 - e : ℤ)⌋ := by
  have hshift : ((e - h.exp).toNat : ℤ) = e - h.exp := Int.toNat_of_nonneg (by omega)
  have hpow : (2 : ℚ) ^ (4 * D) = 16 ^ (D : ℤ) := by
    rw [zpow_natCast]
    exact_mod_cast two_pow_digits D
  have hvalue : h.value (4 * D) * 16 ^ (D + 1 - e : ℤ) = ((h.frac * 16 : ℕ) : ℤ) / ((16 ^ (e - h.exp).toNat : ℕ) : ℚ) := by
    have hsixteen : (16 : ℚ) ≠ 0 := by norm_num
    rw [value, hpow]
    push_cast
    rw [← zpow_natCast (16 : ℚ) (e - h.exp).toNat, hshift, div_mul_eq_mul_div, div_mul_eq_mul_div, div_eq_div_iff (by positivity) (by positivity),
      mul_assoc, mul_assoc, mul_assoc, ← zpow_add₀ hsixteen, ← zpow_add₀ hsixteen, ← zpow_one_add₀ hsixteen]
    congr 2
    ring
  rw [hvalue, Rat.floor_intCast_div_natCast, aligned]
  norm_cast

theorem renormal_normal (hD : 0 < D) (hm : m ≠ 0) (hlt : m < 16 ^ (D + 2)) : (renormal D e m).Normal (4 * D) := by
  obtain ⟨d, rfl⟩ := Nat.exists_eq_succ_of_ne_zero hD.ne'
  have hpos := Nat.pow_pos (n := d) (show 0 < 16 by decide)
  rw [Normal, two_pow_digits, renormal]
  simp only [Nat.succ_eq_add_one, pow_succ] at *
  split
  · rename_i hcarry
    dsimp only
    omega
  · rename_i hcarry
    have hlow := pow_le (b := 16) (by decide) hm
    have hhigh := lt_pow_len (b := 16) (m := m) (by decide)
    have hlen := len_pos (b := 16) hm
    have hle : len 16 m ≤ d + 2 := by
      have hpow := (Nat.pow_lt_pow_iff_right (by decide)).mp (hlow.trans_lt (by rw [pow_succ, pow_succ]; omega : m < 16 ^ (d + 2)))
      omega
    dsimp only
    generalize len 16 m = n at *
    have hupper : 16 ^ n * 16 ^ (d + 1 + 1 - n) = 16 ^ d * 16 * 16 := by
      rw [← pow_add, show n + (d + 1 + 1 - n) = d + 1 + 1 by omega, pow_succ, pow_succ]
    have hlower : 16 ^ (n - 1) * 16 ^ (d + 1 + 1 - n) = 16 ^ d * 16 := by
      rw [← pow_add, show n - 1 + (d + 1 + 1 - n) = d + 1 by omega, pow_succ]
    have hge := Nat.mul_le_mul_right (16 ^ (d + 1 + 1 - n)) hlow
    have hless := Nat.mul_lt_mul_of_pos_right hhigh (Nat.pow_pos (n := d + 1 + 1 - n) (show 0 < 16 by decide))
    rw [hlower] at hge
    rw [hupper] at hless
    omega

/-- A sum is exact that needs no guard digit, or leaves the first digit free. -/
theorem renormal_value (hlt : m < 16 ^ (D + 1)) (hguard : 16 ∣ m ∨ m < 16 ^ D) : (renormal D e m).value (4 * D) = m / 16 ^ (D + 1) * 16 ^ e := by
  have hsixteen : (16 : ℚ) ≠ 0 := by norm_num
  have hpow : (2 : ℚ) ^ (4 * D) = 16 ^ D := by exact_mod_cast two_pow_digits D
  have hexact : 16 ∣ m * 16 ^ (D + 1 - len 16 m) := by
    rcases hguard with hguard | hsmall
    · exact Dvd.dvd.mul_right hguard _
    · apply Dvd.dvd.mul_left
      apply dvd_pow_self
      by_cases hm : m = 0
      · rw [hm, len, Nat.digits_zero, List.length_nil]
        omega
      · have hlow := pow_le (b := 16) (by decide) hm
        have hexp := (Nat.pow_lt_pow_iff_right (by decide)).mp (hlow.trans_lt hsmall)
        omega
  rw [renormal, if_neg (not_le.mpr hlt), value, hpow]
  dsimp only
  obtain ⟨q, hq⟩ := hexact
  have hcast : (m : ℚ) * 16 ^ (D + 1 - len 16 m) = 16 * q := by exact_mod_cast hq
  rw [hq, Nat.mul_div_cancel_left q (by decide), zpow_sub₀ hsixteen, zpow_natCast, div_mul_div_comm, div_mul_eq_mul_div,
    div_eq_div_iff (by positivity) (by positivity)]
  calc (q : ℚ) * 16 ^ e * 16 ^ (D + 1) = 16 * q * (16 ^ e * 16 ^ D) := by ring
    _ = m * 16 ^ (D + 1 - len 16 m) * (16 ^ e * 16 ^ D) := by rw [hcast]
    _ = m * 16 ^ e * (16 ^ D * 16 ^ (D + 1 - len 16 m)) := by ring

end Cc370.HexFloat
