import Mathlib.Algebra.Order.Field.Power
import Mathlib.Algebra.Order.Round
import Mathlib.Data.Rat.Floor
import Mathlib.Tactic.FieldSimp
import Mathlib.Tactic.Linarith
import Mathlib.Tactic.Positivity
import Mathlib.Tactic.Ring

namespace Cc370

/-- A positive number with a hexadecimal exponent, and a fraction of a given number of bits. -/
structure HexFloat where
  exp : ℤ
  frac : ℕ
deriving DecidableEq

namespace HexFloat

variable (p : ℕ)

def value (h : HexFloat) : ℚ := h.frac / 2 ^ p * 16 ^ h.exp

/-- The fraction begins with a hexadecimal digit that is not zero. -/
def Normal (h : HexFloat) : Prop := 2 ^ p ≤ 16 * h.frac ∧ h.frac < 2 ^ p

/-- No normal number is closer to `v`, and none as close is greater. -/
structure Nearest (v : ℚ) (h : HexFloat) : Prop where
  normal : h.Normal p
  closest : ∀ g : HexFloat, g.Normal p → |v - h.value p| ≤ |v - g.value p|
  ties : ∀ g : HexFloat, g.Normal p → |v - h.value p| = |v - g.value p| → g.value p ≤ h.value p

/-- The fraction of `v` under a given exponent, rounded; it may be a one. -/
def rounded (v : ℚ) (e : ℤ) : HexFloat :=
  let f := (round (v / 16 ^ e * 2 ^ p)).toNat
  if f = 2 ^ p then ⟨e + 1, f / 16⟩ else ⟨e, f⟩

variable {p} {v : ℚ} {e : ℤ}

theorem value_lt_of_exp_lt {h : HexFloat} (hn : h.Normal p) (he : h.exp < e) : h.value p < 16 ^ (e - 1) := by
  have hfrac : (h.frac : ℚ) / 2 ^ p < 1 := by
    rw [div_lt_one (by positivity)]
    exact_mod_cast hn.2
  have hpow : (16 : ℚ) ^ h.exp ≤ 16 ^ (e - 1) := zpow_le_zpow_right₀ (by norm_num) (by omega)
  calc h.value p < 1 * 16 ^ h.exp := mul_lt_mul_of_pos_right hfrac (by positivity)
    _ ≤ 16 ^ (e - 1) := by rwa [one_mul]

theorem le_value_of_lt_exp {h : HexFloat} (hn : h.Normal p) (he : e < h.exp) : 16 ^ e ≤ h.value p := by
  have hfrac : (1 : ℚ) / 16 ≤ h.frac / 2 ^ p := by
    rw [div_le_div_iff₀ (by norm_num) (by positivity), one_mul, mul_comm]
    exact_mod_cast hn.1
  have hpow : (16 : ℚ) ^ (e + 1) ≤ 16 ^ h.exp := zpow_le_zpow_right₀ (by norm_num) (by omega)
  calc (16 : ℚ) ^ e = 1 / 16 * 16 ^ (e + 1) := by
        rw [zpow_add_one₀ (by norm_num)]
        ring
    _ ≤ h.frac / 2 ^ p * 16 ^ h.exp := mul_le_mul hfrac hpow (by positivity) (by positivity)

/-- The integer that half is rounded up to is the nearest, and the greater one of two. -/
theorem round_nearest (x : ℚ) (z : ℤ) : |x - round x| ≤ |x - z| ∧ (|x - round x| = |x - z| → z ≤ round x) := by
  refine ⟨round_le x z, fun heq => ?_⟩
  by_contra hlt
  have hstep : round x + 1 ≤ z := Int.add_one_le_iff.mpr (not_le.mp hlt)
  have hstep' : (round x : ℚ) + 1 ≤ z := by exact_mod_cast hstep
  have hbelow : x < round x + 1 / 2 := by
    rw [round_eq]
    have hfloor := Int.lt_floor_add_one (x + 1 / 2)
    linarith
  have habove : (round x : ℚ) - 1 / 2 ≤ x := by
    rw [round_eq]
    have hfloor := Int.floor_le (x + 1 / 2)
    linarith
  have hle : |x - round x| ≤ 1 / 2 := abs_sub_round x
  rw [abs_of_nonpos (by linarith : x - (z : ℚ) ≤ 0)] at heq
  linarith

/-- The integers at a given exponent, as numbers. -/
def grid (p : ℕ) (e : ℤ) (z : ℚ) : ℚ := z / 2 ^ p * 16 ^ e

theorem grid_scaled (p : ℕ) (e : ℤ) (v : ℚ) : grid p e (v / 16 ^ e * 2 ^ p) = v := by
  rw [grid]
  field_simp

theorem grid_mono {y z : ℚ} : grid p e y ≤ grid p e z ↔ y ≤ z := by
  rw [grid, grid, mul_le_mul_iff_of_pos_right (by positivity), div_le_div_iff_of_pos_right (by positivity)]

theorem grid_distance (y z : ℚ) : |grid p e y - grid p e z| = |y - z| * (16 ^ e / 2 ^ p) := by
  have hfactor : grid p e y - grid p e z = (y - z) * (16 ^ e / 2 ^ p) := by
    rw [grid, grid]
    ring
  rw [hfactor, abs_mul, abs_of_pos (by positivity : (0 : ℚ) < 16 ^ e / 2 ^ p)]

theorem grid_closest (z : ℤ) : |v - grid p e (round (v / 16 ^ e * 2 ^ p))| ≤ |v - grid p e z| ∧
    (|v - grid p e (round (v / 16 ^ e * 2 ^ p))| = |v - grid p e z| → grid p e z ≤ grid p e (round (v / 16 ^ e * 2 ^ p))) := by
  obtain ⟨hclose, hties⟩ := round_nearest (v / 16 ^ e * 2 ^ p) z
  have hunit : (0 : ℚ) < 16 ^ e / 2 ^ p := by positivity
  have hdistance (y : ℚ) : |v - grid p e y| = |v / 16 ^ e * 2 ^ p - y| * (16 ^ e / 2 ^ p) := by
    have hd := grid_distance (p := p) (e := e) (v / 16 ^ e * 2 ^ p) y
    rwa [grid_scaled] at hd
  rw [hdistance, hdistance]
  constructor
  · exact mul_le_mul_of_nonneg_right hclose hunit.le
  · intro heq
    rw [grid_mono]
    exact_mod_cast hties (mul_right_cancel₀ hunit.ne' heq)

theorem grid_lower (hp : 4 ≤ p) : grid p e ((2 ^ (p - 4) : ℕ) : ℤ) = 16 ^ (e - 1) := by
  have hsplit : (2 : ℚ) ^ p = 2 ^ (p - 4) * 16 := by
    rw [show (16 : ℚ) = 2 ^ 4 by norm_num, ← pow_add, Nat.sub_add_cancel hp]
  rw [grid, zpow_sub_one₀ (by norm_num), hsplit]
  push_cast
  field_simp

theorem grid_upper : grid p e ((2 ^ p : ℕ) : ℤ) = 16 ^ e := by
  rw [grid]
  push_cast
  field_simp

variable (hp : 4 ≤ p) (hlow : 16 ^ (e - 1) ≤ v) (hhigh : v < 16 ^ e)
include hp hlow hhigh

theorem round_bounds : ((2 ^ (p - 4) : ℕ) : ℤ) ≤ round (v / 16 ^ e * 2 ^ p) ∧ round (v / 16 ^ e * 2 ^ p) ≤ ((2 ^ p : ℕ) : ℤ) := by
  have hle : (((2 ^ (p - 4) : ℕ) : ℤ) : ℚ) ≤ v / 16 ^ e * 2 ^ p := by
    rw [← grid_mono (p := p) (e := e), grid_scaled, grid_lower hp]
    exact hlow
  have hlt : v / 16 ^ e * 2 ^ p < (((2 ^ p : ℕ) : ℤ) : ℚ) := by
    rw [← not_le, ← grid_mono (p := p) (e := e), grid_scaled, grid_upper, not_le]
    exact hhigh
  rw [round_eq]
  constructor
  · rw [Int.le_floor]
    linarith
  · rw [← Int.lt_add_one_iff, Int.floor_lt]
    push_cast at hlt ⊢
    linarith

theorem rounded_value : (rounded p v e).value p = grid p e (round (v / 16 ^ e * 2 ^ p)) ∧ (rounded p v e).Normal p := by
  obtain ⟨hge, hle⟩ := round_bounds hp hlow hhigh
  have hsplit : 2 ^ p = 2 ^ (p - 4) * 16 := by
    rw [show 16 = 2 ^ 4 by norm_num, ← pow_add, Nat.sub_add_cancel hp]
  obtain ⟨f, hf⟩ := Int.eq_ofNat_of_zero_le ((Int.natCast_nonneg _).trans hge)
  rw [hf] at hge hle
  have hge' : 2 ^ (p - 4) ≤ f := Int.ofNat_le.mp hge
  have hle' : f ≤ 2 ^ p := Int.ofNat_le.mp hle
  rw [rounded, hf]
  simp only [Int.toNat_natCast]
  split
  · rename_i hone
    have hdiv : f / 16 = 2 ^ (p - 4) := by
      rw [hone, hsplit, Nat.mul_div_cancel _ (by norm_num)]
    have hupper := grid_upper (p := p) (e := e)
    have hlower := grid_lower (p := p) (e := e + 1) hp
    rw [add_sub_cancel_right] at hlower
    rw [hdiv, hone]
    refine ⟨?_, ?_, ?_⟩
    · rw [hupper, ← hlower]
      rfl
    · dsimp only
      omega
    · exact Nat.pow_lt_pow_right (by norm_num) (by omega)
  · rename_i hne
    refine ⟨rfl, ?_, lt_of_le_of_ne hle' hne⟩
    dsimp only
    omega

/-- Rounding the fraction under the exponent of `v` gives the nearest number, and the greater one where two are as close. -/
theorem rounded_nearest : Nearest p v (rounded p v e) := by
  obtain ⟨hvalue, hnormal⟩ := rounded_value hp hlow hhigh
  have hcompare (g : HexFloat) (hg : g.Normal p) : |v - (rounded p v e).value p| ≤ |v - g.value p| ∧
      (|v - (rounded p v e).value p| = |v - g.value p| → g.value p ≤ (rounded p v e).value p) := by
    rw [hvalue]
    rcases lt_trichotomy g.exp e with hlt | heq | hgt
    · -- below the exponent of `v`, the least number of that exponent is closer
      have hbelow := value_lt_of_exp_lt hg hlt
      have hend := (grid_closest (p := p) (v := v) (e := e) ((2 ^ (p - 4) : ℕ) : ℤ)).1
      rw [grid_lower hp, abs_of_nonneg (by linarith : (0 : ℚ) ≤ v - 16 ^ (e - 1))] at hend
      rw [abs_of_nonneg (by linarith : (0 : ℚ) ≤ v - g.value p)]
      exact ⟨by linarith, fun h => by linarith⟩
    · have hgrid : g.value p = grid p e ((g.frac : ℤ) : ℚ) := by
        rw [value, grid, heq]
        rfl
      rw [hgrid]
      exact grid_closest _
    · -- above it, the next power of sixteen is at least as close
      have habove := le_value_of_lt_exp hg hgt
      obtain ⟨hend, hties⟩ := grid_closest (p := p) (v := v) (e := e) ((2 ^ p : ℕ) : ℤ)
      rw [grid_upper, abs_of_nonpos (by linarith : v - (16 : ℚ) ^ e ≤ 0)] at hend hties
      rw [abs_of_nonpos (by linarith : v - g.value p ≤ 0)]
      refine ⟨by linarith, fun h => ?_⟩
      have hsame : g.value p = 16 ^ e := by linarith
      rw [hsame]
      apply hties
      linarith
  exact ⟨hnormal, fun g hg => (hcompare g hg).1, fun g hg => (hcompare g hg).2⟩

end HexFloat

end Cc370
