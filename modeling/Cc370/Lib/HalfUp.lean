import Mathlib.Algebra.Order.Round
import Mathlib.Algebra.Order.Field.Rat
import Mathlib.Data.Rat.Floor
import Mathlib.Tactic.FieldSimp
import Mathlib.Tactic.Linarith
import Mathlib.Tactic.Ring

namespace Cc370.HalfUp

/-- The nearest integer, halves away from zero. -/
def nearest (v : ℚ) : ℤ := if v < 0 then -round (-v) else round v

theorem nearest_of_nonneg {v : ℚ} (h : 0 ≤ v) : nearest v = round v := if_neg (not_lt.mpr h)

theorem round_nonneg {v : ℚ} (h : 0 ≤ v) : 0 ≤ round v := by
  rw [round_eq]
  exact Int.floor_nonneg.mpr (by linarith)

theorem nearest_neg {v : ℚ} (h : 0 ≤ v) : nearest (-v) = -round v := by
  rcases h.eq_or_lt with rfl | hpos
  · simp [nearest]
  · rw [nearest, if_pos (neg_neg_of_pos hpos), neg_neg]

theorem round_eq_zero {v : ℚ} (h : 0 ≤ v) : round v = 0 ↔ v < 1 / 2 := by
  rw [round_eq_zero_iff, Set.mem_Ico]
  exact and_iff_right (by linarith)

/-- Half is rounded up when what a division leaves is at least what it lacks. -/
theorem round_div (n : ℕ) {d : ℕ} (hd : 0 < d) : round ((n : ℚ) / d) = ((n / d + if d ≤ 2 * (n % d) then 1 else 0 : ℕ) : ℤ) := by
  have hd' : (0 : ℚ) < d := Nat.cast_pos.mpr hd
  have hsplit : (n : ℚ) = d * (n / d : ℕ) + (n % d : ℕ) := by
    exact_mod_cast (Nat.div_add_mod n d).symm
  have hlt : ((n % d : ℕ) : ℚ) < d := Nat.cast_lt.mpr (Nat.mod_lt n hd)
  rw [round_eq, Int.floor_eq_iff, hsplit]
  generalize n / d = q
  generalize n % d = r at hlt
  rw [add_div, mul_div_cancel_left₀ _ hd'.ne']
  split
  · rename_i hhalf
    have hge : (d : ℚ) ≤ 2 * r := by exact_mod_cast hhalf
    have hlow : (1 : ℚ) / 2 ≤ r / d := by
      rw [le_div_iff₀ hd']
      linarith
    have hhigh : (r : ℚ) / d < 1 := (div_lt_one hd').mpr hlt
    push_cast
    constructor <;> linarith
  · rename_i hhalf
    have hge : 2 * (r : ℚ) < d := by exact_mod_cast not_le.mp hhalf
    have hlow : (0 : ℚ) ≤ r / d := div_nonneg (Nat.cast_nonneg _) hd'.le
    have hhigh : (r : ℚ) / d < 1 / 2 := by
      rw [div_lt_iff₀ hd']
      linarith
    push_cast
    constructor <;> linarith

end Cc370.HalfUp
