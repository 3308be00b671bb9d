import Mathlib.Algebra.Order.Ring.Nat
import Mathlib.Tactic.Ring

namespace Cc370.Guarded

/-- Multiply by `b`, `k` times, in words of `w`, and note whether a factor was ever beyond the limit. -/
def grow (w b limit : ℕ) : ℕ → ℕ × Bool → ℕ × Bool
  | 0, s => s
  | k + 1, s => grow w b limit k (s.1 * b % w, s.2 || limit < s.1)

/-- Multiply by `b`, `k` times, unless a factor is beyond the limit. -/
def build (w b limit : ℕ) : ℕ → ℕ → Option ℕ
  | 0, n => some n
  | k + 1, n => if limit < n then none else build w b limit k (n * b % w)

/-- A product by `b`, `k` times over, that stays within the limit until its last step. -/
def Within (b limit k n : ℕ) : Prop := k = 0 ∨ n * b ^ (k - 1) ≤ limit

instance (b limit k n : ℕ) : Decidable (Within b limit k n) := inferInstanceAs (Decidable (_ ∨ _))

variable {w b limit : ℕ}

theorem within_succ (hb : 0 < b) {k n : ℕ} : Within b limit (k + 1) n ↔ n ≤ limit ∧ Within b limit k (n * b) := by
  rw [Within, Within, Nat.add_sub_cancel]
  cases k with
  | zero => simp
  | succ k =>
    have hstep : n * b * b ^ k = n * b ^ (k + 1) := by ring
    simp only [Nat.add_one_ne_zero, false_or, Nat.add_sub_cancel, hstep]
    exact ⟨fun h => ⟨(Nat.le_mul_of_pos_right n (Nat.pow_pos hb)).trans h, h⟩, And.right⟩

theorem grow_of_within (hb : 0 < b) (hw : limit * b < w) {k n : ℕ} (h : Within b limit k n) (o : Bool) :
    grow w b limit k (n, o) = (n * b ^ k, o) := by
  induction k generalizing n with
  | zero => simp [grow]
  | succ k ih =>
    obtain ⟨hle, hrest⟩ := (within_succ hb).mp h
    have hmod : n * b % w = n * b := Nat.mod_eq_of_lt ((Nat.mul_le_mul_right b hle).trans_lt hw)
    have hflag : (o || decide (limit < n)) = o := by simp [hle]
    rw [grow, hmod, hflag, ih hrest]
    congr 1
    ring

theorem grow_flagged (k n : ℕ) : (grow w b limit k (n, true)).2 = true := by
  induction k generalizing n with
  | zero => rfl
  | succ k ih => exact ih _

theorem grow_of_not_within (hb : 0 < b) (hw : limit * b < w) {k n : ℕ} (h : ¬ Within b limit k n) (o : Bool) :
    (grow w b limit k (n, o)).2 = true := by
  induction k generalizing n o with
  | zero => exact absurd (Or.inl rfl) h
  | succ k ih =>
    rw [within_succ hb, not_and] at h
    rw [grow]
    by_cases hle : n ≤ limit
    · have hmod : n * b % w = n * b := Nat.mod_eq_of_lt ((Nat.mul_le_mul_right b hle).trans_lt hw)
      rw [hmod]
      exact ih (h hle) _
    · have hflag : (o || decide (limit < n)) = true := by simp [not_le.mp hle]
      rw [hflag]
      exact grow_flagged k _

theorem build_of_within (hb : 0 < b) (hw : limit * b < w) {k n : ℕ} (h : Within b limit k n) :
    build w b limit k n = some (n * b ^ k) := by
  induction k generalizing n with
  | zero => simp [build]
  | succ k ih =>
    obtain ⟨hle, hrest⟩ := (within_succ hb).mp h
    have hmod : n * b % w = n * b := Nat.mod_eq_of_lt ((Nat.mul_le_mul_right b hle).trans_lt hw)
    rw [build, if_neg (not_lt.mpr hle), hmod, ih hrest]
    congr 1
    ring

theorem build_of_not_within (hb : 0 < b) (hw : limit * b < w) {k n : ℕ} (h : ¬ Within b limit k n) : build w b limit k n = none := by
  induction k generalizing n with
  | zero => exact absurd (Or.inl rfl) h
  | succ k ih =>
    rw [within_succ hb, not_and] at h
    rw [build]
    split
    · rfl
    · rename_i hle
      have hmod : n * b % w = n * b := Nat.mod_eq_of_lt ((Nat.mul_le_mul_right b (not_lt.mp hle)).trans_lt hw)
      rw [hmod]
      exact ih (h (not_lt.mp hle))

theorem build_pos (hb : 0 < b) (hw : limit * b < w) {k n d : ℕ} (hn : 0 < n) (h : build w b limit k n = some d) : 0 < d := by
  by_cases hin : Within b limit k n
  · rw [build_of_within hb hw hin, Option.some.injEq] at h
    exact h ▸ Nat.mul_pos hn (Nat.pow_pos hb)
  · rw [build_of_not_within hb hw hin] at h
    exact absurd h nofun

end Cc370.Guarded
