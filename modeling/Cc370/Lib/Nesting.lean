import Mathlib.Algebra.BigOperators.Group.List.Basic
import Mathlib.Data.List.Infix
import Mathlib.Logic.Function.Iterate
import Mathlib.Tactic.Ring
import Mathlib.Tactic.Linarith

namespace Cc370.Lib

variable {F S : Type*} (level left : F → ℕ) (L K : ℕ)

/-- What a step does to the calls that are running: the innermost ones end, or the innermost one uses up some of what
is left to it, and may then call at a deeper level. -/
inductive Nested : List F → List F → Prop
  | ret {f : F} {fs gs : List F} : gs <:+ fs → Nested (f :: fs) gs
  | stay {f g : F} {fs : List F} : level g = level f → left g < left f → Nested (f :: fs) (g :: fs)
  | call {f g h : F} {fs : List F} : level g = level f → left g < left f → level f < level h → level h ≤ L →
      left h < K → Nested (f :: fs) (h :: g :: fs)

def weight (f : F) : ℕ := (left f + 1) * (K + 1) ^ (L - level f)

def weights (fs : List F) : ℕ := (fs.map (weight level left L K)).sum

variable {level left L K}

theorem weight_pos (f : F) : 0 < weight level left L K f := by
  apply Nat.mul_pos
  · omega
  · exact Nat.pow_pos (by omega)

theorem weights_suffix {fs gs : List F} (h : gs <:+ fs) : weights level left L K gs ≤ weights level left L K fs := by
  obtain ⟨hs, rfl⟩ := h
  simp [weights]

theorem weight_stay {f g : F} (hl : level g = level f) (hg : left g < left f) :
    weight level left L K g + (K + 1) ^ (L - level f) ≤ weight level left L K f := by
  have h := Nat.mul_le_mul_right ((K + 1) ^ (L - level f)) (show left g + 2 ≤ left f + 1 by omega)
  simp only [weight, hl]
  calc
    (left g + 1) * (K + 1) ^ (L - level f) + (K + 1) ^ (L - level f)
        = (left g + 2) * (K + 1) ^ (L - level f) := by ring
    _ ≤ _ := h

theorem weight_call {f h : F} (hlev : level f < level h) (hL : level h ≤ L) (hleft : left h < K) :
    weight level left L K h < (K + 1) ^ (L - level f) := by
  have hpow : (K + 1) ^ (L - level h) ≤ (K + 1) ^ (L - level f - 1) := Nat.pow_le_pow_right (by omega) (by omega)
  have hpos : 0 < (K + 1) ^ (L - level f - 1) := Nat.pow_pos (by omega)
  calc
    weight level left L K h ≤ K * (K + 1) ^ (L - level f - 1) := Nat.mul_le_mul (by omega) hpow
    _ < (K + 1) * (K + 1) ^ (L - level f - 1) := Nat.mul_lt_mul_of_pos_right (by omega) hpos
    _ = (K + 1) ^ (L - level f - 1 + 1) := by rw [Nat.pow_succ, Nat.mul_comm]
    _ = (K + 1) ^ (L - level f) := by
      congr 1
      omega

theorem Nested.weights_lt {fs gs : List F} (h : Nested level left L K fs gs) :
    weights level left L K gs < weights level left L K fs := by
  cases h with
  | @ret f fs gs hs =>
    have hle : weights level left L K gs ≤ weights level left L K fs := weights_suffix hs
    have hpos : 0 < weight level left L K f := weight_pos f
    simp only [weights, List.map_cons, List.sum_cons] at *
    omega
  | @stay f g fs hl hg =>
    have hle : weight level left L K g + (K + 1) ^ (L - level f) ≤ weight level left L K f := weight_stay hl hg
    have hpos : 0 < (K + 1) ^ (L - level f) := Nat.pow_pos (by omega)
    simp only [weights, List.map_cons, List.sum_cons]
    omega
  | @call f g h fs hl hg hlev hL hleft =>
    have hle : weight level left L K g + (K + 1) ^ (L - level f) ≤ weight level left L K f := weight_stay hl hg
    have hlt : weight level left L K h < (K + 1) ^ (L - level f) := weight_call hlev hL hleft
    simp only [weights, List.map_cons, List.sum_cons]
    omega

/-- A machine of nested calls stops. -/
theorem Nested.halts {frames : S → List F} {step : S → S}
    (hstep : ∀ s, frames s ≠ [] → Nested level left L K (frames s) (frames (step s))) (s : S) :
    ∃ n, frames (step^[n] s) = [] := by
  generalize hw : weights level left L K (frames s) = w
  induction w using Nat.strong_induction_on generalizing s with
  | _ w ih =>
    by_cases hs : frames s = []
    · exact ⟨0, hs⟩
    · obtain ⟨n, hn⟩ := ih _ (hw ▸ (hstep s hs).weights_lt) (step s) rfl
      exact ⟨n + 1, by rwa [Function.iterate_succ_apply]⟩

end Cc370.Lib
