import Mathlib.Data.Nat.Notation
import Mathlib.Logic.Function.Iterate
import Mathlib.Tactic.Ring

/-! Restoring division: one bit of the quotient a round, the highest first. -/

namespace Cc370.Lib.Restoring

/-- The dividend moves up by a bit a round, into the remainder. -/
structure State where
  rem : ℕ
  num : ℕ
  quo : ℕ

variable (w d : ℕ)

def shifted (s : State) : ℕ := 2 * s.rem + s.num / 2 ^ (w - 1)

def step (s : State) : State where
  rem := if d ≤ shifted w s then shifted w s - d else shifted w s
  num := 2 * s.num % 2 ^ w
  quo := if d ≤ shifted w s then 2 * s.quo + 1 else 2 * s.quo

/-- What `k` rounds over `n` leave. -/
structure Holds (n k : ℕ) (s : State) : Prop where
  rem_lt : s.rem < d
  rem_small : s.rem < 2 ^ k
  quo_small : s.quo < 2 ^ k
  num_eq : s.num = n * 2 ^ k % 2 ^ w
  split : n / 2 ^ (w - k) = s.quo * d + s.rem

variable {w d} {n k : ℕ} {s : State}

theorem holds_init (hd : 0 < d) (hn : n < 2 ^ w) : Holds w d n 0 ⟨0, n, 0⟩ where
  rem_lt := hd
  rem_small := Nat.one_pos
  quo_small := Nat.one_pos
  num_eq := by rw [pow_zero, Nat.mul_one, Nat.mod_eq_of_lt hn]
  split := by rw [Nat.sub_zero, Nat.div_eq_of_lt hn, Nat.zero_mul, Nat.zero_add]

/-- The bit that leaves the dividend in a round is its next one. -/
theorem top_bit (hk : k < w) : n * 2 ^ k % 2 ^ w / 2 ^ (w - 1) = n / 2 ^ (w - (k + 1)) % 2 := by
  obtain ⟨m, rfl⟩ := Nat.exists_eq_add_of_lt hk
  rw [show k + m + 1 - 1 = m + k by omega, show k + m + 1 - (k + 1) = m by omega, show k + m + 1 = m + 1 + k by omega, pow_add _ (m + 1) k,
    pow_add _ m k, Nat.mul_mod_mul_right, Nat.mul_div_mul_right _ _ (Nat.two_pow_pos k), pow_succ, Nat.mod_mul_right_div_self]

theorem shifted_eq (hk : k < w) (h : Holds w d n k s) : n / 2 ^ (w - (k + 1)) = 2 * s.quo * d + shifted w s := by
  have hhalf : n / 2 ^ (w - k) = n / 2 ^ (w - (k + 1)) / 2 := by
    rw [Nat.div_div_eq_div_mul, ← pow_succ, show w - (k + 1) + 1 = w - k by omega]
  have hdiv := Nat.div_add_mod (n / 2 ^ (w - (k + 1))) 2
  rw [← hhalf, h.split, ← top_bit hk, ← h.num_eq] at hdiv
  rw [← hdiv, shifted]
  ring

theorem shifted_small (hk : k < w) (h : Holds w d n k s) : shifted w s < 2 ^ (k + 1) ∧ shifted w s < 2 * d := by
  have hbit : s.num / 2 ^ (w - 1) < 2 := by
    rw [h.num_eq, top_bit hk]
    exact Nat.mod_lt _ two_pos
  have hsmall := h.rem_small
  have hlt := h.rem_lt
  rw [shifted, pow_succ]
  omega

theorem holds_step (hk : k < w) (h : Holds w d n k s) : Holds w d n (k + 1) (step w d s) := by
  obtain ⟨hsmall, hlt⟩ := shifted_small hk h
  have hquo := h.quo_small
  have hsplit := shifted_eq hk h
  have hnum : 2 * s.num % 2 ^ w = n * 2 ^ (k + 1) % 2 ^ w := by
    rw [h.num_eq, Nat.mul_mod_mod, pow_succ]
    congr 1
    ring
  rw [step]
  split
  · rename_i hle
    refine ⟨?_, ?_, ?_, hnum, ?_⟩
    · dsimp only
      omega
    · dsimp only
      omega
    · dsimp only
      rw [pow_succ]
      omega
    · rw [hsplit, Nat.add_mul, Nat.one_mul]
      dsimp only
      omega
  · rename_i hgt
    refine ⟨not_le.mp hgt, hsmall, ?_, hnum, hsplit⟩
    dsimp only
    rw [pow_succ]
    omega

theorem holds_run (hd : 0 < d) (hn : n < 2 ^ w) (hk : k ≤ w) : Holds w d n k ((step w d)^[k] ⟨0, n, 0⟩) := by
  induction k with
  | zero => exact holds_init hd hn
  | succ k ih =>
    rw [Function.iterate_succ_apply']
    exact holds_step hk (ih (by omega))

/-- After as many rounds as the dividend has bits, the quotient and the remainder are there. -/
theorem run_full (hd : 0 < d) (hn : n < 2 ^ w) :
    ((step w d)^[w] ⟨0, n, 0⟩).quo = n / d ∧ ((step w d)^[w] ⟨0, n, 0⟩).rem = n % d := by
  have h := holds_run hd hn (le_refl w)
  have hsplit := h.split
  rw [Nat.sub_self, pow_zero, Nat.div_one] at hsplit
  have hlt := h.rem_lt
  generalize (step w d)^[w] ⟨0, n, 0⟩ = s at hsplit hlt
  rw [Nat.add_comm, Nat.mul_comm] at hsplit
  obtain ⟨hquo, hrem⟩ := (Nat.div_mod_unique hd).mpr ⟨hsplit.symm, hlt⟩
  exact ⟨hquo.symm, hrem.symm⟩

end Cc370.Lib.Restoring
