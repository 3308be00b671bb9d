import Cc370.As370.EmitFloat

namespace Cc370.As370.Hfp

open Bn

theorem wrap32_wrap32 (z : ℤ) : wrap32 (wrap32 z) = wrap32 z := by
  simp [wrap32]

theorem wrap32_step (v : ℤ) (d : ℕ) : wrap32 (wrap32 v * 10 + d) = wrap32 (v * 10 + d) := by
  rw [wrap32, wrap32, wrap32, ← Int.bmod_add_bmod, Int.bmod_mul_bmod, Int.bmod_add_bmod]

theorem wrap32_sign (v s : ℤ) : wrap32 (wrap32 v * s) = wrap32 (v * s) := by
  simp [wrap32]

theorem wrap32_add (v w : ℤ) : wrap32 (wrap32 v + w) = wrap32 (v + w) := by
  simp [wrap32]

theorem wrap32_small {z : ℤ} (h : z.natAbs < 2 ^ 31) : wrap32 z = z := by
  rw [wrap32, Int.bmod_eq_iff (by decide)]
  exact ⟨by omega, by omega, by simp⟩

theorem digitChar_ends (d : Fin 10) : endsDigits (digitChar d) = false := by
  revert d
  decide

theorem hfpDigits_digits (ds : List (Fin 10)) (seenpoint : Bool) {m : Bn} {x : ℕ} (hm : Holds m x)
    (hfit : ds.foldl pushDigit x < RADIX ^ BN_LIMBS) (n : ℕ) (t : List Char) :
    ∃ m', Holds m' (ds.foldl pushDigit x) ∧
      hfpDigits (ds.map digitChar ++ t) seenpoint m n = hfpDigits t seenpoint m' (if seenpoint then n + ds.length else n) := by
  induction ds generalizing m x n with
  | nil => exact ⟨m, hm, by cases seenpoint <;> rfl⟩
  | cons d ds ih =>
    have hd : (d : ℕ) < 10 := d.isLt
    have hle : pushDigit x d ≤ ds.foldl pushDigit (pushDigit x d) := le_foldl_pushDigit ds _
    rw [List.foldl_cons] at hfit
    have hroom : x * 10 + d < RADIX ^ BN_LIMBS := hle.trans_lt hfit
    have hstep : Holds ((m.mulSmall 10).addSmall d) (pushDigit x d) :=
      (hm.mulSmall (by decide) (by decide) (by omega)).addSmall (hd.trans (by decide)) hroom
    obtain ⟨m', hm', hrest⟩ := ih hstep hfit (if seenpoint then n + 1 else n)
    have hpoint : digitChar d ≠ '.' := ne_of_isDigit (by decide) d
    refine ⟨m', hm', ?_⟩
    rw [List.map_cons, List.cons_append, hfpDigits, digitChar_ends, if_neg Bool.false_ne_true, if_neg hpoint,
      if_neg (not_not.mpr (digitChar_isDigit d)), digitOf_digitChar, hrest]
    congr 1
    cases seenpoint with
    | true =>
      rw [if_pos rfl, if_pos rfl, if_pos rfl, List.length_cons]
      omega
    | false => rfl

theorem hfpDigits_stop (t : Nominal) (seenpoint : Bool) (m : Bn) (n : ℕ) : hfpDigits t.expoText seenpoint m n = ((m, n), t.expoText) := by
  rw [Nominal.expoText]
  cases t.expo with
  | none => rfl
  | some e =>
    rw [Option.elim_some, Exponent.text]
    cases e.small <;> rfl

theorem hfpDigits_text (t : Nominal) (hfit : t.mantissa < RADIX ^ BN_LIMBS) :
    ∃ m, Holds m t.mantissa ∧
      hfpDigits (t.int.map digitChar ++ (t.fracText ++ t.expoText)) false (.set 0) 0 = ((m, t.places), t.expoText) := by
  have hsplit : t.mantissa = (t.frac.getD []).foldl pushDigit (t.int.foldl pushDigit 0) := List.foldl_append
  have hint : t.int.foldl pushDigit 0 < RADIX ^ BN_LIMBS := by
    rw [hsplit] at hfit
    exact (le_foldl_pushDigit _ _).trans_lt hfit
  obtain ⟨m, hm, hread⟩ := hfpDigits_digits t.int false (holds_set 0) hint 0 (t.fracText ++ t.expoText)
  rw [hread, Nominal.fracText, Nominal.places]
  rw [hsplit] at hfit ⊢
  cases hf : t.frac with
  | none => exact ⟨m, hm, hfpDigits_stop t _ _ _⟩
  | some ds =>
    rw [hf, Option.getD_some] at hfit
    obtain ⟨m', hm', hfrac⟩ := hfpDigits_digits ds true hm hfit 0 t.expoText
    refine ⟨m', hm', ?_⟩
    rw [Option.elim_some, List.cons_append, hfpDigits, if_neg (by decide), if_pos rfl]
    rw [if_neg Bool.false_ne_true, hfrac, if_pos rfl, Nat.zero_add]
    exact hfpDigits_stop t _ _ _

theorem hfpExponentDigits_digits (ds : List (Fin 10)) (v : ℕ) :
    hfpExponentDigits (ds.map digitChar) (wrap32 v) = wrap32 (ds.foldl pushDigit v : ℕ) := by
  induction ds generalizing v with
  | nil => rfl
  | cons d ds ih =>
    rw [List.map_cons, hfpExponentDigits, if_neg (not_not.mpr (digitChar_isDigit d)), digitOf_digitChar, wrap32_step, List.foldl_cons, ← ih]
    rfl

theorem hfpExponent_text (t : Nominal) : hfpExponent t.expoText = wrap32 t.exponent := by
  rw [Nominal.expoText, Nominal.exponent]
  cases t.expo with
  | none => rfl
  | some e =>
    have hplain : ∀ c ∈ (e.digits.map digitChar ++ []).head?, Plain c := plain_head (plain_digits e.digits) (by simp)
    obtain ⟨-, hsign⟩ := sign_read e.sign hplain
    rw [List.append_nil] at hsign
    have hletter : ¬ ((if e.small then 'e' else 'E') ≠ 'e' ∧ (if e.small then 'e' else 'E') ≠ 'E') := by
      cases e.small <;> decide
    have hdigits := hfpExponentDigits_digits e.digits 0
    rw [Nat.cast_zero] at hdigits
    rw [Option.elim_some, Option.elim_some, Exponent.text, hfpExponent, if_neg hletter, hsign, Exponent.value, digitsNat]
    dsimp only
    rw [show (0 : ℤ) = wrap32 0 from rfl, hdigits, wrap32_sign]
    congr 1
    by_cases hneg : e.sign = some true
    · simp [hneg]
    · simp [hneg]

theorem hfpParse_text (t : Nominal) (hfit : t.mantissa < RADIX ^ BN_LIMBS) :
    ∃ m, Holds m t.mantissa ∧ hfpParse t.text = ⟨t.neg, m, t.places, wrap32 t.exponent⟩ := by
  obtain ⟨-, hsign⟩ := sign_read t.sign (body_head t)
  obtain ⟨m, hm, hread⟩ := hfpDigits_text t hfit
  refine ⟨m, hm, ?_⟩
  rw [hfpParse, Nominal.text, hsign]
  dsimp only
  rw [hread]
  dsimp only
  rw [hfpExponent_text]
  rfl

end Cc370.As370.Hfp
