import Cc370.As370.FixedNominal

namespace Cc370.As370.Fixed

def takeFin (infrac : Bool) (x : Fxnom) (d : Fin 10) : Fxnom := takeDigit infrac x d

theorem takeDigits_digits (ds : List (Fin 10)) (infrac : Bool) (x : Fxnom) (t : List Char) :
    takeDigits (ds.map digitChar ++ t) infrac x = takeDigits t infrac (ds.foldl (takeFin infrac) x) := by
  induction ds generalizing x with
  | nil => rfl
  | cons d ds ih =>
    have hpoint : ¬ (digitChar d = '.' ∧ ¬ infrac = true) := fun h => ne_of_isDigit (by decide) d h.1
    rw [List.map_cons, List.cons_append, takeDigits, if_neg hpoint, if_neg (not_not.mpr (digitChar_isDigit d)), digitOf_digitChar, ih]
    rfl

theorem takeExponent_digits (ds : List (Fin 10)) (en : ℕ) (h : ds.foldl pushDigit en < 100000) :
    takeExponent (ds.map digitChar) en = ds.foldl pushDigit en := by
  induction ds generalizing en with
  | nil => rfl
  | cons d ds ih =>
    have hle : pushDigit en d ≤ ds.foldl pushDigit (pushDigit en d) := le_foldl_pushDigit ds _
    have hen : en < 100000 := by
      rw [List.foldl_cons] at h
      rw [pushDigit] at hle h
      omega
    rw [List.map_cons, takeExponent, if_neg (not_not.mpr (digitChar_isDigit d)), if_pos hen, digitOf_digitChar]
    exact ih _ h

/-- What the digits of a nominal value make of the number. -/
def digitsRead (t : Nominal) : Fxnom :=
  (t.frac.getD []).foldl (takeFin true) (t.int.foldl (takeFin false) ⟨0, t.neg, 0, 0, 0⟩)

theorem takeDigits_stop (t : Nominal) (infrac : Bool) (x : Fxnom) : takeDigits t.expoText infrac x = (x, t.expoText) := by
  rw [Nominal.expoText]
  cases t.expo with
  | none => rfl
  | some e =>
    rw [Option.elim_some, Exponent.text]
    cases e.small <;> rfl

theorem takeDigits_body (t : Nominal) : takeDigits (t.int.map digitChar ++ (t.fracText ++ t.expoText)) false ⟨0, t.neg, 0, 0, 0⟩ =
    (digitsRead t, t.expoText) := by
  rw [takeDigits_digits, digitsRead, Nominal.fracText]
  cases t.frac with
  | none => exact takeDigits_stop t _ _
  | some ds =>
    rw [Option.elim_some, List.cons_append, takeDigits, if_pos ⟨rfl, Bool.false_ne_true⟩, takeDigits_digits]
    exact takeDigits_stop t _ _

theorem readExponent_text (t : Nominal) (h : t.exponent.natAbs < 100000) : readExponent t.expoText = t.exponent := by
  rw [Nominal.exponent] at h ⊢
  rw [Nominal.expoText]
  cases he : t.expo with
  | none => rfl
  | some e =>
    rw [he, Option.elim_some, Exponent.value] at h
    have hdigits : e.digits.foldl pushDigit 0 < 100000 := by
      rw [← digitsNat]
      split at h <;> omega
    have hplain : ∀ c ∈ (e.digits.map digitChar ++ []).head?, Plain c := plain_head (plain_digits e.digits) (by simp)
    obtain ⟨-, hsign⟩ := sign_read e.sign hplain
    rw [List.append_nil] at hsign
    have hletter : ¬ ((if e.small then 'e' else 'E') ≠ 'E' ∧ (if e.small then 'e' else 'E') ≠ 'e') := by
      cases e.small <;> decide
    rw [Option.elim_some, Option.elim_some, Exponent.text, readExponent, if_neg hletter, hsign, Exponent.value]
    simp only [takeExponent_digits e.digits 0 hdigits, decide_eq_true_eq]
    rfl

theorem fixedParse_text (t : Nominal) (h : t.exponent.natAbs < 100000) : fixedParse t.text = { digitsRead t with nexp := t.exponent } := by
  obtain ⟨hblank, hsign⟩ := sign_read t.sign (body_head t)
  have hread := takeDigits_body t
  rw [Nominal.neg] at hread
  rw [fixedParse, Nominal.text, hblank, hsign]
  dsimp only
  rw [hread]
  dsimp only
  rw [readExponent_text t h]

end Cc370.As370.Fixed
