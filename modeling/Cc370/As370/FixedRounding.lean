import Cc370.Lib.HalfUp
import Cc370.As370.FixedParse
import Mathlib.Algebra.Order.Field.Power
import Mathlib.Tactic.Positivity

namespace Cc370.As370.Fixed

open HalfUp Guarded

/-- The number kept of the digits read: of the `n` digits behind the point and the value `m` of all of them, `lost` digits
behind the point are gone without trace. -/
structure Kept (n m lost : ℕ) (x : Fxnom) : Prop where
  places : x.frac + lost = n
  low : x.num * 10 ^ (x.dig + lost) ≤ m
  high : m < (x.num + 1) * 10 ^ (x.dig + lost)
  small : x.num < 10 * (FX_LIM / 10)
  full : 0 < x.dig + lost → FX_LIM / 10 ≤ x.num

variable {n m lost : ℕ} {x : Fxnom}

/-- One digit more: it is either kept, or one more is dropped. -/
theorem Kept.digit (h : Kept n m lost x) (infrac : Bool) (d : Fin 10) :
    ∃ lost', Kept (if infrac then n + 1 else n) (pushDigit m d) lost' (takeFin infrac x d) := by
  have hd : (d : ℕ) < 10 := d.isLt
  rw [pushDigit, takeFin, takeDigit]
  by_cases hroom : x.num < FX_LIM / 10
  · have hnone : x.dig + lost = 0 := by
      by_contra hpos
      exact absurd (h.full (Nat.pos_of_ne_zero hpos)) (not_le.mpr hroom)
    have hword : x.num * 10 + d < FX_WORD := by
      have hlim : FX_LIM / 10 * 10 + 10 < FX_WORD := by decide
      omega
    have hlow := h.low
    have hhigh := h.high
    rw [hnone, pow_zero, mul_one] at hlow hhigh
    refine ⟨0, ?_⟩
    rw [if_pos hroom, Nat.mod_eq_of_lt hword]
    have hdig : x.dig = 0 := by omega
    have hplaces := h.places
    constructor
    · dsimp only
      split <;> omega
    · simp only [hdig, Nat.add_zero, pow_zero, mul_one]
      omega
    · simp only [hdig, Nat.add_zero, pow_zero, mul_one]
      omega
    · dsimp only
      omega
    · simp only [hdig]
      intro hpos
      exact absurd hpos (lt_irrefl 0)
  · have hlow : x.num * 10 ^ (x.dig + lost + 1) ≤ m * 10 + d := by
      rw [pow_succ, ← mul_assoc]
      exact (Nat.mul_le_mul_right 10 h.low).trans (Nat.le_add_right _ _)
    have hhigh : m * 10 + d < (x.num + 1) * 10 ^ (x.dig + lost + 1) := by
      have hstep := Nat.mul_le_mul_right 10 (Nat.succ_le_of_lt h.high)
      rw [mul_assoc, ← pow_succ] at hstep
      omega
    rw [if_neg hroom]
    cases infrac with
    | true =>
      refine ⟨lost + 1, ?_, ?_, ?_, h.small, fun _ => not_lt.mp hroom⟩
      · have hplaces := h.places
        rw [if_pos rfl, if_pos rfl]
        omega
      · rwa [if_pos rfl, ← add_assoc]
      · rwa [if_pos rfl, ← add_assoc]
    | false =>
      refine ⟨lost, ?_, ?_, ?_, h.small, fun _ => not_lt.mp hroom⟩
      · exact h.places
      · rw [if_neg Bool.false_ne_true]
        dsimp only
        rwa [Nat.add_right_comm]
      · rw [if_neg Bool.false_ne_true]
        dsimp only
        rwa [Nat.add_right_comm]

theorem Kept.digits (h : Kept n m lost x) (infrac : Bool) (ds : List (Fin 10)) :
    ∃ lost', Kept (if infrac then n + ds.length else n) (ds.foldl pushDigit m) lost' (ds.foldl (takeFin infrac) x) := by
  induction ds generalizing n m lost x with
  | nil => exact ⟨lost, by simpa using h⟩
  | cons d ds ih =>
    obtain ⟨lost', hstep⟩ := h.digit infrac d
    obtain ⟨lost'', hrest⟩ := ih hstep
    refine ⟨lost'', ?_⟩
    cases infrac with
    | true =>
      rw [if_pos rfl, if_pos rfl] at hrest
      rw [if_pos rfl, List.length_cons, Nat.add_comm ds.length, ← Nat.add_assoc]
      exact hrest
    | false => exact hrest

theorem kept_digitsRead (t : Nominal) : ∃ lost, Kept t.places t.mantissa lost (digitsRead t) := by
  have hnone : Kept 0 0 0 ⟨0, t.neg, 0, 0, 0⟩ := 
    ⟨rfl, by simp, by simp, Nat.mul_pos (by decide) (by decide), fun h => absurd h (lt_irrefl 0)⟩
  obtain ⟨lost, hint⟩ := hnone.digits false t.int
  obtain ⟨lost', hfrac⟩ := hint.digits true (t.frac.getD [])
  refine ⟨lost', ?_⟩
  rw [if_pos rfl, if_neg Bool.false_ne_true, Nat.zero_add, ← List.foldl_append] at hfrac
  exact hfrac

theorem digitsRead_neg (t : Nominal) : (digitsRead t).neg = t.neg := by
  have hstep (infrac : Bool) (ds : List (Fin 10)) (x : Fxnom) : (ds.foldl (takeFin infrac) x).neg = x.neg := by
    induction ds generalizing x with
    | nil => rfl
    | cons d ds ih =>
      rw [List.foldl_cons, ih, takeFin, takeDigit]
      split
      · rfl
      · split <;> rfl
  rw [digitsRead, hstep, hstep]

theorem zpow_split {b : ℚ} (hb : b ≠ 0) (z : ℤ) : b ^ z = b ^ z.toNat / b ^ (-z).toNat := by
  have hz : z = z.toNat - (-z).toNat := by omega
  conv_lhs => rw [hz]
  rw [zpow_sub₀ hb, zpow_natCast, zpow_natCast]

/-- The numerator passes one of its limits on the way. -/
def Outgrown (num : ℕ) (e10 scale : ℤ) : Prop :=
  ¬ Within 10 (FX_LIM / 10) e10.toNat num ∨ ¬ Within 2 FX_LIM scale.toNat (num * 10 ^ e10.toNat)

instance (num : ℕ) (e10 scale : ℤ) : Decidable (Outgrown num e10 scale) := inferInstanceAs (Decidable (_ ∨ _))

variable {num : ℕ} {e10 scale : ℤ}

theorem ten_room : FX_LIM / 10 * 10 < FX_WORD := by decide

theorem two_room : FX_LIM * 2 < FX_WORD := by decide

theorem tens_iff : Within 10 (FX_LIM / 10) (-e10).toNat 1 ↔ -36 ≤ e10 := by
  rw [Within, one_mul]
  constructor
  · intro h
    by_contra hlt
    have hle : 10 ^ 36 ≤ 10 ^ ((-e10).toNat - 1) := Nat.pow_le_pow_right (by decide) (by omega)
    have hlim : FX_LIM / 10 < 10 ^ 36 := by decide
    rcases h with h | h
    · omega
    · omega
  · intro h
    right
    have hle : 10 ^ ((-e10).toNat - 1) ≤ 10 ^ 35 := Nat.pow_le_pow_right (by decide) (by omega)
    have hlim : 10 ^ 35 ≤ FX_LIM / 10 := by decide
    exact hle.trans hlim

/-- A denominator of more than 36 tens is given up at once. -/
theorem fixedScale_early (h : e10 < -36) : fixedScale num e10 scale = (0, 1, false) := by
  have hnone := build_of_not_within (by decide) ten_room (mt tens_iff.mp (not_le.mpr h))
  have hzero : e10.toNat = 0 := by omega
  rw [fixedScale, hnone, hzero]
  rfl

theorem fixedScale_outgrown (he : -36 ≤ e10) (h : Outgrown num e10 scale) : (fixedScale num e10 scale).2.2 = true := by
  have hden := build_of_within (by decide) ten_room (tens_iff.mpr he)
  have hflag : (grow FX_WORD 2 FX_LIM scale.toNat (grow FX_WORD 10 (FX_LIM / 10) e10.toNat (num, false))).2 = true := by
    by_cases hten : Within 10 (FX_LIM / 10) e10.toNat num
    · rw [grow_of_within (by decide) ten_room hten]
      exact grow_of_not_within (by decide) two_room (h.resolve_left (not_not.mpr hten)) false
    · have hover := grow_of_not_within (by decide) ten_room hten false
      generalize grow FX_WORD 10 (FX_LIM / 10) e10.toNat (num, false) = s at hover ⊢
      obtain ⟨n, o⟩ := s
      subst hover
      exact grow_flagged _ n
  rw [fixedScale, hden]
  dsimp only
  split
  · exact hflag
  · exact hflag

/-- Within the limits the scaled number is exact, or its denominator is given up because the number is below one half. -/
theorem fixedScale_exact (he : -36 ≤ e10) (h : ¬ Outgrown num e10 scale) :
    fixedScale num e10 scale = (num * 10 ^ e10.toNat * 2 ^ scale.toNat, 10 ^ (-e10).toNat * 2 ^ (-scale).toNat, false) ∨
    fixedScale num e10 scale = (0, 1, false) ∧ scale < 0 ∧ FX_LIM < 10 ^ (-e10).toNat * 2 ^ ((-scale).toNat - 1) := by
  rw [Outgrown, not_or, not_not, not_not] at h
  have hden := build_of_within (by decide) ten_room (tens_iff.mpr he)
  have hnum : grow FX_WORD 2 FX_LIM scale.toNat (grow FX_WORD 10 (FX_LIM / 10) e10.toNat (num, false)) =
      (num * 10 ^ e10.toNat * 2 ^ scale.toNat, false) := by
    rw [grow_of_within (by decide) ten_room h.1, grow_of_within (by decide) two_room h.2]
  rw [fixedScale, hden, one_mul]
  dsimp only
  rw [hnum]
  by_cases htwo : Within 2 FX_LIM (-scale).toNat (10 ^ (-e10).toNat)
  · left
    rw [build_of_within (by decide) two_room htwo]
  · right
    rw [build_of_not_within (by decide) two_room htwo]
    rw [Within, not_or, not_le] at htwo
    exact ⟨rfl, by omega, htwo.2⟩

/-- The exact value a constant asks for, without its sign. -/
def magnitude (t : Nominal) (c : Modifiers) : ℚ := t.mantissa * 10 ^ (t.exponent + c.expo - t.places) * 2 ^ c.scale

/-- mantissa * 10^exponent * 2^scale. -/
def exactValue (t : Nominal) (c : Modifiers) : ℚ := if t.neg then -magnitude t c else magnitude t c

/-- The power of ten left to apply when the text is read. -/
def power (t : Nominal) (c : Modifiers) : ℤ := t.exponent + c.expo - (fixedParse t.text).frac + (fixedParse t.text).dig

/-- The value of the digits that are kept, without its sign. -/
def keptValue (t : Nominal) (c : Modifiers) : ℚ := (fixedParse t.text).num * 10 ^ power t c * 2 ^ c.scale

def FitsLong (r : ℤ) : Prop := -2 ^ 63 ≤ r ∧ r < 2 ^ 63

instance (r : ℤ) : Decidable (FitsLong r) := inferInstanceAs (Decidable (_ ∧ _))

/-- The result is the rounded value where a long holds it, and `*big` says where it does not. -/
structure Rounds (t : Nominal) (c : Modifiers) : Prop where
  value : FitsLong (nearest (exactValue t c)) → (fixedNominal t.text c.scale c.expo).value = nearest (exactValue t c)
  big : (fixedNominal t.text c.scale c.expo).big = true ↔ ¬ FitsLong (nearest (exactValue t c))

/-- What the value must be for the limits of the 128-bit arithmetic not to show. -/
structure Unlimited (t : Nominal) (c : Modifiers) : Prop where
  early : power t c < -36 → magnitude t c < 1 / 2
  outgrown : -36 ≤ power t c → Outgrown (fixedParse t.text).num (power t c) c.scale → ¬ FitsLong (nearest (exactValue t c))
  read : -36 ≤ power t c → ¬ Outgrown (fixedParse t.text).num (power t c) c.scale →
    (round (keptValue t c) = round (magnitude t c) ∨ 2 ^ 63 ≤ round (keptValue t c) ∧ 2 ^ 63 ≤ round (magnitude t c)) ∧
      nearest (exactValue t c) ≠ -2 ^ 63

/-- The exponents a constant may come to. -/
def InRange (t : Nominal) (c : Modifiers) : Prop := -85 ≤ t.exponent + c.expo ∧ t.exponent + c.expo ≤ 75

variable {t : Nominal} {c : Modifiers}

theorem InRange.exponent (h : InRange t c) : t.exponent.natAbs < 100000 := by
  have hexpo := ((dcModLimits_accepted_iff c.scale c.expo).mp c.accepted).2
  obtain ⟨hlow, hhigh⟩ := h
  omega

theorem magnitude_nonneg : 0 ≤ magnitude t c := by
  rw [magnitude]
  positivity

theorem keptValue_nonneg : 0 ≤ keptValue t c := by
  rw [keptValue]
  positivity

/-- The kept digits are the beginning of all digits. -/
theorem kept_bounds (h : InRange t c) : keptValue t c ≤ magnitude t c ∧
    magnitude t c < ((fixedParse t.text).num + 1) * 10 ^ power t c * 2 ^ c.scale ∧
    ((fixedParse t.text).num = 0 → magnitude t c = 0) ∧ (fixedParse t.text).num < 10 * (FX_LIM / 10) := by
  obtain ⟨lost, hkept⟩ := kept_digitsRead t
  have hparse := fixedParse_text t h.exponent
  rw [keptValue, magnitude]
  have hpower : t.exponent + c.expo - t.places = power t c - ((digitsRead t).dig + lost : ℕ) := by
    have hplaces := hkept.places
    rw [power, hparse]
    dsimp only
    omega
  have hnum : (fixedParse t.text).num = (digitsRead t).num := by rw [hparse]
  rw [hnum, hpower, zpow_sub₀ (by decide), zpow_natCast]
  have hten : (0 : ℚ) < 10 ^ ((digitsRead t).dig + lost) := by positivity
  have hunit : (0 : ℚ) < 10 ^ power t c := by positivity
  have htwo : (0 : ℚ) < 2 ^ c.scale := by positivity
  have hlow : ((digitsRead t).num : ℚ) ≤ t.mantissa / 10 ^ ((digitsRead t).dig + lost) := by
    rw [le_div_iff₀ hten]
    exact_mod_cast hkept.low
  have hhigh : (t.mantissa : ℚ) / 10 ^ ((digitsRead t).dig + lost) < (digitsRead t).num + 1 := by
    rw [div_lt_iff₀ hten]
    exact_mod_cast hkept.high
  have hswap : (t.mantissa : ℚ) * (10 ^ power t c / 10 ^ ((digitsRead t).dig + lost)) =
      t.mantissa / 10 ^ ((digitsRead t).dig + lost) * 10 ^ power t c := by ring
  rw [hswap]
  refine ⟨?_, ?_, ?_, hkept.small⟩
  · apply mul_le_mul_of_nonneg_right _ htwo.le
    exact mul_le_mul_of_nonneg_right hlow hunit.le
  · apply mul_lt_mul_of_pos_right _ htwo
    exact mul_lt_mul_of_pos_right hhigh hunit
  · intro hzero
    have hnone : (digitsRead t).dig + lost = 0 := by
      by_contra hpos
      have hfull := hkept.full (Nat.pos_of_ne_zero hpos)
      have hlim : 0 < FX_LIM / 10 := by decide
      omega
    have hm := hkept.high
    rw [hnone, hzero] at hm
    have hmantissa : t.mantissa = 0 := by omega
    rw [hmantissa]
    simp

/-- A denominator given up after the tens stands for a value below one half. -/
theorem magnitude_of_given_up (h : InRange t c) (hgrow : ¬ Outgrown (fixedParse t.text).num (power t c) c.scale) (hneg : c.scale < 0)
    (hden : FX_LIM < 10 ^ (-power t c).toNat * 2 ^ ((-c.scale).toNat - 1)) : magnitude t c < 1 / 2 := by
  obtain ⟨-, hhigh, hzero, hsmall⟩ := kept_bounds h
  by_cases hnum : (fixedParse t.text).num = 0
  · rw [hzero hnum]
    exact one_half_pos
  generalize (fixedParse t.text).num = n at *
  generalize power t c = e at *
  generalize c.scale = s at *
  have hlim : 10 * (FX_LIM / 10) ≤ FX_LIM := Nat.mul_div_le FX_LIM 10
  apply hhigh.trans_le
  have hten : (10 : ℚ) ^ e = 10 ^ e.toNat / 10 ^ (-e).toNat := zpow_split (by norm_num) e
  have htwo : (2 : ℚ) ^ s = 1 / 2 ^ (-s).toNat := by
    rw [zpow_split (by norm_num) s, show s.toNat = 0 by omega, pow_zero]
  have hk : 2 ^ (-s).toNat = 2 * 2 ^ ((-s).toNat - 1) := by
    rw [← pow_succ', Nat.sub_add_cancel (by omega)]
  have hpos : (0 : ℚ) < 10 ^ (-e).toNat * 2 ^ (-s).toNat := by positivity
  have hform : ((n : ℚ) + 1) * 10 ^ e * 2 ^ s = ((n + 1) * 10 ^ e.toNat : ℕ) / (10 ^ (-e).toNat * 2 ^ (-s).toNat) := by
    rw [hten, htwo]
    push_cast
    field_simp
  rw [hform, div_le_div_iff₀ hpos two_pos, one_mul]
  have hnat : (n + 1) * 10 ^ e.toNat * 2 ≤ 10 ^ (-e).toNat * 2 ^ (-s).toNat := by
    rw [hk]
    by_cases he : 0 < e
    · -- the tens are in the numerator, and twos alone are beyond the limit
      have hj : (-e).toNat = 0 := by omega
      rw [hj, pow_zero, one_mul] at hden ⊢
      have hwithin := (not_or.mp hgrow).1
      rw [not_not, Within] at hwithin
      have hle := hwithin.resolve_left (by omega)
      have hstep : 10 ^ e.toNat = 10 ^ (e.toNat - 1) * 10 := by
        rw [← pow_succ, Nat.sub_add_cancel (by omega)]
      have hpow : 121 ≤ (-s).toNat - 1 := by
        by_contra hlt
        have hsmall : 2 ^ ((-s).toNat - 1) ≤ FX_LIM := Nat.pow_le_pow_right (by decide) (by omega)
        omega
      have hbig : 2 ^ 121 ≤ 2 ^ ((-s).toNat - 1) := Nat.pow_le_pow_right (by decide) hpow
      have hlimit : FX_LIM * 2 = 2 ^ 121 := by decide
      calc (n + 1) * 10 ^ e.toNat * 2 ≤ (2 * n) * 10 ^ e.toNat * 2 := by
            apply Nat.mul_le_mul_right
            apply Nat.mul_le_mul_right
            omega
        _ = 4 * (10 * (n * 10 ^ (e.toNat - 1))) := by
            rw [hstep]
            ring
        _ ≤ 4 * FX_LIM := Nat.mul_le_mul_left 4 ((Nat.mul_le_mul_left 10 hle).trans hlim)
        _ ≤ 2 * 2 ^ ((-s).toNat - 1) := by omega
    · have hj : e.toNat = 0 := by omega
      rw [hj, pow_zero, mul_one]
      have hn : n + 1 ≤ FX_LIM := by omega
      calc (n + 1) * 2 ≤ FX_LIM * 2 := Nat.mul_le_mul_right 2 hn
        _ ≤ 10 ^ (-e).toNat * 2 ^ ((-s).toNat - 1) * 2 := Nat.mul_le_mul_right 2 hden.le
        _ = 10 ^ (-e).toNat * (2 * 2 ^ ((-s).toNat - 1)) := by ring
  exact_mod_cast hnat

theorem nearest_exactValue : nearest (exactValue t c) = if t.neg then -round (magnitude t c) else round (magnitude t c) := by
  rw [exactValue]
  split
  · exact nearest_neg magnitude_nonneg
  · exact nearest_of_nonneg magnitude_nonneg

/-- The low 64 bits of a quotient, as a long. -/
def longOf (neg : Bool) (q : ℕ) : ℤ := if neg then (-(q : ℤ)).bmod (2 ^ 64) else (q : ℤ).bmod (2 ^ 64)

theorem longOf_small (neg : Bool) {q : ℕ} (h : q < 2 ^ 63) : longOf neg q = if neg then -(q : ℤ) else q := by
  rw [longOf]
  split
  · rw [Int.bmod_eq_iff (by decide)]
    exact ⟨by omega, by omega, by simp⟩
  · rw [Int.bmod_eq_iff (by decide)]
    exact ⟨by omega, by omega, by simp⟩

/-- A quotient stands for a rounded value when it is that value, or when both are beyond a long. -/
theorem stands_iff (neg : Bool) (q : ℕ) {R r : ℤ} (hR : 0 ≤ R) (hr : r = if neg then -R else R) :
    ((FitsLong r → longOf neg q = r) ∧ ((false || decide (LONG_MAX < q)) = true ↔ ¬ FitsLong r)) ↔
      ((q = R ∨ 2 ^ 63 ≤ (q : ℤ) ∧ 2 ^ 63 ≤ R) ∧ r ≠ -2 ^ 63) := by
  rw [Bool.false_or, decide_eq_true_eq, LONG_MAX, FitsLong]
  by_cases hq : q < 2 ^ 63
  · rw [longOf_small neg hq]
    cases neg with
    | true =>
      rw [if_pos rfl] at hr ⊢
      omega
    | false =>
      rw [if_neg Bool.false_ne_true] at hr ⊢
      omega
  · cases neg with
    | true =>
      rw [if_pos rfl] at hr
      constructor
      · rintro ⟨-, hbig⟩
        omega
      · rintro ⟨hor, hne⟩
        exact ⟨fun hfits => by omega, by omega⟩
    | false =>
      rw [if_neg Bool.false_ne_true] at hr
      constructor
      · rintro ⟨-, hbig⟩
        omega
      · rintro ⟨hor, hne⟩
        exact ⟨fun hfits => by omega, by omega⟩

def quotient (s : ℕ × ℕ × Bool) : ℕ := s.1 / s.2.1 + if s.2.1 ≤ 2 * (s.1 % s.2.1) then 1 else 0

theorem fixedScale_den_pos (num : ℕ) (e10 scale : ℤ) : 0 < (fixedScale num e10 scale).2.1 := by
  rw [fixedScale]
  dsimp only
  split
  · exact one_pos
  · rename_i den hden
    split
    · exact one_pos
    · rename_i den' hden'
      have hpos : 0 < den := build_pos (by decide) ten_room one_pos hden
      exact build_pos (by decide) two_room hpos hden'

theorem fixedNominal_eq (h : InRange t c) : fixedNominal t.text c.scale c.expo =
    { value := longOf t.neg (quotient (fixedScale (fixedParse t.text).num (power t c) c.scale))
      big := (fixedScale (fixedParse t.text).num (power t c) c.scale).2.2 ||
        decide (LONG_MAX < quotient (fixedScale (fixedParse t.text).num (power t c) c.scale))
      ebad := false } := by
  have hparse := fixedParse_text t h.exponent
  have hneg : (fixedParse t.text).neg = t.neg := by
    rw [hparse]
    exact digitsRead_neg t
  have hrange : ¬ ((fixedParse t.text).nexp + c.expo < -85 ∨ 75 < (fixedParse t.text).nexp + c.expo) := by
    rw [hparse]
    obtain ⟨hlow, hhigh⟩ := h
    dsimp only
    omega
  have hpow : (fixedParse t.text).nexp + c.expo - (fixedParse t.text).frac + (fixedParse t.text).dig = power t c := by
    rw [power, hparse]
  have hden := fixedScale_den_pos (fixedParse t.text).num (power t c) c.scale
  rw [fixedNominal]
  simp only [if_neg hrange, decide_eq_false hrange, hpow, hneg]
  generalize fixedScale (fixedParse t.text).num (power t c) c.scale = s at hden ⊢
  have hmod := Nat.mod_lt s.1 hden
  have hq : (if 1 < s.2.1 ∧ s.2.1 - s.1 % s.2.1 ≤ s.1 % s.2.1 then s.1 / s.2.1 + 1 else s.1 / s.2.1) = quotient s := by
    rw [quotient]
    by_cases hhalf : s.2.1 ≤ 2 * (s.1 % s.2.1)
    · rw [if_pos hhalf, if_pos (by omega)]
    · rw [if_neg hhalf, if_neg (by omega)]
      rfl
  rw [hq]
  rfl

theorem outcome_iff (h : InRange t c) {s : ℕ × ℕ × Bool} (hs : fixedScale (fixedParse t.text).num (power t c) c.scale = s)
    (hflag : s.2.2 = false) : Rounds t c ↔
      ((quotient s : ℤ) = round (magnitude t c) ∨ 2 ^ 63 ≤ (quotient s : ℤ) ∧ 2 ^ 63 ≤ round (magnitude t c)) ∧
        nearest (exactValue t c) ≠ -2 ^ 63 := by
  have hstands := stands_iff t.neg (quotient s) (round_nonneg (magnitude_nonneg (t := t) (c := c))) nearest_exactValue
  rw [← hstands]
  have hnominal := fixedNominal_eq h
  rw [hs, hflag] at hnominal
  constructor
  · rintro ⟨hvalue, hbig⟩
    rw [hnominal] at hvalue hbig
    exact ⟨hvalue, hbig⟩
  · rintro ⟨hvalue, hbig⟩
    constructor
    · rw [hnominal]
      exact hvalue
    · rw [hnominal]
      exact hbig

theorem quotient_exact (hs : fixedScale (fixedParse t.text).num (power t c) c.scale =
    ((fixedParse t.text).num * 10 ^ (power t c).toNat * 2 ^ c.scale.toNat, 10 ^ (-power t c).toNat * 2 ^ (-c.scale).toNat, false)) :
    (quotient (fixedScale (fixedParse t.text).num (power t c) c.scale) : ℤ) = round (keptValue t c) := by
  have hden : 0 < 10 ^ (-power t c).toNat * 2 ^ (-c.scale).toNat := by positivity
  rw [hs, quotient, ← round_div _ hden, keptValue, zpow_split (by norm_num) (power t c), zpow_split (by norm_num) c.scale]
  congr 1
  push_cast
  field_simp

/-- Fixed-point constants are rounded as they should be for as long as the limits of the 128-bit arithmetic do not show. -/
theorem fixed_rounds_iff (h : InRange t c) : Rounds t c ↔ Unlimited t c := by
  by_cases he : power t c < -36
  · have hs : fixedScale (fixedParse t.text).num (power t c) c.scale = (0, 1, false) := fixedScale_early he
    rw [outcome_iff h hs rfl]
    have hq : (quotient (0, 1, false) : ℤ) = 0 := by decide
    have hsmall := round_eq_zero (magnitude_nonneg (t := t) (c := c))
    have hsign := nearest_exactValue (t := t) (c := c)
    rw [hq]
    constructor
    · rintro ⟨hor, -⟩
      refine ⟨fun _ => hsmall.mp ?_, fun hge => absurd he (not_lt.mpr hge), fun hge => absurd he (not_lt.mpr hge)⟩
      omega
    · intro hun
      have hzero := hsmall.mpr (hun.early he)
      refine ⟨Or.inl hzero.symm, ?_⟩
      rw [hsign, hzero]
      split <;> decide
  have he' := not_lt.mp he
  by_cases hout : Outgrown (fixedParse t.text).num (power t c) c.scale
  · have hbig : (fixedNominal t.text c.scale c.expo).big = true := by
      rw [fixedNominal_eq h, fixedScale_outgrown he' hout]
      rfl
    constructor
    · intro hr
      exact ⟨fun hlt => absurd hlt he, fun _ _ => hr.big.mp hbig, fun _ hin => absurd hout hin⟩
    · intro hun
      have hbeyond := hun.outgrown he' hout
      exact ⟨fun hfits => absurd hfits hbeyond, fun _ => hbeyond, fun _ => hbig⟩
  · have hsame : Rounds t c ↔
        (round (keptValue t c) = round (magnitude t c) ∨ 2 ^ 63 ≤ round (keptValue t c) ∧ 2 ^ 63 ≤ round (magnitude t c)) ∧
          nearest (exactValue t c) ≠ -2 ^ 63 := by
      rcases fixedScale_exact he' hout with hs | ⟨hs, hneg, hden⟩
      · rw [outcome_iff h hs rfl, ← hs, quotient_exact hs]
      · have hhalf := magnitude_of_given_up h hout hneg hden
        have hkept : round (keptValue t c) = 0 := (round_eq_zero keptValue_nonneg).mpr ((kept_bounds h).1.trans_lt hhalf)
        rw [outcome_iff h hs rfl, hkept]
        rfl
    rw [hsame]
    exact ⟨fun hread => ⟨fun hlt => absurd hlt he, fun _ hin => absurd hin hout, fun _ _ => hread⟩, fun hun => hun.read he' hout⟩

/-- `FS1E1'1.25'`, which is 25. -/
def plainValue : Nominal where
  sign := none
  int := [1]
  frac := some [2, 5]
  expo := none

def plainModifiers : Modifiers where
  scale := 1
  expo := 1
  accepted := rfl

theorem plain_rounds_iff : Rounds plainValue plainModifiers ↔ Unlimited plainValue plainModifiers :=
  fixed_rounds_iff ⟨by decide, by decide⟩

/-- `FS250E-60'1'`, which is about 1.8E15. -/
def oppositeValue : Nominal where
  sign := none
  int := [1]
  frac := none
  expo := none

def oppositeModifiers : Modifiers where
  scale := 250
  expo := -60
  accepted := rfl

/-- The tens of the exponent are given up before the twos of the scale are reached. -/
theorem opposite_not_rounded : InRange oppositeValue oppositeModifiers ∧ ¬ Rounds oppositeValue oppositeModifiers := by
  refine ⟨⟨by decide, by decide⟩, fun h => ?_⟩
  have hresult : (fixedNominal oppositeValue.text 250 (-60)).value = 0 := by decide +kernel
  have hexact : nearest (exactValue oppositeValue oppositeModifiers) = 1809251394333066 := by
    have hvalue : exactValue oppositeValue oppositeModifiers = ((2 ^ 250 : ℕ) : ℚ) / (10 ^ 60 : ℕ) := by
      rw [exactValue, magnitude]
      have hmantissa : oppositeValue.mantissa = 1 := rfl
      have hpower : oppositeValue.exponent + oppositeModifiers.expo - oppositeValue.places = -60 := rfl
      have hscale : oppositeModifiers.scale = 250 := rfl
      rw [if_neg (by decide), hmantissa, hpower, hscale]
      norm_num
    rw [hvalue, nearest_of_nonneg (by positivity), round_div _ (by positivity)]
    norm_num
  have hvalue := h.value
  rw [hexact] at hvalue
  exact absurd (hresult.symm.trans (hvalue (by decide))) (by decide)

end Cc370.As370.Fixed
