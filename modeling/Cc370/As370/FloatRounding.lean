import Cc370.Lib.HalfUp
import Cc370.Lib.HexFloat
import Cc370.As370.FloatParse

namespace Cc370.As370.Hfp

open Bn

def LIMIT : ℕ := RADIX ^ BN_LIMBS

theorem limit_eq : LIMIT = 2 ^ 2048 := by
  rw [LIMIT, RADIX, BN_LIMBS, ← pow_mul]

variable {a num den : Bn} {x y : ℕ}

theorem holds_timesTen (h : Holds a x) (k : ℕ) (hfit : x * 10 ^ k < LIMIT) : Holds (timesTen a k) (x * 10 ^ k) := by
  induction k generalizing a x with
  | zero => simpa [timesTen] using h
  | succ k ih =>
    have hpow : x * 10 ^ (k + 1) = x * 10 * 10 ^ k := by ring
    rw [hpow] at hfit ⊢
    have hle : x * 10 ≤ x * 10 * 10 ^ k := Nat.le_mul_of_pos_right _ (Nat.pow_pos (by decide))
    exact ih (h.mulSmall (by decide) (by decide) (hle.trans_lt hfit)) hfit

/-- The denominator passes the numerator by less than a hexadecimal digit, if it was not above it from the start. -/
theorem raiseDen_spec (hn : Holds num x) (hd : Holds den y) (hfit : 16 * x < LIMIT) (fuel : ℕ) (hfuel : x < y * 16 ^ fuel) (e : ℤ) :
    ∃ (k : ℕ) (d : Bn), raiseDen num (fuel + 1) den e = some (d, e + k) ∧ Holds d (y * 16 ^ k) ∧ x < y * 16 ^ k ∧
      (k = 0 ∨ y * 16 ^ k ≤ 16 * x) := by
  induction fuel generalizing den y e with
  | zero =>
    rw [pow_zero, Nat.mul_one] at hfuel
    refine ⟨0, den, ?_, by simpa using hd, by simpa using hfuel, Or.inl rfl⟩
    rw [raiseDen, if_neg (mt (hn.cmp_ne_lt hd).mp (not_le.mpr hfuel))]
    simp
  | succ fuel ih =>
    rw [raiseDen]
    by_cases hge : y ≤ x
    · have hnext : Holds (den.mulSmall 16) (y * 16) := hd.mulSmall (by decide) (by decide) (by rw [← LIMIT]; omega)
      obtain ⟨k, d, hrun, hholds, hlt, hle⟩ := ih hnext (by rwa [Nat.mul_assoc, ← pow_succ']) (e + 1)
      rw [Nat.mul_assoc, ← pow_succ'] at hholds hlt hle
      refine ⟨k + 1, d, ?_, hholds, hlt, Or.inr ?_⟩
      · rw [if_pos ((hn.cmp_ne_lt hd).mpr hge), hrun]
        push_cast
        ring_nf
      · rcases hle with hzero | hle
        · rw [hzero, Nat.zero_add, pow_one]
          omega
        · exact hle
    · refine ⟨0, den, ?_, by simpa using hd, by simpa using hge, Or.inl rfl⟩
      rw [if_neg (mt (hn.cmp_ne_lt hd).mp hge)]
      simp

theorem raiseNum_spec (hn : Holds num x) (hd : Holds den y) (hlt : x < y) (hfit : 16 * y ≤ LIMIT) (fuel : ℕ)
    (hfuel : y ≤ x * 16 ^ (fuel + 1)) (e : ℤ) : ∃ (k : ℕ) (n : Bn), raiseNum den (fuel + 1) num e = some (n, e - k) ∧
      Holds n (x * 16 ^ k) ∧ x * 16 ^ k < y ∧ y ≤ x * 16 ^ k * 16 := by
  induction fuel generalizing num x e with
  | zero =>
    rw [Nat.zero_add, pow_one] at hfuel
    have hnext : Holds (num.mulSmall 16) (x * 16) := hn.mulSmall (by decide) (by decide) (by rw [← LIMIT]; omega)
    refine ⟨0, { num with lost := (num.mulSmall 16).lost }, ?_, ⟨?_, hnext.lost⟩, by simpa using hlt, by simpa using hfuel⟩
    · rw [raiseNum, if_pos ((hnext.cmp_ne_lt hd).mpr hfuel)]
      simp
    · simpa using hn.limbs
  | succ fuel ih =>
    have hnext : Holds (num.mulSmall 16) (x * 16) := hn.mulSmall (by decide) (by decide) (by rw [← LIMIT]; omega)
    rw [raiseNum]
    by_cases hge : y ≤ x * 16
    · refine ⟨0, { num with lost := (num.mulSmall 16).lost }, ?_, ⟨?_, hnext.lost⟩, by simpa using hlt, by simpa using hge⟩
      · rw [if_pos ((hnext.cmp_ne_lt hd).mpr hge)]
        simp
      · simpa using hn.limbs
    · obtain ⟨k, n, hrun, hholds, hbelow, habove⟩ := ih hnext (not_le.mp hge) (by rwa [Nat.mul_assoc, ← pow_succ']) (e - 1)
      rw [Nat.mul_assoc x 16, ← pow_succ'] at hholds hbelow habove
      refine ⟨k + 1, n, ?_, hholds, hbelow, habove⟩
      rw [if_neg (mt (hnext.cmp_ne_lt hd).mp hge), hrun]
      push_cast
      ring_nf

/-- The sizes the halves of a constant come in. -/
structure Sized (s : Halves) : Prop where
  fracbits : 4 ≤ s.fracbits ∧ s.fracbits ≤ 56
  lofrac : s.lofrac ≤ 56
  single : s.ext = false → s.lofrac = 0

theorem halves_sized {bytes : ℕ} (h : 2 ≤ bytes) : Sized (halves bytes) := by
  unfold halves
  by_cases hext : 8 < bytes
  · simp only [hext, decide_true, if_true]
    exact ⟨⟨(by decide : 4 ≤ min 56 ((8 - 1) * 8)), Nat.min_le_left _ _⟩, Nat.min_le_left _ _, nofun⟩
  · simp only [hext, decide_false]
    refine ⟨⟨?_, Nat.min_le_left _ _⟩, Nat.zero_le 56, fun _ => rfl⟩
    simp only [Bool.false_eq_true, if_false]
    omega

/-- A quotient developed in two pieces, the second from what the first leaves. -/
theorem two_pieces (n : ℕ) {d k : ℕ} (hd : 0 < d) (hk : 0 < k) :
    n * k / d = n / d * k + n % d * k / d ∧ n * k % d = n % d * k % d ∧ n % d * k / d < k := by
  have hsplit : n * k = n % d * k + d * (n / d * k) := by
    conv_lhs => rw [← Nat.mod_add_div n d]
    ring
  refine ⟨?_, ?_, ?_⟩
  · rw [hsplit, Nat.add_mul_div_left _ _ hd, Nat.add_comm]
  · rw [hsplit, Nat.add_mul_mod_self_left]
  · exact Nat.div_lt_of_lt_mul (Nat.mul_lt_mul_of_pos_right (Nat.mod_lt n hd) hk)

/-- A quotient rounded half up. -/
def halfUp (n d : ℕ) : ℕ := n / d + if d ≤ 2 * (n % d) then 1 else 0

theorem shiftRight_ne_zero {n k : ℕ} : n >>> k ≠ 0 ↔ 2 ^ k ≤ n := by
  rw [Nat.shiftRight_eq_div_pow, Ne, Nat.div_eq_zero_iff]
  simp

/-- A remainder of half the divisor or more rounds up. -/
theorem half_bit (hn : Holds num x) (hd : Holds den y) (hlt : x < y) (hfit : 2 * y ≤ LIMIT) (q : ℕ) :
    (if (num.mulSmall 2).cmp den ≠ .lt then q + 1 else q) = q + if y ≤ 2 * x then 1 else 0 := by
  have hdouble : Holds (num.mulSmall 2) (x * 2) := hn.mulSmall (by decide) (by decide) (by rw [← LIMIT]; omega)
  by_cases hhalf : y ≤ 2 * x
  · rw [if_pos hhalf, if_pos ((hdouble.cmp_ne_lt hd).mpr (by omega))]
  · rw [if_neg hhalf, if_neg (mt (hdouble.cmp_ne_lt hd).mp (by omega))]
    rfl

theorem hfpFraction_spec {s : Halves} (hs : Sized s) (hn : Holds num x) (hd : Holds den y) (hlt : x < y) (hfit : y * 2 ^ 58 ≤ LIMIT) :
    (hfpFraction num den s).lost = false ∧ (hfpFraction num den s).lo < 2 ^ s.lofrac ∧
      (hfpFraction num den s).hi * 2 ^ s.lofrac + (hfpFraction num den s).lo = halfUp (x * 2 ^ (s.fracbits + s.lofrac)) y := by
  have hy : 0 < y := by omega
  have hpow {k : ℕ} (hk : k ≤ 56) : 2 ^ k ≤ 2 ^ 56 := Nat.pow_le_pow_right (by decide) hk
  have hlimit : y * 2 ^ 56 * 4 ≤ LIMIT := by rwa [Nat.mul_assoc]
  have hshift {z k : ℕ} (hz : z < y) (hk : k ≤ 56) : z * 2 ^ k < LIMIT := by
    have hle := Nat.mul_le_mul hz.le (hpow hk)
    have hpos : 0 < y * 2 ^ 56 := by positivity
    omega
  have hsmall {z k : ℕ} (hz : z < y) (hk : k ≤ 56) : z * 2 ^ k / y % 2 ^ 64 = z * 2 ^ k / y := by
    apply Nat.mod_eq_of_lt
    rw [Nat.div_lt_iff_lt_mul hy, Nat.mul_comm (2 ^ 64)]
    exact (Nat.mul_le_mul_right _ hz.le).trans_lt (Nat.mul_lt_mul_of_pos_left ((hpow hk).trans_lt (by decide)) hy)
  have htwo : 2 * y ≤ LIMIT := by
    have hone : y ≤ y * 2 ^ 56 := Nat.le_mul_of_pos_right y (by decide)
    omega
  have hroom {k : ℕ} (hk : k ≤ 56) : k / 32 < BN_LIMBS := (Nat.div_le_div_right hk).trans_lt (by decide)
  have hn1 : Holds (num.shl s.fracbits) (x * 2 ^ s.fracbits) := hn.shl (hroom hs.fracbits.2) (hshift hlt hs.fracbits.2)
  obtain ⟨hr, hhi⟩ := divmod_spec hn1 hd hy htwo
  rw [hsmall hlt hs.fracbits.2] at hhi
  have hrlt : x * 2 ^ s.fracbits % y < y := Nat.mod_lt _ hy
  rw [hfpFraction]
  dsimp only
  rw [hhi]
  cases hext : s.ext with
  | true =>
    rw [if_pos rfl]
    have hn2 := hr.shl (hroom hs.lofrac) (hshift hrlt hs.lofrac)
    obtain ⟨hr2, hlo⟩ := divmod_spec hn2 hd hy htwo
    rw [hsmall hrlt hs.lofrac] at hlo
    have hr2lt : x * 2 ^ s.fracbits % y * 2 ^ s.lofrac % y < y := Nat.mod_lt _ hy
    have hr2' := hr2.mulSmall (m := 2) (by decide) (by decide) (by rw [← LIMIT]; omega)
    obtain ⟨hquot, hrem, hbelow⟩ := two_pieces (x * 2 ^ s.fracbits) hy (Nat.pow_pos (n := s.lofrac) (by decide : 0 < 2))
    have hwhole : halfUp (x * 2 ^ (s.fracbits + s.lofrac)) y = x * 2 ^ s.fracbits / y * 2 ^ s.lofrac +
        (x * 2 ^ s.fracbits % y * 2 ^ s.lofrac / y + if y ≤ 2 * (x * 2 ^ s.fracbits % y * 2 ^ s.lofrac % y) then 1 else 0) := by
      rw [halfUp, pow_add, ← Nat.mul_assoc, hquot, hrem, Nat.add_assoc]
    have hlofrac : s.lofrac < 64 := hs.lofrac.trans_lt (by decide)
    rw [hlo, half_bit hr2 hd hr2lt htwo, hwhole, hn.lost, hd.lost, hn1.lost, hr.lost, hn2.lost, hr2.lost, hr2'.lost]
    generalize x * 2 ^ s.fracbits % y * 2 ^ s.lofrac / y = lo at hbelow ⊢
    generalize x * 2 ^ s.fracbits % y * 2 ^ s.lofrac % y = left
    by_cases hfull : 2 ^ s.lofrac ≤ lo + if y ≤ 2 * left then 1 else 0
    · -- the low half rounded up into the high one
      rw [if_pos ⟨hlofrac, shiftRight_ne_zero.mpr hfull⟩]
      refine ⟨rfl, Nat.pow_pos (by decide), ?_⟩
      dsimp only
      rw [Nat.add_mul]
      split at hfull <;> split <;> omega
    · rw [if_neg fun h => hfull (shiftRight_ne_zero.mp h.2)]
      exact ⟨rfl, not_le.mp hfull, rfl⟩
  | false =>
    rw [if_neg Bool.false_ne_true]
    have hr' := hr.mulSmall (m := 2) (by decide) (by decide) (by rw [← LIMIT]; omega)
    rw [hs.single hext]
    simp only [hn.lost, hd.lost, hn1.lost, hr.lost, hr'.lost, Bool.or_false, pow_zero, Nat.mul_one, Nat.add_zero]
    exact ⟨trivial, by decide, half_bit hr hd hrlt htwo _⟩

/-- The whole fraction, of both halves. -/
def Float.frac (s : Halves) (h : Float) : ℕ := h.hi * 2 ^ s.lofrac + h.lo

theorem renormalise_spec {s : Halves} (hs : Sized s) {h : Float} (hlo : h.lo < 2 ^ s.lofrac) (hle : h.frac s ≤ 2 ^ (s.fracbits + s.lofrac)) :
    (renormalise s h).lost = h.lost ∧ (renormalise s h).lo < 2 ^ s.lofrac ∧
      (if h.frac s = 2 ^ (s.fracbits + s.lofrac) then (renormalise s h).frac s = h.frac s / 16 ∧ (renormalise s h).exp = h.exp + 1
        else (renormalise s h).frac s = h.frac s ∧ (renormalise s h).exp = h.exp) := by
  have hbits : s.fracbits < 64 := hs.fracbits.2.trans_lt (by decide)
  have hpos : 0 < 2 ^ s.lofrac := Nat.pow_pos (by decide)
  rw [Float.frac, pow_add] at *
  rw [renormalise]
  by_cases hone : 2 ^ s.fracbits ≤ h.hi
  · have hhi : h.hi = 2 ^ s.fracbits := by
      by_contra hne
      have hlt : 2 ^ s.fracbits + 1 ≤ h.hi := by omega
      have hmul := Nat.mul_le_mul_right (2 ^ s.lofrac) hlt
      rw [Nat.add_mul] at hmul
      omega
    have hlow : h.lo = 0 := by
      rw [hhi] at hle
      omega
    have hsplit : 2 ^ s.fracbits = 2 ^ (s.fracbits - 4) * 16 := by
      rw [show 16 = 2 ^ 4 by norm_num, ← pow_add, Nat.sub_add_cancel hs.fracbits.1]
    have hcarry : 2 ^ s.fracbits &&& 0xf = 0 := by
      rw [show 0xf = 2 ^ 4 - 1 by norm_num, Nat.and_two_pow_sub_one_eq_mod, hsplit]
      exact Nat.mul_mod_left _ _
    rw [if_pos ⟨hbits, shiftRight_ne_zero.mpr hone⟩, hhi, hlow, hcarry, Nat.zero_shiftRight, Nat.zero_shiftLeft]
    simp only [Nat.or_zero, ite_self, Nat.add_zero, if_true]
    refine ⟨trivial, hpos, ?_, trivial⟩
    rw [Nat.shiftRight_eq_div_pow, hsplit, Nat.mul_right_comm, Nat.mul_div_cancel _ (by norm_num), Nat.mul_div_cancel _ (by norm_num)]
    rfl
  · rw [if_neg fun h' => hone (shiftRight_ne_zero.mp h'.2), if_neg]
    · exact ⟨rfl, hlo, rfl, rfl⟩
    · have hmul := Nat.mul_le_mul_right (2 ^ s.lofrac) (Nat.succ_le_of_lt (not_le.mp hone))
      rw [Nat.succ_mul] at hmul
      omega

theorem halfUp_eq (n : ℕ) {d : ℕ} (hd : 0 < d) : (halfUp n d : ℤ) = round ((n : ℚ) / d) := (HalfUp.round_div n hd).symm

theorem ten_pow_75 : 10 ^ 75 < 2 ^ 250 := by norm_num

theorem ten_pow_lt {k : ℕ} (j : ℕ) (h : k ≤ 75 * (j + 1)) : 10 ^ k < 2 ^ (250 * (j + 1)) := by
  calc 10 ^ k ≤ (10 ^ 75) ^ (j + 1) := by
        rw [← pow_mul]
        exact Nat.pow_le_pow_right (by decide) h
    _ < (2 ^ 250) ^ (j + 1) := Nat.pow_lt_pow_left ten_pow_75 (Nat.succ_ne_zero j)
    _ = 2 ^ (250 * (j + 1)) := (pow_mul 2 250 (j + 1)).symm

theorem lt_limit {n k : ℕ} (h : n < 2 ^ k) (hk : k ≤ 2048) : n < LIMIT := by
  rw [limit_eq]
  exact h.trans_le (Nat.pow_le_pow_right (by decide) hk)

/-- The ratio of the raised numbers is the value under its hexadecimal exponent. -/
theorem raised_ratio (M : ℕ) (P : ℤ) (k₁ k₂ : ℕ) : ((M * 10 ^ P.toNat * 16 ^ k₂ : ℕ) : ℚ) / (1 * 10 ^ (-P).toNat * 16 ^ k₁ : ℕ) =
    (M : ℚ) * 10 ^ P / 16 ^ ((k₁ : ℤ) - k₂) := by
  have hten : (10 : ℚ) ^ P = 10 ^ P.toNat / 10 ^ (-P).toNat := by
    rw [← zpow_natCast, ← zpow_natCast, ← zpow_sub₀ (by norm_num), Int.toNat_sub_toNat_neg]
  rw [hten, zpow_sub₀ (by norm_num), zpow_natCast, zpow_natCast]
  push_cast
  field_simp

/-- `h` is the number `v`, rounded at the last bit of a constant of these halves. -/
structure Developed (s : Halves) (v : ℚ) (e : ℤ) (h : Float) : Prop where
  lost : h.lost = false
  lo : h.lo < 2 ^ s.lofrac
  low : 16 ^ (e - 1) ≤ v
  high : v < 16 ^ e
  exp : h.exp = (HexFloat.rounded (s.fracbits + s.lofrac) v e).exp + 64
  frac : h.frac s = (HexFloat.rounded (s.fracbits + s.lofrac) v e).frac

theorem developed_of_ratio {s : Halves} (hs : Sized s) (hn : Holds num x) (hd : Holds den y) (hbelow : x < y) (habove : y ≤ x * 16)
    (hroom : y * 2 ^ 58 ≤ LIMIT) {v : ℚ} {e : ℤ} (hratio : (x : ℚ) / y = v / 16 ^ e) :
    Developed s v e (renormalise s { hfpFraction num den s with exp := 64 + e }) := by
  obtain ⟨hlost, hlo, hfrac⟩ := hfpFraction_spec hs hn hd hbelow hroom
  generalize hfpFraction num den s = f at *
  have hy : 0 < y := (Nat.zero_le x).trans_lt hbelow
  have hyq : (0 : ℚ) < y := by exact_mod_cast hy
  have hunit : (0 : ℚ) < 16 ^ e := by positivity
  have hhigh : v < 16 ^ e := by
    rw [← div_lt_one hunit, ← hratio, div_lt_one hyq]
    exact_mod_cast hbelow
  have hlow : 16 ^ (e - 1) ≤ v := by
    rw [zpow_sub_one₀ (by norm_num), ← div_eq_mul_inv, div_le_iff₀ (by norm_num), ← one_le_div₀ hunit, mul_div_right_comm, ← hratio,
      div_mul_eq_mul_div, one_le_div₀ hyq]
    exact_mod_cast habove
  have hround : ((f.frac s : ℕ) : ℤ) = round (v / 16 ^ e * 2 ^ (s.fracbits + s.lofrac)) := by
    rw [Float.frac, hfrac, halfUp_eq _ hy, ← hratio]
    push_cast
    rw [mul_div_right_comm]
  have hbound := (HexFloat.round_bounds (p := s.fracbits + s.lofrac) (le_trans hs.fracbits.1 (Nat.le_add_right _ _)) hlow hhigh).2
  rw [← hround, Int.ofNat_le] at hbound
  obtain ⟨hlost', hlo', hrest⟩ := renormalise_spec hs (h := { f with exp := 64 + e }) hlo hbound
  have hrounded : HexFloat.rounded (s.fracbits + s.lofrac) v e =
      if f.frac s = 2 ^ (s.fracbits + s.lofrac) then ⟨e + 1, f.frac s / 16⟩ else ⟨e, f.frac s⟩ := by
    rw [HexFloat.rounded, ← hround]
    rfl
  have hsame : Float.frac s { f with exp := 64 + e } = f.frac s := rfl
  rw [hsame] at hrest
  refine ⟨hlost'.trans hlost, hlo', hlow, hhigh, ?_, ?_⟩
  · rw [hrounded]
    split at hrest <;> rename_i hone
    · rw [if_pos hone, hrest.2, Int.add_comm 64 e, Int.add_right_comm]
    · rw [if_neg hone, hrest.2, Int.add_comm]
  · rw [hrounded]
    split at hrest <;> rename_i hone
    · rw [if_pos hone, hrest.1]
    · rw [if_neg hone, hrest.1]

/-- A number of at most 255 digits, by a power of ten in the range of the exponents, is developed exactly. -/
theorem hfpConvert_spec {m : Bn} {M : ℕ} {P : ℤ} {s : Halves} (hm : Holds m M) (hpos : 0 < M) (hM : M < 10 ^ 255)
    (hlow : -340 ≤ P) (hhigh : P ≤ 75) (hs : Sized s) : ∃ h e, hfpConvert m P s = some h ∧ Developed s ((M : ℚ) * 10 ^ P) e h := by
  have hnumSize : M * 10 ^ P.toNat < 2 ^ 1250 := by
    calc M * 10 ^ P.toNat ≤ 10 ^ 255 * 10 ^ P.toNat := Nat.mul_le_mul_right _ hM.le
      _ = 10 ^ (255 + P.toNat) := (pow_add 10 _ _).symm
      _ < 2 ^ 1250 := ten_pow_lt 4 (by omega)
  have hdenSize : 1 * 10 ^ (-P).toNat < 2 ^ 1250 := by
    rw [Nat.one_mul]
    exact ten_pow_lt 4 (by omega)
  have hnum : Holds (timesTen m P.toNat) (M * 10 ^ P.toNat) := holds_timesTen hm _ (lt_limit hnumSize (by decide))
  have hden : Holds (timesTen (.set 1) (-P).toNat) (1 * 10 ^ (-P).toNat) := holds_timesTen (holds_set 1) _ (lt_limit hdenSize (by decide))
  have hnumPos : 0 < M * 10 ^ P.toNat := by positivity
  have hdenPos : 0 < 1 * 10 ^ (-P).toNat := by positivity
  have hratio := raised_ratio M P
  generalize M * 10 ^ P.toNat = x at hnumSize hnum hnumPos hratio
  generalize 1 * 10 ^ (-P).toNat = y at hdenSize hden hdenPos hratio
  have hraise : 2 ^ 1254 ≤ 16 ^ 2047 := by
    rw [show 16 = 2 ^ 4 by norm_num, ← pow_mul]
    exact Nat.pow_le_pow_right (by decide) (by decide)
  have hsixteen {n k : ℕ} (h : n < 2 ^ k) : 16 * n < 2 ^ (k + 4) := by
    rw [pow_add, Nat.mul_comm]
    exact Nat.mul_lt_mul_of_pos_right h (by decide)
  have hnumFuel : x < 2 ^ 1254 := hnumSize.trans (Nat.pow_lt_pow_right (by decide) (by decide))
  obtain ⟨k₁, den, hraiseDen, hden, hlt, hnear⟩ := raiseDen_spec hnum hden (lt_limit (hsixteen hnumSize) (by decide)) 2047
    (hnumFuel.trans_le (hraise.trans (Nat.le_mul_of_pos_left _ hdenPos))) 64
  have hdenSize : y * 16 ^ k₁ < 2 ^ 1254 := by
    rcases hnear with hzero | hnear
    · rw [hzero, pow_zero, Nat.mul_one]
      exact hdenSize.trans (Nat.pow_lt_pow_right (by decide) (by decide))
    · exact hnear.trans_lt (hsixteen hnumSize)
  have hroom : y * 16 ^ k₁ * 2 ^ 58 ≤ LIMIT := by
    apply le_of_lt
    apply lt_limit (k := 1254 + 58) _ (by decide)
    rw [pow_add]
    exact Nat.mul_lt_mul_of_pos_right hdenSize (by decide)
  have hnumRaise : 16 ^ 2047 ≤ 16 ^ (2047 + 1) := Nat.pow_le_pow_right (by decide) (Nat.le_succ _)
  obtain ⟨k₂, num, hraiseNum, hnum, hbelow, habove⟩ := raiseNum_spec hnum hden hlt (lt_limit (hsixteen hdenSize) (by decide)).le 2047
    (hdenSize.le.trans (hraise.trans (hnumRaise.trans (Nat.le_mul_of_pos_left _ hnumPos)))) (64 + k₁)
  rw [Int.add_sub_assoc] at hraiseNum
  refine ⟨_, _, ?_, developed_of_ratio hs hnum hden hbelow habove hroom (hratio k₁ k₂)⟩
  have hfuel : FUEL = 2047 + 1 := rfl
  rw [hfpConvert, hfuel]
  dsimp only
  rw [hraiseDen, Option.bind_eq_bind, Option.bind_some]
  dsimp only
  rw [hraiseNum]
  rfl

end Cc370.As370.Hfp
