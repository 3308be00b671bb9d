import Cc370.Lib.Restoring
import Cc370.Runtime.DoubleWord

namespace Cc370.Runtime

open Cc370.Lib Halves

def divideByZero : Except Stop (BitVec 32) := .error .divide

/-- The variables of the loop. -/
structure Round where
  h : BitVec 32
  l : BitVec 32
  nh : BitVec 32
  nl : BitVec 32
  xh : BitVec 32
  xl : BitVec 32

namespace Round

def start (n : Dw) : Round := ⟨0, 0, n.hi, n.lo, 0, 0⟩

def rem (s : Round) : Dw := ⟨s.h, s.l⟩

def num (s : Round) : Dw := ⟨s.nh, s.nl⟩

def quo (s : Round) : Dw := ⟨s.xh, s.xl⟩

def shift (s : Round) : Round where
  h := s.h <<< 1 ||| s.l >>> 31
  l := s.l <<< 1 ||| s.nh >>> 31
  nh := s.nh <<< 1 ||| s.nl >>> 31
  nl := s.nl <<< 1
  xh := s.xh <<< 1 ||| s.xl >>> 31
  xl := s.xl <<< 1

def restore (d : Dw) (s : Round) : Round :=
  if d.hi < s.h ∨ s.h = d.hi ∧ d.lo ≤ s.l then
    { s with h := s.h - (d.hi + carry (s.l < d.lo)), l := s.l - d.lo, xl := s.xl ||| 1 }
  else s

def next (d : Dw) (s : Round) : Round := (s.shift).restore d

end Round

def hardwareDivide (n d : Dw) : Dw × Dw :=
  let q := n.lo / d.lo
  (⟨0, q⟩, ⟨0, n.lo - q * d.lo⟩)

def restoringDivide (n d : Dw) : Dw × Dw :=
  let s := (Round.next d)^[64] (Round.start n)
  (s.quo, s.rem)

/-- The divisor is not zero. -/
def udivmod (n d : Dw) : Dw × Dw :=
  if n.hi = 0 ∧ d.hi = 0 then hardwareDivide n d else restoringDivide n d

def udivdi3 (a b : BitVec 64) : Except Stop (BitVec 64) :=
  let n := Dw.of a
  let d := Dw.of b
  if d.hi = 0 ∧ d.lo = 0 then do
    let lo ← divideByZero
    return Dw.u ⟨0, lo⟩
  else return (udivmod n d).1.u

def umoddi3 (a b : BitVec 64) : Except Stop (BitVec 64) :=
  let n := Dw.of a
  let d := Dw.of b
  if d.hi = 0 ∧ d.lo = 0 then do
    let lo ← divideByZero
    return Dw.u ⟨0, lo⟩
  else return (udivmod n d).2.u

def divdi3 (a b : BitVec 64) : Except Stop (BitVec 64) :=
  let n := Dw.of a
  let d := Dw.of b
  if d.hi = 0 ∧ d.lo = 0 then do
    let lo ← divideByZero
    return Dw.u ⟨0, lo⟩
  else
    let (n, negative) := if n.hi &&& 0x80000000 ≠ 0 then (negate n, true) else (n, false)
    let (d, negative) := if d.hi &&& 0x80000000 ≠ 0 then (negate d, !negative) else (d, negative)
    let q := (udivmod n d).1
    return (if negative then negate q else q).u

def moddi3 (a b : BitVec 64) : Except Stop (BitVec 64) :=
  let n := Dw.of a
  let d := Dw.of b
  if d.hi = 0 ∧ d.lo = 0 then do
    let lo ← divideByZero
    return Dw.u ⟨0, lo⟩
  else
    let (n, negative) := if n.hi &&& 0x80000000 ≠ 0 then (negate n, true) else (n, false)
    let d := if d.hi &&& 0x80000000 ≠ 0 then negate d else d
    let r := (udivmod n d).2
    return (if negative then negate r else r).u

section Loop

open Restoring

variable {d : Dw} {s : Round}

/-- The numbers behind the words. -/
def Round.state (s : Round) : State := ⟨s.rem.u.toNat, s.num.u.toNat, s.quo.u.toNat⟩

/-- A word moved up by a bit, with the highest bit of the next below. -/
theorem toNat_shift_in (x y : BitVec 32) : (x <<< 1 ||| y >>> 31).toNat = 2 * x.toNat % 2 ^ 32 + y.toNat / 2 ^ 31 := by
  have hy := y.isLt
  have hlow : y.toNat / 2 ^ 31 < 2 ^ 1 := by omega
  have hshift : x.toNat <<< 1 % 2 ^ 32 = (x.toNat % 2 ^ 31) <<< 1 := by
    rw [Nat.shiftLeft_eq, Nat.shiftLeft_eq]
    omega
  rw [BitVec.toNat_or, BitVec.toNat_shiftLeft, BitVec.toNat_ushiftRight, Nat.shiftRight_eq_div_pow, hshift,
    ← Nat.shiftLeft_add_eq_or_of_lt hlow, Nat.shiftLeft_eq]
  omega

theorem shift_rem (s : Round) : s.shift.rem.u.toNat = (2 * s.rem.u.toNat + s.num.u.toNat / 2 ^ 63) % 2 ^ 64 := by
  have hh := s.h.isLt
  have hl := s.l.isLt
  have hnh := s.nh.isLt
  have hnl := s.nl.isLt
  rw [Dw.toNat_u, Dw.toNat_u, Dw.toNat_u]
  simp only [Round.rem, Round.num, Round.shift, toNat_shift_in]
  omega

theorem shift_num (s : Round) : s.shift.num.u.toNat = 2 * s.num.u.toNat % 2 ^ 64 := by
  have hnh := s.nh.isLt
  have hnl := s.nl.isLt
  rw [Dw.toNat_u, Dw.toNat_u]
  simp only [Round.num, Round.shift, toNat_shift_in, BitVec.toNat_shiftLeft, Nat.shiftLeft_eq]
  omega

theorem shift_quo (s : Round) : s.shift.quo.u.toNat = 2 * s.quo.u.toNat % 2 ^ 64 := by
  have hxh := s.xh.isLt
  have hxl := s.xl.isLt
  rw [Dw.toNat_u, Dw.toNat_u]
  simp only [Round.quo, Round.shift, toNat_shift_in, BitVec.toNat_shiftLeft, Nat.shiftLeft_eq]
  omega

theorem restore_of_le (h : d.u ≤ s.rem.u) :
    (s.restore d).rem.u = s.rem.u - d.u ∧ (s.restore d).num = s.num ∧ (s.restore d).quo = ⟨s.xh, s.xl ||| 1⟩ := by
  have hcond : d.hi < s.h ∨ s.h = d.hi ∧ d.lo ≤ s.l := by
    rw [eq_comm (a := s.h)]
    exact (join_le_iff (w := 32)).mp h
  rw [Round.restore, if_pos hcond]
  refine ⟨?_, rfl, rfl⟩
  have hsub := join_sub (w := 32) (by decide) s.rem d
  rw [sub_sub] at hsub
  exact hsub

theorem restore_of_lt (h : s.rem.u < d.u) : s.restore d = s := by
  apply if_neg
  rw [eq_comm (a := s.h)]
  intro hle
  have hle : d.u ≤ s.rem.u := (join_le_iff (w := 32)).mpr hle
  rw [BitVec.le_def] at hle
  rw [BitVec.lt_def] at h
  omega

/-- The lowest bit of the quotient is free after the shift. -/
theorem set_low (s : Round) : Dw.u ⟨s.shift.xh, s.shift.xl ||| 1⟩ = s.shift.quo.u + 1 := by
  have hlow : s.shift.xl ||| 1 = s.shift.xl + 1 := by
    have hand : s.shift.xl &&& 1 = 0 := by
      apply BitVec.eq_of_getLsbD_eq
      intro i hi
      rcases i with _ | i <;> simp [Round.shift, BitVec.getLsbD_one]
    exact (BitVec.add_eq_or_of_and_eq_zero _ _ hand).symm
  have hxl : s.shift.xl.toNat + 1 < 2 ^ 32 := by
    have hlt := s.xl.isLt
    simp only [Round.shift, BitVec.toNat_shiftLeft, Nat.shiftLeft_eq]
    omega
  apply BitVec.eq_of_toNat_eq
  have hxh := s.shift.xh.isLt
  have hone : (1 : BitVec 32).toNat = 1 := rfl
  have hone' : (1 : BitVec 64).toNat = 1 := rfl
  rw [hlow, BitVec.toNat_add, Dw.toNat_u, Dw.toNat_u, BitVec.toNat_add, hone, hone']
  dsimp only [Round.quo]
  omega

theorem next_state (hrem : s.rem.u.toNat < 2 ^ 63) (hquo : s.quo.u.toNat < 2 ^ 63) :
    (s.next d).state = step 64 d.u.toNat s.state := by
  have hnum := s.num.u.isLt
  have hd := d.u.isLt
  have hshift : s.shift.rem.u.toNat = shifted 64 s.state := by
    rw [shift_rem, Nat.mod_eq_of_lt (by omega)]
    rfl
  have hdouble : s.shift.quo.u.toNat = 2 * s.quo.u.toNat := by
    rw [shift_quo, Nat.mod_eq_of_lt (by omega)]
  rw [Round.next, step, ← hshift]
  split
  · rename_i hle
    obtain ⟨hr, hn, hq⟩ := restore_of_le (BitVec.le_def.mpr hle)
    rw [Round.state, hr, hn, hq, set_low, BitVec.toNat_sub_of_le (BitVec.le_def.mpr hle), shift_num, BitVec.toNat_add, hdouble]
    congr 1
    have hone : (1 : BitVec 64).toNat = 1 := rfl
    rw [hone]
    exact Nat.mod_eq_of_lt (by omega)
  · rename_i hgt
    rw [restore_of_lt (BitVec.lt_def.mpr (not_le.mp hgt)), Round.state, shift_num, hdouble]
    rfl

variable (n : Dw) (hd : d.u ≠ 0)
include hd

theorem divisor_pos : 0 < d.u.toNat := Nat.pos_of_ne_zero fun h => hd (BitVec.eq_of_toNat_eq h)

/-- The loop on words is the loop on numbers, and the invariant of the latter holds in it. -/
theorem rounds_hold {k : ℕ} (hk : k ≤ 64) : Holds 64 d.u.toNat n.u.toNat k ((Round.next d)^[k] (Round.start n)).state := by
  induction k with
  | zero =>
    have hstart : (Round.start n).state = ⟨0, n.u.toNat, 0⟩ := by
      rw [Round.state, Dw.toNat_low (x := (Round.start n).rem) rfl, Dw.toNat_low (x := (Round.start n).quo) rfl]
      rfl
    rw [Function.iterate_zero_apply, hstart]
    exact holds_init (divisor_pos hd) n.u.isLt
  | succ k ih =>
    have h := ih (by omega)
    have hpow : 2 ^ k ≤ 2 ^ 63 := Nat.pow_le_pow_right two_pos (by omega)
    rw [Function.iterate_succ_apply', next_state (h.rem_small.trans_le hpow) (h.quo_small.trans_le hpow)]
    exact holds_step (by omega) h

/-- The bit that a shift moves out of the remainder is zero. -/
theorem no_bit_lost {k : ℕ} (hk : k < 64) : ((Round.next d)^[k] (Round.start n)).h.msb = false := by
  have hsmall := (rounds_hold n hd hk.le).rem_small
  have hpow : 2 ^ k ≤ 2 ^ 63 := Nat.pow_le_pow_right two_pos (by omega)
  have hlt : ((Round.next d)^[k] (Round.start n)).rem.u.toNat < 2 ^ 63 := hsmall.trans_le hpow
  rw [Dw.toNat_u] at hlt
  rw [BitVec.msb_eq_decide, decide_eq_false_iff_not, not_le]
  change _ < 2 ^ 31
  change ((Round.next d)^[k] (Round.start n)).h.toNat * 2 ^ 32 + _ < 2 ^ 63 at hlt
  omega

theorem restoringDivide_spec : (restoringDivide n d).1.u = n.u / d.u ∧ (restoringDivide n d).2.u = n.u % d.u := by
  have h := rounds_hold n hd (le_refl 64)
  have hsplit := h.split
  rw [Nat.sub_self, pow_zero, Nat.div_one, Nat.mul_comm] at hsplit
  exact ⟨(BitVec.udiv_eq_of_mul_add_toNat (divisor_pos hd) h.rem_lt hsplit.symm).symm, (BitVec.umod_eq_of_mul_add_toNat h.rem_lt hsplit.symm).symm⟩

end Loop

theorem hardwareDivide_spec {n d : Dw} (hn : n.hi = 0) (hd : d.hi = 0) :
    (hardwareDivide n d).1.u = n.u / d.u ∧ (hardwareDivide n d).2.u = n.u % d.u := by
  have hnu := Dw.toNat_low hn
  have hdu := Dw.toNat_low hd
  have hrem : n.lo - n.lo / d.lo * d.lo = n.lo % d.lo := by
    have hdiv := Nat.div_add_mod n.lo.toNat d.lo.toNat
    have hle : (n.lo / d.lo * d.lo).toNat = n.lo.toNat / d.lo.toNat * d.lo.toNat := by
      rw [BitVec.toNat_mul, BitVec.toNat_udiv]
      exact Nat.mod_eq_of_lt ((Nat.div_mul_le_self _ _).trans_lt n.lo.isLt)
    apply BitVec.eq_of_toNat_eq
    rw [BitVec.toNat_sub_of_le (BitVec.le_def.mpr (by rw [hle]; exact Nat.div_mul_le_self _ _)), hle, BitVec.toNat_umod]
    rw [Nat.mul_comm] at hdiv
    omega
  constructor
  · apply BitVec.eq_of_toNat_eq
    rw [Dw.toNat_low rfl, BitVec.toNat_udiv, hnu, hdu]
    exact BitVec.toNat_udiv
  · apply BitVec.eq_of_toNat_eq
    rw [Dw.toNat_low rfl, BitVec.toNat_umod, hnu, hdu, hardwareDivide]
    dsimp only
    rw [hrem]
    exact BitVec.toNat_umod

theorem udivmod_spec (n : Dw) {d : Dw} (hd : d.u ≠ 0) : (udivmod n d).1.u = n.u / d.u ∧ (udivmod n d).2.u = n.u % d.u := by
  rw [udivmod]
  split
  · rename_i h
    exact hardwareDivide_spec h.1 h.2
  · exact restoringDivide_spec n hd

section Entries

variable (a : BitVec 64) {b : BitVec 64} (hb : b ≠ 0)
include hb

theorem divisor_words : ¬ ((Dw.of b).hi = 0 ∧ (Dw.of b).lo = 0) := by
  rw [← Dw.u_eq_zero, Dw.u_of]
  exact hb

theorem udivdi3_eq : udivdi3 a b = .ok (a / b) := by
  rw [udivdi3, if_neg (divisor_words hb), (udivmod_spec _ (by rwa [Dw.u_of])).1, Dw.u_of, Dw.u_of]
  rfl

theorem umoddi3_eq : umoddi3 a b = .ok (a % b) := by
  rw [umoddi3, if_neg (divisor_words hb), (udivmod_spec _ (by rwa [Dw.u_of])).2, Dw.u_of, Dw.u_of]
  rfl

theorem divdi3_eq : divdi3 a b = .ok (a.sdiv b) := by
  have hneg : (negate (Dw.of b)).u ≠ 0 := by rwa [negate_u, Dw.u_of, neg_ne_zero]
  have hpos : (Dw.of b).u ≠ 0 := by rwa [Dw.u_of]
  have ha : a.msb = (Dw.of a).hi.msb := by rw [← Dw.msb_u, Dw.u_of]
  have hbm : b.msb = (Dw.of b).hi.msb := by rw [← Dw.msb_u, Dw.u_of]
  rw [divdi3, if_neg (divisor_words hb), BitVec.sdiv_eq, ha, hbm]
  simp only [sign_bit]
  cases (Dw.of a).hi.msb <;> cases (Dw.of b).hi.msb
  · simp [udivmod_spec _ hpos]
    rfl
  · simp [udivmod_spec _ hneg, negate_u]
    rfl
  · simp [udivmod_spec _ hpos, negate_u]
    rfl
  · simp [udivmod_spec _ hneg, negate_u]
    rfl

theorem moddi3_eq : moddi3 a b = .ok (a.srem b) := by
  have hneg : (negate (Dw.of b)).u ≠ 0 := by rwa [negate_u, Dw.u_of, neg_ne_zero]
  have hpos : (Dw.of b).u ≠ 0 := by rwa [Dw.u_of]
  have ha : a.msb = (Dw.of a).hi.msb := by rw [← Dw.msb_u, Dw.u_of]
  have hbm : b.msb = (Dw.of b).hi.msb := by rw [← Dw.msb_u, Dw.u_of]
  rw [moddi3, if_neg (divisor_words hb), BitVec.srem_eq, ha, hbm]
  simp only [sign_bit]
  cases (Dw.of a).hi.msb <;> cases (Dw.of b).hi.msb
  · simp [udivmod_spec _ hpos]
    rfl
  · simp [udivmod_spec _ hneg, negate_u]
    rfl
  · simp [udivmod_spec _ hpos, negate_u]
    rfl
  · simp [udivmod_spec _ hneg, negate_u]
    rfl

end Entries

theorem division_exact (a b : BitVec 64) (hb : b ≠ 0) :
    (∃ q, udivdi3 a b = .ok q ∧ q.toNat = a.toNat / b.toNat) ∧
    (∃ r, umoddi3 a b = .ok r ∧ r.toNat = a.toNat % b.toNat) ∧
    (∃ q, divdi3 a b = .ok q ∧ q.toInt = (a.toInt.tdiv b.toInt).bmod (2 ^ 64)) ∧
    (∃ r, moddi3 a b = .ok r ∧ r.toInt = a.toInt.tmod b.toInt) ∧
    divdi3 (BitVec.intMin 64) (-1) = .ok (BitVec.intMin 64) ∧
    (restoringDivide (.of a) (.of b)).1.u = a / b ∧ (restoringDivide (.of a) (.of b)).2.u = a % b ∧
    ∀ k < 64, ((Round.next (.of b))^[k] (.start (.of a))).h.msb = false := by
  have hd : (Dw.of b).u ≠ 0 := by rwa [Dw.u_of]
  obtain ⟨hquo, hrem⟩ := restoringDivide_spec (.of a) hd
  rw [Dw.u_of, Dw.u_of] at hquo hrem
  refine ⟨⟨_, udivdi3_eq a hb, BitVec.toNat_udiv⟩, ⟨_, umoddi3_eq a hb, BitVec.toNat_umod⟩, ⟨_, divdi3_eq a hb, BitVec.toInt_sdiv a b⟩,
    ⟨_, moddi3_eq a hb, BitVec.toInt_srem a b⟩, ?_, hquo, hrem, fun k hk => no_bit_lost _ hd hk⟩
  rw [divdi3_eq _ (by decide)]
  exact congrArg Except.ok BitVec.intMin_sdiv_neg_one

theorem division_exact_above : udivdi3 (-1) 0x8000000000000001 = .ok 1 := by
  obtain ⟨⟨q, hq, hval⟩, -⟩ := division_exact (-1) 0x8000000000000001 (by decide)
  rw [hq, BitVec.eq_of_toNat_eq (y := 1) (hval.trans (by decide))]

end Cc370.Runtime
