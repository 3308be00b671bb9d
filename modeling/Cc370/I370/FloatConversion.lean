import Cc370.Lib.GuardDigit
import Cc370.Runtime.HexConversion

namespace Cc370.I370.FloatConversion

open Cc370.Lib Magnitude Cc370.Runtime

/-- A zero sum, or one whose exponent is too low, is a true zero where the program mask lets it be. -/
def trueZero : Pattern := ⟨false, -64, 0⟩

/-- The normalised sum of long operands; an exponent that is too high is an interruption. -/
def addLong (a b : Pattern) : Option Pattern :=
  let e := max a.mag.exp b.mag.exp
  let s := signed a.neg (a.mag.aligned e) + signed b.neg (b.mag.aligned e)
  let r := HexFloat.renormal 14 e s.natAbs
  if s = 0 then some trueZero
  else if 64 ≤ r.exp then none
  else if r.exp < -64 then some trueZero
  else some ⟨s < 0, r⟩

/-- The words of a long number. -/
def pack (h : Pattern) : Dw :=
  ⟨(if h.neg then 0x80000000#32 else 0#32) ||| BitVec.ofNat 32 (64 + h.mag.exp).toNat <<< 24 ||| BitVec.ofNat 32 (h.mag.frac / 2 ^ 32),
    BitVec.ofNat 32 h.mag.frac⟩

/-- The instructions of the two patterns; the work area at `CONVLO` and `CONVHI` is the one that they store in. -/
inductive Insn
  | LDR (r s : ℕ)
  | AD (r : ℕ) (c : Dw)
  | SD (r : ℕ) (c : Dw)
  | STD (r : ℕ)
  | LD (r : ℕ)
  | L (r : ℕ)
  | ST (r : ℕ)
  | MVC (c : BitVec 32)
  | XI (mask : BitVec 8)

structure State where
  gpr : ℕ → BitVec 32
  fpr : ℕ → Dw
  conv : Dw

namespace State

def setFpr (st : State) (r : ℕ) (v : Dw) : State := { st with fpr := Function.update st.fpr r v }

def setGpr (st : State) (r : ℕ) (v : BitVec 32) : State := { st with gpr := Function.update st.gpr r v }

end State

def step (st : State) : Insn → Option State
  | .LDR r s => some (st.setFpr r (st.fpr s))
  | .AD r c => (addLong (pattern (st.fpr r)) (pattern c)).map fun v => st.setFpr r (pack v)
  | .SD r c => (addLong (pattern (st.fpr r)) { pattern c with neg := !(pattern c).neg }).map fun v => st.setFpr r (pack v)
  | .STD r => some { st with conv := st.fpr r }
  | .LD r => some (st.setFpr r st.conv)
  | .L r => some (st.setGpr r st.conv.lo)
  | .ST r => some { st with conv := ⟨st.conv.hi, st.gpr r⟩ }
  | .MVC c => some { st with conv := ⟨c, st.conv.lo⟩ }
  | .XI mask => some { st with conv := ⟨st.conv.hi, st.conv.lo ^^^ mask.zeroExtend 32 <<< 24⟩ }

def run : List Insn → State → Option State
  | [], st => some st
  | i :: is, st => (step st i).bind (run is)

/-- `=XL8'4F08000000000000'` -/
def radix : Dw := ⟨0x4F080000, 0x00000000⟩

/-- `=XL8'4E00000080000000'` -/
def offset : Dw := ⟨0x4E000000, 0x80000000⟩

/-- Register 16 is the first floating-point register. -/
def fixTruncdfsi2 (op0 op1 : ℕ) : List Insn :=
  if op1 = 0 then [.AD 0 radix, .STD 0, .L op0] else [.LDR 0 op1, .AD 0 radix, .STD 0, .L op0]

def floatsidf2 (op0 op1 : ℕ) : List Insn := [.MVC 0x4E000000, .ST op1, .XI 128, .LD op0, .SD op0 offset]

/-- The first digit of the fraction is not zero, or the number is zero. -/
def Normalised (h : Pattern) : Prop := h.mag.Normal 56 ∨ h.mag.frac = 0

section Radix

variable {h : Pattern}

theorem pattern_radix : pattern radix = ⟨false, 15, 2 ^ 51⟩ := rfl

theorem pattern_offset : pattern offset = ⟨false, 14, 2 ^ 31⟩ := rfl

/-- A number below 2^32 has eight digits before the point. -/
theorem exp_le (hn : h.mag.Normal 56) (hlt : h.mag.value 56 < 2 ^ 32) : h.mag.exp ≤ 8 := by
  by_contra hexp
  have hle := HexFloat.le_value_of_lt_exp hn (not_le.mp hexp)
  have hpow : (16 : ℚ) ^ (8 : ℤ) = 2 ^ 32 := by norm_num
  rw [hpow] at hle
  exact absurd hlt (not_lt.mpr hle)

/-- The digits behind the point are those that are dropped. -/
theorem aligned_whole (he : h.mag.exp ≤ 15) : h.mag.aligned 15 = whole h.mag := by
  have hfloor := HexFloat.aligned_floor (D := 14) he
  have hunit : (16 : ℚ) ^ ((14 : ℕ) + 1 - 15 : ℤ) = 1 := by norm_num
  rw [hunit, mul_one] at hfloor
  exact_mod_cast hfloor.trans (floor_value h.mag)

theorem whole_lt (hlt : h.mag.value 56 < 2 ^ 32) : whole h.mag < 2 ^ 32 := by
  have hfloor : ⌊h.mag.value 56⌋ < ((2 ^ 32 : ℕ) : ℤ) := by
    rw [Int.floor_lt]
    exact_mod_cast hlt
  rw [floor_value] at hfloor
  exact_mod_cast hfloor

/-- The sum keeps its first digit free, so the guard digit becomes the last one. -/
theorem renormal_radix {m : ℕ} (hlow : 16 ^ 13 ≤ m) (hhigh : m < 16 ^ 14) : HexFloat.renormal 14 15 m = ⟨14, m⟩ := by
  have hlen : KeptDigits.len 16 m = 14 := KeptDigits.len_eq (n := 13) (by decide) hlow hhigh
  rw [HexFloat.renormal, if_neg (by omega), hlen]
  congr 1
  omega

theorem addLong_radix (he : h.mag.exp ≤ 15) (hlt : h.mag.value 56 < 2 ^ 32) :
    ∃ m : ℕ, addLong h (pattern radix) = some ⟨false, 14, m⟩ ∧ (m : ℤ) = signed h.neg (whole h.mag) + 2 ^ 55 := by
  have hwhole := whole_lt hlt
  have hbounds : -(2 ^ 32 : ℤ) < signed h.neg (whole h.mag) ∧ signed h.neg (whole h.mag) < 2 ^ 32 := by
    rw [signed]
    split <;> omega
  have hradix : (⟨15, 2 ^ 51⟩ : HexFloat).aligned 15 = 2 ^ 55 := by decide +kernel
  obtain ⟨m, hm⟩ := Int.eq_ofNat_of_zero_le (show 0 ≤ signed h.neg (whole h.mag) + 2 ^ 55 by omega)
  refine ⟨m, ?_, hm.symm⟩
  have hsum : signed h.neg (h.mag.aligned 15) + signed false ((⟨15, 2 ^ 51⟩ : HexFloat).aligned 15) = m := by
    rw [aligned_whole he, hradix, ← hm, signed, signed]
    norm_cast
  have hrange : 16 ^ 13 ≤ m ∧ m < 16 ^ 14 := by omega
  rw [addLong, pattern_radix]
  dsimp only
  rw [max_eq_right he, hsum, Int.natAbs_natCast, renormal_radix hrange.1 hrange.2, if_neg (by omega),
    if_neg (show ¬ (64 : ℤ) ≤ 14 by decide), if_neg (show ¬ (14 : ℤ) < -64 by decide), decide_eq_false (by omega)]

/-- A zero of a higher exponent moves the constant to the right, and the sum moves back. -/
theorem addLong_zero (hzero : h.mag.frac = 0) (he : 15 < h.mag.exp) :
    addLong h (pattern radix) = some ⟨false, 14, 2 ^ 55⟩ ∨ addLong h (pattern radix) = some trueZero := by
  obtain ⟨d, hd⟩ : ∃ d : ℕ, h.mag.exp = 15 + (d + 1 : ℕ) := ⟨(h.mag.exp - 16).toNat, by omega⟩
  have hx : h.mag.aligned h.mag.exp = 0 := by rw [HexFloat.aligned, hzero, Nat.zero_mul, Nat.zero_div]
  have hradix : (⟨15, 2 ^ 51⟩ : HexFloat).aligned h.mag.exp = 8 * 16 ^ 13 / 16 ^ (d + 1) := by
    have hconst : 2 ^ 51 * 16 = 8 * 16 ^ 13 := by norm_num
    rw [HexFloat.aligned, hd, show ((15 : ℤ) + (d + 1 : ℕ) - 15).toNat = d + 1 by omega]
    exact congrArg (· / 16 ^ (d + 1)) hconst
  have hsum : signed h.neg 0 + signed false (8 * 16 ^ 13 / 16 ^ (d + 1)) = (8 * 16 ^ 13 / 16 ^ (d + 1) : ℕ) := by
    cases h.neg <;> simp [signed]
  rw [addLong, pattern_radix]
  dsimp only
  rw [max_eq_left he.le, hx, hradix, hsum, Int.natAbs_natCast]
  by_cases hsmall : d + 1 ≤ 13
  · obtain ⟨k, hk⟩ : ∃ k, 13 = d + 1 + k := ⟨13 - (d + 1), by omega⟩
    have hdiv : 8 * 16 ^ 13 / 16 ^ (d + 1) = 8 * 16 ^ k := by
      rw [hk, pow_add, Nat.mul_left_comm, Nat.mul_div_cancel_left _ (by positivity)]
    have hpos := Nat.pow_pos (n := k) (show 0 < 16 by decide)
    have hlen : KeptDigits.len 16 (8 * 16 ^ k) = k + 1 := by
      apply KeptDigits.len_eq (by decide)
      · omega
      · rw [pow_succ]
        omega
    have hrenormal : HexFloat.renormal 14 h.mag.exp (8 * 16 ^ k) = ⟨14, 2 ^ 55⟩ := by
      have hle := Nat.pow_le_pow_right (show 0 < 16 by decide) (show k ≤ 12 by omega)
      have hback : 8 * 16 ^ k * 16 ^ (14 + 1 - (k + 1)) / 16 = 2 ^ 55 := by
        rw [Nat.mul_assoc, ← pow_add, show k + (14 + 1 - (k + 1)) = 14 by omega]
        rfl
      rw [HexFloat.renormal, if_neg (by omega), hlen, hback]
      congr 1
      omega
    left
    rw [hdiv, hrenormal, if_neg (by omega), if_neg (show ¬ (64 : ℤ) ≤ 14 by decide), if_neg (show ¬ (14 : ℤ) < -64 by decide),
      decide_eq_false (by omega)]
  · have hpow := Nat.pow_le_pow_right (show 0 < 16 by decide) (show 14 ≤ d + 1 by omega)
    right
    rw [if_pos]
    rw [Nat.div_eq_of_lt (by omega)]
    rfl

end Radix

/-- The last word of the sum is the number before the point. -/
theorem addLong_word {h : Pattern} (hn : Normalised h) (hlt : h.mag.value 56 < 2 ^ 32) :
    ∃ r, addLong h (pattern radix) = some r ∧ (pack r).lo = BitVec.ofInt 32 (truncate h.value) := by
  have hradix : BitVec.ofInt 32 (2 ^ 55) = 0 := rfl
  rw [truncate_value]
  by_cases he : h.mag.exp ≤ 15
  · obtain ⟨m, hsum, hm⟩ := addLong_radix he hlt
    refine ⟨_, hsum, ?_⟩
    have hword : BitVec.ofNat 32 m = BitVec.ofInt 32 (m : ℤ) := (BitVec.ofInt_natCast 32 m).symm
    rw [pack, hword, hm, BitVec.ofInt_add, hradix, add_zero]
  · have hzero : h.mag.frac = 0 := by
      refine hn.resolve_left fun hnormal => ?_
      have hle := exp_le hnormal hlt
      omega
    have hwhole : whole h.mag = 0 := by
      rw [whole, hzero]
      simp
    have hword : BitVec.ofInt 32 (signed h.neg 0) = 0 := by
      cases h.neg <;> rfl
    rw [hwhole, hword]
    rcases addLong_zero hzero (not_le.mp he) with hsum | hsum
    · exact ⟨_, hsum, rfl⟩
    · exact ⟨_, hsum, rfl⟩

/-- The work area gets the sum, and the register its last word. -/
theorem run_fix {st : State} {op1 : ℕ} {r : Pattern} (h : addLong (pattern (st.fpr op1)) (pattern radix) = some r) (op0 : ℕ) :
    ∃ st', run (fixTruncdfsi2 op0 op1) st = some st' ∧ st'.gpr op0 = (pack r).lo := by
  rw [fixTruncdfsi2]
  split
  · rename_i h0
    rw [h0] at h
    simp [run, step, h, State.setFpr, State.setGpr]
  · simp [run, step, h, State.setFpr, State.setGpr]

section Float

theorem xor_sign (n : BitVec 32) : ((n ^^^ (128 : BitVec 8).zeroExtend 32 <<< 24).toNat : ℤ) - 2 ^ 31 = n.toInt := by
  have hmask : ((128 : BitVec 8).zeroExtend 32 <<< 24).toNat = 2 ^ 31 := rfl
  have hlow : (n.toNat ^^^ 2 ^ 31) % 2 ^ 31 = n.toNat % 2 ^ 31 := by
    rw [Nat.xor_mod_two_pow, Nat.mod_self, Nat.xor_zero]
  have hhigh : (n.toNat ^^^ 2 ^ 31) / 2 ^ 31 = n.toNat / 2 ^ 31 ^^^ 1 := Nat.xor_div_two_pow
  have hn := n.isLt
  rw [BitVec.toNat_xor, hmask, BitVec.toInt_eq_toNat_cond]
  generalize n.toNat ^^^ 2 ^ 31 = w at *
  by_cases hpos : n.toNat < 2 ^ 31
  · rw [Nat.div_eq_of_lt hpos] at hhigh
    have hone : 0 ^^^ 1 = 1 := rfl
    rw [if_pos (by omega)]
    omega
  · have hdiv : n.toNat / 2 ^ 31 = 1 := by omega
    have hzero : 1 ^^^ 1 = 0 := rfl
    rw [hdiv] at hhigh
    rw [if_neg (by omega)]
    omega

/-- The normalised number of an integer. -/
def converted (z : ℤ) : Pattern := if z = 0 then trueZero else ⟨z < 0, HexFloat.renormal 14 14 (16 * z.natAbs)⟩

variable {z : ℤ} (hz : z.natAbs ≤ 2 ^ 31)
include hz

theorem converted_exp (h0 : z ≠ 0) : 0 ≤ (converted z).mag.exp ∧ (converted z).mag.exp < 64 := by
  have hm : 16 * z.natAbs ≠ 0 := by omega
  have hlow := KeptDigits.len_pos (b := 16) hm
  have hhigh := (Nat.pow_lt_pow_iff_right (by decide)).mp ((KeptDigits.pow_le (b := 16) (by decide) hm).trans_lt (by omega : 16 * z.natAbs < 16 ^ 10))
  rw [converted, if_neg h0, HexFloat.renormal, if_neg (by omega)]
  dsimp only
  omega

theorem converted_normal (h0 : z ≠ 0) : (converted z).mag.Normal 56 := by
  rw [converted, if_neg h0]
  exact HexFloat.renormal_normal (D := 14) (by decide) (by omega) (by omega)

theorem converted_value : (converted z).value = z := by
  by_cases h0 : z = 0
  · rw [h0, converted, if_pos rfl, trueZero, Pattern.value, HexFloat.value]
    simp
  · have hmag : (HexFloat.renormal 14 14 (16 * z.natAbs)).value 56 = z.natAbs := by
      have hvalue := HexFloat.renormal_value (D := 14) (e := 14) (m := 16 * z.natAbs) (by omega) (Or.inl ⟨_, rfl⟩)
      refine hvalue.trans ?_
      push_cast
      ring
    rw [converted, if_neg h0, Pattern.value]
    dsimp only
    rw [hmag]
    rcases lt_or_gt_of_ne h0 with hneg | hpos
    · rw [decide_eq_true hneg, if_pos rfl]
      have habs : (z.natAbs : ℤ) = -z := by omega
      rw [← Int.cast_natCast, habs, Int.cast_neg, neg_neg]
    · rw [decide_eq_false (by omega), if_neg Bool.false_ne_true]
      have habs : (z.natAbs : ℤ) = z := by omega
      rw [← Int.cast_natCast, habs]

omit hz in
theorem pattern_of_pack {h : Pattern} (h0 : 0 ≤ h.mag.exp) (h1 : h.mag.exp < 64) (hf : h.mag.frac < 2 ^ 56) : pattern (pack h) = h := by
  obtain ⟨n, hn⟩ := Int.eq_ofNat_of_zero_le h0
  have hhigh : (BitVec.ofNat 32 (h.mag.frac / 2 ^ 32)).toNat = h.mag.frac / 2 ^ 32 := by
    rw [BitVec.toNat_ofNat]
    omega
  have hword : (64 + h.mag.exp).toNat = 64 + n := by omega
  have hfrac : (Dw.u ⟨BitVec.ofNat 32 (h.mag.frac / 2 ^ 32), BitVec.ofNat 32 h.mag.frac⟩).toNat = h.mag.frac := by
    rw [Dw.toNat_u, hhigh, BitVec.toNat_ofNat]
    omega
  rw [pack, hword, pattern_pack _ (by omega) (by omega), hfrac, ← hn]

theorem pattern_converted : pattern (pack (converted z)) = converted z := by
  by_cases h0 : z = 0
  · rw [h0]
    rfl
  · obtain ⟨hlow, hhigh⟩ := converted_exp hz h0
    exact pattern_of_pack hlow hhigh (converted_normal hz h0).2

theorem addLong_offset {w : ℕ} (hw : (w : ℤ) - 2 ^ 31 = z) :
    addLong ⟨false, 14, w⟩ { pattern offset with neg := !(pattern offset).neg } = some (converted z) := by
  have haligned (f : ℕ) : (⟨14, f⟩ : HexFloat).aligned 14 = f * 16 := Nat.div_one _
  have hsum : signed false (w * 16) + signed true (2 ^ 31 * 16) = 16 * z := by
    rw [signed, signed, if_neg Bool.false_ne_true, if_pos rfl]
    push_cast
    omega
  have habs : (16 * z).natAbs = 16 * z.natAbs := Int.natAbs_mul 16 z
  rw [addLong, pattern_offset]
  dsimp only
  rw [max_self, haligned, haligned, Bool.not_false, hsum, habs]
  by_cases h0 : z = 0
  · rw [h0]
    rfl
  · obtain ⟨hlow, hhigh⟩ := converted_exp hz h0
    have hsign : decide (16 * z < 0) = decide (z < 0) := by
      rw [decide_eq_decide]
      omega
    rw [converted, if_neg h0] at hlow hhigh ⊢
    dsimp only at hlow hhigh
    rw [if_neg (by omega), if_neg (not_le.mpr hhigh), if_neg (by omega), hsign]

omit hz in
theorem pattern_word (w : BitVec 32) : pattern ⟨0x4E000000, w⟩ = ⟨false, 14, w.toNat⟩ := by
  have hfrac : (0x4E000000 : BitVec 32).toNat % 2 ^ 24 * 2 ^ 32 + w.toNat = w.toNat := Nat.zero_add _
  rw [pattern]
  dsimp only
  rw [hfrac]
  rfl

end Float

theorem natAbs_toInt_le (n : BitVec 32) : n.toInt.natAbs ≤ 2 ^ 31 := by
  have hle := n.le_toInt
  have hlt := n.toInt_lt
  omega

theorem run_float (st : State) (op0 op1 : ℕ) :
    ∃ st', run (floatsidf2 op0 op1) st = some st' ∧ st'.fpr op0 = pack (converted (st.gpr op1).toInt) := by
  have hsum := addLong_offset (natAbs_toInt_le (st.gpr op1)) (xor_sign (st.gpr op1))
  rw [← pattern_word] at hsum
  simp only [floatsidf2, run, step, State.setFpr, Option.bind_some, Function.update_self, hsum, Option.map_some]
  exact ⟨_, rfl, Function.update_self _ _ _⟩

theorem run_append (p q : List Insn) (st : State) : run (p ++ q) st = (run p st).bind (run q) := by
  induction p generalizing st with
  | nil => rfl
  | cons i p ih =>
    rw [List.cons_append, run, run]
    cases step st i with
    | none => rfl
    | some st' => exact ih st'

theorem fix_truncates {st : State} {op1 : ℕ} (hn : Normalised (pattern (st.fpr op1))) (hlt : |(pattern (st.fpr op1)).value| < 2 ^ 32) (op0 : ℕ) :
    ∃ st', run (fixTruncdfsi2 op0 op1) st = some st' ∧ st'.gpr op0 = BitVec.ofInt 32 (truncate (pattern (st.fpr op1)).value) := by
  have hmag : (pattern (st.fpr op1)).mag.value 56 < 2 ^ 32 := by
    rw [Pattern.value] at hlt
    split at hlt
    · rw [abs_neg] at hlt
      exact (le_abs_self _).trans_lt hlt
    · exact (le_abs_self _).trans_lt hlt
  obtain ⟨r, hsum, hword⟩ := addLong_word hn hmag
  obtain ⟨st', hrun, hgpr⟩ := run_fix hsum op0
  exact ⟨st', hrun, hgpr.trans hword⟩

theorem converted_normalised {z : ℤ} (hz : z.natAbs ≤ 2 ^ 31) : Normalised (converted z) := by
  by_cases h0 : z = 0
  · right
    rw [h0]
    rfl
  · exact Or.inl (converted_normal hz h0)

theorem float_conversions (st : State) (op0 op1 : ℕ) :
    (Normalised (pattern (st.fpr op1)) → |(pattern (st.fpr op1)).value| < 2 ^ 32 → ∃ st', run (fixTruncdfsi2 op0 op1) st = some st' ∧
      st'.gpr op0 = BitVec.ofInt 32 (truncate (pattern (st.fpr op1)).value)) ∧
    (∃ st', run (floatsidf2 op0 op1) st = some st' ∧ (pattern (st'.fpr op0)).value = (st.gpr op1).toInt ∧
      (st.gpr op1 = 0 → st'.fpr op0 = ⟨0, 0⟩) ∧ (st.gpr op1 ≠ 0 → (pattern (st'.fpr op0)).mag.Normal 56)) ∧
    ∀ op2, ∃ st', run (floatsidf2 op0 op1 ++ fixTruncdfsi2 op2 op0) st = some st' ∧ st'.gpr op2 = st.gpr op1 := by
  have hz := natAbs_toInt_le (st.gpr op1)
  obtain ⟨st', hrun, hfpr⟩ := run_float st op0 op1
  have hpattern : pattern (st'.fpr op0) = converted (st.gpr op1).toInt := by rw [hfpr, pattern_converted hz]
  have hvalue : (pattern (st'.fpr op0)).value = (st.gpr op1).toInt := by rw [hpattern, converted_value hz]
  refine ⟨fun hn hlt => fix_truncates hn hlt op0, ⟨st', hrun, hvalue, ?_, ?_⟩, fun op2 => ?_⟩
  · intro h0
    rw [hfpr, h0]
    rfl
  · intro h0
    rw [hpattern]
    exact converted_normal hz fun hint => h0 (BitVec.toInt_inj.mp hint)
  · have hsmall : |(pattern (st'.fpr op0)).value| < 2 ^ 32 := by
      have hcast : |(st.gpr op1).toInt| < 2 ^ 32 := by
        rw [Int.abs_eq_natAbs]
        omega
      rw [hvalue]
      exact_mod_cast hcast
    obtain ⟨st'', hfix, hgpr⟩ := fix_truncates (hpattern ▸ converted_normalised hz) hsmall op2
    refine ⟨st'', ?_, ?_⟩
    · rw [run_append, hrun]
      exact hfix
    · rw [hgpr, hvalue, truncate_intCast, BitVec.ofInt_toInt]

/-- One and a half below zero. -/
def below : State := ⟨fun _ => 0, fun _ => ⟨0xC1180000, 0⟩, ⟨0, 0⟩⟩

theorem float_conversions_below : ∃ st', run (fixTruncdfsi2 3 2) below = some st' ∧ st'.gpr 3 = BitVec.ofInt 32 (-1) := by
  have hpattern : pattern (below.fpr 2) = ⟨true, 1, 0x18000000000000⟩ := rfl
  have hvalue : (pattern (below.fpr 2)).value = -(3 / 2) := by
    rw [hpattern, Pattern.value, if_pos rfl, HexFloat.value]
    norm_num
  have hnormal : Normalised (pattern (below.fpr 2)) := by
    rw [hpattern]
    exact Or.inl ⟨by decide, by decide⟩
  have htruncate : truncate (-(3 / 2)) = -1 := by
    have hfloor : ⌊(3 / 2 : ℚ)⌋ = 1 := by
      rw [Int.floor_eq_iff]
      norm_num
    rw [truncate, if_pos (by norm_num), neg_neg, hfloor]
  have hfix := (float_conversions below 3 2).1 hnormal (by rw [hvalue]; norm_num)
  rwa [hvalue, htruncate] at hfix

end Cc370.I370.FloatConversion
