import Cc370.I370.Divide
import Cc370.Lib.SignExtension

namespace Cc370.I370.Divide

open Cc370.Lib.SignExtension

section Compare

variable {v w : ℤ}

theorem high_iff : Machine.compareCc v w = 2 ↔ w < v := by
  rw [Machine.compareCc]
  split_ifs <;> simp <;> omega

theorem low_iff : Machine.compareCc v w = 1 ↔ v < w := by
  rw [Machine.compareCc]
  split_ifs <;> simp <;> omega

theorem equal_iff : Machine.compareCc v w = 0 ↔ v = w := by
  rw [Machine.compareCc]
  split_ifs <;> simp <;> omega

end Compare

namespace State

variable {s : State} {a v : Word}

@[simp] theorem set_reg (r : Reg) : (s.set r v).reg = Function.update s.reg r v := rfl

@[simp] theorem withCc_reg (c : Fin 4) : (s.withCc c).reg = s.reg := rfl

@[simp] theorem withCc_cc (c : Fin 4) : (s.withCc c).cc = c := rfl

/-- A dividend of one word, without a sign. -/
theorem divide_unsigned (hp : s.pair.toInt = a.toNat) (hv : 0 < v.toInt) (hq : a.toNat / v.toNat < 2 ^ 31) :
    s.divide v = .ok ((s.set .dr_0 (a % v)).set .dr_1 (a / v)) := by
  have hvn : v.toInt = v.toNat := by
    apply BitVec.toInt_eq_toNat_of_msb
    rw [BitVec.msb_eq_toInt]
    exact decide_eq_false (not_lt.mpr hv.le)
  have hv0 : v ≠ 0 := by
    rintro rfl
    exact absurd hv (by decide)
  have hquo : (a.toNat : ℤ).tdiv v.toNat = (a.toNat / v.toNat : ℕ) := Int.ofNat_tdiv _ _
  have hrem : (a.toNat : ℤ).tmod v.toNat = (a.toNat % v.toNat : ℕ) := Int.ofNat_tmod _ _
  rw [divide, hp, hvn, hquo, hrem, if_neg, BitVec.ofInt_natCast, BitVec.ofInt_natCast]
  · rw [← BitVec.toNat_udiv, ← BitVec.toNat_umod, BitVec.ofNat_toNat, BitVec.ofNat_toNat, BitVec.setWidth_eq, BitVec.setWidth_eq]
  · rintro (h | h)
    · exact hv0 h
    · apply h
      have hq' : ((a.toNat / v.toNat : ℕ) : ℤ) < (2 ^ 31 : ℕ) := Int.ofNat_lt.mpr hq
      exact ⟨Int.le_trans (by decide) (Int.natCast_nonneg _), hq'⟩

theorem divide_signed (hp : s.pair.toInt = a.toInt) (hv : v ≠ 0) (hne : ¬ (a = BitVec.intMin 32 ∧ v = -1)) :
    s.divide v = .ok ((s.set .dr_0 (a.srem v)).set .dr_1 (a.sdiv v)) := by
  have hquo : (a.sdiv v).toInt = a.toInt.tdiv v.toInt := by
    apply BitVec.toInt_sdiv_of_ne_or_ne
    by_contra h
    exact hne ⟨not_not.mp fun ha => h (.inl ha), not_not.mp fun hb => h (.inr hb)⟩
  have hfits := fits_toInt (k := 31) (a.sdiv v)
  rw [hquo] at hfits
  rw [divide, hp, if_neg, ← hquo, ← BitVec.toInt_srem, BitVec.ofInt_toInt, BitVec.ofInt_toInt]
  rintro (h | h)
  · exact hv h
  · exact h hfits

theorem pair_setPair (v : BitVec 64) : (s.setPair v).pair = v := by
  simp only [pair, setPair, set_reg, Function.update_self, Function.update_of_ne (show Reg.dr_0 ≠ .dr_1 by decide)]
  exact @append_parts 32 32 v

@[simp] theorem setPair_sr (v : BitVec 64) : (s.setPair v).reg .sr = s.reg .sr := rfl

@[simp] theorem setPair_op0 (v : BitVec 64) : (s.setPair v).reg .op0 = s.reg .op0 := rfl

@[simp] theorem pair_withCc (c : Fin 4) : (s.withCc c).pair = s.pair := rfl

/-- SRDL by a word leaves the upper word alone in the pair. -/
theorem toInt_srdl (t : State) : (t.setPair (s.pair >>> 32)).pair.toInt = (s.reg .dr_0).toNat := by
  have hhi := (s.reg .dr_0).isLt
  have hlo := (s.reg .dr_1).isLt
  have hnat : (s.pair >>> 32).toNat = (s.reg .dr_0).toNat := by
    rw [pair, BitVec.toNat_ushiftRight, BitVec.toNat_append, ← Nat.shiftLeft_add_eq_or_of_lt hlo, Nat.shiftRight_eq_div_pow, Nat.shiftLeft_eq]
    omega
  rw [pair_setPair, BitVec.toInt_eq_toNat_of_lt (by omega), hnat]

/-- SRDA by a word extends the sign of the upper word over the pair. -/
theorem toInt_srda (t : State) : (t.setPair (s.pair.sshiftRight 32)).pair.toInt = (s.reg .dr_0).toInt := by
  rw [pair_setPair, pair, append_sshiftRight _ _ (by decide), BitVec.toInt_signExtend_of_le (by decide)]

end State

section Regions

variable {a b : Word}

theorem below (h : a.toNat < b.toNat) : a / b = 0 ∧ a % b = a := by
  constructor
  · apply BitVec.eq_of_toNat_eq
    rw [BitVec.toNat_udiv, Nat.div_eq_of_lt h]
    rfl
  · apply BitVec.eq_of_toNat_eq
    rw [BitVec.toNat_umod, Nat.mod_eq_of_lt h]

theorem half_of_neg (h : b.toInt < 0) : 2 ^ 31 ≤ b.toNat := by
  have hb := b.isLt
  rw [BitVec.toInt_eq_toNat_cond] at h
  split at h <;> omega

theorem above (hneg : b.toInt < 0) (hle : ¬ a.toNat < b.toNat) : a / b = 1 ∧ a % b = a - b := by
  have hhalf := half_of_neg hneg
  have ha := a.isLt
  have hquo : a.toNat / b.toNat = 1 := Nat.div_eq_of_lt_le (by omega) (by omega)
  constructor
  · apply BitVec.eq_of_toNat_eq
    rw [BitVec.toNat_udiv, hquo]
    rfl
  · apply BitVec.eq_of_toNat_eq
    rw [BitVec.toNat_umod, BitVec.toNat_sub_of_le (BitVec.le_def.mpr (not_lt.mp hle)), Nat.mod_eq_sub_mod (not_lt.mp hle), Nat.mod_eq_of_lt (by omega)]

theorem one (h : b.toNat = 1) : a / b = a ∧ a % b = 0 := by
  constructor
  · apply BitVec.eq_of_toNat_eq
    rw [BitVec.toNat_udiv, h, Nat.div_one]
  · apply BitVec.eq_of_toNat_eq
    rw [BitVec.toNat_umod, h, Nat.mod_one]
    rfl

theorem quotient_small (hb : 2 ≤ b.toNat) : a.toNat / b.toNat < 2 ^ 31 := by
  have ha := a.isLt
  have hle : a.toNat / b.toNat ≤ a.toNat / 2 := Nat.div_le_div_left hb (by decide)
  omega

theorem positive (hb : b ≠ 0) (h : ¬ b.toInt < 0) : 0 < b.toInt := by
  have hne : b.toInt ≠ 0 := fun h0 => hb (BitVec.toInt_inj.mp h0)
  omega

theorem two_le (hb : b ≠ 0) (h : b.toNat ≠ 1) : 2 ≤ b.toNat := by
  have hne : b.toNat ≠ 0 := fun h0 => hb (BitVec.eq_of_toNat_eq h0)
  omega

end Regions

section Expanders

variable (x : Operand) (s : State)

-- The equations of the emitted code and of its run, made once here for all the expanders.
attribute [local grind =] final movsi unsignedJumpFollows afterEquality Cond.signed Cond.cc Operand.value State.source State.signed
  State.exec State.divide run result

@[simp] theorem ok_bind {α β : Type} (v : α) (f : α → Except Trap β) : (Except.ok v).bind f = f v := rfl

@[simp] theorem ok_map {α β : Type} (v : α) (f : α → β) : (Except.ok v : Except Trap α).map f = .ok (f v) := rfl

/-- The divisor is greater, of the upper half, one, or divided by. -/
theorem udivsi3_general {b : Word} (hb : b ≠ 0) : result (udivsi3 (.general b)) x (.general b) s = .ok (x.value / b) := by
  simp only [result, udivsi3, final, movsi, unsignedJumpFollows, afterEquality, Cond.signed, Cond.cc, List.cons_append, List.nil_append]
  generalize x.value = a
  have hgt : Machine.compareCc b.toNat a.toNat = 2 ↔ a.toNat < b.toNat := high_iff.trans Int.ofNat_lt
  have hlt : Machine.compareCc b.toInt 0 = 1 ↔ b.toInt < 0 := low_iff
  have heq : Machine.compareCc b.toNat 1 = 0 ↔ b.toNat = 1 := equal_iff.trans (by omega)
  by_cases h1 : a.toNat < b.toNat
  · simp [run, State.exec, State.source, Operand.value, hgt, h1, Function.update, below h1]
  by_cases h2 : b.toInt < 0
  · simp [run, State.exec, State.source, Operand.value, hgt, hlt, h1, h2, Function.update, above h2 h1]
  by_cases h3 : b.toNat = 1
  · have hone := heq.mpr h3
    simp [run, State.exec, State.source, Operand.value, hgt, hlt, hone, h1, h2, Function.update, one h3]
  have hdiv := fun (t : State) (ht : t.pair.toInt = a.toNat) => State.divide_unsigned ht (positive hb h2) (quotient_small (two_le hb h3))
  simp [run, State.exec, State.source, Operand.value, hgt, hlt, heq, h1, h2, h3, Function.update, State.toInt_srdl, hdiv]

theorem umodsi3_general {b : Word} (hb : b ≠ 0) : result (umodsi3 (.general b)) x (.general b) s = .ok (x.value % b) := by
  simp only [result, umodsi3, final, movsi, unsignedJumpFollows, afterEquality, Cond.signed, Cond.cc, List.cons_append, List.nil_append]
  generalize x.value = a
  have hgt : Machine.compareCc b.toNat a.toNat = 2 ↔ a.toNat < b.toNat := high_iff.trans Int.ofNat_lt
  have hlt : Machine.compareCc b.toInt 0 = 1 ↔ b.toInt < 0 := low_iff
  have heq : Machine.compareCc b.toNat 1 = 0 ↔ b.toNat = 1 := equal_iff.trans (by omega)
  by_cases h1 : a.toNat < b.toNat
  · simp [run, State.exec, State.source, Operand.value, hgt, h1, Function.update, below h1]
  by_cases h2 : b.toInt < 0
  · simp [run, State.exec, State.source, State.signed, Operand.value, hgt, hlt, h1, h2, Function.update, above h2 h1]
  by_cases h3 : b.toNat = 1
  · have hone := heq.mpr h3
    simp [run, State.exec, State.source, Operand.value, hgt, hlt, hone, h1, h2, Function.update, one h3]
  have hdiv := fun (t : State) (ht : t.pair.toInt = a.toNat) => State.divide_unsigned ht (positive hb h2) (quotient_small (two_le hb h3))
  simp [run, State.exec, State.source, Operand.value, hgt, hlt, heq, h1, h2, h3, Function.update, State.toInt_srdl, hdiv]

theorem udivsi3_const {c : Word} (h0 : c ≠ 0) (h1 : c.toNat ≠ 1) : result (udivsi3 (.const c)) x (.const c) s = .ok (x.value / c) := by
  simp only [result, udivsi3, zero_extendsidi2]
  generalize x.value = a
  split
  · rename_i hpos
    have hdiv := fun (t : State) (ht : t.pair.toInt = a.toNat) => State.divide_unsigned ht hpos (quotient_small (two_le h0 h1))
    simp [final, movsi, run, State.exec, State.source, Operand.value, Function.update, State.toInt_srdl, hdiv]
  · rename_i hneg
    have hneg' : c.toInt < 0 := by
      by_contra h
      exact hneg (positive h0 h)
    have hlt : Machine.compareCc a.toNat c.toNat = 1 ↔ a.toNat < c.toNat := low_iff.trans Int.ofNat_lt
    by_cases hbelow : a.toNat < c.toNat
    · simp [final, movsi, unsignedJumpFollows, Cond.signed, Cond.cc, run, State.exec, State.source, Operand.value, Function.update, hlt, hbelow,
        below hbelow]
    · simp [final, movsi, unsignedJumpFollows, Cond.signed, Cond.cc, run, State.exec, State.source, Operand.value, Function.update, hlt, hbelow,
        above hneg' hbelow]

theorem umodsi3_const {c : Word} (h0 : c ≠ 0) (h1 : c.toNat ≠ 1) : result (umodsi3 (.const c)) x (.const c) s = .ok (x.value % c) := by
  simp only [result, umodsi3]
  generalize x.value = a
  split
  · rename_i hpos
    have hdiv := fun (t : State) (ht : t.pair.toInt = a.toNat) => State.divide_unsigned ht hpos (quotient_small (two_le h0 h1))
    simp [final, movsi, run, State.exec, State.source, Operand.value, Function.update, State.toInt_srdl, hdiv]
  · rename_i hneg
    have hneg' : c.toInt < 0 := by
      by_contra h
      exact hneg (positive h0 h)
    have hmsb : c.msb = true := by
      rw [BitVec.msb_eq_toInt]
      exact decide_eq_true hneg'
    have hlt : Machine.compareCc a.toNat c.toNat = 1 ↔ a.toNat < c.toNat := low_iff.trans Int.ofNat_lt
    by_cases hbelow : a.toNat < c.toNat
    · simp [final, movsi, unsignedJumpFollows, Cond.signed, Cond.cc, run, State.exec, State.source, Operand.value, Function.update, hlt, hbelow,
        below hbelow]
    · simp [final, movsi, unsignedJumpFollows, Cond.signed, Cond.cc, run, State.exec, State.source, State.signed, Operand.value, Function.update, hlt, hbelow,
        hmsb, above hneg' hbelow, BitVec.sub_eq_add_neg]

/-- A word of signs before a number. -/
theorem toInt_fill (a : Word) : ((if a.toInt < 0 then -1 else 0 : Word) ++ a).toInt = a.toInt := by
  have ha := a.isLt
  have hint := a.toInt_eq_toNat_cond
  rw [BitVec.toInt_append, if_neg (by decide)]
  by_cases h : a.toInt < 0
  · rw [if_pos h, show (-1 : Word).toInt = -1 from rfl]
    split at hint <;> omega
  · rw [if_neg h, show (0 : Word).toInt = 0 from rfl]
    split at hint <;> omega

/-- The dividend is in the pair, with its sign. -/
theorem extendsidi2_spec (b : Word) : ∃ t : State, t.pair.toInt = x.value.toInt ∧
    ∀ rest, run x.value b (final (extendsidi2 x ++ rest)) none s = run x.value b (final rest) none t := by
  cases x with
  | general a =>
    refine ⟨_, ?_, fun rest => rfl⟩
    exact State.toInt_srda (s := s.set .dr_0 a) (s.set .dr_0 a)
  | const a =>
    have hfill := toInt_fill a
    by_cases h : a.toInt < 0
    · rw [if_pos h] at hfill
      refine ⟨(s.set .dr_0 (-1)).set .dr_1 a, hfill, fun rest => ?_⟩
      simp [extendsidi2, final, movsi, run, State.exec, State.source, Operand.value, h]
    · rw [if_neg h] at hfill
      refine ⟨((s.set .dr_0 0).withCc (Machine.borrowCc (s.reg .dr_0) (s.reg .dr_0))).set .dr_1 a, hfill, fun rest => ?_⟩
      simp [extendsidi2, final, movsi, run, State.exec, State.source, Operand.value, h]

variable {y : Operand} (h0 : y.value ≠ 0) (hne : ¬ (x.value = BitVec.intMin 32 ∧ y.value = -1))
include h0 hne

theorem divsi3_result : result (divsi3 x) x y s = .ok (x.value.sdiv y.value) := by
  obtain ⟨t, hpair, hrun⟩ := extendsidi2_spec x s y.value
  rw [result, divsi3, hrun]
  simp [final, movsi, run, State.exec, State.source, State.divide_signed hpair h0 hne]

theorem modsi3_result : result (modsi3 x) x y s = .ok (x.value.srem y.value) := by
  obtain ⟨t, hpair, hrun⟩ := extendsidi2_spec x s y.value
  rw [result, modsi3, hrun]
  simp [final, movsi, run, State.exec, State.source, State.divide_signed hpair h0 hne]

end Expanders

theorem divide_expanders (x y : Operand) (s : State) (h0 : y.value ≠ 0) :
    (y ≠ .const 1 → (∃ q, result (udivsi3 y) x y s = .ok q ∧ q.toNat = x.value.toNat / y.value.toNat) ∧
      (∃ r, result (umodsi3 y) x y s = .ok r ∧ r.toNat = x.value.toNat % y.value.toNat)) ∧
    (¬ (x.value.toInt = -2 ^ 31 ∧ y.value.toInt = -1) → (∃ q, result (divsi3 x) x y s = .ok q ∧ q.toInt = x.value.toInt.tdiv y.value.toInt) ∧
      (∃ r, result (modsi3 x) x y s = .ok r ∧ r.toInt = x.value.toInt.tmod y.value.toInt)) := by
  constructor
  · intro h1
    cases y with
    | general b =>
      exact ⟨⟨_, udivsi3_general x s h0, BitVec.toNat_udiv⟩, ⟨_, umodsi3_general x s h0, BitVec.toNat_umod⟩⟩
    | const c =>
      have hne : c.toNat ≠ 1 := fun h => h1 (congrArg Operand.const (BitVec.eq_of_toNat_eq h))
      exact ⟨⟨_, udivsi3_const x s h0 hne, BitVec.toNat_udiv⟩, ⟨_, umodsi3_const x s h0 hne, BitVec.toNat_umod⟩⟩
  · intro h1
    have hne : ¬ (x.value = BitVec.intMin 32 ∧ y.value = -1) := by
      rintro ⟨hx, hy⟩
      rw [hx, hy] at h1
      exact h1 ⟨rfl, rfl⟩
    refine ⟨⟨_, divsi3_result x s h0 hne, ?_⟩, ⟨_, modsi3_result x s h0 hne, BitVec.toInt_srem _ _⟩⟩
    apply BitVec.toInt_sdiv_of_ne_or_ne
    by_contra h
    exact hne ⟨not_not.mp fun ha => h (.inl ha), not_not.mp fun hb => h (.inr hb)⟩

theorem divide_expanders_upper :
    (∃ r, result (umodsi3 (.general 0x80000001)) (.const 0xFFFFFFFF) (.general 0x80000001) ⟨fun _ => 7, 0⟩ = .ok r ∧ r.toNat = 0x7FFFFFFE) ∧
    ∃ q, result (divsi3 (.const 0xFFFFFFFF)) (.const 0xFFFFFFFF) (.general 0x80000001) ⟨fun _ => 7, 0⟩ = .ok q ∧ q.toInt = 0 := by
  obtain ⟨hunsigned, hsigned⟩ := divide_expanders (.const 0xFFFFFFFF) (.general 0x80000001) ⟨fun _ => 7, 0⟩ (by decide)
  exact ⟨(hunsigned (by decide)).2, (hsigned (by decide)).1⟩

end Cc370.I370.Divide
