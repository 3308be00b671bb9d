import Cc370.I370.Halfword

namespace Cc370.I370

open Lib Lib.SignExtension

/-- A count that the assembler takes, and that the machine does not wrap round to another shift. -/
def Count.Assembled : Count → Prop
  | .reg _ => True
  | .const v => 16 + v.toNat < 4096

/-- When the register that an insn writes holds its result: a sum, difference, negation and absolute
value that is a halfword; a logical shift that clears the sign; a count of shifts that is not taken
modulo 64, or is without effect; a part that is replaced by one of the same sign. -/
def Insn.Fits (m : Machine) (c : Contents) : Insn → Prop
  | .movstricthi d s => c.IsHalf d → (c.half d).msb = (c.half s).msb
  | .addhi3 d s => SignExtension.Fits 15 ((c.half d).toInt + (s.value m c).toInt)
  | .subhi3 d s => SignExtension.Fits 15 ((c.half d).toInt - (s.value m c).toInt)
  | .neghi2 _ s | .abshi2 _ s => c.half s ≠ BitVec.intMin 16
  | .ashlhi3 d n =>
    n.Assembled ∧
      (n.value c < 48 ∨ ((c.half d).signExtend 32 <<< ((16 + n.value c) % 64)).toNat < 2 ^ 16)
  | .ashrhi3 d n =>
    n.Assembled ∧
      (n.value c < 48 ∨ SignExtension.Fits ((16 + n.value c) % 64) ((c.half d).toInt * 2 ^ 16))
  | .lshrhi3 d n =>
    if n.value c < 64 then 0 < n.value c ∨ (c.half d).msb = false
    else (c.half d).toNat < 2 ^ (n.value c % 64)
  | .zeroExtendqihi2 _ (.const v) => v.msb = false
  | _ => True

section Bits

variable (v : Half)

theorem ashl_bits (n : ℕ) :
    ((v.signExtend 32) <<< ((16 + n) % 64)).sshiftRight 16 = (v <<< n).signExtend 32 ↔
      n < 48 ∨ (v.signExtend 32 <<< ((16 + n) % 64)).toNat < 2 ^ 16 := by
  by_cases hn : n < 48
  · have hmod : (16 + n) % 64 = n + 16 := by omega
    have hshift : (v.signExtend 32) <<< (n + 16) = (v.signExtend 32 <<< n) <<< 16 := BitVec.shiftLeft_add _ _ _
    have hwiden := @shiftLeft_sshiftRight 16 16 (v.signExtend 32 <<< n) (by decide)
    rw [hmod, hshift]
    simp only [hn, true_or, iff_true]
    exact hwiden.trans (by rw [setWidth_shiftLeft (by decide), setWidth_signExtend (by decide)])
  · have hzero : v <<< n = 0 := BitVec.shiftLeft_eq_zero (by omega)
    have hext : (0 : Half).signExtend 32 = 0#32 := rfl
    rw [hzero, hext, sshiftRight_eq_zero_iff (by decide)]
    simp only [hn, false_or]

theorem ashr_bits (n : ℕ) :
    ((v.signExtend 32) <<< 16).sshiftRight ((16 + n) % 64) = (v.sshiftRight n).signExtend 32 ↔
      n < 48 ∨ SignExtension.Fits ((16 + n) % 64) (v.toInt * 2 ^ 16) := by
  have hwiden := @shiftLeft_sshiftRight 16 16 (v.signExtend 32) (by decide)
  by_cases hn : n < 48
  · have hmod : (16 + n) % 64 = 16 + n := by omega
    rw [hmod, BitVec.sshiftRight_add]
    simp only [hn, true_or, iff_true]
    rw [hwiden, setWidth_signExtend (by decide), sshiftRight_signExtend (by decide)]
  · have hshift : ((v.signExtend 32) <<< 16).toInt = v.toInt * 2 ^ 16 := by
      have hv := fits_toInt (k := 15) v
      have hpow : (BitVec.twoPow 32 16).toInt = 2 ^ 16 := by decide
      rw [← BitVec.mul_twoPow_eq_shiftLeft, BitVec.toInt_mul, BitVec.toInt_signExtend_of_le (by decide), hpow]
      apply (@bmod_eq_self_iff 31 _).mpr
      obtain ⟨hlo, hhi⟩ := hv
      constructor <;> omega
    have hfill : v.toInt / 2 ^ n = if v.toInt < 0 then -1 else 0 :=
      (ediv_eq_fill_iff _).mpr ((fits_toInt (k := 15) v).mono (by omega))
    have hsign : (v.toInt * 2 ^ 16 < 0) = (v.toInt < 0) := by
      apply propext
      constructor <;> intro h <;> omega
    rw [eq_signExtend_iff (by decide), BitVec.toInt_sshiftRight, BitVec.toInt_sshiftRight, Int.shiftRight_eq_div_pow,
      Int.shiftRight_eq_div_pow, hshift]
    simp only [Nat.cast_pow, Nat.cast_ofNat, hn, false_or]
    rw [hfill, ← ediv_eq_fill_iff]
    simp only [hsign]

theorem and_low : (v.signExtend 32) &&& 0x0000FFFF = v.setWidth 32 := by
  have hlow := congrArg BitVec.toNat (setWidth_signExtend (show 16 ≤ 32 by decide) v)
  apply BitVec.eq_of_toNat_eq
  rw [BitVec.toNat_setWidth] at hlow
  rw [BitVec.toNat_and, BitVec.toNat_setWidth]
  exact (Nat.and_two_pow_sub_one_eq_mod _ 16).trans (by omega)

theorem setWidth_eq_signExtend_iff : v.setWidth 32 = v.signExtend 32 ↔ v.msb = false := by
  constructor
  · intro h
    have hmsb := congrArg BitVec.msb h
    rw [@msb_signExtend 15 31 (by decide) v] at hmsb
    rw [← hmsb, BitVec.msb_eq_getLsbD_last, BitVec.getLsbD_setWidth, BitVec.getLsbD_of_ge v _ (by decide),
      Bool.and_false]
  · exact fun h => (BitVec.signExtend_eq_setWidth_of_msb_false h).symm

theorem lshr_bits (n : ℕ) :
    ((v.signExtend 32) &&& 0x0000FFFF) >>> (n % 64) = (v >>> n).signExtend 32 ↔
      if n < 64 then 0 < n ∨ v.msb = false else v.toNat < 2 ^ (n % 64) := by
  rw [and_low]
  by_cases hn : n < 64
  · have hshift : v.setWidth 32 >>> n = (v >>> n).setWidth 32 := by
      apply BitVec.eq_of_toNat_eq
      have hlt : v.toNat >>> n ≤ v.toNat := by
        rw [Nat.shiftRight_eq_div_pow]
        exact Nat.div_le_self _ _
      simp only [BitVec.toNat_ushiftRight, BitVec.toNat_setWidth]
      rw [Nat.mod_eq_of_lt (by omega), Nat.mod_eq_of_lt (by omega)]
    rw [if_pos hn, Nat.mod_eq_of_lt hn, hshift, setWidth_eq_signExtend_iff, BitVec.msb_ushiftRight]
    by_cases h0 : n = 0
    · simp [h0]
    · simp [Nat.pos_of_ne_zero h0]
  · have hzero : v >>> n = 0 := BitVec.ushiftRight_eq_zero (by omega)
    have hext : (0 : Half).signExtend 32 = 0#32 := rfl
    rw [if_neg hn, hzero, hext, ← BitVec.toNat_inj, BitVec.toNat_ushiftRight, BitVec.toNat_setWidth,
      Nat.shiftRight_eq_div_pow, Nat.mod_eq_of_lt (by omega), BitVec.toNat_ofNat, Nat.zero_mod,
      Nat.div_eq_zero_iff_lt (by positivity)]

theorem high_signExtend : (v.signExtend 32).extractLsb' 16 16 = if v.msb then BitVec.allOnes 16 else 0#16 := by
  ext i hi
  rw [BitVec.getElem_extractLsb', BitVec.getLsbD_signExtend, if_neg (by omega), decide_eq_true (by omega),
    Bool.true_and]
  by_cases hm : v.msb
  · rw [if_pos hm, hm, BitVec.getElem_allOnes]
  · rw [if_neg hm, BitVec.getElem_zero, Bool.eq_false_iff.mpr hm]

theorem movstrict_bits (u : Half) :
    (u.signExtend 32).extractLsb' 16 16 ++ v = v.signExtend 32 ↔ u.msb = v.msb := by
  have hparts : (v.signExtend 32).extractLsb' 16 16 ++ v = v.signExtend 32 := by
    have hlow : (v.signExtend 32).extractLsb' 0 16 = v := by
      rw [← BitVec.setWidth_eq_extractLsb' (by decide), setWidth_signExtend (by decide)]
    have happ := @append_parts 16 16 (v.signExtend 32)
    rwa [hlow] at happ
  constructor
  · intro h
    have hmsb := congrArg BitVec.msb h
    rw [@msb_signExtend 15 31 (by decide) v, high_signExtend] at hmsb
    have happ := @BitVec.msb_append 16 16 (if u.msb then BitVec.allOnes 16 else 0#16) v
    rw [← hmsb]
    refine Eq.trans ?_ happ.symm
    by_cases hu : u.msb
    · rw [if_pos hu, hu]
      rfl
    · rw [if_neg hu, Bool.eq_false_iff.mpr hu]
      rfl
  · intro h
    rw [high_signExtend, h, ← high_signExtend, hparts]

theorem signExtend_twice (v : BitVec 8) : v.signExtend 32 = (v.signExtend 16).signExtend 32 := by
  rw [eq_signExtend_iff (by decide), BitVec.toInt_signExtend_of_le (by decide), BitVec.toInt_signExtend_of_le (by decide)]

theorem setWidth_twice (v : BitVec 8) : v.setWidth 32 = (v.setWidth 16).signExtend 32 := by
  have hmsb : (v.setWidth 16).msb = false := by
    rw [BitVec.msb_eq_getLsbD_last, BitVec.getLsbD_setWidth, BitVec.getLsbD_of_ge v _ (by decide), Bool.and_false]
  rw [← (setWidth_eq_signExtend_iff _).mpr hmsb]
  apply BitVec.eq_of_toNat_eq
  simp only [BitVec.toNat_setWidth]
  omega

end Bits

theorem more16_isSome {n : Count} : (more16 n).isSome ↔ n.Assembled := by
  cases n with
  | reg r => simp [more16, Count.Assembled]
  | const v =>
    rw [more16, Count.Assembled]
    split <;> simp_all

theorem assembled_of_map {n : Count} {f : Address → List Op} {ops : List Op} (h : (more16 n).map f = some ops) :
    n.Assembled := by
  obtain ⟨a, ha, -⟩ := Option.map_eq_some_iff.mp h
  exact more16_isSome.mp (Option.isSome_of_eq_some ha)

section Step

variable {c : Contents} {m : Machine} {convlo : BitVec 12}

/-- An insn changes one register, and that one holds the result just when the insn fits. -/
theorem emitted_spec (h : c.Holds m) {i : Insn} (ht : i.Typed c) {ops : List Op} (ho : emitted convlo i = some ops) :
    ∃ w, (m.run ops).gpr = Function.update m.gpr i.dest w ∧ ((i.value m c).Holds w ↔ i.Fits m c) := by
  cases i with
  | movhi d s =>
    rw [emitted, Option.some.injEq] at ho
    refine ⟨_, ho ▸ run_movhi d h ht, ?_⟩
    simp [Insn.value, Content.Holds, Insn.Fits]
  | movstricthi d s =>
    rw [emitted, Option.some.injEq] at ho
    refine ⟨_, ho ▸ run_movstricthi convlo d s, ?_⟩
    rw [h.low ht.2]
    rcases ht.1 with hd | hd
    · simp only [Insn.value, hd.eq, Content.Holds, h.half hd, movstrict_bits, Insn.Fits, hd, forall_const]
    · have hnot : ¬ c.IsHalf d := by
        rintro ⟨v, hv⟩
        rw [hd.eq] at hv
        cases hv
      simp only [Insn.value, hd.eq, Content.Holds, h.word hd, Insn.Fits, hnot, false_implies]
  | addhi3 d s =>
    rw [emitted, Option.some.injEq] at ho
    refine ⟨_, ho ▸ run_addhi3 convlo d h ht.2, ?_⟩
    rw [h.half ht.1]
    exact @add_eq_signExtend_iff 15 31 (by decide) (c.half d) (s.value m c)
  | subhi3 d s =>
    rw [emitted, Option.some.injEq] at ho
    refine ⟨_, ho ▸ run_subhi3 convlo d h ht.2, ?_⟩
    rw [h.half ht.1]
    exact @sub_eq_signExtend_iff 15 31 (by decide) (c.half d) (s.value m c)
  | andhi3 d s =>
    rw [emitted, Option.some.injEq] at ho
    refine ⟨_, ho ▸ run_andhi3 d h ht.2, ?_⟩
    simp only [h.half ht.1, Insn.value, Content.Holds, BitVec.signExtend_and, Insn.Fits]
  | iorhi3 d s =>
    rw [emitted, Option.some.injEq] at ho
    refine ⟨_, ho ▸ run_iorhi3 d h ht.2, ?_⟩
    simp only [h.half ht.1, Insn.value, Content.Holds, BitVec.signExtend_or, Insn.Fits]
  | xorhi3 d s =>
    rw [emitted, Option.some.injEq] at ho
    refine ⟨_, ho ▸ run_xorhi3 d h ht.2, ?_⟩
    simp only [h.half ht.1, Insn.value, Content.Holds, BitVec.signExtend_xor, Insn.Fits]
  | neghi2 d s =>
    rw [emitted, Option.some.injEq] at ho
    refine ⟨_, ho ▸ run_neghi2 d h ht, ?_⟩
    rw [h.half ht]
    exact @neg_eq_signExtend_iff 15 31 (by decide) (c.half s)
  | abshi2 d s =>
    rw [emitted, Option.some.injEq] at ho
    refine ⟨_, ho ▸ run_abshi2 d h ht, ?_⟩
    rw [h.half ht]
    exact @abs_eq_signExtend_iff 15 31 (by decide) (c.half s)
  | oneCmplhi2 d =>
    rw [emitted, Option.some.injEq] at ho
    refine ⟨_, ho ▸ run_oneCmplhi2 d, ?_⟩
    simp only [h.half ht, Insn.value, Content.Holds, Insn.Fits, iff_true]
    exact (BitVec.signExtend_not (by decide)).symm
  | ashlhi3 d n =>
    refine ⟨_, run_ashlhi3 d h ht.2 ho, ?_⟩
    have hn : n.Assembled := assembled_of_map ho
    rw [h.half ht.1]
    simp only [Insn.value, Content.Holds, Insn.Fits, hn, true_and]
    exact ashl_bits (c.half d) (n.value c)
  | ashrhi3 d n =>
    refine ⟨_, run_ashrhi3 d h ht.1 ht.2 ho, ?_⟩
    have hn : n.Assembled := assembled_of_map ho
    rw [h.half ht.1]
    simp only [Insn.value, Content.Holds, Insn.Fits, hn, true_and]
    exact ashr_bits (c.half d) (n.value c)
  | lshrhi3 d n =>
    rw [emitted, Option.some.injEq] at ho
    refine ⟨_, ho ▸ run_lshrhi3 d h ht.1 ht.2, ?_⟩
    rw [h.half ht.1]
    exact lshr_bits (c.half d) (n.value c)
  | extendqihi2 d s =>
    rw [emitted, Option.some.injEq] at ho
    cases s with
    | none =>
      refine ⟨_, ho ▸ run_extendqihi2 d h (fun _ => ht), ?_⟩
      simp only [Insn.value, Content.Holds, Insn.Fits, iff_true, Option.elim_none]
      exact signExtend_twice _
    | some a =>
      refine ⟨_, ho ▸ run_extendqihi2 d h (fun hs => absurd hs (by simp)), ?_⟩
      simp only [Insn.value, Content.Holds, Insn.Fits, iff_true, Option.elim_some]
      exact signExtend_twice _
  | zeroExtendqihi2 d s =>
    refine ⟨_, run_zeroExtendqihi2 d h ht ho, ?_⟩
    have hfits : (Insn.zeroExtendqihi2 d s).Fits m c := by
      cases s with
      | const v =>
        by_contra hv
        rw [Insn.Fits, Bool.not_eq_false] at hv
        rw [emitted, zeroExtendqihi2, if_pos hv] at ho
        cases ho
      | same => trivial
      | mem a => trivial
    simp only [Insn.value, Content.Holds, hfits, iff_true]
    exact setWidth_twice _
  | truncsihi2 d =>
    rw [emitted, Option.some.injEq] at ho
    refine ⟨_, ho ▸ run_truncsihi2 d h ht, ?_⟩
    simp only [Insn.value, Content.Holds, Insn.Fits]

theorem isSome_of_fits {i : Insn} (hf : i.Fits m c) : (emitted convlo i).isSome := by
  cases i with
  | ashlhi3 d n => exact Option.isSome_map.trans (more16_isSome.mpr hf.1)
  | ashrhi3 d n => exact Option.isSome_map.trans (more16_isSome.mpr hf.1)
  | zeroExtendqihi2 d s =>
    cases s with
    | const v =>
      rw [Insn.Fits] at hf
      rw [emitted, zeroExtendqihi2, hf]
      rfl
    | same => rfl
    | mem a => rfl
  | _ => rfl

/-- A result that is no halfword is the part that movstricthi replaces in a fullword. -/
theorem fits_of_not_half {i : Insn} (hv : ∀ v, i.value m c ≠ .hi v) : i.Fits m c := by
  cases i with
  | movstricthi d s =>
    rintro ⟨v, hd⟩
    have hvalue := hv (c.half s)
    rw [Insn.value, hd] at hvalue
    exact absurd rfl hvalue
  | extendqihi2 d s => cases s <;> exact absurd rfl (hv _)
  | _ => exact absurd rfl (hv _)

end Step

namespace State

variable (convlo : BitVec 12) {s : State}

/-- All registers hold their values in the representation of their modes. -/
structure Good (s : State) : Prop where
  assembled : s.assembled = true
  holds : s.contents.Holds s.machine

/-- What the consumers of HImode values rely on, and what they deliver. -/
structure Right (s : State) : Prop where
  assembled : s.assembled = true
  extension : ∀ r v, s.contents r = .hi v → ((s.machine.gpr r).setWidth 16).signExtend 32 = s.machine.gpr r
  result : ∀ r v, s.contents r = .hi v → (s.machine.gpr r).setWidth 16 = v
  extended : ∀ d (o : Operand), o.Typed s.contents →
    (s.machine.run (extendhisi2 (.reg d) o)).gpr d = (o.value s.machine s.contents).signExtend 32
  stored : ∀ a r, s.contents.IsHalf r →
    (s.machine.run (extendhisi2 (.mem a) (.reg r))).fetch4 (s.machine.addr a) = (s.contents.half r).signExtend 32
  compared : ∀ r (o : Operand), s.contents.IsHalf r → o.Typed s.contents →
    (s.machine.run (cmphi convlo r o)).cc =
      Machine.compareCc (s.contents.half r).toInt (o.value s.machine s.contents).toInt

theorem step_good (h : s.Good) {i : Insn} (ht : i.Typed s.contents) (hf : i.Fits s.machine s.contents) :
    (s.step convlo i).Good := by
  have hsome : (emitted convlo i).isSome := isSome_of_fits hf
  obtain ⟨ops, ho⟩ := Option.isSome_iff_exists.mp hsome
  obtain ⟨w, hw, hiff⟩ := emitted_spec h.holds ht ho
  constructor
  · simp only [step, ho, h.assembled, Option.isSome_some, Bool.and_true]
  · intro r
    simp only [step, ho, Option.getD_some, hw]
    by_cases hr : r = i.dest
    · rw [hr, Function.update_self, Function.update_self]
      exact hiff.mpr hf
    · rw [Function.update_of_ne hr, Function.update_of_ne hr]
      exact h.holds r

theorem Good.right (h : s.Good) : s.Right convlo where
  assembled := h.assembled
  extension := by
    intro r v hv
    have hgpr := h.holds r
    rw [hv] at hgpr
    rw [hgpr, setWidth_signExtend (by decide)]
  result := by
    intro r v hv
    have hgpr := h.holds r
    rw [hv] at hgpr
    rw [hgpr, setWidth_signExtend (by decide)]
  extended := by
    intro d o ho
    cases o with
    | reg r =>
      rw [extendhisi2]
      split
      · rw [Machine.run_cons, Machine.run_widen16, Function.update_self]
        simp only [Machine.exec, Machine.set_gpr, Function.update_self, h.holds.low ho]
        rfl
      · rename_i hdr
        rw [ne_eq, not_not] at hdr
        rw [hdr, Machine.run_nil, h.holds.half ho]
        rfl
    | const v =>
      rw [extendhisi2, run_loadConst, Function.update_self]
      rfl
    | mem a =>
      simp only [extendhisi2, Machine.run_cons, Machine.run_nil, Machine.exec, Machine.set_gpr, Function.update_self]
      rfl
  stored := by
    intro a r hr
    have hw := h.holds.run_widen16 hr
    simp only [Machine.run_cons, Machine.run_nil] at hw
    simp only [extendhisi2, Machine.run_cons, Machine.run_nil]
    generalize (s.machine.exec (.sll r by16)).exec (.sra r by16) = k at hw
    have haddr : k.addr a = s.machine.addr a := by
      simp only [Machine.addr, Machine.part, hw]
    rw [Machine.exec, haddr, Machine.fetch4_store4, hw, h.holds.half hr]
  compared := by
    intro r o hr ho
    have hint : (s.machine.gpr r).toInt = (s.contents.half r).toInt := by
      rw [h.holds.half hr, BitVec.toInt_signExtend_of_le (by decide)]
    cases o with
    | reg q =>
      simp only [cmphi, Machine.run_cons, Machine.run_nil, Machine.exec, Machine.withCc_cc, Machine.store2_gpr, hint,
        Machine.half, Machine.store2_addr, Machine.fetch2_store2, h.holds.low ho]
      rfl
    | const v =>
      simp only [cmphi, Machine.run_cons, Machine.run_nil, Machine.exec, Machine.withCc_cc, hint]
      rfl
    | mem a =>
      simp only [cmphi, Machine.run_cons, Machine.run_nil, Machine.exec, Machine.withCc_cc, hint]
      rfl

/-- A step out of a good state that ends in one where halfwords are right has written a result that fits. -/
theorem fits_of_right (h : s.Good) {i : Insn} (ht : i.Typed s.contents) (hr : (s.step convlo i).Right convlo) :
    i.Fits s.machine s.contents := by
  by_cases hv : ∃ v, i.value s.machine s.contents = .hi v
  · obtain ⟨v, hv⟩ := hv
    have hsome : (emitted convlo i).isSome = true := by
      have ha := hr.assembled
      rw [step, h.assembled, Bool.true_and] at ha
      exact ha
    obtain ⟨ops, ho⟩ := Option.isSome_iff_exists.mp hsome
    obtain ⟨w, hw, hiff⟩ := emitted_spec h.holds ht ho
    have hdest : (s.step convlo i).contents i.dest = .hi v := by
      simp only [step, Function.update_self, hv]
    have hgpr : (s.step convlo i).machine.gpr i.dest = w := by
      simp only [step, ho, Option.getD_some, hw, Function.update_self]
    have hext := hr.extension _ _ hdest
    rw [hr.result _ _ hdest, hgpr] at hext
    rw [← hiff, hv]
    exact hext.symm
  · exact fits_of_not_half (not_exists.mp hv)

theorem run_snoc (p : List Insn) (i : Insn) : s.run convlo (p ++ [i]) = (s.run convlo p).step convlo i := by
  rw [run, List.foldl_append]
  rfl

theorem run_good (hs : s.Good) {prog : List Insn} (ht : s.Typed convlo prog)
    (hf : ∀ p i, p ++ [i] <+: prog → (s.run convlo p).Good →
      i.Fits (s.run convlo p).machine (s.run convlo p).contents) :
    ∀ p, p <+: prog → (s.run convlo p).Good := by
  intro p
  induction p using List.reverseRecOn with
  | nil => exact fun _ => hs
  | append_singleton p i ih =>
    intro hp
    have hgood := ih ((List.prefix_append p [i]).trans hp)
    rw [run_snoc]
    exact step_good convlo hgood (ht p i hp) (hf p i hp hgood)

/-- In every state of a run halfwords are represented as their consumers expect, just when every insn
of it leaves a result that fits. -/
theorem represented_iff (s : State) (prog : List Insn) (hs : s.Good) (ht : s.Typed convlo prog) :
    (∀ p, p <+: prog → (s.run convlo p).Right convlo) ↔
      ∀ p i, p ++ [i] <+: prog → i.Fits (s.run convlo p).machine (s.run convlo p).contents := by
  constructor
  · intro h
    have hfits : ∀ p i, p ++ [i] <+: prog → (s.run convlo p).Good →
        i.Fits (s.run convlo p).machine (s.run convlo p).contents := by
      intro p i hp hgood
      have hright := h _ hp
      rw [run_snoc] at hright
      exact fits_of_right convlo hgood (ht p i hp) hright
    intro p i hp
    exact hfits p i hp (run_good convlo hs ht hfits p ((List.prefix_append p [i]).trans hp))
  · intro h p hp
    exact (run_good convlo hs ht (fun p i hp _ => h p i hp) p hp).right convlo

section Increment

/-- All registers hold one halfword. -/
def filled (v : Half) : State := ⟨⟨fun _ => v.signExtend 32, fun _ => 0, 0⟩, fun _ => .hi v, true⟩

def increment : List Insn := [.addhi3 2 (.const 1)]

theorem filled_good (v : Half) : (filled v).Good := ⟨rfl, fun _ => rfl⟩

theorem of_increment {p : List Insn} {i : Insn} (h : p ++ [i] <+: increment) : p = [] ∧ i = .addhi3 2 (.const 1) := by
  have hlen := h.length_le
  simp only [List.length_append, increment, List.length_cons, List.length_nil] at hlen
  have hp : p = [] := List.length_eq_zero_iff.mp (by omega)
  rw [hp] at h
  exact ⟨hp, (List.cons_prefix_cons.mp h).1⟩

theorem increment_typed (v : Half) : (filled v).Typed 80 increment := by
  intro p i h
  obtain ⟨rfl, rfl⟩ := of_increment h
  exact ⟨⟨v, rfl⟩, trivial⟩

theorem increment_represented : ((filled 7).run 80 increment).Right 80 := by
  have hfits : ∀ p i, p ++ [i] <+: increment →
      i.Fits ((filled 7).run 80 p).machine ((filled 7).run 80 p).contents := by
    intro p i h
    obtain ⟨rfl, rfl⟩ := of_increment h
    exact ⟨by decide, by decide⟩
  have hiff := represented_iff 80 (filled 7) increment (filled_good 7) (increment_typed 7)
  exact hiff.mpr hfits increment (List.prefix_refl _)

/-- 32767 and one is held as 32768, which the same-register extension delivers as it is. -/
theorem sum_not_represented :
    ¬ ∀ (s : State) (prog : List Insn), s.Good → s.Typed 80 prog →
      ∀ p, p <+: prog → (s.run 80 p).Right 80 := by
  intro h
  have hright := h (filled 32767) increment (filled_good _) (increment_typed _) increment (List.prefix_refl _)
  have hext := hright.extended 2 (.reg 2) ⟨_, rfl⟩
  revert hext
  decide

end Increment

end State

end Cc370.I370
