import Cc370.Lib.SignExtension
import Cc370.I370.HalfwordInsns
import Mathlib.Data.List.Infix

namespace Cc370.I370

open Lib.SignExtension

namespace Machine

variable (m : Machine)

@[simp] theorem part_zero : m.part 0 = 0#32 := rfl

@[simp] theorem withCc_addr (c : Fin 4) (a : Address) : (m.withCc c).addr a = m.addr a := rfl

theorem count_disp (c : BitVec 12) : m.count ⟨c, 0, 0⟩ = c.toNat % 64 := by
  simp only [count, addr, part_zero, BitVec.add_zero, BitVec.toNat_setWidth]
  omega

theorem count_reg (c : BitVec 12) {r : Fin 16} (hr : r ≠ 0) :
    m.count ⟨c, 0, r⟩ = (c.toNat + (m.gpr r).toNat) % 64 := by
  have hpart : m.part r = m.gpr r := if_neg hr
  simp only [count, addr, part_zero, hpart, BitVec.add_zero, BitVec.toNat_setWidth, BitVec.toNat_add]
  omega

@[simp] theorem count_by16 : m.count by16 = 16 := m.count_disp 16

@[simp] theorem count_by24 : m.count by24 = 24 := m.count_disp 24

theorem addr_disp (c : BitVec 12) : (m.addr ⟨c, 0, 0⟩).setWidth 32 = c.setWidth 32 := by
  apply BitVec.eq_of_toNat_eq
  simp only [addr, part_zero, BitVec.add_zero, BitVec.toNat_setWidth]
  omega

/-- Register 0 is none in an address. -/
theorem addr_set {d : Fin 16} (v : Word) {a : Address} (h : d = 0 ∨ a.index ≠ d ∧ a.base ≠ d) :
    (m.set d v).addr a = m.addr a := by
  have hpart : ∀ r, d = 0 ∨ r ≠ d → (m.set d v).part r = m.part r := by
    intro r hr
    rw [part, part, set_gpr]
    by_cases h0 : r = 0
    · rw [if_pos h0, if_pos h0]
    · rw [if_neg h0, if_neg h0, Function.update_of_ne]
      rintro rfl
      exact hr.elim h0 fun hne => hne rfl
  rw [addr, addr, hpart _ (h.imp_right And.left), hpart _ (h.imp_right And.right)]

/-- ICM of the two low bytes. -/
theorem inserted_low (a : BitVec 24) (v : Word) : m.inserted 3 a v = v.extractLsb' 16 16 ++ m.fetch2 a := by
  have hv : v.extractLsb' 24 8 ++ v.extractLsb' 16 8 = v.extractLsb' 16 16 :=
    BitVec.extractLsb'_append_extractLsb'_eq_extractLsb' rfl
  have hbytes : m.inserted 3 a v = v.extractLsb' 24 8 ++ v.extractLsb' 16 8 ++ m.mem a ++ m.mem (a + 1) := rfl
  rw [hbytes, hv, fetch2]
  exact BitVec.append_assoc

/-- ICM of the highest byte. -/
theorem inserted_high (a : BitVec 24) (v : Word) : m.inserted 8 a v = m.mem a ++ v.extractLsb' 0 24 := by
  have hlow : v.extractLsb' 8 8 ++ v.extractLsb' 0 8 = v.extractLsb' 0 16 :=
    BitVec.extractLsb'_append_extractLsb'_eq_extractLsb' rfl
  have hrest : v.extractLsb' 16 8 ++ v.extractLsb' 0 16 = v.extractLsb' 0 24 :=
    BitVec.extractLsb'_append_extractLsb'_eq_extractLsb' rfl
  calc m.inserted 8 a v
      = m.mem a ++ v.extractLsb' 16 8 ++ v.extractLsb' 8 8 ++ v.extractLsb' 0 8 := rfl
    _ = m.mem a ++ v.extractLsb' 16 8 ++ (v.extractLsb' 8 8 ++ v.extractLsb' 0 8) := BitVec.append_assoc
    _ = m.mem a ++ (v.extractLsb' 16 8 ++ (v.extractLsb' 8 8 ++ v.extractLsb' 0 8)) := BitVec.append_assoc
    _ = m.mem a ++ v.extractLsb' 0 24 := by rw [hlow, hrest]

/-- The low bits of a register, sign extended to the whole of it. -/
theorem run_widen16 (r : Fin 16) :
    (m.run [.sll r by16, .sra r by16]).gpr = Function.update m.gpr r (((m.gpr r).setWidth 16).signExtend 32) := by
  simp only [run_cons, run_nil, exec, withCc_gpr, set_gpr, count_by16, Function.update_self, Function.update_idem]
  exact congrArg _ (@shiftLeft_sshiftRight 16 16 (m.gpr r) (by decide))

theorem run_widen8 (r : Fin 16) :
    (m.run [.sll r by24, .sra r by24]).gpr = Function.update m.gpr r (((m.gpr r).setWidth 8).signExtend 32) := by
  simp only [run_cons, run_nil, exec, withCc_gpr, set_gpr, count_by24, Function.update_self, Function.update_idem]
  exact congrArg _ (@shiftLeft_sshiftRight 8 24 (m.gpr r) (by decide))

end Machine

/-- Every register holds its value in the representation of its mode. -/
def Contents.Holds (c : Contents) (m : Machine) : Prop := ∀ r, (c r).Holds (m.gpr r)

namespace Contents

variable {c : Contents} {m : Machine} {r : Fin 16}

theorem IsHalf.eq (h : c.IsHalf r) : c r = .hi (c.half r) := by
  obtain ⟨v, hv⟩ := h
  rw [half, hv]

theorem IsWord.eq (h : c.IsWord r) : c r = .si (c.word r) := by
  obtain ⟨v, hv⟩ := h
  rw [word, hv]

theorem IsByte.eq (h : c.IsByte r) : c r = .qi (c.byte r) := by
  obtain ⟨v, hv⟩ := h
  rw [byte, hv]

theorem Holds.half (h : c.Holds m) (hr : c.IsHalf r) : m.gpr r = (c.half r).signExtend 32 := by
  have hold := h r
  rwa [hr.eq] at hold

theorem Holds.word (h : c.Holds m) (hr : c.IsWord r) : m.gpr r = c.word r := by
  have hold := h r
  rwa [hr.eq] at hold

theorem Holds.byte (h : c.Holds m) (hr : c.IsByte r) : (m.gpr r).setWidth 8 = c.byte r := by
  have hold := h r
  rwa [hr.eq] at hold

theorem Holds.low (h : c.Holds m) (hr : c.IsHalf r) : (m.gpr r).setWidth 16 = c.half r := by
  rw [h.half hr, setWidth_signExtend (by decide)]

/-- Widening a register that holds its halfword already changes nothing. -/
theorem Holds.run_widen16 (h : c.Holds m) (hr : c.IsHalf r) : (m.run [.sll r by16, .sra r by16]).gpr = m.gpr := by
  rw [m.run_widen16, h.low hr, ← h.half hr, Function.update_eq_self]

end Contents

section Results

variable {c : Contents} {m : Machine} (convlo : BitVec 12) (d : Fin 16)

theorem run_loadConst (v : Half) : (m.run (loadConst d v)).gpr = Function.update m.gpr d (v.signExtend 32) := by
  unfold loadConst
  by_cases h0 : v = 0
  · rw [if_pos h0, h0]
    simp [Machine.exec]
  rw [if_neg h0]
  by_cases h1 : v.toNat < 4096
  · rw [if_pos h1]
    have hv : (v.setWidth 12).setWidth 32 = v.signExtend 32 := by
      rw [BitVec.signExtend_eq_setWidth_of_msb_false (BitVec.msb_eq_false_iff_two_mul_lt.mpr (by omega))]
      apply BitVec.eq_of_toNat_eq
      simp only [BitVec.toNat_setWidth]
      omega
    simp only [Machine.run_cons, Machine.run_nil, Machine.exec, Machine.set_gpr, Machine.addr_disp, hv]
  · rw [if_neg h1]
    rfl

theorem run_movhi (h : c.Holds m) {s : Operand} (hs : s.Typed c) :
    (m.run (movhi d s)).gpr = Function.update m.gpr d ((s.value m c).signExtend 32) := by
  cases s with
  | reg r =>
    simp only [movhi, Machine.run_cons, Machine.run_nil, Machine.exec, Machine.set_gpr, h.half hs]
    rfl
  | const v => exact run_loadConst d v
  | mem a => rfl

/-- A register operand passes through the conversion area. -/
theorem run_addhi3 (h : c.Holds m) {s : Operand} (hs : s.Typed c) :
    (m.run (addhi3 convlo d s)).gpr = Function.update m.gpr d (m.gpr d + (s.value m c).signExtend 32) := by
  cases s with
  | reg r =>
    simp only [addhi3, Machine.run_cons, Machine.run_nil, Machine.exec, Machine.withCc_gpr, Machine.set_gpr,
      Machine.store2_gpr, Machine.half, Machine.store2_addr, Machine.fetch2_store2, h.low hs]
    rfl
  | const v =>
    by_cases hv : v.toInt = -1
    · have hone : v.signExtend 32 = -1 := by
        apply BitVec.eq_of_toInt_eq
        rw [BitVec.toInt_signExtend_of_le (by decide), hv]
        rfl
      simp only [addhi3, if_pos hv, Machine.run_cons, Machine.run_nil, Machine.exec, Machine.set_gpr, Operand.value, hone]
      rw [BitVec.sub_eq_add_neg]
    · simp only [addhi3, if_neg hv]
      rfl
  | mem a => rfl

theorem run_subhi3 (h : c.Holds m) {s : Operand} (hs : s.Typed c) :
    (m.run (subhi3 convlo d s)).gpr = Function.update m.gpr d (m.gpr d - (s.value m c).signExtend 32) := by
  cases s with
  | reg r =>
    simp only [subhi3, Machine.run_cons, Machine.run_nil, Machine.exec, Machine.withCc_gpr, Machine.set_gpr,
      Machine.store2_gpr, Machine.half, Machine.store2_addr, Machine.fetch2_store2, h.low hs]
    rfl
  | const v =>
    by_cases hv : v.toInt = 1
    · have hone : v.signExtend 32 = 1 := by
        apply BitVec.eq_of_toInt_eq
        rw [BitVec.toInt_signExtend_of_le (by decide), hv]
        rfl
      simp only [subhi3, if_pos hv, Machine.run_cons, Machine.run_nil, Machine.exec, Machine.set_gpr, Operand.value, hone]
    · simp only [subhi3, if_neg hv]
      rfl
  | mem a => rfl

/-- A logical pattern applies its operation to the sign-extended operands. -/
theorem run_logichi3 {rr : Fin 16 → Fin 16 → Op} {rx : Fin 16 → Datum 32 → Op} {f : Word → Word → Word}
    (hrr : ∀ m r s, (Machine.exec m (rr r s)).gpr = Function.update m.gpr r (f (m.gpr r) (m.gpr s)))
    (hrx : ∀ m r w, (Machine.exec m (rx r w)).gpr = Function.update m.gpr r (f (m.gpr r) (m.word w)))
    (h : c.Holds m) {s : Plain} (hs : s.Typed c) :
    (m.run (logichi3 rr rx d s)).gpr = Function.update m.gpr d (f (m.gpr d) ((s.value c).signExtend 32)) := by
  cases s with
  | reg r =>
    simp only [logichi3, Machine.run_cons, Machine.run_nil, hrr, h.half hs]
    rfl
  | const v =>
    simp only [logichi3, Machine.run_cons, Machine.run_nil, hrx]
    rfl

theorem run_andhi3 (h : c.Holds m) {s : Plain} (hs : s.Typed c) :
    (m.run (andhi3 d s)).gpr = Function.update m.gpr d (m.gpr d &&& (s.value c).signExtend 32) :=
  run_logichi3 d (f := fun v w => v &&& w) (fun _ _ _ => rfl) (fun _ _ _ => rfl) h hs

theorem run_iorhi3 (h : c.Holds m) {s : Plain} (hs : s.Typed c) :
    (m.run (iorhi3 d s)).gpr = Function.update m.gpr d (m.gpr d ||| (s.value c).signExtend 32) :=
  run_logichi3 d (f := fun v w => v ||| w) (fun _ _ _ => rfl) (fun _ _ _ => rfl) h hs

theorem run_xorhi3 (h : c.Holds m) {s : Plain} (hs : s.Typed c) :
    (m.run (xorhi3 d s)).gpr = Function.update m.gpr d (m.gpr d ^^^ (s.value c).signExtend 32) :=
  run_logichi3 d (f := fun v w => v ^^^ w) (fun _ _ _ => rfl) (fun _ _ _ => rfl) h hs

/-- The bytes below are replaced, those above are kept. -/
theorem run_movstricthi (s : Fin 16) :
    (m.run (movstricthi convlo d s)).gpr =
      Function.update m.gpr d ((m.gpr d).extractLsb' 16 16 ++ (m.gpr s).setWidth 16) := by
  simp only [movstricthi, Machine.run_cons, Machine.run_nil, Machine.exec, Machine.withCc_gpr, Machine.set_gpr,
    Machine.store2_gpr, Machine.inserted_low, Machine.store2_addr, Machine.fetch2_store2]

theorem run_neghi2 (h : c.Holds m) {s : Fin 16} (hs : c.IsHalf s) :
    (m.run (neghi2 d s)).gpr = Function.update m.gpr d (-m.gpr s) := by
  have hw := h.run_widen16 hs
  simp only [Machine.run_cons, Machine.run_nil] at hw
  simp only [neghi2, Machine.run_cons, Machine.run_nil]
  generalize (m.exec (.sll s by16)).exec (.sra s by16) = k at hw
  simp only [Machine.exec, Machine.withCc_gpr, Machine.set_gpr, hw]

theorem run_abshi2 (h : c.Holds m) {s : Fin 16} (hs : c.IsHalf s) :
    (m.run (abshi2 d s)).gpr = Function.update m.gpr d (if (m.gpr s).msb then -m.gpr s else m.gpr s) := by
  have hw := h.run_widen16 hs
  simp only [Machine.run_cons, Machine.run_nil] at hw
  simp only [abshi2, Machine.run_cons, Machine.run_nil]
  generalize (m.exec (.sll s by16)).exec (.sra s by16) = k at hw
  simp only [Machine.exec, Machine.withCc_gpr, Machine.set_gpr, hw]

theorem run_oneCmplhi2 : (m.run (oneCmplhi2 d)).gpr = Function.update m.gpr d (~~~m.gpr d) := by
  simp only [oneCmplhi2, Machine.run_cons, Machine.run_nil, Machine.exec, Machine.withCc_gpr, Machine.set_gpr,
    Machine.word]
  congr 1
  exact BitVec.xor_allOnes

/-- The register of a count still has it. -/
def Count.Held (c : Contents) (n : Count) (k : Machine) : Prop := ∀ r, n = .reg r → r ≠ 0 ∧ k.gpr r = c.word r

theorem Count.Typed.held {n : Count} (hn : n.Typed c) (h : c.Holds m) : n.Held c m := by
  rintro r rfl
  exact ⟨hn.1, h.word hn.2⟩

theorem Count.Typed.held_set {n : Count} (hn : n.Typed c) (h : c.Holds m) (hd : c.IsHalf d) (v : Word) :
    n.Held c (m.set d v) := by
  rintro r rfl
  obtain ⟨hr, w, hw⟩ := hn
  obtain ⟨u, hu⟩ := hd
  have hne : r ≠ d := by
    rintro rfl
    rw [hw] at hu
    cases hu
  rw [Machine.set_gpr, Function.update_of_ne hne]
  exact ⟨hr, h.word ⟨w, hw⟩⟩

/-- A shift by 16 more than the count shifts by the sum modulo 64. -/
theorem Count.Held.count_more16 {n : Count} {k : Machine} (hn : n.Held c k) {a : Address} (ha : more16 n = some a) :
    k.count a = (16 + n.value c) % 64 := by
  cases n with
  | reg r =>
    obtain ⟨hr, hword⟩ := hn r rfl
    rw [more16, Option.some.injEq] at ha
    rw [← ha, k.count_reg _ hr, hword]
    rfl
  | const v =>
    rw [more16] at ha
    split at ha
    · rename_i hlt
      rw [Option.some.injEq] at ha
      rw [← ha, k.count_disp, Count.value, BitVec.toNat_add]
      have h16 : (16 : BitVec 12).toNat = 16 := rfl
      omega
    · exact absurd ha (by simp)

theorem run_ashlhi3 (h : c.Holds m) {n : Count} (hn : n.Typed c) {ops : List Op} (ho : ashlhi3 d n = some ops) :
    (m.run ops).gpr = Function.update m.gpr d ((m.gpr d <<< ((16 + n.value c) % 64)).sshiftRight 16) := by
  obtain ⟨a, ha, rfl⟩ := Option.map_eq_some_iff.mp ho
  have hcount := (hn.held h).count_more16 ha
  simp only [Machine.run_cons, Machine.run_nil, Machine.exec, Machine.withCc_gpr, Machine.set_gpr, hcount,
    Machine.count_by16, Function.update_self, Function.update_idem]

theorem run_ashrhi3 (h : c.Holds m) (hd : c.IsHalf d) {n : Count} (hn : n.Typed c) {ops : List Op}
    (ho : ashrhi3 d n = some ops) :
    (m.run ops).gpr = Function.update m.gpr d ((m.gpr d <<< 16).sshiftRight ((16 + n.value c) % 64)) := by
  obtain ⟨a, ha, rfl⟩ := Option.map_eq_some_iff.mp ho
  have hcount := (hn.held_set d h hd (m.gpr d <<< 16)).count_more16 ha
  simp only [Machine.run_cons, Machine.run_nil, Machine.exec, Machine.withCc_gpr, Machine.set_gpr, hcount,
    Machine.count_by16, Function.update_self, Function.update_idem]

theorem run_lshrhi3 (h : c.Holds m) (hd : c.IsHalf d) {n : Count} (hn : n.Typed c) :
    (m.run (lshrhi3 d n)).gpr = Function.update m.gpr d ((m.gpr d &&& 0x0000FFFF) >>> (n.value c % 64)) := by
  cases n with
  | reg r =>
    obtain ⟨hr, hword⟩ := hn.held_set d h hd (m.gpr d &&& 0x0000FFFF) r rfl
    have hcount := (m.set d (m.gpr d &&& 0x0000FFFF)).count_reg 0 hr
    have hzero : (0 : BitVec 12).toNat = 0 := rfl
    rw [hword, hzero, Nat.zero_add] at hcount
    have haddr : ∀ e, ((m.set d (m.gpr d &&& 0x0000FFFF)).withCc e).count ⟨0, 0, r⟩ = (c.word r).toNat % 64 :=
      fun _ => hcount
    simp only [lshrhi3, Machine.run_cons, Machine.run_nil, Machine.exec, Machine.withCc_gpr, Machine.set_gpr,
      Machine.word, haddr, Function.update_self, Function.update_idem]
    rfl
  | const v =>
    simp only [lshrhi3, Machine.run_cons, Machine.run_nil, Machine.exec, Machine.withCc_gpr, Machine.set_gpr,
      Machine.word, Machine.count_disp, Function.update_self, Function.update_idem]
    rfl

theorem run_extendqihi2 (h : c.Holds m) {s : Option Address} (hs : s = none → c.IsByte d) :
    (m.run (extendqihi2 d s)).gpr =
      Function.update m.gpr d (((s.elim (c.byte d) fun a => m.mem (m.addr a)) : BitVec 8).signExtend 32) := by
  cases s with
  | none =>
    rw [extendqihi2, m.run_widen8, h.byte (hs rfl)]
    rfl
  | some a =>
    rw [extendqihi2]
    by_cases hi : a.index = 0
    · rw [if_pos hi]
      simp only [Machine.run_cons, Machine.run_nil, Machine.exec, Machine.withCc_gpr, Machine.set_gpr,
        Machine.inserted_high, Machine.count_by24, Function.update_self, Function.update_idem]
      exact congrArg _ (append_sshiftRight _ _ (by decide))
    · rw [if_neg hi, Machine.run_cons, Machine.run_widen8]
      simp only [Machine.exec, Machine.set_gpr, Function.update_self, Function.update_idem]
      congr 2
      exact BitVec.setWidth_append_eq_right

theorem run_zeroExtendqihi2 (h : c.Holds m) {s : Byte} (hs : s.Typed c d) {ops : List Op}
    (ho : zeroExtendqihi2 d s = some ops) :
    (m.run ops).gpr = Function.update m.gpr d ((s.value m c d).setWidth 32) := by
  cases s with
  | same =>
    rw [zeroExtendqihi2, Option.some.injEq] at ho
    rw [← ho, Byte.value, ← h.byte hs]
    simp only [Machine.run_cons, Machine.run_nil, Machine.exec, Machine.withCc_gpr, Machine.set_gpr, Machine.word]
    congr 1
    apply BitVec.eq_of_toNat_eq
    rw [BitVec.toNat_and, BitVec.toNat_setWidth, BitVec.toNat_setWidth]
    exact (Nat.and_two_pow_sub_one_eq_mod _ 8).trans (by omega)
  | const v =>
    rw [zeroExtendqihi2] at ho
    split at ho
    · exact absurd ho (by simp)
    · rw [Option.some.injEq] at ho
      rw [← ho, Byte.value]
      simp only [Machine.run_cons, Machine.run_nil, Machine.exec, Machine.set_gpr, Machine.addr_disp]
      congr 1
  | mem a =>
    rw [zeroExtendqihi2, Option.some.injEq] at ho
    have haddr : ∀ v e, ((m.set d v).withCc e).addr a = m.addr a := by
      intro v e
      rw [Machine.withCc_addr, m.addr_set v hs]
    rw [← ho, Byte.value]
    simp only [Machine.run_cons, Machine.run_nil, Machine.exec, Machine.withCc_gpr, Machine.set_gpr, haddr,
      Machine.withCc_mem, Machine.set_mem, Function.update_self, Function.update_idem, BitVec.sub_self]
    congr 1
    ext i hi
    have hzero : (0#32).extractLsb' 8 24 = 0#24 := rfl
    rw [hzero, BitVec.getElem_append, BitVec.getElem_setWidth]
    split
    · rw [BitVec.getLsbD_eq_getElem]
    · rename_i hlow
      rw [BitVec.getElem_zero, BitVec.getLsbD_of_ge _ _ (by omega)]

theorem run_truncsihi2 (h : c.Holds m) (hd : c.IsWord d) :
    (m.run (truncsihi2 d)).gpr = Function.update m.gpr d (((c.word d).setWidth 16).signExtend 32) := by
  rw [truncsihi2, m.run_widen16, h.word hd]

end Results

end Cc370.I370
