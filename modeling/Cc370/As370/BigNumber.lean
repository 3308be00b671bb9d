import Cc370.Lib.Limbs

namespace Cc370.As370

open Limbs
open Nat (digits ofDigits)

def BN_LIMBS : ℕ := 64

def RADIX : ℕ := 2 ^ 32

/-- A number of at most `BN_LIMBS` limbs, the lowest first; `lost` is set where an operation drops a limb or a carry that is not
zero, and is kept from then on. -/
structure Bn where
  limbs : List ℕ
  lost : Bool

namespace Bn

def set (x : ℕ) : Bn := ⟨digits RADIX x, false⟩

/-- A carry that is left becomes a limb of its own while there is room. -/
def ofCarry (r : List ℕ × ℕ) (lost : Bool) : Bn :=
  if r.2 = 0 then ⟨r.1, lost⟩
  else if r.1.length < BN_LIMBS then ⟨r.1 ++ [r.2], lost⟩
  else ⟨r.1, true⟩

def mulSmall (a : Bn) (m : ℕ) : Bn := ofCarry (ripple RADIX (fun d c => d * m + c) a.limbs 0) a.lost

def addSmall (a : Bn) (x : ℕ) : Bn := ofCarry (ripple RADIX (fun d c => d + c) a.limbs x) a.lost

def cmp (a b : Bn) : Ordering :=
  if a.limbs.length ≠ b.limbs.length then compare a.limbs.length b.limbs.length else cmpLimbs a.limbs b.limbs

def sub (a b : Bn) : Bn := ⟨trim (borrow RADIX a.limbs b.limbs 0), a.lost || b.lost⟩

/-- Whole limbs first, then the bits that remain. -/
def shl (a : Bn) (bits : ℕ) : Bn :=
  if bits = 0 then a
  else if BN_LIMBS ≤ bits / 32 then ⟨[], a.lost || !a.limbs.isEmpty⟩
  else
    let moved := List.replicate (bits / 32) 0 ++ a.limbs
    let a := ⟨moved.take BN_LIMBS, a.lost || (moved.drop BN_LIMBS).any (· ≠ 0)⟩
    let a := if bits % 32 = 0 then a else ofCarry (ripple RADIX (fun d c => d <<< (bits % 32) ||| c) a.limbs 0) a.lost
    { a with limbs := trim a.limbs }

/-- The turns of the long division below bit `k`, on the remainder and the quotient so far. -/
def divLoop (n d : Bn) : ℕ → Bn × ℕ → Bn × ℕ
  | 0, s => s
  | k + 1, (r, q) =>
    let r := r.shl 1
    let r := if (n.limbs.getD (k / 32) 0).testBit (k % 32) then r.addSmall 1 else r
    let q := q * 2 % 2 ^ 64
    if r.cmp d ≠ .lt then divLoop n d k (r.sub d, q ||| 1) else divLoop n d k (r, q)

def divmod (n d : Bn) : Bn × ℕ := divLoop n d (n.limbs.length * 32) (set 0, 0)

/-- A number that stands for `x`, with nothing dropped on the way to it. -/
structure Holds (a : Bn) (x : ℕ) : Prop where
  limbs : a.limbs = digits RADIX x
  lost : a.lost = false

theorem radix_lt : 1 < RADIX := by decide

variable {a b n d : Bn} {x y : ℕ}

theorem Holds.small (h : Holds a x) : ∀ e ∈ a.limbs, e < RADIX := by
  rw [h.limbs]
  exact fun e he => Nat.digits_lt_base radix_lt he

theorem Holds.value (h : Holds a x) : ofDigits RADIX a.limbs = x := by
  rw [h.limbs, Nat.ofDigits_digits]

theorem holds_set (x : ℕ) : Holds (set x) x := ⟨rfl, rfl⟩

theorem Holds.eq_nil (h : Holds a x) : a.limbs = [] ↔ x = 0 := by
  rw [h.limbs]
  exact Nat.digits_eq_nil_iff_eq_zero

theorem Holds.top (h : Holds a x) {l : List ℕ} (hlen : l.length = a.limbs.length) (hne : l ≠ []) : RADIX ^ (l.length - 1) ≤ x := by
  rw [hlen, h.limbs]
  apply pow_le_digits radix_lt
  rw [← h.limbs, ← List.length_pos_iff, ← hlen]
  exact List.length_pos_of_ne_nil hne

/-- A pass over the limbs of a number, with its last carry, is the number it stands for as long as that has room. -/
theorem holds_ofCarry {r : List ℕ × ℕ} {lost : Bool} (hlost : lost = false) (hr : ∀ e ∈ r.1, e < RADIX) (hc : r.2 < RADIX)
    (hv : ofDigits RADIX r.1 + RADIX ^ r.1.length * r.2 = y) (htop : r.1 ≠ [] → RADIX ^ (r.1.length - 1) ≤ y)
    (hy : y < RADIX ^ BN_LIMBS) : Holds (ofCarry r lost) y := by
  have hdigits := push_digits radix_lt hr hc hv htop
  rw [ofCarry]
  by_cases hzero : r.2 = 0
  · rw [if_pos hzero] at hdigits ⊢
    exact ⟨hdigits.symm, hlost⟩
  · rw [if_neg hzero] at hdigits ⊢
    have hroom : r.1.length < BN_LIMBS := by
      by_contra hfull
      have hle := Nat.pow_le_pow_right (n := RADIX) (by decide) (not_lt.mp hfull)
      have hone : RADIX ^ r.1.length ≤ RADIX ^ r.1.length * r.2 := Nat.le_mul_of_pos_right _ (Nat.pos_of_ne_zero hzero)
      omega
    rw [if_pos hroom]
    exact ⟨hdigits.symm, hlost⟩

theorem Holds.mulSmall (h : Holds a x) {m : ℕ} (hm : 0 < m) (hm' : m < RADIX) (hfit : x * m < RADIX ^ BN_LIMBS) :
    Holds (a.mulSmall m) (x * m) := by
  have hcarry (d c : ℕ) (hd : d < RADIX) (hc : c < RADIX) : (d * m + c) / RADIX < RADIX := by
    rw [Nat.div_lt_iff_lt_mul (by decide)]
    have hle : d * m ≤ (RADIX - 1) * (RADIX - 1) := Nat.mul_le_mul (by omega) (by omega)
    have hlim : (RADIX - 1) * (RADIX - 1) + RADIX ≤ RADIX * RADIX := by decide
    omega
  obtain ⟨hval, hlt, hlen, hout⟩ := ripple_value (fun _ _ _ _ => rfl) hcarry h.small (c := 0) (by decide)
  rw [h.value, Nat.add_zero] at hval
  apply holds_ofCarry h.lost hlt hout (by rw [hlen, hval]) _ hfit
  intro hne
  exact (h.top hlen hne).trans (Nat.le_mul_of_pos_right x hm)

theorem Holds.addSmall (h : Holds a x) {y : ℕ} (hy : y < RADIX) (hfit : x + y < RADIX ^ BN_LIMBS) : Holds (a.addSmall y) (x + y) := by
  have hcarry (d c : ℕ) (hd : d < RADIX) (hc : c < RADIX) : (d * 1 + c) / RADIX < RADIX := by
    rw [Nat.div_lt_iff_lt_mul (by decide)]
    have hlim : RADIX + RADIX ≤ RADIX * RADIX := by decide
    omega
  obtain ⟨hval, hlt, hlen, hout⟩ := ripple_value (f := fun d c => d + c) (fun d c _ _ => by simp) hcarry h.small hy
  rw [h.value, Nat.mul_one] at hval
  apply holds_ofCarry h.lost hlt hout (by rw [hlen, hval]) _ hfit
  intro hne
  exact (h.top hlen hne).trans (Nat.le_add_right x y)

theorem Holds.cmp (ha : Holds a x) (hb : Holds b y) : a.cmp b = compare x y := by
  rw [Bn.cmp]
  split
  · rename_i hne
    rw [ha.limbs, hb.limbs] at hne ⊢
    rcases lt_or_gt_of_ne hne with h | h
    · rw [compare_lt_iff_lt.mpr h, compare_lt_iff_lt.mpr (length_lt_of_digits radix_lt h)]
    · rw [compare_gt_iff_gt.mpr h, compare_gt_iff_gt.mpr (length_lt_of_digits radix_lt h)]
  · rename_i heq
    rw [cmpLimbs_eq ha.small hb.small (not_not.mp heq), ha.value, hb.value]

theorem Holds.cmp_ne_lt (ha : Holds a x) (hb : Holds b y) : a.cmp b ≠ .lt ↔ y ≤ x := by
  rw [ha.cmp hb, Ne, compare_lt_iff_lt, not_lt]

theorem Holds.sub (ha : Holds a x) (hb : Holds b y) (hle : y ≤ x) : Holds (a.sub b) (x - y) := by
  have hborrow := borrow_value (b := RADIX) (by decide) ha.small hb.small (Nat.zero_le 1) (by rw [ha.value, hb.value]; exact hle)
  rw [ha.value, hb.value, Nat.add_zero] at hborrow
  refine ⟨?_, ?_⟩
  · rw [Bn.sub, trim_digits radix_lt hborrow.2, hborrow.1]
  · rw [Bn.sub, ha.lost, hb.lost]
    rfl

theorem ofCarry_value {r : List ℕ × ℕ} {lost : Bool} (hr : ∀ e ∈ r.1, e < RADIX) (hc : r.2 < RADIX)
    (hy : ofDigits RADIX r.1 + RADIX ^ r.1.length * r.2 < RADIX ^ BN_LIMBS) :
    ofDigits RADIX (ofCarry r lost).limbs = ofDigits RADIX r.1 + RADIX ^ r.1.length * r.2 ∧
      (∀ e ∈ (ofCarry r lost).limbs, e < RADIX) ∧ (ofCarry r lost).lost = lost := by
  rw [ofCarry]
  by_cases hzero : r.2 = 0
  · rw [if_pos hzero, hzero, Nat.mul_zero, Nat.add_zero]
    exact ⟨rfl, hr, rfl⟩
  · have hroom : r.1.length < BN_LIMBS := by
      by_contra hfull
      have hle := Nat.pow_le_pow_right (n := RADIX) (by decide) (not_lt.mp hfull)
      have hone : RADIX ^ r.1.length ≤ RADIX ^ r.1.length * r.2 := Nat.le_mul_of_pos_right _ (Nat.pos_of_ne_zero hzero)
      omega
    rw [if_neg hzero, if_pos hroom]
    refine ⟨by rw [Nat.ofDigits_append, Nat.ofDigits_singleton], ?_, rfl⟩
    intro e he
    rcases List.mem_append.mp he with he | he
    · exact hr e he
    · exact List.mem_singleton.mp he ▸ hc

theorem moved_fits (h : Holds a x) {bits : ℕ} (hbits : bits / 32 < BN_LIMBS) (hfit : x * 2 ^ bits < RADIX ^ BN_LIMBS) :
    (List.replicate (bits / 32) 0 ++ a.limbs).length ≤ BN_LIMBS := by
  rw [List.length_append, List.length_replicate]
  by_cases hnil : a.limbs = []
  · rw [hnil, List.length_nil, Nat.add_zero]
    exact hbits.le
  · have hpos := List.length_pos_of_ne_nil hnil
    have htop := h.top rfl hnil
    by_contra hlong
    have hmove : RADIX ^ (bits / 32) ≤ 2 ^ bits := by
      rw [RADIX, ← pow_mul]
      exact Nat.pow_le_pow_right (by decide) (by omega)
    have hle : RADIX ^ BN_LIMBS ≤ RADIX ^ (a.limbs.length - 1) * RADIX ^ (bits / 32) := by
      rw [← pow_add]
      exact Nat.pow_le_pow_right (by decide) (by omega)
    have hprod := Nat.mul_le_mul htop hmove
    omega

theorem Holds.shl (h : Holds a x) {bits : ℕ} (hbits : bits / 32 < BN_LIMBS) (hfit : x * 2 ^ bits < RADIX ^ BN_LIMBS) :
    Holds (a.shl bits) (x * 2 ^ bits) := by
  rw [Bn.shl]
  by_cases hzero : bits = 0
  · rw [if_pos hzero, hzero, pow_zero, Nat.mul_one]
    exact h
  rw [if_neg hzero, if_neg (not_le.mpr hbits)]
  have hlen := moved_fits h hbits hfit
  generalize hmoved : List.replicate (bits / 32) 0 ++ a.limbs = moved at hlen ⊢
  have hsmall : ∀ e ∈ moved, e < RADIX := by
    intro e he
    rw [← hmoved] at he
    rcases List.mem_append.mp he with he | he
    · rw [List.eq_of_mem_replicate he]
      decide
    · exact h.small e he
  have hval : ofDigits RADIX moved = x * RADIX ^ (bits / 32) := by
    rw [← hmoved, Nat.ofDigits_append, Nat.ofDigits_replicate_zero, List.length_replicate, h.value, Nat.zero_add, Nat.mul_comm]
  have hsplit : x * RADIX ^ (bits / 32) * 2 ^ (bits % 32) = x * 2 ^ bits := by
    rw [RADIX, ← pow_mul, Nat.mul_assoc, ← pow_add, Nat.div_add_mod]
  dsimp only
  rw [List.take_of_length_le hlen, List.drop_of_length_le hlen, List.any_nil, Bool.or_false]
  split
  · rename_i hrem
    rw [hrem, pow_zero, Nat.mul_one] at hsplit
    refine ⟨?_, h.lost⟩
    dsimp only
    rw [trim_digits radix_lt hsmall, hval, hsplit]
  · have hrem : bits % 32 < 32 := Nat.mod_lt _ (by decide)
    generalize bits % 32 = rem at hrem hsplit ⊢
    have hf (d c : ℕ) (hd : d < RADIX) (hc : c < 2 ^ rem) : d <<< rem ||| c = d * 2 ^ rem + c := by
      rw [← Nat.shiftLeft_add_eq_or_of_lt hc, Nat.shiftLeft_eq]
    have hcarry (d c : ℕ) (hd : d < RADIX) (hc : c < 2 ^ rem) : (d * 2 ^ rem + c) / RADIX < 2 ^ rem := by
      rw [Nat.div_lt_iff_lt_mul (by decide)]
      calc d * 2 ^ rem + c < (d + 1) * 2 ^ rem := by
            rw [Nat.add_mul, Nat.one_mul]
            omega
        _ ≤ 2 ^ rem * RADIX := by
            rw [Nat.mul_comm]
            exact Nat.mul_le_mul_left _ hd
    obtain ⟨hripple, hlt, hlen', hout⟩ := ripple_value hf hcarry hsmall (c := 0) (Nat.pow_pos (by decide))
    have hout' : (ripple RADIX (fun d c => d <<< rem ||| c) moved 0).2 < RADIX :=
      hout.trans_le (Nat.pow_le_pow_right (by decide) hrem.le)
    rw [hval, Nat.add_zero, hsplit, ← hlen'] at hripple
    obtain ⟨hvalue, hdigits, hlost⟩ := @ofCarry_value _ a.lost hlt hout' (hripple.symm ▸ hfit)
    refine ⟨?_, hlost.trans h.lost⟩
    dsimp only
    rw [trim_digits radix_lt hdigits, hvalue, hripple]

/-- The bits are those of the number. -/
theorem Holds.testBit (h : Holds a x) (k : ℕ) : (a.limbs.getD (k / 32) 0).testBit (k % 32) = x.testBit k := by
  rw [h.limbs, Nat.getD_digits x (k / 32) (by decide), RADIX, ← pow_mul, Nat.testBit_mod_two_pow, Nat.testBit_div_two_pow,
    Nat.mod_add_div]
  simp [Nat.mod_lt]

/-- One bit more of the dividend: the quotient doubles, and the remainder takes the bit in. -/
theorem long_division {p y bit : ℕ} (hy : 0 < y) (hbit : bit < 2) :
    if y ≤ 2 * (p % y) + bit then (2 * p + bit) % y = 2 * (p % y) + bit - y ∧ (2 * p + bit) / y = 2 * (p / y) + 1
    else (2 * p + bit) % y = 2 * (p % y) + bit ∧ (2 * p + bit) / y = 2 * (p / y) := by
  have hsplit : 2 * p + bit = 2 * (p % y) + bit + y * (2 * (p / y)) := by
    have hdiv := Nat.mod_add_div p y
    rw [Nat.mul_left_comm]
    omega
  have hlt : p % y < y := Nat.mod_lt p hy
  split
  · rename_i hge
    have hdec : 2 * (p % y) + bit = 2 * (p % y) + bit - y + y * 1 := by omega
    rw [hsplit, Nat.add_mul_mod_self_left, Nat.add_mul_div_left _ _ hy, hdec, Nat.add_mul_mod_self_left, Nat.add_mul_div_left _ _ hy]
    rw [Nat.mod_eq_of_lt (by omega), Nat.div_eq_of_lt (by omega)]
    exact ⟨by omega, by omega⟩
  · rename_i hge
    rw [hsplit, Nat.add_mul_mod_self_left, Nat.add_mul_div_left _ _ hy, Nat.mod_eq_of_lt (not_le.mp hge),
      Nat.div_eq_of_lt (not_le.mp hge), Nat.zero_add]
    exact ⟨rfl, rfl⟩

theorem or_one (w : ℕ) : 2 * w ||| 1 = 2 * w + 1 := by
  have hor := Nat.two_pow_add_eq_or_of_lt (i := 1) (b := 1) (by decide) w
  rw [pow_one] at hor
  exact hor.symm

theorem divLoop_spec (hn : Holds n x) (hd : Holds d y) (hy : 0 < y) (hfit : 2 * y ≤ RADIX ^ BN_LIMBS) (k : ℕ) {r : Bn} {q : ℕ}
    (hr : Holds r (x / 2 ^ k % y)) (hq : q = x / 2 ^ k / y % 2 ^ 64) :
    Holds (divLoop n d k (r, q)).1 (x % y) ∧ (divLoop n d k (r, q)).2 = x / y % 2 ^ 64 := by
  induction k generalizing r q with
  | zero =>
    rw [pow_zero, Nat.div_one] at hr hq
    exact ⟨hr, hq⟩
  | succ k ih =>
    have hbits : x / 2 ^ k = 2 * (x / 2 ^ (k + 1)) + (x.testBit k).toNat := by
      rw [Nat.toNat_testBit, pow_succ, ← Nat.div_div_eq_div_mul]
      omega
    have hlt := Nat.mod_lt (x / 2 ^ (k + 1)) hy
    have hstep := long_division (p := x / 2 ^ (k + 1)) hy (Bool.toNat_lt (x.testBit k))
    rw [← hbits] at hstep
    -- the remainder is doubled, and takes the bit in
    have hshift : Holds (r.shl 1) (2 * (x / 2 ^ (k + 1) % y)) := by
      have hdouble : Holds (r.shl 1) (x / 2 ^ (k + 1) % y * 2 ^ 1) := hr.shl (by decide) (by omega)
      rwa [pow_one, Nat.mul_comm] at hdouble
    have htake : Holds (if (n.limbs.getD (k / 32) 0).testBit (k % 32) then (r.shl 1).addSmall 1 else r.shl 1)
        (2 * (x / 2 ^ (k + 1) % y) + (x.testBit k).toNat) := by
      rw [hn.testBit]
      cases hb : x.testBit k with
      | false => exact hshift
      | true => exact hshift.addSmall (by decide) (by omega)
    rw [divLoop]
    have hdouble : q * 2 % 2 ^ 64 = 2 * (x / 2 ^ (k + 1) / y % 2 ^ 63) := by
      rw [hq]
      omega
    by_cases hge : y ≤ 2 * (x / 2 ^ (k + 1) % y) + (x.testBit k).toNat
    · rw [if_pos hge] at hstep
      rw [if_pos ((htake.cmp_ne_lt hd).mpr hge)]
      apply ih
      · rw [hstep.1]
        exact htake.sub hd hge
      · rw [hdouble, or_one, hstep.2]
        omega
    · rw [if_neg hge] at hstep
      rw [if_neg (mt (htake.cmp_ne_lt hd).mp hge)]
      apply ih
      · rw [hstep.1]
        exact htake
      · rw [hdouble, hstep.2]
        omega

theorem divmod_spec (hn : Holds n x) (hd : Holds d y) (hy : 0 < y) (hfit : 2 * y ≤ RADIX ^ BN_LIMBS) :
    Holds (divmod n d).1 (x % y) ∧ (divmod n d).2 = x / y % 2 ^ 64 := by
  have hzero : x / 2 ^ (n.limbs.length * 32) = 0 := by
    apply Nat.div_eq_of_lt
    rw [hn.limbs, Nat.mul_comm, pow_mul]
    exact Nat.lt_base_pow_length_digits radix_lt
  apply divLoop_spec hn hd hy hfit
  · rw [hzero, Nat.zero_mod]
    exact holds_set 0
  · rw [hzero, Nat.zero_div, Nat.zero_mod]

end Bn

end Cc370.As370
