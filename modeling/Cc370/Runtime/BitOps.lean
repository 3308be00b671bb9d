import Cc370.Lib.Fields
import Cc370.Runtime.DoubleWord

namespace Cc370.Runtime

open Cc370.Lib Fields

def popcsi (x : BitVec 32) : BitVec 32 :=
  let x := x - ((x >>> 1) &&& 0x55555555#32)
  let x := (x &&& 0x33333333#32) + ((x >>> 2) &&& 0x33333333#32)
  let x := (x + (x >>> 4)) &&& 0x0F0F0F0F#32
  (x + (x >>> 8) + (x >>> 16) + (x >>> 24)) &&& 0x3F#32

def popcdi (x : BitVec 64) : BitVec 32 :=
  let v := Dw.of x
  popcsi v.hi + popcsi v.lo

def partsi (x : BitVec 32) : BitVec 32 :=
  let x := x ^^^ x >>> 16
  let x := x ^^^ x >>> 8
  let x := x ^^^ x >>> 4
  let x := x ^^^ x >>> 2
  let x := x ^^^ x >>> 1
  x &&& 1

def partdi (x : BitVec 64) : BitVec 32 :=
  let v := Dw.of x
  partsi (v.hi ^^^ v.lo)

/-- A line of the search for the highest bit, on the count and the shifted number. -/
def clzTurn (mask : BitVec 32) (k : ℕ) (s : ℕ × BitVec 32) : ℕ × BitVec 32 :=
  if s.2 &&& mask = 0 then (s.1 + k, s.2 <<< k) else s

def clzsi2 (x : BitVec 32) : ℕ :=
  if x = 0 then 32
  else
    let s := clzTurn 0xFFFF0000 16 (0, x)
    let s := clzTurn 0xFF000000 8 s
    let s := clzTurn 0xF0000000 4 s
    let s := clzTurn 0xC0000000 2 s
    (clzTurn 0x80000000 1 s).1

def clzdi2 (x : BitVec 64) : ℕ :=
  let v := Dw.of x
  if v.hi ≠ 0 then clzsi2 v.hi else 32 + clzsi2 v.lo

def ctzTurn (mask : BitVec 32) (k : ℕ) (s : ℕ × BitVec 32) : ℕ × BitVec 32 :=
  if s.2 &&& mask = 0 then (s.1 + k, s.2 >>> k) else s

def ctzsi2 (x : BitVec 32) : ℕ :=
  if x = 0 then 32
  else
    let s := ctzTurn 0x0000FFFF 16 (0, x)
    let s := ctzTurn 0x000000FF 8 s
    let s := ctzTurn 0x0000000F 4 s
    let s := ctzTurn 0x00000003 2 s
    (ctzTurn 0x00000001 1 s).1

def ctzdi2 (x : BitVec 64) : ℕ :=
  let v := Dw.of x
  if v.lo ≠ 0 then ctzsi2 v.lo else 32 + ctzsi2 v.hi

def ffsdi2 (x : BitVec 64) : ℕ :=
  let v := Dw.of x
  if v.lo ≠ 0 then 1 + ctzsi2 v.lo else if v.hi ≠ 0 then 33 + ctzsi2 v.hi else 0

section Popcount

def bits (x : BitVec 32) : List ℕ := (List.range 32).map fun i => (x.getLsbD i).toNat

theorem packed_bits (x : BitVec 32) : packed 1 (bits x) = x.toNat := by
  have hall : ∀ n, packed 1 ((List.range n).map fun i => (x.getLsbD i).toNat) = x.toNat % 2 ^ n := by
    intro n
    induction n with
    | zero => simp [packed, Nat.mod_one]
    | succ n ih =>
      rw [packed] at ih ⊢
      rw [List.range_succ, List.map_append, Nat.ofDigits_append, ih, List.length_map, List.length_range, List.map_singleton,
        Nat.ofDigits_singleton, pow_one, Nat.mod_pow_succ, BitVec.getLsbD, Nat.testBit_eq_decide_div_mod_eq]
      congr 2
      rcases Nat.mod_two_eq_zero_or_one (x.toNat / 2 ^ n) with h | h <;> simp [h]
  rw [bits, hall 32, Nat.mod_eq_of_lt x.isLt]

def ones (n : ℕ) (x : BitVec 32) : ℕ := ((List.range n).map fun i => (x.getLsbD i).toNat).sum

theorem ones_all (x : BitVec 32) : ones 32 x = x.cpop.toNat := by
  have hall : ∀ n, ones n x = x.cpopNatRec n 0 := by
    intro n
    rw [ones]
    induction n with
    | zero => rfl
    | succ n ih =>
      rw [List.range_succ, List.map_append, List.sum_append, ih, BitVec.cpopNatRec_succ, Nat.zero_add, BitVec.cpopNatRec_eq (x.getLsbD n).toNat]
      simp
  rw [hall 32, BitVec.toNat_cpop]

theorem sum_bits (x : BitVec 32) : (bits x).sum = x.cpop.toNat := ones_all x

theorem bits_le (x : BitVec 32) : ∀ d ∈ bits x, d ≤ 1 := by
  intro d hd
  obtain ⟨i, -, rfl⟩ := List.mem_map.mp hd
  exact Bool.toNat_le _

theorem length_bits (x : BitVec 32) : (bits x).length = 32 := by
  rw [bits, List.length_map, List.length_range]

theorem length_pairs {ds : List ℕ} {n : ℕ} (h : ds.length = 2 * n) : (pairs ds).length = n := by
  induction n generalizing ds with
  | zero =>
    rw [List.length_eq_zero_iff.mp h]
    rfl
  | succ n ih =>
    match ds, h with
    | a :: b :: ds, h =>
      have hds : ds.length = 2 * n := by
        simp only [List.length_cons] at h
        omega
      rw [pairs, List.length_cons, ih hds]

theorem first_stage (x : BitVec 32) : (x - ((x >>> 1) &&& 0x55555555#32)).toNat = packed 2 (pairs (bits x)) := by
  have hlt : ∀ d ∈ bits x, d < 2 ^ 1 := fun d hd => Nat.lt_succ_of_le (bits_le x d hd)
  have htail : ∀ d ∈ (bits x).tail, d < 2 ^ 1 := fun d hd => hlt d (List.mem_of_mem_tail hd)
  have hmask : BitVec.toNat 0x55555555#32 = packed (2 * 1) (List.replicate 16 (2 ^ 1 - 1)) := by decide
  have hodd : ((x >>> 1) &&& 0x55555555#32).toNat = packed 2 (evens (bits x).tail) := by
    rw [BitVec.toNat_and, BitVec.toNat_ushiftRight, ← packed_bits x, packed_tail hlt, hmask,
      land_evens htail 16 (by rw [List.length_tail, length_bits]; decide)]
  have hx : x.toNat = packed 2 (evens (bits x)) + 2 ^ 1 * packed 2 (evens (bits x).tail) := by
    rw [← packed_bits x]
    exact (packed_evens (w := 1) (bits x)).symm
  have hsum := evens_add_tail (w := 2) (bits x)
  have hle : (x >>> 1) &&& 0x55555555#32 ≤ x := by
    rw [BitVec.le_def, hodd, hx]
    omega
  rw [BitVec.toNat_sub_of_le hle, hodd, hx, ← hsum]
  omega

theorem packed_lt {w n : ℕ} {ds : List ℕ} (hw : 1 < 2 ^ w) (h : ∀ d ∈ ds, d < 2 ^ w) (hn : ds.length = n) : packed w ds < 2 ^ (w * n) := by
  rw [pow_mul, ← hn]
  exact Nat.ofDigits_lt_base_pow_length hw h

theorem second_stage {y : BitVec 32} {ds : List ℕ} (hy : y.toNat = packed 2 ds) (hle : ∀ d ∈ ds, d ≤ 2) (hlen : ds.length = 16) :
    ((y &&& 0x33333333#32) + ((y >>> 2) &&& 0x33333333#32)).toNat = packed 4 (pairs ds) := by
  have hlt : ∀ d ∈ ds, d < 2 ^ 2 := fun d hd => Nat.lt_of_le_of_lt (hle d hd) (by decide)
  have hmask : BitVec.toNat 0x33333333#32 = packed (2 * 2) (List.replicate 8 (2 ^ 2 - 1)) := by decide
  have hroom : packed 4 (pairs ds) < 2 ^ (4 * 8) := by
    apply packed_lt (by decide)
    · exact fun d hd => Nat.lt_of_le_of_lt (pairs_le hle d hd) (by decide)
    · exact length_pairs (by rw [hlen])
  rw [BitVec.toNat_add, BitVec.toNat_and, BitVec.toNat_and, BitVec.toNat_ushiftRight, hy, hmask,
    land_add_land hlt 8 (by rw [hlen])]
  exact Nat.mod_eq_of_lt hroom

theorem third_stage {y : BitVec 32} {ds : List ℕ} (hy : y.toNat = packed 4 ds) (hle : ∀ d ∈ ds, d ≤ 4) (hlen : ds.length = 8) :
    ((y + (y >>> 4)) &&& 0x0F0F0F0F#32).toNat = packed 8 (pairs ds) := by
  have hlt : ∀ d ∈ ds, d < 2 ^ 4 := fun d hd => Nat.lt_of_le_of_lt (hle d hd) (by decide)
  have htwice : ∀ d ∈ ds, 2 * d < 2 ^ 4 := fun d hd => Nat.lt_of_le_of_lt (Nat.mul_le_mul_left 2 (hle d hd)) (by decide)
  have hmask : BitVec.toNat 0x0F0F0F0F#32 = packed (2 * 4) (List.replicate 4 (2 ^ 4 - 1)) := by decide
  have hroom : packed 4 ds + packed 4 ds >>> 4 < 2 ^ (4 * 8) := by
    rw [packed_tail hlt, ← packed_sums]
    apply packed_lt (by decide)
    · exact fun d hd => Nat.lt_of_le_of_lt (sums_le hle d hd) (by decide)
    · rw [length_sums, hlen]
  rw [BitVec.toNat_and, BitVec.toNat_add, BitVec.toNat_ushiftRight, hy, Nat.mod_eq_of_lt hroom, hmask,
    add_land htwice 4 (by rw [hlen])]

theorem fourth_stage {y : BitVec 32} {ds : List ℕ} (hy : y.toNat = packed 8 ds) (hle : ∀ d ∈ ds, d ≤ 8) (hlen : ds.length = 4) :
    ((y + (y >>> 8) + (y >>> 16) + (y >>> 24)) &&& 0x3F#32).toNat = ds.sum := by
  match ds, hlen with
  | [a, b, c, d], _ =>
    have ha := hle a (by simp)
    have hb := hle b (by simp)
    have hc := hle c (by simp)
    have hd := hle d (by simp)
    have hval : y.toNat = a + 256 * (b + 256 * (c + 256 * d)) := by
      rw [hy]
      simp [packed, Nat.ofDigits_cons]
    have hmask (z : BitVec 32) : (z &&& 0x3F#32).toNat = z.toNat % 64 := by
      rw [BitVec.toNat_and]
      exact Nat.and_two_pow_sub_one_eq_mod _ 6
    have h8 : y.toNat / 2 ^ 8 = b + 256 * (c + 256 * d) := by omega
    have h16 : y.toNat / 2 ^ 16 = c + 256 * d := by omega
    have h24 : y.toNat / 2 ^ 24 = d := by omega
    rw [hmask, BitVec.toNat_add, BitVec.toNat_add, BitVec.toNat_add, BitVec.toNat_ushiftRight, BitVec.toNat_ushiftRight,
      BitVec.toNat_ushiftRight, Nat.shiftRight_eq_div_pow, Nat.shiftRight_eq_div_pow, Nat.shiftRight_eq_div_pow, h8, h16, h24, hval]
    simp only [List.sum_cons, List.sum_nil]
    omega

theorem popcsi_eq (x : BitVec 32) : popcsi x = x.cpop := by
  have h1 := pairs_le (bits_le x)
  have h2 := pairs_le h1
  have h3 := pairs_le h2
  have hl1 : (pairs (bits x)).length = 16 := length_pairs (by rw [length_bits])
  have hl2 : (pairs (pairs (bits x))).length = 8 := length_pairs (by rw [hl1])
  have hl3 : (pairs (pairs (pairs (bits x)))).length = 4 := length_pairs (by rw [hl2])
  have hsecond := second_stage (first_stage x) h1 hl1
  have hthird := third_stage hsecond h2 hl2
  apply BitVec.eq_of_toNat_eq
  rw [← sum_bits, ← sum_pairs, ← sum_pairs (pairs (bits x)), ← sum_pairs (pairs (pairs (bits x)))]
  exact fourth_stage hthird h3 hl3

theorem toNat_cpop_join (v : Dw) : v.u.cpop.toNat = v.hi.cpop.toNat + v.lo.cpop.toNat := BitVec.toNat_cpop_append

theorem popcdi_eq (x : BitVec 64) : (popcdi x).toNat = x.cpop.toNat := by
  have hx : x.cpop.toNat = (Dw.of x).hi.cpop.toNat + (Dw.of x).lo.cpop.toNat := by
    rw [← toNat_cpop_join, Dw.u_of]
  have hhi := BitVec.toNat_cpop_le (Dw.of x).hi
  have hlo := BitVec.toNat_cpop_le (Dw.of x).lo
  rw [popcdi, popcsi_eq, popcsi_eq, BitVec.toNat_add, hx]
  exact Nat.mod_eq_of_lt (by omega)

end Popcount

section Parity

theorem sum_xor (f g : ℕ → Bool) (l : List ℕ) :
    (l.map fun i => (f i ^^ g i).toNat).sum % 2 = ((l.map fun i => (f i).toNat).sum + (l.map fun i => (g i).toNat).sum) % 2 := by
  induction l with
  | nil => rfl
  | cons i l ih =>
    have hbit : (f i ^^ g i).toNat % 2 = ((f i).toNat + (g i).toNat) % 2 := by
      cases f i <;> cases g i <;> rfl
    simp only [List.map_cons, List.sum_cons]
    omega

/-- Folding the upper bits onto the lower ones keeps the parity. -/
theorem ones_fold (k : ℕ) (x : BitVec 32) : ones k (x ^^^ x >>> k) % 2 = ones (k + k) x % 2 := by
  have hsplit : ones (k + k) x = ones k x + ((List.range k).map fun i => (x.getLsbD (k + i)).toNat).sum := by
    rw [ones, List.range_add, List.map_append, List.sum_append, List.map_map]
    rfl
  have hxor := sum_xor (fun i => x.getLsbD i) (fun i => x.getLsbD (k + i)) (List.range k)
  rw [hsplit]
  simpa only [ones, BitVec.getLsbD_xor, BitVec.getLsbD_ushiftRight] using hxor

theorem partsi_eq (x : BitVec 32) : (partsi x).toNat = x.cpop.toNat % 2 := by
  have hlow (y : BitVec 32) : (y &&& 1).toNat = ones 1 y % 2 := by
    rw [BitVec.toNat_and]
    have hbit : ones 1 y = (y.toNat.testBit 0).toNat := by
      simp [ones, BitVec.getLsbD]
    rw [hbit, Nat.testBit_zero]
    rcases Nat.mod_two_eq_zero_or_one y.toNat with h | h <;> simp [h, Nat.and_one_is_mod]
  rw [← ones_all, ← ones_fold 16, ← ones_fold 8, ← ones_fold 4, ← ones_fold 2, ← ones_fold 1, partsi, hlow]

theorem partdi_eq (x : BitVec 64) : (partdi x).toNat = x.cpop.toNat % 2 := by
  have hx : x.cpop.toNat = (Dw.of x).hi.cpop.toNat + (Dw.of x).lo.cpop.toNat := by
    rw [← toNat_cpop_join, Dw.u_of]
  have hxor := sum_xor (fun i => (Dw.of x).hi.getLsbD i) (fun i => (Dw.of x).lo.getLsbD i) (List.range 32)
  rw [hx, ← ones_all, ← ones_all, partdi, partsi_eq, ← ones_all, ones, ones, ones, ← hxor]
  simp only [BitVec.getLsbD_xor]

end Parity

section Counts

/-- The first bit that is set, in some order of the bits. -/
structure First (b : ℕ → Bool) (c : ℕ) : Prop where
  zeros : ∀ i < c, b i = false
  one : b c = true

theorem First.unique {b : ℕ → Bool} {c d : ℕ} (hc : First b c) (hd : First b d) : c = d := by
  have hle : ∀ {m n : ℕ}, First b m → First b n → m ≤ n := by
    intro m n hm hn
    apply Nat.le_of_not_lt
    intro hlt
    have hzero := hm.zeros n hlt
    rw [hn.one] at hzero
    exact absurd hzero.symm Bool.false_ne_true
  exact Nat.le_antisymm (hle hc hd) (hle hd hc)

theorem First.of_near {b near : ℕ → Bool} {c : ℕ} (h : ∀ i < 32, b i = near i) (hfirst : First near c) (hc : c < 32) : First b c := by
  refine ⟨?_, ?_⟩
  · intro i hi
    rw [h i (hi.trans hc)]
    exact hfirst.zeros i hi
  · rw [h c hc]
    exact hfirst.one

theorem First.of_far {b far : ℕ → Bool} {c : ℕ} (hzero : ∀ i < 32, b i = false) (h : ∀ i, b (32 + i) = far i) (hfirst : First far c) :
    First b (32 + c) := by
  refine ⟨?_, ?_⟩
  · intro i hi
    by_cases hnear : i < 32
    · exact hzero i hnear
    · obtain ⟨j, rfl⟩ := Nat.exists_eq_add_of_le (Nat.le_of_not_lt hnear)
      rw [h]
      exact hfirst.zeros j (by omega)
  · rw [h]
    exact hfirst.one

/-- What the search has counted of the bits of `x`; the first one of the rest is below `k`. -/
def Counted (bit : BitVec 32 → ℕ → Bool) (x : BitVec 32) (k : ℕ) (s : ℕ × BitVec 32) : Prop :=
  ∃ c < k, First (bit s.2) c ∧ First (bit x) (s.1 + c)

variable {bit : BitVec 32 → ℕ → Bool}

theorem counted_turn (shift : BitVec 32 → BitVec 32) {mask : BitVec 32} {k : ℕ} {x : BitVec 32} {s : ℕ × BitVec 32}
    (hmask : ∀ y, y &&& mask = 0 ↔ ∀ i < k, bit y i = false) (hshift : ∀ y i, bit (shift y) i = bit y (k + i))
    (h : Counted bit x (k + k) s) : Counted bit x k (if s.2 &&& mask = 0 then (s.1 + k, shift s.2) else s) := by
  obtain ⟨c, hc, hfirst, hx⟩ := h
  by_cases hzero : s.2 &&& mask = 0
  · rw [if_pos hzero]
    have hlow := (hmask s.2).mp hzero
    have hk : k ≤ c := by
      apply Nat.le_of_not_lt
      intro hlt
      have hset := hlow c hlt
      rw [hfirst.one] at hset
      exact absurd hset.symm Bool.false_ne_true
    obtain ⟨d, rfl⟩ := Nat.exists_eq_add_of_le hk
    refine ⟨d, by omega, ⟨?_, ?_⟩, ?_⟩
    · intro i hi
      rw [hshift]
      exact hfirst.zeros (k + i) (by omega)
    · rw [hshift]
      exact hfirst.one
    · rw [Nat.add_assoc]
      exact hx
  · rw [if_neg hzero]
    refine ⟨c, ?_, hfirst, hx⟩
    apply Nat.lt_of_not_le
    intro hle
    apply hzero
    apply (hmask s.2).mpr
    intro i hi
    exact hfirst.zeros i (by omega)

theorem mask_zero {mask : BitVec 32} {k : ℕ} (hand : ∀ a b i, bit (a &&& b) i = (bit a i && bit b i))
    (hext : ∀ a, a = 0 ↔ ∀ i < 32, bit a i = false) (hbits : ∀ i < 32, bit mask i = decide (i < k)) (hk : k ≤ 32) (y : BitVec 32) :
    y &&& mask = 0 ↔ ∀ i < k, bit y i = false := by
  rw [hext]
  constructor
  · intro h i hi
    have hzero := h i (by omega)
    rw [hand, hbits i (by omega), decide_eq_true hi, Bool.and_true] at hzero
    exact hzero
  · intro h i hi
    rw [hand, hbits i hi]
    by_cases hik : i < k
    · rw [h i hik, Bool.false_and]
    · rw [decide_eq_false hik, Bool.and_false]

theorem zero_iff_lsb (a : BitVec 32) : a = 0 ↔ ∀ i < 32, a.getLsbD i = false := by
  constructor
  · rintro rfl i -
    exact BitVec.getLsbD_zero
  · intro h
    apply BitVec.eq_of_getLsbD_eq
    intro i hi
    rw [h i hi]
    exact BitVec.getLsbD_zero.symm

theorem zero_iff_msb (a : BitVec 32) : a = 0 ↔ ∀ i < 32, a.getMsbD i = false := by
  constructor
  · rintro rfl i -
    exact BitVec.getMsbD_zero
  · intro h
    apply BitVec.eq_of_getMsbD_eq
    intro i hi
    rw [h i hi]
    exact BitVec.getMsbD_zero.symm

theorem ctzTurn_counted (mask : BitVec 32) (k : ℕ) {x : BitVec 32} {s : ℕ × BitVec 32} (hbits : ∀ i < 32, mask.getLsbD i = decide (i < k))
    (hk : k ≤ 32) (h : Counted BitVec.getLsbD x (k + k) s) : Counted BitVec.getLsbD x k (ctzTurn mask k s) := by
  have hmask := mask_zero (fun a b i => BitVec.getLsbD_and) zero_iff_lsb hbits hk
  exact counted_turn (· >>> k) hmask (fun y i => BitVec.getLsbD_ushiftRight y k i) h

theorem clzTurn_counted (mask : BitVec 32) (k : ℕ) {x : BitVec 32} {s : ℕ × BitVec 32} (hbits : ∀ i < 32, mask.getMsbD i = decide (i < k))
    (hk : k ≤ 32) (h : Counted BitVec.getMsbD x (k + k) s) : Counted BitVec.getMsbD x k (clzTurn mask k s) := by
  have hmask := mask_zero (fun a b i => BitVec.getMsbD_and) zero_iff_msb hbits hk
  have hshift (y : BitVec 32) (i : ℕ) : (y <<< k).getMsbD i = y.getMsbD (k + i) := by
    rw [BitVec.getMsbD_shiftLeft, Nat.add_comm]
  exact counted_turn (· <<< k) hmask hshift h

theorem first_ctz {w : ℕ} {x : BitVec w} (h : x ≠ 0) : First x.getLsbD x.ctz.toNat :=
  ⟨fun _ hi => BitVec.getLsbD_false_of_lt_ctz hi, BitVec.getLsbD_true_ctz_of_ne_zero h⟩

theorem first_clz {w : ℕ} {x : BitVec w} (h : x ≠ 0) : First x.getMsbD x.clz.toNat := by
  have hrev : x.reverse ≠ 0 := fun hzero => h (BitVec.reverse_eq_zero_iff.mp hzero)
  obtain ⟨hzeros, hone⟩ := first_ctz hrev
  rw [BitVec.ctz_eq_reverse_clz, BitVec.reverse_reverse_eq] at hzeros hone
  refine ⟨?_, ?_⟩
  · intro i hi
    have hbit := hzeros i hi
    rwa [BitVec.getLsbD_reverse] at hbit
  · rwa [BitVec.getLsbD_reverse] at hone

theorem counted_done {x : BitVec 32} {s : ℕ × BitVec 32} {c : ℕ} (h : Counted bit x 1 s) (hx : First (bit x) c) : s.1 = c := by
  obtain ⟨d, hd, -, hfirst⟩ := h
  rw [Nat.lt_one_iff.mp hd, Nat.add_zero] at hfirst
  exact hfirst.unique hx

theorem ctz_zero_eq {w : ℕ} {x : BitVec w} (h : x = 0) : x.ctz = BitVec.ofNat w w := by
  rw [BitVec.ctz_eq_reverse_clz]
  exact BitVec.clz_eq_iff_eq_zero.mpr (BitVec.reverse_eq_zero_iff.mpr h)

theorem ctzsi2_eq (x : BitVec 32) : ctzsi2 x = x.ctz.toNat := by
  rw [ctzsi2]
  split_ifs with hzero
  · rw [ctz_zero_eq hzero]
    rfl
  · have hx := first_ctz hzero
    have hstart : Counted BitVec.getLsbD x (16 + 16) (0, x) := ⟨x.ctz.toNat, BitVec.lt_of_getLsbD hx.one, hx, by rwa [Nat.zero_add]⟩
    have h16 := ctzTurn_counted 0x0000FFFF 16 (by decide) (by decide) hstart
    have h8 := ctzTurn_counted 0x000000FF 8 (by decide) (by decide) h16
    have h4 := ctzTurn_counted 0x0000000F 4 (by decide) (by decide) h8
    have h2 := ctzTurn_counted 0x00000003 2 (by decide) (by decide) h4
    have h1 := ctzTurn_counted 0x00000001 1 (by decide) (by decide) h2
    exact counted_done h1 hx

theorem clzsi2_eq (x : BitVec 32) : clzsi2 x = x.clz.toNat := by
  rw [clzsi2]
  split_ifs with hzero
  · have hall : x.clz = 32#32 := BitVec.clz_eq_iff_eq_zero.mpr hzero
    rw [hall]
    rfl
  · have hx := first_clz hzero
    have hstart : Counted BitVec.getMsbD x (16 + 16) (0, x) := ⟨x.clz.toNat, BitVec.lt_of_getMsbD hx.one, hx, by rwa [Nat.zero_add]⟩
    have h16 := clzTurn_counted 0xFFFF0000 16 (by decide) (by decide) hstart
    have h8 := clzTurn_counted 0xFF000000 8 (by decide) (by decide) h16
    have h4 := clzTurn_counted 0xF0000000 4 (by decide) (by decide) h8
    have h2 := clzTurn_counted 0xC0000000 2 (by decide) (by decide) h4
    have h1 := clzTurn_counted 0x80000000 1 (by decide) (by decide) h2
    exact counted_done h1 hx

theorem getLsbD_u (v : Dw) (i : ℕ) : v.u.getLsbD i = if i < 32 then v.lo.getLsbD i else v.hi.getLsbD (i - 32) := BitVec.getLsbD_append

theorem getMsbD_u (v : Dw) (i : ℕ) : v.u.getMsbD i = if 32 ≤ i then v.lo.getMsbD (i - 32) else v.hi.getMsbD i := BitVec.getMsbD_append

theorem ctzdi2_u (v : Dw) : (if v.lo ≠ 0 then ctzsi2 v.lo else 32 + ctzsi2 v.hi) = v.u.ctz.toNat := by
  have hnear : ∀ i < 32, v.u.getLsbD i = v.lo.getLsbD i := by
    intro i hi
    rw [getLsbD_u, if_pos hi]
  have hfar (i : ℕ) : v.u.getLsbD (32 + i) = v.hi.getLsbD i := by
    rw [getLsbD_u, if_neg (by omega), Nat.add_sub_cancel_left]
  rw [ctzsi2_eq, ctzsi2_eq]
  by_cases hlo : v.lo = 0
  · rw [if_neg (not_not.mpr hlo)]
    by_cases hhi : v.hi = 0
    · rw [ctz_zero_eq hhi, ctz_zero_eq (Dw.u_eq_zero.mpr ⟨hhi, hlo⟩)]
      rfl
    · have hu : v.u ≠ 0 := fun h => hhi (Dw.u_eq_zero.mp h).1
      have hzero : ∀ i < 32, v.u.getLsbD i = false := by
        intro i hi
        rw [hnear i hi, hlo]
        exact BitVec.getLsbD_zero
      exact (First.of_far hzero hfar (first_ctz hhi)).unique (first_ctz hu)
  · rw [if_pos hlo]
    have hu : v.u ≠ 0 := fun h => hlo (Dw.u_eq_zero.mp h).2
    have hfirst := first_ctz hlo
    exact (hfirst.of_near hnear (BitVec.lt_of_getLsbD hfirst.one)).unique (first_ctz hu)

theorem clzdi2_u (v : Dw) : (if v.hi ≠ 0 then clzsi2 v.hi else 32 + clzsi2 v.lo) = v.u.clz.toNat := by
  have hnear : ∀ i < 32, v.u.getMsbD i = v.hi.getMsbD i := by
    intro i hi
    rw [getMsbD_u, if_neg (by omega)]
  have hfar (i : ℕ) : v.u.getMsbD (32 + i) = v.lo.getMsbD i := by
    rw [getMsbD_u, if_pos (by omega), Nat.add_sub_cancel_left]
  rw [clzsi2_eq, clzsi2_eq]
  by_cases hhi : v.hi = 0
  · rw [if_neg (not_not.mpr hhi)]
    by_cases hlo : v.lo = 0
    · rw [BitVec.clz_eq_iff_eq_zero.mpr hlo, BitVec.clz_eq_iff_eq_zero.mpr (Dw.u_eq_zero.mpr ⟨hhi, hlo⟩)]
      rfl
    · have hu : v.u ≠ 0 := fun h => hlo (Dw.u_eq_zero.mp h).2
      have hzero : ∀ i < 32, v.u.getMsbD i = false := by
        intro i hi
        rw [hnear i hi, hhi]
        exact BitVec.getMsbD_zero
      exact (First.of_far hzero hfar (first_clz hlo)).unique (first_clz hu)
  · rw [if_pos hhi]
    have hu : v.u ≠ 0 := fun h => hhi (Dw.u_eq_zero.mp h).1
    have hfirst := first_clz hhi
    exact (hfirst.of_near hnear (BitVec.lt_of_getMsbD hfirst.one)).unique (first_clz hu)

theorem ctzdi2_eq (x : BitVec 64) : ctzdi2 x = x.ctz.toNat := by
  rw [← Dw.u_of x, ctzdi2, Dw.of_u]
  exact ctzdi2_u (Dw.of x)

theorem clzdi2_eq (x : BitVec 64) : clzdi2 x = x.clz.toNat := by
  rw [← Dw.u_of x, clzdi2, Dw.of_u]
  exact clzdi2_u (Dw.of x)

theorem ffsdi2_u (v : Dw) :
    (if v.lo ≠ 0 then 1 + ctzsi2 v.lo else if v.hi ≠ 0 then 33 + ctzsi2 v.hi else 0) = if v.u = 0 then 0 else v.u.ctz.toNat + 1 := by
  rw [← ctzdi2_u]
  by_cases hlo : v.lo = 0
  · by_cases hhi : v.hi = 0
    · rw [if_pos (Dw.u_eq_zero.mpr ⟨hhi, hlo⟩), if_neg (not_not.mpr hlo), if_neg (not_not.mpr hhi)]
    · rw [if_neg (fun h => hhi (Dw.u_eq_zero.mp h).1), if_neg (not_not.mpr hlo), if_pos hhi, if_neg (not_not.mpr hlo)]
      omega
  · rw [if_neg (fun h => hlo (Dw.u_eq_zero.mp h).2), if_pos hlo, if_pos hlo]
    omega

theorem ffsdi2_eq (x : BitVec 64) : ffsdi2 x = if x = 0 then 0 else x.ctz.toNat + 1 := by
  rw [← Dw.u_of x, ffsdi2, Dw.of_u]
  exact ffsdi2_u (Dw.of x)

end Counts

/-- What the helpers count. -/
theorem bit_counts (x : BitVec 32) (y : BitVec 64) :
    popcsi x = x.cpop ∧ (popcdi y).toNat = y.cpop.toNat ∧
      (partsi x).toNat = x.cpop.toNat % 2 ∧ (partdi y).toNat = y.cpop.toNat % 2 ∧
      clzsi2 x = x.clz.toNat ∧ clzdi2 y = y.clz.toNat ∧ ctzsi2 x = x.ctz.toNat ∧ ctzdi2 y = y.ctz.toNat ∧
      ffsdi2 y = if y = 0 then 0 else y.ctz.toNat + 1 :=
  ⟨popcsi_eq x, popcdi_eq y, partsi_eq x, partdi_eq y, clzsi2_eq x, clzdi2_eq y, ctzsi2_eq x, ctzdi2_eq y, ffsdi2_eq y⟩

end Cc370.Runtime
