import Cc370.Obj370
import Cc370.Directory

namespace Cc370.Obj370

open Slices

/-- An item before it is written: its pointers, its flag without the bit that repeats them, and the address. -/
structure RldCode where
  r : ℕ
  p : ℕ
  flag : UInt8
  addr : ℤ

theorem or_one_toNat {b : UInt8} (h : b.toNat % 2 = 0) : (b ||| 0x01).toNat = b.toNat + 1 := by
  have hor : 2 ^ 1 * (b.toNat / 2) + 1 = 2 ^ 1 * (b.toNat / 2) ||| 1 :=
    Nat.two_pow_add_eq_or_of_lt (by norm_num) _
  have hsplit : 2 ^ 1 * (b.toNat / 2) = b.toNat := by omega
  rw [hsplit] at hor
  rw [UInt8.toNat_or]
  exact hor.symm

namespace RldCode

def key (c : RldCode) : ℕ × ℕ := (c.r, c.p)

/-- The flag of an item, with the bit that says that the next one leaves out R and P. -/
def flagBefore (c : RldCode) (cs : List RldCode) : UInt8 :=
  if cs.head?.map key = some c.key then c.flag ||| 0x01 else c.flag

def tail (c : RldCode) : List UInt8 := c.flag :: mvsPut24 c.addr

def leader (c : RldCode) : List UInt8 := mvsPut16 c.r ++ mvsPut16 c.p ++ c.tail

/-- The items behind one with the pointers `prev`. -/
def encode (prev : Option (ℕ × ℕ)) : List RldCode → List UInt8
  | [] => []
  | c :: cs =>
    (if prev = some c.key then [] else mvsPut16 c.r ++ mvsPut16 c.p) ++ c.flagBefore cs :: mvsPut24 c.addr ++ encode (some c.key) cs

/-- What a reader finds of the items. -/
def decoded : List RldCode → List Rld
  | [] => []
  | c :: cs => ⟨c.r % 65536, c.p % 65536, c.flagBefore cs, (c.addr % 16777216).toNat⟩ :: decoded cs

section Encode

variable {prev : Option (ℕ × ℕ)} {y c : RldCode}

theorem modify_append_right (a b : List UInt8) (i : ℕ) (f : UInt8 → UInt8) :
    (a ++ b).modify (a.length + i) f = a ++ b.modify i f :=
  List.modifyTailIdx_add ..

/-- The part of the data that belongs to the first item. -/
def first (prev : Option (ℕ × ℕ)) (c : RldCode) (cs : List RldCode) : List UInt8 :=
  (if prev = some c.key then [] else mvsPut16 c.r ++ mvsPut16 c.p) ++ c.flagBefore cs :: mvsPut24 c.addr

theorem encode_cons (c : RldCode) (cs : List RldCode) :
    encode prev (c :: cs) = first prev c cs ++ encode (some c.key) cs := by
  simp [encode, first]

theorem encode_length_pos (c : RldCode) (cs : List RldCode) : 4 ≤ (encode prev (c :: cs)).length := by
  rw [encode]
  simp
  omega

theorem encode_append_cons (x z : RldCode) (ys zs : List RldCode) :
    encode prev (x :: z :: ys ++ zs) = first prev x (z :: ys) ++ encode (some x.key) (z :: ys ++ zs) := by
  rw [List.cons_append, encode_cons]
  rfl

/-- Another item with the same pointers sets the bit of the one before it. -/
theorem encode_same {ys : List RldCode} (hlast : ys.getLast? = some y) (hkey : y.key = c.key) :
    encode prev (ys ++ [c]) = (encode prev ys).modify ((encode prev ys).length - 4) (· ||| 0x01) ++ c.tail := by
  induction ys generalizing prev with
  | nil => simp at hlast
  | cons x ys ih =>
    cases ys with
    | nil =>
      obtain rfl : x = y := by simpa using hlast
      set lead : List UInt8 := if prev = some x.key then [] else mvsPut16 x.r ++ mvsPut16 x.p with hlead
      have hone : encode prev [x] = lead ++ x.flag :: mvsPut24 x.addr := by
        simp [encode, flagBefore, hlead]
      have htwo : encode prev ([x] ++ [c]) = lead ++ (x.flag ||| 0x01) :: mvsPut24 x.addr ++ c.tail := by
        simp [encode, flagBefore, hlead, hkey, tail]
      have hpos : (encode prev [x]).length - 4 = lead.length + 0 := by
        rw [hone]
        simp
      rw [htwo, hpos, hone, modify_append_right, List.modify_zero_cons]
    | cons z ys =>
      have hz : (z :: ys).getLast? = some y := by simpa using hlast
      have h4 : 4 ≤ (encode (some x.key) (z :: ys)).length := encode_length_pos z ys
      have hpos : (encode prev (x :: z :: ys)).length - 4 =
          (first prev x (z :: ys)).length + ((encode (some x.key) (z :: ys)).length - 4) := by
        rw [encode_cons, List.length_append]
        omega
      rw [encode_append_cons, ih hz, hpos, encode_cons x, modify_append_right, List.append_assoc]

theorem encode_other {ys : List RldCode} (hlast : (ys.getLast?.map key).or prev ≠ some c.key) :
    encode prev (ys ++ [c]) = encode prev ys ++ c.leader := by
  induction ys generalizing prev with
  | nil =>
    have hp : prev ≠ some c.key := by simpa using hlast
    simp [encode, flagBefore, hp, leader, tail]
  | cons x ys ih =>
    cases ys with
    | nil =>
      have hp : c.key ≠ x.key := by
        intro h
        simp [h] at hlast
      simp [encode, flagBefore, hp, hp.symm, leader, tail]
    | cons z ys =>
      have hz : ((z :: ys).getLast?.map key).or (some x.key) ≠ some c.key := by
        simpa [List.getLast?_eq_some_getLast] using hlast
      rw [encode_append_cons, ih hz, encode_cons x, List.append_assoc]

theorem encode_length_ge (prev : Option (ℕ × ℕ)) (cs : List RldCode) : 4 * cs.length ≤ (encode prev cs).length := by
  induction cs generalizing prev with
  | nil => simp
  | cons c cs ih =>
    have := ih (some c.key)
    rw [encode_cons, List.length_append, first]
    simp
    omega

end Encode

section Decode

variable {b : Buffer}

theorem flagBefore_odd {c : RldCode} (h : c.flag.toNat % 2 = 0) (cs : List RldCode) :
    (c.flagBefore cs).toNat % 2 = 1 ↔ cs.head?.map key = some c.key := by
  unfold flagBefore
  split_ifs with hk
  · rw [or_one_toNat h]
    exact iff_of_true (by omega) hk
  · exact iff_of_false (by omega) hk

theorem mvsBe16_at_emod {q n : ℕ} (h : At b q (mvsPut16 n)) : mvsBe16 b q = n % 65536 := by
  have := mvsBe16_at h
  omega

theorem mvsBe24_at_emod {q : ℕ} {v : ℤ} (h : At b q (mvsPut24 v)) : mvsBe24 b q = (v % 16777216).toNat := by
  have := mvsBe24_at h
  omega

/-- The reader on the encoded items, wherever they stand. -/
theorem rldItems_encode (cs : List RldCode) (heven : ∀ c ∈ cs, c.flag.toNat % 2 = 0) (prev : Option (ℕ × ℕ)) (q fuel r pp : ℕ) (same : Bool)
    (hfuel : cs.length < fuel) (hsame : cs ≠ [] → (same = true ↔ prev = cs.head?.map key))
    (hprev : ∀ k, same = true → prev = some k → r = k.1 % 65536 ∧ pp = k.2 % 65536) (hat : At b q (encode prev cs)) :
    rldItems b (q + (encode prev cs).length) fuel q r pp same = decoded cs := by
  induction cs generalizing prev q fuel r pp same with
  | nil =>
    obtain ⟨fuel, rfl⟩ := Nat.exists_eq_succ_of_ne_zero (Nat.ne_of_gt hfuel)
    rw [rldItems, if_neg (by simp [encode])]
    rfl
  | cons c cs ih =>
    obtain ⟨fuel, rfl⟩ := Nat.exists_eq_succ_of_ne_zero (Nat.ne_of_gt (Nat.zero_lt_of_lt hfuel))
    have hc : same = true ↔ prev = some c.key := by simpa using hsame (by simp)
    set lead : List UInt8 := if prev = some c.key then [] else mvsPut16 c.r ++ mvsPut16 c.p with hlead
    have hdata : encode prev (c :: cs) = lead ++ ([c.flagBefore cs] ++ (mvsPut24 c.addr ++ encode (some c.key) cs)) := by
      simp [encode, hlead]
    rw [hdata] at hat ⊢
    have hq : (if same then q else q + 4) = q + lead.length := by
      by_cases hs : same = true
      · rw [if_pos hs, hlead, if_pos (hc.mp hs)]
        rfl
      · rw [if_neg hs, hlead, if_neg fun h => hs (hc.mpr h)]
        rfl
    have hkeys : (if same then r else mvsBe16 b q) = c.r % 65536 ∧ (if same then pp else mvsBe16 b (q + 2)) = c.p % 65536 := by
      by_cases hs : same = true
      · rw [if_pos hs, if_pos hs]
        exact hprev c.key hs (hc.mp hs)
      · have hl : lead = mvsPut16 c.r ++ mvsPut16 c.p := if_neg fun h => hs (hc.mpr h)
        have hfields := hat.left
        rw [hl] at hfields
        rw [if_neg hs, if_neg hs]
        exact ⟨mvsBe16_at_emod hfields.left, mvsBe16_at_emod hfields.right⟩
    have hflag : b (q + lead.length) = c.flagBefore cs := hat.right.left 0 Nat.one_pos
    have haddr : mvsBe24 b (q + lead.length + 1) = (c.addr % 16777216).toNat := mvsBe24_at_emod hat.right.right.left
    have hrest := hat.right.right.right
    have hlen : q + (lead ++ ([c.flagBefore cs] ++ (mvsPut24 c.addr ++ encode (some c.key) cs))).length =
        q + lead.length + 4 + (encode (some c.key) cs).length := by
      simp only [List.length_append, List.length_singleton, mvsPut24_length]
      omega
    have hodd : decide ((c.flagBefore cs).toNat % 2 = 1) = true ↔ some c.key = cs.head?.map key := by
      rw [decide_eq_true_eq, flagBefore_odd (heven c List.mem_cons_self), eq_comm]
    have hih := ih (fun x hx => heven x (List.mem_cons_of_mem _ hx)) (some c.key) (q + lead.length + 4) fuel (c.r % 65536) (c.p % 65536)
      (decide ((c.flagBefore cs).toNat % 2 = 1)) (by simpa using hfuel) (fun _ => hodd)
      (fun k _ hk => by rw [← Option.some.inj hk]; exact ⟨rfl, rfl⟩) hrest
    rw [hlen, rldItems, if_pos (by omega)]
    simp only [hq, hkeys.1, hkeys.2, hflag, haddr]
    rw [if_neg (by omega), hih]
    rfl

end Decode

end RldCode

end Cc370.Obj370
