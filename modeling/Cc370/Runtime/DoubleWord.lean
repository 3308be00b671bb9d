import Cc370.Lib.Halves

/-! The helpers that compiled code calls for `long long` work on the two words of the number. -/

namespace Cc370.Runtime

open Cc370.Lib Halves

/-- The divide exception is the abend S0C9. -/
inductive Stop where
  | divide
  | abort
deriving DecidableEq

abbrev Dw := Halves 32

namespace Dw

def of (v : BitVec 64) : Dw := split (w := 32) v

def u (x : Dw) : BitVec 64 := x.join

@[simp] theorem u_of (v : BitVec 64) : (of v).u = v := join_split (w := 32) v

@[simp] theorem of_u (x : Dw) : of x.u = x := split_join (w := 32) x

theorem toNat_u (x : Dw) : x.u.toNat = x.hi.toNat * 2 ^ 32 + x.lo.toNat := toNat_join (w := 32) x

theorem toNat_low {x : Dw} (h : x.hi = 0) : x.u.toNat = x.lo.toNat := by
  simp [toNat_u, h]

theorem u_eq_zero {x : Dw} : x.u = 0 ↔ x.hi = 0 ∧ x.lo = 0 := join_eq_zero (w := 32)

theorem msb_u {x : Dw} : x.u.msb = x.hi.msb := msb_join (w := 32) (by decide)

end Dw

def negate (v : Dw) : Dw :=
  let lo := ~~~v.lo + 1
  ⟨~~~v.hi + carry (lo = 0), lo⟩

theorem negate_u (x : Dw) : (negate x).u = -x.u := join_neg (w := 32) (by decide) x

theorem sign_bit (x : BitVec 32) : x &&& 0x80000000 ≠ 0 ↔ x.msb = true := by
  have hbit := BitVec.and_twoPow x 31
  rw [show BitVec.twoPow 32 31 = 0x80000000#32 from rfl] at hbit
  rw [show (0x80000000 : BitVec 32) = 0x80000000#32 from rfl, hbit, BitVec.msb_eq_getLsbD_last]
  split
  · rename_i h
    simpa using h
  · rename_i h
    simpa using h

end Cc370.Runtime
