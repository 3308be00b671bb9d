import Cc370.Runtime.DoubleWord

namespace Cc370.Runtime

open Cc370.Lib Halves

def mul32 (a b : BitVec 32) : Dw :=
  let a0 := a &&& 0xFFFF#32
  let a1 := a >>> 16
  let b0 := b &&& 0xFFFF#32
  let b1 := b >>> 16
  let p00 := a0 * b0
  let p01 := a0 * b1
  let p10 := a1 * b0
  let p11 := a1 * b1
  let mid := (p00 >>> 16) + (p01 &&& 0xFFFF#32) + (p10 &&& 0xFFFF#32)
  ⟨p11 + (p01 >>> 16) + (p10 >>> 16) + (mid >>> 16), p00 &&& 0xFFFF#32 ||| mid <<< 16⟩

def muldi3 (a b : BitVec 64) : BitVec 64 :=
  let x := Dw.of a
  let y := Dw.of b
  let r := mul32 x.lo y.lo
  Dw.u ⟨r.hi + (x.lo * y.hi + x.hi * y.lo), r.lo⟩

theorem toNat_low_half (x : BitVec 32) : (x &&& 0xFFFF#32).toNat = x.toNat % 2 ^ 16 := by
  rw [BitVec.toNat_and]
  exact Nat.and_two_pow_sub_one_eq_mod x.toNat 16

theorem toNat_high_half (x : BitVec 32) : (x >>> 16).toNat = x.toNat / 2 ^ 16 := by
  rw [BitVec.toNat_ushiftRight, Nat.shiftRight_eq_div_pow]

theorem toNat_halves (p m : BitVec 32) : (p &&& 0xFFFF#32 ||| m <<< 16).toNat = m.toNat % 2 ^ 16 * 2 ^ 16 + p.toNat % 2 ^ 16 := by
  have hlow : p.toNat % 2 ^ 16 < 2 ^ 16 := Nat.mod_lt _ (by decide)
  have hhigh : m.toNat <<< 16 % 2 ^ 32 = (m.toNat % 2 ^ 16) <<< 16 := by
    rw [Nat.shiftLeft_eq, Nat.shiftLeft_eq]
    omega
  rw [BitVec.toNat_or, BitVec.toNat_shiftLeft, toNat_low_half, hhigh, Nat.or_comm, ← Nat.shiftLeft_add_eq_or_of_lt hlow, Nat.shiftLeft_eq]

/-- Products of half words do not wrap. -/
theorem toNat_mul_halves {x y : BitVec 32} (hx : x.toNat < 2 ^ 16) (hy : y.toNat < 2 ^ 16) :
    (x * y).toNat = x.toNat * y.toNat := by
  have hlt : x.toNat * y.toNat < 2 ^ 16 * 2 ^ 16 := Nat.mul_lt_mul'' hx hy
  rw [BitVec.toNat_mul]
  exact Nat.mod_eq_of_lt hlt

/-- The four products, put together, do not wrap either. -/
theorem assemble {p q r s : BitVec 32} {a1 a0 b1 b0 : ℕ} (hp : p.toNat = a0 * b0) (hq : q.toNat = a0 * b1) (hr : r.toNat = a1 * b0)
    (hs : s.toNat = a1 * b1) (hlt : (a1 * 2 ^ 16 + a0) * (b1 * 2 ^ 16 + b0) < 2 ^ 32 * 2 ^ 32) {m : BitVec 32}
    (hm : m = (p >>> 16) + (q &&& 0xFFFF#32) + (r &&& 0xFFFF#32)) :
    (Dw.u ⟨s + (q >>> 16) + (r >>> 16) + (m >>> 16), p &&& 0xFFFF#32 ||| m <<< 16⟩).toNat = (a1 * 2 ^ 16 + a0) * (b1 * 2 ^ 16 + b0) := by
  have hp' := p.isLt
  have hmid : m.toNat = p.toNat / 2 ^ 16 + q.toNat % 2 ^ 16 + r.toNat % 2 ^ 16 := by
    rw [hm, BitVec.toNat_add, BitVec.toNat_add, toNat_high_half, toNat_low_half, toNat_low_half]
    omega
  have hwhole := partial_products hp hq hr hs hmid
  rw [← hwhole] at hlt ⊢
  rw [Dw.toNat_u]
  dsimp only
  rw [toNat_halves, BitVec.toNat_add, BitVec.toNat_add, BitVec.toNat_add, toNat_high_half, toNat_high_half, toNat_high_half]
  clear hwhole hp hq hr hs hm hmid
  omega

theorem mul32_spec (a b : BitVec 32) : (mul32 a b).u.toNat = a.toNat * b.toNat := by
  have ha := a.isLt
  have hb := b.isLt
  have ha0 := toNat_low_half a
  have ha1 := toNat_high_half a
  have hb0 := toNat_low_half b
  have hb1 := toNat_high_half b
  have hsa : a.toNat = (a >>> 16).toNat * 2 ^ 16 + (a &&& 0xFFFF#32).toNat := by omega
  have hsb : b.toNat = (b >>> 16).toNat * 2 ^ 16 + (b &&& 0xFFFF#32).toNat := by omega
  have hlt : a.toNat * b.toNat < 2 ^ 32 * 2 ^ 32 := Nat.mul_lt_mul'' ha hb
  rw [hsa, hsb] at hlt ⊢
  apply assemble _ _ _ _ hlt rfl
  · exact toNat_mul_halves (by omega) (by omega)
  · exact toNat_mul_halves (by omega) (by omega)
  · exact toNat_mul_halves (by omega) (by omega)
  · exact toNat_mul_halves (by omega) (by omega)

theorem muldi3_eq (a b : BitVec 64) : muldi3 a b = a * b := by
  have hmul := mul32_spec (Dw.of a).lo (Dw.of b).lo
  have ha := Dw.toNat_u (Dw.of a)
  have hb := Dw.toNat_u (Dw.of b)
  rw [Dw.u_of] at ha hb
  rw [Dw.toNat_u] at hmul
  apply BitVec.eq_of_toNat_eq
  rw [muldi3, Dw.toNat_u, BitVec.toNat_mul, ha, hb]
  dsimp only
  generalize Dw.of a = x at *
  generalize Dw.of b = y at *
  have hlo := (mul32 x.lo y.lo).lo.isLt
  generalize (mul32 x.lo y.lo).lo.toNat = l at *
  generalize (mul32 x.lo y.lo).hi = h at *
  have hwhole : (x.hi.toNat * 2 ^ 32 + x.lo.toNat) * (y.hi.toNat * 2 ^ 32 + y.lo.toNat) =
      x.hi.toNat * y.hi.toNat * 2 ^ 64 + ((h.toNat + (x.lo.toNat * y.hi.toNat + x.hi.toNat * y.lo.toNat)) * 2 ^ 32 + l) := by
    calc (x.hi.toNat * 2 ^ 32 + x.lo.toNat) * (y.hi.toNat * 2 ^ 32 + y.lo.toNat)
        = x.hi.toNat * y.hi.toNat * 2 ^ 64 + (x.lo.toNat * y.hi.toNat + x.hi.toNat * y.lo.toNat) * 2 ^ 32 + x.lo.toNat * y.lo.toNat := by ring
      _ = _ := by
        rw [← hmul]
        ring
  have hhigh : (h + (x.lo * y.hi + x.hi * y.lo)).toNat =
      (h.toNat + (x.lo.toNat * y.hi.toNat + x.hi.toNat * y.lo.toNat)) % 2 ^ 32 := by
    simp only [BitVec.toNat_add, BitVec.toNat_mul, Nat.add_mod_mod, Nat.mod_add_mod]
  rw [hwhole, hhigh, Nat.add_comm (_ * 2 ^ 64), Nat.add_mul_mod_self_right, show 2 ^ 64 = 2 ^ 32 * 2 ^ 32 from rfl, split_mod hlo]

end Cc370.Runtime
