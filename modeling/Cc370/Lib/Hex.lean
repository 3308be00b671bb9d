import Mathlib.Data.List.Basic
import Mathlib.Tactic.IntervalCases
import Mathlib.Tactic.Ring

namespace Cc370.Hex

def hexChar (d : ℕ) : UInt8 := if d < 10 then .ofNat (0x30 + d) else .ofNat (0x37 + d)

/-- The value of a hexadecimal digit, of either case. -/
def hexDigit (c : UInt8) : Option ℕ :=
  if 0x30 ≤ c ∧ c ≤ 0x39 then some (c.toNat - 0x30)
  else if 0x61 ≤ c ∧ c ≤ 0x66 then some (c.toNat - 0x61 + 10)
  else if 0x41 ≤ c ∧ c ≤ 0x46 then some (c.toNat - 0x41 + 10)
  else none

/-- The last `w` hexadecimal digits of a number. -/
def hexOf : ℕ → ℕ → List UInt8
  | 0, _ => []
  | w + 1, v => hexChar (v / 16 ^ w % 16) :: hexOf w v

def hexWidth (v : ℕ) : ℕ := ((List.range 16).find? fun k => v < 16 ^ k).getD 16

/-- What `%0wlX` prints. -/
def hexPad (w v : ℕ) : List UInt8 := hexOf (max w (hexWidth v)) v

/-- Digits read one after the other behind what has been read so far. -/
def hexValue : ℕ → List UInt8 → Option ℕ
  | v, [] => some v
  | v, c :: cs => (hexDigit c).bind fun d => hexValue (v * 16 + d) cs

theorem hexDigit_hexChar {d : ℕ} (h : d < 16) : hexDigit (hexChar d) = some d := by
  interval_cases d <;> decide

theorem hexValue_append (v : ℕ) (cs ds : List UInt8) : hexValue v (cs ++ ds) = (hexValue v cs).bind fun u => hexValue u ds := by
  induction cs generalizing v with
  | nil => rfl
  | cons c cs ih =>
    rw [List.cons_append, hexValue, hexValue]
    cases hexDigit c with
    | none => rfl
    | some d => exact ih _

theorem hexOf_length (w v : ℕ) : (hexOf w v).length = w := by
  induction w with
  | zero => rfl
  | succ w ih => rw [hexOf, List.length_cons, ih]

theorem hexValue_hexOf (w v u : ℕ) : hexValue u (hexOf w v) = some (u * 16 ^ w + v % 16 ^ w) := by
  induction w generalizing u with
  | zero => simp [hexOf, hexValue, Nat.mod_one]
  | succ w ih =>
    rw [hexOf, hexValue, hexDigit_hexChar (Nat.mod_lt _ (by decide)), Option.bind_some, ih, pow_succ, Nat.mod_mul]
    congr 1
    ring

theorem hexWidth_le {w v : ℕ} (hw : w < 16) (h : v < 16 ^ w) : hexWidth v ≤ w := by
  unfold hexWidth
  cases hf : (List.range 16).find? fun k => v < 16 ^ k with
  | none => exact absurd (List.find?_eq_none.mp hf w (List.mem_range.mpr hw)) (by simpa using h)
  | some k =>
    obtain ⟨-, i, hi, hik, hbefore⟩ := List.find?_eq_some_iff_getElem.mp hf
    rw [List.getElem_range] at hik
    by_contra hlt
    have hwi : w < i := by
      rw [hik]
      exact not_le.mp hlt
    have hb := hbefore w hwi
    rw [List.getElem_range] at hb
    exact absurd hb (by simpa using h)

theorem hexPad_eq {w v : ℕ} (hw : w < 16) (h : v < 16 ^ w) : hexPad w v = hexOf w v := by
  rw [hexPad, max_eq_left (hexWidth_le hw h)]

theorem mem_hexOf {w v : ℕ} {c : UInt8} (h : c ∈ hexOf w v) : ∃ d < 16, c = hexChar d := by
  induction w with
  | zero => exact absurd h List.not_mem_nil
  | succ w ih =>
    rcases List.mem_cons.mp h with rfl | h
    · exact ⟨_, Nat.mod_lt _ (by decide), rfl⟩
    · exact ih h

theorem hexDigit_lt {c : UInt8} {d : ℕ} (h : hexDigit c = some d) : d < 16 := by
  unfold hexDigit at h
  split_ifs at h with h1 h2 h3
  · obtain rfl := Option.some.inj h
    have := UInt8.le_iff_toNat_le.mp h1.2
    simp only [UInt8.toNat_ofNat, Nat.reducePow, Nat.reduceMod] at this
    omega
  · obtain rfl := Option.some.inj h
    have := UInt8.le_iff_toNat_le.mp h2.2
    simp only [UInt8.toNat_ofNat, Nat.reducePow, Nat.reduceMod] at this
    omega
  · obtain rfl := Option.some.inj h
    have := UInt8.le_iff_toNat_le.mp h3.2
    simp only [UInt8.toNat_ofNat, Nat.reducePow, Nat.reduceMod] at this
    omega

theorem hexValue_lt {v u : ℕ} {cs : List UInt8} (h : hexValue v cs = some u) : u < (v + 1) * 16 ^ cs.length := by
  induction cs generalizing v with
  | nil =>
    obtain rfl := Option.some.inj h
    simp
  | cons c cs ih =>
    obtain ⟨d, hd, hrest⟩ := Option.bind_eq_some_iff.mp h
    have hlt := ih hrest
    have hd' := hexDigit_lt hd
    calc u < (v * 16 + d + 1) * 16 ^ cs.length := hlt
      _ ≤ ((v + 1) * 16) * 16 ^ cs.length := Nat.mul_le_mul_right _ (by omega)
      _ = (v + 1) * 16 ^ (c :: cs).length := by rw [List.length_cons, pow_succ]; ring

end Cc370.Hex
