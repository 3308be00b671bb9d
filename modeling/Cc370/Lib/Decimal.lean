import Mathlib

namespace Cc370.Decimal

/-- A number in decimal, without leading zeros. -/
def decimal (n : ℕ) : List UInt8 := (Nat.toDigits 10 n).map fun c => .ofNat c.toNat

def isDigit (b : UInt8) : Bool := 0x30 ≤ b ∧ b ≤ 0x39

def isSpace (b : UInt8) : Bool := b = 0x20 ∨ 0x09 ≤ b ∧ b ≤ 0x0D

def digitsValue (l : List UInt8) : ℕ := l.foldl (fun v b => 10 * v + (b.toNat - 0x30)) 0

/-- `atol` of the C library. -/
def atol (l : List UInt8) : ℤ :=
  match l.dropWhile isSpace with
  | [] => 0
  | b :: t =>
    if b = 0x2D then -(digitsValue (t.takeWhile isDigit) : ℤ)
    else if b = 0x2B then digitsValue (t.takeWhile isDigit)
    else digitsValue ((b :: t).takeWhile isDigit)

theorem digitChar_byte {d : ℕ} (h : d < 10) : UInt8.ofNat d.digitChar.toNat = .ofNat (0x30 + d) := by
  interval_cases d <;> decide

theorem decimal_digit {n : ℕ} {b : UInt8} (h : b ∈ decimal n) : isDigit b = true := by
  induction n using Nat.strongRecOn with
  | ind n ih =>
    rw [decimal, Nat.toDigits_eq_if (by decide)] at h
    split_ifs at h with hn
    · rw [List.map_singleton, List.mem_singleton, digitChar_byte hn] at h
      subst h
      interval_cases n <;> decide
    · rw [List.map_append, List.mem_append] at h
      rcases h with h | h
      · exact ih (n / 10) (by omega) h
      · have hmod : n % 10 < 10 := Nat.mod_lt _ (by decide)
        rw [List.map_singleton, List.mem_singleton, digitChar_byte hmod] at h
        subst h
        interval_cases n % 10 <;> decide

theorem digitsValue_decimal (n : ℕ) : digitsValue (decimal n) = n := by
  induction n using Nat.strongRecOn with
  | ind n ih =>
    rw [decimal, Nat.toDigits_eq_if (by decide)]
    split_ifs with hn
    · rw [List.map_singleton, digitChar_byte hn]
      interval_cases n <;> decide
    · have hmod : n % 10 < 10 := Nat.mod_lt _ (by decide)
      have hlast : (UInt8.ofNat (0x30 + n % 10)).toNat - 0x30 = n % 10 := by
        interval_cases n % 10 <;> decide
      have hrest := ih (n / 10) (by omega)
      rw [digitsValue, decimal] at hrest
      rw [digitsValue, List.map_append, List.foldl_append, hrest, List.map_singleton, digitChar_byte hmod]
      rw [List.foldl_cons, List.foldl_nil, hlast]
      omega

theorem decimal_ne_nil (n : ℕ) : decimal n ≠ [] := by
  rw [decimal, Ne, List.map_eq_nil_iff]
  exact Nat.toDigits_ne_nil

theorem decimal_length_le {n k : ℕ} (hk : 0 < k) : (decimal n).length ≤ k ↔ n < 10 ^ k := by
  rw [decimal, List.length_map]
  exact Nat.length_toDigits_le_iff (by decide) hk

theorem digit_cases {b : UInt8} (h : isDigit b = true) : isSpace b = false ∧ b ≠ 0x2D ∧ b ≠ 0x2B := by
  have hrange : 0x30 ≤ b.toNat ∧ b.toNat ≤ 0x39 := by simpa [isDigit, UInt8.le_iff_toNat_le] using h
  refine ⟨?_, ?_, ?_⟩
  · rw [isSpace, decide_eq_false_iff_not]
    rintro (rfl | ⟨-, hle⟩)
    · exact absurd hrange.1 (by decide)
    · rw [UInt8.le_iff_toNat_le] at hle
      have hd : (0x0D : UInt8).toNat = 13 := rfl
      omega
  · rintro rfl
    exact absurd hrange.1 (by decide)
  · rintro rfl
    exact absurd hrange.1 (by decide)

/-- A number is read back up to the first character that is no digit. -/
theorem atol_decimal (n : ℕ) {t : List UInt8} (ht : ∀ b ∈ t.head?, isDigit b = false) : atol (decimal n ++ t) = n := by
  obtain ⟨b, l, hbl⟩ := List.exists_cons_of_ne_nil (decimal_ne_nil n)
  obtain ⟨hspace, hminus, hplus⟩ := digit_cases (decimal_digit (n := n) (b := b) (by rw [hbl]; simp))
  have htake : (decimal n ++ t).takeWhile isDigit = decimal n := by
    rw [List.takeWhile_append_of_pos fun x hx => decimal_digit hx]
    cases t with
    | nil => simp
    | cons c t => simp [ht c rfl]
  have hdrop : (decimal n ++ t).dropWhile isSpace = b :: (l ++ t) := by
    rw [hbl, List.cons_append]
    simp [hspace]
  rw [atol, hdrop]
  simp only [if_neg hminus, if_neg hplus]
  rw [← List.cons_append, ← hbl, htake, digitsValue_decimal]

end Cc370.Decimal
