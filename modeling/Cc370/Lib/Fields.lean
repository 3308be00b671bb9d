import Mathlib.Data.Nat.Digits.Lemmas
import Mathlib.Tactic.Ring

/-! Sums in the fields of one number, two neighbours at a time. -/

namespace Cc370.Lib.Fields

/-- The number with these fields of `w` bits, the lowest first. -/
def packed (w : ℕ) (ds : List ℕ) : ℕ := Nat.ofDigits (2 ^ w) ds

def evens : List ℕ → List ℕ
  | a :: _ :: ds => a :: evens ds
  | ds => ds

def pairs : List ℕ → List ℕ
  | a :: b :: ds => (a + b) :: pairs ds
  | ds => ds

variable {w : ℕ} {ds : List ℕ}

theorem packed_cons (w a : ℕ) (ds : List ℕ) : packed w (a :: ds) = a + 2 ^ w * packed w ds := by
  rw [packed, Nat.ofDigits_cons]
  rfl

theorem packed_two (w a b : ℕ) (ds : List ℕ) :
    packed w (a :: b :: ds) = a + 2 ^ w * b + 2 ^ (2 * w) * packed w ds := by
  rw [packed_cons, packed_cons, two_mul, pow_add]
  ring

theorem packed_tail (h : ∀ d ∈ ds, d < 2 ^ w) : packed w ds >>> w = packed w ds.tail := by
  cases ds with
  | nil => simp [packed]
  | cons a ds =>
    have ha := h a List.mem_cons_self
    rw [packed_cons, Nat.shiftRight_eq_div_pow, Nat.add_mul_div_left _ _ (Nat.two_pow_pos w), Nat.div_eq_of_lt ha, zero_add]
    rfl

theorem land_split {t a c : ℕ} (b d : ℕ) (ha : a < 2 ^ t) (hc : c < 2 ^ t) :
    (a + 2 ^ t * b) &&& (c + 2 ^ t * d) = (a &&& c) + 2 ^ t * (b &&& d) := by
  have hdiv : ∀ {x : ℕ} (y : ℕ), x < 2 ^ t → (x + 2 ^ t * y) / 2 ^ t = y := by
    intro x y hx
    rw [Nat.add_mul_div_left _ _ (Nat.two_pow_pos t), Nat.div_eq_of_lt hx, zero_add]
  have hmod : ∀ {x : ℕ} (y : ℕ), x < 2 ^ t → (x + 2 ^ t * y) % 2 ^ t = x := by
    intro x y hx
    rw [Nat.add_mul_mod_self_left, Nat.mod_eq_of_lt hx]
  rw [← Nat.mod_add_div ((a + 2 ^ t * b) &&& (c + 2 ^ t * d)) (2 ^ t), Nat.and_mod_two_pow, Nat.and_div_two_pow,
    hdiv b ha, hdiv d hc, hmod b ha, hmod d hc]

/-- Masking every other field keeps the even ones. -/
theorem land_evens (h : ∀ d ∈ ds, d < 2 ^ w) (n : ℕ) (hn : ds.length ≤ 2 * n) :
    packed w ds &&& packed (2 * w) (List.replicate n (2 ^ w - 1)) = packed (2 * w) (evens ds) := by
  have hpos := Nat.two_pow_pos w
  have hfield (a : ℕ) (ha : a < 2 ^ w) : a &&& (2 ^ w - 1) = a := by
    rw [Nat.and_two_pow_sub_one_eq_mod, Nat.mod_eq_of_lt ha]
  induction n generalizing ds with
  | zero =>
    obtain rfl := List.length_eq_zero_iff.mp (Nat.le_zero.mp hn)
    simp [packed, evens]
  | succ n ih =>
    have hsmall : 2 ^ w ≤ 2 ^ (2 * w) := Nat.pow_le_pow_right Nat.two_pos (by omega)
    rw [List.replicate_succ, packed_cons]
    match ds, h, hn with
    | [], _, _ => simp [packed, evens]
    | [a], h, _ =>
      have ha := h a List.mem_cons_self
      have hone := land_split 0 (packed (2 * w) (List.replicate n (2 ^ w - 1))) (ha.trans_le hsmall)
        (show 2 ^ w - 1 < 2 ^ (2 * w) by omega)
      rw [mul_zero, Nat.zero_and, mul_zero, add_zero, add_zero, hfield a ha] at hone
      simpa [packed, evens] using hone
    | a :: b :: ds, h, hn =>
      have ha := h a List.mem_cons_self
      have hb := h b (List.mem_cons_of_mem _ List.mem_cons_self)
      have hlow : a + 2 ^ w * b < 2 ^ (2 * w) := by
        rw [two_mul, pow_add]
        nlinarith
      have hrest := @ih ds (fun d hd => h d (List.mem_cons_of_mem _ (List.mem_cons_of_mem _ hd)))
        (by simp only [List.length_cons] at hn; omega)
      have hab : (a + 2 ^ w * b) &&& (2 ^ w - 1) = a := by
        rw [Nat.and_two_pow_sub_one_eq_mod, Nat.add_mul_mod_self_left, Nat.mod_eq_of_lt ha]
      rw [packed_two, land_split _ _ hlow (by omega), hab, hrest, evens, packed_cons]

theorem evens_add_tail (ds : List ℕ) : packed w (evens ds) + packed w (evens ds.tail) = packed w (pairs ds) := by
  induction ds using pairs.induct with
  | case1 a b ds ih =>
    have htail : evens (b :: ds) = b :: evens ds.tail := by
      cases ds with
      | nil => rfl
      | cons c ds => rfl
    rw [List.tail_cons, htail, evens, pairs, packed_cons, packed_cons, packed_cons, ← ih]
    ring
  | case2 ds hds =>
    cases ds with
    | nil => rfl
    | cons a ds =>
      cases ds with
      | nil => simp [evens, pairs, packed]
      | cons b ds => exact absurd rfl (hds a b ds)

/-- The sums of neighbours, in fields of twice the width. -/
theorem land_add_land (h : ∀ d ∈ ds, d < 2 ^ w) (n : ℕ) (hn : ds.length ≤ 2 * n) :
    (packed w ds &&& packed (2 * w) (List.replicate n (2 ^ w - 1))) +
      (packed w ds >>> w &&& packed (2 * w) (List.replicate n (2 ^ w - 1))) = packed (2 * w) (pairs ds) := by
  have htail : ∀ d ∈ ds.tail, d < 2 ^ w := fun d hd => h d (List.mem_of_mem_tail hd)
  rw [packed_tail h, land_evens h n hn, land_evens htail n (by rw [List.length_tail]; omega), evens_add_tail]

theorem packed_evens (ds : List ℕ) : packed (2 * w) (evens ds) + 2 ^ w * packed (2 * w) (evens ds.tail) = packed w ds := by
  induction ds using pairs.induct with
  | case1 a b ds ih =>
    have htail : evens (b :: ds) = b :: evens ds.tail := by
      cases ds with
      | nil => rfl
      | cons c ds => rfl
    rw [List.tail_cons, htail, evens, packed_cons, packed_cons, packed_two, ← ih]
    ring
  | case2 ds hds =>
    cases ds with
    | nil => rfl
    | cons a ds =>
      cases ds with
      | nil => simp [evens, packed]
      | cons b ds => exact absurd rfl (hds a b ds)

theorem sum_pairs (ds : List ℕ) : (pairs ds).sum = ds.sum := by
  induction ds using pairs.induct with
  | case1 a b ds ih => simp [pairs, ih, add_assoc]
  | case2 ds hds => rw [pairs.eq_2 _ hds]

theorem pairs_le {c : ℕ} (h : ∀ d ∈ ds, d ≤ c) : ∀ d ∈ pairs ds, d ≤ 2 * c := by
  induction ds using pairs.induct with
  | case1 a b ds ih =>
    have ha := h a List.mem_cons_self
    have hb := h b (List.mem_cons_of_mem _ List.mem_cons_self)
    intro d hd
    rw [pairs, List.mem_cons] at hd
    cases hd with
    | inl hd => omega
    | inr hd => exact ih (fun d hd => h d (List.mem_cons_of_mem _ (List.mem_cons_of_mem _ hd))) d hd
  | case2 ds hds =>
    intro d hd
    rw [pairs.eq_2 _ hds] at hd
    exact (h d hd).trans (by omega)

/-- Each field with its upper neighbour. -/
def sums : List ℕ → List ℕ
  | a :: b :: ds => (a + b) :: sums (b :: ds)
  | ds => ds

theorem packed_sums (ds : List ℕ) : packed w (sums ds) = packed w ds + packed w ds.tail := by
  induction ds using sums.induct with
  | case1 a b ds ih =>
    rw [List.tail_cons] at ih
    rw [sums, List.tail_cons, packed_cons, ih, packed_cons w a, packed_cons w b]
    ring
  | case2 ds hds =>
    cases ds with
    | nil => rfl
    | cons a ds =>
      cases ds with
      | nil => simp [sums, packed]
      | cons b ds => exact absurd rfl (hds a b ds)

theorem length_sums (ds : List ℕ) : (sums ds).length = ds.length := by
  induction ds using sums.induct with
  | case1 a b ds ih => simpa [sums] using ih
  | case2 ds hds => rw [sums.eq_2 _ hds]

theorem evens_sums (ds : List ℕ) : evens (sums ds) = pairs ds := by
  induction ds using pairs.induct with
  | case1 a b ds ih =>
    cases ds with
    | nil => rfl
    | cons c ds =>
      rw [sums, sums, evens, ih, pairs]
  | case2 ds hds =>
    cases ds with
    | nil => rfl
    | cons a ds =>
      cases ds with
      | nil => rfl
      | cons b ds => exact absurd rfl (hds a b ds)

theorem sums_le {c : ℕ} (h : ∀ d ∈ ds, d ≤ c) : ∀ d ∈ sums ds, d ≤ 2 * c := by
  induction ds using sums.induct with
  | case1 a b ds ih =>
    have ha := h a List.mem_cons_self
    have hb := h b (List.mem_cons_of_mem _ List.mem_cons_self)
    intro d hd
    rw [sums, List.mem_cons] at hd
    cases hd with
    | inl hd => omega
    | inr hd => exact ih (fun d hd => h d (List.mem_cons_of_mem _ hd)) d hd
  | case2 ds hds =>
    intro d hd
    rw [sums.eq_2 _ hds] at hd
    exact (h d hd).trans (by omega)

/-- The sums of neighbours again, where a field has room for the sum before the mask. -/
theorem add_land (hw : ∀ d ∈ ds, 2 * d < 2 ^ w) (n : ℕ) (hn : ds.length ≤ 2 * n) :
    (packed w ds + packed w ds >>> w) &&& packed (2 * w) (List.replicate n (2 ^ w - 1)) = packed (2 * w) (pairs ds) := by
  have hlt : ∀ d ∈ ds, d < 2 ^ w := fun d hd => by have := hw d hd; omega
  have hle : ∀ d ∈ ds, d ≤ (2 ^ w - 1) / 2 := fun d hd => by have := hw d hd; omega
  have hsums : ∀ d ∈ sums ds, d < 2 ^ w := by
    intro d hd
    have hd' := sums_le hle d hd
    have hpos := Nat.two_pow_pos w
    omega
  rw [packed_tail hlt, ← packed_sums, land_evens hsums n (by rw [length_sums]; exact hn), evens_sums]

end Cc370.Lib.Fields
