import Mathlib

namespace Cc370.BigEndian

abbrev Memory := ℤ → UInt8

def read (m : Memory) (p : ℤ) : ℕ → ℤ
  | 0 => 0
  | n + 1 => read m p n * 256 + (m (p + n)).toNat

def write (m : Memory) (p v : ℤ) : ℕ → Memory
  | 0 => m
  | n + 1 => write (Function.update m (p + n) (UInt8.ofInt v)) p (v / 256) n

theorem toNat_ofInt (v : ℤ) : ((UInt8.ofInt v).toNat : ℤ) = v % 256 := by
  simp only [UInt8.ofInt, UInt8.toNat_ofNat']
  omega

theorem read_congr {m m' : Memory} {p p' : ℤ} {n : ℕ} (h : ∀ k < n, m (p + k) = m' (p' + k)) :
    read m p n = read m' p' n := by
  induction n with
  | zero => rfl
  | succ n ih =>
    rw [read, read, ih (fun k hk => h k (by omega)), h n (by omega)]

theorem read_nonneg (m : Memory) (p : ℤ) (n : ℕ) : 0 ≤ read m p n := by
  induction n with
  | zero => exact le_rfl
  | succ n ih => rw [read]; positivity

theorem read_lt (m : Memory) (p : ℤ) (n : ℕ) : read m p n < 256 ^ n := by
  induction n with
  | zero => simp [read]
  | succ n ih =>
    have hb := (m (p + n)).toNat_lt
    rw [read, pow_succ]
    omega

theorem read_emod (m : Memory) (p : ℤ) (n : ℕ) : read m p n % 256 ^ n = read m p n :=
  Int.emod_eq_of_lt (read_nonneg m p n) (read_lt m p n)

theorem write_outside {p a : ℤ} {n : ℕ} (m : Memory) (v : ℤ) (h : a < p ∨ p + n ≤ a) :
    write m p v n a = m a := by
  induction n generalizing m v with
  | zero => rfl
  | succ n ih =>
    rw [write, ih _ _ (by omega), Function.update_of_ne (by omega)]

theorem emod_mul (v : ℤ) {a b : ℤ} (ha : 0 < a) (hb : 0 < b) :
    v % (a * b) = v % a + a * (v / a % b) := by
  have hv : v = (v % a + a * (v / a % b)) + a * b * (v / a / b) := by
    have h1 := Int.emod_add_mul_ediv v a
    have h2 := Int.emod_add_mul_ediv (v / a) b
    linear_combination -h1 - a * h2
  have hlo : 0 ≤ v % a + a * (v / a % b) :=
    add_nonneg (Int.emod_nonneg _ ha.ne') (mul_nonneg ha.le (Int.emod_nonneg _ hb.ne'))
  have hhi : v % a + a * (v / a % b) < a * b := by
    have h1 := Int.emod_lt_of_pos v ha
    have h2 := Int.emod_lt_of_pos (v / a) hb
    nlinarith
  conv_lhs => rw [hv]
  rw [Int.add_mul_emod_self_left, Int.emod_eq_of_lt hlo hhi]

theorem read_write (m : Memory) (p v : ℤ) (n : ℕ) : read (write m p v n) p n = v % 256 ^ n := by
  induction n generalizing m v with
  | zero => simp [read]
  | succ n ih =>
    have hlast : write m p v (n + 1) (p + n) = UInt8.ofInt v := by
      rw [write, write_outside _ _ (by omega), Function.update_self]
    rw [read, hlast, write, ih, toNat_ofInt, pow_succ', emod_mul v (by norm_num) (by positivity)]
    ring

theorem read_write_disjoint {p q : ℤ} {n k : ℕ} (m : Memory) (v : ℤ)
    (h : q + k ≤ p ∨ p + n ≤ q) : read (write m p v n) q k = read m q k := by
  apply read_congr
  intro i hi
  exact write_outside m v (by omega)

/-- A displacement added to the big-endian field of `len` bytes at `loc`. -/
structure Fixup where
  loc : ℤ
  len : ℕ
  delta : ℤ
deriving DecidableEq

namespace Fixup

def apply (m : Memory) (f : Fixup) : Memory :=
  write m f.loc (read m f.loc f.len + f.delta) f.len

def OnField (p : ℤ) (n : ℕ) (f : Fixup) : Prop := f.loc = p ∧ f.len = n

def OffField (p : ℤ) (n : ℕ) (f : Fixup) : Prop := p + n ≤ f.loc ∨ f.loc + f.len ≤ p

instance (p : ℤ) (n : ℕ) : DecidablePred (OnField p n) := fun f =>
  inferInstanceAs (Decidable (f.loc = p ∧ f.len = n))

instance (p : ℤ) (n : ℕ) : DecidablePred (OffField p n) := fun f =>
  inferInstanceAs (Decidable (p + n ≤ f.loc ∨ f.loc + f.len ≤ p))

def total (p : ℤ) (n : ℕ) (fs : List Fixup) : ℤ :=
  ((fs.filter (fun f => OnField p n f)).map Fixup.delta).sum

theorem total_append (p : ℤ) (n : ℕ) (fs gs : List Fixup) :
    total p n (fs ++ gs) = total p n fs + total p n gs := by
  simp [total]

theorem total_cons_of_on {p : ℤ} {n : ℕ} {f : Fixup} (fs : List Fixup) (h : OnField p n f) :
    total p n (f :: fs) = f.delta + total p n fs := by
  simp [total, h]

theorem total_cons_of_not_on {p : ℤ} {n : ℕ} {f : Fixup} (fs : List Fixup) (h : ¬ OnField p n f) :
    total p n (f :: fs) = total p n fs := by
  simp [total, h]

theorem total_eq_zero {p : ℤ} {n : ℕ} {fs : List Fixup} (h : ∀ f ∈ fs, ¬ OnField p n f) :
    total p n fs = 0 := by
  induction fs with
  | nil => rfl
  | cons f fs ih =>
    rw [total_cons_of_not_on fs (h f (by simp)), ih fun g hg => h g (List.mem_cons_of_mem _ hg)]

theorem not_on_of_off {p : ℤ} {n : ℕ} {f : Fixup} (hn : 0 < n) (h : OffField p n f) :
    ¬ OnField p n f := by
  rintro ⟨rfl, rfl⟩
  unfold OffField at h
  omega

theorem read_apply_on {p : ℤ} {n : ℕ} {f : Fixup} (m : Memory) (h : OnField p n f) :
    read (apply m f) p n = (read m p n + f.delta) % 256 ^ n := by
  obtain ⟨rfl, rfl⟩ := h
  exact read_write _ _ _ _

theorem read_apply_off {p : ℤ} {n : ℕ} {f : Fixup} (m : Memory) (h : OffField p n f) :
    read (apply m f) p n = read m p n :=
  read_write_disjoint _ _ h

theorem apply_outside {f : Fixup} {a : ℤ} (m : Memory) (h : a < f.loc ∨ f.loc + f.len ≤ a) :
    apply m f a = m a :=
  write_outside _ _ h

/-- Fixups that meet a field only where they coincide with it add up on it. -/
theorem read_foldl {p : ℤ} {n : ℕ} (fs : List Fixup)
    (h : ∀ f ∈ fs, OnField p n f ∨ OffField p n f) (m : Memory) :
    read (fs.foldl apply m) p n = (read m p n + total p n fs) % 256 ^ n := by
  induction fs generalizing m with
  | nil => simp [total, read_emod]
  | cons f fs ih =>
    have ht := ih (fun g hg => h g (List.mem_cons_of_mem _ hg)) (apply m f)
    rw [List.foldl_cons, ht]
    by_cases hf : OnField p n f
    · rw [read_apply_on m hf, total_cons_of_on fs hf, Int.emod_add_emod, add_assoc]
    · rw [read_apply_off m ((h f (by simp)).resolve_left hf), total_cons_of_not_on fs hf]

theorem foldl_outside {a : ℤ} (fs : List Fixup)
    (h : ∀ f ∈ fs, a < f.loc ∨ f.loc + f.len ≤ a) (m : Memory) :
    fs.foldl apply m a = m a := by
  induction fs generalizing m with
  | nil => rfl
  | cons f fs ih =>
    rw [List.foldl_cons, ih (fun g hg => h g (List.mem_cons_of_mem _ hg)),
      apply_outside m (h f (by simp))]

end Fixup

end Cc370.BigEndian
