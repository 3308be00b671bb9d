import Mathlib.Data.Nat.Digits.Lemmas
import Mathlib.Data.List.DropRight
import Mathlib.Tactic.Ring
import Mathlib.Tactic.Linarith

namespace Cc370.Limbs

open Nat (ofDigits digits)

/-- One pass from the lowest limb up, with a carry. -/
def ripple (b : ℕ) (f : ℕ → ℕ → ℕ) : List ℕ → ℕ → List ℕ × ℕ
  | [], c => ([], c)
  | d :: l, c =>
    let r := ripple b f l (f d c / b)
    (f d c % b :: r.1, r.2)

/-- One pass with a borrow; what lies beyond the first number is not looked at. -/
def borrow (b : ℕ) : List ℕ → List ℕ → ℕ → List ℕ
  | [], _, _ => []
  | d :: l, es, c =>
    if d < es.headD 0 + c then (d + b - (es.headD 0 + c)) :: borrow b l es.tail 1
    else (d - (es.headD 0 + c)) :: borrow b l es.tail 0

/-- The highest limb that differs decides. -/
def cmpLimbs : List ℕ → List ℕ → Ordering
  | d :: l, e :: m => (cmpLimbs l m).then (compare d e)
  | _, _ => .eq

def trim (l : List ℕ) : List ℕ := l.rdropWhile (· = 0)

variable {b : ℕ} {l m : List ℕ}

theorem digits_eq (hb : 1 < b) (hl : ∀ d ∈ l, d < b) (htop : l ≠ [] → b ^ (l.length - 1) ≤ ofDigits b l) : digits b (ofDigits b l) = l := by
  apply Nat.digits_ofDigits b hb l hl
  intro hne hlast
  have hsplit := List.dropLast_append_getLast hne
  rw [hlast] at hsplit
  have hlow : ofDigits b l.dropLast < b ^ l.dropLast.length :=
    Nat.ofDigits_lt_base_pow_length hb fun d hd => hl d (List.dropLast_subset l hd)
  have hsame : ofDigits b l = ofDigits b l.dropLast := by
    conv_lhs => rw [← hsplit]
    exact Nat.ofDigits_append_zero _
  rw [List.length_dropLast, ← hsame] at hlow
  exact absurd (htop hne) (not_le.mpr hlow)

theorem pow_le_digits (hb : 1 < b) {n : ℕ} (h : digits b n ≠ []) : b ^ ((digits b n).length - 1) ≤ n := by
  have hn : n ≠ 0 := Nat.digits_ne_nil_iff_ne_zero.mp h
  have hlen := Nat.base_pow_length_digits_le b n hb hn
  have hpos := List.length_pos_of_ne_nil h
  rw [← Nat.sub_add_cancel hpos, pow_succ, Nat.mul_comm] at hlen
  exact Nat.le_of_mul_le_mul_left hlen (by omega)

/-- What a pass leaves stands for `m` times the number, plus the carry it began with. -/
theorem ripple_value {f : ℕ → ℕ → ℕ} {k n : ℕ} (hf : ∀ d c, d < b → c < k → f d c = d * n + c)
    (hk : ∀ d c, d < b → c < k → (d * n + c) / b < k) (hl : ∀ d ∈ l, d < b) {c : ℕ} (hc : c < k) :
    ofDigits b (ripple b f l c).1 + b ^ l.length * (ripple b f l c).2 = ofDigits b l * n + c ∧
      (∀ d ∈ (ripple b f l c).1, d < b) ∧ (ripple b f l c).1.length = l.length ∧ (ripple b f l c).2 < k := by
  induction l generalizing c with
  | nil => simpa [ripple] using hc
  | cons d l ih =>
    have hd := hl d List.mem_cons_self
    have hstep := hf d c hd hc
    have hcarry : f d c / b < k := hstep ▸ hk d c hd hc
    obtain ⟨hval, hlt, hlen, hout⟩ := ih (fun x hx => hl x (List.mem_cons_of_mem d hx)) hcarry
    rw [ripple]
    refine ⟨?_, ?_, by simpa using hlen, hout⟩
    · rw [Nat.ofDigits_cons, Nat.ofDigits_cons, List.length_cons, pow_succ]
      have hdiv := Nat.div_add_mod (f d c) b
      dsimp only
      calc f d c % b + b * ofDigits b (ripple b f l (f d c / b)).1 + b ^ l.length * b * (ripple b f l (f d c / b)).2
          = f d c % b + b * (ofDigits b (ripple b f l (f d c / b)).1 + b ^ l.length * (ripple b f l (f d c / b)).2) := by ring
        _ = b * (f d c / b) + f d c % b + b * (ofDigits b l * n) := by
            rw [hval]
            ring
        _ = (d + b * ofDigits b l) * n + c := by
            rw [hdiv, hstep]
            ring
    · intro x hx
      rcases List.mem_cons.mp hx with rfl | hx
      · exact Nat.mod_lt _ (by omega)
      · exact hlt x hx

/-- The carry that is left is the highest limb. -/
theorem push_digits (hb : 1 < b) {r : List ℕ} {c v : ℕ} (hr : ∀ d ∈ r, d < b) (hc : c < b) (hv : ofDigits b r + b ^ r.length * c = v)
    (htop : r ≠ [] → b ^ (r.length - 1) ≤ v) : digits b v = if c = 0 then r else r ++ [c] := by
  split
  · rename_i hzero
    rw [hzero, Nat.mul_zero, Nat.add_zero] at hv
    rw [← hv] at htop ⊢
    exact digits_eq hb hr htop
  · rename_i hpos
    have hval : ofDigits b (r ++ [c]) = v := by rw [Nat.ofDigits_append, Nat.ofDigits_singleton, hv]
    rw [← hval]
    apply digits_eq hb
    · intro d hd
      rcases List.mem_append.mp hd with hd | hd
      · exact hr d hd
      · exact List.mem_singleton.mp hd ▸ hc
    · intro _
      rw [hval, List.length_append, List.length_singleton, Nat.add_sub_cancel, ← hv]
      exact (Nat.le_mul_of_pos_right _ (Nat.pos_of_ne_zero hpos)).trans (Nat.le_add_left _ _)

theorem borrow_value (hb : 0 < b) (hl : ∀ d ∈ l, d < b) (hm : ∀ d ∈ m, d < b) {c : ℕ} (hc : c ≤ 1) (hle : ofDigits b m + c ≤ ofDigits b l) :
    ofDigits b (borrow b l m c) = ofDigits b l - (ofDigits b m + c) ∧ ∀ d ∈ borrow b l m c, d < b := by
  induction l generalizing m c with
  | nil =>
    rw [Nat.ofDigits_nil] at hle ⊢
    simp [borrow]
  | cons d l ih =>
    have hd := hl d List.mem_cons_self
    have hl' : ∀ x ∈ l, x < b := fun x hx => hl x (List.mem_cons_of_mem d hx)
    have hm' : ∀ x ∈ m.tail, x < b := fun x hx => hm x (List.mem_of_mem_tail hx)
    have hhead : m.headD 0 < b := by
      cases m with
      | nil => exact hb
      | cons e m => exact hm e List.mem_cons_self
    have hsplit : ofDigits b m = m.headD 0 + b * ofDigits b m.tail := by
      cases m with
      | nil => simp [Nat.ofDigits_nil]
      | cons e m => exact Nat.ofDigits_cons
    rw [Nat.ofDigits_cons, hsplit] at hle
    rw [Nat.ofDigits_cons, hsplit, borrow]
    generalize m.headD 0 = e at *
    split
    · rename_i hlt
      have hhigh : ofDigits b m.tail + 1 ≤ ofDigits b l := by
        by_contra hge
        have hmul := Nat.mul_le_mul_left b (Nat.le_of_lt_succ (not_le.mp hge))
        omega
      obtain ⟨hval, hsmall⟩ := ih hl' hm' le_rfl hhigh
      have hmul := Nat.mul_le_mul_left b hhigh
      rw [Nat.mul_add, Nat.mul_one] at hmul
      constructor
      · rw [Nat.ofDigits_cons, hval, Nat.mul_sub, Nat.mul_add, Nat.mul_one]
        omega
      · intro x hx
        rcases List.mem_cons.mp hx with rfl | hx
        · omega
        · exact hsmall x hx
    · rename_i hge
      have hhigh : ofDigits b m.tail ≤ ofDigits b l := by
        by_contra hlt
        have hmul := Nat.mul_le_mul_left b (Nat.succ_le_of_lt (not_le.mp hlt))
        rw [Nat.mul_succ] at hmul
        omega
      obtain ⟨hval, hsmall⟩ := ih hl' hm' (Nat.zero_le 1) hhigh
      have hmul := Nat.mul_le_mul_left b hhigh
      constructor
      · rw [Nat.ofDigits_cons, hval, Nat.add_zero, Nat.mul_sub]
        omega
      · intro x hx
        rcases List.mem_cons.mp hx with rfl | hx
        · omega
        · exact hsmall x hx

theorem cmpLimbs_eq (hl : ∀ d ∈ l, d < b) (hm : ∀ d ∈ m, d < b) (hlen : l.length = m.length) :
    cmpLimbs l m = compare (ofDigits b l) (ofDigits b m) := by
  induction l generalizing m with
  | nil =>
    rw [List.length_nil, eq_comm, List.length_eq_zero_iff] at hlen
    rw [hlen]
    rfl
  | cons d l ih =>
    cases m with
    | nil => exact absurd hlen nofun
    | cons e m =>
      have hd := hl d List.mem_cons_self
      have he := hm e List.mem_cons_self
      rw [cmpLimbs, ih (fun x hx => hl x (List.mem_cons_of_mem d hx)) (fun x hx => hm x (List.mem_cons_of_mem e hx)) (Nat.succ.inj hlen),
        Nat.ofDigits_cons, Nat.ofDigits_cons]
      rcases lt_trichotomy (ofDigits b l) (ofDigits b m) with h | h | h
      · have hmul := Nat.mul_le_mul_left b (Nat.succ_le_of_lt h)
        rw [Nat.mul_succ] at hmul
        have hlt : d + b * ofDigits b l < e + b * ofDigits b m := by omega
        rw [compare_lt_iff_lt.mpr h, compare_lt_iff_lt.mpr hlt]
        rfl
      · rw [h, compare_eq_iff_eq.mpr rfl]
        rcases lt_trichotomy d e with hde | hde | hde
        · have hlt : d + b * ofDigits b m < e + b * ofDigits b m := by omega
          rw [compare_lt_iff_lt.mpr hde, compare_lt_iff_lt.mpr hlt]
          rfl
        · rw [hde, compare_eq_iff_eq.mpr rfl, compare_eq_iff_eq.mpr rfl]
          rfl
        · have hgt : d + b * ofDigits b m > e + b * ofDigits b m := by omega
          rw [compare_gt_iff_gt.mpr hde, compare_gt_iff_gt.mpr hgt]
          rfl
      · have hmul := Nat.mul_le_mul_left b (Nat.succ_le_of_lt h)
        rw [Nat.mul_succ] at hmul
        have hgt : d + b * ofDigits b l > e + b * ofDigits b m := by omega
        rw [compare_gt_iff_gt.mpr h, compare_gt_iff_gt.mpr hgt]
        rfl

/-- Numbers without leading zeros compare by their lengths first. -/
theorem length_lt_of_digits (hb : 1 < b) {x y : ℕ} (h : (digits b x).length < (digits b y).length) : x < y := by
  have hne : digits b y ≠ [] := by
    intro hnil
    rw [hnil] at h
    exact absurd h (Nat.not_lt_zero _)
  calc x < b ^ (digits b x).length := Nat.lt_base_pow_length_digits hb
    _ ≤ b ^ ((digits b y).length - 1) := Nat.pow_le_pow_right (by omega) (by omega)
    _ ≤ y := pow_le_digits hb hne

theorem trim_digits (hb : 1 < b) (hl : ∀ d ∈ l, d < b) : trim l = digits b (ofDigits b l) := by
  induction l using List.reverseRecOn with
  | nil => simp [trim, Nat.ofDigits_nil]
  | append_singleton l d ih =>
    have hl' : ∀ x ∈ l, x < b := fun x hx => hl x (List.mem_append_left _ hx)
    by_cases hd : d = 0
    · rw [trim, List.rdropWhile_concat_pos _ _ _ (by simp [hd]), ← trim, ih hl', hd, Nat.ofDigits_append_zero]
    · rw [trim, List.rdropWhile_concat_neg _ _ _ (by simp [hd])]
      symm
      apply Nat.digits_ofDigits b hb _ hl
      intro hne
      rwa [List.getLast_append_singleton]

end Cc370.Limbs
