import Cc370.Cmplmd370.Compare
import Mathlib.Data.Nat.Count

namespace Cc370.Cmplmd370

/-- A byte the comparison finds to differ, whether or not it is to be ignored. -/
def differs (clearrld : Bool) (a b : Sect) (i : ℕ) : Bool := !cleared clearrld a b i ∧ a.bytes i ≠ b.bytes i

def Covers (c : List Clu) (p : ℕ) : Prop := ∃ x ∈ c, x.off ≤ p ∧ p < x.off + x.len

/-- The clusters, the last first, of the bytes below `n` that `P` holds of; a run that goes on ends there. -/
structure Clustered (P : ℕ → Prop) (n : ℕ) (inrun : Bool) (c : List Clu) : Prop where
  covers : ∀ p, Covers c p ↔ p < n ∧ P p
  within : ∀ x ∈ c, 0 < x.len ∧ x.off + x.len ≤ n
  open_run : inrun = true → ∃ x rest, c = x :: rest ∧ x.off + x.len = n

namespace Clustered

variable {P : ℕ → Prop} {n : ℕ} {inrun : Bool} {c : List Clu}

theorem nil (P : ℕ → Prop) : Clustered P 0 false [] := by
  refine ⟨?_, nofun, nofun⟩
  rintro p
  constructor
  · rintro ⟨x, hx, -⟩
    exact absurd hx List.not_mem_nil
  · rintro ⟨h, -⟩
    exact absurd h (Nat.not_lt_zero p)

theorem skip (h : Clustered P n inrun c) (hn : ¬ P n) : Clustered P (n + 1) false c := by
  refine ⟨?_, ?_, nofun⟩
  · intro p
    rw [h.covers]
    constructor
    · rintro ⟨hp, hP⟩
      exact ⟨by omega, hP⟩
    · rintro ⟨hp, hP⟩
      have hne : p ≠ n := fun heq => hn (heq ▸ hP)
      exact ⟨by omega, hP⟩
  · intro x hx
    have := h.within x hx
    omega

theorem extend (h : Clustered P n inrun c) (hn : P n) (hole : Bool) : Clustered P (n + 1) true (Scan.extend inrun n hole c) := by
  have hstart (c : List Clu) (hc : ∀ p, Covers c p ↔ p < n ∧ P p) (hw : ∀ x ∈ c, 0 < x.len ∧ x.off + x.len ≤ n) :
      Clustered P (n + 1) true (⟨n, 1, hole⟩ :: c) := by
    refine ⟨?_, ?_, fun _ => ⟨_, c, rfl, rfl⟩⟩
    · intro p
      have hcons : Covers (⟨n, 1, hole⟩ :: c) p ↔ p = n ∨ Covers c p := by
        simp only [Covers, List.mem_cons, exists_eq_or_imp]
        apply or_congr_left
        omega
      rw [hcons, hc]
      constructor
      · rintro (rfl | ⟨hp, hP⟩)
        · exact ⟨by omega, hn⟩
        · exact ⟨by omega, hP⟩
      · rintro ⟨hp, hP⟩
        rcases Nat.lt_succ_iff_lt_or_eq.mp hp with hlt | heq
        · exact .inr ⟨hlt, hP⟩
        · exact .inl heq
    · intro x hx
      rcases List.mem_cons.mp hx with rfl | hx
      · exact ⟨Nat.one_pos, le_rfl⟩
      · have := hw x hx
        omega
  cases inrun with
  | false => exact hstart c h.covers h.within
  | true =>
    obtain ⟨x, rest, rfl, hend⟩ := h.open_run rfl
    refine ⟨?_, ?_, fun _ => ⟨_, rest, rfl, by dsimp only; omega⟩⟩
    · intro p
      have hcons : Covers ({ x with len := x.len + 1 } :: rest) p ↔ p = n ∨ Covers (x :: rest) p := by
        have hx := (h.within x List.mem_cons_self).1
        simp only [Covers, List.mem_cons, exists_eq_or_imp]
        rw [← or_assoc]
        apply or_congr_left
        omega
      rw [Scan.extend, hcons, h.covers]
      constructor
      · rintro (rfl | ⟨hp, hP⟩)
        · exact ⟨by omega, hn⟩
        · exact ⟨by omega, hP⟩
      · rintro ⟨hp, hP⟩
        rcases Nat.lt_succ_iff_lt_or_eq.mp hp with hlt | heq
        · exact .inr ⟨hlt, hP⟩
        · exact .inl heq
    · intro y hy
      rcases List.mem_cons.mp hy with rfl | hy
      · have := h.within x List.mem_cons_self
        dsimp only
        omega
      · have := h.within y (List.mem_cons_of_mem _ hy)
        omega

end Clustered

section Scan

variable (clearrld : Bool) (a b : Sect) (ign : ℕ → Bool)

def scanTo (n : ℕ) : Scan := (List.range n).foldl (scanByte clearrld a b ign) .start

theorem scanTo_succ (n : ℕ) : scanTo clearrld a b ign (n + 1) = scanByte clearrld a b ign (scanTo clearrld a b ign n) n := by
  rw [scanTo, List.range_succ, List.foldl_append]
  rfl

/-- A byte that does not count ends the runs. -/
theorem scanByte_same {s : Scan} {n : ℕ} (h : differs clearrld a b n = false) :
    (scanByte clearrld a b ign s n).inrun = false ∧ (scanByte clearrld a b ign s n).inign = false ∧
      (scanByte clearrld a b ign s n).c = s.c ∧ (scanByte clearrld a b ign s n).ic = s.ic ∧
        (scanByte clearrld a b ign s n).diff = s.diff ∧ (scanByte clearrld a b ign s n).nign = s.nign := by
  unfold scanByte
  by_cases hcl : cleared clearrld a b n = true
  · rw [if_pos hcl]
    exact ⟨rfl, rfl, rfl, rfl, rfl, rfl⟩
  · have heq : a.bytes n = b.bytes n := by simpa [differs, hcl] using h
    rw [if_neg hcl, if_neg (not_not_intro heq)]
    exact ⟨rfl, rfl, rfl, rfl, rfl, rfl⟩

theorem scanByte_ignored {s : Scan} {n : ℕ} (h : differs clearrld a b n = true) (hi : ign n = true) :
    scanByte clearrld a b ign s n =
      { s with nign := s.nign + 1, inrun := false, inign := true, ic := Scan.extend s.inign n (!a.made n) s.ic } := by
  obtain ⟨hcl, hne⟩ : cleared clearrld a b n = false ∧ a.bytes n ≠ b.bytes n := by simpa [differs] using h
  rw [scanByte, hcl, if_neg Bool.false_ne_true, if_pos hne, if_pos hi]

theorem scanByte_found {s : Scan} {n : ℕ} (h : differs clearrld a b n = true) (hi : ign n = false) :
    (scanByte clearrld a b ign s n).inrun = true ∧ (scanByte clearrld a b ign s n).inign = false ∧
      (scanByte clearrld a b ign s n).c = Scan.extend s.inrun n (!a.made n) s.c ∧ (scanByte clearrld a b ign s n).ic = s.ic ∧
        (scanByte clearrld a b ign s n).diff = s.diff + 1 ∧ (scanByte clearrld a b ign s n).nign = s.nign := by
  obtain ⟨hcl, hne⟩ : cleared clearrld a b n = false ∧ a.bytes n ≠ b.bytes n := by simpa [differs] using h
  rw [scanByte, hcl, if_neg Bool.false_ne_true, if_pos hne, hi, if_neg Bool.false_ne_true]
  exact ⟨rfl, rfl, rfl, rfl, rfl, rfl⟩

/-- The comparison as far as byte `n`. -/
structure Scanned (n : ℕ) (s : Scan) : Prop where
  c : Clustered (fun p => differs clearrld a b p = true ∧ ign p = false) n s.inrun s.c
  ic : Clustered (fun p => differs clearrld a b p = true ∧ ign p = true) n s.inign s.ic
  diff : s.diff = Nat.count (fun p => differs clearrld a b p = true ∧ ign p = false) n
  nign : s.nign = Nat.count (fun p => differs clearrld a b p = true ∧ ign p = true) n

theorem scanned (n : ℕ) : Scanned clearrld a b ign n (scanTo clearrld a b ign n) := by
  induction n with
  | zero => exact ⟨.nil _, .nil _, rfl, rfl⟩
  | succ n ih =>
    obtain ⟨hc, hic, hdiff, hnign⟩ := ih
    rw [scanTo_succ]
    generalize scanTo clearrld a b ign n = s at *
    cases hd : differs clearrld a b n with
    | false =>
      obtain ⟨h1, h2, h3, h4, h5, h6⟩ := scanByte_same clearrld a b ign (s := s) hd
      constructor
      · rw [h1, h3]
        exact hc.skip (by simp [hd])
      · rw [h2, h4]
        exact hic.skip (by simp [hd])
      · rw [h5, hdiff, Nat.count_succ, if_neg (by simp [hd]), add_zero]
      · rw [h6, hnign, Nat.count_succ, if_neg (by simp [hd]), add_zero]
    | true =>
      cases hi : ign n with
      | false =>
        obtain ⟨h1, h2, h3, h4, h5, h6⟩ := scanByte_found clearrld a b ign (s := s) hd hi
        constructor
        · rw [h1, h3]
          exact hc.extend ⟨hd, hi⟩ _
        · rw [h2, h4]
          exact hic.skip (by simp [hi])
        · rw [h5, hdiff, Nat.count_succ, if_pos ⟨hd, hi⟩]
        · rw [h6, hnign, Nat.count_succ, if_neg (by simp [hi]), add_zero]
      | true =>
        rw [scanByte_ignored clearrld a b ign hd hi]
        constructor
        · exact hc.skip (by simp [hi])
        · exact hic.extend ⟨hd, hi⟩ _
        · rw [Nat.count_succ, if_neg (by simp [hi]), add_zero]
          exact hdiff
        · rw [Nat.count_succ, if_pos ⟨hd, hi⟩, ← hnign]

/-- What is found without a list of ranges is what is ignored with one that has it all. -/
theorem scan_all_ignored (n : ℕ) (hign : ∀ p < n, differs clearrld a b p = true → ign p = true) :
    (scanTo clearrld a b ign n).inign = (scanTo clearrld a b (fun _ => false) n).inrun ∧
      (scanTo clearrld a b ign n).ic = (scanTo clearrld a b (fun _ => false) n).c ∧ (scanTo clearrld a b ign n).c = [] ∧
        (scanTo clearrld a b (fun _ => false) n).ic = [] := by
  induction n with
  | zero => exact ⟨rfl, rfl, rfl, rfl⟩
  | succ n ih =>
    obtain ⟨hrun, hic, hc, hnone⟩ := ih fun p hp => hign p (Nat.lt_succ_of_lt hp)
    rw [scanTo_succ, scanTo_succ]
    generalize scanTo clearrld a b ign n = s at *
    generalize scanTo clearrld a b (fun _ => false) n = t at *
    cases hd : differs clearrld a b n with
    | false =>
      obtain ⟨-, h2, h3, h4, -, -⟩ := scanByte_same clearrld a b ign (s := s) hd
      obtain ⟨k1, -, k3, k4, -, -⟩ := scanByte_same clearrld a b (fun _ => false) (s := t) hd
      exact ⟨h2.trans k1.symm, (h4.trans hic).trans k3.symm, h3.trans hc, k4.trans hnone⟩
    | true =>
      obtain ⟨k1, -, k3, k4, -, -⟩ := scanByte_found clearrld a b (fun _ => false) (s := t) hd rfl
      rw [scanByte_ignored clearrld a b ign hd (hign n (Nat.lt_succ_self n) hd)]
      refine ⟨k1.symm, ?_, hc, k4.trans hnone⟩
      rw [k3, ← hrun, ← hic]

end Scan

end Cc370.Cmplmd370
