import Cc370.Dasm370.Reassembly

namespace Cc370.Dasm370

open Obj370 As370 Tiles

/-- A statement has to begin here: the offset is named, or the text of a relocatable field begins. -/
def Boundary (s : Sect) (p : ℕ) : Prop := s.lab p = true ∨ s.cov p = true ∧ (s.rldAt p).isSome = true

section Step

variable {s : Sect} {optab : List Opc} {a : ℕ}

/-- The instruction at an offset: its length, its boundary, and no statement has to begin in it. -/
theorem insnAt_cases {n : ℕ} {t : Stmt} (h : s.insnAt optab a = some (n, t)) :
    t.size = n ∧ a % t.align = 0 ∧ 0 < n ∧ (∃ o opnd, t = .insn o opnd) ∧
      ∀ p, a < p → p < a + n → ¬ Boundary s p := by
  rw [Sect.insnAt] at h
  split_ifs at h with heven
  cases hop : findOp optab (s.img a) (s.img (a + 1)) with
  | none => exact absurd h (by simp [hop])
  | some o =>
    simp only [hop] at h
    cases hopnd : operands o (fun i => s.img (a + i)) with
    | none => exact absurd h (by simp [hopnd])
    | some opnd =>
      simp only [hopnd] at h
      split_ifs at h with hall
      obtain ⟨-, hrld, -, hlab, -⟩ := hall
      obtain ⟨rfl, rfl⟩ := Prod.mk.inj (Option.some.inj h)
      have hpos : 0 < insLenOf o.fmt := by
        rw [insLenOf]
        split_ifs <;> decide
      refine ⟨rfl, heven.2, hpos, ⟨o, opnd, rfl⟩, ?_⟩
      rintro p hlt hle (hp | ⟨-, hp⟩)
      · have hno := List.all_eq_true.mp hlab (p - a) (List.mem_range.mpr (by omega))
        rw [Nat.add_sub_cancel' hlt.le, hp] at hno
        have hzero : p - a = 0 := by simpa using hno
        omega
      · obtain ⟨r, hr⟩ := Option.isSome_iff_exists.mp hp
        obtain ⟨hmem, haddr⟩ := mem_of_rldAt hr
        rw [Bool.not_eq_true', Sect.rldOverlaps, List.any_eq_false] at hrld
        exact hrld r hmem (decide_eq_true ⟨by omega, by omega⟩)

/-- What is written at an offset: the constant of a field where one begins in the text, and else a
statement within which no other has to begin. -/
theorem next_cases (optab : List Opc) (a : ℕ) :
    (s.cov a = true ∧ ∃ r, s.rldAt a = some r ∧ s.next optab a = (r.len, s.adcon a r)) ∨
    ((s.cov a = false ∨ s.rldAt a = none) ∧ (s.next optab a).2.size = (s.next optab a).1 ∧
      a % (s.next optab a).2.align = 0 ∧ 0 < (s.next optab a).1 ∧ (s.next optab a).2.isAddr = false ∧
      ∀ p, a < p → p < a + (s.next optab a).1 → ¬ Boundary s p) := by
  rw [Sect.next]
  cases hc : s.cov a with
  | false =>
    right
    rw [if_pos (by simp)]
    refine ⟨.inl rfl, rfl, Nat.mod_one a, le_extend, rfl, ?_⟩
    intro p hlt hle hb
    have hok := ok_of_lt_extend (m := p - a) (by omega) (Nat.sub_lt_left_of_lt_add hlt.le hle)
    simp only [Nat.add_sub_cancel' hlt.le, Bool.not_eq_true', decide_eq_true_eq] at hok
    rcases hb with hb | ⟨hb, -⟩
    · rw [hok.2.2] at hb
      exact absurd hb (by simp)
    · rw [hok.2.1] at hb
      exact absurd hb (by simp)
  | true =>
    rw [if_neg (by simp)]
    cases hr : s.rldAt a with
    | some r => exact .inl ⟨rfl, r, rfl, rfl⟩
    | none =>
      right
      cases hi : s.insnAt optab a with
      | some q =>
        obtain ⟨hsize, halign, hpos, ⟨o, opnd, ht⟩, hb⟩ := insnAt_cases hi
        refine ⟨.inr rfl, hsize, halign, hpos, ?_, hb⟩
        change q.2.isAddr = false
        rw [ht]
        rfl
      | none =>
        refine ⟨.inr rfl, by simp [Sect.dcHex, Stmt.size], Nat.mod_one a, le_extend, rfl, ?_⟩
        intro p hlt hle hb
        have hok := ok_of_lt_extend (m := p - a) (by omega) (Nat.sub_lt_left_of_lt_add hlt.le hle)
        simp only [Nat.add_sub_cancel' hlt.le, Bool.not_eq_true', decide_eq_true_eq] at hok
        rcases hb with hb | ⟨-, hb⟩
        · rw [hok.2.2.1] at hb
          exact absurd hb (by simp)
        · rw [hok.2.2.2] at hb
          exact absurd hb (by simp)

theorem next_size (hpos : ∀ r ∈ s.rld, 0 < r.len) (optab : List Opc) (a : ℕ) :
    (s.next optab a).2.size = (s.next optab a).1 ∧ a % (s.next optab a).2.align = 0 ∧ 0 < (s.next optab a).1 := by
  rcases next_cases (s := s) optab a with ⟨-, r, hr, hnext⟩ | ⟨-, hsize, halign, hn, -, -⟩
  · obtain ⟨hmem, -⟩ := mem_of_rldAt hr
    rw [hnext]
    exact ⟨(adcon_size r).1, (adcon_size r).2, hpos r hmem⟩
  · exact ⟨hsize, halign, hn⟩

/-- Only the constant of a field can lie over a place where a statement has to begin. -/
theorem next_boundary {p : ℕ} (optab : List Opc) (hb : Boundary s p) (hlt : a < p) (hfree : Free s p) :
    a + (s.next optab a).1 ≤ p := by
  by_contra hgt
  rcases next_cases (s := s) optab a with ⟨-, r, hr, hnext⟩ | ⟨-, -, -, -, -, hno⟩
  · obtain ⟨hmem, rfl⟩ := mem_of_rldAt hr
    rw [hnext] at hgt
    exact hfree r hmem ⟨hlt, by omega⟩
  · exact hno p hlt (by omega) hb

end Step

section Run

variable {s : Sect} {optab : List Opc}

/-- A statement is written as `next` has it. -/
theorem walkFrom_line (optab : List Opc) : ∀ (fuel : ℕ) {a : ℕ}, ∀ l ∈ s.walkFrom optab fuel a,
    l.off < s.len ∧ l.label = s.label l.off ∧ l.stmt = (s.next optab l.off).2 := by
  intro fuel
  induction fuel with
  | zero =>
    intro a l hl
    exact absurd hl List.not_mem_nil
  | succ fuel ih =>
    intro a l hl
    rw [walkFrom_succ] at hl
    split_ifs at hl with ha
    · rcases List.mem_cons.mp hl with rfl | hl
      · exact ⟨ha, rfl, rfl⟩
      · exact ih l hl
    · exact absurd hl List.not_mem_nil

/-- The statements stand one behind the other, whatever the fields are. -/
theorem walkFrom_chain (optab : List Opc) (hpos : ∀ r ∈ s.rld, 0 < r.len) : ∀ (fuel a : ℕ),
    ∃ hi, Tile Line.off Line.size a hi (s.walkFrom optab fuel a) := by
  intro fuel
  induction fuel with
  | zero =>
    intro a
    exact ⟨a, rfl⟩
  | succ fuel ih =>
    intro a
    rw [walkFrom_succ]
    split_ifs with ha
    · obtain ⟨hsize, -, hn⟩ := next_size hpos optab a
      obtain ⟨hi, htile⟩ := ih (a + (s.next optab a).1)
      have hl : Line.size ⟨a, s.label a, (s.next optab a).2⟩ = (s.next optab a).1 := hsize
      refine ⟨hi, rfl, by rwa [hl], ?_⟩
      rw [hl]
      exact htile
    · exact ⟨a, rfl⟩

/-- A statement begins where one has to, unless a field lies over the place. -/
theorem walkFrom_boundary (hpos : ∀ r ∈ s.rld, 0 < r.len) {p : ℕ} (hb : Boundary s p) (hfree : Free s p)
    (hp : p < s.len) : ∀ {fuel a : ℕ}, a ≤ p → s.len - a ≤ fuel → ∃ l ∈ s.walkFrom optab fuel a, l.off = p := by
  intro fuel
  induction fuel with
  | zero =>
    intro a hle hfuel
    omega
  | succ fuel ih =>
    intro a hle hfuel
    rw [walkFrom_succ, if_pos (by omega)]
    rcases Nat.eq_or_lt_of_le hle with rfl | hlt
    · exact ⟨_, List.mem_cons_self, rfl⟩
    · obtain ⟨-, -, hn⟩ := next_size hpos optab a
      obtain ⟨l, hl, hoff⟩ := ih (next_boundary optab hb hlt hfree) (by omega)
      exact ⟨l, List.mem_cons_of_mem _ hl, hoff⟩

end Run

section Section

variable {s : Sect} {optab : List Opc} (hpos : ∀ r ∈ s.rld, 0 < r.len)

include hpos

theorem place_walkSection : place 0 ((s.walkSection optab).map Line.stmt) =
    (s.walkSection optab).map fun l => (l.off, l.stmt) := by
  obtain ⟨hi, htile⟩ := walkFrom_chain optab hpos s.len 0
  apply place_tile htile
  intro l hl
  obtain ⟨-, -, hstmt⟩ := walkFrom_line optab s.len l hl
  rw [hstmt]
  exact (next_size hpos optab l.off).2.1

/-- No statement begins within another. -/
theorem walkSection_apart {l x : Line} (hl : l ∈ s.walkSection optab) (hx : x ∈ s.walkSection optab) :
    ¬ (l.off < x.off ∧ x.off < l.off + l.stmt.size) := by
  obtain ⟨hi, htile⟩ := walkFrom_chain optab hpos s.len 0
  exact htile.start_notMem hl hx

theorem walkSection_off_nodup : ((s.walkSection optab).map Line.off).Nodup := by
  obtain ⟨hi, htile⟩ := walkFrom_chain optab hpos s.len 0
  exact htile.nodup

theorem walkSection_boundary {p : ℕ} (hb : Boundary s p) (hfree : Free s p) (hp : p < s.len) :
    ∃ l ∈ s.walkSection optab, l.off = p :=
  walkFrom_boundary hpos hb hfree hp (Nat.zero_le p) (Nat.sub_le _ _)

end Section

/-- An address constant is written for the first item of its offset. -/
theorem walkSection_addr {s : Sect} {optab : List Opc} {l : Line} {c : AddrCon} (hl : l ∈ s.walkSection optab)
    (hc : l.stmt = .dcAddr c) : s.cov l.off = true ∧ ∃ r, s.rldAt l.off = some r ∧ s.adcon l.off r = .dcAddr c := by
  obtain ⟨-, -, hstmt⟩ := walkFrom_line optab s.len l hl
  rw [hc] at hstmt
  rcases next_cases (s := s) optab l.off with ⟨hcov, r, hr, hnext⟩ | ⟨-, -, -, -, haddr, -⟩
  · rw [hnext] at hstmt
    exact ⟨hcov, r, hr, hstmt.symm⟩
  · rw [← hstmt] at haddr
    exact absurd haddr (by simp [Stmt.isAddr])

end Cc370.Dasm370
