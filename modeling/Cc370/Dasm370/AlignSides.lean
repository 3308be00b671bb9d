import Cc370.Dasm370.AlignRun
import Cc370.Dasm370.Boundaries

namespace Cc370.Dasm370

open Obj370 Tiles

/-- What `load_section` sees to. -/
structure Loaded (s : Sect) : Prop where
  short : s.len ≤ maxSectBytes
  pos : ∀ r ∈ s.rld, 0 < r.len

theorem loaded_of_loadSection {deck : List Buffer} {want : Option (List Char)} {s : Sect}
    (h : loadSection deck want = some s) : Loaded s := by
  constructor
  · rw [loadSection] at h
    obtain ⟨first, -, h⟩ := Option.bind_eq_some_iff.mp h
    obtain ⟨e, -, h⟩ := Option.bind_eq_some_iff.mp h
    split_ifs at h with hfirst
    obtain rfl := Option.some.inj h
    exact not_lt.mp fun hlt => hfirst (.inr hlt)
  · intro r hr
    rw [loadSection_rld h] at hr
    obtain ⟨it, -, rfl⟩ := List.mem_map.mp (List.mem_of_mem_take hr)
    exact rld_len_pos it

section Collected

variable (s : Sect) (optab : List Opc)

/-- A statement as it is collected. -/
def Raw (x : Astmt) : Prop :=
  x.pos < s.len ∧
    match x.kind with
    | .insn => ∃ o, findOp optab (s.img x.pos) (s.img (x.pos + 1)) = some o ∧ x.pos + x.len ≤ s.len ∧
        x = s.collectInsn x.pos o (insLenOf o.fmt)
    | .adcon => ∃ r, s.rldAt x.pos = some r ∧ x = s.collectAdcon x.pos r
    | .data => x.pos + x.len ≤ s.len ∧ x = Sect.collectData x.pos x.len

/-- A statement of the finished list, with runs of data for data. -/
def Finished (x : Astmt) : Prop :=
  if x.kind = .data then
    x.pos < s.len ∧ x.pos + x.len ≤ s.len ∧ x = s.finishRun (Sect.collectData x.pos x.len)
  else Raw s optab x

variable {s optab} {a : ℕ}

theorem insnAt_spec {n : ℕ} {t : Stmt} (h : s.insnAt optab a = some (n, t)) :
    ∃ o opnd, t = .insn o opnd ∧ n = insLenOf o.fmt ∧ findOp optab (s.img a) (s.img (a + 1)) = some o ∧
      a + n ≤ s.len := by
  rw [Sect.insnAt] at h
  split_ifs at h with heven
  cases hop : findOp optab (s.img a) (s.img (a + 1)) with
  | none => exact absurd h (by simp [hop])
  | some o =>
    simp only [hop] at h
    cases hopnd : operands o (fun i => s.img (a + i)) with
    | none => exact absurd h (by simp [hopnd])
    | some opnd =>
      simp only [hopnd] at h
      split_ifs at h with hall
      obtain ⟨rfl, rfl⟩ := Prod.mk.inj (Option.some.inj h)
      exact ⟨o, opnd, rfl, rfl, rfl, hall.1⟩

theorem extend_inside {ok : ℕ → Bool} {fuel : ℕ} (ha : a < s.len) (hok : ∀ n, ok n = true → a + n < s.len) :
    a + Sect.extend ok fuel 1 ≤ s.len := by
  by_contra hgt
  have hone : 1 ≤ Sect.extend ok fuel 1 := le_extend
  by_cases hbig : Sect.extend ok fuel 1 = 1
  · omega
  · have hlt : Sect.extend ok fuel 1 - 1 < Sect.extend ok fuel 1 := by omega
    have hlast := hok _ (ok_of_lt_extend (by omega) hlt)
    omega

theorem collectAt_spec (ha : a < s.len) (hc : s.cov a = true) :
    Raw s optab (s.collectAt optab a) ∧ (s.collectAt optab a).pos = a ∧
      (s.collectAt optab a).len = (s.next optab a).1 := by
  rw [Sect.collectAt, if_pos hc, Sect.next, if_neg (by rw [hc]; simp)]
  cases hr : s.rldAt a with
  | some r => exact ⟨⟨ha, r, hr, rfl⟩, rfl, rfl⟩
  | none =>
    cases hi : s.insnAt optab a with
    | some q =>
      obtain ⟨n, t⟩ := q
      obtain ⟨o, opnd, rfl, rfl, hop, hle⟩ := insnAt_spec hi
      exact ⟨⟨ha, o, hop, hle, rfl⟩, rfl, rfl⟩
    | none =>
      dsimp only
      have hle : a + Sect.extend (fun n => a + n < s.len ∧ s.cov (a + n) ∧ !s.lab (a + n) ∧ s.rldAt (a + n) = none) 15 1
          ≤ s.len := extend_inside ha fun n hn => (of_decide_eq_true hn).1
      exact ⟨⟨ha, hle, rfl⟩, rfl, rfl⟩

/-- The collected statements stand one behind the other up to the end of the section. -/
theorem walkFrom_collected (hs : ∀ r ∈ s.rld, 0 < r.len) (hc : ∀ a < s.len, s.cov a = true) (fuel : ℕ)
    (hfuel : s.len - a ≤ fuel) :
    ∃ hi, s.len ≤ hi ∧
      Tile Astmt.pos Astmt.len a hi ((s.walkFrom optab fuel a).map fun l => s.collectAt optab l.off) ∧
      ∀ x ∈ (s.walkFrom optab fuel a).map fun l => s.collectAt optab l.off, Raw s optab x := by
  induction fuel generalizing a with
  | zero => exact ⟨a, by omega, rfl, nofun⟩
  | succ fuel ih =>
    rw [walkFrom_succ]
    split_ifs with ha
    · obtain ⟨-, -, hn⟩ := next_size hs optab a
      obtain ⟨hraw, hpos, hlen⟩ := @collectAt_spec s optab a ha (hc a ha)
      obtain ⟨hi, hle, htile, hall⟩ := ih (a := a + (s.next optab a).1) (by omega)
      refine ⟨hi, hle, ⟨hpos, hlen ▸ hn, hlen ▸ htile⟩, ?_⟩
      intro x hx
      rcases List.mem_cons.mp hx with rfl | hx
      · exact hraw
      · exact hall x hx
    · exact ⟨a, by omega, rfl, nofun⟩

theorem finished_run (hpos : a < s.len) {n : ℕ} (hn : a + n ≤ s.len) :
    Finished s optab (s.finishRun (Sect.collectData a n)) := by
  have hkind : (s.finishRun (Sect.collectData a n)).kind = .data := rfl
  rw [Finished, if_pos hkind]
  exact ⟨hpos, hn, rfl⟩

/-- Coalescing keeps the statements one behind the other. -/
theorem coalesceData_spec {hi : ℕ} {xs : List Astmt} (hraw : ∀ x ∈ xs, Raw s optab x) :
    (∀ lo, Tile Astmt.pos Astmt.len lo hi xs →
      Tile Astmt.pos Astmt.len lo hi (s.coalesceData none xs) ∧ ∀ y ∈ s.coalesceData none xs, Finished s optab y) ∧
    ∀ lo n, lo < s.len → 0 < n → lo + n ≤ s.len → Tile Astmt.pos Astmt.len (lo + n) hi xs →
      Tile Astmt.pos Astmt.len lo hi (s.coalesceData (some (Sect.collectData lo n)) xs) ∧
        ∀ y ∈ s.coalesceData (some (Sect.collectData lo n)) xs, Finished s optab y := by
  induction xs with
  | nil =>
    refine ⟨fun lo h => ⟨h, nofun⟩, fun lo n hlo hn hle h => ⟨⟨rfl, hn, h⟩, ?_⟩⟩
    intro y hy
    rw [List.mem_singleton.mp hy]
    exact finished_run hlo hle
  | cons x xs ih =>
    obtain ⟨hnone, hsome⟩ := ih fun y hy => hraw y (List.mem_cons_of_mem x hy)
    have hx := hraw x List.mem_cons_self
    constructor
    · rintro lo ⟨rfl, hlen, htile⟩
      rw [Sect.coalesceData]
      by_cases hk : x.kind = .data
      · rw [if_pos hk]
        obtain ⟨hpos, hx⟩ := hx
        rw [hk] at hx
        have hnext := hsome x.pos x.len hpos hlen hx.1 htile
        rwa [← hx.2] at hnext
      · rw [if_neg hk]
        obtain ⟨ht, hall⟩ := hnone _ htile
        refine ⟨⟨rfl, hlen, ht⟩, ?_⟩
        intro y hy
        rcases List.mem_cons.mp hy with rfl | hy
        · rw [Finished, if_neg hk]
          exact hx
        · exact hall y hy
    · rintro lo n hlo hn hle ⟨hxpos, hlen, htile⟩
      rw [Sect.coalesceData]
      by_cases hk : x.kind = .data
      · have hjoin : x.kind = .data ∧ x.pos = (Sect.collectData lo n).pos + (Sect.collectData lo n).len := ⟨hk, hxpos⟩
        rw [if_pos hjoin]
        obtain ⟨hpos, hx⟩ := hx
        rw [hk] at hx
        have hxle := hx.1
        rw [hxpos] at hxle
        rw [Nat.add_assoc] at htile hxle
        exact hsome lo (n + x.len) hlo (by omega) hxle htile
      · have hpart : ¬ (x.kind = .data ∧ x.pos = (Sect.collectData lo n).pos + (Sect.collectData lo n).len) :=
          fun h => hk h.1
        rw [if_neg hpart, if_neg hk]
        obtain ⟨ht, hall⟩ := hnone _ htile
        refine ⟨⟨rfl, hn, hxpos, hlen, ht⟩, ?_⟩
        intro y hy
        rcases List.mem_cons.mp hy with rfl | hy
        · exact finished_run hlo hle
        rcases List.mem_cons.mp hy with rfl | hy
        · rw [Finished, if_neg hk]
          exact hx
        · exact hall y hy

end Collected

section Bytes

theorem high_nibble (b : UInt8) : (b &&& 0xF0).toNat = b.toNat / 16 * 16 := by
  have hall : ∀ n < 256, n &&& 0xF0 = n / 16 * 16 := by decide +kernel
  rw [UInt8.toNat_and]
  exact hall b.toNat b.toNat_lt

theorem eq_of_nibbles {b c : UInt8} (hhigh : b &&& 0xF0 = c &&& 0xF0) (hlow : b.toNat % 16 = c.toNat % 16) : b = c := by
  have hh := congrArg UInt8.toNat hhigh
  rw [high_nibble, high_nibble] at hh
  apply UInt8.toNat_inj.mp
  omega

theorem eq_of_dispAt {b c : ℕ → UInt8} {i : ℕ} (hhigh : b i &&& 0xF0 = c i &&& 0xF0) (hd : dispAt b i = dispAt c i) :
    b i = c i ∧ b (i + 1) = c (i + 1) := by
  have hb := (b (i + 1)).toNat_lt
  have hc := (c (i + 1)).toNat_lt
  rw [dispAt, dispAt] at hd
  refine ⟨eq_of_nibbles hhigh (by omega), UInt8.toNat_inj.mp (by omega)⟩

end Bytes

section Load

variable {s : Sect} {optab : List Opc}

/-- The statements of a side cover the section, and each of them is one of its runs, instructions or
address constants. -/
theorem alignLoad_spec (h : Loaded s) :
    ∃ hi, s.len ≤ hi ∧ Tile Astmt.pos Astmt.len 0 hi (alignLoad optab s).stmts ∧
      ∀ x ∈ (alignLoad optab s).stmts, Finished s.filled optab x := by
  have hcov : ∀ a < s.filled.len, s.filled.cov a = true := fun a ha => decide_eq_true (.inl ha)
  obtain ⟨hi, hle, htile, hraw⟩ :=
    @walkFrom_collected s.filled optab 0 h.pos hcov s.len (Nat.sub_le _ _)
  obtain ⟨hnone, -⟩ := coalesceData_spec hraw
  exact ⟨hi, hle, hnone 0 htile⟩

end Load

end Cc370.Dasm370
