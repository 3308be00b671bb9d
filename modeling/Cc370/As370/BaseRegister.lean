import Mathlib.Data.List.MinMax
import Cc370.As370.UsingsLog

/-! The base register and the displacement of an operand. -/

namespace Cc370.As370

open KeyedLog

namespace Uent

def disp (u : Uent) (val : ℤ) : ℤ := val - u.base

/-- The address lies in the domain. -/
def Covers (u : Uent) (val : ℤ) : Prop := 0 ≤ u.disp val ∧ u.disp val < 4096

instance decidableCovers (u : Uent) (val : ℤ) : Decidable (u.Covers val) := inferInstanceAs (Decidable (_ ∧ _))

end Uent

/-- A smaller displacement goes first; between equal ones `wins` decides. -/
def Closer (wins : Uent → Uent → Bool) (val : ℤ) (u best : Uent) : Prop :=
  u.disp val < best.disp val ∨ u.disp val = best.disp val ∧ wins u best = true

instance decidableCloser (wins : Uent → Uent → Bool) (val : ℤ) (u best : Uent) : Decidable (Closer wins val u best) :=
  inferInstanceAs (Decidable (_ ∨ _))

def leastUsing (p : Uent → Bool) (wins : Uent → Uent → Bool) (val : ℤ) (t : List Uent) : Option Uent :=
  t.foldl (fun best u =>
    if p u = true ∧ u.Covers val then
      match best with
      | none => some u
      | some b => if Closer wins val u b then some u else some b
    else best) none

/-- The table holds the highest register of a tie. -/
def higherReg (u b : Uent) : Bool := decide (b.reg < u.reg)

@[ext]
structure BaseDisp where
  addrok : Bool
  reg : Fin 16
  disp : ℤ
deriving DecidableEq

theorem register_zero : 0 < 16 := by decide

def usingFor (t : List Uent) (val : ℤ) (sect : ℕ) : BaseDisp :=
  match leastUsing (fun u => decide (u.sect = sect)) higherReg val t with
  | some u => ⟨true, u.reg, u.disp val⟩
  | none =>
    match leastUsing (fun _ => true) (fun _ _ => false) val t with
    | some u => ⟨false, u.reg, u.disp val⟩
    | none => ⟨false, ⟨0, register_zero⟩, val⟩

def usingForAbs (t : List Uent) (val : ℤ) : Fin 16 × ℤ :=
  match leastUsing Uent.isabs higherReg val t with
  | some u => (u.reg, u.disp val)
  | none => (⟨0, register_zero⟩, val)

def usingBaseOf (t : List Uent) (reg : Fin 16) : ℤ :=
  match t.find? fun u => u.reg = reg with
  | some u => u.base
  | none => 0

example : usingFor [⟨3, 0, 1, false⟩, ⟨5, 0, 1, false⟩, ⟨4, 0, 1, false⟩] 8 1 = ⟨true, 5, 8⟩ := by decide

/-- The halfword of an S-type constant whose value is an expression, and whether IFO209 is noted. -/
def sconHalfword (t : List Uent) (reloc : Bool) (val : ℤ) (sect : ℕ) : ℤ × Bool :=
  if reloc then
    let b := usingFor t val sect
    if b.addrok then (b.reg * 4096 + b.disp % 4096, false) else (0, true)
  else
    let b := usingForAbs t val
    (b.1 * 4096 + b.2 % 4096, false)

section Least

variable {κ : Type*} [LinearOrder κ] {key : Uent → κ} {p : Uent → Bool} {wins : Uent → Uent → Bool} {val : ℤ} {t : List Uent} {u v : Uent}

/-- The scan keeps the first entry of least key among those it looks at. -/
theorem leastUsing_eq (h : ∀ u b, Closer wins val u b ↔ key u < key b) (p : Uent → Bool) (t : List Uent) :
    leastUsing p wins val t = (t.filter fun u => p u = true ∧ u.Covers val).argmin key := by
  rw [leastUsing, List.argmin, List.foldl_filter]
  apply List.foldl_ext
  intro best u _
  by_cases hu : p u = true ∧ u.Covers val
  · rw [if_pos hu, if_pos (decide_eq_true hu)]
    cases best with
    | none => rfl
    | some b => exact if_congr (h u b) rfl rfl
  · rw [if_neg hu, if_neg (by simpa using hu)]

theorem leastUsing_none (h : ∀ u b, Closer wins val u b ↔ key u < key b) (hnone : leastUsing p wins val t = none) (hu : u ∈ t) (hp : p u = true) :
    ¬ u.Covers val := by
  rw [leastUsing_eq h, List.argmin_eq_none, List.filter_eq_nil_iff] at hnone
  have hno := hnone u hu
  intro hc
  exact hno (decide_eq_true ⟨hp, hc⟩)

theorem leastUsing_some (h : ∀ u b, Closer wins val u b ↔ key u < key b) (hsome : leastUsing p wins val t = some u) :
    (u ∈ t ∧ p u = true ∧ u.Covers val) ∧ ∀ v ∈ t, p v = true → v.Covers val → key u ≤ key v := by
  rw [leastUsing_eq h] at hsome
  constructor
  · have hmem := List.argmin_mem (Option.mem_def.mpr hsome)
    simpa using hmem
  · intro v hv hp hc
    apply List.le_of_mem_argmin _ (Option.mem_def.mpr hsome)
    exact List.mem_filter.mpr ⟨hv, decide_eq_true ⟨hp, hc⟩⟩

theorem closer_higherReg (val : ℤ) (u b : Uent) :
    Closer higherReg val u b ↔ toLex (u.disp val, OrderDual.toDual u.reg) < toLex (b.disp val, OrderDual.toDual b.reg) := by
  rw [Prod.Lex.toLex_lt_toLex, Closer, higherReg, decide_eq_true_eq]
  rfl

theorem closer_disp (val : ℤ) (u b : Uent) : Closer (fun _ _ => false) val u b ↔ u.disp val < b.disp val := by
  rw [Closer]
  simp

end Least

section Replayed

variable {f : Fin 16 → Option Uent} {p : Uent → Bool} {val : ℤ} {t : List Uent} {r r' : Fin 16} {d d' : ℤ}

/-- Among the domains of the log that cover the address the one of least displacement, and of these the one of the
    highest register. -/
structure Chosen (f : Fin 16 → Option Uent) (p : Uent → Bool) (val : ℤ) (r : Fin 16) (d : ℤ) : Prop where
  domain : ∃ u, f r = some u ∧ p u = true ∧ u.Covers val ∧ d = u.disp val
  least : ∀ q v, f q = some v → p v = true → v.Covers val → d < v.disp val ∨ d = v.disp val ∧ q ≤ r

/-- The log leaves no choice. -/
theorem Chosen.unique (h : Chosen f p val r d) (h' : Chosen f p val r' d') : r = r' ∧ d = d' := by
  obtain ⟨u, hu, hp, hc, rfl⟩ := h.domain
  obtain ⟨v, hv, hp', hc', rfl⟩ := h'.domain
  have huv := h.least r' v hv hp' hc'
  have hvu := h'.least r u hu hp hc
  omega

theorem chosen_least (h : Shows Uent.reg f t) {u : Uent} (hu : leastUsing p higherReg val t = some u) : Chosen f p val u.reg (u.disp val) := by
  obtain ⟨⟨hmem, hp, hc⟩, hleast⟩ := leastUsing_some (closer_higherReg val) hu
  refine ⟨⟨u, (h.mem _ _).mpr ⟨hmem, rfl⟩, hp, hc, rfl⟩, ?_⟩
  intro q v hv hpv hcv
  obtain ⟨hvt, rfl⟩ := (h.mem _ _).mp hv
  exact Prod.Lex.toLex_le_toLex.mp (hleast v hvt hpv hcv)

theorem usingBaseOf_shows (h : Shows Uent.reg f t) (r : Fin 16) : usingBaseOf t r = (f r).elim 0 Uent.base := by
  rw [usingBaseOf]
  cases hfind : t.find? fun u => u.reg = r with
  | none =>
    have hnone : f r = none := h.eq_none fun u hu => by simpa using List.find?_eq_none.mp hfind u hu
    rw [hnone]
    rfl
  | some u =>
    have hreg : u.reg = r := by simpa using List.find?_some hfind
    have hsome : f r = some u := (h.mem _ _).mpr ⟨List.mem_of_find?_eq_some hfind, hreg⟩
    rw [hsome]
    rfl

theorem usingForAbs_shows (h : Shows Uent.reg f t) (val : ℤ) :
    Chosen f Uent.isabs val (usingForAbs t val).1 (usingForAbs t val).2 ∨
      (∀ q v, f q = some v → v.isabs = true → ¬ v.Covers val) ∧ usingForAbs t val = (0, val) := by
  rw [usingForAbs]
  cases habs : leastUsing Uent.isabs higherReg val t with
  | some u => exact .inl (chosen_least h habs)
  | none =>
    refine .inr ⟨?_, rfl⟩
    intro q v hv hp
    exact leastUsing_none (closer_higherReg val) habs ((h.mem _ _).mp hv).1 hp

theorem Chosen.base (h : Chosen f p val r d) : (f r).elim 0 Uent.base + d = val ∧ 0 ≤ d ∧ d < 4096 := by
  obtain ⟨u, hu, -, ⟨hlow, hhigh⟩, rfl⟩ := h.domain
  refine ⟨?_, hlow, hhigh⟩
  rw [hu]
  exact add_sub_cancel u.base val

/-- How an operand is addressed, from the domains of the log. -/
structure Addressed (f : Fin 16 → Option Uent) (t : List Uent) (val : ℤ) (sect : ℕ) : Prop where
  addrok : (usingFor t val sect).addrok = true ↔ ∃ q v, f q = some v ∧ v.sect = sect ∧ v.Covers val
  chosen : (usingFor t val sect).addrok = true →
    Chosen f (fun u => decide (u.sect = sect)) val (usingFor t val sect).reg (usingFor t val sect).disp
  listed : (usingFor t val sect).addrok = true → usingBaseOf t (usingFor t val sect).reg + (usingFor t val sect).disp = val
  fallback : (usingFor t val sect).addrok = false →
    (∃ u, f (usingFor t val sect).reg = some u ∧ u.sect ≠ sect ∧ u.Covers val ∧ (usingFor t val sect).disp = u.disp val ∧
      ∀ q v, f q = some v → v.Covers val → (usingFor t val sect).disp ≤ v.disp val) ∨
    (∀ q v, f q = some v → ¬ v.Covers val) ∧ (usingFor t val sect).reg = 0 ∧ (usingFor t val sect).disp = val
  absolute : Chosen f Uent.isabs val (usingForAbs t val).1 (usingForAbs t val).2 ∨
    (∀ q v, f q = some v → v.isabs = true → ¬ v.Covers val) ∧ usingForAbs t val = (0, val)
  scon : ∀ r d, Chosen f (fun u => decide (u.sect = sect)) val r d → sconHalfword t true val sect = ((r : ℤ) * 4096 + d, false)

theorem addressed_own (h : Shows Uent.reg f t) (val : ℤ) (sect : ℕ) {u : Uent}
    (hown : leastUsing (fun u => decide (u.sect = sect)) higherReg val t = some u) : Addressed f t val sect := by
  obtain ⟨⟨hmem, hp, hc⟩, -⟩ := leastUsing_some (closer_higherReg val) hown
  have hfor : usingFor t val sect = ⟨true, u.reg, u.disp val⟩ := by rw [usingFor, hown]
  have hchosen := chosen_least h hown
  refine ⟨?_, ?_, ?_, ?_, usingForAbs_shows h val, ?_⟩
  · rw [hfor]
    exact iff_of_true rfl ⟨u.reg, u, (h.mem _ _).mpr ⟨hmem, rfl⟩, of_decide_eq_true hp, hc⟩
  · rw [hfor]
    exact fun _ => hchosen
  · rw [hfor, usingBaseOf_shows h]
    exact fun _ => hchosen.base.1
  · rw [hfor]
    simp
  · intro r d hrd
    obtain ⟨rfl, rfl⟩ := hchosen.unique hrd
    rw [sconHalfword, if_pos rfl, hfor]
    dsimp only
    rw [if_pos rfl, Int.emod_eq_of_lt hc.1 hc.2]

theorem addressed_none (h : Shows Uent.reg f t) (val : ℤ) (sect : ℕ)
    (hown : leastUsing (fun u => decide (u.sect = sect)) higherReg val t = none) : Addressed f t val sect := by
  have hno (q : Fin 16) (v : Uent) (hv : f q = some v) (hs : v.sect = sect) : ¬ v.Covers val :=
    leastUsing_none (closer_higherReg val) hown ((h.mem _ _).mp hv).1 (decide_eq_true hs)
  have hfalse : (usingFor t val sect).addrok = false := by
    rw [usingFor, hown]
    dsimp only
    split <;> rfl
  refine ⟨?_, ?_, ?_, ?_, usingForAbs_shows h val, ?_⟩
  · rw [hfalse]
    refine iff_of_false Bool.false_ne_true ?_
    rintro ⟨q, v, hv, hs, hc⟩
    exact hno q v hv hs hc
  · rw [hfalse]
    simp
  · rw [hfalse]
    simp
  · intro _
    rw [usingFor, hown]
    dsimp only
    cases hany : leastUsing (fun _ => true) (fun _ _ => false) val t with
    | some u =>
      obtain ⟨⟨hmem, -, hc⟩, hleast⟩ := leastUsing_some (closer_disp val) hany
      have hu : f u.reg = some u := (h.mem _ _).mpr ⟨hmem, rfl⟩
      refine .inl ⟨u, hu, fun hs => hno _ u hu hs hc, hc, rfl, ?_⟩
      intro q v hv hcv
      exact hleast v ((h.mem _ _).mp hv).1 rfl hcv
    | none =>
      refine .inr ⟨?_, rfl, rfl⟩
      intro q v hv
      exact leastUsing_none (closer_disp val) hany ((h.mem _ _).mp hv).1 rfl
  · intro r d hrd
    obtain ⟨u, hu, hs, hc, -⟩ := hrd.domain
    exact absurd hc (hno r u hu (of_decide_eq_true hs))

theorem addressed (h : Shows Uent.reg f t) (val : ℤ) (sect : ℕ) : Addressed f t val sect := by
  cases hown : leastUsing (fun u => decide (u.sect = sect)) higherReg val t with
  | some u => exact addressed_own h val sect hown
  | none => exact addressed_none h val sect hown

/-- Tables of the same domains, in whatever order, address alike all that they address. -/
theorem Addressed.agree {t' : List Uent} {sect : ℕ} (h : Addressed f t val sect) (h' : Addressed f t' val sect) :
    (usingFor t val sect).addrok = (usingFor t' val sect).addrok ∧
      ((usingFor t val sect).addrok = true → usingFor t val sect = usingFor t' val sect) ∧ usingForAbs t val = usingForAbs t' val := by
  have hok : (usingFor t val sect).addrok = (usingFor t' val sect).addrok := by
    rw [Bool.eq_iff_iff, h.addrok, h'.addrok]
  refine ⟨hok, ?_, ?_⟩
  · intro hyes
    obtain ⟨hreg, hdisp⟩ := (h.chosen hyes).unique (h'.chosen (hok ▸ hyes))
    exact BaseDisp.ext hok hreg hdisp
  · rcases h.absolute with hc | ⟨hno, hzero⟩
    · rcases h'.absolute with hc' | ⟨hno', -⟩
      · exact Prod.ext (hc.unique hc').1 (hc.unique hc').2
      · obtain ⟨u, hu, hp, hcov, -⟩ := hc.domain
        exact absurd hcov (hno' _ u hu hp)
    · rcases h'.absolute with hc' | ⟨-, hzero'⟩
      · obtain ⟨u, hu, hp, hcov, -⟩ := hc'.domain
        exact absurd hcov (hno _ u hu hp)
      · exact hzero.trans hzero'.symm

end Replayed

/-- After any statements the log of USINGs says how every operand is addressed, and nothing but the domains that it
    leaves active makes a difference. -/
theorem bases_replayed (stmts stmts' : List UseStmt) (val : ℤ) (sect : ℕ) :
    Addressed (replayUevs (UseState.start.run stmts).uevs) (UseState.start.run stmts).usings val sect ∧
    (replayUevs (UseState.start.run stmts).uevs = replayUevs (UseState.start.run stmts').uevs →
      (usingFor (UseState.start.run stmts).usings val sect).addrok = (usingFor (UseState.start.run stmts').usings val sect).addrok ∧
      ((usingFor (UseState.start.run stmts).usings val sect).addrok = true →
        usingFor (UseState.start.run stmts).usings val sect = usingFor (UseState.start.run stmts').usings val sect) ∧
      usingForAbs (UseState.start.run stmts).usings val = usingForAbs (UseState.start.run stmts').usings val) := by
  have h := addressed (Faithful.start.run stmts).shows val sect
  refine ⟨h, ?_⟩
  intro hsame
  have h' := addressed (Faithful.start.run stmts').shows val sect
  rw [← hsame] at h'
  exact h.agree h'

end Cc370.As370
