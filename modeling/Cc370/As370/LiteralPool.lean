import Cc370.Lib.Buckets
import Cc370.Lib.Tiles
import Mathlib.Algebra.BigOperators.Group.List.Basic
import Mathlib.Algebra.Order.Ring.Nat
import Mathlib.Logic.Function.Basic
import Mathlib.Tactic.IntervalCases

/-! Literals: how long they are, and where a pool places them. -/

namespace Cc370.As370

open Buckets Tiles

/-- A literal as its text is taken apart: duplication, type, length modifier, how many values, and the
bytes that those of a P, Z, B, X or C literal need. -/
structure LitForm where
  dup : ℕ
  ty : Char
  len : Option ℕ
  values : ℕ
  natural : ℕ
deriving DecidableEq

/-- The length of one value and its boundary if no length is given. -/
def LitForm.implied (f : LitForm) : ℕ × ℕ :=
  if f.ty = 'Y' ∨ f.ty = 'H' then (2, 2) else if f.ty = 'D' then (8, 8) else if f.ty = 'L' then (16, 8) else (4, 4)

/-- The size and the alignment of `lit_classify`. -/
def litClassify (f : LitForm) : ℕ × ℕ :=
  let (size, algn) :=
    if f.ty ∈ ['A', 'V', 'Y', 'Q', 'F', 'H'] then
      (f.len.getD f.implied.1 * max f.values 1, if f.len.isSome then 1 else f.implied.2)
    else if f.ty ∈ ['E', 'D', 'L'] then (f.len.getD f.implied.1, if f.len.isSome then 1 else f.implied.2)
    else if f.ty ∈ ['P', 'Z', 'B'] then (f.natural, 1)
    else if f.ty ∈ ['X', 'C'] then (f.len.getD f.natural, 1)
    else (4, 4)
  (max size 1 * max f.dup 1, algn)

/-- The boundary that a length implies; it is the segment of the pool. -/
def lenalgn (len : ℕ) : ℕ := if len % 8 = 0 then 8 else if len % 4 = 0 then 4 else if len % 2 = 0 then 2 else 1

structure Lit where
  text : List Char
  ltseq : ℕ
  size : ℕ
  algn : ℕ
  loc : ℕ
  placed : Bool
deriving DecidableEq

/-- The literal table and the number of the pool that is open. -/
structure LitTable where
  lits : ℕ → Lit
  nlit : ℕ
  litpool : ℕ

def maxlit : ℕ := 65536

def poolMax : ℕ := 4096

def align8 (x : ℕ) : ℕ := (x + 7) / 8 * 8

def roundTo (p a : ℕ) : ℕ := (p + a - 1) / a * a

section Pools

variable (form : List Char → LitForm)

def LitTable.empty : LitTable := ⟨fun _ => ⟨[], 0, 0, 0, 0, false⟩, 0, 0⟩

/-- Another literal is entered. -/
def LitTable.enter (st : LitTable) (l : Lit) : LitTable := { st with lits := Function.update st.lits st.nlit l, nlit := st.nlit + 1 }

/-- `lit_get`: the literal of the open pool with a text, which is entered if need be; `none` is a full table. -/
def litGet (t : List Char) (st : LitTable) : Option (ℕ × LitTable) :=
  match (List.range st.nlit).find? fun i => (st.lits i).ltseq = st.litpool ∧ (st.lits i).text = t with
  | some i => some (i, st)
  | none =>
    if maxlit ≤ st.nlit then none
    else some (st.nlit, st.enter ⟨t, st.litpool, (litClassify (form t)).1, (litClassify (form t)).2, 0, false⟩)

def segment (lits : ℕ → Lit) (k : ℕ) : ℕ := lenalgn (lits k).size

/-- The literals of a pool that are not placed yet, as many as there is room for, by segments. -/
def poolGather (st : LitTable) (seq : ℕ) : List ℕ :=
  sortBack (segment st.lits) (((List.range st.nlit).filter fun k => (st.lits k).placed = false ∧ (st.lits k).ltseq = seq).take poolMax)

/-- The address past a gathered pool. -/
def poolExtent (lits : ℕ → Lit) (mem : List ℕ) (base : ℕ) : ℕ :=
  mem.foldl (fun p k => roundTo p (lits k).algn + (lits k).size) (align8 base)

/-- Where LTORG or END puts the literals, one after the other. -/
def placePool : List ℕ → ℕ → (ℕ → Lit) → (ℕ → Lit) × ℕ
  | [], lc, lits => (lits, lc)
  | k :: mem, lc, lits =>
    let loc := roundTo lc (lits k).algn
    placePool mem (loc + (lits k).size) (Function.update lits k { lits k with loc := loc, placed := true })

/-- LTORG or END, with the location counter at `lc`. -/
def flushPool (lc : ℕ) (st : LitTable) : LitTable :=
  { st with lits := (placePool (poolGather st st.litpool) (align8 lc) st.lits).1, litpool := st.litpool + 1 }

/-- What concerns literals: a reference, and a statement that closes the pool. -/
inductive LitStmt
  | ref (t : List Char)
  | flush (lc : ℕ)

def litStep (st : LitTable) : LitStmt → Option LitTable
  | .ref t => (litGet form t st).map Prod.snd
  | .flush lc => some (flushPool lc st)

def litRun (stmts : List LitStmt) : Option LitTable := stmts.foldlM (litStep form) .empty

end Pools

section Sizes

variable {f : LitForm} {a len : ℕ}

theorem lenalgn_dvd (len : ℕ) : lenalgn len ∣ len := by
  unfold lenalgn
  split
  · omega
  split
  · omega
  split
  · omega
  · exact one_dvd len

theorem lenalgn_mem (len : ℕ) : lenalgn len ∈ [8, 4, 2, 1] := by
  unfold lenalgn
  split_ifs <;> simp

/-- The boundaries divide one another. -/
theorem segments_dvd {c d : ℕ} (hc : c ∈ [8, 4, 2, 1]) (hd : d ∈ [8, 4, 2, 1]) (h : d ≤ c) : d ∣ c := by
  simp only [List.mem_cons, List.not_mem_nil, or_false] at hc hd
  obtain rfl | rfl | rfl | rfl := hc <;> obtain rfl | rfl | rfl | rfl := hd <;> omega

theorem dvd_lenalgn (ha : a ∈ [8, 4, 2, 1]) (h : a ∣ len) : a ∣ lenalgn len := by
  simp only [List.mem_cons, List.not_mem_nil, or_false] at ha
  unfold lenalgn
  obtain rfl | rfl | rfl | rfl := ha
  all_goals split_ifs <;> omega

/-- A literal asks for no more of a boundary than its length implies. -/
theorem litClassify_aligned (f : LitForm) : (litClassify f).2 ∈ [8, 4, 2, 1] ∧ (litClassify f).2 ∣ (litClassify f).1 ∧ 0 < (litClassify f).1 := by
  have hmul {s a : ℕ} (ha : a ∈ [8, 4, 2, 1]) (h : a ∣ s ∧ 0 < s ∨ a = 1) :
      a ∈ [8, 4, 2, 1] ∧ a ∣ max s 1 * max f.dup 1 ∧ 0 < max s 1 * max f.dup 1 := by
    refine ⟨ha, ?_, Nat.mul_pos (by omega) (by omega)⟩
    obtain ⟨hs, hpos⟩ | rfl := h
    · rw [max_eq_left hpos]
      exact hs.mul_right _
    · exact one_dvd _
  have himplied : f.implied.2 ∈ [8, 4, 2, 1] ∧ f.implied.2 ∣ f.implied.1 ∧ 0 < f.implied.1 := by
    unfold LitForm.implied
    split_ifs <;> simp
  unfold litClassify
  split_ifs with hlist hlen hlist hlen
  · exact hmul (by simp) (.inr rfl)
  · rw [Option.not_isSome_iff_eq_none] at hlen
    refine hmul himplied.1 (.inl ⟨?_, ?_⟩)
    · rw [hlen, Option.getD_none]
      exact himplied.2.1.mul_right _
    · rw [hlen, Option.getD_none]
      exact Nat.mul_pos himplied.2.2 (by omega)
  · exact hmul (by simp) (.inr rfl)
  · rw [Option.not_isSome_iff_eq_none] at hlen
    refine hmul himplied.1 (.inl ?_)
    rw [hlen, Option.getD_none]
    exact himplied.2
  · exact hmul (by simp) (.inr rfl)
  · exact hmul (by simp) (.inr rfl)
  · exact hmul (by simp) (.inl ⟨dvd_rfl, by omega⟩)

end Sizes

section Placement

variable {lits : ℕ → Lit} {mem : List ℕ} {lc k p : ℕ}

/-- The literal has the shape that its classification gives it. -/
structure Shaped (l : Lit) : Prop where
  boundary : l.algn ∈ [8, 4, 2, 1]
  whole : l.algn ∣ l.size
  pos : 0 < l.size

theorem Shaped.algn_pos {l : Lit} (h : Shaped l) : 0 < l.algn := by
  have hb := h.boundary
  simp only [List.mem_cons, List.not_mem_nil, or_false] at hb
  omega

theorem roundTo_eq {a : ℕ} (ha : 0 < a) (h : a ∣ p) : roundTo p a = p := by
  obtain ⟨q, rfl⟩ := h
  have hdiv : (a * q + a - 1) / a = q := by
    rw [show a * q + a - 1 = a - 1 + a * q by omega, Nat.add_mul_div_left _ _ ha, Nat.div_eq_of_lt (by omega), Nat.zero_add]
  rw [roundTo, hdiv, Nat.mul_comm]

theorem align8_dvd (x : ℕ) : 8 ∣ align8 x := Dvd.intro_left _ rfl

/-- A literal changes only in its place. -/
def SameLit (l l' : Lit) : Prop := l'.text = l.text ∧ l'.ltseq = l.ltseq ∧ l'.size = l.size ∧ l'.algn = l.algn

theorem placePool_same (mem : List ℕ) : ∀ (lc : ℕ) (lits : ℕ → Lit), ∀ k, SameLit (lits k) ((placePool mem lc lits).1 k) ∧
    (k ∉ mem → (placePool mem lc lits).1 k = lits k) ∧ (k ∈ mem → ((placePool mem lc lits).1 k).placed = true) := by
  induction mem with
  | nil => exact fun _ _ _ => ⟨⟨rfl, rfl, rfl, rfl⟩, fun _ => rfl, fun h => absurd h List.not_mem_nil⟩
  | cons j mem ih =>
    intro lc lits k
    obtain ⟨hsame, hout, hin⟩ := ih (roundTo lc (lits j).algn + (lits j).size)
      (Function.update lits j { lits j with loc := roundTo lc (lits j).algn, placed := true }) k
    rw [placePool]
    by_cases hkj : k = j
    · subst hkj
      rw [Function.update_self] at hsame hout
      refine ⟨hsame, fun h => absurd List.mem_cons_self h, fun _ => ?_⟩
      by_cases hk : k ∈ mem
      · exact hin hk
      · rw [hout hk]
    · rw [Function.update_of_ne hkj] at hsame hout
      refine ⟨hsame, ?_, ?_⟩
      · exact fun h => hout fun hk => h (List.mem_cons_of_mem _ hk)
      · exact fun h => hin ((List.mem_cons.mp h).resolve_left hkj)

/-- Laid out by segments from a doubleword on, the literals stand one behind the other, each on its
boundary: no byte goes to padding. -/
theorem placePool_tile (mem : List ℕ) : ∀ (lc : ℕ) (lits : ℕ → Lit), mem.Nodup → (∀ k ∈ mem, Shaped (lits k)) →
    mem.Pairwise (fun j k => segment lits k ≤ segment lits j) → (∀ k ∈ mem, segment lits k ∣ lc) →
    Tile (fun k => ((placePool mem lc lits).1 k).loc) (fun k => (lits k).size) lc (lc + (mem.map fun k => (lits k).size).sum) mem ∧
      (placePool mem lc lits).2 = lc + (mem.map fun k => (lits k).size).sum ∧
      ∀ k ∈ mem, (lits k).algn ∣ ((placePool mem lc lits).1 k).loc := by
  induction mem with
  | nil => exact fun _ _ _ _ _ _ => ⟨rfl, rfl, fun _ h => absurd h List.not_mem_nil⟩
  | cons j mem ih =>
    intro lc lits hnodup hshape hsorted hdvd
    obtain ⟨hj, hnodup⟩ := List.nodup_cons.mp hnodup
    obtain ⟨hfirst, hsorted⟩ := List.pairwise_cons.mp hsorted
    have hsj := hshape j List.mem_cons_self
    have hjlc : (lits j).algn ∣ lc := (dvd_lenalgn hsj.boundary hsj.whole).trans (hdvd j List.mem_cons_self)
    have hround := roundTo_eq hsj.algn_pos hjlc
    have hne : ∀ k ∈ mem, k ≠ j := fun k hk he => hj (he ▸ hk)
    rw [placePool, hround, List.map_cons, List.sum_cons, ← add_assoc]
    generalize hlits : Function.update lits j { lits j with loc := lc, placed := true } = lits'
    have hother : ∀ k ∈ mem, lits' k = lits k := by
      intro k hk
      rw [← hlits, Function.update_of_ne (hne k hk)]
    have hseg : ∀ k ∈ mem, segment lits' k = segment lits k := fun k hk => by rw [segment, segment, hother k hk]
    have hsum : (mem.map fun k => (lits' k).size) = mem.map fun k => (lits k).size :=
      List.map_congr_left fun k hk => by rw [hother k hk]
    have hshape' : ∀ k ∈ mem, Shaped (lits' k) := by
      intro k hk
      rw [hother k hk]
      exact hshape k (List.mem_cons_of_mem _ hk)
    have hsorted' : mem.Pairwise fun j k => segment lits' k ≤ segment lits' j :=
      hsorted.imp_of_mem fun ha hb h => by rwa [hseg _ ha, hseg _ hb]
    have hdvd' : ∀ k ∈ mem, segment lits' k ∣ lc + (lits j).size := by
      intro k hk
      rw [hseg k hk]
      have hkj : segment lits k ∣ segment lits j := segments_dvd (lenalgn_mem _) (lenalgn_mem _) (hfirst k hk)
      exact Nat.dvd_add (hdvd k (List.mem_cons_of_mem _ hk)) (hkj.trans (lenalgn_dvd _))
    obtain ⟨htile, hend, halgn⟩ := ih (lc + (lits j).size) lits' hnodup hshape' hsorted' hdvd'
    have hloc : ((placePool mem (lc + (lits j).size) lits').1 j).loc = lc := by
      rw [(placePool_same mem _ lits' j).2.1 hj, ← hlits, Function.update_self]
    rw [hsum] at htile hend
    refine ⟨⟨hloc, hsj.pos, (tile_congr fun k hk => ⟨rfl, by rw [hother k hk]⟩).mp htile⟩, hend, ?_⟩
    intro k hk
    cases List.mem_cons.mp hk with
    | inl hkj =>
      subst hkj
      rw [hloc]
      exact hjlc
    | inr hk =>
      rw [← hother k hk]
      exact halgn k hk

/-- The extent that is reserved for a pool is the one that it takes. -/
theorem placePool_extent (mem : List ℕ) : ∀ {lc : ℕ} {lits : ℕ → Lit}, mem.Nodup →
    (placePool mem lc lits).2 = mem.foldl (fun p k => roundTo p (lits k).algn + (lits k).size) lc := by
  induction mem with
  | nil => exact fun _ => rfl
  | cons j mem ih =>
    intro lc lits hnodup
    obtain ⟨hj, hnodup⟩ := List.nodup_cons.mp hnodup
    rw [placePool, ih hnodup, List.foldl_cons]
    apply List.foldl_ext
    intro p k hk
    have hkj : k ≠ j := fun he => hj (he ▸ hk)
    rw [Function.update_of_ne hkj]

end Placement

/-- The statements, each with the number of the pool that is open there. -/
def litTrace : ℕ → List LitStmt → List (ℕ × LitStmt)
  | _, [] => []
  | p, .ref t :: stmts => (p, .ref t) :: litTrace p stmts
  | p, .flush lc :: stmts => (p, .flush lc) :: litTrace (p + 1) stmts

/-- How many pools the statements close. -/
def closedPools : List LitStmt → ℕ
  | [] => 0
  | .ref _ :: stmts => closedPools stmts
  | .flush _ :: stmts => closedPools stmts + 1

/-- The literals of a pool, as many as LTORG gathers, in the order of their first reference. -/
def LitTable.members (st : LitTable) (p : ℕ) : List ℕ := ((List.range st.nlit).filter fun k => (st.lits k).ltseq = p).take poolMax

section Runs

variable {form : List Char → LitForm} {stmts : List LitStmt} {st st' : LitTable} {p k lc : ℕ} {t : List Char}

theorem litTrace_append (stmts : List LitStmt) (x : LitStmt) : ∀ p, litTrace p (stmts ++ [x]) = litTrace p stmts ++ [(p + closedPools stmts, x)] := by
  induction stmts with
  | nil =>
    intro p
    cases x <;> rfl
  | cons y stmts ih =>
    intro p
    cases y with
    | ref t => rw [List.cons_append, litTrace, ih, litTrace, closedPools, List.cons_append]
    | flush lc => rw [List.cons_append, litTrace, ih, litTrace, closedPools, List.cons_append, add_assoc, add_comm 1]

theorem closedPools_append (stmts : List LitStmt) (x : LitStmt) : closedPools (stmts ++ [x]) = closedPools stmts + closedPools [x] := by
  induction stmts with
  | nil => rw [List.nil_append, closedPools, Nat.zero_add]
  | cons y stmts ih =>
    cases y with
    | ref t => rw [List.cons_append, closedPools, ih, closedPools]
    | flush lc => rw [List.cons_append, closedPools, ih, closedPools, Nat.add_right_comm]

theorem segments_sorted : [8, 4, 2, 1].Pairwise (· > ·) := by decide

/-- A pool that is closed: its literals tile the storage from a doubleword on, in the order of the
segments, and each stands on its boundary. -/
structure PoolAt (st : LitTable) (p lc : ℕ) : Prop where
  tiled : Tile (fun k => (st.lits k).loc) (fun k => (st.lits k).size) (align8 lc)
    (align8 lc + ((sortBack (segment st.lits) (st.members p)).map fun k => (st.lits k).size).sum) (sortBack (segment st.lits) (st.members p))
  placed : ∀ k ∈ st.members p, (st.lits k).placed = true ∧ (st.lits k).algn ∣ (st.lits k).loc

/-- What every statement keeps. -/
structure Pooled (form : List Char → LitForm) (stmts : List LitStmt) (st : LitTable) : Prop where
  open_ : st.litpool = closedPools stmts
  classified : ∀ k < st.nlit, ((st.lits k).size, (st.lits k).algn) = litClassify (form (st.lits k).text)
  seq_le : ∀ k < st.nlit, (st.lits k).ltseq ≤ st.litpool
  fresh : ∀ k < st.nlit, (st.lits k).ltseq = st.litpool → (st.lits k).placed = false
  distinct : ∀ j < st.nlit, ∀ k < st.nlit, (st.lits j).ltseq = (st.lits k).ltseq → (st.lits j).text = (st.lits k).text → j = k
  refs : ∀ p t, (p, LitStmt.ref t) ∈ litTrace 0 stmts → ∃ k < st.nlit, (st.lits k).text = t ∧ (st.lits k).ltseq = p
  pools : ∀ p lc, (p, LitStmt.flush lc) ∈ litTrace 0 stmts → p < st.litpool ∧ PoolAt st p lc

theorem Pooled.shaped (h : Pooled form stmts st) (hk : k < st.nlit) : Shaped (st.lits k) := by
  have hshape := litClassify_aligned (form (st.lits k).text)
  rw [← h.classified k hk] at hshape
  exact ⟨hshape.1, hshape.2.1, hshape.2.2⟩

theorem mem_members (hk : k ∈ st.members p) : k < st.nlit ∧ (st.lits k).ltseq = p := by
  have hk := List.mem_filter.mp (List.mem_of_mem_take hk)
  exact ⟨List.mem_range.mp hk.1, of_decide_eq_true hk.2⟩

theorem members_nodup (st : LitTable) (p : ℕ) : (st.members p).Nodup := (List.nodup_range.filter _).sublist (List.take_sublist _ _)

/-- A pool stays where it is as long as its literals do. -/
theorem PoolAt.keep (h : PoolAt st p lc) (hmem : st'.members p = st.members p) (hlits : ∀ k ∈ st.members p, st'.lits k = st.lits k) :
    PoolAt st' p lc := by
  have hsort : sortBack (segment st'.lits) (st'.members p) = sortBack (segment st.lits) (st.members p) := by
    rw [hmem]
    apply sortBack_congr segments_sorted (fun k _ => lenalgn_mem _)
    intro k hk
    exact congrArg (fun l => lenalgn (Lit.size l)) (hlits k hk)
  have hsame : ∀ k ∈ sortBack (segment st.lits) (st.members p), st'.lits k = st.lits k := fun k hk => hlits k ((sortBack_perm _ _).mem_iff.mp hk)
  refine ⟨?_, ?_⟩
  · rw [hsort, List.map_congr_left fun k hk => by rw [hsame k hk]]
    exact (tile_congr fun k hk => ⟨by rw [hsame k hk], by rw [hsame k hk]⟩).mp h.tiled
  · intro k hk
    rw [hmem] at hk
    rw [hlits k hk]
    exact h.placed k hk

theorem litGet_cases (h : litGet form t st = some (k, st')) : st' = st ∧ k < st.nlit ∧ (st.lits k).ltseq = st.litpool ∧ (st.lits k).text = t ∨
    k = st.nlit ∧ (∀ i < st.nlit, (st.lits i).ltseq = st.litpool → (st.lits i).text ≠ t) ∧
      st' = st.enter ⟨t, st.litpool, (litClassify (form t)).1, (litClassify (form t)).2, 0, false⟩ := by
  unfold litGet at h
  split at h
  · next i hi =>
    cases h
    have hp := List.find?_some hi
    simp only [decide_eq_true_eq] at hp
    exact .inl ⟨rfl, List.mem_range.mp (List.mem_of_find?_eq_some hi), hp.1, hp.2⟩
  · next hnone =>
    split at h
    · cases h
    · cases h
      refine .inr ⟨rfl, ?_, rfl⟩
      intro i hi hseq htext
      have hno := List.find?_eq_none.mp hnone i (List.mem_range.mpr hi)
      exact hno (decide_eq_true ⟨hseq, htext⟩)

theorem Pooled.ref (h : Pooled form stmts st) (hget : litGet form t st = some (k, st')) : Pooled form (stmts ++ [.ref t]) st' := by
  have htrace : litTrace 0 (stmts ++ [.ref t]) = litTrace 0 stmts ++ [(st.litpool, .ref t)] := by
    rw [litTrace_append, Nat.zero_add, h.open_]
  have hclosed : closedPools (stmts ++ [.ref t]) = closedPools stmts := closedPools_append stmts (.ref t)
  obtain ⟨rfl, hk, hseq, htext⟩ | ⟨rfl, hnew, rfl⟩ := litGet_cases hget
  · refine ⟨h.open_.trans hclosed.symm, h.classified, h.seq_le, h.fresh, h.distinct, ?_, ?_⟩
    · intro p u hu
      rw [htrace, List.mem_append, List.mem_singleton] at hu
      cases hu with
      | inl hu => exact h.refs p u hu
      | inr hu =>
        cases hu
        exact ⟨k, hk, htext, hseq⟩
    · intro p lc hu
      rw [htrace, List.mem_append, List.mem_singleton] at hu
      exact h.pools p lc (hu.resolve_right (by simp))
  · generalize hl : (⟨t, st.litpool, (litClassify (form t)).1, (litClassify (form t)).2, 0, false⟩ : Lit) = l
    have hold (k : ℕ) (hk : k < st.nlit) : (st.enter l).lits k = st.lits k := Function.update_of_ne hk.ne _ _
    have hself : (st.enter l).lits st.nlit = l := Function.update_self _ _ _
    have hsplit {P : ℕ → Prop} (hlast : P st.nlit) (hrest : ∀ k < st.nlit, P k) : ∀ k < (st.enter l).nlit, P k := by
      intro k hk
      cases Nat.lt_succ_iff_lt_or_eq.mp hk with
      | inl hk => exact hrest k hk
      | inr hk => exact hk ▸ hlast
    refine ⟨h.open_.trans hclosed.symm, ?_, ?_, ?_, ?_, ?_, ?_⟩
    · refine hsplit (by rw [hself, ← hl]) fun k hk => ?_
      rw [hold k hk]
      exact h.classified k hk
    · refine hsplit (by rw [hself, ← hl]; exact Nat.le_refl _) fun k hk => ?_
      rw [hold k hk]
      exact h.seq_le k hk
    · refine hsplit (by rw [hself, ← hl]; exact fun _ => rfl) fun k hk => ?_
      rw [hold k hk]
      exact h.fresh k hk
    · refine hsplit (hsplit (fun _ _ => rfl) fun k hk => ?_) fun j hj => hsplit ?_ fun k hk => ?_
      · rw [hself, hold k hk, ← hl]
        exact fun hseq htext => absurd htext.symm (hnew k hk hseq.symm)
      · rw [hself, hold j hj, ← hl]
        exact fun hseq htext => absurd htext (hnew j hj hseq)
      · rw [hold j hj, hold k hk]
        exact h.distinct j hj k hk
    · intro p u hu
      rw [htrace, List.mem_append, List.mem_singleton] at hu
      cases hu with
      | inl hu =>
        obtain ⟨k, hk, hku⟩ := h.refs p u hu
        exact ⟨k, Nat.lt_succ_of_lt hk, by rw [hold k hk]; exact hku⟩
      | inr hu =>
        cases hu
        exact ⟨st.nlit, Nat.lt_succ_self _, by rw [hself, ← hl]; exact ⟨rfl, rfl⟩⟩
    · intro p lc hu
      rw [htrace, List.mem_append, List.mem_singleton] at hu
      obtain ⟨hp, hpool⟩ := h.pools p lc (hu.resolve_right (by simp))
      refine ⟨hp, hpool.keep ?_ fun k hk => hold k (mem_members hk).1⟩
      have hfilter : (List.range st.nlit).filter (fun k => decide (((st.enter l).lits k).ltseq = p)) =
          (List.range st.nlit).filter fun k => decide ((st.lits k).ltseq = p) := by
        apply List.filter_congr
        intro k hk
        rw [hold k (List.mem_range.mp hk)]
      have hother : decide (((st.enter l).lits st.nlit).ltseq = p) = false := by
        rw [hself, ← hl]
        exact decide_eq_false hp.ne'
      rw [LitTable.members, show (st.enter l).nlit = st.nlit + 1 from rfl, List.range_succ, List.filter_append, hfilter, List.filter_singleton,
        hother, LitTable.members]
      simp

theorem Pooled.flush (h : Pooled form stmts st) (lc : ℕ) : Pooled form (stmts ++ [.flush lc]) (flushPool lc st) := by
  have htrace : litTrace 0 (stmts ++ [.flush lc]) = litTrace 0 stmts ++ [(st.litpool, .flush lc)] := by
    rw [litTrace_append, Nat.zero_add, h.open_]
  have hclosed : closedPools (stmts ++ [.flush lc]) = closedPools stmts + 1 := closedPools_append stmts (.flush lc)
  have hgather : poolGather st st.litpool = sortBack (segment st.lits) (st.members st.litpool) := by
    have hfilter : (List.range st.nlit).filter (fun k => decide ((st.lits k).placed = false ∧ (st.lits k).ltseq = st.litpool)) =
        (List.range st.nlit).filter fun k => decide ((st.lits k).ltseq = st.litpool) := by
      apply List.filter_congr
      intro k hk
      have hf := h.fresh k (List.mem_range.mp hk)
      rw [decide_eq_decide]
      exact ⟨fun hc => hc.2, fun hc => ⟨hf hc, hc⟩⟩
    rw [poolGather, LitTable.members, hfilter]
  have hperm := sortBack_perm (segment st.lits) (st.members st.litpool)
  have hsame := placePool_same (poolGather st st.litpool) (align8 lc) st.lits
  have hmember : ∀ k ∈ poolGather st st.litpool, k < st.nlit ∧ (st.lits k).ltseq = st.litpool := by
    intro k hk
    rw [hgather] at hk
    exact mem_members (hperm.mem_iff.mp hk)
  have hmembers : ∀ p, (flushPool lc st).members p = st.members p := by
    intro p
    simp only [LitTable.members, flushPool, (hsame _).1.2.1]
  refine ⟨?_, ?_, ?_, ?_, ?_, ?_, ?_⟩
  · rw [hclosed, ← h.open_]
    rfl
  · intro k hk
    obtain ⟨htext, -, hsize, halgn⟩ := (hsame k).1
    change (((placePool _ _ _).1 k).size, ((placePool _ _ _).1 k).algn) = litClassify (form ((placePool _ _ _).1 k).text)
    rw [htext, hsize, halgn]
    exact h.classified k hk
  · intro k hk
    change ((placePool _ _ _).1 k).ltseq ≤ st.litpool + 1
    rw [(hsame k).1.2.1]
    exact Nat.le_succ_of_le (h.seq_le k hk)
  · intro k hk hseq
    change ((placePool _ _ _).1 k).ltseq = st.litpool + 1 at hseq
    rw [(hsame k).1.2.1] at hseq
    have hle := h.seq_le k hk
    omega
  · intro j hj k hk hseq htext
    change ((placePool _ _ _).1 j).ltseq = ((placePool _ _ _).1 k).ltseq at hseq
    change ((placePool _ _ _).1 j).text = ((placePool _ _ _).1 k).text at htext
    rw [(hsame j).1.2.1, (hsame k).1.2.1] at hseq
    rw [(hsame j).1.1, (hsame k).1.1] at htext
    exact h.distinct j hj k hk hseq htext
  · intro p u hu
    rw [htrace, List.mem_append, List.mem_singleton] at hu
    obtain ⟨k, hk, htext, hseq⟩ := h.refs p u (hu.resolve_right (by simp))
    exact ⟨k, hk, (hsame k).1.1.trans htext, (hsame k).1.2.1.trans hseq⟩
  · intro p lc' hu
    rw [htrace, List.mem_append, List.mem_singleton] at hu
    cases hu with
    | inl hu =>
      obtain ⟨hp, hpool⟩ := h.pools p lc' hu
      refine ⟨Nat.lt_succ_of_lt hp, hpool.keep (hmembers p) ?_⟩
      intro k hk
      refine (hsame k).2.1 fun hin => ?_
      have hseq := (hmember k hin).2
      rw [(mem_members hk).2] at hseq
      omega
    | inr hu =>
      cases hu
      refine ⟨Nat.lt_succ_self _, ?_⟩
      have hseg : sortBack (segment (flushPool lc st).lits) ((flushPool lc st).members st.litpool) = poolGather st st.litpool := by
        rw [hmembers, hgather]
        apply sortBack_congr segments_sorted fun k _ => lenalgn_mem _
        intro k _
        exact congrArg lenalgn (hsame k).1.2.2.1
      obtain ⟨htile, -, halgn⟩ := placePool_tile (poolGather st st.litpool) (align8 lc) st.lits
        (by rw [hgather]; exact hperm.nodup_iff.mpr (members_nodup st _)) (fun k hk => h.shaped (hmember k hk).1)
        (by rw [hgather]; exact sortBack_sorted segments_sorted fun k _ => lenalgn_mem _)
        (fun k _ => (segments_dvd (by simp) (lenalgn_mem _) (by have := lenalgn_mem (st.lits k).size; simp at this; omega)).trans (align8_dvd lc))
      have hsizes : ∀ k, ((flushPool lc st).lits k).size = (st.lits k).size := fun k => (hsame k).1.2.2.1
      refine ⟨?_, ?_⟩
      · rw [hseg]
        simp only [hsizes]
        exact htile
      · intro k hk
        rw [hmembers] at hk
        have hin : k ∈ poolGather st st.litpool := by
          rw [hgather]
          exact hperm.mem_iff.mpr hk
        refine ⟨(hsame k).2.2 hin, ?_⟩
        rw [show ((flushPool lc st).lits k).algn = (st.lits k).algn from (hsame k).1.2.2.2]
        exact halgn k hin

theorem litRun_pooled (h : litRun form stmts = some st) : Pooled form stmts st := by
  induction stmts using List.reverseRecOn generalizing st with
  | nil =>
    cases h
    exact ⟨rfl, by simp [LitTable.empty], by simp [LitTable.empty], by simp [LitTable.empty], by simp [LitTable.empty], by simp [litTrace],
      by simp [litTrace]⟩
  | append_singleton stmts x ih =>
    rw [litRun, List.foldlM_append] at h
    obtain ⟨s, hs, hx⟩ := Option.bind_eq_some_iff.mp h
    simp only [List.foldlM_cons, List.foldlM_nil, bind_pure] at hx
    cases x with
    | ref t =>
      obtain ⟨⟨k, s'⟩, hget, rfl⟩ := Option.map_eq_some_iff.mp hx
      exact (ih hs).ref hget
    | flush lc =>
      cases hx
      exact (ih hs).flush lc

/-- Literals of three characters, of a fullword and of a doubleword. -/
def someForm (t : List Char) : LitForm := ⟨1, t.getD 1 'F', none, 1, 3⟩

def someStmts : List LitStmt := [.ref ['=', 'C'], .ref ['=', 'F'], .ref ['=', 'D'], .ref ['=', 'F'], .flush 5, .ref ['=', 'F'], .flush 100]

end Runs

end Cc370.As370
