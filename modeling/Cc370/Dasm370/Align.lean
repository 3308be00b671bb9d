import Cc370.Lib.EditGraph

namespace Cc370.Dasm370.Align

def ALIGN_MAXD : ℕ := 20000

def INT_MAX : ℤ := 2 ^ 31 - 1

/-- An array of ints; a cell outside it, or one that was not written, is not defined. -/
structure Ints where
  size : ℤ
  cell : ℤ → Option ℤ

namespace Ints

def malloc (n : ℤ) : Ints := ⟨n, fun _ => none⟩

def zeros (n : ℤ) : Ints := ⟨n, fun _ => some 0⟩

def get (v : Ints) (i : ℤ) : Option ℤ := if 0 ≤ i ∧ i < v.size then v.cell i else none

def set (v : Ints) (i x : ℤ) : Option Ints := if 0 ≤ i ∧ i < v.size then some { v with cell := Function.update v.cell i (some x) } else none

theorem set_spec {v : Ints} {i : ℤ} (h : 0 ≤ i ∧ i < v.size) (x : ℤ) :
    ∃ w, v.set i x = some w ∧ w.size = v.size ∧ w.get i = some x ∧ ∀ j, j ≠ i → w.get j = v.get j := by
  refine ⟨_, if_pos h, rfl, ?_, ?_⟩
  · rw [get]
    dsimp only
    rw [if_pos h, Function.update_self]
  · intro j hj
    rw [get, get]
    dsimp only
    rw [Function.update_of_ne hj]

end Ints

/-- The diagonals of a round. -/
structure OnDiag (d : ℕ) (k : ℤ) : Prop where
  low : -(d : ℤ) ≤ k
  high : k ≤ d
  parity : (k + d) % 2 = 0

theorem onDiag_of_reach {κ : Type*} {A B : List κ} {d x y : ℕ} (h : Reach A B d x y) : OnDiag d ((x : ℤ) - y) := by
  obtain ⟨hx, hy, hparity⟩ := h.diagonal
  exact ⟨by omega, by omega, by omega⟩

variable {κ : Type*} [DecidableEq κ] (A B : List κ)

/-- Where a path to diagonal `k` in `d` edits comes in. -/
def start (V : Ints) (off : ℤ) (d : ℕ) (k : ℤ) : Option ℤ :=
  if k = -d then V.get (off + k + 1)
  else if k = d then (V.get (off + k - 1)).map (· + 1)
  else do
    let l ← V.get (off + k - 1)
    let r ← V.get (off + k + 1)
    if l < r then V.get (off + k + 1) else (V.get (off + k - 1)).map (· + 1)

/-- The turns of the loop that goes down a diagonal. -/
def slide (x y : ℤ) : Option ℕ :=
  if x < A.length ∧ y < B.length then
    if x < 0 ∨ y < 0 then none else some (snake (A.drop x.toNat) (B.drop y.toNat))
  else some 0

/-- The diagonals of one round; `true` is the end of both lists. -/
def sweep (off : ℤ) (d : ℕ) : ℕ → ℤ → Ints → Ints → Option (Ints × Ints × Bool)
  | 0, _, V, row => some (V, row, false)
  | c + 1, k, V, row => do
    let x ← start V off d k
    let y := x - k
    let s ← slide A B x y
    let V ← V.set (off + k) (x + s)
    let row ← row.set ((k + d) / 2) (x + s)
    if A.length ≤ x + s ∧ B.length ≤ y + s then some (V, row, true) else sweep off d c (k + 2) V row

/-- The rounds, with a row of the trace for each. -/
def search (off : ℤ) : ℕ → ℕ → Ints → List Ints → Option (Option ℕ × List Ints)
  | 0, _, _, tr => some (none, tr)
  | fuel + 1, d, V, tr => do
    if ALIGN_MAXD + 2 ≤ d then none
    let (V, row, found) ← sweep A B off d (d + 1) (-d) V (.zeros (d + 1))
    if found then some (some d, tr ++ [row]) else search off fuel (d + 1) V (tr ++ [row])

/-- A pair for each step back; the list is kept in the order it is turned into at the end. -/
def retreat : ℕ → ℤ → ℤ → List (ℤ × ℤ) → List (ℤ × ℤ)
  | 0, _, _, pr => pr
  | c + 1, x, y, pr => retreat c (x - 1) (y - 1) ((x - 1, y - 1) :: pr)

/-- The diagonal that the round before came from. -/
def before (prev : Ints) (d : ℕ) (k : ℤ) : Option ℤ :=
  if k - 1 < -d then some (k + 1)
  else if (d : ℤ) < k + 1 then some (k - 1)
  else do
    let l ← prev.get ((k - 1 + d) / 2)
    let r ← prev.get ((k + 1 + d) / 2)
    some (if l < r then k + 1 else k - 1)

def back (tr : List Ints) : ℕ → ℤ → ℤ → List (ℤ × ℤ) → Option (List (ℤ × ℤ))
  | 0, x, y, pr => some (retreat (min x y).toNat x y pr)
  | d + 1, x, y, pr => do
    let prev ← tr[d]?
    let pk ← before prev d (x - y)
    let px ← prev.get ((pk + d) / 2)
    let py := px - pk
    back tr d px py (retreat (min (x - px) (y - py)).toNat x y pr)

/-- The pairs of the statements that are taken for the same, and the number of edits; `none` is an access to what is not there. -/
def alignLcs : Option (ℤ × List (ℤ × ℤ)) := do
  let max := A.length + B.length
  if INT_MAX < 2 * max + 1 then none
  let V ← (Ints.malloc (2 * max + 1)).set (max + 1) 0
  let (D, tr) ← search A B max (min max ALIGN_MAXD + 1) 0 V []
  match D with
  | none => some (-1, [])
  | some D => do
    let pr ← back tr D A.length B.length []
    some (D, pr)

variable {A B}

/-- A table of the furthest points of a round. -/
def Front (A B : List κ) (d : ℕ) (g : ℤ → Option ℤ) : Prop :=
  ∀ k, OnDiag d k → ∃ x y : ℕ, g k = some (x : ℤ) ∧ Furthest A B d k x y

/-- The two ways into a diagonal, and which of them leads further. -/
structure Chosen (A B : List κ) (d : ℕ) (k pk : ℤ) (px py x y : ℕ) : Prop where
  from_ : Furthest A B d pk px py
  step : pk = k + 1 ∧ x = px ∧ y = py + 1 ∨ pk = k - 1 ∧ x = px + 1 ∧ y = py
  reaches : Furthest A B (d + 1) k (x + snake (A.drop x) (B.drop y)) (y + snake (A.drop x) (B.drop y))

variable {d : ℕ} {k : ℤ} {g : ℤ → Option ℤ}

theorem chosen_lowest (hg : Front A B d g) (hk : k = -(d + 1 : ℕ)) : ∃ px py : ℕ, g (k + 1) = some (px : ℤ) ∧ Chosen A B d k (k + 1) px py px (py + 1) := by
  obtain ⟨px, py, hget, hf⟩ := hg (k + 1) ⟨by omega, by omega, by omega⟩
  refine ⟨px, py, hget, hf, Or.inl ⟨rfl, rfl, rfl⟩, hf.insert ?_⟩
  intro x' y' hr hk'
  have hon := (onDiag_of_reach hr).low
  omega

theorem chosen_highest (hg : Front A B d g) (hk : k = (d + 1 : ℕ)) : ∃ px py : ℕ, g (k - 1) = some (px : ℤ) ∧ Chosen A B d k (k - 1) px py (px + 1) py := by
  obtain ⟨px, py, hget, hf⟩ := hg (k - 1) ⟨by omega, by omega, by omega⟩
  refine ⟨px, py, hget, hf, Or.inr ⟨rfl, rfl, rfl⟩, hf.delete ?_⟩
  intro x' y' hr hk'
  have hon := (onDiag_of_reach hr).high
  omega

theorem chosen_between (hg : Front A B d g) (hk : OnDiag (d + 1) k) (hlow : k ≠ -(d + 1 : ℕ)) (hhigh : k ≠ (d + 1 : ℕ)) :
    ∃ l r px py x y : ℕ, g (k - 1) = some (l : ℤ) ∧ g (k + 1) = some (r : ℤ) ∧
      (if l < r then px = r ∧ x = r ∧ Chosen A B d k (k + 1) px py x y else px = l ∧ x = l + 1 ∧ Chosen A B d k (k - 1) px py x y) := by
  obtain ⟨hkl, hkh, hkp⟩ := hk
  obtain ⟨l, ly, hgl, hl⟩ := hg (k - 1) ⟨by omega, by omega, by omega⟩
  obtain ⟨r, ry, hgr, hr⟩ := hg (k + 1) ⟨by omega, by omega, by omega⟩
  by_cases hlt : l < r
  · refine ⟨l, r, r, ry, r, ry + 1, hgl, hgr, ?_⟩
    rw [if_pos hlt]
    refine ⟨rfl, rfl, hr, Or.inl ⟨rfl, rfl, rfl⟩, hr.insert ?_⟩
    intro x' y' hreach hk'
    have hmost := hl.most x' y' hreach hk'
    omega
  · refine ⟨l, r, l, ly, l + 1, ly, hgl, hgr, ?_⟩
    rw [if_neg hlt]
    refine ⟨rfl, rfl, hl, Or.inr ⟨rfl, rfl, rfl⟩, hl.delete ?_⟩
    intro x' y' hreach hk'
    have hmost := hr.most x' y' hreach hk'
    omega

/-- What the table holds when a round begins. -/
def Before (A B : List κ) (off : ℤ) (V : Ints) : ℕ → Prop
  | 0 => V.get (off + 1) = some 0
  | d + 1 => Front A B d fun k => V.get (off + k)

variable {off : ℤ} {V row : Ints}

theorem start_spec (h : Before A B off V d) (hk : OnDiag d k) : ∃ x y : ℕ, start V off d k = some (x : ℤ) ∧ (x : ℤ) - y = k ∧
    Furthest A B d k (x + snake (A.drop x) (B.drop y)) (y + snake (A.drop x) (B.drop y)) := by
  rw [start]
  cases d with
  | zero =>
    have hzero : k = 0 := by
      have hlow := hk.low
      have hhigh := hk.high
      omega
    refine ⟨0, 0, ?_, by omega, ?_⟩
    · rw [hzero, if_pos (by simp), Int.add_zero]
      exact h
    · have hf := furthest_zero A B
      rw [hzero]
      simpa using hf
  | succ d =>
    have hplus : off + (k + 1) = off + k + 1 := by omega
    have hminus : off + (k - 1) = off + k - 1 := by omega
    by_cases hlow : k = -(d + 1 : ℕ)
    · obtain ⟨px, py, hget, hc⟩ := chosen_lowest h hlow
      rw [hplus] at hget
      rw [if_pos hlow, hget]
      have hon := hc.from_.on
      exact ⟨px, py + 1, rfl, by push_cast; omega, hc.reaches⟩
    · rw [if_neg hlow]
      by_cases hhigh : k = (d + 1 : ℕ)
      · obtain ⟨px, py, hget, hc⟩ := chosen_highest h hhigh
        rw [hminus] at hget
        rw [if_pos hhigh, hget]
        have hon := hc.from_.on
        exact ⟨px + 1, py, rfl, by push_cast; omega, hc.reaches⟩
      · obtain ⟨l, r, px, py, x, y, hl, hr, hc⟩ := chosen_between h hk hlow hhigh
        rw [hminus] at hl
        rw [hplus] at hr
        rw [if_neg hhigh, hl, hr]
        simp only [Option.bind_eq_bind, Option.bind_some]
        by_cases hlt : l < r
        · rw [if_pos hlt] at hc
          rw [if_pos (Int.ofNat_lt.mpr hlt)]
          obtain ⟨hpx, hx, hc⟩ := hc
          have hon := hc.reaches.on
          exact ⟨x, y, by rw [hx], by omega, hc.reaches⟩
        · rw [if_neg hlt] at hc
          rw [if_neg (mt Int.ofNat_lt.mp hlt)]
          obtain ⟨hpx, hx, hc⟩ := hc
          have hon := hc.reaches.on
          exact ⟨x, y, by rw [hx]; rfl, by omega, hc.reaches⟩

theorem slide_eq (x y : ℕ) : slide A B x y = some (snake (A.drop x) (B.drop y)) := by
  rw [slide]
  split
  · rw [if_neg (by omega), Int.toNat_natCast, Int.toNat_natCast]
  · rename_i hout
    congr 1
    by_cases hx : x < A.length
    · have hy : B.length ≤ y := by omega
      rw [List.drop_eq_nil_of_le hy]
      cases A.drop x <;> rfl
    · rw [List.drop_eq_nil_of_le (not_lt.mp hx)]
      rfl

/-- The furthest points of the diagonals below `k`, in both tables, and none of them is the end. -/
def Done (A B : List κ) (off : ℤ) (d : ℕ) (k : ℤ) (V row : Ints) : Prop :=
  ∀ j, OnDiag d j → j < k → ∃ x y : ℕ, V.get (off + j) = some (x : ℤ) ∧ row.get ((j + d) / 2) = some (x : ℤ) ∧
    Furthest A B d j x y ∧ ¬ (A.length ≤ x ∧ B.length ≤ y)

omit [DecidableEq κ] in
theorem before_set {W : Ints} (hb : Before A B off V d) (hk : OnDiag d k) (h : ∀ j, j ≠ off + k → W.get j = V.get j) : Before A B off W d := by
  obtain ⟨hlow, hhigh, hparity⟩ := hk
  cases d with
  | zero =>
    rw [Before, h _ (by omega)]
    exact hb
  | succ d =>
    intro j hj
    obtain ⟨x, y, hget, hf⟩ := hb j hj
    have hjp := hj.parity
    refine ⟨x, y, ?_, hf⟩
    dsimp only at hget ⊢
    rw [h _ (by omega), hget]

theorem sweep_spec (c : ℕ) (hc : k + 2 * c = d + 2) (hcd : c ≤ d + 1) (hb : Before A B off V d) (hdone : Done A B off d k V row)
    (hlow : 0 ≤ off - d) (hsize : off + d < V.size) (hrow : row.size = d + 1) :
    ∃ V' row' found, sweep A B off d c k V row = some (V', row', found) ∧ V'.size = V.size ∧
      (found = true → ∃ j x y, Furthest A B d j x y ∧ A.length ≤ x ∧ B.length ≤ y) ∧ (found = false → Done A B off d (d + 1) V' row') := by
  induction c generalizing k V row with
  | zero =>
    refine ⟨V, row, false, rfl, rfl, fun h => absurd h Bool.false_ne_true, fun _ j hj hlt => hdone j hj ?_⟩
    omega
  | succ c ih =>
    have hk : OnDiag d k := ⟨by omega, by omega, by omega⟩
    obtain ⟨x, y, hstart, hxy, hf⟩ := start_spec hb hk
    have hy : (x : ℤ) - k = y := by omega
    obtain ⟨W, hset, hWsize, hWself, hWother⟩ := Ints.set_spec (v := V) (i := off + k) ⟨by omega, by omega⟩ (x + (snake (A.drop x) (B.drop y) : ℕ))
    obtain ⟨row', hset', hrowSize, hrowSelf, hrowOther⟩ := Ints.set_spec (v := row) (i := (k + d) / 2) ⟨by omega, by omega⟩ (x + (snake (A.drop x) (B.drop y) : ℕ))
    rw [sweep, hstart, Option.bind_eq_bind, Option.bind_some]
    dsimp only
    simp only [hy, slide_eq, hset, hset', Option.bind_eq_bind, Option.bind_some]
    generalize snake (A.drop x) (B.drop y) = s at *
    by_cases hend : A.length ≤ x + s ∧ B.length ≤ y + s
    · rw [if_pos (by omega)]
      exact ⟨W, row', true, rfl, hWsize, fun _ => ⟨k, x + s, y + s, hf, hend.1, hend.2⟩, fun h => absurd h.symm Bool.false_ne_true⟩
    · rw [if_neg (by omega)]
      have hdone' : Done A B off d (k + 2) W row' := by
        intro j hj hlt
        obtain ⟨hjl, hjh, hjp⟩ := hj
        by_cases hjk : j = k
        · rw [hjk]
          exact ⟨x + s, y + s, by rw [hWself]; push_cast; rfl, by rw [hrowSelf]; push_cast; rfl, hf, hend⟩
        · obtain ⟨x', y', hget, hget', hrest⟩ := hdone j ⟨hjl, hjh, hjp⟩ (by have hkp := hk.parity; omega)
          refine ⟨x', y', ?_, ?_, hrest⟩
          · rw [hWother _ (by omega), hget]
          · rw [hrowOther _ (by have hkp := hk.parity; omega), hget']
      obtain ⟨V', row'', found, hrun, hsize', hrest⟩ := ih (k := k + 2) (by omega) (by omega) (before_set hb hk hWother) hdone'
        (by omega) (by omega)
      exact ⟨V', row'', found, hrun, hsize'.trans hWsize, hrest⟩

/-- The rows of the trace are the tables of the rounds. -/
def Traced (A B : List κ) (tr : List Ints) (d : ℕ) : Prop :=
  ∀ e, e < d → ∃ row, tr[e]? = some row ∧ Front A B e fun j => row.get ((j + e) / 2)

omit [DecidableEq κ] in
theorem traced_snoc {tr : List Ints} (h : Traced A B tr d) (hlen : tr.length = d) (hrow : Front A B d fun j => row.get ((j + d) / 2)) :
    Traced A B (tr ++ [row]) (d + 1) := by
  intro e he
  by_cases hlast : e = d
  · refine ⟨row, ?_, ?_⟩
    · rw [hlast, ← hlen, List.getElem?_concat_length]
    · rw [hlast]
      exact hrow
  · obtain ⟨row', hget, hfront⟩ := h e (by omega)
    refine ⟨row', ?_, hfront⟩
    rw [List.getElem?_append_left (by omega), hget]

omit [DecidableEq κ] in
theorem traced_append {tr tr' : List Ints} (h : Traced A B tr d) : Traced A B (tr ++ tr') d := by
  intro e he
  obtain ⟨row, hget, hfront⟩ := h e he
  refine ⟨row, ?_, hfront⟩
  rw [List.getElem?_append_left (List.getElem?_eq_some_iff.mp hget).1, hget]

/-- What the search has found: the least number of edits below `d`, with the trace of the rounds before it, or that there is none. -/
def Result (A B : List κ) (d : ℕ) (r : Option ℕ × List Ints) : Prop :=
  match r.1 with
  | none => ∀ e < d, ¬ Reach A B e A.length B.length
  | some D => D < d ∧ Reach A B D A.length B.length ∧ (∀ e < D, ¬ Reach A B e A.length B.length) ∧ Traced A B r.2 D

omit [DecidableEq κ] in
theorem not_reach_of_done (h : Done A B off d (d + 1) V row) : ¬ Reach A B d A.length B.length := by
  intro hr
  have hon := onDiag_of_reach hr
  have hhigh := hon.high
  obtain ⟨x, y, -, -, hf, hend⟩ := h _ hon (by omega)
  have hmost := hf.most _ _ hr rfl
  have hdiag := hf.on
  omega

omit [DecidableEq κ] in
theorem front_of_done (h : Done A B off d (d + 1) V row) :
    (Front A B d fun k => V.get (off + k)) ∧ Front A B d fun j => row.get ((j + d) / 2) := by
  constructor
  · intro k hk
    have hhigh := hk.high
    obtain ⟨x, y, hget, -, hf, -⟩ := h k hk (by omega)
    exact ⟨x, y, hget, hf⟩
  · intro k hk
    have hhigh := hk.high
    obtain ⟨x, y, -, hget, hf, -⟩ := h k hk (by omega)
    exact ⟨x, y, hget, hf⟩

theorem search_spec (fuel : ℕ) {tr : List Ints} (hb : Before A B off V d) (htr : Traced A B tr d) (hlen : tr.length = d)
    (hno : ∀ e < d, ¬ Reach A B e A.length B.length) (hlow : d + fuel ≤ off + 1) (hsize : V.size = 2 * off + 1) (hmax : d + fuel ≤ ALIGN_MAXD + 1) :
    ∃ r, search A B off fuel d V tr = some r ∧ Result A B (d + fuel) r := by
  induction fuel generalizing d V tr with
  | zero => exact ⟨_, rfl, hno⟩
  | succ fuel ih =>
    have hrow : (Ints.zeros (d + 1)).size = d + 1 := rfl
    obtain ⟨V', row, found, hrun, hsize', htrue, hfalse⟩ := sweep_spec (k := -(d : ℤ)) (d + 1) (by push_cast; omega) le_rfl hb
      (fun j hj hlt => absurd hlt (not_lt.mpr hj.low)) (by omega) (by omega) hrow
    rw [search, if_neg (by omega), hrun, Option.bind_eq_bind, Option.bind_some]
    dsimp only
    cases found with
    | true =>
      obtain ⟨j, x, y, hf, hx, hy⟩ := htrue rfl
      rw [if_pos rfl]
      refine ⟨_, rfl, ?_, hf.reach.end_of_past hx hy hno, hno, traced_append htr⟩
      omega
    | false =>
      have hdone := hfalse rfl
      obtain ⟨hfront, hfront'⟩ := front_of_done hdone
      rw [if_neg Bool.false_ne_true]
      have hno' : ∀ e < d + 1, ¬ Reach A B e A.length B.length := by
        intro e he
        rcases Nat.lt_succ_iff_lt_or_eq.mp he with hlt | heq
        · exact hno e hlt
        · rw [heq]
          exact not_reach_of_done hdone
      obtain ⟨r, hsearch, hresult⟩ := ih (d := d + 1) (V := V') hfront (traced_snoc htr hlen hfront') (by simp [hlen]) hno' (by push_cast at hlow ⊢; omega)
        (hsize'.trans hsize) (by omega)
      refine ⟨r, hsearch, ?_⟩
      rwa [Nat.add_right_comm] at hresult

/-- Pairs of places with the same elements, in the order of both lists. -/
structure Pairs (A B : List κ) (x y : ℕ) (ps : List (ℕ × ℕ)) : Prop where
  increasing : ps.Pairwise fun p q => p.1 < q.1 ∧ p.2 < q.2
  same : ∀ p ∈ ps, Same A B p.1 p.2
  bounded : ∀ p ∈ ps, p.1 < x ∧ p.2 < y

def castPair (p : ℕ × ℕ) : ℤ × ℤ := (p.1, p.2)

/-- The pairs of a snake. -/
def diagonalPairs (x y s : ℕ) : List (ℕ × ℕ) := (List.range s).map fun i => (x + i, y + i)

theorem retreat_eq (s : ℕ) (x y : ℕ) (pr : List (ℤ × ℤ)) :
    retreat s (x + s) (y + s) pr = (diagonalPairs x y s).map castPair ++ pr := by
  induction s generalizing pr with
  | zero => rfl
  | succ s ih =>
    have hx : (x : ℤ) + (s + 1 : ℕ) - 1 = x + s := by omega
    have hy : (y : ℤ) + (s + 1 : ℕ) - 1 = y + s := by omega
    rw [retreat, hx, hy, ih, diagonalPairs, diagonalPairs, List.range_succ, List.map_append, List.map_append, List.append_assoc]
    rfl

omit [DecidableEq κ] in
theorem pairs_append {x y px py s : ℕ} {ps : List (ℕ × ℕ)} (h : Pairs A B px py ps) (hx : px ≤ x) (hy : py ≤ y)
    (hsame : ∀ i < s, Same A B (x + i) (y + i)) : Pairs A B (x + s) (y + s) (ps ++ diagonalPairs x y s) := by
  have hmem : ∀ p ∈ diagonalPairs x y s, ∃ i < s, p = (x + i, y + i) := by
    intro p hp
    obtain ⟨i, hi, rfl⟩ := List.mem_map.mp hp
    exact ⟨i, List.mem_range.mp hi, rfl⟩
  refine ⟨?_, ?_, ?_⟩
  · rw [List.pairwise_append]
    refine ⟨h.increasing, ?_, ?_⟩
    · rw [diagonalPairs, List.pairwise_map]
      exact List.pairwise_lt_range.imp fun hlt => ⟨Nat.add_lt_add_left hlt x, Nat.add_lt_add_left hlt y⟩
    · intro p hp q hq
      obtain ⟨i, -, rfl⟩ := hmem q hq
      have hb := h.bounded p hp
      dsimp only
      omega
  · intro p hp
    rcases List.mem_append.mp hp with hp | hp
    · exact h.same p hp
    · obtain ⟨i, hi, rfl⟩ := hmem p hp
      exact hsame i hi
  · intro p hp
    rcases List.mem_append.mp hp with hp | hp
    · have hb := h.bounded p hp
      omega
    · obtain ⟨i, hi, rfl⟩ := hmem p hp
      dsimp only
      omega

theorem before_spec {prev : Ints} (h : Front A B d fun j => prev.get ((j + d) / 2)) (hk : OnDiag (d + 1) k) :
    ∃ (pk : ℤ) (px py x y : ℕ), before prev d k = some pk ∧ prev.get ((pk + d) / 2) = some (px : ℤ) ∧ Chosen A B d k pk px py x y := by
  rw [before]
  obtain ⟨hkl, hkh, hkp⟩ := hk
  by_cases hlow : k = -(d + 1 : ℕ)
  · obtain ⟨px, py, hget, hc⟩ := chosen_lowest h hlow
    rw [if_pos (by omega)]
    exact ⟨k + 1, px, py, _, _, rfl, hget, hc⟩
  · rw [if_neg (by omega)]
    by_cases hhigh : k = (d + 1 : ℕ)
    · obtain ⟨px, py, hget, hc⟩ := chosen_highest h hhigh
      rw [if_pos (by omega)]
      exact ⟨k - 1, px, py, _, _, rfl, hget, hc⟩
    · obtain ⟨l, r, px, py, x, y, hl, hr, hc⟩ := chosen_between h ⟨hkl, hkh, hkp⟩ hlow hhigh
      rw [if_neg (by omega), hl, hr]
      simp only [Option.bind_eq_bind, Option.bind_some]
      by_cases hlt : l < r
      · rw [if_pos hlt] at hc
        rw [if_pos (Int.ofNat_lt.mpr hlt)]
        refine ⟨k + 1, px, py, x, y, rfl, ?_, hc.2.2⟩
        rw [hr, hc.1]
      · rw [if_neg hlt] at hc
        rw [if_neg (mt Int.ofNat_lt.mp hlt)]
        refine ⟨k - 1, px, py, x, y, rfl, ?_, hc.2.2⟩
        rw [hl, hc.1]

/-- The way back, from a point that is the furthest of its diagonal. -/
theorem back_spec {tr : List Ints} {x y : ℕ} (htr : Traced A B tr d) (h : Furthest A B d ((x : ℤ) - y) x y) (pr : List (ℤ × ℤ)) :
    ∃ ps, back tr d x y pr = some (ps.map castPair ++ pr) ∧ Pairs A B x y ps ∧ 2 * ps.length + d = x + y := by
  induction d generalizing x y pr with
  | zero =>
    obtain ⟨hx, hy, -⟩ := h.reach.diagonal
    have hxy : y = x := by omega
    obtain ⟨hxs, -⟩ := h.unique (by rw [hxy, sub_self]; exact furthest_zero A B)
    refine ⟨diagonalPairs 0 0 x, ?_, ?_, ?_⟩
    · have hretreat := retreat_eq x 0 0 pr
      rw [Nat.cast_zero, zero_add] at hretreat
      rw [back, hxy, min_self, Int.toNat_natCast, hretreat]
    · have hnil : Pairs A B 0 0 [] := ⟨List.Pairwise.nil, nofun, nofun⟩
      have hsame : ∀ i < x, Same A B (0 + i) (0 + i) := by
        intro i hi
        rw [hxs] at hi
        simpa using snake_same hi
      have hpairs := pairs_append hnil le_rfl le_rfl hsame
      rw [hxy]
      simpa using hpairs
    · rw [diagonalPairs, List.length_map, List.length_range]
      omega
  | succ d ih =>
    obtain ⟨prev, hprev, hfront⟩ := htr d (Nat.lt_succ_self d)
    obtain ⟨pk, px, py, x', y', hbefore, hget, hc⟩ := before_spec hfront (onDiag_of_reach h.reach)
    obtain ⟨hxs, hys⟩ := h.unique hc.reaches
    have hon := hc.from_.on
    have hpy : (px : ℤ) - pk = py := by omega
    have hfrom : Furthest A B d ((px : ℤ) - py) px py := by
      rw [hon]
      exact hc.from_
    have hsame : ∀ i < snake (A.drop x') (B.drop y'), Same A B (x' + i) (y' + i) := fun i hi => same_drop.mp (snake_same hi)
    have hstep := hc.step
    generalize snake (A.drop x') (B.drop y') = s at hxs hys hsame
    have hcount : (min ((x : ℤ) - px) (y - py)).toNat = s := by omega
    obtain ⟨ps, hback, hpairs, hlength⟩ := ih (fun e he => htr e (Nat.lt_succ_of_lt he)) hfrom ((diagonalPairs x' y' s).map castPair ++ pr)
    have hretreat := retreat_eq s x' y' pr
    rw [← Nat.cast_add, ← Nat.cast_add, ← hxs, ← hys] at hretreat
    refine ⟨ps ++ diagonalPairs x' y' s, ?_, ?_, ?_⟩
    · rw [back, hprev]
      simp only [Option.bind_eq_bind, Option.bind_some, hbefore, hget]
      rw [hpy, hcount, hretreat, hback, List.map_append, List.append_assoc]
    · rw [hxs, hys]
      exact pairs_append hpairs (by omega) (by omega) hsame
    · rw [List.length_append, diagonalPairs, List.length_map, List.length_range]
      omega

/-- Either the two lists are too far apart, or the pairs are those of a longest common subsequence. -/
def Aligns (A B : List κ) (r : ℤ × List (ℤ × ℤ)) : Prop :=
  ∃ D, IsLeast {d | Edits A B d} D ∧
    (ALIGN_MAXD < D ∧ r = (-1, []) ∨
      D ≤ ALIGN_MAXD ∧ ∃ ps : List (ℕ × ℕ), r = ((D : ℤ), ps.map castPair) ∧ (ps.Pairwise fun p q => p.1 < q.1 ∧ p.2 < q.2) ∧
        (∀ p ∈ ps, ∃ a, A[p.1]? = some a ∧ B[p.2]? = some a) ∧ 2 * ps.length + D = A.length + B.length ∧
        IsGreatest {n | ∃ l : List κ, l.Sublist A ∧ l.Sublist B ∧ l.length = n} ps.length)

omit [DecidableEq κ] in
theorem exists_edits (A B : List κ) : ∃ d, Edits A B d ∧ d ≤ A.length + B.length := by
  obtain ⟨d, hd, hlength⟩ := Edits.of_sublist (List.nil_sublist A) (List.nil_sublist B)
  exact ⟨d, hd, by omega⟩

theorem alignLcs_spec (hne : 0 < A.length + B.length) (hfit : 2 * ((A.length + B.length : ℕ) : ℤ) + 1 ≤ INT_MAX) :
    ∃ r, alignLcs A B = some r ∧ Aligns A B r := by
  rw [alignLcs]
  dsimp only
  generalize hN : A.length + B.length = N at *
  obtain ⟨V, hset, hsize, hself, -⟩ := Ints.set_spec (v := .malloc (2 * (N : ℤ) + 1)) (i := (N : ℤ) + 1) ⟨by omega, by change _ < 2 * (N : ℤ) + 1; omega⟩ 0
  have hbefore : Before A B (N : ℤ) V 0 := hself
  have htrace : Traced A B [] 0 := nofun
  obtain ⟨r, hsearch, hresult⟩ := search_spec (min N ALIGN_MAXD + 1) hbefore htrace rfl nofun (by omega) hsize (by omega)
  rw [if_neg (by omega), hset]
  simp only [Option.bind_eq_bind, Option.bind_some, hsearch]
  rw [Nat.zero_add] at hresult
  obtain ⟨D, tr⟩ := r
  cases D with
  | none =>
    obtain ⟨d, hd, hdle⟩ := exists_edits A B
    have hex : ∃ d, Edits A B d := ⟨d, hd⟩
    classical
    have hleast : IsLeast {d | Edits A B d} (Nat.find hex) := ⟨Nat.find_spec hex, fun e he => Nat.find_min' hex he⟩
    have hbound := hleast.2 hd
    have hfar : ALIGN_MAXD < Nat.find hex := by
      by_contra hnear
      exact hresult (Nat.find hex) (by omega) ((reach_iff_edits A B _).mpr hleast.1)
    exact ⟨_, rfl, _, hleast, Or.inl ⟨hfar, rfl⟩⟩
  | some D =>
    obtain ⟨hlt, hreach, hno, htr⟩ := hresult
    have hleast : IsLeast {d | Edits A B d} D := by
      refine ⟨(reach_iff_edits A B D).mp hreach, fun e he => ?_⟩
      by_contra hge
      exact hno e (not_le.mp hge) ((reach_iff_edits A B e).mpr he)
    have hfar : Furthest A B D ((A.length : ℤ) - B.length) A.length B.length := by
      refine ⟨rfl, hreach, fun x' y' hr hon => ?_⟩
      by_contra hgt
      obtain ⟨d', hreach', hcost⟩ := hr.clip
      rw [Nat.min_eq_right (by omega), Nat.min_eq_right (by omega)] at hreach'
      exact hno d' (by omega) hreach'
    obtain ⟨ps, hback, hpairs, hlength⟩ := back_spec htr hfar []
    rw [List.append_nil] at hback
    simp only [hback, Option.bind_some]
    have hcount : D + 2 * ps.length = A.length + B.length := by omega
    exact ⟨_, rfl, D, hleast, Or.inr ⟨by omega, ps, rfl, hpairs.increasing, hpairs.same, by omega, Edits.longest_of_least hleast hcount⟩⟩

/-- The alignment is that of a longest common subsequence for all lists but two empty ones, as long as their lengths fit the ints of the table. -/
theorem alignLcs_iff (A B : List κ) : (∃ r, alignLcs A B = some r ∧ Aligns A B r) ↔
    0 < A.length + B.length ∧ 2 * ((A.length + B.length : ℕ) : ℤ) + 1 ≤ INT_MAX := by
  constructor
  · rintro ⟨r, hrun, -⟩
    rw [alignLcs] at hrun
    dsimp only at hrun
    by_cases hfit : INT_MAX < 2 * ((A.length + B.length : ℕ) : ℤ) + 1
    · rw [if_pos hfit] at hrun
      exact absurd hrun nofun
    · refine ⟨?_, not_lt.mp hfit⟩
      by_contra hempty
      have hzero : A.length + B.length = 0 := by omega
      rw [hzero, if_neg (by decide)] at hrun
      exact absurd hrun nofun
  · rintro ⟨hne, hfit⟩
    exact alignLcs_spec hne hfit

/-- The first cell that is written is behind the end of the table. -/
theorem empty_not_aligned : ¬ ∃ r, alignLcs ([] : List ℕ) [] = some r ∧ Aligns ([] : List ℕ) [] r := by
  rintro ⟨r, hrun, -⟩
  have hnone : alignLcs ([] : List ℕ) [] = none := rfl
  rw [hnone] at hrun
  exact absurd hrun nofun

end Cc370.Dasm370.Align
