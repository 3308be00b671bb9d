import Cc370.Dasm370.AlignRun

namespace Cc370.Dasm370

/-- The pairs stand one behind the other on a side, from `lo` and below `n`. -/
def Climbs (f : ℕ × ℕ → ℕ) : ℕ → List (ℕ × ℕ) → ℕ → Prop
  | lo, [], n => lo ≤ n
  | lo, p :: ps, n => lo ≤ f p ∧ Climbs f (f p + 1) ps n

/-- The reference side or the candidate side of a pair of indices. -/
def side (b : Bool) (p : ℕ × ℕ) : ℕ := if b then p.2 else p.1

section Climbs

variable {f : ℕ × ℕ → ℕ} {lo n : ℕ} {ps : List (ℕ × ℕ)}

theorem Climbs.length_le (h : Climbs f lo ps n) : lo + ps.length ≤ n := by
  induction ps generalizing lo with
  | nil => exact h
  | cons p ps ih =>
    obtain ⟨hlo, hrest⟩ := h
    have := ih hrest
    rw [List.length_cons]
    omega

theorem Climbs.bounds (h : Climbs f lo ps n) {p : ℕ × ℕ} (hp : p ∈ ps) : lo ≤ f p ∧ f p < n := by
  induction ps generalizing lo with
  | nil => exact absurd hp List.not_mem_nil
  | cons q ps ih =>
    obtain ⟨hlo, hrest⟩ := h
    rcases List.mem_cons.mp hp with rfl | hp
    · have := hrest.length_le
      omega
    · have := ih hrest hp
      omega

/-- With no room between them, the pairs count up. -/
theorem Climbs.full (h : Climbs f lo ps n) (hn : n = lo + ps.length) : ps.map f = (List.range ps.length).map (lo + ·) := by
  induction ps generalizing lo with
  | nil => rfl
  | cons p ps ih =>
    obtain ⟨hlo, hrest⟩ := h
    have hle := hrest.length_le
    rw [List.length_cons] at hn
    have hp : f p = lo := by omega
    rw [hp] at hrest
    rw [List.map_cons, ih hrest (by omega), List.length_cons, List.range_succ_eq_map, List.map_cons, List.map_map, hp]
    apply congrArg
    apply List.map_congr_left
    intro k _
    simp only [Function.comp_apply]
    omega

theorem climbs_of_pairwise (hlo : ∀ p ∈ ps, lo ≤ f p) (hn : ∀ p ∈ ps, f p < n) (hle : lo ≤ n)
    (h : ps.Pairwise fun p q => f p < f q) : Climbs f lo ps n := by
  induction ps generalizing lo with
  | nil => exact hle
  | cons p ps ih =>
    obtain ⟨hhead, htail⟩ := List.pairwise_cons.mp h
    refine ⟨hlo p List.mem_cons_self, ih hhead ?_ (hn p List.mem_cons_self) htail⟩
    exact fun q hq => hn q (List.mem_cons_of_mem p hq)

end Climbs

section Entries

variable (R C : Side) (sv : List ℤ)

def gapEntries (p q : ℕ × ℕ) : List Entry :=
  if p.1 < q.1 ∨ p.2 < q.2 then [.gap (gapKind R C p.1 q.1 p.2 q.2) p.1 q.1 p.2 q.2] else []

def pairEntries (p : ℕ × ℕ) : List Entry :=
  (deltas (R.at_ p.1) (C.at_ p.2)).map fun d =>
    if d.2 ∈ sv then .conseq p.1 p.2 d.1 d.2 else .const p.1 p.2 d.1 d.2

/-- The lines of the report from a place on. -/
def entries : ℕ × ℕ → List (ℕ × ℕ) → List Entry
  | p, [] => gapEntries R C p (R.stmts.length, C.stmts.length)
  | p, q :: ps => gapEntries R C p q ++ pairEntries R C sv q ++ entries (q.1 + 1, q.2 + 1) ps

/-- A matched pair without a difference, by whether it is shifted. -/
def Silent (p : ℕ × ℕ) : Prop := deltas (R.at_ p.1) (C.at_ p.2) = []

instance (p : ℕ × ℕ) : Decidable (Silent R C p) := inferInstanceAs (Decidable (_ = _))

def Entry.isFinding : Entry → Bool
  | .conseq .. => false
  | _ => true

def Entry.isConseq : Entry → Bool
  | .conseq .. => true
  | _ => false

def Entry.isGap (w : What) : Entry → Bool
  | .gap what .. => what = w
  | _ => false

/-- What the summary gives under `const=`. -/
def Entry.isChange : Entry → Bool
  | .gap what .. => what = .change
  | .const .. => true
  | .conseq .. => false

/-- The gap has the statement of the side in it. -/
def Entry.covers (b : Bool) (i : ℕ) : Entry → Bool
  | .gap _ i0 i1 j0 j1 => side b (i0, j0) ≤ i ∧ i < side b (i1, j1)
  | _ => false

/-- The counts are those of the lines, and of the pairs that nothing is said about. -/
structure Counted (o : Report) (shifted unchanged : ℕ) : Prop where
  ins : o.ins = o.lines.countP (Entry.isGap .insert)
  del : o.del = o.lines.countP (Entry.isGap .delete)
  dchg : o.dchg = o.lines.countP (Entry.isGap .data)
  chg : o.chg = o.lines.countP Entry.isChange
  cons : o.cons = o.lines.countP Entry.isConseq + shifted
  same : o.same = unchanged

variable {R C sv} {o : Report} {s u : ℕ}

theorem Counted.findings (h : Counted o s u) : o.findings = o.lines.countP Entry.isFinding := by
  rw [Report.findings, h.ins, h.del, h.dchg, h.chg]
  induction o.lines with
  | nil => rfl
  | cons e es ih =>
    simp only [List.countP_cons]
    rw [← ih]
    cases e with
    | gap what i0 i1 j0 j1 =>
      cases what <;> simp [Entry.isGap, Entry.isChange, Entry.isFinding] <;> omega
    | const i j field delta =>
      simp [Entry.isGap, Entry.isChange, Entry.isFinding]
      omega
    | conseq i j field delta => simp [Entry.isGap, Entry.isChange, Entry.isFinding]

theorem reportGap_lines (p q : ℕ × ℕ) :
    (reportGap R C p.1 q.1 p.2 q.2 o).lines = o.lines ++ gapEntries R C p q := by
  rw [reportGap, gapEntries]
  split
  · rw [alignGap]
    cases gapKind R C p.1 q.1 p.2 q.2 <;> rfl
  · rw [List.append_nil]

theorem Counted.gap (h : Counted o s u) (p q : ℕ × ℕ) : Counted (reportGap R C p.1 q.1 p.2 q.2 o) s u := by
  rw [reportGap]
  split
  · rw [alignGap]
    cases gapKind R C p.1 q.1 p.2 q.2 <;>
      constructor <;>
        simp [List.countP_append, Entry.isGap, Entry.isChange, Entry.isConseq, h.ins, h.del, h.dchg, h.chg, h.cons, h.same]
  · exact h

theorem foldl_reportDelta_lines (p : ℕ × ℕ) (ds : List (Part × ℤ)) :
    (ds.foldl (reportDelta sv p.1 p.2) o).lines = o.lines ++ ds.map fun d =>
      if d.2 ∈ sv then .conseq p.1 p.2 d.1 d.2 else .const p.1 p.2 d.1 d.2 := by
  induction ds generalizing o with
  | nil => exact (List.append_nil _).symm
  | cons d ds ih =>
    rw [List.foldl_cons, ih, List.map_cons, reportDelta]
    split <;> simp

theorem Counted.delta (h : Counted o s u) (i j : ℕ) (d : Part × ℤ) : Counted (reportDelta sv i j o d) s u := by
  rw [reportDelta]
  split <;> constructor <;>
    simp [List.countP_append, Entry.isGap, Entry.isChange, Entry.isConseq, h.ins, h.del, h.dchg, h.chg, h.cons, h.same]
  omega

theorem Counted.foldl (h : Counted o s u) (i j : ℕ) (ds : List (Part × ℤ)) :
    Counted (ds.foldl (reportDelta sv i j) o) s u := by
  induction ds generalizing o with
  | nil => exact h
  | cons d ds ih => exact ih (h.delta i j d)

theorem reportPair_lines (p : ℕ × ℕ) : (reportPair R C sv p o).lines = o.lines ++ pairEntries R C sv p := by
  rw [reportPair, pairEntries]
  split
  · rename_i hds
    rw [hds, List.foldl_nil, List.map_nil, List.append_nil]
    split <;> rfl
  · exact foldl_reportDelta_lines p _

variable (R C) in
/-- Nothing is said about a pair, and it is shifted or not. -/
def silentShift (p : ℕ × ℕ) : Bool := Silent R C p ∧ shift R C p ≠ 0

variable (R C) in
def silentSame (p : ℕ × ℕ) : Bool := Silent R C p ∧ shift R C p = 0

theorem Counted.pair (h : Counted o s u) (p : ℕ × ℕ) :
    Counted (reportPair R C sv p o) (s + [p].countP (silentShift R C)) (u + [p].countP (silentSame R C)) := by
  rw [reportPair]
  by_cases hds : deltas (R.at_ p.1) (C.at_ p.2) = []
  · rw [if_pos hds, hds, List.foldl_nil]
    by_cases hs : shift R C p = 0
    · rw [if_pos hs]
      constructor <;>
        simp [h.ins, h.del, h.dchg, h.chg, h.cons, h.same, silentShift, silentSame, Silent, hds, hs]
    · rw [if_neg hs]
      constructor <;>
        simp [h.ins, h.del, h.dchg, h.chg, h.cons, h.same, silentShift, silentSame, Silent, hds, hs]
      omega
  · rw [if_neg hds]
    have hpair : Counted ((deltas (R.at_ p.1) (C.at_ p.2)).foldl (reportDelta sv p.1 p.2) o) s u := h.foldl _ _ _
    simpa [silentShift, silentSame, Silent, hds] using hpair

theorem Counted.pairs (h : Counted o s u) (p : ℕ × ℕ) (ps : List (ℕ × ℕ)) :
    Counted (reportPairs R C sv p.1 p.2 ps o) (s + ps.countP (silentShift R C)) (u + ps.countP (silentSame R C)) := by
  induction ps generalizing p o s u with
  | nil => exact h.gap p (R.stmts.length, C.stmts.length)
  | cons q ps ih =>
    have hpair : Counted (reportPair R C sv q (reportGap R C p.1 q.1 p.2 q.2 o)) _ _ := (h.gap p q).pair q
    have hnext := ih hpair (q.1 + 1, q.2 + 1)
    rw [List.countP_singleton, List.countP_singleton, Nat.add_assoc, Nat.add_assoc] at hnext
    rw [List.countP_cons, List.countP_cons, Nat.add_comm (ps.countP _), Nat.add_comm (ps.countP _)]
    exact hnext

theorem reportPairs_lines (p : ℕ × ℕ) (ps : List (ℕ × ℕ)) :
    (reportPairs R C sv p.1 p.2 ps o).lines = o.lines ++ entries R C sv p ps := by
  induction ps generalizing p o with
  | nil => exact reportGap_lines p (R.stmts.length, C.stmts.length)
  | cons q ps ih =>
    have hnext := ih (p := (q.1 + 1, q.2 + 1)) (o := reportPair R C sv q (reportGap R C p.1 q.1 p.2 q.2 o))
    rw [reportPair_lines, reportGap_lines] at hnext
    rw [entries, ← List.append_assoc, ← List.append_assoc]
    exact hnext

theorem countP_covers_pairEntries (b : Bool) (i : ℕ) (p : ℕ × ℕ) :
    (pairEntries R C sv p).countP (Entry.covers b i) = 0 := by
  rw [List.countP_eq_zero]
  intro e he
  obtain ⟨d, -, rfl⟩ := List.mem_map.mp he
  split <;> simp [Entry.covers]

theorem countP_covers_gapEntries (b : Bool) (i : ℕ) (p q : ℕ × ℕ) :
    (gapEntries R C p q).countP (Entry.covers b i) = if side b p ≤ i ∧ i < side b q then 1 else 0 := by
  rw [gapEntries]
  split
  · rw [List.countP_singleton]
    cases b <;> simp [Entry.covers, side]
  · rename_i hno
    rw [List.countP_nil, if_neg]
    cases b <;> simp only [side] <;> simp <;> omega

theorem countP_below {b : Bool} {i : ℕ} {p : ℕ × ℕ} {ps : List (ℕ × ℕ)} {n : ℕ} (h : Climbs (side b) (side b p) ps n)
    (hi : i < side b p) : ps.countP (fun q => side b q = i) = 0 ∧ (entries R C sv p ps).countP (Entry.covers b i) = 0 := by
  induction ps generalizing p with
  | nil =>
    refine ⟨rfl, ?_⟩
    rw [entries, countP_covers_gapEntries, if_neg (by omega)]
  | cons q ps ih =>
    obtain ⟨hq, hrest⟩ := h
    have hside : side b (q.1 + 1, q.2 + 1) = side b q + 1 := by
      cases b <;> rfl
    rw [← hside] at hrest
    obtain ⟨hpairs, hlines⟩ := ih hrest (by omega)
    have hhead : ¬ side b q = i := by omega
    have hgap : ¬ (side b p ≤ i ∧ i < side b q) := by omega
    rw [entries, List.countP_append, List.countP_append, countP_covers_gapEntries, countP_covers_pairEntries, hlines,
      if_neg hgap, List.countP_cons, hpairs, decide_eq_false hhead]
    exact ⟨rfl, rfl⟩

/-- A statement is in one matched pair or in one gap, and in no other. -/
theorem entries_once {b : Bool} {i : ℕ} {p : ℕ × ℕ} {ps : List (ℕ × ℕ)}
    (h : Climbs (side b) (side b p) ps (side b (R.stmts.length, C.stmts.length))) (hlo : side b p ≤ i)
    (hi : i < side b (R.stmts.length, C.stmts.length)) :
    ps.countP (fun q => side b q = i) + (entries R C sv p ps).countP (Entry.covers b i) = 1 := by
  induction ps generalizing p with
  | nil => rw [List.countP_nil, entries, countP_covers_gapEntries, if_pos ⟨hlo, hi⟩]
  | cons q ps ih =>
    obtain ⟨hq, hrest⟩ := h
    have hside : side b (q.1 + 1, q.2 + 1) = side b q + 1 := by
      cases b <;> rfl
    rw [← hside] at hrest
    rw [entries, List.countP_append, List.countP_append, countP_covers_gapEntries, countP_covers_pairEntries,
      List.countP_cons]
    rcases Nat.lt_trichotomy i (side b q) with hlt | heq | hgt
    · obtain ⟨hpairs, hlines⟩ := @countP_below R C sv b i _ _ _ hrest (by omega)
      have hhead : ¬ side b q = i := by omega
      have hgap : side b p ≤ i ∧ i < side b q := ⟨hlo, hlt⟩
      rw [hpairs, hlines, decide_eq_false hhead, if_pos hgap]
      rfl
    · obtain ⟨hpairs, hlines⟩ := @countP_below R C sv b i _ _ _ hrest (by omega)
      have hgap : ¬ (side b p ≤ i ∧ i < side b q) := by omega
      rw [hpairs, hlines, if_neg hgap, decide_eq_true heq.symm]
      rfl
    · have hnext := ih hrest (by omega)
      have hhead : ¬ side b q = i := by omega
      have hgap : ¬ (side b p ≤ i ∧ i < side b q) := by omega
      rw [if_neg hgap, decide_eq_false hhead]
      rw [if_neg (by decide)]
      omega

theorem mem_entries {p q : ℕ × ℕ} {ps : List (ℕ × ℕ)} (hq : q ∈ ps) {e : Entry} (he : e ∈ pairEntries R C sv q) :
    e ∈ entries R C sv p ps := by
  induction ps generalizing p with
  | nil => exact absurd hq List.not_mem_nil
  | cons r ps ih =>
    rw [entries, List.mem_append, List.mem_append]
    rcases List.mem_cons.mp hq with rfl | hq
    · exact .inl (.inr he)
    · exact .inr (ih hq)

theorem conseq_mem {p : ℕ × ℕ} {ps : List (ℕ × ℕ)} {i j : ℕ} {field : Part} {delta : ℤ}
    (h : Entry.conseq i j field delta ∈ entries R C sv p ps) : delta ∈ sv := by
  have hgap : ∀ p q, Entry.conseq i j field delta ∉ gapEntries R C p q := by
    intro p q hmem
    rw [gapEntries] at hmem
    split at hmem
    · exact absurd (List.mem_singleton.mp hmem) nofun
    · exact absurd hmem List.not_mem_nil
  induction ps generalizing p with
  | nil => exact absurd h (hgap _ _)
  | cons q ps ih =>
    rw [entries, List.mem_append, List.mem_append] at h
    rcases h with (h | h) | h
    · exact absurd h (hgap _ _)
    · obtain ⟨d, -, hd⟩ := List.mem_map.mp h
      split at hd
      · rename_i hmem
        cases hd
        exact hmem
      · cases hd
    · exact ih h

end Entries

end Cc370.Dasm370
