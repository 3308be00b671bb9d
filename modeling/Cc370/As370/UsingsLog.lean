import Cc370.As370.Usings

namespace Cc370.As370

open KeyedLog

/-- A property that everything keeps that a USING or a DROP does to the table and the log. -/
structure Kept (s : UseStmt) (P : UseState → Prop) : Prop where
  diags : ∀ st ds, P st → P { st with diags := ds }
  put : ∀ st u t, P st → UseStmt.setSlot st.usings u = some t → P { st with usings := t, uevs := st.uevs ++ [s.uev .usingRec u .stmt] }
  drop : ∀ st r, P st → P { st with
    usings := (UseStmt.dropReg r st.usings.length 0 st.usings).1
    uevs := st.uevs ++ (UseStmt.dropReg r st.usings.length 0 st.usings).2.map fun u => s.uev .dropRec u .stmt }
  noop : ∀ st r, P st → P { st with uevs := st.uevs ++ [s.uevNoop r] }
  clear : ∀ st, P st → P { st with usings := [], uevs := st.uevs ++ st.usings.map fun u => s.uev .dropRec u .stmt }

namespace Kept

variable {s : UseStmt} {P : UseState → Prop} {st : UseState}

theorem usingRegs (h : Kept s P) (b : UseBase) (j : ℕ) (fs : List (List Char)) (hst : P st) : P (s.usingRegs b j fs st) := by
  induction fs generalizing st j with
  | nil => exact hst
  | cons f fs ih =>
    rw [UseStmt.usingRegs]
    by_cases hf : f = []
    · rw [if_pos hf]
      exact ih _ hst
    rw [if_neg hf]
    cases s.scope.usingReg f with
    | none => exact h.diags _ _ hst
    | some r =>
      dsimp only
      split_ifs with hr
      · exact h.diags _ _ hst
      · cases hslot : UseStmt.setSlot st.usings ⟨r, b.value + 4096 * ((j : ℤ) - 1), b.sect, b.isabs⟩ with
        | none => exact hst
        | some t => exact ih _ (h.put _ _ _ hst hslot)

theorem dropRegs (h : Kept s P) (fs : List (List Char)) (hst : P st) : P (s.dropRegs fs st) := by
  induction fs generalizing st with
  | nil => exact hst
  | cons f fs ih =>
    rw [UseStmt.dropRegs]
    cases s.scope.usingReg f with
    | none => exact ih (h.diags _ _ hst)
    | some r =>
      dsimp only
      split_ifs with hhit
      · exact h.diags _ _ (h.noop _ _ hst)
      · exact ih (h.drop _ _ hst)

/-- Every statement keeps it, if PUSH and POP do. -/
theorem step (h : Kept s P) (hpush : s.isPush = true → P st → P (s.pushStmt st)) (hpop : s.isPop = true → P st → P (s.popStmt st)) (hst : P st) :
    P (s.step st) := by
  rw [UseStmt.step]
  cases s.op with
  | usingOp =>
    dsimp only
    rw [UseStmt.usingStmt]
    split_ifs
    · exact h.usingRegs _ _ _ (h.diags _ _ hst)
    · exact h.diags _ _ hst
  | dropOp =>
    dsimp only
    rw [UseStmt.dropStmt]
    split_ifs
    · exact h.clear _ hst
    · exact h.dropRegs _ hst
  | pushOp =>
    dsimp only
    split_ifs with hp
    · exact hpush hp hst
    · exact hst
  | popOp =>
    dsimp only
    split_ifs with hp
    · exact hpop hp hst
    · exact hst

end Kept

section Log

variable {st : UseState} {t : List Uent}

theorem replayUevs_append (es fs : List Uev) : replayUevs (es ++ fs) = replay Uent.reg (replayUevs es) (fs.map Uev.event) := by
  rw [replayUevs, List.map_append, replay_append]
  rfl

/-- The log shows the table, and the tables that are pushed have each register once. -/
structure Faithful (st : UseState) : Prop where
  shows : Shows Uent.reg (replayUevs st.uevs) st.usings
  pushed : ∀ t ∈ st.ustk, (t.map Uent.reg).Nodup

theorem Faithful.start : Faithful .start := ⟨Shows.nil, fun _ h => absurd h List.not_mem_nil⟩

/-- What is done to the table is what the records that are added say. -/
theorem Faithful.record (h : Faithful st) {es : List Uev} (ds : List UseDiag)
    (ht : Shows Uent.reg (replay Uent.reg (replayUevs st.uevs) (es.map Uev.event)) t) : Faithful ⟨t, st.ustk, st.uevs ++ es, ds⟩ := by
  refine ⟨?_, h.pushed⟩
  dsimp only
  rw [replayUevs_append]
  exact ht

/-- Sixteen registers take sixteen slots at most. -/
theorem usings_length (h : (t.map Uent.reg).Nodup) : t.length ≤ 16 := by
  have hcard := h.length_le_card
  rwa [List.length_map, Fintype.card_fin] at hcard

theorem setSlot_eq (h : (t.map Uent.reg).Nodup) (u : Uent) : UseStmt.setSlot t u = some (enter Uent.reg t u) := by
  have hlen := usings_length h
  rw [UseStmt.setSlot, enter]
  cases t.findIdx? fun v => v.reg = u.reg with
  | some i => rfl
  | none => exact if_neg (by omega)

/-- The entries that a DROP of a register takes out, as the log has them. -/
theorem shows_dropReg (s : UseStmt) {f : Fin 16 → Option Uent} (h : Shows Uent.reg f t) (r : Fin 16) (fuel k : ℕ) :
    Shows Uent.reg (replay Uent.reg f ((UseStmt.dropReg r fuel k t).2.map fun u => (s.uev .dropRec u .stmt).event)) (UseStmt.dropReg r fuel k t).1 := by
  induction fuel generalizing f t k with
  | zero => exact h
  | succ fuel ih =>
    rw [UseStmt.dropReg]
    cases hk : t[k]? with
    | none => exact h
    | some u =>
      dsimp only
      split_ifs with hr
      · obtain ⟨hlt, rfl⟩ := List.getElem?_eq_some_iff.mp hk
        exact ih (h.removeAt hlt) k
      · exact ih h _

theorem kept_faithful (s : UseStmt) : Kept s Faithful where
  diags st ds h := ⟨h.shows, h.pushed⟩
  put st u t h ht := by
    rw [setSlot_eq h.shows.nodup] at ht
    rw [← Option.some.inj ht]
    exact h.record _ (h.shows.enter u)
  drop st r h := by
    apply h.record
    rw [List.map_map]
    exact shows_dropReg s h.shows r _ _
  noop st r h := h.record _ h.shows
  clear st h := by
    have hall : (st.usings.map fun u => s.uev .dropRec u .stmt).map Uev.event = changes Uent.reg st.usings [] := by
      rw [List.map_map, changes, List.filter_eq_self.mpr fun u _ => by simp, List.filter_nil, List.map_nil, List.append_nil]
      rfl
    apply h.record
    rw [hall]
    exact h.shows.changes List.nodup_nil

theorem Faithful.pushStmt (h : Faithful st) (s : UseStmt) : Faithful (s.pushStmt st) := by
  rw [UseStmt.pushStmt]
  split_ifs
  · have hlogged : Faithful { st with uevs := st.uevs ++ [s.uevNoReg .pushRec .stmt] } := h.record _ h.shows
    exact ⟨hlogged.shows, List.forall_mem_cons.mpr ⟨h.shows.nodup, h.pushed⟩⟩
  · exact h.record _ h.shows

theorem Faithful.popStmt (h : Faithful st) (s : UseStmt) : Faithful (s.popStmt st) := by
  rw [UseStmt.popStmt]
  cases hstk : st.ustk with
  | nil =>
    have hlogged : Faithful { st with uevs := st.uevs ++ [s.uevNoReg .popRec .noop] } := h.record _ h.shows
    rw [hstk] at hlogged
    exact hlogged
  | cons new ustk =>
    have hpushed := h.pushed
    rw [hstk] at hpushed
    obtain ⟨hnew, hpushed⟩ := List.forall_mem_cons.mp hpushed
    refine ⟨?_, hpushed⟩
    dsimp only
    rw [List.append_assoc, List.append_assoc, replayUevs_append, List.map_append, List.map_append, List.map_map, List.map_map]
    exact h.shows.changes hnew

/-- Each statement keeps the log in step with the table. -/
theorem Faithful.step (h : Faithful st) (s : UseStmt) : Faithful (s.step st) :=
  (kept_faithful s).step (fun _ h => h.pushStmt s) (fun _ h => h.popStmt s) h

theorem Faithful.run (h : Faithful st) (stmts : List UseStmt) : Faithful (st.run stmts) := by
  induction stmts generalizing st with
  | nil => exact h
  | cons s stmts ih => exact ih (h.step s)

theorem kept_log (s : UseStmt) (es : List Uev) : Kept s fun st => es <+: st.uevs where
  diags _ _ h := h
  put _ _ _ h _ := h.trans (List.prefix_append _ _)
  drop _ _ h := h.trans (List.prefix_append _ _)
  noop _ _ h := h.trans (List.prefix_append _ _)
  clear _ h := h.trans (List.prefix_append _ _)

/-- A statement adds to the log what it does. -/
theorem step_log (s : UseStmt) (st : UseState) : st.uevs <+: (s.step st).uevs := by
  apply (kept_log s st.uevs).step
  · intro _ h
    rw [UseStmt.pushStmt]
    split_ifs
    · exact List.prefix_append _ _
    · exact List.prefix_append _ _
  · intro _ h
    rw [UseStmt.popStmt]
    cases st.ustk with
    | nil => exact List.prefix_append _ _
    | cons new ustk =>
      dsimp only
      rw [List.append_assoc, List.append_assoc]
      exact List.prefix_append _ _
  · exact List.prefix_refl _

theorem run_log (st : UseState) (stmts : List UseStmt) : st.uevs <+: (st.run stmts).uevs := by
  induction stmts generalizing st with
  | nil => exact List.prefix_refl _
  | cons s stmts ih => exact (step_log s st).trans (ih _)

theorem run_append (st : UseState) (xs ys : List UseStmt) : st.run (xs ++ ys) = (st.run xs).run ys := List.foldl_append

end Log

section Nesting

/-- How many tables are pushed after a statement. -/
def UseStmt.nest (d : ℕ) (s : UseStmt) : ℕ := if s.isPush then d + 1 else if s.isPop then d - 1 else d

def nesting (d : ℕ) (stmts : List UseStmt) : ℕ := stmts.foldl UseStmt.nest d

/-- Each PUSH has its POP. -/
inductive Matched : List UseStmt → Prop
  | nil : Matched []
  | cons {s : UseStmt} {w : List UseStmt} (h : s.isPush = false) (h' : s.isPop = false) (hw : Matched w) : Matched (s :: w)
  | pair {p q : UseStmt} {u w : List UseStmt} (hp : p.isPush = true) (hq : q.isPop = true) (hu : Matched u) (hw : Matched w) :
      Matched (p :: (u ++ q :: w))

variable {s : UseStmt} {st : UseState}

theorem step_other (hp : s.isPush = false) (hq : s.isPop = false) : (s.step st).ustk = st.ustk := by
  have hkept : Kept s fun st' => st'.ustk = st.ustk := ⟨fun _ _ h => h, fun _ _ _ h _ => h, fun _ _ h => h, fun _ _ h => h, fun _ h => h⟩
  apply hkept.step
  · intro h
    rw [hp] at h
    exact absurd h nofun
  · intro h
    rw [hq] at h
    exact absurd h nofun
  · rfl

theorem step_push (h : s.isPush = true) (hroom : st.ustk.length < 16) : (s.step st).ustk = st.usings :: st.ustk := by
  have hop : s.op = .pushOp := (of_decide_eq_true h).1
  rw [UseStmt.step, hop]
  dsimp only
  rw [if_pos h, UseStmt.pushStmt, if_pos hroom]

theorem step_pop (h : s.isPop = true) {t : List Uent} {ts : List (List Uent)} (hstk : st.ustk = t :: ts) :
    (s.step st).ustk = ts ∧ (s.step st).usings = t := by
  have hop : s.op = .popOp := (of_decide_eq_true h).1
  rw [UseStmt.step, hop]
  dsimp only
  rw [if_pos h, UseStmt.popStmt, hstk]
  exact ⟨rfl, rfl⟩

theorem isPush_of_isPop (h : s.isPop = true) : s.isPush = false := by
  have hop : s.op = .popOp := (of_decide_eq_true h).1
  rw [UseStmt.isPush, hop]
  simp

/-- A POP behind statements that leave the stack alone brings back the table of the PUSH before them. -/
theorem pop_restores {p q : UseStmt} {u : List UseStmt} (hp : p.isPush = true) (hq : q.isPop = true) (hroom : st.ustk.length < 16)
    (hu : ((p.step st).run u).ustk = (p.step st).ustk) :
    (q.step ((p.step st).run u)).ustk = st.ustk ∧ (q.step ((p.step st).run u)).usings = st.usings := by
  apply step_pop hq
  rw [hu, step_push hp hroom]

theorem nesting_push {p : UseStmt} (hp : p.isPush = true) (d : ℕ) (l : List UseStmt) : nesting d (p :: l) = nesting (d + 1) l := by
  rw [nesting, List.foldl_cons, UseStmt.nest, if_pos hp]
  rfl

theorem nesting_append (d : ℕ) (l l' : List UseStmt) : nesting d (l ++ l') = nesting (nesting d l) l' := List.foldl_append

theorem nesting_pop {q : UseStmt} (hq : q.isPop = true) (d : ℕ) (l : List UseStmt) : nesting d (q :: l) = nesting (d - 1) l := by
  rw [nesting, List.foldl_cons, UseStmt.nest, isPush_of_isPop hq, if_neg Bool.false_ne_true, if_pos hq]
  rfl

/-- As long as the stack has room, matched statements leave it as it was. -/
theorem Matched.ustk {w : List UseStmt} (h : Matched w) (st : UseState) (hfit : ∀ l, l <+: w → nesting st.ustk.length l ≤ 16) :
    (st.run w).ustk = st.ustk ∧ nesting st.ustk.length w = st.ustk.length := by
  induction h generalizing st with
  | nil => exact ⟨rfl, rfl⟩
  | @cons s w hp hq hw ih =>
    have hstep := @step_other s st hp hq
    have hnest (l : List UseStmt) : nesting st.ustk.length (s :: l) = nesting (s.step st).ustk.length l := by
      rw [hstep, nesting, List.foldl_cons, UseStmt.nest, hp, hq]
      rfl
    obtain ⟨hustk, hlen⟩ := ih (s.step st) fun l hl => by
      rw [← hnest]
      exact hfit _ ((List.prefix_cons_inj s).mpr hl)
    rw [hnest, hlen, hstep]
    exact ⟨hustk.trans hstep, rfl⟩
  | @pair p q u w hp hq hu hw ihu ihw =>
    have hroom : st.ustk.length < 16 := by
      have hone := hfit [p] (List.prefix_append [p] _)
      rwa [nesting_push hp] at hone
    have hlen : (p.step st).ustk.length = st.ustk.length + 1 := by rw [step_push hp hroom, List.length_cons]
    have hu := ihu (p.step st) fun l hl => by
      rw [hlen, ← nesting_push hp]
      exact hfit _ ((List.prefix_cons_inj p).mpr (hl.trans (List.prefix_append _ _)))
    have hstk := (pop_restores hp hq hroom hu.1).1
    have hnest (l : List UseStmt) : nesting st.ustk.length (p :: (u ++ q :: l)) = nesting st.ustk.length l := by
      rw [nesting_push hp, nesting_append, ← hlen, hu.2, nesting_pop hq, hlen, Nat.add_sub_cancel]
    have hw := ihw (q.step ((p.step st).run u)) fun l hl => by
      rw [hstk, ← hnest]
      exact hfit _ ((List.prefix_cons_inj p).mpr ((List.prefix_append_right_inj u).mpr ((List.prefix_cons_inj q).mpr hl)))
    rw [hnest]
    rw [hstk] at hw
    refine ⟨?_, hw.2⟩
    change ((p.step st).run (u ++ q :: w)).ustk = st.ustk
    rw [run_append]
    exact hw.1

theorem run_ustk_length (stmts : List UseStmt) (st : UseState) (hfit : ∀ l, l <+: stmts → nesting st.ustk.length l ≤ 16) :
    (st.run stmts).ustk.length = nesting st.ustk.length stmts := by
  induction stmts generalizing st with
  | nil => rfl
  | cons s stmts ih =>
    have hone : (s.step st).ustk.length = UseStmt.nest st.ustk.length s := by
      have hfits : UseStmt.nest st.ustk.length s ≤ 16 := hfit [s] (List.prefix_append [s] _)
      rw [UseStmt.nest] at hfits ⊢
      by_cases hp : s.isPush = true
      · rw [if_pos hp] at hfits ⊢
        rw [step_push hp hfits, List.length_cons]
      · rw [if_neg hp]
        by_cases hq : s.isPop = true
        · rw [if_pos hq]
          cases hstk : st.ustk with
          | nil =>
            have hop : s.op = .popOp := (of_decide_eq_true hq).1
            rw [UseStmt.step, hop]
            dsimp only
            rw [if_pos hq, UseStmt.popStmt, hstk]
            simp
          | cons t ts =>
            rw [(step_pop hq hstk).1, List.length_cons, Nat.add_sub_cancel]
        · rw [if_neg hq, step_other (by simpa using hp) (by simpa using hq)]
    have hrest := ih (s.step st) fun l hl => by
      rw [hone]
      exact hfit _ ((List.prefix_cons_inj s).mpr hl)
    rw [hone] at hrest
    exact hrest

end Nesting

/-- The log of USINGs after every statement, and what a POP brings back. -/
theorem usings_replayed (stmts : List UseStmt) :
    (∀ pre, pre <+: stmts → (UseState.start.run pre).uevs <+: (UseState.start.run stmts).uevs ∧
      (∀ r u, replayUevs (UseState.start.run pre).uevs r = some u ↔ u ∈ (UseState.start.run pre).usings ∧ u.reg = r) ∧
      ((UseState.start.run pre).usings.map Uent.reg).Nodup) ∧
    ((∀ l, l <+: stmts → nesting 0 l ≤ 16) → ∀ pre p w q post, stmts = pre ++ p :: (w ++ q :: post) → p.isPush = true → q.isPop = true → Matched w →
      (UseState.start.run (pre ++ p :: (w ++ [q]))).usings = (UseState.start.run pre).usings) := by
  constructor
  · rintro pre ⟨post, rfl⟩
    have hgood := Faithful.start.run pre
    refine ⟨?_, hgood.shows.mem, hgood.shows.nodup⟩
    rw [run_append]
    exact run_log _ _
  · rintro hfit pre p w q post rfl hp hq hw
    have hlen : (UseState.start.run pre).ustk.length = nesting 0 pre :=
      run_ustk_length pre .start fun l hl => hfit l (hl.trans (List.prefix_append _ _))
    have hnest (l : List UseStmt) (hl : l <+: w) : nesting (nesting 0 pre + 1) l ≤ 16 := by
      rw [← nesting_push hp, ← nesting_append]
      exact hfit _ ((List.prefix_append_right_inj pre).mpr ((List.prefix_cons_inj p).mpr (hl.trans (List.prefix_append _ _))))
    have hroom : (UseState.start.run pre).ustk.length < 16 := by
      rw [hlen]
      exact hnest [] (List.nil_prefix)
    have hmid := hw.ustk (p.step (UseState.start.run pre)) fun l hl => by
      rw [step_push hp hroom, List.length_cons, hlen]
      exact hnest l hl
    have hpop := (pop_restores hp hq hroom hmid.1).2
    rw [run_append]
    change (((p.step (UseState.start.run pre)).run (w ++ [q]))).usings = _
    rw [run_append]
    exact hpop

end Cc370.As370
