import Cc370.As370.Diagnostics
import Mathlib.Algebra.Order.Ring.Nat

namespace Cc370.As370

namespace Diagnostic

variable (m : Module)

/-- What is dropped without being raised: operations `do_pass` skips, and an operand error or MNOTE that belongs to no statement. -/
def raised : Diagnostic → Bool
  | unknown o line => !decide (o ∈ Diags.skip) && (!m.hdrMissing o || decide (0 ≤ line))
  | operr _ _ line => decide (0 ≤ line)
  | mnote _ _ _ line => decide (0 ≤ line)
  | _ => true

def severity : Diagnostic → ℕ
  | nochar _ _ _ => 4
  | cont err _ _ _ lost _ => if m.strictCont = true ∧ lost = true then 8 else if err ≠ 0 then 4 else 0
  | badfmt _ _ => 12
  | operr _ sev _ => sev
  | mnote sev _ _ _ => sev
  | _ => 8

/-- The list a diagnostic goes to, and the entry it makes there. -/
def entry : Diagnostic → Option (Cat × Entry)
  | nochar _ _ _ => none
  | cont _ _ _ _ _ _ => none
  | unknown o line => if o ∈ Diags.skip then none
    else if m.hdrMissing o then
      if line < 0 then none else some (.operr, ⟨"Macro header missing, macro not expandable (IFOX00 IFO085)".toList, 8, line⟩)
    else some (.unk, ⟨o, 0, line⟩)
  | badfmt o line => some (.badfmt, ⟨o, 0, line⟩)
  | badtype ty line => some (.badty, ⟨[ty.getD '?'], 0, line⟩)
  | notimpl what line => some (.nyi, ⟨what, 0, line⟩)
  | relocdisp o line => some (.reld, ⟨o, 0, line⟩)
  | addrerr o line => some (.addr, ⟨o, 0, line⟩)
  | overlong n line => some (.ovl, ⟨n, 0, line⟩)
  | ovldef n line => some (.ovldef, ⟨n, 0, line⟩)
  | ovlref o line => some (.ovlref, ⟨o, 0, line⟩)
  | undefsym n line => some (.undef, ⟨n, 0, line⟩)
  | operr msg sev line => if line < 0 then none else some (.operr, ⟨msg, sev, line⟩)
  | mnote sev _ text line => if line < 0 then none else some (.mnote, ⟨text, sev, line⟩)

end Diagnostic

/-- The highest severity of any diagnostic raised. -/
def highest (m : Module) (l : List Raise) : ℕ := ((l.filter (·.diag.raised m)).map (·.diag.severity m)).foldr max 0

/-- The entries raised for one list. -/
def entriesOf (m : Module) (c : Cat) (l : List Raise) : List Entry :=
  l.filterMap fun r => (r.diag.entry m).bind fun e => if e.1 = c then some e.2 else none

/-- How many entries a list prints: those that repeat no earlier one, up to its cap. -/
def Cat.printed (m : Module) (l : List Raise) (c : Cat) : ℕ := min c.cap (Capped.firsts c.same c.store (entriesOf m c l)).length

/-- How many diagnostics of statements are printed, over the twelve lists. -/
def printed (m : Module) (l : List Raise) : ℕ := (Cat.all.map (Cat.printed m l)).sum

/-- The highest severity is the return code, a severity flags a statement, and the merged list stays in its 128 * 11 entries. -/
structure Reported (m : Module) (l : List Raise) : Prop where
  code : (Diags.run m l).returnCode m = highest m l
  flagged : 0 < highest m l → 0 < (Diags.run m l).errors m
  fits : (Diags.run m l).merged.length ≤ 128 * 11

namespace Diags

variable {m : Module} {st : Diags} {curlit : Option ℕ}

@[simp] theorem markFlagged_lists (line : ℤ) : (st.markFlagged curlit line).lists = st.lists := by
  unfold markFlagged
  repeat' split
  all_goals rfl

@[simp] theorem markContStmt_lists (card : ℤ) (inlib : Bool) : (st.markContStmt card inlib).lists = st.lists := by
  unfold markContStmt
  repeat' split
  all_goals rfl

@[simp] theorem enter_lists (c : Cat) (a : Entry) :
    (st.enter c a).lists = Function.update st.lists c ((st.lists c).addNew c.cap c.same c.store a) := rfl

/-- A diagnostic adds its entry to its list and leaves the others alone. -/
theorem step_lists (r : Raise) : (step m st r).lists = match r.diag.entry m with
    | some (c, a) => Function.update st.lists c ((st.lists c).addNew c.cap c.same c.store a)
    | none => st.lists := by
  have hoperr (msg : List Char) (sev : ℕ) (line : ℤ) : (st.noteOperr r.curlit msg sev line).lists =
      match (if line < 0 then none else some (Cat.operr, Entry.mk msg sev line)) with
      | some (c, a) => Function.update st.lists c ((st.lists c).addNew c.cap c.same c.store a)
      | none => st.lists := by
    unfold noteOperr
    split <;> simp [*]
  rcases r with ⟨curlit, diag⟩
  cases diag with
  | nochar cp card src =>
    simp only [step, noteChar, Diagnostic.entry]
    split <;> simp
  | cont err card text stmt lost src => simp [step, noteCont, Diagnostic.entry]
  | unknown o line =>
    simp only [step, noteUnknown, Diagnostic.entry]
    split
    · rfl
    split
    · exact hoperr _ _ _
    · simp
  | operr msg sev line => exact hoperr msg sev line
  | mnote sev explicitSev text line =>
    simp only [step, noteMnote, Diagnostic.entry]
    split
    · rfl
    · split <;> simp
  | _ => simp [step, Diagnostic.entry, noteBadfmt, noteBadtype, noteNotimpl, noteRelocdisp, noteAddrerr, noteOverlong, noteOvldef,
      noteOvlref, noteUndefsym]

theorem run_lists (l : List Raise) (c : Cat) :
    (run m l).lists c = (entriesOf m c l).foldl (Capped.addNew c.cap c.same c.store) Capped.empty := by
  induction l using List.reverseRecOn with
  | nil => rfl
  | append_singleton l r ih =>
    have hrun : run m (l ++ [r]) = step m (run m l) r := by
      rw [run, List.foldl_append]
      rfl
    rw [hrun, step_lists, entriesOf, List.filterMap_append, List.foldl_append, ← entriesOf, ← ih]
    cases h : r.diag.entry m with
    | none => simp [h]
    | some e =>
      obtain ⟨d, a⟩ := e
      by_cases hd : d = c
      · subst hd
        simp [h]
      · simp [h, hd, Function.update_of_ne (Ne.symm hd)]

theorem merged_length (l : List Raise) : (run m l).merged.length = printed m l := by
  rw [merged, printed, List.length_flatMap]
  congr 1
  apply List.map_congr_left
  intro c _
  rw [List.length_map, List.length_zipIdx, run_lists, Capped.kept_length]
  rfl

theorem raiseTo_le (b : Prop) [Decidable b] (k s n : ℕ) : raiseTo b k s ≤ n ↔ s ≤ n ∧ (b → k ≤ n) := by
  rw [raiseTo]
  split
  · rename_i h
    exact ⟨fun hk => ⟨h.2.le.trans hk, fun _ => hk⟩, fun hk => hk.2 h.1⟩
  · rename_i h
    refine ⟨fun hs => ⟨hs, fun hb => ?_⟩, And.left⟩
    exact (not_lt.mp fun hlt => h ⟨hb, hlt⟩).trans hs

theorem raiseTo_foldl_le (f : Cat → Capped Entry) (cs : List Cat) (s n : ℕ) :
    cs.foldl (fun s c => raiseTo (c.counts (f c) = true) c.sev s) s ≤ n ↔ s ≤ n ∧ ∀ c ∈ cs, c.counts (f c) = true → c.sev ≤ n := by
  induction cs generalizing s with
  | nil => simp
  | cons c cs ih => rw [List.foldl_cons, ih, raiseTo_le, and_assoc, List.forall_mem_cons]

/-- What no step of `main`'s search for the highest severity goes beyond. -/
structure Below (m : Module) (n : ℕ) (st : Diags) : Prop where
  char : 0 < st.srcw.seen → 4 ≤ n
  ifox : 0 < st.contdIfox → 4 ≤ n
  lost : m.strictCont = true ∧ 0 < st.contdLost → 8 ≤ n
  lists : ∀ c ∈ Cat.shared, c.counts (st.lists c) = true → c.sev ≤ n
  operr : st.operrMaxsev ≤ n
  mnote : st.mnoteMaxsev ≤ n

/-- The counters agree with what they count. -/
structure Tallied (st : Diags) : Prop where
  cont : st.contd.kept = [] → st.contdIfox = 0 ∧ st.contdLost = 0
  pri : st.ncontPri = st.contPri.card

theorem maxSev_le (h : Tallied st) (n : ℕ) : st.maxSev m ≤ n ↔ Below m n st := by
  have hchar : (if 0 < st.srcw.seen then 4 else 0) ≤ n ↔ (0 < st.srcw.seen → 4 ≤ n) := by
    split <;> simp [*]
  simp only [maxSev, raiseTo_le, raiseTo_foldl_le, true_implies]
  by_cases hnil : st.contd.kept = []
  · obtain ⟨hifox, hlost⟩ := h.cont hnil
    rw [if_pos hnil, hchar]
    constructor
    · rintro ⟨⟨⟨hc, hl⟩, ho⟩, hm⟩
      refine ⟨hc, fun hpos => ?_, fun hpos => ?_, hl, ho, hm⟩
      · omega
      · omega
    · exact fun hb => ⟨⟨⟨hb.char, hb.lists⟩, hb.operr⟩, hb.mnote⟩
  · rw [if_neg hnil, raiseTo_le, raiseTo_le, hchar]
    constructor
    · rintro ⟨⟨⟨⟨⟨hc, hi⟩, hs⟩, hl⟩, ho⟩, hm⟩
      exact ⟨hc, hi, hs, hl, ho, hm⟩
    · exact fun hb => ⟨⟨⟨⟨⟨hb.char, hb.ifox⟩, hb.lost⟩, hb.lists⟩, hb.operr⟩, hb.mnote⟩

variable {n : ℕ}

theorem below_markFlagged (line : ℤ) : Below m n (st.markFlagged curlit line) ↔ Below m n st := by
  unfold markFlagged
  repeat' split
  all_goals exact ⟨fun h => ⟨h.1, h.2, h.3, h.4, h.5, h.6⟩, fun h => ⟨h.1, h.2, h.3, h.4, h.5, h.6⟩⟩

theorem below_markContStmt (card : ℤ) (inlib : Bool) : Below m n (st.markContStmt card inlib) ↔ Below m n st := by
  unfold markContStmt
  repeat' split
  all_goals exact ⟨fun h => ⟨h.1, h.2, h.3, h.4, h.5, h.6⟩, fun h => ⟨h.1, h.2, h.3, h.4, h.5, h.6⟩⟩

theorem cap_pos (c : Cat) : 0 < c.cap := by
  cases c <;> decide

theorem counts_addNew (c : Cat) (k : Capped Entry) (a : Entry) : c.counts (k.addNew c.cap c.same c.store a) = true := by
  have hkept : (k.addNew c.cap c.same c.store a).kept ≠ [] := Capped.kept_addNew_ne_nil (cap_pos c) k a
  have hseen : 0 < (k.addNew c.cap c.same c.store a).seen := Capped.seen_addNew_pos k a
  cases c with
  | undef => exact decide_eq_true hseen
  | _ => exact decide_eq_true hkept

theorem below_enter (c : Cat) (a : Entry) : Below m n (st.enter c a) ↔ Below m n st ∧ (c ∈ Cat.shared → c.sev ≤ n) := by
  have hself : (st.enter c a).lists c = (st.lists c).addNew c.cap c.same c.store a := Function.update_self ..
  constructor
  · intro h
    refine ⟨⟨h.char, h.ifox, h.lost, ?_, h.operr, h.mnote⟩, fun hc => h.lists c hc (by rw [hself]; exact counts_addNew c _ a)⟩
    intro d hd hcounts
    apply h.lists d hd
    by_cases hdc : d = c
    · subst hdc
      rw [hself]
      exact counts_addNew d _ a
    · rwa [enter_lists, Function.update_of_ne hdc]
  · rintro ⟨h, hc⟩
    refine ⟨h.char, h.ifox, h.lost, ?_, h.operr, h.mnote⟩
    intro d hd hcounts
    by_cases hdc : d = c
    · exact hdc ▸ hc (hdc ▸ hd)
    · rw [enter_lists, Function.update_of_ne hdc] at hcounts
      exact h.lists d hd hcounts

theorem below_operrMaxsev (sev : ℕ) : Below m n { st with operrMaxsev := max st.operrMaxsev sev } ↔ Below m n st ∧ sev ≤ n :=
  ⟨fun h => ⟨⟨h.1, h.2, h.3, h.4, (max_le_iff.mp h.5).1, h.6⟩, (max_le_iff.mp h.5).2⟩,
    fun h => ⟨h.1.1, h.1.2, h.1.3, h.1.4, max_le h.1.5 h.2, h.1.6⟩⟩

theorem below_mnoteMaxsev (sev : ℕ) : Below m n { st with mnoteMaxsev := max st.mnoteMaxsev sev } ↔ Below m n st ∧ sev ≤ n :=
  ⟨fun h => ⟨⟨h.1, h.2, h.3, h.4, h.5, (max_le_iff.mp h.6).1⟩, (max_le_iff.mp h.6).2⟩,
    fun h => ⟨h.1.1, h.1.2, h.1.3, h.1.4, h.1.5, max_le h.1.6 h.2⟩⟩

theorem below_noteOperr (msg : List Char) (sev : ℕ) (line : ℤ) :
    Below m n (st.noteOperr curlit msg sev line) ↔ Below m n st ∧ (0 ≤ line → sev ≤ n) := by
  unfold noteOperr
  split
  · rename_i hline
    exact ⟨fun h => ⟨h, fun hl => absurd hline (not_lt.mpr hl)⟩, And.left⟩
  · rename_i hline
    rw [below_enter, below_operrMaxsev, below_markFlagged]
    exact ⟨fun h => ⟨h.1.1, fun _ => h.1.2⟩, fun h => ⟨⟨h.1, h.2 (not_lt.mp hline)⟩, fun hc => absurd hc (by decide)⟩⟩

theorem below_noteMnote (sev : ℕ) (explicitSev : Bool) (text : List Char) (line : ℤ) :
    Below m n (st.noteMnote curlit sev explicitSev text line) ↔ Below m n st ∧ (0 ≤ line → sev ≤ n) := by
  have hmark : Below m n (if 0 < sev ∨ explicitSev = true then st.markFlagged curlit line else st) ↔ Below m n st := by
    split
    · exact below_markFlagged line
    · exact Iff.rfl
  unfold noteMnote
  split
  · rename_i hline
    exact ⟨fun h => ⟨h, fun hl => absurd hline (not_lt.mpr hl)⟩, And.left⟩
  · rename_i hline
    rw [below_enter, below_mnoteMaxsev, hmark]
    exact ⟨fun h => ⟨h.1.1, fun _ => h.1.2⟩, fun h => ⟨⟨h.1, h.2 (not_lt.mp hline)⟩, fun hc => absurd hc (by decide)⟩⟩

theorem below_addChar (w : SrcW) : Below m n { st with srcw := st.srcw.add 64 w } ↔ Below m n st ∧ 4 ≤ n := by
  have hseen : 0 < (st.srcw.add 64 w).seen := by
    rw [Capped.seen_add]
    exact Nat.succ_pos _
  exact ⟨fun h => ⟨⟨fun _ => h.1 hseen, h.2, h.3, h.4, h.5, h.6⟩, h.1 hseen⟩,
    fun h => ⟨fun _ => h.2, h.1.2, h.1.3, h.1.4, h.1.5, h.1.6⟩⟩

theorem below_noteChar (cp : ℕ) (card : ℤ) (src : Option (List Char)) :
    Below m n (st.noteChar cp card src) ↔ Below m n st ∧ 4 ≤ n := by
  have hmark : Below m n (st.markContStmt card src.isSome) ↔ Below m n st := below_markContStmt card src.isSome
  generalize hst : st.markContStmt card src.isSome = st' at hmark
  rw [noteChar, hst, ← hmark]
  split
  · rename_i hlast
    refine ⟨fun h => ⟨h, h.char ?_⟩, And.left⟩
    -- the last card kept is this one, so one has been seen
    have hkept : st'.srcw.kept ≠ [] := by
      intro hnil
      rw [hnil] at hlast
      exact absurd hlast nofun
    exact Nat.add_pos_left (List.length_pos_of_ne_nil hkept) _
  · exact below_addChar _

theorem below_addCont (c : Capped Contd) : Below m n { st with contd := c } ↔ Below m n st :=
  ⟨fun h => ⟨h.1, h.2, h.3, h.4, h.5, h.6⟩, fun h => ⟨h.1, h.2, h.3, h.4, h.5, h.6⟩⟩

theorem below_countCont (err : ℕ) (lost : Bool) :
    Below m n { st with
      contdLost := if lost then st.contdLost + 1 else st.contdLost
      contdIfox := if err ≠ 0 then st.contdIfox + 1 else st.contdIfox } ↔
    Below m n st ∧ (if m.strictCont = true ∧ lost = true then 8 else if err ≠ 0 then 4 else 0) ≤ n := by
  constructor
  · intro h
    refine ⟨⟨h.char, fun hpos => h.ifox ?_, fun hpos => h.lost ⟨hpos.1, ?_⟩, h.lists, h.operr, h.mnote⟩, ?_⟩
    · dsimp only
      split <;> omega
    · dsimp only
      split <;> omega
    split
    · rename_i hlost
      apply h.lost
      refine ⟨hlost.1, ?_⟩
      rw [if_pos hlost.2]
      exact Nat.succ_pos _
    split
    · rename_i herr
      apply h.ifox
      rw [if_pos herr]
      exact Nat.succ_pos _
    · exact Nat.zero_le n
  · rintro ⟨h, hn⟩
    refine ⟨h.char, fun hpos => ?_, fun hpos => ?_, h.lists, h.operr, h.mnote⟩
    · by_cases herr : err ≠ 0
      · rw [if_pos herr] at hn
        split at hn <;> omega
      · rw [if_neg herr] at hpos
        exact h.ifox hpos
    · by_cases hlost : lost = true
      · rwa [if_pos ⟨hpos.1, hlost⟩] at hn
      · rw [if_neg hlost] at hpos
        exact h.lost hpos

theorem below_noteCont (err : ℕ) (card : ℤ) (text : List Char) (stmt : ℤ) (lost : Bool) (src : Option (List Char)) :
    Below m n (st.noteCont err card text stmt lost src) ↔
      Below m n st ∧ (if m.strictCont = true ∧ lost = true then 8 else if err ≠ 0 then 4 else 0) ≤ n := by
  rw [noteCont, below_addCont, below_markContStmt, below_countCont]

theorem below_step (r : Raise) : Below m n (step m st r) ↔ Below m n st ∧ (r.diag.raised m = true → r.diag.severity m ≤ n) := by
  rcases r with ⟨curlit, diag⟩
  cases diag with
  | nochar cp card src => simp [step, Diagnostic.raised, Diagnostic.severity, below_noteChar]
  | cont err card text stmt lost src => simp [step, Diagnostic.raised, Diagnostic.severity, below_noteCont]
  | unknown o line =>
    simp only [step, Diagnostic.raised, Diagnostic.severity, noteUnknown]
    by_cases hskip : o ∈ skip
    · simp [hskip]
    · by_cases hhdr : m.hdrMissing o = true
      · simp [hskip, hhdr, below_noteOperr]
      · simp [hskip, hhdr, below_enter, below_markFlagged, Cat.shared, Cat.sev]
  | operr msg sev line => simp [step, Diagnostic.raised, Diagnostic.severity, below_noteOperr]
  | mnote sev explicitSev text line => simp [step, Diagnostic.raised, Diagnostic.severity, below_noteMnote]
  | _ => simp [step, Diagnostic.raised, Diagnostic.severity, noteBadfmt, noteBadtype, noteNotimpl, noteRelocdisp, noteAddrerr,
      noteOverlong, noteOvldef, noteOvlref, noteUndefsym, below_enter, below_markFlagged, Cat.shared, Cat.sev]

theorem run_snoc (l : List Raise) (r : Raise) : run m (l ++ [r]) = step m (run m l) r := by
  rw [run, List.foldl_append]
  rfl

theorem below_run (l : List Raise) : Below m n (run m l) ↔ ∀ r ∈ l, r.diag.raised m = true → r.diag.severity m ≤ n := by
  induction l using List.reverseRecOn with
  | nil =>
    refine ⟨fun _ r hr => absurd hr List.not_mem_nil, fun _ => ⟨nofun, nofun, fun h => absurd h.2 nofun, ?_, Nat.zero_le n, Nat.zero_le n⟩⟩
    intro c hc hcounts
    revert hcounts
    cases c <;> exact fun h => absurd h nofun
  | append_singleton l r ih =>
    rw [run_snoc, below_step, ih]
    simp only [List.mem_append, List.mem_singleton, or_imp, forall_and, forall_eq]

theorem highest_le (l : List Raise) : highest m l ≤ n ↔ ∀ r ∈ l, r.diag.raised m = true → r.diag.severity m ≤ n := by
  induction l with
  | nil => simp [highest]
  | cons r l ih =>
    rw [highest] at ih ⊢
    by_cases hr : r.diag.raised m = true
    · rw [List.filter_cons, if_pos hr, List.map_cons, List.foldr_cons, max_le_iff, ih, List.forall_mem_cons]
      exact and_congr_left' ⟨fun h _ => h, fun h => h hr⟩
    · rw [List.filter_cons, if_neg hr, ih, List.forall_mem_cons]
      exact ⟨fun h => ⟨fun h' => absurd h' hr, h⟩, And.right⟩

theorem tallied_markFlagged (h : Tallied st) (line : ℤ) : Tallied (st.markFlagged curlit line) := by
  unfold markFlagged
  repeat' split
  all_goals exact ⟨h.1, h.2⟩

theorem tallied_markContStmt (h : Tallied st) (card : ℤ) (inlib : Bool) : Tallied (st.markContStmt card inlib) := by
  unfold markContStmt
  split
  · exact h
  split
  · split
    · exact h
    · exact ⟨h.1, h.2⟩
  · split
    · exact h
    · rename_i hnew
      refine ⟨h.1, ?_⟩
      rw [Finset.card_insert_of_notMem hnew, h.pri]

theorem tallied_noteOperr (h : Tallied st) (msg : List Char) (sev : ℕ) (line : ℤ) : Tallied (st.noteOperr curlit msg sev line) := by
  unfold noteOperr
  split
  · exact h
  · have hmark : Tallied (st.markFlagged curlit line) := tallied_markFlagged h line
    exact ⟨hmark.1, hmark.2⟩

theorem tallied_step (h : Tallied st) (r : Raise) : Tallied (step m st r) := by
  have hmark (line : ℤ) : Tallied (st.markFlagged r.curlit line) := tallied_markFlagged h line
  rcases r with ⟨curlit, diag⟩
  cases diag with
  | nochar cp card src =>
    have hcard := tallied_markContStmt h card src.isSome
    simp only [step, noteChar]
    split
    · exact hcard
    · exact ⟨hcard.1, hcard.2⟩
  | cont err card text stmt lost src =>
    refine ⟨fun hnil => absurd hnil (Capped.kept_add_ne_nil (by decide) _ _), ?_⟩
    have hcounted : st.ncontPri = st.contPri.card := h.pri
    simp only [step, noteCont, markContStmt]
    repeat' split
    all_goals simp_all
  | unknown o line =>
    simp only [step, noteUnknown]
    split
    · exact h
    split
    · exact tallied_noteOperr h _ _ _
    · exact ⟨(hmark line).1, (hmark line).2⟩
  | operr msg sev line => exact tallied_noteOperr h msg sev line
  | mnote sev explicitSev text line =>
    simp only [step, noteMnote]
    split
    · exact h
    split
    · exact ⟨(hmark line).1, (hmark line).2⟩
    · exact ⟨h.1, h.2⟩
  | badfmt o line => exact ⟨(hmark line).1, (hmark line).2⟩
  | badtype ty line => exact ⟨(hmark line).1, (hmark line).2⟩
  | notimpl what line => exact ⟨(hmark line).1, (hmark line).2⟩
  | relocdisp o line => exact ⟨(hmark line).1, (hmark line).2⟩
  | addrerr o line => exact ⟨(hmark line).1, (hmark line).2⟩
  | overlong n line => exact ⟨(hmark line).1, (hmark line).2⟩
  | ovldef n line => exact ⟨(hmark line).1, (hmark line).2⟩
  | ovlref o line => exact ⟨(hmark line).1, (hmark line).2⟩
  | undefsym n line => exact ⟨(hmark line).1, (hmark line).2⟩

theorem tallied_run (l : List Raise) : Tallied (run m l) := by
  induction l using List.reverseRecOn with
  | nil => exact ⟨fun _ => ⟨rfl, rfl⟩, rfl⟩
  | append_singleton l r ih =>
    rw [run_snoc]
    exact tallied_step ih r

theorem maxSev_run (l : List Raise) : (run m l).maxSev m = highest m l := by
  apply eq_of_forall_ge_iff
  intro n
  rw [maxSev_le (tallied_run l), below_run, highest_le]

/-- No card is taken off the count that was not counted. -/
theorem countFlaggedStmts_nonneg (h : Tallied st) : 0 ≤ st.countFlaggedStmts m := by
  have hle := Finset.card_filter_le st.contPri fun c => st.hits m c = 1
  rw [← h.pri] at hle
  rw [countFlaggedStmts]
  omega

theorem errors_pos (h : Tallied st) (hsev : 0 < st.maxSev m) : 0 < st.errors m := by
  have hnonneg := countFlaggedStmts_nonneg (m := m) h
  rw [errors]
  split
  · exact one_pos
  · rename_i hne
    refine lt_of_le_of_ne hnonneg fun heq => hne ⟨heq.symm, hsev.ne'⟩

theorem returnCode_eq (h : Tallied st) : st.returnCode m = st.maxSev m := by
  rw [returnCode]
  split
  · rfl
  · rename_i hnone
    by_contra hne
    have hpos := errors_pos h (Nat.pos_of_ne_zero (Ne.symm hne))
    exact hnone hpos.ne'

end Diags

/-- The return code and the count are right for any mix of diagnostics; the merged list is not kept within its array. -/
theorem reported_iff (m : Module) (l : List Raise) : Reported m l ↔ printed m l ≤ 1408 := by
  constructor
  · intro h
    rw [← Diags.merged_length]
    exact h.fits
  · intro h
    constructor
    · rw [Diags.returnCode_eq (Diags.tallied_run l), Diags.maxSev_run]
    · intro hpos
      rw [← Diags.maxSev_run] at hpos
      exact Diags.errors_pos (Diags.tallied_run l) hpos
    · rw [Diags.merged_length]
      exact h

/-- One diagnostic of a kind in each statement of a range. -/
def oneEach (diag : ℤ → Diagnostic) (start n : ℕ) : List Raise :=
  (List.range n).map fun i => ⟨none, diag ((start + i : ℕ) : ℤ)⟩

def longLabel : List Char := "LABELTOOLONG".toList

/-- 512 statements name an undefined symbol, and seven other errors are made 128 times each; one label is too long. -/
def crowded : List Raise :=
  oneEach (.undefsym ['X']) 0 512 ++ oneEach (.unknown ['F', 'O', 'O']) 512 128 ++
    oneEach (.operr "Negative duplication factor (IFOX00 IFO206)".toList 8) 640 128 ++ oneEach (.badtype (some 'N')) 768 128 ++
    oneEach (.badfmt ['S', 'T', 'M']) 896 128 ++ oneEach (.relocdisp ['L']) 1024 128 ++ oneEach (.addrerr ['L']) 1152 128 ++
    oneEach (.mnote 8 true ['B', 'A', 'D']) 1280 128 ++ oneEach (.ovldef longLabel) 1408 1

def crowdedModule : Module where
  nl := 1409
  lineOrg := fun i => i + 1
  gen := fun _ => false
  hdrMissing := fun _ => false
  strictCont := false

variable {m : Module}

theorem entriesOf_append (c : Cat) (l l' : List Raise) : entriesOf m c (l ++ l') = entriesOf m c l ++ entriesOf m c l' :=
  List.filterMap_append

theorem entriesOf_oneEach {diag : ℤ → Diagnostic} {d : Cat} {text : List Char} {sev : ℕ}
    (h : ∀ i : ℕ, (diag i).entry m = some (d, ⟨text, sev, i⟩)) (c : Cat) (start n : ℕ) :
    entriesOf m c (oneEach diag start n) = if d = c then (List.range n).map fun i => ⟨text, sev, ((start + i : ℕ) : ℤ)⟩ else [] := by
  rw [entriesOf, oneEach, List.filterMap_map]
  split
  · rename_i hc
    rw [← List.filterMap_eq_map]
    congr 1
    funext i
    simp only [Function.comp_apply, h, Option.bind_some, if_pos hc]
  · rename_i hc
    rw [List.filterMap_eq_nil_iff]
    intro i _
    simp only [Function.comp_apply, h, Option.bind_some, if_neg hc]

theorem firsts_lines {c : Cat} (hc : c ≠ .ovl) (text : List Char) (sev start n : ℕ) :
    (Capped.firsts c.same c.store ((List.range n).map fun i => (⟨text, sev, ((start + i : ℕ) : ℤ)⟩ : Entry))).length = n := by
  rw [Capped.firsts_of_fresh, List.length_map, List.length_map, List.length_range]
  rw [List.pairwise_map]
  apply List.pairwise_lt_range.imp
  intro i j hij
  cases c with
  | ovl => exact absurd rfl hc
  | undef =>
    simp only [Cat.same, Cat.store, Bool.and_eq_false_iff, beq_eq_false_iff_ne]
    left
    omega
  | _ => rfl

theorem crowded_entries (c : Cat) : (Capped.firsts c.same c.store (entriesOf crowdedModule c crowded)).length = match c with
    | .undef => 512
    | .ovldef => 1
    | .nyi | .ovl | .ovlref => 0
    | _ => 128 := by
  have hunk (i : ℕ) : (Diagnostic.unknown ['F', 'O', 'O'] i).entry crowdedModule = some (.unk, ⟨['F', 'O', 'O'], 0, i⟩) := by
    have hskip : ['F', 'O', 'O'] ∉ Diags.skip := by decide
    rw [Diagnostic.entry, if_neg hskip]
    rfl
  have hoperr (msg : List Char) (i : ℕ) : (Diagnostic.operr msg 8 i).entry crowdedModule = some (.operr, ⟨msg, 8, i⟩) := by
    rw [Diagnostic.entry, if_neg (not_lt.mpr (Int.natCast_nonneg i))]
  have hmnote (text : List Char) (i : ℕ) : (Diagnostic.mnote 8 true text i).entry crowdedModule = some (.mnote, ⟨text, 8, i⟩) := by
    rw [Diagnostic.entry, if_neg (not_lt.mpr (Int.natCast_nonneg i))]
  simp only [crowded, entriesOf_append]
  rw [entriesOf_oneEach (fun i => rfl : ∀ i : ℕ, (Diagnostic.undefsym ['X'] i).entry crowdedModule = some (.undef, ⟨['X'], 0, i⟩)),
    entriesOf_oneEach hunk, entriesOf_oneEach (hoperr _),
    entriesOf_oneEach (fun i => rfl : ∀ i : ℕ, (Diagnostic.badtype (some 'N') i).entry crowdedModule = some (.badty, ⟨['N'], 0, i⟩)),
    entriesOf_oneEach (fun i => rfl : ∀ i : ℕ, (Diagnostic.badfmt ['S', 'T', 'M'] i).entry crowdedModule = some (.badfmt, ⟨_, 0, i⟩)),
    entriesOf_oneEach (fun i => rfl : ∀ i : ℕ, (Diagnostic.relocdisp ['L'] i).entry crowdedModule = some (.reld, ⟨_, 0, i⟩)),
    entriesOf_oneEach (fun i => rfl : ∀ i : ℕ, (Diagnostic.addrerr ['L'] i).entry crowdedModule = some (.addr, ⟨_, 0, i⟩)),
    entriesOf_oneEach (hmnote _),
    entriesOf_oneEach (fun i => rfl : ∀ i : ℕ, (Diagnostic.ovldef _ i).entry crowdedModule = some (.ovldef, ⟨_, 0, i⟩))]
  cases c <;> simp only [reduceCtorEq, if_false, if_true, List.nil_append, List.append_nil]
  case nyi => rfl
  case ovl => rfl
  case ovlref => rfl
  all_goals rw [firsts_lines (by decide)]

theorem crowded_printed : printed crowdedModule crowded = 1409 := by
  have hcats : Cat.printed crowdedModule crowded = fun c => min c.cap (match c with
      | .undef => 512
      | .ovldef => 1
      | .nyi | .ovl | .ovlref => 0
      | _ => 128) := by
    funext c
    rw [Cat.printed, crowded_entries]
  rw [printed, hcats]
  rfl

theorem crowded_overflows : ¬ Reported crowdedModule crowded := by
  intro h
  have hfits := h.fits
  rw [Diags.merged_length, crowded_printed] at hfits
  exact absurd hfits (by decide)

end Cc370.As370
