import Cc370.Lib.Nesting
import Cc370.As370.Expansion

namespace Cc370.As370.Expand

variable {σ : Type} {E : Interp σ} {s : St σ}

namespace St

@[simp]
theorem noteOperr_frames (msg : String) (sev : ℕ) (line : ℤ) : (s.noteOperr msg sev line).frames = s.frames := by
  unfold noteOperr
  split <;> rfl

@[simp]
theorem noteOperr_mcallSlot (msg : String) (sev : ℕ) (line : ℤ) :
    (s.noteOperr msg sev line).mcallSlot = s.mcallSlot := by
  unfold noteOperr
  split <;> rfl

@[simp]
theorem noteAll_frames (ds : List Diag) : (s.noteAll ds).frames = s.frames := rfl

@[simp]
theorem noteAll_mcallSlot (ds : List Diag) : (s.noteAll ds).mcallSlot = s.mcallSlot := rfl

@[simp]
theorem log_frames (e : Event) : (s.log e).frames = s.frames := rfl

@[simp]
theorem log_mcallSlot (e : Event) : (s.log e).mcallSlot = s.mcallSlot := rfl

@[simp]
theorem putNoted_frames (l : Line) (notes : ℤ → List Diag) : (s.putNoted l notes).frames = s.frames := by
  unfold putNoted
  split <;> rfl

@[simp]
theorem putNoted_mcallSlot (l : Line) (notes : ℤ → List Diag) : (s.putNoted l notes).mcallSlot = s.mcallSlot := by
  unfold putNoted
  split <;> rfl

@[simp]
theorem put_frames (l : Line) : (s.put l).frames = s.frames := putNoted_frames l _

@[simp]
theorem put_mcallSlot (l : Line) : (s.put l).mcallSlot = s.mcallSlot := putNoted_mcallSlot l _

@[simp]
theorem putCard_frames (l : Line) : (s.putCard l).frames = s.frames := by
  unfold putCard
  split
  · exact put_frames l
  · rfl

@[simp]
theorem putCard_mcallSlot (l : Line) : (s.putCard l).mcallSlot = s.mcallSlot := by
  unfold putCard
  split
  · exact put_mcallSlot l
  · rfl

@[simp]
theorem logCut_frames (name : Name) (cards : List Card) : (s.logCut name cards).frames = s.frames := by
  unfold logCut
  split <;> rfl

@[simp]
theorem logCut_mcallSlot (name : Name) (cards : List Card) : (s.logCut name cards).mcallSlot = s.mcallSlot := by
  unfold logCut
  split <;> rfl

/-- A statement that is put, or dropped, leaves a line in `lines[]`. -/
theorem put_out_pos (l : Line) : 0 < (s.put l).out.length := by
  unfold put putNoted
  split
  · simp
  · rename_i h
    simp only [maxLines, not_lt] at h
    simp only [log]
    omega

end St

/-- What a state keeps while a statement is worked on in the loop that reads it. -/
def Same (s s' : St σ) : Prop := s'.frames = s.frames ∧ s'.mcallSlot = s.mcallSlot

theorem Same.trans {a b c : St σ} (h : Same a b) (h' : Same b c) : Same a c := ⟨h'.1.trans h.1, h'.2.trans h.2⟩

theorem same_putNoted (l : Line) (notes : ℤ → List Diag) : Same s (s.putNoted l notes) := ⟨by simp, by simp⟩

theorem libLoad_same (op : Name) : Same s (E.libLoad s op).1 := by
  unfold Interp.libLoad
  split
  · exact ⟨rfl, rfl⟩
  · split
    · exact ⟨rfl, rfl⟩
    · split
      · exact ⟨rfl, rfl⟩
      · dsimp only
        split
        · exact ⟨by simp, by simp⟩
        · split
          · exact ⟨by simp, by simp⟩
          · split <;> exact ⟨by simp, by simp⟩

/-- What `mexp_line` at a depth does to the loops that run: nothing, or the assembler ends, or a macro or a copied
member is entered. -/
inductive LineTurn (s s' : St σ) (depth : ℕ) : Prop
  | same : Same s s' → LineTurn s s' depth
  | abort : s'.frames = [] → LineTurn s s' depth
  | block (g : BlockFrame) : s'.frames = .block g :: s.frames → s'.mcallSlot = s.mcallSlot → g.depth = depth + 1 →
      g.guard = 0 → depth ≤ maxDepth → LineTurn s s' depth
  | call (g : MacroFrame) : s'.frames = .call g :: s.frames → 0 ≤ s'.mcallSlot → g.saveSlot = s.mcallSlot →
      g.depth = depth → g.guard = 0 → depth ≤ maxDepth → LineTurn s s' depth

theorem LineTurn.of_same {a b c : St σ} {depth : ℕ} (h : Same a b) (t : LineTurn b c depth) : LineTurn a c depth := by
  obtain ⟨hf, hs⟩ := h
  cases t with
  | same h => exact .same (.trans ⟨hf, hs⟩ h)
  | abort h => exact .abort h
  | block g h hslot hd hg hm => exact .block g (hf ▸ h) (hslot.trans hs) hd hg hm
  | call g h hslot hsave hd hg hm => exact .call g (hf ▸ h) hslot (hsave.trans hs) hd hg hm

theorem LineTurn.then_same {a b c : St σ} {depth : ℕ} (t : LineTurn a b depth) (h : Same b c) : LineTurn a c depth := by
  obtain ⟨hf, hs⟩ := h
  cases t with
  | same h => exact .same (.trans h ⟨hf, hs⟩)
  | abort h => exact .abort (hf.trans h)
  | block g h hslot hd hg hm => exact .block g (hf.trans h) (hs.trans hslot) hd hg hm
  | call g h hslot hsave hd hg hm => exact .call g (hf.trans h) (hs ▸ hslot) hsave hd hg hm

theorem setStep_turn (ctx : Ctx) (f : Fields) (depth : ℕ) : LineTurn s (E.setStep s ctx f) depth := by
  unfold Interp.setStep
  split
  · exact .abort rfl
  · exact .same ⟨rfl, rfl⟩

theorem lineStmt_same (line : Card) (w : Model) (i7 : Bool) : Same s (E.lineStmt s line w i7) := by
  unfold Interp.lineStmt
  dsimp only
  refine .trans ?_ (same_putNoted _ _)
  split
  · split <;> exact ⟨by simp, by simp⟩
  · split <;> exact ⟨by simp, by simp⟩

theorem lineCall_turn (line : Card) (w : Model) (m : Macro) (depth : ℕ) (hd : depth ≤ maxDepth) :
    LineTurn s (E.lineCall s line w m depth) depth := by
  have hput (t : St σ) (l : Line) (lbl : Name) (opnd : List Char) (ht : Same s t) :
      LineTurn s (E.mexpMacro (t.put l) m lbl opnd depth) depth := by
    have hpos : 0 < (t.put l).out.length := t.put_out_pos l
    refine .call ⟨m, macroSeq m, 0, 0, actrDefault, depth, (t.put l).copyraw, (t.put l).mcallSlot⟩ ?_ ?_ ?_ rfl rfl hd
    · simp only [Interp.mexpMacro, St.put_frames, ht.1]
    · simp only [Interp.mexpMacro]
      omega
    · rw [St.put_mcallSlot, ht.2]
  unfold Interp.lineCall
  dsimp only
  apply hput
  split
  · exact ⟨by simp, by simp⟩
  · exact ⟨rfl, rfl⟩

theorem lineModel_turn (line sysbuf : Card) (f : Fields) (depth : ℕ) (i7 : Bool) :
    LineTurn s (E.lineModel s line sysbuf f depth i7) depth := by
  unfold Interp.lineModel
  dsimp only
  split
  · rename_i hup
    have hd : depth ≤ maxDepth := by
      simp only [Interp.looksUp, decide_eq_true_eq] at hup
      exact hup.2.2.2
    have hload := libLoad_same (E := E) (s := s) (E.model s line sysbuf f).f.op
    split
    · rename_i heq
      rw [heq] at hload
      exact .of_same hload (lineCall_turn _ _ _ _ hd)
    · rename_i heq
      rw [heq] at hload
      exact .same (hload.trans (lineStmt_same _ _ _))
  · exact .same (lineStmt_same _ _ _)

theorem lineCopy_turn (line sysbuf : Card) (f : Fields) (depth : ℕ) (i7 : Bool) :
    LineTurn s (E.lineCopy s line sysbuf f depth i7) depth := by
  unfold Interp.lineCopy
  split
  · rename_i hd
    split
    · exact .block _ (by simp [Interp.mexpBlock]; rfl) (by simp [Interp.mexpBlock]) rfl rfl hd
    · exact .of_same ⟨by simp, by simp⟩ (lineModel_turn _ _ _ _ _)
  · exact .of_same ⟨by simp, by simp⟩ (lineModel_turn _ _ _ _ _)

theorem lineMnote_same (line sysbuf : Card) (opnd : List Char) : Same s (E.lineMnote s line sysbuf opnd) := by
  unfold Interp.lineMnote
  dsimp only
  refine .trans ?_ (same_putNoted _ _)
  split <;> exact ⟨by simp, by simp⟩

theorem mexpLine_turn (line : Card) (depth : ℕ) (i7 : Bool) : LineTurn s (E.mexpLine s line depth i7) depth := by
  unfold Interp.mexpLine
  dsimp only
  split
  · exact .same (lineMnote_same _ _ _)
  · split
    · unfold Interp.lineSet
      dsimp only
      split
      · exact .of_same ⟨by simp, by simp⟩ (setStep_turn _ _ _)
      · exact setStep_turn _ _ _
    · split
      · exact lineCopy_turn _ _ _ _ _
      · exact lineModel_turn _ _ _ _ _

namespace Frame

/-- A macro that a block calls has the depth of the block. -/
def level : Frame → ℕ
  | .call f => 2 * f.depth + 1
  | .block f => 2 * f.depth

/-- The turns that the guard leaves to the loop. -/
def left : Frame → ℕ
  | .call f => macroGuard - f.guard
  | .block f => blockGuard - f.guard

/-- The slot of the macro call when the loop has been left. -/
def slotAfter : Frame → ℤ → ℤ
  | .call f, _ => f.saveSlot
  | .block _, slot => slot

/-- The second loop is the first one, one turn later. -/
def Turned : Frame → Frame → Prop
  | .call f, .call g => f.guard < macroGuard ∧ g.guard = f.guard + 1 ∧ g.depth = f.depth ∧ g.saveSlot = f.saveSlot
  | .block f, .block g => f.guard < blockGuard ∧ g.guard = f.guard + 1 ∧ g.depth = f.depth
  | _, _ => False

theorem Turned.level_eq {f g : Frame} (h : Turned f g) : g.level = f.level := by
  cases f <;> cases g <;> simp_all [Turned, level]

theorem Turned.left_lt {f g : Frame} (h : Turned f g) : g.left < f.left := by
  cases f <;> cases g <;> simp only [Turned, left] at * <;> omega

end Frame

/-- What a step does: the innermost loop is left, or it takes a turn, in which `mexp_line` is called at most once. -/
inductive Turn (s s' : St σ) : Prop
  | ret (f : Frame) (rest : List Frame) : s.frames = f :: rest → s'.frames = rest →
      s'.mcallSlot = f.slotAfter s.mcallSlot → Turn s s'
  | on (f g : Frame) (rest : List Frame) (next : St σ) (depth : ℕ) : s.frames = f :: rest → f.Turned g →
      next.frames = g :: rest → next.mcallSlot = s.mcallSlot → f.level ≤ 2 * depth → LineTurn next s' depth → Turn s s'

theorem Turn.stays {s' : St σ} {f g : Frame} {rest : List Frame} (hs : s.frames = f :: rest) (hg : f.Turned g)
    (hf : s'.frames = g :: rest) (hslot : s'.mcallSlot = s.mcallSlot) : Turn s s' :=
  .on f g rest s' f.level hs hg hf hslot (by omega) (.same ⟨rfl, rfl⟩)

theorem Turn.then_same {t u : St σ} (h : Turn s t) (h' : Same t u) : Turn s u := by
  cases h with
  | ret f rest hs hf hslot => exact .ret f rest hs (h'.1.trans hf) (h'.2.trans hslot)
  | on f g rest next depth hs hg hf hslot hlev ht => exact .on f g rest next depth hs hg hf hslot hlev (ht.then_same h')

section Steps

variable {rest : List Frame}

theorem macroBranch_turn {t : St σ} {f : MacroFrame} {g : Frame} (seq : Name) (hs : s.frames = g :: rest)
    (hslot : t.mcallSlot = s.mcallSlot) (hg : g.Turned (.call f)) : Turn s (E.macroBranch t f rest seq) := by
  have hsave : f.saveSlot = g.slotAfter s.mcallSlot := by
    cases g with
    | call g => exact hg.2.2.2
    | block g => exact hg.elim
  unfold Interp.macroBranch
  split
  · exact .ret g rest hs rfl hsave
  · refine .stays hs ?_ rfl hslot
    cases g with
    | call g => exact hg
    | block g => exact hg.elim

theorem macroCard_turn {next : St σ} {f : MacroFrame} {g : Frame} (card : Card) (b : Fields)
    (hs : s.frames = g :: rest) (hg : g.Turned (.call f)) (hf : next.frames = .call { f with pc := f.pc + 1 } :: rest)
    (hslot : next.mcallSlot = s.mcallSlot) : Turn s (E.macroCard next f rest card b) := by
  have hlev : g.level ≤ 2 * (f.depth + 1) := by
    have := hg.level_eq
    simp only [Frame.level] at this ⊢
    omega
  have hg' : g.Turned (.call { f with pc := f.pc + 1 }) := by
    cases g with
    | call g => exact hg
    | block g => exact hg.elim
  have on {s' : St σ} (t : LineTurn next s' (f.depth + 1)) : Turn s s' := .on _ _ _ next _ hs hg' hf hslot hlev t
  unfold Interp.macroCard
  split
  · refine .ret g rest hs rfl ?_
    cases g with
    | call g => exact hg.2.2.2
    | block g => exact hg.elim
  · split
    · exact on (.same (same_putNoted _ _))
    · split
      · exact on (.same (same_putNoted _ _))
      · split
        · refine .stays hs ?_ rfl hslot
          cases g with
          | call g => exact hg
          | block g => exact hg.elim
        · split
          · exact on (setStep_turn _ _ _)
          · split
            · dsimp only
              split
              · exact macroBranch_turn _ hs hslot hg
              · exact on (.same ⟨rfl, rfl⟩)
            · split
              · exact macroBranch_turn _ hs hslot hg
              · exact on (mexpLine_turn _ _ _)

theorem stepMacro_turn {f : MacroFrame} (hs : s.frames = .call f :: rest) : Turn s (E.stepMacro s f rest) := by
  unfold Interp.stepMacro
  split
  · exact .ret _ rest hs rfl rfl
  · split
    · exact .ret _ rest hs rfl rfl
    · rename_i hguard
      have hg : Frame.Turned (.call f) (.call { f with guard := f.guard + 1 }) := ⟨by omega, rfl, rfl, rfl⟩
      dsimp only
      split
      · exact .stays (g := .call { f with pc := f.pc + 1, guard := f.guard + 1 }) hs hg rfl rfl
      · exact macroCard_turn _ _ hs hg rfl rfl

theorem foldl_putNoted_same (es : List (Line × (ℤ → List Diag))) :
    Same s (es.foldl (fun s e => s.putNoted e.1 e.2) s) := by
  induction es generalizing s with
  | nil => exact ⟨rfl, rfl⟩
  | cons e es ih => exact .trans (same_putNoted _ _) ih

theorem blockCard_turn {next : St σ} {f : BlockFrame} {g : Frame} (card : Card) (b : Fields)
    (hs : s.frames = g :: rest) (hg : g.Turned (.block f)) (hf : next.frames = .block { f with pc := f.pc + 1 } :: rest)
    (hslot : next.mcallSlot = s.mcallSlot) : Turn s (E.blockCard next f rest card b) := by
  have hlev : g.level ≤ 2 * f.depth := hg.level_eq.ge
  have hg' (pc : ℕ) : g.Turned (.block { f with pc := pc }) := by
    cases g with
    | call g => exact hg.elim
    | block g => exact hg
  have branch (t : St σ) (seq : Name) (ht : t.mcallSlot = s.mcallSlot) : Turn s (blockBranch t f rest seq) :=
    .stays hs (hg' _) rfl ht
  have on {s' : St σ} (t : LineTurn next s' f.depth) : Turn s s' := .on _ _ _ next _ hs (hg' _) hf hslot hlev t
  unfold Interp.blockCard
  split
  · unfold Interp.blockMacro
    dsimp only
    split
    · refine Turn.then_same ?_ (foldl_putNoted_same _)
      exact .stays hs (hg' _) rfl hslot
    · exact .stays hs (hg' _) rfl hslot
  · split
    · have hlist : Same next (if next.genlevel = 0 then next.put ⟨card, false, true⟩ else next) := by
        split
        · exact same_putNoted _ _
        · exact ⟨rfl, rfl⟩
      dsimp only
      generalize (if next.genlevel = 0 then next.put ⟨card, false, true⟩ else next) = t at hlist
      split
      · unfold Interp.blockAif
        dsimp only
        split
        · exact branch _ _ (hlist.2.trans hslot)
        · exact on (.same (hlist.trans ⟨rfl, rfl⟩))
      · exact branch _ _ (hlist.2.trans hslot)
    · split
      · have hline := mexpLine_turn (E := E) (s := { next with frames := .block { f with pc := f.pc + 2 } :: rest }) card
          f.depth false
        dsimp only
        split
        · exact .on _ _ _ { next with frames := _ } _ hs (hg' _) rfl hslot hlev (hline.then_same (same_putNoted _ _))
        · exact .on _ _ _ { next with frames := _ } _ hs (hg' _) rfl hslot hlev hline
      · exact on (mexpLine_turn _ _ _)

theorem stepBlock_turn {f : BlockFrame} (hs : s.frames = .block f :: rest) : Turn s (E.stepBlock s f rest) := by
  unfold Interp.stepBlock
  split
  · exact .ret _ rest hs rfl rfl
  · split
    · exact .ret _ rest hs rfl rfl
    · rename_i hguard
      have hg (pc : ℕ) : Frame.Turned (.block f) (.block { (E.readCard s f).2 with pc := pc }) := ⟨by omega, rfl, rfl⟩
      dsimp only
      split
      · refine Turn.then_same ?_ (same_putNoted _ _)
        exact .stays hs (hg _) rfl rfl
      · exact blockCard_turn _ _ hs (hg _) rfl rfl

theorem step_turn (h : s.frames ≠ []) : Turn s (E.step s) := by
  unfold Interp.step
  split
  · contradiction
  · exact stepMacro_turn ‹_›
  · exact stepBlock_turn ‹_›

end Steps

/-- The deepest level of a loop: `mexp_line` enters none behind depth 40. -/
def maxLevel : ℕ := 2 * maxDepth + 2

theorem LineTurn.nested {next s' : St σ} {depth : ℕ} {f g : Frame} {rest : List Frame} (h : LineTurn next s' depth)
    (hg : f.Turned g) (hf : next.frames = g :: rest) (hlev : f.level ≤ 2 * depth) :
    Lib.Nested Frame.level Frame.left maxLevel (macroGuard + 1) (f :: rest) s'.frames := by
  cases h with
  | same h => exact h.1.symm ▸ hf.symm ▸ .stay hg.level_eq hg.left_lt
  | abort h => exact h.symm ▸ .ret List.nil_suffix
  | block b h hslot hd hguard hm =>
    rw [h, hf]
    have hb : (Frame.block b).level = 2 * depth + 2 := by
      simp only [Frame.level, hd]
      ring
    refine .call hg.level_eq hg.left_lt (by omega) ?_ ?_
    · simp only [hb, maxLevel]
      omega
    · simp [Frame.left, hguard, blockGuard, macroGuard]
  | call b h hslot hsave hd hguard hm =>
    rw [h, hf]
    have hb : (Frame.call b).level = 2 * depth + 1 := by simp only [Frame.level, hd]
    refine .call hg.level_eq hg.left_lt (by omega) ?_ ?_
    · simp only [hb, maxLevel]
      omega
    · simp [Frame.left, hguard]

theorem Turn.nested {s' : St σ} (h : Turn s s') :
    Lib.Nested Frame.level Frame.left maxLevel (macroGuard + 1) s.frames s'.frames := by
  cases h with
  | ret f rest hs hf hslot => exact hs.symm ▸ hf.symm ▸ .ret List.suffix_rfl
  | on f g rest next depth hs hg hf hslot hlev ht => exact hs.symm ▸ ht.nested hg hf hlev

/-- Conditional assembly and macro expansion come to an end. -/
theorem run_halts (sigma : σ) (source : List Card) : ∃ n, (E.run sigma source n).frames = [] := by
  have hstep (s : St σ) (h : s.frames ≠ []) := (step_turn (E := E) h).nested
  exact Lib.Nested.halts hstep (E.start sigma source)

/-- Inside of a macro there is a line for its diagnostics: the line of the call. -/
def SlotsOk : List Frame → ℤ → Prop
  | [], _ => True
  | .call f :: rest, slot => 0 ≤ slot ∧ SlotsOk rest f.saveSlot
  | .block _ :: rest, slot => SlotsOk rest slot

theorem SlotsOk.after {f : Frame} {rest : List Frame} {slot : ℤ} (h : SlotsOk (f :: rest) slot) :
    SlotsOk rest (f.slotAfter slot) := by
  cases f with
  | call f => exact h.2
  | block f => exact h

theorem SlotsOk.turned {f g : Frame} {rest : List Frame} {slot : ℤ} (h : SlotsOk (f :: rest) slot) (hg : f.Turned g) :
    SlotsOk (g :: rest) slot := by
  cases f with
  | call f =>
    cases g with
    | call g => exact ⟨h.1, hg.2.2.2 ▸ h.2⟩
    | block g => exact hg.elim
  | block f =>
    cases g with
    | call g => exact hg.elim
    | block g => exact h

theorem LineTurn.slotsOk {next s' : St σ} {depth : ℕ} (h : LineTurn next s' depth)
    (hok : SlotsOk next.frames next.mcallSlot) : SlotsOk s'.frames s'.mcallSlot := by
  cases h with
  | same h => rwa [h.1, h.2]
  | abort h => exact h.symm ▸ trivial
  | block g h hslot hd hg hm =>
    rw [h, hslot]
    exact hok
  | call g h hslot hsave hd hg hm =>
    rw [h]
    exact ⟨hslot, hsave ▸ hok⟩

theorem Turn.slotsOk {s' : St σ} (h : Turn s s') (hok : SlotsOk s.frames s.mcallSlot) :
    SlotsOk s'.frames s'.mcallSlot := by
  cases h with
  | ret f rest hs hf hslot =>
    rw [hf, hslot]
    exact (hs ▸ hok).after
  | on f g rest next depth hs hg hf hslot hlev ht =>
    apply ht.slotsOk
    rw [hf, hslot]
    exact (hs ▸ hok).turned hg

theorem run_slotsOk (sigma : σ) (source : List Card) (n : ℕ) :
    SlotsOk (E.run sigma source n).frames (E.run sigma source n).mcallSlot := by
  induction n with
  | zero => trivial
  | succ n ih =>
    rw [Interp.run, Function.iterate_succ_apply']
    by_cases h : (E.run sigma source n).frames = []
    · have : E.step (E.run sigma source n) = E.run sigma source n := by simp [Interp.step, h]
      rwa [← Interp.run, this]
    · exact (step_turn h).slotsOk ih

end Cc370.As370.Expand
