import Cc370.As370.ExpansionHalts

namespace Cc370.As370.Expand

namespace Event

/-- The events that shorten the module: a loop that is left before its end, a branch to a sequence symbol that does
not exist, a statement or a card that is dropped, a COPY that is not carried out. -/
def Incident : Event → Prop
  | .exit how => how = .actr ∨ how = .guard ∨ how = .abort
  | .branch _ found => found = false
  | .listed _ => False
  | .dropped _ => True
  | .cut _ => True
  | .uncopied _ => True

end Event

/-- The statements that got a line. -/
def listed (es : List Event) : List Line :=
  es.filterMap fun
    | .listed l => some l
    | _ => none

/-- The statements that conditional assembly selected. -/
def selected (es : List Event) : List Line :=
  es.filterMap fun
    | .listed l => some l
    | .dropped l => some l
    | _ => none

theorem selected_eq_listed {es : List Event} (h : ∀ e ∈ es, ¬ e.Incident) : selected es = listed es := by
  unfold selected listed
  apply List.filterMap_congr
  intro e he
  cases e with
  | dropped l => exact (h _ he trivial).elim
  | _ => rfl

variable {σ : Type} {E : Interp σ} {s : St σ}

/-- What a step adds to the events, to the diagnostics and to `lines[]`. -/
structure Adds (s s' : St σ) (es : List Event) (ds : List Diag) : Prop where
  events : s'.events = s.events ++ es
  diags : s'.diags = s.diags ++ ds
  out : s'.out = s.out ++ listed es

theorem Adds.trans {a b c : St σ} {es es' : List Event} {ds ds' : List Diag} (h : Adds a b es ds)
    (h' : Adds b c es' ds') : Adds a c (es ++ es') (ds ++ ds') where
  events := by rw [h'.events, h.events, List.append_assoc]
  diags := by rw [h'.diags, h.diags, List.append_assoc]
  out := by simp [h'.out, h.out, listed]

/-- Every incident of the step comes with a diagnostic of severity 8 or more. -/
def Accompanied (s s' : St σ) : Prop :=
  ∃ es ds, Adds s s' es ds ∧ ((∃ e ∈ es, e.Incident) → ∃ d ∈ ds, 8 ≤ d.sev)

theorem Accompanied.of_eq {t s' : St σ} (h : Accompanied t s') (he : t.events = s.events) (hd : t.diags = s.diags)
    (ho : t.out = s.out) : Accompanied s s' := by
  obtain ⟨es, ds, ha, hi⟩ := h
  exact ⟨es, ds, ⟨he ▸ ha.events, hd ▸ ha.diags, ho ▸ ha.out⟩, hi⟩

/-- Nothing is lost, and at most `k` lines are used. -/
def Quiet (k : ℕ) (s s' : St σ) : Prop :=
  ∃ es ds, Adds s s' es ds ∧ (∀ e ∈ es, ¬ e.Incident) ∧ (listed es).length ≤ k

namespace Quiet

theorem accompanied {k : ℕ} {s' : St σ} (h : Quiet k s s') : Accompanied s s' := by
  obtain ⟨es, ds, ha, hq, -⟩ := h
  exact ⟨es, ds, ha, fun ⟨e, he, hi⟩ => (hq e he hi).elim⟩

theorem then_accompanied {k : ℕ} {a b c : St σ} (h : Quiet k a b) (h' : Accompanied b c) : Accompanied a c := by
  obtain ⟨es, ds, ha, hq, -⟩ := h
  obtain ⟨es', ds', ha', hi⟩ := h'
  refine ⟨es ++ es', ds ++ ds', ha.trans ha', ?_⟩
  rintro ⟨e, he, hinc⟩
  have he' : e ∈ es' := (List.mem_append.mp he).resolve_left fun h => hq e h hinc
  obtain ⟨d, hd, hsev⟩ := hi ⟨e, he', hinc⟩
  exact ⟨d, List.mem_append_right _ hd, hsev⟩

theorem of_left {k : ℕ} {t s' : St σ} (h : Quiet k t s') (he : t.events = s.events) (hd : t.diags = s.diags)
    (ho : t.out = s.out) : Quiet k s s' := by
  obtain ⟨es, ds, ha, hq⟩ := h
  exact ⟨es, ds, ⟨he ▸ ha.events, hd ▸ ha.diags, ho ▸ ha.out⟩, hq⟩

theorem trans {k l : ℕ} {a b c : St σ} (h : Quiet k a b) (h' : Quiet l b c) : Quiet (k + l) a c := by
  obtain ⟨es, ds, ha, hq, hk⟩ := h
  obtain ⟨es', ds', ha', hq', hl⟩ := h'
  refine ⟨es ++ es', ds ++ ds', ha.trans ha', ?_, ?_⟩
  · intro e he
    exact (List.mem_append.mp he).elim (hq e) (hq' e)
  · simp only [listed, List.filterMap_append, List.length_append] at *
    omega

theorem out_le {k : ℕ} {s' : St σ} (h : Quiet k s s') : s'.out.length ≤ s.out.length + k := by
  obtain ⟨es, ds, ha, -, hk⟩ := h
  rw [ha.out, List.length_append]
  omega

theorem mono {k l : ℕ} {s' : St σ} (h : Quiet k s s') (hkl : k ≤ l) : Quiet l s s' := by
  obtain ⟨es, ds, ha, hq, hk⟩ := h
  exact ⟨es, ds, ha, hq, hk.trans hkl⟩

/-- A step that lists nothing and meets no event. -/
theorem of_diags {s' : St σ} (ds : List Diag) (he : s'.events = s.events) (hd : s'.diags = s.diags ++ ds)
    (ho : s'.out = s.out) : Quiet 0 s s' :=
  ⟨[], ds, ⟨by simp [he], hd, by simp [ho, listed]⟩, by simp, by simp [listed]⟩

theorem of_diags_left {k : ℕ} {t s' : St σ} (h : Quiet k t s') (ds : List Diag) (he : t.events = s.events)
    (hd : t.diags = s.diags ++ ds) (ho : t.out = s.out) : Quiet (0 + k) s s' :=
  (of_diags ds he hd ho).trans h

theorem of_eq {s' : St σ} (he : s'.events = s.events) (hd : s'.diags = s.diags) (ho : s'.out = s.out) :
    Quiet 0 s s' :=
  of_diags [] he (by simp [hd]) ho

theorem refl : Quiet 0 s s := of_eq rfl rfl rfl

theorem of_event {s' : St σ} (e : Event) (hi : ¬ e.Incident) (hl : listed [e] = []) (he : s'.events = s.events ++ [e])
    (hd : s'.diags = s.diags) (ho : s'.out = s.out) : Quiet 0 s s' :=
  ⟨[e], [], ⟨he, by simp [hd], by simp [ho, hl]⟩, by simpa using hi, by simp [hl]⟩

theorem then_diags {k : ℕ} {a b c : St σ} (h : Quiet k a b) (ds : List Diag) (he : c.events = b.events)
    (hd : c.diags = b.diags ++ ds) (ho : c.out = b.out) : Quiet k a c :=
  h.trans (of_diags ds he hd ho)

theorem then_eq {k : ℕ} {a b c : St σ} (h : Quiet k a b) (he : c.events = b.events) (hd : c.diags = b.diags)
    (ho : c.out = b.out) : Quiet k a c :=
  h.trans (of_eq he hd ho)

theorem putNoted {l : Line} {notes : ℤ → List Diag} (h : s.out.length < maxLines) : Quiet 1 s (s.putNoted l notes) := by
  refine ⟨[.listed l], notes s.out.length, ?_, ?_, by simp [listed]⟩
  · simp only [St.putNoted, h, ↓reduceIte]
    exact ⟨rfl, rfl, rfl⟩
  · simp [Event.Incident]

theorem putCard {l : Line} (h : s.out.length + 1 < maxLines) : Quiet 1 s (s.putCard l) := by
  simp only [St.putCard, h, ↓reduceIte]
  exact putNoted (by omega)

theorem noteOperr (msg : String) (sev : ℕ) (line : ℤ) : Quiet 0 s (s.noteOperr msg sev line) := by
  unfold St.noteOperr
  split
  · exact refl
  · exact of_diags _ rfl rfl rfl

theorem logCut {name : Name} {cards : List Card} (h : cards.length ≤ libCards) : Quiet 0 s (s.logCut name cards) := by
  rw [St.logCut, if_neg (by omega)]
  exact refl

end Quiet

@[simp]
theorem put_sigma (l : Line) : (s.put l).sigma = s.sigma := by
  unfold St.put St.putNoted
  split <;> rfl

@[simp]
theorem put_curCtx (l : Line) : (s.put l).curCtx = s.curCtx := by
  unfold St.put St.putNoted St.curCtx
  split <;> rfl

@[simp]
theorem noteOperr_out (msg : String) (sev : ℕ) (line : ℤ) : (s.noteOperr msg sev line).out = s.out := by
  unfold St.noteOperr
  split <;> rfl

variable (E)

/-- The member that `lib_load` has to read for a macro is not longer than it reads. -/
def Interp.LoadClear (s : St σ) (op : Name) : Prop :=
  (s.macros.find? fun m => m.name = op) = none → op ∉ s.hdrmiss →
    (E.library op).all (fun cards => cards.length ≤ libCards)

/-- There is a line for the statement, and another one for the card that it was generated from. -/
def Interp.ModelClear (s : St σ) (line sysbuf : Card) (f : Fields) (depth extra : ℕ) : Prop :=
  s.out.length + (if E.substs s line f then 2 else 1) + extra ≤ maxLines ∧
    (E.looksUp (E.model s line sysbuf f) depth → E.LoadClear s (E.model s line sysbuf f).f.op)

/-- The lines that are left are enough for the statement and for `extra` more, the members that it reads are read to
their end, and no table is full. -/
def Interp.LineClear (s : St σ) (line : Card) (depth extra : ℕ) : Prop :=
  let sysbuf := (E.lineFields s line).1
  let f := (E.lineFields s line).2
  if f.op = opMNOTE then s.out.length + (if E.mnotePair s line then 2 else 1) + extra ≤ maxLines
  else if isCaOp f.op then
    s.out.length + (if s.genlevel = 0 then 1 else 0) + extra ≤ maxLines ∧ (E.setStmt s.sigma s.curCtx f).isSome
  else if f.op = opCOPY ∧ f.opnd ≠ [] then
    depth ≤ maxDepth ∧ (E.library f.opnd).all (fun cards => cards.length ≤ libCards) ∧
      s.out.length + extra ≤ maxLines ∧ (E.library f.opnd = none → E.ModelClear s line sysbuf f depth extra)
  else E.ModelClear s line sysbuf f depth extra

/-- A branch of a macro finds its sequence symbol, or ACTR ends the expansion before it is taken. -/
def MacroFrame.BranchClear (f : MacroFrame) (seq : Name) : Prop := f.actr ≤ 0 ∨ (findSeq f.seq seq).isSome

def Interp.MacroCardClear (next : St σ) (f : MacroFrame) (card : Card) (b : Fields) : Prop :=
  if b.op = opMEND ∨ b.op = opMEXIT then True
  else if (f.m.undecl.getD f.pc none).isSome then next.out.length < maxLines
  else if b.op = opMNOTE then next.out.length < maxLines
  else if b.op = opACTR then True
  else if isCaOp b.op then (E.setStmt next.sigma .expansion b).isSome = true
  else if b.op = opAIF then
    (E.condEnv next.sigma .expansion).evalCond (aifParts b.opnd).1 → f.BranchClear (aifParts b.opnd).2
  else if b.op = opAGO then f.BranchClear b.opnd
  else E.LineClear next (E.msub next.sigma .expansion (E.cutRemark card)).1 (f.depth + 1) 0

def Interp.MacroClear (s : St σ) (f : MacroFrame) (rest : List Frame) : Prop :=
  if f.m.body.length ≤ f.pc then True
  else
    let f := { f with guard := f.guard + 1 }
    let card := f.m.body.getD f.pc []
    f.guard ≤ macroGuard ∧
      (isComment card ∨ (E.fields card).op = [] ∨
        E.MacroCardClear { s with frames := .call { f with pc := f.pc + 1 } :: rest } f card (E.fields card))

def Interp.BlockCardClear (next : St σ) (f : BlockFrame) (rest : List Frame) (card : Card) (b : Fields) : Prop :=
  if b.op = opMACRO then next.genlevel = 0 → next.out.length + (E.defined f).length ≤ maxLines
  else if b.op = opAIF ∨ b.op = opAGO then
    (next.genlevel = 0 → next.out.length < maxLines) ∧
      if b.op = opAIF then
        (E.condEnv next.sigma next.curCtx).evalCond (aifParts b.opnd).1 → (findSeq f.seq (aifParts b.opnd).2).isSome
      else (findSeq f.seq b.opnd).isSome
  else if b.op = opREPRO ∧ f.pc + 1 < f.arr.length then
    E.LineClear { next with frames := .block { f with pc := f.pc + 2 } :: rest } card f.depth
      (if next.genlevel = 0 then 1 else 0)
  else E.LineClear next card f.depth 0

def Interp.BlockClear (s : St σ) (f : BlockFrame) (rest : List Frame) : Prop :=
  if f.arr.length ≤ f.pc then True
  else
    let g := (E.readCard s f).2
    let next := { s with sigma := (E.readCard s f).1, frames := .block { g with pc := g.pc + 1 } :: rest }
    let card := g.arr.getD g.pc []
    g.guard ≤ blockGuard ∧
      if g.undeclared then next.out.length < maxLines else E.BlockCardClear next g rest card (E.fields card)

def Interp.FrameClear (s : St σ) : List Frame → Prop
  | [] => True
  | .call f :: rest => E.MacroClear s f rest
  | .block f :: rest => E.BlockClear s f rest

/-- Before a step: the guard of the innermost loop is not used up, a branch that is taken finds its sequence symbol,
`lines[]` has the lines that the statement needs, COPY is not nested too deep, the members are not too long and no table
is full. -/
def Interp.Clear (s : St σ) : Prop := E.FrameClear s s.frames

instance (s : St σ) (op : Name) : Decidable (E.LoadClear s op) := by
  delta Interp.LoadClear
  infer_instance

instance (s : St σ) (line sysbuf : Card) (f : Fields) (depth extra : ℕ) :
    Decidable (E.ModelClear s line sysbuf f depth extra) := by
  delta Interp.ModelClear
  infer_instance

instance (s : St σ) (line : Card) (depth extra : ℕ) : Decidable (E.LineClear s line depth extra) := by
  delta Interp.LineClear
  infer_instance

instance (f : MacroFrame) (seq : Name) : Decidable (f.BranchClear seq) := by
  delta MacroFrame.BranchClear
  infer_instance

instance (next : St σ) (f : MacroFrame) (card : Card) (b : Fields) : Decidable (E.MacroCardClear next f card b) := by
  delta Interp.MacroCardClear
  infer_instance

instance (s : St σ) (f : MacroFrame) (rest : List Frame) : Decidable (E.MacroClear s f rest) := by
  delta Interp.MacroClear
  infer_instance

instance (next : St σ) (f : BlockFrame) (rest : List Frame) (card : Card) (b : Fields) :
    Decidable (E.BlockCardClear next f rest card b) := by
  delta Interp.BlockCardClear
  infer_instance

instance (s : St σ) (f : BlockFrame) (rest : List Frame) : Decidable (E.BlockClear s f rest) := by
  delta Interp.BlockClear
  infer_instance

instance decidableFrameClear (s : St σ) : (fs : List Frame) → Decidable (E.FrameClear s fs)
  | [] => isTrue trivial
  | .call f :: rest => inferInstanceAs (Decidable (E.MacroClear s f rest))
  | .block f :: rest => inferInstanceAs (Decidable (E.BlockClear s f rest))

instance (s : St σ) : Decidable (E.Clear s) := inferInstanceAs (Decidable (E.FrameClear s s.frames))

variable {E}

section Lines

variable {line sysbuf : Card} {f : Fields} {depth extra : ℕ} {i7 : Bool}

theorem setStep_quiet {ctx : Ctx} (h : (E.setStmt s.sigma ctx f).isSome = true) : Quiet 0 s (E.setStep s ctx f) := by
  obtain ⟨⟨sigma, notes⟩, hset⟩ := Option.isSome_iff_exists.mp h
  simp only [Interp.setStep, hset]
  exact .of_diags notes rfl rfl rfl

theorem libLoad_quiet {op : Name} (h : E.LoadClear s op) : Quiet 0 s (E.libLoad s op).1 := by
  unfold Interp.libLoad
  split
  · exact .refl
  · rename_i hfind
    split
    · exact .refl
    · rename_i hmiss
      split
      · exact .refl
      · rename_i cards hlib
        have hcut : Quiet 0 s (s.logCut op cards) := .logCut (by simpa [hlib] using h hfind hmiss)
        dsimp only
        split
        · exact hcut.then_eq rfl rfl rfl
        · split
          · exact hcut.then_eq rfl rfl rfl
          · split
            · exact hcut
            · exact hcut.then_diags _ rfl rfl rfl

theorem putCard_if {b : Bool} {l : Line} (h : s.out.length + (if b then 2 else 1) ≤ maxLines) :
    Quiet (if b then 1 else 0) s (if b then s.putCard l else s) := by
  cases b with
  | false => exact .refl
  | true =>
    simp only [↓reduceIte] at h
    exact .putCard (by omega)

theorem lineMnote_quiet {opnd : List Char} (h : s.out.length + (if E.mnotePair s line then 2 else 1) ≤ maxLines) :
    Quiet (if E.mnotePair s line then 2 else 1) s (E.lineMnote s line sysbuf opnd) := by
  have hcard := putCard_if (l := ⟨line, false, true⟩) h
  have hle := hcard.out_le
  unfold Interp.lineMnote
  dsimp only
  generalize (if E.mnotePair s line = true then s.putCard ⟨line, false, true⟩ else s) = t at hcard hle
  have ht : t.out.length < maxLines := by split at h <;> simp_all <;> omega
  exact (hcard.trans (.putNoted ht)).mono (by split <;> simp)

theorem lineStmt_quiet {w : Model} (h : s.out.length + (if w.subst then 2 else 1) ≤ maxLines) :
    Quiet (if w.subst then 2 else 1) s (E.lineStmt s line w i7) := by
  have hcard := putCard_if (l := ⟨line, false, true⟩) h
  have hle := hcard.out_le
  unfold Interp.lineStmt
  dsimp only
  generalize (if w.subst = true then s.putCard ⟨line, false, true⟩ else s) = t at hcard hle
  have ht : t.out.length < maxLines := by split at h <;> simp_all <;> omega
  rw [if_pos ht]
  have hk : (if w.subst then 1 else 0) + 1 ≤ if w.subst then 2 else 1 := by split <;> simp
  refine Quiet.mono ?_ hk
  exact (hcard.then_eq (c := { t with sigma := E.emitted t.sigma w.f }) rfl rfl rfl).trans (.putNoted ht)

theorem lineCall_quiet {w : Model} {m : Macro} (h : s.out.length + (if w.subst then 2 else 1) ≤ maxLines) :
    Quiet (if w.subst then 2 else 1) s (E.lineCall s line w m depth) := by
  have hcard : Quiet (if w.subst then 1 else 0) s (if w.subst then s.put ⟨line, false, true⟩ else s) := by
    split
    · exact .putNoted (by simp_all; omega)
    · exact .refl
  have hle := hcard.out_le
  unfold Interp.lineCall
  dsimp only
  generalize (if w.subst = true then s.put ⟨line, false, true⟩ else s) = t at hcard hle
  have ht : t.out.length < maxLines := by split at h <;> simp_all <;> omega
  have hk : (if w.subst then 1 else 0) + 1 ≤ if w.subst then 2 else 1 := by split <;> simp
  refine Quiet.mono ?_ hk
  exact (hcard.trans (.putNoted ht)).then_diags _ rfl rfl rfl

theorem model_subst : (E.model s line sysbuf f).subst = E.substs s line f := by
  unfold Interp.model
  split <;> simp_all

theorem lineModel_quiet (h : E.ModelClear s line sysbuf f depth extra) :
    ∃ k, Quiet k s (E.lineModel s line sysbuf f depth i7) ∧ s.out.length + k + extra ≤ maxLines := by
  obtain ⟨hroom, hload⟩ := h
  generalize hw : E.model s line sysbuf f = w at hload
  have hsubst : w.subst = E.substs s line f := hw ▸ model_subst
  rw [← hsubst] at hroom
  refine ⟨_, ?_, hroom⟩
  simp only [Interp.lineModel, hw]
  by_cases hup : E.looksUp w depth = true
  · have hq := libLoad_quiet (hload hup)
    have hle := hq.out_le
    rw [if_pos hup]
    generalize E.libLoad s w.f.op = loaded at hq hle
    obtain ⟨t, m⟩ := loaded
    have ht : t.out.length + (if w.subst then 2 else 1) ≤ maxLines := by
      dsimp only at hle
      omega
    cases m with
    | none =>
      have hstmt : Quiet _ t (E.lineStmt t line w i7) := lineStmt_quiet ht
      simpa only [Nat.zero_add] using hq.trans hstmt
    | some m =>
      have hcall : Quiet _ t (E.lineCall t line w m depth) := lineCall_quiet ht
      simpa only [Nat.zero_add] using hq.trans hcall
  · rw [if_neg hup]
    exact lineStmt_quiet (by omega)

theorem lineCopy_quiet (h : depth ≤ maxDepth)
    (hlib : (E.library f.opnd).all (fun cards => cards.length ≤ libCards) ∧ s.out.length + extra ≤ maxLines ∧
      (E.library f.opnd = none → E.ModelClear s line sysbuf f depth extra)) :
    ∃ k, Quiet k s (E.lineCopy s line sysbuf f depth i7) ∧ s.out.length + k + extra ≤ maxLines := by
  simp only [Interp.lineCopy, if_pos h]
  cases hcards : E.library f.opnd with
  | some cards =>
    refine ⟨0, ?_, hlib.2.1⟩
    have hlen : cards.length ≤ libCards := by simpa [hcards] using hlib.1
    exact (Quiet.logCut hlen).then_eq rfl rfl rfl
  | none =>
    have hnote : Quiet 0 s (s.noteOperr "COPY member not found in library (IFOX00 IFO068)" 8 s.out.length) :=
      .noteOperr _ _ _
    have hclear : E.ModelClear (s.noteOperr "COPY member not found in library (IFOX00 IFO068)" 8 s.out.length) line sysbuf
        f depth extra := by
      unfold St.noteOperr
      split <;> exact hlib.2.2 hcards
    obtain ⟨k, hk, hroom⟩ := lineModel_quiet hclear
    exact ⟨k, by simpa only [Nat.zero_add] using hnote.trans hk, by simpa only [noteOperr_out] using hroom⟩

theorem lineSet_quiet (hroom : s.out.length + (if s.genlevel = 0 then 1 else 0) ≤ maxLines)
    (hset : (E.setStmt s.sigma s.curCtx f).isSome = true) :
    Quiet (if s.genlevel = 0 then 1 else 0) s (E.lineSet s sysbuf f) := by
  unfold Interp.lineSet
  dsimp only
  by_cases hgen : s.genlevel = 0
  · simp only [hgen, ↓reduceIte] at hroom ⊢
    have hput : Quiet 1 s (s.put ⟨sysbuf, false, true⟩) := .putNoted (by omega)
    exact hput.trans (setStep_quiet (by simpa using hset))
  · simp only [hgen, ↓reduceIte]
    exact setStep_quiet hset

theorem mexpLine_quiet (i7 : Bool) (h : E.LineClear s line depth extra) :
    ∃ k, Quiet k s (E.mexpLine s line depth i7) ∧ s.out.length + k + extra ≤ maxLines := by
  simp only [Interp.LineClear] at h
  simp only [Interp.mexpLine]
  split at h
  · rename_i hop
    rw [if_pos hop]
    exact ⟨_, lineMnote_quiet (by omega), h⟩
  · rename_i hop
    rw [if_neg hop]
    split at h
    · rename_i hset
      rw [if_pos hset]
      exact ⟨_, lineSet_quiet (by omega) h.2, h.1⟩
    · rename_i hset
      rw [if_neg hset]
      split at h
      · rename_i hcopy
        rw [if_pos hcopy]
        exact lineCopy_quiet h.1 h.2
      · rename_i hcopy
        rw [if_neg hcopy]
        exact lineModel_quiet h

end Lines

section Steps

variable {rest : List Frame}

/-- The exit for ACTR says so, on the line of the call. -/
theorem macroBranch_accompanied {f : MacroFrame} {seq : Name} (hslot : 0 ≤ s.mcallSlot) (h : f.BranchClear seq) :
    Accompanied s (E.macroBranch s f rest seq) := by
  unfold Interp.macroBranch
  split
  · refine ⟨[.exit .actr], [⟨actrMsg, 8, s.mcallSlot⟩], ?_, fun _ => ⟨_, List.mem_singleton_self _, le_rfl⟩⟩
    simp only [Exit.leaveMacro, St.noteOperr, if_neg (show ¬ s.mcallSlot < 0 by omega)]
    exact ⟨rfl, rfl, by simp [listed]⟩
  · rename_i hactr
    have hfound : (findSeq f.seq seq).isSome = true := h.resolve_left (by omega)
    refine Quiet.accompanied (Quiet.of_event (.branch seq true) ?_ rfl ?_ rfl rfl)
    · simp [Event.Incident]
    · simp only [hfound]

theorem macroCard_accompanied {next : St σ} {f : MacroFrame} {card : Card} {b : Fields} (h : E.MacroCardClear next f card b)
    (hslot : 0 ≤ next.mcallSlot) : Accompanied next (E.macroCard next f rest card b) := by
  unfold Interp.MacroCardClear at h
  unfold Interp.macroCard
  split at h
  · rename_i hend
    rw [if_pos hend]
    exact Quiet.accompanied (Quiet.of_event (.exit .mend) (by simp [Event.Incident]) rfl rfl rfl rfl)
  rename_i hend
  rw [if_neg hend]
  split at h
  · rename_i hundecl
    rw [if_pos hundecl]
    exact Quiet.accompanied (Quiet.putNoted h)
  rename_i hundecl
  rw [if_neg hundecl]
  split at h
  · rename_i hmnote
    rw [if_pos hmnote, Interp.macroMnote]
    exact Quiet.accompanied (Quiet.putNoted h)
  rename_i hmnote
  rw [if_neg hmnote]
  split at h
  · rename_i hactr
    rw [if_pos hactr]
    exact Quiet.accompanied (Quiet.of_eq rfl rfl rfl)
  rename_i hactr
  rw [if_neg hactr]
  split at h
  · rename_i hset
    rw [if_pos hset]
    exact (setStep_quiet h).accompanied
  rename_i hset
  rw [if_neg hset]
  split at h
  · rename_i haif
    rw [if_pos haif]
    have hnoted : Quiet 0 next (next.noteAll (E.condNotes next.sigma .expansion (aifParts b.opnd).1)) :=
      .of_diags _ rfl rfl rfl
    dsimp only
    split
    · rename_i hcond
      exact hnoted.then_accompanied (macroBranch_accompanied hslot (h hcond))
    · exact hnoted.accompanied
  rename_i haif
  rw [if_neg haif]
  split at h
  · rename_i hago
    rw [if_pos hago]
    exact macroBranch_accompanied hslot h
  · rename_i hago
    rw [if_neg hago]
    obtain ⟨k, hk, -⟩ := mexpLine_quiet _ h
    exact hk.accompanied

theorem stepMacro_accompanied {f : MacroFrame} (hslot : 0 ≤ s.mcallSlot) (h : E.MacroClear s f rest) :
    Accompanied s (E.stepMacro s f rest) := by
  unfold Interp.MacroClear at h
  unfold Interp.stepMacro
  split at h
  · rename_i hend
    rw [if_pos hend]
    exact Quiet.accompanied (Quiet.of_event (.exit .endOfBlock) (by simp [Event.Incident]) rfl rfl rfl rfl)
  · rename_i hend
    obtain ⟨hguard, hcard⟩ := h
    rw [if_neg hend, if_neg (by simp only at hguard; omega)]
    dsimp only
    split
    · exact Quiet.accompanied (Quiet.of_eq rfl rfl rfl)
    · rename_i hskip
      rw [not_or] at hskip
      have hclear := (hcard.resolve_left hskip.1).resolve_left hskip.2
      exact (macroCard_accompanied hclear hslot).of_eq rfl rfl rfl

theorem defCards_quiet (es : List (Line × (ℤ → List Diag))) (h : s.out.length + es.length ≤ maxLines) :
    Quiet es.length s (es.foldl (fun s e => s.putNoted e.1 e.2) s) := by
  induction es generalizing s with
  | nil => exact .refl
  | cons e es ih =>
    rw [List.length_cons] at h ⊢
    have hput : Quiet 1 s (s.putNoted e.1 e.2) := .putNoted (by omega)
    have hle := hput.out_le
    rw [Nat.add_comm]
    exact hput.trans (ih (by omega))

theorem blockMacro_quiet {f : BlockFrame} (h : s.genlevel = 0 → s.out.length + (E.defined f).length ≤ maxLines) :
    ∃ k, Quiet k s (E.blockMacro s f rest) := by
  unfold Interp.blockMacro
  dsimp only
  split
  · rename_i hgen
    have hlen : (E.defCards (E.captureMacro (f.arr.drop (f.pc + 1))) (E.defined f)).length = (E.defined f).length := by
      simp [Interp.defCards]
    exact ⟨_, (defCards_quiet _ (by rw [hlen]; exact h hgen)).of_diags_left _ rfl rfl rfl⟩
  · exact ⟨0, .of_diags _ rfl rfl rfl⟩

theorem blockBranch_quiet {f : BlockFrame} {seq : Name} (h : (findSeq f.seq seq).isSome = true) :
    Quiet 0 s (blockBranch s f rest seq) :=
  .of_event (.branch seq true) (by simp [Event.Incident]) rfl (by simp only [blockBranch, h]) rfl rfl

theorem blockCard_quiet {next : St σ} {f : BlockFrame} {card : Card} {b : Fields}
    (h : E.BlockCardClear next f rest card b) : ∃ k, Quiet k next (E.blockCard next f rest card b) := by
  unfold Interp.BlockCardClear at h
  unfold Interp.blockCard
  split at h
  · rename_i hmacro
    rw [if_pos hmacro]
    exact blockMacro_quiet h
  rename_i hmacro
  rw [if_neg hmacro]
  split at h
  · rename_i hbranch
    rw [if_pos hbranch]
    obtain ⟨hroom, hseq⟩ := h
    have hlist : Quiet 1 next (if next.genlevel = 0 then next.put ⟨card, false, true⟩ else next) := by
      split
      · rename_i hgen
        exact .putNoted (hroom hgen)
      · exact Quiet.refl.mono (by omega)
    have hsame : (if next.genlevel = 0 then next.put ⟨card, false, true⟩ else next).sigma = next.sigma ∧
        (if next.genlevel = 0 then next.put ⟨card, false, true⟩ else next).curCtx = next.curCtx := by
      split <;> simp
    dsimp only
    generalize (if next.genlevel = 0 then next.put ⟨card, false, true⟩ else next) = t at hlist hsame
    split at hseq
    · rename_i haif
      rw [if_pos haif]
      simp only [Interp.blockAif, hsame.1, hsame.2]
      have hnoted : Quiet 1 next (t.noteAll (E.condNotes next.sigma next.curCtx (aifParts b.opnd).1)) :=
        hlist.then_diags _ rfl rfl rfl
      split
      · rename_i hcond
        exact ⟨_, hnoted.trans (blockBranch_quiet (hseq hcond))⟩
      · exact ⟨_, hnoted⟩
    · rename_i haif
      rw [if_neg haif]
      exact ⟨_, hlist.trans (blockBranch_quiet hseq)⟩
  rename_i hbranch
  rw [if_neg hbranch]
  split at h
  · rename_i hrepro
    rw [if_pos hrepro]
    obtain ⟨k, hk, hroom⟩ := mexpLine_quiet false h
    have hline : Quiet k next _ := hk.of_left rfl rfl rfl
    have hle := hk.out_le
    dsimp only
    split
    · rename_i hgen
      refine ⟨_, hline.trans (.putNoted ?_)⟩
      simp only [hgen, ↓reduceIte] at hroom hle ⊢
      omega
    · exact ⟨_, hline⟩
  · rename_i hrepro
    rw [if_neg hrepro]
    obtain ⟨k, hk, -⟩ := mexpLine_quiet false h
    exact ⟨k, hk⟩

theorem stepBlock_accompanied {f : BlockFrame} (h : E.BlockClear s f rest) : Accompanied s (E.stepBlock s f rest) := by
  unfold Interp.stepBlock
  by_cases hend : f.arr.length ≤ f.pc
  · rw [if_pos hend]
    exact Quiet.accompanied (Quiet.of_event (.exit .endOfBlock) (by simp [Event.Incident]) rfl rfl rfl rfl)
  · simp only [Interp.BlockClear, if_neg hend] at h
    have hguard : ¬ blockGuard ≤ f.guard := by
      have hcount : (E.readCard s f).2.guard = f.guard + 1 := rfl
      omega
    rw [if_neg hend, if_neg hguard]
    dsimp only
    by_cases hundecl : (E.readCard s f).2.undeclared = true
    · rw [if_pos hundecl] at h ⊢
      exact Accompanied.of_eq (Quiet.accompanied (Quiet.putNoted h.2)) rfl rfl rfl
    · rw [if_neg hundecl] at h ⊢
      obtain ⟨k, hk⟩ := blockCard_quiet h.2
      exact hk.accompanied.of_eq rfl rfl rfl

theorem step_accompanied (hslots : SlotsOk s.frames s.mcallSlot) (h : E.Clear s) : Accompanied s (E.step s) := by
  unfold Interp.Clear at h
  unfold Interp.step
  split
  · exact Quiet.refl.accompanied
  · rename_i f rest hs
    rw [hs] at h hslots
    exact stepMacro_accompanied hslots.1 h
  · rename_i f rest hs
    rw [hs] at h
    exact stepBlock_accompanied h

end Steps

section Runs

variable {sigma : σ} {source : List Card}

theorem run_succ (n : ℕ) : E.run sigma source (n + 1) = E.step (E.run sigma source n) :=
  Function.iterate_succ_apply' _ _ _

theorem run_accompanied {n : ℕ} (h : ∀ k < n, E.Clear (E.run sigma source k)) (k : ℕ) (hk : k < n) :
    Accompanied (E.run sigma source k) (E.run sigma source (k + 1)) := by
  rw [run_succ]
  exact step_accompanied (run_slotsOk sigma source k) (h k hk)

/-- A run whose incidents all come with a diagnostic, and that has none of severity 8, has no incident. -/
theorem run_complete {n : ℕ} (hsource : source.length ≤ maxLines)
    (h : ∀ k < n, Accompanied (E.run sigma source k) (E.run sigma source (k + 1)))
    (hsev : ∀ d ∈ (E.run sigma source n).diags, d.sev < 8) :
    (∀ e ∈ (E.run sigma source n).events, ¬ e.Incident) ∧
      (E.run sigma source n).out = listed (E.run sigma source n).events := by
  induction n with
  | zero =>
    have hstart : (E.run sigma source 0).events = [] := if_neg (by omega)
    rw [hstart]
    exact ⟨by simp, rfl⟩
  | succ n ih =>
    obtain ⟨es, ds, ha, hi⟩ := h n (by omega)
    have hold : ∀ d ∈ (E.run sigma source n).diags, d.sev < 8 := by
      intro d hd
      exact hsev d (ha.diags ▸ List.mem_append_left _ hd)
    obtain ⟨hq, hout⟩ := ih (fun k hk => h k (by omega)) hold
    refine ⟨?_, by simp [ha.events, ha.out, hout, listed]⟩
    intro e he
    rw [ha.events] at he
    rcases List.mem_append.mp he with he | he
    · exact hq e he
    · intro hinc
      obtain ⟨d, hd, hd8⟩ := hi ⟨e, he, hinc⟩
      have := hsev d (ha.diags ▸ List.mem_append_right _ hd)
      omega

end Runs

/-- An assembly without variables and without a library. -/
def bareInterp : Interp Unit where
  opsyn := []
  opFind op := op = ['L', 'R']
  library _ := none
  joinCont cards := cards
  splitCard card := ((parse false [] card).lbl, (parse false [] card).op, (parse false [] card).opnd, 0)
  macroDict _ body := body.map fun _ => none
  protoNotes _ := []
  enter s _ _ _ := (s, [])
  leave s := s
  setStmt s _ _ := some (s, [])
  condEnv _ _ := ⟨fun _ => 0, fun _ => [], fun _ => []⟩
  condNotes _ _ _ := []
  exprVal _ _ := 0
  vdictCard s _ := (s, none)
  sysvarSub _ card := card
  msub _ _ t := (t, false)
  mnoteSplit _ := none
  emitted s _ := s

/-- A macro that branches over a statement, and a call of it. -/
def skippingSource : List Card :=
  ["         MACRO", "         M", "         AGO   .B", "         DC    F'1'", ".B       DC    F'2'", "         MEND",
    "         M"].map String.toList

/-- An AGO to a sequence symbol that does not exist. -/
def lostSource : List Card := ["         AGO   .NOWHERE", "         DC    F'1'"].map String.toList

end Cc370.As370.Expand
