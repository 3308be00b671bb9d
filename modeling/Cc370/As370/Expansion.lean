import Cc370.As370.Conditions

namespace Cc370.As370.Expand

abbrev Card := List Char

abbrev Name := List Char

/-- `isspace` -/
def isSpace (c : Char) : Bool :=
  c = ' ' ∨ c = '\t' ∨ c = '\n' ∨ c = '\x0b' ∨ c = '\x0c' ∨ c = '\r'

def isBlank (c : Char) : Bool := c = ' ' ∨ c = '\t'

def isComment (card : Card) : Bool := card.head? = some '*' ∨ card.take 2 = ['.', '*']

def ends (p : List Char) : Bool := p.head?.all (· = '\n')

structure Fields where
  lbl : Name
  op : Name
  opnd : List Char
deriving DecidableEq, Repr

/-- `attr_apos`, of the two characters before the apostrophe. -/
def attrApos (b2 b1 : Option Char) : Bool :=
  b1.any (fun c => c ∈ ['L', 'T', 'K', 'N', 'I', 'S']) ∧
    !b2.any (fun b => b.isAlphanum ∨ b ∈ ['@', '#', '$', '_', '&'])

/-- The operand field of `parse`. -/
def scanOpnd (genstmt : Bool) : List Char → Option Char → Option Char → Bool → ℕ → List Char
  | [], _, _, _, _ => []
  | c :: p, b2, b1, q, d =>
    if c = '\n' then []
    else
      let q' := if c = '\'' ∧ (q ∨ !attrApos b2 b1) then !q else q
      let d' := if !q ∧ c = '(' then d + 1 else if !q ∧ c = ')' then d - 1 else d
      if !q' ∧ d' = 0 ∧ !genstmt ∧ isBlank c then [] else c :: scanOpnd genstmt p b1 (some c) q' d'

/-- AIFB and AGOB are read as AIF and AGO, and then the OPSYN table is applied. -/
def opAlias (opsyn : List (Name × Name)) (op : Name) : Name :=
  let op := if op = ['A', 'I', 'F', 'B'] then ['A', 'I', 'F'] else if op = ['A', 'G', 'O', 'B'] then ['A', 'G', 'O'] else op
  ((opsyn.reverse.find? fun e => e.1 = op).map Prod.snd).getD op

def parse (genstmt : Bool) (opsyn : List (Name × Name)) (line : Card) : Fields :=
  if isComment line then ⟨[], [], []⟩
  else
    let named := line.head?.any fun c => !isBlank c ∧ c ≠ '\n'
    let lbl := if named then (line.takeWhile (!isSpace ·)).take (if line.head? = some '&' then 30 else 8) else []
    let p := (if named then line.dropWhile (!isSpace ·) else line).dropWhile isBlank
    if ends p then ⟨lbl, [], []⟩
    else
      let op := (p.takeWhile (!isSpace ·)).take 8
      let p := (p.dropWhile (!isSpace ·)).dropWhile isBlank
      if ends p then ⟨lbl, op, []⟩
      else
        let opnd := (scanOpnd genstmt p none none false 0).take 8191
        ⟨lbl, opAlias opsyn op, if genstmt then (opnd.reverse.dropWhile isBlank).reverse else opnd⟩

/-- The card without its line end, `rawlen` long. -/
def rawText (card : Card) : Card := (card.reverse.dropWhile fun c => c = '\n' ∨ c = '\r').reverse

/-- `card_op_is` -/
def cardOpIs (card : Card) (op : Name) : Bool :=
  let raw := (rawText card).take 71
  !isComment card ∧ (((raw.dropWhile (!isBlank ·)).dropWhile isBlank).takeWhile (!isBlank ·)).map Char.toUpper = op

def opMACRO : Name := ['M', 'A', 'C', 'R', 'O']
def opMEND : Name := ['M', 'E', 'N', 'D']
def opMEXIT : Name := ['M', 'E', 'X', 'I', 'T']
def opMNOTE : Name := ['M', 'N', 'O', 'T', 'E']
def opACTR : Name := ['A', 'C', 'T', 'R']
def opAIF : Name := ['A', 'I', 'F']
def opAGO : Name := ['A', 'G', 'O']
def opCOPY : Name := ['C', 'O', 'P', 'Y']
def opREPRO : Name := ['R', 'E', 'P', 'R', 'O']
def opEND : Name := ['E', 'N', 'D']

/-- `is_ca_op`: the statements that `set_stmt` interprets. -/
def isCaOp (op : Name) : Bool :=
  op.take 3 = ['G', 'B', 'L'] ∨ op.take 3 = ['L', 'C', 'L'] ∨ op = ['S', 'E', 'T', 'A'] ∨ op = ['S', 'E', 'T', 'B'] ∨
    op = ['S', 'E', 'T', 'C'] ∨ op = ['A', 'N', 'O', 'P']

/-- The assembler instructions that `known_op` lists beside the machine's. -/
def directives : List String :=
  ["CSECT", "START", "ENTRY", "EXTRN", "WXTRN", "USING", "DROP", "DS", "DC", "EQU", "LTORG", "END", "COPY", "MACRO",
    "MEND", "DSECT", "ORG", "TITLE", "PRINT", "SPACE", "EJECT", "CNOP", "PUSH", "POP", "CCW", "ISEQ", "REPRO"]

/-- What `ifox_owns_op` adds to `known_op`. -/
def ifoxOps : List String :=
  ["AIF", "AGO", "ANOP", "ACTR", "SETA", "SETB", "SETC", "GBLA", "GBLB", "GBLC", "LCLA", "LCLB", "LCLC", "MNOTE",
    "MEXIT", "COM", "ICTL", "PUNCH", "DXD", "CXD"]

/-- `has_varsym`, of one field. -/
def hasVarsym : List Char → Bool
  | [] => false
  | [_] => false
  | c :: b :: q =>
    if c = '&' ∧ b = '&' then hasVarsym q
    else if c = '&' ∧ (b.isAlpha ∨ b ∈ ['@', '#', '$', '_']) then true
    else hasVarsym (b :: q)

def maxLines : ℕ := 131072

/-- The statement guards of the two loops. -/
def macroGuard : ℕ := 20000000
def blockGuard : ℕ := 4000000

def actrDefault : ℤ := 4096

/-- The cards that `lib_readlines` reads of one member. -/
def libCards : ℕ := 16384

/-- Deeper than this, COPY and macro calls are left as they are. -/
def maxDepth : ℕ := 40

/-- A statement of the expanded source, with LF_GEN and LF_NOASM. -/
structure Line where
  text : Card
  gen : Bool
  noasm : Bool
deriving DecidableEq, Repr

structure Diag where
  msg : String
  sev : ℕ
  line : ℤ
deriving DecidableEq, Repr

structure Macro where
  name : Name
  proto : Card
  body : List Card
  /-- For each card of the body, the variable symbol on it that nothing declares. -/
  undecl : List (Option Name)
  endlbl : Name
deriving DecidableEq, Repr

/-- The two sets of variables that a statement may resolve its symbols against. -/
inductive Ctx
  | expansion | openCode
deriving DecidableEq, Repr

/-- What the interpreters call: the operation table and the libraries, and the evaluation of statements over the
variables `σ`.  `setStmt` is `none` where a table is full and the assembler ends. -/
structure Interp (σ : Type) where
  opsyn : List (Name × Name)
  opFind : Name → Bool
  library : Name → Option (List Card)
  joinCont : List Card → List Card
  splitCard : Card → List Char × List Char × List Char × ℕ
  macroDict : Card → List Card → List (Option Name)
  protoNotes : Card → List Diag
  enter : σ → Macro → Name → List Char → σ × List Diag
  leave : σ → σ
  setStmt : σ → Ctx → Fields → Option (σ × List Diag)
  condEnv : σ → Ctx → CondEnv
  condNotes : σ → Ctx → List Char → List Diag
  exprVal : σ → List Char → ℤ
  vdictCard : σ → Card → σ × Option Name
  sysvarSub : σ → Card → Card
  msub : σ → Ctx → List Char → List Char × Bool
  mnoteSplit : List Char → Option (ℕ × String)
  emitted : σ → Fields → σ

abbrev SeqTable := List (Name × ℕ)

structure MacroFrame where
  m : Macro
  seq : SeqTable
  pc : ℕ
  guard : ℕ
  actr : ℤ
  depth : ℕ
  saveCopyraw : ℕ
  saveSlot : ℤ

structure BlockFrame where
  arr : List Card
  seq : SeqTable
  pc : ℕ
  guard : ℕ
  depth : ℕ
  ocheck : Bool
  ohw : ℕ
  odepth : ℕ
  oun : List (ℕ × Name)
  copied : Bool

/-- A call of `mexp_macro` or of `mexp_block` that is running. -/
inductive Frame
  | call (f : MacroFrame)
  | block (f : BlockFrame)

/-- How the loop of `mexp_macro` or `mexp_block` is left. -/
inductive Exit
  | endOfBlock | mend | actr | guard | abort
deriving DecidableEq, Repr

/-- What happens in a step, beside what the source records of it. -/
inductive Event
  | exit (how : Exit)
  | branch (seq : Name) (found : Bool)
  | listed (l : Line)
  | dropped (l : Line)
  | cut (member : Name)
  | uncopied (member : Name)
deriving DecidableEq, Repr

structure St (σ : Type) where
  sigma : σ
  macros : List Macro
  hdrmiss : List Name
  genlevel : ℕ
  copyraw : ℕ
  mcallSlot : ℤ
  out : List Line
  diags : List Diag
  frames : List Frame
  events : List Event

variable {σ : Type} (E : Interp σ)

namespace St

/-- `cur_ctx` -/
def curCtx (s : St σ) : Ctx := if 0 < s.copyraw ∧ 0 < s.genlevel then .expansion else .openCode

/-- `note_operr` -/
def noteOperr (s : St σ) (msg : String) (sev : ℕ) (line : ℤ) : St σ :=
  if line < 0 then s else { s with diags := s.diags ++ [⟨msg, sev, line⟩] }

def noteAll (s : St σ) (ds : List Diag) : St σ := { s with diags := s.diags ++ ds }

def log (s : St σ) (e : Event) : St σ := { s with events := s.events ++ [e] }

/-- A statement goes to `lines[]`, with its diagnostics, where a line is left. -/
def putNoted (s : St σ) (l : Line) (notes : ℤ → List Diag) : St σ :=
  if s.out.length < maxLines then
    { s with out := s.out ++ [l], diags := s.diags ++ notes s.out.length, events := s.events ++ [.listed l] }
  else s.log (.dropped l)

def put (s : St σ) (l : Line) : St σ := s.putNoted l fun _ => []

/-- The source card of a generated statement goes to `lines[]` where both find a line. -/
def putCard (s : St σ) (l : Line) : St σ :=
  if s.out.length + 1 < maxLines then s.put l else s.log (.dropped l)

end St

def Interp.fields (card : Card) : Fields := parse false E.opsyn (card.take 8191)

def Interp.knownOp (op : Name) : Bool := E.opFind op ∨ op ∈ directives.map String.toList

def Interp.ifoxOwnsOp (op : Name) : Bool := E.knownOp op ∨ op ∈ ifoxOps.map String.toList

/-- `has_varsym` -/
def Interp.cardHasVarsym (card : Card) : Bool :=
  let (nm, op, od, _) := E.splitCard (rawText card)
  hasVarsym nm ∨ hasVarsym op ∨ hasVarsym od

/-- The card as far as its remark. -/
def Interp.cutRemark (card : Card) : Card :=
  let col := (E.splitCard (rawText card)).2.2.2
  (if 0 < col then (rawText card).take col else rawText card).take 8191

def isSeqCard (card : Card) : Bool := card.head? = some '.' ∧ card.tail.head? ≠ some '*'

def seqLabel (w : ℕ) (card : Card) : Name := (card.takeWhile (!isSpace ·)).take w

/-- The sequence symbols of a macro: 2048 at most, the one of MEND behind those of the body. -/
def macroSeq (m : Macro) : SeqTable :=
  let seqs := ((m.body.zipIdx.filter fun e => isSeqCard e.1).map fun e => (seqLabel 19 e.1, e.2)).take 2048
  if m.endlbl ≠ [] ∧ seqs.length < 2048 then seqs ++ [(m.endlbl, m.body.length)] else seqs

/-- The sequence symbols of a block, without those in the macros that it defines. -/
def Interp.blockSeq : List Card → ℕ → ℕ → SeqTable
  | [], _, _ => []
  | c :: cs, k, mdef =>
    if (E.fields c).op = opMACRO then blockSeq cs (k + 1) (mdef + 1)
    else if (E.fields c).op = opMEND then blockSeq cs (k + 1) (mdef - 1)
    else if mdef = 0 ∧ isSeqCard c then (seqLabel 15 c, k) :: blockSeq cs (k + 1) mdef
    else blockSeq cs (k + 1) mdef

def findSeq (tab : SeqTable) (seq : Name) : Option ℕ := (tab.find? fun e => e.1 = seq).map Prod.snd

/-- The condition and the sequence symbol of an AIF. -/
def aifParts (opnd : List Char) : List Char × Name :=
  if opnd.head? = some '(' then (aifSplit 512 opnd none false 0 []).getD ([], []) else ([], [])

/-- `capture_macro`, of the cards after MACRO. -/
def Interp.captureMacro : List Card → Option Macro
  | [] => none
  | proto :: rest =>
    let isMend : Card → Bool := fun c => (E.fields c).op = opMEND
    let body := rest.takeWhile (!isMend ·)
    let mendLbl := ((rest.dropWhile (!isMend ·)).head?.map fun c => (E.fields c).lbl).getD []
    some ⟨(E.fields (proto.take 4095)).op, proto, body, E.macroDict proto body,
      if mendLbl.head? = some '.' then mendLbl else []⟩

/-- `macro_extent`: the cards up to the MEND of the first definition. -/
def macroExtent : List Card → ℕ → List Card
  | [], _ => []
  | c :: cs, depth =>
    if cardOpIs c opMACRO then c :: macroExtent cs (depth + 1)
    else if cardOpIs c opMEND ∧ depth = 1 then [c]
    else c :: macroExtent cs (if cardOpIs c opMEND then depth - 1 else depth)

/-- The statements that `lib_readlines` finds in a member.  Sixteen thousand cards never make the 65536 statements
that its callers have room for. -/
def Interp.libStmts (asMacro : Bool) (cards : List Card) : List Card :=
  E.joinCont (if asMacro then macroExtent (cards.take libCards) 0 else cards.take libCards)

/-- A member that is longer than `lib_readlines` reads is cut. -/
def St.logCut (s : St σ) (name : Name) (cards : List Card) : St σ :=
  if libCards < cards.length then s.log (.cut name) else s

/-- `mac_find`, and then `lib_load` -/
def Interp.libLoad (s : St σ) (op : Name) : St σ × Option Macro :=
  match s.macros.find? fun m => m.name = op with
  | some m => (s, some m)
  | none =>
    if op ∈ s.hdrmiss then (s, none)
    else
      match E.library op with
      | none => (s, none)
      | some cards =>
        let s := s.logCut op cards
        match (E.libStmts true cards).dropWhile fun c => (E.fields c).op = [] with
        | [] => ({ s with hdrmiss := s.hdrmiss ++ [op] }, none)
        | c :: rest =>
          if (E.fields c).op ≠ opMACRO then ({ s with hdrmiss := s.hdrmiss ++ [op] }, none)
          else
            match E.captureMacro rest with
            | none => (s, none)
            | some m => ({ s with macros := s.macros ++ [m], diags := s.diags ++ E.protoNotes m.proto }, some m)

/-- The start of `mexp_macro`. -/
def Interp.mexpMacro (s : St σ) (m : Macro) (lbl : Name) (opnd : List Char) (depth : ℕ) : St σ :=
  let (sigma, notes) := E.enter s.sigma m lbl opnd
  { s with
    sigma := sigma
    diags := s.diags ++ notes
    genlevel := s.genlevel + 1
    copyraw := 0
    mcallSlot := s.out.length - 1
    frames := .call ⟨m, macroSeq m, 0, 0, actrDefault, depth, s.copyraw, s.mcallSlot⟩ :: s.frames }

/-- The start of `mexp_block`. -/
def Interp.mexpBlock (s : St σ) (arr : List Card) (depth : ℕ) (copied : Bool) : St σ :=
  { s with frames := .block ⟨arr, E.blockSeq arr 0 0, 0, 0, depth, s.genlevel = 0, 0, 0, [], copied⟩ :: s.frames }

def Exit.leaveMacro (how : Exit) (s : St σ) (f : MacroFrame) (rest : List Frame) : St σ :=
  { s with
    sigma := E.leave s.sigma
    genlevel := s.genlevel - 1
    copyraw := f.saveCopyraw
    mcallSlot := f.saveSlot
    frames := rest
    events := s.events ++ [.exit how] }

def Exit.leaveBlock (how : Exit) (s : St σ) (f : BlockFrame) (rest : List Frame) : St σ :=
  { s with
    copyraw := if f.copied then s.copyraw - 1 else s.copyraw
    frames := rest
    events := s.events ++ [.exit how] }

/-- `set_stmt`; where a table is full the assembler ends. -/
def Interp.setStep (s : St σ) (ctx : Ctx) (f : Fields) : St σ :=
  match E.setStmt s.sigma ctx f with
  | none => { s with frames := [], events := s.events ++ [.exit .abort] }
  | some (sigma, notes) => { s with sigma := sigma, diags := s.diags ++ notes }

/-- Whether an MNOTE that reaches `mexp_line` is listed as the card and then as the message. -/
def Interp.mnotePair (s : St σ) (line : Card) : Bool := (s.genlevel = 0 ∨ 0 < s.copyraw) ∧ E.cardHasVarsym line

/-- The open-code MNOTE of `mexp_line`: with a variable symbol on the card, the card and then the message. -/
def Interp.lineMnote (s : St σ) (line sysbuf : Card) (opnd : List Char) : St σ :=
  let pair := E.mnotePair s line
  let opnd := if pair then (E.msub s.sigma s.curCtx opnd).1 else opnd
  let s := if pair then s.putCard ⟨line, false, true⟩ else s
  s.putNoted ⟨sysbuf, 0 < s.genlevel ∨ pair, true⟩ fun at' =>
    match E.mnoteSplit opnd with
    | none => [⟨"Syntax error in the MNOTE severity (IFOX00 IFO178)", 8, at'⟩]
    | some (sev, text) => [⟨text, sev, at'⟩]

/-- The card that substitution makes of an open-code statement, whether its operation was substituted, and whether
a subscript is inconsistent with its declaration. -/
def Interp.substCard (s : St σ) (sysbuf : Card) : Card × Bool × Bool :=
  let (nm, op, od, _) := E.splitCard (rawText sysbuf)
  let (nmf, i0) := E.msub s.sigma s.curCtx nm
  let (opf, i1) := E.msub s.sigma s.curCtx op
  let (odf, i2) := E.msub s.sigma s.curCtx od
  (nmf ++ List.replicate (8 - nmf.length) ' ' ++ [' '] ++ opf ++ [' '] ++ odf, op ≠ opf, i0 ∨ i1 ∨ i2)

def ifo007Note (at' : ℤ) : Diag :=
  ⟨"Usage is inconsistent with its declaration - it is subscripted and nothing declares a dimension (IFOX00 IFO007)", 8,
    at'⟩

def ifo006Note (at' : ℤ) : Diag := ⟨"undefined variable symbol - nothing declares it (IFOX00 IFO006)", 8, at'⟩

/-- The statement that `mexp_line` has before it when the operation is looked up. -/
structure Model where
  buf : Card
  f : Fields
  subst : Bool
  opsubst : Bool
  ifo007 : Bool

/-- Whether `mexp_line` substitutes into the card. -/
def Interp.substs (s : St σ) (line : Card) (f : Fields) : Bool :=
  (s.genlevel = 0 ∨ 0 < s.copyraw) ∧ !isComment line ∧ f.op ≠ [] ∧ E.cardHasVarsym line

def Interp.model (s : St σ) (line sysbuf : Card) (f : Fields) : Model :=
  if E.substs s line f then
    let (buf, opsubst, i7) := E.substCard s sysbuf
    ⟨buf, E.fields buf, true, opsubst, i7⟩
  else ⟨sysbuf, f, false, false, false⟩

/-- Whether the operation is looked up among the macros: it is in no table, and was not substituted. -/
def Interp.looksUp (w : Model) (depth : ℕ) : Bool :=
  w.f.op ≠ [] ∧ !E.knownOp w.f.op ∧ !w.opsubst ∧ depth ≤ maxDepth

/-- The end of `mexp_line`: the statement that is not interpreted and no macro call. -/
def Interp.lineStmt (s : St σ) (line : Card) (w : Model) (ifo007 : Bool) : St σ :=
  let s := if w.subst then s.putCard ⟨line, false, true⟩ else s
  let text := if w.f.lbl.head? = some '.' then List.replicate 9 ' ' ++ w.f.op ++ [' '] ++ w.f.opnd else w.buf
  let s := if s.out.length < maxLines then { s with sigma := E.emitted s.sigma w.f } else s
  s.putNoted ⟨text, 0 < s.genlevel ∨ w.subst, false⟩ fun at' => if ifo007 ∨ w.ifo007 then [ifo007Note at'] else []

/-- A macro call of `mexp_line`: the call is listed and the macro is entered. -/
def Interp.lineCall (s : St σ) (line : Card) (w : Model) (m : Macro) (depth : ℕ) : St σ :=
  let opnd := if w.subst ∨ 0 < s.genlevel then w.f.opnd else (E.msub s.sigma s.curCtx w.f.opnd).1
  let s := if w.subst then s.put ⟨line, false, true⟩ else s
  let s := s.put ⟨w.buf, 0 < s.genlevel ∨ w.subst, true⟩
  E.mexpMacro s m (if w.f.lbl.head? = some '.' then [] else w.f.lbl) opnd depth

/-- `mexp_line` behind COPY: substitution, then the macro call or the statement. -/
def Interp.lineModel (s : St σ) (line sysbuf : Card) (f : Fields) (depth : ℕ) (ifo007 : Bool) : St σ :=
  let w := E.model s line sysbuf f
  if E.looksUp w depth then
    match E.libLoad s w.f.op with
    | (s, some m) => E.lineCall s line w m depth
    | (s, none) => E.lineStmt s line w ifo007
  else E.lineStmt s line w ifo007

/-- The COPY of `mexp_line`, which is a statement like any other where the member is not there. -/
def Interp.lineCopy (s : St σ) (line sysbuf : Card) (f : Fields) (depth : ℕ) (ifo007 : Bool) : St σ :=
  if depth ≤ maxDepth then
    match E.library f.opnd with
    | some cards =>
      let s := s.logCut f.opnd cards
      E.mexpBlock { s with copyraw := s.copyraw + 1 } (E.libStmts false cards) (depth + 1) true
    | none =>
      E.lineModel (s.noteOperr "COPY member not found in library (IFOX00 IFO068)" 8 s.out.length) line sysbuf f depth
        ifo007
  else E.lineModel (s.log (.uncopied f.opnd)) line sysbuf f depth ifo007

/-- A SET statement that reaches `mexp_line`; it is listed in open code. -/
def Interp.lineSet (s : St σ) (sysbuf : Card) (f : Fields) : St σ :=
  let s := if s.genlevel = 0 then s.put ⟨sysbuf, false, true⟩ else s
  E.setStep s s.curCtx f

/-- The card that `mexp_line` reads, with its fields. -/
def Interp.lineFields (s : St σ) (line : Card) : Card × Fields :=
  let sysbuf := (if line.head? = some '*' then line else E.sysvarSub s.sigma line).take 8191
  (sysbuf, parse (0 < s.genlevel ∧ s.copyraw = 0) E.opsyn sysbuf)

/-- `mexp_line`, for a card on which every variable symbol is declared -/
def Interp.mexpLine (s : St σ) (line : Card) (depth : ℕ) (ifo007 : Bool) : St σ :=
  let (sysbuf, f) := E.lineFields s line
  if f.op = opMNOTE then E.lineMnote s line sysbuf f.opnd
  else if isCaOp f.op then E.lineSet s sysbuf f
  else if f.op = opCOPY ∧ f.opnd ≠ [] then E.lineCopy s line sysbuf f depth ifo007
  else E.lineModel s line sysbuf f depth ifo007

/-- `mexp_line`, for a card on which a variable symbol is not declared -/
def St.mexpUndeclared (s : St σ) (line : Card) : St σ :=
  s.putNoted ⟨line, 0 < s.genlevel, true⟩ fun at' => [ifo006Note at']

def actrMsg : String := "The ACTR limit has been exceeded - conditional assembly terminated (IFOX00 IFO118)"

/-- A taken branch of `mexp_macro`. -/
def Interp.macroBranch (s : St σ) (f : MacroFrame) (rest : List Frame) (seq : Name) : St σ :=
  if f.actr - 1 < 0 then
    Exit.actr.leaveMacro E (s.noteOperr actrMsg 8 s.mcallSlot) f rest
  else
    { s with
      frames := .call { f with pc := (findSeq f.seq seq).getD (f.pc + 1), actr := f.actr - 1 } :: rest
      events := s.events ++ [.branch seq (findSeq f.seq seq).isSome] }

/-- The MNOTE of a macro body. -/
def Interp.macroMnote (s : St σ) (card : Card) : St σ :=
  let mex := (E.msub s.sigma .expansion card).1
  s.putNoted ⟨mex, true, true⟩ fun at' =>
    match E.mnoteSplit (E.fields mex).opnd with
    | none => [⟨"Syntax error in the MNOTE severity (IFOX00 IFO178)", 8, at'⟩]
    | some (sev, text) => [⟨text, sev, at'⟩]

/-- A card of a macro body that is no comment, with `next` the state for the card behind it. -/
def Interp.macroCard (next : St σ) (f : MacroFrame) (rest : List Frame) (card : Card) (b : Fields) : St σ :=
  if b.op = opMEND ∨ b.op = opMEXIT then Exit.mend.leaveMacro E next f rest
  else if (f.m.undecl.getD f.pc none).isSome then next.mexpUndeclared (E.cutRemark card)
  else if b.op = opMNOTE then E.macroMnote next card
  else if b.op = opACTR then
    let v := if b.opnd = [] then 0 else E.exprVal next.sigma b.opnd
    { next with frames := .call { f with pc := f.pc + 1, actr := if 0 < v then v else f.actr } :: rest }
  else if isCaOp b.op then E.setStep next .expansion b
  else if b.op = opAIF then
    let (cond, seq) := aifParts b.opnd
    let noted := next.noteAll (E.condNotes next.sigma .expansion cond)
    if (E.condEnv next.sigma .expansion).evalCond cond then E.macroBranch noted f rest seq else noted
  else if b.op = opAGO then E.macroBranch next f rest b.opnd
  else
    let (ex, i7) := E.msub next.sigma .expansion (E.cutRemark card)
    E.mexpLine next ex (f.depth + 1) i7

/-- One turn of the loop of `mexp_macro`. -/
def Interp.stepMacro (s : St σ) (f : MacroFrame) (rest : List Frame) : St σ :=
  if f.m.body.length ≤ f.pc then Exit.endOfBlock.leaveMacro E s f rest
  else if macroGuard ≤ f.guard then Exit.guard.leaveMacro E s f rest
  else
    let f := { f with guard := f.guard + 1 }
    let next := { s with frames := .call { f with pc := f.pc + 1 } :: rest }
    let card := f.m.body.getD f.pc []
    if isComment card ∨ (E.fields card).op = [] then next else E.macroCard next f rest card (E.fields card)

/-- The dictionary of open code is filled up to the card that is read. -/
def Interp.sweep (arr : List Card) : ℕ → σ → ℕ → ℕ → List (ℕ × Name) → σ × ℕ × List (ℕ × Name)
  | 0, sigma, _, odepth, oun => (sigma, odepth, oun)
  | n + 1, sigma, at', odepth, oun =>
    let card := arr.getD at' []
    if cardOpIs card opMACRO then sweep arr n sigma (at' + 1) (odepth + 1) oun
    else if cardOpIs card opMEND then sweep arr n sigma (at' + 1) (odepth - 1) oun
    else if odepth ≠ 0 then sweep arr n sigma (at' + 1) odepth oun
    else
      let (sigma, name) := E.vdictCard sigma card
      sweep arr n sigma (at' + 1) odepth (oun ++ (name.map fun n => (at', n)).toList)

/-- The cards of a definition in open code are listed, with what is wrong about them. -/
def Interp.defCards (m : Option Macro) (cards : List Card) : List (Line × (ℤ → List Diag)) :=
  cards.zipIdx.map fun (card, k) =>
    (⟨card, false, true⟩, fun at' =>
      (if k = 1 ∧ (E.fields card).op ≠ [] ∧ E.ifoxOwnsOp (E.fields card).op then
        [⟨"Macro prototype statement has invalid op code (IFOX00 IFO043)", 8, at'⟩] else []) ++
      (if 2 ≤ k ∧ (m.any fun m => (m.undecl.getD (k - 2) none).isSome) then [ifo006Note at'] else []))

/-- The card that ends the definition at `pc`: its MEND, or the end of the block. -/
def Interp.lastOfDef (f : BlockFrame) : ℕ :=
  ((E.captureMacro (f.arr.drop (f.pc + 1))).map fun m => f.pc + 2 + m.body.length).getD (f.pc + 1)

/-- The cards of the definition at `pc`. -/
def Interp.defined (f : BlockFrame) : List Card := (f.arr.drop f.pc).take (E.lastOfDef f + 1 - f.pc)

/-- A definition of `mexp_block`. -/
def Interp.blockMacro (s : St σ) (f : BlockFrame) (rest : List Frame) : St σ :=
  let m := E.captureMacro (f.arr.drop (f.pc + 1))
  let s : St σ := { s with
    macros := s.macros ++ m.toList
    diags := s.diags ++ (m.map fun m => E.protoNotes m.proto).getD []
    frames := .block { f with pc := E.lastOfDef f + 1 } :: rest }
  if s.genlevel = 0 then (E.defCards m (E.defined f)).foldl (fun s e => s.putNoted e.1 e.2) s else s

/-- A taken branch of `mexp_block`. -/
def blockBranch (s : St σ) (f : BlockFrame) (rest : List Frame) (seq : Name) : St σ :=
  { s with
    frames := .block { f with pc := (findSeq f.seq seq).getD (f.pc + 1) } :: rest
    events := s.events ++ [.branch seq (findSeq f.seq seq).isSome] }

/-- The AIF of `mexp_block`. -/
def Interp.blockAif (s : St σ) (f : BlockFrame) (rest : List Frame) (opnd : List Char) : St σ :=
  let (cond, seq) := aifParts opnd
  let noted := s.noteAll (E.condNotes s.sigma s.curCtx cond)
  if (E.condEnv s.sigma s.curCtx).evalCond cond then blockBranch noted f rest seq else noted

/-- A card of a block on which every variable symbol is declared, with `next` the state for the card behind it. -/
def Interp.blockCard (next : St σ) (f : BlockFrame) (rest : List Frame) (card : Card) (b : Fields) : St σ :=
  if b.op = opMACRO then E.blockMacro next f rest
  else if b.op = opAIF ∨ b.op = opAGO then
    let listed := if next.genlevel = 0 then next.put ⟨card, false, true⟩ else next
    if b.op = opAIF then E.blockAif listed f rest b.opnd else blockBranch listed f rest b.opnd
  else if b.op = opREPRO ∧ f.pc + 1 < f.arr.length then
    let punched := E.mexpLine { next with frames := .block { f with pc := f.pc + 2 } :: rest } card f.depth false
    if next.genlevel = 0 then punched.put ⟨f.arr.getD (f.pc + 1) [], false, true⟩ else punched
  else E.mexpLine next card f.depth false

/-- The variables and the loop of `mexp_block` when the card at `pc` is read. -/
def Interp.readCard (s : St σ) (f : BlockFrame) : σ × BlockFrame :=
  let (sigma, odepth, oun) :=
    if f.ocheck then E.sweep f.arr (f.pc + 1 - f.ohw) s.sigma f.ohw f.odepth f.oun else (s.sigma, f.odepth, f.oun)
  (sigma, { f with guard := f.guard + 1, ohw := max f.ohw (f.pc + 1), odepth := odepth, oun := oun })

def BlockFrame.undeclared (f : BlockFrame) : Bool := (f.oun.find? fun e => e.1 = f.pc).isSome

/-- One turn of the loop of `mexp_block`. -/
def Interp.stepBlock (s : St σ) (f : BlockFrame) (rest : List Frame) : St σ :=
  if f.arr.length ≤ f.pc then Exit.endOfBlock.leaveBlock s f rest
  else if blockGuard ≤ f.guard then Exit.guard.leaveBlock s f rest
  else
    let (sigma, f) := E.readCard s f
    let next := { s with sigma := sigma, frames := .block { f with pc := f.pc + 1 } :: rest }
    let card := f.arr.getD f.pc []
    if f.undeclared then next.mexpUndeclared card else E.blockCard next f rest card (E.fields card)

def Interp.step (s : St σ) : St σ :=
  match s.frames with
  | [] => s
  | .call f :: rest => E.stepMacro s f rest
  | .block f :: rest => E.stepBlock s f rest

/-- `main` reads the cards and `macro_pass` starts the expansion. -/
def Interp.start (sigma : σ) (source : List Card) : St σ :=
  E.mexpBlock
    ⟨sigma, [], [], 0, 0, -1, [], [], [], if maxLines < source.length then [.cut []] else []⟩
    (E.joinCont (source.take maxLines)) 0 false

def Interp.run (sigma : σ) (source : List Card) (n : ℕ) : St σ := E.step^[n] (E.start sigma source)

/-- What `main` assembles of the expanded source: END ends it. -/
def endCut (out : List Line) : List Line :=
  out.take ((out.findIdx fun l => cardOpIs l.text opEND) + 1)

end Cc370.As370.Expand
