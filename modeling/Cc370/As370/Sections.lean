import Cc370.As370.Adcon

namespace Cc370.As370

/-- The names of the symbol table. The source cannot write that of the private code, of the unnamed
dummy section and of a definition that is discarded. -/
inductive SymName
  | src (nm : List Char)
  | privateCode
  | unnamedDsect
  | shadow (i : ℕ)
deriving DecidableEq

structure SectSym where
  idx : ℕ
  val : ℤ
  type : SymType
  defined : Bool
  declaredExtrn : Bool
  sect : ℕ
  len : ℕ
  opened : ℕ
deriving DecidableEq

inductive SectDiag
  | extrnSection (nm : List Char)
  | previouslyDefined (nm : List Char)
  | unnamedCom
deriving DecidableEq

/-- The statements that open sections or define symbols; `place` stands for an instruction, a DC or a
DS, which rounds the location counter up, names it and moves it on. -/
inductive SectStmt
  | csect (lbl : List Char) (start : Option ℤ)
  | com (lbl : List Char)
  | dxd (lbl : List Char)
  | dsect (lbl : List Char)
  | extrn (nm : List Char)
  | place (lbl : List Char) (align len : ℕ)
deriving DecidableEq

def maxsect : ℕ := 1024

structure Pass1 where
  find : SymName → Option SectSym
  nsym : ℕ
  sectid : ℕ
  dsectSect : ℕ → Bool
  sectOrd : List ℕ
  sectRel : ℕ → ℤ
  sectHwm : ℕ → ℤ
  esdord : List (SymName × EsdRole)
  curSect : ℕ
  lc : ℤ
  inDsect : Bool
  inCom : Bool
  firstCtl : ℕ
  startBase : ℤ
  diags : List SectDiag

namespace Pass1

variable (σ : Pass1)

def initial : Pass1 :=
  ⟨fun _ => none, 0, 0, fun _ => false, [], fun _ => 0, fun _ => 0, [], 0, 0, false, false, 0, 0, []⟩

def inRange (id : ℕ) : Bool := 0 < id ∧ id < maxsect

def align (n : ℕ) (v : ℤ) : ℤ := -((-v) / n) * n

/-- `sym_get`: the symbol, entered when it is new. -/
def symGet (nm : SymName) : SectSym := (σ.find nm).getD ⟨σ.nsym, 0, .rel, false, false, 0, 0, 0⟩

def setSym (nm : SymName) (s : SectSym) : Pass1 :=
  { σ with
    find := Function.update σ.find nm (some s)
    nsym := if (σ.find nm).isSome then σ.nsym else σ.nsym + 1 }

/-- The section number of a symbol, the next one when it has none. -/
def allot (nm : SymName) : ℕ := if (σ.symGet nm).sect = 0 then σ.sectid + 1 else (σ.symGet nm).sect

def esdAdd (nm : SymName) (role : EsdRole) : Pass1 :=
  if (nm, role) ∈ σ.esdord then σ else { σ with esdord := σ.esdord ++ [(nm, role)] }

def chainSect (id : ℕ) : Pass1 :=
  if inRange id ∧ id ∉ σ.sectOrd ∧ σ.sectOrd.length < maxsect then { σ with sectOrd := σ.sectOrd ++ [id] } else σ

/-- The section that is left keeps its counter. -/
def park : Pass1 :=
  if inRange σ.curSect then { σ with sectRel := Function.update σ.sectRel σ.curSect σ.lc } else σ

def rejects (lbl : List Char) : Bool :=
  lbl ≠ [] ∧ (σ.find (.src lbl)).any fun e => e.declaredExtrn ∧ !e.defined

def sectName (lbl : List Char) : SymName := if σ.rejects lbl ∨ lbl = [] then .privateCode else .src lbl

/-- The symbol of a section statement, numbered and counted as opened once more. -/
def openSym (nm : SymName) : SectSym :=
  { σ.symGet nm with sect := σ.allot nm, opened := (σ.symGet nm).opened + 1 }

/-- `setSym` for a section's symbol. -/
def setSect (nm : SymName) (s : SectSym) : Pass1 :=
  { σ.setSym nm s with sectid := if (σ.symGet nm).sect = 0 then σ.sectid + 1 else σ.sectid }

def csect (lbl : List Char) (start : Option ℤ) : Pass1 :=
  let σ0 := { σ.park with
    inDsect := false, inCom := false
    startBase := if σ.firstCtl = 0 then (start.map (align 8)).getD σ.startBase else σ.startBase
    diags := σ.diags ++ if σ.rejects lbl then [SectDiag.extrnSection lbl] else [] }
  let nm := σ.sectName lbl
  let s := σ.openSym nm
  let resumePc : Bool := nm = .privateCode ∧ s.sect < maxsect ∧ 0 < σ.sectHwm s.sect
  let rel := if s.opened = 1 ∧ s.sect < maxsect ∧ !resumePc then Function.update σ0.sectRel s.sect 0 else σ0.sectRel
  let s' : SectSym := if s.defined then s
    else { s with type := if nm = .privateCode then .pc else .sd, val := 0, defined := true }
  let σ1 := { σ0.setSect nm s' with
    sectRel := rel
    curSect := s.sect
    lc := if s.sect < maxsect then rel s.sect else 0
    firstCtl := if σ.firstCtl = 0 then s.sect else σ.firstCtl }
  let σ2 := if s.opened = 1 ∧ s.sect < maxsect then σ1.chainSect s.sect else σ1
  if s.defined then σ2 else σ2.esdAdd nm .sect

def com (lbl : List Char) : Pass1 :=
  if lbl = [] then { σ with diags := σ.diags ++ [.unnamedCom] }
  else
    let σ0 := { σ.park with inDsect := false, inCom := true }
    let nm := SymName.src lbl
    let s := σ.openSym nm
    let rel := if s.opened = 1 ∧ inRange s.sect then Function.update σ0.sectRel s.sect 0 else σ0.sectRel
    let s' : SectSym := if s.defined then s else { s with type := .cm, val := 0, defined := true }
    let σ1 := { σ0.setSect nm s' with
      sectRel := rel, curSect := s.sect, lc := if inRange s.sect then rel s.sect else 0 }
    if s.defined then σ1 else σ1.esdAdd nm .cm

/-- The flag of a dummy section, which is kept for the first 255 only. -/
def mark (id : ℕ) : Pass1 :=
  if id < 256 then { σ with dsectSect := Function.update σ.dsectSect id true } else σ

def dsect (lbl : List Char) : Pass1 :=
  let σ0 := { σ.park with inDsect := true, inCom := false }
  let nm := if lbl = [] then SymName.unnamedDsect else .src lbl
  let s := σ.openSym nm
  let rel := if s.opened = 1 ∧ s.sect < maxsect then Function.update σ0.sectRel s.sect 0 else σ0.sectRel
  { (σ0.setSect nm { s with val := 0, defined := true }).mark s.sect with
    sectRel := rel, curSect := s.sect, lc := if s.sect < maxsect then rel s.sect else 0 }

/-- The name that a definition is entered under: a second definition is discarded. -/
def labelName (i : ℕ) (lbl : List Char) : SymName :=
  if (σ.find (.src lbl)).any fun s => s.defined ∨ s.declaredExtrn then .shadow i else .src lbl

def duplicate (lbl : List Char) : List SectDiag :=
  if (σ.find (.src lbl)).any fun s => s.defined ∨ s.declaredExtrn then [.previouslyDefined lbl] else []

def dxd (i : ℕ) (lbl : List Char) : Pass1 :=
  if lbl = [] then σ
  else
    let nm := σ.labelName i lbl
    let s := σ.symGet nm
    let σ0 := { σ with diags := σ.diags ++ σ.duplicate lbl }
    if s.defined then σ0
    else
      ((σ0.setSect nm { s with type := .xd, val := 0, defined := true, len := 1, sect := σ.allot nm }).esdAdd nm
        .xd).mark (σ.allot nm)

def extrn (nm : List Char) : Pass1 :=
  let s := σ.symGet (.src nm)
  if s.defined then { σ.setSym (.src nm) s with diags := σ.diags ++ [.previouslyDefined nm] }
  else (σ.setSym (.src nm) { s with type := .er, declaredExtrn := true }).esdAdd (.src nm) .er

/-- The private code is opened by the first statement that needs a section. -/
def openPrivate : Pass1 :=
  if σ.curSect = 0 ∧ !σ.inDsect then
    let s := σ.symGet .privateCode
    let id := σ.allot .privateCode
    let σ1 := ((σ.setSect .privateCode { s with type := .pc, defined := true, sect := id }).esdAdd .privateCode
      .sect).chainSect id
    { σ1 with curSect := id, firstCtl := if σ.firstCtl = 0 then id else σ.firstCtl }
  else σ

def place (i : ℕ) (lbl : List Char) (algn len : ℕ) : Pass1 :=
  let σ0 := { σ.openPrivate with diags := σ.diags ++ if lbl = [] then [] else σ.duplicate lbl }
  let at' := align algn σ0.lc
  let nm := σ.labelName i lbl
  let σ1 := if lbl = [] then σ0
    else σ0.setSym nm { σ0.symGet nm with val := at', defined := true, sect := σ0.curSect, len := len }
  { σ1 with
    lc := at' + len
    sectHwm := if !σ0.inDsect ∧ inRange σ0.curSect ∧ σ0.sectHwm σ0.curSect < at' + len then
      Function.update σ0.sectHwm σ0.curSect (at' + len) else σ0.sectHwm }

def step (i : ℕ) : SectStmt → Pass1
  | .csect lbl start => σ.csect lbl start
  | .com lbl => σ.com lbl
  | .dxd lbl => σ.dxd i lbl
  | .dsect lbl => σ.dsect lbl
  | .extrn nm => σ.extrn nm
  | .place lbl algn len => σ.place i lbl algn len

def run : ℕ → Pass1 → List SectStmt → Pass1
  | _, σ, [] => σ
  | i, σ, stmt :: rest => run (i + 1) (σ.step i stmt) rest

/-- The number of the dummy section that a DSECT or a DXD opens. -/
def dummyOf (i : ℕ) : SectStmt → Option ℕ
  | .dsect lbl => some (σ.allot (if lbl = [] then SymName.unnamedDsect else .src lbl))
  | .dxd lbl => if lbl = [] ∨ (σ.symGet (σ.labelName i lbl)).defined then none else some (σ.allot (σ.labelName i lbl))
  | _ => none

/-- The dummy sections of a source, by their numbers. -/
def dummies : ℕ → Pass1 → List SectStmt → List ℕ
  | _, _, [] => []
  | i, σ, stmt :: rest => (σ.dummyOf i stmt).toList ++ dummies (i + 1) (σ.step i stmt) rest

def isDsectId (id : ℕ) : Bool := 0 < id ∧ id < 256 ∧ σ.dsectSect id

/-- The origins that `assign_origins` chains. -/
def chain : List ℕ → ℤ → List (ℕ × ℤ)
  | [], _ => []
  | id :: ids, org =>
    if !inRange id ∨ σ.isDsectId id then chain ids org
    else (id, org) :: chain ids (align 8 (org + σ.sectHwm id))

def origins : List (ℕ × ℤ) := σ.chain σ.sectOrd σ.startBase

/-- The origin that is added to the value of a symbol. -/
def originOf (s : SectSym) : Option ℤ :=
  if !s.defined ∨ !inRange s.sect ∨ σ.isDsectId s.sect ∨ s.type = .abs then none
  else (σ.origins.find? fun x => x.1 = s.sect).map Prod.snd

def relocated (s : SectSym) : ℤ := s.val + (σ.originOf s).getD 0

def esdEntries : List (SymName × EsdRole × ℕ) := σ.esdord.zipIdx.map fun e => (e.1.1, e.1.2, e.2 + 1)

def symEsdid (nm : SymName) : ℕ :=
  (((σ.esdEntries.filter fun e => e.1 = nm ∧ (e.2.1 = .sect ∨ e.2.1 = .cm)).getLast?).or
    (σ.esdEntries.find? fun e => e.1 = nm)).elim 0 fun e => e.2.2

def sectEsdidOf (id : ℕ) : ℕ :=
  if id = 0 then 0
  else (σ.esdEntries.find? fun e => (e.2.1 = .sect ∨ e.2.1 = .cm) ∧ (σ.symGet e.1).sect = id).elim 0
    fun e => σ.symEsdid e.1

/-- A symbol as an expression of pass 2 reads it. -/
def xsym (nm : List Char) : Option XSym :=
  (σ.find (.src nm)).map fun s =>
    ⟨s.idx, σ.relocated s, s.type, s.defined, s.declaredExtrn, s.sect, σ.symEsdid (.src nm), 0, s.len⟩

/-- The scope of a constant of pass 2 at `lc` in a control section. -/
def scope (lc : ℤ) (cur : ℕ) (erEsdid : ℕ → ℕ) : DcScope where
  find := σ.xsym
  lc := lc
  curSect := cur
  sectEsdid := σ.sectEsdidOf
  dsectSect := σ.dsectSect
  erEsdid := erEsdid
  curEsdid := σ.sectEsdidOf cur

end Pass1

namespace DcScope

variable (E : DcScope)

/-- `expr_val`, for which a leading parenthesis is a subscript. -/
def exprVal (t : List Char) : ℤ × ℤ × XState :=
  if (skipBlanks t).head? = some '(' ∨ (skipBlanks t).head? = some ',' then (0, 0, Scope.initial (skipBlanks t))
  else E.exprValFull t

/-- The address of a CCW, three bytes behind the command code. -/
def ccwAddr (t : List Char) : AdconOut :=
  let r := E.exprVal t
  let rsym := E.relocSymOf t
  let es := rsym.bind fun nm => if nm = ['*'] then none else E.find nm
  ⟨r.1,
    if r.2.1 ≠ 0 ∧ E.tgtreal rsym then (rsym.map fun nm => { E.addReloc nm 3 with addr := E.lc + 1 }).toList else [],
    (if r.2.2.undef then [.undefined] else []) ++ (if Scope.exprErr r.2.2 then [.expression] else []) ++
    (if r.2.1 ≠ 0 ∧ !E.tgtreal rsym ∧ es.any (fun s => E.isDsect s.sect) then [.dsectAdcon] else [])⟩

/-- One value of an address literal, at its place in the pool. -/
def emitLitAddr (ty : AdconType) (per : ℕ) (t : List Char) : AdconOut :=
  let r := if t = [] then (0, 0, Scope.initial []) else E.exprValFull t
  let ifo204 := r.2.1 ≠ 0 ∧ per ≤ (if ty = .y then 1 else 2)
  let rsym := E.relocSymOf t
  let es := rsym.bind fun nm => if nm = ['*'] then none else E.find nm
  ⟨if ifo204 then 0 else r.1,
    if ¬ ifo204 ∧ r.2.1 ≠ 0 ∧ E.tgtreal rsym then (rsym.map fun nm => E.addReloc nm per).toList else [],
    (if r.2.2.undef then [.undefined] else []) ++ (if Scope.exprErr r.2.2 then [.expression] else []) ++
    (if ifo204 then [.notRelocatable] else []) ++
    (if ¬ ifo204 ∧ r.2.1 ≠ 0 ∧ es.any (fun s => E.isDsect s.sect) then [.dsectAdcon] else [])⟩

end DcScope

end Cc370.As370
