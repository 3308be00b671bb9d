import Cc370.As370.Conditions
import Mathlib.Logic.Function.Basic
import Mathlib.Data.List.Basic

namespace Cc370.As370

inductive SetType
  | a | b | c
deriving DecidableEq, Repr

def SetType.initial : SetType → List Char
  | .c => []
  | _ => ['0']

/-- The fields between the commas that stand outside quotes and parentheses. -/
def splitFields : List Char → Option Char → Bool → ℤ → List Char → List (List Char)
  | [], _, _, _, start => [start.take 255]
  | c :: p, last, q, depth, start =>
    if c = '\'' then splitFields p (some c) (if q ∨ !Tok.attrMark last then !q else q) depth (start ++ [c])
    else if !q ∧ c = '(' then splitFields p (some c) q (depth + 1) (start ++ [c])
    else if !q ∧ c = ')' then splitFields p (some c) q (depth - 1) (start ++ [c])
    else if !q ∧ c = ',' ∧ depth = 0 then start.take 255 :: splitFields p (some c) q depth []
    else splitFields p (some c) q depth (start ++ [c])

def baseOf (n : List Char) : List Char := (n.takeWhile (· ≠ '(')).take 19

/-- A GBLx or LCLx card -/
structure DeclCard where
  isg : Bool
  ty : SetType
  opnd : List Char
deriving DecidableEq

def DeclCard.fields (card : DeclCard) : List (List Char) := splitFields card.opnd none false 0 []

structure SetRow where
  name : List Char
  val : List Char
  elem : Option (ℤ → Option (List Char))
  islcl : Bool

namespace SetRow

def fresh (name : List Char) : SetRow := ⟨name, [], none, false⟩

/-- What `set_find` returns for a row and a subscript. -/
def slot (r : SetRow) : Option ℤ → Option (List Char)
  | none => if r.elem.isSome then none else some r.val
  | some idx => if idx < 1 ∨ 1000000 < idx then none else r.elem.bind fun e => e idx

/-- What `set_put` leaves of a row. -/
def put (r : SetRow) (k : Option ℤ) (v : List Char) : SetRow :=
  match k with
  | none => { r with val := v.take 255 }
  | some idx =>
    if idx < 1 ∨ 1000000 < idx then r
    else { r with elem := some (Function.update (r.elem.getD fun _ => none) idx (some (v.take 255))) }

end SetRow

def rowFind (rows : List SetRow) (base : List Char) : Option SetRow := rows.find? fun r => r.name = base

/-- A change of the row of a name, which is made if it is not there. -/
def rowPut (base : List Char) (f : SetRow → SetRow) : List SetRow → List SetRow
  | [] => [f (.fresh base)]
  | r :: rows => if r.name = base then f r :: rows else r :: rowPut base f rows

/-- The SET symbols of open code or of one expansion: its rows, its arrays with whether they are
numeric, and what its source declares. -/
structure SetCtx where
  sr : List SetRow
  arrb : List (List Char × Bool)
  src : List DeclCard

structure SetSt where
  gbl : List (List Char)
  gsr : List SetRow
  ctxs : List SetCtx

/-- The type a source declares for a name, executed or not. -/
def vdictType (src : List DeclCard) (n : List Char) : Option SetType :=
  ((src.flatMap fun card => card.fields.map fun f => (baseOf f, card.ty)).find? fun p => p.1 = n).map Prod.snd

namespace SetSt

variable (st : SetSt)

def isGlobalIn (c : SetCtx) (n : List Char) : Bool :=
  if (rowFind c.sr n).any SetRow.islcl then false else n ∈ st.gbl

def markGlobal (n : List Char) : Option SetSt :=
  if n ∈ st.gbl then some st
  else if 1024 ≤ st.gbl.length then none
  else some { st with gbl := st.gbl ++ [n] }

/-- A change of a row of a context; `none` if a row is needed and the table is full. -/
def rowLocal (i : ℕ) (c : SetCtx) (n : List Char) (f : SetRow → SetRow) : Option SetSt :=
  if rowFind c.sr n = none ∧ 512 ≤ c.sr.length then none
  else some { st with ctxs := st.ctxs.set i { c with sr := rowPut n f c.sr } }

def lclDeclare (i : ℕ) (c : SetCtx) (n : List Char) : Option SetSt :=
  st.rowLocal i c n fun r => { r with islcl := true }

def setFind (c : SetCtx) (n : List Char) (k : Option ℤ) : Option (List Char) :=
  (rowFind (if st.isGlobalIn c n then st.gsr else c.sr) n).bind fun r => r.slot k

def setPut (i : ℕ) (c : SetCtx) (n : List Char) (k : Option ℤ) (v : List Char) : Option SetSt :=
  if st.isGlobalIn c n then
    if rowFind st.gsr n = none ∧ 32768 ≤ st.gsr.length then none
    else some { st with gsr := rowPut n (fun r => r.put k v) st.gsr }
  else st.rowLocal i c n fun r => r.put k v

/-- The array is noted, if there are not too many of them. -/
def noteArray (i : ℕ) (c : SetCtx) (ty : SetType) (n : List Char) : SetSt :=
  if c.arrb.length < 48 then { st with ctxs := st.ctxs.set i { c with arrb := c.arrb ++ [(n, decide (ty ≠ .c))] } } else st

/-- One field of a GBLx or LCLx card. -/
def declare (i : ℕ) (isg : Bool) (ty : SetType) (f : List Char) : Option SetSt := do
  let c ← st.ctxs[i]?
  let n := baseOf f
  if '(' ∈ f then
    let st' := st.noteArray i c ty n
    if isg then st'.markGlobal n
    else
      let c' ← st'.ctxs[i]?
      st'.lclDeclare i c' n
  else if isg then
    let st' ← st.markGlobal n
    if (st'.setFind c n none).isSome then some st' else st'.setPut i c n none ty.initial
  else
    let st' ← st.lclDeclare i c n
    let c' ← st'.ctxs[i]?
    st'.setPut i c' n none ty.initial

/-- The value of a variable symbol. -/
def vref (c : SetCtx) (n : List Char) (k : Option ℤ) : List Char :=
  match st.setFind c n k with
  | some v => v
  | none =>
    match k with
    | none => ((vdictType c.src n).map SetType.initial).getD []
    | some _ => ((c.arrb.find? fun p => p.1 = n).map fun p => if p.2 then ['0'] else []).getD []

end SetSt

/-- What a program does to its SET symbols. The i-th context is entered with the i-th source. -/
inductive SetEvent
  | enter
  | decl (i : ℕ) (isg : Bool) (ty : SetType) (f : List Char)
  | set (i : ℕ) (n : List Char) (k : Option ℤ) (v : List Char)
deriving DecidableEq

/-- A statement: GBLx and LCLx are performed for the first 24 fields. -/
inductive SetStmt
  | enter
  | card (i : ℕ) (d : DeclCard)
  | set (i : ℕ) (n : List Char) (k : Option ℤ) (v : List Char)

def SetStmt.events : SetStmt → List SetEvent
  | enter => [.enter]
  | .card i d => (d.fields.take 24).map fun f => .decl i d.isg d.ty f
  | set i n k v => [.set i n k v]

def SetSt.step (src : ℕ → List DeclCard) (st : SetSt) : SetEvent → Option SetSt
  | .enter => some { st with ctxs := st.ctxs ++ [⟨[], [], src st.ctxs.length⟩] }
  | .decl i isg ty f => st.declare i isg ty f
  | .set i n k v => st.ctxs[i]?.bind fun c => st.setPut i c n k v

def SetSt.empty : SetSt := ⟨[], [], []⟩

def SetSt.run (src : ℕ → List DeclCard) (tr : List SetEvent) : Option SetSt := tr.foldlM (SetSt.step src) .empty

end Cc370.As370
