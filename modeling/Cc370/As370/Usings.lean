import Cc370.Lib.KeyedLog
import Cc370.As370.SetSymbols

namespace Cc370.As370

open KeyedLog

/-- An active domain. -/
structure Uent where
  reg : Fin 16
  base : ℤ
  sect : ℕ
  isabs : Bool
deriving DecidableEq

inductive UevKind
  | usingRec | dropRec | pushRec | popRec
deriving DecidableEq

inductive UevCause
  | stmt | pop | noop
deriving DecidableEq

structure Uev where
  seq : ℕ
  kind : UevKind
  sect : ℕ
  loc : ℤ
  reg : Option (Fin 16)
  value : ℤ
  valsect : ℕ
  valdsect : Bool
  isabs : Bool
  cause : UevCause
deriving DecidableEq

/-- What the first operand of a USING comes to; `uerr` is how often it is flagged. -/
structure UseBase where
  value : ℤ
  sect : ℕ
  isabs : Bool
  uerr : ℕ

/-- Where a statement stands, and what its operands come to there. -/
structure UseScope where
  sect : ℕ
  loc : ℤ
  isDsect : ℕ → Bool
  base : List Char → UseBase
  usingReg : List Char → Option (Fin 16)

inductive UseOp
  | usingOp | dropOp | pushOp | popOp
deriving DecidableEq

structure UseStmt where
  seq : ℕ
  op : UseOp
  opnd : List Char
  scope : UseScope

/-- IFO217 of the base and IFO195 of a register, with the text of the operand. -/
inductive UseDiag
  | base (text : List Char)
  | register (text : List Char)
deriving DecidableEq

/-- The table, the tables that are pushed, with the last in front, the log and the diagnostics. -/
structure UseState where
  usings : List Uent
  ustk : List (List Uent)
  uevs : List Uev
  diags : List UseDiag

namespace UseState

def start : UseState := ⟨[], [], [], []⟩

def flag (st : UseState) (d : UseDiag) : UseState := { st with diags := st.diags ++ [d] }

end UseState

namespace UseStmt

variable (s : UseStmt)

def fields (max : ℕ) : List (List Char) := (splitFields s.opnd none false 0 []).take max

def uev (kind : UevKind) (u : Uent) (cause : UevCause) : Uev :=
  ⟨s.seq, kind, s.scope.sect, s.scope.loc, some u.reg, u.base, u.sect, s.scope.isDsect u.sect, u.isabs, cause⟩

def uevNoReg (kind : UevKind) (cause : UevCause) : Uev := ⟨s.seq, kind, s.scope.sect, s.scope.loc, none, 0, 0, false, false, cause⟩

def uevNoop (r : Fin 16) : Uev := ⟨s.seq, .dropRec, s.scope.sect, s.scope.loc, some r, 0, 0, false, false, .noop⟩

/-- The slot of the register, or a new one. -/
def setSlot (t : List Uent) (u : Uent) : Option (List Uent) :=
  match t.findIdx? fun v => v.reg = u.reg with
  | some i => some (t.set i u)
  | none => if 32 ≤ t.length then none else some (t ++ [u])

/-- The registers of a USING, by position. -/
def usingRegs (b : UseBase) : ℕ → List (List Char) → UseState → UseState
  | _, [], st => st
  | j, f :: fs, st =>
    if f = [] then usingRegs b (j + 1) fs st
    else
      match s.scope.usingReg f with
      | none => st.flag (.register (f.take 24))
      | some r =>
        if r = 0 ∧ j ≠ 1 then st.flag (.register (f.take 24))
        else
          let u : Uent := ⟨r, b.value + 4096 * ((j : ℤ) - 1), b.sect, b.isabs⟩
          match setSlot st.usings u with
          | none => st
          | some t => usingRegs b (j + 1) fs { st with usings := t, uevs := st.uevs ++ [s.uev .usingRec u .stmt] }

def usingStmt (st : UseState) : UseState :=
  let fs := s.fields 17
  let b := s.scope.base (fs.headD [])
  let st := { st with diags := st.diags ++ List.replicate b.uerr (.base ((fs.headD []).take 24)) }
  if b.uerr = 0 then s.usingRegs b 1 fs.tail st else st

/-- Every entry of the register goes; the last one takes its place. -/
def dropReg (r : Fin 16) : ℕ → ℕ → List Uent → List Uent × List Uent
  | 0, _, t => (t, [])
  | fuel + 1, k, t =>
    match t[k]? with
    | none => (t, [])
    | some u =>
      if u.reg = r then
        let d := dropReg r fuel k (removeAt t k)
        (d.1, u :: d.2)
      else dropReg r fuel (k + 1) t

def dropRegs : List (List Char) → UseState → UseState
  | [], st => st
  | f :: fs, st =>
    match s.scope.usingReg f with
    | none => dropRegs fs (st.flag (.register (f.take 24)))
    | some r =>
      let d := dropReg r st.usings.length 0 st.usings
      if d.2 = [] then { st with uevs := st.uevs ++ [s.uevNoop r] }.flag (.register (f.take 24))
      else dropRegs fs { st with usings := d.1, uevs := st.uevs ++ d.2.map fun u => s.uev .dropRec u .stmt }

def dropStmt (st : UseState) : UseState :=
  let fs := s.fields 16
  if fs.headD [] = [] then { st with usings := [], uevs := st.uevs ++ st.usings.map fun u => s.uev .dropRec u .stmt }
  else s.dropRegs fs st

/-- The text `USING`, which a PUSH or a POP has somewhere in its operand. -/
def usingText : List Char := ['U', 'S', 'I', 'N', 'G']

def isPush : Bool := s.op = .pushOp ∧ usingText <:+: s.opnd

def isPop : Bool := s.op = .popOp ∧ usingText <:+: s.opnd

def pushStmt (st : UseState) : UseState :=
  if st.ustk.length < 16 then { st with ustk := st.usings :: st.ustk, uevs := st.uevs ++ [s.uevNoReg .pushRec .stmt] }
  else { st with uevs := st.uevs ++ [s.uevNoReg .pushRec .noop] }

def popStmt (st : UseState) : UseState :=
  match st.ustk with
  | [] => { st with uevs := st.uevs ++ [s.uevNoReg .popRec .noop] }
  | new :: ustk =>
    { st with
      usings := new
      ustk := ustk
      uevs := st.uevs ++ [s.uevNoReg .popRec .stmt] ++ ((st.usings.filter fun u => u ∉ new).map fun u => s.uev .dropRec u .pop) ++
        (new.filter fun u => u ∉ st.usings).map fun u => s.uev .usingRec u .pop }

def step (st : UseState) : UseState :=
  match s.op with
  | .usingOp => s.usingStmt st
  | .dropOp => s.dropStmt st
  | .pushOp => if s.isPush then s.pushStmt st else st
  | .popOp => if s.isPop then s.popStmt st else st

end UseStmt

namespace UseState

def run (st : UseState) (stmts : List UseStmt) : UseState := stmts.foldl (fun st s => s.step st) st

end UseState

/-- A USING sets the domain of its register, a DROP removes it, and nothing else changes one. -/
def Uev.event (e : Uev) : Event Uent (Fin 16) :=
  match e.kind, e.reg, e.cause with
  | _, _, .noop => .noop
  | .usingRec, some r, _ => .put ⟨r, e.value, e.valsect, e.isabs⟩
  | .dropRec, some r, _ => .drop r
  | _, _, _ => .noop

/-- The domains that a reader of the log comes to. -/
def replayUevs (es : List Uev) : Fin 16 → Option Uent := replay Uent.reg (fun _ => none) (es.map Uev.event)

end Cc370.As370
