import Cc370.Dasm370.Align
import Cc370.Dasm370.Walk

namespace Cc370.Dasm370

inductive AKind
  | insn | adcon | data
deriving DecidableEq

/-- What is hashed into the key of a statement. -/
inductive Key
  | insn (bytes : List UInt8)
  | adcon (tgt : List Char) (len : ℕ)
  | data (tokens : List (Bool × UInt8))
deriving DecidableEq

structure Astmt where
  pos : ℕ
  len : ℕ
  kind : AKind
  key : Key
  external : Bool
  disps : List ℕ
  val : ℤ
deriving DecidableEq

section Fields

variable (fmt : Fmt) (b : ℕ → UInt8)

/-- The displacements are taken out of the key, the base registers stay in it. -/
def maskDisp (i : ℕ) : UInt8 :=
  match fmt with
  | .rx | .bc | .rs | .si | .s => if i = 2 then b 2 &&& 0xF0 else if i = 3 then 0 else b i
  | .ss | .sse =>
    if i = 2 ∨ i = 4 then b i &&& 0xF0 else if i = 3 ∨ i = 5 then 0 else b i
  | _ => b i

def dispAt (i : ℕ) : ℕ := (b i).toNat % 16 * 256 + (b (i + 1)).toNat

def dispOf : List ℕ :=
  match fmt with
  | .rx | .bc | .rs | .si | .s => [dispAt b 2]
  | .ss | .sse => [dispAt b 2, dispAt b 4]
  | _ => []

end Fields

namespace Sect

variable (s : Sect) (optab : List Opc)

/-- A byte that no card covers is zero to `align_load`. -/
def filled : Sect :=
  { s with
    img := fun a => if a < s.len ∧ s.cov a = false then 0 else s.img a
    cov := fun a => a < s.len ∨ s.cov a }

/-- How the target of an address constant is spelled in its key. -/
def tgt (r : RldItem) : List Char :=
  if r.r = s.esdid then ['*'] else if s.named r then s.esdName r.r else '?' :: dec r.r

def collectInsn (a : ℕ) (o : Opc) (len : ℕ) : Astmt where
  pos := a
  len := len
  kind := .insn
  key := .insn ((List.range len).map (maskDisp o.fmt fun i => s.img (a + i)))
  external := false
  disps := dispOf o.fmt fun i => s.img (a + i)
  val := 0

def collectAdcon (a : ℕ) (r : RldItem) : Astmt where
  pos := a
  len := r.len
  kind := .adcon
  key := .adcon (s.tgt r) r.len
  external := r.r ≠ s.esdid
  disps := []
  val := if r.r = s.esdid then (s.fieldVal r : ℤ) - s.org else s.fieldVal r

def collectData (a n : ℕ) : Astmt where
  pos := a
  len := n
  kind := .data
  key := .data []
  external := false
  disps := []
  val := 0

/-- What `walk_section` collects where it writes a statement. -/
def collectAt (a : ℕ) : Astmt :=
  if s.cov a then
    match s.rldAt a with
    | some r => s.collectAdcon a r
    | none =>
      match s.next optab a with
      | (n, .insn o _) => s.collectInsn a o n
      | (n, _) => collectData a n
  else collectData a (s.next optab a).1

def collected : List Astmt := (s.walkSection optab).map fun l => s.collectAt optab l.off

/-- The key of a run of data: whether a byte is covered, and which it is. -/
def finishRun (r : Astmt) : Astmt :=
  { r with key := .data ((List.range r.len).map fun i =>
      (s.cov (r.pos + i), if s.cov (r.pos + i) then s.img (r.pos + i) else 0)) }

/-- Adjacent data is one run. -/
def coalesceData : Option Astmt → List Astmt → List Astmt
  | none, [] => []
  | some r, [] => [s.finishRun r]
  | none, x :: xs => if x.kind = .data then coalesceData (some x) xs else x :: coalesceData none xs
  | some r, x :: xs =>
    if x.kind = .data ∧ x.pos = r.pos + r.len then coalesceData (some { r with len := r.len + x.len }) xs
    else s.finishRun r :: if x.kind = .data then coalesceData (some x) xs else x :: coalesceData none xs

end Sect

/-- One side of an alignment. -/
structure Side where
  stmts : List Astmt
  len : ℕ

def alignLoad (optab : List Opc) (s : Sect) : Side :=
  ⟨s.filled.coalesceData none (s.filled.collected optab), s.len⟩

inductive What
  | insert | delete | data | change
deriving DecidableEq

/-- The place of a difference in a matched pair. -/
inductive Part
  | disp (f : ℕ)
  | adcon
deriving DecidableEq

/-- A line of the report: a gap, a difference that is no shift, a difference that is one. -/
inductive Entry
  | gap (what : What) (i0 i1 j0 j1 : ℕ)
  | const (i j : ℕ) (field : Part) (delta : ℤ)
  | conseq (i j : ℕ) (field : Part) (delta : ℤ)
deriving DecidableEq

structure Report where
  lines : List Entry
  ins : ℕ
  del : ℕ
  dchg : ℕ
  chg : ℕ
  cons : ℕ
  same : ℕ

def Report.start : Report := ⟨[], 0, 0, 0, 0, 0, 0⟩

/-- `findings=` of the summary -/
def Report.findings (o : Report) : ℕ := o.ins + o.del + o.dchg + o.chg

/-- The differences of a matched pair: displacement by displacement, and the values of internal
address constants. -/
def deltas (a b : Astmt) : List (Part × ℤ) :=
  let disps : List (Part × ℤ) :=
    ((a.disps.zip b.disps).zipIdx 1).map fun p : (ℕ × ℕ) × ℕ => (Part.disp p.2, (p.1.2 : ℤ) - p.1.1)
  let vals : List (Part × ℤ) :=
    if a.kind = .adcon ∧ a.external = false ∧ b.external = false then [(Part.adcon, b.val - a.val)] else []
  (disps ++ vals).filter fun d => d.2 ≠ 0

section Align

variable (R C : Side)

def Side.at_ (S : Side) (i : ℕ) : Astmt := S.stmts.getD i ⟨0, 0, .data, .data [], false, [], 0⟩

/-- `shift_known`: a shift is entered once. -/
def addShift (sv : List ℤ) (q : ℤ) : List ℤ := if q ∈ sv then sv else sv ++ [q]

def shift (p : ℕ × ℕ) : ℤ := (C.at_ p.2).pos - (R.at_ p.1).pos

/-- The shifts of the matched pairs, and that of the end of the section. -/
def shiftSet (ps : List (ℕ × ℕ)) : List ℤ :=
  addShift ((ps.map (shift R C)).foldl addShift []) ((C.len : ℤ) - R.len)

def allData (S : Side) (i0 i1 : ℕ) : Bool := (List.range (i1 - i0)).all fun k => (S.at_ (i0 + k)).kind = .data

def gapKind (i0 i1 j0 j1 : ℕ) : What :=
  if i0 = i1 then .insert
  else if j0 = j1 then .delete
  else if allData R i0 i1 ∧ allData C j0 j1 then .data
  else .change

def alignGap (i0 i1 j0 j1 : ℕ) (o : Report) : Report :=
  let what := gapKind R C i0 i1 j0 j1
  let o := { o with lines := o.lines ++ [Entry.gap what i0 i1 j0 j1] }
  match what with
  | .insert => { o with ins := o.ins + 1 }
  | .delete => { o with del := o.del + 1 }
  | .data => { o with dchg := o.dchg + 1 }
  | .change => { o with chg := o.chg + 1 }

def reportDelta (sv : List ℤ) (i j : ℕ) (o : Report) (d : Part × ℤ) : Report :=
  if d.2 ∈ sv then { o with cons := o.cons + 1, lines := o.lines ++ [Entry.conseq i j d.1 d.2] }
  else { o with chg := o.chg + 1, lines := o.lines ++ [Entry.const i j d.1 d.2] }

/-- A pair without a difference counts as unchanged, or as a consequence if it is shifted. -/
def reportPair (sv : List ℤ) (p : ℕ × ℕ) (o : Report) : Report :=
  let ds := deltas (R.at_ p.1) (C.at_ p.2)
  let o := ds.foldl (reportDelta sv p.1 p.2) o
  if ds = [] then
    if shift R C p = 0 then { o with same := o.same + 1 } else { o with cons := o.cons + 1 }
  else o

def reportGap (i0 i1 j0 j1 : ℕ) (o : Report) : Report :=
  if i0 < i1 ∨ j0 < j1 then alignGap R C i0 i1 j0 j1 o else o

def reportPairs (sv : List ℤ) : ℕ → ℕ → List (ℕ × ℕ) → Report → Report
  | pi, pj, [], o => reportGap R C pi R.stmts.length pj C.stmts.length o
  | pi, pj, p :: ps, o =>
    reportPairs sv (p.1 + 1) (p.2 + 1) ps (reportPair R C sv p (reportGap R C pi p.1 pj p.2 o))

/-- What comes of an alignment. -/
inductive Outcome
  | abandoned
  | done (pairs : List (ℕ × ℕ)) (report : Report)

/-- `align_run` of two sides; `none` is an access outside the table of the alignment. -/
def alignRun : Option Outcome :=
  (Align.alignLcs (R.stmts.map Astmt.key) (C.stmts.map Astmt.key)).map fun r =>
    if r.1 < 0 then .abandoned
    else
      let ps := r.2.map fun p => (p.1.toNat, p.2.toNat)
      .done ps (reportPairs R C (shiftSet R C ps) 0 0 ps .start)

end Align

end Cc370.Dasm370
