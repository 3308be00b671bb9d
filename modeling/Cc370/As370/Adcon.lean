import Cc370.As370.Expr

namespace Cc370.As370

/-- The scope of a DC in a control section, with the ESDIDs of the sections and the marks of the
dummy ones, which are kept by the low byte of a section's number. -/
structure DcScope extends Scope where
  sectEsdid : ℕ → ℕ
  dsectSect : ℕ → Bool
  erEsdid : ℕ → ℕ
  curEsdid : ℕ

inductive DcDiag
  | undefined | expression | dsectAdcon | notRelocatable | relocatableY | truncated
deriving DecidableEq, Repr

inductive AdconType
  | a | y
deriving DecidableEq, Repr

structure AdconOut where
  value : ℤ
  rels : List Reloc
  diags : List DcDiag

namespace DcScope

variable (E : DcScope)

def isDsect (sect : ℕ) : Bool := E.dsectSect (sect % 256)

def relocAt (len rel : ℕ) (neg : Bool) : Reloc := ⟨E.lc, E.curEsdid, rel, 0, len, neg⟩

/-- The ESDID that `add_reloc` finds for an address constant's symbol. -/
def symRel (nm : List Char) : ℕ :=
  let s := E.find nm
  let own := s.elim 0 fun s => if s.defined ∧ (s.type = .er ∨ s.type = .rel) then E.sectEsdid s.sect else 0
  let rels := [own, s.elim 0 XSym.esdid, s.elim 0 XSym.eqEsdid, s.elim 0 fun s => E.sectEsdid s.sect]
  (rels.find? (· ≠ 0)).getD E.curEsdid

def addReloc (nm : List Char) (len : ℕ) : Reloc := E.relocAt len (E.symRel nm) false

def addRelocSect (sect len : ℕ) (neg : Bool) : List Reloc :=
  if E.isDsect sect then []
  else [E.relocAt len (if E.sectEsdid sect ≠ 0 then E.sectEsdid sect else E.curEsdid) neg]

def addRelocEr (idx len : ℕ) (neg : Bool) : List Reloc := [E.relocAt len (E.erEsdid idx) neg]

def addRelocTarget (x : Target) (len : ℕ) (neg : Bool) : List Reloc :=
  match x with
  | .sect id => E.addRelocSect id len neg
  | .er idx => E.addRelocEr idx len neg

def isReal (x : Target) : Bool :=
  match x with
  | .sect id => E.sectEsdid id ≠ 0 ∧ !E.isDsect id
  | .er _ => true

def exprSectTerms8 (t : List Char) : List (Target × ℤ) :=
  E.toScope.exprSectTerms 8 (t.length + 1) t 1 true []

def relocSymOf (t : List Char) : Option (List Char) := E.toScope.relocSym (t.length + 1) t 1 true

/-- The entries for the tally: one for each unit, in its own direction. -/
def tallyRelocs (ts : List (Target × ℤ)) (len : ℕ) : List Reloc :=
  ts.flatMap fun x => (List.replicate x.2.natAbs (E.addRelocTarget x.1 len (x.2 < 0))).flatten

def tgtreal (rsym : Option (List Char)) : Bool :=
  rsym.any fun nm =>
    if nm = ['*'] then !E.isDsect E.curSect else (E.find nm).any fun s => !E.isDsect s.sect

/-- The entries that the arm for A and Y records, before IFO204 takes them back. -/
def adconRels (t : List Char) (rc : ℤ) (len : ℕ) : List Reloc :=
  let rsym := E.relocSymOf t
  let ts := E.exprSectTerms8 t
  let nz := ts.filter fun x => x.2 ≠ 0
  let simple := nz.all fun x => x.2 = 1
  let allreal := nz.all fun x => E.isReal x.1
  if nz ≠ [] ∧ !(nz.length = 1 ∧ simple) ∧ allreal then E.tallyRelocs ts len
  else if rc ≠ 0 ∧ E.tgtreal rsym then (rsym.map fun nm => E.addReloc nm len).toList
  else []

/-- One value of an A- or Y-type DC; `first` for the first copy of a duplicated operand. -/
def dcAdcon (ty : AdconType) (len : ℕ) (first : Bool) (t : List Char) : AdconOut :=
  let r := if t = [] then (0, 0, Scope.initial []) else E.exprValFull t
  let rc := r.2.1
  let nz := (E.exprSectTerms8 t).filter fun x => x.2 ≠ 0
  let es := (E.relocSymOf t).bind fun nm => if nm = ['*'] then none else E.find nm
  let ifo204 := rc ≠ 0 ∧ len ≤ (if ty = .y then 1 else 2)
  let v := if ifo204 then 0 else r.1
  ⟨v, if ifo204 then [] else E.adconRels t rc len,
    (if r.2.2.undef then [.undefined] else []) ++
    (if Scope.exprErr r.2.2 then [.expression] else []) ++
    (if ¬ ifo204 ∧ rc ≠ 0 ∧ es.any (fun s => E.isDsect s.sect) then [.dsectAdcon] else []) ++
    (if ifo204 then [.notRelocatable] else []) ++
    (if ty = .y ∧ 2 ≤ len ∧ (rc ≠ 0 ∨ nz ≠ []) then [.relocatableY]
      else if ty = .y ∧ len = 2 ∧ first ∧ (v < -2 ^ 15 ∨ 2 ^ 15 - 1 < v) then [.truncated] else [])⟩

end DcScope

end Cc370.As370
