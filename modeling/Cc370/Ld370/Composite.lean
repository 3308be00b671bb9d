import Cc370.Ld370.Object

namespace Cc370.Ld370

structure Gsym where
  name : Name
  type : EsdType
  isSect : Bool
  gid : ℕ
  org : ℤ
  len : ℕ
  defObj : Option ℕ
  inAddr : ℤ
  owner : Option ℕ
deriving DecidableEq

namespace Gsym

def fresh (name : Name) : Gsym := ⟨name, .sd, false, 0, 0, 0, none, 0, none⟩

end Gsym

def gAt (G : List Gsym) (gi : ℕ) : Gsym := G.getD gi (.fresh blankName)

def gFind (G : List Gsym) (name : Name) : Option ℕ := G.findIdx? (fun g => g.name = name)

def gNew (G : List Gsym) (name : Name) : List Gsym × ℕ := (G ++ [.fresh name], G.length)

def gIntern (G : List Gsym) (name : Name) (type : EsdType) : List Gsym × ℕ :=
  match gFind G name with
  | some i =>
    (G.modify i fun g => if g.type = .wx ∧ type ≠ .wx then { g with type := .er } else g, i)
  | none => (G ++ [{ Gsym.fresh name with type := type }], G.length)

namespace Gsym

def mergeCommon (g : Gsym) (len : ℕ) : Gsym :=
  if g.isSect ∧ g.type = .sd then g
  else
    let area := if g.isSect ∧ g.type = .cm then g
      else { g with isSect := true, type := .cm, len := 0, defObj := none, inAddr := 0 }
    if area.len < len then { area with len := len } else area

/-- A control section the composite table already holds under this name. -/
def duplicate (g : Gsym) (e : Lent) : Bool := e.type = .sd ∧ g.isSect ∧ g.type = .sd

def define (g : Gsym) (i : ℕ) (e : Lent) : Gsym :=
  if g.duplicate e then g
  else if e.type = .cm then g.mergeCommon e.len
  else if isSectType e.type then
    { g with isSect := true, type := e.type, len := e.len, defObj := some i, inAddr := e.addr }
  else g

def commonTooLong (g : Gsym) (e : Lent) : Bool :=
  g.isSect ∧ (e.type = .cm ∧ g.type = .sd ∧ g.len < e.len ∨
    e.type = .sd ∧ g.type = .cm ∧ e.len < g.len)

def doublyDefined (g : Gsym) : Bool := g.type = .lr ∧ g.owner.isSome

def label (g : Gsym) (l : Ldent) (owner : Option Lent) (ownerG : ℕ) : Gsym :=
  if g.doublyDefined then g
  else
    { g with
      type := .lr
      owner := owner.map fun _ => ownerG
      inAddr := l.addr - (owner.elim 0 fun e => (e.addr : ℤ)) }

end Gsym

/-- What PASS 2 works on: the composite table, and of each object its `loc_g[]` and the
`dropped` flags of `loc[]`. -/
structure Composite where
  G : List Gsym
  locG : ℕ → ℕ → ℕ
  dropped : ℕ → ℕ → Bool
  ncomerr : ℕ
  nwarn : ℕ

def Composite.empty : Composite := ⟨[], fun _ _ => 0, fun _ _ => false, 0, 0⟩

/-- The used entries of the objects' local tables and their label definitions, in the order
in which the two loops of PASS 2 visit them. -/
inductive EsdItem
  | sect (i j : ℕ) (e : Lent)
  | label (i : ℕ) (l : Ldent) (owner : Option Lent)
deriving DecidableEq

def Lent.intern (e : Lent) (G : List Gsym) : List Gsym × ℕ :=
  if e.type = .pc then gNew G e.name else gIntern G e.name e.type

def passSection (s : Composite) (i j : ℕ) (e : Lent) : Composite :=
  let (G, gi) := e.intern s.G
  let g := gAt G gi
  { s with
    G := G.set gi (g.define i e)
    locG := fun i' j' => if i' = i ∧ j' = j then gi else s.locG i' j'
    dropped := fun i' j' => if i' = i ∧ j' = j ∧ g.duplicate e then true else s.dropped i' j'
    ncomerr := if g.commonTooLong e then s.ncomerr + 1 else s.ncomerr }

def passLabel (s : Composite) (i : ℕ) (l : Ldent) (owner : Option Lent) : Composite :=
  if owner.isSome ∧ s.dropped i l.ownerLocal then s
  else
    let (G, gi) := gIntern s.G l.name .ld
    let g := gAt G gi
    { s with
      G := G.set gi (g.label l owner (s.locG i l.ownerLocal))
      nwarn := if g.doublyDefined then s.nwarn + 1 else s.nwarn }

def Composite.step (s : Composite) : EsdItem → Composite
  | .sect i j e => passSection s i j e
  | .label i l owner => passLabel s i l owner

def Obj.items (o : Obj) (i : ℕ) : List EsdItem :=
  (esdids.filterMap fun j => (o.loc j).map (EsdItem.sect i j)) ++
    o.ld.map fun l => .label i l (o.lookup l.ownerLocal)

def items (O : List Obj) : List EsdItem := O.zipIdx.flatMap fun (o, i) => o.items i

def pass2 (O : List Obj) : Composite := (items O).foldl Composite.step .empty

def unresolved (s : Composite) : List Gsym := s.G.filter fun g => !g.isSect ∧ g.type = .er

end Cc370.Ld370
