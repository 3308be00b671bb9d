import Cc370.Ld370.Composite

namespace Cc370.Ld370

def roundup8 (v : ℤ) : ℤ := (v + 7) / 8 * 8

def Obj.objSects (o : Obj) : List (ℕ × Lent) :=
  esdids.filterMap fun j => (o.loc j).bind fun e => if isObjSect e.type then some (j, e) else none

def Obj.addr (o : Obj) (j : ℕ) : ℤ := (o.loc j).elim 0 fun e => (e.addr : ℤ)

/-- The first section with the smallest origin above `last`. -/
def nextSect (S : List (ℕ × Lent)) (last : ℤ) : Option (ℕ × Lent) :=
  S.foldl (fun nx x =>
    if last < x.2.addr ∧ nx.all (fun y => x.2.addr < y.2.addr) then some x else nx) none

def compactLoop (o : Obj) (dropped : ℕ → Bool) : ℕ → ℤ → ℤ → (ℕ → ℤ) → ℕ → ℤ
  | 0, _, _, newaddr => newaddr
  | fuel + 1, last, removed, newaddr =>
    match nextSect o.objSects last with
    | none => newaddr
    | some (nx, e) =>
      let last : ℤ := e.addr
      let newaddr' := fun jj =>
        if (o.loc jj).any (fun e' => isObjSect e'.type ∧ (e'.addr : ℤ) = last) then last - removed
        else newaddr jj
      let next := (nextSect o.objSects last).elim (last + e.len) fun x => (x.2.addr : ℤ)
      let removed' := if dropped nx then removed + (next - last) else removed
      compactLoop o dropped fuel last removed' newaddr'

def Obj.newaddr (o : Obj) (dropped : ℕ → Bool) : ℕ → ℤ :=
  if esdids.any dropped then compactLoop o dropped o.objSects.length (-1) 0 o.addr else o.addr

def Obj.osize (o : Obj) (dropped : ℕ → Bool) : ℤ :=
  o.objSects.foldl (fun osize x =>
    if !dropped x.1 ∧ osize < o.newaddr dropped x.1 + x.2.len then o.newaddr dropped x.1 + x.2.len
    else osize) 0

/-- An object with the part of PASS 2 that belongs to it. -/
structure Placed where
  obj : Obj
  locG : ℕ → ℕ
  dropped : ℕ → Bool

namespace Placed

def hasDrop (o : Placed) : Bool := Obj.esdids.any o.dropped

def newaddr (o : Placed) : ℕ → ℤ := o.obj.newaddr o.dropped

def osize (o : Placed) : ℤ := o.obj.osize o.dropped

end Placed

def placed (O : List Obj) (s : Composite) : List Placed :=
  O.zipIdx.map fun (o, i) => ⟨o, s.locG i, s.dropped i⟩

def objectBase (L : List Placed) (i : ℕ) : ℤ := ((L.take i).map fun o => roundup8 o.osize).sum

def moveSections (L : List Placed) (G : List Gsym) : List Gsym :=
  L.zipIdx.foldl (fun G (o, i) =>
    if o.hasDrop then
      o.obj.objSects.foldl (fun G x =>
        if !o.dropped x.1 ∧ (gAt G (o.locG x.1)).defObj = some i then
          G.modify (o.locG x.1) fun g => { g with inAddr := o.newaddr x.1 }
        else G) G
    else G) G

def placeCommons : List Gsym → ℤ → List Gsym × ℤ
  | [], running => ([], running)
  | g :: G, running =>
    if g.isSect ∧ g.type = .cm then
      let rest := placeCommons G (roundup8 running + g.len)
      ({ g with inAddr := roundup8 running } :: rest.1, rest.2)
    else
      let rest := placeCommons G running
      (g :: rest.1, rest.2)

def numberSections (base : ℕ → ℤ) : List Gsym → ℕ → List Gsym × ℕ
  | [], gid => ([], gid)
  | g :: G, gid =>
    if g.isSect then
      let rest := numberSections base G (gid + 1)
      ({ g with gid := gid + 1, org := g.defObj.elim 0 base + g.inAddr } :: rest.1, rest.2)
    else
      let rest := numberSections base G gid
      (g :: rest.1, rest.2)

def numberOthers : List Gsym → ℕ → List Gsym
  | [], _ => []
  | g :: G, gid =>
    if g.isSect then g :: numberOthers G gid
    else { g with gid := gid + 1 } :: numberOthers G (gid + 1)

structure Layout where
  objs : List Placed
  G : List Gsym
  textend : ℤ
  modlen : ℤ
  nsect : ℕ

def assignAddresses (O : List Obj) (s : Composite) : Layout :=
  let L := placed O s
  let running := objectBase L L.length
  let commons := placeCommons (moveSections L s.G) running
  let numbered := numberSections (objectBase L) commons.1 0
  ⟨L, numberOthers numbered.1 numbered.2, roundup8 running, roundup8 commons.2, numbered.2⟩

/-- `gidx[1..nsect]`: the insertion sort moves the greater origins up one by one, so the
prefix sorted so far is held here from its end. -/
def gidx (G : List Gsym) : List Gsym :=
  ((G.filter Gsym.isSect).reverse.insertionSort fun t x => x.org ≤ t.org).reverse

def symbolAddr (G : List Gsym) (g : Gsym) : Option ℤ :=
  if g.isSect then some g.org
  else
    match g.owner with
    | some o => if g.type = .lr ∧ (gAt G o).isSect then some ((gAt G o).org + g.inAddr) else none
    | none => none

def findSymbol (G : List Gsym) (name : Name) : Option ℤ :=
  (G.filter fun g => g.name = name).findSome? (symbolAddr G)

end Cc370.Ld370
