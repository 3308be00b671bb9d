import Cc370.Ld370.Image

namespace Cc370.Ld370

open BigEndian

def cesdEntry (G : List Gsym) (g : Gsym) : List UInt8 :=
  g.name.toList ++ [UInt8.ofNat g.type.code] ++
    if g.isSect then mvsPut24 g.org ++ [0x01] ++ mvsPut24 g.len
    else if g.type = .lr then
      let owner := g.owner.map (gAt G)
      mvsPut24 (owner.elim 0 Gsym.org + g.inAddr) ++ [0x01] ++
        mvsPut24 (owner.elim 0 fun w => (w.gid : ℤ))
    else [0, 0, 0, 0x00, 0x00, 0x40, 0x40]

/-- The composite symbols in the order of their ESDIDs. -/
def byGid (G : List Gsym) : List Gsym :=
  (List.range' 1 G.length).map fun gid => gAt G (G.findIdx fun g => g.gid = gid)

def cesdRecords (G : List Gsym) : List (List UInt8) :=
  ((byGid G).toChunks 15).zipIdx.map fun (es, k) =>
    [0x20, 0, 0, 0] ++ mvsPut16 (15 * k + 1) ++ mvsPut16 (16 * es.length) ++
      es.flatMap (cesdEntry G)

def spzapIdr : List UInt8 := [0x80, 0xFA, 0x01, 0x00] ++ List.replicate 247 0

/-- The product, version and date of `emit_lked_idr`. -/
abbrev LkedIdent := Vector UInt8 19

def lkedIdr (ident : LkedIdent) : List UInt8 := [0x80, 0x15, 0x82] ++ ident.toList

/-- A text section at its place in `gidx`: where it starts and where the packer ends it. -/
structure TextSect where
  gid : ℕ
  org : ℤ
  send : ℤ
deriving DecidableEq

def textSects (gidx : List Gsym) (textend : ℤ) : List TextSect :=
  let ntext := gidx.countP fun g => g.type ≠ .cm
  (gidx.take ntext).zipIdx.map fun (g, k) =>
    ⟨g.gid, g.org, if k + 1 < ntext then g.org + roundup8 g.len else textend⟩

/-- One round of the packer: the sections after the first that still fit, and the rest. -/
def packMore (maxtext : ℕ) (cstart : ℤ) : List TextSect → List TextSect × List TextSect
  | [] => ([], [])
  | s :: rest =>
    if (maxtext : ℤ) < s.send - cstart then ([], s :: rest)
    else
      let r := packMore maxtext cstart rest
      (s :: r.1, r.2)

def packChunks (maxtext : ℕ) : ℕ → List TextSect → List (TextSect × List TextSect)
  | 0, _ => []
  | _ + 1, [] => []
  | fuel + 1, s :: rest =>
    let r := packMore maxtext s.org rest
    (s, r.1) :: packChunks maxtext fuel r.2

namespace Chunk

def cend (c : TextSect × List TextSect) : ℤ := (c.2.getLast?.getD c.1).send

def idList (c : TextSect × List TextSect) (rlen : ℤ) : List UInt8 :=
  if c.2 = [] then mvsPut16 c.1.gid ++ mvsPut16 rlen
  else (c.1 :: c.2).flatMap fun s => mvsPut16 s.gid ++ mvsPut16 (s.send - s.org)

end Chunk

structure TextRecord where
  control : List UInt8
  addr : ℤ
  text : List UInt8
deriving DecidableEq

def controlRecord (c : TextSect × List TextSect) (modend : Bool) (p rlen : ℤ) : List UInt8 :=
  let ids := Chunk.idList c rlen
  [if modend then 0x0D else 0x01, 0, 0, 0] ++ mvsPut16 ids.length ++ [0, 0, 0x06] ++ mvsPut24 p ++
    [0x40, 0] ++ mvsPut16 rlen ++ ids

def Memory.slice (m : Memory) (p : ℤ) (n : ℕ) : List UInt8 :=
  (List.range n).map fun k : ℕ => m (p + k)

/-- The `do … while (p < cend)` over the records of one chunk. -/
def chunkRecords (opt : Options) (m : Memory) (moddef : ℤ → Bool) (haveRld lastChunk : Bool)
    (c : TextSect × List TextSect) : ℕ → ℤ → List TextRecord
  | 0, _ => []
  | fuel + 1, p =>
    let rlen := min (Chunk.cend c - p) opt.maxtext
    let modend := lastChunk ∧ Chunk.cend c ≤ p + rlen ∧ !haveRld
    let skip := opt.sparseText ∧ !(List.range rlen.toNat).any (fun zi => moddef (p + zi)) ∧ !modend
    let r : TextRecord := ⟨controlRecord c modend p rlen, p, Memory.slice m p rlen.toNat⟩
    let rest := if p + rlen < Chunk.cend c
      then chunkRecords opt m moddef haveRld lastChunk c fuel (p + rlen) else []
    if skip then rest else r :: rest

def textRecords (opt : Options) (m : Memory) (moddef : ℤ → Bool) (haveRld : Bool) :
    List (TextSect × List TextSect) → List TextRecord
  | [] => []
  | c :: cs =>
    chunkRecords opt m moddef haveRld cs.isEmpty c ((Chunk.cend c - c.1.org).toNat + 1) c.1.org ++
      textRecords opt m moddef haveRld cs

/-- The RLD emitter: the closed records, and the data of the open one with the pointers of its
last item and the place of that item's flag. -/
structure RldOut where
  closed : List (List UInt8)
  cur : Option (List UInt8 × ℕ × ℕ × ℕ)

def rldRecord (byte0 : UInt8) (data : List UInt8) : List UInt8 :=
  [byte0, 0, 0, 0, 0, 0] ++ mvsPut16 data.length ++ List.replicate 8 0 ++ data

def rldmax : ℕ := 236

structure RldItem where
  R : ℕ
  P : ℕ
  flag : UInt8
  addr : ℤ
deriving DecidableEq

def RldItem.tail (it : RldItem) : List UInt8 := it.flag :: mvsPut24 it.addr

def RldItem.full (it : RldItem) : List UInt8 := mvsPut16 it.R ++ mvsPut16 it.P ++ it.tail

def RldOut.emit (st : RldOut) (it : RldItem) : RldOut :=
  match st.cur with
  | none => { st with cur := some (it.full, it.R, it.P, 4) }
  | some (data, prevR, prevP, flagOff) =>
    let same := it.R = prevR ∧ it.P = prevP
    if rldmax < data.length + (if same then 4 else 8) then
      ⟨st.closed ++ [rldRecord 0x02 data], some (it.full, it.R, it.P, 4)⟩
    else if same then
      let patched := data.modify flagOff (· ||| 0x01)
      { st with cur := some (patched ++ it.tail, it.R, it.P, data.length) }
    else { st with cur := some (data ++ it.full, it.R, it.P, data.length + 4) }

def RldOut.finish (st : RldOut) : List (List UInt8) :=
  st.closed ++ (st.cur.map fun c => rldRecord 0x0E c.1).toList

def Placed.rldItem (o : Placed) (base : ℤ) (G : List Gsym) (r : Orld) : Option RldItem :=
  if o.rldDropped r then none
  else
    let Rg := (o.localToG r.R).map (gAt G)
    let owner := (Rg.bind Gsym.owner).map (gAt G)
    let viaOwner := Rg.any (fun g => g.type = .lr) ∧ owner.any Gsym.isSect
    let flag := r.flag &&& 0xFE
    let Pgid := (o.localToG r.P).elim 0 fun Pg => (gAt G Pg).gid
    some <|
      if Rg.any Gsym.isSect then ⟨Rg.elim 0 Gsym.gid, Pgid, flag, o.rldModaddr base r⟩
      else if viaOwner then ⟨owner.elim 0 Gsym.gid, Pgid, flag, o.rldModaddr base r⟩
      else ⟨Rg.elim 0 Gsym.gid, Pgid, flag ||| 0x80, o.rldModaddr base r⟩

def Layout.rldItems (L : Layout) : List RldItem :=
  L.objs.zipIdx.flatMap fun (o, i) => o.obj.rld.filterMap (o.rldItem (objectBase L.objs i) L.G)

def rldRecords (items : List RldItem) : List (List UInt8) :=
  (items.foldl RldOut.emit ⟨[], none⟩).finish

namespace Layout

def haveRld (L : Layout) : Bool := L.rldItems ≠ []

def chunks (L : Layout) (opt : Options) : List (TextSect × List TextSect) :=
  let ts := textSects (gidx L.G) L.textend
  packChunks opt.maxtext ts.length ts

def textRecords (L : Layout) (opt : Options) : List TextRecord :=
  Ld370.textRecords opt L.relocated L.moddef L.haveRld (L.chunks opt)

def member (L : Layout) (opt : Options) (ident : LkedIdent) : List UInt8 :=
  (cesdRecords L.G).flatten ++ spzapIdr ++ lkedIdr ident ++
    ((L.textRecords opt).flatMap fun r => r.control ++ r.text) ++ (rldRecords L.rldItems).flatten

end Layout

end Cc370.Ld370
