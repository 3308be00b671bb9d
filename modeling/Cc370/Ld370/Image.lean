import Cc370.Ld370.Layout

namespace Cc370.Ld370

open BigEndian

def copyInto {α : Type} (m : ℤ → α) (dst : ℤ) (src : ℕ → α) (a n : ℕ) : ℤ → α :=
  fun x => if dst ≤ x ∧ x < dst + n then src (a + (x - dst).toNat) else m x

/-- The blocks `(destination, source, count)` of the object's text that go into the module. -/
def Placed.blocks (o : Placed) (base : ℤ) : List (ℤ × ℕ × ℕ) :=
  if o.obj.textlen = 0 then []
  else if !o.hasDrop then [(base, 0, o.obj.textlen)]
  else
    Obj.esdids.filterMap fun jj => (o.obj.loc jj).bind fun e =>
      if isSectType e.type ∧ !o.dropped jj ∧ e.addr < o.obj.textlen then
        some (base + o.newaddr jj, e.addr,
          if o.obj.textlen < e.addr + e.len then o.obj.textlen - e.addr else e.len)
      else none

def Placed.copy {α : Type} (src : Obj → ℕ → α) (L : List Placed) (m : ℤ → α) (oi : Placed × ℕ) :
    ℤ → α :=
  (oi.1.blocks (objectBase L oi.2)).foldl (fun m b => copyInto m b.1 (src oi.1.obj) b.2.1 b.2.2) m

def Layout.modText (L : Layout) : Memory :=
  L.objs.zipIdx.foldl (Placed.copy Obj.text L.objs) fun _ => 0

def Layout.moddef (L : Layout) : ℤ → Bool :=
  L.objs.zipIdx.foldl (Placed.copy Obj.defn L.objs) fun _ => false

namespace Orld

def adconLen (r : Orld) : ℕ := r.flag.toNat / 4 % 4 + 1

def negative (r : Orld) : Bool := r.flag.toNat / 2 % 2 = 1

end Orld

namespace Placed

def localToG (o : Placed) (id : ℕ) : Option ℕ := (o.obj.lookup id).map fun _ => o.locG id

def rldDropped (o : Placed) (r : Orld) : Bool := (o.obj.lookup r.P).isSome ∧ o.dropped r.P

def rldModaddr (o : Placed) (base : ℤ) (r : Orld) : ℤ :=
  base + (r.addr + (o.obj.lookup r.P).elim 0 fun e => o.newaddr r.P - e.addr)

/-- The final address of the item's target, when the relocation loop finds one. -/
def rldBase (o : Placed) (G : List Gsym) (r : Orld) : Option ℤ :=
  (o.localToG r.R).bind fun Rg => (symbolAddr G (gAt G Rg)).filter (0 ≤ ·)

def fixup (o : Placed) (base : ℤ) (G : List Gsym) (r : Orld) : Option Fixup :=
  if o.rldDropped r then none
  else
    (o.rldBase G r).map fun b => ⟨o.rldModaddr base r, r.adconLen, b - o.obj.addr r.R⟩

end Placed

def Layout.fixups (L : Layout) : List Fixup :=
  L.objs.zipIdx.flatMap fun (o, i) => o.obj.rld.filterMap (o.fixup (objectBase L.objs i) L.G)

def Layout.relocated (L : Layout) : Memory := L.fixups.foldl Fixup.apply L.modText

def iewlTxtsize : List ℕ := [18432, 13312, 12288, 7680, 6144, 5120, 4096, 3072, 2048, 1024]

def pickMaxtext (blksize : ℕ) : ℕ := (iewlTxtsize.find? fun t => t ≤ blksize).getD 1024

structure Options where
  allowUnresolved : Bool
  sparseText : Bool
  srcBlksize : ℕ
  entryname : Option Name

def Options.maxtext (opt : Options) : ℕ := pickMaxtext opt.srcBlksize

def modArchMax : ℤ := 2 ^ 24

/-- PASS 2 and the address assignment, with the exits that end the link at return code 1. -/
def linkLayout (opt : Options) (O : List Obj) : Option Layout :=
  let s := pass2 O
  let L := assignAddresses O s
  if s.ncomerr ≠ 0 then none
  else if unresolved s ≠ [] ∧ !opt.allowUnresolved then none
  else if opt.entryname.any (fun n => (findSymbol L.G n).isNone) then none
  else if modArchMax < L.modlen then none
  else some L

end Cc370.Ld370
