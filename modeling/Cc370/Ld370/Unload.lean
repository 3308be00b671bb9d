import Cc370.Lmod370
import Cc370.Unload

namespace Cc370.Ld370

open Tracks

/-- The command's `--ac`, `--rent`, `--reus`, `--refr`, `--norent` and `--noreus`. -/
structure Attributes where
  apfcode : ℕ
  setRent : Bool
  setReus : Bool
  setRefr : Bool
  noRent : Bool
  noReus : Bool
deriving DecidableEq

/-- A physical block of a member. -/
structure Lmblock where
  off : ℕ
  len : ℕ
  isText : Bool
deriving DecidableEq

structure Ualias where
  name : Name
  entry : ℤ
  srcUd : Option (List UInt8)
deriving DecidableEq

/-- A member to be unloaded. A negative entry or length leaves that of the template. -/
structure Umember where
  name : Name
  bytes : List UInt8
  entry : ℤ
  modlen : ℤ
  srcUd : Option (List UInt8)
  aliases : List Ualias
deriving DecidableEq

def splitMember (bytes : List UInt8) : Option (List Lmblock) :=
  let w := Lmod.walkMember (ofBytes bytes) bytes.length
  if w.malformed then none else some (w.items.map fun r => ⟨r.off, r.len, r.kind = .text⟩)

def Lmblock.data (b : Lmblock) (bytes : List UInt8) : List UInt8 := (bytes.drop b.off).take b.len

/-- A member with the places of its blocks, of its first block and first text, and of its end. -/
structure Uplaced where
  mem : Umember
  blk : List Lmblock
  spots : List Spot
  first : ℕ × ℕ
  text : ℕ × ℕ
  eof : Spot

def pos (s : Spot) : ℕ × ℕ := (s.tt, s.r)

section Geometry

variable (cap : ℕ)

def placeMember (h : Head) (m : Umember) (blk : List Lmblock) : Uplaced :=
  let spots := layout mvsTrkOvh3350 cap h (blk.map Lmblock.len)
  let first := (spots.head?.map pos).getD (h.tt, h.r)
  let firstText := (blk.zip spots).find? fun b => b.1.isText
  ⟨m, blk, spots, first, (firstText.map fun b => pos b.2).getD first,
    spot mvsTrkOvh3350 cap (after mvsTrkOvh3350 cap h (blk.map Lmblock.len)) 0⟩

/-- The lengths of the records of a member: its blocks, and its end. -/
def recordLens (blk : List Lmblock) : List ℕ := blk.map Lmblock.len ++ [0]

def placeMembers : Head → List (Umember × List Lmblock) → List Uplaced
  | _, [] => []
  | h, m :: mem => placeMember cap h m.1 m.2 :: placeMembers (after mvsTrkOvh3350 cap h (recordLens m.2)) mem

end Geometry

section Directory

def unloadUserdata : List UInt8 :=
  [0x00, 0x00, 0x11, 0x00, 0x00, 0x00, 0x00, 0x00, 0x03, 0xF2, 0x00, 0x00,
    0x08, 0x00, 0x08, 0x00, 0x00, 0x00, 0x88, 0x00, 0x00, 0x01, 0x00, 0x00]

variable (a : Attributes)

/-- A block that is no text and says that it carries RLD items. -/
def Lmblock.hasRld (bytes : List UInt8) (b : Lmblock) : Bool := !b.isText ∧ ofBytes bytes b.off &&& 0x02 ≠ 0

/-- The load address in the record before the first text. -/
def textOrigin (bytes : List UInt8) (blk : List Lmblock) : ℕ :=
  match blk.findIdx? Lmblock.isText with
  | some (k + 1) => (blk[k]?.map fun b => mvsBe24 (ofBytes bytes) (b.off + 9)).getD 0
  | _ => 0

/-- The attributes that describe the records, over those of the template. -/
def recordAttributes (m : Umember) (blk : List Lmblock) (atr : UInt8 × UInt8) : UInt8 × UInt8 :=
  let ntext := (blk.filter Lmblock.isText).length
  let haveRld := blk.any (Lmblock.hasRld m.bytes)
  ((atr.1 &&& ~~~0x01) ||| (if ntext = 1 ∧ !haveRld then 0x01 else 0x00),
    (atr.2 &&& ~~~0x70) ||| (if haveRld then 0x00 else 0x10) ||| (if textOrigin m.bytes blk = 0 then 0x40 else 0x00) |||
      (if m.entry = 0 then 0x20 else 0x00))

def commandAttributes (atr : UInt8 × UInt8) : UInt8 × UInt8 :=
  let atr1 := if a.noRent then atr.1 &&& ~~~0x80 else atr.1
  let atr1 := if a.noReus then atr1 &&& ~~~0x40 else atr1
  let atr1 := if a.setRent then atr1 ||| 0x80 else atr1
  let atr1 := if a.setReus then atr1 ||| 0x40 else atr1
  (atr1, if a.setRefr then atr.2 ||| 0x01 else atr.2)

def firstTextLen (m : Umember) (blk : List Lmblock) : ℤ := ((blk.find? Lmblock.isText).map fun b => (b.len : ℤ)).getD m.modlen

/-- The fields of the user data before the entry point: where the text is, the attributes, the storage
and the length of the first text. -/
def userdataHead (p : Uplaced) : List UInt8 :=
  let atr := if 0 ≤ p.mem.modlen then recordAttributes p.mem p.blk (0x03, 0xF2) else (0x03, 0xF2)
  let atr := commandAttributes a atr
  mvsPut16 p.text.1 ++ [.ofNat p.text.2] ++ (unloadUserdata.drop 3).take 5 ++ [atr.1, atr.2] ++
    (if 0 ≤ p.mem.modlen then mvsPut24 p.mem.modlen ++ mvsPut16 (firstTextLen p.mem p.blk) else (unloadUserdata.drop 10).take 5)

def buildUserdata (p : Uplaced) : List UInt8 :=
  match p.mem.srcUd with
  | some ud => mvsPut16 p.text.1 ++ [.ofNat p.text.2] ++ ud.drop 3
  | none =>
    userdataHead a p ++ (if 0 ≤ p.mem.entry then mvsPut24 p.mem.entry else (unloadUserdata.drop 15).take 3) ++
      (unloadUserdata.drop 18).take 3 ++ [0x01, .ofNat a.apfcode, 0x00]

def aliasUdLen : ℕ := 34

def buildAliasUserdata (mud : List UInt8) (m : Umember) (al : Ualias) : List UInt8 :=
  match al.srcUd with
  | some ud => mud.take 3 ++ (ud.drop 3).take 21 ++ m.name.toList ++ ud.drop 32
  | none => mud.take 15 ++ mvsPut24 al.entry ++ (mud.drop 18).take 3 ++ (mud.drop 15).take 3 ++ m.name.toList ++ (mud.drop 21).take 2

/-- A directory entry: a member, or one of its aliases. -/
structure Dent where
  name : Name
  mem : Uplaced
  alias? : Option Ualias

def Dent.len (d : Dent) : ℕ := if d.alias?.isNone then 12 + 24 else 12 + aliasUdLen

def Dent.bytes (d : Dent) : List UInt8 :=
  let mud := buildUserdata a d.mem
  d.name.toList ++ mvsPut16 d.mem.first.1 ++ [.ofNat d.mem.first.2] ++
    match d.alias? with
    | none => 0x2C :: mud
    | some al => 0xB1 :: buildAliasUserdata mud d.mem.mem al

def dents (p : Uplaced) : List Dent := ⟨p.mem.name, p, none⟩ :: p.mem.aliases.map fun al => ⟨al.name, p, some al⟩

/-- The entries by directory block; the terminator is in the last one. -/
def dirGroups : ℕ → List Dent → List Dent → List (List Dent)
  | used, cur, [] => if 256 < used + 12 then [cur, []] else [cur]
  | used, cur, d :: ds =>
    if 256 < used + d.len then cur :: dirGroups (2 + d.len) [d] ds else dirGroups (used + d.len) (cur ++ [d]) ds

def nameLe (m n : Name) : Prop := m.toList ≤ n.toList

instance : DecidableRel nameLe := fun m n => inferInstanceAs (Decidable (m.toList ≤ n.toList))

/-- The directory, unless two of its entries have one name. -/
def dirLayout (mem : List Uplaced) : Option (List (List Dent)) :=
  let ds := (mem.flatMap dents).insertionSort fun d e => nameLe d.name e.name
  if ds.Pairwise fun d e => d.name ≠ e.name then some (dirGroups 2 [] ds) else none

def dirBody (last : Bool) (ds : List Dent) : List UInt8 :=
  let es := ds.flatMap (Dent.bytes a)
  let used := 2 + (ds.map Dent.len).sum + if last then 12 else 0
  let l := mvsPut16 used ++ es ++ if last then List.replicate 8 0xFF else []
  l ++ List.replicate (256 - l.length) 0x00

def dirBlock (last : Bool) (ds : List Dent) : List UInt8 :=
  mvsPutCount 0 0 0 8 256 ++
    (if last then List.replicate 8 0xFF else (ds.getLast?.map fun d => d.name.toList).getD (List.replicate 8 0xFF)) ++ dirBody a last ds

def directory (groups : List (List Dent)) : List (List UInt8) :=
  groups.zipIdx.map fun g => dirBlock a (g.2 + 1 = groups.length) g.1

end Directory

def Uplaced.ckds (p : Uplaced) : List Ckd :=
  (p.blk.zip p.spots).map (fun b => ⟨b.2, b.1.data p.mem.bytes⟩) ++ [⟨p.eof, []⟩]

/-- One block a track for a single member, else as many as fit. -/
def trackCap (nmem : ℕ) : ℕ := if nmem = 1 then 0 else mvsTrkPackCap3350

def emitUnload (a : Attributes) (blksize : ℕ) (mem : List (Umember × List Lmblock)) : Option Unload :=
  let mem := mem.insertionSort fun m n => nameLe m.1.name n.1.name
  if mem.any fun m => m.2.any fun b => blksize < b.len then none
  else
    let cap := trackCap mem.length
    let placed := placeMembers cap .start mem
    let ntracks := (after mvsTrkOvh3350 cap .start (mem.flatMap fun m => recordLens m.2)).tt + 1
    (dirLayout placed).map fun groups =>
      { header := mvsUdebxExtent (Slices.put (Slices.put mvsUnloadEnvHdr 6 (mvsPut16 blksize)) 14 (mvsPut16 (12 + 8 + 0 + blksize : ℕ))) ntracks
        directory := directory a groups
        data := placed.flatMap Uplaced.ckds }

def writeUnloadMem (a : Attributes) (blksize : ℕ) (mem : List Umember) : Option Unload :=
  (mem.mapM fun m => (splitMember m.bytes).map fun blk => (m, blk)).bind (emitUnload a blksize)

end Cc370.Ld370
