import Cc370.Unload
import Cc370.Ar370.Archive

namespace Cc370

namespace Xmit370

open Tracks

inductive Recfm
  | f | fb
deriving DecidableEq

def Recfm.code : Recfm → ℕ
  | .f => 0x80
  | .fb => 0x90

/-- A local time: the year, month and day, the day of the year, and the time of day. -/
structure Tm where
  year : ℕ
  mon : ℕ
  mday : ℕ
  yday : ℕ
  hour : ℕ
  min : ℕ
  sec : ℕ
deriving DecidableEq

/-- The options of `create`: `tabs` is the number that `--tabs` is given, 0 for `--no-tabs`. -/
structure Options where
  dsn : List UInt8
  lrecl : ℕ
  blocksize : Option ℕ
  recfm : Recfm
  stats : Bool
  tabs : ℕ
  latin1 : Bool
  userid : List UInt8
  statsDate : Option Tm
  now : Tm
deriving DecidableEq

namespace Options

variable (o : Options)

def blksize : ℕ := o.blocksize.getD (if o.recfm = .f then o.lrecl else 3120)

/-- `number_arg` gives a `long`, the option is an `int`. -/
def optTabs : ℤ := Int.bmod o.tabs (2 ^ 32)

/-- The checks of `do_create`. -/
def Accepted : Prop :=
  (1 ≤ o.lrecl ∧ o.lrecl ≤ 32760) ∧ (o.lrecl ≤ o.blksize ∧ o.blksize ≤ 32760) ∧ o.blksize % o.lrecl = 0 ∧
    (o.recfm = .f → o.blksize = o.lrecl) ∧ o.blksize ≤ mvsTrkMaxblk3350

instance : Decidable o.Accepted := inferInstanceAs (Decidable (_ ∧ _ ∧ _ ∧ _ ∧ _))

end Options

/-- An input: the name of the member, the file and its time. -/
structure Source where
  name : List UInt8
  raw : List UInt8
  mtime : Tm
deriving DecidableEq

section Text

variable (o : Options)

/-- The lines of a file; what is behind the last line end is one unless it is empty. -/
def rawLines (raw : List UInt8) : List (List UInt8) :=
  let ls := raw.splitOn 0x0A
  if ls.getLast? = some [] then ls.dropLast else ls

def stripCr (line : List UInt8) : List UInt8 := if line.getLast? = some 0x0D then line.dropLast else line

def stripBlanks (blank : UInt8) (l : List UInt8) : List UInt8 := (l.reverse.dropWhile (· = blank)).reverse

/-- One byte of a line: a tab is filled with blanks up to the next stop, and what has no place in a
text is an error. -/
def expandByte (tabs : ℤ) (exp : List UInt8) (c : UInt8) : Option (List UInt8) :=
  if c = 0x09 then
    if tabs = 0 then none
    else some (exp ++ List.replicate ((((exp.length : ℤ).tdiv tabs + 1) * tabs - exp.length).toNat) 0x20)
  else if 0x80 ≤ c ∧ !o.latin1 then none
  else if c < 0x20 ∨ c = 0x7F then none
  else some (exp ++ [c])

def lineRecord (line : List UInt8) : Option (List UInt8) :=
  ((stripCr line).foldlM (expandByte o o.optTabs) []).bind fun exp =>
    let cols := stripBlanks 0x20 exp
    if o.lrecl < cols.length then none
    else some (cols.map mvsA2e ++ List.replicate (o.lrecl - cols.length) 0x40)

/-- The records of a file, unless a line is in error. -/
def textToRecords (raw : List UInt8) : Option (List (List UInt8)) := (rawLines raw).mapM (lineRecord o)

end Text

/-- A member: its name and its records. -/
structure Member where
  ebc : Name
  data : List UInt8
  nrec : ℕ
  mtime : Tm
deriving DecidableEq

section Members

variable (o : Options)

def toMember (s : Source) : Option Member :=
  (textToRecords o s.raw).map fun rs => ⟨mvsName8 s.name, rs.flatten, rs.length, s.mtime⟩

/-- The members in the order of their names, unless an option, a name or a text is refused. -/
def createMembers (srcs : List Source) : Option (List Member) :=
  let srcs' := srcs.insertionSort fun s t => (mvsName8 s.name).toList ≤ (mvsName8 t.name).toList
  if o.Accepted ∧ srcs ≠ [] ∧ (∀ s ∈ srcs, 1 ≤ s.name.length ∧ s.name.length ≤ 8) ∧
      srcs'.Pairwise fun s t => mvsName8 s.name ≠ mvsName8 t.name then
    srcs'.mapM (toMember o)
  else none

end Members

structure Blk where
  off : ℕ
  len : ℕ
deriving DecidableEq

/-- A member with the places of its blocks and of its end. -/
structure Placed where
  mem : Member
  blk : List Blk
  spots : List Spot
  first : ℕ × ℕ
  eof : Spot

section Geometry

variable (o : Options)

/-- The records split into blocks; the last is short. -/
def blocks (m : Member) : List Blk :=
  let rpb := o.blksize / o.lrecl
  (List.range ((m.nrec + rpb - 1) / rpb)).map fun j => ⟨j * rpb * o.lrecl, min (m.nrec - j * rpb) rpb * o.lrecl⟩

def recordLens (m : Member) : List ℕ := (blocks o m).map Blk.len ++ [0]

def placeMember (h : Head) (m : Member) : Placed :=
  let spots := layout mvsTrkOvh3350 mvsTrkPackCap3350 h ((blocks o m).map Blk.len)
  ⟨m, blocks o m, spots, (spots.head?.map fun s => (s.tt, s.r)).getD (h.tt, h.r),
    spot mvsTrkOvh3350 mvsTrkPackCap3350 (after mvsTrkOvh3350 mvsTrkPackCap3350 h ((blocks o m).map Blk.len)) 0⟩

def assignGeometry : Head → List Member → List Placed
  | _, [] => []
  | h, m :: mem => placeMember o h m :: assignGeometry (after mvsTrkOvh3350 mvsTrkPackCap3350 h (recordLens o m)) mem

/-- The tracks up to the last record of any member. -/
def tracksUsed (placed : List Placed) : ℕ :=
  max 1 ((placed.map fun p => max ((p.spots.getLast?.map fun s => s.tt + 1).getD 0) (p.eof.tt + 1)).foldl max 0)

end Geometry

section Directory

variable (o : Options)

def dirBlk : ℕ := 256

def udLen : ℕ := if o.stats then 30 else 0

def entLen : ℕ := 12 + udLen o

def perFull : ℕ := (dirBlk - 2) / entLen o

def perLast : ℕ := (dirBlk - 2 - 12) / entLen o

def bcd2 (v : ℕ) : UInt8 := .ofNat (v / 10 * 16 + v % 10)

def packedDate (t : Tm) : List UInt8 :=
  let yy := t.year % 100
  let ddd := t.yday + 1
  [if 2000 ≤ t.year then 0x01 else 0x00, bcd2 yy, .ofNat (ddd / 100 * 16 + ddd / 10 % 10), .ofNat (ddd % 10 * 16 + 0x0F)]

/-- The statistics that ISPF keeps in the user data. -/
def buildIspfStats (m : Member) : List UInt8 :=
  let t := o.statsDate.getD m.mtime
  let lines := min m.nrec 65535
  [0x01, 0x00, 0x00, bcd2 (min t.sec 59)] ++ packedDate t ++ packedDate t ++ [bcd2 t.hour, bcd2 t.min] ++
    mvsPut16 lines ++ mvsPut16 lines ++ mvsPut16 0 ++ (mvsName8 o.userid).toList ++ [0x40, 0x40]

def entry (p : Placed) : List UInt8 :=
  p.mem.ebc.toList ++ mvsPut16 p.first.1 ++ [.ofNat p.first.2, .ofNat (udLen o / 2)] ++
    if o.stats then buildIspfStats o p.mem else []

theorem perFull_pos : 0 < perFull o := by
  unfold perFull entLen udLen
  split_ifs
  · decide
  · decide

/-- The members by directory block; the last block has room for the terminator. -/
def dirGroups (mem : List Placed) : List (List Placed) :=
  if h : mem.length ≤ perLast o then [mem] else mem.take (perFull o) :: dirGroups (mem.drop (perFull o))
termination_by mem.length
decreasing_by
  have hpos := perFull_pos o
  simp only [List.length_drop]
  omega

def dirBody (last : Bool) (mem : List Placed) : List UInt8 :=
  let used := 2 + mem.length * entLen o + if last then 12 else 0
  let l := mvsPut16 used ++ mem.flatMap (entry o) ++ if last then List.replicate 8 0xFF else []
  l ++ List.replicate (dirBlk - l.length) 0x00

def dirBlock (last : Bool) (mem : List Placed) : List UInt8 :=
  mvsPutCount 0 0 0 8 dirBlk ++
    (if last then List.replicate 8 0xFF else (mem.getLast?.map fun p => p.mem.ebc.toList).getD []) ++ dirBody o last mem

def directory (groups : List (List Placed)) : List (List UInt8) :=
  groups.zipIdx.map fun g => dirBlock o (g.2 + 1 = groups.length) g.1

end Directory

def Placed.ckds (p : Placed) : List Ckd :=
  (p.blk.zip p.spots).map (fun b => ⟨b.2, (p.mem.data.drop b.1.off).take b.1.len⟩) ++ [⟨p.eof, []⟩]

section Emit

variable (o : Options)

def unlBlksize : ℕ := max 296 (o.blksize + 20)

/-- The header with the DCB of a source library. -/
def sourceHeader : List UInt8 :=
  let h := Slices.put mvsUnloadEnvHdr 4 (mvsPut16 0x0200)
  let h := Slices.put h 6 (mvsPut16 o.blksize)
  let h := Slices.put h 8 (mvsPut16 o.lrecl)
  let h := Slices.put h 10 [.ofNat o.recfm.code]
  let h := Slices.put h 11 [0x00]
  Slices.put h 14 (mvsPut16 (unlBlksize o))

def emitUnload (mem : List Member) : Unload :=
  let placed := assignGeometry o .start mem
  { header := mvsUdebxExtent (sourceHeader o) (tracksUsed placed)
    directory := directory o (dirGroups o placed)
    data := placed.flatMap Placed.ckds }

end Emit

end Xmit370

end Cc370
