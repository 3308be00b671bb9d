import Cc370.Netdata
import Cc370.Geometry

namespace Cc370.Xmit370

section Control

variable (o : Options)

def ascii (s : String) : List UInt8 := s.toList.map fun c => .ofNat c.toNat

def padded (n v : ℕ) : List UInt8 := (List.range n).map fun i => .ofNat (0x30 + v / 10 ^ (n - 1 - i) % 10)

/-- The time of the transmission, in sixteen digits. -/
def xmitFtime : List UInt8 :=
  let t := o.statsDate.getD o.now
  (padded 4 t.year ++ padded 2 t.mon ++ padded 2 t.mday ++ padded 2 t.hour ++ padded 2 t.min ++ padded 2 t.sec ++
    [0x30, 0x30]).map mvsA2e

def countDirBlocks (nmem : ℕ) : ℕ :=
  if nmem ≤ perLast o then 1 else 1 + countDirBlocks (nmem - perFull o)
termination_by nmem
decreasing_by
  have hpos := perFull_pos o
  omega

def inmr01 : List UInt8 :=
  mvsInmrHdr 1 ++ mvsTui .lrecl 80 4 ++ mvsTus .fnode (ascii "ORIGNODE") ++ mvsTus .fuid o.userid ++
    mvsTus .tnode (ascii "ORIGNODE") ++ mvsTus .tuid o.userid ++ mvsTu .ftime (xmitFtime o) ++ mvsTui .numf 1 1

/-- The attributes of the library. -/
def inmr02Iebcopy (nmem dataSize : ℕ) : List UInt8 :=
  mvsInmrHdr 2 ++ [0x00, 0x00, 0x00, 0x01] ++ mvsTus .utiln (ascii "IEBCOPY") ++ mvsTui .size dataSize 4 ++
    mvsTui .dir (max 10 (countDirBlocks o nmem + 5)) 3 ++ mvsTui .lrecl o.lrecl 4 ++ mvsTui .dsorg 0x0200 2 ++
    mvsTui .blksz o.blksize 4 ++ mvsTui .recfm (o.recfm.code * 256) 2 ++ mvsTuDsname o.dsn

/-- The unloaded form. -/
def inmr02Inmcopy (unlSize : ℕ) : List UInt8 :=
  mvsInmrHdr 2 ++ [0x00, 0x00, 0x00, 0x01] ++ mvsTus .utiln (ascii "INMCOPY") ++ mvsTui .size unlSize 4 ++
    mvsTui .lrecl (unlBlksize o - 4) 4 ++ mvsTui .dsorg 0x4000 2 ++ mvsTui .blksz (unlBlksize o) 4 ++ mvsTui .recfm 0x4802 2

def inmr03 (dataSize : ℕ) : List UInt8 :=
  mvsInmrHdr 3 ++ mvsTui .size dataSize 4 ++ mvsTui .lrecl 80 4 ++ mvsTui .dsorg 0x4000 2 ++ mvsTui .recfm 0x0001 2

def inmr06 : List UInt8 := mvsInmrHdr 6

end Control

section Frames

variable (u : Buffer)

/-- The length of the CKD record at `q`. -/
def ckdLen (q : ℕ) : ℕ := 12 + (u (q + 9)).toNat + mvsBe16 u (q + 10)

/-- The logical records of the directory up to `b2`, each as its offset and length; the end of the
directory goes with the last block. -/
def dirFrames (b2 : ℕ) : ℕ → ℕ → List (ℕ × ℕ)
  | 0, _ => []
  | fuel + 1, q =>
    if q < b2 then
      let reclen := ckdLen u q
      let nq := q + reclen
      let reclen' := if nq < b2 ∧ b2 ≤ nq + ckdLen u nq then reclen + ckdLen u nq else reclen
      (q, reclen') :: dirFrames b2 fuel (q + reclen')
    else []

/-- The length of the logical record that has `clen` bytes and goes on at `q`. -/
def frameLen (b3 maxrec : ℕ) : ℕ → ℕ → ℕ → ℕ
  | 0, _, clen => clen
  | fuel + 1, q, clen =>
    if q < b3 then
      let dl := mvsBe16 u (q + 10)
      let reclen := ckdLen u q
      if 0 < clen ∧ maxrec < clen + reclen then clen
      else if dl = 0 then clen + reclen
      else if maxrec ≤ clen + reclen then clen + reclen
      else frameLen b3 maxrec fuel (q + reclen) (clen + reclen)
    else clen

/-- The logical records of the members up to `b3`. -/
def dataFrames (b3 maxrec : ℕ) : ℕ → ℕ → List (ℕ × ℕ)
  | 0, _ => []
  | fuel + 1, q =>
    if q < b3 then
      let clen := frameLen u b3 maxrec b3 q 0
      (q, clen) :: dataFrames b3 maxrec fuel (q + clen)
    else []

end Frames

section Emit

variable (o : Options) (mem : List Member)

def recvMaxrec : ℕ := 32764

def maxrec : ℕ := min recvMaxrec (o.blksize + 20)

/-- Where the directory ends in the image. -/
def bounds2 (u : Unload) : ℕ := u.header.length + u.directory.flatten.length + 12

def bounds3 (u : Unload) : ℕ := u.bytes.length

def slice (l : List UInt8) (f : ℕ × ℕ) : List UInt8 := (l.drop f.1).take f.2

/-- The data records of the transmission: COPYR1, COPYR2, the directory and the members. -/
def copyRecords (u : Unload) : List (List UInt8) :=
  [u.bytes.take mvsCopyr1Len, (u.bytes.drop mvsCopyr1Len).take (mvsEnvHdrLen - mvsCopyr1Len)]

def dirRecords (u : Unload) : List (List UInt8) :=
  (dirFrames (ofBytes u.bytes) (bounds2 u) (bounds2 u) mvsEnvHdrLen).map (slice u.bytes)

def dataRecords (u : Unload) : List (List UInt8) :=
  (dataFrames (ofBytes u.bytes) (bounds3 u) (maxrec o) (bounds3 u) (bounds2 u)).map (slice u.bytes)

def controlRecords (u : Unload) : List (List UInt8) :=
  let dataSize := bounds3 u - bounds2 u
  [inmr01 o, inmr02Iebcopy o mem.length dataSize, inmr02Inmcopy o (bounds3 u), inmr03 dataSize]

/-- The logical records in the order of the transmission. -/
def logRecs : List LogRec :=
  let u := emitUnload o mem
  (controlRecords o mem u).map (LogRec.mk true) ++ (copyRecords u ++ dirRecords u ++ dataRecords o u).map (LogRec.mk false) ++
    [⟨true, inmr06⟩]

def emitXmit : List UInt8 :=
  let s := (logRecs o mem).flatMap mvsNetdataSeg
  s ++ List.replicate ((80 - s.length % 80) % 80) 0x00

/-- The size that `do_create` expects of the unloaded image. -/
def unloadSize : ℕ :=
  mvsEnvHdrLen + 12 + countDirBlocks o mem.length * (12 + 8 + dirBlk) +
    (mem.map fun m => ((blocks o m).map fun b => 12 + b.len).sum + 12).sum

/-- The size of the buffer for the transmission. -/
def xcap : ℕ := unloadSize o mem + unloadSize o mem / 32 + 65536

end Emit

end Cc370.Xmit370
