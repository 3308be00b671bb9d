import Cc370.Ld370.Object
import Cc370.Dasm370.Section
import Cc370.Lib.Decimal

namespace Cc370

def mvsE2aPr (c : UInt8) : UInt8 :=
  let a := Dasm370.mvsE2aTab.getD c.toNat 0
  if 0x20 ≤ a ∧ a < 0x7F then .ofNat a else 0x3F

/-- A name in ASCII, without its trailing blanks. -/
def mvsNm (n : Name) : List UInt8 := ((n.toList.map mvsE2aPr).reverse.dropWhile (· = 0x20)).reverse

def mvsPut32 (v : ℕ) : List UInt8 := [.ofNat (v / 2 ^ 24), .ofNat (v / 2 ^ 16), .ofNat (v / 2 ^ 8), .ofNat v]

namespace Ar370

open Decimal

/-- An input: the base name of its file and the object deck. -/
structure Objf where
  member : List UInt8
  data : List UInt8
deriving DecidableEq

def memberNameMax : ℕ := 63

def deckOf (data : List UInt8) : Ld370.Deck := ⟨ofBytes data, data.length⟩

def esdTypes : List ℕ := [0x00, 0x01, 0x04, 0x05]

/-- The exported symbols of an ESD card. -/
def cardSymbols (c : Buffer) : List (List UInt8) :=
  if c 0 = 0x02 ∧ Ld370.cardIs c 0xC5 0xE2 0xC4 then
    ((List.range 4).filter fun k => k * 16 < mvsBe16 c 10).filterMap fun k =>
      let e := 16 + k * 16
      if (c (e + 8)).toNat % 16 ∈ esdTypes ∧ nameAt c e ≠ blankName then some (mvsNm (nameAt c e)) else none
  else []

def scanEsd (d : Ld370.Deck) : List (List UInt8) := d.cards.flatMap cardSymbols

def arSizeMax : ℕ := 9999999999

def field (n : ℕ) (l : List UInt8) : List UInt8 := l.take n ++ List.replicate (n - l.length) 0x20

def numberField (n v : ℕ) : List UInt8 := decimal v ++ List.replicate (n - (decimal v).length) 0x20

def arHdr (namefield : List UInt8) (size : ℕ) : List UInt8 :=
  (field 16 namefield ++ numberField 12 0 ++ numberField 6 0 ++ numberField 6 0 ++
    field 8 [0x31, 0x30, 0x30, 0x36, 0x34, 0x34] ++ numberField 10 size ++ [0x60, 0x0A]).take 60

def notADeck (d : Ld370.Deck) : Option String :=
  if 8 ≤ d.len ∧ (List.range 8).map d.buf = [0x21, 0x3C, 0x61, 0x72, 0x63, 0x68, 0x3E, 0x0A] then
    some "is an archive, not an object deck"
  else if d.len = 0 ∨ d.len % 80 ≠ 0 then some "is not an object deck (not a multiple of 80-byte cards)"
  else if d.cards.any (fun c => c 0 ≠ 0x02) then some "is not an object deck (a card does not begin X'02')"
  else if d.cards.any (fun c => Ld370.cardIs c 0xC5 0xD5 0xC4) then none
  else some "is not an object deck (no END card)"

def isLong (o : Objf) : Bool := 15 < o.member.length

/-- A newline behind data of odd length. -/
def pad (n : ℕ) : List UInt8 := if n % 2 = 1 then [0x0A] else []

section Create

variable (objs : List Objf)

/-- The offset of each long name in its member. -/
def lnoff : ℕ → List Objf → List (Option ℕ)
  | _, [] => []
  | n, o :: os => if isLong o then some n :: lnoff (n + o.member.length + 2) os else none :: lnoff n os

def longNames : List UInt8 := (objs.filter isLong).flatMap fun o => o.member ++ [0x2F, 0x0A]

/-- Every symbol with the input that exports it. -/
def symbols : List (List UInt8 × ℕ) := objs.zipIdx.flatMap fun o => (scanEsd (deckOf o.1.data)).map fun s => (s, o.2)

def stringtab : List UInt8 := (symbols objs).flatMap fun s => s.1 ++ [0x00]

def symdata : ℕ := 4 + 4 * (symbols objs).length + (stringtab objs).length

def symmember : ℕ := 60 + symdata objs + symdata objs % 2

def lnmember : ℕ := if (longNames objs).length = 0 then 0 else 60 + (longNames objs).length + (longNames objs).length % 2

def memberSize (o : Objf) : ℕ := 60 + o.data.length + o.data.length % 2

def objoff (i : ℕ) : ℕ := 8 + symmember objs + lnmember objs + ((objs.take i).map memberSize).sum

def writeSymtab : List UInt8 :=
  arHdr [0x2F] (symdata objs) ++ mvsPut32 (symbols objs).length ++
    (symbols objs).flatMap (fun s => mvsPut32 (objoff objs s.2)) ++ stringtab objs ++ pad (symdata objs)

def writeLongNames : List UInt8 :=
  if (longNames objs).length = 0 then []
  else arHdr [0x2F, 0x2F] (longNames objs).length ++ longNames objs ++ pad (longNames objs).length

def memberField (o : Objf) (ln : Option ℕ) : List UInt8 :=
  match ln with
  | some n => 0x2F :: decimal n
  | none => o.member.take 15 ++ [0x2F]

def writeMember (o : Objf) (ln : Option ℕ) : List UInt8 :=
  arHdr (memberField o ln) o.data.length ++ o.data ++ pad o.data.length

def writeMembers : List (List UInt8) := (objs.zip (lnoff 0 objs)).map fun o => writeMember o.1 o.2

def magic : List UInt8 := [0x21, 0x3C, 0x61, 0x72, 0x63, 0x68, 0x3E, 0x0A]

/-- The archive, unless an input is refused or a header cannot express a size. -/
def create : Option (List UInt8) :=
  if objs.any fun o => (notADeck (deckOf o.data)).isSome ∨ memberNameMax < o.member.length then none
  else if arSizeMax < symdata objs ∨ arSizeMax < (longNames objs).length ∨ objs.any fun o => arSizeMax < o.data.length then none
  else some (magic ++ writeSymtab objs ++ writeLongNames objs ++ (writeMembers objs).flatten)

end Create

end Ar370

end Cc370
