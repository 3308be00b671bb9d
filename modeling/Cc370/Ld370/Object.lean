import Cc370.Mvs370

namespace Cc370.Ld370

/-- The low nibble of an ESD item's type byte; `lr` is also the composite type of a label. -/
inductive EsdType
  | sd | ld | er | lr | pc | cm | wx
  | other (nibble : ℕ)
deriving DecidableEq, Repr

namespace EsdType

def ofNibble : ℕ → EsdType
  | 0x0 => .sd
  | 0x1 => .ld
  | 0x2 => .er
  | 0x3 => .lr
  | 0x4 => .pc
  | 0x5 => .cm
  | 0xA => .wx
  | n => .other n

def code : EsdType → ℕ
  | .sd => 0x0
  | .ld => 0x1
  | .er => 0x2
  | .lr => 0x3
  | .pc => 0x4
  | .cm => 0x5
  | .wx => 0xA
  | .other n => n

end EsdType

def isSectType (t : EsdType) : Bool := t = .sd ∨ t = .pc ∨ t = .cm

def isObjSect (t : EsdType) : Bool := t = .sd ∨ t = .pc

def maxesd : ℕ := 512

structure Lent where
  name : Name
  type : EsdType
  addr : ℕ
  len : ℕ
deriving DecidableEq

structure Orld where
  R : ℕ
  P : ℕ
  flag : UInt8
  addr : ℕ
deriving DecidableEq

structure Ldent where
  name : Name
  addr : ℕ
  ownerLocal : ℕ
deriving DecidableEq

structure Obj where
  loc : ℕ → Option Lent
  text : ℕ → UInt8
  defn : ℕ → Bool
  textlen : ℕ
  rld : List Orld
  ld : List Ldent
  entry : Option (ℕ × ℕ)

namespace Obj

def empty : Obj := ⟨fun _ => none, fun _ => 0, fun _ => false, 0, [], [], none⟩

def esdids : List ℕ := List.range' 1 (maxesd - 1)

def lookup (o : Obj) (id : ℕ) : Option Lent := if 1 ≤ id ∧ id < maxesd then o.loc id else none

end Obj

structure Deck where
  buf : Buffer
  len : ℕ

namespace Deck

def card (d : Deck) (k : ℕ) : Buffer := fun p => d.buf (80 * k + p)

def cards (d : Deck) : List Buffer := (List.range (d.len / 80)).map d.card

/-- The deck of the given cards, each filled up with blanks. -/
def ofCards (cs : List (List UInt8)) : Deck :=
  ⟨fun p => (cs.getD (p / 80) []).getD (p % 80) 0x40, 80 * cs.length⟩

def esdItem (name : Name) (type : UInt8) (addr len : ℕ) : List UInt8 :=
  name.toList ++ [type] ++ mvsPut24 addr ++ [0x40] ++ mvsPut24 len

def esdCard (first : ℕ) (es : List (List UInt8)) : List UInt8 :=
  [0x02, 0xC5, 0xE2, 0xC4] ++ List.replicate 6 0x40 ++ mvsPut16 (16 * es.length) ++ [0x40, 0x40] ++
    mvsPut16 first ++ es.flatten

def txtCard (addr esdid : ℕ) (text : List UInt8) : List UInt8 :=
  [0x02, 0xE3, 0xE7, 0xE3, 0x40] ++ mvsPut24 addr ++ [0x40, 0x40] ++ mvsPut16 text.length ++
    [0x40, 0x40] ++ mvsPut16 esdid ++ text

def rldCard (data : List UInt8) : List UInt8 :=
  [0x02, 0xD9, 0xD3, 0xC4] ++ List.replicate 6 0x40 ++ mvsPut16 data.length ++
    List.replicate 4 0x40 ++ data

def endCard : List UInt8 := [0x02, 0xC5, 0xD5, 0xC4]

end Deck

def cardIs (c : Buffer) (a b e : UInt8) : Bool := c 1 = a ∧ c 2 = b ∧ c 3 = e

def notADeck (d : Deck) : Option String :=
  if 8 ≤ d.len ∧ (List.range 8).map d.buf = [0x21, 0x3C, 0x61, 0x72, 0x63, 0x68, 0x3E, 0x0A] then
    some "is an archive; name it with .a, or link it with -l"
  else if 8 ≤ d.len ∧ (List.range' 2 6).map d.buf = [0xC9, 0xD5, 0xD4, 0xD9, 0xF0, 0xF1] then
    some "is a TSO transmission (XMIT), not an object deck"
  else if d.len = 0 ∨ d.len % 80 ≠ 0 then
    some "is not an object deck (not a multiple of 80-byte cards)"
  else if d.cards.any (fun c => c 0 ≠ 0x02) then
    some "is not an object deck (a card does not begin X'02')"
  else if d.cards.any (fun c => cardIs c 0xC5 0xD5 0xC4) then none
  else some "is not an object deck (no END card)"

def parseEsdItem (c : Buffer) (first : ℕ) (st : Obj × ℕ) (k : ℕ) : Obj × ℕ :=
  let (o, nid) := st
  let e := 16 + k * 16
  let ty := EsdType.ofNibble ((c (e + 8)).toNat % 16)
  if ty = .ld then
    ({ o with ld := o.ld ++ [⟨nameAt c e, mvsBe24 c (e + 9), mvsBe24 c (e + 13)⟩] }, nid)
  else
    let id := first + nid
    if id < 1 ∨ maxesd ≤ id then (o, nid + 1)
    else
      let item : Lent := ⟨nameAt c e, ty, mvsBe24 c (e + 9), mvsBe24 c (e + 13)⟩
      ({ o with loc := Function.update o.loc id (some item) }, nid + 1)

def parseEsd (c : Buffer) (o : Obj) : Obj :=
  ((List.range (mvsBe16 c 10 / 16)).foldl (parseEsdItem c (mvsBe16 c 14)) (o, 0)).1

def parseTxt (c : Buffer) (o : Obj) : Obj :=
  let addr := mvsBe24 c 5
  let cnt := mvsBe16 c 10
  if cnt = 0 then o
  else
    { o with
      text := fun a => if addr ≤ a ∧ a < addr + cnt then c (16 + (a - addr)) else o.text a
      defn := fun a => if addr ≤ a ∧ a < addr + cnt then true else o.defn a
      textlen := max o.textlen (addr + cnt) }

/-- The `while` over the items of an RLD card; `fuel` bounds the steps of `p` below 80. -/
def parseRldItems (c : Buffer) (fin : ℕ) : ℕ → ℕ → Bool → ℕ → ℕ → List Orld
  | 0, _, _, _, _ => []
  | fuel + 1, p, same, R, P =>
    if p + 4 ≤ fin ∧ p + 4 ≤ 80 then
      let R' := if same then R else mvsBe16 c p
      let P' := if same then P else mvsBe16 c (p + 2)
      let q := if same then p else p + 4
      if fin < q + 4 then []
      else
        ⟨R', P', c q, mvsBe24 c (q + 1)⟩ ::
          parseRldItems c fin fuel (q + 4) ((c q).toNat % 2 = 1) R' P'
    else []

def parseRld (c : Buffer) (o : Obj) : Obj :=
  { o with rld := o.rld ++ parseRldItems c (16 + mvsBe16 c 10) 17 16 false 0 0 }

def parseEnd (c : Buffer) (o : Obj) : Obj :=
  if c 5 = 0x40 ∧ c 6 = 0x40 ∧ c 7 = 0x40 then o
  else { o with entry := some (mvsBe16 c 14, mvsBe24 c 5) }

def parseCard (o : Obj) (c : Buffer) : Obj :=
  if c 0 ≠ 0x02 then o
  else if cardIs c 0xC5 0xE2 0xC4 then parseEsd c o
  else if cardIs c 0xE3 0xE7 0xE3 then parseTxt c o
  else if cardIs c 0xD9 0xD3 0xC4 then parseRld c o
  else if cardIs c 0xC5 0xD5 0xC4 then parseEnd c o
  else o

def parseObject (d : Deck) : Obj := d.cards.foldl parseCard Obj.empty

end Cc370.Ld370
