import Cc370.Mvs370

namespace Cc370.Obj370

inductive CardType
  | esd | txt | rld | «end» | sym | other
deriving DecidableEq, Repr

def cardType (c : Buffer) : CardType :=
  if c 0 ≠ 0x02 then .other
  else if c 1 = 0xC5 ∧ c 2 = 0xE2 ∧ c 3 = 0xC4 then .esd
  else if c 1 = 0xE3 ∧ c 2 = 0xE7 ∧ c 3 = 0xE3 then .txt
  else if c 1 = 0xD9 ∧ c 2 = 0xD3 ∧ c 3 = 0xC4 then .rld
  else if c 1 = 0xC5 ∧ c 2 = 0xD5 ∧ c 3 = 0xC4 then .end
  else if c 1 = 0xE2 ∧ c 2 = 0xE8 ∧ c 3 = 0xD4 then .sym
  else .other

structure Esd where
  name : Name
  type : ℕ
  addr : ℕ
  len : ℕ
  esdid : ℕ
deriving DecidableEq

def ld : ℕ := 0x01

def isSection (type : ℕ) : Bool := type = 0x00 ∨ type = 0x04 ∨ type = 0x05

/-- The loop of `obj_esd_walk` from item `k` on, `nid` items with an ESDID before it. -/
def esdItems (c : Buffer) (first : ℕ) : ℕ → ℕ → ℕ → List Esd
  | 0, _, _ => []
  | fuel + 1, k, nid =>
    if k * 16 < mvsBe16 c 10 ∧ 16 + (k + 1) * 16 ≤ 80 then
      let e := 16 + k * 16
      let type := (c (e + 8)).toNat % 16
      let esdid := if type = ld then 0 else first + nid
      ⟨nameAt c e, type, mvsBe24 c (e + 9), mvsBe24 c (e + 13), esdid⟩ ::
        esdItems c first fuel (k + 1) (if type = ld then nid else nid + 1)
    else []

def esdWalk (c : Buffer) : List Esd :=
  if cardType c = .esd then esdItems c (mvsBe16 c 14) 5 0 0 else []

structure Txt where
  addr : ℕ
  esdid : ℕ
  data : List UInt8
deriving DecidableEq

def txtGet (c : Buffer) : Option Txt :=
  if cardType c = .txt then
    let cnt := if 80 < 16 + mvsBe16 c 10 then 80 - 16 else mvsBe16 c 10
    some ⟨mvsBe24 c 5, mvsBe16 c 14, (List.range cnt).map fun i => c (16 + i)⟩
  else none

structure Rld where
  r : ℕ
  p : ℕ
  flag : UInt8
  addr : ℕ
deriving DecidableEq

namespace Rld

def type (it : Rld) : ℕ := it.flag.toNat / 16

def len (it : Rld) : ℕ := it.flag.toNat / 4 % 4 + 1

def negative (it : Rld) : Bool := it.flag.toNat / 2 % 2 = 1

end Rld

def rldItems (d : Buffer) (len : ℕ) : ℕ → ℕ → ℕ → ℕ → Bool → List Rld
  | 0, _, _, _, _ => []
  | fuel + 1, p, r, pp, same =>
    if p + 4 ≤ len then
      let r' := if same then r else mvsBe16 d p
      let pp' := if same then pp else mvsBe16 d (p + 2)
      let q := if same then p else p + 4
      if len < q + 4 then []
      else ⟨r', pp', d q, mvsBe24 d (q + 1)⟩ ::
        rldItems d len fuel (q + 4) r' pp' ((d q).toNat % 2 = 1)
    else []

def rldWalk (c : Buffer) : List Rld :=
  if cardType c = .rld then
    let cnt := if 80 - 16 < mvsBe16 c 10 then 80 - 16 else mvsBe16 c 10
    rldItems (fun i => c (16 + i)) cnt 17 0 0 0 false
  else []

/-- What a reader finds in a deck, card by card. -/
def deckEsd (deck : List Buffer) : List Esd := deck.flatMap esdWalk

def deckTxt (deck : List Buffer) : List Txt := deck.filterMap txtGet

def deckRld (deck : List Buffer) : List Rld := deck.flatMap rldWalk

namespace Txt

/-- The bytes of a card with the address and the ESDID each of them carries. -/
def bytes (t : Txt) : List (ℕ × ℕ × UInt8) := t.data.zipIdx.map fun (b, i) => (t.addr + i, t.esdid, b)

end Txt

/-- The text image: at each address the last byte put there, with the ESDID it carries. -/
def image (bs : List (ℕ × ℕ × UInt8)) (a : ℕ) : Option (ℕ × UInt8) :=
  (bs.reverse.find? fun b => b.1 = a).map Prod.snd

def deckImage (deck : List Buffer) : ℕ → Option (ℕ × UInt8) := image ((deckTxt deck).flatMap Txt.bytes)

end Cc370.Obj370
