import Cc370.Obj370

namespace Cc370.Dasm370

open Obj370

def maxSectBytes : ℕ := 1024 * 1024

def maxRld : ℕ := 8192

def maxEsd : ℕ := 4096

def mvsE2aTab : List ℕ :=
  [0x00, 0x01, 0x02, 0x03, 0x9C, 0x09, 0x86, 0x7F, 0x97, 0x8D, 0x8E, 0x0B, 0x0C, 0x0D, 0x0E, 0x0F,
    0x10, 0x11, 0x12, 0x13, 0x9D, 0x0A, 0x08, 0x87, 0x18, 0x19, 0x92, 0x8F, 0x1C, 0x1D, 0x1E, 0x1F,
    0x80, 0x81, 0x82, 0x83, 0x84, 0x85, 0x17, 0x1B, 0x88, 0x89, 0x8A, 0x8B, 0x8C, 0x05, 0x06, 0x07,
    0x90, 0x91, 0x16, 0x93, 0x94, 0x95, 0x96, 0x04, 0x98, 0x99, 0x9A, 0x9B, 0x14, 0x15, 0x9E, 0x1A,
    0x20, 0xA0, 0xE2, 0xE4, 0xE0, 0xE1, 0xE3, 0xE5, 0xE7, 0xF1, 0xA2, 0x2E, 0x3C, 0x28, 0x2B, 0x7C,
    0x26, 0xE9, 0xEA, 0xEB, 0xE8, 0xED, 0xEE, 0xEF, 0xEC, 0xDF, 0x21, 0x24, 0x2A, 0x29, 0x3B, 0xAC,
    0x2D, 0x2F, 0xC2, 0xC4, 0xC0, 0xC1, 0xC3, 0xC5, 0xC7, 0xD1, 0xA6, 0x2C, 0x25, 0x5F, 0x3E, 0x3F,
    0xF8, 0xC9, 0xCA, 0xCB, 0xC8, 0xCD, 0xCE, 0xCF, 0xCC, 0x60, 0x3A, 0x23, 0x40, 0x27, 0x3D, 0x22,
    0xD8, 0x61, 0x62, 0x63, 0x64, 0x65, 0x66, 0x67, 0x68, 0x69, 0xAB, 0xBB, 0xF0, 0xFD, 0xFE, 0xB1,
    0xB0, 0x6A, 0x6B, 0x6C, 0x6D, 0x6E, 0x6F, 0x70, 0x71, 0x72, 0xAA, 0xBA, 0xE6, 0xB8, 0xC6, 0xA4,
    0xB5, 0x7E, 0x73, 0x74, 0x75, 0x76, 0x77, 0x78, 0x79, 0x7A, 0xA1, 0xBF, 0xD0, 0xDD, 0xDE, 0xAE,
    0x5E, 0xA3, 0xA5, 0xB7, 0xA9, 0xA7, 0xB6, 0xBC, 0xBD, 0xBE, 0x5B, 0x5D, 0xAF, 0xA8, 0xB4, 0xD7,
    0x7B, 0x41, 0x42, 0x43, 0x44, 0x45, 0x46, 0x47, 0x48, 0x49, 0xAD, 0xF4, 0xF6, 0xF2, 0xF3, 0xF5,
    0x7D, 0x4A, 0x4B, 0x4C, 0x4D, 0x4E, 0x4F, 0x50, 0x51, 0x52, 0xB9, 0xFB, 0xFC, 0xF9, 0xFA, 0xFF,
    0x5C, 0xF7, 0x53, 0x54, 0x55, 0x56, 0x57, 0x58, 0x59, 0x5A, 0xB2, 0xD4, 0xD6, 0xD2, 0xD3, 0xD5,
    0x30, 0x31, 0x32, 0x33, 0x34, 0x35, 0x36, 0x37, 0x38, 0x39, 0xB3, 0xDB, 0xDC, 0xD9, 0xDA, 0x9F]

/-- A name without its trailing blanks, as the source spells it. -/
def nameOf (n : Name) : List Char :=
  ((n.toList.map fun b => Char.ofNat (mvsE2aTab.getD b.toNat 0)).reverse.dropWhile (· = ' ')).reverse

/-- A relocatable field of the section. -/
structure RldItem where
  addr : ℕ
  len : ℕ
  r : ℕ
deriving DecidableEq

/-- An entry point -/
structure LdItem where
  addr : ℕ
  owner : ℕ
  name : List Char
deriving DecidableEq

/-- The section that is disassembled and what the deck says about its surroundings. -/
structure Sect where
  esdid : ℕ
  org : ℕ
  len : ℕ
  name : List Char
  img : ℕ → UInt8
  cov : ℕ → Bool
  rld : List RldItem
  esdName : ℕ → List Char
  esdSection : ℕ → Bool
  esdAddr : ℕ → ℕ
  ld : List LdItem
  entry : Option ℤ

def textSection (type : ℕ) : Bool := type = 0x00 ∨ type = 0x04

/-- The last entry that the deck gives to an ESDID. -/
def esdOf (deck : List Buffer) (id : ℕ) : Option Esd :=
  if 0 < id ∧ id < maxEsd then (deckEsd deck).reverse.find? fun e => e.esdid = id else none

/-- The section of a name, or the first one if no name is asked for. -/
def findSection (deck : List Buffer) (want : Option (List Char)) : Option Esd :=
  (deckEsd deck).find? fun e => textSection e.type ∧ e.esdid ≠ 0 ∧ (want.all fun w => nameOf e.name = w)

/-- The bytes that the TXT cards of a section put at an offset, in the order of the cards. -/
def textAt (deck : List Buffer) (esdid org a : ℕ) : List UInt8 :=
  (deckTxt deck).flatMap fun t =>
    if t.esdid = esdid ∧ org ≤ t.addr ∧ t.addr - org + t.data.length ≤ maxSectBytes ∧ t.addr - org ≤ a then
      (t.data[a - (t.addr - org)]?).toList
    else []

/-- The RLD items filed under a section. -/
def rldOf (deck : List Buffer) (e : Esd) : List RldItem :=
  ((deckRld deck).filter fun it => it.p = e.esdid ∧ e.addr ≤ it.addr ∧ it.addr - e.addr < e.len).map fun it =>
    ⟨it.addr - e.addr, it.len, it.r⟩

structure End where
  entryAddr : ℕ
  entryEsdid : ℕ

/-- The entry that an END card names. -/
def endGet (c : Buffer) : Option End :=
  if cardType c = .end ∧ ¬ (c 5 = 0x40 ∧ c 6 = 0x40 ∧ c 7 = 0x40) then some ⟨mvsBe24 c 5, mvsBe16 c 14⟩ else none

/-- `load_section` of an object deck; `none` is a return code other than 0, or no object deck. -/
def loadSection (deck : List Buffer) (want : Option (List Char)) : Option Sect := do
  let first ← deck.head?
  let e ← findSection deck want
  if first 0 ≠ 0x02 ∨ maxSectBytes < e.len then none
  else if e.len = 0 ∧ want = none ∧ (((deckEsd deck).filter fun x => textSection x.type).take 64).any fun x => 0 < x.len then none
  else some {
    esdid := e.esdid
    org := e.addr
    len := e.len
    name := nameOf e.name
    img := fun a => (textAt deck e.esdid e.addr a).getLast?.getD 0
    cov := fun a => textAt deck e.esdid e.addr a ≠ []
    rld := (rldOf deck e).take maxRld
    esdName := fun id => ((esdOf deck id).map fun x => nameOf x.name).getD []
    esdSection := fun id => (esdOf deck id).any fun x => x.type = 0x00 ∨ x.type = 0x04 ∨ x.type = 0x05
    esdAddr := fun id => ((esdOf deck id).map Esd.addr).getD 0
    ld := (((deckEsd deck).filter fun x => x.type = 0x01).take 256).map fun x => ⟨x.addr, x.len, nameOf x.name⟩
    entry := (((deck.filterMap endGet).filter fun x => x.entryEsdid = e.esdid).getLast?).map fun x =>
      (x.entryAddr : ℤ) - e.addr }

namespace Sect

variable (s : Sect)

/-- The field of an item, as an unsigned number. -/
def fieldVal (r : RldItem) : ℕ := (List.range r.len).foldl (fun v i => v * 256 + (s.img (r.addr + i)).toNat) 0

/-- The entry point is in the section. -/
def inside (l : LdItem) : Bool := l.owner = s.esdid ∧ s.org ≤ l.addr ∧ l.addr - s.org < s.len

/-- The entry points of the section; `derive_labels` makes the offsets relative. -/
def entries : List (ℕ × List Char) :=
  (s.ld.filter fun l => l.owner = s.esdid).map fun l => (if s.inside l then l.addr - s.org else l.addr, l.name)

/-- `derive_labels`: the offsets that the disassembly names. -/
def lab (a : ℕ) : Bool :=
  a = 0 ∨ s.entry = some (a : ℤ) ∧ a < s.len ∨ (s.ld.any fun l => s.inside l ∧ l.addr - s.org = a) ∨
    (s.rld.any fun r => r.r = s.esdid ∧ r.len = 4 ∧ (s.fieldVal r : ℤ) - s.org = a ∧ a < s.len)

end Sect

end Cc370.Dasm370
