import Cc370.Dasm370.Tiling
import Cc370.As370.Sections
import Cc370.As370.Expansion

namespace Cc370

namespace As370.Pass1

variable (σ : Pass1)

/-- ENTRY enters its symbol; its LD carries no ESDID. -/
def entry (nm : List Char) : Pass1 := if nm = [] then σ else σ.setSym (.src nm) (σ.symGet (.src nm))

/-- A V-type constant enters the external that it names. -/
def vcon (nm : List Char) : Pass1 :=
  if nm = [] then σ
  else
    let s := σ.symGet (.src nm)
    (σ.setSym (.src nm) { s with type := if s.defined then s.type else .er }).esdAdd (.src nm) .er

/-- The ESDID of a symbol by its place in the table. -/
def erEsdid (idx : ℕ) : ℕ :=
  (σ.esdEntries.find? fun e => (σ.find e.1).any fun s => s.idx = idx).elim 0 fun e => σ.symEsdid e.1

/-- The name of an ESD entry. -/
def esdidName (id : ℕ) : List Char :=
  (σ.esdEntries.find? fun e => e.2.2 = id).elim [] fun e =>
    match e.1 with
    | .src nm => nm
    | _ => []

def originAt (id : ℕ) : ℤ := ((σ.origins.find? fun x => x.1 = id).map Prod.snd).getD 0

end As370.Pass1

namespace As370.DcScope

variable (E : DcScope)

/-- The relocation of a V-type constant, against the ER entry of its name if there is one. -/
def vReloc (er : List Char → Option ℕ) (nm : List Char) (len : ℕ) : Reloc :=
  { E.relocAt len ((er nm).getD (((E.find nm).bind fun s =>
      [s.esdid, s.eqEsdid, E.sectEsdid s.sect].find? (· ≠ 0)).getD E.curEsdid)) false with isV := 1 }

end As370.DcScope

namespace Dasm370

open Obj370 As370

/-- A card of the source that is written for a section. -/
inductive Card
  | csect (nm : List Char)
  | entry (nm : List Char)
  | extrn (nm : List Char)
  | stmt (lbl : List Char) (t : Stmt)
  | «end»

/-- The expression of an address constant. -/
def AddrCon.text (c : AddrCon) : List Char :=
  c.sym ++ c.plus.elim [] fun n => '+' :: 'X' :: '\'' :: (hexText 0 n ++ ['\''])

def AddrCon.len (c : AddrCon) : ℕ := c.mod.getD 4

namespace Sect

variable (s : Sect)

/-- The other sections and the externals that the fields are relocated by, in the order of their ESDIDs. -/
def externals : List (List Char) :=
  ((List.range maxEsd).filter fun i => 0 < i ∧ s.esdName i ≠ [] ∧ i ≠ s.esdid ∧ s.rld.any fun r => r.r = i).map s.esdName

def entryNames : List (List Char) := (s.ld.filter fun l => l.owner = s.esdid).map LdItem.name

def source (optab : List Opc) : List Card :=
  .csect s.name :: (s.entryNames.map .entry ++ s.externals.map .extrn ++
    (s.walkSection optab).map (fun l => .stmt l.label l.stmt) ++ [.end])

end Sect

/-- A card in pass 1. -/
def Card.pass1 (i : ℕ) (σ : Pass1) : Card → Pass1
  | .csect nm => σ.csect nm none
  | .entry nm => σ.entry nm
  | .extrn nm => σ.extrn nm
  | .stmt lbl t =>
    match t with
    | .dcAddr c => if c.isV then (σ.place i lbl t.align t.size).vcon c.sym else σ.place i lbl t.align t.size
    | _ => σ.place i lbl t.align t.size
  | .end => σ

def pass1 : ℕ → Pass1 → List Card → Pass1
  | _, σ, [] => σ
  | i, σ, c :: cs => pass1 (i + 1) (c.pass1 i σ) cs

/-- An address constant of the new deck: its offset, its length and what the assembler makes of it. -/
structure Field where
  off : ℕ
  len : ℕ
  out : AdconOut

section Assemble

variable (σ : Pass1)

def addrCon (off : ℕ) (c : AddrCon) : AdconOut :=
  let E := σ.scope (σ.originAt σ.curSect + off) σ.curSect σ.erEsdid
  let er (nm : List Char) := (σ.esdEntries.find? fun e => e.1 = .src nm ∧ e.2.1 = .er).map fun e => e.2.2
  if c.isV then ⟨0, [E.vReloc er c.sym c.len], []⟩ else E.dcAdcon .a c.len true c.text

/-- The address constants of the source. -/
def fieldsOf (cards : List Card) : List Field :=
  (place 0 (cards.filterMap fun x => match x with | .stmt _ t => some t | _ => none)).filterMap fun x =>
    match x.2 with
    | .dcAddr c => some ⟨x.1, c.len, addrCon σ x.1 c⟩
    | _ => none

end Assemble

/-- What is compared of an RLD item: its offset in the section, length, sign and target. -/
structure Item where
  off : ℤ
  len : ℕ
  neg : Bool
  target : List Char
deriving DecidableEq

def sign (neg : Bool) : ℤ := if neg then -1 else 1

/-- The name that the deck gives to an ESDID. -/
def deckName (deck : List Buffer) (id : ℕ) : List Char :=
  if id = 0 then [] else (((deckEsd deck).reverse.find? fun e => e.esdid = id).map fun e => nameOf e.name).getD []

section Deck

variable (deck : List Buffer) (s : Sect)

def targetName (id : ℕ) : List Char := if id = s.esdid then s.name else deckName deck id

/-- The address of a target in the deck, 0 for an external. -/
def targetAddr (id : ℕ) : ℤ := if id = s.esdid then s.org else if s.esdSection id then s.esdAddr id else 0

def oldItem (it : Rld) : Item := ⟨(it.addr : ℤ) - s.org, it.len, it.negative, targetName deck s it.r⟩

/-- The field of an item without the addresses of its targets. -/
def oldAddend (it : Rld) : ℤ :=
  s.fieldVal (itemOf s it) - (((filed deck s).filter fun x => x.addr = it.addr ∧ x.len = it.len).map fun x =>
    sign x.negative * targetAddr s x.r).sum

end Deck

section New

variable (σ : Pass1)

def newItem (r : Reloc) : Item := ⟨r.addr - σ.originAt σ.curSect, r.len, r.neg, σ.esdidName r.rel⟩

def newAddend (f : Field) : ℤ :=
  f.out.value - (f.out.rels.map fun r =>
    sign r.neg * if r.rel = σ.sectEsdidOf σ.curSect then σ.originAt σ.curSect else 0).sum

end New

section Reassembled

variable (optab : List Opc) (deck : List Buffer) (s : Sect)

/-- The cards that the assembler reads. -/
def cardsRead : List Card := (s.source optab).take Expand.maxLines

/-- The state of the assembler between its passes. -/
def assembled : Pass1 := pass1 0 .initial (cardsRead optab s)

def newFields : List Field := fieldsOf (assembled optab s) (cardsRead optab s)

def newItems : List Item := (newFields optab s).flatMap fun f => f.out.rels.map (newItem (assembled optab s))

/-- The new deck has the relocations of the old one, and every field denotes the same address. -/
structure Recreated : Prop where
  items : (newItems optab s).Perm ((filed deck s).map (oldItem deck s))
  fields : ∀ it ∈ filed deck s, ∃ f ∈ newFields optab s, (f.off : ℤ) = it.addr - s.org ∧ f.len = it.len ∧
    newAddend (assembled optab s) f ≡ oldAddend deck s it [ZMOD 256 ^ it.len]

end Reassembled

/-- A symbol that the source may hold. -/
def isSymbol (nm : List Char) : Bool :=
  nm ≠ [] ∧ nm.length ≤ 8 ∧ (nm.all fun c => c.isDigit ∨ c.isUpper ∨ c = '$' ∨ c = '#' ∨ c = '@') ∧ !nm.head?.any Char.isDigit

/-- Every name that is written is a symbol, and stands for one thing. -/
structure NamesOk (s : Sect) : Prop where
  sect : isSymbol s.name = true
  entry : ∀ nm ∈ s.entryNames, isSymbol nm = true
  ext : ∀ nm ∈ s.externals, isSymbol nm = true ∧ nm ≠ s.name
  lab : ∀ a < s.len, s.lab a = true → isSymbol (s.labelName a) = true ∧ s.labelName a ≠ s.name ∧ s.labelName a ∉ s.externals
  inj : ∀ a < s.len, ∀ b < s.len, s.lab a = true → s.lab b = true → s.labelName a = s.labelName b → a = b

/-- What an item adds to its target, as `emit_adcon` finds it. -/
def addend (s : Sect) (it : Rld) : ℤ := s.fieldVal (itemOf s it) - targetAddr s it.r

/-- A constant can be written for the item: for the section itself it is of three bytes or more, from
the section's origin on, and not for the middle of another field; for another target it is the
target's address, or lies behind it and has three bytes or more. -/
structure Spellable (s : Sect) (it : Rld) : Prop where
  inside : s.org ≤ it.addr ∧ it.addr - s.org < s.len
  covered : s.cov (it.addr - s.org) = true
  positive : it.negative = false
  own : it.r = s.esdid → 3 ≤ it.len ∧ 0 ≤ addend s it ∧
    (addend s it < s.len → s.lab (addend s it).toNat = true → Free s (addend s it).toNat)
  other : it.r ≠ s.esdid → it.r < maxEsd ∧ (addend s it = 0 ∨ 0 < addend s it ∧ 3 ≤ it.len)

/-- The items of a section that the source can express. -/
structure Expressible (deck : List Buffer) (s : Sect) : Prop where
  count : (filed deck s).length ≤ maxRld
  apart : (filed deck s).Pairwise fun x y => x.addr + x.len ≤ y.addr ∨ y.addr + y.len ≤ x.addr
  each : ∀ it ∈ filed deck s, Spellable s it

end Dasm370

end Cc370
